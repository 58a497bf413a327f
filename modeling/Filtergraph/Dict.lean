/-!
# Dictionaries

A dictionary holds its entries in the order of their keys, each key once, so two
dictionaries with the same entries are equal.
-/

namespace Filtergraph

/-- Puts an entry in its place among entries in the order of keys; an entry of the same
key gives way to it. -/
def insertEntry {α : Type} (key : String) (value : α) :
    List (String × α) → List (String × α)
  | [] => [(key, value)]
  | (k, v) :: rest =>
    if key < k then (key, value) :: (k, v) :: rest
    else if k < key then (k, v) :: insertEntry key value rest
    else (key, value) :: rest

/-- The value of a key. -/
def lookupEntry {α : Type} (key : String) : List (String × α) → Option α
  | [] => none
  | (k, v) :: rest => if k = key then some v else lookupEntry key rest

/-- Keys in strictly rising order. -/
def KeysRise {α : Type} (entries : List (String × α)) : Prop :=
  entries.Pairwise fun a b => a.1 < b.1

/-- A key of the longer list is the new one or was there before. -/
theorem mem_keys_insertEntry {α : Type} {key : String} {value : α} {entries : List (String × α)}
    {e : String × α} (h : e ∈ insertEntry key value entries) :
    e.1 = key ∨ ∃ e' ∈ entries, e.1 = e'.1 := by
  induction entries with
  | nil => simp_all [insertEntry]
  | cons head rest ih =>
    unfold insertEntry at h
    split at h
    · rcases List.mem_cons.1 h with rfl | h
      · exact .inl rfl
      · exact .inr ⟨e, h, rfl⟩
    · split at h
      · rcases List.mem_cons.1 h with rfl | h
        · exact .inr ⟨_, List.mem_cons_self, rfl⟩
        · rcases ih h with hk | ⟨e', he', hk⟩
          · exact .inl hk
          · exact .inr ⟨e', List.mem_cons_of_mem _ he', hk⟩
      · rcases List.mem_cons.1 h with rfl | h
        · exact .inl rfl
        · exact .inr ⟨e, List.mem_cons_of_mem _ h, rfl⟩

/-- Inserting keeps the order of keys. -/
theorem KeysRise.insertEntry {α : Type} {entries : List (String × α)} (h : KeysRise entries)
    (key : String) (value : α) : KeysRise (insertEntry key value entries) := by
  induction entries with
  | nil => exact List.pairwise_singleton _ _
  | cons head rest ih =>
    obtain ⟨hhead, hrest⟩ := List.pairwise_cons.1 h
    unfold Filtergraph.insertEntry
    split
    · rename_i hlt
      refine List.pairwise_cons.2 ⟨?_, h⟩
      intro e he
      rcases List.mem_cons.1 he with rfl | he
      · exact hlt
      · exact String.lt_trans hlt (hhead e he)
    · split
      · rename_i hlt
        refine List.pairwise_cons.2 ⟨?_, ih hrest⟩
        intro e he
        rcases mem_keys_insertEntry he with hk | ⟨e', he', hk⟩
        · rw [hk]; exact hlt
        · rw [hk]; exact hhead e' he'
      · rename_i hge hle
        have heq : key = head.1 := String.le_antisymm hle hge
        refine List.pairwise_cons.2 ⟨?_, hrest⟩
        intro e he
        rw [heq]; exact hhead e he

/-- Entries with one value for each key, in the order of keys. -/
structure Dict (α : Type) where
  entries : List (String × α)
  keysRise : KeysRise entries

namespace Dict

variable {α : Type}

/-- The dictionary without entries. -/
def empty : Dict α := ⟨[], List.Pairwise.nil⟩

/-- The dictionary with the value of one key set. -/
def insert (d : Dict α) (key : String) (value : α) : Dict α :=
  ⟨insertEntry key value d.entries, d.keysRise.insertEntry key value⟩

/-- The dictionary of a list of entries; of entries with the same key the last one counts. -/
def ofList (entries : List (String × α)) : Dict α :=
  entries.foldl (fun d e => d.insert e.1 e.2) empty

/-- The value of a key. -/
def get? (d : Dict α) (key : String) : Option α := lookupEntry key d.entries

/-- The keys, in order. -/
def keys (d : Dict α) : List String := d.entries.map Prod.fst

/-- Whether there are no entries. -/
def isEmpty (d : Dict α) : Bool := d.entries.isEmpty

end Dict

end Filtergraph
