import Mathlib.Data.List.Forall2
import Mathlib.Data.List.Nodup
import Mathlib.Data.List.Perm.Subperm
import Filtergraph.Proofs.Table

/-!
# Lists

Most of what the passes and the writing do can be said by lists side by side: the slots of a
node before and after, the mappings and their labels, the heads and their statements. Uses
are counted by sorting a list by keys.
-/

namespace Filtergraph

open Filtergraph.Graph

/-! ## Lists side by side -/

section Forall₂

variable {α β γ : Type} {R : α → β → Prop} {l : List α} {l' : List β}

/-- Tests that agree on matching items hold equally often on both sides. -/
theorem forall₂_countP {p : α → Bool} {q : β → Bool} (h : List.Forall₂ R l l')
    (hpq : ∀ a b, R a b → p a = q b) : l.countP p = l'.countP q := by
  induction h with
  | nil => rfl
  | cons hab _ ih => rw [List.countP_cons, List.countP_cons, ih, hpq _ _ hab]

theorem forall₂_map_eq {p : α → γ} {q : β → γ} (h : List.Forall₂ R l l')
    (hpq : ∀ a ∈ l, ∀ b, R a b → p a = q b) : l.map p = l'.map q := by
  induction h with
  | nil => rfl
  | cons hab _ ih =>
    rw [List.map_cons, List.map_cons, hpq _ List.mem_cons_self _ hab,
      ih fun a ha => hpq a (List.mem_cons_of_mem _ ha)]

/-- Lists that fit through a third list fit each other. -/
theorem forall₂_trans {S : β → γ → Prop} {T : α → γ → Prop} {l'' : List γ}
    (hT : ∀ a b c, R a b → S b c → T a c) (h₁ : List.Forall₂ R l l')
    (h₂ : List.Forall₂ S l' l'') : List.Forall₂ T l l'' := by
  induction h₁ generalizing l'' with
  | nil => cases h₂; exact .nil
  | cons hab _ ih =>
    cases h₂ with
    | cons hbc hrest => exact .cons (hT _ _ _ hab hbc) (ih hrest)

theorem forall₂_getElem?_left (h : List.Forall₂ R l l') {i : Nat} {a : α} (ha : l[i]? = some a) :
    ∃ b, l'[i]? = some b ∧ R a b := by
  -- the place moves with the lists, so it has to be general
  induction h generalizing i with
  | nil => exact absurd ha (by simp)
  | cons hab _ ih =>
    cases i with
    | zero =>
      rw [List.getElem?_cons_zero, Option.some.injEq] at ha
      exact ⟨_, rfl, ha ▸ hab⟩
    | succ i => exact ih ha

theorem forall₂_getElem?_right (h : List.Forall₂ R l l') {i : Nat} {b : β}
    (hb : l'[i]? = some b) : ∃ a, l[i]? = some a ∧ R a b :=
  forall₂_getElem?_left (List.Forall₂.flip h) hb

theorem forall₂_exists_left (h : List.Forall₂ R l l') {b : β} (hb : b ∈ l') :
    ∃ a ∈ l, R a b := by
  induction h with
  | nil => exact absurd hb (by simp)
  | cons hab _ ih =>
    rcases List.mem_cons.mp hb with rfl | hb
    · exact ⟨_, List.mem_cons_self, hab⟩
    · obtain ⟨a, ha, hR⟩ := ih hb
      exact ⟨a, List.mem_cons_of_mem _ ha, hR⟩

theorem forall₂_exists_right (h : List.Forall₂ R l l') {a : α} (ha : a ∈ l) :
    ∃ b ∈ l', R a b := by
  obtain ⟨b, hb, hR⟩ := forall₂_exists_left h.flip ha
  exact ⟨b, hb, hR⟩

/-- Where the right list is cut around an item, the left one can be cut around its partner. -/
theorem forall₂_split_right {front back : List β} {b : β}
    (h : List.Forall₂ R l (front ++ b :: back)) : ∃ front' a back',
      l = front' ++ a :: back' ∧ List.Forall₂ R front' front ∧ R a b := by
  obtain ⟨a, back', hab, _, hdrop⟩ :=
    List.forall₂_cons_right_iff.mp (List.forall₂_drop_append l front (b :: back) h)
  refine ⟨l.take front.length, a, back', ?_, List.forall₂_take_append l front _ h, hab⟩
  rw [← hdrop, List.take_append_drop]

theorem forall₂_imp_of_mem {S : α → β → Prop} (h : List.Forall₂ R l l')
    (himp : ∀ a ∈ l, ∀ b, R a b → S a b) : List.Forall₂ S l l' :=
  ((List.forall₂_and_left _ _).mpr ⟨fun _ ha => ha, h⟩).imp fun a b hab => himp a hab.1 b hab.2

/-- If every item has a partner, the partners make a list. -/
theorem exists_forall₂ (h : ∀ a ∈ l, ∃ b, R a b) : ∃ l', List.Forall₂ R l l' := by
  induction l with
  | nil => exact ⟨[], .nil⟩
  | cons a l ih =>
    obtain ⟨b, hb⟩ := h a List.mem_cons_self
    obtain ⟨l', hl'⟩ := ih fun a' ha' => h a' (List.mem_cons_of_mem _ ha')
    exact ⟨b :: l', .cons hb hl'⟩

/-- A third list that fits two that fit each other. -/
theorem forall₂_exists_common {S : α → γ → Prop} {T : β → γ → Prop} (h : List.Forall₂ R l l')
    (hex : ∀ a ∈ l, ∀ b, R a b → ∃ c, S a c ∧ T b c) :
    ∃ l'', List.Forall₂ S l l'' ∧ List.Forall₂ T l' l'' := by
  induction h with
  | nil => exact ⟨[], .nil, .nil⟩
  | @cons a b l l' hab _ ih =>
    obtain ⟨c, hac, hbc⟩ := hex a List.mem_cons_self b hab
    obtain ⟨l'', hl, hl'⟩ := ih fun a' ha' => hex a' (List.mem_cons_of_mem _ ha')
    exact ⟨c :: l'', .cons hac hl, .cons hbc hl'⟩

/-- What goes through for a list goes through for each item in its place. -/
theorem mapM_eq_ok {ε : Type} {f : α → Except ε β} :
    l.mapM f = .ok l' ↔ List.Forall₂ (fun a b => f a = .ok b) l l' := by
  induction l generalizing l' with
  | nil =>
    rw [List.mapM_nil, List.forall₂_nil_left_iff]
    exact ⟨fun h => by injection h with h; exact h.symm, fun h => by rw [h]; rfl⟩
  | cons a l ih =>
    rw [List.mapM_cons, except_bind_eq_ok, List.forall₂_cons_left_iff]
    constructor
    · rintro ⟨b, hb, hrest⟩
      obtain ⟨bs, hbs, hl'⟩ := except_bind_eq_ok.mp hrest
      injection hl' with hl'
      exact ⟨b, bs, hb, ih.mp hbs, hl'.symm⟩
    · rintro ⟨b, bs, hb, hbs, rfl⟩
      exact ⟨b, hb, except_bind_eq_ok.mpr ⟨bs, ih.mpr hbs, rfl⟩⟩

/-- What fails for a list fails at the first item that fails. -/
theorem exists_of_mapM_eq_error {ε : Type} {f : α → Except ε β} {e : ε} (h : l.mapM f = .error e) :
    ∃ front a back, l = front ++ a :: back ∧ (∀ x ∈ front, ∃ b, f x = .ok b) ∧ f a = .error e := by
  induction l with
  | nil => exact absurd h (by simp [pure, Except.pure])
  | cons a l ih =>
    rw [List.mapM_cons, except_bind_eq_error] at h
    -- the head fails, or it goes through and the rest fails
    rcases h with ha | ⟨b, hb, hrest⟩
    · exact ⟨[], a, l, rfl, by simp, ha⟩
    · rcases except_bind_eq_error.mp hrest with hl | ⟨bs, -, hpure⟩
      · obtain ⟨front, a', back, rfl, hfront, ha'⟩ := ih hl
        refine ⟨a :: front, a', back, rfl, ?_, ha'⟩
        exact List.forall_mem_cons.mpr ⟨⟨b, hb⟩, hfront⟩
      · exact absurd hpure (by simp [pure, Except.pure])

end Forall₂

/-! ## One item more -/

section Snoc

variable {α : Type} {l : List α} {a b : α} {i : Nat}

theorem getElem?_snoc (h : l[i]? = some b) (a : α) : (l ++ [a])[i]? = some b := by
  rw [List.getElem?_append_left (List.getElem?_eq_some_iff.mp h).1, h]

theorem getElem?_snoc_cases (h : (l ++ [a])[i]? = some b) :
    l[i]? = some b ∨ (i = l.length ∧ b = a) := by
  by_cases hi : i < l.length
  · rw [List.getElem?_append_left hi] at h
    exact Or.inl h
  · -- past the old places only the new one is left
    have hlt : i < (l ++ [a]).length := (List.getElem?_eq_some_iff.mp h).1
    rw [List.length_append, List.length_singleton] at hlt
    obtain rfl : i = l.length := by omega
    rw [List.getElem?_concat_length] at h
    injection h with h
    exact Or.inr ⟨rfl, h.symm⟩

end Snoc

/-! ## Sorting by keys -/

theorem mem_of_lookup {κ α : Type} [BEq κ] [LawfulBEq κ] {l : List (κ × α)} {key : κ} {a : α}
    (h : l.lookup key = some a) : (key, a) ∈ l := by
  obtain ⟨front, back, rfl, _⟩ := List.lookup_eq_some_iff.mp h
  exact List.mem_append_cons_self

/-- In a list with distinct keys, what is found by a key is the item with that key. -/
theorem find?_key_iff {α κ : Type} [DecidableEq κ] {key : α → κ} {l : List α} {k : κ} {x : α}
    (hnodup : (l.map key).Nodup) : l.find? (fun y => key y = k) = some x ↔ x ∈ l ∧ key x = k := by
  have hfound : ∀ {y}, l.find? (fun y => key y = k) = some y → y ∈ l ∧ key y = k :=
    fun h => ⟨List.mem_of_find?_eq_some h, by simpa using List.find?_some h⟩
  refine ⟨hfound, ?_⟩
  rintro ⟨hx, hk⟩
  have hsome : (l.find? fun y => key y = k).isSome := by
    rw [List.find?_isSome]
    exact ⟨x, hx, by simpa using hk⟩
  -- something is found, and with distinct keys it can only be `x`
  obtain ⟨y, hy⟩ := Option.isSome_iff_exists.mp hsome
  obtain ⟨hmem, hkey⟩ := hfound hy
  rw [hy, List.inj_on_of_nodup_map hnodup hmem hx (hkey.trans hk.symm)]

theorem nodup_eraseDups {α : Type} [DecidableEq α] (l : List α) : l.eraseDups.Nodup := by
  -- on the length: what is left after erasing `a` is no tail of the list
  induction hn : l.length using Nat.strongRecOn generalizing l with
  | _ n ih =>
    cases l with
    | nil => simp
    | cons a l =>
      rw [List.eraseDups_cons, List.nodup_cons]
      have hlt : (l.filter fun b => !b == a).length < n := by
        have := List.length_filter_le (fun b => !b == a) l
        rw [List.length_cons] at hn
        omega
      refine ⟨?_, ih _ hlt _ rfl⟩
      rw [List.mem_eraseDups, List.mem_filter]
      simp

/-- Sifting and leaving out repetitions can be done in either order. -/
theorem filter_eraseDups {α : Type} [DecidableEq α] (p : α → Bool) (l : List α) :
    l.eraseDups.filter p = (l.filter p).eraseDups := by
  -- on the length again, for the same reason
  induction hn : l.length using Nat.strong_induction_on generalizing l with
  | _ n ih =>
    cases l with
    | nil => simp
    | cons a l =>
      have hlt : (l.filter fun b => !b == a).length < n := by
        have := List.length_filter_le (fun b => !b == a) l
        rw [List.length_cons] at hn
        omega
      have hrest := ih _ hlt _ rfl
      rw [List.eraseDups_cons]
      by_cases ha : p a = true
      · rw [List.filter_cons_of_pos ha, List.filter_cons_of_pos ha, List.eraseDups_cons, hrest,
          List.filter_filter, List.filter_filter]
        simp only [Bool.and_comm]
      · rw [List.filter_cons_of_neg ha, List.filter_cons_of_neg ha, hrest, List.filter_filter]
        -- what was erased with `a` would not have passed either
        congr 1
        refine List.filter_congr fun b _ => ?_
        by_cases hb : b = a
        · simp [hb, Bool.eq_false_iff.mpr ha]
        · simp [hb]

/-- An element that stands further in front is erased. -/
theorem eraseDups_insert {α : Type} [DecidableEq α] {front back : List α} {a : α}
    (ha : a ∈ front) : (front ++ a :: back).eraseDups = (front ++ back).eraseDups := by
  rw [List.eraseDups_append, List.eraseDups_append, List.removeAll, List.removeAll,
    List.filter_cons_of_neg (by simpa using ha)]

/-- A list is made of its parts with each key, in the order of the keys. -/
theorem perm_flatMap_filter {α κ : Type} [DecidableEq κ] (key : α → κ) (l : List α)
    {keys : List κ} (hnd : keys.Nodup) (hcover : ∀ a ∈ l, key a ∈ keys) :
    (keys.flatMap fun k => l.filter (key · = k)).Perm l := by
  induction l with
  | nil => simp
  | cons a l ih =>
    have ih := ih fun b hb => hcover b (List.mem_cons_of_mem _ hb)
    obtain ⟨front, back, hkeys⟩ := List.append_of_mem (hcover a List.mem_cons_self)
    -- `a` goes to its own key and to no other
    have hother : ∀ ks : List κ, key a ∉ ks →
        (ks.flatMap fun k => (a :: l).filter (key · = k))
          = ks.flatMap fun k => l.filter (key · = k) := by
      intro ks hks
      refine List.flatMap_congr fun k hk => ?_
      rw [List.filter_cons_of_neg]
      intro he
      exact hks (of_decide_eq_true he ▸ hk)
    have hout : key a ∉ front ∧ key a ∉ back := by
      rw [hkeys, List.perm_middle.nodup_iff, List.nodup_cons, List.mem_append, not_or] at hnd
      exact hnd.1
    rw [hkeys, List.flatMap_append, List.flatMap_cons] at ih ⊢
    rw [hother front hout.1, hother back hout.2, List.filter_cons_of_pos (by simp)]
    exact List.perm_middle.trans (ih.cons a)

/-- What contributes nothing may be left out. -/
theorem perm_flatMap_of_subset {α β : Type} [DecidableEq α] {part whole : List α} {f : α → List β}
    (hpart : part.Nodup) (hwhole : whole.Nodup) (hsub : part ⊆ whole)
    (hout : ∀ a ∈ whole, a ∉ part → f a = []) : (part.flatMap f).Perm (whole.flatMap f) := by
  -- cut the whole into the part and a rest, which contributes nothing
  obtain ⟨part', hpart', hsublist⟩ := List.subperm_of_subset hpart hsub
  obtain ⟨rest, hrest'⟩ := hsublist.exists_perm_append
  have hperm : whole.Perm (part ++ rest) := hrest'.trans (hpart'.append_right rest)
  have hrest : rest.flatMap f = [] := by
    rw [List.flatMap_eq_nil_iff]
    intro a ha
    refine hout a (hperm.mem_iff.mpr (List.mem_append_right _ ha)) fun hmem => ?_
    have hdisj := (List.nodup_append.mp (hperm.nodup_iff.mp hwhole)).2.2
    exact hdisj a hmem a ha rfl
  have hall := hperm.flatMap_right f
  rw [List.flatMap_append, hrest, List.append_nil] at hall
  exact hall.symm

/-! ## Counting -/

/-- A list holds the numbers below `k` once each if it holds no others and none twice. -/
theorem perm_range_iff {l : List Nat} {k : Nat} :
    l.Perm (List.range k) ↔ (∀ n ∈ l, n < k) ∧ ∀ n < k, l.count n = 1 := by
  have hbelow : ∀ n < k, (List.range k).count n = 1 :=
    fun n hn => List.count_eq_one_of_mem List.nodup_range (List.mem_range.mpr hn)
  rw [List.perm_iff_count]
  constructor
  · intro h
    refine ⟨fun n hn => ?_, fun n hn => by rw [h, hbelow n hn]⟩
    have hpos := List.count_pos_iff.mpr hn
    rw [h n] at hpos
    exact List.mem_range.mp (List.count_pos_iff.mp hpos)
  · intro ⟨hall, hone⟩ n
    by_cases hn : n < k
    · rw [hone n hn, hbelow n hn]
    · rw [List.count_eq_zero.mpr fun hmem => hn (hall n hmem),
        List.count_eq_zero.mpr fun hmem => hn (List.mem_range.mp hmem)]

end Filtergraph
