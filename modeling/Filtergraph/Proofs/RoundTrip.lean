import Filtergraph.Pipeline.Document
import Filtergraph.Proofs.Assembly
import Filtergraph.Proofs.Blueprints

/-!
# Pipelines and their documents

A pipeline is read back from its document. Writing leaves out what has its default and reading
fills it in; keys are looked up, so their order in the document does not matter. Parameters keep
their order because a dictionary has only one.

The parameters have to be strings, numbers and truth values, the only ones that can be built. And
a pipeline agrees with itself if and only if all its numbers are numbers.
-/

namespace Filtergraph

open Toml (Value Entries keysOf Arranged)

/-! ## Entries -/

section Entries

variable {α : Type} {key : String}

/-- Of distinct keys each has the one entry that is found. -/
theorem lookupEntry_eq_some {entries : List (String × α)} (h : (keysOf entries).Nodup) {a : α} :
    lookupEntry key entries = some a ↔ (key, a) ∈ entries := by
  induction entries with
  | nil => simp [lookupEntry]
  | cons e entries ih =>
    rw [keysOf, List.map_cons, List.nodup_cons] at h
    rw [lookupEntry, List.mem_cons]
    -- the first entry has the key or some other one does
    split
    · rename_i hkey
      subst hkey
      constructor
      · intro he
        exact .inl (by rw [← Option.some.inj he])
      · rintro (he | he)
        · rw [← he]
        · exact absurd (List.mem_map_of_mem (f := Prod.fst) he) h.1
    · rename_i hkey
      rw [ih h.2]
      constructor
      · exact .inr
      · rintro (he | he)
        · exact absurd (congrArg Prod.fst he).symm hkey
        · exact he

/-- Of distinct keys each is found wherever it stands. -/
theorem lookupEntry_perm {a b : List (String × α)} (h : a.Perm b) (hb : (keysOf b).Nodup) :
    lookupEntry key a = lookupEntry key b := by
  have ha : (keysOf a).Nodup := (h.map Prod.fst).nodup_iff.mpr hb
  refine Option.ext fun x => ?_
  rw [lookupEntry_eq_some ha, lookupEntry_eq_some hb, h.mem_iff]

@[simp]
theorem lookupEntry_ite {c : Prop} [Decidable c] (key : String) (a b : List (String × α)) :
    lookupEntry key (if c then a else b) =
      if c then lookupEntry key a else lookupEntry key b := apply_ite _ _ _ _

@[simp]
theorem lookupEntry_entryIf (key : String) (encode : α → Value) (o : Option α) (key' : String) :
    lookupEntry key' (entryIf key encode o) = if key = key' then o.map encode else none := by
  cases o with
  | none => simp [entryIf, lookupEntry]
  | some a => simp [entryIf, lookupEntry]

theorem keysOf_entryIf (key : String) (encode : α → Value) (o : Option α) :
    (keysOf (entryIf key encode o)).Sublist [key] := by
  cases o with
  | none => exact List.nil_sublist _
  | some a => exact List.Sublist.refl _

end Entries

/-! ## Fields -/

section Fields

variable {α : Type} {entries : Entries} {key : String} {position : Nat} {read? : Value → Option α}
  {a default : α}

/-- The fields of a table, by name. -/
def fieldsOf (entries : Entries) : Fields := ⟨fun key _ => lookupEntry key entries⟩

theorem get?_fieldsOf (entries : Entries) (key : String) (position : Nat) :
    (fieldsOf entries).get? key position = lookupEntry key entries := rfl

theorem of?_table (entries : Entries) : Fields.of? (.table entries) = some (fieldsOf entries) :=
  rfl

/-- A field that must be there is read from its entry. -/
theorem required?_fieldsOf (v : Value) (h : lookupEntry key entries = some v)
    (hread : read? v = some a) :
    (fieldsOf entries).required? read? key position = some a := by
  rw [Fields.required?, get?_fieldsOf, h]
  exact hread

/-- A field that was left out is read as nothing. -/
theorem optional?_fieldsOf (encode : α → Value) {o : Option α}
    (h : lookupEntry key entries = o.map encode) (hread : ∀ a, read? (encode a) = some a) :
    (fieldsOf entries).optional? read? key position = some o := by
  rw [Fields.optional?, get?_fieldsOf, h]
  cases o with
  | none => rfl
  | some a =>
    show (read? (encode a)).map some = _
    rw [hread a]
    rfl

/-- A field may be left out where it has its default. -/
theorem withDefault?_fieldsOf (v : Value)
    (h : lookupEntry key entries = some v ∨ lookupEntry key entries = none ∧ a = default)
    (hread : read? v = some a) :
    (fieldsOf entries).withDefault? read? default key position = some a := by
  rw [Fields.withDefault?, get?_fieldsOf]
  rcases h with hsome | ⟨hnone, rfl⟩
  · rw [hsome]
    exact hread
  · rw [hnone]

end Fields

/-! ## Lists and dictionaries -/

/-- A list is read back if its items are. -/
theorem asList?_map {α : Type} {item? : Value → Option α} {encode : α → Value} {as : List α}
    (h : ∀ a ∈ as, item? (encode a) = some a) :
    asList? item? (.array (as.map encode)) = some as := by
  show (as.map encode).mapM item? = some as
  induction as with
  | nil => rfl
  | cons a as ih =>
    rw [List.map_cons, List.mapM_cons, h a List.mem_cons_self,
      ih fun b hb => h b (List.mem_cons_of_mem _ hb)]
    rfl

/-- A list that is left out when it is empty is found, or it is empty. -/
theorem lookupEntry_entryIfAny {α : Type} (key : String) (encode : α → Value) (as : List α) :
    lookupEntry key (entryIfAny key (as.map encode)) = some (.array (as.map encode)) ∨
      lookupEntry key (entryIfAny key (as.map encode)) = none ∧ as = [] := by
  cases as with
  | nil => exact .inr ⟨rfl, rfl⟩
  | cons a as => exact .inl (if_pos rfl)

@[simp]
theorem lookupEntry_entryIfAny_of_ne {key key' : String} (h : key ≠ key') (items : List Value) :
    lookupEntry key' (entryIfAny key items) = none := by
  simp [entryIfAny, lookupEntry, h]

theorem keysOf_entryIfAny (key : String) (items : List Value) :
    (keysOf (entryIfAny key items)).Sublist [key] := by
  cases items with
  | nil => exact List.nil_sublist _
  | cons v items => exact List.Sublist.refl _

/-- A key behind all others goes to the end. -/
theorem insertEntry_last {α : Type} {entries : List (String × α)} {key : String}
    (h : ∀ e ∈ entries, e.1 < key) (a : α) :
    insertEntry key a entries = entries ++ [(key, a)] := by
  induction entries with
  | nil => rfl
  | cons e entries ih =>
    have he : e.1 < key := h e List.mem_cons_self
    rw [insertEntry, if_neg (String.lt_asymm he), if_pos he,
      ih fun e' he' => h e' (List.mem_cons_of_mem _ he'), List.cons_append]

namespace Dict

variable {α : Type}

/-- Rising entries are put in as they come. -/
theorem entries_foldl_insert {entries : List (String × α)} {d : Dict α}
    (h : KeysRise (d.entries ++ entries)) :
    (entries.foldl (fun d e => d.insert e.1 e.2) d).entries = d.entries ++ entries := by
  induction entries generalizing d with
  | nil => rw [List.foldl_nil, List.append_nil]
  | cons e entries ih =>
    -- keys rise, so the next one belongs behind those that are in
    have hlast : ∀ e' ∈ d.entries, e'.1 < e.1 := fun e' he' =>
      (List.pairwise_append.mp h).2.2 e' he' e List.mem_cons_self
    have hinsert : (d.insert e.1 e.2).entries = d.entries ++ [e] := insertEntry_last hlast e.2
    rw [List.append_cons, ← hinsert] at h
    rw [List.foldl_cons, ih h, hinsert, ← List.append_cons]

/-- A dictionary is that of its entries. -/
theorem ofList_entries (d : Dict α) : ofList d.entries = d := by
  have hentries : (ofList d.entries).entries = d.entries :=
    entries_foldl_insert (d := empty) d.keysRise
  rcases hd : ofList d.entries with ⟨entries, _⟩
  rw [hd] at hentries
  subst hentries
  rfl

theorem eq_empty_of_isEmpty {d : Dict α} (h : d.isEmpty = true) : d = empty := by
  rcases d with ⟨entries, _⟩
  obtain rfl : entries = [] := List.isEmpty_iff.mp h
  rfl

end Dict

theorem canonical?_of_isScalar {v : Value} (h : v.isScalar = true) : v.canonical? = some v := by
  cases v with
  | string | integer | float | boolean => simp [Value.canonical?]
  | dateTime | array | table => exact absurd h Bool.false_ne_true

theorem canonicalEntries?_of_isScalar {entries : Entries} (h : ∀ e ∈ entries, e.2.isScalar = true) :
    Toml.canonicalEntries? entries = some entries := by
  induction entries with
  | nil => rfl
  | cons e entries ih =>
    rw [Toml.canonicalEntries?, canonical?_of_isScalar (h e List.mem_cons_self),
      ih fun e' he' => h e' (List.mem_cons_of_mem _ he')]
    rfl

/-- Scalar parameters are read back. -/
theorem asParams?_entries {d : Dict Value} (h : ∀ e ∈ d.entries, e.2.isScalar = true) :
    asParams? (.table d.entries) = some d := by
  show (Toml.canonicalEntries? d.entries).map .ofList = some d
  rw [canonicalEntries?_of_isScalar h, Option.map_some, d.ofList_entries]

/-! ## Declarations -/

/-- A declared media file is read back. -/
theorem InputDecl.ofValue?_toEntries (d : InputDecl) :
    InputDecl.ofValue? (.table d.toEntries) = some d := by
  have hname : (fieldsOf d.toEntries).required? asString? "name" 0 = some d.name :=
    required?_fieldsOf (.string d.name) (by simp [toEntries, lookupEntry]) rfl
  have hpath : (fieldsOf d.toEntries).required? asString? "path" 1 = some d.path :=
    required?_fieldsOf (.string d.path) (by simp [toEntries, lookupEntry]) rfl
  have hduration : (fieldsOf d.toEntries).optional? asNumber? "duration" 2 = some d.duration :=
    optional?_fieldsOf .float (by simp [toEntries, lookupEntry]) fun _ => rfl
  have hoffset : (fieldsOf d.toEntries).optional? asNumber? "offset" 3 = some d.offset :=
    optional?_fieldsOf .float (by simp [toEntries, lookupEntry]) fun _ => rfl
  have hlooped : (fieldsOf d.toEntries).withDefault? asBool? false "loop" 4 = some d.looped := by
    -- written only where it is set
    refine withDefault?_fieldsOf (.boolean d.looped) ?_ rfl
    cases h : d.looped <;> simp [toEntries, lookupEntry, h]
  simp [ofValue?, of?_table, hname, hpath, hduration, hoffset, hlooped]

/-- A declared operation is read back. -/
theorem NodeDecl.ofValue?_toEntries {d : NodeDecl}
    (hparams : ∀ e ∈ d.params.entries, e.2.isScalar = true) :
    NodeDecl.ofValue? (.table d.toEntries) = some d := by
  have hname : (fieldsOf d.toEntries).required? asString? "name" 0 = some d.name :=
    required?_fieldsOf (.string d.name) (by simp [toEntries, lookupEntry]) rfl
  have hfilter : (fieldsOf d.toEntries).required? asString? "filter" 1 = some d.filter :=
    required?_fieldsOf (.string d.filter) (by simp [toEntries, lookupEntry]) rfl
  have hinputs : (fieldsOf d.toEntries).withDefault? (asList? asString?) [] "inputs" 2 =
      some d.inputs :=
    withDefault?_fieldsOf (stringList d.inputs) (.inl (by simp [toEntries, lookupEntry]))
      (asList?_map fun _ _ => rfl)
  have hsince : (fieldsOf d.toEntries).optional? asNumber? "since" 3 = some d.since :=
    optional?_fieldsOf .float (by simp [toEntries, lookupEntry]) fun _ => rfl
  have htill : (fieldsOf d.toEntries).optional? asNumber? "until" 4 = some d.till :=
    optional?_fieldsOf .float (by simp [toEntries, lookupEntry]) fun _ => rfl
  have hcondition : (fieldsOf d.toEntries).optional? asString? "enable" 5 = some d.condition :=
    optional?_fieldsOf .string (by simp [toEntries, lookupEntry]) fun _ => rfl
  have hdict : (fieldsOf d.toEntries).withDefault? asParams? .empty "params" 6 =
      some d.params := by
    refine withDefault?_fieldsOf (.table d.params.entries) ?_ (asParams?_entries hparams)
    -- parameters are left out if there are none, which is the default
    cases h : d.params.isEmpty with
    | false => exact .inl (by simp [toEntries, lookupEntry, h])
    | true => exact .inr ⟨by simp [toEntries, lookupEntry, h], Dict.eq_empty_of_isEmpty h⟩
  simp [ofValue?, of?_table, hname, hfilter, hinputs, hsince, htill, hcondition, hdict]

/-- What is sent to the output is read back. -/
theorem MapDecl.ofValue?_toEntries (d : MapDecl) :
    MapDecl.ofValue? (.table d.toEntries) = some d := by
  have horigin : (fieldsOf d.toEntries).required? asString? "from" 0 = some d.origin :=
    required?_fieldsOf (.string d.origin) (by simp [toEntries, lookupEntry]) rfl
  have hstream : (fieldsOf d.toEntries).optional? asString? "stream" 1 = some d.stream :=
    optional?_fieldsOf .string (by simp [toEntries, lookupEntry]) fun _ => rfl
  simp [ofValue?, of?_table, horigin, hstream]

/-- Every parameter is a string, a number or a truth value. -/
def Pipeline.ScalarParams (p : Pipeline) : Prop :=
  ∀ d ∈ p.nodes, ∀ e ∈ d.params.entries, e.2.isScalar = true

instance (p : Pipeline) : Decidable p.ScalarParams :=
  inferInstanceAs (Decidable (∀ d ∈ p.nodes, ∀ e ∈ d.params.entries, e.2.isScalar = true))

/-- The table of a pipeline is read back, wherever its keys stand. -/
theorem Pipeline.ofEntries?_of_lookup {p : Pipeline} (hparams : p.ScalarParams) {entries : Entries}
    (h : ∀ key, lookupEntry key entries = lookupEntry key p.toEntries) :
    Pipeline.ofEntries? entries = some p := by
  have houtput : (fieldsOf entries).required? asString? "output" 0 = some p.output :=
    required?_fieldsOf (.string p.output) (by simp [h, toEntries, lookupEntry]) rfl
  have hoptions : (fieldsOf entries).withDefault? (asList? asString?) [] "output_options" 1 =
      some p.options := by
    refine withDefault?_fieldsOf (.array (p.options.map .string)) ?_ (asList?_map fun _ _ => rfl)
    have hentry := lookupEntry_entryIfAny "output_options" Value.string p.options
    simpa [h, toEntries, lookupEntry] using hentry
  have hroots : (fieldsOf entries).withDefault? (asList? asString?) [] "roots" 2 =
      some p.roots := by
    refine withDefault?_fieldsOf (.array (p.roots.map .string)) ?_ (asList?_map fun _ _ => rfl)
    have hentry := lookupEntry_entryIfAny "roots" Value.string p.roots
    simpa [h, toEntries, lookupEntry] using hentry
  have hinputs : (fieldsOf entries).withDefault? (asList? InputDecl.ofValue?) [] "inputs" 3 =
      some p.inputs :=
    withDefault?_fieldsOf _ (.inl (by simp [h, toEntries, lookupEntry]))
      (asList?_map fun d _ => d.ofValue?_toEntries)
  have hnodes : (fieldsOf entries).withDefault? (asList? NodeDecl.ofValue?) [] "nodes" 4 =
      some p.nodes :=
    withDefault?_fieldsOf _ (.inl (by simp [h, toEntries, lookupEntry]))
      (asList?_map fun d hd => NodeDecl.ofValue?_toEntries (hparams d hd))
  have hmaps : (fieldsOf entries).withDefault? (asList? MapDecl.ofValue?) [] "maps" 5 =
      some p.maps := by
    refine withDefault?_fieldsOf (.array (p.maps.map fun d => .table d.toEntries)) ?_
      (asList?_map fun d _ => d.ofValue?_toEntries)
    have hentry := lookupEntry_entryIfAny "maps" (fun d : MapDecl => .table d.toEntries) p.maps
    simpa [h, toEntries, lookupEntry] using hentry
  have hfields : (⟨fun key _ => lookupEntry key entries⟩ : Fields) = fieldsOf entries := rfl
  simp [ofEntries?, hfields, houtput, hoptions, hroots, hinputs, hnodes, hmaps]

/-! ## How a pipeline is arranged -/

section Arrangement

variable {α : Type} {entries : Entries} {n : Nat}

theorem isScalar_entryIf (key : String) {encode : α → Value}
    (h : ∀ a, (encode a).isScalar = true) (o : Option α) :
    ∀ e ∈ entryIf key encode o, e.2.isScalar = true := by
  cases o with
  | none => exact List.forall_mem_nil _
  | some a => simpa [entryIf] using h a

theorem isPlain_strings (items : List String) : (stringList items).IsPlain := by
  refine .list fun v hv => ?_
  obtain ⟨s, _, rfl⟩ := List.mem_map.mp hv
  rfl

theorem arranged_of_plain (hkeys : (keysOf entries).Nodup) (h : ∀ e ∈ entries, e.2.IsPlain) :
    Arranged (n + 1) entries :=
  ⟨entries, [], (List.append_nil _).symm, by rwa [List.append_nil], h, List.forall_mem_nil _⟩

/-- A table of plain values and sections is arranged once its plain values are in front. -/
theorem arranged_arrange (hkeys : (keysOf entries).Nodup)
    (h : ∀ e ∈ entries, e.2.IsPlain ∨ e.2.IsSections (Arranged n)) :
    Arranged (n + 1) (Toml.arrange entries) := by
  refine ⟨_, _, rfl, ((Toml.arrange_perm entries).map Prod.fst).nodup_iff.mpr hkeys, ?_, ?_⟩
  · -- what is kept in front is no section, so it is plain
    intro e he
    obtain ⟨hmem, hsection⟩ := List.mem_filter.mp he
    refine (h e hmem).resolve_right fun hsections => ?_
    simp [hsections.isSection] at hsection
  · intro e he
    obtain ⟨hmem, hsection⟩ := List.mem_filter.mp he
    refine (h e hmem).resolve_left fun hplain => ?_
    simp [hplain.isSection] at hsection

/-- A list of tables is a series of sections, or it is empty. -/
theorem isPlain_or_isSections {table : α → Entries} {as : List α} {P : Entries → Prop}
    (h : ∀ a ∈ as, P (table a)) :
    (Value.array (as.map fun a => .table (table a))).IsPlain ∨
      (Value.array (as.map fun a => .table (table a))).IsSections P := by
  cases as with
  | nil => exact .inl (.list (List.forall_mem_nil _))
  | cons a as =>
    have hothers : ∀ t ∈ as.map table, P t := by
      simpa using fun b hb => h b (List.mem_cons_of_mem _ hb)
    have hseries := Value.IsSections.series (h a List.mem_cons_self) hothers
    rw [List.map_cons, List.map_map] at hseries
    exact .inr hseries

/-- A declared media file is a table of scalars. -/
theorem InputDecl.arranged_toEntries (d : InputDecl) : Arranged (n + 1) d.toEntries := by
  have hkeys : (keysOf d.toEntries).Sublist ["name", "path", "duration", "offset", "loop"] := by
    simp only [toEntries, Toml.keysOf_append]
    refine (((List.Sublist.refl ["name", "path"]).append (keysOf_entryIf ..)).append
      (keysOf_entryIf ..)).append ?_
    cases d.looped <;> simp [keysOf]
  have hscalar : ∀ e ∈ d.toEntries, e.2.isScalar = true := by
    simp only [toEntries, List.forall_mem_append]
    refine ⟨⟨⟨?_, isScalar_entryIf _ (fun _ => rfl) _⟩, isScalar_entryIf _ (fun _ => rfl) _⟩, ?_⟩
    · simp [Value.isScalar]
    · cases d.looped <;> simp [Value.isScalar]
  exact arranged_of_plain (hkeys.nodup (by decide)) fun e he => .scalar (hscalar e he)

theorem MapDecl.arranged_toEntries (d : MapDecl) : Arranged (n + 1) d.toEntries := by
  have hkeys : (keysOf d.toEntries).Sublist ["from", "stream"] :=
    (keysOf_entryIf "stream" Value.string d.stream).cons_cons "from"
  have hscalar : ∀ e ∈ d.toEntries, e.2.isScalar = true :=
    List.forall_mem_cons.mpr ⟨rfl, isScalar_entryIf _ (fun _ => rfl) _⟩
  exact arranged_of_plain (hkeys.nodup (by decide)) fun e he => .scalar (hscalar e he)

theorem hasHeader_of_isScalar (h : ∀ e ∈ entries, e.2.isScalar = true) :
    Toml.hasHeader entries = true := by
  cases entries with
  | nil => rfl
  | cons e entries =>
    have he : e.2.isSection = false :=
      Value.IsPlain.isSection (.scalar (h e List.mem_cons_self))
    simp [Toml.hasHeader, he]

theorem Dict.nodup_keysOf (d : Dict α) : (keysOf d.entries).Nodup := by
  refine List.pairwise_map.mpr (List.Pairwise.imp ?_ d.keysRise)
  intro a b hlt heq
  exact String.lt_irrefl b.1 (heq ▸ hlt)

/-- A declared operation has its parameters, a table of scalars, at the end. -/
theorem NodeDecl.arranged_toEntries {d : NodeDecl}
    (hparams : ∀ e ∈ d.params.entries, e.2.isScalar = true) : Arranged (n + 2) d.toEntries := by
  refine ⟨_, _, rfl, ?_, ?_, ?_⟩
  · have hkeys : (keysOf d.toEntries).Sublist
        ["name", "filter", "inputs", "since", "until", "enable", "params"] := by
      simp only [toEntries, Toml.keysOf_append]
      refine ((((List.Sublist.refl ["name", "filter", "inputs"]).append
        (keysOf_entryIf ..)).append (keysOf_entryIf ..)).append (keysOf_entryIf ..)).append ?_
      cases d.params.isEmpty <;> simp [keysOf]
    exact hkeys.nodup (by decide)
  · -- everything but the parameters is on a line of its own
    have hfixed : ∀ e ∈ [("name", Value.string d.name), ("filter", .string d.filter),
        ("inputs", stringList d.inputs)], e.2.IsPlain := by
      simpa using ⟨.scalar rfl, .scalar rfl, isPlain_strings d.inputs⟩
    simp only [List.forall_mem_append]
    exact ⟨⟨⟨hfixed, fun e he => .scalar (isScalar_entryIf _ (fun _ => rfl) _ e he)⟩,
      fun e he => .scalar (isScalar_entryIf _ (fun _ => rfl) _ e he)⟩,
      fun e he => .scalar (isScalar_entryIf _ (fun _ => rfl) _ e he)⟩
  · have htable : (Value.table d.params.entries).IsSections (Arranged (n + 1)) :=
      .table (hasHeader_of_isScalar hparams)
        (arranged_of_plain d.params.nodup_keysOf fun e he => .scalar (hparams e he))
    -- no parameters, no section
    cases d.params.isEmpty with
    | true => exact List.forall_mem_nil _
    | false => simpa using htable

/-- The table of a pipeline has each of its keys once. -/
theorem Pipeline.nodup_keysOf_toEntries (p : Pipeline) : (keysOf p.toEntries).Nodup := by
  have hkeys : (keysOf p.toEntries).Sublist
      ["output", "output_options", "roots", "inputs", "nodes", "maps"] := by
    simp only [toEntries, Toml.keysOf_append]
    exact ((((List.Sublist.refl ["output"]).append (keysOf_entryIfAny ..)).append
      (keysOf_entryIfAny ..)).append (List.Sublist.refl ["inputs", "nodes"])).append
      (keysOf_entryIfAny ..)
  exact hkeys.nodup (by decide)

/-- A pipeline is nested three deep: itself, its declarations and their parameters. -/
theorem Pipeline.arranged_arrange_toEntries {p : Pipeline} (hparams : p.ScalarParams) :
    Arranged 3 (Toml.arrange p.toEntries) := by
  have hlist : ∀ (key : String) (items : List String), ∀ e ∈ entryIfAny key (items.map .string),
      e.2.IsPlain := by
    intro key items e he
    obtain ⟨_, rfl⟩ : _ ∧ e = (key, stringList items) := by
      simpa [entryIfAny, stringList] using he
    exact isPlain_strings items
  have hmaps : ∀ e ∈ entryIfAny "maps" (p.maps.map fun d => .table d.toEntries),
      e.2.IsPlain ∨ e.2.IsSections (Arranged 2) := by
    intro e he
    obtain ⟨_, rfl⟩ : _ ∧ e = ("maps", .array (p.maps.map fun d => .table d.toEntries)) := by
      simpa [entryIfAny] using he
    exact isPlain_or_isSections fun d _ => d.arranged_toEntries
  refine arranged_arrange p.nodup_keysOf_toEntries ?_
  simp only [toEntries, List.forall_mem_append, List.forall_mem_cons]
  exact ⟨⟨⟨⟨⟨.inl (.scalar rfl), List.forall_mem_nil _⟩, fun e he => .inl (hlist _ _ e he)⟩,
    fun e he => .inl (hlist _ _ e he)⟩,
    isPlain_or_isSections fun d _ => d.arranged_toEntries,
    isPlain_or_isSections fun d hd => NodeDecl.arranged_toEntries (hparams d hd),
    List.forall_mem_nil _⟩, hmaps⟩

end Arrangement

/-- **A pipeline is read back from its document.** -/
theorem Pipeline.ofToml_toToml {p : Pipeline} (hparams : p.ScalarParams) :
    Pipeline.ofToml p.toToml = .ok p := by
  -- what is read is the table with its plain values in front
  have hparse : Toml.parse? p.toToml = some (Toml.arrange p.toEntries) := by
    rw [toToml, ← Toml.document_arrange]
    exact Toml.parse?_document (arranged_arrange_toEntries hparams) (by decide)
  have hread : Pipeline.ofEntries? (Toml.arrange p.toEntries) = some p :=
    ofEntries?_of_lookup hparams fun _ =>
      lookupEntry_perm (Toml.arrange_perm _) p.nodup_keysOf_toEntries
  rw [ofToml, hparse, Option.bind_some, hread]

/-! ## Parameters that can be built -/

/-- Only scalars have a text that they are given to a filter as. -/
theorem NodeDecl.isScalar_of_paramTexts {d : NodeDecl} {entries : Entries}
    {texts : List (String × String)} (h : d.paramTexts entries = .ok texts) :
    ∀ e ∈ entries, e.2.isScalar = true := by
  induction entries generalizing texts with
  | nil => exact List.forall_mem_nil _
  | cons e entries ih =>
    obtain ⟨key, v⟩ := e
    obtain ⟨text, hv, h⟩ := except_bind_eq_ok.mp h
    obtain ⟨rest, hrest, _⟩ := except_bind_eq_ok.mp h
    refine List.forall_mem_cons.mpr ⟨?_, ih hrest⟩
    -- the other values are refused
    cases v with
    | string | integer | float | boolean => rfl
    | dateTime | array | table => injection hv

theorem NodeDecl.Asks.isScalar {d : NodeDecl} {k : Kind} (h : d.Asks k) :
    ∀ e ∈ d.params.entries, e.2.isScalar = true := by
  obtain ⟨op, hop⟩ : ∃ op, d.operation = .ok op := by
    cases h with
    | filter hop => exact ⟨_, hop⟩
    | merge hop => exact ⟨_, hop⟩
  obtain ⟨texts, htexts, _⟩ := except_bind_eq_ok.mp hop
  exact isScalar_of_paramTexts htexts

/-- Every operation that was added is one that its declaration asks for. -/
theorem Construct.asks_of_addNodes {nodes : List NodeDecl} {s s' : Site} {u : PUnit}
    (h : nodes.forM Construct.addNode s = .ok (u, s')) : ∀ d ∈ nodes, ∃ k, d.Asks k := by
  induction nodes generalizing s with
  | nil => exact List.forall_mem_nil _
  | cons d nodes ih =>
    obtain ⟨_, s₁, hd, hrest⟩ := Construct.bind_eq_ok.mp h
    obtain ⟨_, _, k, _, hk, _⟩ := Construct.addNode_eq_ok hd
    exact List.forall_mem_cons.mpr ⟨⟨k, hk⟩, ih hrest⟩

/-- Only pipelines with scalar parameters can be built. -/
theorem Pipeline.scalarParams_of_build {p : Pipeline} {b : Blueprint} (h : p.build = .ok b) :
    p.ScalarParams := by
  obtain ⟨_, s, hconstruct, _⟩ := build_eq_ok h
  obtain ⟨_, s₁, _, hnodes⟩ := Construct.bind_eq_ok.mp hconstruct
  intro d hd
  obtain ⟨k, hk⟩ := Construct.asks_of_addNodes hnodes d hd
  exact hk.isScalar

/-! ## Numbers -/

/-- The number, if the value is one that may have a fractional part. -/
def Toml.Value.float? : Value → Option Double
  | .float x => some x
  | _ => none

/-- The numbers of a media file. -/
def InputDecl.numbers (d : InputDecl) : List Double := d.duration.toList ++ d.offset.toList

/-- The numbers of an operation. -/
def NodeDecl.numbers (d : NodeDecl) : List Double :=
  d.since.toList ++ d.till.toList ++ d.params.entries.filterMap fun e => e.2.float?

/-- The numbers of a pipeline. -/
def Pipeline.numbers (p : Pipeline) : List Double :=
  p.inputs.flatMap InputDecl.numbers ++ p.nodes.flatMap NodeDecl.numbers

/-- What is not a number does not agree with itself. -/
theorem Binary.agrees_self {f : Binary.Format} (x : Binary f) : x.agrees x = true ↔ x ≠ .nan := by
  cases x with
  | nan => simp [agrees]
  | infinite negative => simp [agrees]
  | finite negative rank => simp [agrees]

theorem secondsAgree_self (o : Option Double) : secondsAgree o o = true ↔ .nan ∉ o.toList := by
  cases o with
  | none => simp [secondsAgree]
  | some x =>
    rw [secondsAgree, Binary.agrees_self, Option.toList_some, List.mem_singleton]
    exact ne_comm

/-- A list agrees with itself if its items do. -/
theorem listsAgree_self {α : Type} (agree : α → α → Bool) (as : List α) :
    listsAgree agree as as = true ↔ ∀ a ∈ as, agree a a = true := by
  induction as with
  | nil => simp [listsAgree]
  | cons a as ih => simp [listsAgree, ih]

theorem Toml.Value.agrees_self {v : Value} (h : v.isScalar = true) :
    v.agrees v = true ↔ v.float? ≠ some .nan := by
  cases v with
  | float x => simpa [agrees, float?] using Binary.agrees_self x
  | string | integer | boolean => simp [agrees, float?]
  | dateTime | array | table => exact absurd h Bool.false_ne_true

theorem entriesAgree_self {entries : Entries} (h : ∀ e ∈ entries, e.2.isScalar = true) :
    Toml.entriesAgree entries entries = true ↔ .nan ∉ entries.filterMap fun e => e.2.float? := by
  have hall : Toml.entriesAgree entries entries = true ↔
      ∀ e ∈ entries, e.2.agrees e.2 = true := by
    -- entry by entry, whatever the values are
    clear h
    induction entries with
    | nil => simp [Toml.entriesAgree]
    | cons e entries ih => simp [Toml.entriesAgree, ih]
  rw [hall, List.mem_filterMap, not_exists]
  refine forall_congr' fun e => ?_
  rw [not_and]
  exact forall_congr' fun he => Value.agrees_self (h e he)

theorem InputDecl.agrees_self (d : InputDecl) : d.agrees d = true ↔ .nan ∉ d.numbers := by
  simp [agrees, numbers, secondsAgree_self]

theorem NodeDecl.agrees_self {d : NodeDecl}
    (hparams : ∀ e ∈ d.params.entries, e.2.isScalar = true) :
    d.agrees d = true ↔ .nan ∉ d.numbers := by
  simp [agrees, numbers, secondsAgree_self, entriesAgree_self hparams, and_assoc]

/-- A pipeline agrees with itself if and only if all its numbers are numbers. -/
theorem Pipeline.agrees_self {p : Pipeline} (hparams : p.ScalarParams) :
    p.agrees p = true ↔ .nan ∉ p.numbers := by
  have hinputs : listsAgree InputDecl.agrees p.inputs p.inputs = true ↔
      .nan ∉ p.inputs.flatMap InputDecl.numbers := by
    simp [listsAgree_self, InputDecl.agrees_self]
  have hnodes : listsAgree NodeDecl.agrees p.nodes p.nodes = true ↔
      .nan ∉ p.nodes.flatMap NodeDecl.numbers := by
    rw [listsAgree_self, List.mem_flatMap, not_exists]
    refine forall_congr' fun d => ?_
    rw [not_and]
    exact forall_congr' fun hd => NodeDecl.agrees_self (hparams d hd)
  simp [agrees, numbers, hinputs, hnodes]

/-- **Pipelines survive being written down.** Whatever its names, paths, keys and numbers are, a
pipeline with scalar parameters is read back from its document, and all pipelines that can be
built have only such parameters. What is read back also agrees with it as pipelines are compared,
unless it holds something that is not a number. -/
theorem pipeline_round_trip (p : Pipeline) :
    (∀ b, p.build = .ok b → p.ScalarParams) ∧
    (p.ScalarParams →
      Pipeline.ofToml p.toToml = .ok p ∧ (p.agrees p = true ↔ .nan ∉ p.numbers)) :=
  ⟨fun _ => Pipeline.scalarParams_of_build,
    fun hparams => ⟨Pipeline.ofToml_toToml hparams, Pipeline.agrees_self hparams⟩⟩

/-- Quotes of both kinds, line ends, control characters, empty texts and lists, keys that have to
be quoted, a negative zero, a whole number and a fraction. -/
def thorny : Pipeline where
  output := "it's \"here\".mp4"
  options := ["", "'''\n\"\"\"\r\n", "a\\b\x00\t\x7f"]
  inputs := [
    { name := "", path := "C:\\clips\\ü.mov", duration := some (.ofRank true 0),
      offset := some (.ofInt 3), looped := true },
    { name := "[[inputs]]", path := "\n" }]
  nodes := [
    { name := "a.b", filter := "scale", since := some (.ofRatio false 1 3),
      till := some (.infinite true), condition := some "nan",
      params := .ofList [("", .string "''"), ("# key = 1", .float (.ofInt (-2))),
        ("on", .boolean false), ("width", .integer (-7))] },
    { name := "plain", filter := "", inputs := ["a.b"] }]

theorem pipeline_round_trip_thorny : thorny.ScalarParams ∧
    Pipeline.ofToml thorny.toToml = .ok thorny ∧ thorny.agrees thorny = true := by
  have hparams : thorny.ScalarParams := by decide
  obtain ⟨hread, hagrees⟩ := (pipeline_round_trip thorny).2 hparams
  exact ⟨hparams, hread, hagrees.mpr (by decide +kernel)⟩

end Filtergraph
