import Filtergraph.Proofs.Lines

/-!
# Documents put together again

The lines of a document are added to a draft one by one. All that a line changes is at the end of
the draft: the last entry of the root, or of the last table there, and so on inwards. A `Focus` is
a table that is open in this way, together with what is around it.

A table is *arranged* if its plain values come first and its sections, if they are tables, need a
header. The document of an arranged table is read back as that table. The document of any table
is that of the table with its plain values moved to the front.
-/

namespace Filtergraph.Toml

variable {key : String} {path : List String} {v : Value}

/-! ## Entries at the end -/

/-- The keys of entries. -/
def keysOf {α : Type} (entries : List (String × α)) : List String := entries.map Prod.fst

section Entries

variable {item item' : Item} {entries : Items}

theorem lookupEntry_eq_none {α : Type} {entries : List (String × α)} (h : key ∉ keysOf entries) :
    lookupEntry key entries = none := by
  induction entries with
  | nil => rfl
  | cons e entries ih =>
    rw [keysOf, List.map_cons, List.mem_cons, not_or] at h
    rw [lookupEntry, if_neg fun he => h.1 he.symm, ih h.2]

@[simp]
theorem lookupEntry_append {α : Type} (key : String) (a b : List (String × α)) :
    lookupEntry key (a ++ b) = (lookupEntry key a).or (lookupEntry key b) := by
  induction a with
  | nil => rfl
  | cons e a ih =>
    rw [List.cons_append, lookupEntry, lookupEntry]
    split
    · rfl
    · exact ih

theorem lookupEntry_last {α : Type} {entries : List (String × α)} {a : α}
    (h : key ∉ keysOf entries) : lookupEntry key (entries ++ [(key, a)]) = some a := by
  rw [lookupEntry_append, lookupEntry_eq_none h, Option.none_or, lookupEntry, if_pos rfl]

theorem setEntry_new (h : key ∉ keysOf entries) :
    setEntry key item entries = entries ++ [(key, item)] := by
  induction entries with
  | nil => rfl
  | cons e entries ih =>
    rw [keysOf, List.map_cons, List.mem_cons, not_or] at h
    rw [setEntry, if_neg fun he => h.1 he.symm, ih h.2, List.cons_append]

theorem setEntry_last (h : key ∉ keysOf entries) :
    setEntry key item' (entries ++ [(key, item)]) = entries ++ [(key, item')] := by
  induction entries with
  | nil => rw [List.nil_append, setEntry, if_pos rfl, List.nil_append]
  | cons e entries ih =>
    rw [keysOf, List.map_cons, List.mem_cons, not_or] at h
    rw [List.cons_append, setEntry, if_neg fun he => h.1 he.symm, ih h.2, List.cons_append]

theorem finish_append (a b : Items) : finish (a ++ b) = finish a ++ finish b := by
  induction a with
  | nil => rfl
  | cons e a ih => rw [List.cons_append, finish, ih, finish, List.cons_append]

theorem keysOf_finish (entries : Items) : keysOf (finish entries) = keysOf entries := by
  induction entries with
  | nil => rfl
  | cons e entries ih =>
    rw [finish, keysOf, List.map_cons]
    exact congrArg _ ih

/-- Entries with finished values. -/
def values (entries : Entries) : Items := entries.map fun e => (e.1, .value e.2)

theorem finish_values (entries : Entries) : finish (values entries) = entries := by
  induction entries with
  | nil => rfl
  | cons e entries ih =>
    rw [values, List.map_cons, finish, Item.toValue]
    exact congrArg _ ih

theorem keysOf_values (entries : Entries) : keysOf (values entries) = keysOf entries := by
  rw [← keysOf_finish, finish_values]

theorem keysOf_append {α : Type} (a b : List (String × α)) :
    keysOf (a ++ b) = keysOf a ++ keysOf b := List.map_append

end Entries

/-! ## Open tables -/

/-- Whatever is done to the table at the end of the path is done inside of the context. -/
def Focus (path : List String) (context : Items → Items) : Prop :=
  ∀ change inner, descend false (fun _ => change) path .header (context inner) =
    (change inner).map context

theorem focus_root : Focus [] id := by
  intro change inner
  exact (Option.map_id_apply).symm

/-- Going down a longer path is going down its front and then one key more. -/
theorem descend_append (dotted : Bool) (change : Origin → Items → Option Items)
    (path : List String) (key : String) (origin : Origin) (entries : Items) :
    descend dotted change (path ++ [key]) origin entries =
      descend dotted (descend dotted change [key]) path origin entries := by
  -- the way down passes through other tables, so origin and entries are general
  induction path generalizing origin entries with
  | nil => rfl
  | cons k path ih =>
    rw [List.cons_append, descend, descend]
    simp only [ih]

section Focus

variable {context : Items → Items} {entries : Items}

/-- The last entry of an open table can be opened in turn. -/
theorem Focus.enter (h : Focus path context) {inward : Items → Items}
    (hkey : ∀ change inner, descend false (fun _ => change) [key] .header (inward inner) =
      (change inner).map inward) : Focus (path ++ [key]) (context ∘ inward) := by
  intro change inner
  -- one key further in, the origin of the table is not asked for
  have hstep : descend false (fun _ => change) [key] =
      fun _ => descend false (fun _ => change) [key] .header := rfl
  rw [descend_append, hstep]
  show descend false _ path .header (context (inward inner)) = _
  rw [h, hkey, Option.map_map]

theorem Focus.table (h : Focus path context) (hkey : key ∉ keysOf entries) :
    Focus (path ++ [key]) (context ∘ fun inner => entries ++ [(key, .table .header inner)]) := by
  refine h.enter fun change inner => ?_
  rw [descend, lookupEntry_last hkey]
  show (change inner).map _ = _
  simp only [setEntry_last hkey]

/-- In an array of tables it is the last one that is open. -/
theorem Focus.series (h : Focus path context) (hkey : key ∉ keysOf entries)
    (tables : List Items) :
    Focus (path ++ [key]) (context ∘ fun inner =>
      entries ++ [(key, .series (tables ++ [inner]))]) := by
  refine h.enter fun change inner => ?_
  rw [descend, lookupEntry_last hkey]
  dsimp only
  rw [List.getLast?_concat]
  show (change inner).map _ = _
  simp only [setEntry_last hkey, List.dropLast_concat]

/-! ## What lines add -/

theorem add_assign (h : Focus path context) (hkey : key ∉ keysOf entries) (v : Value) :
    Draft.add ⟨context entries, path⟩ (.assign [key] v) =
      some ⟨context (entries ++ [(key, .value v)]), path⟩ := by
  have hassign : assign [key] v entries = some (entries ++ [(key, .value v)]) := by
    show setFresh false key v .header entries = _
    rw [setFresh, if_neg (by simp), lookupEntry_eq_none hkey]
    dsimp only
    rw [setEntry_new hkey]
  rw [Draft.add, h, hassign]
  rfl

/-- A header adds an empty table at the end, and opens it. -/
theorem add_table (h : Focus path context) (hkey : key ∉ keysOf entries) (current : List String) :
    Draft.add ⟨context entries, current⟩ (.table (path ++ [key])) =
      some ⟨context (entries ++ [(key, .table .header [])]), path ++ [key]⟩ := by
  have hopen : openTable (path ++ [key]) (context entries) =
      some (context (entries ++ [(key, .table .header [])])) := by
    unfold openTable
    rw [List.getLast?_concat, List.dropLast_concat]
    dsimp only
    rw [h, lookupEntry_eq_none hkey]
    dsimp only
    rw [setEntry_new hkey]
    rfl
  rw [Draft.add, hopen]
  rfl

/-- Whether a series is begun or made longer depends on the open table alone. -/
theorem openItem_of_focus (h : Focus path context) : openItem (path ++ [key]) (context entries) =
    (match lookupEntry key entries with
      | none => some (setEntry key (.series [[]]) entries)
      | some (.series tables) => some (setEntry key (.series (tables ++ [[]])) entries)
      | some _ => none).map context := by
  unfold openItem
  rw [List.getLast?_concat, List.dropLast_concat]
  exact h _ _

theorem add_item_first (h : Focus path context) (hkey : key ∉ keysOf entries)
    (current : List String) :
    Draft.add ⟨context entries, current⟩ (.item (path ++ [key])) =
      some ⟨context (entries ++ [(key, .series [[]])]), path ++ [key]⟩ := by
  rw [Draft.add, openItem_of_focus h, lookupEntry_eq_none hkey]
  dsimp only
  rw [setEntry_new hkey]
  rfl

/-- A header of the same array opens one more table in it. -/
theorem add_item_next (h : Focus path context) (hkey : key ∉ keysOf entries)
    (tables : List Items) (current : List String) :
    Draft.add ⟨context (entries ++ [(key, .series tables)]), current⟩ (.item (path ++ [key])) =
      some ⟨context (entries ++ [(key, .series (tables ++ [[]]))]), path ++ [key]⟩ := by
  rw [Draft.add, openItem_of_focus h, lookupEntry_last hkey]
  dsimp only
  rw [setEntry_last hkey]
  rfl

end Focus

/-! ## Texts that lead from one draft to another -/

/-- The text consists of short lines, and they turn the first draft into the second. -/
def Leads (text : List Char) (d d' : Draft) : Prop :=
  ∃ ls : List Line, text = ls.flatMap Line.chars ∧ (∀ l ∈ ls, l.IsShort) ∧
    ls.foldlM Draft.add d = some d'

theorem Leads.refl (d : Draft) : Leads [] d d :=
  ⟨[], rfl, by simp, rfl⟩

theorem Leads.line {l : Line} {d d' : Draft} (hl : l.IsShort) (h : d.add l = some d') :
    Leads l.chars d d' := by
  refine ⟨[l], by simp, by simpa using hl, ?_⟩
  rw [List.foldlM_cons, h]
  rfl

/-- Texts can be put one behind the other. -/
theorem Leads.trans {text text' : List Char} {d d' d'' : Draft} (h : Leads text d d')
    (h' : Leads text' d' d'') : Leads (text ++ text') d d'' := by
  obtain ⟨ls, rfl, hshort, hadd⟩ := h
  obtain ⟨ls', rfl, hshort', hadd'⟩ := h'
  refine ⟨ls ++ ls', by rw [List.flatMap_append], ?_, ?_⟩
  · intro l hl
    exact (List.mem_append.mp hl).elim (hshort l) (hshort' l)
  · rw [List.foldlM_append, hadd]
    exact hadd'

/-- **A text that leads to a draft is read as the finished draft.** -/
theorem Leads.parse? {text : List Char} {d : Draft} (h : Leads text {} d) :
    parse? (String.ofList text) = some (finish d.entries) := by
  obtain ⟨ls, rfl, hshort, hadd⟩ := h
  unfold Toml.parse?
  rw [String.toList_ofList, skipMark_chars hshort]
  dsimp only
  rw [lines?_chars hshort _ (Nat.lt_succ_self _), Option.bind_some, assemble, hadd]
  rfl

/-! ## Arranged tables -/

/-- Written as sections: a table that has a header, or tables, at least one. -/
inductive Value.IsSections (P : Entries → Prop) : Value → Prop where
  | table {t : Entries} (header : hasHeader t = true) (h : P t) : IsSections P (.table t)
  | series {t : Entries} {ts : List Entries} (first : P t) (others : ∀ t' ∈ ts, P t') :
      IsSections P (.array ((t :: ts).map .table))

/-- Plain values, and then sections. -/
structure ArrangedOver (P : Entries → Prop) (plain sections : Entries) : Prop where
  distinct : (keysOf (plain ++ sections)).Nodup
  plain : ∀ e ∈ plain, e.2.IsPlain
  sections : ∀ e ∈ sections, e.2.IsSections P

/-- In every table the plain values come first, and tables are nested less than `n` deep. -/
def Arranged : Nat → Entries → Prop
  | 0, _ => False
  | n + 1, entries => ∃ plain sections, entries = plain ++ sections ∧
      ArrangedOver (Arranged n) plain sections

theorem Value.IsPlain.isSection (h : v.IsPlain) : v.isSection = false := by
  cases h with
  | scalar h =>
    cases v with
    | array items => exact absurd h (by simp [Value.isScalar])
    | table entries => exact absurd h (by simp [Value.isScalar])
    | _ => rfl
  | @list items h =>
    -- what stands first in an array decides, and here it is no table
    cases items with
    | nil => rfl
    | cons w items =>
      have hw := h w List.mem_cons_self
      have htable : w.isTable = false := by
        cases w with
        | table entries => exact absurd hw (by simp [Value.isScalar])
        | _ => rfl
      simp [Value.isSection, htable]

theorem Value.IsSections.isSection {P : Entries → Prop} (h : v.IsSections P) :
    v.isSection = true := by
  cases h with
  | table _ _ => rfl
  | series _ _ => simp [Value.isSection, Value.isTable]

/-- The sections of a table are those of its entries, one after the other. -/
theorem entrySections_eq (path : List String) (entries : Entries) : entrySections path entries =
    entries.flatMap fun e => if e.2.isSection then e.2.sections (path ++ [e.1]) else [] := by
  induction entries with
  | nil => rfl
  | cons e entries ih => rw [entrySections, ih, List.flatMap_cons]

/-- Each table of an array has the header of the array before it. -/
theorem itemSections_eq (path : List String) (ts : List Entries) :
    itemSections path (ts.map .table) =
    ts.flatMap fun t => itemHeader path ++ (plainLines t ++ entrySections path t) := by
  induction ts with
  | nil => rfl
  | cons t ts ih =>
    rw [List.map_cons, itemSections, ih, List.flatMap_cons]
    simp only [List.append_assoc]

section Arranged

variable {P : Entries → Prop} {plain sections : Entries}

theorem ArrangedOver.plainLines_eq (h : ArrangedOver P plain sections) :
    plainLines (plain ++ sections) = plain.flatMap fun e => (Line.assign [e.1] e.2).chars := by
  have hsections : plainLines sections = [] := by
    refine List.flatMap_eq_nil_iff.mpr fun e he => ?_
    exact if_pos (h.sections e he).isSection
  have hplain : plainLines plain = plain.flatMap fun e => (Line.assign [e.1] e.2).chars := by
    refine List.flatMap_congr fun e he => ?_
    show (if e.2.isSection then [] else keyChars e.1 ++ " = ".toList ++ e.2.chars ++ ['\n']) = _
    rw [(h.plain e he).isSection, if_neg (by decide), List.append_assoc, List.append_assoc]
    rfl
  rw [← hplain, ← List.append_nil (plainLines plain), ← hsections]
  exact List.flatMap_append

theorem ArrangedOver.entrySections_eq (h : ArrangedOver P plain sections) (path : List String) :
    entrySections path (plain ++ sections) =
      sections.flatMap fun e => e.2.sections (path ++ [e.1]) := by
  rw [Toml.entrySections_eq, List.flatMap_append]
  have hplain :
      (plain.flatMap fun e => if e.2.isSection then e.2.sections (path ++ [e.1]) else []) =
      [] := by
    refine List.flatMap_eq_nil_iff.mpr fun e he => ?_
    rw [(h.plain e he).isSection, if_neg (by decide)]
  rw [hplain, List.nil_append]
  refine List.flatMap_congr fun e he => ?_
  rw [(h.sections e he).isSection, if_pos rfl]

end Arranged

section Leads

variable {context : Items → Items}

/-- The lines of plain values add them to the open table. -/
theorem leads_plain {plain : Entries} {inner : Items} (hf : Focus path context)
    (hplain : ∀ e ∈ plain, e.2.IsPlain) (hkeys : (keysOf inner ++ keysOf plain).Nodup) :
    Leads (plain.flatMap fun e => (Line.assign [e.1] e.2).chars) ⟨context inner, path⟩
      ⟨context (inner ++ values plain), path⟩ := by
  induction plain generalizing inner with
  | nil =>
    rw [values, List.map_nil, List.append_nil]
    exact .refl _
  | cons e plain ih =>
    -- a key that is still to come cannot be there yet
    have hkey : e.1 ∉ keysOf inner := by
      intro hmem
      exact (List.nodup_append.mp hkeys).2.2 e.1 hmem e.1 List.mem_cons_self rfl
    have hkeys' : (keysOf (inner ++ [(e.1, Item.value e.2)]) ++ keysOf plain).Nodup := by
      simpa [keysOf] using hkeys
    have hrest := ih (fun x hx => hplain x (List.mem_cons_of_mem _ hx)) hkeys'
    have hshort : (Line.assign [e.1] e.2).IsShort :=
      ⟨⟨List.cons_ne_nil _ _, (by decide : 1 < depthLimit)⟩, hplain e List.mem_cons_self⟩
    have hall := (Leads.line hshort (add_assign hf hkey e.2)).trans hrest
    rw [List.append_assoc] at hall
    exact hall

/-- A table of entries at a path can be written: the text leads from the empty table there to
the entries. -/
def Writable (path : List String) (t : Entries) : Prop :=
  ∀ context, Focus path context → ∃ items current,
    Leads (plainLines t ++ entrySections path t) ⟨context [], path⟩ ⟨context items, current⟩ ∧
      finish items = t

/-- The header of a table and its text add that table. -/
theorem leads_table {t : Entries} {inner : Items} (hf : Focus path context)
    (hkey : key ∉ keysOf inner) (hshort : ShortPath (path ++ [key])) (hheader : hasHeader t = true)
    (ht : Writable (path ++ [key]) t) (current : List String) :
    ∃ item current', Leads ((Value.table t).sections (path ++ [key])) ⟨context inner, current⟩
      ⟨context (inner ++ [(key, item)]), current'⟩ ∧ item.toValue = .table t := by
  obtain ⟨items, current', hleads, hfinish⟩ := ht _ (hf.table hkey)
  have hopen : Leads (Line.chars (.table (path ++ [key]))) ⟨context inner, current⟩ _ :=
    Leads.line hshort (add_table hf hkey current)
  refine ⟨.table .header items, current', ?_, ?_⟩
  · rw [Value.sections, if_pos hheader, List.append_assoc]
    exact hopen.trans hleads
  · rw [Item.toValue, hfinish]

/-- More tables of an array. -/
theorem leads_items {ts : List Entries} {inner : Items} (hf : Focus path context)
    (hkey : key ∉ keysOf inner) (hshort : ShortPath (path ++ [key]))
    (hts : ∀ t ∈ ts, Writable (path ++ [key]) t) (tables : List Items) (current : List String) :
    ∃ tables' current', Leads (itemSections (path ++ [key]) (ts.map .table))
      ⟨context (inner ++ [(key, .series tables)]), current⟩
      ⟨context (inner ++ [(key, .series (tables ++ tables'))]), current'⟩ ∧
      finishAll tables' = ts.map .table := by
  rw [itemSections_eq]
  -- the tables that are written already stay in front
  induction ts generalizing tables current with
  | nil => exact ⟨[], current, by rw [List.append_nil]; exact .refl _, rfl⟩
  | cons t ts ih =>
    have hopen : Leads (Line.chars (.item (path ++ [key]))) _ _ :=
      Leads.line hshort (add_item_next hf hkey tables current)
    obtain ⟨items, current₁, hitems, hfinish⟩ := hts t List.mem_cons_self _ (hf.series hkey tables)
    obtain ⟨tables', current', hrest, hfinish'⟩ :=
      ih (fun x hx => hts x (List.mem_cons_of_mem _ hx)) (tables ++ [items]) current₁
    refine ⟨items :: tables', current', ?_, ?_⟩
    · have hall := (hopen.trans hitems).trans hrest
      rw [List.append_assoc tables [items]] at hall
      exact hall
    · rw [finishAll, hfinish, hfinish', List.map_cons]

/-- The first table of an array starts it, and the others are added to it. -/
theorem leads_series {t : Entries} {ts : List Entries} {inner : Items} (hf : Focus path context)
    (hkey : key ∉ keysOf inner) (hshort : ShortPath (path ++ [key]))
    (hts : ∀ t' ∈ t :: ts, Writable (path ++ [key]) t') (current : List String) :
    ∃ item current', Leads ((Value.array ((t :: ts).map .table)).sections (path ++ [key]))
      ⟨context inner, current⟩ ⟨context (inner ++ [(key, item)]), current'⟩ ∧
      item.toValue = .array ((t :: ts).map .table) := by
  have hopen : Leads (Line.chars (.item (path ++ [key]))) _ _ :=
    Leads.line hshort (add_item_first hf hkey current)
  obtain ⟨items, current₁, hitems, hfinish⟩ := hts t List.mem_cons_self _ (hf.series hkey [])
  obtain ⟨tables, current', hrest, hfinish'⟩ := leads_items hf hkey hshort
    (fun x hx => hts x (List.mem_cons_of_mem _ hx)) [items] current₁
  refine ⟨.series (items :: tables), current', ?_, ?_⟩
  · have hall := (hopen.trans hitems).trans hrest
    rw [itemSections_eq] at hall
    rw [Value.sections, itemSections_eq, List.flatMap_cons]
    exact hall
  · rw [Item.toValue, finishAll, hfinish, hfinish', List.map_cons]

/-- One section after the other. -/
theorem leads_sections {P : Entries → Prop} {sections : Entries} {inner : Items}
    (hf : Focus path context) (hsections : ∀ e ∈ sections, e.2.IsSections P)
    (hkeys : (keysOf inner ++ keysOf sections).Nodup) (hshort : path.length + 1 < depthLimit)
    (hP : ∀ e ∈ sections, ∀ t, P t → Writable (path ++ [e.1]) t) (current : List String) :
    ∃ items current', Leads (sections.flatMap fun e => e.2.sections (path ++ [e.1]))
      ⟨context inner, current⟩ ⟨context (inner ++ items), current'⟩ ∧ finish items = sections := by
  induction sections generalizing inner current with
  | nil => exact ⟨[], current, by rw [List.append_nil]; exact .refl _, rfl⟩
  | cons e sections ih =>
    obtain ⟨key, v⟩ := e
    have hkey : key ∉ keysOf inner := by
      intro hmem
      exact (List.nodup_append.mp hkeys).2.2 key hmem key List.mem_cons_self rfl
    have hpath : ShortPath (path ++ [key]) := ⟨by simp, by simpa using hshort⟩
    have hwritable := hP (key, v) List.mem_cons_self
    obtain ⟨item, current₁, hfirst, hvalue⟩ : ∃ item current₁,
        Leads (v.sections (path ++ [key])) ⟨context inner, current⟩
          ⟨context (inner ++ [(key, item)]), current₁⟩ ∧ item.toValue = v := by
      -- a table with a header, or an array of tables
      cases hsections _ List.mem_cons_self with
      | table header h => exact leads_table hf hkey hpath header (hwritable _ h) current
      | series first others =>
        refine leads_series hf hkey hpath ?_ current
        intro t' ht'
        rcases List.mem_cons.mp ht' with rfl | ht'
        · exact hwritable _ first
        · exact hwritable _ (others t' ht')
    -- the key that was just written is one of the old ones from now on
    have hkeys' : (keysOf (inner ++ [(key, item)]) ++ keysOf sections).Nodup := by
      simpa [keysOf] using hkeys
    obtain ⟨items, current', hrest, hfinish⟩ := ih
      (fun x hx => hsections x (List.mem_cons_of_mem _ hx)) hkeys'
      (fun x hx => hP x (List.mem_cons_of_mem _ hx)) current₁
    refine ⟨(key, item) :: items, current', ?_, ?_⟩
    · have hall := hfirst.trans hrest
      rw [List.append_assoc] at hall
      exact hall
    · rw [finish, hvalue, hfinish]

/-- **Arranged tables can be written**, at any path that leaves room for their nesting. -/
theorem writable_of_arranged {n : Nat} {t : Entries} (h : Arranged n t)
    (hpath : path.length + n < depthLimit) : Writable path t := by
  -- on the nesting: each section stands one key deeper and is nested less
  induction n generalizing path t with
  | zero => exact h.elim
  | succ n ih =>
    obtain ⟨plain, sections, rfl, h⟩ := h
    intro context hf
    have hdistinct : (keysOf plain ++ keysOf sections).Nodup := by
      rw [← keysOf_append]
      exact h.distinct
    have hplain : Leads _ ⟨context [], path⟩ ⟨context ([] ++ values plain), path⟩ :=
      leads_plain hf h.plain (List.nodup_append.mp hdistinct).1
    have hkeys : (keysOf (values plain) ++ keysOf sections).Nodup := by
      rw [keysOf_values]
      exact hdistinct
    obtain ⟨items, current, hsections, hfinish⟩ := leads_sections hf h.sections hkeys (by omega)
      (fun e _ t ht => ih ht (by rw [List.length_append, List.length_singleton]; omega)) path
    refine ⟨values plain ++ items, current, ?_, ?_⟩
    · rw [h.plainLines_eq, h.entrySections_eq]
      exact hplain.trans hsections
    · rw [finish_append, finish_values, hfinish]

/-- **The document of an arranged table is read back as that table.** -/
theorem parse?_document {n : Nat} {entries : Entries} (h : Arranged n entries)
    (hn : n < depthLimit) : parse? (document entries) = some entries := by
  obtain ⟨items, current, hleads, hfinish⟩ :=
    writable_of_arranged h (by simpa using hn) id focus_root
  rw [document, hleads.parse?]
  exact congrArg some hfinish

end Leads

/-! ## Any table -/

/-- The plain values first, and then the sections. -/
def arrange (entries : Entries) : Entries :=
  entries.filter (fun e => e.2.isSection = false) ++ entries.filter (fun e => e.2.isSection)

theorem arrange_perm (entries : Entries) : (arrange entries).Perm entries := by
  have hperm := List.filter_append_perm (fun e => decide (e.2.isSection = false)) entries
  simpa [arrange] using hperm

section Texts

variable {f : String × Value → List Char}

theorem flatMap_filter_of_nil {p : String × Value → Bool} (h : ∀ e, p e = false → f e = [])
    (entries : Entries) : (entries.filter p).flatMap f = entries.flatMap f := by
  induction entries with
  | nil => rfl
  | cons e entries ih =>
    rw [List.flatMap_cons]
    cases hp : p e with
    | true => rw [List.filter_cons_of_pos hp, List.flatMap_cons, ih]
    | false => rw [List.filter_cons_of_neg (by simp [hp]), ih, h e hp, List.nil_append]

/-- A text of the plain values alone does not see the sections move. -/
theorem flatMap_arrange_plain (h : ∀ e, e.2.isSection = true → f e = []) (entries : Entries) :
    (arrange entries).flatMap f = entries.flatMap f := by
  have hsections : (entries.filter fun e => e.2.isSection).flatMap f = [] :=
    List.flatMap_eq_nil_iff.mpr fun e he => h e (List.mem_filter.mp he).2
  rw [arrange, List.flatMap_append, hsections, List.append_nil]
  exact flatMap_filter_of_nil (fun e he => h e (by simpa using he)) entries

theorem flatMap_arrange_sections (h : ∀ e, e.2.isSection = false → f e = []) (entries : Entries) :
    (arrange entries).flatMap f = entries.flatMap f := by
  have hplain : (entries.filter fun e => e.2.isSection = false).flatMap f = [] :=
    List.flatMap_eq_nil_iff.mpr fun e he => h e (by simpa using (List.mem_filter.mp he).2)
  rw [arrange, List.flatMap_append, hplain, List.nil_append]
  exact flatMap_filter_of_nil h entries

end Texts

/-- **Where the plain values stand does not matter to the document.** -/
theorem document_arrange (entries : Entries) : document (arrange entries) = document entries := by
  -- each half of the document looks at one kind of entry only
  have hplain : plainLines (arrange entries) = plainLines entries :=
    flatMap_arrange_plain (fun e he => if_pos he) entries
  have hsections : entrySections [] (arrange entries) = entrySections [] entries := by
    rw [entrySections_eq, entrySections_eq]
    exact flatMap_arrange_sections (fun e he => if_neg (by simp [he])) entries
  rw [document, document, hplain, hsections]

end Filtergraph.Toml
