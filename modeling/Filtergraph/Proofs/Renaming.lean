import Filtergraph.Proofs.Blueprints

/-!
# Names are only names

Names are compared and nothing else is done with them. So if every name is replaced, different
names by different ones, the same graph is built.

We run the two constructions side by side. At every step both fail, or their sites are the same
but for the names in the table. A lookup finds the same in both, because the names in a table are
proper: a text that is none, such as the empty one, is not there before or after.
-/

namespace Filtergraph

/-! ## Renaming -/

/-- A text that can be declared. -/
abbrev Name := { name : String // IsName name }

instance (name : String) : Decidable (IsName name) :=
  decidable_of_iff (name ≠ "" ∧ ':' ∉ name.toList)
    ⟨fun h => ⟨h.1, h.2⟩, fun h => ⟨h.nonempty, h.noColon⟩⟩

variable (r : Name → Name)

/-- The new name, if the text is a name at all. -/
def renameWord (word : String) : String :=
  if h : IsName word then (r ⟨word, h⟩).val else word

/-- The text with the part before its first colon renamed. -/
def renameText (text : String) : String :=
  match Construct.splitReference text with
  | (word, none) => renameWord r word
  | (word, some stream) => renameWord r word ++ ":" ++ stream

/-- The declaration under new names. -/
def InputDecl.rename (d : InputDecl) : InputDecl := { d with name := renameText r d.name }

/-- The declaration under new names. -/
def NodeDecl.rename (d : NodeDecl) : NodeDecl :=
  { d with name := renameText r d.name, inputs := d.inputs.map (renameText r) }

/-- The declaration under new names. -/
def MapDecl.rename (d : MapDecl) : MapDecl := { d with origin := renameText r d.origin }

/-- The pipeline under new names. -/
def Pipeline.rename (p : Pipeline) : Pipeline :=
  { p with
    roots := p.roots.map (renameText r)
    inputs := p.inputs.map (InputDecl.rename r)
    nodes := p.nodes.map (NodeDecl.rename r)
    maps := p.maps.map (MapDecl.rename r) }

/-- A table under new names. -/
def renameTable (names : List (String × Declared)) : List (String × Declared) :=
  names.map fun x => (renameText r x.1, x.2)

/-- The site under new names. -/
def Site.rename (s : Site) : Site := { s with names := renameTable r s.names }

section Texts

variable {r}

theorem renameWord_noColon {word : String} (h : ':' ∉ word.toList) :
    ':' ∉ (renameWord r word).toList := by
  unfold renameWord
  split
  · exact (r _).property.noColon
  · exact h

theorem renameText_of_noColon {word : String} (h : ':' ∉ word.toList) :
    renameText r word = renameWord r word := by
  rw [renameText, Construct.splitReference_of_not_mem h]

/-- The stream of a reference keeps its own text. -/
theorem renameText_append {word : String} (h : ':' ∉ word.toList) (stream : String) :
    renameText r (word ++ ":" ++ stream) = renameWord r word ++ ":" ++ stream := by
  rw [renameText, Construct.splitReference_append h]

theorem renameText_of_isName {name : String} (h : IsName name) :
    renameText r name = (r ⟨name, h⟩).val := by
  rw [renameText_of_noColon h.noColon, renameWord, dif_pos h]

/-- New names are names, and nothing else becomes one. -/
theorem isName_renameText {text : String} : IsName (renameText r text) ↔ IsName text := by
  constructor
  · intro h
    -- a text with a colon keeps it, and a word is renamed only if it is a name
    rcases Construct.reference_cases text with hcolon | ⟨word, stream, hword, rfl⟩
    · rw [renameText_of_noColon hcolon, renameWord] at h
      split at h
      · assumption
      · exact h
    · rw [renameText_append hword] at h
      exact absurd h.noColon (by simp)
  · intro h
    rw [renameText_of_isName h]
    exact (r _).property

/-- **Different names stay different.** -/
theorem renameText_eq_iff (hr : Function.Injective r) {text name : String} (h : IsName name) :
    renameText r text = renameText r name ↔ text = name := by
  constructor
  · intro he
    have htext : IsName text := by
      rw [← isName_renameText, he, isName_renameText]
      exact h
    rw [renameText_of_isName htext, renameText_of_isName h] at he
    exact congrArg Subtype.val (hr (Subtype.ext he))
  · intro he
    rw [he]

/-- Names in the table are proper. -/
def Site.Proper (s : Site) : Prop := ∀ x ∈ s.names, IsName x.1

/-- **A table under new names finds the same.** -/
theorem lookup_rename (hr : Function.Injective r) {s : Site} (hs : s.Proper) (text : String) :
    (s.rename r).names.lookup (renameText r text) = s.names.lookup text := by
  obtain ⟨g, names, selectors⟩ := s
  show (renameTable r names).lookup (renameText r text) = names.lookup text
  induction names with
  | nil => rfl
  | cons x names ih =>
    have hx : IsName x.1 := hs x List.mem_cons_self
    have hrest := ih fun y hy => hs y (List.mem_cons_of_mem _ hy)
    rw [renameTable, List.map_cons, List.lookup_cons, List.lookup_cons]
    -- the two tables are searched in step
    by_cases he : text = x.1
    · simp [he]
    · have hne : renameText r text ≠ renameText r x.1 :=
        fun h => he ((renameText_eq_iff hr hx).mp h)
      rw [beq_false_of_ne he, beq_false_of_ne hne]
      exact hrest

end Texts

/-! ## Two constructions side by side -/

section Answers

variable {α β γ : Type}

/-- Two computations whose first answers are the same, whatever is wrong if there is none. -/
theorem toOption_bind_map {y y' : Except PipelineError α} {f : α → Except PipelineError β}
    {f' : α → Except PipelineError γ} {g : β → γ} (hy : y'.toOption = y.toOption)
    (hf : ∀ a, (f' a).toOption = (f a).toOption.map g) :
    (y' >>= f').toOption = (y >>= f).toOption.map g := by
  -- either both have an answer, the same one, or neither has
  cases y with
  | ok a =>
    cases y' with
    | ok a' =>
      obtain rfl := Option.some.inj hy
      exact hf a'
    | error e' => exact absurd hy (by simp [Except.toOption])
  | error e =>
    cases y' with
    | ok a' => exact absurd hy (by simp [Except.toOption])
    | error e' => rfl

theorem toOption_bind {y y' : Except PipelineError α} {f f' : α → Except PipelineError β}
    (hy : y'.toOption = y.toOption) (hf : ∀ a, (f' a).toOption = (f a).toOption) :
    (y' >>= f').toOption = (y >>= f).toOption := by
  have hid : ∀ a, (f' a).toOption = (f a).toOption.map id := by
    intro a
    rw [hf a, Option.map_id, id]
  rw [toOption_bind_map hy hid, Option.map_id, id]

end Answers

namespace NodeDecl

variable {r}

/-- What is declared as an operation does not depend on names. -/
theorem operation_rename (d : NodeDecl) : (d.rename r).operation = d.operation := by
  have htexts : ∀ entries, (d.rename r).paramTexts entries = d.paramTexts entries := by
    intro entries
    induction entries with
    | nil => rfl
    | cons x rest ih =>
      show (do
        let text ← d.paramText x.1 x.2
        let texts ← (d.rename r).paramTexts rest
        return (x.1, text) :: texts) = _
      rw [ih]
      rfl
  unfold operation
  rw [htexts]
  rfl

theorem toOption_checkTime (d : NodeDecl) (x : Option Double) :
    ((d.rename r).checkTime x).toOption = (d.checkTime x).toOption := by
  cases x with
  | none => rfl
  | some x =>
    unfold checkTime
    dsimp only
    split
    · rfl
    · rfl

/-- Nor does its gate, but for the name that an error would tell. -/
theorem toOption_gate? (d : NodeDecl) : (d.rename r).gate?.toOption = d.gate?.toOption := by
  unfold gate?
  rw [show (d.rename r).since = d.since from rfl, show (d.rename r).till = d.till from rfl,
    show (d.rename r).condition = d.condition from rfl]
  split
  · rfl
  · exact toOption_bind (toOption_checkTime d _) fun _ =>
      toOption_bind (toOption_checkTime d _) fun _ => rfl

end NodeDecl

namespace Construct

variable {α β : Type}

/-- Both fail, or both end with the same result and in sites that are the same but for names. -/
inductive Alike : Except PipelineError (α × Site) → Except PipelineError (α × Site) → Prop where
  | ok {a : α} {s : Site} (proper : s.Proper) : Alike (.ok (a, s)) (.ok (a, s.rename r))
  | error (e e' : PipelineError) : Alike (.error e) (.error e')

variable {r} {s : Site}

theorem Alike.bind {x x' : Construct α} {f f' : α → Construct β} {s' : Site}
    (hx : Alike r (x s) (x' s'))
    (hf : ∀ a t, t.Proper → Alike r (f a t) (f' a (t.rename r))) :
    Alike r ((x >>= f) s) ((x' >>= f') s') := by
  show Alike r (x s >>= fun y => f y.1 y.2) (x' s' >>= fun y => f' y.1 y.2)
  generalize x s = y, x' s' = y' at hx
  cases hx with
  | ok proper => exact hf _ _ proper
  | error e e' => exact .error e e'

/-- Answers that are the same, whatever is wrong if there is none. -/
theorem Alike.lift {y y' : Except PipelineError α} (hs : s.Proper)
    (h : y'.toOption = y.toOption) :
    Alike r ((liftM y : Construct α) s) ((liftM y' : Construct α) (s.rename r)) := by
  cases y with
  | ok a =>
    cases y' with
    | ok a' =>
      obtain rfl := Option.some.inj h
      exact .ok hs
    | error e' => exact absurd h (by simp [Except.toOption])
  | error e =>
    cases y' with
    | ok a' => exact absurd h (by simp [Except.toOption])
    | error e' => exact .error e e'

/-- The graph has no names in it. -/
theorem Alike.edit (hs : s.Proper) (e : Edit α) :
    Alike r (Construct.edit e s) (Construct.edit e (s.rename r)) := by
  have hgraph : (s.rename r).graph = s.graph := rfl
  unfold Construct.edit
  rw [hgraph]
  cases e s.graph with
  | ok a g => exact .ok hs
  | error err g => exact .error _ _

theorem alike_seconds? (hs : s.Proper) (name name' : String) (x : Option Double) :
    Alike r (seconds? name x s) (seconds? name' x (s.rename r)) := by
  cases x with
  | none => exact .ok hs
  | some x =>
    refine Alike.bind ?_ fun d t ht => .ok ht
    unfold seconds
    cases Duration.ofSeconds? x with
    | none => exact .error _ _
    | some d => exact .ok hs

/-- A name that is new is new under new names as well, and one that is none stays none. -/
theorem alike_declare (hr : Function.Injective r) (hs : s.Proper) (name : String) (d : Declared) :
    Alike r (declare name d s) (declare (renameText r name) d (s.rename r)) := by
  have himproper : ∀ text : String, (text = "" ∨ ':' ∈ text.toList) ↔ ¬ IsName text := by
    intro text
    constructor
    · intro hor h
      exact hor.elim h.nonempty h.noColon
    · intro h
      by_contra hor
      rw [not_or] at hor
      exact h ⟨hor.1, hor.2⟩
  unfold declare
  -- refused on both sides, or looked up on both sides
  by_cases hname : IsName name
  · have hname' : IsName (renameText r name) := isName_renameText.mpr hname
    rw [if_neg (by rwa [himproper, not_not]), if_neg (by rwa [himproper, not_not])]
    dsimp only
    rw [get_bind_eq, get_bind_eq, lookup_rename hr hs]
    cases s.names.lookup name with
    | some d' => exact .error _ _
    | none =>
      have hproper : Site.Proper { s with names := s.names ++ [(name, d)] } := by
        intro x hx
        rcases List.mem_append.mp hx with hx | hx
        · exact hs x hx
        · rw [List.mem_singleton.mp hx]
          exact hname
      -- the table under new names, with the new entry under its new name
      have hnames : (s.rename r).names ++ [(renameText r name, d)] =
          renameTable r (s.names ++ [(name, d)]) := by
        rw [renameTable, List.map_append]
        rfl
      show Alike r (.ok ((), { s with names := s.names ++ [(name, d)] }))
        (.ok ((), { s.rename r with names := (s.rename r).names ++ [(renameText r name, d)] }))
      rw [hnames]
      exact .ok hproper
  · have hname' : ¬ IsName (renameText r name) := fun h => hname (isName_renameText.mp h)
    rw [if_pos (by rwa [himproper]), if_pos (by rwa [himproper])]
    exact .error _ _

/-- Selectors are kept by the number of their file, which has not changed. -/
theorem alike_selector (hs : s.Proper) (source : NodeId) (stream : Stream) :
    Alike r (selector source stream s) (selector source stream (s.rename r)) := by
  have hselectors : (s.rename r).selectors = s.selectors := rfl
  unfold selector
  rw [get_bind_eq, get_bind_eq, hselectors]
  cases s.selectors.lookup (source, stream) with
  | some id => exact .ok hs
  | none => exact Alike.bind (Alike.edit hs _) fun id t ht => .ok ht

/-- **A reference under new names means the same node.** -/
theorem alike_resolve (hr : Function.Injective r) (hs : s.Proper) (reference : String) :
    Alike r (resolve reference s) (resolve (renameText r reference) (s.rename r)) := by
  unfold resolve
  rw [get_bind_eq, get_bind_eq]
  -- a name alone, or a stream of what has the name
  rcases reference_cases reference with hcolon | ⟨word, stream, hword, rfl⟩
  · have hlookup := lookup_rename hr hs reference
    rw [renameText_of_noColon hcolon] at hlookup ⊢
    rw [splitReference_of_not_mem hcolon, splitReference_of_not_mem (renameWord_noColon hcolon)]
    dsimp only
    rw [hlookup]
    cases s.names.lookup reference with
    | none => exact .error _ _
    | some d => exact .ok hs
  · have hlookup := lookup_rename hr hs word
    rw [renameText_of_noColon hword] at hlookup
    rw [renameText_append hword, splitReference_append hword,
      splitReference_append (renameWord_noColon hword)]
    dsimp only
    rw [hlookup]
    cases s.names.lookup word with
    | none => exact .error _ _
    | some d =>
      cases d with
      | node id => exact .error _ _
      | input source =>
        dsimp only
        cases Stream.parse? stream with
        | none => exact .error _ _
        | some stream => exact alike_selector hs source stream

theorem alike_resolveAll (hr : Function.Injective r) (hs : s.Proper) (references : List String) :
    Alike r (resolveAll references s)
      (resolveAll (references.map (renameText r)) (s.rename r)) := by
  induction references generalizing s with
  | nil => exact .ok hs
  | cons reference rest ih =>
    refine (alike_resolve hr hs reference).bind fun id t ht => ?_
    exact (ih ht).bind fun ids t ht => .ok ht

theorem alike_addInput (hr : Function.Injective r) (hs : s.Proper) (d : InputDecl) :
    Alike r (addInput d s) (addInput (d.rename r) (s.rename r)) := by
  refine (alike_seconds? hs _ _ d.duration).bind fun duration t ht => ?_
  refine (alike_seconds? ht _ _ d.offset).bind fun offset t ht => ?_
  refine (Alike.edit ht _).bind fun id t ht => ?_
  exact alike_declare hr ht d.name _

theorem alike_addNode (hr : Function.Injective r) (hs : s.Proper) (d : NodeDecl) :
    Alike r (addNode d s) (addNode (d.rename r) (s.rename r)) := by
  -- step by step, as the declaration is carried out
  rw [addNode_eq, addNode_eq, d.operation_rename]
  refine (Alike.lift hs rfl).bind fun op t ht => ?_
  refine (alike_resolveAll hr ht d.inputs).bind fun ids t ht => ?_
  refine Alike.bind ?_ fun id t ht => ?_
  · cases op with
    | filter f => exact Alike.edit ht _
    | merge => exact Alike.edit ht _
  refine (Alike.lift ht d.toOption_gate?).bind fun gate t ht => ?_
  refine Alike.bind ?_ fun _ t ht => alike_declare hr ht d.name _
  cases gate with
  | none => exact .ok ht
  | some gate => exact Alike.edit ht _

theorem alike_forM {f : α → Construct Unit} {f' : β → Construct Unit} {rename : α → β}
    (hf : ∀ a t, t.Proper → Alike r (f a t) (f' (rename a) (t.rename r))) (hs : s.Proper)
    (l : List α) : Alike r (l.forM f s) ((l.map rename).forM f' (s.rename r)) := by
  induction l generalizing s with
  | nil => exact .ok hs
  | cons a l ih => exact (hf a s hs).bind fun _ t ht => ih ht

end Construct

namespace Site

variable {r} {s : Site}

theorem toOption_node (hr : Function.Injective r) (hs : s.Proper) (name : String) :
    ((s.rename r).node (renameText r name)).toOption = (s.node name).toOption := by
  unfold node
  rw [lookup_rename hr hs]
  cases s.names.lookup name with
  | none => rfl
  | some d =>
    cases d with
    | input id => rfl
    | node id => rfl

theorem toOption_mapping (hr : Function.Injective r) (hs : s.Proper) (d : MapDecl) :
    ((s.rename r).mapping (d.rename r)).toOption = (s.mapping d).toOption := by
  obtain ⟨origin, stream⟩ := d
  unfold mapping
  rw [show (MapDecl.rename r ⟨origin, stream⟩) = ⟨renameText r origin, stream⟩ from rfl]
  dsimp only
  rw [lookup_rename hr hs]
  cases s.names.lookup origin with
  | none => rfl
  | some e =>
    cases e with
    | node id =>
      cases stream with
      | none => rfl
      | some text => rfl
    | input id =>
      cases stream with
      | none => rfl
      | some text =>
        dsimp only
        cases Stream.parse? text with
        | none => rfl
        | some stream => rfl

theorem toOption_nodes (hr : Function.Injective r) (hs : s.Proper) (names : List String) :
    ((s.rename r).nodes (names.map (renameText r))).toOption = (s.nodes names).toOption := by
  induction names with
  | nil => rfl
  | cons name rest ih =>
    exact toOption_bind (toOption_node hr hs name) fun _ => toOption_bind ih fun _ => rfl

theorem toOption_mappings (hr : Function.Injective r) (hs : s.Proper) (ds : List MapDecl) :
    ((s.rename r).mappings (ds.map (MapDecl.rename r))).toOption = (s.mappings ds).toOption := by
  induction ds with
  | nil => rfl
  | cons d rest ih =>
    exact toOption_bind (toOption_mapping hr hs d) fun _ => toOption_bind ih fun _ => rfl

end Site

/-! ## What is built -/

/-- The blueprint under new names. -/
def Blueprint.rename (b : Blueprint) : Blueprint := { b with names := renameTable r b.names }

namespace Pipeline

variable {r}

theorem alike_construct (hr : Function.Injective r) (p : Pipeline) :
    Construct.Alike r (p.construct {}) ((p.rename r).construct {}) := by
  have hs : Site.Proper {} := fun x hx => absurd hx List.not_mem_nil
  have hinputs := Construct.alike_forM (fun d t ht => Construct.alike_addInput hr ht d) hs p.inputs
  refine hinputs.bind fun _ t ht => ?_
  exact Construct.alike_forM (fun d t ht => Construct.alike_addNode hr ht d) ht p.nodes

/-- The root that is taken where none is given is still the last declared operation. -/
theorem rootNames_rename (p : Pipeline) :
    (p.rename r).rootNames = p.rootNames.map (renameText r) := by
  unfold rootNames
  rw [show (p.rename r).roots = p.roots.map (renameText r) from rfl,
    show (p.rename r).nodes = p.nodes.map (NodeDecl.rename r) from rfl, List.isEmpty_map]
  split
  · rw [List.getLast?_map]
    cases p.nodes.getLast? with
    | none => rfl
    | some d => rfl
  · rfl

/-- **Under new names the same is built, or again nothing.** -/
theorem toOption_build (hr : Function.Injective r) (p : Pipeline) :
    (p.rename r).build.toOption = p.build.toOption.map (Blueprint.rename r) := by
  unfold build
  rw [show (p.rename r).nodes.isEmpty = p.nodes.isEmpty from List.isEmpty_map, rootNames_rename]
  split
  · rfl
  · -- the same sites but for names; then roots and mappings are looked up in both
    have halike := alike_construct hr p
    generalize p.construct {} = x, (p.rename r).construct {} = x' at halike
    cases halike with
    | error e e' => rfl
    | @ok u s hs =>
      have hroots := Site.toOption_nodes hr hs p.rootNames
      have hmappings := Site.toOption_mappings hr hs p.maps
      show (do
        let roots ← (s.rename r).nodes (p.rootNames.map (renameText r))
        let ms ← (s.rename r).mappings (p.maps.map (MapDecl.rename r))
        return (⟨s.graph, roots, ⟨p.output, ms, p.options⟩, renameTable r s.names⟩ : Blueprint)
        : Except PipelineError Blueprint).toOption = Option.map _ (do
          let roots ← s.nodes p.rootNames
          let ms ← s.mappings p.maps
          return (⟨s.graph, roots, ⟨p.output, ms, p.options⟩, s.names⟩ : Blueprint)
          : Except PipelineError Blueprint).toOption
      exact toOption_bind_map hroots fun roots => toOption_bind_map hmappings fun ms => rfl

end Pipeline

/-- **Names are only names.** A pipeline with other names, different ones for different ones, is
built if and only if the pipeline is, into the same graph with the same ends and the same job;
so the same is compiled. -/
theorem build_rename {r : Name → Name} (hr : Function.Injective r) (p : Pipeline) :
    ((∃ b, (p.rename r).build = .ok b) ↔ ∃ b, p.build = .ok b) ∧
    ∀ b b', p.build = .ok b → (p.rename r).build = .ok b' →
      b'.graph = b.graph ∧ b'.roots = b.roots ∧ b'.job = b.job ∧ b'.compile = b.compile := by
  have hbuild := Pipeline.toOption_build hr p
  generalize p.build = x, (p.rename r).build = x' at hbuild
  -- what is built has no names but in its table
  cases x with
  | error e =>
    cases x' with
    | error e' => simp
    | ok b' => exact absurd hbuild (by simp [Except.toOption])
  | ok b =>
    cases x' with
    | error e' => exact absurd hbuild (by simp [Except.toOption])
    | ok b' =>
      obtain rfl : b' = b.rename r := Option.some.inj hbuild
      refine ⟨⟨fun _ => ⟨b, rfl⟩, fun _ => ⟨_, rfl⟩⟩, ?_⟩
      rintro _ _ ⟨⟩ ⟨⟩
      exact ⟨rfl, rfl, rfl, rfl⟩

/-- The name with a mark behind it. -/
def marked (name : Name) : Name :=
  ⟨name.val ++ "/", by
    constructor
    · intro h
      have hlength := congrArg String.length h
      simp at hlength
    · intro h
      rw [String.toList_append] at h
      exact (List.mem_append.mp h).elim name.property.noColon (by decide)⟩

theorem marked_injective : Function.Injective marked := by
  intro a b h
  have hchars := congrArg String.toList (congrArg Subtype.val h)
  simp only [marked, String.toList_append] at hchars
  exact Subtype.ext (String.toList_injective (List.append_cancel_right hchars))

/-- Streams, an operation that reads another, a map, and a path that is also a name. -/
def duet : Pipeline where
  output := "out.mp4"
  roots := ["both"]
  inputs := [{ name := "m", path := "m.mp4" }, { name := "n", path := "m" }]
  nodes := [
    { name := "both", filter := "overlay_center", inputs := ["m:v", "n"] },
    { name := "mix", filter := "merge", inputs := ["n:a", "both"] }]
  maps := [{ origin := "m", stream := some "a" }]

/-- References keep their streams while the names in them change. -/
theorem build_rename_duet : Function.Injective marked ∧
    (duet.rename marked).nodes.map NodeDecl.inputs = [["m/:v", "n/"], ["n/:a", "both/"]] ∧
    ∃ b b', duet.build = .ok b ∧ (duet.rename marked).build = .ok b' ∧ b'.graph = b.graph := by
  have hbuilt : duet.build.toOption.isSome = true := by decide +kernel
  obtain ⟨hiff, hsame⟩ := build_rename marked_injective duet
  cases hb : duet.build with
  | error e =>
    rw [hb] at hbuilt
    exact absurd hbuilt (by simp [Except.toOption])
  | ok b =>
    obtain ⟨b', hb'⟩ := hiff.mpr ⟨b, hb⟩
    exact ⟨marked_injective, by decide +kernel, b, b', rfl, hb', (hsame b b' hb hb').1⟩

end Filtergraph
