import Filtergraph.Proofs.Blueprints

/-!
# The layout of a built graph

Every declaration makes one node, and every stream that references name makes one selector,
when it is first named. So the nodes of a built graph are known from the pipeline alone: the
media files first, then the operations with the selectors that they were the first to ask for.

While a pipeline is built, one invariant ties three things to the site: the declarations that
were handled, the references that were resolved, and the nodes of the operations. It says what
each name stands for, what each of the nodes is, and that there are no others.
-/

namespace Filtergraph

open Filtergraph.Graph

/-! ## What references mean -/

/-- The reference is `name:stream` with the name of the media file at place `i`. -/
def SelectsStream (inputs : List InputDecl) (reference : String) (i : Nat) (stream : Stream) :
    Prop :=
  ∃ d text, inputs[i]? = some d ∧ reference = d.name ++ ":" ++ text ∧
    Stream.parse? text = some stream

theorem SelectsStream.colon_mem {inputs : List InputDecl} {reference : String} {i : Nat}
    {stream : Stream} (h : SelectsStream inputs reference i stream) : ':' ∈ reference.toList := by
  obtain ⟨d, text, _, rfl, _⟩ := h
  simp

/-- What a reference means behind these declarations; `ops` are the nodes of the operations. -/
inductive Means (inputs : List InputDecl) (nodes : List NodeDecl) (ops : List NodeId) (g : Graph) :
    String → NodeId → Prop where
  /-- A media file. -/
  | source {i : Nat} {d : InputDecl} (declared : inputs[i]? = some d) :
      Means inputs nodes ops g d.name ⟨i⟩
  /-- A stream of a media file: its selector. -/
  | stream {reference : String} {i : Nat} {stream : Stream} {id : NodeId}
      (selects : SelectsStream inputs reference i stream)
      (made : g.node? id = some ⟨.selector stream, [⟨⟨i⟩, 0⟩]⟩) :
      Means inputs nodes ops g reference id
  /-- An operation. -/
  | operation {j : Nat} {d : NodeDecl} {id : NodeId} (declared : nodes[j]? = some d)
      (made : ops[j]? = some id) : Means inputs nodes ops g d.name id

/-- The node is the operation as it was declared behind these declarations: of the kind that is
asked for, and slot by slot over what the references mean. -/
def NodeDecl.Stands (d : NodeDecl) (inputs : List InputDecl) (nodes : List NodeDecl)
    (ops : List NodeId) (g : Graph) (id : NodeId) : Prop :=
  ∃ k ids, d.Asks k ∧ List.Forall₂ (Means inputs nodes ops g) d.inputs ids ∧
    g.node? id = some ⟨k, ids.map fun x => ⟨x, 0⟩⟩

/-- What is in the first graph is in the second. -/
def Graph.Extends (g g' : Graph) : Prop := ∀ x n, g.node? x = some n → g'.node? x = some n

theorem Graph.extends_push (g : Graph) (k : Kind) (es : List Edge) : g.Extends (g.push k es) := by
  intro x n hn
  rw [node?_push_of_lt (index_lt_of_node? hn), hn]

theorem Graph.ids_push (g : Graph) (k : Kind) (es : List Edge) :
    (g.push k es).ids = g.ids ++ [⟨g.size⟩] := by
  rw [ids, ids, size_push, List.range_succ, List.map_append]
  rfl

section Extends

variable {inputs : List InputDecl} {nodes : List NodeDecl} {ops : List NodeId} {g g' g'' : Graph}

theorem Graph.Extends.trans (h : g.Extends g') (h' : g'.Extends g'') : g.Extends g'' := by
  intro x n hn
  exact h' x n (h x n hn)

/-- References keep their meaning when the graph grows. -/
theorem Means.mono {reference : String} {id : NodeId} (h : Means inputs nodes ops g reference id)
    (hg : g.Extends g') : Means inputs nodes ops g' reference id := by
  cases h with
  | source declared => exact .source declared
  | stream selects made => exact .stream selects (hg _ _ made)
  | operation declared made => exact .operation declared made

theorem NodeDecl.Stands.mono {d : NodeDecl} {id : NodeId} (h : d.Stands inputs nodes ops g id)
    (hg : g.Extends g') : d.Stands inputs nodes ops g' id := by
  obtain ⟨k, ids, hk, hids, hn⟩ := h
  exact ⟨k, ids, hk, hids.imp fun _ _ hmeans => hmeans.mono hg, hg _ _ hn⟩

end Extends

/-! ## The invariant -/

/-- The media files have the first numbers. -/
def sourceIds (inputs : List InputDecl) : List NodeId := (List.range inputs.length).map NodeId.mk

/-- The site is what these declarations and references make it. -/
structure Site.Laid (s : Site) (inputs : List InputDecl) (nodes : List NodeDecl)
    (references : List String) (ops : List NodeId) : Prop where
  length : ops.length = nodes.length
  inputNames : ∀ name id, s.names.lookup name = some (.input id) ↔
    ∃ (i : Nat) (d : InputDecl), inputs[i]? = some d ∧ d.name = name ∧ id = ⟨i⟩
  nodeNames : ∀ name id, s.names.lookup name = some (.node id) ↔
    ∃ (j : Nat) (d : NodeDecl), nodes[j]? = some d ∧ ops[j]? = some id ∧ d.name = name
  proper : ∀ name d, s.names.lookup name = some d → IsName name
  sources : ∀ (i : Nat) (d : InputDecl), inputs[i]? = some d →
    ∃ f, d.Opens f ∧ s.graph.node? ⟨i⟩ = some ⟨.source f, []⟩
  selectors : ∀ source stream id, ((source, stream), id) ∈ s.selectors →
    s.graph.node? id = some ⟨.selector stream, [⟨source, 0⟩]⟩
  /-- No stream has two selectors. -/
  shared : (s.selectors.map Prod.fst).Nodup
  /-- The streams with a selector are those that were named. -/
  named : ∀ source stream, (source, stream) ∈ s.selectors.map Prod.fst ↔
    ∃ reference ∈ references, SelectsStream inputs reference source.index stream
  /-- An operation was declared behind those before it. -/
  operations : ∀ (j : Nat) (d : NodeDecl) (id : NodeId), nodes[j]? = some d → ops[j]? = some id →
    d.Stands inputs (nodes.take j) (ops.take j) s.graph id
  /-- There are no other nodes. -/
  complete : (sourceIds inputs ++ s.selectors.map Prod.snd ++ ops).Perm s.graph.ids

namespace Site.Laid

variable {s s' : Site} {inputs : List InputDecl} {nodes : List NodeDecl}
  {references : List String} {ops : List NodeId}

theorem start : Laid {} [] [] [] [] where
  length := rfl
  inputNames := by simp
  nodeNames := by simp
  proper := by simp
  sources := by simp
  selectors := by simp
  shared := List.nodup_nil
  named := by simp
  operations := by simp
  complete := by exact List.Perm.refl _

/-- The nodes are counted by what was declared and named. -/
theorem size_eq (h : s.Laid inputs nodes references ops) :
    s.graph.size = inputs.length + s.selectors.length + nodes.length := by
  have hlength := h.complete.length_eq
  have hops := h.length
  simp only [sourceIds, ids, List.length_append, List.length_map, List.length_range] at hlength
  omega

/-- Places of media files are told apart by their names. -/
theorem eq_of_selects (h : s.Laid inputs nodes references ops) {reference : String} {i i' : Nat}
    {stream stream' : Stream} (hsel : SelectsStream inputs reference i stream)
    (hsel' : SelectsStream inputs reference i' stream') : i' = i ∧ stream' = stream := by
  obtain ⟨d, text, hd, hreference, hparse⟩ := hsel
  obtain ⟨d', text', hd', hreference', hparse'⟩ := hsel'
  have hlookup := (h.inputNames d.name ⟨i⟩).mpr ⟨i, d, hd, rfl, rfl⟩
  have hlookup' := (h.inputNames d'.name ⟨i'⟩).mpr ⟨i', d', hd', rfl, rfl⟩
  have hsplit := Construct.splitReference_append (h.proper _ _ hlookup).noColon text
  rw [← hreference, hreference', Construct.splitReference_append (h.proper _ _ hlookup').noColon]
    at hsplit
  obtain ⟨hname, htext⟩ := Prod.mk.inj hsplit
  rw [hname, hlookup, Option.some.injEq, Declared.input.injEq, NodeId.mk.injEq] at hlookup'
  rw [Option.some.inj htext, hparse, Option.some.injEq] at hparse'
  exact ⟨hlookup'.symm, hparse'.symm⟩

/-- **Declaring a media file.** All of them are declared before the first operation. -/
theorem addInput (h : s.Laid inputs [] [] []) {d : InputDecl} {u : Unit}
    (hadd : Construct.addInput d s = .ok (u, s')) : s'.Laid (inputs ++ [d]) [] [] [] := by
  obtain ⟨hfresh, f, hopens, rfl⟩ := Construct.addInput_eq_ok hadd
  -- nothing was named yet, so numbers of media files are their places
  have hnone : s.selectors = [] := by
    rw [List.eq_nil_iff_forall_not_mem]
    intro x hx
    obtain ⟨reference, hreference, _⟩ := (h.named x.1.1 x.1.2).mp (List.mem_map_of_mem hx)
    exact absurd hreference (by simp)
  have hsize : s.graph.size = inputs.length := by
    have hsize := h.size_eq
    rw [hnone] at hsize
    exact hsize
  have hgrow := s.graph.extends_push (.source f) []
  exact {
    length := rfl
    inputNames := by
      intro name id
      rw [hfresh.lookup_iff, h.inputNames]
      constructor
      · intro hor
        rcases hor with ⟨i, e, he, hname, rfl⟩ | ⟨rfl, hid⟩
        · exact ⟨i, e, getElem?_snoc he d, hname, rfl⟩
        · injection hid with hid
          exact ⟨inputs.length, d, List.getElem?_concat_length, rfl, by rw [hid, hsize]⟩
      · rintro ⟨i, e, he, hname, hid⟩
        -- a declaration is one of the old ones, or the last
        rcases getElem?_snoc_cases he with he | ⟨rfl, rfl⟩
        · exact Or.inl ⟨i, e, he, hname, hid⟩
        · exact Or.inr ⟨hname.symm, by rw [hid, hsize]⟩
    nodeNames := by
      intro name id
      rw [hfresh.lookup_iff, h.nodeNames]
      simp
    proper := by
      intro name d' hd'
      rcases hfresh.lookup_iff.mp hd' with hold | ⟨rfl, _⟩
      · exact h.proper name d' hold
      · exact hfresh.toIsName
    sources := by
      intro i e he
      rcases getElem?_snoc_cases he with he | ⟨rfl, rfl⟩
      · obtain ⟨f', hopens', hn⟩ := h.sources i e he
        exact ⟨f', hopens', hgrow _ _ hn⟩
      · exact ⟨f, hopens, by rw [← hsize, node?_push_self]⟩
    selectors := by simp [hnone]
    shared := h.shared
    named := by simp [hnone]
    operations := by simp
    complete := by
      have hall := h.complete.append_right [⟨s.graph.size⟩]
      rw [ids_push]
      simpa [hnone, hsize, sourceIds, List.range_succ] using hall }

/-- A reference that names no stream without a selector. -/
theorem resolved (h : s.Laid inputs nodes references ops) {reference : String}
    (hold : ∀ source stream, SelectsStream inputs reference source.index stream →
      (source, stream) ∈ s.selectors.map Prod.fst) :
    s.Laid inputs nodes (references ++ [reference]) ops :=
  { h with
    named := by
      intro source stream
      constructor
      · intro hmem
        obtain ⟨r, hr, hsel⟩ := (h.named source stream).mp hmem
        exact ⟨r, List.mem_append_left _ hr, hsel⟩
      · rintro ⟨r, hr, hsel⟩
        rcases List.mem_append.mp hr with hr | hr
        · exact (h.named source stream).mpr ⟨r, hr, hsel⟩
        · rw [List.mem_singleton.mp hr] at hsel
          exact hold source stream hsel }

/-- A reference that is the first to name its stream. -/
theorem newSelector (h : s.Laid inputs nodes references ops) {reference : String} {i : Nat}
    {stream : Stream} (hsel : SelectsStream inputs reference i stream)
    (hnew : (⟨i⟩, stream) ∉ s.selectors.map Prod.fst) :
    Laid { s with
      graph := s.graph.push (.selector stream) [⟨⟨i⟩, 0⟩]
      selectors := s.selectors ++ [((⟨i⟩, stream), ⟨s.graph.size⟩)] }
      inputs nodes (references ++ [reference]) ops := by
  have hgrow := s.graph.extends_push (.selector stream) [⟨⟨i⟩, 0⟩]
  exact {
    length := h.length
    inputNames := h.inputNames
    nodeNames := h.nodeNames
    proper := h.proper
    sources := by
      intro i' d hd
      obtain ⟨f, hopens, hn⟩ := h.sources i' d hd
      exact ⟨f, hopens, hgrow _ _ hn⟩
    selectors := by
      intro source' stream' id hmem
      rcases List.mem_append.mp hmem with hmem | hmem
      · exact hgrow _ _ (h.selectors source' stream' id hmem)
      · obtain ⟨hkey, rfl⟩ := Prod.mk.inj (List.mem_singleton.mp hmem)
        obtain ⟨rfl, rfl⟩ := Prod.mk.inj hkey
        rw [node?_push_self]
    shared := by
      rw [List.map_append, List.nodup_append]
      refine ⟨h.shared, by simp, ?_⟩
      intro key hkey key' hkey' he
      rw [he, List.mem_singleton.mp hkey'] at hkey
      exact hnew hkey
    named := by
      intro source' stream'
      rw [List.map_append, List.mem_append, h.named]
      constructor
      · intro hor
        rcases hor with ⟨r, hr, hsel'⟩ | hmem
        · exact ⟨r, List.mem_append_left _ hr, hsel'⟩
        · obtain ⟨rfl, rfl⟩ := Prod.mk.inj (List.mem_singleton.mp hmem)
          exact ⟨reference, List.mem_append_right _ (List.mem_singleton_self _), hsel⟩
      · rintro ⟨r, hr, hsel'⟩
        rcases List.mem_append.mp hr with hr | hr
        · exact Or.inl ⟨r, hr, hsel'⟩
        · -- a reference names one stream only
          rw [List.mem_singleton.mp hr] at hsel'
          obtain ⟨hi, rfl⟩ := h.eq_of_selects hsel hsel'
          exact Or.inr (by simp [← hi])
    operations := by
      intro j d id hd hid
      exact (h.operations j d id hd hid).mono hgrow
    complete := by
      -- the new selector stands in front of the operations
      rw [ids_push, List.map_append, ← List.append_assoc, List.append_assoc _ _ ops]
      refine (List.perm_append_comm.append_left _).trans ?_
      rw [← List.append_assoc]
      exact h.complete.append_right _ }

/-- **Resolving a reference** makes at most a selector. -/
theorem resolve (h : s.Laid inputs nodes references ops) {reference : String} {id : NodeId}
    (hresolve : Construct.resolve reference s = .ok (id, s')) :
    s'.Laid inputs nodes (references ++ [reference]) ops ∧ s.graph.Extends s'.graph ∧
      Means inputs nodes ops s'.graph reference id := by
  rcases Construct.resolve_eq_ok hresolve with ⟨name, d, hsplit, hlookup, rfl, rfl⟩ |
    ⟨name, text, source, stream, hsplit, hlookup, hparse, hselector⟩
  · -- without a colon it is a declared name, and names no stream
    obtain ⟨rfl, hcolon⟩ := Construct.splitReference_eq_none hsplit
    refine ⟨h.resolved fun _ _ hsel => absurd hsel.colon_mem hcolon, fun _ _ hn => hn, ?_⟩
    cases d with
    | input id =>
      obtain ⟨i, d, hd, rfl, rfl⟩ := (h.inputNames _ _).mp hlookup
      exact .source hd
    | node id =>
      obtain ⟨j, d, hd, hid, rfl⟩ := (h.nodeNames _ _).mp hlookup
      exact .operation hd hid
  · obtain ⟨rfl, _⟩ := Construct.splitReference_eq_some hsplit
    obtain ⟨i, d, hd, rfl, rfl⟩ := (h.inputNames _ _).mp hlookup
    have hsel : SelectsStream inputs (d.name ++ ":" ++ text) i stream := ⟨d, text, hd, rfl, hparse⟩
    -- the stream was named before, or it gets its selector now
    rcases Construct.selector_eq_ok hselector with ⟨hfound, rfl⟩ | ⟨hnew, _, _, rfl, rfl⟩
    · have hmem := mem_of_lookup hfound
      refine ⟨h.resolved ?_, fun _ _ hn => hn, .stream hsel (h.selectors _ _ _ hmem)⟩
      intro source' stream' hsel'
      obtain ⟨hi, rfl⟩ := h.eq_of_selects hsel hsel'
      exact List.mem_map.mpr ⟨_, hmem, by simp [← hi]⟩
    · refine ⟨h.newSelector hsel ?_, extends_push _ _ _, .stream hsel (node?_push_self _ _ _)⟩
      intro hmem
      obtain ⟨x, hx, he⟩ := List.mem_map.mp hmem
      have := List.lookup_eq_none_iff.mp hnew x hx
      simp [he] at this

theorem resolveAll (h : s.Laid inputs nodes references ops) {more : List String}
    {ids : List NodeId} (hresolve : Construct.resolveAll more s = .ok (ids, s')) :
    s'.Laid inputs nodes (references ++ more) ops ∧ s.graph.Extends s'.graph ∧
      List.Forall₂ (Means inputs nodes ops s'.graph) more ids := by
  induction more generalizing s references ids with
  | nil =>
    obtain ⟨rfl, rfl⟩ := Construct.pure_eq_ok hresolve
    exact ⟨by rwa [List.append_nil], fun _ _ hn => hn, .nil⟩
  | cons reference rest ih =>
    obtain ⟨id, s₁, ids', hone, hrest, rfl⟩ := Construct.resolveAll_cons_eq_ok hresolve
    obtain ⟨hs₁, hgrow, hmeans⟩ := h.resolve hone
    obtain ⟨hs', hgrow', hall⟩ := ih hs₁ hrest
    rw [List.append_assoc, List.singleton_append] at hs'
    exact ⟨hs', hgrow.trans hgrow', .cons (hmeans.mono hgrow') hall⟩

/-- **Declaring an operation.** -/
theorem addNode (h : s.Laid inputs nodes references ops) {d : NodeDecl} {u : Unit}
    (hadd : Construct.addNode d s = .ok (u, s')) :
    ∃ id, s'.Laid inputs (nodes ++ [d]) (references ++ d.inputs) (ops ++ [id]) := by
  obtain ⟨ids, s₁, k, hids, hk, _, _, hfresh, rfl⟩ := Construct.addNode_eq_ok hadd
  -- the selectors come first, so the operation has the last number
  obtain ⟨h₁, _, hmeans⟩ := h.resolveAll hids
  have hgrow := s₁.graph.extends_push k (ids.map fun x => ⟨x, 0⟩)
  refine ⟨⟨s₁.graph.size⟩, ?_⟩
  exact {
    length := by rw [List.length_append, List.length_append, h₁.length]; rfl
    inputNames := by
      intro name id
      rw [hfresh.lookup_iff, h₁.inputNames]
      simp
    nodeNames := by
      intro name id
      rw [hfresh.lookup_iff, h₁.nodeNames]
      constructor
      · intro hor
        rcases hor with ⟨j, e, he, hid, hname⟩ | ⟨rfl, hid⟩
        · exact ⟨j, e, getElem?_snoc he d, getElem?_snoc hid _, hname⟩
        · injection hid with hid
          refine ⟨nodes.length, d, List.getElem?_concat_length, ?_, rfl⟩
          rw [← h₁.length, List.getElem?_concat_length, hid]
      · rintro ⟨j, e, he, hid, hname⟩
        -- names and nodes of operations stand at the same places
        rcases getElem?_snoc_cases hid with hid | ⟨rfl, rfl⟩
        · rcases getElem?_snoc_cases he with he | ⟨rfl, _⟩
          · exact Or.inl ⟨j, e, he, hid, hname⟩
          · have hlt := (List.getElem?_eq_some_iff.mp hid).1
            have hlength := h₁.length
            omega
        · rw [h₁.length, List.getElem?_concat_length, Option.some.injEq] at he
          exact Or.inr ⟨by rw [he, hname], rfl⟩
    proper := by
      intro name d' hd'
      rcases hfresh.lookup_iff.mp hd' with hold | ⟨rfl, _⟩
      · exact h₁.proper name d' hold
      · exact hfresh.toIsName
    sources := by
      intro i e he
      obtain ⟨f, hopens, hn⟩ := h₁.sources i e he
      exact ⟨f, hopens, hgrow _ _ hn⟩
    selectors := by
      intro source stream id hmem
      exact hgrow _ _ (h₁.selectors source stream id hmem)
    shared := h₁.shared
    named := h₁.named
    operations := by
      intro j e id he hid
      have hlength := h₁.length
      rcases getElem?_snoc_cases he with he | ⟨rfl, rfl⟩
      · have hj := (List.getElem?_eq_some_iff.mp he).1
        rw [List.getElem?_append_left (by omega)] at hid
        rw [List.take_append_of_le_length (by omega), List.take_append_of_le_length (by omega)]
        exact (h₁.operations j e id he hid).mono hgrow
      · rw [← hlength, List.getElem?_concat_length, Option.some.injEq] at hid
        subst hid
        refine ⟨k, ids, hk, ?_, node?_push_self _ _ _⟩
        rw [List.take_left, ← hlength, List.take_left]
        exact hmeans.imp fun _ _ hm => hm.mono hgrow
    complete := by
      rw [ids_push, ← List.append_assoc]
      exact h₁.complete.append_right _ }

theorem addInputs (h : s.Laid inputs [] [] []) {more : List InputDecl} {u : PUnit}
    (hadd : more.forM Construct.addInput s = .ok (u, s')) :
    s'.Laid (inputs ++ more) [] [] [] := by
  induction more generalizing s inputs with
  | nil =>
    obtain ⟨_, rfl⟩ := Construct.pure_eq_ok hadd
    rwa [List.append_nil]
  | cons d rest ih =>
    obtain ⟨_, s₁, hone, hrest⟩ := Construct.bind_eq_ok.mp hadd
    have hs' := ih (h.addInput hone) hrest
    rwa [List.append_assoc, List.singleton_append] at hs'

theorem addNodes (h : s.Laid inputs nodes references ops) {more : List NodeDecl} {u : PUnit}
    (hadd : more.forM Construct.addNode s = .ok (u, s')) :
    ∃ ops', s'.Laid inputs (nodes ++ more) (references ++ more.flatMap NodeDecl.inputs) ops' := by
  induction more generalizing s nodes references ops with
  | nil =>
    obtain ⟨_, rfl⟩ := Construct.pure_eq_ok hadd
    exact ⟨ops, by rwa [List.flatMap_nil, List.append_nil, List.append_nil]⟩
  | cons d rest ih =>
    obtain ⟨_, s₁, hone, hrest⟩ := Construct.bind_eq_ok.mp hadd
    obtain ⟨id, hs₁⟩ := h.addNode hone
    obtain ⟨ops', hs'⟩ := ih hs₁ hrest
    rw [List.append_assoc, List.append_assoc, List.singleton_append] at hs'
    exact ⟨ops', by rwa [List.flatMap_cons]⟩

end Site.Laid

/-! ## What is built -/

/-- The names of a pipeline, in the order of their declaration. -/
def Pipeline.declared (p : Pipeline) : List String :=
  p.inputs.map InputDecl.name ++ p.nodes.map NodeDecl.name

/-- The graph is laid out as the pipeline declares it. The streams that have a selector are given
by the place of their media file, and the nodes of the operations are listed in order. -/
structure Pipeline.LaidOut (p : Pipeline) (b : Blueprint) (streams : List (Nat × Stream))
    (ops : List NodeId) : Prop where
  /-- Every slot reads a node with a smaller number. -/
  down : ∀ id, ∀ e ∈ b.graph.inputs id, e.node.index < id.index
  /-- The media files have the first numbers, in the order of their declaration. -/
  sources : ∀ (i : Nat) (d : InputDecl), p.inputs[i]? = some d →
    ∃ f, d.Opens f ∧ b.graph.node? ⟨i⟩ = some ⟨.source f, []⟩
  noOtherSource : ∀ id f es, b.graph.node? id = some ⟨.source f, es⟩ → id.index < p.inputs.length
  /-- The streams are those that references of the operations name. -/
  streams_iff : ∀ i stream, (i, stream) ∈ streams ↔
    ∃ d ∈ p.nodes, ∃ reference ∈ d.inputs, SelectsStream p.inputs reference i stream
  distinct : streams.Nodup
  /-- Each of them has one selector. -/
  selectors : ∀ i stream, (i, stream) ∈ streams →
    ∃! id, b.graph.node? id = some ⟨.selector stream, [⟨⟨i⟩, 0⟩]⟩
  noOtherSelector : ∀ id stream es, b.graph.node? id = some ⟨.selector stream, es⟩ →
    ∃ i, (i, stream) ∈ streams ∧ es = [⟨⟨i⟩, 0⟩]
  /-- Each declared operation has a node, over what was declared before it. -/
  operations : ∀ (j : Nat) (d : NodeDecl), p.nodes[j]? = some d →
    ∃ id, ops[j]? = some id ∧ d.Stands p.inputs (p.nodes.take j) (ops.take j) b.graph id
  noOtherOperation : ops.length = p.nodes.length ∧
    ∀ id n, b.graph.node? id = some n → n.kind.isOperation = true → id ∈ ops
  size : b.graph.size = p.inputs.length + p.nodes.length + streams.length
  names : ∀ name ∈ p.declared, IsName name
  /-- No name is declared twice. -/
  namesDiffer : p.declared.Nodup
  /-- Each name stands for the node of its declaration. -/
  nodes : p.declared.map b.node? = (sourceIds p.inputs ++ ops).map some
  nodesDiffer : (sourceIds p.inputs ++ ops).Nodup

namespace Site.Laid

variable {s : Site} {inputs : List InputDecl} {nodes : List NodeDecl}
  {references : List String} {ops : List NodeId}

/-- A node is a media file, a selector or an operation, and then it is one that was listed. -/
theorem node_cases (h : s.Laid inputs nodes references ops) {id : NodeId} {n : Node}
    (hn : s.graph.node? id = some n) :
    (id.index < inputs.length ∧ ∃ f, n = ⟨.source f, []⟩) ∨
    (∃ source stream, ((source, stream), id) ∈ s.selectors ∧
      n = ⟨.selector stream, [⟨source, 0⟩]⟩) ∨
    (id ∈ ops ∧ n.kind.isFilterOrMerge = true) := by
  have hmem : id ∈ s.graph.ids := mem_ids hn
  rw [← h.complete.mem_iff, List.mem_append, List.mem_append] at hmem
  -- there are no nodes but those of the three lists
  rcases hmem with (hmem | hmem) | hmem
  · obtain ⟨i, hi, rfl⟩ := List.mem_map.mp hmem
    rw [List.mem_range] at hi
    obtain ⟨f, _, hf⟩ := h.sources i _ (List.getElem?_eq_getElem hi)
    exact Or.inl ⟨hi, f, Option.some.inj (hn.symm.trans hf)⟩
  · obtain ⟨⟨⟨source, stream⟩, _⟩, hx, rfl⟩ := List.mem_map.mp hmem
    have hsel := h.selectors source stream _ hx
    exact Or.inr (Or.inl ⟨source, stream, hx, Option.some.inj (hn.symm.trans hsel)⟩)
  · obtain ⟨j, hj⟩ := List.mem_iff_getElem?.mp hmem
    have hlt := (List.getElem?_eq_some_iff.mp hj).1
    rw [h.length] at hlt
    obtain ⟨k, ids, hk, _, hop⟩ := h.operations j _ id (List.getElem?_eq_getElem hlt) hj
    obtain rfl := Option.some.inj (hn.symm.trans hop)
    exact Or.inr (Or.inr ⟨hmem, hk.isFilterOrMerge⟩)

/-- Declarations have nodes of their own. -/
theorem nodup_declared (h : s.Laid inputs nodes references ops) :
    (sourceIds inputs ++ ops).Nodup := by
  have hall := h.complete.nodup_iff.mpr s.graph.nodup_ids
  refine hall.sublist (List.Sublist.append_right ?_ ops)
  exact List.sublist_append_left _ _

/-- Each name stands for the node of its declaration. -/
theorem map_lookup (h : s.Laid inputs nodes references ops) :
    (inputs.map InputDecl.name ++ nodes.map NodeDecl.name).map
      (fun name => (s.names.lookup name).map Declared.id) = (sourceIds inputs ++ ops).map some := by
  have hlength := h.length
  have hinputs : inputs.map (fun d => (s.names.lookup d.name).map Declared.id) =
      (sourceIds inputs).map some := by
    -- place by place, as the invariant says it
    refine List.ext_getElem (by simp [sourceIds]) ?_
    intro i hi _
    rw [List.length_map] at hi
    have hlookup := (h.inputNames inputs[i].name ⟨i⟩).mpr
      ⟨i, _, List.getElem?_eq_getElem hi, rfl, rfl⟩
    simp [sourceIds, hlookup, Declared.id]
  have hnodes : nodes.map (fun d => (s.names.lookup d.name).map Declared.id) = ops.map some := by
    refine List.ext_getElem (by simp [hlength]) ?_
    intro j hj hj'
    rw [List.length_map] at hj hj'
    have hlookup := (h.nodeNames nodes[j].name ops[j]).mpr
      ⟨j, _, List.getElem?_eq_getElem hj, List.getElem?_eq_getElem hj', rfl⟩
    simp [hlookup, Declared.id]
  rw [List.map_append, List.map_append, List.map_map, List.map_map, ← hinputs, ← hnodes]
  rfl

end Site.Laid

/-- The streams that have a selector. The number of a media file is also its place. -/
def Site.streams (s : Site) : List (Nat × Stream) :=
  (s.selectors.map Prod.fst).map fun key => (key.1.index, key.2)

theorem Site.mem_streams {s : Site} {i : Nat} {stream : Stream} :
    (i, stream) ∈ s.streams ↔ (⟨i⟩, stream) ∈ s.selectors.map Prod.fst := by
  constructor
  · intro hmem
    obtain ⟨⟨source, stream'⟩, hkey, he⟩ := List.mem_map.mp hmem
    obtain ⟨rfl, rfl⟩ := Prod.mk.inj he
    exact hkey
  · intro hkey
    exact List.mem_map.mpr ⟨_, hkey, rfl⟩

/-- A stream has one selector. -/
theorem Site.Laid.existsUnique_selector {s : Site} {inputs : List InputDecl}
    {nodes : List NodeDecl} {references : List String} {ops : List NodeId}
    (h : s.Laid inputs nodes references ops) {i : Nat} {stream : Stream}
    (hmem : (i, stream) ∈ s.streams) :
    ∃! id, s.graph.node? id = some ⟨.selector stream, [⟨⟨i⟩, 0⟩]⟩ := by
  obtain ⟨⟨_, id⟩, hx, rfl⟩ := List.mem_map.mp (mem_streams.mp hmem)
  refine ⟨id, h.selectors _ _ _ hx, ?_⟩
  intro id' hid'
  rcases h.node_cases hid' with ⟨_, f, hf⟩ | ⟨source, stream', hx', he⟩ | ⟨_, hk⟩
  · exact absurd hf (by simp)
  · -- the selector of this node has the same key, and no key is listed twice
    obtain ⟨hstream, hsource⟩ := Node.mk.inj he
    injection hstream with hstream
    injection hsource with hsource
    injection hsource with hsource
    subst hstream hsource
    exact congrArg Prod.snd (List.inj_on_of_nodup_map h.shared hx' hx rfl)
  · exact absurd hk (by simp [Kind.isFilterOrMerge])

namespace Pipeline

variable {p : Pipeline}

/-- **What is constructed is laid out**, declaration by declaration. -/
theorem laid_of_construct {s : Site} {u : Unit} (h : p.construct {} = .ok (u, s)) :
    ∃ ops, s.Laid p.inputs p.nodes (p.nodes.flatMap NodeDecl.inputs) ops := by
  obtain ⟨_, s₁, hinputs, hnodes⟩ := Construct.bind_eq_ok.mp h
  exact (Site.Laid.start.addInputs hinputs).addNodes hnodes

/-- The layout of a site, said of the graph alone. -/
theorem laidOut_of_laid {s : Site} {roots : List NodeId} {job : Job} {ops : List NodeId}
    (hsound : s.Sound) (h : s.Laid p.inputs p.nodes (p.nodes.flatMap NodeDecl.inputs) ops) :
    p.LaidOut ⟨s.graph, roots, job, s.names⟩ s.streams ops := by
  have hlookup := h.map_lookup
  have hsize := h.size_eq
  have hlength := h.length
  exact {
    down := by
      intro id e he
      exact hsound.down id e.node ⟨e, he, rfl⟩
    sources := h.sources
    noOtherSource := by
      intro id f es hn
      rcases h.node_cases hn with ⟨hlt, _⟩ | ⟨_, _, _, he⟩ | ⟨_, hk⟩
      · exact hlt
      · exact absurd he (by simp)
      · exact absurd hk (by simp [Kind.isFilterOrMerge])
    streams_iff := by
      intro i stream
      rw [Site.mem_streams, h.named]
      constructor
      · rintro ⟨reference, hreference, hsel⟩
        obtain ⟨d, hd, hmem⟩ := List.mem_flatMap.mp hreference
        exact ⟨d, hd, reference, hmem, hsel⟩
      · rintro ⟨d, hd, reference, hmem, hsel⟩
        exact ⟨reference, List.mem_flatMap.mpr ⟨d, hd, hmem⟩, hsel⟩
    distinct := by
      refine h.shared.map ?_
      intro key key' hkey
      obtain ⟨hindex, hstream⟩ := Prod.mk.inj hkey
      exact Prod.ext (congrArg NodeId.mk hindex) hstream
    selectors := by
      intro i stream hmem
      exact h.existsUnique_selector hmem
    noOtherSelector := by
      intro id stream es hn
      rcases h.node_cases hn with ⟨_, f, hf⟩ | ⟨source, stream', hx, he⟩ | ⟨_, hk⟩
      · exact absurd hf (by simp)
      · obtain ⟨hstream, rfl⟩ := Node.mk.inj he
        injection hstream with hstream
        subst hstream
        exact ⟨source.index, Site.mem_streams.mpr (List.mem_map_of_mem hx), rfl⟩
      · exact absurd hk (by simp [Kind.isFilterOrMerge])
    operations := by
      intro j d hd
      have hj := (List.getElem?_eq_some_iff.mp hd).1
      rw [← hlength] at hj
      have hop := List.getElem?_eq_getElem hj
      exact ⟨ops[j], hop, h.operations j d _ hd hop⟩
    noOtherOperation := by
      refine ⟨hlength, ?_⟩
      intro id n hn hop
      rcases h.node_cases hn with ⟨_, f, rfl⟩ | ⟨_, _, _, rfl⟩ | ⟨hmem, _⟩
      · exact absurd hop (by simp [Kind.isOperation])
      · exact absurd hop (by simp [Kind.isOperation])
      · exact hmem
    size := by
      simp only [Site.streams, List.length_map]
      omega
    names := by
      intro name hname
      have hmem : (s.names.lookup name).map Declared.id ∈ (sourceIds p.inputs ++ ops).map some := by
        rw [← hlookup]
        exact List.mem_map.mpr ⟨name, hname, rfl⟩
      obtain ⟨id, _, hid⟩ := List.mem_map.mp hmem
      obtain ⟨d, hd, _⟩ := Option.map_eq_some_iff.mp hid.symm
      exact h.proper name d hd
    namesDiffer := by
      -- names that stand for different nodes are different
      refine List.Nodup.of_map (fun name => (s.names.lookup name).map Declared.id) ?_
      rw [declared, hlookup]
      exact h.nodup_declared.map (Option.some_injective _)
    nodes := hlookup
    nodesDiffer := h.nodup_declared }

end Pipeline

/-- **The shape of a built pipeline.** Slots lead to smaller numbers. Every media file, every
stream that a reference names and every operation has exactly one node, and there are no other
nodes. Names are proper, and they stand for different nodes. -/
theorem built_pipeline_laidOut {p : Pipeline} {b : Blueprint} (hb : p.build = .ok b) :
    ∃ streams ops, p.LaidOut b streams ops := by
  obtain ⟨_, s, hconstruct, _, _, hgraph, hnames⟩ := Pipeline.build_eq_ok hb
  obtain ⟨hsound, _⟩ := Pipeline.construct_sound hconstruct
  obtain ⟨ops, hlaid⟩ := Pipeline.laid_of_construct hconstruct
  obtain ⟨graph, roots, job, names⟩ := b
  dsimp only at hgraph hnames
  subst hgraph hnames
  exact ⟨s.streams, ops, Pipeline.laidOut_of_laid hsound hlaid⟩

/-- One stream written in three ways, two streams with a file in common, and an operation that
reads another. -/
def spellings : Pipeline where
  output := "out.mp4"
  inputs := [{ name := "m", path := "m.mp4", looped := true }, { name := "n", path := "n.mp4" }]
  nodes := [
    { name := "both", filter := "overlay_center", inputs := ["m:0", "m:+0"] },
    { name := "mix", filter := "merge", inputs := ["n:a", "m: 00", "both", "m:a"] }]

/-- Three spellings of one stream make one selector. -/
theorem built_pipeline_laidOut_spellings : ∃ b, spellings.build = .ok b ∧ b.graph.size = 7 ∧
    ∃ streams ops, spellings.LaidOut b streams ops ∧ streams.length = 3 := by
  have hsize : (spellings.build.toOption.map fun b => b.graph.size) = some 7 := by decide +kernel
  cases hb : spellings.build with
  | error e =>
    rw [hb] at hsize
    exact absurd hsize (by simp [Except.toOption])
  | ok b =>
    rw [hb, Except.toOption, Option.map_some, Option.some.injEq] at hsize
    obtain ⟨streams, ops, hlaid⟩ := built_pipeline_laidOut hb
    refine ⟨b, rfl, hsize, streams, ops, hlaid, ?_⟩
    have hcount := hlaid.size
    rw [hsize, spellings, List.length_cons, List.length_cons] at hcount
    simp only [List.length_nil, List.length_cons] at hcount
    omega

end Filtergraph
