import Mathlib.Data.List.TakeWhile
import Filtergraph.Pipeline.Build
import Filtergraph.Proofs.History

/-!
# Steps of construction

Each step by which a pipeline is built either fails, and then there is nothing left, or does
one small thing. A declared media file is one more node without slots. A declared operation
is one more node over what its references mean, and a reference makes at most a selector.
Each declaration adds its name, which must be new, to the end of the table.

The graph is changed by calls only, so it stays one that calls can build.
-/

namespace Filtergraph

open Filtergraph.Graph

/-! ## What calls add -/

namespace Graph

variable {g g' : Graph} {id : NodeId}

/-- A selector that was made is the next node, over a media file. -/
theorem selectStream_eq_ok {source : NodeId} {stream : Stream}
    (h : selectStream source stream g = .ok id g') : g.isSource source = true ∧
      id = ⟨g.size⟩ ∧ g' = g.push (.selector stream) [⟨source, 0⟩] := by
  unfold selectStream at h
  obtain ⟨n, _, hfind, hadd⟩ := bind_eq_ok.mp h
  obtain ⟨hn, rfl⟩ := consult_eq_ok.mp hfind
  by_cases hs : n.kind.isSource = true
  · rw [if_pos hs] at hadd
    injection hadd with hid hg
    exact ⟨by rw [isSource_of_node? (find_eq_ok.mp hn), hs], hid.symm, hg.symm⟩
  · rw [if_neg hs] at hadd
    injection hadd

/-- A node over checked inputs. -/
theorem add_eq_ok {check : Except GraphError Unit} {kind : Kind} {inputs : List NodeId}
    (h : (do
      consult fun _ => check
      let edges ← consult (·.edgesTo inputs)
      add kind edges : Edit NodeId) g = .ok id g') :
    check = .ok () ∧ (∀ x ∈ inputs, ∃ n, g.node? x = some n) ∧ id = ⟨g.size⟩ ∧
      g' = g.push kind (inputs.map fun x => ⟨x, 0⟩) := by
  obtain ⟨_, _, hconsult, hrest⟩ := bind_eq_ok.mp h
  obtain ⟨hcheck, rfl⟩ := consult_eq_ok.mp hconsult
  obtain ⟨es, _, hfind, hadd⟩ := bind_eq_ok.mp hrest
  obtain ⟨hes, rfl⟩ := consult_eq_ok.mp hfind
  obtain ⟨rfl, hall⟩ := edgesTo_eq_ok hes
  injection hadd with hid hg
  exact ⟨hcheck, hall, hid.symm, hg.symm⟩

theorem setGate_eq_ok {gate : Gate} {u : Unit} (h : setGate id gate g = .ok u g') :
    ∃ f old es, g.node? id = some ⟨.filter f old, es⟩ ∧ f.acceptsGate = true ∧
      g' = g.set id ⟨.filter f (some gate), es⟩ := by
  unfold setGate at h
  obtain ⟨⟨k, es⟩, _, hfind, hset⟩ := bind_eq_ok.mp h
  obtain ⟨hn, rfl⟩ := consult_eq_ok.mp hfind
  -- any other role is refused
  cases k with
  | filter f old =>
    dsimp only at hset
    by_cases ha : f.acceptsGate = true
    · rw [if_pos ha] at hset
      injection hset with _ hg
      exact ⟨f, old, es, find_eq_ok.mp hn, ha, hg.symm⟩
    · rw [if_neg ha] at hset
      injection hset
  | _ => injection hset

/-- A node that was just added may be given its gate at once. -/
theorem set_push (g : Graph) (k k' : Kind) (es : List Edge) :
    (g.push k es).set ⟨g.size⟩ ⟨k', es⟩ = g.push k' es := by
  refine eq_of_node? fun x => ?_
  rw [node?_set (node?_push_self g k es), node?_push, node?_push]
  split
  · rfl
  · rfl

end Graph

/-- A step that does what a call does leads from built graphs to built graphs. -/
theorem built_of_call {α : Type} {x : Edit α} {g g' : Graph} {a : α} (c : Call)
    (h : x g = .ok a g') (hc : c.after g = x.after g) (hg : Built g) : Built g' := by
  have hbuilt := hg.call c
  rwa [hc, Change.after, h] at hbuilt

/-! ## What declarations ask for -/

/-- The media file is the one that the declaration describes. -/
structure InputDecl.Opens (d : InputDecl) (f : Source) : Prop where
  path : f.path = d.path
  duration : f.duration.map some = d.duration.map Duration.ofSeconds?
  offset : f.offset.map some = d.offset.map Duration.ofSeconds?
  looped : f.looped = d.looped
  unnumbered : f.index = none

/-- The node is of the kind that the declaration asks for. -/
inductive NodeDecl.Asks (d : NodeDecl) : Kind → Prop where
  | filter {f : Filter} {gate : Option Gate} (operation : d.operation = .ok (.filter f))
      (gated : d.gate? = .ok gate) : Asks d (.filter f gate)
  | merge (operation : d.operation = .ok .merge) (gated : d.gate? = .ok none) : Asks d .merge

theorem NodeDecl.Asks.isFilterOrMerge {d : NodeDecl} {k : Kind} (h : d.Asks k) :
    k.isFilterOrMerge = true := by
  cases h with
  | filter => rfl
  | merge => rfl

/-! ## How a step of construction ends -/

/-- A text that can be declared as a name. -/
structure IsName (name : String) : Prop where
  nonempty : name ≠ ""
  noColon : ':' ∉ name.toList

/-- A name that can be declared beside the others. -/
structure FreshIn (names : List (String × Declared)) (name : String) : Prop extends
    IsName name where
  unused : names.lookup name = none

namespace Construct

variable {α β : Type} {x : Construct α} {f : α → Construct β} {s s' : Site} {a a' : α} {b : β}

theorem bind_eq_ok : (x >>= f) s = .ok (b, s') ↔
    ∃ a s₁, x s = .ok (a, s₁) ∧ f a s₁ = .ok (b, s') := by
  show (x s >>= fun r => f r.1 r.2) = _ ↔ _
  rw [except_bind_eq_ok, Prod.exists]

theorem pure_eq_ok (h : (pure a : Construct α) s = .ok (a', s')) : a' = a ∧ s' = s := by
  injection h with h
  injection h with ha hs
  exact ⟨ha.symm, hs.symm⟩

theorem get_bind_eq (f : Site → Construct β) (s : Site) :
    ((get : Construct Site) >>= f) s = f s s := rfl

theorem throw_ne_ok {e : PipelineError} {r : α × Site} :
    (throw e : Construct α) s ≠ .ok r := by
  intro h
  injection h

theorem lift_eq_ok {y : Except PipelineError α} (h : (liftM y : Construct α) s = .ok (a, s')) :
    y = .ok a ∧ s' = s := by
  cases y with
  | error e => exact absurd h throw_ne_ok
  | ok c =>
    obtain ⟨rfl, rfl⟩ := pure_eq_ok h
    exact ⟨rfl, rfl⟩

/-- A change to the graph goes through as it does on its own, and the names stay. -/
theorem edit_eq_ok {e : Edit α} (h : edit e s = .ok (a, s')) :
    ∃ g', e s.graph = .ok a g' ∧ s' = { s with graph := g' } := by
  unfold edit at h
  cases he : e s.graph with
  | error err g₁ =>
    rw [he] at h
    exact absurd h (by simp)
  | ok c g₁ =>
    rw [he, Except.ok.injEq, Prod.mk.injEq] at h
    exact ⟨g₁, by rw [h.1], h.2.symm⟩

/-- A name that can be declared is new, is not empty and has no colon. -/
theorem declare_eq_ok {name : String} {d : Declared} {u : Unit}
    (h : declare name d s = .ok (u, s')) :
    FreshIn s.names name ∧ s' = { s with names := s.names ++ [(name, d)] } := by
  unfold declare at h
  -- three ways to be refused, checked in this order
  by_cases hname : name = "" ∨ ':' ∈ name.toList
  · rw [if_pos hname] at h
    injection h
  · rw [if_neg hname] at h
    rw [not_or] at hname
    dsimp only at h
    rw [get_bind_eq] at h
    cases hlookup : s.names.lookup name with
    | some d' =>
      rw [hlookup] at h
      exact absurd h throw_ne_ok
    | none =>
      rw [hlookup] at h
      injection h with h
      injection h with _ hs
      exact ⟨⟨⟨hname.1, hname.2⟩, hlookup⟩, hs.symm⟩

/-- A time that is given must be one that can be represented. -/
theorem seconds?_eq_ok {name : String} {x : Option Double} {d : Option Duration}
    (h : seconds? name x s = .ok (d, s')) :
    s' = s ∧ d.map some = x.map Duration.ofSeconds? := by
  cases x with
  | none =>
    obtain ⟨rfl, rfl⟩ := pure_eq_ok h
    exact ⟨rfl, rfl⟩
  | some x =>
    obtain ⟨d', s₁, hseconds, hpure⟩ := bind_eq_ok.mp h
    obtain ⟨rfl, rfl⟩ := pure_eq_ok hpure
    unfold seconds at hseconds
    cases hd : Duration.ofSeconds? x with
    | none =>
      rw [hd] at hseconds
      exact absurd hseconds throw_ne_ok
    | some d =>
      rw [hd] at hseconds
      obtain ⟨rfl, rfl⟩ := pure_eq_ok hseconds
      exact ⟨rfl, by rw [Option.map_some, Option.map_some, hd]⟩

/-- **What declaring a media file does.** -/
theorem addInput_eq_ok {d : InputDecl} {u : Unit} (h : addInput d s = .ok (u, s')) :
    FreshIn s.names d.name ∧ ∃ f : Source, d.Opens f ∧ s' = { s with
      graph := s.graph.push (.source f) []
      names := s.names ++ [(d.name, .input ⟨s.graph.size⟩)] } := by
  unfold addInput at h
  obtain ⟨duration, _, hduration, h⟩ := bind_eq_ok.mp h
  obtain ⟨offset, _, hoffset, h⟩ := bind_eq_ok.mp h
  obtain ⟨id, _, hedit, hdeclare⟩ := bind_eq_ok.mp h
  obtain ⟨rfl, hread⟩ := seconds?_eq_ok hduration
  obtain ⟨rfl, hstart⟩ := seconds?_eq_ok hoffset
  obtain ⟨g', hadd, rfl⟩ := edit_eq_ok hedit
  injection hadd with hid hg
  subst hid hg
  obtain ⟨hfresh, rfl⟩ := declare_eq_ok hdeclare
  exact ⟨hfresh, _, ⟨rfl, hread, hstart, rfl, rfl⟩, rfl⟩

/-- **A selector is made when it is first asked for.** -/
theorem selector_eq_ok {source id : NodeId} {stream : Stream}
    (h : selector source stream s = .ok (id, s')) :
    (s.selectors.lookup (source, stream) = some id ∧ s' = s) ∨
    (s.selectors.lookup (source, stream) = none ∧ s.graph.isSource source = true ∧
      (Built s.graph → Built s'.graph) ∧ id = ⟨s.graph.size⟩ ∧ s' = { s with
        graph := s.graph.push (.selector stream) [⟨source, 0⟩]
        selectors := s.selectors ++ [((source, stream), id)] }) := by
  unfold selector at h
  rw [get_bind_eq] at h
  -- the selector was asked for before, or is made now
  cases hlookup : s.selectors.lookup (source, stream) with
  | some id' =>
    rw [hlookup] at h
    obtain ⟨rfl, rfl⟩ := pure_eq_ok h
    exact Or.inl ⟨rfl, rfl⟩
  | none =>
    rw [hlookup] at h
    obtain ⟨id', s₁, hedit, h⟩ := bind_eq_ok.mp h
    obtain ⟨g', hselect, rfl⟩ := edit_eq_ok hedit
    have hbuilt := built_of_call (.selectStream source stream) hselect rfl
    obtain ⟨hsource, rfl, rfl⟩ := selectStream_eq_ok hselect
    obtain ⟨rfl, rfl⟩ := pure_eq_ok h
    exact Or.inr ⟨rfl, hsource, hbuilt, rfl, rfl⟩

/-- **What a reference means**: what has that name, or a stream of the media file that has it. -/
theorem resolve_eq_ok {reference : String} {id : NodeId}
    (h : resolve reference s = .ok (id, s')) :
    (∃ name d, splitReference reference = (name, none) ∧ s.names.lookup name = some d ∧
      id = d.id ∧ s' = s) ∨
    ∃ name text source stream, splitReference reference = (name, some text) ∧
      s.names.lookup name = some (.input source) ∧ Stream.parse? text = some stream ∧
      selector source stream s = .ok (id, s') := by
  unfold resolve at h
  rw [get_bind_eq] at h
  -- one case for each way in which a reference can fail to mean anything
  cases hsplit : splitReference reference with
  | mk name text =>
    rw [hsplit] at h
    cases text with
    | none =>
      dsimp only at h
      cases hlookup : s.names.lookup name with
      | none =>
        rw [hlookup] at h
        exact absurd h throw_ne_ok
      | some d =>
        rw [hlookup] at h
        obtain ⟨hid, hs⟩ := pure_eq_ok h
        exact Or.inl ⟨name, d, rfl, hlookup, hid, hs⟩
    | some text =>
      dsimp only at h
      cases hlookup : s.names.lookup name with
      | none =>
        rw [hlookup] at h
        exact absurd h throw_ne_ok
      | some d =>
        rw [hlookup] at h
        cases d with
        | node id' => exact absurd h throw_ne_ok
        | input source =>
          dsimp only at h
          cases hparse : Stream.parse? text with
          | none =>
            rw [hparse] at h
            exact absurd h throw_ne_ok
          | some stream =>
            rw [hparse] at h
            exact Or.inr ⟨name, text, source, stream, rfl, hlookup, hparse, h⟩

theorem resolveAll_cons_eq_ok {reference : String} {rest : List String} {ids : List NodeId}
    (h : resolveAll (reference :: rest) s = .ok (ids, s')) :
    ∃ id s₁ ids', resolve reference s = .ok (id, s₁) ∧ resolveAll rest s₁ = .ok (ids', s') ∧
      ids = id :: ids' := by
  rw [resolveAll] at h
  obtain ⟨id, s₁, hresolve, h⟩ := bind_eq_ok.mp h
  obtain ⟨ids', s₂, hrest, hpure⟩ := bind_eq_ok.mp h
  obtain ⟨rfl, rfl⟩ := pure_eq_ok hpure
  exact ⟨id, s₁, ids', hresolve, hrest, rfl⟩

/-- Adds the operation that a declaration asks for. -/
def addOperation (op : Operation) (ids : List NodeId) : Construct NodeId :=
  match op with
  | .filter f => edit (Graph.addFilter f ids)
  | .merge => edit (Graph.addMerge ids)

/-- Attaches a gate, if there is one. -/
def attach (id : NodeId) : Option Gate → Construct Unit
  | some gate => edit (Graph.setGate id gate)
  | none => pure ()

/-- The steps of a declaration, one after the other: the operation, its inputs, the node, the gate
and the name. -/
theorem addNode_eq (d : NodeDecl) : addNode d = (do
    let op ← d.operation
    let ids ← resolveAll d.inputs
    let id ← addOperation op ids
    let gate ← d.gate?
    attach id gate
    declare d.name (.node id)) := by
  unfold addNode
  refine bind_congr fun op => bind_congr fun ids => ?_
  cases op with
  | filter f =>
    refine bind_congr fun id => bind_congr fun gate => ?_
    cases gate with
    | none => rfl
    | some gate => rfl
  | merge =>
    refine bind_congr fun id => bind_congr fun gate => ?_
    cases gate with
    | none => rfl
    | some gate => rfl

/-- The kind of node of an operation that has no gate. -/
def ungated : Operation → Kind
  | .filter f => .filter f none
  | .merge => .merge

/-- The operation is the next node, over inputs that exist. -/
theorem addOperation_eq_ok {op : Operation} {ids : List NodeId} {id : NodeId}
    (h : addOperation op ids s = .ok (id, s')) :
    (∀ x ∈ ids, ∃ n, s.graph.node? x = some n) ∧ (Built s.graph → Built s'.graph) ∧
      id = ⟨s.graph.size⟩ ∧
      s' = { s with graph := s.graph.push (ungated op) (ids.map fun x => ⟨x, 0⟩) } := by
  cases op with
  | filter f =>
    obtain ⟨g', hadd, rfl⟩ := edit_eq_ok h
    obtain ⟨_, hall, hid, rfl⟩ := add_eq_ok hadd
    exact ⟨hall, built_of_call (.addFilter f ids) hadd rfl, hid, rfl⟩
  | merge =>
    obtain ⟨g', hadd, rfl⟩ := edit_eq_ok h
    obtain ⟨_, hall, hid, rfl⟩ := add_eq_ok hadd
    exact ⟨hall, built_of_call (.addMerge ids) hadd rfl, hid, rfl⟩

/-- A node that was just added gets its gate in place. -/
theorem attach_eq_ok {g : Graph} {d : NodeDecl} {op : Operation} {es : List Edge}
    {gate : Option Gate} {u : Unit} (hop : d.operation = .ok op) (hgate : d.gate? = .ok gate)
    (hs : s.graph = g.push (ungated op) es) (h : attach ⟨g.size⟩ gate s = .ok (u, s')) :
    ∃ k : Kind, d.Asks k ∧ (Built s.graph → Built s'.graph) ∧
      s' = { s with graph := g.push k es } := by
  cases gate with
  | none =>
    obtain ⟨_, rfl⟩ := pure_eq_ok h
    refine ⟨ungated op, ?_, fun hbuilt => hbuilt, by rw [← hs]⟩
    cases op with
    | filter f => exact .filter hop hgate
    | merge => exact .merge hop hgate
  | some gate =>
    obtain ⟨g', hset, rfl⟩ := edit_eq_ok h
    have hbuilt := built_of_call (.setGate ⟨g.size⟩ gate) hset rfl
    obtain ⟨f, old, es', hn, _, rfl⟩ := setGate_eq_ok hset
    -- the node that gets the gate is the one that was just added
    rw [hs, node?_push_self, Option.some.injEq, Node.mk.injEq] at hn
    obtain ⟨hk, rfl⟩ := hn
    cases op with
    | filter f' =>
      injection hk with hf
      exact ⟨.filter f (some gate), .filter (hf ▸ hop) hgate, hbuilt, by rw [hs, set_push]⟩
    -- a merge has no gate to set
    | merge => injection hk

/-- **What declaring an operation does.** Its gate is given to it when it is there, but in the
end there is one more node. -/
theorem addNode_eq_ok {d : NodeDecl} {u : Unit} (h : addNode d s = .ok (u, s')) :
    ∃ ids s₁ k, resolveAll d.inputs s = .ok (ids, s₁) ∧ d.Asks k ∧
      (∀ x ∈ ids, ∃ n, s₁.graph.node? x = some n) ∧ (Built s₁.graph → Built s'.graph) ∧
      FreshIn s₁.names d.name ∧ s' = { s₁ with
        graph := s₁.graph.push k (ids.map fun x => ⟨x, 0⟩)
        names := s₁.names ++ [(d.name, .node ⟨s₁.graph.size⟩)] } := by
  rw [addNode_eq] at h
  obtain ⟨op, s₀, hop, h₁⟩ := bind_eq_ok.mp h
  obtain ⟨ids, s₁, hids, h₂⟩ := bind_eq_ok.mp h₁
  obtain ⟨id, s₂, hadd, h₃⟩ := bind_eq_ok.mp h₂
  obtain ⟨gate, s₃, hgate, h₄⟩ := bind_eq_ok.mp h₃
  obtain ⟨_, s₄, hattach, hdeclare⟩ := bind_eq_ok.mp h₄
  -- reading the declaration changes nothing; only the other steps move the site
  obtain ⟨hop, hs₀⟩ := lift_eq_ok hop
  obtain ⟨hgate, hs₃⟩ := lift_eq_ok hgate
  rw [hs₀] at hids
  rw [hs₃] at hattach
  obtain ⟨hall, hbuilt, hid, hs₂⟩ := addOperation_eq_ok hadd
  rw [hid] at hattach
  obtain ⟨k, hk, hbuilt', hs₄⟩ := attach_eq_ok hop hgate (by rw [hs₂]) hattach
  obtain ⟨hfresh, hs'⟩ := declare_eq_ok hdeclare
  subst hs' hs₄ hs₂ hid
  exact ⟨ids, s₁, k, hids, hk, hall, fun h => hbuilt' (hbuilt h), hfresh, rfl⟩

/-! ## References -/

theorem splitReference_of_not_mem {reference : String} (h : ':' ∉ reference.toList) :
    splitReference reference = (reference, none) := by
  have hdrop : reference.toList.dropWhile (· ≠ ':') = [] := by
    rw [List.dropWhile_eq_nil_iff]
    intro c hc
    exact decide_eq_true fun hcolon => h (hcolon ▸ hc)
  unfold splitReference
  dsimp only
  rw [hdrop]

theorem splitReference_append {name : String} (h : ':' ∉ name.toList) (text : String) :
    splitReference (name ++ ":" ++ text) = (name, some text) := by
  -- the name ends at the first colon, whatever comes after it
  have hname : ∀ c ∈ name.toList, decide (c ≠ ':') = true := by
    intro c hc
    exact decide_eq_true fun hcolon => h (hcolon ▸ hc)
  have htoList : (name ++ ":" ++ text).toList = name.toList ++ ':' :: text.toList := by simp
  unfold splitReference
  dsimp only
  rw [htoList, List.dropWhile_append_of_pos hname, List.takeWhile_append_of_pos hname]
  simp

/-- A reference is a name, or it comes apart at its first colon. -/
theorem reference_cases (reference : String) : ':' ∉ reference.toList ∨
    ∃ name text : String, ':' ∉ name.toList ∧ reference = name ++ ":" ++ text := by
  by_cases hcolon : ':' ∈ reference.toList
  · obtain ⟨name, text, hsplit, hname⟩ := List.eq_append_cons_of_mem hcolon
    refine Or.inr ⟨String.ofList name, String.ofList text, by simpa using hname, ?_⟩
    apply String.toList_injective
    simp [hsplit]
  · exact Or.inl hcolon

theorem splitReference_eq_none {reference name : String}
    (h : splitReference reference = (name, none)) : name = reference ∧ ':' ∉ reference.toList := by
  rcases reference_cases reference with hcolon | ⟨name', text, hname', rfl⟩
  · rw [splitReference_of_not_mem hcolon] at h
    exact ⟨(Prod.mk.inj h).1.symm, hcolon⟩
  · rw [splitReference_append hname'] at h
    exact absurd (Prod.mk.inj h).2 (by simp)

theorem splitReference_eq_some {reference name text : String}
    (h : splitReference reference = (name, some text)) :
    reference = name ++ ":" ++ text ∧ ':' ∉ name.toList := by
  rcases reference_cases reference with hcolon | ⟨name', text', hname', rfl⟩
  · rw [splitReference_of_not_mem hcolon] at h
    exact absurd (Prod.mk.inj h).2 (by simp)
  · rw [splitReference_append hname'] at h
    obtain ⟨rfl, htext⟩ := Prod.mk.inj h
    obtain rfl := Option.some.inj htext
    exact ⟨rfl, hname'⟩

/-! ## Names -/

theorem selector_names {source id : NodeId} {stream : Stream}
    (h : selector source stream s = .ok (id, s')) : s'.names = s.names := by
  rcases selector_eq_ok h with ⟨_, rfl⟩ | ⟨_, _, _, _, rfl⟩
  · rfl
  · rfl

theorem resolve_names {reference : String} {id : NodeId}
    (h : resolve reference s = .ok (id, s')) : s'.names = s.names := by
  rcases resolve_eq_ok h with ⟨_, _, _, _, _, rfl⟩ | ⟨_, _, _, _, _, _, _, hselector⟩
  · rfl
  · exact selector_names hselector

theorem resolveAll_names {references : List String} {ids : List NodeId}
    (h : resolveAll references s = .ok (ids, s')) : s'.names = s.names := by
  induction references generalizing s ids with
  | nil => rw [(pure_eq_ok h).2]
  | cons reference rest ih =>
    obtain ⟨_, s₁, _, hresolve, hrest, _⟩ := resolveAll_cons_eq_ok h
    rw [ih hrest, resolve_names hresolve]

/-- What every item of a list keeps, the whole list keeps. -/
theorem forM_keeps {P : Site → Prop} {f : α → Construct Unit} {l : List α}
    (hf : ∀ a s s' u, P s → f a s = .ok (u, s') → P s') {u : PUnit} (hs : P s)
    (h : l.forM f s = .ok (u, s')) : P s' := by
  induction l generalizing s with
  | nil =>
    obtain ⟨_, rfl⟩ := pure_eq_ok h
    exact hs
  | cons a l ih =>
    obtain ⟨u₁, s₁, hstep, hrest⟩ := bind_eq_ok.mp h
    exact ih (hf a s s₁ u₁ hs hstep) hrest

end Construct

/-- A new name hides no other. -/
theorem FreshIn.lookup_iff {names : List (String × Declared)} {name name' : String}
    {d d' : Declared} (h : FreshIn names name) : (names ++ [(name, d)]).lookup name' = some d' ↔
      names.lookup name' = some d' ∨ (name' = name ∧ d' = d) := by
  rw [List.lookup_append, Option.or_eq_some_iff]
  -- the old names come first, but the new one is not among them
  by_cases hname : name' = name
  · subst hname
    simp [h.unused, eq_comm]
  · rw [List.lookup_cons, beq_false_of_ne hname]
    simp [hname]

namespace Site

/-- The name stands for an operation. -/
def NamesOperation (s : Site) (name : String) : Prop :=
  ∃ id, s.names.lookup name = some (.node id)

variable {s s' : Site}

theorem namesOperation_addInput {d : InputDecl} {u : Unit}
    (h : Construct.addInput d s = .ok (u, s')) (name : String) :
    s'.NamesOperation name ↔ s.NamesOperation name := by
  obtain ⟨hfresh, f, _, rfl⟩ := Construct.addInput_eq_ok h
  refine exists_congr fun id => ?_
  dsimp only
  rw [hfresh.lookup_iff]
  simp

theorem namesOperation_addNode {d : NodeDecl} {u : Unit}
    (h : Construct.addNode d s = .ok (u, s')) (name : String) :
    s'.NamesOperation name ↔ s.NamesOperation name ∨ d.name = name := by
  obtain ⟨ids, s₁, k, hids, _, _, _, hfresh, rfl⟩ := Construct.addNode_eq_ok h
  unfold NamesOperation
  dsimp only
  simp only [hfresh.lookup_iff, exists_or]
  rw [Construct.resolveAll_names hids]
  refine or_congr Iff.rfl ⟨?_, ?_⟩
  · intro ⟨_, hname, _⟩
    exact hname.symm
  · intro hname
    exact ⟨_, hname.symm, rfl⟩

/-- The names of operations are those that were declared for one. -/
theorem namesOperation_nodes {l : List NodeDecl} {u : PUnit}
    (h : l.forM Construct.addNode s = .ok (u, s')) (name : String) :
    s'.NamesOperation name ↔ s.NamesOperation name ∨ ∃ d ∈ l, d.name = name := by
  induction l generalizing s with
  | nil =>
    obtain ⟨_, rfl⟩ := Construct.pure_eq_ok h
    simp
  | cons d l ih =>
    obtain ⟨_, s₁, hstep, hrest⟩ := Construct.bind_eq_ok.mp h
    rw [ih hrest, namesOperation_addNode hstep, or_assoc, List.exists_mem_cons_iff]

end Site

end Filtergraph
