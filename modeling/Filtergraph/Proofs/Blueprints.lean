import Filtergraph.Proofs.Construction
import Filtergraph.Proofs.Outcome

/-!
# Pipelines that were built

A reference finds only what was declared before it. So every slot reads a node with a smaller
number, and the graph has no cycles. The name of a media file stands for a media file, and
the name of an operation for a filter or a merge.

Roots and mappings are looked up by these names. Hence a pipeline that was built passes all
checks of a compilation but one: it may send an operation to the output that no root leads to.
-/

namespace Filtergraph

open Filtergraph.Graph

/-! ## The invariant -/

/-- The kind of node that a name stands for. -/
def Declared.wants : Declared → Kind → Bool
  | input _ => Kind.isSource
  | node _ => Kind.isFilterOrMerge

/-- What holds while a pipeline is built. -/
structure Site.Sound (s : Site) : Prop where
  built : Built s.graph
  /-- Slots lead to nodes that were there before. -/
  down : ∀ c x, s.graph.Reads c x → x.index < c.index
  /-- Names stand for nodes of the kind that they say. -/
  named : ∀ name d, s.names.lookup name = some d → (s.graph.kind? d.id).any d.wants = true

namespace Site.Sound

variable {s s' : Site}

/-- Before anything is declared there is nothing that could be wrong. -/
theorem start : Sound {} where
  built := .empty
  down := by
    intro c x hr
    obtain ⟨e, he, _⟩ := hr
    obtain ⟨n, hn, _⟩ := node?_of_mem_inputs he
    exact absurd (index_lt_of_node? hn) (Nat.not_lt_zero _)
  named := by
    intro name d hd
    exact absurd hd (by simp)

/-- One more node, over nodes that are there. -/
theorem push (h : s.Sound) {k : Kind} {es : List Edge}
    {cache : List ((NodeId × Stream) × NodeId)} (hbuilt : Built (s.graph.push k es))
    (hes : ∀ e ∈ es, ∃ n, s.graph.node? e.node = some n) :
    Sound ⟨s.graph.push k es, s.names, cache⟩ where
  built := hbuilt
  down := by
    intro c x hr
    obtain ⟨e, he, rfl⟩ := hr
    obtain ⟨m, hm, hmem⟩ := node?_of_mem_inputs he
    rw [node?_push] at hm
    split at hm
    · -- the new node reads nodes that have been there
      rename_i hc
      rw [Option.some.injEq] at hm
      obtain ⟨n, hn⟩ := hes e (by rw [← hm] at hmem; exact hmem)
      rw [hc]
      exact index_lt_of_node? hn
    · exact h.down c _ ⟨e, by rwa [inputs_of_node? hm], rfl⟩
  -- names stand for nodes that were there, and these have not changed
  named := by
    intro name d hd
    obtain ⟨n, hn, hwants⟩ := node?_of_any (h.named name d hd)
    rw [kind?, node?_push_of_lt (index_lt_of_node? hn), hn]
    exact hwants

/-- A new name for a node of the right kind. -/
theorem declare (h : s.Sound) {name : String} {d : Declared} (hfresh : FreshIn s.names name)
    (hkind : (s.graph.kind? d.id).any d.wants = true) :
    Sound { s with names := s.names ++ [(name, d)] } where
  built := h.built
  down := h.down
  named := by
    intro name' d' hd'
    rcases hfresh.lookup_iff.mp hd' with hold | ⟨_, rfl⟩
    · exact h.named name' d' hold
    · exact hkind

theorem addInput (h : s.Sound) {d : InputDecl} {u : Unit}
    (hadd : Construct.addInput d s = .ok (u, s')) : s'.Sound := by
  obtain ⟨hfresh, f, _, rfl⟩ := Construct.addInput_eq_ok hadd
  have hpush : Sound ⟨s.graph.push (.source f) [], s.names, s.selectors⟩ :=
    h.push (h.built.call (.addSource f)) (by simp)
  refine hpush.declare hfresh ?_
  rw [Declared.id, kind?, node?_push_self]
  rfl

/-- A selector is made over a media file, which was there before. -/
theorem selector (h : s.Sound) {source id : NodeId} {stream : Stream}
    (hselector : Construct.selector source stream s = .ok (id, s')) : s'.Sound := by
  rcases Construct.selector_eq_ok hselector with ⟨_, rfl⟩ | ⟨_, hsource, hbuilt, _, rfl⟩
  · exact h
  · obtain ⟨n, hn, _⟩ := node?_of_isSource hsource
    refine h.push (hbuilt h.built) ?_
    intro e he
    exact ⟨n, by rwa [List.mem_singleton.mp he]⟩

theorem resolveAll (h : s.Sound) {references : List String} {ids : List NodeId}
    (hresolve : Construct.resolveAll references s = .ok (ids, s')) : s'.Sound := by
  induction references generalizing s ids with
  | nil =>
    obtain ⟨_, rfl⟩ := Construct.pure_eq_ok hresolve
    exact h
  | cons reference rest ih =>
    obtain ⟨_, s₁, _, hone, hrest, _⟩ := Construct.resolveAll_cons_eq_ok hresolve
    refine ih ?_ hrest
    -- only a reference to a stream can add a node
    rcases Construct.resolve_eq_ok hone with ⟨_, _, _, _, _, rfl⟩ | ⟨_, _, _, _, _, _, _, hone⟩
    · exact h
    · exact h.selector hone

theorem addNode (h : s.Sound) {d : NodeDecl} {u : Unit}
    (hadd : Construct.addNode d s = .ok (u, s')) : s'.Sound := by
  obtain ⟨ids, s₁, k, hids, hk, hall, hbuilt, hfresh, rfl⟩ := Construct.addNode_eq_ok hadd
  have hs₁ := h.resolveAll hids
  have hpush : Sound ⟨s₁.graph.push k (ids.map fun x => ⟨x, 0⟩), s₁.names, s₁.selectors⟩ := by
    refine hs₁.push (hbuilt hs₁.built) ?_
    intro e he
    obtain ⟨x, hx, rfl⟩ := List.mem_map.mp he
    exact hall x hx
  refine hpush.declare hfresh ?_
  rw [Declared.id, kind?, node?_push_self]
  exact hk.isFilterOrMerge

/-- Numbers get smaller along every path. -/
theorem lt_of_path (h : s.Sound) {x y : NodeId} (hpath : Relation.TransGen s.graph.Reads x y) :
    y.index < x.index := by
  induction hpath with
  | single hr => exact h.down _ _ hr
  | tail _ hr ih =>
    have hlt := h.down _ _ hr
    omega

/-- So no path comes back to where it started. -/
theorem acyclic (h : s.Sound) (x : NodeId) : ¬ s.graph.OnCycle x := by
  intro hcycle
  have hlt := h.lt_of_path hcycle
  omega

end Site.Sound

/-! ## Roots and mappings -/

namespace Site

variable {s : Site}

theorem node_eq_ok {name : String} {id : NodeId} (h : s.node name = .ok id) :
    s.names.lookup name = some (.node id) := by
  unfold node at h
  cases hd : s.names.lookup name with
  | none =>
    rw [hd] at h
    injection h
  | some d =>
    rw [hd] at h
    cases d with
    | input id' => injection h
    | node id' =>
      injection h with h
      rw [h]

theorem nodes_eq_mapM (s : Site) (names : List String) : s.nodes names = names.mapM s.node := by
  induction names with
  | nil => rfl
  | cons name rest ih =>
    rw [List.mapM_cons, nodes, ih]

theorem mappings_eq_mapM (s : Site) (maps : List MapDecl) :
    s.mappings maps = maps.mapM s.mapping := by
  induction maps with
  | nil => rfl
  | cons d rest ih =>
    rw [List.mapM_cons, mappings, ih]

end Site

theorem ofStream_eq {g : Graph} {id : NodeId} (stream : Stream)
    (h : (g.kind? id).any Kind.isSource = true) :
    Mapping.ofStream g id stream = .ok (.stream id stream) := by
  obtain ⟨n, hn, hk⟩ := node?_of_any h
  rw [Mapping.ofStream, find_eq_ok.mpr hn]
  exact if_pos hk

theorem ofNode_eq {g : Graph} {id : NodeId} (h : (g.kind? id).any Kind.isFilterOrMerge = true) :
    Mapping.ofNode g id = .ok (.output ⟨id, 0⟩) := by
  obtain ⟨⟨k, es⟩, hn, hk⟩ := node?_of_any h
  rw [Mapping.ofNode, find_eq_ok.mpr hn]
  cases k with
  | filter f gate => rfl
  | merge => rfl
  | _ => exact absurd hk (by simp [Kind.isFilterOrMerge])

/-- The mapping sends what has that name: a stream of a media file, or an operation. -/
inductive Declared.MappedTo : Declared → Mapping → Prop where
  | input {id : NodeId} {stream : Stream} : MappedTo (.input id) (.stream id stream)
  | node {id : NodeId} : MappedTo (.node id) (.output ⟨id, 0⟩)

/-- Of a sound site, the name alone decides what kind of mapping there is. -/
theorem Site.Sound.mapping_eq_ok {s : Site} (h : s.Sound) {d : MapDecl} {m : Mapping}
    (hm : s.mapping d = .ok m) : ∃ e, s.names.lookup d.origin = some e ∧ e.MappedTo m := by
  unfold mapping at hm
  cases hlookup : s.names.lookup d.origin with
  | none =>
    rw [hlookup] at hm
    injection hm
  | some e =>
    have hkind := h.named _ _ hlookup
    refine ⟨e, rfl, ?_⟩
    rw [hlookup] at hm
    -- a media file may be sent with or without a stream, an operation only without
    cases e with
    | input id =>
      have hstream : ∀ stream, ofGraph (Mapping.ofStream s.graph id stream) = .ok m →
          Declared.MappedTo (.input id) m := by
        intro stream hm
        rw [show Mapping.ofStream s.graph id stream = _ from ofStream_eq stream hkind] at hm
        injection hm with hm
        exact hm ▸ .input
      cases hs : d.stream with
      | none =>
        rw [hs] at hm
        exact hstream .first hm
      | some text =>
        rw [hs] at hm
        dsimp only at hm
        cases hparse : Stream.parse? text with
        | none =>
          rw [hparse] at hm
          injection hm
        | some stream =>
          rw [hparse] at hm
          exact hstream stream hm
    | node id =>
      cases hs : d.stream with
      | none =>
        rw [hs] at hm
        dsimp only at hm
        rw [show Mapping.ofNode s.graph id = _ from ofNode_eq hkind] at hm
        injection hm with hm
        exact hm ▸ .node
      | some text =>
        rw [hs] at hm
        injection hm

/-! ## What is built -/

/-- The blueprint is that of the pipeline: its names, roots and mappings are what was declared. -/
structure Pipeline.BuiltAs (p : Pipeline) (b : Blueprint) : Prop where
  sound : ∃ selectors, Site.Sound ⟨b.graph, b.names, selectors⟩
  operations : ∀ name, (∃ id, b.names.lookup name = some (.node id)) ↔ ∃ d ∈ p.nodes, d.name = name
  nonempty : p.rootNames ≠ []
  roots : List.Forall₂ (fun name id => b.names.lookup name = some (.node id)) p.rootNames b.roots
  mappings : List.Forall₂ (fun d m => ∃ e, b.names.lookup d.origin = some e ∧ e.MappedTo m)
    p.maps b.job.mappings

namespace Pipeline

variable {p : Pipeline} {b : Blueprint}

/-- What is declared leads to a sound site, whose operations are the declared ones. -/
theorem construct_sound {s : Site} {u : Unit} (h : p.construct {} = .ok (u, s)) :
    s.Sound ∧ ∀ name, s.NamesOperation name ↔ ∃ d ∈ p.nodes, d.name = name := by
  obtain ⟨_, s₁, hinputs, hnodes⟩ := Construct.bind_eq_ok.mp h
  have hs₁ : s₁.Sound :=
    Construct.forM_keeps (fun _ _ _ _ hs hadd => Site.Sound.addInput hs hadd) .start hinputs
  have hs : s.Sound :=
    Construct.forM_keeps (fun _ _ _ _ hs hadd => Site.Sound.addNode hs hadd) hs₁ hnodes
  refine ⟨hs, fun name => ?_⟩
  -- the media files come first and name no operation
  have hnone : ¬ s₁.NamesOperation name := by
    refine Construct.forM_keeps (P := fun s => ¬ s.NamesOperation name) ?_ ?_ hinputs
    · intro d s s' u hs hadd
      rwa [Site.namesOperation_addInput hadd]
    · intro ⟨id, hid⟩
      exact absurd hid (by simp)
  rw [Site.namesOperation_nodes hnodes, or_iff_right hnone]

theorem rootNames_ne_nil (h : p.nodes ≠ []) : p.rootNames ≠ [] := by
  unfold rootNames
  cases hroots : p.roots with
  | nil => simp [h]
  | cons root rest => simp

/-- **What building does**: all that is declared is added, then roots and mappings are looked up. -/
theorem build_eq_ok (h : p.build = .ok b) : p.nodes ≠ [] ∧ ∃ s : Site,
    p.construct {} = .ok ((), s) ∧ s.nodes p.rootNames = .ok b.roots ∧
      s.mappings p.maps = .ok b.job.mappings ∧ b.graph = s.graph ∧ b.names = s.names := by
  unfold build at h
  by_cases hnodes : p.nodes.isEmpty = true
  · rw [if_pos hnodes] at h
    injection h
  · rw [if_neg hnodes] at h
    obtain ⟨⟨u, s⟩, hconstruct, h₁⟩ := except_bind_eq_ok.mp h
    obtain ⟨roots, hroots, h₂⟩ := except_bind_eq_ok.mp h₁
    obtain ⟨ms, hms, h₃⟩ := except_bind_eq_ok.mp h₂
    injection h₃ with h₃
    subst h₃
    exact ⟨by simpa using hnodes, s, hconstruct, hroots, hms, rfl, rfl⟩

theorem builtAs_of_build (h : p.build = .ok b) : p.BuiltAs b := by
  obtain ⟨hnodes, s, hconstruct, hroots, hms, hgraph, hnames⟩ := build_eq_ok h
  obtain ⟨hsound, hoperations⟩ := construct_sound hconstruct
  rw [Site.nodes_eq_mapM, mapM_eq_ok] at hroots
  rw [Site.mappings_eq_mapM, mapM_eq_ok] at hms
  exact {
    sound := ⟨s.selectors, by rw [hgraph, hnames]; exact hsound⟩
    operations := by rw [hnames]; exact hoperations
    nonempty := rootNames_ne_nil hnodes
    roots := by rw [hnames]; exact hroots.imp fun _ _ => Site.node_eq_ok
    mappings := by rw [hnames]; exact hms.imp fun _ _ => hsound.mapping_eq_ok }

/-- A declared operation that is no root and that no root reads, directly or through others. -/
structure Stranded (p : Pipeline) (b : Blueprint) (name : String) (n : NodeId) : Prop where
  declared : ∃ d ∈ p.nodes, d.name = name
  node : b.node? name = some n
  unread : ∀ root ∈ p.rootNames, ∀ r, b.node? root = some r →
    ¬ Relation.ReflTransGen b.graph.Reads r n

namespace BuiltAs

variable (h : p.BuiltAs b)
include h

theorem lookup_of_declared {name : String} {n : NodeId} (hd : ∃ d ∈ p.nodes, d.name = name)
    (hn : b.node? name = some n) : b.names.lookup name = some (.node n) := by
  obtain ⟨id, hid⟩ := (h.operations name).mpr hd
  rw [Blueprint.node?, hid, Option.map_some, Option.some.injEq] at hn
  rw [hid, ← hn, Declared.id]

theorem root_of_mem {root : NodeId} (hroot : root ∈ b.roots) :
    ∃ name ∈ p.rootNames, b.names.lookup name = some (.node root) :=
  forall₂_exists_left h.roots hroot

theorem stranded_iff {name : String} {n : NodeId} : p.Stranded b name n ↔
    b.names.lookup name = some (.node n) ∧ ¬ b.graph.Reached b.roots n := by
  -- roots by name on one side, roots by number on the other
  constructor
  · intro hs
    refine ⟨h.lookup_of_declared hs.declared hs.node, ?_⟩
    intro ⟨root, hroot, hpath⟩
    obtain ⟨name', hname', hlookup⟩ := h.root_of_mem hroot
    exact hs.unread name' hname' root (by rw [Blueprint.node?, hlookup]; rfl) hpath
  · intro ⟨hlookup, hunread⟩
    refine ⟨(h.operations name).mp ⟨n, hlookup⟩, by rw [Blueprint.node?, hlookup]; rfl, ?_⟩
    intro root hroot r hr hpath
    obtain ⟨r', hr', hlookup'⟩ := forall₂_exists_right h.roots hroot
    rw [Blueprint.node?, hlookup', Option.map_some, Option.some.injEq] at hr
    rw [Declared.id] at hr
    exact hunread ⟨r', hr', hr ▸ hpath⟩

theorem mapped {m : Mapping} (hm : m ∈ b.job.mappings) : ∃ d ∈ p.maps, ∃ e,
    b.names.lookup d.origin = some e ∧ e.MappedTo m :=
  forall₂_exists_left h.mappings hm

/-- A mapping of a stranded operation sends its first output. -/
theorem output_of_stranded {d : MapDecl} {m : Mapping} {e : Declared} {n : NodeId}
    (hs : p.Stranded b d.origin n) (he : b.names.lookup d.origin = some e) (hm : e.MappedTo m) :
    m = .output ⟨n, 0⟩ := by
  rw [(h.stranded_iff.mp hs).1, Option.some.injEq] at he
  subst he
  cases hm
  rfl

theorem known {root : NodeId} (hroot : root ∈ b.roots) : ∃ n, b.graph.node? root = some n := by
  obtain ⟨_, hsound⟩ := h.sound
  obtain ⟨name, _, hlookup⟩ := h.root_of_mem hroot
  obtain ⟨n, hn, _⟩ := node?_of_any (hsound.named name _ hlookup)
  exact ⟨n, hn⟩

/-- Every mapping names a node of the kind that it can send. -/
theorem suits {m : Mapping} (hm : m ∈ b.job.mappings) : m.Suits b.graph := by
  obtain ⟨_, hsound⟩ := h.sound
  obtain ⟨d, _, e, hlookup, hmapped⟩ := h.mapped hm
  have hkind := hsound.named d.origin e hlookup
  cases hmapped with
  | input => exact hkind
  | node => exact hkind

/-- **The only reason to refuse it** is the first mapping of an operation that no root leads to. -/
theorem first_stranded {e : GraphError} (hr : Refused b.graph b.roots b.job.mappings e) :
    ∃ front d back n, p.maps = front ++ d :: back ∧
      (∀ d' ∈ front, ∀ n', ¬ p.Stranded b d'.origin n') ∧ p.Stranded b d.origin n ∧
      e = .invalidMapping n := by
  obtain ⟨_, hsound⟩ := h.sound
  -- every other reason to refuse goes against how the pipeline was built
  cases hr with
  | noRoots hnil =>
    have hroots := h.roots
    rw [hnil, List.forall₂_nil_right_iff] at hroots
    exact absurd hroots h.nonempty
  | missingRoot hsplit _ hroot =>
    obtain ⟨n, hn⟩ := h.known (by rw [hsplit]; exact List.mem_append_cons_self)
    exact absurd hn (by simp [hroot])
  | missingNode _ _ hsplit _ hm =>
    have hsuits := h.suits (by rw [hsplit]; exact List.mem_append_cons_self)
    obtain ⟨n, hn, _⟩ := node?_of_any hsuits
    exact absurd hn (by simp [hm])
  | wrongKind _ _ hsplit _ _ hkind =>
    exact absurd (h.suits (by rw [hsplit]; exact List.mem_append_cons_self)) hkind
  | cycle _ _ _ _ hcycle => exact absurd hcycle (hsound.acyclic _)
  | @unreached front back edge _ _ _ _ hsplit hfront hunread =>
    -- the mapping that was refused belongs to a declaration, with those before it in front
    have hall := h.mappings
    rw [hsplit] at hall
    obtain ⟨front', d, back', hmaps, hbefore, entry, hlookup, hmapped⟩ := forall₂_split_right hall
    have hentry : entry = .node edge.node := by cases hmapped; rfl
    refine ⟨front', d, back', edge.node, hmaps, ?_, ?_, rfl⟩
    · -- a stranded one further in front would have been refused instead
      intro d' hd' n' hs
      obtain ⟨m', hm', entry', hlookup', hmapped'⟩ := forall₂_exists_right hbefore hd'
      obtain rfl := h.output_of_stranded hs hlookup' hmapped'
      exact (h.stranded_iff.mp hs).2 (hfront _ hm')
    · exact h.stranded_iff.mpr ⟨by rw [hlookup, hentry], hunread⟩

/-- What is accepted maps nothing that no root leads to. -/
theorem not_stranded (ha : Accepted b.graph b.roots b.job.mappings) {d : MapDecl}
    (hd : d ∈ p.maps) (n : NodeId) : ¬ p.Stranded b d.origin n := by
  intro hs
  obtain ⟨m, hm, e, hlookup, hmapped⟩ := forall₂_exists_right h.mappings hd
  obtain rfl := h.output_of_stranded hs hlookup hmapped
  exact (h.stranded_iff.mp hs).2 (ha.reached _ hm)

end BuiltAs

theorem compile_eq_of_build (h : p.build = .ok b) : p.compile = b.compile := by
  rw [Pipeline.compile, h]
  rfl

end Pipeline

/-- **A pipeline that was built compiles**, unless it maps an operation that is neither a root
nor read by one, directly or through others. The first such mapping then decides the error. -/
theorem built_pipeline_compiles {p : Pipeline} {b : Blueprint} (hb : p.build = .ok b) :
    ((∃ e, p.compile = .error e) ↔ ∃ d ∈ p.maps, ∃ n, p.Stranded b d.origin n) ∧
      ∀ e, p.compile = .error e → ∃ front d back n, p.maps = front ++ d :: back ∧
        (∀ d' ∈ front, ∀ n', ¬ p.Stranded b d'.origin n') ∧ p.Stranded b d.origin n ∧
        e = .graph (.invalidMapping n) := by
  have has := Pipeline.builtAs_of_build hb
  obtain ⟨_, hsound⟩ := has.sound
  rw [Pipeline.compile_eq_of_build hb, Blueprint.compile]
  -- it compiles and nothing is stranded, or it is refused for the first that is
  rcases compile_cases hsound.built b.job b.roots with
    ⟨cmd, g', hok, haccepted⟩ | ⟨e, g', herror, hrefused⟩
  · rw [hok]
    refine ⟨⟨?_, ?_⟩, ?_⟩
    · intro ⟨e, he⟩
      exact absurd he (by simp)
    · intro ⟨d, hd, n, hs⟩
      exact absurd hs (has.not_stranded haccepted hd n)
    · intro e he
      exact absurd he (by simp)
  · rw [herror]
    obtain ⟨front, d, back, n, hmaps, hfront, hs, rfl⟩ := has.first_stranded hrefused
    have hd : d ∈ p.maps := by
      rw [hmaps]
      exact List.mem_append_cons_self
    refine ⟨⟨fun _ => ⟨d, hd, n, hs⟩, fun _ => ⟨_, rfl⟩⟩, ?_⟩
    intro e he
    injection he with he
    exact ⟨front, d, back, n, hmaps, hfront, hs, he.symm⟩

/-- A file, an operation on the way to the root and an operation aside are sent to the output. -/
def aside : Pipeline where
  output := "out.mp4"
  roots := ["inset"]
  inputs := [{ name := "talk", path := "talk.mp4" }]
  nodes := [
    { name := "base", filter := "overlay_center", inputs := ["talk", "talk:1"] },
    { name := "sound", filter := "merge", inputs := ["talk:a", "talk"] },
    { name := "inset", filter := "overlay_center", inputs := ["base", "talk:1"] }]
  maps := [{ origin := "talk" }, { origin := "base" }, { origin := "sound" }]

theorem built_pipeline_compiles_aside : ∃ b, aside.build = .ok b ∧
    aside.compile = .error (.graph (.invalidMapping ⟨4⟩)) ∧
    ∃ d ∈ aside.maps, aside.Stranded b d.origin ⟨4⟩ := by
  have herror : aside.compile = .error (.graph (.invalidMapping ⟨4⟩)) := by decide +kernel
  cases hb : aside.build with
  | error e =>
    have hfine : aside.build.isOk = true := by decide +kernel
    rw [hb] at hfine
    exact absurd hfine (by simp [Except.isOk, Except.toBool])
  | ok b =>
    obtain ⟨front, d, back, n, hmaps, _, hs, hn⟩ := (built_pipeline_compiles hb).2 _ herror
    injection hn with hn
    injection hn with hn
    refine ⟨b, rfl, herror, d, ?_, hn ▸ hs⟩
    rw [hmaps]
    exact List.mem_append_cons_self

end Filtergraph
