import Mathlib.Data.List.Induction
import Filtergraph.Proofs.Compiled
import Filtergraph.Proofs.History

/-!
# Fan-out is conserved

A node with several uses gets one split with a port for each of them, and the uses are
handed the ports in order: first the slots, as the walk found them, then the mappings, as
they were declared. Nothing else changes. A node with fewer uses is left alone.

Uses are counted in the graph that has its selectors already: slots of reached nodes, and
mappings.
-/

namespace Filtergraph

open Filtergraph.Graph

/-- How often a node is used: by slots of the listed nodes and by mappings. -/
def usesOf (g : Graph) (order : List NodeId) (ms : List Mapping) (x : NodeId) : Nat :=
  (g.slotsReading order x).length + ms.countP (·.reads x)

/-- `split` stands behind `x` and has taken over all its uses. -/
structure FannedOut (g : Graph) (r : Readers) (order : List NodeId) (o : Outlets) (g' : Graph)
    (o' : Outlets) (x split : NodeId) : Prop where
  /-- The split has as many ports as `x` had uses. -/
  node : g'.node? split = some ⟨.split (usesOf g order o.mappings x), [⟨x, 0⟩]⟩
  /-- No other split reads `x`. -/
  only : ∀ other fanOut, g'.kind? other = some (.split fanOut) → g'.Reads other x → other = split
  /-- The slots that read `x` are those that read the split now. -/
  slots : ∀ c ∈ order,
    (g'.inputs c).map (fun e => decide (e.node = split))
      = (g.inputs c).map fun e => decide (e.node = x)
  /-- The entry at position `i` among the readers of `x` holds port `i`; the slots of one
  reader are filled in their order. -/
  ports : ∀ c ∈ order, ((g'.inputs c).filter (·.node = split)).map Edge.port
    = (List.range (r.of x).length).filter fun i => (r.of x)[i]? = some c
  /-- The mappings that name `x` are those that read the split now. -/
  mappings : o'.mappings.map (·.reads split) = o.mappings.map (·.reads x)
  /-- They read the ports after those of the slots, in the order of declaration. -/
  mappingPorts : o'.mappings.filterMap (Mapping.portOf? split)
    = List.range' (r.of x).length (o.mappings.countP (·.reads x))
  /-- The split takes the place of `x` among the roots. -/
  roots : ∀ i : Nat, o.roots[i]? = some x → o'.roots[i]? = some split

/-- `x` got no split, and its uses are as before. -/
structure LeftAlone (g : Graph) (order : List NodeId) (o : Outlets) (g' : Graph) (o' : Outlets)
    (x : NodeId) : Prop where
  none : ∀ split fanOut, g'.kind? split = some (.split fanOut) → ¬ g'.Reads split x
  slots : ∀ c ∈ order, ∀ (i : Nat) (e : Edge), e.node = x →
    ((g'.inputs c)[i]? = some e ↔ (g.inputs c)[i]? = some e)
  mappings : ∀ (i : Nat) (m : Mapping), m.reads x = true →
    (o'.mappings[i]? = some m ↔ o.mappings[i]? = some m)
  roots : ∀ i : Nat, o.roots[i]? = some x → o'.roots[i]? = some x

/-- The uses that are counted from the record are those of the graph. -/
theorem Ready.uses_eq {p : Plan} {roots order : List NodeId} (h : Ready p roots order)
    (x : NodeId) : p.uses x = usesOf p.graph order p.mappings x := by
  rw [Plan.uses, h.surveys.count_eq_length]
  rfl

/-- The places of a reader in the record are the ports that it takes. -/
theorem map_snd_filter_zipIdx (l : List NodeId) (c : NodeId) :
    (l.zipIdx.filter (·.1 = c)).map Prod.snd
      = (List.range l.length).filter fun i => l[i]? = some c := by
  -- from the end, so that the places in front keep their numbers
  induction l using List.reverseRecOn with
  | nil => rfl
  | append_singleton l a ih =>
    have hfront : ((List.range l.length).filter fun i => (l ++ [a])[i]? = some c)
        = (List.range l.length).filter fun i => l[i]? = some c := by
      refine List.filter_congr fun i hi => ?_
      rw [List.getElem?_append_left (List.mem_range.mp hi)]
    rw [List.zipIdx_append, List.filter_append, List.map_append, ih, List.length_append,
      List.length_singleton, List.range_succ, List.filter_append, hfront, Nat.zero_add]
    congr 1
    by_cases ha : a = c
    · simp [ha]
    · simp [ha]

namespace SplitPass

variable {g g' : Graph} {o o' : Outlets} {r : Readers} {order : List NodeId} {x : NodeId}

theorem usesOf_eq (h : SplitPass g o r order g' o') (x : NodeId) :
    usesOf g order o.mappings x = r.count x + o.mapped x := by
  rw [usesOf, h.before.surveys.count_eq_length]
  rfl

/-- Splits stand behind nodes with several uses. -/
theorem two_le_usesOf (h : SplitPass g o r order g' o') {d : Detour}
    (hd : d ∈ splitDetours g r o) : 2 ≤ usesOf g order o.mappings d.node := by
  obtain ⟨x, _, hshared, rfl⟩ := h.before.mem_splitDetours.mp hd
  rw [isShared, Bool.and_eq_true, decide_eq_true_eq, ← h.usesOf_eq] at hshared
  exact hshared.2

/-- A split of a graph that had none before is a new one. -/
theorem split_new (h : SplitPass g o r order g' o') (hfree : g.SplitFree) {split : NodeId}
    {fanOut : Nat} (hk : g'.kind? split = some (.split fanOut)) :
    ∃ (i : Nat) (d : Detour), (splitDetours g r o)[i]? = some d ∧ split = ⟨g.size + i⟩ := by
  by_cases hlt : split.index < g.size
  · rw [h.graph.kind? hlt] at hk
    exact absurd hk (hfree split fanOut)
  · obtain ⟨n, hn, _⟩ := node?_of_kind? hk
    obtain ⟨i, d, hd, hsplit, _⟩ := h.graph.exists_detour hlt hn
    exact ⟨i, d, hd, hsplit⟩

/-- In a graph without splits every other node with several uses is shared. -/
theorem isShared_of_uses (h : SplitPass g o r order g' o') (hfree : g.SplitFree) (hx : x ∈ order)
    (hsource : g.isSource x = false) (hk : 2 ≤ usesOf g order o.mappings x) :
    isShared g r o x = true := by
  obtain ⟨⟨k, es⟩, hn⟩ := h.before.surveys.known x hx
  have hkind := kind?_of_node? hn
  rw [isSource_of_node? hn] at hsource
  rw [isShared, hkind, ← h.usesOf_eq, Bool.and_eq_true, decide_eq_true_eq]
  refine ⟨?_, hk⟩
  cases k with
  | source s => exact absurd hsource (by simp [Kind.isSource])
  | split fanOut => exact absurd hkind (hfree x fanOut)
  | _ => rfl

section Split

variable {i : Nat} (h : SplitPass g o r order g' o')
  (hd : (splitDetours g r o)[i]? = some (splitDetour r o x))
include h hd

/-- A new node is the split of `x` just if it stands behind `x`. -/
theorem new_eq_iff {j : Nat} {d : Detour} (hj : (splitDetours g r o)[j]? = some d) :
    (⟨g.size + j⟩ : NodeId) = ⟨g.size + i⟩ ↔ d.node = x := by
  constructor
  · intro heq
    have hji : j = i := by
      rw [NodeId.mk.injEq] at heq
      omega
    rw [hji, hd, Option.some.injEq] at hj
    rw [← hj]
    rfl
  · intro hnode
    rw [h.before.detour_unique hj hd hnode]

/-- A slot reads the split just if it read the node. -/
theorem reads_split_iff {c : NodeId} (hc : c ∈ order) {e e' : Edge} (he : e ∈ g.inputs c)
    (hmoved : Moved g.size (splitDetours g r o) c e e') : e'.node = ⟨g.size + i⟩ ↔ e.node = x := by
  rcases hmoved with ⟨j, d, hj, hnode, _, hnew⟩ | ⟨hstay, rfl⟩
  · rw [hnew, h.new_eq_iff hd hj, hnode]
  · -- a slot that stays cannot read `x`, whose readers are all moved
    constructor
    · intro hnode
      have hold := h.before.wellFormed.closed c _ ⟨e', he, rfl⟩
      exact absurd hnode.symm (new_ne hold i)
    · intro hnode
      have hports := hstay _ (List.mem_of_getElem? hd) hnode.symm
      rw [← List.length_eq_zero_iff, splitDetour_ports_length, List.count_eq_zero] at hports
      exact absurd (h.before.surveys.mem_of hc ⟨e', he, hnode⟩) hports

theorem reads_mapping_iff {m m' : Mapping} (hm : m ∈ o.mappings)
    (hmoved : MappingMoved g.size (splitDetours g r o) m m') :
    m'.reads ⟨g.size + i⟩ = true ↔ m.reads x = true := by
  rcases hmoved with ⟨j, d, port, hj, hreads, rfl⟩ | ⟨hnone, rfl⟩
  · cases m with
    | stream s t => exact absurd hreads (by simp [Mapping.reads])
    | output e => rw [reads_output, reads_output, h.new_eq_iff hd hj, reads_output.mp hreads]
  -- a mapping that stays names neither `x` nor a node that is only being added
  · have hx' : m'.reads x = false := hnone _ (List.mem_of_getElem? hd)
    rw [hx']
    refine iff_of_false (fun hreads => ?_) (by simp)
    cases m' with
    | stream s t => exact absurd hreads (by simp [Mapping.reads])
    | output e => exact new_ne (h.before.mappings e hm) i (reads_output.mp hreads).symm

/-- What the detour over the split has done to the uses of its node. -/
theorem fannedOut_split (hfree : g.SplitFree) : FannedOut g r order o g' o' x ⟨g.size + i⟩ := by
  constructor
  case node =>
    rw [h.graph.added i _ hd, h.usesOf_eq]
    rfl
  case only =>
    intro other fanOut hother hr
    obtain ⟨j, d, hj, rfl⟩ := h.split_new hfree hother
    obtain ⟨e, he, hnode⟩ := hr
    rw [h.inputs_new hj, List.mem_singleton] at he
    exact (h.new_eq_iff hd hj).mpr (by rw [← hnode, he])
  case slots =>
    intro c hc
    refine (forall₂_map_eq (h.graph.slots (h.before.lt_of_mem hc)) fun e he e' hmoved => ?_).symm
    rw [decide_eq_decide, h.reads_split_iff hd hc he hmoved]
  case ports =>
    intro c hc
    rw [h.graph.ports i _ c hd (h.before.lt_of_mem hc), List.map_map, ← map_snd_filter_zipIdx]
    exact List.map_id _
  case mappings =>
    refine (forall₂_map_eq h.outlets.mappings fun m hm m' hmoved => ?_).symm
    rw [Bool.eq_iff_iff, h.reads_mapping_iff hd hm hmoved]
  case mappingPorts =>
    have hports := h.outlets.ports i _ hd
    rw [splitDetour, List.length_zipIdx] at hports
    exact hports
  case roots =>
    intro k hroot
    obtain ⟨root', hroot', hmoved⟩ := forall₂_getElem?_left h.outlets.roots hroot
    rw [hroot']
    rcases hmoved with ⟨j, d, hj, hnode, rfl⟩ | ⟨hnone, _⟩
    · rw [(h.new_eq_iff hd hj).mpr hnode]
    · exact absurd rfl (hnone _ (List.mem_of_getElem? hd))

end Split

/-- **A node with several uses is fanned out.** -/
theorem fannedOut (h : SplitPass g o r order g' o') (hfree : g.SplitFree) (hx : x ∈ order)
    (hsource : g.isSource x = false) (hk : 2 ≤ usesOf g order o.mappings x) :
    ∃ split, FannedOut g r order o g' o' x split := by
  have hshared := h.isShared_of_uses hfree hx hsource hk
  obtain ⟨i, hd⟩ := List.mem_iff_getElem?.mp (h.before.mem_splitDetours.mpr ⟨x, hx, hshared, rfl⟩)
  exact ⟨⟨g.size + i⟩, h.fannedOut_split hd hfree⟩

/-- **A node with fewer uses is left alone.** -/
theorem leftAlone (h : SplitPass g o r order g' o') (hfree : g.SplitFree) (hx : x ∈ order)
    (hk : usesOf g order o.mappings x < 2) : LeftAlone g order o g' o' x := by
  have hlt := h.before.lt_of_mem hx
  -- with fewer uses than two there is no split, so no slot or mapping is moved
  have hnone : ∀ d ∈ splitDetours g r o, d.node ≠ x := by
    rintro d hd rfl
    exact absurd (h.two_le_usesOf hd) (Nat.not_le.mpr hk)
  have hnew : ∀ j, (⟨g.size + j⟩ : NodeId) ≠ x := new_ne hlt
  constructor
  case none =>
    rintro split fanOut hsplit ⟨e, he, hnode⟩
    obtain ⟨j, d, hj, rfl⟩ := h.split_new hfree hsplit
    rw [h.inputs_new hj, List.mem_singleton] at he
    exact hnone d (List.mem_of_getElem? hj) (by rw [← hnode, he])
  case slots =>
    intro c hc i e he
    have hslots := h.graph.slots (h.before.lt_of_mem hc)
    constructor
    · intro hi
      obtain ⟨e₀, he₀, hmoved⟩ := forall₂_getElem?_right hslots hi
      rcases hmoved with ⟨j, d, _, _, _, hnode⟩ | ⟨_, rfl⟩
      · exact absurd (hnode.symm.trans he) (hnew j)
      · exact he₀
    · intro hi
      obtain ⟨e₁, he₁, hmoved⟩ := forall₂_getElem?_left hslots hi
      rcases hmoved with ⟨j, d, hj, hnode, _, _⟩ | ⟨_, rfl⟩
      · exact absurd (hnode.trans he) (hnone d (List.mem_of_getElem? hj))
      · exact he₁
  case mappings =>
    intro i m hm
    constructor
    · intro hi
      obtain ⟨m₀, hm₀, hmoved⟩ := forall₂_getElem?_right h.outlets.mappings hi
      rcases hmoved with ⟨j, d, port, _, _, rfl⟩ | ⟨_, rfl⟩
      · exact absurd (reads_output.mp hm) (hnew j)
      · exact hm₀
    · intro hi
      obtain ⟨m₁, hm₁, hmoved⟩ := forall₂_getElem?_left h.outlets.mappings hi
      rcases hmoved with ⟨j, d, port, hj, hreads, _⟩ | ⟨_, rfl⟩
      · cases m with
        | stream s t => exact absurd hm (by simp [Mapping.reads])
        | output e =>
          rw [reads_output] at hreads hm
          exact absurd (hreads.symm.trans hm) (hnone d (List.mem_of_getElem? hj))
      · exact hm₁
  case roots =>
    intro k hroot
    obtain ⟨root', hroot', hmoved⟩ := forall₂_getElem?_left h.outlets.roots hroot
    rw [hroot']
    rcases hmoved with ⟨j, d, hj, hnode, _⟩ | ⟨_, rfl⟩
    · exact absurd hnode (hnone d (List.mem_of_getElem? hj))
    · rfl

end SplitPass

/-! ## Through a whole compilation -/

section Numbered

variable {g g' g'' : Graph} {o o' : Outlets} {r : Readers} {order : List NodeId} {x : NodeId}

theorem kind?_split_numbered (h : g'.SameButNumbers g'') {split : NodeId} {fanOut : Nat}
    (hk : g''.kind? split = some (.split fanOut)) : g'.kind? split = some (.split fanOut) := by
  obtain ⟨n, hn, hkind⟩ := node?_of_kind? hk
  have hn' := h.symm.node?_eq hn (by rw [hkind]; rfl)
  rw [kind?_of_node? hn', hkind]

theorem FannedOut.numbered {split : NodeId} (h : FannedOut g r order o g' o' x split)
    (hsame : g'.SameButNumbers g'') : FannedOut g r order o g'' o' x split where
  node := hsame.node?_eq h.node rfl
  only := fun other fanOut hk hr =>
    h.only other fanOut (kind?_split_numbered hsame hk) (hsame.reads_iff.mp hr)
  slots := by simpa only [hsame.inputs] using h.slots
  ports := by simpa only [hsame.inputs] using h.ports
  mappings := h.mappings
  mappingPorts := h.mappingPorts
  roots := h.roots

theorem LeftAlone.numbered (h : LeftAlone g order o g' o' x) (hsame : g'.SameButNumbers g'') :
    LeftAlone g order o g'' o' x where
  none := fun split fanOut hk hr =>
    h.none split fanOut (kind?_split_numbered hsame hk) (hsame.reads_iff.mp hr)
  slots := by simpa only [hsame.inputs] using h.slots
  mappings := h.mappings
  roots := h.roots

end Numbered

theorem SelectorPass.splitFree {g g' : Graph} {roots order : List NodeId} {r : Readers}
    (h : SelectorPass g roots r order g') (hfree : g.SplitFree) : g'.SplitFree := by
  intro id fanOut hk
  by_cases hlt : id.index < g.size
  · rw [h.graph.kind? hlt] at hk
    exact hfree id fanOut hk
  · obtain ⟨n, hn, hkind⟩ := node?_of_kind? hk
    obtain ⟨i, d, hd, rfl, rfl⟩ := h.graph.exists_detour hlt hn
    obtain ⟨key, rfl, _⟩ := h.of_mem (List.mem_of_getElem? hd)
    exact absurd hkind (by simp [selectorDetour])

/-- `order` lists the nodes that the roots reach, each once. -/
def Graph.Lists (g : Graph) (roots order : List NodeId) : Prop :=
  order.Nodup ∧ ∀ x, x ∈ order ↔ g.Reached roots x

theorem Surveys.lists {g : Graph} {roots order : List NodeId} {r : Readers}
    (h : Surveys g roots r order) : g.Lists roots order :=
  ⟨h.settled.nodup, h.mem_iff⟩

/-- The compilation that led from `g` to `g'` has conserved the uses of every node: with
several uses it is fanned out, with fewer it is left alone, and then none has several. -/
def ConservesUses (job : Job) (roots : List NodeId) (g g' : Graph) : Prop :=
  ∃ (ends : List NodeId) (g₁ : Graph) (added : Nat) (r : Readers) (order : List NodeId)
    (o : Outlets) (g₂ : Graph) (order' : List NodeId) (p : Program),
    -- the graph with its selectors, and who reads whom in it
    finalRoots g job.mappings roots = .ok ends ∧ insertSelectors g ends = .ok (g₁, added) ∧
    Readers.build g₁ ends = .ok r ∧ g₁.Lists ends order ∧
    -- the graph with its splits, and the program that is written from it
    insertSplits ⟨ends, job.mappings⟩ g₁ = .ok o g₂ ∧ g'.Lists o.roots order' ∧
    job.program roots g = .ok p g' ∧ mappingTargets g' o.mappings = .ok p.targets ∧
    (∀ x ∈ order, g₁.isSource x = false →
      (2 ≤ usesOf g₁ order job.mappings x →
        ∃ split, FannedOut g₁ r order ⟨ends, job.mappings⟩ g' o x split) ∧
      (usesOf g₁ order job.mappings x < 2 →
        LeftAlone g₁ order ⟨ends, job.mappings⟩ g' o x)) ∧
    ∀ x ∈ order', (g'.kind? x).any Kind.isSplittable = true →
      usesOf g' order' o.mappings x ≤ 1

theorem Passage.conservesUses {g : Graph} {roots : List NodeId} {job : Job} {p : Program}
    (hfree : g.SplitFree) (s : Passage g job.mappings roots)
    (hp : job.program roots g = .ok p s.numbered)
    (htargets : mappingTargets s.numbered s.outlets.mappings = .ok p.targets) :
    ConservesUses job roots g s.numbered := by
  refine ⟨s.ends, s.selected, s.added, s.r₁, s.order₁, s.outlets, s.wired, s.order, p, s.final_eq,
    s.selectors_eq, s.r₁_eq, s.splittable.surveys.lists, s.splits_eq, s.ready.surveys.lists, hp,
    htargets, fun x hx hsource => ?_, fun x hx hkind => ?_⟩
  · have hfree₁ := s.selectors.splitFree hfree
    constructor
    · intro huses
      obtain ⟨split, hsplit⟩ := s.splits.fannedOut hfree₁ hx hsource huses
      exact ⟨split, hsplit.numbered s.same⟩
    · intro huses
      exact (s.splits.leftAlone hfree₁ hx huses).numbered s.same
  · have huses := s.uses_le_one hx hkind
    rw [s.ready.uses_eq] at huses
    exact huses

/-- **Fan-out conservation, with mappings as uses.** -/
theorem compile_conservesUses {g g' : Graph} {roots : List NodeId} {job : Job} {cmd : Command}
    (hg : Reachable g) (hfree : g.SplitFree) (h : job.compile roots g = .ok cmd g') :
    ConservesUses job roots g g' := by
  obtain ⟨p, hp, _⟩ := exists_program h
  obtain ⟨s, rfl, _, _, htargets⟩ := exists_passage_of_program hg.wellFormed hp
  exact s.conservesUses hfree hp htargets

/-- Two slots of a merge, a slot of a filter in between, and a mapping use the same node. -/
theorem compile_conservesUses_interleaved :
    ∃ cmd g', Job.compile { destination := "out.mp4", mappings := [.output ⟨⟨1⟩, 0⟩] } [⟨3⟩]
        interleaved = .ok cmd g' ∧
      ConservesUses { destination := "out.mp4", mappings := [.output ⟨⟨1⟩, 0⟩] } [⟨3⟩]
        interleaved g' := by
  obtain ⟨cmd, g', h⟩ := Change.exists_of_succeeds (x := Job.compile
    { destination := "out.mp4", mappings := [.output ⟨⟨1⟩, 0⟩] } [⟨3⟩]) (s := interleaved)
    (by decide +kernel)
  exact ⟨cmd, g', h,
    compile_conservesUses built_interleaved.reachable built_interleaved.splitFree h⟩

end Filtergraph
