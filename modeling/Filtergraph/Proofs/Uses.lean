import Mathlib.Data.List.Nodup
import Filtergraph.Proofs.Splits

/-!
# Uses after splitting

The pass leaves every node that can be split with at most one use: a node that had more is
read by its split alone, and the split has one port for each of the uses. What is counted
here are slots of the nodes that the roots lead to. So first we see which nodes these are
after the pass: those that were reached before, and all the new splits.
-/

namespace Filtergraph

open Filtergraph.Graph

/-! ## The detours of the pass -/

namespace Splittable

variable {g : Graph} {o : Outlets} {r : Readers} {order : List NodeId}

/-- The splits stand behind the reached nodes that are shared. -/
theorem mem_splitDetours (h : Splittable g o r order) {d : Detour} :
    d ∈ splitDetours g r o ↔ ∃ x ∈ order, isShared g r o x = true ∧ d = splitDetour r o x := by
  unfold splitDetours
  rw [List.mem_map]
  constructor
  · rintro ⟨x, hx, rfl⟩
    obtain ⟨hx, hshared⟩ := List.mem_filter.mp hx
    exact ⟨x, h.mem_candidates_iff.mp hx, hshared, rfl⟩
  · rintro ⟨x, hx, hshared, rfl⟩
    exact ⟨x, List.mem_filter.mpr ⟨h.mem_candidates_iff.mpr hx, hshared⟩, rfl⟩

theorem detour_lt (h : Splittable g o r order) :
    ∀ d ∈ splitDetours g r o, d.node.index < g.size := by
  intro d hd
  obtain ⟨x, hx, _, rfl⟩ := h.mem_splitDetours.mp hd
  exact h.lt_of_mem hx

/-- No node gets two splits. -/
theorem detour_unique (h : Splittable g o r order) {i j : Nat} {d d' : Detour}
    (hi : (splitDetours g r o)[i]? = some d) (hj : (splitDetours g r o)[j]? = some d')
    (hd : d.node = d'.node) : i = j := by
  have hnodes : (splitDetours g r o).map Detour.node
      = (r.producers ++ o.roots).filter (isShared g r o) := by
    unfold splitDetours
    rw [List.map_map]
    exact List.map_id _
  have hnd : ((splitDetours g r o).map Detour.node).Nodup := by
    rw [hnodes]
    exact h.nodup_candidates.filter _
  have hlt : i < ((splitDetours g r o).map Detour.node).length := by
    rw [List.length_map]
    exact (List.getElem?_eq_some_iff.mp hi).1
  refine (List.getElem?_inj hlt hnd).mp ?_
  rw [List.getElem?_map, List.getElem?_map, hi, hj, Option.map_some, Option.map_some, hd]

end Splittable

/-- A graph and its outlets before and after the pass. -/
structure SplitPass (g : Graph) (o : Outlets) (r : Readers) (order : List NodeId) (g' : Graph)
    (o' : Outlets) : Prop where
  before : Splittable g o r order
  /-- What a mapping names is reached. -/
  mapped : ∀ e, .output e ∈ o.mappings → e.node ∈ order
  graph : Rerouted g (splitDetours g r o) g'
  outlets : Redrawn g.size (splitDetours g r o) o o'
  wellFormed : g'.WellFormed

/-- The nodes that detours add. -/
def newNodes (g : Graph) (ds : List Detour) : List NodeId :=
  (List.range ds.length).map fun i => ⟨g.size + i⟩

theorem mem_newNodes {g : Graph} {ds : List Detour} {x : NodeId} :
    x ∈ newNodes g ds ↔ ∃ i d, ds[i]? = some d ∧ x = ⟨g.size + i⟩ := by
  unfold newNodes
  rw [List.mem_map]
  constructor
  · rintro ⟨i, hi, rfl⟩
    exact ⟨i, _, List.getElem?_eq_getElem (List.mem_range.mp hi), rfl⟩
  · rintro ⟨i, d, hd, rfl⟩
    exact ⟨i, List.mem_range.mpr (List.getElem?_eq_some_iff.mp hd).1, rfl⟩

theorem nodup_newNodes (g : Graph) (ds : List Detour) : (newNodes g ds).Nodup := by
  refine List.Nodup.map (fun i j hij => ?_) List.nodup_range
  rw [NodeId.mk.injEq] at hij
  omega

namespace SplitPass

variable {g g' : Graph} {o o' : Outlets} {r r' : Readers} {order order' : List NodeId}
  {i : Nat} {d : Detour} {x : NodeId}

/-! ## What is reached -/

theorem inputs_new (h : SplitPass g o r order g' o') (hd : (splitDetours g r o)[i]? = some d) :
    g'.inputs ⟨g.size + i⟩ = [⟨d.node, 0⟩] :=
  inputs_of_node? (h.graph.added i d hd)

/-- The roots before the pass are the origins of those after it. -/
theorem map_origin (h : SplitPass g o r order g' o') :
    o'.roots.map (Rerouted.origin g (splitDetours g r o)) = o.roots := by
  have hlt : ∀ root ∈ o.roots, root.index < g.size :=
    fun root hroot => h.before.lt_of_mem (h.before.root_mem hroot)
  have hroots := h.outlets.roots
  generalize o.roots = before, o'.roots = after at hlt hroots
  induction hroots with
  | nil => rfl
  | cons hmoved _ ih =>
    obtain ⟨hroot, hrest⟩ := List.forall_mem_cons.mp hlt
    rw [List.map_cons, ih hrest]
    rcases hmoved with ⟨i, d, hd, hnode, rfl⟩ | ⟨_, rfl⟩
    · rw [Rerouted.origin_new hd, hnode]
    · rw [Rerouted.origin_old _ hroot]

theorem root_origin (h : SplitPass g o r order g' o') :
    ∀ root' ∈ o'.roots, Rerouted.origin g (splitDetours g r o) root' ∈ o.roots := by
  intro root' hroot'
  rw [← h.map_origin]
  exact List.mem_map_of_mem hroot'

/-- A root that a split took the place of is reached through the split. -/
theorem root_reached (h : SplitPass g o r order g' o') :
    ∀ root ∈ o.roots, g'.Reached o'.roots root := by
  intro root hroot
  obtain ⟨root', hroot', hmoved⟩ := forall₂_exists_right h.outlets.roots hroot
  rcases hmoved with ⟨i, d, hd, hnode, rfl⟩ | ⟨_, rfl⟩
  · refine (Reached.root hroot').reads ⟨⟨d.node, 0⟩, ?_, hnode⟩
    rw [h.inputs_new hd]
    exact List.mem_singleton_self _
  · exact .root hroot'

theorem reached_old_iff (h : SplitPass g o r order g' o') (hx : x.index < g.size) :
    g'.Reached o'.roots x ↔ x ∈ order := by
  rw [h.before.surveys.mem_iff]
  exact h.graph.reached_old_iff h.before.wellFormed.closed h.before.detour_lt h.root_origin
    h.root_reached hx

/-- A reader of a node with a split reads the split instead. -/
theorem reads_new (h : SplitPass g o r order g' o') (hd : (splitDetours g r o)[i]? = some d)
    {c : NodeId} (hc : c ∈ order) (hr : g.Reads c d.node) : g'.Reads c ⟨g.size + i⟩ := by
  obtain ⟨x, hx, _, rfl⟩ := h.before.mem_splitDetours.mp (List.mem_of_getElem? hd)
  -- each slot that read the node was given a port
  have hports : 0 < ((splitDetour r o x).ports c).length := by
    rw [splitDetour_ports_length, List.count_pos_iff]
    exact h.before.surveys.mem_of hc hr
  obtain ⟨p, hp⟩ := List.exists_mem_of_length_pos hports
  have hmem : (⟨⟨g.size + i⟩, p⟩ : Edge) ∈ (g'.inputs c).filter (·.node = ⟨g.size + i⟩) := by
    rw [h.graph.ports i _ c hd (h.before.lt_of_mem hc)]
    exact List.mem_map.mpr ⟨p, hp, rfl⟩
  exact ⟨_, (List.mem_filter.mp hmem).1, rfl⟩

/-- Every new split is reached: the node behind it is a root or has a reader. -/
theorem reached_new (h : SplitPass g o r order g' o') (hd : (splitDetours g r o)[i]? = some d) :
    g'.Reached o'.roots ⟨g.size + i⟩ := by
  obtain ⟨x, hx, _, hx'⟩ := h.before.mem_splitDetours.mp (List.mem_of_getElem? hd)
  have hnode : d.node = x := by rw [hx']; rfl
  rcases h.before.surveys.root_or_reader hx with hroot | ⟨c, hc, hr⟩
  · obtain ⟨root', hroot', hmoved⟩ := forall₂_exists_right h.outlets.roots hroot
    rcases hmoved with ⟨j, d', hd', hnode', rfl⟩ | ⟨hnone, rfl⟩
    · rw [h.before.detour_unique hd hd' (hnode.trans hnode'.symm)]
      exact .root hroot'
    -- a root stays only if no split stands behind it
    · exact absurd hnode (hnone d (List.mem_of_getElem? hd))
  · have hcreached := (h.reached_old_iff (h.before.lt_of_mem hc)).mpr hc
    exact hcreached.reads (h.reads_new hd hc (hnode ▸ hr))

theorem root_known (h : SplitPass g o r order g' o') :
    ∀ root ∈ o'.roots, ∃ n, g'.node? root = some n := by
  intro root' hroot'
  obtain ⟨root, hroot, hmoved⟩ := forall₂_exists_left h.outlets.roots hroot'
  rcases hmoved with ⟨i, d, hd, _, rfl⟩ | ⟨_, rfl⟩
  · exact ⟨_, h.graph.added i d hd⟩
  · obtain ⟨n, hn⟩ := h.before.surveys.known _ (h.before.root_mem hroot)
    obtain ⟨es, hes, _⟩ := h.graph.kept _ n hn
    exact ⟨_, hes⟩

theorem exists_build (h : SplitPass g o r order g' o') :
    ∃ r', Readers.build g' o'.roots = .ok r' :=
  h.graph.exists_build h.before.wellFormed.closed h.before.detour_lt h.root_origin
    h.before.surveys h.wellFormed h.root_known

/-- What is reached after the pass: what was reached before it, and the new splits. -/
theorem perm_order (h : SplitPass g o r order g' o') (hs : Surveys g' o'.roots r' order') :
    order'.Perm (order ++ newNodes g (splitDetours g r o)) := by
  have hold : ∀ y ∈ order, ∀ z ∈ newNodes g (splitDetours g r o), y ≠ z := by
    intro y hy z hz
    obtain ⟨i, d, _, rfl⟩ := mem_newNodes.mp hz
    exact (new_ne (h.before.lt_of_mem hy) i).symm
  refine (List.perm_ext_iff_of_nodup hs.settled.nodup ?_).mpr fun y => ?_
  · exact List.nodup_append.mpr ⟨h.before.surveys.settled.nodup, nodup_newNodes _ _, hold⟩
  · rw [List.mem_append, mem_newNodes, hs.mem_iff]
    -- old nodes are settled by what was reached before, new ones are splits
    by_cases hy : y.index < g.size
    · rw [h.reached_old_iff hy]
      refine ⟨Or.inl, fun hor => hor.elim id ?_⟩
      rintro ⟨i, d, _, hnew⟩
      exact absurd hnew.symm (new_ne hy i)
    · constructor
      · intro hreached
        obtain ⟨n, hn⟩ := hs.known y ((hs.mem_iff y).mpr hreached)
        obtain ⟨i, d, hd, rfl, _⟩ := h.graph.exists_detour hy hn
        exact Or.inr ⟨i, d, hd, rfl⟩
      · rintro (hmem | ⟨i, d, hd, rfl⟩)
        · exact absurd (h.before.lt_of_mem hmem) hy
        · exact h.reached_new hd

/-! ## Slots that read a node -/

theorem slotsReading_order (h : SplitPass g o r order g' o') (hs : Surveys g' o'.roots r' order')
    (y : NodeId) : (g'.slotsReading order' y).Perm
      (g'.slotsReading order y ++ g'.slotsReading (newNodes g (splitDetours g r o)) y) := by
  rw [← slotsReading_append]
  exact slotsReading_perm (h.perm_order hs)

/-- A node without split is read by the slots that read it before. -/
theorem count_of_no_split (h : SplitPass g o r order g' o') (hs : Surveys g' o'.roots r' order')
    (hx : x.index < g.size) (hds : ∀ d ∈ splitDetours g r o, d.node ≠ x) :
    r'.count x = r.count x := by
  rw [hs.count_eq_length, h.before.surveys.count_eq_length]
  refine h.graph.slotsReading_length hx hds h.before.surveys.settled.nodup hs.settled.nodup
    (fun c hc => h.before.lt_of_mem hc) fun c hc => ?_
  rw [hs.mem_iff, h.reached_old_iff hc]

/-- The old readers of a node with a split have all been moved to the split. -/
theorem not_reads_of_split (h : SplitPass g o r order g' o')
    (hd : (splitDetours g r o)[i]? = some d) {c : NodeId} (hc : c ∈ order) :
    ¬ g'.Reads c d.node := by
  obtain ⟨x, hx, _, rfl⟩ := h.before.mem_splitDetours.mp (List.mem_of_getElem? hd)
  rintro ⟨e', he', hnode⟩
  obtain ⟨e, he, hmoved⟩ := forall₂_exists_left (h.graph.slots (h.before.lt_of_mem hc)) he'
  rcases hmoved with ⟨j, d', _, _, _, hnew⟩ | ⟨hstay, rfl⟩
  · have hlt := h.before.detour_lt _ (List.mem_of_getElem? hd)
    exact absurd (hnew.symm.trans hnode) (new_ne hlt j)
  · have hnone := hstay _ (List.mem_of_getElem? hd) hnode.symm
    have hreader := h.before.surveys.mem_of hc ⟨e', he, hnode⟩
    rw [← List.length_eq_zero_iff, splitDetour_ports_length, List.count_eq_zero] at hnone
    exact hnone hreader

/-- A node with a split is read by the split alone. -/
theorem count_of_split (h : SplitPass g o r order g' o') (hs : Surveys g' o'.roots r' order')
    (hd : (splitDetours g r o)[i]? = some d) : r'.count d.node = 1 := by
  have hold : g'.slotsReading order d.node = [] :=
    slotsReading_eq_nil fun c hc => h.not_reads_of_split hd hc
  -- of the new nodes only its own split reads it, as no node has two
  have hnew : (g'.slotsReading [⟨g.size + i⟩] d.node).Perm
      (g'.slotsReading (newNodes g (splitDetours g r o)) d.node) := by
    refine perm_flatMap_of_subset (List.nodup_singleton _) (nodup_newNodes _ _) ?_ ?_
    · intro c hc
      exact mem_newNodes.mpr ⟨i, d, hd, List.mem_singleton.mp hc⟩
    · intro c hc hout
      obtain ⟨j, d', hd', rfl⟩ := mem_newNodes.mp hc
      refine filter_inputs_eq_nil ?_
      rintro ⟨e, he, hnode⟩
      rw [h.inputs_new hd', List.mem_singleton] at he
      rw [he] at hnode
      rw [h.before.detour_unique hd' hd hnode] at hout
      exact hout (List.mem_singleton_self _)
  rw [hs.count_eq_length, (h.slotsReading_order hs d.node).length_eq, hold, List.nil_append,
    ← hnew.length_eq, slotsReading, List.flatMap_singleton, h.inputs_new hd]
  simp

/-- The slots that read a split hold its first ports, one each. -/
theorem ports_of_split (h : SplitPass g o r order g' o') (hs : Surveys g' o'.roots r' order')
    (hd : (splitDetours g r o)[i]? = some d) :
    ((g'.slotsReading order' ⟨g.size + i⟩).map Edge.port).Perm (List.range d.moves.length) := by
  have hnew : g'.slotsReading (newNodes g (splitDetours g r o)) ⟨g.size + i⟩ = [] := by
    refine slotsReading_eq_nil fun c hc hr => ?_
    obtain ⟨j, d', hd', rfl⟩ := mem_newNodes.mp hc
    obtain ⟨e, he, hnode⟩ := hr
    rw [h.inputs_new hd', List.mem_singleton] at he
    have hlt := h.before.detour_lt _ (List.mem_of_getElem? hd')
    have hnode : d'.node = ⟨g.size + i⟩ := by rw [← hnode, he]
    exact new_ne hlt i hnode.symm
  -- each reader holds the ports of its own moves, and the readers have all moves together
  have hold : (g'.slotsReading order ⟨g.size + i⟩).map Edge.port
      = (order.flatMap fun c => d.moves.filter (·.1 = c)).map Prod.snd := by
    rw [slotsReading, List.map_flatMap, List.map_flatMap]
    refine List.flatMap_congr fun c hc => ?_
    rw [h.graph.ports i d c hd (h.before.lt_of_mem hc), List.map_map, Detour.ports]
    exact List.map_id _
  have hmoves : (order.flatMap fun c => d.moves.filter (·.1 = c)).Perm d.moves := by
    obtain ⟨x, hx, _, rfl⟩ := h.before.mem_splitDetours.mp (List.mem_of_getElem? hd)
    refine perm_flatMap_filter Prod.fst _ h.before.surveys.settled.nodup fun m hm => ?_
    exact (h.before.surveys.of_subset (List.fst_mem_of_mem_zipIdx hm)).1
  have hsnd : d.moves.map Prod.snd = List.range d.moves.length := by
    obtain ⟨x, hx, _, rfl⟩ := h.before.mem_splitDetours.mp (List.mem_of_getElem? hd)
    show (r.of x).zipIdx.map Prod.snd = List.range (r.of x).zipIdx.length
    rw [List.length_zipIdx, List.range_eq_range']
    exact List.zipIdx_map_snd _ _
  have hperm := (h.slotsReading_order hs ⟨g.size + i⟩).map Edge.port
  rw [hnew, List.append_nil, hold] at hperm
  exact (hperm.trans (hmoves.map Prod.snd)).trans (hsnd ▸ List.Perm.refl _)

/-! ## Mappings that read a node -/

/-- No mapping names a node with a split any more. -/
theorem mapped_of_split (h : SplitPass g o r order g' o')
    (hd : (splitDetours g r o)[i]? = some d) : o'.mapped d.node = 0 := by
  have hlt := h.before.detour_lt _ (List.mem_of_getElem? hd)
  rw [Outlets.mapped, List.countP_eq_zero]
  intro m' hm' hreads
  obtain ⟨m, _, hmoved⟩ := forall₂_exists_left h.outlets.mappings hm'
  rcases hmoved with ⟨j, d', p, _, _, rfl⟩ | ⟨hnone, rfl⟩
  · exact new_ne hlt j (reads_output.mp hreads)
  · exact absurd hreads (by simp [hnone d (List.mem_of_getElem? hd)])

theorem mapped_reached (h : SplitPass g o r order g' o') {e : Edge}
    (he : .output e ∈ o'.mappings) : g'.Reached o'.roots e.node := by
  obtain ⟨m, hm, hmoved⟩ := forall₂_exists_left h.outlets.mappings he
  rcases hmoved with ⟨j, d, p, hd, _, hnew⟩ | ⟨_, rfl⟩
  · rw [Mapping.output.injEq] at hnew
    rw [hnew]
    exact h.reached_new hd
  · have hmem := h.mapped e hm
    exact (h.reached_old_iff (h.before.lt_of_mem hmem)).mpr hmem

/-! ## Uses -/

/-- **After the pass a node that can be split has at most one use.** -/
theorem uses_le_one (h : SplitPass g o r order g' o') (hs : Surveys g' o'.roots r' order')
    (hx : x ∈ order') (hkind : (g'.kind? x).any Kind.isSplittable = true) :
    r'.count x + o'.mapped x ≤ 1 := by
  by_cases hlt : x.index < g.size
  · by_cases hsplit : ∃ d ∈ splitDetours g r o, d.node = x
    · obtain ⟨d, hd, rfl⟩ := hsplit
      obtain ⟨i, hi⟩ := List.mem_iff_getElem?.mp hd
      rw [h.count_of_split hs hi, h.mapped_of_split hi]
    · -- a node without split had fewer than two uses, and has the same ones now
      have hnone : ∀ d ∈ splitDetours g r o, d.node ≠ x := fun d hd he => hsplit ⟨d, hd, he⟩
      rw [h.count_of_no_split hs hlt hnone, h.outlets.mapped_eq hlt hnone]
      have hxold := (h.reached_old_iff hlt).mp ((hs.mem_iff x).mp hx)
      by_contra hmany
      refine hnone _ (h.before.mem_splitDetours.mpr ⟨x, hxold, ?_, rfl⟩) rfl
      rw [isShared, ← h.graph.kind? hlt, hkind, Bool.true_and, decide_eq_true_eq]
      omega
  · obtain ⟨n, hn⟩ := hs.known x hx
    obtain ⟨i, d, hd, rfl, rfl⟩ := h.graph.exists_detour hlt hn
    obtain ⟨y, _, _, rfl⟩ := h.before.mem_splitDetours.mp (List.mem_of_getElem? hd)
    -- splits are not split again
    rw [kind?_of_node? hn] at hkind
    exact absurd hkind (by simp [splitDetour, Kind.isSplittable])

end SplitPass

end Filtergraph
