import Filtergraph.Proofs.Conservation
import Filtergraph.Proofs.Inputs

/-!
# Maximal chains

The writing takes an operation into the statement of its reader where it can. Here we say what
comes of this in terms of the graph alone: two operations stand side by side in a statement just
if one is all that the other reads and has no other use. So chains are as long as they can be,
and the number of statements can be read off from the graph.

The graph meant is the one that is written, with its selectors and splits. These are put in only
where an operation reads a media file, or where several uses share an operation. So a straight
run of the given graph is written as it stands there.
-/

namespace Filtergraph

open Filtergraph.Graph

/-- The operation that a label belongs to. -/
def Label.node? : Label → Option NodeId
  | .input _ _ => none
  | .output x => some x
  | .port x _ => some x

namespace Graph

/-- `u` leads to `w` and nowhere else: `w` has one slot, which reads `u`, and `u` has no other
use. -/
@[mk_iff]
structure Adjoins (g : Graph) (order : List NodeId) (ms : List Mapping) (u w : NodeId) : Prop where
  operation : g.isOperation u = true
  reader : w ∈ order ∧ g.isOperation w = true
  slot : g.Feeds u w
  only : usesOf g order ms u = 1

/-- A run of operations, each of which leads to the next one only, that goes on at neither end. -/
structure StraightRun (g : Graph) (order : List NodeId) (ms : List Mapping)
    (run : List NodeId) : Prop where
  operations : ∀ x ∈ run, x ∈ order ∧ g.isOperation x = true
  adjoins : run.IsChain (g.Adjoins order ms)
  first : ∃ x, run.head? = some x ∧ ∀ u, ¬ g.Adjoins order ms u x
  last : ∃ x, run.getLast? = some x ∧ ∀ w, ¬ g.Adjoins order ms x w

end Graph

/-- The statement renders the operations of the chain, one after the other. -/
structure Statement.Shows (st : Statement) (g : Graph) (chain : List NodeId) : Prop where
  nonempty : chain ≠ []
  stages : chain.map (fun x => (g.node? x).bind Node.stage?) = st.stages.map some
  /-- It reads labels of what the first one reads. -/
  inputs : ∀ x, chain.head? = some x → st.inputs.map Label.node?
    = (g.inputs x).map fun e => if g.isOperation e.node then some e.node else none
  /-- It defines labels of the last one. -/
  outputs : ∀ l ∈ st.outputs, l.node? = chain.getLast?

/-- The statements of the program are those of the chains, and the chains are maximal. -/
structure Program.Chained (p : Program) (g : Graph) (order : List NodeId) (ms : List Mapping)
    (chains : List (List NodeId)) : Prop where
  shown : List.Forall₂ (fun chain st => st.Shows g chain) chains p.statements
  /-- Every listed operation is rendered once, and nothing else is. -/
  once : chains.flatten.Nodup
  mem_iff : ∀ x, x ∈ chains.flatten ↔ x ∈ order ∧ g.isOperation x = true
  /-- Operations stand side by side just if the one leads to the other only. -/
  adjacent : ∀ u w, (∃ chain ∈ chains, [u, w] <:+: chain) ↔ g.Adjoins order ms u w
  /-- Each such pair saves a statement. -/
  count : ∃ pairs : List (NodeId × NodeId), pairs.Nodup ∧
    (∀ u w, (u, w) ∈ pairs ↔ g.Adjoins order ms u w) ∧
    p.statements.length + pairs.length = (order.filter g.isOperation).length
  /-- What stands before another operation needs no label. -/
  unlabelled : ∀ u w, g.Adjoins order ms u w → ∀ l ∈ p.defines ++ p.reads, l.node? ≠ some u
  straight : ∀ run, g.StraightRun order ms run → run ∈ chains

theorem node?_of_mem_outputLabels {p : Plan} {x : NodeId} {l : Label}
    (h : l ∈ p.outputLabels x) : l.node? = some x := by
  rcases Plan.node_of_mem_outputLabels h with rfl | ⟨n, rfl⟩
  · rfl
  · rfl

/-- The label of a slot belongs to the operation that the slot reads, if it reads one. -/
theorem node?_of_label {p : Plan} {e : Edge} {l : Label} (h : p.label e = .ok l) :
    l.node? = if p.graph.isOperation e.node then some e.node else none := by
  rcases Plan.label_cases h with ⟨hop, rfl⟩ | ⟨hop, _, _, _, _, _, _, rfl⟩
  · rw [if_pos hop, Plan.opLabel]
    split
    · rfl
    · rfl
  · rw [if_neg (by simp [hop])]
    rfl

theorem isSome_stage?_of_isOperation {g : Graph} {x : NodeId} (h : g.isOperation x = true) :
    ((g.node? x).bind Node.stage?).isSome = true := by
  obtain ⟨⟨k, es⟩, hn, hop⟩ := node?_of_isOperation h
  rw [hn, Option.bind_some, Node.stage?]
  cases k with
  | source s => exact absurd hop (by simp [Kind.isOperation])
  | selector s => exact absurd hop (by simp [Kind.isOperation])
  | filter f gate => cases gate <;> rfl
  | merge => rfl
  | split fanOut => rfl

/-! ## Pairs in chains -/

namespace Plan

/-- The pairs of which the first joins the chain above the second. -/
def joints (p : Plan) (order : List NodeId) : List (NodeId × NodeId) :=
  order.filterMap fun t => (p.above? t).map (·, t)

variable {p : Plan} {order : List NodeId} {head u w : NodeId}

theorem above_of_pair (h : [w, u] <:+: p.chain head) : p.above? w = some u := by
  have hpair : [w, u].IsChain fun a b => p.above? a = some b :=
    List.IsChain.infix (p.isChain_climb _ head) h
  exact (List.isChain_cons_cons.mp hpair).1

theorem mem_joints : (u, w) ∈ p.joints order ↔ w ∈ order ∧ p.above? w = some u := by
  rw [joints, List.mem_filterMap]
  constructor
  · rintro ⟨t, ht, hpair⟩
    obtain ⟨x, ha, heq⟩ := Option.map_eq_some_iff.mp hpair
    rw [Prod.mk.injEq] at heq
    obtain ⟨rfl, rfl⟩ := heq
    exact ⟨ht, ha⟩
  · rintro ⟨hw, ha⟩
    exact ⟨w, hw, by rw [ha]; rfl⟩

theorem mem_map_fst_joints {x : NodeId} :
    x ∈ (p.joints order).map Prod.fst ↔ p.Joined order x := by
  rw [List.mem_map]
  constructor
  · rintro ⟨⟨y, t⟩, hpair, rfl⟩
    exact ⟨t, mem_joints.mp hpair⟩
  · rintro ⟨t, ht, ha⟩
    exact ⟨(x, t), mem_joints.mpr ⟨ht, ha⟩, rfl⟩

theorem nodup_joints (p : Plan) (h : order.Nodup) : (p.joints order).Nodup := by
  refine h.filterMap fun t t' pair hpair hpair' => ?_
  obtain ⟨_, _, rfl⟩ := Option.map_eq_some_iff.mp hpair
  obtain ⟨_, _, heq⟩ := Option.map_eq_some_iff.mp hpair'
  exact (Prod.mk.inj heq).2.symm

end Plan

namespace Ready

variable {p : Plan} {roots order heads : List NodeId} {head u w : NodeId}

/-- What joins a chain, in terms of the graph. -/
theorem above_iff (h : Ready p roots order) :
    w ∈ order ∧ p.above? w = some u ↔ p.graph.Adjoins order p.mappings u w := by
  rw [Plan.above?_eq_some]
  constructor
  · rintro ⟨hw, e, he, hnode, hop, huses⟩
    have hfeeds : p.graph.Feeds u w := ⟨e, he, hnode⟩
    have hreader :=
      h.wellFormed.isOperation_of_reads hfeeds.reads (isSource_eq_false_of_isOperation hop)
    exact ⟨hop, ⟨hw, hreader⟩, hfeeds, (h.uses_eq u).symm.trans huses⟩
  · rintro ⟨hop, ⟨hw, _⟩, ⟨e, he, hnode⟩, honly⟩
    exact ⟨hw, e, he, hnode, hop, (h.uses_eq u).trans honly⟩

/-- In a chain, what joins above `w` stands right behind it. -/
theorem exists_next (h : Ready p roots order) (hhead : head ∈ order) {pre post : List NodeId}
    (hchain : p.chain head = pre ++ w :: post) (ha : p.above? w = some u) :
    ∃ rest, post = u :: rest := by
  cases post with
  | nil =>
    -- the upper end of a chain has nothing above it
    have hlast := p.getLast?_chain head
    rw [hchain, List.getLast?_concat, Option.some.injEq] at hlast
    rw [hlast, h.above_tail hhead] at ha
    exact absurd ha (by simp)
  | cons x rest =>
    have hx : p.above? w = some x :=
      Plan.above_of_pair ⟨pre, rest, by rw [hchain]; simp⟩
    rw [ha, Option.some.injEq] at hx
    exact ⟨rest, by rw [hx]⟩

/-- From `w` on, a chain goes up as long as there is something above. -/
theorem prefix_above (h : Ready p roots order) (hhead : head ∈ order) {ups pre post : List NodeId}
    (hups : (w :: ups).IsChain fun a b => p.above? a = some b)
    (hchain : p.chain head = pre ++ w :: post) : ups <+: post := by
  induction ups generalizing w pre post with
  | nil => exact List.nil_prefix
  | cons u ups ih =>
    rw [List.isChain_cons_cons] at hups
    obtain ⟨rest, rfl⟩ := h.exists_next hhead hchain hups.1
    have hnext : p.chain head = (pre ++ [w]) ++ u :: rest := by rw [hchain]; simp
    rw [List.prefix_cons_inj]
    exact ih hups.2 hnext

/-- Neighbours in the chains are the pairs of which the one leads to the other only. -/
theorem pair_infix_iff (h : Ready p roots order) (hmem : ∀ x, x ∈ heads ↔ p.IsHead order x) :
    (∃ head ∈ heads, [w, u] <:+: p.chain head) ↔ p.graph.Adjoins order p.mappings u w := by
  rw [← h.above_iff]
  constructor
  · rintro ⟨head, hhead, hpair⟩
    exact ⟨(h.chain_mem ((hmem head).mp hhead) (hpair.subset List.mem_cons_self)).1,
      Plan.above_of_pair hpair⟩
  · rintro ⟨hw, ha⟩
    have hreader := (h.above_iff.mp ⟨hw, ha⟩).reader.2
    obtain ⟨head, hhead, hwmem⟩ := h.exists_head hw hreader
    obtain ⟨pre, post, hchain⟩ := List.append_of_mem hwmem
    obtain ⟨rest, rfl⟩ := h.exists_next hhead.1 hchain ha
    exact ⟨head, (hmem head).mpr hhead, pre, rest, by rw [hchain]; simp⟩

/-- **A straight run is a chain.** -/
theorem chain_of_straightRun (h : Ready p roots order) {run : List NodeId}
    (hrun : p.graph.StraightRun order p.mappings run) :
    ∃ head, p.IsHead order head ∧ (p.chain head).reverse = run := by
  obtain ⟨first, hfirst, hnone⟩ := hrun.first
  obtain ⟨last, hlast, hend⟩ := hrun.last
  obtain ⟨hmem, hop⟩ := hrun.operations last (List.mem_of_getLast? hlast)
  have hhead : p.IsHead order last := by
    refine ⟨hmem, hop, ?_⟩
    rintro ⟨t, ht, ha⟩
    exact hend t (h.above_iff.mp ⟨ht, ha⟩)
  refine ⟨last, hhead, ?_⟩
  -- seen from its last operation the run goes up, and so does the chain
  have hups : run.reverse.IsChain fun a b => p.above? a = some b := by
    rw [List.isChain_reverse]
    exact hrun.adjoins.imp fun a b ha => (h.above_iff.mpr ha).2
  obtain ⟨ups, hreverse⟩ : ∃ ups, run.reverse = last :: ups :=
    List.head?_eq_some_iff.mp (by rw [List.head?_reverse, hlast])
  rw [hreverse] at hups
  have hself : p.chain last = [] ++ last :: p.climb p.graph.size last := rfl
  obtain ⟨rest, hrest⟩ := h.prefix_above hmem hups hself
  have hchain : p.chain last = run.reverse ++ rest := by
    rw [hreverse, Plan.chain, ← hrest]
    rfl
  -- and nothing is above the first operation
  cases rest with
  | nil => rw [hchain, List.append_nil, List.reverse_reverse]
  | cons x rest =>
    have hup := p.isChain_climb p.graph.size last
    rw [← Plan.chain, hchain, List.isChain_append] at hup
    have ha : p.above? first = some x :=
      hup.2.2 first (by rw [List.getLast?_reverse, hfirst]; rfl) x rfl
    have hin := (hrun.operations first (List.mem_of_head? hfirst)).1
    exact absurd (h.above_iff.mp ⟨hin, ha⟩) (hnone x)

/-- **Every operation is a head or joins a chain.** -/
theorem length_heads (h : Ready p roots order) (hnd : heads.Nodup)
    (hmem : ∀ x, x ∈ heads ↔ p.IsHead order x) :
    heads.length + (p.joints order).length = (order.filter p.graph.isOperation).length := by
  -- what joins a chain has one reader, so no operation is counted twice
  have hfst : ((p.joints order).map Prod.fst).Nodup := by
    refine (p.nodup_joints h.surveys.settled.nodup).map_on ?_
    rintro ⟨x, t⟩ hpair ⟨x', t'⟩ hpair' (rfl : x = x')
    obtain ⟨ht, ha⟩ := Plan.mem_joints.mp hpair
    obtain ⟨ht', ha'⟩ := Plan.mem_joints.mp hpair'
    rw [h.sole_reader ht' ha' ht (Plan.reads_of_above? ha)]
  have hperm : (heads ++ (p.joints order).map Prod.fst).Perm
      (order.filter p.graph.isOperation) := by
    refine (List.perm_ext_iff_of_nodup (List.Nodup.append hnd hfst fun x hx hx' => ?_)
      (h.surveys.settled.nodup.filter _)).mpr fun x => ?_
    · exact ((hmem x).mp hx).2.2 (Plan.mem_map_fst_joints.mp hx')
    · rw [List.mem_append, hmem, Plan.mem_map_fst_joints, List.mem_filter]
      constructor
      · rintro (hhead | ⟨t, ht, ha⟩)
        · exact ⟨hhead.1, hhead.2.1⟩
        · exact h.above_mem ht ha
      · rintro ⟨hx, hop⟩
        by_cases hj : p.Joined order x
        · exact Or.inr hj
        · exact Or.inl ⟨hx, hop, hj⟩
  rw [← hperm.length_eq, List.length_append, List.length_map]

end Ready

/-! ## The statements of a schedule -/

/-- The statement of a head shows the head's chain, from its upper end down. -/
theorem Ready.shows {p : Plan} {roots order : List NodeId} (h : Ready p roots order)
    {head : NodeId} (hhead : p.IsHead order head) {st : Statement} (hst : p.Writes head st) :
    st.Shows p.graph (p.chain head).reverse where
  nonempty := by simp [Plan.chain]
  stages := by
    -- no node of a chain is lost when it is rendered
    have hall : ∀ o ∈ (p.chain head).reverse.map
        (fun x => (p.graph.node? x).bind Node.stage?), o.isSome = true := by
      intro o ho
      obtain ⟨x, hx, rfl⟩ := List.mem_map.mp ho
      exact isSome_stage?_of_isOperation (h.chain_mem hhead (List.mem_reverse.mp hx)).2
    rw [hst.stages, List.filterMap_filterMap, List.map_filterMap_some_eq_filter_map_isSome]
    exact (List.filter_eq_self.mpr hall).symm
  inputs := by
    intro x hx
    rw [List.head?_reverse, p.getLast?_chain, Option.some.injEq] at hx
    subst hx
    exact (forall₂_map_eq (Plan.labels_eq_ok.mp hst.inputs)
      fun e _ l hl => (node?_of_label hl).symm).symm
  outputs := by
    intro l hl
    rw [hst.outputs] at hl
    rw [node?_of_mem_outputLabels hl, List.getLast?_reverse]
    rfl

namespace Plan.Schedules

variable {p : Plan} {roots order heads : List NodeId} {statements : List Statement}
  (hs : p.Schedules order heads statements) (h : Ready p roots order)
include hs h

theorem shown : List.Forall₂ (fun chain st => st.Shows p.graph chain)
    (heads.map fun head => (p.chain head).reverse) statements :=
  List.forall₂_map_left_iff.mpr (forall₂_imp_of_mem hs.written
    fun head hhead _ hst => h.shows ((hs.mem_iff head).mp hhead) hst)

/-- No operation stands in two chains, or twice in one. -/
theorem nodup_chains : (heads.map fun head => (p.chain head).reverse).flatten.Nodup := by
  rw [← List.flatMap_def, List.nodup_flatMap]
  refine ⟨fun head hhead => ?_, hs.once.imp_of_mem fun {a b} ha hb hne x hxa hxb => ?_⟩
  · exact List.nodup_reverse.mpr (h.nodup_climb ((hs.mem_iff head).mp hhead).1)
  · exact hne (h.chain_unique ((hs.mem_iff a).mp ha) ((hs.mem_iff b).mp hb)
      (List.mem_reverse.mp hxa) (List.mem_reverse.mp hxb))

/-- The chains hold the operations that are listed. -/
theorem mem_chains_iff (x : NodeId) :
    x ∈ (heads.map fun head => (p.chain head).reverse).flatten ↔
      x ∈ order ∧ p.graph.isOperation x = true := by
  rw [← List.flatMap_def, List.mem_flatMap]
  constructor
  · rintro ⟨head, hhead, hx⟩
    exact h.chain_mem ((hs.mem_iff head).mp hhead) (List.mem_reverse.mp hx)
  · rintro ⟨hx, hop⟩
    obtain ⟨head, hhead, hmem⟩ := h.exists_head hx hop
    exact ⟨head, (hs.mem_iff head).mpr hhead, List.mem_reverse.mpr hmem⟩

end Plan.Schedules

namespace Passage.Yields

variable {g : Graph} {ms : List Mapping} {roots : List NodeId} {s : Passage g ms roots}
  {heads : List NodeId} {p : Program}

/-- No label is defined for what stands before another operation. -/
theorem node?_ne_of_adjoins (h : s.Yields heads p) {u w : NodeId}
    (ha : s.numbered.Adjoins s.order s.outlets.mappings u w) {l : Label}
    (hl : l ∈ p.defines) : l.node? ≠ some u := by
  rw [h.defines_eq] at hl
  obtain ⟨x, hx, hlabel⟩ := List.mem_flatMap.mp hl
  rw [node?_of_mem_outputLabels hlabel]
  intro heq
  rw [Option.some.injEq] at heq
  subst heq
  -- only heads have labels, and what joins a chain is no head
  exact ((h.schedules.mem_iff x).mp hx).2.2 ⟨w, s.ready.above_iff.mpr ha⟩

/-- **The statements are those of maximal chains.** -/
theorem chained (h : s.Yields heads p) : p.Chained s.numbered s.order s.outlets.mappings
    (heads.map fun head => (s.plan.chain head).reverse) where
  shown := h.schedules.shown s.ready
  once := h.schedules.nodup_chains s.ready
  mem_iff := h.schedules.mem_chains_iff s.ready
  adjacent := by
    intro u w
    refine Iff.trans ?_ (s.ready.pair_infix_iff h.schedules.mem_iff)
    simp only [List.mem_map, exists_exists_and_eq_and]
    refine exists_congr fun head => and_congr_right fun _ => ?_
    rw [← List.reverse_infix, List.reverse_reverse]
    rfl
  count := by
    refine ⟨s.plan.joints s.order, s.plan.nodup_joints s.ready.surveys.settled.nodup,
      fun u w => Plan.mem_joints.trans s.ready.above_iff, ?_⟩
    rw [← h.schedules.written.length_eq]
    exact s.ready.length_heads h.schedules.once h.schedules.mem_iff
  unlabelled := by
    intro u w ha l hl
    rcases List.mem_append.mp hl with hl | hl
    · exact h.node?_ne_of_adjoins ha hl
    · exact h.node?_ne_of_adjoins ha (h.perm_reads.mem_iff.mp hl)
  straight := by
    intro run hrun
    obtain ⟨head, hhead, heq⟩ := s.ready.chain_of_straightRun hrun
    exact List.mem_map.mpr ⟨head, (h.schedules.mem_iff head).mpr hhead, heq⟩

end Passage.Yields

/-! ## Straight runs of the given graph -/

namespace Rerouted

variable {g g' : Graph} {ds : List Detour} {order order' : List NodeId} {ms ms' : List Mapping}
  {u w : NodeId}

theorem feeds_iff (h : Rerouted g ds g') (hu : u.index < g.size) (hw : w.index < g.size)
    (hds : ∀ d ∈ ds, d.node ≠ u) : g'.Feeds u w ↔ g.Feeds u w := by
  have hslots := h.slots hw
  constructor
  · rintro ⟨e', he', hnode⟩
    rw [he'] at hslots
    obtain ⟨e, es, hmoved, hnil, he⟩ := List.forall₂_cons_right_iff.mp hslots
    rw [List.forall₂_nil_right_iff] at hnil
    exact ⟨e, by rw [he, hnil], (moved_reads_iff hu hds hmoved).mpr hnode⟩
  · rintro ⟨e, he, hnode⟩
    rw [he] at hslots
    obtain ⟨e', es', hmoved, hnil, he'⟩ := List.forall₂_cons_left_iff.mp hslots
    rw [List.forall₂_nil_left_iff] at hnil
    exact ⟨e', by rw [he', hnil], (moved_reads_iff hu hds hmoved).mp hnode⟩

/-- Where no detour is made, operations lead to the same readers as before. -/
theorem adjoins_iff (h : Rerouted g ds g') (hu : u.index < g.size) (hw : w.index < g.size)
    (hds : ∀ d ∈ ds, d.node ≠ u) (hsame : w ∈ order' ↔ w ∈ order)
    (huses : usesOf g' order' ms' u = usesOf g order ms u) :
    g'.Adjoins order' ms' u w ↔ g.Adjoins order ms u w := by
  rw [Graph.adjoins_iff, Graph.adjoins_iff, h.feeds_iff hu hw hds, hsame, huses, isOperation,
    h.kind? hu, isOperation, h.kind? hw]
  rfl

end Rerouted

namespace SplitPass

variable {g g' : Graph} {o o' : Outlets} {r r' : Readers} {order order' : List NodeId}
  {u w : NodeId}

theorem adjoins_iff (h : SplitPass g o r order g' o') (hs : Surveys g' o'.roots r' order')
    (hu : u.index < g.size) (hw : w.index < g.size) :
    g'.Adjoins order' o'.mappings u w ↔ g.Adjoins order o.mappings u w := by
  have hsame : w ∈ order' ↔ w ∈ order := by rw [hs.mem_iff, h.reached_old_iff hw]
  by_cases hd : ∃ d ∈ splitDetours g r o, d.node = u
  · obtain ⟨d, hd, rfl⟩ := hd
    refine iff_of_false (fun ha => ?_) fun ha => ?_
    · -- its readers have all been moved to the split
      obtain ⟨i, hi⟩ := List.mem_iff_getElem?.mp hd
      exact h.not_reads_of_split hi (hsame.mp ha.reader.1) ha.slot.reads
    · have hmany := h.two_le_usesOf hd
      rw [ha.only] at hmany
      exact absurd hmany (by decide)
  · have hds : ∀ d ∈ splitDetours g r o, d.node ≠ u := fun d hmem he => hd ⟨d, hmem, he⟩
    refine h.graph.adjoins_iff hu hw hds hsame ?_
    rw [h.usesOf_eq, usesOf, ← hs.count_eq_length, h.count_of_no_split hs hu hds]
    exact congrArg _ (h.outlets.mapped_eq hu hds)

/-- A split stands behind what has several uses. -/
theorem two_le_usesOf_of_adjoins (h : SplitPass g o r order g' o') (hw : ¬ w.index < g.size)
    (ha : g'.Adjoins order' o'.mappings u w) : 2 ≤ usesOf g order o.mappings u := by
  obtain ⟨e, he, hnode⟩ := ha.slot
  obtain ⟨n, hn, hmem⟩ := node?_of_mem_inputs (he ▸ List.mem_singleton_self e)
  obtain ⟨i, d, hd, _, rfl⟩ := h.graph.exists_detour hw hn
  rw [← hnode, List.mem_singleton.mp hmem]
  exact h.two_le_usesOf (List.mem_of_getElem? hd)

/-- A new split leads to several readers. -/
theorem lt_of_adjoins (h : SplitPass g o r order g' o') (hs : Surveys g' o'.roots r' order')
    (ha : g'.Adjoins order' o'.mappings u w) : u.index < g.size := by
  by_contra hu
  obtain ⟨n, hn, _⟩ := node?_of_isOperation ha.operation
  obtain ⟨i, d, hd, rfl, _⟩ := h.graph.exists_detour hu hn
  have hslots := (h.ports_of_split hs hd).length_eq
  have hmappings := congrArg List.length (h.outlets.ports i d hd)
  rw [List.length_map, List.length_range] at hslots
  rw [Plan.length_portOf?, List.length_range'] at hmappings
  have hmany := h.two_le_usesOf (List.mem_of_getElem? hd)
  have honly := ha.only
  obtain ⟨x, _, _, rfl⟩ := h.before.mem_splitDetours.mp (List.mem_of_getElem? hd)
  -- it has one port for each use of the node that it stands behind
  have hports : (splitDetour r o x).moves.length = r.count (splitDetour r o x).node :=
    List.length_zipIdx
  rw [h.usesOf_eq] at hmany
  rw [usesOf, hslots, hmappings, hports] at honly
  omega

end SplitPass

/-- Positions of media files do not matter to what leads where. -/
theorem SameButNumbers.adjoins_iff {g g' : Graph} {order : List NodeId} {ms : List Mapping}
    {u w : NodeId} (h : g.SameButNumbers g') :
    g'.Adjoins order ms u w ↔ g.Adjoins order ms u w := by
  simp only [Graph.adjoins_iff, Feeds, usesOf, slotsReading, h.inputs, h.isOperation]

section Given

variable {g : Graph} {ms : List Mapping} {roots order : List NodeId} {u w x : NodeId}

namespace Approach

/-- Selectors are put behind media files, never behind operations. -/
theorem detour_ne (s : Approach g ms roots) (hop : g.isOperation u = true) :
    ∀ d ∈ selectorDetours g s.r₀, d.node ≠ u := by
  intro d hd hnode
  obtain ⟨key, rfl, hsource, _⟩ := s.selectors.of_mem hd
  have hkey : key = u := hnode
  rw [hkey, isSource_eq_false_of_isOperation hop] at hsource
  exact absurd hsource (by simp)

theorem usesOf_eq (s : Approach g ms roots) (hl : g.Lists roots order)
    (hop : g.isOperation u = true) :
    usesOf s.selected s.order₁ ms u = usesOf g order ms u := by
  obtain ⟨n, hn, _⟩ := node?_of_isOperation hop
  have hlt : ∀ c ∈ order, c.index < g.size := by
    intro c hc
    obtain ⟨m, hm⟩ := (final_of_finalRoots s.final_eq).known c ((hl.2 c).mp hc)
    exact index_lt_of_node? hm
  have hsame : ∀ c, c.index < g.size → (c ∈ s.order₁ ↔ c ∈ order) :=
    fun c hc => (s.mem_order₁_iff hc).trans (hl.2 c).symm
  rw [usesOf, usesOf, s.selectors.graph.slotsReading_length (index_lt_of_node? hn)
    (s.detour_ne hop) hl.1 s.splittable.surveys.settled.nodup hlt hsame]

theorem adjoins_iff (s : Approach g ms roots) (hl : g.Lists roots order)
    (hop : g.isOperation u = true) (hw : w.index < g.size) :
    s.selected.Adjoins s.order₁ ms u w ↔ g.Adjoins order ms u w := by
  obtain ⟨n, hn, _⟩ := node?_of_isOperation hop
  exact s.selectors.graph.adjoins_iff (index_lt_of_node? hn) hw (s.detour_ne hop)
    ((s.mem_order₁_iff hw).trans (hl.2 w).symm) (s.usesOf_eq hl hop)

end Approach

namespace Passage

theorem adjoins_iff (s : Passage g ms roots) (hl : g.Lists roots order)
    (hop : g.isOperation u = true) (hw : w.index < g.size) :
    s.numbered.Adjoins s.order s.outlets.mappings u w ↔ g.Adjoins order ms u w := by
  obtain ⟨n, hn, _⟩ := node?_of_isOperation hop
  rw [SameButNumbers.adjoins_iff s.same, s.splits.adjoins_iff s.surveys
    (s.lt_selected (index_lt_of_node? hn)) (s.lt_selected hw)]
  exact s.toApproach.adjoins_iff hl hop hw

/-- Operations of the given graph that are reached stay operations that are reached. -/
theorem operation_kept (s : Passage g ms roots) (hr : g.Reached roots x)
    (hop : g.isOperation x = true) : x ∈ s.order ∧ s.numbered.isOperation x = true := by
  obtain ⟨n, hn, _⟩ := node?_of_isOperation hop
  have hlt : x.index < g.size := index_lt_of_node? hn
  refine ⟨(s.mem_order_iff hlt).mpr hr, ?_⟩
  rw [s.same.isOperation, isOperation, s.kind?_old hlt]
  exact hop

/-- Operations that are no new splits are those of the given graph. -/
theorem isOperation_given (s : Passage g ms roots) (hx : x.index < s.selected.size)
    (hop : s.numbered.isOperation x = true) : x.index < g.size ∧ g.isOperation x = true := by
  rw [s.same.isOperation, isOperation, s.splits.graph.kind? hx, ← isOperation] at hop
  have hlt := s.selectors.lt_of_isOperation hop
  rw [isOperation, s.selectors.graph.kind? hlt] at hop
  exact ⟨hlt, hop⟩

/-- **A straight run of the given graph stays one**, if its end has no second use. -/
theorem straightRun (s : Passage g ms roots) (hl : g.Lists roots order) {run : List NodeId}
    (h : g.StraightRun order ms run)
    (hlast : ∀ x, run.getLast? = some x → usesOf g order ms x ≤ 1) :
    s.numbered.StraightRun s.order s.outlets.mappings run where
  operations := by
    intro x hx
    obtain ⟨hmem, hop⟩ := h.operations x hx
    exact s.operation_kept ((hl.2 x).mp hmem) hop
  adjoins := by
    refine h.adjoins.imp fun u w ha => ?_
    obtain ⟨n, hn, _⟩ := node?_of_isOperation ha.reader.2
    exact (s.adjoins_iff hl ha.operation (index_lt_of_node? hn)).mpr ha
  first := by
    obtain ⟨x, hx, hnone⟩ := h.first
    obtain ⟨n, hn, _⟩ := node?_of_isOperation (h.operations x (List.mem_of_head? hx)).2
    refine ⟨x, hx, fun u ha => ?_⟩
    -- what leads there only is no new split, so it was there before
    have hu := s.splits.lt_of_adjoins s.surveys ((SameButNumbers.adjoins_iff s.same).mp ha)
    have hop := (s.isOperation_given hu ha.operation).2
    exact hnone u ((s.adjoins_iff hl hop (index_lt_of_node? hn)).mp ha)
  last := by
    obtain ⟨x, hx, hnone⟩ := h.last
    have hop := (h.operations x (List.mem_of_getLast? hx)).2
    refine ⟨x, hx, fun w ha => ?_⟩
    by_cases hw : w.index < s.selected.size
    · have hlt := (s.isOperation_given hw ha.reader.2).1
      exact hnone w ((s.adjoins_iff hl hop hlt).mp ha)
    · -- a new reader would be a split, which stands only behind what is used twice
      have hmany := s.splits.two_le_usesOf_of_adjoins hw ((SameButNumbers.adjoins_iff s.same).mp ha)
      have huses : usesOf s.selected s.order₁ ms x = usesOf g order ms x := s.usesOf_eq hl hop
      rw [huses] at hmany
      have hfew := hlast x hx
      omega

end Passage

end Given

/-- The compilation that led from `g` to `g'` has written its program in maximal chains. A
straight run of `g` is one of them, unless something is split behind it. -/
def WrittenInChains (job : Job) (roots : List NodeId) (g : Graph) (cmd : Command)
    (g' : Graph) : Prop :=
  ∃ (ends : List NodeId) (g₁ : Graph) (added : Nat) (o : Outlets) (g₂ : Graph)
    (order : List NodeId) (p : Program) (chains : List (List NodeId)),
    -- the graph gets its selectors and splits, and the program is written from it
    finalRoots g job.mappings roots = .ok ends ∧ insertSelectors g ends = .ok (g₁, added) ∧
    insertSplits ⟨ends, job.mappings⟩ g₁ = .ok o g₂ ∧ g'.Lists o.roots order ∧
    job.program roots g = .ok p g' ∧
    cmd.args = p.args g' ++ job.options ++ [job.destination] ∧
    p.Chained g' order o.mappings chains ∧
    ∀ order₀ run, g.Lists roots order₀ → g.StraightRun order₀ job.mappings run →
      (∀ x, run.getLast? = some x → usesOf g order₀ job.mappings x ≤ 1) → run ∈ chains

/-- **Maximal chains, every operation once.** -/
theorem compile_writtenInChains {g g' : Graph} {roots : List NodeId} {job : Job} {cmd : Command}
    (hg : Reachable g) (h : job.compile roots g = .ok cmd g') :
    WrittenInChains job roots g cmd g' := by
  obtain ⟨p, hp, hargs⟩ := exists_program h
  obtain ⟨s, heads, rfl, hs⟩ := exists_yields hg.wellFormed hp
  refine ⟨s.ends, s.selected, s.added, s.outlets, s.wired, s.order, p, _, s.final_eq,
    s.selectors_eq, s.splits_eq, s.ready.surveys.lists, hp, hargs, hs.chained,
    fun order₀ run hl hrun hlast => ?_⟩
  exact hs.chained.straight run (s.straightRun hl hrun hlast)

/-- A filter stands with its split in one statement, and its readers have their own ones. -/
theorem compile_writtenInChains_interleaved :
    ∃ cmd g', Job.compile { destination := "out.mp4", mappings := [.output ⟨⟨1⟩, 0⟩] } [⟨3⟩]
        interleaved = .ok cmd g' ∧
      WrittenInChains { destination := "out.mp4", mappings := [.output ⟨⟨1⟩, 0⟩] } [⟨3⟩]
        interleaved cmd g' := by
  obtain ⟨cmd, g', h⟩ := Change.exists_of_succeeds (x := Job.compile
    { destination := "out.mp4", mappings := [.output ⟨⟨1⟩, 0⟩] } [⟨3⟩]) (s := interleaved)
    (by decide +kernel)
  exact ⟨cmd, g', h, compile_writtenInChains built_interleaved.reachable h⟩

end Filtergraph
