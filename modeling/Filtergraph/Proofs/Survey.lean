import Filtergraph.Proofs.Lists
import Filtergraph.Readers

/-!
# The walk records exactly the slots that can be reached

The walk keeps a stack of nodes with slots still to pass. The argument is the usual one
for a depth-first search, told through what has been recorded: of a finished node every
slot, of a node on the stack the slots before its pending ones, of any other node none.
A slot that was passed leads to a finished node, or to the node one frame further in.

So when a node is left, all that it reads is finished already. The finished nodes, the
latest first, are therefore in an order in which every node stands before all it reads.
That order is what the later passes are proved with: it contains exactly the nodes that
the roots reach, it has no cycle, and one can induct along it.
-/

namespace Filtergraph

/-- The slots of a node, as the walk records them. -/
def Graph.slotReads (g : Graph) (c : NodeId) : List Read :=
  (g.inputs c).map fun e => ⟨e.node, c⟩

/-- Every node of the list stands in it once, and before all that it reads. -/
def Settled (g : Graph) : List NodeId → Prop
  | [] => True
  | n :: rest => n ∉ rest ∧ (∀ e ∈ g.inputs n, e.node ∈ rest) ∧ Settled g rest

namespace Settled

variable {g : Graph} {order : List NodeId}

theorem nodup (h : Settled g order) : order.Nodup := by
  induction order with
  | nil => exact List.nodup_nil
  | cons n rest ih => exact List.nodup_cons.mpr ⟨h.1, ih h.2.2⟩

theorem closed (h : Settled g order) {c x : NodeId} (hc : c ∈ order) (hr : g.Reads c x) :
    x ∈ order := by
  -- what a node reads stands behind it, so it is found in the tail
  induction order with
  | nil => exact absurd hc (by simp)
  | cons n rest ih =>
    rcases List.mem_cons.mp hc with rfl | hc
    · obtain ⟨e, he, rfl⟩ := hr
      exact List.mem_cons_of_mem _ (h.2.1 e he)
    · exact List.mem_cons_of_mem _ (ih h.2.2 hc)

/-- All readers of a node stand before it. -/
theorem reader_before {pre post : List NodeId} {x c : NodeId}
    (h : Settled g (pre ++ x :: post)) (hc : c ∈ pre ++ x :: post) (hr : g.Reads c x) :
    c ∈ pre := by
  induction pre with
  | nil =>
    exfalso
    rw [List.nil_append] at h hc
    -- the reader is `x` itself or comes later: in both cases `x` stands twice
    rcases List.mem_cons.mp hc with rfl | hc
    · obtain ⟨e, he, hx⟩ := hr
      exact h.1 (hx ▸ h.2.1 e he)
    · exact h.1 (closed h.2.2 hc hr)
  | cons n pre ih =>
    rcases List.mem_cons.mp hc with rfl | hc
    · exact List.mem_cons_self
    · exact List.mem_cons_of_mem _ (ih h.2.2 hc)

/-- All that a node reads stands behind it. -/
theorem mem_of_reads {pre post : List NodeId} {c x : NodeId} (h : Settled g (pre ++ c :: post))
    (hr : g.Reads c x) : x ∈ post := by
  induction pre with
  | nil =>
    obtain ⟨e, he, rfl⟩ := hr
    exact h.2.1 e he
  | cons n pre ih => exact ih h.2.2

/-- Induction from the readers down: `P` holds of a node once it holds of its readers. -/
theorem induction_readers (h : Settled g order) {P : NodeId → Prop}
    (hstep : ∀ x ∈ order, (∀ c ∈ order, g.Reads c x → P c) → P x) : ∀ x ∈ order, P x := by
  -- on the number of nodes that stand before `x`: all its readers are among them
  have hall : ∀ (k : Nat) (pre : List NodeId) (x : NodeId) (post : List NodeId),
      pre.length = k → order = pre ++ x :: post → P x := by
    intro k
    induction k using Nat.strong_induction_on with
    | _ k ih =>
      intro pre x post hk horder
      subst horder
      refine hstep x (by simp) fun c hc hr => ?_
      obtain ⟨pre₁, pre₂, rfl⟩ := List.append_of_mem (h.reader_before hc hr)
      have hlt : pre₁.length < k := by
        rw [← hk, List.length_append, List.length_cons]
        omega
      exact ih _ hlt pre₁ c (pre₂ ++ x :: post) rfl (by simp)
  intro x hx
  obtain ⟨pre, post, horder⟩ := List.append_of_mem hx
  exact hall _ pre x post rfl horder

/-- Nodes get a height that every slot lowers. -/
theorem exists_height (h : Settled g order) :
    ∃ height : NodeId → Nat, ∀ c ∈ order, ∀ x, g.Reads c x → height x < height c := by
  induction order with
  | nil => exact ⟨fun _ => 0, fun c hc => absurd hc (by simp)⟩
  | cons n rest ih =>
    obtain ⟨height, hh⟩ := ih h.2.2
    -- the new node is put above all the others
    refine ⟨fun x => if x = n then (rest.map height).sum + 1 else height x, ?_⟩
    have hne : ∀ x ∈ rest, x ≠ n := fun x hx he => h.1 (he ▸ hx)
    intro c hc x hr
    rcases List.mem_cons.mp hc with rfl | hc
    · obtain ⟨e, he, rfl⟩ := hr
      have hmem := h.2.1 e he
      have hle : height e.node ≤ (rest.map height).sum :=
        List.single_le_sum (fun y _ => Nat.zero_le y) _ (List.mem_map_of_mem hmem)
      simp only [if_neg (hne _ hmem), if_true]
      omega
    · simp only [if_neg (hne c hc), if_neg (hne x (closed h.2.2 hc hr))]
      exact hh c hc x hr

/-- A settled node does not read itself, directly or through others. -/
theorem not_onCycle (h : Settled g order) {x : NodeId} (hx : x ∈ order) : ¬ g.OnCycle x := by
  obtain ⟨height, hh⟩ := h.exists_height
  have hpath : ∀ y, Relation.TransGen g.Reads x y → y ∈ order ∧ height y < height x := by
    intro y hy
    induction hy with
    | single hr => exact ⟨h.closed hx hr, hh x hx _ hr⟩
    | tail _ hr ih => exact ⟨h.closed ih.1 hr, Nat.lt_trans (hh _ ih.1 _ hr) ih.2⟩
  intro hcyc
  exact Nat.lt_irrefl _ (hpath x hcyc).2

end Settled

/-! ## Slots that read a node -/

namespace Graph

/-- The slots of some nodes that read `x`. -/
def slotsReading (g : Graph) (cs : List NodeId) (x : NodeId) : List Edge :=
  cs.flatMap fun c => (g.inputs c).filter (·.node = x)

variable {g : Graph} {cs ds : List NodeId} {x : NodeId}

theorem slotsReading_append (g : Graph) (cs ds : List NodeId) (x : NodeId) :
    g.slotsReading (cs ++ ds) x = g.slotsReading cs x ++ g.slotsReading ds x :=
  List.flatMap_append

theorem slotsReading_perm (h : cs.Perm ds) : (g.slotsReading cs x).Perm (g.slotsReading ds x) :=
  h.flatMap_right _

/-- More nodes have at least as many slots that read a node. -/
theorem slotsReading_length_le (hnd : cs.Nodup) (hsub : cs ⊆ ds) :
    (g.slotsReading cs x).length ≤ (g.slotsReading ds x).length := by
  obtain ⟨cs', hperm, hsublist⟩ := List.subperm_of_subset hnd hsub
  obtain ⟨rest, hrest⟩ := hsublist.exists_perm_append
  rw [← (slotsReading_perm hperm).length_eq, (slotsReading_perm hrest).length_eq,
    slotsReading_append, List.length_append]
  exact Nat.le_add_right _ _

/-- If some nodes have all the slots that read `x`, all its readers are among them. -/
theorem mem_of_length_le (hnd : cs.Nodup) (hsub : cs ⊆ ds)
    (hle : (g.slotsReading ds x).length ≤ (g.slotsReading cs x).length) {c : NodeId} (hc : c ∈ ds)
    (hr : g.Reads c x) : c ∈ cs := by
  by_contra hout
  have hmore : (g.slotsReading (c :: cs) x).length ≤ (g.slotsReading ds x).length :=
    slotsReading_length_le (List.nodup_cons.mpr ⟨hout, hnd⟩) (List.cons_subset.mpr ⟨hc, hsub⟩)
  obtain ⟨e, he, rfl⟩ := hr
  have hpos : 0 < ((g.inputs c).filter (·.node = e.node)).length :=
    List.length_pos_of_mem (List.mem_filter.mpr ⟨he, by simp⟩)
  rw [slotsReading, List.flatMap_cons, List.length_append, ← slotsReading] at hmore
  omega

theorem filter_inputs_eq_nil {c : NodeId} (h : ¬ g.Reads c x) :
    (g.inputs c).filter (·.node = x) = [] := by
  rw [List.filter_eq_nil_iff]
  intro e he hx
  exact h ⟨e, he, of_decide_eq_true hx⟩

theorem slotsReading_eq_nil (h : ∀ c ∈ cs, ¬ g.Reads c x) : g.slotsReading cs x = [] :=
  List.flatMap_eq_nil_iff.mpr fun c hc => filter_inputs_eq_nil (h c hc)

end Graph

/-- What can stop a walk from the roots, by the error that it gives. -/
inductive Graph.Obstacle (g : Graph) (roots : List NodeId) : GraphError → Prop where
  | missing {x : NodeId} (hx : g.Reached roots x) (hnone : g.node? x = none) :
    Obstacle g roots (.nodeNotFound x)
  | cycle {x : NodeId} (hx : g.Reached roots x) (hcycle : g.OnCycle x) :
    Obstacle g roots (.cycle x)

/-! ## What one step can do -/

namespace Walk

open Filtergraph.Graph

/-- The slots of `c` recorded so far, in the order of passing. -/
def recorded (w : Walk) (c : NodeId) : List Read :=
  w.reads.reverse.filter (·.consumer = c)

/-- The nodes on the stack and the finished ones. -/
def seen (w : Walk) : List NodeId :=
  w.stack.map Frame.node ++ w.finished

variable {g : Graph} {w w' : Walk}

theorem any_frame_iff {stack : List Frame} {x : NodeId} :
    stack.any (·.node = x) = true ↔ x ∈ stack.map Frame.node := by
  simp only [List.any_eq_true, decide_eq_true_eq, List.mem_map]

/-- A step leaves the innermost node, passes a slot to a finished node, or passes a slot
and enters the node that it reads. -/
theorem step_cases (h : w.step g = .ok w') (hne : w.stack ≠ []) :
    (∃ node outer, w.stack = ⟨node, []⟩ :: outer ∧
      w' = { w with stack := outer, finished := node :: w.finished }) ∨
    (∃ node edge pending outer, w.stack = ⟨node, edge :: pending⟩ :: outer ∧
      edge.node ∈ w.finished ∧
      w' = { w with stack := ⟨node, pending⟩ :: outer, reads := ⟨edge.node, node⟩ :: w.reads }) ∨
    (∃ node edge pending outer producer, w.stack = ⟨node, edge :: pending⟩ :: outer ∧
      g.node? edge.node = some producer ∧ edge.node ∉ w.seen ∧
      w' = { w with
        stack := ⟨edge.node, producer.inputs⟩ :: ⟨node, pending⟩ :: outer
        reads := ⟨edge.node, node⟩ :: w.reads }) := by
  unfold step at h
  -- along the code of the step: no frame, no slot left, or a slot to pass
  split at h
  · exact absurd ‹_› hne
  · rename_i node outer hstack
    injection h with h
    exact Or.inl ⟨node, outer, hstack, h.symm⟩
  · rename_i node edge pending outer hstack
    split at h
    · exact absurd h (by simp)
    · rename_i producer hprod
      dsimp only at h
      split at h
      · exact absurd h (by simp)
      · rename_i hoff
        split at h
        · injection h with h
          exact Or.inr (Or.inl ⟨node, edge, pending, outer, hstack, ‹_›, h.symm⟩)
        · rename_i hfin
          injection h with h
          refine Or.inr (Or.inr ⟨node, edge, pending, outer, producer, hstack, hprod, ?_, h.symm⟩)
          -- the stack that was searched differs from the old one in pending slots only
          rw [any_frame_iff, List.map_cons] at hoff
          rw [seen, hstack, List.map_cons, List.mem_append, not_or]
          exact ⟨hoff, hfin⟩

/-- A step fails at a slot that reads a missing node or a node on the stack. -/
theorem step_error {e : GraphError} (h : w.step g = .error e) :
    ∃ node edge pending outer, w.stack = ⟨node, edge :: pending⟩ :: outer ∧
      ((g.node? edge.node = none ∧ e = .nodeNotFound edge.node) ∨
        (edge.node ∈ w.stack.map Frame.node ∧ e = .cycle edge.node)) := by
  unfold step at h
  split at h
  · exact absurd h (by simp)
  · exact absurd h (by simp)
  · rename_i node edge pending outer hstack
    refine ⟨node, edge, pending, outer, hstack, ?_⟩
    split at h
    · rename_i hnone
      injection h with h
      exact Or.inl ⟨hnone, h.symm⟩
    · dsimp only at h
      split at h
      · rename_i hon
        injection h with h
        rw [any_frame_iff, List.map_cons] at hon
        rw [hstack, List.map_cons]
        exact Or.inr ⟨hon, h.symm⟩
      · split at h
        · exact absurd h (by simp)
        · exact absurd h (by simp)

/-! ## The invariant of a walk -/

/-- What a node on the stack has passed is finished, except that each node but the
innermost is waiting for the one inside. -/
def Linked (g : Graph) (w : Walk) : Option NodeId → List Frame → Prop
  | _, [] => True
  | inside, f :: outer =>
    (∀ r ∈ w.recorded f.node, r.producer ∈ w.finished ∨ inside = some r.producer) ∧
    (∀ n, inside = some n → g.Reads f.node n) ∧ Linked g w (some f.node) outer

/-- The state of a walk from some roots. -/
structure Sound (g : Graph) (roots : List NodeId) (w : Walk) : Prop where
  /-- Finished nodes stand before all that they read. -/
  settled : Settled g w.finished
  /-- No node is seen twice. -/
  apart : w.seen.Nodup
  /-- Only what the roots reach is seen. -/
  reached : ∀ x ∈ w.seen, g.Reached roots x
  /-- What is seen exists. -/
  known : ∀ x ∈ w.seen, ∃ n, g.node? x = some n
  /-- Passed slots lead to finished nodes or one frame further in. -/
  linked : Linked g w none w.stack
  /-- All slots of a finished node are recorded. -/
  whole : ∀ c ∈ w.finished, w.recorded c = g.slotReads c
  /-- Of a node on the stack all but the pending slots are recorded. -/
  partly : ∀ f ∈ w.stack,
    w.recorded f.node ++ f.pending.map (fun e => ⟨e.node, f.node⟩) = g.slotReads f.node
  /-- Of a node not seen no slot is recorded. -/
  absent : ∀ c, c ∉ w.seen → w.recorded c = []

theorem recorded_cons (stack : List Frame) (finished : List NodeId) (r : Read) (reads : List Read)
    (c : NodeId) : recorded ⟨stack, finished, r :: reads⟩ c
      = recorded ⟨stack, finished, reads⟩ c ++ if r.consumer = c then [r] else [] := by
  simp only [recorded, List.reverse_cons, List.filter_append, List.filter_cons, List.filter_nil,
    decide_eq_true_eq]

/-- Linkage only looks at what was recorded and what is finished, so more of the latter
does no harm. -/
theorem Linked.mono {w₁ w₂ : Walk} {inside : Option NodeId} {stack : List Frame}
    (h : Linked g w₁ inside stack) (hrec : ∀ f ∈ stack, w₂.recorded f.node = w₁.recorded f.node)
    (hfin : ∀ x ∈ w₁.finished, x ∈ w₂.finished) : Linked g w₂ inside stack := by
  induction stack generalizing inside with
  | nil => trivial
  | cons f outer ih =>
    refine ⟨?_, h.2.1, ih h.2.2 fun f' hf' => hrec f' (List.mem_cons_of_mem _ hf')⟩
    intro r hr
    rw [hrec f List.mem_cons_self] at hr
    exact (h.1 r hr).imp (hfin _) id

/-- Every node on the stack leads to the one inside of it. -/
theorem Linked.path {inside : NodeId} {stack : List Frame} (h : Linked g w (some inside) stack)
    {f : Frame} (hf : f ∈ stack) : Relation.TransGen g.Reads f.node inside := by
  induction stack generalizing inside with
  | nil => exact absurd hf (by simp)
  | cons f' outer ih =>
    have hread := h.2.1 inside rfl
    rcases List.mem_cons.mp hf with rfl | hf
    · exact .single hread
    · exact (ih h.2.2 hf).tail hread

section Moves

variable {roots : List NodeId} {node : NodeId} {edge : Edge} {pending : List Edge}
  {outer : List Frame} {finished : List NodeId} {reads : List Read}

theorem Sound.reads_pending (h : Sound g roots w) {f : Frame} (hf : f ∈ w.stack) {e : Edge}
    (he : e ∈ f.pending) : g.Reads f.node e.node := by
  have hmem : (⟨e.node, f.node⟩ : Read) ∈ g.slotReads f.node := by
    rw [← h.partly f hf]
    exact List.mem_append_right _ (List.mem_map.mpr ⟨e, he, rfl⟩)
  obtain ⟨e', he', heq⟩ := List.mem_map.mp hmem
  exact ⟨e', he', congrArg Read.producer heq⟩

/-- Leaving a node that has no slots left. -/
theorem Sound.leave (h : Sound g roots ⟨⟨node, []⟩ :: outer, finished, reads⟩) :
    Sound g roots ⟨outer, node :: finished, reads⟩ := by
  have hapart : (node :: (outer.map Frame.node ++ finished)).Nodup := h.apart
  have hnode : node ∉ outer.map Frame.node ++ finished := (List.nodup_cons.mp hapart).1
  have hperm : (outer.map Frame.node ++ node :: finished).Perm
      (node :: (outer.map Frame.node ++ finished)) := List.perm_middle
  have hall : recorded ⟨⟨node, []⟩ :: outer, finished, reads⟩ node = g.slotReads node := by
    have := h.partly ⟨node, []⟩ List.mem_cons_self
    simpa using this
  constructor
  case settled =>
    refine ⟨fun hmem => hnode (List.mem_append_right _ hmem), ?_, h.settled⟩
    -- all slots of the node were passed, and there is no frame further in
    intro e he
    have hrec : (⟨e.node, node⟩ : Read) ∈ recorded ⟨⟨node, []⟩ :: outer, finished, reads⟩ node := by
      rw [hall]
      exact List.mem_map.mpr ⟨e, he, rfl⟩
    rcases h.linked.1 _ hrec with hfin | hin
    · exact hfin
    · exact absurd hin (by simp)
  case apart => exact hperm.nodup_iff.mpr hapart
  case reached => exact fun x hx => h.reached x (hperm.mem_iff.mp hx)
  case known => exact fun x hx => h.known x (hperm.mem_iff.mp hx)
  case linked =>
    cases outer with
    | nil => trivial
    | cons f outer =>
      have hlinked := h.linked.2.2
      refine ⟨?_, by simp, hlinked.2.2.mono (fun _ _ => rfl) fun x hx =>
        List.mem_cons_of_mem _ hx⟩
      intro r hr
      rcases hlinked.1 r hr with hfin | hin
      · exact Or.inl (List.mem_cons_of_mem _ hfin)
      -- the frame further out was waiting for the node that is finished now
      · injection hin with hin
        exact Or.inl (hin ▸ List.mem_cons_self)
  case whole =>
    intro c hc
    rcases List.mem_cons.mp hc with rfl | hc
    · exact hall
    · exact h.whole c hc
  case partly => exact fun f hf => h.partly f (List.mem_cons_of_mem _ hf)
  case absent => exact fun c hc => h.absent c fun hmem => hc (hperm.mem_iff.mpr hmem)

/-- What is recorded once the first pending slot has been passed. -/
theorem recorded_advance (h : Sound g roots ⟨⟨node, edge :: pending⟩ :: outer, finished, reads⟩)
    (stack : List Frame) :
    (∀ c ∈ finished, recorded ⟨stack, finished, ⟨edge.node, node⟩ :: reads⟩ c = g.slotReads c) ∧
    (∀ f ∈ ⟨node, pending⟩ :: outer,
      recorded ⟨stack, finished, ⟨edge.node, node⟩ :: reads⟩ f.node
        ++ f.pending.map (fun e => ⟨e.node, f.node⟩) = g.slotReads f.node) ∧
    (∀ c, c ∉ node :: (outer.map Frame.node ++ finished) →
      recorded ⟨stack, finished, ⟨edge.node, node⟩ :: reads⟩ c = []) ∧
    (∀ f ∈ outer, recorded ⟨stack, finished, ⟨edge.node, node⟩ :: reads⟩ f.node
      = recorded ⟨⟨node, edge :: pending⟩ :: outer, finished, reads⟩ f.node) := by
  have hapart : (node :: (outer.map Frame.node ++ finished)).Nodup := h.apart
  have hnode := (List.nodup_cons.mp hapart).1
  have hother : ∀ c, c ≠ node → recorded ⟨stack, finished, ⟨edge.node, node⟩ :: reads⟩ c
      = recorded ⟨⟨node, edge :: pending⟩ :: outer, finished, reads⟩ c := by
    intro c hc
    rw [recorded_cons, if_neg (Ne.symm hc), List.append_nil]
    rfl
  have hne : ∀ f ∈ outer, f.node ≠ node := by
    intro f hf he
    exact hnode (List.mem_append_left _ (he ▸ List.mem_map_of_mem hf))
  refine ⟨?_, ?_, ?_, ?_⟩
  · intro c hc
    rw [hother c fun he => hnode (List.mem_append_right _ (he ▸ hc))]
    exact h.whole c hc
  · intro f hf
    rcases List.mem_cons.mp hf with rfl | hf
    · have hpart := h.partly ⟨node, edge :: pending⟩ List.mem_cons_self
      rw [recorded_cons, if_pos rfl, List.append_assoc]
      exact hpart
    · rw [hother _ (hne f hf)]
      exact h.partly f (List.mem_cons_of_mem _ hf)
  · intro c hc
    rw [hother c fun he => hc (he ▸ List.mem_cons_self)]
    exact h.absent c hc
  · exact fun f hf => hother _ (hne f hf)

/-- The frame that passes a slot: all it passed is finished or is what it just read. -/
theorem Sound.producers_advance
    (h : Sound g roots ⟨⟨node, edge :: pending⟩ :: outer, finished, reads⟩) (stack : List Frame)
    {r : Read} (hr : r ∈ recorded ⟨stack, finished, ⟨edge.node, node⟩ :: reads⟩ node) :
    r.producer ∈ finished ∨ r.producer = edge.node := by
  rw [recorded_cons, if_pos rfl] at hr
  rcases List.mem_append.mp hr with hr | hr
  · rcases h.linked.1 r hr with hfin | hin
    · exact Or.inl hfin
    · exact absurd hin (by simp)
  · rw [List.mem_singleton.mp hr]
    exact Or.inr rfl

/-- Passing a slot that reads a finished node. -/
theorem Sound.pass (h : Sound g roots ⟨⟨node, edge :: pending⟩ :: outer, finished, reads⟩)
    (hfin : edge.node ∈ finished) :
    Sound g roots ⟨⟨node, pending⟩ :: outer, finished, ⟨edge.node, node⟩ :: reads⟩ := by
  obtain ⟨hwhole, hpartly, habsent, hsame⟩ := recorded_advance h (⟨node, pending⟩ :: outer)
  refine ⟨h.settled, h.apart, h.reached, h.known, ?_, hwhole, hpartly, habsent⟩
  refine ⟨?_, by simp, h.linked.2.2.mono hsame fun _ hx => hx⟩
  intro r hr
  rcases h.producers_advance _ hr with hr | hr
  · exact Or.inl hr
  · exact Or.inl (hr ▸ hfin)

/-- Passing a slot and entering the node that it reads. -/
theorem Sound.enter {producer : Node}
    (h : Sound g roots ⟨⟨node, edge :: pending⟩ :: outer, finished, reads⟩)
    (hprod : g.node? edge.node = some producer)
    (hnew : edge.node ∉ node :: (outer.map Frame.node ++ finished)) :
    Sound g roots ⟨⟨edge.node, producer.inputs⟩ :: ⟨node, pending⟩ :: outer, finished,
      ⟨edge.node, node⟩ :: reads⟩ := by
  obtain ⟨hwhole, hpartly, habsent, hsame⟩ :=
    recorded_advance h (⟨edge.node, producer.inputs⟩ :: ⟨node, pending⟩ :: outer)
  have hread : g.Reads node edge.node :=
    h.reads_pending (f := ⟨node, edge :: pending⟩) List.mem_cons_self List.mem_cons_self
  constructor
  case settled => exact h.settled
  case apart => exact List.nodup_cons.mpr ⟨hnew, h.apart⟩
  case reached =>
    intro x hx
    rcases List.mem_cons.mp hx with rfl | hx
    · exact (h.reached node List.mem_cons_self).reads hread
    · exact h.reached x hx
  case known =>
    intro x hx
    rcases List.mem_cons.mp hx with rfl | hx
    · exact ⟨producer, hprod⟩
    · exact h.known x hx
  case linked =>
    refine ⟨?_, by simp, ?_, ?_, h.linked.2.2.mono hsame fun _ hx => hx⟩
    · intro r hr
      rw [habsent _ hnew] at hr
      exact absurd hr (by simp)
    · intro r hr
      rcases h.producers_advance _ hr with hr | hr
      · exact Or.inl hr
      · exact Or.inr (by rw [hr])
    · intro n hn
      injection hn with hn
      exact hn ▸ hread
  case whole => exact hwhole
  case partly =>
    intro f hf
    rcases List.mem_cons.mp hf with rfl | hf
    · rw [habsent _ hnew, List.nil_append, Graph.slotReads, Graph.inputs_of_node? hprod]
    · exact hpartly f hf
  case absent =>
    intro c hc
    exact habsent c fun hmem => hc (List.mem_cons_of_mem _ hmem)

end Moves

theorem seen_step (h : w.step g = .ok w') (hne : w.stack ≠ []) {x : NodeId} (hx : x ∈ w.seen) :
    x ∈ w'.seen := by
  rcases step_cases h hne with ⟨node, outer, hstack, rfl⟩ |
    ⟨node, edge, pending, outer, hstack, hfin, rfl⟩ |
    ⟨node, edge, pending, outer, producer, hstack, hprod, hnew, rfl⟩
  · simp only [seen, hstack, List.map_cons, List.mem_append, List.mem_cons] at hx ⊢
    tauto
  · simp only [seen, hstack, List.map_cons, List.mem_append, List.mem_cons] at hx ⊢
    tauto
  · simp only [seen, hstack, List.map_cons, List.mem_append, List.mem_cons] at hx ⊢
    tauto

/-- A step that fails has met an obstacle: where it would go back to the stack, the stack is the
way round. -/
theorem Sound.step_error {roots : List NodeId} {e : GraphError} (hs : Sound g roots w)
    (h : w.step g = .error e) :
    g.Obstacle roots e := by
  obtain ⟨node, edge, pending, outer, hstack, hwhy⟩ := Walk.step_error h
  have hf : ⟨node, edge :: pending⟩ ∈ w.stack := by rw [hstack]; exact List.mem_cons_self
  have hread : g.Reads node edge.node := hs.reads_pending hf List.mem_cons_self
  have hreach : g.Reached roots edge.node :=
    (hs.reached node (List.mem_append_left _ (List.mem_map.mpr ⟨_, hf, rfl⟩))).reads hread
  rcases hwhy with ⟨hnone, rfl⟩ | ⟨hon, rfl⟩
  · exact .missing hreach hnone
  · refine .cycle hreach ?_
    have hlinked := hs.linked
    rw [hstack] at hlinked hon
    -- the node that is read stands on the stack, so it leads to the innermost one
    rcases List.mem_cons.mp hon with heq | hout
    · rw [heq] at hread ⊢
      exact .single hread
    · obtain ⟨f, hf, hfn⟩ := List.mem_map.mp hout
      have hpath := hlinked.2.2.path hf
      rw [hfn] at hpath
      exact hpath.tail hread

/-- **Every step keeps the invariant.** -/
theorem Sound.step {roots : List NodeId} (hs : Sound g roots w) (h : w.step g = .ok w')
    (hne : w.stack ≠ []) : Sound g roots w' := by
  obtain ⟨stack, finished, reads⟩ := w
  rcases step_cases h hne with ⟨node, outer, hstack, rfl⟩ |
    ⟨node, edge, pending, outer, hstack, hfin, rfl⟩ |
    ⟨node, edge, pending, outer, producer, hstack, hprod, hnew, rfl⟩
  · dsimp only at hstack; subst hstack
    exact hs.leave
  · dsimp only at hstack; subst hstack
    exact hs.pass hfin
  · dsimp only at hstack; subst hstack
    exact hs.enter hprod hnew

/-! ## Walks end -/

/-- Slots passed and nodes left so far. -/
def passed (w : Walk) : Nat := w.reads.length + w.finished.length

/-- Every step passes a slot or leaves a node. -/
theorem passed_step (h : w.step g = .ok w') (hne : w.stack ≠ []) :
    w'.passed = w.passed + 1 := by
  rcases step_cases h hne with ⟨_, _, _, rfl⟩ | ⟨_, _, _, _, _, _, rfl⟩ |
    ⟨_, _, _, _, _, _, _, _, rfl⟩
  · simp only [passed, List.length_cons]; omega
  · simp only [passed, List.length_cons]; omega
  · simp only [passed, List.length_cons]; omega

/-- Of a node that was seen no more slots are recorded than it has. -/
theorem Sound.recorded_length_le {roots : List NodeId} (h : Sound g roots w) {c : NodeId}
    (hc : c ∈ w.seen) : (w.recorded c).length ≤ (g.inputs c).length := by
  have hslots : (g.slotReads c).length = (g.inputs c).length := List.length_map _
  rcases List.mem_append.mp hc with hc | hc
  · obtain ⟨f, hf, rfl⟩ := List.mem_map.mp hc
    rw [← hslots, ← h.partly f hf, List.length_append]
    omega
  · rw [h.whole c hc, hslots]

/-- A walk that goes on has not used up its bound. -/
theorem Sound.passed_lt_bound {roots : List NodeId} (h : Sound g roots w) (hne : w.stack ≠ []) :
    w.passed < bound g := by
  have hcover : ∀ r ∈ w.reads.reverse, r.consumer ∈ w.seen := by
    intro r hr
    by_contra hc
    have hmem : r ∈ w.recorded r.consumer := List.mem_filter.mpr ⟨hr, by simp⟩
    rw [h.absent _ hc] at hmem
    exact absurd hmem (by simp)
  -- so the record is as long as the slots recorded of each node seen, put together
  have hreads : w.reads.length = (w.seen.map fun c => (w.recorded c).length).sum := by
    have hperm := perm_flatMap_filter Read.consumer w.reads.reverse h.apart hcover
    have hlen := hperm.length_eq
    rw [List.length_flatMap, List.length_reverse] at hlen
    exact hlen.symm
  have hslots : (w.seen.map fun c => (w.recorded c).length).sum
      ≤ (w.seen.map fun c => (g.inputs c).length).sum :=
    List.sum_le_sum fun c hc => h.recorded_length_le hc
  have hall : (w.seen.map fun c => (g.inputs c).length + 1).sum ≤ bound g :=
    Graph.sum_inputs_le (fun es => es.length + 1) h.apart h.known
  have hsplit : (w.seen.map fun c => (g.inputs c).length + 1).sum
      = (w.seen.map fun c => (g.inputs c).length).sum + w.seen.length := by
    rw [List.sum_map_add]
    simp
  -- a node on the stack is seen and not finished, which makes the bound strict
  have hfin : w.finished.length < w.seen.length := by
    rw [seen, List.length_append, List.length_map]
    have := List.length_pos_of_ne_nil hne
    omega
  unfold passed
  omega

variable {roots : List NodeId}

/-- A run that succeeds keeps the invariant and what was seen, and empties the stack. -/
theorem Sound.run {fuel : Nat} (hs : Sound g roots w) (hfuel : bound g ≤ w.passed + fuel)
    (h : w.run g fuel = .ok w') :
    Sound g roots w' ∧ w'.stack = [] ∧ ∀ x ∈ w.seen, x ∈ w'.seen := by
  -- the bound is never used up, so the run ends because the stack is empty
  induction fuel generalizing w with
  | zero =>
    injection h with h
    subst h
    refine ⟨hs, ?_, fun x hx => hx⟩
    by_contra hne
    have := hs.passed_lt_bound hne
    omega
  | succ fuel ih =>
    unfold Walk.run at h
    cases hstack : w.stack with
    | nil =>
      rw [hstack] at h
      injection h with h
      subst h
      exact ⟨hs, hstack, fun x hx => hx⟩
    | cons f outer =>
      rw [hstack] at h
      have hne : w.stack ≠ [] := by rw [hstack]; exact List.cons_ne_nil _ _
      obtain ⟨w₁, hstep, hrun⟩ := except_bind_eq_ok.mp h
      have hpassed := passed_step hstep hne
      obtain ⟨hs', hnil, hmono⟩ := ih (hs.step hstep hne) (by omega) hrun
      exact ⟨hs', hnil, fun x hx => hmono x (seen_step hstep hne hx)⟩

theorem Sound.run_error {fuel : Nat} {e : GraphError} (hs : Sound g roots w)
    (h : w.run g fuel = .error e) :
    g.Obstacle roots e := by
  induction fuel generalizing w with
  | zero => exact absurd h (by simp [Walk.run])
  | succ fuel ih =>
    unfold Walk.run at h
    cases hstack : w.stack with
    | nil => rw [hstack] at h; exact absurd h (by simp)
    | cons f outer =>
      rw [hstack] at h
      have hne : w.stack ≠ [] := by rw [hstack]; exact List.cons_ne_nil _ _
      rcases except_bind_eq_error.mp h with hstep | ⟨w₁, hstep, hrun⟩
      · exact hs.step_error hstep
      · exact ih (hs.step hstep hne) hrun

/-! ## Walking from one root after another -/

theorem sound_start (g : Graph) (roots : List NodeId) : Sound g roots {} where
  settled := trivial
  apart := List.nodup_nil
  reached := by intro x hx; exact absurd hx (by simp [seen])
  known := by intro x hx; exact absurd hx (by simp [seen])
  linked := trivial
  whole := by intro c hc; exact absurd hc (by simp)
  partly := by intro f hf; exact absurd hf (by simp)
  absent := by intro c _; rfl

/-- Between two roots the stack is empty, and the next root may be put on it. -/
theorem Sound.open (hs : Sound g roots w) (hnil : w.stack = []) {root : NodeId} {node : Node}
    (hroot : root ∈ roots) (hnode : g.node? root = some node) (hnew : root ∉ w.finished) :
    Sound g roots { w with stack := [⟨root, node.inputs⟩] } := by
  have hseen : w.seen = w.finished := by rw [seen, hnil]; rfl
  have hrec : w.recorded root = [] := hs.absent root (by rwa [hseen])
  constructor
  case settled => exact hs.settled
  case apart => exact List.nodup_cons.mpr ⟨hnew, hseen ▸ hs.apart⟩
  case reached =>
    intro x hx
    rcases List.mem_cons.mp hx with rfl | hx
    · exact .root hroot
    · exact hs.reached x (hseen ▸ hx)
  case known =>
    intro x hx
    rcases List.mem_cons.mp hx with rfl | hx
    · exact ⟨node, hnode⟩
    · exact hs.known x (hseen ▸ hx)
  case linked =>
    refine ⟨fun r hr => ?_, by simp, trivial⟩
    have hr : r ∈ w.recorded root := hr
    rw [hrec] at hr
    exact absurd hr (by simp)
  case whole => exact hs.whole
  case partly =>
    intro f hf
    rw [List.mem_singleton.mp hf]
    show w.recorded root ++ _ = _
    rw [hrec, List.nil_append, slotReads, inputs_of_node? hnode]
  case absent =>
    intro c hc
    exact hs.absent c fun hmem => hc (List.mem_cons_of_mem _ (hseen ▸ hmem))

/-- A walk from one more root finishes that root, and keeps what was finished. -/
theorem Sound.addRoot (hs : Sound g roots w) (hnil : w.stack = []) {root : NodeId}
    (hroot : root ∈ roots) (h : w.addRoot g root = .ok w') :
    Sound g roots w' ∧ w'.stack = [] ∧ root ∈ w'.finished ∧ ∀ x ∈ w.finished, x ∈ w'.finished := by
  unfold Walk.addRoot at h
  -- unknown, finished already, or walked from here
  split at h
  · exact absurd h (by simp)
  · rename_i node hnode
    split at h
    · injection h with h
      subst h
      exact ⟨hs, hnil, ‹_›, fun x hx => hx⟩
    · rename_i hnew
      obtain ⟨hs', hnil', hmono⟩ := (hs.open hnil hroot hnode hnew).run (by omega) h
      have hseen : w'.seen = w'.finished := by rw [seen, hnil']; rfl
      rw [hseen] at hmono
      exact ⟨hs', hnil', hmono root List.mem_cons_self,
        fun x hx => hmono x (List.mem_cons_of_mem _ hx)⟩

theorem Sound.addRoot_error (hs : Sound g roots w) (hnil : w.stack = []) {root : NodeId}
    (hroot : root ∈ roots) {e : GraphError} (h : w.addRoot g root = .error e) :
    g.Obstacle roots e := by
  unfold Walk.addRoot at h
  split at h
  · rename_i hnone
    injection h with h
    rw [← h]
    exact .missing (.root hroot) hnone
  · rename_i node hnode
    split at h
    · exact absurd h (by simp)
    · exact (hs.open hnil hroot hnode ‹_›).run_error h

theorem Sound.addRoots {rest : List NodeId} (hs : Sound g roots w) (hnil : w.stack = [])
    (hsub : ∀ r ∈ rest, r ∈ roots) (h : rest.foldlM (Walk.addRoot g) w = .ok w') :
    Sound g roots w' ∧ w'.stack = [] ∧ (∀ r ∈ rest, r ∈ w'.finished)
      ∧ ∀ x ∈ w.finished, x ∈ w'.finished := by
  induction rest generalizing w with
  | nil =>
    injection h with h
    subst h
    exact ⟨hs, hnil, fun r hr => absurd hr (by simp), fun x hx => hx⟩
  | cons root rest ih =>
    rw [List.foldlM_cons] at h
    obtain ⟨w₁, hw₁, hrest⟩ := except_bind_eq_ok.mp h
    obtain ⟨hs₁, hnil₁, hroot, hmono₁⟩ := hs.addRoot hnil (hsub root List.mem_cons_self) hw₁
    obtain ⟨hs', hnil', hroots, hmono⟩ :=
      ih hs₁ hnil₁ (fun r hr => hsub r (List.mem_cons_of_mem _ hr)) hrest
    refine ⟨hs', hnil', ?_, fun x hx => hmono x (hmono₁ x hx)⟩
    intro r hr
    rcases List.mem_cons.mp hr with rfl | hr
    · exact hmono r hroot
    · exact hroots r hr

theorem Sound.addRoots_error {rest : List NodeId} (hs : Sound g roots w) (hnil : w.stack = [])
    (hsub : ∀ r ∈ rest, r ∈ roots) {e : GraphError}
    (h : rest.foldlM (Walk.addRoot g) w = .error e) :
    g.Obstacle roots e := by
  induction rest generalizing w with
  | nil => exact absurd h (by simp [List.foldlM, pure, Except.pure])
  | cons root rest ih =>
    rw [List.foldlM_cons] at h
    have hroot := hsub root List.mem_cons_self
    rcases except_bind_eq_error.mp h with hw₁ | ⟨w₁, hw₁, hrest⟩
    · exact hs.addRoot_error hnil hroot hw₁
    · obtain ⟨hs₁, hnil₁, _, _⟩ := hs.addRoot hnil hroot hw₁
      exact ih hs₁ hnil₁ (fun r hr => hsub r (List.mem_cons_of_mem _ hr)) hrest

end Walk

/-! ## What the record says -/

/-- `r` holds the slots of exactly the nodes that the roots reach, and `order` lists these
nodes, each before all that it reads. -/
structure Surveys (g : Graph) (roots : List NodeId) (r : Readers) (order : List NodeId) :
    Prop where
  /-- Nodes stand before all that they read. -/
  settled : Settled g order
  /-- The listed nodes are those that the roots reach. -/
  mem_iff : ∀ x, x ∈ order ↔ g.Reached roots x
  /-- The listed nodes exist. -/
  known : ∀ x ∈ order, ∃ n, g.node? x = some n
  /-- All slots of a listed node are recorded, in order. -/
  slots : ∀ c ∈ order, r.reads.filter (·.consumer = c) = g.slotReads c
  /-- No other slots are recorded. -/
  within : ∀ q ∈ r.reads, q.consumer ∈ order

/-- **A walk that succeeds has recorded what the roots reach.** -/
theorem Readers.surveys_of_build {g : Graph} {roots : List NodeId} {r : Readers}
    (h : Readers.build g roots = .ok r) : ∃ order, Surveys g roots r order := by
  obtain ⟨w, hw, hr⟩ := except_bind_eq_ok.mp h
  injection hr with hr
  subst hr
  obtain ⟨hs, hnil, hroots, _⟩ :=
    (Walk.sound_start g roots).addRoots rfl (fun _ hr => hr) hw
  have hseen : w.seen = w.finished := by rw [Walk.seen, hnil]; rfl
  refine ⟨w.finished, hs.settled, ?_, fun x hx => hs.known x (hseen ▸ hx), hs.whole, ?_⟩
  · intro x
    refine ⟨fun hx => hs.reached x (hseen ▸ hx), ?_⟩
    -- the roots are finished, and what a finished node reads is finished too
    rintro ⟨root, hroot, hpath⟩
    induction hpath with
    | refl => exact hroots root hroot
    | tail _ hread ih => exact hs.settled.closed ih hread
  · intro q hq
    by_contra hc
    have hmem : q ∈ w.recorded q.consumer := List.mem_filter.mpr ⟨hq, by simp⟩
    rw [hs.absent _ (hseen ▸ hc)] at hmem
    exact absurd hmem (by simp)

/-- **A walk that fails has met a missing node or a node that reads itself.** -/
theorem Readers.build_error {g : Graph} {roots : List NodeId} {e : GraphError}
    (h : Readers.build g roots = .error e) :
    g.Obstacle roots e := by
  rcases except_bind_eq_error.mp h with hw | ⟨w, _, hr⟩
  · exact (Walk.sound_start g roots).addRoots_error rfl (fun _ hr => hr) hw
  · exact absurd hr (by simp [pure, Except.pure])

/-- Where nothing is missing and nothing reads itself, the walk succeeds. -/
theorem Readers.exists_build {g : Graph} {roots : List NodeId}
    (hknown : ∀ x, g.Reached roots x → ∃ n, g.node? x = some n)
    (hacyclic : ∀ x, g.Reached roots x → ¬ g.OnCycle x) : ∃ r, Readers.build g roots = .ok r := by
  cases hbuild : Readers.build g roots with
  | ok r => exact ⟨r, rfl⟩
  | error e =>
    cases Readers.build_error hbuild with
    | @missing x hx hnone =>
      obtain ⟨n, hn⟩ := hknown x hx
      exact absurd hn (by simp [hnone])
    | @cycle x hx hcycle => exact absurd hcycle (hacyclic x hx)

namespace Surveys

variable {g : Graph} {roots order : List NodeId} {r : Readers}

/-- How often `c` stands among the readers of `x`: once for each slot. -/
theorem count_of (h : Surveys g roots r order) {c : NodeId} (hc : c ∈ order) (x : NodeId) :
    (r.of x).count c = (g.inputs c).countP (·.node = x) := by
  have hslots : ((r.reads.filter (·.consumer = c)).countP (·.producer = x))
      = (g.inputs c).countP (·.node = x) := by
    rw [h.slots c hc, Graph.slotReads, List.countP_map]
    rfl
  rw [← hslots, Readers.of, List.count_eq_countP, List.countP_map, List.countP_filter,
    List.countP_filter]
  refine List.countP_congr fun q _ => ?_
  simp only [Function.comp_apply, Bool.and_eq_true, decide_eq_true_eq, beq_iff_eq]
  exact and_comm

theorem of_subset (h : Surveys g roots r order) {c x : NodeId} (hc : c ∈ r.of x) :
    c ∈ order ∧ g.Reads c x := by
  obtain ⟨q, hq, rfl⟩ := List.mem_map.mp hc
  obtain ⟨hq, hx⟩ := List.mem_filter.mp hq
  have hin := h.within q hq
  refine ⟨hin, ?_⟩
  -- the record holds slots of the consumer and nothing else
  have hmem : q ∈ g.slotReads q.consumer := by
    rw [← h.slots _ hin]
    exact List.mem_filter.mpr ⟨hq, by simp⟩
  obtain ⟨e, he, heq⟩ := List.mem_map.mp hmem
  exact ⟨e, he, by rw [← of_decide_eq_true hx, ← heq]⟩

theorem mem_of (h : Surveys g roots r order) {c x : NodeId} (hc : c ∈ order)
    (hr : g.Reads c x) : c ∈ r.of x := by
  rw [← List.count_pos_iff, h.count_of hc, List.countP_pos_iff]
  obtain ⟨e, he, rfl⟩ := hr
  exact ⟨e, he, by simp⟩

/-- A node has as many uses by slots as there are slots of walked nodes that read it. -/
theorem count_eq_length (h : Surveys g roots r order) (x : NodeId) :
    r.count x = (g.slotsReading order x).length := by
  have hperm := perm_flatMap_filter id (r.of x) h.settled.nodup
    fun c hc => (h.of_subset hc).1
  rw [Readers.count, ← hperm.length_eq, Graph.slotsReading, List.length_flatMap,
    List.length_flatMap]
  refine congrArg List.sum (List.map_congr_left fun c hc => ?_)
  rw [← List.countP_eq_length_filter (l := g.inputs c), ← h.count_of hc x,
    List.count_eq_length_filter]
  exact congrArg List.length (List.filter_congr fun d _ => rfl)

theorem count_pos_iff (h : Surveys g roots r order) {x : NodeId} :
    0 < r.count x ↔ ∃ c ∈ order, g.Reads c x := by
  constructor
  · intro hpos
    obtain ⟨c, hc⟩ := List.exists_mem_of_length_pos hpos
    obtain ⟨hin, hr⟩ := h.of_subset hc
    exact ⟨c, hin, hr⟩
  · rintro ⟨c, hc, hr⟩
    exact List.length_pos_of_mem (h.mem_of hc hr)

theorem mem_producers_iff (h : Surveys g roots r order) {x : NodeId} :
    x ∈ r.producers ↔ ∃ c ∈ order, g.Reads c x := by
  rw [← h.count_pos_iff, Readers.producers, List.mem_eraseDups, List.mem_map, Readers.count,
    List.length_pos_iff_exists_mem]
  constructor
  · rintro ⟨q, hq, rfl⟩
    exact ⟨q.consumer, List.mem_map.mpr ⟨q, List.mem_filter.mpr ⟨hq, by simp⟩, rfl⟩⟩
  · rintro ⟨c, hc⟩
    obtain ⟨q, hq, _⟩ := List.mem_map.mp hc
    obtain ⟨hq, hx⟩ := List.mem_filter.mp hq
    exact ⟨q, hq, of_decide_eq_true hx⟩

/-- A walked node is a root or has a reader that was walked. -/
theorem root_or_reader (h : Surveys g roots r order) {x : NodeId} (hx : x ∈ order) :
    x ∈ roots ∨ ∃ c ∈ order, g.Reads c x := by
  rcases ((h.mem_iff x).mp hx).cases_reader with hroot | ⟨c, hc, hr⟩
  · exact Or.inl hroot
  · exact Or.inr ⟨c, (h.mem_iff c).mpr hc, hr⟩

theorem reader_or_root_iff (h : Surveys g roots r order) {x : NodeId} :
    (∃ c ∈ order, g.Reads c x) ∨ x ∈ roots ↔ x ∈ order := by
  constructor
  · rintro (⟨c, hc, hr⟩ | hroot)
    · exact h.settled.closed hc hr
    · exact (h.mem_iff x).mpr (.root hroot)
  · exact fun hx => (h.root_or_reader hx).symm

end Surveys

end Filtergraph
