import Filtergraph.Proofs.History
import Filtergraph.Proofs.Survey

/-!
# The walk as a recursion

The walk over the input slots keeps its own stack. Told as a recursion it needs none: to visit a
node that was not visited before, pass its slots in order; at each slot, record who reads what,
then visit what is read. `Graph.tour` is this recursion, with a record of its own: the nodes that
are read, in the order in which they came up, and for each of them its readers.

A stack is a list of recursive calls that have not returned, the innermost first: a frame still
has to pass its pending slots. `Tour.resume` makes all these calls go on to their ends. What comes
of that does not change from one step of the walk to the next, and once the stack is empty there
is nothing left to resume. So a walk that succeeds has recorded what the recursion records, in the
same order.
-/

namespace Filtergraph

/-- How far a recursive walk has come. -/
structure Tour where
  /-- The nodes that are read, in the order in which they were first recorded. -/
  keys : List NodeId := []
  /-- The readers of a node, one for each slot, in the order of recording. -/
  consumers : NodeId → List NodeId := fun _ => []
  visited : List NodeId := []

namespace Tour

variable {g : Graph} {t t' : Tour} {id : NodeId}

/-- Records a slot of `consumer` that reads `producer`. -/
def record (t : Tour) (producer consumer : NodeId) : Tour :=
  { t with
    keys := if (t.consumers producer).isEmpty then t.keys ++ [producer] else t.keys
    consumers := fun x => if x = producer then t.consumers x ++ [consumer] else t.consumers x }

/-- Notes that a node is visited. -/
def enter (t : Tour) (id : NodeId) : Tour := { t with visited := id :: t.visited }

/-! ## The recursion -/

/-- The nodes of the table that are still to be visited. -/
def unvisited (g : Graph) (t : Tour) : List NodeId := g.ids.filter (· ∉ t.visited)

theorem unvisited_le (h : t.visited ⊆ t'.visited) :
    (t'.unvisited g).length ≤ (t.unvisited g).length := by
  refine (List.monotone_filter_right _ fun x hx => ?_).length_le
  rw [decide_eq_true_eq] at hx ⊢
  exact fun hmem => hx (h hmem)

theorem unvisited_enter (t : Tour) (id : NodeId) :
    (t.enter id).unvisited g = (t.unvisited g).filter (· ≠ id) := by
  rw [unvisited, unvisited, List.filter_filter]
  refine List.filter_congr fun x _ => ?_
  simp [enter]

/-- Entering a node leaves one less to visit. -/
theorem unvisited_enter_lt {n : Node} (hn : g.node? id = some n) (hid : id ∉ t.visited) :
    ((t.enter id).unvisited g).length < (t.unvisited g).length := by
  have hmem : id ∈ t.unvisited g := List.mem_filter.mpr ⟨Graph.mem_ids hn, by simpa using hid⟩
  rw [unvisited_enter]
  exact List.length_filter_lt_length_iff_exists.mpr ⟨id, hmem, by simp⟩

mutual

/-- Visits a node, if it was not visited before. No visit is forgotten on the way, which is why
the recursion ends: each call has fewer nodes to visit, or fewer slots to pass. -/
def visit (g : Graph) (id : NodeId) (t : Tour) : { t' : Tour // t.visited ⊆ t'.visited } :=
  if id ∈ t.visited then ⟨t, List.Subset.refl _⟩
  else
    let after := passSlots g id (g.inputs id) (t.enter id)
    ⟨after.val, fun _ hx => after.property (List.mem_cons_of_mem _ hx)⟩
termination_by ((t.unvisited g).length, 0, 1)
decreasing_by
  cases hn : g.node? id with
  | some n => exact .left _ _ (unvisited_enter_lt hn ‹_›)
  | none =>
    rw [Graph.inputs_of_none hn, unvisited_enter]
    exact .right' _ (List.length_filter_le _ _) (.right _ Nat.zero_lt_one)

/-- Passes the given slots of a node, one after the other. -/
def passSlots (g : Graph) (consumer : NodeId) (slots : List Edge) (t : Tour) :
    { t' : Tour // t.visited ⊆ t'.visited } :=
  match slots with
  | [] => ⟨t, List.Subset.refl _⟩
  | slot :: rest =>
    let inner := visit g slot.node (t.record slot.node consumer)
    let after := passSlots g consumer rest inner.val
    ⟨after.val, fun _ hx => after.property (inner.property hx)⟩
termination_by ((t.unvisited g).length, slots.length, 0)
decreasing_by
  · exact .right _ (.left _ _ (Nat.succ_pos _))
  · exact .right' _ (unvisited_le inner.property) (.left _ _ (Nat.lt_succ_self _))

end

end Tour

/-- The recursive walk from one root after another. -/
def Graph.tour (g : Graph) (roots : List NodeId) : Tour :=
  roots.foldl (fun t root => (Tour.visit g root t).val) {}

namespace Tour

variable {g : Graph} {t : Tour} {id c : NodeId} {slot : Edge} {rest : List Edge}

theorem visit_of_mem (h : id ∈ t.visited) : (visit g id t).val = t := by
  rw [visit, if_pos h]

theorem visit_of_not_mem (h : id ∉ t.visited) :
    (visit g id t).val = (passSlots g id (g.inputs id) (t.enter id)).val := by
  rw [visit, if_neg h]

theorem passSlots_nil : (passSlots g c [] t).val = t := by
  rw [passSlots]

theorem passSlots_cons : (passSlots g c (slot :: rest) t).val
    = (passSlots g c rest (visit g slot.node (t.record slot.node c)).val).val := by
  rw [passSlots]

/-- Lets the calls on a stack go on, from the innermost outwards. -/
def resume (g : Graph) : List Frame → Tour → Tour
  | [], t => t
  | ⟨node, pending⟩ :: outer, t => resume g outer (passSlots g node pending t).val

end Tour

/-! ## Both have the same record -/

namespace Readers

variable {reads : List Read} {producer consumer : NodeId}

/-- One more slot is one more reader of what it reads. -/
theorem of_concat (x : NodeId) : Readers.of ⟨reads ++ [⟨producer, consumer⟩]⟩ x
    = if x = producer then Readers.of ⟨reads⟩ x ++ [consumer] else Readers.of ⟨reads⟩ x := by
  rw [Readers.of, Readers.of, List.filter_append, List.map_append]
  by_cases hx : x = producer
  · simp [hx]
  · simp [hx, Ne.symm hx]

theorem of_eq_nil_iff {x : NodeId} : Readers.of ⟨reads⟩ x = [] ↔ x ∉ reads.map Read.producer := by
  simp [Readers.of]

/-- What is read is new to the list if it has had no readers. -/
theorem producers_concat : Readers.producers ⟨reads ++ [⟨producer, consumer⟩]⟩
    = if (Readers.of ⟨reads⟩ producer).isEmpty then Readers.producers ⟨reads⟩ ++ [producer]
      else Readers.producers ⟨reads⟩ := by
  rw [Readers.producers, Readers.producers, List.map_append, List.map_cons, List.map_nil]
  by_cases hmem : producer ∈ reads.map Read.producer
  · rw [eraseDups_insert hmem, List.append_nil, if_neg]
    rwa [List.isEmpty_iff, of_eq_nil_iff, not_not]
  · rw [if_pos (List.isEmpty_iff.mpr (of_eq_nil_iff.mpr hmem)), List.eraseDups_append,
      List.removeAll, List.filter_cons_of_pos (by simpa using hmem)]
    rfl

end Readers

/-- The walk and the tour have recorded the same slots and seen the same nodes. -/
structure Walk.Abreast (w : Walk) (t : Tour) : Prop where
  keys : t.keys = Readers.producers ⟨w.reads.reverse⟩
  consumers : ∀ x, t.consumers x = Readers.of ⟨w.reads.reverse⟩ x
  visited : ∀ x, x ∈ t.visited ↔ x ∈ w.seen

namespace Walk.Abreast

variable {g : Graph} {roots : List NodeId} {w w' : Walk} {t : Tour}

/-- Both record a slot. -/
theorem record {stack : List Frame} {finished : List NodeId} {reads : List Read}
    (h : Walk.Abreast ⟨stack, finished, reads⟩ t) (producer consumer : NodeId) :
    Walk.Abreast ⟨stack, finished, ⟨producer, consumer⟩ :: reads⟩ (t.record producer consumer) where
  keys := by
    rw [List.reverse_cons, Readers.producers_concat, Tour.record, h.keys, h.consumers]
  consumers := by
    intro x
    rw [List.reverse_cons, Readers.of_concat, ← h.consumers x]
    rfl
  visited := h.visited

/-- **A step of the walk does not change what the recursion comes to.** -/
theorem step (h : w.Abreast t) (hstep : w.step g = .ok w') (hne : w.stack ≠ []) :
    ∃ t', w'.Abreast t' ∧ Tour.resume g w'.stack t' = Tour.resume g w.stack t := by
  obtain ⟨stack, finished, reads⟩ := w
  rcases step_cases hstep hne with ⟨node, outer, rfl, rfl⟩ |
    ⟨node, edge, pending, outer, rfl, hfin, rfl⟩ |
    ⟨node, edge, pending, outer, producer, rfl, hprod, hnew, rfl⟩
  · -- the innermost call has passed all its slots, and returns
    refine ⟨t, ⟨h.keys, h.consumers, fun x => ?_⟩, ?_⟩
    · simp only [h.visited, seen, List.map_cons, List.mem_append, List.mem_cons]
      tauto
    · rw [Tour.resume, Tour.passSlots_nil]
  · -- what the slot reads was visited before
    have hrecord := h.record edge.node node
    have hvisited : edge.node ∈ (t.record edge.node node).visited :=
      (hrecord.visited _).mpr (List.mem_append_right _ hfin)
    refine ⟨t.record edge.node node, ⟨hrecord.keys, hrecord.consumers, hrecord.visited⟩, ?_⟩
    rw [Tour.resume, Tour.resume, Tour.passSlots_cons, Tour.visit_of_mem hvisited]
  · -- what the slot reads is visited now, by a call further in
    have hrecord := h.record edge.node node
    have hunvisited : edge.node ∉ (t.record edge.node node).visited :=
      fun hmem => hnew ((hrecord.visited _).mp hmem)
    refine ⟨(t.record edge.node node).enter edge.node,
      ⟨hrecord.keys, hrecord.consumers, fun x => ?_⟩, ?_⟩
    · rw [Tour.enter, List.mem_cons, hrecord.visited]
      exact List.mem_cons.symm
    · rw [Tour.resume, Tour.resume, Tour.resume, Tour.passSlots_cons,
        Tour.visit_of_not_mem hunvisited, Graph.inputs_of_node? hprod]

/-- A run does not change what the recursion comes to. -/
theorem run {fuel : Nat} (h : w.Abreast t) (hrun : w.run g fuel = .ok w') :
    ∃ t', w'.Abreast t' ∧ Tour.resume g w'.stack t' = Tour.resume g w.stack t := by
  induction fuel generalizing w t with
  | zero =>
    injection hrun with hrun
    subst hrun
    exact ⟨t, h, rfl⟩
  | succ fuel ih =>
    rw [Walk.run] at hrun
    cases hstack : w.stack with
    | nil =>
      rw [hstack] at hrun
      injection hrun with hrun
      subst hrun
      exact ⟨t, h, by rw [hstack]⟩
    | cons f outer =>
      rw [hstack] at hrun
      have hne : w.stack ≠ [] := by rw [hstack]; exact List.cons_ne_nil _ _
      obtain ⟨w₁, hstep, hrun⟩ := except_bind_eq_ok.mp hrun
      obtain ⟨t₁, h₁, hresume₁⟩ := h.step hstep hne
      obtain ⟨t', h', hresume⟩ := ih h₁ hrun
      exact ⟨t', h', by rw [hresume, hresume₁, hstack]⟩

/-- From a root on, the walk comes to what the visit of the root comes to. -/
theorem addRoot (h : w.Abreast t) (hs : Sound g roots w) (hnil : w.stack = []) {root : NodeId}
    (hroot : root ∈ roots) (hadd : w.addRoot g root = .ok w') :
    w'.Abreast (Tour.visit g root t).val := by
  have hend := (hs.addRoot hnil hroot hadd).2.1
  have hseen : w.seen = w.finished := by rw [seen, hnil]; rfl
  unfold Walk.addRoot at hadd
  split at hadd
  · exact absurd hadd (by simp)
  · rename_i node hnode
    -- a root that an earlier one has led to is passed over by both
    split at hadd
    · rename_i hfin
      injection hadd with hadd
      subst hadd
      rwa [Tour.visit_of_mem ((h.visited root).mpr (hseen ▸ hfin))]
    · rename_i hfin
      have hnew : root ∉ t.visited := fun hmem => hfin (hseen ▸ (h.visited root).mp hmem)
      have hopen : Walk.Abreast { w with stack := [⟨root, node.inputs⟩] } (t.enter root) := by
        refine ⟨h.keys, h.consumers, fun x => ?_⟩
        rw [Tour.enter, List.mem_cons, h.visited, hseen]
        exact List.mem_cons.symm
      obtain ⟨t', h', hresume⟩ := hopen.run hadd
      -- nothing is left on the stack, so the visit is over
      rw [hend] at hresume
      have hvisit : (Tour.visit g root t).val = t' := by
        rw [Tour.visit_of_not_mem hnew, Graph.inputs_of_node? hnode]
        exact hresume.symm
      rwa [hvisit]

theorem addRoots {rest : List NodeId} (h : w.Abreast t) (hs : Sound g roots w)
    (hnil : w.stack = []) (hsub : ∀ r ∈ rest, r ∈ roots)
    (hadd : rest.foldlM (Walk.addRoot g) w = .ok w') :
    w'.Abreast (rest.foldl (fun t root => (Tour.visit g root t).val) t) := by
  induction rest generalizing w t with
  | nil =>
    injection hadd with hadd
    subst hadd
    exact h
  | cons root rest ih =>
    have hroot := hsub root List.mem_cons_self
    rw [List.foldlM_cons] at hadd
    obtain ⟨w₁, hw₁, hrest⟩ := except_bind_eq_ok.mp hadd
    obtain ⟨hs₁, hnil₁, _, _⟩ := hs.addRoot hnil hroot hw₁
    exact ih (h.addRoot hs hnil hroot hw₁) hs₁ hnil₁
      (fun r hr => hsub r (List.mem_cons_of_mem _ hr)) hrest

end Walk.Abreast

/-- **The walk records what the recursion records.** If the walk over the slots succeeds, the nodes
that are read and the readers of every node are those of the recursive walk from the same roots,
in the same order. -/
theorem readers_build_eq_tour {g : Graph} {roots : List NodeId} {r : Readers}
    (h : Readers.build g roots = .ok r) :
    r.producers = (g.tour roots).keys ∧ ∀ x, r.of x = (g.tour roots).consumers x := by
  obtain ⟨w, hw, hr⟩ := except_bind_eq_ok.mp h
  injection hr with hr
  subst hr
  have hstart : Walk.Abreast {} {} := ⟨rfl, fun _ => rfl, fun _ => Iff.rfl⟩
  have hend := hstart.addRoots (Walk.sound_start g roots) rfl (fun _ hr => hr) hw
  exact ⟨hend.keys.symm, fun x => (hend.consumers x).symm⟩

/-- Between the slots of the merge the walk goes down into what it reads, so the other readers of
the media file are recorded among them. -/
theorem readers_build_eq_tour_tangled :
    (∃ r, Readers.build tangled [⟨3⟩, ⟨4⟩, ⟨2⟩] = .ok r) ∧
      (tangled.tour [⟨3⟩, ⟨4⟩, ⟨2⟩]).keys = [⟨0⟩, ⟨2⟩, ⟨1⟩] ∧
      (tangled.tour [⟨3⟩, ⟨4⟩, ⟨2⟩]).consumers ⟨0⟩ = [⟨3⟩, ⟨2⟩, ⟨3⟩, ⟨1⟩, ⟨4⟩] := by
  have hbuild : Readers.build tangled [⟨3⟩, ⟨4⟩, ⟨2⟩] = .ok ⟨[⟨⟨0⟩, ⟨3⟩⟩, ⟨⟨2⟩, ⟨3⟩⟩, ⟨⟨0⟩, ⟨2⟩⟩,
      ⟨⟨0⟩, ⟨3⟩⟩, ⟨⟨1⟩, ⟨3⟩⟩, ⟨⟨0⟩, ⟨1⟩⟩, ⟨⟨0⟩, ⟨4⟩⟩]⟩ := by decide +kernel
  obtain ⟨hkeys, hconsumers⟩ := readers_build_eq_tour hbuild
  refine ⟨⟨_, hbuild⟩, ?_, ?_⟩
  · rw [← hkeys]
    decide
  · rw [← hconsumers]
    decide

end Filtergraph
