import Mathlib.Algebra.Order.BigOperators.Group.List
import Mathlib.Algebra.Order.Ring.Nat
import Mathlib.Data.List.Nodup
import Mathlib.Data.List.Perm.Subperm
import Mathlib.Logic.Relation
import Filtergraph.Graph

/-!
# Looking into a graph that changes

What each change to the table does to the nodes that can be looked up in it. Then the relation
between nodes that everything else is about: one node reads another, directly or through
others.
-/

namespace Filtergraph

namespace Graph

variable {g : Graph} {id j : NodeId} {n m : Node}

/-! ## Lookup -/

theorem index_lt_of_node? (h : g.node? id = some n) : id.index < g.size := by
  unfold node? at h
  exact (Array.getElem?_eq_some_iff.mp h).1

/-- The identifiers below the size are those that name a node. -/
theorem exists_node? (h : id.index < g.size) : ∃ n, g.node? id = some n := by
  have hlt : id.index < g.nodes.size := h
  exact ⟨g.nodes[id.index], Array.getElem?_eq_getElem hlt⟩

theorem node?_eq_none (h : g.size ≤ id.index) : g.node? id = none := by
  unfold node?
  exact Array.getElem?_eq_none h

/-- A node that can be looked up is among the listed identifiers. -/
theorem mem_ids (h : g.node? id = some n) : id ∈ g.ids :=
  List.mem_map.mpr ⟨id.index, List.mem_range.mpr (index_lt_of_node? h), rfl⟩

theorem nodup_ids (g : Graph) : g.ids.Nodup := by
  refine List.nodup_range.map ?_
  intro i j hij
  exact NodeId.mk.inj hij

/-- A table is the nodes that can be looked up in it. -/
theorem eq_of_node? {g' : Graph} (h : ∀ x, g'.node? x = g.node? x) : g' = g := by
  rw [Graph.mk.injEq]
  exact Array.ext_getElem? fun i => h ⟨i⟩

theorem kind?_of_node? (h : g.node? id = some n) : g.kind? id = some n.kind := by
  unfold kind?; rw [h]; rfl

theorem inputs_of_node? (h : g.node? id = some n) : g.inputs id = n.inputs := by
  unfold inputs; rw [h]; rfl

theorem inputs_of_none (h : g.node? id = none) : g.inputs id = [] := by
  unfold inputs; rw [h]; rfl

theorem isOperation_of_node? (h : g.node? id = some n) :
    g.isOperation id = n.kind.isOperation := by
  unfold isOperation; rw [kind?_of_node? h]; rfl

theorem isSource_of_node? (h : g.node? id = some n) : g.isSource id = n.kind.isSource := by
  unfold isSource; rw [kind?_of_node? h]; rfl

theorem node?_of_kind? {k : Kind} (h : g.kind? id = some k) :
    ∃ n, g.node? id = some n ∧ n.kind = k := by
  unfold kind? at h
  obtain ⟨n, hn, hk⟩ := Option.map_eq_some_iff.mp h
  exact ⟨n, hn, hk⟩

/-- A role that passes a test is the role of a node that is there. -/
theorem node?_of_any {p : Kind → Bool} (h : (g.kind? id).any p = true) :
    ∃ n, g.node? id = some n ∧ p n.kind = true := by
  cases hn : g.node? id with
  | none => simp [kind?, hn] at h
  | some n => exact ⟨n, rfl, by rwa [kind?_of_node? hn] at h⟩

theorem node?_of_isOperation (h : g.isOperation id = true) :
    ∃ n, g.node? id = some n ∧ n.kind.isOperation = true :=
  node?_of_any h

theorem node?_of_isSource (h : g.isSource id = true) :
    ∃ n, g.node? id = some n ∧ n.kind.isSource = true :=
  node?_of_any h

/-- Only a node that is there has slots. -/
theorem node?_of_mem_inputs {e : Edge} (h : e ∈ g.inputs id) :
    ∃ n, g.node? id = some n ∧ e ∈ n.inputs := by
  cases hn : g.node? id with
  | none => rw [inputs_of_none hn] at h; exact absurd h (by simp)
  | some n => exact ⟨n, rfl, by rwa [inputs_of_node? hn] at h⟩

/-! ## Adding a node -/

@[simp] theorem size_push (g : Graph) (k : Kind) (es : List Edge) :
    (g.push k es).size = g.size + 1 := by
  simp [push, size]

/-- Adding a node gives the next free identifier a meaning and leaves the others alone. -/
theorem node?_push (g : Graph) (k : Kind) (es : List Edge) (id : NodeId) :
    (g.push k es).node? id = if id = ⟨g.size⟩ then some ⟨k, es⟩ else g.node? id := by
  obtain ⟨i⟩ := id
  simp only [push, node?, size, Array.getElem?_push, NodeId.mk.injEq]

theorem node?_push_self (g : Graph) (k : Kind) (es : List Edge) :
    (g.push k es).node? ⟨g.size⟩ = some ⟨k, es⟩ := by
  rw [node?_push, if_pos rfl]

theorem node?_push_of_lt {k : Kind} {es : List Edge} (h : id.index < g.size) :
    (g.push k es).node? id = g.node? id := by
  rw [node?_push, if_neg]
  intro he
  rw [he] at h
  exact Nat.lt_irrefl _ h

/-! ## Changing a node -/

@[simp] theorem size_set (g : Graph) (id : NodeId) (n : Node) : (g.set id n).size = g.size := by
  simp [set, size]

/-- Changing a node that is there changes what its own identifier names and nothing else. -/
theorem node?_set (h : g.node? id = some n) (m : Node) (j : NodeId) :
    (g.set id m).node? j = if j = id then some m else g.node? j := by
  have hlt : id.index < g.nodes.size := index_lt_of_node? h
  obtain ⟨i⟩ := id
  obtain ⟨k⟩ := j
  simp only [set, node?, NodeId.mk.injEq]
  -- the write is in bounds, so it is not dropped
  by_cases hk : k = i
  · subst hk
    rw [if_pos rfl, Array.getElem?_setIfInBounds_self_of_lt hlt]
  · rw [if_neg hk, Array.getElem?_setIfInBounds_ne (Ne.symm hk)]

/-! ## Sums over the table -/

/-- Summing over some nodes gives no more than summing over all. -/
theorem sum_inputs_le {g : Graph} (f : List Edge → Nat) {picked : List NodeId} (hnd : picked.Nodup)
    (hknown : ∀ id ∈ picked, ∃ n, g.node? id = some n) :
    (picked.map fun id => f (g.inputs id)).sum ≤ (g.nodes.toList.map fun n => f n.inputs).sum := by
  have hsub : picked ⊆ g.ids := by
    intro id hid
    obtain ⟨n, hn⟩ := hknown id hid
    exact mem_ids hn
  -- the sum over the table is the one over all its identifiers
  have hall : (g.ids.map fun id => f (g.inputs id)) = g.nodes.toList.map fun n => f n.inputs := by
    refine List.ext_getElem (by simp [ids, size]) fun i h₁ h₂ => ?_
    have hi : i < g.nodes.size := by simpa using h₂
    simp [ids, inputs, node?, hi]
  obtain ⟨part, hperm, hpart⟩ := List.subperm_of_subset hnd hsub
  rw [← hall, ← (hperm.map fun id => f (g.inputs id)).sum_eq]
  exact (hpart.map fun id => f (g.inputs id)).sum_le_sum fun _ _ => Nat.zero_le _

/-! ## Reading -/

/-- Some slot of `consumer` reads `producer`. -/
def Reads (g : Graph) (consumer producer : NodeId) : Prop :=
  ∃ e ∈ g.inputs consumer, e.node = producer

/-- `id` is one of the roots, or one of them reads it, directly or through others. -/
def Reached (g : Graph) (roots : List NodeId) (id : NodeId) : Prop :=
  ∃ root ∈ roots, Relation.ReflTransGen g.Reads root id

/-- `id` reads itself, directly or through others. -/
def OnCycle (g : Graph) (id : NodeId) : Prop :=
  Relation.TransGen g.Reads id id

theorem Reached.root {roots : List NodeId} (h : id ∈ roots) : g.Reached roots id :=
  ⟨id, h, .refl⟩

/-- What a reached node reads is reached as well. -/
theorem Reached.reads {roots : List NodeId} (h : g.Reached roots id) (hr : g.Reads id j) :
    g.Reached roots j := by
  obtain ⟨root, hroot, hpath⟩ := h
  exact ⟨root, hroot, hpath.tail hr⟩

/-- A reached node is a root or has a reader that is reached. -/
theorem Reached.cases_reader {roots : List NodeId} (h : g.Reached roots id) :
    id ∈ roots ∨ ∃ c, g.Reached roots c ∧ g.Reads c id := by
  obtain ⟨root, hroot, hpath⟩ := h
  -- look at the last step of the path
  rcases Relation.ReflTransGen.cases_tail hpath with rfl | ⟨c, hc, hr⟩
  · exact Or.inl hroot
  · exact Or.inr ⟨c, ⟨root, hroot, hc⟩, hr⟩

end Graph

end Filtergraph
