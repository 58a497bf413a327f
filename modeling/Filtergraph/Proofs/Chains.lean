import Mathlib.Data.List.Chain
import Mathlib.Data.List.Nodup
import Filtergraph.Proofs.Numbering

/-!
# Chains

A statement holds a chain of operations. Its last operation is the one the statement is
written for; we call it the head, since the chain is found from there upwards. Which
operations belong to which chain does not depend on how the writing goes: an operation
joins the chain of its reader if the slot that reads it is its only use and the only slot
of the reader. So every reached operation belongs to the chain of exactly one head, and
the heads are the operations that join no other.
-/

namespace Filtergraph

open Filtergraph.Graph

/-- A graph that is ready to be written from its roots. -/
structure Ready (p : Plan) (roots order : List NodeId) : Prop where
  wellFormed : p.graph.WellFormed
  surveys : Surveys p.graph roots p.readers order
  unread : ∀ root ∈ roots, p.readers.count root = 0
  /-- Operations read streams and other operations, not media files. -/
  streams : ∀ c ∈ order, p.graph.isOperation c = true → ∀ x, p.graph.Reads c x →
    p.graph.isSource x = false
  /-- Media files have their positions. -/
  numbered : ∀ x ∈ order, p.graph.isSource x = true →
    ∃ position, (p.graph.source? x).bind Source.index = some position

namespace Plan

/-- The operation that joins the chain above `t`: what its only slot reads, if that is the
only use of it. -/
def above? (p : Plan) (t : NodeId) : Option NodeId :=
  match p.graph.inputs t with
  | [edge] => if p.graph.isOperation edge.node ∧ p.uses edge.node = 1 then some edge.node else none
  | _ => none

/-- What joins the chain above `t`, the nearest first. -/
def climb (p : Plan) : Nat → NodeId → List NodeId
  | 0, _ => []
  | fuel + 1, t =>
    match p.above? t with
    | none => []
    | some x => x :: p.climb fuel x

/-- The chain of a head, with the head in front. -/
def chain (p : Plan) (head : NodeId) : List NodeId := head :: p.climb p.graph.size head

/-- The upper end of the chain of a head. -/
def tail (p : Plan) (head : NodeId) : NodeId := (p.chain head).getLastD head

/-- The slots that the statement of a head reads. -/
def slots (p : Plan) (head : NodeId) : List Edge := p.graph.inputs (p.tail head)

/-- `x` joins the chain of a reached node. -/
def Joined (p : Plan) (order : List NodeId) (x : NodeId) : Prop := ∃ t ∈ order, p.above? t = some x

/-- A reached operation that joins no chain. -/
def IsHead (p : Plan) (order : List NodeId) (x : NodeId) : Prop :=
  x ∈ order ∧ p.graph.isOperation x = true ∧ ¬ p.Joined order x

variable {p : Plan} {t x y : NodeId} {k : Nat}

/-- A node joins if the only slot of its reader is its only use. -/
theorem above?_eq_some : p.above? t = some x ↔
    ∃ e, p.graph.inputs t = [e] ∧ e.node = x ∧ p.graph.isOperation x = true ∧ p.uses x = 1 := by
  unfold above?
  split
  · rename_i e he
    rw [Option.ite_none_right_eq_some, Option.some.injEq]
    constructor
    · rintro ⟨⟨hop, huses⟩, rfl⟩
      exact ⟨e, he, rfl, hop, huses⟩
    · rintro ⟨e', he', rfl, hop, huses⟩
      rw [he, List.cons.injEq] at he'
      obtain ⟨rfl, _⟩ := he'
      exact ⟨⟨hop, huses⟩, rfl⟩
  · rename_i hne
    constructor
    · intro h
      exact absurd h (by simp)
    · rintro ⟨e, he, _⟩
      exact absurd he (hne e)

theorem reads_of_above? (h : p.above? t = some x) : p.graph.Reads t x := by
  obtain ⟨e, he, rfl, _⟩ := above?_eq_some.mp h
  exact ⟨e, by rw [he]; exact List.mem_singleton_self e, rfl⟩

theorem climb_succ_of_none (h : p.above? t = none) : p.climb (k + 1) t = [] := by
  rw [climb, h]

theorem climb_succ_of_some (h : p.above? t = some x) : p.climb (k + 1) t = x :: p.climb k x := by
  rw [climb, h]

theorem isChain_climb (p : Plan) (k : Nat) (t : NodeId) :
    (t :: p.climb k t).IsChain fun a b => p.above? a = some b := by
  induction k generalizing t with
  | zero => exact .singleton t
  | succ k ih =>
    cases ha : p.above? t with
    | none =>
      rw [climb_succ_of_none ha]
      exact .singleton t
    | some x =>
      rw [climb_succ_of_some ha]
      exact .cons_cons ha (ih x)

/-- What stands in a chain is its head or is above another node of it. -/
theorem mem_climb_cases (h : y ∈ p.climb k t) :
    ∃ z ∈ t :: p.climb k t, p.above? z = some y := by
  induction k generalizing t with
  | zero => exact absurd h (by simp [climb])
  | succ k ih =>
    cases ha : p.above? t with
    | none => exact absurd h (by simp [climb_succ_of_none ha])
    | some x =>
      rw [climb_succ_of_some ha] at h ⊢
      rcases List.mem_cons.mp h with rfl | h
      · exact ⟨t, List.mem_cons_self, ha⟩
      · obtain ⟨z, hz, hzy⟩ := ih h
        exact ⟨z, List.mem_cons_of_mem _ hz, hzy⟩

/-- What stands in a chain is its upper end or has another node above it. -/
theorem eq_getLastD_or_above (d : NodeId) (h : y ∈ t :: p.climb k t) :
    y = (t :: p.climb k t).getLastD d ∨ ∃ z ∈ p.climb k t, p.above? y = some z := by
  induction k generalizing t d with
  | zero =>
    rw [climb, List.mem_singleton] at h
    exact Or.inl h
  | succ k ih =>
    cases ha : p.above? t with
    | none =>
      rw [climb_succ_of_none ha, List.mem_singleton] at h
      rw [climb_succ_of_none ha]
      exact Or.inl h
    | some x =>
      rw [climb_succ_of_some ha] at h ⊢
      rcases List.mem_cons.mp h with rfl | h
      · exact Or.inr ⟨x, List.mem_cons_self, ha⟩
      · rcases ih t h with hlast | ⟨z, hz, hyz⟩
        · exact Or.inl hlast
        · exact Or.inr ⟨z, List.mem_cons_of_mem _ hz, hyz⟩

theorem mem_chain_self (p : Plan) (head : NodeId) : head ∈ p.chain head := List.mem_cons_self

theorem getLast?_chain (p : Plan) (head : NodeId) :
    (p.chain head).getLast? = some (p.tail head) := by
  rw [tail, List.getLastD_eq_getLast?, chain, List.getLast?_cons]
  rfl

theorem tail_mem_chain (p : Plan) (head : NodeId) : p.tail head ∈ p.chain head :=
  List.mem_of_getLast? (p.getLast?_chain head)

end Plan

namespace Ready

variable {p : Plan} {roots order : List NodeId} {t x y head : NodeId} {k : Nat}

theorem length_order_le (h : Ready p roots order) : order.length ≤ p.graph.size := by
  have hsub : order ⊆ p.graph.ids := by
    intro x hx
    obtain ⟨n, hn⟩ := h.surveys.known x hx
    exact mem_ids hn
  have hle := (List.subperm_of_subset h.surveys.settled.nodup hsub).length_le
  rwa [ids, List.length_map, List.length_range] at hle

/-! ## The reader above which a node joins -/

theorem above_mem (h : Ready p roots order) (ht : t ∈ order) (ha : p.above? t = some x) :
    x ∈ order ∧ p.graph.isOperation x = true := by
  obtain ⟨_, _, _, hop, _⟩ := Plan.above?_eq_some.mp ha
  exact ⟨h.surveys.settled.closed ht (Plan.reads_of_above? ha), hop⟩

/-- A node that joins a chain is read by nothing else. -/
theorem sole_reader (h : Ready p roots order) (ht : t ∈ order) (ha : p.above? t = some x)
    {c : NodeId} (hc : c ∈ order) (hr : p.graph.Reads c x) : c = t := by
  obtain ⟨_, _, _, _, huses⟩ := Plan.above?_eq_some.mp ha
  have hlen : (p.readers.of x).length ≤ 1 := by
    rw [Plan.uses, Readers.count] at huses
    omega
  have ht' := h.surveys.mem_of ht (Plan.reads_of_above? ha)
  have hc' := h.surveys.mem_of hc hr
  -- both stand in a list of readers with one entry
  obtain ⟨a, hl⟩ := List.length_eq_one_iff.mp
    (Nat.le_antisymm hlen (List.length_pos_of_mem hc'))
  rw [hl, List.mem_singleton] at hc' ht'
  rw [hc', ht']

/-- A node that joins a chain is no root, and no mapping names it. -/
theorem joined_unused (h : Ready p roots order) (hj : p.Joined order x) :
    x ∉ roots ∧ p.mappings.countP (·.reads x) = 0 := by
  obtain ⟨t, ht, ha⟩ := hj
  obtain ⟨_, _, _, _, huses⟩ := Plan.above?_eq_some.mp ha
  have hpos := h.surveys.count_pos_iff.mpr ⟨t, ht, Plan.reads_of_above? ha⟩
  rw [Plan.uses] at huses
  refine ⟨fun hroot => ?_, by omega⟩
  rw [h.unread x hroot] at hpos
  exact Nat.lt_irrefl _ hpos

/-! ## Chains of reached nodes -/

theorem mem_climb (h : Ready p roots order) (ht : t ∈ order) (hy : y ∈ p.climb k t) :
    y ∈ order ∧ p.graph.isOperation y = true ∧ Relation.TransGen p.graph.Reads t y := by
  induction k generalizing t with
  | zero => exact absurd hy (by simp [Plan.climb])
  | succ k ih =>
    cases ha : p.above? t with
    | none => exact absurd hy (by simp [Plan.climb_succ_of_none ha])
    | some x =>
      obtain ⟨hx, hop⟩ := h.above_mem ht ha
      have hread := Plan.reads_of_above? ha
      rw [Plan.climb_succ_of_some ha] at hy
      rcases List.mem_cons.mp hy with rfl | hy
      · exact ⟨hx, hop, .single hread⟩
      · obtain ⟨hy, hyop, hpath⟩ := ih hx hy
        exact ⟨hy, hyop, .head hread hpath⟩

/-- No node stands twice in a chain, as it would then read itself. -/
theorem nodup_climb (h : Ready p roots order) (ht : t ∈ order) : (t :: p.climb k t).Nodup := by
  induction k generalizing t with
  | zero => simp [Plan.climb]
  | succ k ih =>
    refine List.nodup_cons.mpr ⟨fun hmem => ?_, ?_⟩
    · exact h.surveys.settled.not_onCycle ht (h.mem_climb ht hmem).2.2
    · cases ha : p.above? t with
      | none => simp [Plan.climb_succ_of_none ha]
      | some x =>
        rw [Plan.climb_succ_of_some ha]
        exact ih (h.above_mem ht ha).1

/-- With as much fuel as nodes are left, a chain goes up as far as it can. -/
theorem above_getLastD (h : Ready p roots order) (d : NodeId) {pre post : List NodeId}
    (horder : order = pre ++ t :: post) (hk : post.length ≤ k) :
    p.above? ((t :: p.climb k t).getLastD d) = none := by
  have hsettled := h.surveys.settled
  rw [horder] at hsettled
  induction k generalizing t d pre post with
  | zero =>
    rw [Plan.climb]
    show p.above? t = none
    cases ha : p.above? t with
    | none => rfl
    | some z =>
      -- what `t` reads stands behind it in the order, where nothing is left
      have hz := hsettled.mem_of_reads (Plan.reads_of_above? ha)
      rw [List.length_eq_zero_iff.mp (Nat.le_zero.mp hk)] at hz
      exact absurd hz (by simp)
  | succ k ih =>
    cases ha : p.above? t with
    | none =>
      rw [Plan.climb_succ_of_none ha]
      exact ha
    | some x =>
      rw [Plan.climb_succ_of_some ha]
      -- the next node stands further back, so fewer nodes are left behind it
      obtain ⟨post₁, post₂, rfl⟩ :=
        List.append_of_mem (hsettled.mem_of_reads (Plan.reads_of_above? ha))
      have horder' : order = (pre ++ t :: post₁) ++ x :: post₂ := by rw [horder]; simp
      rw [List.length_append, List.length_cons] at hk
      exact ih t horder' (by omega) (horder' ▸ h.surveys.settled)

/-- Nothing joins above the upper end of a chain. -/
theorem above_tail (h : Ready p roots order) (hhead : head ∈ order) :
    p.above? (p.tail head) = none := by
  obtain ⟨pre, post, horder⟩ := List.append_of_mem hhead
  have hlen := h.length_order_le
  rw [horder, List.length_append, List.length_cons] at hlen
  exact h.above_getLastD head horder (by omega)

theorem eq_tail_or_above (h : y ∈ p.chain head) :
    y = p.tail head ∨ ∃ z ∈ p.chain head, p.above? y = some z := by
  rcases Plan.eq_getLastD_or_above head h with hlast | ⟨z, hz, ha⟩
  · exact Or.inl hlast
  · exact Or.inr ⟨z, List.mem_cons_of_mem _ hz, ha⟩

theorem chain_closed (h : Ready p roots order) (hhead : head ∈ order) (hy : y ∈ p.chain head)
    {z : NodeId} (ha : p.above? y = some z) : z ∈ p.chain head := by
  rcases eq_tail_or_above hy with rfl | ⟨z', hz', ha'⟩
  · rw [h.above_tail hhead] at ha
    exact absurd ha (by simp)
  · rw [ha, Option.some.injEq] at ha'
    exact ha' ▸ hz'

theorem chain_mem (h : Ready p roots order) (hhead : p.IsHead order head)
    (hy : y ∈ p.chain head) : y ∈ order ∧ p.graph.isOperation y = true := by
  rcases List.mem_cons.mp hy with rfl | hy
  · exact ⟨hhead.1, hhead.2.1⟩
  · obtain ⟨hy, hop, _⟩ := h.mem_climb hhead.1 hy
    exact ⟨hy, hop⟩

/-! ## Every operation belongs to one chain -/

/-- No operation belongs to two chains. -/
theorem chain_unique (h : Ready p roots order) {head₁ head₂ : NodeId}
    (h₁ : p.IsHead order head₁) (h₂ : p.IsHead order head₂) (hy₁ : y ∈ p.chain head₁)
    (hy₂ : y ∈ p.chain head₂) : head₁ = head₂ := by
  have hy := (h.chain_mem h₁ hy₁).1
  -- from the readers down: two chains that meet have met below already
  revert hy₁ hy₂
  refine h.surveys.settled.induction_readers
    (P := fun y => y ∈ p.chain head₁ → y ∈ p.chain head₂ → head₁ = head₂) ?_ y hy
  intro y hy ih hy₁ hy₂
  rcases List.mem_cons.mp hy₁ with rfl | hclimb₁
  · rcases List.mem_cons.mp hy₂ with rfl | hclimb₂
    · rfl
    · obtain ⟨z, hz, ha⟩ := Plan.mem_climb_cases hclimb₂
      exact absurd ⟨z, (h.chain_mem h₂ hz).1, ha⟩ h₁.2.2
  · obtain ⟨z₁, hz₁, ha₁⟩ := Plan.mem_climb_cases hclimb₁
    have hz₁order := (h.chain_mem h₁ hz₁).1
    rcases List.mem_cons.mp hy₂ with rfl | hclimb₂
    · exact absurd ⟨z₁, hz₁order, ha₁⟩ h₂.2.2
    · obtain ⟨z₂, hz₂, ha₂⟩ := Plan.mem_climb_cases hclimb₂
      -- what joins has one reader, so both chains come up from the same node
      have hread₂ := Plan.reads_of_above? ha₂
      have hsame := h.sole_reader hz₁order ha₁ (h.chain_mem h₂ hz₂).1 hread₂
      exact ih z₁ hz₁order (Plan.reads_of_above? ha₁) hz₁ (hsame ▸ hz₂)

/-- Chains have different upper ends. -/
theorem nodup_tails (h : Ready p roots order) {heads : List NodeId} (hnd : heads.Nodup)
    (hheads : ∀ head ∈ heads, p.IsHead order head) : (heads.map p.tail).Nodup := by
  refine List.Nodup.map_on (fun a ha b hb hab => ?_) hnd
  refine h.chain_unique (hheads a ha) (hheads b hb) (p.tail_mem_chain a) ?_
  rw [hab]
  exact p.tail_mem_chain b

theorem tails_subset (h : Ready p roots order) {heads : List NodeId}
    (hheads : ∀ head ∈ heads, p.IsHead order head) : heads.map p.tail ⊆ order := by
  intro t ht
  obtain ⟨head, hhead, rfl⟩ := List.mem_map.mp ht
  exact (h.chain_mem (hheads head hhead) (p.tail_mem_chain head)).1

/-- **Every reached operation belongs to a chain.** -/
theorem exists_head (h : Ready p roots order) (hy : y ∈ order)
    (hop : p.graph.isOperation y = true) : ∃ head, p.IsHead order head ∧ y ∈ p.chain head := by
  -- from the readers down: what joins belongs to the chain that its reader belongs to
  revert hop
  refine h.surveys.settled.induction_readers (P := fun y => p.graph.isOperation y = true →
    ∃ head, p.IsHead order head ∧ y ∈ p.chain head) ?_ y hy
  intro y hy ih hop
  by_cases hj : p.Joined order y
  · obtain ⟨t, ht, ha⟩ := hj
    have hread := Plan.reads_of_above? ha
    have htop := h.wellFormed.isOperation_of_reads hread (isSource_eq_false_of_isOperation hop)
    obtain ⟨head, hhead, htmem⟩ := ih t ht hread htop
    exact ⟨head, hhead, h.chain_closed hhead.1 htmem ha⟩
  · exact ⟨y, ⟨hy, hop, hj⟩, p.mem_chain_self y⟩

/-- What the slots of a chain's upper end read, if it is an operation, is a head. -/
theorem isHead_of_mem_slots (h : Ready p roots order) (hhead : p.IsHead order head) {e : Edge}
    (he : e ∈ p.slots head) (hop : p.graph.isOperation e.node = true) :
    p.IsHead order e.node := by
  have htail := (h.chain_mem hhead (p.tail_mem_chain head)).1
  have hread : p.graph.Reads (p.tail head) e.node := ⟨e, he, rfl⟩
  refine ⟨h.surveys.settled.closed htail hread, hop, ?_⟩
  rintro ⟨t, ht, ha⟩
  -- its only reader would be the upper end, where the chain would have gone on
  rw [← h.sole_reader ht ha htail hread, h.above_tail hhead.1] at ha
  exact absurd ha (by simp)

/-- A head is read from the upper end of a chain only. -/
theorem eq_tail_of_reads (h : Ready p roots order) (hx : p.IsHead order x) {c : NodeId}
    (hhead : p.IsHead order head) (hc : c ∈ p.chain head) (hr : p.graph.Reads c x) :
    c = p.tail head := by
  rcases eq_tail_or_above hc with htail | ⟨z, hz, ha⟩
  · exact htail
  · -- a lower node of the chain has one slot, and what that reads joins the chain
    obtain ⟨e, he, hez, _⟩ := Plan.above?_eq_some.mp ha
    obtain ⟨e', he', hx'⟩ := hr
    rw [he, List.mem_singleton] at he'
    rw [he', hez] at hx'
    exact absurd ⟨c, (h.chain_mem hhead hc).1, hx' ▸ ha⟩ hx.2.2

/-! ## The chain that the writing finds -/

/-- Nodes that were visited only matter if they are in the way. -/
theorem chainAbove_eq_climb {visited : List NodeId} (hnd : (p.climb k t).Nodup)
    (hfree : ∀ y ∈ p.climb k t, y ∉ visited) : p.chainAbove k visited t = p.climb k t := by
  -- one more node is visited at each step, and the chain does not come back to it
  induction k generalizing t visited with
  | zero => rfl
  | succ k ih =>
    cases ha : p.above? t with
    | none =>
      rw [Plan.climb_succ_of_none ha, Plan.chainAbove]
      split
      · rename_i e he
        rw [if_neg]
        rintro ⟨_, hop, huses⟩
        rw [Plan.above?_eq_some.mpr ⟨e, he, rfl, hop, huses⟩] at ha
        exact absurd ha (by simp)
      · rfl
    | some x =>
      obtain ⟨e, he, rfl, hop, huses⟩ := Plan.above?_eq_some.mp ha
      rw [Plan.climb_succ_of_some ha] at hnd hfree ⊢
      rw [Plan.chainAbove, he]
      dsimp only
      rw [if_pos ⟨hfree _ List.mem_cons_self, hop, huses⟩, ih (List.nodup_cons.mp hnd).2]
      intro y hy hmem
      rcases List.mem_cons.mp hmem with rfl | hmem
      · exact (List.nodup_cons.mp hnd).1 hy
      · exact hfree y (List.mem_cons_of_mem _ hy) hmem

end Ready

end Filtergraph
