import Filtergraph.Proofs.Survey
import Filtergraph.Proofs.WellFormed

/-!
# Numbering the media files

Numbering touches nothing but the positions of the media files. So a numbered graph looks
the same to everything that does not ask for a position, and a file in the list has the
position that it has in the list.
-/

namespace Filtergraph

/-- The role without the position that a media file may have. -/
def Kind.unnumbered : Kind → Kind
  | .source s => .source { s with index := none }
  | k => k

/-- Roles that agree without positions agree, unless they are those of media files. -/
theorem Kind.eq_of_unnumbered {k k' : Kind} (h : k'.unnumbered = k.unnumbered)
    (hk : k.isSource = false) : k' = k := by
  cases k <;> cases k' <;> simp_all [Kind.unnumbered, Kind.isSource]

/-- The node without the position that a media file may have. -/
def Node.unnumbered (n : Node) : Node := ⟨n.kind.unnumbered, n.inputs⟩

namespace Graph

/-- The node is the same in both graphs, up to the position of a media file. -/
def SameNode (g g' : Graph) (c : NodeId) : Prop :=
  (g'.node? c).map Node.unnumbered = (g.node? c).map Node.unnumbered

/-- The role is the same in both graphs, up to the position of a media file. -/
def SameKind (g g' : Graph) (c : NodeId) : Prop :=
  (g'.kind? c).map Kind.unnumbered = (g.kind? c).map Kind.unnumbered

/-- The two graphs differ at most in the positions of media files. -/
def SameButNumbers (g g' : Graph) : Prop :=
  ∀ c, (g'.node? c).map Node.unnumbered = (g.node? c).map Node.unnumbered

/-! ## A node that is the same -/

variable {g g' g'' : Graph} {c : NodeId} {n : Node}

namespace SameKind

/-- A node keeps its role up to a position. -/
theorem node? (h : g.SameKind g' c) (hn : g.node? c = some n) :
    ∃ n', g'.node? c = some n' ∧ n'.kind.unnumbered = n.kind.unnumbered := by
  rw [SameKind, kind?_of_node? hn, Option.map_some, Option.map_eq_some_iff] at h
  obtain ⟨k, hk, he⟩ := h
  obtain ⟨n', hn', rfl⟩ := node?_of_kind? hk
  exact ⟨n', hn', he⟩

theorem node?_eq_none (h : g.SameKind g' c) (hn : g.node? c = none) : g'.node? c = none := by
  rwa [SameKind, kind?, kind?, hn, Option.map_none, Option.map_none, Option.map_eq_none_iff,
    Option.map_eq_none_iff] at h

/-- Only the roles of media files can differ. -/
theorem kind?_cases (h : g.SameKind g' c) : g'.kind? c = g.kind? c ∨
    ∃ f f', g.kind? c = some (.source f) ∧ g'.kind? c = some (.source f') := by
  cases hk : g.kind? c with
  | none =>
    rw [SameKind, hk, Option.map_none, Option.map_eq_none_iff] at h
    exact Or.inl h
  | some k =>
    rw [SameKind, hk, Option.map_some, Option.map_eq_some_iff] at h
    obtain ⟨k', hk', he⟩ := h
    rw [hk', Option.some.injEq]
    -- a position is all that can be different, and only media files have one
    cases k with
    | source f =>
      cases k' with
      | source f' => exact Or.inr ⟨f, f', rfl, rfl⟩
      | _ => exact absurd he (by simp [Kind.unnumbered])
    | _ => exact Or.inl (Kind.eq_of_unnumbered he rfl)

/-- What can be asked of a role without asking for a position. -/
theorem any_kind? (h : g.SameKind g' c) {p : Kind → Bool} (hp : ∀ k : Kind, p k.unnumbered = p k) :
    (g'.kind? c).any p = (g.kind? c).any p := by
  have hany : ∀ k : Option Kind, (k.map Kind.unnumbered).any p = k.any p := by
    intro k
    cases k with
    | none => rfl
    | some k => exact hp k
  rw [← hany, h, hany]

theorem isSource (h : g.SameKind g' c) : g'.isSource c = g.isSource c :=
  h.any_kind? fun k => by cases k <;> rfl

theorem isOperation (h : g.SameKind g' c) : g'.isOperation c = g.isOperation c :=
  h.any_kind? fun k => by cases k <;> rfl

end SameKind

namespace SameNode

theorem node? (h : g.SameNode g' c) (hn : g.node? c = some n) :
    ∃ n', g'.node? c = some n' ∧ n'.kind.unnumbered = n.kind.unnumbered ∧ n'.inputs = n.inputs := by
  rw [SameNode, hn, Option.map_some, Option.map_eq_some_iff] at h
  obtain ⟨n', hn', he⟩ := h
  rw [Node.unnumbered, Node.unnumbered, Node.mk.injEq] at he
  exact ⟨n', hn', he⟩

theorem node?_eq_none (h : g.SameNode g' c) (hn : g.node? c = none) : g'.node? c = none := by
  rwa [SameNode, hn, Option.map_none, Option.map_eq_none_iff] at h

/-- The slots are the same. -/
theorem inputs (h : g.SameNode g' c) : g'.inputs c = g.inputs c := by
  cases hn : g.node? c with
  | none => rw [inputs_of_none hn, inputs_of_none (h.node?_eq_none hn)]
  | some n =>
    obtain ⟨n', hn', _, hinputs⟩ := h.node? hn
    rw [inputs_of_node? hn, inputs_of_node? hn', hinputs]

theorem kind (h : g.SameNode g' c) : g.SameKind g' c := by
  cases hn : g.node? c with
  | none => rw [SameKind, kind?, kind?, hn, h.node?_eq_none hn]
  | some n =>
    obtain ⟨n', hn', hkind, _⟩ := h.node? hn
    rw [SameKind, kind?_of_node? hn, kind?_of_node? hn', Option.map_some, Option.map_some, hkind]

/-- Nodes with the same role and the same slots are the same. -/
theorem of_kind (h : g.SameKind g' c) (hinputs : g'.inputs c = g.inputs c) : g.SameNode g' c := by
  cases hn : g.node? c with
  | none => rw [SameNode, hn, h.node?_eq_none hn]
  | some n =>
    obtain ⟨n', hn', hkind⟩ := h.node? hn
    rw [inputs_of_node? hn, inputs_of_node? hn'] at hinputs
    rw [SameNode, hn, hn', Option.map_some, Option.map_some, Node.unnumbered, Node.unnumbered,
      hkind, hinputs]

/-- A node other than a media file is the same altogether. -/
theorem node?_eq (h : g.SameNode g' c) (hn : g.node? c = some n)
    (hk : n.kind.isSource = false) : g'.node? c = some n := by
  obtain ⟨⟨k', es'⟩, hn', hkind, hinputs⟩ := h.node? hn
  rw [hn', Option.some.injEq]
  exact congrArg₂ Node.mk (Kind.eq_of_unnumbered hkind hk) hinputs

end SameNode

/-! ## Graphs that are the same -/

namespace SameButNumbers

theorem refl (g : Graph) : g.SameButNumbers g := fun _ => rfl

theorem symm (h : g.SameButNumbers g') : g'.SameButNumbers g := fun c => (h c).symm

theorem trans (h : g.SameButNumbers g') (h' : g'.SameButNumbers g'') : g.SameButNumbers g'' :=
  fun c => (h' c).trans (h c)

theorem sameNode (h : g.SameButNumbers g') (c : NodeId) : g.SameNode g' c := h c

theorem node? (h : g.SameButNumbers g') (hn : g.node? c = some n) :
    ∃ n', g'.node? c = some n' ∧ n'.kind.unnumbered = n.kind.unnumbered ∧ n'.inputs = n.inputs :=
  (h.sameNode c).node? hn

theorem inputs (h : g.SameButNumbers g') (c : NodeId) : g'.inputs c = g.inputs c :=
  (h.sameNode c).inputs

theorem any_kind? (h : g.SameButNumbers g') {p : Kind → Bool}
    (hp : ∀ k : Kind, p k.unnumbered = p k) (c : NodeId) :
    (g'.kind? c).any p = (g.kind? c).any p :=
  (h.sameNode c).kind.any_kind? hp

theorem isSource (h : g.SameButNumbers g') (c : NodeId) : g'.isSource c = g.isSource c :=
  (h.sameNode c).kind.isSource

theorem isOperation (h : g.SameButNumbers g') (c : NodeId) : g'.isOperation c = g.isOperation c :=
  (h.sameNode c).kind.isOperation

/-- Nodes other than media files are the same. -/
theorem node?_eq (h : g.SameButNumbers g') (hn : g.node? c = some n)
    (hk : n.kind.isSource = false) : g'.node? c = some n :=
  (h.sameNode c).node?_eq hn hk

/-- A position is not read by anyone, so numbering does not change who reads whom. -/
theorem reads_iff (h : g.SameButNumbers g') {x : NodeId} : g'.Reads c x ↔ g.Reads c x := by
  rw [Reads, Reads, h.inputs]

theorem reads_eq (h : g.SameButNumbers g') : g'.Reads = g.Reads := by
  funext c x
  exact propext h.reads_iff

/-- The same nodes are reached. -/
theorem reached_iff (h : g.SameButNumbers g') {roots : List NodeId} {x : NodeId} :
    g'.Reached roots x ↔ g.Reached roots x := by
  rw [Reached, Reached, h.reads_eq]

end SameButNumbers

variable {id x : NodeId}

/-! ## The pass -/

/-- Setting a position changes positions only. -/
theorem sameButNumbers_setIndex (g : Graph) (id : NodeId) (index : Nat) :
    g.SameButNumbers (g.setIndex id index) := by
  intro c
  unfold setIndex
  -- the position is set at media files only; elsewhere nothing happens
  split
  · rename_i s es hn
    rw [node?_set hn]
    split
    · rename_i hc
      rw [hc, hn]
      rfl
    · rfl
  · rfl

/-- Numbering the media files changes positions only. -/
theorem sameButNumbers_numberFrom (g : Graph) (position : Nat) (ids : List NodeId) :
    g.SameButNumbers (g.numberFrom position ids) := by
  induction ids generalizing g position with
  | nil => exact .refl g
  | cons id ids ih => exact (sameButNumbers_setIndex g id position).trans (ih _ _)

theorem size_setIndex (g : Graph) (id : NodeId) (index : Nat) :
    (g.setIndex id index).size = g.size := by
  unfold setIndex
  split
  · exact size_set g id _
  · rfl

theorem size_numberFrom (g : Graph) (position : Nat) (ids : List NodeId) :
    (g.numberFrom position ids).size = g.size := by
  induction ids generalizing g position with
  | nil => rfl
  | cons id ids ih => rw [numberFrom, ih, size_setIndex]

/-- A media file is a node with that role, whatever its slots are. -/
theorem source?_eq_some {s : Source} :
    g.source? id = some s ↔ ∃ es, g.node? id = some ⟨.source s, es⟩ := by
  unfold source? kind?
  cases hn : g.node? id with
  | none => simp
  | some n =>
    obtain ⟨k, es⟩ := n
    cases k <;> simp

theorem exists_source? (h : g.isSource id = true) : ∃ s, g.source? id = some s := by
  obtain ⟨⟨k, es⟩, hn, hk⟩ := node?_of_isSource h
  cases k with
  | source s => exact ⟨s, source?_eq_some.mpr ⟨es, hn⟩⟩
  | _ => exact absurd hk (by simp [Kind.isSource])

theorem source?_setIndex_self {s : Source} (h : g.source? id = some s) (index : Nat) :
    (g.setIndex id index).source? id = some { s with index := some index } := by
  obtain ⟨es, hn⟩ := source?_eq_some.mp h
  refine source?_eq_some.mpr ⟨es, ?_⟩
  unfold setIndex
  rw [hn]
  dsimp only
  rw [node?_set hn, if_pos rfl]

/-- Setting the position of one file leaves the others as they are. -/
theorem source?_setIndex_of_ne (h : x ≠ id) (index : Nat) :
    (g.setIndex id index).source? x = g.source? x := by
  have hnode : (g.setIndex id index).node? x = g.node? x := by
    unfold setIndex
    split
    · rename_i s es hn
      rw [node?_set hn, if_neg h]
    · rfl
  unfold source? kind?
  rw [hnode]

/-- A file that is not in the list is not numbered. -/
theorem source?_numberFrom_of_not_mem {ids : List NodeId} (h : x ∉ ids) (position : Nat) :
    (g.numberFrom position ids).source? x = g.source? x := by
  induction ids generalizing g position with
  | nil => rfl
  | cons id ids ih =>
    rw [List.mem_cons, not_or] at h
    rw [numberFrom, ih h.2, source?_setIndex_of_ne h.1]

/-- **A file in the list has the position that it has in the list.** -/
theorem source?_numberFrom {ids : List NodeId} (hnd : ids.Nodup) {i position : Nat} {s : Source}
    (hi : ids[i]? = some x) (hs : g.source? x = some s) :
    (g.numberFrom position ids).source? x = some { s with index := some (position + i) } := by
  -- the place in the list goes down as the position goes up
  induction ids generalizing g i position with
  | nil => exact absurd hi (by simp)
  | cons id ids ih =>
    obtain ⟨hnew, hnd⟩ := List.nodup_cons.mp hnd
    cases i with
    | zero =>
      rw [List.getElem?_cons_zero, Option.some.injEq] at hi
      -- numbered here, and not once more further down
      subst hi
      rw [numberFrom, source?_numberFrom_of_not_mem hnew, source?_setIndex_self hs]
      rfl
    | succ i =>
      rw [List.getElem?_cons_succ] at hi
      -- the files before `x` are others, as none is listed twice
      have hne : x ≠ id := fun he => hnew (he ▸ List.mem_of_getElem? hi)
      rw [numberFrom, ih hnd hi (by rw [source?_setIndex_of_ne hne, hs])]
      rw [show position + 1 + i = position + (i + 1) by omega]

end Graph

open Filtergraph.Graph

variable {g g' : Graph}

/-- An order that is settled stays so when files are numbered. -/
theorem Settled.numbered {order : List NodeId} (hs : Settled g order) (h : g.SameButNumbers g') :
    Settled g' order := by
  induction order with
  | nil => trivial
  | cons n rest ih => exact ⟨hs.1, by rw [h.inputs]; exact hs.2.1, ih hs.2.2⟩

/-- A survey of the graph is one of the numbered graph. -/
theorem Surveys.numbered {roots order : List NodeId} {r : Readers} (hs : Surveys g roots r order)
    (h : g.SameButNumbers g') : Surveys g' roots r order where
  settled := hs.settled.numbered h
  mem_iff := fun x => by rw [hs.mem_iff, h.reached_iff]
  known := by
    intro x hx
    obtain ⟨n, hn⟩ := hs.known x hx
    obtain ⟨n', hn', _⟩ := h.node? hn
    exact ⟨n', hn'⟩
  slots := fun c hc => by rw [hs.slots c hc, slotReads, slotReads, h.inputs]
  within := hs.within

end Filtergraph
