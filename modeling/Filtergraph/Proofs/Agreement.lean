import Filtergraph.Proofs.Numbering
import Filtergraph.Proofs.Passes

/-!
# Graphs that agree on a part

A part of a graph is a set of nodes that is closed: what its nodes read belongs to it. Two
graphs agree on a part if its nodes are the same in both, up to the positions of media files.

A walk that starts in the part never leaves it, so every step of it is the same in both
graphs. Only the bounds on the steps differ, as they count all nodes of the tables. But a walk
that goes on has not used up the bound of either graph, so the two walks end alike.
-/

namespace Filtergraph

open Filtergraph.Graph

/-- The two graphs have the same nodes in `part`, and what is read there is in `part` again. -/
structure Graph.AgreeOn (part : NodeId → Prop) (g g' : Graph) : Prop where
  closed : ∀ c x, part c → g.Reads c x → part x
  nodes : ∀ x, part x → g.SameNode g' x

variable {g g' : Graph} {part : NodeId → Prop} {roots : List NodeId}

theorem part_of_path (hclosed : ∀ c x, part c → g.Reads c x → part x) {x y : NodeId}
    (hx : part x) (hpath : Relation.ReflTransGen g.Reads x y) : part y := by
  induction hpath with
  | refl => exact hx
  | tail _ hr ih => exact hclosed _ _ ih hr

namespace Graph.AgreeOn

theorem reached (h : g.AgreeOn part g') (hroots : ∀ root ∈ roots, part root) {x : NodeId}
    (hx : g.Reached roots x) : part x := by
  obtain ⟨root, hroot, hpath⟩ := hx
  exact part_of_path h.closed (hroots root hroot) hpath

/-- Graphs agree on what some roots reach if the nodes there are the same. -/
theorem of_reached (h : ∀ x, g.Reached roots x → g.SameNode g' x) :
    g.AgreeOn (g.Reached roots) g' where
  closed := fun _ _ hc hr => hc.reads hr
  nodes := h

end Graph.AgreeOn

/-! ## Walks -/

namespace Walk

variable {w : Walk} {fuel fuel' : Nat}

theorem run_of_nil (h : w.stack = []) (g : Graph) (fuel : Nat) : w.run g fuel = .ok w := by
  cases fuel with
  | zero => rfl
  | succ fuel => rw [run, h]

theorem run_succ (h : w.stack ≠ []) (g : Graph) (fuel : Nat) :
    w.run g (fuel + 1) = w.step g >>= fun w => w.run g fuel := by
  rw [run]
  cases hstack : w.stack with
  | nil => exact absurd hstack h
  | cons f outer => rfl

section Agree

variable (h : g.AgreeOn part g') (hroots : ∀ root ∈ roots, part root)
include h hroots

/-- A step looks at one node, and that belongs to the part. -/
theorem step_eq (hs : Sound g roots w) : w.step g' = w.step g := by
  obtain ⟨stack, finished, reads⟩ := w
  cases stack with
  | nil => rfl
  | cons f outer =>
    obtain ⟨node, pending⟩ := f
    cases pending with
    | nil => rfl
    | cons edge pending =>
      -- the slot that is passed leads to a node of the part
      have hread : g.Reads node edge.node :=
        hs.reads_pending (f := ⟨node, edge :: pending⟩) List.mem_cons_self List.mem_cons_self
      have hnode : g.Reached roots node := hs.reached node List.mem_cons_self
      have hsame := h.nodes edge.node (h.reached hroots (hnode.reads hread))
      unfold step
      dsimp only
      cases hn : g.node? edge.node with
      | none => rw [hsame.node?_eq_none hn]
      | some n =>
        obtain ⟨n', hn', _, hinputs⟩ := hsame.node? hn
        rw [hn']
        dsimp only
        rw [hinputs]

/-- **Both walks end alike**, whatever fuel they have beyond their bounds. -/
theorem run_eq (hs : Sound g roots w) (hs' : Sound g' roots w)
    (hfuel : bound g ≤ w.passed + fuel) (hfuel' : bound g' ≤ w.passed + fuel') :
    w.run g' fuel' = w.run g fuel := by
  induction fuel generalizing w fuel' with
  | zero =>
    have hnil : w.stack = [] := by
      by_contra hne
      have := hs.passed_lt_bound hne
      omega
    rw [run_of_nil hnil, run_of_nil hnil]
  | succ fuel ih =>
    by_cases hne : w.stack = []
    · rw [run_of_nil hne, run_of_nil hne]
    · -- the second walk goes on too, so it has fuel left as well
      have hlt := hs'.passed_lt_bound hne
      obtain ⟨fuel', rfl⟩ : ∃ k, fuel' = k + 1 := ⟨fuel' - 1, by omega⟩
      rw [run_succ hne, run_succ hne, step_eq h hroots hs]
      cases hstep : w.step g with
      | error e => rfl
      | ok w₁ =>
        have hpassed := passed_step hstep hne
        have hstep' : w.step g' = .ok w₁ := by rw [step_eq h hroots hs, hstep]
        exact ih (hs.step hstep hne) (hs'.step hstep' hne) (by omega) (by omega)

theorem addRoot_eq (hs : Sound g roots w) (hs' : Sound g' roots w) (hnil : w.stack = [])
    {root : NodeId} (hroot : root ∈ roots) : w.addRoot g' root = w.addRoot g root := by
  have hsame := h.nodes root (hroots root hroot)
  unfold addRoot
  cases hn : g.node? root with
  | none => rw [hsame.node?_eq_none hn]
  | some n =>
    obtain ⟨n', hn', _, hinputs⟩ := hsame.node? hn
    rw [hn']
    dsimp only
    -- a root that is finished is not walked from again
    by_cases hfin : root ∈ w.finished
    · rw [if_pos hfin, if_pos hfin]
    · have hopen' := hs'.open hnil hroot hn' hfin
      rw [hinputs] at hopen'
      rw [if_neg hfin, if_neg hfin, hinputs]
      exact run_eq h hroots (hs.open hnil hroot hn hfin) hopen'
        (Nat.le_add_left _ _) (Nat.le_add_left _ _)

/-- From the same roots both graphs are walked alike. -/
theorem addRoots_eq {rest : List NodeId} (hs : Sound g roots w) (hs' : Sound g' roots w)
    (hnil : w.stack = []) (hsub : ∀ r ∈ rest, r ∈ roots) :
    rest.foldlM (addRoot g') w = rest.foldlM (addRoot g) w := by
  induction rest generalizing w with
  | nil => rfl
  | cons root rest ih =>
    have hroot := hsub root List.mem_cons_self
    have heq := addRoot_eq h hroots hs hs' hnil hroot
    rw [List.foldlM_cons, List.foldlM_cons, heq]
    cases hadd : w.addRoot g root with
    | error e => rfl
    | ok w₁ =>
      rw [hadd] at heq
      obtain ⟨hs₁, hnil₁, _⟩ := hs.addRoot hnil hroot hadd
      obtain ⟨hs₁', _⟩ := hs'.addRoot hnil hroot heq
      exact ih hs₁ hs₁' hnil₁ fun r hr => hsub r (List.mem_cons_of_mem _ hr)

end Agree

end Walk

/-- **Graphs that agree are surveyed alike.** -/
theorem Graph.AgreeOn.build_eq (h : g.AgreeOn part g') (hroots : ∀ root ∈ roots, part root) :
    Readers.build g' roots = Readers.build g roots := by
  unfold Readers.build
  rw [Walk.addRoots_eq h hroots (Walk.sound_start g roots) (Walk.sound_start g' roots) rfl
    fun _ hr => hr]

theorem Graph.SameButNumbers.build_eq (h : g.SameButNumbers g') (roots : List NodeId) :
    Readers.build g' roots = Readers.build g roots :=
  (AgreeOn.of_reached fun x _ => h.sameNode x).build_eq fun _ hroot => .root hroot

/-- What is read and the roots are all that is reached. -/
theorem Readers.mem_walked {r : Readers} (hr : Readers.build g roots = .ok r) {x : NodeId} :
    x ∈ r.producers ++ roots ↔ g.Reached roots x := by
  obtain ⟨order, hs⟩ := Readers.surveys_of_build hr
  rw [List.mem_append, hs.mem_producers_iff, hs.reader_or_root_iff, hs.mem_iff]

/-- What is read from a part belongs to it, and so do its readers. -/
theorem Graph.AgreeOn.mem_build (h : g.AgreeOn part g') (hroots : ∀ root ∈ roots, part root)
    {r : Readers} (hr : Readers.build g roots = .ok r) :
    (∀ x ∈ r.producers, part x) ∧ ∀ x, ∀ c ∈ r.of x, part c := by
  obtain ⟨order, hs⟩ := Readers.surveys_of_build hr
  have horder : ∀ x ∈ order, part x := fun x hx => h.reached hroots ((hs.mem_iff x).mp hx)
  refine ⟨fun x hx => ?_, fun x c hc => horder c (hs.of_subset hc).1⟩
  obtain ⟨c, hc, hread⟩ := hs.mem_producers_iff.mp hx
  exact h.closed c x (horder c hc) hread

/-! ## Roots and mappings -/

theorem Graph.SameKind.check_eq {m : Mapping} (h : g.SameKind g' m.node) :
    m.check g' = m.check g := by
  rw [Filtergraph.check_eq, Filtergraph.check_eq]
  cases hn : g.node? m.node with
  | none => rw [h.node?_eq_none hn]
  | some n =>
    obtain ⟨n', hn', hkind⟩ := h.node? hn
    -- what a mapping wants of a role does not depend on a position
    have hwants : ∀ k : Kind, m.wants k.unnumbered = m.wants k := by
      intro k
      cases m <;> cases k <;> rfl
    rw [hn']
    dsimp only
    rw [← hwants, hkind, hwants]

theorem Graph.SameKind.known_eq {root : NodeId} (h : g.SameKind g' root) :
    (g'.find root).map (fun _ => ()) = (g.find root).map (fun _ => ()) := by
  unfold find
  cases hn : g.node? root with
  | none => rw [h.node?_eq_none hn]
  | some n =>
    obtain ⟨n', hn', _⟩ := h.node? hn
    rw [hn']
    rfl

/-- The roots that the recorded slots do not read. -/
def Readers.unread (r : Readers) (roots : List NodeId) : List NodeId :=
  roots.eraseDups.filter fun root => r.count root = 0

/-- The checks of roots and mappings one after the other, and then the walk. -/
theorem finalRoots_eq (g : Graph) (ms : List Mapping) (roots : List NodeId) :
    finalRoots g ms roots = if roots.isEmpty then .error .noRoots else
      (roots.forM fun root => (g.find root).map fun _ => ()) >>= fun _ =>
        ms.forM (Mapping.check g) >>= fun _ =>
          (Readers.build g roots.eraseDups).map (·.unread roots) := by
  unfold finalRoots
  cases roots with
  | nil => rfl
  | cons root rest =>
    cases Readers.build g (root :: rest).eraseDups with
    | ok r => rfl
    | error e => rfl

/-- **Roots and mappings are judged by roles and by the walk alone.** -/
theorem finalRoots_congr {ms : List Mapping} (hroots : ∀ root ∈ roots, g.SameKind g' root)
    (hms : ∀ m ∈ ms, g.SameKind g' m.node)
    (hwalk : (Readers.build g' roots.eraseDups).map (·.unread roots)
      = (Readers.build g roots.eraseDups).map (·.unread roots)) :
    finalRoots g' ms roots = finalRoots g ms roots := by
  rw [finalRoots_eq, finalRoots_eq, hwalk,
    forM_congr fun root hroot => (hroots root hroot).known_eq,
    forM_congr fun m hm => (hms m hm).check_eq]

end Filtergraph
