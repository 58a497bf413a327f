import Filtergraph.Proofs.Agreement
import Filtergraph.Proofs.Conservation

/-!
# The record of the readers is exact

The walk over the input slots is a loop that steps until its stack is empty, started anew
for each root. `Walk.Ends` is that loop without a bound on its steps, and `Walk.EndsFrom`
is the loop over the roots around it. Both come to an end on every graph, and the bound
that the walk is given is never what ends it.

Where all slots read existing nodes, only two things stop a walk: a root that does not
exist, and a cycle that the roots reach. A walk that nothing stops has counted every slot
of every reached node once, and no other.
-/

namespace Filtergraph

open Filtergraph.Graph

namespace Walk

/-- The walk from `w` steps until its stack is empty or a step fails, and ends so. -/
inductive Ends (g : Graph) : Walk → Except GraphError Walk → Prop where
  | done {w : Walk} (hnil : w.stack = []) : Ends g w (.ok w)
  | failed {w : Walk} {e : GraphError} (h : w.step g = .error e) : Ends g w (.error e)
  | next {w w₁ : Walk} {result : Except GraphError Walk} (hne : w.stack ≠ [])
    (h : w.step g = .ok w₁) (hrest : Ends g w₁ result) : Ends g w result

/-- The walk goes on from one root after another, each time to its end. -/
inductive EndsFrom (g : Graph) : List NodeId → Walk → Except GraphError Walk → Prop where
  | nil {w : Walk} : EndsFrom g [] w (.ok w)
  | missing {root : NodeId} {rest : List NodeId} {w : Walk} (hnone : g.node? root = none) :
    EndsFrom g (root :: rest) w (.error (.nodeNotFound root))
  | passed {root : NodeId} {rest : List NodeId} {w : Walk} {node : Node}
    {result : Except GraphError Walk} (hnode : g.node? root = some node)
    (hfin : root ∈ w.finished) (hrest : EndsFrom g rest w result) :
    EndsFrom g (root :: rest) w result
  | failed {root : NodeId} {rest : List NodeId} {w : Walk} {node : Node} {e : GraphError}
    (hnode : g.node? root = some node) (hnew : root ∉ w.finished)
    (h : Ends g { w with stack := [⟨root, node.inputs⟩] } (.error e)) :
    EndsFrom g (root :: rest) w (.error e)
  | walked {root : NodeId} {rest : List NodeId} {w w₁ : Walk} {node : Node}
    {result : Except GraphError Walk} (hnode : g.node? root = some node)
    (hnew : root ∉ w.finished) (h : Ends g { w with stack := [⟨root, node.inputs⟩] } (.ok w₁))
    (hrest : EndsFrom g rest w₁ result) : EndsFrom g (root :: rest) w result

variable {g : Graph} {roots : List NodeId} {w : Walk}

/-- A run with steps enough ends as the loop without a bound does. -/
theorem Sound.ends_run {fuel : Nat} (hs : Sound g roots w) (hfuel : bound g ≤ w.passed + fuel) :
    Ends g w (w.run g fuel) := by
  induction fuel generalizing w with
  | zero =>
    -- a walk with work left would have passed less than the bound
    refine .done ?_
    by_contra hne
    have hlt := hs.passed_lt_bound hne
    omega
  | succ fuel ih =>
    by_cases hnil : w.stack = []
    · rw [run_of_nil hnil]
      exact .done hnil
    · rw [run_succ hnil]
      cases hstep : w.step g with
      | error e => exact .failed hstep
      | ok w₁ =>
        have hpassed := passed_step hstep hnil
        exact .next hnil hstep (ih (hs.step hstep hnil) (by omega))

/-- Over the roots, too, the bound changes nothing. -/
theorem Sound.endsFrom {rest : List NodeId} (hs : Sound g roots w) (hnil : w.stack = [])
    (hsub : ∀ r ∈ rest, r ∈ roots) : EndsFrom g rest w (rest.foldlM (Walk.addRoot g) w) := by
  induction rest generalizing w with
  | nil => exact .nil
  | cons root rest ih =>
    have hroot := hsub root List.mem_cons_self
    have hsub' : ∀ r ∈ rest, r ∈ roots := fun r hr => hsub r (List.mem_cons_of_mem _ hr)
    rw [List.foldlM_cons]
    cases hnode : g.node? root with
    | none =>
      rw [Walk.addRoot, hnode]
      exact .missing hnode
    | some node =>
      -- an earlier root may have led here already
      by_cases hfin : root ∈ w.finished
      · rw [Walk.addRoot, hnode]
        dsimp only
        rw [if_pos hfin]
        exact .passed hnode hfin (ih hs hnil hsub')
      · have hadd : w.addRoot g root
            = Walk.run g (bound g) { w with stack := [⟨root, node.inputs⟩] } := by
          rw [Walk.addRoot, hnode]
          dsimp only
          rw [if_neg hfin]
        have hends : Ends g { w with stack := [⟨root, node.inputs⟩] } (w.addRoot g root) := by
          rw [hadd]
          exact (hs.open hnil hroot hnode hfin).ends_run (by omega)
        cases hw₁ : w.addRoot g root with
        | error e =>
          rw [hw₁] at hends
          exact .failed hnode hfin hends
        | ok w₁ =>
          rw [hw₁] at hends
          obtain ⟨hs₁, hnil₁, _, _⟩ := hs.addRoot hnil hroot hw₁
          exact .walked hnode hfin hends (ih hs₁ hnil₁ hsub')

end Walk

/-! ## What a record counts -/

/-- The record counts the slots of the nodes that the roots reach, each slot once. -/
structure Readers.Exact (g : Graph) (roots : List NodeId) (r : Readers) : Prop where
  /-- A reached node stands among the readers of `x` once for each of its slots that read it. -/
  count : ∀ c x, g.Reached roots c → (r.of x).count c = (g.inputs c).countP (·.node = x)
  /-- A node that is not reached stands among the readers of none. -/
  unreached : ∀ c x, ¬ g.Reached roots c → c ∉ r.of x
  /-- The nodes that are read are listed once. -/
  nodup : r.producers.Nodup
  /-- They are those that a slot of a reached node reads. -/
  mem_producers : ∀ x, x ∈ r.producers ↔ ∃ c, g.Reached roots c ∧ g.Reads c x
  /-- All counts together are the number of slots of the reached nodes. -/
  total : ∃ order, g.Lists roots order ∧
    (g.ids.map r.count).sum = (order.map fun c => (g.inputs c).length).sum

/-- The record has as many entries as the reached nodes have slots. -/
theorem Surveys.length_reads {g : Graph} {roots order : List NodeId} {r : Readers}
    (h : Surveys g roots r order) :
    r.reads.length = (order.map fun c => (g.inputs c).length).sum := by
  have hperm := perm_flatMap_filter Read.consumer r.reads h.settled.nodup h.within
  rw [← hperm.length_eq, List.length_flatMap]
  refine congrArg List.sum (List.map_congr_left fun c hc => ?_)
  rw [h.slots c hc, slotReads, List.length_map]

/-- **What a walk has recorded is exact.** -/
theorem Surveys.exact {g : Graph} {roots order : List NodeId} {r : Readers}
    (h : Surveys g roots r order) : r.Exact g roots where
  count c x hc := h.count_of ((h.mem_iff c).mpr hc) x
  unreached := by
    intro c x hc hmem
    exact hc ((h.mem_iff c).mp (h.of_subset hmem).1)
  nodup := nodup_eraseDups _
  mem_producers := by
    intro x
    rw [h.mem_producers_iff]
    exact exists_congr fun c => and_congr_left' (h.mem_iff c)
  total := by
    refine ⟨order, h.lists, ?_⟩
    have hcover : ∀ q ∈ r.reads, q.producer ∈ g.ids := by
      intro q hq
      have hreader : q.consumer ∈ r.of q.producer :=
        List.mem_map.mpr ⟨q, List.mem_filter.mpr ⟨hq, by simp⟩, rfl⟩
      obtain ⟨hc, hreads⟩ := h.of_subset hreader
      obtain ⟨n, hn⟩ := h.known _ (h.settled.closed hc hreads)
      exact mem_ids hn
    -- sorting the entries by what they read, and by who reads, gives the two sums
    calc (g.ids.map r.count).sum
        = (g.ids.flatMap fun x => r.reads.filter (·.producer = x)).length := by
          rw [List.length_flatMap]
          exact congrArg List.sum (List.map_congr_left fun x _ => List.length_map _)
      _ = r.reads.length := (perm_flatMap_filter Read.producer r.reads g.nodup_ids hcover).length_eq
      _ = (order.map fun c => (g.inputs c).length).sum := h.length_reads

/-! ## When there is a record -/

section Closed

variable {g : Graph} {roots : List NodeId} (hclosed : ∀ c x, g.Reads c x → ∃ n, g.node? x = some n)
include hclosed

theorem Graph.Reached.root_or_known {x : NodeId} (hx : g.Reached roots x) :
    x ∈ roots ∨ ∃ n, g.node? x = some n := by
  rcases hx.cases_reader with hroot | ⟨c, _, hr⟩
  · exact Or.inl hroot
  · exact Or.inr (hclosed c x hr)

/-- **There is a record if and only if the roots exist and reach no cycle.** -/
theorem Readers.exists_build_iff : (∃ r, Readers.build g roots = .ok r) ↔
    (∀ root ∈ roots, ∃ n, g.node? root = some n) ∧ ∀ x, g.Reached roots x → ¬ g.OnCycle x := by
  constructor
  · rintro ⟨r, hr⟩
    obtain ⟨order, h⟩ := Readers.surveys_of_build hr
    refine ⟨?_, ?_⟩
    · intro root hroot
      exact h.known root ((h.mem_iff root).mpr (.root hroot))
    · intro x hx
      exact h.settled.not_onCycle ((h.mem_iff x).mpr hx)
  · rintro ⟨hroots, hacyclic⟩
    refine Readers.exists_build ?_ hacyclic
    intro x hx
    -- what is reached is a root, or some slot reads it
    rcases hx.root_or_known hclosed with hroot | hknown
    · exact hroots x hroot
    · exact hknown

/-- An error names a root that does not exist, or a node that is reached from a root and
reads itself, directly or through others. -/
theorem Readers.build_error_cases {e : GraphError} (h : Readers.build g roots = .error e) :
    (∃ x ∈ roots, g.node? x = none ∧ e = .nodeNotFound x) ∨
    ∃ x, g.Reached roots x ∧ g.OnCycle x ∧ e = .cycle x := by
  cases Readers.build_error h with
  | @missing x hx hnone =>
    rcases hx.root_or_known hclosed with hroot | ⟨n, hn⟩
    · exact Or.inl ⟨x, hroot, hnone, rfl⟩
    · rw [hnone] at hn
      exact absurd hn (by simp)
  | @cycle x hx hcycle => exact Or.inr ⟨x, hx, hcycle, rfl⟩

end Closed

/-- The walk ends as its loop does without a bound. -/
theorem Readers.build_ends (g : Graph) (roots : List NodeId) :
    ∃ result, Walk.EndsFrom g roots {} result ∧
      Readers.build g roots = result.map fun w => ⟨w.reads.reverse⟩ := by
  refine ⟨roots.foldlM (Walk.addRoot g) {}, ?_, ?_⟩
  · exact (Walk.sound_start g roots).endsFrom rfl fun _ hr => hr
  · rw [Readers.build]
    cases roots.foldlM (Walk.addRoot g) {} with
    | error e => rfl
    | ok w => rfl

/-- **The readers of a graph are found exactly.** Whatever the roots, the walk ends. It
succeeds if and only if the roots exist and no cycle is reached, and an error names the
missing root or a node on a cycle. A record counts each slot of each reached node once. -/
theorem readers_build_exact {g : Graph} (hclosed : ∀ c x, g.Reads c x → ∃ n, g.node? x = some n)
    (roots : List NodeId) :
    (∃ result, Walk.EndsFrom g roots {} result ∧
      Readers.build g roots = result.map fun w => ⟨w.reads.reverse⟩) ∧
    ((∃ r, Readers.build g roots = .ok r) ↔
      (∀ root ∈ roots, ∃ n, g.node? root = some n) ∧ ∀ x, g.Reached roots x → ¬ g.OnCycle x) ∧
    (∀ e, Readers.build g roots = .error e →
      (∃ x ∈ roots, g.node? x = none ∧ e = .nodeNotFound x) ∨
      ∃ x, g.Reached roots x ∧ g.OnCycle x ∧ e = .cycle x) ∧
    ∀ r, Readers.build g roots = .ok r → r.Exact g roots := by
  refine ⟨Readers.build_ends g roots, Readers.exists_build_iff hclosed,
    fun e he => Readers.build_error_cases hclosed he, ?_⟩
  intro r hr
  obtain ⟨order, h⟩ := Readers.surveys_of_build hr
  exact h.exact

/-- Two filters that read each other, a merge that reads both, and a filter beside them. -/
def crossed : Graph :=
  afterCalls [.addSource { path := "in.mp4" }, .addFilter (.curves "vintage") [⟨0⟩],
    .addFilter (.rotate "0.5") [⟨1⟩], .addMerge [⟨1⟩, ⟨2⟩, ⟨1⟩], .addFilter (.rotate "0.25") [⟨0⟩],
    .setInputs ⟨1⟩ [⟨2⟩]]

theorem readers_build_exact_crossed :
    (∀ c x, crossed.Reads c x → ∃ n, crossed.node? x = some n) ∧
    (∃ r, Readers.build crossed [⟨4⟩, ⟨0⟩, ⟨4⟩] = .ok r ∧ r.Exact crossed [⟨4⟩, ⟨0⟩, ⟨4⟩]) ∧
    ∃ x, Readers.build crossed [⟨4⟩, ⟨3⟩] = .error (.cycle x) ∧ crossed.OnCycle x := by
  have hclosed : ∀ c x, crossed.Reads c x → ∃ n, crossed.node? x = some n :=
    fun _ _ hr => (built_afterCalls _).reachable.wellFormed.node?_of_reads hr
  refine ⟨hclosed, ?_, ?_⟩
  · obtain ⟨_, _, _, hexact⟩ := readers_build_exact hclosed [⟨4⟩, ⟨0⟩, ⟨4⟩]
    have hbuild : Readers.build crossed [⟨4⟩, ⟨0⟩, ⟨4⟩] = .ok ⟨[⟨⟨0⟩, ⟨4⟩⟩]⟩ := by decide +kernel
    exact ⟨_, hbuild, hexact _ hbuild⟩
  · obtain ⟨_, _, herror, _⟩ := readers_build_exact hclosed [⟨4⟩, ⟨3⟩]
    have hbuild : Readers.build crossed [⟨4⟩, ⟨3⟩] = .error (.cycle ⟨1⟩) := by decide +kernel
    rcases herror _ hbuild with ⟨x, _, _, hx⟩ | ⟨x, _, hcycle, hx⟩
    · exact absurd hx (by simp)
    · exact ⟨x, by rw [hbuild, hx], hcycle⟩

end Filtergraph
