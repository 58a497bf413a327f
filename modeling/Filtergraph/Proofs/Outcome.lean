import Filtergraph.Proofs.Conservation
import Filtergraph.Proofs.Labels

/-!
# When a compilation succeeds

A graph that only calls have built compiles exactly if its roots and mappings make sense:
there are roots, they exist, the mappings name nodes of the right kind, no cycle is reached,
and mapped operations are reached. Otherwise the first of these conditions that fails decides
about the error. Nothing else can go wrong: the passes find every slot that they have to
move, all files get their positions, and all ports of the splits are read.
-/

namespace Filtergraph

open Filtergraph.Graph

variable {g : Graph} {roots : List NodeId} {ms : List Mapping}

/-- Roots and mappings that a graph can be compiled for. -/
structure Accepted (g : Graph) (roots : List NodeId) (ms : List Mapping) : Prop where
  nonempty : roots ≠ []
  known : ∀ root ∈ roots, ∃ n, g.node? root = some n
  suit : ∀ m ∈ ms, m.Suits g
  acyclic : ∀ x, g.Reached roots x → ¬ g.OnCycle x
  reached : ∀ e, .output e ∈ ms → g.Reached roots e.node

/-- Why a graph is not compiled. Each reason counts only if those before it do not hold. -/
inductive Refused (g : Graph) (roots : List NodeId) (ms : List Mapping) : GraphError → Prop where
  | noRoots (h : roots = []) : Refused g roots ms .noRoots
  /-- The first root that is missing. -/
  | missingRoot {front back : List NodeId} {root : NodeId} (h : roots = front ++ root :: back)
    (hfront : ∀ r ∈ front, ∃ n, g.node? r = some n) (hroot : g.node? root = none) :
    Refused g roots ms (.nodeNotFound root)
  /-- The first mapping that does not suit names a node that is missing. -/
  | missingNode {front back : List Mapping} {m : Mapping} (hne : roots ≠ [])
    (hroots : ∀ root ∈ roots, ∃ n, g.node? root = some n) (h : ms = front ++ m :: back)
    (hfront : ∀ m' ∈ front, m'.Suits g) (hm : g.node? m.node = none) :
    Refused g roots ms (.nodeNotFound m.node)
  /-- The first mapping that does not suit names a node of another kind. -/
  | wrongKind {front back : List Mapping} {m : Mapping} (hne : roots ≠ [])
    (hroots : ∀ root ∈ roots, ∃ n, g.node? root = some n) (h : ms = front ++ m :: back)
    (hfront : ∀ m' ∈ front, m'.Suits g) (hm : ∃ n, g.node? m.node = some n)
    (hkind : ¬ m.Suits g) : Refused g roots ms (.invalidMapping m.node)
  /-- A node that is reached reads itself. -/
  | cycle {x : NodeId} (hne : roots ≠ []) (hroots : ∀ root ∈ roots, ∃ n, g.node? root = some n)
    (hms : ∀ m ∈ ms, m.Suits g) (hx : g.Reached roots x) (hcycle : g.OnCycle x) :
    Refused g roots ms (.cycle x)
  /-- The first mapping of an operation that is not reached. -/
  | unreached {front back : List Mapping} {e : Edge} (hne : roots ≠ [])
    (hroots : ∀ root ∈ roots, ∃ n, g.node? root = some n) (hms : ∀ m ∈ ms, m.Suits g)
    (hacyclic : ∀ x, g.Reached roots x → ¬ g.OnCycle x) (h : ms = front ++ .output e :: back)
    (hfront : ∀ e', .output e' ∈ front → g.Reached roots e'.node)
    (he : ¬ g.Reached roots e.node) : Refused g roots ms (.invalidMapping e.node)

theorem Accepted.not_refused (h : Accepted g roots ms) {e : GraphError} :
    ¬ Refused g roots ms e := by
  intro hr
  cases hr with
  | noRoots hnil => exact h.nonempty hnil
  | @missingRoot _ _ root hroots _ hroot =>
    obtain ⟨n, hn⟩ := h.known root (by rw [hroots]; simp)
    exact absurd hn (by simp [hroot])
  | @missingNode _ _ m _ _ hms _ hm =>
    obtain ⟨n, hn, _⟩ := node?_of_any (h.suit m (by rw [hms]; simp))
    exact absurd hn (by simp [hm])
  | wrongKind _ _ hms _ _ hkind => exact hkind (h.suit _ (by rw [hms]; simp))
  | cycle _ _ _ hx hcycle => exact h.acyclic _ hx hcycle
  | unreached _ _ _ _ hms _ he => exact he (h.reached _ (by rw [hms]; simp))

/-! ## The checks -/

theorem refused_of_finalRoots (hwf : g.WellFormed) {e : GraphError}
    (h : finalRoots g ms roots = .error e) : Refused g roots ms e := by
  unfold finalRoots at h
  cases hroots : roots with
  | nil =>
    rw [hroots] at h
    injection h with h
    rw [← h]
    exact .noRoots rfl
  | cons root rest =>
    have hne : roots ≠ [] := by rw [hroots]; simp
    -- the checks run in the order of the reasons, so all earlier ones have been passed
    rw [← hroots]
    rw [if_neg (by rw [hroots]; simp)] at h
    rcases except_bind_eq_error.mp h with h | ⟨_, hall, h⟩
    · -- a root is missing
      obtain ⟨front, root, back, hsplit, hfront, hroot⟩ := forM_eq_error.mp h
      obtain ⟨hnone, rfl⟩ := known_eq_error hroot
      exact .missingRoot hsplit (fun r hr => known_eq_ok.mp (hfront r hr)) hnone
    have hknown : ∀ root ∈ roots, ∃ n, g.node? root = some n :=
      fun root hroot => known_eq_ok.mp (forM_eq_ok.mp hall root hroot)
    rcases except_bind_eq_error.mp h with h | ⟨_, hchecked, h⟩
    · -- a mapping does not suit
      obtain ⟨front, m, back, hsplit, hfront, hm⟩ := forM_eq_error.mp h
      have hfront : ∀ m' ∈ front, m'.Suits g := fun m' hm' => check_eq_ok.mp (hfront m' hm')
      rcases check_eq_error hm with ⟨hnone, rfl⟩ | ⟨hsome, hsuit, rfl⟩
      · exact .missingNode hne hknown hsplit hfront hnone
      · exact .wrongKind hne hknown hsplit hfront hsome hsuit
    have hsuit : ∀ m ∈ ms, m.Suits g := fun m hm => check_eq_ok.mp (forM_eq_ok.mp hchecked m hm)
    rcases except_bind_eq_error.mp h with h | ⟨r, _, h⟩
    · -- nothing is missing in a well-formed graph, so the walk has met a cycle
      cases Readers.build_error h with
      | missing hx hnone =>
        obtain ⟨n, hn⟩ := hwf.node?_of_reached hknown (reached_eraseDups_iff.mp hx)
        exact absurd hn (by simp [hnone])
      | cycle hx hcycle => exact .cycle hne hknown hsuit (reached_eraseDups_iff.mp hx) hcycle
    · exact absurd h (by simp [pure, Except.pure])

theorem Approach.refused (s : Approach g ms roots) {e : GraphError}
    (h : Outlets.checkReached s.r₁ ⟨s.ends, ms⟩ = .error e) : Refused g roots ms e := by
  obtain ⟨hne, hknown, hchecked, _⟩ := finalRoots_eq_ok.mp s.final_eq
  have hsuit : ∀ m ∈ ms, m.Suits g := fun m hm => check_eq_ok.mp (hchecked m hm)
  obtain ⟨front, edge, back, hsplit, hfront, hunread, rfl⟩ := s.first_unreached h
  have hfinal := final_of_finalRoots s.final_eq
  exact .unreached hne hknown hsuit hfinal.acyclic hsplit hfront hunread

theorem wire_refused (hwf : g.WellFormed) {job : Job} {e : GraphError} {g' : Graph}
    (h : job.wire roots g = .error e g') : Refused g roots job.mappings e := by
  rcases wire_cases hwf job roots with ⟨e', hfinal, hwire⟩ | ⟨s, e', hreach, hwire⟩ | ⟨s, hwire⟩
  · rw [h] at hwire
    injection hwire with he
    exact he ▸ refused_of_finalRoots hwf hfinal
  · rw [h] at hwire
    injection hwire with he
    exact he ▸ s.refused hreach
  · exact absurd (h.symm.trans hwire) (by simp)

/-! ## Nothing else can fail -/

theorem Passage.exists_targets (s : Passage g ms roots) :
    ∃ targets, mappingTargets s.numbered s.outlets.mappings = .ok targets := by
  have hone : ∀ m ∈ s.outlets.mappings, ∃ l, m.target s.numbered = .ok l := by
    intro m hm
    cases m with
    | stream x stream =>
      obtain ⟨i, _, hi⟩ := s.exists_position (s.mem_sources_of_mapping hm)
      exact ⟨.input i stream, by rw [Mapping.target, hi]⟩
    | output e => exact ⟨_, target_output (p := s.plan) (s.mapped_operation hm).2⟩
  obtain ⟨targets, htargets⟩ := exists_forall₂ hone
  exact ⟨targets, mappingTargets_eq_ok.mpr htargets⟩

/-- In a graph without splits of its own all ports are read. -/
theorem Passage.exists_statements (s : Passage g ms roots) (hfree : g.SplitFree) :
    ∃ statements, s.plan.statements s.outlets.roots = .ok statements := by
  obtain ⟨heads, statements, _, hiff⟩ := Plan.exists_schedule s.ready
  refine ⟨statements, (hiff statements).mpr ⟨rfl, fun x _ fanOut hk => ?_⟩⟩
  obtain ⟨i, d, hd, rfl⟩ :=
    s.splits.split_new (s.selectors.splitFree hfree) (kind?_split_numbered s.same hk)
  exact s.readOnce_new hd hk

/-- **A program, or a reason to refuse it.** -/
theorem program_outcome (hg : Built g) (job : Job) (roots : List NodeId) :
    (∃ p g', job.program roots g = .ok p g' ∧ Accepted g roots job.mappings) ∨
      ∃ e g', job.program roots g = .error e g' ∧ Refused g roots job.mappings e := by
  have hwf := hg.reachable.wellFormed
  cases hwire : job.wire roots g with
  | error e g' => exact Or.inr ⟨e, g', program_error_of_wire hwire, wire_refused hwf hwire⟩
  | ok o w =>
    obtain ⟨s, _, _⟩ := exists_passage_of_wire hwf hwire
    obtain ⟨statements, hstatements⟩ := s.exists_statements hg.splitFree
    obtain ⟨targets, htargets⟩ := s.exists_targets
    have hprogram := s.program_eq job rfl
    rw [hstatements, htargets] at hprogram
    obtain ⟨hne, hknown, hchecked, _⟩ := finalRoots_eq_ok.mp s.final_eq
    exact Or.inl ⟨_, _, hprogram, hne, hknown, fun m hm => check_eq_ok.mp (hchecked m hm),
      (final_of_finalRoots s.final_eq).acyclic, fun e he => s.reached_of_mapping he⟩

/-- Writing a program out cannot fail. -/
theorem compile_cases (hg : Built g) (job : Job) (roots : List NodeId) :
    (∃ cmd g', job.compile roots g = .ok cmd g' ∧ Accepted g roots job.mappings) ∨
      ∃ e g', job.compile roots g = .error e g' ∧ Refused g roots job.mappings e := by
  rcases program_outcome hg job roots with ⟨p, g', hp, haccepted⟩ | ⟨e, g', hp, hrefused⟩
  · have hcompile : job.compile roots g
        = .ok ⟨p.args g' ++ job.options ++ [job.destination]⟩ g' := bind_of_eq_ok hp
    exact Or.inl ⟨_, _, hcompile, haccepted⟩
  · exact Or.inr ⟨e, g', bind_eq_error.mpr (Or.inl hp), hrefused⟩

/-- **Exact success condition.** A graph that calls have built compiles just if its roots and
mappings are accepted, and otherwise the error is one of the reasons to refuse them. -/
theorem compile_outcome (hg : Built g) (job : Job) (roots : List NodeId) :
    ((∃ cmd g', job.compile roots g = .ok cmd g') ↔ Accepted g roots job.mappings) ∧
      ∀ e g', job.compile roots g = .error e g' → Refused g roots job.mappings e := by
  rcases compile_cases hg job roots with ⟨cmd, g', hok, haccepted⟩ | ⟨e, g', herror, hrefused⟩
  · refine ⟨⟨fun _ => haccepted, fun _ => ⟨cmd, g', hok⟩⟩, fun e g'' herror => ?_⟩
    rw [hok] at herror
    exact absurd herror (by simp)
  · refine ⟨⟨?_, fun haccepted => absurd hrefused haccepted.not_refused⟩, fun e' g'' herror' => ?_⟩
    · rintro ⟨cmd, g'', hok⟩
      rw [herror] at hok
      exact absurd hok (by simp)
    · rw [herror] at herror'
      injection herror' with he
      exact he ▸ hrefused

/-- Mapping the filter in the middle is accepted. Mapping the merge is not, if only what it
reads is reached. -/
theorem compile_outcome_interleaved : Built interleaved ∧
    Accepted interleaved [⟨3⟩] [.output ⟨⟨1⟩, 0⟩] ∧
    Refused interleaved [⟨2⟩] [.output ⟨⟨3⟩, 0⟩] (.invalidMapping ⟨3⟩) := by
  obtain ⟨cmd, g', hok⟩ := Change.exists_of_succeeds (x := Job.compile
    { destination := "out.mp4", mappings := [.output ⟨⟨1⟩, 0⟩] } [⟨3⟩]) (s := interleaved)
    (by decide +kernel)
  obtain ⟨g'', herror⟩ := Change.exists_of_error? (x := Job.compile
    { destination := "out.mp4", mappings := [.output ⟨⟨3⟩, 0⟩] } [⟨2⟩]) (s := interleaved)
    (e := .invalidMapping ⟨3⟩) (by decide +kernel)
  exact ⟨built_interleaved, (compile_outcome built_interleaved _ _).1.mp ⟨cmd, g', hok⟩,
    (compile_outcome built_interleaved _ _).2 _ g'' herror⟩

end Filtergraph
