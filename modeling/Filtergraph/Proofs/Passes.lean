import Filtergraph.Proofs.Selectors
import Filtergraph.Proofs.Uses

/-!
# The passes of a compilation

A compilation first checks roots and mappings and drops the roots that others lead to.
Then it adds selectors, then splits, then it numbers the media files. Here the passes are
put together: what each one leaves is what the next one asks for. A `Passage` holds the
graph at each station, with what is known of it there. Once the roots and mappings are
accepted there is a passage, and the compilation goes through its stations.
-/

namespace Filtergraph

open Filtergraph.Graph

/-! ## The roots that count -/

/-- `ends` are the roots that nothing reached reads, each once. -/
structure Final (g : Graph) (roots ends : List NodeId) : Prop where
  once : ends.Nodup
  mem_iff : ∀ x, x ∈ ends ↔ x ∈ roots ∧ ∀ c, g.Reached roots c → ¬ g.Reads c x
  /-- They lead wherever the roots lead. -/
  reached_iff : ∀ x, g.Reached ends x ↔ g.Reached roots x
  known : ∀ x, g.Reached roots x → ∃ n, g.node? x = some n
  acyclic : ∀ x, g.Reached roots x → ¬ g.OnCycle x

variable {g : Graph} {roots ends : List NodeId}

theorem reached_eraseDups_iff {x : NodeId} :
    g.Reached roots.eraseDups x ↔ g.Reached roots x := by
  unfold Reached
  simp only [List.mem_eraseDups]

/-- The roots that count, once the readers are known. -/
theorem final_of_build {r : Readers} (h : Readers.build g roots.eraseDups = .ok r) :
    Final g roots (roots.eraseDups.filter fun root => r.count root = 0) := by
  obtain ⟨order, hs⟩ := Readers.surveys_of_build h
  have hmem : ∀ x, x ∈ order ↔ g.Reached roots x := fun x => by
    rw [hs.mem_iff, reached_eraseDups_iff]
  -- nothing is counted for a node just if nothing reached reads it
  have hzero : ∀ x, r.count x = 0 ↔ ∀ c, g.Reached roots c → ¬ g.Reads c x := by
    intro x
    constructor
    · intro hcount c hc hr
      have hpos := hs.count_pos_iff.mpr ⟨c, (hmem c).mpr hc, hr⟩
      omega
    · intro hnone
      by_contra hpos
      obtain ⟨c, hc, hr⟩ := hs.count_pos_iff.mp (Nat.pos_of_ne_zero hpos)
      exact hnone c ((hmem c).mp hc) hr
  have hends : ∀ x, x ∈ (roots.eraseDups.filter fun root => r.count root = 0)
      ↔ x ∈ roots ∧ ∀ c, g.Reached roots c → ¬ g.Reads c x := by
    intro x
    rw [List.mem_filter, List.mem_eraseDups, decide_eq_true_eq, hzero]
  refine ⟨(nodup_eraseDups _).filter _, hends, fun x => ⟨?_, fun hx => ?_⟩, ?_, ?_⟩
  · rintro ⟨root, hroot, hpath⟩
    exact ⟨root, ((hends root).mp hroot).1, hpath⟩
  · -- from the readers down: a root that is dropped is read by something that is reached
    refine hs.settled.induction_readers (P := g.Reached _) (fun y hy ih => ?_) x ((hmem x).mpr hx)
    by_cases hread : ∃ c ∈ order, g.Reads c y
    · obtain ⟨c, hc, hr⟩ := hread
      exact (ih c hc hr).reads hr
    · have hroot : y ∈ roots := by
        rcases hs.root_or_reader hy with hroot | hreader
        · exact List.mem_eraseDups.mp hroot
        · exact absurd hreader hread
      refine .root ((hends y).mpr ⟨hroot, fun c hc hr => hread ⟨c, (hmem c).mpr hc, hr⟩⟩)
  · exact fun x hx => hs.known x ((hmem x).mpr hx)
  · exact fun x hx => hs.settled.not_onCycle ((hmem x).mpr hx)

theorem Final.exists_build (h : Final g roots ends) : ∃ r, Readers.build g ends = .ok r :=
  Readers.exists_build (fun x hx => h.known x ((h.reached_iff x).mp hx))
    fun x hx => h.acyclic x ((h.reached_iff x).mp hx)

theorem known_eq_ok {root : NodeId} :
    (g.find root).map (fun _ => ()) = .ok () ↔ ∃ n, g.node? root = some n := by
  unfold find
  cases g.node? root with
  | none => simp [Except.map]
  | some n => simp [Except.map]

theorem known_eq_error {root : NodeId} {e : GraphError}
    (h : (g.find root).map (fun _ => ()) = .error e) :
    g.node? root = none ∧ e = .nodeNotFound root := by
  unfold find at h
  cases hn : g.node? root with
  | none =>
    rw [hn] at h
    injection h with h
    exact ⟨rfl, h.symm⟩
  | some n =>
    rw [hn] at h
    exact absurd h (by simp [Except.map])

/-- Roots and mappings as the first check accepts them. -/
theorem finalRoots_eq_ok {ms : List Mapping} : finalRoots g ms roots = .ok ends ↔
    roots ≠ [] ∧ (∀ root ∈ roots, ∃ n, g.node? root = some n) ∧
      (∀ m ∈ ms, m.check g = .ok ()) ∧ ∃ r, Readers.build g roots.eraseDups = .ok r ∧
        ends = roots.eraseDups.filter fun root => r.count root = 0 := by
  unfold finalRoots
  cases roots with
  -- without roots there is nothing to compile
  | nil => simp [bind, Except.bind, throw, throwThe, MonadExceptOf.throw]
  | cons root rest =>
    show (List.forM (root :: rest) _ >>= _) = _ ↔ _
    rw [except_bind_eq_ok]
    simp only [except_bind_eq_ok, forM_eq_ok, known_eq_ok]
    constructor
    · rintro ⟨_, hroots, _, hms, r, hr, hends⟩
      injection hends with hends
      exact ⟨by simp, hroots, hms, r, hr, hends.symm⟩
    · rintro ⟨_, hroots, hms, r, hr, hends⟩
      exact ⟨(), hroots, (), hms, r, hr, by rw [hends]; rfl⟩

theorem final_of_finalRoots {ms : List Mapping} (h : finalRoots g ms roots = .ok ends) :
    Final g roots ends := by
  obtain ⟨_, _, _, r, hr, rfl⟩ := finalRoots_eq_ok.mp h
  exact final_of_build hr

/-! ## Mappings -/

/-- The node that a mapping names. -/
def Mapping.node : Mapping → NodeId
  | .stream source _ => source
  | .output e => e.node

/-- The kind of node that a mapping wants: a media file, or a filter or merge. -/
def Mapping.wants : Mapping → Kind → Bool
  | .stream _ _ => Kind.isSource
  | .output _ => Kind.isFilterOrMerge

/-- The mapping names a node of the kind that it wants. -/
def Mapping.Suits (g : Graph) (m : Mapping) : Prop := (g.kind? m.node).any m.wants = true

/-- What the two kinds of mappings have in common: a node, and a kind that it must have. -/
theorem check_eq (g : Graph) (m : Mapping) : m.check g =
    match g.node? m.node with
    | none => .error (.nodeNotFound m.node)
    | some n => if m.wants n.kind then .ok () else .error (.invalidMapping m.node) := by
  cases m with
  | stream source stream =>
    rw [Mapping.check, find, Mapping.node]
    cases g.node? source with
    | none => rfl
    | some n => rfl
  | output e =>
    rw [Mapping.check, find, Mapping.node]
    cases g.node? e.node with
    | none => rfl
    | some n => rfl

theorem check_eq_ok {m : Mapping} : m.check g = .ok () ↔ m.Suits g := by
  rw [check_eq, Mapping.Suits, kind?]
  cases g.node? m.node with
  | none => simp
  | some n =>
    by_cases hk : m.wants n.kind = true
    · simp [hk]
    · simp [hk]

theorem check_eq_error {m : Mapping} {e : GraphError} (h : m.check g = .error e) :
    (g.node? m.node = none ∧ e = .nodeNotFound m.node) ∨
      ((∃ n, g.node? m.node = some n) ∧ ¬ m.Suits g ∧ e = .invalidMapping m.node) := by
  have hsuit : ¬ m.Suits g := by
    rw [← check_eq_ok, h]
    simp
  rw [check_eq] at h
  rw [Mapping.Suits, kind?] at hsuit
  cases hn : g.node? m.node with
  | none =>
    rw [hn, Except.error.injEq] at h
    exact Or.inl ⟨rfl, h.symm⟩
  | some n =>
    rw [hn, Option.map_some, Option.any_some] at hsuit
    rw [hn] at h
    dsimp only at h
    rw [if_neg hsuit, Except.error.injEq] at h
    refine Or.inr ⟨⟨n, rfl⟩, ?_, h.symm⟩
    rwa [Mapping.Suits, kind?, hn]

section Reached

variable {o : Outlets} {r : Readers} {order : List NodeId} (hs : Surveys g o.roots r order)
include hs

theorem checkReached_eq : o.checkReached r = o.mappings.forM fun
    | .stream _ _ => .ok ()
    | .output e => if e.node ∈ order then .ok () else .error (.invalidMapping e.node) := by
  unfold Outlets.checkReached
  congr 1
  funext m
  cases m with
  | stream x stream => rfl
  | output e =>
    dsimp only
    simp only [hs.count_pos_iff, hs.reader_or_root_iff]

theorem checkReached_eq_ok {u : PUnit} :
    o.checkReached r = .ok u ↔ ∀ e, .output e ∈ o.mappings → e.node ∈ order := by
  rw [checkReached_eq hs, forM_eq_ok]
  constructor
  · intro hall e he
    have hok := hall _ he
    by_contra hout
    dsimp only at hok
    rw [if_neg hout] at hok
    exact absurd hok (by simp)
  · intro hall m hm
    cases m with
    | stream x stream => rfl
    | output e => exact if_pos (hall e hm)

/-- The first mapping of a node that is not reached is refused. -/
theorem checkReached_eq_error {e : GraphError} (h : o.checkReached r = .error e) :
    ∃ front edge back, o.mappings = front ++ .output edge :: back ∧
      (∀ edge', .output edge' ∈ front → edge'.node ∈ order) ∧ edge.node ∉ order ∧
      e = .invalidMapping edge.node := by
  rw [checkReached_eq hs] at h
  obtain ⟨front, m, back, hsplit, hfront, hm⟩ := forM_eq_error.mp h
  cases m with
  | stream x stream => exact absurd hm (by simp)
  | output edge =>
    refine ⟨front, edge, back, hsplit, fun edge' hedge' => ?_, ?_⟩
    · have hok := hfront _ hedge'
      by_contra hout
      dsimp only at hok
      rw [if_neg hout] at hok
      exact absurd hok (by simp)
    · dsimp only at hm
      by_cases hin : edge.node ∈ order
      · rw [if_pos hin] at hm
        exact absurd hm (by simp)
      · rw [if_neg hin, Except.error.injEq] at hm
        exact ⟨hin, hm.symm⟩

end Reached

/-! ## The stations -/

/-- The way to the graph with its selectors. -/
structure Approach (g : Graph) (mappings : List Mapping) (roots : List NodeId) where
  /-- The roots that count. -/
  ends : List NodeId
  final_eq : finalRoots g mappings roots = .ok ends
  r₀ : Readers
  order₀ : List NodeId
  /-- The graph with its selectors. -/
  selected : Graph
  added : Nat
  selectors : SelectorPass g ends r₀ order₀ selected
  selectors_eq : insertSelectors g ends = .ok (selected, added)
  r₁ : Readers
  order₁ : List NodeId
  r₁_eq : Readers.build selected ends = .ok r₁
  splittable : Splittable selected ⟨ends, mappings⟩ r₁ order₁

/-- The way to the graph that is written. -/
structure Passage (g : Graph) (mappings : List Mapping) (roots : List NodeId) extends
    Approach g mappings roots where
  /-- The graph with its selectors and splits. -/
  wired : Graph
  /-- Roots and mappings after the splits are there. -/
  outlets : Outlets
  splits : SplitPass selected ⟨ends, mappings⟩ r₁ order₁ wired outlets
  splits_eq : insertSplits ⟨ends, mappings⟩ selected = .ok outlets wired
  readers : Readers
  order : List NodeId
  readers_eq : Readers.build wired outlets.roots = .ok readers
  surveys : Surveys wired outlets.roots readers order

variable {ms : List Mapping}

/-- The part of a compilation that gives the graph its selectors and splits. -/
def Job.wire (job : Job) (roots : List NodeId) : Edit Outlets := do
  let ends ← consult (finalRoots · job.mappings roots)
  let (g, _) ← consult (insertSelectors · ends)
  set g
  insertSplits ⟨ends, job.mappings⟩

/-- A compilation wires the graph, then numbers its media files and writes it. -/
theorem Job.program_eq_wire (job : Job) (roots : List NodeId) : job.program roots = (do
    let outlets ← job.wire roots
    let readers ← consult (Readers.build · outlets.roots)
    let g ← get
    let sources := inputOrder g readers outlets.roots outlets.mappings
    set (g.numberFrom 0 sources)
    let statements ← consult fun g =>
      Plan.statements ⟨g, readers, outlets.mappings⟩ outlets.roots
    let targets ← consult (mappingTargets · outlets.mappings)
    return ⟨sources, statements, targets⟩) := by
  unfold Job.program Job.wire
  simp only [bind_assoc]

theorem program_error_of_wire {job : Job} {e : GraphError} {g' : Graph}
    (h : job.wire roots g = .error e g') : job.program roots g = .error e g' := by
  rw [Job.program_eq_wire]
  exact bind_eq_error.mpr (Or.inl h)

theorem wire_error_of_finalRoots {job : Job} {e : GraphError}
    (h : finalRoots g job.mappings roots = .error e) : job.wire roots g = .error e g :=
  consult_bind_of_error h

/-- Once roots and selectors are settled only the splits are left to be wired. -/
theorem wire_eq_insertSplits {job : Job} {g' : Graph} {added : Nat}
    (hends : finalRoots g job.mappings roots = .ok ends)
    (hselect : insertSelectors g ends = .ok (g', added)) :
    job.wire roots g = insertSplits ⟨ends, job.mappings⟩ g' := by
  unfold Job.wire
  refine Eq.trans (consult_bind_of_ok hends) ?_
  refine Eq.trans (consult_bind_of_ok hselect) ?_
  exact set_bind_eq _ g g'

/-- **Once roots and mappings are accepted, the graph gets its selectors.** -/
theorem exists_approach (hwf : g.WellFormed) (h : finalRoots g ms roots = .ok ends) :
    ∃ s : Approach g ms roots, s.ends = ends := by
  have hfinal := final_of_finalRoots h
  obtain ⟨r₀, hr₀⟩ := hfinal.exists_build
  obtain ⟨order₀, hs₀⟩ := Readers.surveys_of_build hr₀
  obtain ⟨selected, heq, hpass⟩ := exists_selectorPass hwf hs₀ hr₀
  obtain ⟨r₁, hr₁⟩ := hpass.exists_build
  obtain ⟨order₁, hs₁⟩ := Readers.surveys_of_build hr₁
  refine ⟨⟨ends, h, r₀, order₀, selected, _, hpass, heq, r₁, order₁, hr₁, ?_⟩, rfl⟩
  refine ⟨hpass.wellFormed, hs₁, hfinal.once, fun root hroot => ?_, fun e he => ?_⟩
  · have hunread : ∀ c, g.Reached ends c → ¬ g.Reads c root :=
      fun c hc => ((hfinal.mem_iff root).mp hroot).2 c ((hfinal.reached_iff c).mp hc)
    -- a selector that reads a root would stand behind a file that an operation reads
    by_contra hpos
    obtain ⟨c, hc, hr⟩ := hs₁.count_pos_iff.mp (Nat.pos_of_ne_zero hpos)
    exact hpass.unread hroot hunread ((hs₁.mem_iff c).mp hc) hr
  · obtain ⟨_, _, hms, _⟩ := finalRoots_eq_ok.mp h
    obtain ⟨n, hn, _⟩ := node?_of_any (check_eq_ok.mp (hms _ he))
    show e.node.index < selected.size
    rw [hpass.graph.size]
    -- mapped nodes were there before the selectors
    have hlt : e.node.index < g.size := index_lt_of_node? hn
    omega

namespace Approach

theorem lt_selected (s : Approach g ms roots) {x : NodeId} (hx : x.index < g.size) :
    x.index < s.selected.size := by
  rw [s.selectors.graph.size]
  omega

/-- Old nodes are reached in the graph with selectors as in the given one. -/
theorem mem_order₁_iff (s : Approach g ms roots) {x : NodeId} (hx : x.index < g.size) :
    x ∈ s.order₁ ↔ g.Reached roots x := by
  have hs : Surveys s.selected s.ends s.r₁ s.order₁ := s.splittable.surveys
  rw [hs.mem_iff, s.selectors.reached_old_iff hx, (final_of_finalRoots s.final_eq).reached_iff]

theorem checked (s : Approach g ms roots) : ∀ m ∈ ms, m.check g = .ok () :=
  (finalRoots_eq_ok.mp s.final_eq).2.2.1

theorem mapped_node (s : Approach g ms roots) {e : Edge} (he : .output e ∈ ms) :
    ∃ n, g.node? e.node = some n ∧ n.kind.isFilterOrMerge = true :=
  node?_of_any (check_eq_ok.mp (s.checked _ he))

/-- **If the mapped nodes are reached, the graph gets its splits.** -/
theorem exists_passage (s : Approach g ms roots)
    (hchecked : Outlets.checkReached s.r₁ ⟨s.ends, ms⟩ = .ok ()) :
    ∃ t : Passage g ms roots, t.toApproach = s := by
  have hmapped : ∀ e, .output e ∈ ms → e.node ∈ s.order₁ :=
    (checkReached_eq_ok s.splittable.surveys).mp hchecked
  obtain ⟨wired, outlets, heq, hgraph, houtlets⟩ := s.splittable.insertSplits s.r₁_eq hchecked
  have hwf := wellFormed_insertSplits s.splittable.wellFormed ⟨s.ends, ms⟩
  rw [Change.after, heq] at hwf
  have hpass : SplitPass s.selected ⟨s.ends, ms⟩ s.r₁ s.order₁ wired outlets :=
    ⟨s.splittable, hmapped, hgraph, houtlets, hwf⟩
  obtain ⟨readers, hreaders⟩ := hpass.exists_build
  obtain ⟨order, hsurveys⟩ := Readers.surveys_of_build hreaders
  exact ⟨⟨s, wired, outlets, hpass, heq, readers, order, hreaders, hsurveys⟩, rfl⟩

/-- The first mapped node that is not reached, in the given graph. -/
theorem first_unreached (s : Approach g ms roots) {e : GraphError}
    (h : Outlets.checkReached s.r₁ ⟨s.ends, ms⟩ = .error e) :
    ∃ front edge back, ms = front ++ .output edge :: back ∧
      (∀ e', .output e' ∈ front → g.Reached roots e'.node) ∧ ¬ g.Reached roots edge.node ∧
      e = .invalidMapping edge.node := by
  have hreached : ∀ e, .output e ∈ ms → (e.node ∈ s.order₁ ↔ g.Reached roots e.node) := by
    intro e he
    obtain ⟨n, hn, _⟩ := s.mapped_node he
    exact s.mem_order₁_iff (index_lt_of_node? hn)
  obtain ⟨front, edge, back, hsplit, hfront, hout, rfl⟩ :=
    checkReached_eq_error s.splittable.surveys h
  have hsplit : ms = front ++ .output edge :: back := hsplit
  refine ⟨front, edge, back, hsplit, fun e' he' => ?_, fun hin => ?_, rfl⟩
  · exact (hreached e' (by rw [hsplit]; exact List.mem_append_left _ he')).mp (hfront e' he')
  · exact hout ((hreached edge (by rw [hsplit]; exact List.mem_append_cons_self)).mpr hin)

/-- A mapping of a node that is not reached ends the compilation. -/
theorem wire_error (s : Approach g ms roots) (job : Job) (hjob : job.mappings = ms)
    {e : GraphError} (h : Outlets.checkReached s.r₁ ⟨s.ends, ms⟩ = .error e) :
    job.wire roots g = .error e s.selected := by
  subst hjob
  rw [wire_eq_insertSplits s.final_eq s.selectors_eq, insertSplits]
  refine Eq.trans (consult_bind_of_ok s.r₁_eq) ?_
  exact consult_bind_of_error h

end Approach

namespace Passage

/-- The media files that are opened. -/
def sources (s : Passage g ms roots) : List NodeId :=
  inputOrder s.wired s.readers s.outlets.roots s.outlets.mappings

/-- The graph with its media files numbered. -/
def numbered (s : Passage g ms roots) : Graph :=
  s.wired.numberFrom 0 s.sources

/-- What is written. -/
def plan (s : Passage g ms roots) : Plan :=
  ⟨s.numbered, s.readers, s.outlets.mappings⟩

/-- The mapped operations are reached. -/
theorem reached_of_mapping (s : Passage g ms roots) {e : Edge} (he : .output e ∈ ms) :
    g.Reached roots e.node := by
  obtain ⟨n, hn, _⟩ := s.mapped_node he
  exact (s.mem_order₁_iff (index_lt_of_node? hn)).mp (s.splits.mapped e he)

theorem wire_eq (s : Passage g ms roots) (job : Job) (hjob : job.mappings = ms) :
    job.wire roots g = .ok s.outlets s.wired := by
  subst hjob
  rw [wire_eq_insertSplits s.final_eq s.selectors_eq, s.splits_eq]

/-- **What is left of a compilation at the end of a passage.** -/
theorem program_eq (s : Passage g ms roots) (job : Job) (hjob : job.mappings = ms) :
    job.program roots g =
      match s.plan.statements s.outlets.roots, mappingTargets s.numbered s.outlets.mappings with
      | .ok statements, .ok targets => .ok ⟨s.sources, statements, targets⟩ s.numbered
      | .ok _, .error e => .error e s.numbered
      | .error e, _ => .error e s.numbered := by
  rw [Job.program_eq_wire]
  refine (bind_of_eq_ok (s.wire_eq job hjob)).trans ?_
  refine Eq.trans (consult_bind_of_ok s.readers_eq) ?_
  refine (get_bind_eq _ s.wired).trans ?_
  refine (set_bind_eq _ s.wired s.numbered).trans ?_
  -- only the writing itself is left, on the numbered graph
  cases hstatements : s.plan.statements s.outlets.roots with
  | error e =>
    exact consult_bind_of_error hstatements
  | ok statements =>
    refine Eq.trans (consult_bind_of_ok hstatements) ?_
    cases htargets : mappingTargets s.numbered s.outlets.mappings with
    | error e => exact consult_bind_of_error htargets
    | ok targets => exact consult_bind_of_ok htargets

end Passage

/-- **How far a compilation gets.** Its roots or mappings are refused, or a mapped operation
is not reached, or it goes through a passage. -/
theorem wire_cases (hwf : g.WellFormed) (job : Job) (roots : List NodeId) :
    (∃ e, finalRoots g job.mappings roots = .error e ∧ job.wire roots g = .error e g) ∨
    (∃ (s : Approach g job.mappings roots) (e : GraphError),
      Outlets.checkReached s.r₁ ⟨s.ends, job.mappings⟩ = .error e ∧
        job.wire roots g = .error e s.selected) ∨
    ∃ s : Passage g job.mappings roots, job.wire roots g = .ok s.outlets s.wired := by
  cases hfinal : finalRoots g job.mappings roots with
  | error e => exact Or.inl ⟨e, rfl, wire_error_of_finalRoots hfinal⟩
  | ok ends =>
    obtain ⟨s, rfl⟩ := exists_approach hwf hfinal
    -- selectors are there now; the mappings are looked at once more
    cases hreach : Outlets.checkReached s.r₁ ⟨s.ends, job.mappings⟩ with
    | error e => exact Or.inr (Or.inl ⟨s, e, hreach, s.wire_error job rfl hreach⟩)
    | ok u =>
      obtain ⟨t, _⟩ := s.exists_passage hreach
      exact Or.inr (Or.inr ⟨t, t.wire_eq job rfl⟩)

/-- **A graph that gets its splits has gone through a passage.** -/
theorem exists_passage_of_wire (hwf : g.WellFormed) {job : Job} {o : Outlets} {w : Graph}
    (h : job.wire roots g = .ok o w) :
    ∃ s : Passage g job.mappings roots, o = s.outlets ∧ w = s.wired := by
  rcases wire_cases hwf job roots with ⟨e, _, hwire⟩ | ⟨s, e, _, hwire⟩ | ⟨s, hwire⟩
  · exact absurd (h.symm.trans hwire) (by simp)
  · exact absurd (h.symm.trans hwire) (by simp)
  · rw [h] at hwire
    injection hwire with ho hw
    exact ⟨s, ho, hw⟩

/-- **A compilation that succeeds has gone through a passage.** -/
theorem exists_passage_of_program (hwf : g.WellFormed) {job : Job} {p : Program} {g' : Graph}
    (h : job.program roots g = .ok p g') :
    ∃ s : Passage g job.mappings roots, g' = s.numbered ∧ p.sources = s.sources ∧
      s.plan.statements s.outlets.roots = .ok p.statements ∧
      mappingTargets s.numbered s.outlets.mappings = .ok p.targets := by
  cases hwire : job.wire roots g with
  | error e w =>
    rw [program_error_of_wire hwire] at h
    exact absurd h (by simp)
  | ok o w =>
    obtain ⟨s, _, _⟩ := exists_passage_of_wire hwf hwire
    refine ⟨s, ?_⟩
    rw [s.program_eq job rfl] at h
    -- the program is there, so neither statements nor mappings failed
    split at h
    · rename_i statements targets hstatements htargets
      injection h with hp hg
      subst hp
      exact ⟨hg.symm, rfl, hstatements, htargets⟩
    · exact absurd h (by simp)
    · exact absurd h (by simp)

/-- Only the program can fail. -/
theorem compile_eq_error {job : Job} {e : GraphError} {g' : Graph} :
    job.compile roots g = .error e g' ↔ job.program roots g = .error e g' := by
  rw [Job.compile, bind_eq_error, or_iff_left]
  intro ⟨p, g₁, _, hrest⟩
  exact absurd hrest (by rw [get_bind_eq]; exact fun h => by injection h)

/-- Rendering the program leaves the graph alone. -/
theorem after_compile (job : Job) (roots : List NodeId) (g : Graph) :
    Change.after (job.compile roots) g = Change.after (job.program roots) g := by
  rw [Job.compile, Change.after_bind, Change.after]
  cases job.program roots g <;> rfl

/-- **The graphs that a compilation can leave.** -/
theorem after_compile_cases (hwf : g.WellFormed) (job : Job) (roots : List NodeId) :
    Change.after (job.compile roots) g = g ∨
    (∃ s : Approach g job.mappings roots, Change.after (job.compile roots) g = s.selected) ∨
    ∃ s : Passage g job.mappings roots, Change.after (job.compile roots) g = s.numbered := by
  rw [after_compile, Change.after]
  rcases wire_cases hwf job roots with ⟨e, _, hwire⟩ | ⟨s, e, _, hwire⟩ | ⟨s, _⟩
  · exact Or.inl (by rw [program_error_of_wire hwire])
  · exact Or.inr (Or.inl ⟨s, by rw [program_error_of_wire hwire]⟩)
  · refine Or.inr (Or.inr ⟨s, ?_⟩)
    -- whatever the writing says, it leaves the numbered graph
    rw [s.program_eq job rfl]
    cases s.plan.statements s.outlets.roots with
    | error e => rfl
    | ok statements => cases mappingTargets s.numbered s.outlets.mappings <;> rfl

/-- A command is the arguments of a program, the options and the destination. -/
theorem exists_program {job : Job} {cmd : Command} {g' : Graph}
    (h : job.compile roots g = .ok cmd g') : ∃ p, job.program roots g = .ok p g' ∧
      cmd.args = p.args g' ++ job.options ++ [job.destination] := by
  unfold Job.compile at h
  obtain ⟨p, g₁, hp, hrest⟩ := bind_eq_ok.mp h
  rw [get_bind_eq] at hrest
  injection hrest with hcmd hg
  subst hg
  exact ⟨p, hp, by rw [← hcmd]⟩

end Filtergraph
