import Filtergraph.Proofs.Agreement
import Filtergraph.Proofs.Guard
import Filtergraph.Proofs.History

/-!
# Compiling again

A compilation changes its graph, so what does a second one find? The nodes that were added
stand behind nodes that are read, and a node that is read is read after the change too, if only
by the new node. So the roots that count are the same ones. From there on the passes have
nothing left to do: no reached operation reads a media file, no node has two uses, and the
files have their positions already.

If operations are mapped then this fails, as the mappings of the job do not move to the splits
that were put in their way. And a compilation that failed has at most added selectors. These
another compilation from the same roots would add in the same places.
-/

namespace Filtergraph

open Filtergraph.Graph

variable {g g' : Graph} {ms : List Mapping} {roots : List NodeId}

/-! ## Passes that have nothing to do -/

/-- Without detours the graph stays as it is. -/
theorem Rerouted.eq_of_nil (h : Rerouted g [] g') : g' = g := by
  refine eq_of_node? fun x => ?_
  cases hn : g.node? x with
  | none =>
    refine node?_eq_none ?_
    rw [h.size, List.length_nil]
    by_contra hout
    have hlt : x.index < g.size := by omega
    obtain ⟨n, hsome⟩ := exists_node? hlt
    rw [hn] at hsome
    exact absurd hsome (by simp)
  | some n => exact h.node?_eq hn (List.forall_mem_nil _)

/-- Outlets stay where they are if no detour is put behind one of them. -/
theorem Redrawn.eq_self {size : Nat} {ds : List Detour} {o o' : Outlets}
    (h : Redrawn size ds o o') (hroots : ∀ d ∈ ds, d.node ∉ o.roots)
    (hms : ∀ d ∈ ds, ∀ m ∈ o.mappings, m.reads d.node = false) : o' = o := by
  have hr : List.Forall₂ (· = ·) o.roots o'.roots := by
    refine forall₂_imp_of_mem h.roots fun root hroot root' hm => ?_
    -- a root is moved only by a detour behind it
    rcases hm with ⟨i, d, hd, hnode, _⟩ | ⟨_, he⟩
    · exact absurd (hnode ▸ hroot) (hroots d (List.mem_of_getElem? hd))
    · exact he.symm
  have hm : List.Forall₂ (· = ·) o.mappings o'.mappings := by
    refine forall₂_imp_of_mem h.mappings fun m hmem m' hm => ?_
    rcases hm with ⟨i, d, _, hd, hreads, _⟩ | ⟨_, he⟩
    · exact absurd hreads (by rw [hms d (List.mem_of_getElem? hd) m hmem]; simp)
    · exact he.symm
  rw [List.forall₂_eq_eq_eq] at hr hm
  obtain ⟨rs, ms⟩ := o
  obtain ⟨rs', ms'⟩ := o'
  rw [Outlets.mk.injEq]
  exact ⟨hr.symm, hm.symm⟩

/-- No selector is added where no reached operation reads a media file. -/
theorem insertSelectors_eq_self (hwf : g.WellFormed) {r : Readers} {order : List NodeId}
    (hs : Surveys g roots r order) (hr : Readers.build g roots = .ok r)
    (hnone : ∀ c ∈ order, g.isOperation c = true → ∀ x, g.Reads c x → g.isSource x = false) :
    insertSelectors g roots = .ok (g, 0) := by
  obtain ⟨g', heq, hpass⟩ := exists_selectorPass hwf hs hr
  have hnil : selectorFiles g r = [] := by
    refine List.eq_nil_iff_forall_not_mem.mpr fun f hf => ?_
    obtain ⟨hsource, c, hc, hop, hread⟩ := (mem_selectorFiles hs).mp hf
    rw [hnone c hc hop f hread] at hsource
    exact absurd hsource (by simp)
  have hgraph := hpass.graph
  rw [selectorDetours_eq, hnil] at hgraph
  rw [heq, hnil, hgraph.eq_of_nil]
  rfl

/-- No split is added where no node has two uses. -/
theorem Splittable.insertSplits_eq_self {o : Outlets} {r : Readers} {order : List NodeId}
    (h : Splittable g o r order) (hr : Readers.build g o.roots = .ok r)
    (hreach : o.checkReached r = .ok ()) (hnone : ∀ x ∈ order, isShared g r o x = false) :
    Filtergraph.insertSplits o g = .ok o g := by
  obtain ⟨g', o', heq, hgraph, houtlets⟩ := h.insertSplits hr hreach
  have hnil : splitDetours g r o = [] := by
    refine List.eq_nil_iff_forall_not_mem.mpr fun d hd => ?_
    obtain ⟨x, hx, hshared, _⟩ := h.mem_splitDetours.mp hd
    rw [hnone x hx] at hshared
    exact absurd hshared (by simp)
  rw [hnil] at hgraph houtlets
  rw [heq, hgraph.eq_of_nil, houtlets.eq_self (by simp) (by simp)]

theorem setIndex_eq_self {id : NodeId} {position : Nat}
    (h : (g.source? id).bind Source.index = some position) : g.setIndex id position = g := by
  obtain ⟨s, hs, hindex⟩ := Option.bind_eq_some_iff.mp h
  obtain ⟨es, hn⟩ := source?_eq_some.mp hs
  refine eq_of_node? fun x => ?_
  unfold setIndex
  rw [hn]
  dsimp only
  rw [node?_set hn]
  by_cases hx : x = id
  · rw [if_pos hx, hx, hn, ← hindex]
  · rw [if_neg hx]

/-- Files that have their positions keep them. -/
theorem numberFrom_eq_self {ids : List NodeId} {position : Nat}
    (h : ∀ i x, ids[i]? = some x → (g.source? x).bind Source.index = some (position + i)) :
    g.numberFrom position ids = g := by
  induction ids generalizing position with
  | nil => rfl
  | cons id ids ih =>
    have hid : g.setIndex id position = g := setIndex_eq_self (h 0 id rfl)
    rw [numberFrom, hid]
    refine ih fun i x hi => ?_
    rw [h (i + 1) x hi]
    congr 1
    omega

/-! ## The same roots count -/

namespace Rerouted

variable {ds : List Detour} (hwf : g.WellFormed)
  (hread : ∀ d ∈ ds, ∃ c, g.Reached roots c ∧ g.Reads c d.node)
include hwf hread

theorem detour_lt_of_read : ∀ d ∈ ds, d.node.index < g.size := by
  intro d hd
  obtain ⟨c, _, hr⟩ := hread d hd
  exact hwf.closed c _ hr

variable (h : Rerouted g ds g')
include h

/-- What is read is read after the detours too, and nothing else of the old nodes is. -/
theorem read_iff (hroots : ∀ root ∈ roots, root.index < g.size) {x : NodeId}
    (hx : x.index < g.size) :
    (∃ c, g'.Reached roots c ∧ g'.Reads c x) ↔ ∃ c, g.Reached roots c ∧ g.Reads c x := by
  have hto : ∀ root ∈ roots, origin g ds root ∈ roots := by
    intro root hroot
    rwa [origin_old ds (hroots root hroot)]
  have hfrom : ∀ root ∈ roots, g'.Reached roots root := fun root hroot => .root hroot
  refine ⟨fun ⟨c, hc, hr⟩ => ?_, fun ⟨c, hc, hr⟩ => ?_⟩
  · rcases h.reads_origin hwf.closed hr with ⟨hlt, hold⟩ | ⟨i, d, hd, _, rfl⟩
    · rw [origin_old ds hx] at hold
      have hiff := h.reached_old_iff hwf.closed (detour_lt_of_read hwf hread) hto hfrom hlt
      exact ⟨c, hiff.mp hc, hold⟩
    · -- the reader is new, and stands behind a node that was read
      exact hread d (List.mem_of_getElem? hd)
  · obtain ⟨c', hpath, hr'⟩ := Relation.TransGen.tail'_iff.mp (h.path_of_reads hr)
    obtain ⟨root, hroot, hc'⟩ := h.reached_of_reached hfrom hc
    exact ⟨c', ⟨root, hroot, hc'.trans hpath⟩, hr'⟩

/-- **Detours behind nodes that are read leave the roots that count.** -/
theorem finalRoots_eq (hwf' : g'.WellFormed) {r : Readers}
    (hr : Readers.build g roots.eraseDups = .ok r)
    (hms : ∀ m ∈ ms, m.node.index < g.size) :
    finalRoots g' ms roots = finalRoots g ms roots := by
  obtain ⟨order, hs⟩ := Readers.surveys_of_build hr
  have hroots : ∀ root ∈ roots, root.index < g.size := by
    intro root hroot
    obtain ⟨n, hn⟩ := hs.known root ((hs.mem_iff root).mpr (.root (List.mem_eraseDups.mpr hroot)))
    exact index_lt_of_node? hn
  have hkind : ∀ x : NodeId, x.index < g.size → g.SameKind g' x := by
    intro x hx
    rw [SameKind, h.kind? hx]
  obtain ⟨r', hr'⟩ := h.exists_build hwf.closed (detour_lt_of_read hwf hread)
    (fun root hroot => by rwa [origin_old ds (hroots root (List.mem_eraseDups.mp hroot))]) hs hwf'
    fun root hroot => by
      have hlt := hroots root (List.mem_eraseDups.mp hroot)
      have hsize := h.size
      exact exists_node? (by omega)
  refine finalRoots_congr (fun root hroot => hkind root (hroots root hroot))
    (fun m hm => hkind _ (hms m hm)) ?_
  rw [hr, hr']
  show Except.ok _ = Except.ok _
  refine congrArg Except.ok (List.filter_congr fun root hroot => ?_)
  rw [List.mem_eraseDups] at hroot
  have hzero : ∀ {G : Graph} {q : Readers}, Readers.build G roots.eraseDups = .ok q →
      (q.count root = 0 ↔ ¬ ∃ c, G.Reached roots c ∧ G.Reads c root) := by
    intro G q hq
    have hmem := (final_of_build hq).mem_iff root
    rw [List.mem_filter, List.mem_eraseDups, decide_eq_true_eq] at hmem
    simpa [hroot] using hmem
  rw [decide_eq_decide, hzero hr, hzero hr', read_iff hwf hread h hroots (hroots root hroot)]

end Rerouted

/-- The selectors leave the roots that count. -/
theorem Approach.finalRoots_selected (s : Approach g ms roots) {ms' : List Mapping}
    (hms : ∀ m ∈ ms', m.node.index < g.size) :
    finalRoots s.selected ms' roots = finalRoots g ms' roots := by
  obtain ⟨_, _, _, r, hr, _⟩ := finalRoots_eq_ok.mp s.final_eq
  refine Rerouted.finalRoots_eq s.selectors.before (fun d hd => ?_) s.selectors.graph
    s.selectors.wellFormed hr hms
  obtain ⟨key, rfl, _, c, hc, _, hread⟩ := s.selectors.of_mem hd
  have hc := (s.selectors.surveys.mem_iff c).mp hc
  exact ⟨c, ((final_of_finalRoots s.final_eq).reached_iff c).mp hc, hread⟩

/-- The selectors are there already. -/
theorem Approach.insertSelectors_selected (s : Approach g ms roots) :
    insertSelectors s.selected s.ends = .ok (s.selected, 0) := by
  have hs : Surveys s.selected s.ends s.r₁ s.order₁ := s.splittable.surveys
  refine insertSelectors_eq_self s.splittable.wellFormed hs s.r₁_eq fun c hc hop x hr => ?_
  exact s.selectors.isSource_of_reads ((hs.mem_iff c).mp hc) hop hr

theorem compile_eq_of_wire {job : Job} (h : job.wire roots g' = job.wire roots g) :
    job.compile roots g' = job.compile roots g := by
  refine bind_eq_bind ?_
  rw [Job.program_eq_wire]
  exact bind_eq_bind h

/-! ## After a success -/

namespace Passage

variable (s : Passage g ms roots) (hms : ∀ e, .output e ∉ ms)
include hms

theorem mapped_eq_zero (x : NodeId) : Outlets.mapped ⟨s.ends, ms⟩ x = 0 := by
  refine List.countP_eq_zero.mpr fun m hm => ?_
  cases m with
  | stream source stream => simp [Mapping.reads]
  | output e => exact absurd hm (hms e)

/-- Where no operation is mapped, a node that is split is read twice. -/
theorem count_of_split {d : Detour} (hd : d ∈ splitDetours s.selected s.r₁ ⟨s.ends, ms⟩) :
    2 ≤ s.r₁.count d.node := by
  obtain ⟨x, _, hshared, rfl⟩ := s.splittable.mem_splitDetours.mp hd
  rw [isShared, Bool.and_eq_true, decide_eq_true_eq, s.mapped_eq_zero hms] at hshared
  exact hshared.2

/-- So neither roots nor mappings are moved. -/
theorem outlets_eq : s.outlets = ⟨s.ends, ms⟩ := by
  refine s.splits.outlets.eq_self (fun d hd hroot => ?_) fun d _ m hm => ?_
  · have hcount := s.count_of_split hms hd
    have hunread := s.splittable.unread d.node hroot
    omega
  · cases m with
    | stream source stream => rfl
    | output e => exact absurd hm (hms e)

theorem finalRoots_numbered : finalRoots s.numbered ms roots = .ok s.ends := by
  have hlt : ∀ m ∈ ms, m.node.index < g.size := by
    intro m hm
    obtain ⟨n, hn, _⟩ := node?_of_any (check_eq_ok.mp (s.checked m hm))
    exact index_lt_of_node? hn
  have hselected : finalRoots s.selected ms roots = .ok s.ends := by
    rw [s.finalRoots_selected hlt, s.final_eq]
  obtain ⟨_, _, _, r, hr, _⟩ := finalRoots_eq_ok.mp hselected
  -- a node that gets a split has two readers, so it was read before
  have hwired : finalRoots s.wired ms roots = finalRoots s.selected ms roots := by
    refine Rerouted.finalRoots_eq s.splittable.wellFormed (fun d hd => ?_) s.splits.graph
      s.splits.wellFormed hr fun m hm => s.lt_selected (hlt m hm)
    have hcount := s.count_of_split hms hd
    have hpos : 0 < s.r₁.count d.node := by omega
    obtain ⟨c, hc, hread⟩ := s.splittable.surveys.count_pos_iff.mp hpos
    have hc : s.selected.Reached s.ends c := (s.splittable.surveys.mem_iff c).mp hc
    exact ⟨c, ((final_of_finalRoots hselected).reached_iff c).mp hc, hread⟩
  calc finalRoots s.numbered ms roots
      = finalRoots s.wired ms roots := by
        refine finalRoots_congr (fun root _ => (s.same.sameNode root).kind)
          (fun m _ => (s.same.sameNode m.node).kind) ?_
        rw [s.same.build_eq]
    _ = .ok s.ends := by rw [hwired, hselected]

/-- **The compiled graph needs no wiring.** -/
theorem wire_numbered (job : Job) (hjob : job.mappings = ms) :
    job.wire roots s.numbered = .ok ⟨s.ends, ms⟩ s.numbered := by
  subst hjob
  have houtlets := s.outlets_eq hms
  have hready := s.ready
  have hs : Surveys s.numbered s.ends s.readers s.order := by
    have hsurveys := hready.surveys
    rw [houtlets] at hsurveys
    exact hsurveys
  have hbuild : Readers.build s.numbered s.ends = .ok s.readers := by
    have hreaders := s.readers_eq
    rw [houtlets] at hreaders
    rw [s.same.build_eq, hreaders]
  have hunread : ∀ root ∈ s.ends, s.readers.count root = 0 := by
    have hroots := hready.unread
    rw [houtlets] at hroots
    exact hroots
  have hsplittable : Splittable s.numbered ⟨s.ends, job.mappings⟩ s.readers s.order :=
    ⟨hready.wellFormed, hs, s.splittable.rootsOnce, hunread, fun e he => absurd he (hms e)⟩
  have hselect := insertSelectors_eq_self hready.wellFormed hs hbuild hready.streams
  rw [wire_eq_insertSplits (s.finalRoots_numbered hms) hselect]
  refine hsplittable.insertSplits_eq_self hbuild ?_ fun x hx => ?_
  · exact (checkReached_eq_ok hsplittable.surveys).mpr fun e he => absurd he (hms e)
  · -- what can be split has one use at most
    rw [isShared, Bool.and_eq_false_iff, decide_eq_false_iff_not]
    by_cases hkind : (s.numbered.kind? x).any Kind.isSplittable = true
    · have huses : s.plan.uses x ≤ 1 := s.uses_le_one hx hkind
      rw [Plan.uses, plan, houtlets] at huses
      have huses : s.readers.count x + Outlets.mapped ⟨s.ends, job.mappings⟩ x ≤ 1 := huses
      exact Or.inr (by omega)
    · exact Or.inl (Bool.eq_false_iff.mpr hkind)

/-- **The second program is the first one.** -/
theorem program_numbered (job : Job) (hjob : job.mappings = ms) :
    job.program roots s.numbered = job.program roots g := by
  subst hjob
  have hwf : s.numbered.WellFormed := s.ready.wellFormed
  obtain ⟨t, houtlets, hwired⟩ := exists_passage_of_wire hwf (s.wire_numbered hms job rfl)
  have houtlets : t.outlets = s.outlets := by rw [← houtlets, s.outlets_eq hms]
  have hreaders : t.readers = s.readers := by
    have ht := t.readers_eq
    rw [← hwired, houtlets, s.same.build_eq, s.readers_eq, Except.ok.injEq] at ht
    exact ht.symm
  have hsources : t.sources = s.sources := by
    unfold sources inputOrder
    rw [hreaders, houtlets, ← hwired]
    exact congrArg List.eraseDups (List.filter_congr fun x _ => s.same.isSource x)
  have hnumbered : t.numbered = s.numbered := by
    show t.wired.numberFrom 0 t.sources = s.numbered
    rw [hsources, ← hwired]
    -- the files are the same, and the first run has numbered them so
    refine numberFrom_eq_self fun i x hi => ?_
    obtain ⟨f, _, hf⟩ := s.source?_numbered hi
    rw [hf, Nat.zero_add]
    rfl
  have hplan : t.plan = s.plan := by
    unfold plan
    rw [hnumbered, hreaders, houtlets]
  rw [t.program_eq job rfl, s.program_eq job rfl, hplan, houtlets, hnumbered, hsources]

end Passage

/-- **Recompilation is stable.** Unless operations are mapped, a graph that has been compiled
compiles to the same command again and stays as it is. -/
theorem recompile_stable (hg : Reachable g) {job : Job} (hms : ∀ e, .output e ∉ job.mappings)
    {cmd : Command} (h : job.compile roots g = .ok cmd g') :
    job.compile roots g' = .ok cmd g' := by
  obtain ⟨p, hp, _⟩ := exists_program h
  obtain ⟨s, rfl, _⟩ := exists_passage_of_program hg.wellFormed hp
  rw [← h]
  exact bind_eq_bind (s.program_numbered hms job rfl)

/-- The graph has a split from an earlier compilation and gets another one. -/
theorem recompile_stable_interleaved : ∃ cmd g', g'.size = 8 ∧
    Job.compile { destination := "out.mp4", mappings := [.stream ⟨0⟩ .audio] } [⟨6⟩]
      ((Call.addMerge [⟨3⟩, ⟨3⟩]).after interleavedOnce) = .ok cmd g' ∧
    Job.compile { destination := "out.mp4", mappings := [.stream ⟨0⟩ .audio] } [⟨6⟩] g'
      = .ok cmd g' := by
  obtain ⟨cmd, g', hok, hsize⟩ := Change.exists_of_yields (x := Job.compile
    { destination := "out.mp4", mappings := [.stream ⟨0⟩ .audio] } [⟨6⟩])
    (s := (Call.addMerge [⟨3⟩, ⟨3⟩]).after interleavedOnce) (q := fun _ g' => g'.size = 8)
    (by decide +kernel)
  exact ⟨cmd, g', of_decide_eq_true hsize, hok,
    recompile_stable (.call reachable_interleavedOnce _) (by simp) hok⟩

/-! ## After a failure -/

/-- The splits of the graph were found not to be in order. -/
def GraphError.isSplitFault : GraphError → Bool
  | .noSuchPort _ _ => true
  | .unevenReads _ _ => true
  | _ => false

/-- How a slot of a node `c` fares when selectors are inserted. It stays, or it reads the first
stream of the media file that it read. -/
def Selected (g g' : Graph) (c : NodeId) (e e' : Edge) : Prop :=
  e' = e ∨ g.isOperation c = true ∧ g.isSource e.node = true ∧
    ∃ s : NodeId, g.size ≤ s.index ∧ g'.node? s = some ⟨.selector .first, [⟨e.node, 0⟩]⟩ ∧
      e' = ⟨s, 0⟩

/-- `g'` is `g` with stream selectors inserted. -/
structure WithSelectors (g g' : Graph) : Prop where
  size : g.size ≤ g'.size
  /-- What is new selects the first stream of a media file. -/
  added : ∀ x n, g.size ≤ x.index → g'.node? x = some n →
    ∃ source, g.isSource source = true ∧ n = ⟨.selector .first, [⟨source, 0⟩]⟩
  kept : ∀ c n, g.node? c = some n →
    ∃ es, g'.node? c = some ⟨n.kind, es⟩ ∧ List.Forall₂ (Selected g g' c) n.inputs es

theorem SelectorPass.withSelectors {r : Readers} {order : List NodeId}
    (h : SelectorPass g roots r order g') : WithSelectors g g' where
  size := by
    rw [h.graph.size]
    omega
  added := by
    intro x n hx hn
    obtain ⟨i, d, hd, rfl, rfl⟩ := h.graph.exists_detour (by omega) hn
    obtain ⟨key, rfl, hsource, _⟩ := h.of_mem (List.mem_of_getElem? hd)
    exact ⟨key, hsource, rfl⟩
  kept := by
    intro c n hn
    obtain ⟨es, hes, _⟩ := h.graph.kept c n hn
    have hall := h.slots (index_lt_of_node? hn)
    rw [inputs_of_node? hn, inputs_of_node? hes] at hall
    refine ⟨es, hes, hall.imp fun e e' hm => ?_⟩
    rcases hm with ⟨_, hop, i, hi, rfl⟩ | ⟨_, rfl⟩
    · have hsource := ((mem_selectorFiles h.surveys).mp (List.mem_of_getElem? hi)).1
      exact Or.inr ⟨hop, hsource, _, Nat.le_add_right _ _, h.added hi, rfl⟩
    · exact Or.inl rfl

/-- **Another compilation from the same roots does not notice the selectors.** -/
theorem Approach.compile_selected (s : Approach g ms roots) (job : Job)
    (hms : ∀ m ∈ job.mappings, m.node.index < g.size) :
    (∃ e, job.compile roots s.selected = .error e s.selected ∧
      job.compile roots g = .error e g) ∨
    job.compile roots s.selected = job.compile roots g := by
  have hsame := s.finalRoots_selected hms
  have herror : ∀ {G : Graph} {e : GraphError}, finalRoots G job.mappings roots = .error e →
      job.compile roots G = .error e G := by
    intro G e hG
    exact compile_eq_error.mpr (program_error_of_wire (wire_error_of_finalRoots hG))
  cases hfinal : finalRoots g job.mappings roots with
  | error e => exact Or.inl ⟨e, herror (hsame.trans hfinal), herror hfinal⟩
  | ok ends =>
    -- which roots count does not depend on the mappings
    have hends : ends = s.ends := by
      obtain ⟨_, _, _, r, hr, rfl⟩ := finalRoots_eq_ok.mp hfinal
      obtain ⟨_, _, _, r', hr', hs⟩ := finalRoots_eq_ok.mp s.final_eq
      rw [hr, Except.ok.injEq] at hr'
      rw [hs, hr']
    subst hends
    refine Or.inr (compile_eq_of_wire ?_)
    rw [wire_eq_insertSplits (hsame.trans hfinal) s.insertSelectors_selected,
      wire_eq_insertSplits hfinal s.selectors_eq]

/-- What a compilation that fails leaves. -/
theorem after_failure (hg : Reachable g) {job : Job} {e : GraphError}
    (h : job.compile roots g = .error e g') (hfault : e.isSplitFault = false) :
    g' = g ∨ ∃ s : Approach g job.mappings roots, g' = s.selected ∧
      ∃ edge, .output edge ∈ job.mappings ∧ (Mapping.output edge).Suits g ∧
        ¬ g.Reached roots edge.node ∧ e = .invalidMapping edge.node := by
  rw [compile_eq_error] at h
  rcases wire_cases hg.wellFormed job roots with ⟨e', _, hwire⟩ | ⟨s, e', hreach, hwire⟩ | ⟨s, _⟩
  · rw [program_error_of_wire hwire] at h
    injection h with _ hgraph
    exact Or.inl hgraph.symm
  · rw [program_error_of_wire hwire] at h
    injection h with he hgraph
    obtain ⟨front, edge, back, hsplit, _, hunread, rfl⟩ := s.first_unreached hreach
    have hmem : .output edge ∈ job.mappings := by
      rw [hsplit]
      exact List.mem_append_cons_self
    exact Or.inr ⟨s, hgraph.symm, edge, hmem, check_eq_ok.mp (s.checked _ hmem), hunread, he.symm⟩
  · -- at the end of a passage only the splits can be at fault
    obtain ⟨x, fanOut, _, _, _, rfl⟩ := s.statements_error (s.program_error job rfl h)
    exact absurd hfault (by simp [GraphError.isSplitFault])

/-- **A failure is harmless to a retry.** The graph is left as it was, or with selectors if a
mapped operation is not reached. A retry from the same roots ends as if nothing had happened. -/
theorem failure_harmless_to_retry (hg : Reachable g) {job : Job} {e : GraphError}
    (h : job.compile roots g = .error e g') (hfault : e.isSplitFault = false) :
    (g' = g ∨ WithSelectors g g' ∧ ∃ edge, .output edge ∈ job.mappings ∧
      (Mapping.output edge).Suits g ∧ ¬ g.Reached roots edge.node ∧
        e = .invalidMapping edge.node) ∧
    ∀ retry : Job, (∀ m ∈ retry.mappings, m.node.index < g.size) →
      (retry.compile roots).outcome g' = (retry.compile roots).outcome g ∧
      ∀ cmd g'', retry.compile roots g = .ok cmd g'' → retry.compile roots g' = .ok cmd g'' := by
  rcases after_failure hg h hfault with rfl | ⟨s, rfl, hedge⟩
  · exact ⟨Or.inl rfl, fun retry _ => ⟨rfl, fun _ _ hok => hok⟩⟩
  · refine ⟨Or.inr ⟨s.selectors.withSelectors, hedge⟩, fun retry hms => ?_⟩
    unfold Change.outcome
    -- the retry is refused as well, or it comes to the same graph
    rcases s.compile_selected retry hms with ⟨e', hselected, hgiven⟩ | hsame
    · rw [hselected, hgiven]
      exact ⟨rfl, fun _ _ hok => absurd hok (by simp)⟩
    · rw [hsame]
      exact ⟨rfl, fun _ _ hok => hok⟩

/-- The merge is mapped but only what it reads is compiled. The filter that it reads gets its
selector, and a retry that maps this filter in place of the merge has the same outcome. -/
theorem failure_harmless_to_retry_interleaved : ∃ g', g'.size = 5 ∧
    Job.compile { destination := "out.mp4", mappings := [.output ⟨⟨3⟩, 0⟩] } [⟨2⟩] interleaved
      = .error (.invalidMapping ⟨3⟩) g' ∧ WithSelectors interleaved g' ∧
    (Job.compile { destination := "out.mp4", mappings := [.output ⟨⟨1⟩, 0⟩] } [⟨2⟩]).outcome g'
      = (Job.compile { destination := "out.mp4", mappings := [.output ⟨⟨1⟩, 0⟩] } [⟨2⟩]).outcome
          interleaved := by
  obtain ⟨g', herror⟩ := Change.exists_of_error? (x := Job.compile
    { destination := "out.mp4", mappings := [.output ⟨⟨3⟩, 0⟩] } [⟨2⟩]) (s := interleaved)
    (e := .invalidMapping ⟨3⟩) (by decide +kernel)
  have hsize : (Change.after (Job.compile
      { destination := "out.mp4", mappings := [.output ⟨⟨3⟩, 0⟩] } [⟨2⟩])
      interleaved).size = 5 := by
    decide +kernel
  rw [Change.after, herror] at hsize
  have hharmless := failure_harmless_to_retry built_interleaved.reachable herror rfl
  refine ⟨g', hsize, herror, ?_, (hharmless.2 _ (by decide +kernel)).1⟩
  rcases hharmless.1 with rfl | ⟨hselectors, _⟩
  · exact absurd hsize (by decide +kernel)
  · exact hselectors

end Filtergraph
