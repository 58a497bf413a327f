import Filtergraph.Proofs.Guard
import Filtergraph.Proofs.Maximality

/-!
# How compilations end

The passes and the writing rely on a good deal: the slots that were found to be moved are still
there, selectors read a media file, files that are read have positions. And the queue must not
run empty as long as an operation waits to be asked for once more, or its statement would be
missing.

All this holds in every graph that can come about, also if it was compiled before for other roots
and operations were pointed at the splits that stayed in it. So a compilation is refused, or it
writes all operations that it reaches. After that only splits can be out of order.
-/

namespace Filtergraph

open Filtergraph.Graph

variable {g : Graph} {roots : List NodeId} {job : Job}

/-- The plan by which a graph with its selectors and splits is written. -/
def Outlets.plan (o : Outlets) (w : Graph) (readers : Readers) : Plan :=
  ⟨w.numberFrom 0 (inputOrder w readers o.roots o.mappings), readers, o.mappings⟩

/-- The writing in a compilation, up to the point where its queue has run empty. -/
structure Emission (job : Job) (roots : List NodeId) (g : Graph) where
  /-- Roots and mappings after the splits are there. -/
  outlets : Outlets
  /-- The graph with its selectors and splits. -/
  wired : Graph
  wire_eq : job.wire roots g = .ok outlets wired
  readers : Readers
  readers_eq : Readers.build wired outlets.roots = .ok readers
  /-- The state in which the writing stops. -/
  last : Progress
  run_eq : Progress.run (outlets.plan wired readers)
    (Progress.bound (outlets.plan wired readers) outlets.roots)
    { queue := outlets.roots } = .ok last
  drained : last.queue = []
  /-- The operations of each statement. -/
  chains : List (List NodeId)
  shown : List.Forall₂ (fun chain st => st.Shows (outlets.plan wired readers).graph chain)
    chains last.statements
  once : chains.flatten.Nodup
  /-- What has been written are the operations that the roots reach. -/
  mem_iff : ∀ x, x ∈ chains.flatten ↔
    wired.Reached outlets.roots x ∧ wired.isOperation x = true
  /-- None of those is missing that the given roots reach in the given graph. -/
  given : ∀ x, g.Reached roots x → g.isOperation x = true → x ∈ chains.flatten

/-- How a compilation can end. -/
inductive Ending (job : Job) (roots : List NodeId) (g : Graph) :
    EStateM.Result GraphError Graph Command → Prop where
  /-- Roots or mappings do not make sense, or there is a cycle. -/
  | refused {e : GraphError} {g' : Graph} (h : Refused g roots job.mappings e) :
    Ending job roots g (.error e g')
  /-- The command holds what was written. -/
  | command {p : Program} {g' : Graph} (s : Emission job roots g)
    (hp : job.program roots g = .ok p g') (hstatements : p.statements = s.last.statements) :
    Ending job roots g (.ok ⟨p.args g' ++ job.options ++ [job.destination]⟩ g')
  /-- All is written, but a split is not read evenly. -/
  | uneven {x : NodeId} {fanOut : Nat} {order : List NodeId} {g' : Graph}
    (s : Emission job roots g) (hl : s.wired.Lists s.outlets.roots order)
    (h : s.wired.Uneven order s.outlets.mappings x fanOut) :
    Ending job roots g (.error (.unevenReads x
      ((List.range fanOut).map (s.wired.portsRead order s.outlets.mappings x).count)) g')

/-- What an error tells: the compilation was refused, or all is written. -/
theorem Ending.error_cases {e : GraphError} {g' : Graph} (h : Ending job roots g (.error e g')) :
    Refused g roots job.mappings e ∨
      ∃ (_ : Emission job roots g) (x : NodeId) (counts : List Nat), e = .unevenReads x counts := by
  cases h with
  | refused h => exact Or.inl h
  | uneven s hl h => exact Or.inr ⟨s, _, _, rfl⟩

/-- Slots and positions are no reason to refuse a compilation. -/
theorem Refused.not_internal {ms : List Mapping} {e : GraphError} (h : Refused g roots ms e)
    (node : NodeId) : (∀ fault, e ≠ .invalidInput node fault) ∧ e ≠ .unnumberedSource node := by
  cases h <;> simp

namespace Passage

/-- The writing at the end of a passage. -/
def emission (s : Passage g job.mappings roots) {last : Progress} {heads : List NodeId}
    (hrun : Progress.run s.plan (Progress.bound s.plan s.outlets.roots)
      { queue := s.outlets.roots } = .ok last)
    (hnil : last.queue = []) (hs : s.plan.Schedules s.order heads last.statements) :
    Emission job roots g where
  outlets := s.outlets
  wired := s.wired
  wire_eq := s.wire_eq job rfl
  readers := s.readers
  readers_eq := s.readers_eq
  last := last
  run_eq := hrun
  drained := hnil
  chains := heads.map fun head => (s.plan.chain head).reverse
  shown := hs.shown s.ready
  once := hs.nodup_chains s.ready
  mem_iff := by
    intro x
    rw [hs.mem_chains_iff s.ready, s.surveys.mem_iff, ← s.same.isOperation]
    rfl
  given := by
    intro x hr hop
    exact (hs.mem_chains_iff s.ready x).mpr (s.operation_kept hr hop)

/-- **At the end of a passage everything is written.** -/
theorem ending (s : Passage g job.mappings roots) :
    Ending job roots g (job.compile roots g) := by
  obtain ⟨last, heads, hrun, hnil, _, hs⟩ := Plan.exists_end s.ready
  obtain ⟨targets, htargets⟩ := s.exists_targets
  have hprogram := s.program_eq job rfl
  cases hstatements : s.plan.statements s.outlets.roots with
  | ok statements =>
    rw [hstatements, htargets] at hprogram
    -- the check of the splits changes nothing in what was written
    have hsame : statements = last.statements := by
      rw [Plan.statements_of_run hrun, except_bind_eq_ok] at hstatements
      obtain ⟨_, _, hpure⟩ := hstatements
      injection hpure with hpure
      exact hpure.symm
    have hcompile : job.compile roots g = .ok ⟨Program.args s.numbered ⟨s.sources, statements,
        targets⟩ ++ job.options ++ [job.destination]⟩ s.numbered := bind_of_eq_ok hprogram
    rw [hcompile]
    exact .command (s.emission hrun hnil hs) hprogram hsame
  | error e =>
    obtain ⟨x, fanOut, huneven, rfl⟩ := s.uneven_of_statements hstatements
    rw [hstatements] at hprogram
    rw [compile_eq_error.mpr hprogram]
    exact .uneven (s.emission hrun hnil hs) s.surveys.lists huneven

end Passage

/-- **No internal error escapes.** Whatever calls and compilations came before, a compilation is
refused for its roots, its mappings or a cycle, or it writes all operations that it reaches, and
then there is a command unless a split is not read evenly. It never finds a slot missing, a
selector without a file or a file without a position. -/
theorem internal_errors_never_escape (hg : Reachable g) (job : Job) (roots : List NodeId) :
    Ending job roots g (job.compile roots g) ∧
    ∀ e g', job.compile roots g = .error e g' →
      ∀ node, (∀ fault, e ≠ .invalidInput node fault) ∧ e ≠ .unnumberedSource node := by
  have hending : Ending job roots g (job.compile roots g) := by
    -- until the graph is wired only a refusal can end it
    cases hwire : job.wire roots g with
    | error e g' =>
      rw [compile_eq_error.mpr (program_error_of_wire hwire)]
      exact .refused (wire_refused hg.wellFormed hwire)
    | ok o w =>
      obtain ⟨s, _, _⟩ := exists_passage_of_wire hg.wellFormed hwire
      exact s.ending
  refine ⟨hending, fun e g' h node => ?_⟩
  rw [h] at hending
  rcases hending.error_cases with hrefused | ⟨_, x, counts, rfl⟩
  · exact hrefused.not_internal node
  · exact ⟨by simp, by simp⟩

/-- A compiled graph whose merge was pointed at the split, twice at the same port. -/
def rewired : Graph :=
  (Call.setInputs ⟨3⟩ [⟨5⟩, ⟨2⟩, ⟨5⟩]).after interleavedOnce

theorem reachable_rewired : Reachable rewired :=
  .call reachable_interleavedOnce _

/-- The next compilation stops at this split, but only after it has written the merge, the split
and both filters. -/
theorem internal_errors_never_escape_rewired : ∃ g',
    Job.compile { destination := "out.mp4" } [⟨3⟩] rewired
      = .error (.unevenReads ⟨5⟩ [2, 1, 0]) g' ∧
    ∃ s : Emission { destination := "out.mp4" } [⟨3⟩] rewired, s.last.queue = [] ∧
      ∀ x ∈ [⟨1⟩, ⟨2⟩, ⟨3⟩, ⟨5⟩], x ∈ s.chains.flatten := by
  obtain ⟨g', herror⟩ := Change.exists_of_error?
    (x := Job.compile { destination := "out.mp4" } [⟨3⟩]) (s := rewired)
    (e := .unevenReads ⟨5⟩ [2, 1, 0]) (by decide +kernel)
  have hending := (internal_errors_never_escape reachable_rewired
    { destination := "out.mp4" } [⟨3⟩]).1
  rw [herror] at hending
  rcases hending.error_cases with hrefused | ⟨s, _⟩
  · -- the reasons to refuse a compilation have errors of their own
    cases hrefused
  · have hinputs : rewired.inputs ⟨3⟩ = [⟨⟨5⟩, 0⟩, ⟨⟨2⟩, 0⟩, ⟨⟨5⟩, 0⟩] ∧
        rewired.inputs ⟨5⟩ = [⟨⟨1⟩, 0⟩] := by decide +kernel
    have hmerge : rewired.Reached [⟨3⟩] ⟨3⟩ := .root List.mem_cons_self
    have hsplit : rewired.Reached [⟨3⟩] ⟨5⟩ :=
      hmerge.reads ⟨⟨⟨5⟩, 0⟩, by rw [hinputs.1]; simp, rfl⟩
    have hlast : rewired.Reached [⟨3⟩] ⟨2⟩ :=
      hmerge.reads ⟨⟨⟨2⟩, 0⟩, by rw [hinputs.1]; simp, rfl⟩
    have hfirst : rewired.Reached [⟨3⟩] ⟨1⟩ :=
      hsplit.reads ⟨⟨⟨1⟩, 0⟩, by rw [hinputs.2]; simp, rfl⟩
    have hops : ∀ x ∈ [⟨1⟩, ⟨2⟩, ⟨3⟩, ⟨5⟩], rewired.isOperation x = true := by decide +kernel
    refine ⟨g', herror, s, s.drained, fun x hx => s.given x ?_ (hops x hx)⟩
    simp only [List.mem_cons, List.not_mem_nil, or_false] at hx
    rcases hx with rfl | rfl | rfl | rfl
    · exact hfirst
    · exact hlast
    · exact hmerge
    · exact hsplit

end Filtergraph
