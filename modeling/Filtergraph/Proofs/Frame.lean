import Filtergraph.Proofs.Inputs
import Filtergraph.Proofs.Meaning

/-!
# What a compilation leaves alone

A graph may hold several pipelines, and a compilation changes the graph in place: it adds
selectors and splits, moves slots, and gives positions to media files. It may also stop
between any two of these. So we say what holds of the graph that it leaves, whatever came
of it: nodes stay what they are, the new ones are selectors and splits, only operations
that the roots reach are rewired, and only files that are reached or mapped are renumbered.

The two passes that rewire are put together by transitivity. What the second one may touch
is among what the first one may, since it reaches the same old nodes.
-/

namespace Filtergraph

open Filtergraph.Graph

/-- `g'` is `g` with new selectors and splits, and of the nodes of `g` only those with `P`
may have other slots. -/
structure Graph.Rewired (P : NodeId → Prop) (g g' : Graph) : Prop where
  kept : ∀ c n, g.node? c = some n →
    ∃ es, g'.node? c = some ⟨n.kind, es⟩ ∧ (¬ P c → es = n.inputs)
  added : ∀ c n, g.size ≤ c.index → g'.node? c = some n →
    n.kind = .selector .first ∨ ∃ fanOut, n.kind = .split fanOut

namespace Graph.Rewired

variable {P Q : NodeId → Prop} {g g₁ g' : Graph}

theorem refl (P : NodeId → Prop) (g : Graph) : Rewired P g g where
  kept := by
    intro c n hn
    exact ⟨n.inputs, hn, fun _ => rfl⟩
  added := by
    intro c n hc hn
    have hlt := index_lt_of_node? hn
    omega

/-- One pass after the other, if the second touches no old node that the first may not. -/
theorem trans (h : Rewired P g g₁) (h' : Rewired Q g₁ g')
    (hsub : ∀ c, c.index < g.size → Q c → P c) : Rewired P g g' where
  kept := by
    intro c n hn
    obtain ⟨es₁, hes₁, hsame₁⟩ := h.kept c n hn
    obtain ⟨es, hes, hsame⟩ := h'.kept c _ hes₁
    refine ⟨es, hes, ?_⟩
    intro hc
    rw [hsame fun hq => hc (hsub c (index_lt_of_node? hn) hq), hsame₁ hc]
  added := by
    intro c n hc hn
    by_cases hlt : c.index < g₁.size
    · -- added by the first, and still of the same kind
      obtain ⟨n₁, hn₁⟩ := exists_node? hlt
      obtain ⟨es, hes, _⟩ := h'.kept c n₁ hn₁
      rw [hn] at hes
      rw [Option.some.inj hes]
      exact h.added c n₁ hc hn₁
    · exact h'.added c n (by omega) hn

/-- Media files are neither added nor changed. -/
theorem source?_eq (h : Rewired P g g') (f : NodeId) : g'.source? f = g.source? f := by
  -- an old file keeps its role, and nothing new is a file
  by_cases hf : f.index < g.size
  · obtain ⟨n, hn⟩ := exists_node? hf
    obtain ⟨es, hes, _⟩ := h.kept f n hn
    rw [source?, source?, kind?_of_node? hn, kind?_of_node? hes]
  · have hnone : g.source? f = none := by
      rw [source?, kind?, node?_eq_none (by omega)]
      rfl
    rw [hnone, Option.eq_none_iff_forall_ne_some]
    intro s hs
    obtain ⟨es, hn⟩ := source?_eq_some.mp hs
    rcases h.added f _ (by omega) hn with hk | ⟨fanOut, hk⟩
    · exact absurd hk (by simp)
    · exact absurd hk (by simp)

end Graph.Rewired

/-- Detours rewire those that take part in them. -/
theorem Rerouted.rewired {g g' : Graph} {ds : List Detour} (h : Rerouted g ds g')
    (hds : ∀ d ∈ ds, d.Transparent g) {R : NodeId → Prop}
    (hreached : ∀ d ∈ ds, ∀ c, d.ports c ≠ [] → R c) :
    Rewired (fun c => R c ∧ g.isOperation c = true) g g' where
  kept := by
    intro c n hn
    obtain ⟨es, hes, _⟩ := h.kept c n hn
    refine ⟨es, hes, ?_⟩
    intro hc
    have hsame : g'.node? c = some n := by
      refine h.node?_eq hn ?_
      intro d hd
      by_contra hports
      exact hc ⟨hreached d hd c hports, (hds d hd).takers c hports⟩
    rw [hes] at hsame
    exact congrArg Node.inputs (Option.some.inj hsame)
  added := by
    intro c n hc hn
    obtain ⟨i, d, hd, _, rfl⟩ := h.exists_detour (by omega) hn
    rcases (hds d (List.mem_of_getElem? hd)).kind with ⟨hk, _⟩ | hk
    · exact Or.inl hk
    · exact Or.inr hk

/-! ## The passes -/

section Passes

variable {g : Graph} {ms : List Mapping} {roots : List NodeId}

theorem Approach.rewired (s : Approach g ms roots) :
    Rewired (fun c => g.Reached roots c ∧ g.isOperation c = true) g s.selected := by
  refine s.selectors.graph.rewired s.selectors.transparent ?_
  intro d hd c hports
  obtain ⟨key, rfl, _⟩ := s.selectors.of_mem hd
  have hin := ((selectorDetour_ports_ne_nil s.selectors.surveys).mp hports).1
  exact ((final_of_finalRoots s.final_eq).reached_iff c).mp ((s.selectors.surveys.mem_iff c).mp hin)

theorem Passage.rewired (s : Passage g ms roots) :
    Rewired (fun c => g.Reached roots c ∧ g.isOperation c = true) g s.wired := by
  have hsplits : Rewired (fun c => c ∈ s.order₁ ∧ s.selected.isOperation c = true)
      s.selected s.wired := by
    refine s.splits.graph.rewired s.splits.transparent ?_
    intro d hd c hports
    obtain ⟨x, _, _, rfl⟩ := s.splittable.mem_splitDetours.mp hd
    exact (reads_of_splitDetour s.splittable.surveys hports).1
  refine s.toApproach.rewired.trans hsplits ?_
  rintro c hc ⟨hin, hop⟩
  rw [isOperation, s.selectors.graph.kind? hc] at hop
  exact ⟨(s.mem_order₁_iff hc).mp hin, hop⟩

end Passes

/-! ## Compilations -/

/-- The graph `g'` that a compilation of `g` from the roots, with these mappings, may leave. -/
structure Frames (g : Graph) (roots : List NodeId) (ms : List Mapping) (g' : Graph) : Prop where
  /-- Every node is there under its name and stays what it is, up to the position of a media
  file. If it is not a reached operation, it has the same slots. -/
  kept : ∀ c n, g.node? c = some n → ∃ n', g'.node? c = some n' ∧
    n'.kind.unnumbered = n.kind.unnumbered ∧
    (¬ (g.Reached roots c ∧ g.isOperation c = true) → n'.inputs = n.inputs)
  /-- New nodes are selectors of first streams, and splits. -/
  added : ∀ c n, g.size ≤ c.index → g'.node? c = some n →
    n.kind = .selector .first ∨ ∃ fanOut, n.kind = .split fanOut
  /-- A media file that is neither reached nor mapped keeps its position, too. -/
  positions : ∀ f, ¬ g.Reached roots f → (∀ stream, .stream f stream ∉ ms) →
    g'.source? f = g.source? f

/-- Rewiring and then numbering. -/
theorem Graph.Rewired.frames {g w g' : Graph} {roots : List NodeId} {ms : List Mapping}
    (h : Rewired (fun c => g.Reached roots c ∧ g.isOperation c = true) g w)
    (hsame : w.SameButNumbers g')
    (hpos : ∀ f, ¬ g.Reached roots f → (∀ stream, .stream f stream ∉ ms) →
      g'.source? f = w.source? f) : Frames g roots ms g' where
  kept := by
    intro c n hn
    obtain ⟨es, hes, hinputs⟩ := h.kept c n hn
    obtain ⟨n', hn', hkind, hinputs'⟩ := hsame.node? hes
    exact ⟨n', hn', hkind, fun hc => hinputs'.trans (hinputs hc)⟩
  added := by
    intro c n' hc hn'
    obtain ⟨n, hn, hkind, _⟩ := hsame.symm.node? hn'
    have hadded := h.added c n hc hn
    have hsource : n.kind.isSource = false := by
      rcases hadded with hk | ⟨fanOut, hk⟩
      · rw [hk]; rfl
      · rw [hk]; rfl
    rwa [Kind.eq_of_unnumbered hkind.symm hsource]
  positions := by
    intro f hreached hstream
    rw [hpos f hreached hstream, h.source?_eq]

/-- **What a compilation leaves alone.** Whether it succeeds or fails, and wherever it fails,
no node is removed or renamed or changes its role, new nodes are selectors and splits, only
operations that the roots reach are rewired, and only files that the roots reach or that a
mapping names are renumbered. -/
theorem compile_frames {g : Graph} (hg : Reachable g) (job : Job) (roots : List NodeId) :
    Frames g roots job.mappings (Change.after (job.compile roots) g) := by
  -- it stopped before the first pass, after the selectors, or when all was done
  rcases after_compile_cases hg.wellFormed job roots with heq | ⟨s, heq⟩ | ⟨s, heq⟩
  · rw [heq]
    exact (Rewired.refl _ g).frames (.refl g) fun _ _ _ => rfl
  · rw [heq]
    exact s.rewired.frames (.refl _) fun _ _ _ => rfl
  · rw [heq]
    refine s.rewired.frames s.same ?_
    intro f hreached hstream
    refine source?_numberFrom_of_not_mem ?_ _
    intro hmem
    rcases ((s.mem_sources_iff_given f).mp hmem).2 with hf | ⟨stream, hf⟩
    · exact hreached hf
    · exact hstream stream hf

/-- The merge of the graph is compiled twice, once with a mapping of a filter that it reads,
which adds a selector and two splits, and once with a mapping of the filter beside it, which
fails when the selector is there already. -/
theorem compile_frames_tangled : Reachable tangled ∧
    (∃ cmd g', Job.compile { destination := "out.mp4", mappings := [.output ⟨⟨2⟩, 0⟩] } [⟨3⟩]
        tangled = .ok cmd g' ∧ g'.size = 8 ∧ Frames tangled [⟨3⟩] [.output ⟨⟨2⟩, 0⟩] g') ∧
    ∃ g', Job.compile { destination := "out.mp4", mappings := [.output ⟨⟨4⟩, 0⟩] } [⟨3⟩]
        tangled = .error (.invalidMapping ⟨4⟩) g' ∧ Frames tangled [⟨3⟩] [.output ⟨⟨4⟩, 0⟩] g' := by
  have hg : Reachable tangled := built_tangled.reachable
  refine ⟨hg, ?_, ?_⟩
  · obtain ⟨cmd, g', hok, hsize⟩ := Change.exists_of_yields (x := Job.compile
      { destination := "out.mp4", mappings := [.output ⟨⟨2⟩, 0⟩] } [⟨3⟩]) (s := tangled)
      (q := fun _ g' => g'.size = 8) (by decide +kernel)
    have hframes := compile_frames hg
      { destination := "out.mp4", mappings := [.output ⟨⟨2⟩, 0⟩] } [⟨3⟩]
    rw [Change.after, hok] at hframes
    exact ⟨cmd, g', hok, of_decide_eq_true hsize, hframes⟩
  · obtain ⟨g', herror⟩ := Change.exists_of_error? (x := Job.compile
      { destination := "out.mp4", mappings := [.output ⟨⟨4⟩, 0⟩] } [⟨3⟩]) (s := tangled)
      (e := .invalidMapping ⟨4⟩) (by decide +kernel)
    have hframes := compile_frames hg
      { destination := "out.mp4", mappings := [.output ⟨⟨4⟩, 0⟩] } [⟨3⟩]
    rw [Change.after, herror] at hframes
    exact ⟨g', herror, hframes⟩

end Filtergraph
