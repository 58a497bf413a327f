import Filtergraph.Proofs.Conservation

/-!
# What nodes mean

A node stands for a term, the way in which its output is made from streams of media files. A
media file that is read as it is stands for its first stream, a selector for the stream that
it names, a split for what it copies, and filters and merges are applied to what their slots
read.

Detours keep terms: a new selector of a first stream, or a new split, stands for the same as
the node behind it. So what a node means at the end of a compilation, its origin means in the
graph that was given.
-/

namespace Filtergraph

open Filtergraph.Graph

/-- How a stream is made. -/
inductive Term where
  /-- A stream of a media file. -/
  | file (source : NodeId) (stream : Stream)
  /-- An operation as it is written, and what it reads. -/
  | apply (operation : String) (inputs : List Term)

/-- The node `x` of the graph stands for the term. -/
inductive Graph.Denotes (g : Graph) : NodeId → Term → Prop where
  /-- A media file that is read as it is. -/
  | file {x : NodeId} {s : Source} {es : List Edge} (hn : g.node? x = some ⟨.source s, es⟩) :
    Denotes g x (.file x .first)
  /-- A stream of a media file. -/
  | stream {x : NodeId} {stream : Stream} {e : Edge}
    (hn : g.node? x = some ⟨.selector stream, [e]⟩) : Denotes g x (.file e.node stream)
  /-- Any output of a split. -/
  | split {x : NodeId} {fanOut : Nat} {e : Edge} {t : Term}
    (hn : g.node? x = some ⟨.split fanOut, [e]⟩) (ht : Denotes g e.node t) : Denotes g x t
  /-- A filter with its gate, or a merge, on what its slots read. -/
  | apply {x : NodeId} {n : Node} {stage : Stage} {ts : List Term} (hn : g.node? x = some n)
    (hk : n.kind.isFilterOrMerge = true) (hstage : n.stage? = some stage)
    (hlen : n.inputs.length = ts.length)
    (hts : ∀ (i : Nat) (e : Edge) (t : Term), n.inputs[i]? = some e → ts[i]? = some t →
      Denotes g e.node t) : Denotes g x (.apply stage.text ts)

/-- `t` is the one term that the node stands for. -/
def Graph.TermOf (g : Graph) (x : NodeId) (t : Term) : Prop :=
  ∀ t', g.Denotes x t' ↔ t' = t

namespace Graph

variable {g g' : Graph} {x : NodeId} {t t' : Term}

theorem denotes_source_iff {s : Source} {es : List Edge}
    (hn : g.node? x = some ⟨.source s, es⟩) : g.Denotes x t ↔ t = .file x .first := by
  constructor
  · intro ht
    cases ht with
    | file _ => rfl
    | stream hn' => exact absurd (hn.symm.trans hn') (by simp)
    | split hn' _ => exact absurd (hn.symm.trans hn') (by simp)
    | apply hn' hk _ _ _ =>
      rw [hn, Option.some.injEq] at hn'
      rw [← hn'] at hk
      exact absurd hk (by simp [Kind.isFilterOrMerge])
  · rintro rfl
    exact .file hn

theorem denotes_selector_iff {stream : Stream} {e : Edge}
    (hn : g.node? x = some ⟨.selector stream, [e]⟩) :
    g.Denotes x t ↔ t = .file e.node stream := by
  constructor
  · intro ht
    cases ht with
    | file hn' => exact absurd (hn.symm.trans hn') (by simp)
    | stream hn' =>
      have hnode := hn.symm.trans hn'
      rw [Option.some.injEq, Node.mk.injEq, Kind.selector.injEq, List.singleton_inj] at hnode
      rw [hnode.1, hnode.2]
    | split hn' _ => exact absurd (hn.symm.trans hn') (by simp)
    | apply hn' hk _ _ _ =>
      rw [hn, Option.some.injEq] at hn'
      rw [← hn'] at hk
      exact absurd hk (by simp [Kind.isFilterOrMerge])
  · rintro rfl
    exact .stream hn

theorem denotes_split_iff {fanOut : Nat} {e : Edge}
    (hn : g.node? x = some ⟨.split fanOut, [e]⟩) : g.Denotes x t ↔ g.Denotes e.node t := by
  constructor
  · intro ht
    cases ht with
    | file hn' => exact absurd (hn.symm.trans hn') (by simp)
    | stream hn' => exact absurd (hn.symm.trans hn') (by simp)
    | split hn' ht =>
      have hnode := hn.symm.trans hn'
      rw [Option.some.injEq, Node.mk.injEq, List.singleton_inj] at hnode
      rw [hnode.2]
      exact ht
    | apply hn' hk _ _ _ =>
      rw [hn, Option.some.injEq] at hn'
      rw [← hn'] at hk
      exact absurd hk (by simp [Kind.isFilterOrMerge])
  · exact .split hn

/-- Filters and merges stand for themselves, applied to what their slots read. -/
theorem denotes_apply_iff {n : Node} {stage : Stage} (hn : g.node? x = some n)
    (hk : n.kind.isFilterOrMerge = true) (hstage : n.stage? = some stage) :
    g.Denotes x t ↔ ∃ ts, t = .apply stage.text ts ∧
      List.Forall₂ (fun e u => g.Denotes e.node u) n.inputs ts := by
  constructor
  · intro ht
    cases ht with
    | file hn' =>
      rw [hn, Option.some.injEq] at hn'
      exact absurd hk (by simp [hn', Kind.isFilterOrMerge])
    | stream hn' =>
      rw [hn, Option.some.injEq] at hn'
      exact absurd hk (by simp [hn', Kind.isFilterOrMerge])
    | split hn' _ =>
      rw [hn, Option.some.injEq] at hn'
      exact absurd hk (by simp [hn', Kind.isFilterOrMerge])
    | apply hn' _ hstage' hlen hts =>
      rw [hn, Option.some.injEq] at hn'
      subst hn'
      rw [hstage, Option.some.injEq] at hstage'
      refine ⟨_, by rw [hstage'], List.forall₂_iff_get.mpr ⟨hlen, fun i hi hi' => ?_⟩⟩
      exact hts i _ _ (List.getElem?_eq_getElem hi) (List.getElem?_eq_getElem hi')
  · rintro ⟨ts, rfl, hts⟩
    refine .apply hn hk hstage hts.length_eq fun i e u he hu => ?_
    obtain ⟨u', hu', hden⟩ := forall₂_getElem?_left hts he
    rw [hu, Option.some.injEq] at hu'
    exact hu' ▸ hden

/-- **A node stands for one term at most.** -/
theorem Denotes.unique (h : g.Denotes x t) (h' : g.Denotes x t') : t' = t := by
  induction h generalizing t' with
  | file hn => exact (denotes_source_iff hn).mp h'
  | stream hn => exact (denotes_selector_iff hn).mp h'
  | split hn _ ih => exact ih ((denotes_split_iff hn).mp h')
  | @apply x n stage ts hn hk hstage hlen hts ih =>
    obtain ⟨ts', rfl, hts'⟩ := (denotes_apply_iff hn hk hstage).mp h'
    -- the two lists of terms agree slot by slot
    have hsame : ts' = ts := by
      refine List.ext_getElem (hts'.length_eq.symm.trans hlen) fun i hi' hi => ?_
      obtain ⟨e, he, hden⟩ := forall₂_getElem?_right hts' (List.getElem?_eq_getElem hi')
      exact ih i e _ he (List.getElem?_eq_getElem hi) hden
    rw [hsame]

theorem Denotes.termOf (h : g.Denotes x t) : g.TermOf x t :=
  fun _ => ⟨h.unique, fun he => he ▸ h⟩

/-- Positions of media files do not matter. -/
theorem SameButNumbers.denotes (hsame : g.SameButNumbers g') (h : g'.Denotes x t) :
    g.Denotes x t := by
  induction h with
  | @file x s es hn =>
    obtain ⟨⟨k, es'⟩, hn', hkind, _⟩ := hsame.symm.node? hn
    cases k with
    | source s' => exact .file hn'
    | _ => exact absurd hkind (by simp [Kind.unnumbered])
  | stream hn => exact .stream (hsame.symm.node?_eq hn rfl)
  | split hn _ ih => exact .split (hsame.symm.node?_eq hn rfl) ih
  | @apply x n stage ts hn hk hstage hlen _ ih =>
    have hsource : n.kind.isSource = false := by
      cases hkind : n.kind with
      | source s => exact absurd hk (by simp [hkind, Kind.isFilterOrMerge])
      | _ => rfl
    exact .apply (hsame.symm.node?_eq hn hsource) hk hstage hlen ih

end Graph

/-! ## Detours -/

/-- What reads over the detour reads the same as before. -/
structure Detour.Transparent (g : Graph) (d : Detour) : Prop where
  known : d.node.index < g.size
  /-- Only operations take the detour. -/
  takers : ∀ c, d.ports c ≠ [] → g.isOperation c = true
  /-- It leads over a first stream or a copy. -/
  kind : (d.kind = .selector .first ∧ g.isSource d.node = true) ∨
    ∃ fanOut, d.kind = .split fanOut

namespace Rerouted

variable {g g' : Graph} {ds : List Detour} {x : NodeId}

/-- A node is an old one with slots that were moved, or that of a detour. -/
theorem node?_cases (h : Rerouted g ds g') {n : Node} (hn : g'.node? x = some n) :
    (x.index < g.size ∧ ∃ es, g.node? x = some ⟨n.kind, es⟩ ∧
      List.Forall₂ (Moved g.size ds x) es n.inputs) ∨
    ∃ i d, ds[i]? = some d ∧ x = ⟨g.size + i⟩ ∧ n = ⟨d.kind, [⟨d.node, 0⟩]⟩ := by
  by_cases hx : x.index < g.size
  · obtain ⟨m, hm⟩ := exists_node? hx
    obtain ⟨es, hm', hes⟩ := h.kept x m hm
    rw [hn, Option.some.injEq] at hm'
    subst hm'
    exact Or.inl ⟨hx, m.inputs, hm, hes⟩
  · exact Or.inr (h.exists_detour hx hn)

/-- **Detours keep what nodes mean.** -/
theorem denotes_origin (h : Rerouted g ds g') (hwf : g.WellFormed)
    (hds : ∀ d ∈ ds, d.Transparent g) {t : Term} (ht : g'.Denotes x t) :
    g.Denotes (origin g ds x) t := by
  have hslot : ∀ {c : NodeId} {n : Node} {e : Edge}, g.node? c = some n → e ∈ n.inputs →
      e.node.index < g.size :=
    fun hn he => hwf.closed _ _ ⟨_, by rw [inputs_of_node? hn]; exact he, rfl⟩
  induction ht with
  | @file x s es hn =>
    rcases h.node?_cases hn with ⟨hx, es', hn', _⟩ | ⟨i, d, hd, rfl, hnew⟩
    · rw [origin_old ds hx]
      exact .file hn'
    · rw [Node.mk.injEq] at hnew
      rcases (hds d (List.mem_of_getElem? hd)).kind with ⟨hk, _⟩ | ⟨k, hk⟩
      · exact absurd hnew.1 (by simp [hk])
      · exact absurd hnew.1 (by simp [hk])
  | @stream x stream e hn =>
    rcases h.node?_cases hn with ⟨hx, es', hn', hes⟩ | ⟨i, d, hd, rfl, hnew⟩
    · -- a selector does not take detours
      obtain ⟨e₀, rest, hmoved, hrest, rfl⟩ := List.forall₂_cons_right_iff.mp hes
      rw [List.forall₂_nil_right_iff] at hrest
      subst hrest
      have hstay : e = e₀ := by
        rcases hmoved with ⟨j, d, hd, _, hports, _⟩ | ⟨_, rfl⟩
        · have hop := (hds d (List.mem_of_getElem? hd)).takers x hports
          rw [isOperation_of_node? hn'] at hop
          exact absurd hop (by simp [Kind.isOperation])
        · rfl
      rw [origin_old ds hx, hstay]
      exact .stream hn'
    -- the new selector of a first stream means what the file behind it means
    · rw [Node.mk.injEq, List.singleton_inj] at hnew
      rw [origin_new hd, hnew.2]
      rcases (hds d (List.mem_of_getElem? hd)).kind with ⟨hk, hsource⟩ | ⟨k, hk⟩
      · rw [hk, Kind.selector.injEq] at hnew
        obtain ⟨⟨k, es⟩, hn', hkind⟩ := node?_of_isSource hsource
        cases k with
        | source s => rw [hnew.1]; exact .file hn'
        | _ => exact absurd hkind (by simp [Kind.isSource])
      · exact absurd hnew.1 (by simp [hk])
  | @split x fanOut e t hn _ ih =>
    rcases h.node?_cases hn with ⟨hx, es', hn', hes⟩ | ⟨i, d, hd, rfl, hnew⟩
    · obtain ⟨e₀, rest, hmoved, hrest, rfl⟩ := List.forall₂_cons_right_iff.mp hes
      rw [List.forall₂_nil_right_iff] at hrest
      subst hrest
      rw [origin_moved (hslot hn' List.mem_cons_self) hmoved] at ih
      rw [origin_old ds hx]
      exact .split hn' ih
    · rw [Node.mk.injEq, List.singleton_inj] at hnew
      -- a new split means what it copies, and that is an old node
      rw [hnew.2, origin_old ds (hds d (List.mem_of_getElem? hd)).known] at ih
      rw [origin_new hd]
      exact ih
  | @apply x n stage ts hn hk hstage hlen _ ih =>
    rcases h.node?_cases hn with ⟨hx, es', hn', hes⟩ | ⟨i, d, hd, rfl, rfl⟩
    · rw [origin_old ds hx]
      -- of its slots a merge writes only how many there are
      have hstage' : (⟨n.kind, es'⟩ : Node).stage? = some stage := by
        rw [← hstage]
        unfold Node.stage?
        rw [hes.length_eq]
      refine .apply hn' hk hstage' (hes.length_eq.trans hlen) fun i e u he hu => ?_
      obtain ⟨e', he', hmoved⟩ := forall₂_getElem?_left hes he
      rw [← origin_moved (hslot hn' (List.mem_of_getElem? he)) hmoved]
      exact ih i e' u he' hu
    · rcases (hds d (List.mem_of_getElem? hd)).kind with ⟨hkind, _⟩ | ⟨k, hkind⟩
      · exact absurd hk (by simp [hkind, Kind.isFilterOrMerge])
      · exact absurd hk (by simp [hkind, Kind.isFilterOrMerge])

end Rerouted

/-! ## The passes -/

/-- New selectors take the first stream, which is what was read before. -/
theorem SelectorPass.transparent {g g' : Graph} {roots order : List NodeId} {r : Readers}
    (h : SelectorPass g roots r order g') : ∀ d ∈ selectorDetours g r, d.Transparent g := by
  intro d hd
  have hlt := h.detour_lt d hd
  obtain ⟨key, rfl, hsource, _⟩ := h.of_mem hd
  refine ⟨hlt, fun c hports => ?_, Or.inl ⟨rfl, hsource⟩⟩
  exact ((selectorDetour_ports_ne_nil h.surveys).mp hports).2.1

/-- New splits copy what was read before. -/
theorem SplitPass.transparent {g g' : Graph} {o o' : Outlets} {r : Readers} {order : List NodeId}
    (h : SplitPass g o r order g' o') : ∀ d ∈ splitDetours g r o, d.Transparent g := by
  intro d hd
  have hlt := h.before.detour_lt d hd
  obtain ⟨x, hx, hshared, rfl⟩ := h.before.mem_splitDetours.mp hd
  refine ⟨hlt, fun c hports => ?_, Or.inr ⟨_, rfl⟩⟩
  exact h.before.wellFormed.isOperation_of_reads (reads_of_splitDetour h.before.surveys hports).2
    (isSource_of_isShared hshared)

namespace Passage

variable {g : Graph} {ms : List Mapping} {roots : List NodeId}

/-- The node of the given graph that a node stands behind, or is. -/
def origin (s : Passage g ms roots) (x : NodeId) : NodeId :=
  Rerouted.origin g (selectorDetours g s.r₀)
    (Rerouted.origin s.selected (splitDetours s.selected s.r₁ ⟨s.ends, ms⟩) x)

theorem origin_old (s : Passage g ms roots) {x : NodeId} (hx : x.index < g.size) :
    s.origin x = x := by
  rw [origin, Rerouted.origin_old _ (s.lt_selected hx), Rerouted.origin_old _ hx]

/-- **What a node means at the end, its origin means in the given graph.** -/
theorem termOf_origin (s : Passage g ms roots) {x : NodeId} {t : Term}
    (h : s.numbered.Denotes x t) : g.TermOf (s.origin x) t := by
  have hwired := s.same.denotes h
  have hselected :=
    s.splits.graph.denotes_origin s.splittable.wellFormed s.splits.transparent hwired
  exact (s.selectors.graph.denotes_origin s.selectors.before s.selectors.transparent
    hselected).termOf

end Passage

end Filtergraph
