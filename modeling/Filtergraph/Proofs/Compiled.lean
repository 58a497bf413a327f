import Filtergraph.Proofs.Passes
import Filtergraph.Proofs.Writing

/-!
# The graph that is written

At the end of a passage the graph is ready to be written: its roots are read by nothing,
its operations read no media file, and all files that matter have a position. Operations
with one output have at most one use, and every new split has its ports read once each.
-/

namespace Filtergraph

open Filtergraph.Graph

namespace SplitPass

variable {g g' : Graph} {o o' : Outlets} {r r' : Readers} {order order' : List NodeId}

/-- The roots are read by nothing, also where a split took the place of one. -/
theorem roots_unread (h : SplitPass g o r order g' o') (hs : Surveys g' o'.roots r' order') :
    ∀ root ∈ o'.roots, r'.count root = 0 := by
  intro root' hroot'
  obtain ⟨root, hroot, hmoved⟩ := forall₂_exists_left h.outlets.roots hroot'
  have hunread := h.before.unread root hroot
  rcases hmoved with ⟨i, d, hd, hnode, rfl⟩ | ⟨hnone, rfl⟩
  · obtain ⟨x, _, _, rfl⟩ := h.before.mem_splitDetours.mp (List.mem_of_getElem? hd)
    have hnode : x = root := hnode
    have hlen := (h.ports_of_split hs hd).length_eq
    rw [List.length_map, ← hs.count_eq_length, List.length_range] at hlen
    rw [hlen]
    -- a split hands out one port for each slot that read the root, and there was none
    show (r.of x).zipIdx.length = 0
    rw [List.length_zipIdx, hnode]
    exact hunread
  · rw [h.count_of_no_split hs (h.before.lt_of_mem (h.before.root_mem hroot)) hnone, hunread]

/-- Splitting does not make operations read media files. -/
theorem isSource_of_reads (h : SplitPass g o r order g' o')
    (hbefore : ∀ c ∈ order, g.isOperation c = true → ∀ x, g.Reads c x → g.isSource x = false)
    {c x : NodeId} (hc : g'.Reached o'.roots c) (hop : g'.isOperation c = true)
    (hr : g'.Reads c x) : g'.isSource x = false := by
  by_cases hlt : c.index < g.size
  · have hcold := (h.reached_old_iff hlt).mp hc
    rw [isOperation, h.graph.kind? hlt] at hop
    obtain ⟨e', he', rfl⟩ := hr
    obtain ⟨e, he, hmoved⟩ := forall₂_exists_left (h.graph.slots hlt) he'
    rcases hmoved with ⟨i, d, hd, _, _, hnew⟩ | ⟨_, rfl⟩
    · obtain ⟨y, _, _, rfl⟩ := h.before.mem_splitDetours.mp (List.mem_of_getElem? hd)
      rw [hnew, isSource_of_node? (h.graph.added i _ hd)]
      rfl
    · have hread : g.Reads c e'.node := ⟨e', he, rfl⟩
      rw [isSource, h.graph.kind? (h.before.wellFormed.closed c _ hread)]
      exact hbefore c hcold hop _ hread
  · -- a new split reads what it splits, and media files are not split
    obtain ⟨n, hn, _⟩ := node?_of_isOperation hop
    obtain ⟨i, d, hd, rfl, rfl⟩ := h.graph.exists_detour hlt hn
    obtain ⟨y, hy, hshared, rfl⟩ := h.before.mem_splitDetours.mp (List.mem_of_getElem? hd)
    obtain ⟨e, he, rfl⟩ := hr
    rw [inputs_of_node? hn, List.mem_singleton] at he
    rw [he]
    show g'.isSource y = false
    rw [isSource, h.graph.kind? (h.before.lt_of_mem hy)]
    exact isSource_of_isShared hshared

end SplitPass

namespace Passage

variable {g : Graph} {ms : List Mapping} {roots : List NodeId}

/-! ## Positions -/

theorem same (s : Passage g ms roots) : s.wired.SameButNumbers s.numbered :=
  sameButNumbers_numberFrom _ _ _

/-- The files that are opened: those that are reached and those that are mapped. -/
theorem mem_sources_iff (s : Passage g ms roots) {x : NodeId} :
    x ∈ s.sources ↔ s.wired.isSource x = true ∧
      (x ∈ s.order ∨ ∃ stream, .stream x stream ∈ s.outlets.mappings) := by
  have hmapped : x ∈ s.outlets.mappings.filterMap Mapping.source? ↔
      ∃ stream, .stream x stream ∈ s.outlets.mappings := by
    rw [List.mem_filterMap]
    constructor
    · rintro ⟨m, hm, hx⟩
      cases m with
      | stream y stream =>
        rw [Mapping.source?, Option.some.injEq] at hx
        exact ⟨stream, hx ▸ hm⟩
      | output e => exact absurd hx (by simp [Mapping.source?])
    · rintro ⟨stream, hm⟩
      exact ⟨_, hm, rfl⟩
  have horder : x ∈ s.readers.producers ∨ x ∈ s.outlets.roots ↔ x ∈ s.order := by
    rw [s.surveys.mem_producers_iff, s.surveys.reader_or_root_iff]
  unfold sources inputOrder
  rw [List.mem_eraseDups, List.mem_filter, List.mem_append, List.mem_append, hmapped, horder,
    and_comm]

theorem kind?_old (s : Passage g ms roots) {x : NodeId} (hx : x.index < g.size) :
    s.wired.kind? x = g.kind? x := by
  rw [s.splits.graph.kind? (s.lt_selected hx), s.selectors.graph.kind? hx]

/-- Old nodes are reached in the graph that is written as in the given one. -/
theorem mem_order_iff (s : Passage g ms roots) {x : NodeId} (hx : x.index < g.size) :
    x ∈ s.order ↔ g.Reached roots x := by
  rw [s.surveys.mem_iff, s.splits.reached_old_iff (s.lt_selected hx), s.mem_order₁_iff hx]

/-- A file that is opened has the position that it is opened at, and is otherwise as it was. -/
theorem source?_numbered (s : Passage g ms roots) {i : Nat} {x : NodeId}
    (hi : s.sources[i]? = some x) : ∃ f, s.wired.source? x = some f ∧
      s.numbered.source? x = some { f with index := some i } := by
  have hsource := (s.mem_sources_iff.mp (List.mem_of_getElem? hi)).1
  obtain ⟨f, hf⟩ := exists_source? hsource
  refine ⟨f, hf, ?_⟩
  have hnumbered : s.numbered.source? x = some { f with index := some (0 + i) } :=
    source?_numberFrom (nodup_eraseDups _) hi hf
  rwa [Nat.zero_add] at hnumbered

theorem exists_position (s : Passage g ms roots) {x : NodeId} (hx : x ∈ s.sources) :
    ∃ i, s.sources[i]? = some x ∧ (s.numbered.source? x).bind Source.index = some i := by
  obtain ⟨i, hi⟩ := List.mem_iff_getElem?.mp hx
  obtain ⟨f, _, hf⟩ := s.source?_numbered hi
  exact ⟨i, hi, by rw [hf]; rfl⟩

theorem position_eq (s : Passage g ms roots) {x : NodeId} (hx : x ∈ s.sources) {i : Nat}
    (hi : (s.numbered.source? x).bind Source.index = some i) : s.sources[i]? = some x := by
  obtain ⟨j, hj, hindex⟩ := s.exists_position hx
  rw [hi, Option.some.injEq] at hindex
  rw [hindex]
  exact hj

/-- New nodes are selectors and splits, so all others are nodes of the given graph. -/
theorem lt_of_kind? (s : Passage g ms roots) {x : NodeId} {k : Kind}
    (hk : s.wired.kind? x = some k) (hselector : ∀ stream, k ≠ .selector stream)
    (hsplit : ∀ fanOut, k ≠ .split fanOut) : x.index < g.size := by
  obtain ⟨n, hn, hkind⟩ := node?_of_kind? hk
  -- first past the splits, then past the selectors
  have hx₁ : x.index < s.selected.size := by
    by_contra hx
    obtain ⟨i, d, hd, _, rfl⟩ := s.splits.graph.exists_detour hx hn
    obtain ⟨y, _, _, rfl⟩ := s.splittable.mem_splitDetours.mp (List.mem_of_getElem? hd)
    exact hsplit _ hkind.symm
  by_contra hx
  rw [s.splits.graph.kind? hx₁] at hk
  obtain ⟨n₁, hn₁, hkind₁⟩ := node?_of_kind? hk
  obtain ⟨i, d, hd, _, rfl⟩ := s.selectors.graph.exists_detour hx hn₁
  obtain ⟨key, rfl, _⟩ := s.selectors.of_mem (List.mem_of_getElem? hd)
  exact hselector _ hkind₁.symm

theorem source?_old (s : Passage g ms roots) {x : NodeId} {f : Source}
    (hf : s.wired.source? x = some f) : g.source? x = some f := by
  obtain ⟨es, hn⟩ := source?_eq_some.mp hf
  have hk := kind?_of_node? hn
  rw [s.kind?_old (s.lt_of_kind? hk (by simp) (by simp))] at hk
  obtain ⟨⟨k, es'⟩, hn', hkind⟩ := node?_of_kind? hk
  have hkind : k = .source f := hkind
  exact source?_eq_some.mpr ⟨es', hkind ▸ hn'⟩

/-- The files are opened as the given graph has them. -/
theorem exists_files (s : Passage g ms roots) :
    ∃ files, List.Forall₂ (fun x f => g.source? x = some f) s.sources files ∧
      inputArgs s.numbered s.sources = files.flatMap Source.flags := by
  have hone : ∀ x ∈ s.sources, ∃ f, g.source? x = some f ∧
      ∃ f', s.numbered.source? x = some f' ∧ f'.flags = f.flags := by
    intro x hx
    obtain ⟨i, hi⟩ := List.mem_iff_getElem?.mp hx
    obtain ⟨f, hf, hnumbered⟩ := s.source?_numbered hi
    exact ⟨f, s.source?_old hf, _, hnumbered, rfl⟩
  obtain ⟨files, hfiles⟩ := exists_forall₂ hone
  refine ⟨files, hfiles.imp fun _ _ hf => hf.1, ?_⟩
  unfold inputArgs
  generalize s.sources = sources at hfiles
  induction hfiles with
  | nil => rfl
  | cons hf _ ih =>
    obtain ⟨_, f', hf', hflags⟩ := hf
    rw [List.filterMap_cons_some hf', List.flatMap_cons, List.flatMap_cons, hflags, ih]

/-! ## What can be written -/

/-- **At the end of a passage the graph is ready.** -/
theorem ready (s : Passage g ms roots) : Ready s.plan s.outlets.roots s.order where
  wellFormed := s.splits.wellFormed.numberFrom _ _
  surveys := s.surveys.numbered s.same
  unread := s.splits.roots_unread s.surveys
  streams := by
    intro c hc hop x hr
    have hbefore : ∀ c ∈ s.order₁, s.selected.isOperation c = true →
        ∀ x, s.selected.Reads c x → s.selected.isSource x = false := by
      intro c hc hop x hr
      exact s.selectors.isSource_of_reads ((s.splittable.surveys.mem_iff c).mp hc) hop hr
    show s.numbered.isSource x = false
    rw [s.same.isSource]
    refine s.splits.isSource_of_reads hbefore ((s.surveys.mem_iff c).mp hc) ?_
      (s.same.reads_iff.mp hr)
    rw [← s.same.isOperation]
    exact hop
  numbered := by
    intro x hx hsource
    have hmem : x ∈ s.sources :=
      s.mem_sources_iff.mpr ⟨by rw [← s.same.isSource]; exact hsource, Or.inl hx⟩
    obtain ⟨i, _, hi⟩ := s.exists_position hmem
    exact ⟨i, hi⟩

theorem uses_le_one (s : Passage g ms roots) {x : NodeId} (hx : x ∈ s.order)
    (hkind : (s.numbered.kind? x).any Kind.isSplittable = true) : s.plan.uses x ≤ 1 := by
  refine s.splits.uses_le_one s.surveys hx ?_
  rwa [← s.same.any_kind? (fun k => by cases k <;> rfl) x]

/-- What a mapping of an operation names is reached, and is an operation still. -/
theorem mapped_operation (s : Passage g ms roots) {e : Edge}
    (he : .output e ∈ s.outlets.mappings) :
    e.node ∈ s.order ∧ s.numbered.isOperation e.node = true := by
  refine ⟨(s.surveys.mem_iff _).mpr (s.splits.mapped_reached he), ?_⟩
  rw [s.same.isOperation]
  obtain ⟨m, hm, hmoved⟩ := forall₂_exists_left s.splits.outlets.mappings he
  -- the mapping names a new split, or the node that it named before
  rcases hmoved with ⟨i, d, port, hd, _, hnew⟩ | ⟨_, rfl⟩
  · obtain ⟨y, _, _, rfl⟩ := s.splittable.mem_splitDetours.mp (List.mem_of_getElem? hd)
    rw [Mapping.output.injEq] at hnew
    rw [hnew, isOperation_of_node? (s.splits.graph.added i _ hd)]
    rfl
  · obtain ⟨n, hn, hkind⟩ := s.mapped_node hm
    rw [isOperation, s.kind?_old (index_lt_of_node? hn), kind?_of_node? hn]
    cases hk : n.kind with
    | filter f gate => rfl
    | merge => rfl
    | _ => exact absurd hkind (by simp [hk, Kind.isFilterOrMerge])

theorem stream_mem_iff (s : Passage g ms roots) {x : NodeId} {stream : Stream} :
    .stream x stream ∈ s.outlets.mappings ↔ .stream x stream ∈ ms := by
  constructor
  · intro hm'
    obtain ⟨m, hm, hmoved⟩ := forall₂_exists_left s.splits.outlets.mappings hm'
    rcases hmoved with ⟨_, _, _, _, _, hnew⟩ | ⟨_, rfl⟩
    · exact absurd hnew (by simp)
    · exact hm
  · intro hm
    obtain ⟨m', hm', hmoved⟩ := forall₂_exists_right s.splits.outlets.mappings hm
    rcases hmoved with ⟨_, _, _, _, hreads, _⟩ | ⟨_, rfl⟩
    · exact absurd hreads (by simp [Mapping.reads])
    · exact hm'

theorem mem_sources_of_mapping (s : Passage g ms roots) {x : NodeId} {stream : Stream}
    (h : .stream x stream ∈ s.outlets.mappings) : x ∈ s.sources := by
  have hsource : g.isSource x = true := check_eq_ok.mp (s.checked _ (s.stream_mem_iff.mp h))
  obtain ⟨n, hn, _⟩ := node?_of_isSource hsource
  refine s.mem_sources_iff.mpr ⟨?_, Or.inr ⟨stream, h⟩⟩
  rw [isSource, s.kind?_old (index_lt_of_node? hn)]
  exact hsource

/-- **The ports of a new split are read once each**: the first ones by slots, the others by
mappings. -/
theorem readOnce_new (s : Passage g ms roots) {i : Nat} {d : Detour}
    (hd : (splitDetours s.selected s.r₁ ⟨s.ends, ms⟩)[i]? = some d) {fanOut : Nat}
    (hk : s.numbered.kind? ⟨s.selected.size + i⟩ = some (.split fanOut)) :
    s.plan.ReadOnce s.order ⟨s.selected.size + i⟩ fanOut := by
  have hslots := s.splits.ports_of_split s.surveys hd
  have hmaps := s.splits.outlets.ports i d hd
  -- the fan-out is fixed when the split is made: one port for each use that was counted
  have hfan : fanOut = d.moves.length + Outlets.mapped ⟨s.ends, ms⟩ d.node := by
    have hadded := s.splits.graph.added i d hd
    obtain ⟨x, _, _, rfl⟩ := s.splittable.mem_splitDetours.mp (List.mem_of_getElem? hd)
    rw [kind?_of_node? (s.same.node?_eq hadded rfl), Option.some.injEq] at hk
    have hk : s.r₁.count x + Outlets.mapped ⟨s.ends, ms⟩ x = fanOut := by injection hk
    rw [← hk]
    show _ = (s.r₁.of x).zipIdx.length + _
    rw [List.length_zipIdx]
    rfl
  -- numbering the files moves no slot
  have hslots' : s.numbered.slotsReading s.order ⟨s.selected.size + i⟩
      = s.wired.slotsReading s.order ⟨s.selected.size + i⟩ := by
    unfold slotsReading
    simp only [s.same.inputs]
  show ((s.numbered.slotsReading s.order _).map Edge.port ++ s.outlets.mappings.filterMap _).Perm _
  rw [hslots', hmaps, hfan, List.range_add]
  exact hslots.append (List.Perm.of_eq List.range'_eq_map_range)

end Passage

end Filtergraph
