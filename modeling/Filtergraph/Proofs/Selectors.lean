import Filtergraph.Proofs.Detour

/-!
# Selectors are detours

Every media file that some reached operation reads directly gets one detour, over a new
selector of its first stream. All operations among its readers take part in it with all
their slots. So afterwards no reached operation reads a media file.
-/

namespace Filtergraph

open Filtergraph.Graph

/-- The operations among the readers of a node, one entry for each slot. -/
def operationsReading (g : Graph) (r : Readers) (key : NodeId) : List NodeId :=
  (r.of key).filter g.isOperation

/-- Whether the node is a media file that operations read directly. -/
def needsSelector (g : Graph) (r : Readers) (key : NodeId) : Bool :=
  g.isSource key && !(operationsReading g r key).isEmpty

/-- The detour over a selector of the first stream. -/
def selectorDetour (g : Graph) (r : Readers) (key : NodeId) : Detour :=
  ⟨key, .selector .first, (operationsReading g r key).map fun c => (c, 0)⟩

/-- The detours that the operations among the readers need. -/
def selectorDetours (g : Graph) (r : Readers) : List Detour :=
  (r.producers.filter (needsSelector g r)).map (selectorDetour g r)

variable {g g' : Graph} {roots order : List NodeId} {r : Readers}

/-- A selector has one port, which is taken once for each slot of a user. -/
theorem selectorDetour_ports (g : Graph) (r : Readers) (key c : NodeId) :
    (selectorDetour g r key).ports c
      = List.replicate ((operationsReading g r key).count c) 0 := by
  unfold selectorDetour Detour.ports
  rw [List.filter_map, List.map_map, List.count_eq_length_filter, List.eq_replicate_iff]
  refine ⟨?_, fun p hp => ?_⟩
  · rw [List.length_map]
    exact congrArg List.length (List.filter_congr fun d _ => rfl)
  · obtain ⟨d, _, rfl⟩ := List.mem_map.mp hp
    rfl

/-- A reached operation takes part with all its slots, and nothing else takes part. -/
theorem count_operationsReading (hs : Surveys g roots r order) (key c : NodeId) :
    (operationsReading g r key).count c =
      if c ∈ order ∧ g.isOperation c = true then (g.inputs c).countP (·.node = key) else 0 := by
  unfold operationsReading
  by_cases hop : g.isOperation c = true
  · rw [List.count_filter hop]
    by_cases hc : c ∈ order
    · rw [if_pos ⟨hc, hop⟩, hs.count_of hc]
    · rw [if_neg fun h => hc h.1, List.count_eq_zero]
      exact fun hmem => hc (hs.of_subset hmem).1
  · rw [if_neg fun h => hop h.2, List.count_eq_zero]
    exact fun hmem => hop (List.mem_filter.mp hmem).2

/-- The media files that get a selector, in the order of the selectors. -/
def selectorFiles (g : Graph) (r : Readers) : List NodeId :=
  r.producers.filter (needsSelector g r)

theorem selectorDetours_eq (g : Graph) (r : Readers) :
    selectorDetours g r = (selectorFiles g r).map (selectorDetour g r) := rfl

theorem getElem?_selectorDetours {i : Nat} {d : Detour} : (selectorDetours g r)[i]? = some d ↔
    ∃ f, (selectorFiles g r)[i]? = some f ∧ selectorDetour g r f = d := by
  rw [selectorDetours_eq, List.getElem?_map, Option.map_eq_some_iff]

/-- They are those that reached operations read directly. -/
theorem mem_selectorFiles (hs : Surveys g roots r order) {f : NodeId} : f ∈ selectorFiles g r ↔
    g.isSource f = true ∧ ∃ c ∈ order, g.isOperation c = true ∧ g.Reads c f := by
  rw [selectorFiles, List.mem_filter, needsSelector, Bool.and_eq_true, Bool.not_eq_true',
    List.isEmpty_eq_false_iff]
  -- the record speaks of readers, the statement of slots that read
  constructor
  · rintro ⟨_, hsource, husers⟩
    obtain ⟨c, hc⟩ := List.exists_mem_of_ne_nil _ husers
    obtain ⟨hc, hop⟩ := List.mem_filter.mp hc
    obtain ⟨hin, hr⟩ := hs.of_subset hc
    exact ⟨hsource, c, hin, hop, hr⟩
  · rintro ⟨hsource, c, hc, hop, hr⟩
    refine ⟨hs.mem_producers_iff.mpr ⟨c, hc, hr⟩, hsource, ?_⟩
    exact List.ne_nil_of_mem (List.mem_filter.mpr ⟨hs.mem_of hc hr, hop⟩)

/-- Only reached operations that read the file take part in its detour. -/
theorem selectorDetour_ports_ne_nil (hs : Surveys g roots r order) {key c : NodeId} :
    (selectorDetour g r key).ports c ≠ [] ↔
      c ∈ order ∧ g.isOperation c = true ∧ g.Reads c key := by
  rw [selectorDetour_ports, ne_eq, List.replicate_eq_nil_iff, List.count_eq_zero, not_not,
    operationsReading, List.mem_filter]
  constructor
  · rintro ⟨hmem, hop⟩
    obtain ⟨hin, hr⟩ := hs.of_subset hmem
    exact ⟨hin, hop, hr⟩
  · rintro ⟨hc, hop, hr⟩
    exact ⟨hs.mem_of hc hr, hop⟩

/-- Moving slots one by one, when all moves can be made. -/
theorem foldl_redirect? {users : List NodeId} {key : NodeId} {e : Edge}
    (h : redirectAll key (users.map fun u => (u, e)) g = some g') :
    users.foldl (fun g u => (g.redirect? u key e).getD g) g = g' := by
  induction users generalizing g with
  | nil =>
    injection h with h
  | cons u users ih =>
    rw [List.map_cons, redirectAll] at h
    obtain ⟨g₁, hg₁, h⟩ := Option.bind_eq_some_iff.mp h
    rw [List.foldl_cons, hg₁]
    exact ih h

/-- One key of the pass, in a graph that already has the detours of some others. -/
theorem readThroughSelector_step (hwf : g.WellFormed) (hs : Surveys g roots r order)
    {done : List NodeId} {key : NodeId} (hkey : key ∈ r.producers) (hnew : key ∉ done)
    (h : Rerouted g ((done.filter (needsSelector g r)).map (selectorDetour g r)) g') (added : Nat) :
    ∃ g'', readThroughSelector r (g', added) key
        = (g'', added + if needsSelector g r key then 1 else 0) ∧
      Rerouted g (((done ++ [key]).filter (needsSelector g r)).map (selectorDetour g r)) g'' := by
  obtain ⟨c, hc, hread⟩ := hs.mem_producers_iff.mp hkey
  obtain ⟨n, hn⟩ := hwf.node?_of_reads hread
  have hlt := index_lt_of_node? hn
  have hsource : g'.isSource key = g.isSource key := by
    rw [isSource, isSource, h.kind? hlt]
  -- roles of the readers are those of the graph that was surveyed
  have husers : (r.of key).filter g'.isOperation = operationsReading g r key := by
    refine List.filter_congr fun u hu => ?_
    obtain ⟨m, hm⟩ := hs.known u (hs.of_subset hu).1
    rw [isOperation, isOperation, h.kind? (index_lt_of_node? hm)]
  unfold readThroughSelector
  dsimp only
  rw [husers, hsource, List.filter_append, List.map_append]
  by_cases hneed : needsSelector g r key = true
  · have hcond : (g.isSource key && !(operationsReading g r key).isEmpty) = true := hneed
    rw [if_pos hcond, if_pos hneed, List.filter_cons_of_pos hneed]
    have hother : ∀ d ∈ (done.filter (needsSelector g r)).map (selectorDetour g r),
        d.node ≠ key := by
      intro d hd he
      obtain ⟨k, hk, rfl⟩ := List.mem_map.mp hd
      have he : k = key := he
      exact hnew (he ▸ (List.mem_filter.mp hk).1)
    -- an operation moves all its slots that read the key, any other node none
    have hfull : ∀ c, (selectorDetour g r key).ports c = [] ∨
        ((selectorDetour g r key).ports c).length = (g.inputs c).countP (·.node = key) := by
      intro c
      rw [selectorDetour_ports, List.length_replicate, count_operationsReading hs]
      split
      · exact Or.inr rfl
      · exact Or.inl rfl
    obtain ⟨g'', happly, hrer⟩ :=
      h.snoc (d := selectorDetour g r key) hlt hother hfull hwf.closed
    refine ⟨g'', ?_, hrer⟩
    unfold Detour.apply selectorDetour at happly
    rw [List.map_map] at happly
    rw [foldl_redirect? happly]
  · have hcond : ¬ (g.isSource key && !(operationsReading g r key).isEmpty) = true := hneed
    rw [if_neg hcond, if_neg hneed, List.filter_cons_of_neg hneed]
    exact ⟨g', rfl, by simpa using h⟩

/-- **The pass makes the detours that are needed, and counts them.** -/
theorem rerouted_insertSelectors (hwf : g.WellFormed) (hs : Surveys g roots r order)
    (hr : Readers.build g roots = .ok r) :
    ∃ g', insertSelectors g roots = .ok (g', (selectorDetours g r).length) ∧
      Rerouted g (selectorDetours g r) g' := by
  -- the loop, from any point on: the detours of the keys passed so far are there
  have hfold : ∀ (done todo : List NodeId) (g' : Graph), done ++ todo = r.producers →
      Rerouted g ((done.filter (needsSelector g r)).map (selectorDetour g r)) g' →
      ∃ g'', todo.foldl (readThroughSelector r) (g', (done.filter (needsSelector g r)).length)
          = (g'', (selectorDetours g r).length) ∧ Rerouted g (selectorDetours g r) g'' := by
    intro done todo
    induction todo generalizing done with
    | nil =>
      intro g' hall h
      rw [List.append_nil] at hall
      subst hall
      exact ⟨g', by rw [selectorDetours, List.length_map]; rfl, h⟩
    | cons key todo ih =>
      intro g' hall h
      have hnd : (done ++ key :: todo).Nodup := by
        rw [hall]
        exact nodup_eraseDups _
      have hnew : key ∉ done := by
        rw [List.perm_middle.nodup_iff, List.nodup_cons, List.mem_append, not_or] at hnd
        exact hnd.1.1
      have hkey : key ∈ r.producers := by
        rw [← hall]
        exact List.mem_append_right _ List.mem_cons_self
      obtain ⟨g₁, hstep, h₁⟩ := readThroughSelector_step hwf hs hkey hnew h
        (done.filter (needsSelector g r)).length
      obtain ⟨g'', hrun, h''⟩ := ih (done ++ [key]) g₁ (by rw [← hall, List.append_assoc]; rfl) h₁
      refine ⟨g'', ?_, h''⟩
      rw [List.foldl_cons, hstep, ← hrun, List.filter_append, List.length_append]
      by_cases hneed : needsSelector g r key = true
      · rw [if_pos hneed, List.filter_cons_of_pos hneed]; rfl
      · rw [if_neg hneed, List.filter_cons_of_neg hneed]; rfl
  obtain ⟨g', hrun, h⟩ := hfold [] r.producers g rfl (Rerouted.refl g)
  refine ⟨g', ?_, h⟩
  unfold insertSelectors
  rw [hr, ← hrun]
  rfl

/-! ## The graph after the pass -/

/-- How a slot of `c` fares. A reached operation reads a media file through the selector of
the file, and every other slot is as before. -/
def ThroughSelector (g : Graph) (roots files : List NodeId) (c : NodeId) (e e' : Edge) : Prop :=
  (g.Reached roots c ∧ g.isOperation c = true ∧
    ∃ i, files[i]? = some e.node ∧ e' = ⟨⟨g.size + i⟩, 0⟩) ∨
  (¬ (g.Reached roots c ∧ g.isOperation c = true ∧ g.isSource e.node = true) ∧ e' = e)

/-- A graph before and after the pass. -/
structure SelectorPass (g : Graph) (roots : List NodeId) (r : Readers) (order : List NodeId)
    (g' : Graph) : Prop where
  before : g.WellFormed
  surveys : Surveys g roots r order
  graph : Rerouted g (selectorDetours g r) g'
  wellFormed : g'.WellFormed

/-- From a graph that was walked, the pass leads to a graph with the selectors. -/
theorem exists_selectorPass (hwf : g.WellFormed) (hs : Surveys g roots r order)
    (hr : Readers.build g roots = .ok r) :
    ∃ g', insertSelectors g roots = .ok (g', (selectorFiles g r).length) ∧
      SelectorPass g roots r order g' := by
  obtain ⟨g', heq, hgraph⟩ := rerouted_insertSelectors hwf hs hr
  refine ⟨g', ?_, hwf, hs, hgraph, wellFormed_insertSelectors hwf heq⟩
  rw [heq, selectorDetours_eq, List.length_map]

namespace SelectorPass

variable {d : Detour}

/-- A detour is behind a media file that some reached operation reads. -/
theorem of_mem (h : SelectorPass g roots r order g') (hd : d ∈ selectorDetours g r) :
    ∃ key, d = selectorDetour g r key ∧ g.isSource key = true ∧
      ∃ c ∈ order, g.isOperation c = true ∧ g.Reads c key := by
  obtain ⟨key, hkey, rfl⟩ := List.mem_map.mp hd
  exact ⟨key, rfl, (mem_selectorFiles h.surveys).mp hkey⟩

theorem detour_lt (h : SelectorPass g roots r order g') :
    ∀ d ∈ selectorDetours g r, d.node.index < g.size := by
  intro d hd
  obtain ⟨key, rfl, _, c, _, _, hr⟩ := h.of_mem hd
  exact h.before.closed c key hr

theorem lt_of_mem (h : SelectorPass g roots r order g') {x : NodeId} (hx : x ∈ order) :
    x.index < g.size := by
  obtain ⟨n, hn⟩ := h.surveys.known x hx
  exact index_lt_of_node? hn

theorem root_lt (h : SelectorPass g roots r order g') {root : NodeId} (hroot : root ∈ roots) :
    root.index < g.size :=
  h.lt_of_mem ((h.surveys.mem_iff root).mpr (.root hroot))

theorem root_origin (h : SelectorPass g roots r order g') :
    ∀ root ∈ roots, Rerouted.origin g (selectorDetours g r) root ∈ roots := by
  intro root hroot
  rwa [Rerouted.origin_old _ (h.root_lt hroot)]

/-- Of the nodes that were there before, the same are reached. -/
theorem reached_old_iff (h : SelectorPass g roots r order g') {x : NodeId} (hx : x.index < g.size) :
    g'.Reached roots x ↔ g.Reached roots x :=
  h.graph.reached_old_iff h.before.closed h.detour_lt h.root_origin (fun _ hroot => .root hroot) hx

theorem known (h : SelectorPass g roots r order g') {x : NodeId} (hx : x.index < g.size) :
    ∃ n, g'.node? x = some n := by
  refine exists_node? ?_
  rw [h.graph.size]
  omega

theorem exists_build (h : SelectorPass g roots r order g') :
    ∃ r', Readers.build g' roots = .ok r' :=
  h.graph.exists_build h.before.closed h.detour_lt h.root_origin h.surveys h.wellFormed
    fun _ hroot => h.known (h.root_lt hroot)

theorem added (h : SelectorPass g roots r order g') {i : Nat} {f : NodeId}
    (hi : (selectorFiles g r)[i]? = some f) :
    g'.node? ⟨g.size + i⟩ = some ⟨.selector .first, [⟨f, 0⟩]⟩ :=
  h.graph.added i _ (getElem?_selectorDetours.mpr ⟨f, hi, rfl⟩)

/-- Slot by slot, what a node reads after the pass. -/
theorem slots (h : SelectorPass g roots r order g') {c : NodeId} (hc : c.index < g.size) :
    List.Forall₂ (ThroughSelector g roots (selectorFiles g r) c) (g.inputs c) (g'.inputs c) := by
  have hall : List.Forall₂ (fun e e' => e ∈ g.inputs c ∧ Moved g.size (selectorDetours g r) c e e')
      (g.inputs c) (g'.inputs c) :=
    (List.forall₂_and_left _ _).mpr ⟨fun _ he => he, h.graph.slots hc⟩
  refine (forall₂_imp_of_mem hall.flip ?_).flip
  rintro e' he' e ⟨he, ⟨i, d, hd, hnode, hports, hnew⟩ | ⟨hstay, rfl⟩⟩
  · obtain ⟨f, hi, rfl⟩ := getElem?_selectorDetours.mp hd
    obtain ⟨hin, hop, _⟩ := (selectorDetour_ports_ne_nil h.surveys).mp hports
    have hnode : f = e.node := hnode
    refine Or.inl ⟨(h.surveys.mem_iff c).mp hin, hop, i, hnode ▸ hi, ?_⟩
    -- all ports of a selector are its first
    have hmem : e' ∈ (g'.inputs c).filter (·.node = ⟨g.size + i⟩) :=
      List.mem_filter.mpr ⟨he', decide_eq_true hnew⟩
    rw [h.graph.ports i _ c hd hc, selectorDetour_ports, List.map_replicate] at hmem
    exact List.eq_of_mem_replicate hmem
  · refine Or.inr ⟨?_, rfl⟩
    rintro ⟨hreached, hop, hsource⟩
    -- otherwise the file has a selector, and the operation takes part in its detour
    have hin := (h.surveys.mem_iff c).mpr hreached
    have hread : g.Reads c e'.node := ⟨e', he, rfl⟩
    have hfile : e'.node ∈ selectorFiles g r :=
      (mem_selectorFiles h.surveys).mpr ⟨hsource, c, hin, hop, hread⟩
    exact (selectorDetour_ports_ne_nil h.surveys).mpr ⟨hin, hop, hread⟩
      (hstay _ (List.mem_map_of_mem hfile) rfl)

/-- The new nodes are no operations. -/
theorem lt_of_isOperation (h : SelectorPass g roots r order g') {x : NodeId}
    (hop : g'.isOperation x = true) : x.index < g.size := by
  by_contra hlt
  obtain ⟨n, hn, hnop⟩ := node?_of_isOperation hop
  obtain ⟨i, d, hd, rfl, rfl⟩ := h.graph.exists_detour hlt hn
  obtain ⟨key, rfl, _⟩ := h.of_mem (List.mem_of_getElem? hd)
  exact absurd hnop (by simp [selectorDetour, Kind.isOperation])

/-- **No reached operation reads a media file any more.** -/
theorem isSource_of_reads (h : SelectorPass g roots r order g') {c x : NodeId}
    (hc : g'.Reached roots c) (hop : g'.isOperation c = true) (hr : g'.Reads c x) :
    g'.isSource x = false := by
  have hlt := h.lt_of_isOperation hop
  rw [isOperation, h.graph.kind? hlt] at hop
  obtain ⟨e', he', rfl⟩ := hr
  obtain ⟨e, he, hmoved⟩ := forall₂_exists_left (h.slots hlt) he'
  -- moved slots read a selector, and a slot that reads a file would have been moved
  rcases hmoved with ⟨_, _, i, hi, rfl⟩ | ⟨hstay, rfl⟩
  · rw [isSource_of_node? (h.added hi)]
    rfl
  · rw [isSource, h.graph.kind? (h.before.closed c _ ⟨_, he, rfl⟩), ← isSource, Bool.eq_false_iff]
    exact fun hsource => hstay ⟨(h.reached_old_iff hlt).mp hc, hop, hsource⟩

theorem unread (h : SelectorPass g roots r order g') {root : NodeId} (hroot : root ∈ roots)
    (hunread : ∀ c, g.Reached roots c → ¬ g.Reads c root) {c : NodeId}
    (hc : g'.Reached roots c) : ¬ g'.Reads c root := by
  intro hr
  rcases h.graph.reads_origin h.before.closed hr with ⟨hlt, hread⟩ | ⟨i, d, hd, _, horigin⟩
  · rw [Rerouted.origin_old _ (h.root_lt hroot)] at hread
    exact hunread c ((h.reached_old_iff hlt).mp hc) hread
  · -- a selector was put behind a file that an operation reads, and nothing reads the root
    obtain ⟨key, rfl, _, user, huser, _, hread⟩ := h.of_mem (List.mem_of_getElem? hd)
    exact hunread user ((h.surveys.mem_iff user).mp huser) (horigin ▸ hread)

end SelectorPass

end Filtergraph
