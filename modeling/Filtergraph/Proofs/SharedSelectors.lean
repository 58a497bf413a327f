import Filtergraph.Proofs.Exactness
import Filtergraph.Proofs.Recompilation

/-!
# One selector for each media file

Selectors are added from a record of the readers that is taken once, before anything
changes, and the slots of an operation are moved one by one, each time the first that still
reads the file. We say what comes of it: every media file that some reached operation reads
gets one selector, all such slots read it, and no other slot of any node is touched.

The pass leaves nothing for itself to do. A second run finds no operation that reads a
media file, and adds nothing.
-/

namespace Filtergraph

open Filtergraph.Graph

/-- `g'` is `g` with one selector for each of the listed files, in their order behind the
nodes of `g`, through which the reached operations read the files. -/
structure SelectorsAdded (g : Graph) (roots files : List NodeId) (g' : Graph) : Prop where
  nodup : files.Nodup
  /-- The files are those that some reached operation reads. -/
  mem_iff : ∀ f, f ∈ files ↔
    g.isSource f = true ∧ ∃ c, g.Reached roots c ∧ g.isOperation c = true ∧ g.Reads c f
  size : g'.size = g.size + files.length
  added : ∀ i f, files[i]? = some f →
    g'.node? ⟨g.size + i⟩ = some ⟨.selector .first, [⟨f, 0⟩]⟩
  kept : ∀ c n, g.node? c = some n → ∃ es, g'.node? c = some ⟨n.kind, es⟩ ∧
    List.Forall₂ (ThroughSelector g roots files c) n.inputs es
  /-- No reached operation reads a media file any more. -/
  unread : ∀ c x, g'.Reached roots c → g'.isOperation c = true → g'.Reads c x →
    g'.isSource x = false

namespace SelectorPass

variable {g g' : Graph} {roots order : List NodeId} {r : Readers}

theorem selectorsAdded (h : SelectorPass g roots r order g') :
    SelectorsAdded g roots (selectorFiles g r) g' where
  nodup := (nodup_eraseDups _).filter _
  mem_iff := by
    intro f
    rw [mem_selectorFiles h.surveys]
    refine and_congr_right fun _ => exists_congr fun c => ?_
    rw [h.surveys.mem_iff c]
  size := by
    rw [h.graph.size, selectorDetours_eq, List.length_map]
  added _ _ hi := h.added hi
  kept := by
    intro c n hn
    obtain ⟨es, hes, _⟩ := h.graph.kept c n hn
    have hall := h.slots (index_lt_of_node? hn)
    rw [inputs_of_node? hn, inputs_of_node? hes] at hall
    exact ⟨es, hes, hall⟩
  unread _ _ hc hop hr := h.isSource_of_reads hc hop hr

/-- **A second run adds nothing.** -/
theorem insertSelectors_again (h : SelectorPass g roots r order g') :
    insertSelectors g' roots = .ok (g', 0) := by
  obtain ⟨r', hr'⟩ := h.exists_build
  obtain ⟨order', hs'⟩ := Readers.surveys_of_build hr'
  -- operations read selectors now, so no file has such a reader
  refine insertSelectors_eq_self h.wellFormed hs' hr' ?_
  intro c hc hop x hr
  exact h.isSource_of_reads ((hs'.mem_iff c).mp hc) hop hr

end SelectorPass

/-- **Selectors are shared, and complete.** From roots that exist and reach no cycle, one
selector is added for each media file that a reached operation reads, all slots of reached
operations that read the file read this selector, and nothing else changes. The count is
that of the selectors, and a second run adds none. A root that does not exist is an error. -/
theorem selectors_shared {g : Graph} (hg : Reachable g) {roots : List NodeId}
    (hacyclic : ∀ x, g.Reached roots x → ¬ g.OnCycle x) :
    ((∀ root ∈ roots, ∃ n, g.node? root = some n) →
      ∃ g' files, insertSelectors g roots = .ok (g', files.length) ∧
        SelectorsAdded g roots files g' ∧ insertSelectors g' roots = .ok (g', 0)) ∧
    ((∃ root ∈ roots, g.node? root = none) →
      ∃ root ∈ roots, g.node? root = none ∧
        insertSelectors g roots = .error (.nodeNotFound root)) := by
  have hclosed : ∀ c x, g.Reads c x → ∃ n, g.node? x = some n :=
    fun _ _ hr => hg.wellFormed.node?_of_reads hr
  constructor
  · intro hroots
    obtain ⟨r, hr⟩ := (Readers.exists_build_iff hclosed).mpr ⟨hroots, hacyclic⟩
    obtain ⟨order, hs⟩ := Readers.surveys_of_build hr
    obtain ⟨g', hins, hpass⟩ := exists_selectorPass hg.wellFormed hs hr
    exact ⟨g', _, hins, hpass.selectorsAdded, hpass.insertSelectors_again⟩
  · rintro ⟨root, hroot, hnone⟩
    cases hbuild : Readers.build g roots with
    | ok r =>
      obtain ⟨n, hn⟩ := ((Readers.exists_build_iff hclosed).mp ⟨r, hbuild⟩).1 root hroot
      rw [hnone] at hn
      exact absurd hn (by simp)
    | error e =>
      -- the walk stops at a missing root, since no cycle is reached
      rcases Readers.build_error_cases hclosed hbuild
        with ⟨x, hx, hmissing, rfl⟩ | ⟨x, hx, hcycle, _⟩
      · refine ⟨x, hx, hmissing, ?_⟩
        rw [insertSelectors, hbuild]
        rfl
      · exact absurd hcycle (hacyclic x hx)

/-- The media file is read by the filter, and by two slots of the merge. -/
theorem selectors_shared_tangled : Reachable tangled ∧
    (∀ x, tangled.Reached [⟨3⟩] x → ¬ tangled.OnCycle x) ∧
    ∃ g' files, insertSelectors tangled [⟨3⟩] = .ok (g', files.length) ∧
      SelectorsAdded tangled [⟨3⟩] files g' ∧ insertSelectors g' [⟨3⟩] = .ok (g', 0) := by
  have hg : Reachable tangled := built_tangled.reachable
  have hclosed : ∀ c x, tangled.Reads c x → ∃ n, tangled.node? x = some n :=
    fun _ _ hr => hg.wellFormed.node?_of_reads hr
  have hbuild : Readers.build tangled [⟨3⟩] = .ok ⟨[⟨⟨0⟩, ⟨3⟩⟩, ⟨⟨2⟩, ⟨3⟩⟩, ⟨⟨0⟩, ⟨2⟩⟩, ⟨⟨0⟩, ⟨3⟩⟩,
      ⟨⟨1⟩, ⟨3⟩⟩, ⟨⟨0⟩, ⟨1⟩⟩]⟩ := by decide +kernel
  obtain ⟨hroots, hacyclic⟩ := (Readers.exists_build_iff hclosed).mp ⟨_, hbuild⟩
  exact ⟨hg, hacyclic, (selectors_shared hg hacyclic).1 hroots⟩

end Filtergraph
