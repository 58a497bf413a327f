import Filtergraph.Proofs.Labels

/-!
# Positions of the opened files

A command opens its media files in some order, and then names them by their positions. The
positions are given when the files are listed, and they are read when statements and mappings
are written. Here we say that all of this fits together, whatever positions the graph had
before: the file at position `i` has been given the position `i`, and whoever names a stream
`i:s` means the stream `s` of that file.

A statement names streams where its first operation reads selectors. So with each statement we
give the chain of operations that it is made of, and compare its labels with the slots of the
first one.
-/

namespace Filtergraph

open Filtergraph.Graph

/-- `a` is all that `b` reads. -/
def Graph.Feeds (g : Graph) (a b : NodeId) : Prop := ∃ e, g.inputs b = [e] ∧ e.node = a

theorem Graph.Feeds.reads {g : Graph} {a b : NodeId} (h : g.Feeds a b) : g.Reads b a := by
  obtain ⟨e, he, hnode⟩ := h
  exact ⟨e, by rw [he]; exact List.mem_singleton_self e, hnode⟩

namespace Program

/-- The label names the stream of the media file `x`, by the position at which it is opened. -/
def Names (p : Program) (l : Label) (x : NodeId) (stream : Stream) : Prop :=
  ∃ i, p.sources[i]? = some x ∧ l = .input i stream

/-- The label is right for the slot: it names a stream of a file just if the slot reads a
selector, and then it is the stream of that selector. -/
structure LabelsSlot (p : Program) (g : Graph) (e : Edge) (l : Label) : Prop where
  selector : ∀ stream source, g.node? e.node = some ⟨.selector stream, [source]⟩ →
    p.Names l source.node stream
  only : l.isInput = true → ∃ stream source, g.node? e.node = some ⟨.selector stream, [source]⟩

/-- The label is right for the mapping. -/
def LabelsMapping (p : Program) : Mapping → Label → Prop
  | .stream x stream, l => p.Names l x stream
  | .output _, l => l.isInput = false

/-- The statement is that of a chain of operations, each fed by the one before it, which ends
with `x`. It reads what the slots of the first one read. -/
structure Renders (p : Program) (g : Graph) (x : NodeId) (st : Statement) : Prop where
  chain : ∃ (ops : List NodeId) (c : NodeId), ops.head? = some c ∧ ops.getLast? = some x ∧
    (∀ y ∈ ops, g.isOperation y = true) ∧ ops.IsChain g.Feeds ∧
    st.stages = (ops.filterMap g.node?).filterMap Node.stage? ∧
    List.Forall₂ (p.LabelsSlot g) (g.inputs c) st.inputs
  /-- The labels that it defines are those of `x`. -/
  outputs : ∀ l ∈ st.outputs, l = .output x ∨ ∃ n, l = .port x n

/-- In the program of a compilation that led from `g` to `g'`, files and labels fit together. -/
structure Coherent (p : Program) (g : Graph) (roots : List NodeId) (ms : List Mapping)
    (g' : Graph) : Prop where
  /-- No file is opened twice. -/
  once : p.sources.Nodup
  /-- The files that are opened are those that the roots reach or a mapping names. -/
  mem_iff : ∀ x, x ∈ p.sources ↔
    g.isSource x = true ∧ (g.Reached roots x ∨ ∃ stream, .stream x stream ∈ ms)
  /-- The file at a position has been given that position, and is else as it was. -/
  positions : ∀ i x, p.sources[i]? = some x → ∃ f, g.source? x = some f ∧
    g'.source? x = some { f with index := some i }
  /-- The statements belong to different operations, and read what these read. -/
  statements : ∃ lasts : List NodeId, lasts.Nodup ∧
    List.Forall₂ (p.Renders g') lasts p.statements
  /-- The mappings send what they name. -/
  mappings : List.Forall₂ p.LabelsMapping ms p.targets

end Program

theorem Plan.feeds_of_above? {p : Plan} {t x : NodeId} (h : p.above? t = some x) :
    p.graph.Feeds x t := by
  obtain ⟨e, he, hnode, _⟩ := above?_eq_some.mp h
  exact ⟨e, he, hnode⟩

namespace Passage

variable {g : Graph} {ms : List Mapping} {roots : List NodeId} {s : Passage g ms roots}
  {heads : List NodeId} {p : Program}

/-- What is opened, told by the graph as it was given. -/
theorem mem_sources_iff_given (s : Passage g ms roots) (x : NodeId) : x ∈ s.sources ↔
    g.isSource x = true ∧ (g.Reached roots x ∨ ∃ stream, .stream x stream ∈ ms) := by
  simp only [s.mem_sources_iff, s.stream_mem_iff]
  by_cases hx : x.index < g.size
  · rw [s.mem_order_iff hx, isSource, s.kind?_old hx, isSource]
  · -- all files are nodes of the given graph
    refine iff_of_false (fun h => hx ?_) fun h => hx ?_
    · obtain ⟨f, hf⟩ := exists_source? h.1
      obtain ⟨es, hn⟩ := source?_eq_some.mp hf
      exact s.lt_of_kind? (kind?_of_node? hn) (by simp) (by simp)
    · obtain ⟨n, hn, _⟩ := node?_of_isSource h.1
      exact index_lt_of_node? hn

namespace Yields

theorem labelsSlot (h : s.Yields heads p) {head : NodeId} (hhead : head ∈ heads) {e : Edge}
    (he : e ∈ s.plan.slots head) {l : Label} (hl : s.plan.label e = .ok l) :
    p.LabelsSlot s.numbered e l := by
  -- the slot reads an operation or a selector, and the label tells which
  rcases h.slot_cases hhead he hl with ⟨hop, rfl⟩ | ⟨stream, source, i, hn, hi, rfl⟩
  · refine ⟨fun stream source hn => ?_, fun hinput => ?_⟩
    · rw [isOperation_of_node? hn] at hop
      exact absurd hop (by simp [Kind.isOperation])
    · rw [s.plan.isInput_opLabel] at hinput
      exact absurd hinput (by simp)
  · refine ⟨fun stream' source' hn' => ?_, fun _ => ⟨stream, source, hn⟩⟩
    rw [hn, Option.some.injEq, Node.mk.injEq, Kind.selector.injEq, List.singleton_inj] at hn'
    exact ⟨i, hn'.2 ▸ hi, by rw [hn'.1]⟩

/-- **The statement of a head.** -/
theorem renders (h : s.Yields heads p) {head : NodeId} (hhead : head ∈ heads) {st : Statement}
    (hst : s.plan.Writes head st) : p.Renders s.numbered head st := by
  have hmem : ∀ y ∈ (s.plan.chain head).reverse, s.numbered.isOperation y = true :=
    fun y hy => (s.ready.chain_mem ((h.schedules.mem_iff head).mp hhead)
      (List.mem_reverse.mp hy)).2
  refine ⟨⟨(s.plan.chain head).reverse, s.plan.tail head, ?_, ?_, hmem, ?_, hst.stages, ?_⟩, ?_⟩
  · rw [List.head?_reverse, s.plan.getLast?_chain]
  · rw [List.getLast?_reverse]
    rfl
  · -- a chain is climbed from its head, and written the other way round
    rw [List.isChain_reverse]
    have hchain : (s.plan.chain head).IsChain fun a b => s.plan.above? a = some b :=
      s.plan.isChain_climb _ head
    exact hchain.imp fun a b ha => Plan.feeds_of_above? (p := s.plan) ha
  · exact forall₂_imp_of_mem (Plan.labels_eq_ok.mp hst.inputs)
      fun e he l hl => h.labelsSlot hhead he hl
  · intro l hl
    rw [hst.outputs] at hl
    exact Plan.node_of_mem_outputLabels hl

/-- **The label of a mapping.** -/
theorem labelsMapping (h : s.Yields heads p) {m m' : Mapping} {l : Label}
    (hm' : m' ∈ s.outlets.mappings)
    (hmoved : MappingMoved s.selected.size (splitDetours s.selected s.r₁ ⟨s.ends, ms⟩) m m')
    (hl : m'.target s.numbered = .ok l) : p.LabelsMapping m l := by
  cases m with
  | stream x stream =>
    -- streams are mapped past all splits
    rcases hmoved with ⟨_, _, _, _, hreads, _⟩ | ⟨_, rfl⟩
    · exact absurd hreads (by simp [Mapping.reads])
    · exact h.target_stream hm' hl
  | output e =>
    obtain ⟨e', rfl⟩ : ∃ e', m' = .output e' := by
      rcases hmoved with ⟨_, _, _, _, _, hnew⟩ | ⟨_, hsame⟩
      · exact ⟨_, hnew⟩
      · exact ⟨e, hsame⟩
    have htarget := target_output (p := s.plan) (s.mapped_operation hm').2
    rw [← Except.ok.inj (htarget.symm.trans hl)]
    exact s.plan.isInput_opLabel e'

theorem coherent (h : s.Yields heads p) : p.Coherent g roots ms s.numbered where
  once := h.sources ▸ nodup_eraseDups _
  mem_iff := fun x => h.sources ▸ s.mem_sources_iff_given x
  positions := by
    intro i x hi
    rw [h.sources] at hi
    obtain ⟨f, hf, hnumbered⟩ := s.source?_numbered hi
    exact ⟨f, s.source?_old hf, hnumbered⟩
  statements := ⟨heads, h.schedules.once,
    forall₂_imp_of_mem h.schedules.written fun head hhead st hst => h.renders hhead hst⟩
  mappings := by
    have htargets : List.Forall₂ (fun m' l => m' ∈ s.outlets.mappings ∧
        m'.target s.numbered = .ok l) s.outlets.mappings p.targets :=
      forall₂_imp_of_mem h.targets fun m' hm' l hl => ⟨hm', hl⟩
    refine forall₂_trans (fun m m' l hmoved hl => ?_) s.splits.outlets.mappings htargets
    exact h.labelsMapping hl.1 hmoved hl.2

end Yields

end Passage

/-- **Positions are coherent.** The command opens the files of the program, each as the graph has
it, with a group of words that ends with its path. The file at position `i` is the one that was
given this position, and `i:s` names its stream `s`, in statements and in mappings. -/
theorem positions_coherent {g g' : Graph} {job : Job} {roots : List NodeId} {cmd : Command}
    (hg : Reachable g) (h : job.compile roots g = .ok cmd g') :
    ∃ (p : Program) (files : List Source), job.program roots g = .ok p g' ∧
      List.Forall₂ (fun x f => g.source? x = some f) p.sources files ∧
      cmd.args = files.flatMap Source.flags ++ filterArgs p.statements ++ mappingArgs p.targets
        ++ job.options ++ [job.destination] ∧
      (∀ f ∈ files, ["-i", f.path] <:+ f.flags) ∧
      p.Coherent g roots job.mappings g' ∧ Function.Injective Label.text := by
  obtain ⟨p, hp, hargs⟩ := exists_program h
  obtain ⟨s, heads, rfl, hs⟩ := exists_yields hg.wellFormed hp
  obtain ⟨files, hfiles, hopened⟩ := s.exists_files
  refine ⟨p, files, hp, hs.sources ▸ hfiles, ?_, fun f _ => ?_, hs.coherent, Label.text_injective⟩
  · rw [hargs, Program.args, hs.sources, hopened]
  · exact List.suffix_append _ _

/-- Two media files, of which the second was opened alone by an earlier compilation. -/
def secondOpened : Graph :=
  Change.after (Job.compile { destination := "out.mp4" } [⟨3⟩]) (afterCalls
    [.addSource { path := "a.mp4" }, .addSource { path := "b.mp4" },
      .addFilter (.curves "vintage") [⟨0⟩], .addFilter (.rotate "0.5") [⟨1⟩]])

/-- The second file loses the position that it had. -/
theorem positions_coherent_renumbered :
    ∃ cmd g', Job.compile { destination := "out.mp4", mappings := [.stream ⟨1⟩ .audio] }
        [⟨2⟩, ⟨3⟩] secondOpened = .ok cmd g' ∧
      (secondOpened.source? ⟨1⟩).bind Source.index = some 0 ∧
      (g'.source? ⟨1⟩).bind Source.index = some 1 ∧
      ∃ (p : Program) (files : List Source),
        Job.program { destination := "out.mp4", mappings := [.stream ⟨1⟩ .audio] } [⟨2⟩, ⟨3⟩]
          secondOpened = .ok p g' ∧
        List.Forall₂ (fun x f => secondOpened.source? x = some f) p.sources files ∧
        cmd.args = files.flatMap Source.flags ++ filterArgs p.statements
          ++ mappingArgs p.targets ++ [] ++ ["out.mp4"] ∧
        (∀ f ∈ files, ["-i", f.path] <:+ f.flags) ∧
        p.Coherent secondOpened [⟨2⟩, ⟨3⟩] [.stream ⟨1⟩ .audio] g' ∧
        Function.Injective Label.text := by
  obtain ⟨cmd, g', h, hposition⟩ := Change.exists_of_yields (x := Job.compile
    { destination := "out.mp4", mappings := [.stream ⟨1⟩ .audio] } [⟨2⟩, ⟨3⟩])
    (s := secondOpened) (q := fun _ g' => (g'.source? ⟨1⟩).bind Source.index = some 1)
    (by decide +kernel)
  have hreachable : Reachable secondOpened := .compile (built_afterCalls _).reachable _ _
  exact ⟨cmd, g', h, by decide +kernel, of_decide_eq_true hposition,
    positions_coherent hreachable h⟩

end Filtergraph
