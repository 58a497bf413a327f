import Filtergraph.Proofs.Compiled
import Filtergraph.Proofs.History

/-!
# Labels

Two labels of a filter graph are written alike only if they are the same, and none is
written like a stream of a file. In the program of a compilation every label is defined
once, before it is read, and is read once.

What reads labels are edges: the slots of upper ends of chains, and the mappings. Sorted by
the node that they read, they are just the labels that the statement of this node defines.
-/

namespace Filtergraph

open Filtergraph.Graph

/-- Whether the label names a stream of a file. -/
def Label.isInput : Label → Bool
  | .input _ _ => true
  | _ => false

namespace Program

/-- The labels that the statements define. -/
def defines (p : Program) : List Label := p.statements.flatMap Statement.outputs

/-- The labels of the filter graph that statements and mappings read. -/
def reads (p : Program) : List Label :=
  (p.statements.flatMap Statement.inputs ++ p.targets).filter fun l => !l.isInput

end Program

/-! ## Texts -/

theorem digit_of_mem_digitsOf {n : Nat} {c : Char} (h : c ∈ digitsOf n) : c.isDigit = true :=
  Nat.isDigit_of_mem_toDigits (by decide) (by decide) h

/-- Numbers can be told apart by their digits. -/
theorem digitsOf_injective {n m : Nat} (h : digitsOf n = digitsOf m) : n = m := by
  unfold digitsOf at h
  rw [← Nat.ofDigitChars_toDigits (b := 10) (n := n) (by decide) (by decide), h,
    Nat.ofDigitChars_toDigits (by decide) (by decide)]

theorem underscore_not_mem (n : Nat) : '_' ∉ digitsOf n :=
  fun h => absurd (digit_of_mem_digitsOf h) (by decide)

theorem toList_natText (n : Nat) : (natText n).toList = digitsOf n := by
  unfold natText
  exact String.toList_ofList

theorem toList_output (x : NodeId) :
    (Label.output x).text.toList = 'v' :: digitsOf x.index := by
  rw [Label.text, String.toList_append, toList_natText]
  rfl

theorem toList_port (x : NodeId) (n : Nat) :
    (Label.port x n).text.toList = 'v' :: (digitsOf x.index ++ '_' :: digitsOf n) := by
  rw [Label.text, String.toList_append, String.toList_append, String.toList_append,
    toList_natText, toList_natText]
  simp

theorem toList_input (position : Nat) (stream : Stream) :
    (Label.input position stream).text.toList
      = digitsOf position ++ ':' :: stream.text.toList := by
  rw [Label.text, String.toList_append, String.toList_append, toList_natText]
  simp

/-- A stream of a file is written with a digit in front. -/
theorem toList_input_ne (position : Nat) (stream : Stream) (cs : List Char) :
    (Label.input position stream).text.toList ≠ 'v' :: cs := by
  rw [toList_input]
  cases hd : digitsOf position with
  | nil => exact absurd hd Nat.toDigits_ne_nil
  | cons c digits =>
    rw [List.cons_append, ne_eq, List.cons.injEq]
    rintro ⟨rfl, _⟩
    have hdigit := digit_of_mem_digitsOf (n := position) (c := 'v') (by rw [hd]; simp)
    exact absurd hdigit (by decide)

/-- **Labels of a filter graph can be told apart by their texts.** -/
theorem eq_of_text_eq {l l' : Label} (hl : l.isInput = false) (h : l.text = l'.text) :
    l = l' := by
  have hlist : l.text.toList = l'.text.toList := by rw [h]
  cases l with
  | input position stream => exact absurd hl (by simp [Label.isInput])
  | output x =>
    rw [toList_output] at hlist
    cases l' with
    | input position stream => exact absurd hlist.symm (toList_input_ne _ _ _)
    | output y =>
      rw [toList_output, List.cons.injEq] at hlist
      obtain ⟨i⟩ := x
      obtain ⟨j⟩ := y
      have hindex : i = j := digitsOf_injective hlist.2
      rw [hindex]
    | port y m =>
      rw [toList_port, List.cons.injEq] at hlist
      -- only a port has the underscore
      exact absurd (by rw [hlist.2]; simp) (underscore_not_mem x.index)
  | port x n =>
    rw [toList_port] at hlist
    cases l' with
    | input position stream => exact absurd hlist.symm (toList_input_ne _ _ _)
    | output y =>
      rw [toList_output, List.cons.injEq] at hlist
      exact absurd (by rw [← hlist.2]; simp) (underscore_not_mem y.index)
    | port y m =>
      -- the first underscore ends the number of the node
      rw [toList_port, List.cons.injEq, List.append_cons_inj_of_notMem
        (underscore_not_mem _) (underscore_not_mem _)] at hlist
      obtain ⟨i⟩ := x
      obtain ⟨j⟩ := y
      have hindex : i = j := digitsOf_injective hlist.2.1
      rw [hindex, digitsOf_injective hlist.2.2.2]

theorem Stream.text_injective : Function.Injective Stream.text := by
  -- a number has digits only
  have hletter : ∀ (n : UInt32) (c : Char), c.isDigit = false →
      natText n.toNat ≠ String.ofList [c] := by
    intro n c hc h
    have hdigit := digit_of_mem_digitsOf (n := n.toNat) (c := c) (by
      rw [← toList_natText, h, String.toList_ofList]
      exact List.mem_cons_self)
    rw [hc] at hdigit
    exact absurd hdigit (by simp)
  intro s t h
  cases s with
  | number n =>
    cases t with
    | number m =>
      have hlist : (natText n.toNat).toList = (natText m.toNat).toList := congrArg String.toList h
      rw [toList_natText, toList_natText] at hlist
      rw [UInt32.toNat_inj.mp (digitsOf_injective hlist)]
    | audio => exact absurd h (hletter n 'a' (by decide))
    | video => exact absurd h (hletter n 'v' (by decide))
  | audio =>
    cases t with
    | number m => exact absurd h.symm (hletter m 'a' (by decide))
    | audio => rfl
    | video => exact absurd h (by decide)
  | video =>
    cases t with
    | number m => exact absurd h.symm (hletter m 'v' (by decide))
    | audio => exact absurd h (by decide)
    | video => rfl

theorem colon_not_mem (n : Nat) : ':' ∉ digitsOf n :=
  fun h => absurd (digit_of_mem_digitsOf h) (by decide)

theorem Stream.colon_not_mem_text (stream : Stream) : ':' ∉ stream.text.toList := by
  cases stream with
  | number n =>
    rw [Stream.text, toList_natText]
    exact colon_not_mem n.toNat
  | audio => decide
  | video => decide

/-- **Any two labels can be told apart by their texts.** -/
theorem Label.text_injective : Function.Injective Label.text := by
  intro l l' h
  cases l with
  | output x => exact eq_of_text_eq rfl h
  | port x n => exact eq_of_text_eq rfl h
  | input position stream =>
    cases l' with
    | output x => exact (eq_of_text_eq rfl h.symm).symm
    | port x n => exact (eq_of_text_eq rfl h.symm).symm
    | input position' stream' =>
      have hlist := congrArg String.toList h
      -- the only colon ends the position
      rw [toList_input, toList_input, List.append_cons_inj_of_notMem (colon_not_mem position)
        stream.colon_not_mem_text] at hlist
      rw [digitsOf_injective hlist.1, Stream.text_injective (String.toList_injective hlist.2.2)]

/-! ## The edges that read labels -/

/-- What a mapping reads of the graph. -/
def Mapping.edge? : Mapping → Option Edge
  | .stream _ _ => none
  | .output e => some e

namespace Plan

/-- The edges to operations that statements read. -/
def slotEdges (p : Plan) (heads : List NodeId) : List Edge :=
  (heads.flatMap p.slots).filter fun e => p.graph.isOperation e.node

/-- All edges that read a label of the filter graph. -/
def edges (p : Plan) (heads : List NodeId) : List Edge :=
  p.slotEdges heads ++ p.mappings.filterMap Mapping.edge?

variable {p : Plan} {roots order heads : List NodeId} {x : NodeId} {statements : List Statement}

theorem map_port_edges (p : Plan) (x : NodeId) :
    ((p.mappings.filterMap Mapping.edge?).filter (·.node = x)).map Edge.port
      = p.mappings.filterMap (Mapping.portOf? x) := by
  rw [List.filter_filterMap, List.map_filterMap]
  refine List.filterMap_congr fun m _ => ?_
  cases m with
  | stream s t => rfl
  | output e =>
    by_cases he : e.node = x
    · simp [Mapping.edge?, Mapping.portOf?, he]
    · simp [Mapping.edge?, Mapping.portOf?, he]

theorem length_portOf? (ms : List Mapping) (x : NodeId) :
    (ms.filterMap (Mapping.portOf? x)).length = ms.countP (·.reads x) := by
  rw [List.length_filterMap_eq_countP]
  refine List.countP_congr fun m _ => ?_
  cases m with
  | stream s t => simp [Mapping.portOf?, Mapping.reads]
  | output e =>
    by_cases he : e.node = x
    · simp [Mapping.portOf?, Mapping.reads, he]
    · simp [Mapping.portOf?, Mapping.reads, he]

/-- The ports of a head that are read, by slots of operations that were walked and by mappings. -/
theorem perm_ports_edges (h : Ready p roots order) (hs : p.Schedules order heads statements)
    (hx : p.IsHead order x) : (((p.edges heads).filter (·.node = x)).map Edge.port).Perm
      ((p.graph.slotsReading order x).map Edge.port
        ++ p.mappings.filterMap (Mapping.portOf? x)) := by
  have hslots : (p.slotEdges heads).filter (·.node = x)
      = (heads.flatMap p.slots).filter (·.node = x) := by
    rw [slotEdges, List.filter_filter]
    refine List.filter_congr fun e _ => ?_
    by_cases he : e.node = x
    · simp [he, hx.2.1]
    · simp [he]
  rw [edges, List.filter_append, List.map_append, map_port_edges, hslots]
  exact ((perm_slots h hs.once hs.mem_iff hx).map Edge.port).append_right _

section Single

variable (hk : ∀ fanOut, p.graph.kind? x ≠ some (.split fanOut))
include hk

theorem opLabel_of_not_split {e : Edge} (he : e.node = x) : p.opLabel e = .output x := by
  unfold opLabel
  rw [he]
  split
  · exact absurd ‹_› (hk _)
  · rfl

theorem outputLabels_of_not_split :
    p.outputLabels x = if 0 < p.uses x then [.output x] else [] := by
  unfold outputLabels
  split
  · exact absurd ‹_› (hk _)
  · rfl

/-- All labels of a node with one output are alike, and there are as many as uses. -/
theorem labels_of_not_split (h : Ready p roots order) (hs : p.Schedules order heads statements)
    (hx : p.IsHead order x) : ((p.edges heads).filter (·.node = x)).map p.opLabel
      = List.replicate (p.uses x) (.output x) := by
  rw [List.eq_replicate_iff]
  constructor
  · have hlen := (perm_ports_edges h hs hx).length_eq
    rw [List.length_map, List.length_append, List.length_map, ← h.surveys.count_eq_length,
      length_portOf?] at hlen
    rw [List.length_map, hlen, uses]
  · intro l hl
    obtain ⟨e, he, rfl⟩ := List.mem_map.mp hl
    exact opLabel_of_not_split hk (of_decide_eq_true (List.mem_filter.mp he).2)

end Single

/-- **The labels of a head that are read are those that its statement defines.** -/
theorem perm_labels (h : Ready p roots order) (hs : p.Schedules order heads statements)
    (hx : p.IsHead order x)
    (hsplit : ∀ fanOut, p.graph.kind? x = some (.split fanOut) → p.ReadOnce order x fanOut)
    (honce : (p.graph.kind? x).any Kind.isSplittable = true → p.uses x ≤ 1) :
    (((p.edges heads).filter (·.node = x)).map p.opLabel).Perm (p.outputLabels x) := by
  -- a split has a label for each port, any other node has one or none
  by_cases hk : ∃ fanOut, p.graph.kind? x = some (.split fanOut)
  · obtain ⟨fanOut, hkind⟩ := hk
    have hlabels : ((p.edges heads).filter (·.node = x)).map p.opLabel
        = (((p.edges heads).filter (·.node = x)).map Edge.port).map (.port x) := by
      rw [List.map_map]
      refine List.map_congr_left fun e he => ?_
      have he : e.node = x := of_decide_eq_true (List.mem_filter.mp he).2
      rw [opLabel, he, hkind]
      rfl
    rw [hlabels, outputLabels, hkind]
    exact ((perm_ports_edges h hs hx).trans (hsplit fanOut hkind)).map _
  · have hk : ∀ fanOut, p.graph.kind? x ≠ some (.split fanOut) := fun fanOut he => hk ⟨fanOut, he⟩
    have huses : p.uses x ≤ 1 := by
      obtain ⟨⟨k, es⟩, hn, hop⟩ := node?_of_isOperation hx.2.1
      rw [kind?_of_node? hn] at hk honce
      refine honce ?_
      cases k with
      | split fanOut => exact absurd rfl (hk fanOut)
      | source s => exact absurd hop (by simp [Kind.isOperation])
      | _ => rfl
    rw [labels_of_not_split hk h hs hx, outputLabels_of_not_split hk]
    by_cases hpos : 0 < p.uses x
    · rw [if_pos hpos, show p.uses x = 1 by omega]
      exact List.Perm.refl _
    · rw [if_neg hpos, show p.uses x = 0 by omega]
      exact List.Perm.refl _

/-! ## What statements read and define -/

theorem isInput_opLabel (p : Plan) (e : Edge) : (p.opLabel e).isInput = false := by
  unfold opLabel
  split
  · rfl
  · rfl

/-- The node that a label belongs to can be read off from it. -/
theorem node_of_mem_outputLabels {l : Label} (h : l ∈ p.outputLabels x) :
    l = .output x ∨ ∃ n, l = .port x n := by
  unfold outputLabels at h
  split at h
  · obtain ⟨n, _, rfl⟩ := List.mem_map.mp h
    exact Or.inr ⟨n, rfl⟩
  · split at h
    · exact Or.inl (List.mem_singleton.mp h)
    · exact absurd h (by simp)

theorem isInput_of_mem_outputLabels {l : Label} (h : l ∈ p.outputLabels x) :
    l.isInput = false := by
  rcases node_of_mem_outputLabels h with rfl | ⟨n, rfl⟩
  · rfl
  · rfl

/-- An edge to an operation has the label of that output, any other one that of the stream
which its selector names. -/
theorem label_cases {e : Edge} {l : Label} (h : p.label e = .ok l) :
    (p.graph.isOperation e.node = true ∧ l = p.opLabel e) ∨
      (p.graph.isOperation e.node = false ∧ ∃ stream source rest position,
        p.graph.node? e.node = some ⟨.selector stream, source :: rest⟩ ∧
        (p.graph.source? source.node).bind Source.index = some position ∧
        l = .input position stream) := by
  by_cases hop : p.graph.isOperation e.node = true
  · rw [label_of_isOperation hop, Except.ok.injEq] at h
    exact Or.inl ⟨hop, h.symm⟩
  · rw [Bool.not_eq_true] at hop
    refine Or.inr ⟨hop, ?_⟩
    unfold label at h
    cases hn : p.graph.node? e.node with
    | none => rw [hn] at h; exact absurd h (by simp)
    | some n =>
      obtain ⟨k, es⟩ := n
      rw [isOperation_of_node? hn] at hop
      rw [hn] at h
      cases k with
      | selector stream =>
        cases es with
        | nil => exact absurd h (by simp)
        | cons source rest =>
          dsimp only at h
          cases hi : (p.graph.source? source.node).bind Source.index with
          | none => rw [hi] at h; exact absurd h (by simp)
          | some position =>
            rw [hi, Except.ok.injEq] at h
            exact ⟨stream, source, rest, position, rfl, hi, h.symm⟩
      | source s => exact absurd h (by simp)
      | _ => exact absurd hop (by simp [Kind.isOperation])

/-- Of the labels of slots, those of the filter graph belong to operations. -/
theorem filter_labels {es : List Edge} {ls : List Label}
    (h : List.Forall₂ (fun e l => p.label e = .ok l) es ls) :
    ls.filter (fun l => !l.isInput)
      = (es.filter fun e => p.graph.isOperation e.node).map p.opLabel := by
  induction h with
  | nil => rfl
  | cons hl _ ih =>
    -- an operation keeps its label, and a stream is sifted out
    rcases label_cases hl with ⟨hop, rfl⟩ | ⟨hop, _, _, _, _, _, _, rfl⟩
    · rw [List.filter_cons_of_pos (by simp [isInput_opLabel]),
        List.filter_cons_of_pos (by simpa using hop), List.map_cons, ih]
    · rw [List.filter_cons_of_neg (by simp [Label.isInput]),
        List.filter_cons_of_neg (by simp [hop]), ih]

/-- Statements define the labels of their heads. -/
theorem outputs_of_written (h : List.Forall₂ p.Writes heads statements) :
    statements.flatMap Statement.outputs = heads.flatMap p.outputLabels := by
  induction h with
  | nil => rfl
  | cons hw _ ih => rw [List.flatMap_cons, List.flatMap_cons, hw.outputs, ih]

/-- Statements read the labels of the operations at their upper ends. -/
theorem inputs_of_written (h : List.Forall₂ p.Writes heads statements) :
    (statements.flatMap Statement.inputs).filter (fun l => !l.isInput)
      = (p.slotEdges heads).map p.opLabel := by
  induction h with
  | nil => rfl
  | cons hw _ ih =>
    rw [slotEdges] at ih ⊢
    rw [List.flatMap_cons, List.flatMap_cons, List.filter_append, List.filter_append,
      List.map_append, ih, filter_labels (labels_eq_ok.mp hw.inputs)]

theorem nodup_outputLabels (p : Plan) (x : NodeId) : (p.outputLabels x).Nodup := by
  unfold outputLabels
  split
  · exact List.nodup_range.map fun i j hij => by injection hij
  · split
    · exact List.nodup_singleton _
    · exact List.nodup_nil

/-- No two nodes define the same label. -/
theorem eq_of_mem_outputLabels {y : NodeId} {l : Label} (hx : l ∈ p.outputLabels x)
    (hy : l ∈ p.outputLabels y) : x = y := by
  rcases node_of_mem_outputLabels hx with rfl | ⟨n, rfl⟩
  · rcases node_of_mem_outputLabels hy with he | ⟨m, he⟩
    · injection he
    · exact absurd he (by simp)
  · rcases node_of_mem_outputLabels hy with he | ⟨m, he⟩
    · exact absurd he (by simp)
    · injection he

theorem nodup_outputs (hnd : heads.Nodup) : (heads.flatMap p.outputLabels).Nodup :=
  List.nodup_flatMap.mpr ⟨fun x _ => p.nodup_outputLabels x,
    hnd.imp fun hne _ hx hy => hne (eq_of_mem_outputLabels hx hy)⟩

/-- The readers of a head stand behind it. -/
theorem ReadersBehind.exists_behind (h : p.ReadersBehind order heads) {j : Nat}
    (hj : heads[j]? = some x) {c : NodeId} (hc : c ∈ order) (hr : p.graph.Reads c x) :
    ∃ i head, j < i ∧ heads[i]? = some head ∧ c ∈ p.chain head := by
  induction heads generalizing j with
  | nil => exact absurd hj (by simp)
  | cons head rest ih =>
    cases j with
    | zero =>
      rw [List.getElem?_cons_zero, Option.some.injEq] at hj
      subst hj
      obtain ⟨head', hhead', hmem⟩ := h.1 c hc hr
      obtain ⟨i, hi⟩ := List.mem_iff_getElem?.mp hhead'
      exact ⟨i + 1, head', Nat.succ_pos i, hi, hmem⟩
    | succ j =>
      obtain ⟨i, head', hlt, hi, hmem⟩ := ih h.2 hj
      exact ⟨i + 1, head', Nat.succ_lt_succ hlt, hi, hmem⟩

/-- An operation that a statement reads has its own statement before that. -/
theorem Schedules.before (h : Ready p roots order) (hs : p.Schedules order heads statements)
    {i : Nat} {head : NodeId} (hi : heads[i]? = some head) {e : Edge} (he : e ∈ p.slots head)
    (hop : p.graph.isOperation e.node = true) : ∃ j < i, heads[j]? = some e.node := by
  have hhead := (hs.mem_iff head).mp (List.mem_of_getElem? hi)
  have hx := h.isHead_of_mem_slots hhead he hop
  obtain ⟨j, hj⟩ := List.mem_iff_getElem?.mp ((hs.mem_iff e.node).mpr hx)
  have htail := (h.chain_mem hhead (p.tail_mem_chain head)).1
  obtain ⟨i', head', hlt, hi', hmem⟩ := hs.behind.exists_behind hj htail ⟨e, he, rfl⟩
  -- the tail belongs to one chain only, so the head behind is the one that reads
  have hhead' := (hs.mem_iff head').mp (List.mem_of_getElem? hi')
  have hsame := h.chain_unique hhead hhead' (p.tail_mem_chain head) hmem
  rw [← hsame] at hi'
  have hii : i = i' :=
    (List.getElem?_inj (List.getElem?_eq_some_iff.mp hi).1 hs.once).mp (hi.trans hi'.symm)
  exact ⟨j, hii ▸ hlt, hj⟩

end Plan

/-! ## Targets of mappings -/

theorem mappingTargets_eq_mapM (g : Graph) (ms : List Mapping) :
    mappingTargets g ms = ms.mapM (Mapping.target g) := by
  induction ms with
  | nil => rfl
  | cons m ms ih => rw [mappingTargets, ih, List.mapM_cons]

theorem mappingTargets_eq_ok {g : Graph} {ms : List Mapping} {ls : List Label} :
    mappingTargets g ms = .ok ls ↔ List.Forall₂ (fun m l => m.target g = .ok l) ms ls := by
  rw [mappingTargets_eq_mapM, mapM_eq_ok]

/-- An operation that is mapped has the label that slots would read it by. -/
theorem target_output {p : Plan} {e : Edge} (h : p.graph.isOperation e.node = true) :
    (Mapping.output e).target p.graph = .ok (p.opLabel e) := by
  obtain ⟨⟨k, es⟩, hn, hop⟩ := node?_of_isOperation h
  unfold Mapping.target Plan.opLabel
  dsimp only
  rw [kind?_of_node? hn]
  cases k with
  | source s => exact absurd hop (by simp [Kind.isOperation])
  | selector s => exact absurd hop (by simp [Kind.isOperation])
  | filter f gate => rfl
  | split fanOut => rfl
  | merge => rfl

theorem isInput_target_stream {g : Graph} {x : NodeId} {stream : Stream} {l : Label}
    (h : (Mapping.stream x stream).target g = .ok l) : l.isInput = true := by
  unfold Mapping.target at h
  dsimp only at h
  split at h
  · rw [Except.ok.injEq] at h
    rw [← h]
    rfl
  · exact absurd h (by simp)

/-- Of the targets, those of the filter graph belong to mapped operations. -/
theorem filter_targets {p : Plan} {ms : List Mapping} {ls : List Label}
    (h : List.Forall₂ (fun m l => m.target p.graph = .ok l) ms ls)
    (hop : ∀ e, .output e ∈ ms → p.graph.isOperation e.node = true) :
    ls.filter (fun l => !l.isInput) = (ms.filterMap Mapping.edge?).map p.opLabel := by
  induction h with
  | nil => rfl
  | @cons m l ms ls hl _ ih =>
    have ih := ih fun e he => hop e (List.mem_cons_of_mem _ he)
    cases m with
    | stream x stream =>
      rw [List.filter_cons_of_neg (by simp [isInput_target_stream hl]), ih]
      rfl
    | output e =>
      rw [target_output (hop e List.mem_cons_self), Except.ok.injEq] at hl
      rw [← hl, List.filter_cons_of_pos (by simp [Plan.isInput_opLabel]), ih]
      rfl

/-! ## The program of a compilation -/

variable {g : Graph} {ms : List Mapping} {roots : List NodeId}

/-- A program that was written at the end of a passage, its statements being those of
`heads`. -/
structure Passage.Yields (s : Passage g ms roots) (heads : List NodeId) (p : Program) : Prop where
  sources : p.sources = s.sources
  schedules : s.plan.Schedules s.order heads p.statements
  readOnce : ∀ x ∈ heads, ∀ fanOut, s.numbered.kind? x = some (.split fanOut) →
    s.plan.ReadOnce s.order x fanOut
  targets : List.Forall₂ (fun m l => m.target s.numbered = .ok l) s.outlets.mappings p.targets

theorem exists_yields (hwf : g.WellFormed) {job : Job} {p : Program} {g' : Graph}
    (h : job.program roots g = .ok p g') :
    ∃ (s : Passage g job.mappings roots) (heads : List NodeId),
      g' = s.numbered ∧ s.Yields heads p := by
  obtain ⟨s, hg', hsources, hstatements, htargets⟩ := exists_passage_of_program hwf h
  obtain ⟨heads, statements, hs, hiff⟩ := Plan.exists_schedule s.ready
  obtain ⟨hsame, hports⟩ := (hiff _).mp hstatements
  exact ⟨s, heads, hg', hsources, hsame ▸ hs, hports, mappingTargets_eq_ok.mp htargets⟩

namespace Passage.Yields

variable {s : Passage g ms roots} {heads : List NodeId} {p : Program}

/-- A slot that is written reads an operation, or the stream of a selector, whose file is
opened at the position that the label names. -/
theorem slot_cases (h : s.Yields heads p) {head : NodeId} (hhead : head ∈ heads) {e : Edge}
    (he : e ∈ s.plan.slots head) {l : Label} (hl : s.plan.label e = .ok l) :
    (s.numbered.isOperation e.node = true ∧ l = s.plan.opLabel e) ∨
      ∃ stream source position,
        s.numbered.node? e.node = some ⟨.selector stream, [source]⟩ ∧
        p.sources[position]? = some source.node ∧ l = .input position stream := by
  rcases Plan.label_cases hl with hop | ⟨_, stream, source, rest, position, hn, hi, rfl⟩
  · exact Or.inl hop
  · obtain ⟨source', hsource', hfile⟩ := (s.ready.wellFormed _ _ hn).shape
    rw [List.cons.injEq] at hsource'
    obtain ⟨rfl, rfl⟩ := hsource'
    -- the file is read by the selector, so it is reached and opened
    have htail := (s.ready.chain_mem ((h.schedules.mem_iff head).mp hhead)
      (s.plan.tail_mem_chain head)).1
    have hselector := s.ready.surveys.settled.closed htail ⟨e, he, rfl⟩
    have horder : source.node ∈ s.order := s.ready.surveys.settled.closed hselector
      ⟨source, by rw [inputs_of_node? hn]; exact List.mem_cons_self, rfl⟩
    have hsources : source.node ∈ s.sources :=
      s.mem_sources_iff.mpr ⟨by rw [← s.same.isSource]; exact hfile, Or.inl horder⟩
    exact Or.inr ⟨stream, source, position, hn, h.sources ▸ s.position_eq hsources hi, rfl⟩

/-- A mapped stream is that of the file which is opened at the position that the label names. -/
theorem target_stream (h : s.Yields heads p) {x : NodeId} {stream : Stream} {l : Label}
    (hm : .stream x stream ∈ s.outlets.mappings)
    (hl : (Mapping.stream x stream).target s.numbered = .ok l) :
    ∃ position, p.sources[position]? = some x ∧ l = .input position stream := by
  cases hi : (s.numbered.source? x).bind Source.index with
  | none => exact absurd hl (by simp [Mapping.target, hi])
  | some position =>
    rw [Mapping.target, hi, Except.ok.injEq] at hl
    exact ⟨position, h.sources ▸ s.position_eq (s.mem_sources_of_mapping hm) hi, hl.symm⟩

theorem defines_eq (h : s.Yields heads p) : p.defines = heads.flatMap s.plan.outputLabels :=
  Plan.outputs_of_written h.schedules.written

theorem reads_eq (h : s.Yields heads p) :
    p.reads = (s.plan.edges heads).map s.plan.opLabel := by
  rw [Program.reads, List.filter_append, Plan.inputs_of_written h.schedules.written,
    filter_targets (p := s.plan) h.targets fun e he => (s.mapped_operation he).2, Plan.edges,
    List.map_append]
  rfl

/-- Whatever is read by a label starts a chain of its own. -/
theorem isHead_of_mem_edges (h : s.Yields heads p) {e : Edge} (he : e ∈ s.plan.edges heads) :
    s.plan.IsHead s.order e.node := by
  -- read by a slot, or by a mapping
  rcases List.mem_append.mp he with he | he
  · obtain ⟨hmem, hop⟩ := List.mem_filter.mp he
    obtain ⟨head, hhead, hslot⟩ := List.mem_flatMap.mp hmem
    exact s.ready.isHead_of_mem_slots ((h.schedules.mem_iff head).mp hhead) hslot hop
  · obtain ⟨m, hm, hedge⟩ := List.mem_filterMap.mp he
    cases m with
    | stream x stream => exact absurd hedge (by simp [Mapping.edge?])
    | output e' =>
      rw [Mapping.edge?, Option.some.injEq] at hedge
      subst hedge
      obtain ⟨hx, hop⟩ := s.mapped_operation hm
      refine ⟨hx, hop, fun hj => ?_⟩
      -- a mapping would be a second use of what joins a chain
      have hunused := (s.ready.joined_unused hj).2
      rw [List.countP_eq_zero] at hunused
      exact hunused _ hm (reads_output.mpr rfl)

theorem perm_labels (h : s.Yields heads p) {x : NodeId} (hx : x ∈ heads) :
    (((s.plan.edges heads).filter (·.node = x)).map s.plan.opLabel).Perm
      (s.plan.outputLabels x) := by
  have hhead := (h.schedules.mem_iff x).mp hx
  exact Plan.perm_labels s.ready h.schedules hhead (h.readOnce x hx) (s.uses_le_one hhead.1)

/-- The label that an edge reads is one of those that its node defines. -/
theorem opLabel_mem (h : s.Yields heads p) {e : Edge} (he : e ∈ s.plan.edges heads) :
    s.plan.opLabel e ∈ s.plan.outputLabels e.node := by
  have hx := (h.schedules.mem_iff e.node).mpr (h.isHead_of_mem_edges he)
  rw [← (h.perm_labels hx).mem_iff]
  exact List.mem_map_of_mem (List.mem_filter.mpr ⟨he, by simp⟩)

theorem mem_edges_of_slot {head : NodeId} (hhead : head ∈ heads) {e : Edge}
    (he : e ∈ s.plan.slots head) (hop : s.numbered.isOperation e.node = true) :
    e ∈ s.plan.edges heads :=
  List.mem_append_left _ (List.mem_filter.mpr ⟨List.mem_flatMap.mpr ⟨head, hhead, he⟩, hop⟩)

theorem mem_edges_of_mapping {e : Edge} (he : .output e ∈ s.outlets.mappings) :
    e ∈ s.plan.edges heads :=
  List.mem_append_right _ (List.mem_filterMap.mpr ⟨_, he, rfl⟩)

/-- **Every label is read as often as it is defined.** -/
theorem perm_reads (h : s.Yields heads p) : p.reads.Perm p.defines := by
  have hcover : ∀ e ∈ s.plan.edges heads, e.node ∈ heads :=
    fun e he => (h.schedules.mem_iff e.node).mpr (h.isHead_of_mem_edges he)
  -- sort the edges by the node that they read, and compare head by head
  have hsorted := (perm_flatMap_filter Edge.node _ h.schedules.once hcover).map s.plan.opLabel
  rw [List.map_flatMap] at hsorted
  rw [h.reads_eq, h.defines_eq]
  exact hsorted.symm.trans (List.Perm.flatMap_left _ fun x hx => h.perm_labels hx)

theorem nodup_defines (h : s.Yields heads p) : p.defines.Nodup := by
  rw [h.defines_eq]
  exact Plan.nodup_outputs h.schedules.once

theorem isInput_of_mem_defines (h : s.Yields heads p) {l : Label} (hl : l ∈ p.defines) :
    l.isInput = false := by
  rw [h.defines_eq] at hl
  obtain ⟨x, _, hx⟩ := List.mem_flatMap.mp hl
  exact Plan.isInput_of_mem_outputLabels hx

/-- **A label is defined before it is read.** -/
theorem defined_before (h : s.Yields heads p) {i : Nat} {st : Statement}
    (hi : p.statements[i]? = some st) {l : Label} (hl : l ∈ st.inputs)
    (hlabel : l.isInput = false) :
    ∃ (j : Nat) (st' : Statement), j < i ∧ p.statements[j]? = some st' ∧ l ∈ st'.outputs := by
  obtain ⟨head, hhead, hw⟩ := forall₂_getElem?_right h.schedules.written hi
  obtain ⟨e, he, hel⟩ := forall₂_exists_left (Plan.labels_eq_ok.mp hw.inputs) hl
  -- a label that is no stream is that of an operation
  rcases Plan.label_cases hel with ⟨hop, rfl⟩ | ⟨_, _, _, _, _, _, _, rfl⟩
  · obtain ⟨j, hlt, hj⟩ := h.schedules.before s.ready hhead he hop
    obtain ⟨st', hst', hw'⟩ := forall₂_getElem?_left h.schedules.written hj
    refine ⟨j, st', hlt, hst', ?_⟩
    rw [hw'.outputs]
    exact h.opLabel_mem (mem_edges_of_slot (List.mem_of_getElem? hhead) he hop)
  · exact absurd hlabel (by simp [Label.isInput])

end Passage.Yields

/-- Labels, told apart by their texts, are defined once, before they are read, and read once. -/
structure Program.Disciplined (p : Program) : Prop where
  distinct : (p.defines.map Label.text).Nodup
  /-- A statement reads labels of earlier statements. -/
  earlier : ∀ (i : Nat) (st : Statement), p.statements[i]? = some st →
    ∀ l ∈ st.inputs, l.isInput = false → ∃ (j : Nat) (st' : Statement),
      j < i ∧ p.statements[j]? = some st' ∧ l.text ∈ st'.outputs.map Label.text
  /-- Statements and mappings together read every label once. -/
  readOnce : (p.reads.map Label.text).Perm (p.defines.map Label.text)

/-- So the program of a passage is disciplined. -/
theorem Passage.Yields.disciplined {s : Passage g ms roots} {heads : List NodeId} {p : Program}
    (h : s.Yields heads p) : p.Disciplined where
  distinct := List.Nodup.map_on
    (fun _ hl _ _ heq => eq_of_text_eq (h.isInput_of_mem_defines hl) heq) h.nodup_defines
  earlier := by
    intro i st hi l hl hlabel
    obtain ⟨j, st', hlt, hj, hmem⟩ := h.defined_before hi hl hlabel
    exact ⟨j, st', hlt, hj, List.mem_map_of_mem hmem⟩
  readOnce := h.perm_reads.map Label.text

/-- **Label discipline.** Whatever was done with the graph before, a compilation that succeeds
writes out a program that defines every label once, before it is read, and reads it once. -/
theorem label_discipline {job : Job} {cmd : Command} {g' : Graph} (hg : Reachable g)
    (h : job.compile roots g = .ok cmd g') :
    ∃ p : Program, job.program roots g = .ok p g' ∧
      cmd.args = p.args g' ++ job.options ++ [job.destination] ∧ p.Disciplined := by
  obtain ⟨p, hp, hargs⟩ := exists_program h
  obtain ⟨s, heads, _, hs⟩ := exists_yields hg.wellFormed hp
  exact ⟨p, hp, hargs, hs.disciplined⟩

/-- The second of two compilations, in a graph that has splits from the first. -/
theorem label_discipline_again :
    ∃ cmd g', Job.compile { destination := "out.mp4" } [⟨3⟩]
        (Change.after (Job.compile { destination := "out.mp4" } [⟨3⟩]) interleaved) = .ok cmd g' ∧
      ∃ p : Program, Job.program { destination := "out.mp4" } [⟨3⟩]
          (Change.after (Job.compile { destination := "out.mp4" } [⟨3⟩]) interleaved) = .ok p g' ∧
        cmd.args = p.args g' ++ [] ++ ["out.mp4"] ∧ p.Disciplined := by
  obtain ⟨cmd, g', h⟩ := Change.exists_of_succeeds
    (x := Job.compile { destination := "out.mp4" } [⟨3⟩])
    (s := Change.after (Job.compile { destination := "out.mp4" } [⟨3⟩]) interleaved)
    (by decide +kernel)
  exact ⟨cmd, g', h, label_discipline (.compile built_interleaved.reachable _ _) h⟩

end Filtergraph
