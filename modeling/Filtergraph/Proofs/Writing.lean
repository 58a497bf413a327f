import Filtergraph.Proofs.Chains
import Filtergraph.Proofs.Splits

/-!
# How a graph is written

Statements are written from the roots upwards, each in front of the others. The invariant
of the writing speaks of the heads whose statements are there, in the order of the
statements. What was visited are the operations in their chains. An operation that was not
visited has been asked for, or is going to be, once for each slot that reads it from the
upper end of such a chain. So once it has been asked for by as many slots as read it, all
its readers are written, and they stand behind it.

The queue cannot run dry early: an operation all of whose readers are written has been
asked for often enough.
-/

namespace Filtergraph

open Filtergraph.Graph

/-! ## Labels -/

namespace Plan

variable {p : Plan} {e : Edge} {es : List Edge}

/-- The label of an output of an operation. -/
def opLabel (p : Plan) (e : Edge) : Label :=
  match p.graph.kind? e.node with
  | some (.split _) => .port e.node e.port
  | _ => .output e.node

theorem label_of_isOperation (h : p.graph.isOperation e.node = true) :
    p.label e = .ok (p.opLabel e) := by
  obtain ⟨⟨k, es⟩, hn, hop⟩ := node?_of_isOperation h
  unfold label opLabel
  rw [hn, kind?_of_node? hn]
  cases k with
  | source s => exact absurd hop (by simp [Kind.isOperation])
  | selector s => exact absurd hop (by simp [Kind.isOperation])
  | filter f gate => rfl
  | split fanOut => rfl
  | merge => rfl

theorem label_of_selector {stream : Stream} {source : Edge} {position : Nat}
    (hn : p.graph.node? e.node = some ⟨.selector stream, [source]⟩)
    (hi : (p.graph.source? source.node).bind Source.index = some position) :
    p.label e = .ok (.input position stream) := by
  unfold label
  rw [hn]
  dsimp only
  rw [hi]

theorem labels_eq_mapM (p : Plan) (es : List Edge) : p.labels es = es.mapM p.label := by
  induction es with
  | nil => rfl
  | cons e es ih =>
    rw [labels, ih, List.mapM_cons]

theorem labels_eq_ok {ls : List Label} :
    p.labels es = .ok ls ↔ List.Forall₂ (fun e l => p.label e = .ok l) es ls := by
  rw [labels_eq_mapM, mapM_eq_ok]

end Plan

/-- **Every slot of a listed operation has a label.** -/
theorem Ready.exists_label {p : Plan} {roots order : List NodeId} (h : Ready p roots order)
    {c : NodeId} (hc : c ∈ order) (hop : p.graph.isOperation c = true) {e : Edge}
    (he : e ∈ p.graph.inputs c) : ∃ l, p.label e = .ok l := by
  have hread : p.graph.Reads c e.node := ⟨e, he, rfl⟩
  by_cases heop : p.graph.isOperation e.node = true
  · exact ⟨_, Plan.label_of_isOperation heop⟩
  · -- what is read is a selector, and its media file has a position
    obtain ⟨⟨k, es⟩, hn⟩ := h.wellFormed.node?_of_reads hread
    have hsource := h.streams c hc hop _ hread
    rw [isOperation_of_node? hn] at heop
    rw [isSource_of_node? hn] at hsource
    cases k with
    | selector stream =>
      obtain ⟨source, hes, hfile⟩ := (h.wellFormed _ _ hn).shape
      have hes : es = [source] := hes
      subst hes
      have hnode := h.surveys.settled.closed hc hread
      have hsourceread : p.graph.Reads e.node source.node :=
        ⟨source, by rw [inputs_of_node? hn]; exact List.mem_singleton_self _, rfl⟩
      obtain ⟨position, hposition⟩ :=
        h.numbered _ (h.surveys.settled.closed hnode hsourceread) hfile
      exact ⟨_, Plan.label_of_selector hn hposition⟩
    | source s => exact absurd hsource (by simp [Kind.isSource])
    | filter f gate => exact absurd rfl heop
    | split fanOut => exact absurd rfl heop
    | merge => exact absurd rfl heop

/-! ## The invariant -/

namespace Plan

/-- The statement of a head. -/
structure Writes (p : Plan) (head : NodeId) (st : Statement) : Prop where
  inputs : p.labels (p.slots head) = .ok st.inputs
  stages : st.stages = ((p.chain head).reverse.filterMap p.graph.node?).filterMap Node.stage?
  outputs : st.outputs = p.outputLabels head

/-- All that reads a head belongs to the chains of heads behind it. -/
def ReadersBehind (p : Plan) (order : List NodeId) : List NodeId → Prop
  | [] => True
  | head :: rest =>
    (∀ c ∈ order, p.graph.Reads c head → ∃ head' ∈ rest, c ∈ p.chain head') ∧
      ReadersBehind p order rest

end Plan

namespace Progress

/-- The state of the writing when the statements of `heads` are there. -/
structure Sound (p : Plan) (roots order : List NodeId) (s : Progress) (heads : List NodeId) :
    Prop where
  queue : ∀ x ∈ s.queue, x ∈ order
  once : heads.Nodup
  isHead : ∀ head ∈ heads, p.IsHead order head
  visitedOnce : s.visited.Nodup
  visited : ∀ x ∈ s.visited, x ∈ order
  /-- The operations that were visited are those in the chains. -/
  visited_iff : ∀ x, p.graph.isOperation x = true →
    (x ∈ s.visited ↔ ∃ head ∈ heads, x ∈ p.chain head)
  written : List.Forall₂ p.Writes heads s.statements
  behind : p.ReadersBehind order heads
  /-- Each slot of an upper end asks once for what it reads, and so does a root. -/
  account : ∀ x, p.graph.isOperation x = true → x ∉ s.visited →
    s.asked.count x + s.queue.count x
      = roots.count x + (p.graph.slotsReading (heads.map p.tail) x).length
  /-- What was asked for and not visited is still waited for by some slot. -/
  waiting : ∀ x, x ∉ s.visited → s.asked.count x = 0 ∨ s.asked.count x < p.readers.count x
  portReads : s.portReads.Perm ((heads.flatMap p.slots).filter (isPortRead p.graph))
  splits : ∀ x fanOut, (x, fanOut) ∈ s.splits ↔
    x ∈ heads ∧ p.graph.kind? x = some (.split fanOut)

variable {p : Plan} {roots order : List NodeId} {s s' : Progress} {heads : List NodeId}
  {id x : NodeId} {rest : List NodeId}

theorem sound_start (hroots : ∀ root ∈ roots, root ∈ order) :
    Sound p roots order { queue := roots } [] where
  queue := hroots
  once := List.nodup_nil
  isHead := by simp
  visitedOnce := List.nodup_nil
  visited := by simp
  visited_iff := by simp
  written := .nil
  behind := trivial
  account := by simp [slotsReading]
  waiting := by simp
  portReads := by simp
  splits := by simp

/-! ## What one step can do -/

/-- A step drops a node that was visited, passes one that is no operation, counts that an
operation was asked for, or writes a statement. -/
theorem step_cases (hq : s.queue = id :: rest) {n : Node} (hn : p.graph.node? id = some n) :
    (id ∈ s.visited ∧ step p s = .ok { s with queue := rest }) ∨
    (id ∉ s.visited ∧ n.kind.isOperation = false ∧ step p s = .ok { s with
      visited := id :: s.visited
      queue := rest ++ n.inputs.map Edge.node }) ∨
    (id ∉ s.visited ∧ n.kind.isOperation = true ∧
      (id :: s.asked).count id < p.readers.count id ∧
      step p s = .ok { s with queue := rest, asked := id :: s.asked }) ∨
    (id ∉ s.visited ∧ n.kind.isOperation = true ∧
      p.readers.count id ≤ (id :: s.asked).count id ∧
      step p s = write p { s with queue := rest, asked := id :: s.asked } id) := by
  unfold step
  rw [hq]
  dsimp only
  by_cases hv : id ∈ s.visited
  · exact Or.inl ⟨hv, if_pos hv⟩
  · rw [if_neg hv, hn]
    dsimp only
    by_cases hop : n.kind.isOperation = true
    · rw [if_pos hop]
      by_cases hwait : (id :: s.asked).count id < p.readers.count id
      · exact Or.inr (Or.inr (Or.inl ⟨hv, hop, hwait, if_pos hwait⟩))
      · exact Or.inr (Or.inr (Or.inr ⟨hv, hop, Nat.not_lt.mp hwait, if_neg hwait⟩))
    · rw [if_neg hop]
      exact Or.inr (Or.inl ⟨hv, Bool.eq_false_iff.mpr hop, rfl⟩)

/-- Slots and visits that a state has used up, for the bound on the steps. -/
def passed (p : Plan) (s : Progress) : Nat :=
  (s.visited.map fun x => (p.graph.inputs x).length).sum

theorem count_map_node (es : List Edge) (x : NodeId) :
    (es.map Edge.node).count x = (es.filter (·.node = x)).length := by
  rw [List.count_eq_countP, List.countP_map, ← List.countP_eq_length_filter]
  exact List.countP_congr fun e _ => by simp

/-! ## Moves that write nothing -/

section Moves

variable (h : Ready p roots order) (hs : Sound p roots order s heads) (hq : s.queue = id :: rest)
include hs hq

theorem Sound.queue_rest : ∀ x ∈ rest, x ∈ order := fun x hx =>
  hs.queue x (by rw [hq]; exact List.mem_cons_of_mem _ hx)

theorem Sound.skip (hv : id ∈ s.visited) :
    Sound p roots order { s with queue := rest } heads := by
  refine { hs with queue := hs.queue_rest hq, account := fun x hop hx => ?_ }
  have hne : id ≠ x := fun he => hx (he ▸ hv)
  rw [← hs.account x hop hx, hq, List.count_cons_of_ne hne]

/-- An operation that waits for other readers is only counted. -/
theorem Sound.ask (hwait : (id :: s.asked).count id < p.readers.count id) :
    Sound p roots order { s with queue := rest, asked := id :: s.asked } heads := by
  refine { hs with
    queue := hs.queue_rest hq, account := fun x hop hx => ?_, waiting := fun x hx => ?_ }
  · have haccount := hs.account x hop hx
    rw [hq, List.count_cons] at haccount
    show (id :: s.asked).count x + rest.count x = _
    rw [List.count_cons]
    omega
  · by_cases hne : id = x
    · exact Or.inr (hne ▸ hwait)
    · rw [List.count_cons_of_ne hne]
      exact hs.waiting x hx

include h

/-- Passing a node that is no operation: what it reads is none either. -/
theorem Sound.pass {n : Node} (hn : p.graph.node? id = some n)
    (hop : n.kind.isOperation = false) (hv : id ∉ s.visited) :
    Sound p roots order { s with
      visited := id :: s.visited
      queue := rest ++ n.inputs.map Edge.node } heads := by
  have hid : id ∈ order := hs.queue id (by rw [hq]; exact List.mem_cons_self)
  -- a node that is no operation reads media files at most
  have hreads : ∀ x ∈ n.inputs.map Edge.node, x ∈ order ∧ p.graph.isOperation x = false := by
    intro x hx
    obtain ⟨e, he, rfl⟩ := List.mem_map.mp hx
    have hread : p.graph.Reads id e.node := ⟨e, by rwa [inputs_of_node? hn], rfl⟩
    refine ⟨h.surveys.settled.closed hid hread, ?_⟩
    by_contra hxop
    rw [Bool.not_eq_false] at hxop
    have hidop := h.wellFormed.isOperation_of_reads hread (isSource_eq_false_of_isOperation hxop)
    rw [isOperation_of_node? hn, hop] at hidop
    exact absurd hidop (by simp)
  have hnotop : ∀ x, p.graph.isOperation x = true → id ≠ x := by
    rintro x hx rfl
    rw [isOperation_of_node? hn, hop] at hx
    exact absurd hx (by simp)
  refine { hs with
    queue := ?_, visitedOnce := List.nodup_cons.mpr ⟨hv, hs.visitedOnce⟩
    visited := List.forall_mem_cons.mpr ⟨hid, hs.visited⟩
    visited_iff := ?_, account := ?_, waiting := ?_ }
  · intro x hx
    rcases List.mem_append.mp hx with hx | hx
    · exact hs.queue_rest hq x hx
    · exact (hreads x hx).1
  · intro x hxop
    rw [← hs.visited_iff x hxop, List.mem_cons]
    exact or_iff_right (Ne.symm (hnotop x hxop))
  · intro x hxop hx
    have hzero : (n.inputs.map Edge.node).count x = 0 := by
      rw [List.count_eq_zero]
      intro hmem
      rw [(hreads x hmem).2] at hxop
      exact absurd hxop (by simp)
    rw [← hs.account x hxop fun hmem => hx (List.mem_cons_of_mem _ hmem), hq,
      List.count_cons_of_ne (hnotop x hxop), List.count_append, hzero, Nat.add_zero]
  · exact fun x hx => hs.waiting x fun hmem => hx (List.mem_cons_of_mem _ hmem)

end Moves

/-! ## Writing a statement -/

section Write

variable (h : Ready p roots order) (hs : Sound p roots order s heads) (hq : s.queue = id :: rest)
  (hv : id ∉ s.visited) (hop : p.graph.isOperation id = true)
  (hcount : p.readers.count id ≤ (id :: s.asked).count id)
include h hs hq hv hop hcount

/-- An operation that was asked for often enough is read only by upper ends of chains that
are written. -/
theorem Sound.readers_written {c : NodeId} (hc : c ∈ order) (hr : p.graph.Reads c id) :
    c ∈ heads.map p.tail := by
  have haccount := hs.account id hop hv
  rw [hq, List.count_cons_self] at haccount
  rw [List.count_cons_self] at hcount
  -- what has a reader is no root, so all that asked for it are slots
  have hroots : roots.count id = 0 := by
    rw [List.count_eq_zero]
    intro hroot
    have hpos := h.surveys.count_pos_iff.mpr ⟨c, hc, hr⟩
    rw [h.unread id hroot] at hpos
    exact Nat.lt_irrefl _ hpos
  refine mem_of_length_le (h.nodup_tails hs.once hs.isHead) (h.tails_subset hs.isHead) ?_ hc hr
  rw [← h.surveys.count_eq_length]
  omega

/-- What was asked for often enough heads a chain of its own. -/
theorem Sound.isHead_of_asked : p.IsHead order id := by
  refine ⟨hs.queue id (by rw [hq]; exact List.mem_cons_self), hop, ?_⟩
  -- its reader is the upper end of a chain that is written, and there the chain ended
  rintro ⟨t, ht, ha⟩
  have hmem := hs.readers_written h hq hv hop hcount ht (Plan.reads_of_above? ha)
  obtain ⟨head, hhead, rfl⟩ := List.mem_map.mp hmem
  rw [h.above_tail (hs.isHead head hhead).1] at ha
  exact absurd ha (by simp)

/-- Nothing of its chain was visited. -/
theorem Sound.chain_unvisited {y : NodeId} (hy : y ∈ p.chain id) : y ∉ s.visited := by
  have hhead := hs.isHead_of_asked h hq hv hop hcount
  intro hvisited
  obtain ⟨head, hmem, hyhead⟩ := (hs.visited_iff y (h.chain_mem hhead hy).2).mp hvisited
  -- a visited node would put the whole chain, with its head, among the written ones
  have hsame := h.chain_unique hhead (hs.isHead head hmem) hy hyhead
  exact hv ((hs.visited_iff id hop).mpr ⟨id, hsame ▸ hmem, p.mem_chain_self id⟩)

/-- What writing a statement does, when the chain is free. -/
theorem Sound.write_eq : ∃ st, p.Writes id st ∧
    write p { s with queue := rest, asked := id :: s.asked } id = .ok {
      queue := rest ++ (p.slots id).map Edge.node
      asked := id :: s.asked
      visited := p.chain id ++ s.visited
      portReads := s.portReads ++ (p.slots id).filter (isPortRead p.graph)
      splits := s.splits ++ match p.graph.kind? id with
        | some (.split fanOut) => [(id, fanOut)]
        | _ => []
      statements := st :: s.statements } := by
  have hhead := hs.isHead_of_asked h hq hv hop hcount
  have hnd : (p.chain id).Nodup := h.nodup_climb hhead.1
  -- the climb leaves out what was visited, and nothing of this chain was
  have hchain : p.chainAbove p.graph.size (id :: s.visited) id = p.climb p.graph.size id := by
    refine Ready.chainAbove_eq_climb (List.nodup_cons.mp hnd).2 fun y hy hmem => ?_
    rcases List.mem_cons.mp hmem with rfl | hmem
    · exact (List.nodup_cons.mp hnd).1 hy
    · exact hs.chain_unvisited h hq hv hop hcount (List.mem_cons_of_mem _ hy) hmem
  obtain ⟨htail, htailop⟩ := h.chain_mem hhead (p.tail_mem_chain id)
  obtain ⟨ls, hls⟩ := exists_forall₂ fun e he => h.exists_label htail htailop (e := e) he
  have hls : p.labels (p.slots id) = .ok ls := Plan.labels_eq_ok.mpr hls
  refine ⟨⟨ls, _, _⟩, ⟨hls, rfl, rfl⟩, ?_⟩
  unfold write
  dsimp only
  rw [hchain]
  exact except_bind_eq_ok.mpr ⟨ls, hls, rfl⟩

/-- **Writing keeps the invariant**: the new head stands in front of its readers. -/
theorem Sound.write : ∃ s', write p { s with queue := rest, asked := id :: s.asked } id = .ok s' ∧
    Sound p roots order s' (id :: heads) ∧ s'.queue = rest ++ (p.slots id).map Edge.node ∧
    s'.visited = p.chain id ++ s.visited := by
  have hhead := hs.isHead_of_asked h hq hv hop hcount
  have hfree := fun y hy => hs.chain_unvisited h hq hv hop hcount (y := y) hy
  obtain ⟨htail, _⟩ := h.chain_mem hhead (p.tail_mem_chain id)
  obtain ⟨st, hst, heq⟩ := hs.write_eq h hq hv hop hcount
  refine ⟨_, heq, ?_, rfl, rfl⟩
  constructor
  case queue =>
    intro x hx
    rcases List.mem_append.mp hx with hx | hx
    · exact hs.queue_rest hq x hx
    · obtain ⟨e, he, rfl⟩ := List.mem_map.mp hx
      exact h.surveys.settled.closed htail ⟨e, he, rfl⟩
  case once =>
    refine List.nodup_cons.mpr ⟨fun hmem => ?_, hs.once⟩
    exact hv ((hs.visited_iff id hop).mpr ⟨id, hmem, p.mem_chain_self id⟩)
  case isHead => exact List.forall_mem_cons.mpr ⟨hhead, hs.isHead⟩
  case visitedOnce =>
    refine List.nodup_append.mpr ⟨h.nodup_climb hhead.1, hs.visitedOnce, ?_⟩
    rintro y hy _ hvisited rfl
    exact hfree y hy hvisited
  case visited =>
    intro y hy
    rcases List.mem_append.mp hy with hy | hy
    · exact (h.chain_mem hhead hy).1
    · exact hs.visited y hy
  case visited_iff =>
    intro y hyop
    rw [List.mem_append, hs.visited_iff y hyop]
    simp only [List.mem_cons, exists_eq_or_imp]
  case written => exact .cons hst hs.written
  case behind =>
    refine ⟨fun c hc hr => ?_, hs.behind⟩
    obtain ⟨head, hmem, rfl⟩ := List.mem_map.mp (hs.readers_written h hq hv hop hcount hc hr)
    exact ⟨head, hmem, p.tail_mem_chain head⟩
  -- the slots of the new upper end enter both sides of the account
  case account =>
    intro y hyop hy
    rw [List.mem_append, not_or] at hy
    have hne : id ≠ y := fun he => hy.1 (he ▸ p.mem_chain_self id)
    have haccount := hs.account y hyop hy.2
    rw [hq, List.count_cons_of_ne hne] at haccount
    rw [List.count_cons_of_ne hne, List.count_append, count_map_node, List.map_cons,
      slotsReading, List.flatMap_cons, List.length_append, ← slotsReading, Plan.slots]
    omega
  case waiting =>
    intro y hy
    rw [List.mem_append, not_or] at hy
    have hne : id ≠ y := fun he => hy.1 (he ▸ p.mem_chain_self id)
    rw [List.count_cons_of_ne hne]
    exact hs.waiting y hy.2
  case portReads =>
    rw [List.flatMap_cons, List.filter_append]
    exact (hs.portReads.append_right _).trans List.perm_append_comm
  case splits =>
    intro y fanOut
    have hown : (y, fanOut) ∈ (match p.graph.kind? id with
        | some (.split k) => [(id, k)]
        | _ => []) ↔ y = id ∧ p.graph.kind? y = some (.split fanOut) := by
      split
      · rename_i k hk
        rw [List.mem_singleton, Prod.mk.injEq]
        refine and_congr_right ?_
        rintro rfl
        rw [hk, Option.some.injEq, Kind.split.injEq, eq_comm]
      · rename_i hno
        refine ⟨fun hmem => absurd hmem (by simp), ?_⟩
        rintro ⟨rfl, hy⟩
        exact absurd hy (hno fanOut)
    rw [List.mem_append, hs.splits, List.mem_cons, hown, ← or_and_right, or_comm]

end Write

/-! ## The whole run -/

/-- **Every step succeeds and keeps the invariant**, and the queue grows by no more than the
slots of the nodes that it visits. -/
theorem Sound.step (h : Ready p roots order) (hs : Sound p roots order s heads)
    (hq : s.queue = id :: rest) : ∃ s' heads', step p s = .ok s' ∧
      Sound p roots order s' heads' ∧
      s'.queue.length + passed p s + 1 ≤ s.queue.length + passed p s' := by
  have hid : id ∈ order := hs.queue id (by rw [hq]; exact List.mem_cons_self)
  obtain ⟨n, hn⟩ := h.surveys.known id hid
  have hlen : s.queue.length = rest.length + 1 := by rw [hq, List.length_cons]
  rcases step_cases hq hn with ⟨hv, heq⟩ | ⟨hv, hop, heq⟩ | ⟨hv, _, hwait, heq⟩ |
    ⟨hv, hop, hcount, heq⟩
  · refine ⟨_, heads, heq, hs.skip hq hv, ?_⟩
    show rest.length + passed p s + 1 ≤ s.queue.length + passed p s
    omega
  · refine ⟨_, heads, heq, hs.pass h hq hn hop hv, ?_⟩
    simp only [passed, List.map_cons, List.sum_cons, List.length_append, List.length_map,
      inputs_of_node? hn]
    omega
  · refine ⟨_, heads, heq, hs.ask hq hwait, ?_⟩
    show rest.length + passed p s + 1 ≤ s.queue.length + passed p s
    omega
  · rw [← isOperation_of_node? hn] at hop
    obtain ⟨s', hwrite, hs', hqueue, hvisited⟩ := hs.write h hq hv hop hcount
    refine ⟨s', id :: heads, heq.trans hwrite, hs', ?_⟩
    -- the slots that enter the queue are those of one node of the chain
    have hslots : (p.slots id).length ≤ ((p.chain id).map fun x => (p.graph.inputs x).length).sum :=
      List.le_sum_of_mem (List.mem_map.mpr ⟨p.tail id, p.tail_mem_chain id, rfl⟩)
    rw [passed, passed, hqueue, hvisited, List.map_append, List.sum_append, List.length_append,
      List.length_map]
    omega

/-- **The run empties the queue.** The fuel covers the queue and the slots not yet passed. -/
theorem Sound.run (h : Ready p roots order) (fuel : Nat) (hs : Sound p roots order s heads)
    (hfuel : s.queue.length + (p.graph.nodes.toList.map fun n => n.inputs.length).sum
      ≤ fuel + passed p s) :
    ∃ s' heads', run p fuel s = .ok s' ∧ Sound p roots order s' heads' ∧ s'.queue = [] := by
  induction fuel generalizing s heads with
  -- every slot of the graph has been passed, so the queue cannot hold any
  | zero =>
    have hle : passed p s ≤ (p.graph.nodes.toList.map fun n => n.inputs.length).sum :=
      sum_inputs_le List.length hs.visitedOnce fun x hx => h.surveys.known x (hs.visited x hx)
    exact ⟨s, heads, rfl, hs, List.length_eq_zero_iff.mp (by omega)⟩
  | succ fuel ih =>
    cases hq : s.queue with
    | nil => exact ⟨s, heads, by rw [Progress.run, hq], hs, hq⟩
    | cons id rest =>
      obtain ⟨s₁, heads₁, hstep, hs₁, hlen⟩ := hs.step h hq
      obtain ⟨s', heads', hrun, hs', hnil⟩ := ih hs₁ (by omega)
      refine ⟨s', heads', ?_, hs', hnil⟩
      rw [Progress.run, hq]
      exact except_bind_eq_ok.mpr ⟨s₁, hstep, hrun⟩

/-- **When the queue is empty everything is written.** -/
theorem Sound.complete (h : Ready p roots order) (hs : Sound p roots order s heads)
    (hnil : s.queue = []) (hx : p.IsHead order x) : x ∈ heads := by
  have hall : ∀ y ∈ order, p.graph.isOperation y = true → y ∈ s.visited := by
    -- from the readers down: once all readers are visited, all have asked
    refine h.surveys.settled.induction_readers fun y hy ih hyop => ?_
    by_contra hv
    have hysource := isSource_eq_false_of_isOperation hyop
    have hreaders : ∀ c ∈ order, p.graph.Reads c y → ∃ head ∈ heads, c ∈ p.chain head :=
      fun c hc hr =>
        have hcop := h.wellFormed.isOperation_of_reads hr hysource
        (hs.visited_iff c hcop).mp (ih c hc hr hcop)
    have hnotjoined : ¬ p.Joined order y := by
      rintro ⟨t, ht, ha⟩
      obtain ⟨head', hhead', htmem⟩ := hreaders t ht (Plan.reads_of_above? ha)
      have hclosed := h.chain_closed (hs.isHead head' hhead').1 htmem ha
      exact hv ((hs.visited_iff y hyop).mpr ⟨head', hhead', hclosed⟩)
    have hyhead : p.IsHead order y := ⟨hy, hyop, hnotjoined⟩
    have haccount := hs.account y hyop hv
    rw [hnil, List.count_nil, Nat.add_zero] at haccount
    -- all slots that read `y` belong to upper ends, and each of them has asked
    have htails : (p.graph.slotsReading order y).length
        ≤ (p.graph.slotsReading (heads.map p.tail) y).length := by
      refine (perm_flatMap_of_subset (h.nodup_tails hs.once hs.isHead) h.surveys.settled.nodup
        (h.tails_subset hs.isHead) fun c hc hout => ?_).length_eq.ge
      refine filter_inputs_eq_nil fun hr => hout ?_
      obtain ⟨head', hhead', hcmem⟩ := hreaders c hc hr
      rw [h.eq_tail_of_reads hyhead (hs.isHead head' hhead') hcmem hr]
      exact List.mem_map_of_mem hhead'
    rw [← h.surveys.count_eq_length] at htails
    -- so `y` was asked for as often as it is read, or once if it is a root
    rcases h.surveys.root_or_reader hy with hroot | ⟨c, hc, hr⟩
    · have hone := List.count_pos_iff.mpr hroot
      have hzero := h.unread y hroot
      rcases hs.waiting y hv with hw | hw <;> omega
    · have hpos := h.surveys.count_pos_iff.mpr ⟨c, hc, hr⟩
      rcases hs.waiting y hv with hw | hw <;> omega
  obtain ⟨head, hhead, hmem⟩ := (hs.visited_iff x hx.2.1).mp (hall x hx.1 hx.2.1)
  exact h.chain_unique hx (hs.isHead head hhead) (p.mem_chain_self x) hmem ▸ hhead

end Progress

/-! ## Ports of splits -/

/-- A split passes its check just if its ports are read once each. -/
theorem checkSplit_eq_ok {reads : List Edge} {x : NodeId} {fanOut : Nat} :
    checkSplit reads (x, fanOut) = .ok () ↔
      ((reads.filter (·.node = x)).map Edge.port).Perm (List.range fanOut) := by
  unfold checkSplit
  dsimp only
  generalize (reads.filter (·.node = x)).map Edge.port = ports
  rw [perm_range_iff]
  have hall : ((List.range fanOut).map fun port => ports.count port).all (· = 1) = true ↔
      ∀ port < fanOut, ports.count port = 1 := by
    simp
  -- a port past the last one is refused first, uneven reads after it
  split
  · rename_i port hport
    have hge : fanOut ≤ port := by simpa using List.find?_some hport
    refine iff_of_false (by simp) fun h => ?_
    have hlt := h.1 port (List.mem_of_find?_eq_some hport)
    omega
  · rename_i hnone
    rw [List.find?_eq_none] at hnone
    have hlt : ∀ port ∈ ports, port < fanOut := by
      intro port hport
      simpa using hnone port hport
    by_cases heven : ∀ port < fanOut, ports.count port = 1
    · rw [if_pos (hall.mpr heven)]
      exact iff_of_true rfl ⟨hlt, heven⟩
    · rw [if_neg (fun h => heven (hall.mp h))]
      exact iff_of_false (by simp) fun h => heven h.2

theorem checkSplit_eq_error {reads : List Edge} {x : NodeId} {fanOut : Nat} {e : GraphError}
    (h : checkSplit reads (x, fanOut) = .error e) :
    (∃ port ∈ (reads.filter (·.node = x)).map Edge.port, fanOut ≤ port ∧
        e = .noSuchPort x port) ∨
      e = .unevenReads x ((List.range fanOut).map
        fun port => ((reads.filter (·.node = x)).map Edge.port).count port) := by
  unfold checkSplit at h
  dsimp only at h
  split at h
  · rename_i port hport
    rw [Except.error.injEq] at h
    exact Or.inl ⟨port, List.mem_of_find?_eq_some hport, by simpa using List.find?_some hport,
      h.symm⟩
  · split at h
    · exact absurd h (by simp)
    · rw [Except.error.injEq] at h
      exact Or.inr h.symm

/-- The ports of `x` that are read, by slots of the listed nodes and by mappings. -/
def Graph.portsRead (g : Graph) (order : List NodeId) (ms : List Mapping) (x : NodeId) :
    List Nat :=
  (g.slotsReading order x).map Edge.port ++ ms.filterMap (Mapping.portOf? x)

namespace Plan

/-- The ports of `x` are read once each, by slots of reached nodes and mappings together. -/
def ReadOnce (p : Plan) (order : List NodeId) (x : NodeId) (fanOut : Nat) : Prop :=
  ((p.graph.slotsReading order x).map Edge.port ++ p.mappings.filterMap (Mapping.portOf? x)).Perm
    (List.range fanOut)

/-- `heads` are all the heads, and their statements are there, producers first. -/
structure Schedules (p : Plan) (order heads : List NodeId) (statements : List Statement) :
    Prop where
  once : heads.Nodup
  mem_iff : ∀ x, x ∈ heads ↔ p.IsHead order x
  written : List.Forall₂ p.Writes heads statements
  behind : p.ReadersBehind order heads

variable {p : Plan} {x : NodeId}

theorem ports_mappedPorts {fanOut : Nat} (hk : p.graph.kind? x = some (.split fanOut)) :
    (p.mappedPorts.filter (·.node = x)).map Edge.port
      = p.mappings.filterMap (Mapping.portOf? x) := by
  unfold mappedPorts
  rw [List.filter_filterMap, List.map_filterMap]
  refine List.filterMap_congr fun m _ => ?_
  cases m with
  | stream s t => rfl
  | output e =>
    by_cases he : e.node = x
    · have hread : Progress.isPortRead p.graph e = true := by rw [Progress.isPortRead, he, hk]
      simp [Mapping.portOf?, he, hread]
    · by_cases hread : Progress.isPortRead p.graph e = true
      · simp [Mapping.portOf?, he, hread]
      · simp [Mapping.portOf?, he, hread]

/-- The slots that read a head all belong to upper ends of chains. -/
theorem perm_slots {roots order heads : List NodeId} (h : Ready p roots order)
    (hnd : heads.Nodup) (hmem : ∀ x, x ∈ heads ↔ p.IsHead order x) (hx : p.IsHead order x) :
    ((heads.flatMap p.slots).filter (·.node = x)).Perm (p.graph.slotsReading order x) := by
  have hheads : ∀ head ∈ heads, p.IsHead order head := fun head => (hmem head).mp
  have hslots : (heads.flatMap p.slots).filter (·.node = x)
      = p.graph.slotsReading (heads.map p.tail) x := by
    rw [slotsReading, List.filter_flatMap, List.flatMap_map]
    rfl
  rw [hslots]
  refine perm_flatMap_of_subset (h.nodup_tails hnd hheads) h.surveys.settled.nodup
    (h.tails_subset hheads) fun c hc hout => ?_
  refine filter_inputs_eq_nil fun hr => hout ?_
  have hcop := h.wellFormed.isOperation_of_reads hr (isSource_eq_false_of_isOperation hx.2.1)
  obtain ⟨head, hhead, hcmem⟩ := h.exists_head hc hcop
  rw [h.eq_tail_of_reads hx hhead hcmem hr]
  exact List.mem_map_of_mem ((hmem head).mpr hhead)

/-- What the check of a split looks at: the slots and mappings that read it. -/
theorem perm_ports {roots order heads : List NodeId} {reads : List Edge} {fanOut : Nat}
    (h : Ready p roots order) (hnd : heads.Nodup) (hmem : ∀ x, x ∈ heads ↔ p.IsHead order x)
    (hreads : reads.Perm ((heads.flatMap p.slots).filter (Progress.isPortRead p.graph)))
    (hx : p.IsHead order x) (hk : p.graph.kind? x = some (.split fanOut)) :
    (((reads ++ p.mappedPorts).filter (·.node = x)).map Edge.port).Perm
      (p.graph.portsRead order p.mappings x) := by
  -- every slot that reads a split is kept for the check
  have hall : ((heads.flatMap p.slots).filter (Progress.isPortRead p.graph)).filter (·.node = x)
      = (heads.flatMap p.slots).filter (·.node = x) := by
    rw [List.filter_filter]
    refine List.filter_congr fun e _ => ?_
    by_cases he : e.node = x
    · have hread : Progress.isPortRead p.graph e = true := by rw [Progress.isPortRead, he, hk]
      simp [he, hread]
    · simp [he]
  have hfilter := hreads.filter (·.node = x)
  rw [hall] at hfilter
  rw [List.filter_append, List.map_append, ports_mappedPorts hk, portsRead]
  exact ((hfilter.trans (perm_slots h hnd hmem hx)).map Edge.port).append_right _

section Schedule

variable {roots order : List NodeId}

/-- **The writing of a graph that is ready comes to its end**, and then the statements of all
heads are there. -/
theorem exists_end (h : Ready p roots order) :
    ∃ s heads, Progress.run p (Progress.bound p roots) { queue := roots } = .ok s ∧
      s.queue = [] ∧ Progress.Sound p roots order s heads ∧
      p.Schedules order heads s.statements := by
  have hroots : ∀ root ∈ roots, root ∈ order :=
    fun root hroot => (h.surveys.mem_iff root).mpr (.root hroot)
  obtain ⟨s, heads, hrun, hs, hnil⟩ :=
    (Progress.sound_start hroots).run h (Progress.bound p roots) (Nat.le_add_right _ _)
  have hmem : ∀ x, x ∈ heads ↔ p.IsHead order x :=
    fun x => ⟨hs.isHead x, hs.complete h hnil⟩
  exact ⟨s, heads, hrun, hnil, hs, hs.once, hmem, hs.written, hs.behind⟩

/-- What is left when the writing has come to its end. -/
theorem statements_of_run {s : Progress}
    (h : Progress.run p (Progress.bound p roots) { queue := roots } = .ok s) :
    p.statements roots = do
      s.splits.forM (checkSplit (s.portReads ++ p.mappedPorts))
      return s.statements := by
  unfold Plan.statements
  rw [h]
  rfl

/-- **A graph that is ready can be written**, and then only the check of its splits is left. It
sees the splits that are heads, and the ports of them that are read. -/
theorem exists_written (h : Ready p roots order) :
    ∃ (heads : List NodeId) (statements : List Statement) (splits : List (NodeId × Nat))
      (reads : List Edge),
      p.Schedules order heads statements ∧
      (∀ x fanOut, (x, fanOut) ∈ splits ↔ x ∈ heads ∧ p.graph.kind? x = some (.split fanOut)) ∧
      (∀ x ∈ heads, ∀ fanOut, p.graph.kind? x = some (.split fanOut) →
        ((reads.filter (·.node = x)).map Edge.port).Perm
          (p.graph.portsRead order p.mappings x)) ∧
      p.statements roots = do splits.forM (checkSplit reads); return statements := by
  obtain ⟨s, heads, hrun, _, hs, hschedules⟩ := exists_end h
  refine ⟨heads, s.statements, s.splits, s.portReads ++ p.mappedPorts, hschedules, hs.splits,
    fun x hx fanOut hk => ?_, statements_of_run hrun⟩
  exact perm_ports h hs.once hschedules.mem_iff hs.portReads ((hschedules.mem_iff x).mp hx) hk

/-- **A graph that is ready gets its statements, provided that the ports of its splits are
read once each.** -/
theorem exists_schedule (h : Ready p roots order) :
    ∃ heads statements, p.Schedules order heads statements ∧
      ∀ result, p.statements roots = .ok result ↔ result = statements ∧
        ∀ x ∈ heads, ∀ fanOut, p.graph.kind? x = some (.split fanOut) →
          p.ReadOnce order x fanOut := by
  obtain ⟨heads, statements, splits, reads, hs, hsplits, hreads, heq⟩ := exists_written h
  have hcheck : splits.forM (checkSplit reads) = .ok ⟨⟩ ↔
      ∀ x ∈ heads, ∀ fanOut, p.graph.kind? x = some (.split fanOut) →
        p.ReadOnce order x fanOut := by
    have hports : ∀ x ∈ heads, ∀ fanOut, p.graph.kind? x = some (.split fanOut) →
        (checkSplit reads (x, fanOut) = .ok () ↔ p.ReadOnce order x fanOut) := by
      intro x hx fanOut hk
      have hperm := hreads x hx fanOut hk
      rw [checkSplit_eq_ok]
      exact ⟨hperm.symm.trans, hperm.trans⟩
    rw [forM_eq_ok]
    constructor
    · intro hall x hx fanOut hk
      exact (hports x hx fanOut hk).mp (hall _ ((hsplits x fanOut).mpr ⟨hx, hk⟩))
    · intro hall q hq
      obtain ⟨x, fanOut⟩ := q
      obtain ⟨hx, hk⟩ := (hsplits x fanOut).mp hq
      exact (hports x hx fanOut hk).mpr (hall x hx fanOut hk)
  refine ⟨heads, statements, hs, fun result => ?_⟩
  rw [← hcheck, heq, except_bind_eq_ok]
  constructor
  · intro ⟨_, hok, hresult⟩
    injection hresult with hresult
    exact ⟨hresult.symm, hok⟩
  · intro ⟨hresult, hok⟩
    exact ⟨⟨⟩, hok, by rw [hresult]; rfl⟩

/-- **What the check complains about.** A split that is a head has a port that is read but is
not there, or a port that is not read once. -/
theorem statements_error (h : Ready p roots order) {e : GraphError}
    (he : p.statements roots = .error e) :
    ∃ x fanOut, p.IsHead order x ∧ p.graph.kind? x = some (.split fanOut) ∧
      ((∃ port ∈ p.graph.portsRead order p.mappings x, fanOut ≤ port ∧ e = .noSuchPort x port) ∨
        ¬ p.ReadOnce order x fanOut ∧ e = .unevenReads x
          ((List.range fanOut).map (p.graph.portsRead order p.mappings x).count)) := by
  obtain ⟨heads, statements, splits, reads, hs, hsplits, hreads, heq⟩ := exists_written h
  rw [heq] at he
  rcases except_bind_eq_error.mp he with hcheck | ⟨_, _, hpure⟩
  · obtain ⟨front, ⟨x, fanOut⟩, back, hsplit, _, herror⟩ := forM_eq_error.mp hcheck
    obtain ⟨hx, hk⟩ := (hsplits x fanOut).mp (by rw [hsplit]; simp)
    have hperm := hreads x hx fanOut hk
    refine ⟨x, fanOut, (hs.mem_iff x).mp hx, hk, ?_⟩
    rcases checkSplit_eq_error herror with ⟨port, hport, hge, rfl⟩ | huneven
    · exact Or.inl ⟨port, hperm.mem_iff.mp hport, hge, rfl⟩
    · refine Or.inr ⟨fun honce => ?_, ?_⟩
      · rw [checkSplit_eq_ok.mpr (hperm.trans honce)] at herror
        exact absurd herror (by simp)
      · rw [huneven]
        congr 1
        exact List.map_congr_left fun port _ => hperm.count_eq port
  · exact absurd hpure (by simp [pure, Except.pure])

end Schedule

end Plan

end Filtergraph
