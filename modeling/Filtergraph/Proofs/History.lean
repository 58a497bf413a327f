import Filtergraph.Proofs.WellFormed

/-!
# Graphs that can come about

A graph is built by calls that add nodes and rewire them, and changed by compilations.
Any of these may be refused; what it changed until then stays. `Built` holds of the graphs
that calls alone lead to, `Reachable` of those that calls and compilations lead to.

All of them are well formed, and a graph that was never compiled has no splits.
-/

namespace Filtergraph

/-- A call that builds or rewires a graph. -/
inductive Call where
  | addSource (source : Source)
  | addAudioSource (source : Source)
  | selectStream (source : NodeId) (stream : Stream)
  | addFilter (filter : Filter) (inputs : List NodeId)
  | addGatedFilter (filter : Filter) (gate : Gate) (inputs : List NodeId)
  | addMerge (inputs : List NodeId)
  | setGate (id : NodeId) (gate : Gate)
  | setInputs (id : NodeId) (inputs : List NodeId)

/-- The graph after a call, whether it was accepted or refused. -/
def Call.after (g : Graph) : Call → Graph
  | .addSource source => Change.after (Graph.addSource source) g
  | .addAudioSource source => Change.after (Graph.addAudioSource source) g
  | .selectStream source stream => Change.after (Graph.selectStream source stream) g
  | .addFilter filter inputs => Change.after (Graph.addFilter filter inputs) g
  | .addGatedFilter filter gate inputs => Change.after (Graph.addGatedFilter filter gate inputs) g
  | .addMerge inputs => Change.after (Graph.addMerge inputs) g
  | .setGate id gate => Change.after (Graph.setGate id gate) g
  | .setInputs id inputs => Change.after (Graph.setInputs id inputs) g

/-- Graphs that calls build from nothing. -/
inductive Built : Graph → Prop where
  | empty : Built {}
  | call {g : Graph} (h : Built g) (c : Call) : Built (c.after g)

/-- Graphs that calls and compilations lead to, whatever came of each. -/
inductive Reachable : Graph → Prop where
  | empty : Reachable {}
  | call {g : Graph} (h : Reachable g) (c : Call) : Reachable (c.after g)
  | compile {g : Graph} (h : Reachable g) (job : Job) (roots : List NodeId) :
    Reachable (Change.after (job.compile roots) g)

/-- The graph after some calls, one after the other. -/
def afterCalls (calls : List Call) : Graph := calls.foldl Call.after {}

/-- Whatever the calls are, they build a graph. -/
theorem built_afterCalls (calls : List Call) : Built (afterCalls calls) := by
  -- from any built graph on, since the fold moves its start
  have hall : ∀ (calls : List Call) (g : Graph), Built g → Built (calls.foldl Call.after g) := by
    intro calls
    induction calls with
    | nil => exact fun g h => h
    | cons c calls ih => exact fun g h => ih _ (.call h c)
  exact hall calls {} .empty

/-- A filter that a merge reads twice, with another filter that reads it in between. -/
def interleaved : Graph :=
  afterCalls [.addSource { path := "in.mp4" }, .addFilter (.curves "vintage") [⟨0⟩],
    .addFilter (.rotate "0.5") [⟨1⟩], .addMerge [⟨1⟩, ⟨2⟩, ⟨1⟩]]

theorem built_interleaved : Built interleaved := built_afterCalls _

/-- A media file that two operations read, one of them twice, and beside them a selector and
an operation that the merge does not read. -/
def tangled : Graph :=
  afterCalls [.addSource { path := "in.mp4" }, .selectStream ⟨0⟩ .video,
    .addFilter (.curves "vintage") [⟨0⟩], .addMerge [⟨0⟩, ⟨2⟩, ⟨0⟩, ⟨1⟩],
    .addFilter (.rotate "0.5") [⟨0⟩]]

theorem built_tangled : Built tangled := built_afterCalls _

/-- A graph that calls alone lead to is one that calls and compilations lead to. -/
theorem Built.reachable {g : Graph} (h : Built g) : Reachable g := by
  induction h with
  | empty => exact .empty
  | call _ c ih => exact ih.call c

/-- The graph with a split behind the filter, as a compilation leaves it. -/
def interleavedOnce : Graph :=
  Change.after (Job.compile { destination := "out.mp4" } [⟨3⟩]) interleaved

theorem reachable_interleavedOnce : Reachable interleavedOnce :=
  .compile built_interleaved.reachable _ _

open Filtergraph.Graph

variable {g : Graph}

/-! ## What a call does to the table -/

/-- The table after a call: unchanged, one or two nodes longer, or with one node changed.
The new slots are those that the call asked for. -/
inductive CallStep (g : Graph) : Graph → Prop where
  | refused : CallStep g g
  | source (source : Source) : CallStep g (g.push (.source source) [])
  | selector {source : NodeId} (stream : Stream) (h : g.isSource source = true) :
    CallStep g (g.push (.selector stream) [⟨source, 0⟩])
  | audio (source : Source) :
    CallStep g ((g.push (.source source) []).push (.selector .audio) [⟨⟨g.size⟩, 0⟩])
  | operation {kind : Kind} {inputs : List NodeId} (h : ∀ id ∈ inputs, ∃ n, g.node? id = some n)
    (hkind : (∃ f, kind = .filter f none ∧ f.arity = inputs.length) ∨
      (kind = .merge ∧ 2 ≤ inputs.length)) :
    CallStep g (g.push kind (inputs.map fun id => ⟨id, 0⟩))
  | gate {id : NodeId} {f : Filter} {old : Option Gate} {es : List Edge} (gate : Gate)
    (h : g.node? id = some ⟨.filter f old, es⟩) (ha : f.acceptsGate = true) :
    CallStep g (g.set id ⟨.filter f (some gate), es⟩)
  | rewired {id : NodeId} {n : Node} {inputs : List NodeId} (hn : g.node? id = some n)
    (h : ∀ id ∈ inputs, ∃ n, g.node? id = some n)
    (hkind : (∃ f gate, n.kind = .filter f gate ∧ f.arity = inputs.length) ∨
      (n.kind = .merge ∧ 2 ≤ inputs.length)) :
    CallStep g (g.set id ⟨n.kind, inputs.map fun id => ⟨id, 0⟩⟩)

theorem find_eq_ok {id : NodeId} {n : Node} : g.find id = .ok n ↔ g.node? id = some n := by
  unfold find
  cases g.node? id with
  | none => simp
  | some m => simp

/-- The slots that a call asks for read the first output of nodes that exist. -/
theorem edgesTo_eq_ok {ids : List NodeId} {es : List Edge} (h : g.edgesTo ids = .ok es) :
    es = ids.map (fun id => ⟨id, 0⟩) ∧ ∀ id ∈ ids, ∃ n, g.node? id = some n := by
  induction ids generalizing es with
  | nil =>
    injection h with h
    exact ⟨h.symm, by simp⟩
  | cons id ids ih =>
    rw [edgesTo] at h
    obtain ⟨n, hn, h⟩ := except_bind_eq_ok.mp h
    obtain ⟨rest, hrest, h⟩ := except_bind_eq_ok.mp h
    injection h with h
    obtain ⟨rfl, hall⟩ := ih hrest
    refine ⟨h.symm, ?_⟩
    intro j hj
    rcases List.mem_cons.mp hj with rfl | hj
    · exact ⟨n, find_eq_ok.mp hn⟩
    · exact hall j hj

theorem checkArity_eq_ok {f : Filter} {found : Nat} {u : Unit} (h : checkArity f found = .ok u) :
    f.arity = found := by
  unfold checkArity at h
  split at h
  · assumption
  · exact absurd h (by simp)

theorem checkMerge_eq_ok {found : Nat} {u : Unit} (h : checkMerge found = .ok u) : 2 ≤ found := by
  unfold checkMerge at h
  split at h
  · exact absurd h (by simp)
  · omega

/-- An operation with checked inputs, added or refused. -/
theorem callStep_operation {check : Except GraphError Unit} {kind : Kind} {inputs : List NodeId}
    (hcheck : ∀ u, check = .ok u → (∃ f, kind = .filter f none ∧ f.arity = inputs.length) ∨
      (kind = .merge ∧ 2 ≤ inputs.length)) :
    CallStep g (Change.after (do
      consult fun _ => check
      let edges ← consult (·.edgesTo inputs)
      add kind edges) g) := by
  rw [Change.after_bind]
  -- refused by the check, refused by an unknown input, or added
  cases hc : consult (fun _ => check) g with
  | error e g₁ =>
    obtain ⟨_, rfl⟩ := consult_eq_error.mp hc
    exact .refused
  | ok u g₁ =>
    obtain ⟨hu, rfl⟩ := consult_eq_ok.mp hc
    dsimp only
    rw [Change.after_bind]
    cases he : consult (·.edgesTo inputs) g₁ with
    | error e g₂ =>
      obtain ⟨_, rfl⟩ := consult_eq_error.mp he
      exact .refused
    | ok es g₂ =>
      obtain ⟨hes, rfl⟩ := consult_eq_ok.mp he
      obtain ⟨rfl, hall⟩ := edgesTo_eq_ok hes
      exact .operation hall (hcheck u hu)

/-- A filter is added over inputs that exist, as many as it takes, or not at all. -/
theorem callStep_addFilter (f : Filter) (inputs : List NodeId) :
    CallStep g (Change.after (addFilter f inputs) g) :=
  callStep_operation fun _ hu => Or.inl ⟨f, rfl, checkArity_eq_ok hu⟩

theorem callStep_setGate (id : NodeId) (gate : Gate) :
    CallStep g (Change.after (setGate id gate) g) := by
  unfold setGate
  rw [Change.after_bind]
  cases hf : consult (·.find id) g with
  | error e g₁ =>
    obtain ⟨_, rfl⟩ := consult_eq_error.mp hf
    exact .refused
  | ok n g₁ =>
    obtain ⟨hn, rfl⟩ := consult_eq_ok.mp hf
    have hn := find_eq_ok.mp hn
    obtain ⟨kind, es⟩ := n
    -- only filters have gates, and not all of them
    cases kind with
    | filter f old =>
      by_cases ha : f.acceptsGate = true
      · have hstep := CallStep.gate gate hn ha
        dsimp only
        rw [if_pos ha]
        exact hstep
      · dsimp only
        rw [if_neg ha]
        exact .refused
    | source s => exact .refused
    | selector s => exact .refused
    | split k => exact .refused
    | merge => exact .refused

theorem callStep_selectStream (source : NodeId) (stream : Stream) :
    CallStep g (Change.after (selectStream source stream) g) := by
  unfold selectStream
  rw [Change.after_bind]
  cases hf : consult (·.find source) g with
  | error e g₁ =>
    obtain ⟨_, rfl⟩ := consult_eq_error.mp hf
    exact .refused
  | ok n g₁ =>
    obtain ⟨hn, rfl⟩ := consult_eq_ok.mp hf
    have hn := find_eq_ok.mp hn
    dsimp only
    by_cases hs : n.kind.isSource = true
    · rw [if_pos hs]
      exact .selector stream (by rw [isSource_of_node? hn, hs])
    · rw [if_neg hs]
      exact .refused

/-- Only filters and merges are rewired, to as many inputs as they take. -/
theorem callStep_setInputs (id : NodeId) (inputs : List NodeId) :
    CallStep g (Change.after (setInputs id inputs) g) := by
  unfold setInputs
  rw [Change.after_bind]
  cases he : consult (·.edgesTo inputs) g with
  | error e g₁ =>
    obtain ⟨_, rfl⟩ := consult_eq_error.mp he
    exact .refused
  | ok es g₁ =>
    obtain ⟨hes, rfl⟩ := consult_eq_ok.mp he
    obtain ⟨rfl, hall⟩ := edgesTo_eq_ok hes
    dsimp only
    rw [Change.after_bind]
    cases hf : consult (·.find id) g₁ with
    | error e g₂ =>
      obtain ⟨_, rfl⟩ := consult_eq_error.mp hf
      exact .refused
    | ok n g₂ =>
      obtain ⟨hn, rfl⟩ := consult_eq_ok.mp hf
      dsimp only
      rw [Change.after_bind]
      cases hc : consult (fun _ => checkRewiring id n.kind inputs.length) g₂ with
      | error e g₃ =>
        obtain ⟨_, rfl⟩ := consult_eq_error.mp hc
        exact .refused
      | ok u g₃ =>
        obtain ⟨hu, rfl⟩ := consult_eq_ok.mp hc
        refine .rewired (find_eq_ok.mp hn) hall ?_
        unfold checkRewiring at hu
        -- the check has ruled out every other role
        cases hk : n.kind with
        | filter f gate =>
          rw [hk] at hu
          exact Or.inl ⟨f, gate, rfl, checkArity_eq_ok hu⟩
        | merge => rw [hk] at hu; exact Or.inr ⟨rfl, checkMerge_eq_ok hu⟩
        | source s => rw [hk] at hu; exact absurd hu (by simp)
        | selector s => rw [hk] at hu; exact absurd hu (by simp)
        | split k => rw [hk] at hu; exact absurd hu (by simp)

/-- **A call makes at most two such changes, one after the other.** -/
theorem callStep_after (g : Graph) (c : Call) :
    ∃ g₁, CallStep g g₁ ∧ CallStep g₁ (c.after g) := by
  cases c with
  | addSource source => exact ⟨g, .refused, .source source⟩
  | addAudioSource source => exact ⟨g, .refused, .audio source⟩
  | selectStream source stream => exact ⟨g, .refused, callStep_selectStream source stream⟩
  | addFilter filter inputs => exact ⟨g, .refused, callStep_addFilter filter inputs⟩
  | addMerge inputs =>
    exact ⟨g, .refused, callStep_operation fun _ hu => Or.inr ⟨rfl, checkMerge_eq_ok hu⟩⟩
  | setGate id gate => exact ⟨g, .refused, callStep_setGate id gate⟩
  | setInputs id inputs => exact ⟨g, .refused, callStep_setInputs id inputs⟩
  | addGatedFilter filter gate inputs =>
    -- the filter is added first, and stays if the gate is refused
    refine ⟨_, callStep_addFilter filter inputs, ?_⟩
    rw [Call.after, addGatedFilter, Change.after_bind, Change.after]
    cases addFilter filter inputs g with
    | error e g₁ => exact .refused
    | ok id g₁ =>
      have hstep := callStep_setGate (g := g₁) id gate
      dsimp only
      rw [Change.after_bind]
      rw [Change.after] at hstep
      cases hset : setGate id gate g₁ with
      | error e g₂ => rw [hset] at hstep; exact hstep
      | ok u g₂ => rw [hset] at hstep; exact hstep

/-! ## Well-formedness -/

/-- Every node has a first output, even a split. -/
theorem Graph.WellFormed.hasPort_first (h : g.WellFormed) {id : NodeId} {n : Node}
    (hn : g.node? id = some n) : g.HasPort ⟨id, 0⟩ := by
  refine ⟨n, hn, ?_⟩
  have hshape := (h id n hn).shape
  obtain ⟨kind, es⟩ := n
  cases kind with
  | split k => exact Nat.lt_of_lt_of_le Nat.zero_lt_two hshape.1
  | source s => exact Nat.zero_lt_one
  | selector s => exact Nat.zero_lt_one
  | filter f gate => exact Nat.zero_lt_one
  | merge => exact Nat.zero_lt_one

theorem Graph.WellFormed.hasPort_inputs (h : g.WellFormed) {inputs : List NodeId}
    (hall : ∀ id ∈ inputs, ∃ n, g.node? id = some n) :
    ∀ e ∈ inputs.map (fun id => (⟨id, 0⟩ : Edge)), g.HasPort e := by
  intro e he
  obtain ⟨id, hid, rfl⟩ := List.mem_map.mp he
  obtain ⟨n, hn⟩ := hall id hid
  exact h.hasPort_first hn

/-- Each of these changes keeps the graph well formed. -/
theorem CallStep.wellFormed {g' : Graph} (hstep : CallStep g g') (h : g.WellFormed) :
    g'.WellFormed := by
  -- a selector fits wherever its media file is
  have hselector : ∀ (g : Graph) (source : NodeId) (stream : Stream), g.WellFormed →
      g.isSource source = true → (g.push (.selector stream) [⟨source, 0⟩]).WellFormed := by
    intro g source stream h hs
    obtain ⟨n, hn, _⟩ := node?_of_isSource hs
    refine h.push ⟨?_, ⟨source, 0⟩, rfl, hs⟩
    intro e he
    rw [List.mem_singleton.mp he]
    exact h.hasPort_first hn
  cases hstep with
  | refused => exact h
  | source s => exact h.push ⟨by simp, rfl⟩
  | selector stream hs => exact hselector g _ stream h hs
  | audio s =>
    refine hselector _ _ _ (h.push ⟨by simp, rfl⟩) ?_
    rw [isSource_of_node? (node?_push_self g _ _)]
    rfl
  | operation hall hkind =>
    refine h.push ⟨h.hasPort_inputs hall, ?_⟩
    rcases hkind with ⟨f, rfl, harity⟩ | ⟨rfl, hlen⟩
    · exact ⟨by rw [List.length_map, harity], by simp⟩
    · exact le_of_le_of_eq hlen (List.length_map _).symm
  -- the slots do not change, and the filter accepts the gate
  | gate gate hn ha => exact h.set hn rfl rfl ⟨(h _ _ hn).ports, (h _ _ hn).shape.1, fun _ => ha⟩
  | @rewired id n inputs hn hall hkind =>
    refine h.set hn rfl rfl ⟨h.hasPort_inputs hall, ?_⟩
    -- the number of slots was checked; a gate that was there stays accepted
    have hshape := (h _ _ hn).shape
    rcases hkind with ⟨f, gate, hk, harity⟩ | ⟨hk, hlen⟩
    · rw [hk] at hshape
      rw [hk]
      exact ⟨by rw [List.length_map, harity], hshape.2⟩
    · rw [hk]
      exact le_of_le_of_eq hlen (List.length_map _).symm

/-- **Whatever is done with a graph, it stays well formed.** -/
theorem Reachable.wellFormed (h : Reachable g) : g.WellFormed := by
  induction h with
  | empty => exact wellFormed_empty
  | @call g _ c ih =>
    obtain ⟨g₁, h₁, h₂⟩ := callStep_after g c
    exact h₂.wellFormed (h₁.wellFormed ih)
  | compile _ job roots ih => exact wellFormed_compile ih job roots

/-! ## Splits -/

/-- No node of the graph is a split. -/
def Graph.SplitFree (g : Graph) : Prop :=
  ∀ id fanOut, g.kind? id ≠ some (.split fanOut)

theorem splitFree_push {k : Kind} {es : List Edge} (h : g.SplitFree)
    (hk : ∀ fanOut, k ≠ .split fanOut) : (g.push k es).SplitFree := by
  intro id fanOut
  rw [kind?, node?_push]
  split
  · intro he
    injection he with he
    exact hk fanOut he
  · exact h id fanOut

theorem splitFree_set {id : NodeId} {n m : Node} (h : g.SplitFree) (hn : g.node? id = some n)
    (hm : ∀ fanOut, m.kind ≠ .split fanOut) : (g.set id m).SplitFree := by
  intro j fanOut
  rw [kind?, node?_set hn]
  split
  · intro he
    injection he with he
    exact hm fanOut he
  · exact h j fanOut

/-- None of these changes makes a split. -/
theorem CallStep.splitFree {g' : Graph} (hstep : CallStep g g') (h : g.SplitFree) :
    g'.SplitFree := by
  cases hstep with
  | refused => exact h
  | source s => exact splitFree_push h (by simp)
  | selector stream _ => exact splitFree_push h (by simp)
  | audio s => exact splitFree_push (splitFree_push h (by simp)) (by simp)
  | operation _ hkind =>
    refine splitFree_push h fun fanOut he => ?_
    rcases hkind with ⟨f, rfl, _⟩ | ⟨rfl, _⟩
    · exact absurd he (by simp)
    · exact absurd he (by simp)
  | gate gate hn _ => exact splitFree_set h hn (by simp)
  -- the role stays, and was no split before
  | rewired hn _ hkind =>
    refine splitFree_set h hn fun fanOut he => ?_
    exact h _ fanOut (by rw [kind?_of_node? hn]; exact congrArg some he)

/-- **Only compilations make splits.** -/
theorem Built.splitFree (h : Built g) : g.SplitFree := by
  induction h with
  | empty => intro id fanOut; simp [kind?, node?]
  | @call g _ c ih =>
    obtain ⟨g₁, h₁, h₂⟩ := callStep_after g c
    exact h₂.splitFree (h₁.splitFree ih)

end Filtergraph
