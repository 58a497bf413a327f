import Filtergraph.Proofs.Construction

/-!
# Refused calls

A call that builds or rewires a graph asks all its questions first and writes last, so that a
call which is refused has changed nothing. `Change.Atomic` says this of an edit, and an edit that
starts with a question is atomic if its rest is.

One call is made of two that write: it adds a filter and then attaches a gate to it. A gate that
the filter does not accept is refused too late; the filter has been added and stays. Whatever
else is wrong with such a call is seen before the filter is added.
-/

namespace Filtergraph

open Filtergraph.Graph

/-! ## Calls that ask before they write -/

namespace Graph

open Change

theorem atomic_add (kind : Kind) (inputs : List Edge) : Atomic (add kind inputs) :=
  atomic_of_ok fun _ => ⟨_, _, rfl⟩

theorem atomic_modify (f : Graph → Graph) : Atomic (modify f : Edit PUnit) :=
  atomic_of_ok fun _ => ⟨_, _, rfl⟩

theorem atomic_addAudioSource (source : Source) : Atomic (addAudioSource source) :=
  atomic_of_ok fun _ => ⟨_, _, rfl⟩

theorem atomic_selectStream (source : NodeId) (stream : Stream) :
    Atomic (selectStream source stream) := by
  refine Atomic.consult_bind fun n => ?_
  split
  · exact atomic_add _ _
  · exact atomic_throw _

theorem atomic_addFilter (filter : Filter) (inputs : List NodeId) :
    Atomic (addFilter filter inputs) :=
  Atomic.consult_bind fun _ => Atomic.consult_bind fun _ => atomic_add _ _

theorem atomic_addMerge (inputs : List NodeId) : Atomic (addMerge inputs) :=
  Atomic.consult_bind fun _ => Atomic.consult_bind fun _ => atomic_add _ _

theorem atomic_setGate (id : NodeId) (gate : Gate) : Atomic (setGate id gate) := by
  refine Atomic.consult_bind fun n => ?_
  split
  · split
    · exact atomic_modify _
    · exact atomic_throw _
  · exact atomic_throw _

theorem atomic_setInputs (id : NodeId) (inputs : List NodeId) : Atomic (setInputs id inputs) :=
  Atomic.consult_bind fun _ => Atomic.consult_bind fun _ => Atomic.consult_bind fun _ =>
    atomic_modify _

/-! ## A filter and its gate -/

variable {g : Graph} {filter : Filter} {gate : Gate} {inputs : List NodeId}

theorem edgesTo_of_exists (h : ∀ id ∈ inputs, ∃ n, g.node? id = some n) :
    g.edgesTo inputs = .ok (inputs.map fun id => ⟨id, 0⟩) := by
  induction inputs with
  | nil => rfl
  | cons id inputs ih =>
    obtain ⟨⟨n, hn⟩, hrest⟩ := List.forall_mem_cons.mp h
    rw [edgesTo, find_eq_ok.mpr hn, ih hrest]
    rfl

/-- **When a filter is added.** -/
theorem addFilter_eq_ok_iff {id : NodeId} {g' : Graph} :
    addFilter filter inputs g = .ok id g' ↔
      filter.arity = inputs.length ∧ (∀ id ∈ inputs, ∃ n, g.node? id = some n) ∧
        id = ⟨g.size⟩ ∧ g' = g.push (.filter filter none) (inputs.map fun id => ⟨id, 0⟩) := by
  constructor
  · intro h
    obtain ⟨hcheck, hrest⟩ := add_eq_ok h
    exact ⟨checkArity_eq_ok hcheck, hrest⟩
  · rintro ⟨harity, hinputs, rfl, rfl⟩
    have hcheck : checkArity filter inputs.length = .ok () := if_pos harity
    refine Eq.trans (consult_bind_of_ok hcheck) ?_
    exact consult_bind_of_ok (edgesTo_of_exists hinputs)

/-- A filter that accepts no gate refuses every one. -/
theorem setGate_of_not_acceptsGate {id : NodeId} {old : Option Gate} {es : List Edge}
    (hn : g.node? id = some ⟨.filter filter old, es⟩) (ha : filter.acceptsGate = false) :
    setGate id gate g = .error (.gateNotAccepted id) g := by
  refine Eq.trans (consult_bind_of_ok (find_eq_ok.mpr hn)) ?_
  dsimp only
  rw [if_neg (by simp [ha])]
  rfl

/-- A filter that accepts gates takes any. -/
theorem setGate_of_acceptsGate {id : NodeId} {old : Option Gate} {es : List Edge}
    (hn : g.node? id = some ⟨.filter filter old, es⟩) (ha : filter.acceptsGate = true) :
    setGate id gate g = .ok () (g.set id ⟨.filter filter (some gate), es⟩) := by
  refine Eq.trans (consult_bind_of_ok (find_eq_ok.mpr hn)) ?_
  dsimp only
  rw [if_pos ha]
  rfl

theorem push_ne (g : Graph) (kind : Kind) (es : List Edge) : g.push kind es ≠ g := by
  intro h
  have hsize := congrArg size h
  rw [size_push] at hsize
  omega

/-- **How adding a filter with a gate is refused**: before the filter is added, or just because
of the gate. -/
theorem addGatedFilter_error {e : GraphError} {g' : Graph}
    (h : addGatedFilter filter gate inputs g = .error e g') :
    (addFilter filter inputs g = .error e g ∧ g' = g) ∨
      (addFilter filter inputs g = .ok ⟨g.size⟩ g' ∧ filter.acceptsGate = false ∧
        e = .gateNotAccepted ⟨g.size⟩) := by
  -- the filter is refused, or it is added and then the gate is
  rcases bind_eq_error.mp h with hadd | ⟨id, g₁, hadd, hrest⟩
  · obtain rfl := atomic_addFilter filter inputs g e g' hadd
    exact Or.inl ⟨hadd, rfl⟩
  · obtain ⟨_, _, rfl, rfl⟩ := addFilter_eq_ok_iff.mp hadd
    have hn := node?_push_self g (.filter filter none) (inputs.map fun id => ⟨id, 0⟩)
    -- nothing but the filter itself can object to the gate
    by_cases ha : filter.acceptsGate = true
    · rw [bind_of_eq_ok (setGate_of_acceptsGate hn ha)] at hrest
      injection hrest
    · rw [Bool.not_eq_true] at ha
      rcases bind_eq_error.mp hrest with hset | ⟨_, _, hset, _⟩
      · rw [setGate_of_not_acceptsGate hn ha] at hset
        injection hset with he hg
        exact Or.inr ⟨hg ▸ hadd, ha, he.symm⟩
      · exact absurd ((setGate_of_not_acceptsGate hn ha).symm.trans hset) (by simp)

end Graph

/-! ## Calls -/

/-- The error of a call that is refused. -/
def Call.error? (g : Graph) : Call → Option GraphError
  | .addSource source => Change.error? (Graph.addSource source) g
  | .addAudioSource source => Change.error? (Graph.addAudioSource source) g
  | .selectStream source stream => Change.error? (Graph.selectStream source stream) g
  | .addFilter filter inputs => Change.error? (Graph.addFilter filter inputs) g
  | .addGatedFilter filter gate inputs => Change.error? (Graph.addGatedFilter filter gate inputs) g
  | .addMerge inputs => Change.error? (Graph.addMerge inputs) g
  | .setGate id gate => Change.error? (Graph.setGate id gate) g
  | .setInputs id inputs => Change.error? (Graph.setInputs id inputs) g

/-- The call adds a filter with a gate, and the filter could be added but accepts no gate. -/
def Call.GatesInVain (g : Graph) : Call → Prop
  | .addGatedFilter filter _ inputs => filter.arity = inputs.length ∧
    (∀ id ∈ inputs, ∃ n, g.node? id = some n) ∧ filter.acceptsGate = false
  | _ => False

/-- The call without the gate that it gives to a new filter. -/
def Call.ungated : Call → Call
  | .addGatedFilter filter _ inputs => .addFilter filter inputs
  | c => c

/-- All calls that write once are atomic. -/
theorem Call.after_eq_of_error? {g : Graph} {c : Call} {e : GraphError}
    (hc : ∀ filter gate inputs, c ≠ .addGatedFilter filter gate inputs)
    (h : c.error? g = some e) : c.after g = g := by
  cases c with
  | addSource source => exact (atomic_add _ _).after_eq h
  | addAudioSource source => exact (atomic_addAudioSource source).after_eq h
  | selectStream source stream => exact (atomic_selectStream source stream).after_eq h
  | addFilter filter inputs => exact (atomic_addFilter filter inputs).after_eq h
  | addGatedFilter filter gate inputs => exact absurd rfl (hc filter gate inputs)
  | addMerge inputs => exact (atomic_addMerge inputs).after_eq h
  | setGate id gate => exact (atomic_setGate id gate).after_eq h
  | setInputs id inputs => exact (atomic_setInputs id inputs).after_eq h

/-- The call that writes twice. -/
theorem Call.addGatedFilter_refused {g : Graph} {filter : Filter} {gate : Gate}
    {inputs : List NodeId} {e : GraphError}
    (h : (Call.addGatedFilter filter gate inputs).error? g = some e) :
    ((Call.addGatedFilter filter gate inputs).after g = g ∧
      ¬ (Call.addGatedFilter filter gate inputs).GatesInVain g) ∨
    ((Call.addGatedFilter filter gate inputs).GatesInVain g ∧ e = .gateNotAccepted ⟨g.size⟩ ∧
      (Call.addGatedFilter filter gate inputs).after g = (Call.addFilter filter inputs).after g ∧
      (Call.addFilter filter inputs).after g ≠ g) := by
  obtain ⟨g', hg'⟩ := Change.exists_of_error? h
  have hafter : (Call.addGatedFilter filter gate inputs).after g = g' := by
    rw [Call.after, Change.after, hg']
  -- nothing was changed, or the filter was added and stays
  rcases addGatedFilter_error hg' with ⟨hadd, rfl⟩ | ⟨hadd, ha, he⟩
  · refine Or.inl ⟨hafter, fun hvain => ?_⟩
    have hok := addFilter_eq_ok_iff.mpr ⟨hvain.1, hvain.2.1, rfl, rfl⟩
    exact absurd (hok.symm.trans hadd) (by simp)
  · have hplain : (Call.addFilter filter inputs).after g = g' := by
      rw [Call.after, Change.after, hadd]
    obtain ⟨harity, hinputs, _, rfl⟩ := addFilter_eq_ok_iff.mp hadd
    exact Or.inr ⟨⟨harity, hinputs, ha⟩, he, hafter.trans hplain.symm, hplain ▸ push_ne g _ _⟩

/-- **What a refused call leaves behind.** It has changed the graph if and only if it was to add
a filter with a gate, could add the filter, and the filter accepts no gate. Then the error is
about the gate, and the graph is what the call would have made of it without the gate. -/
theorem refused_call {g : Graph} {c : Call} {e : GraphError} (h : c.error? g = some e) :
    (c.after g ≠ g ↔ c.GatesInVain g) ∧
      (c.GatesInVain g → e = .gateNotAccepted ⟨g.size⟩ ∧ c.after g = c.ungated.after g) := by
  -- one call writes twice; the others are atomic
  by_cases hc : ∃ filter gate inputs, c = .addGatedFilter filter gate inputs
  · obtain ⟨filter, gate, inputs, rfl⟩ := hc
    rcases Call.addGatedFilter_refused h with ⟨hsame, hnot⟩ | ⟨hvain, he, hafter, hne⟩
    · exact ⟨iff_of_false (fun hne => hne hsame) hnot, fun hvain => absurd hvain hnot⟩
    · exact ⟨iff_of_true (hafter ▸ hne) hvain, fun _ => ⟨he, hafter⟩⟩
  · have hother : ∀ filter gate inputs, c ≠ .addGatedFilter filter gate inputs :=
      fun filter gate inputs heq => hc ⟨filter, gate, inputs, heq⟩
    have hnot : ¬ c.GatesInVain g := by
      cases c with
      | addGatedFilter filter gate inputs => exact absurd rfl (hother filter gate inputs)
      | _ => exact id
    exact ⟨iff_of_false (fun hne => hne (Call.after_eq_of_error? hother h)) hnot,
      fun hvain => absurd hvain hnot⟩

/-- A split that a compilation made keeps its input, and the graph is as it was. A rotation with
a gate is refused, and the graph has the rotation. -/
theorem refused_call_split_or_gate :
    ((Call.setInputs ⟨5⟩ [⟨0⟩]).error? interleavedOnce =
        some (.invalidInput ⟨5⟩ (.fixedWiring "split")) ∧
      ¬ (Call.setInputs ⟨5⟩ [⟨0⟩]).after interleavedOnce ≠ interleavedOnce) ∧
    (Call.addGatedFilter (.rotate "0.5") {} [⟨1⟩]).error? interleaved =
        some (.gateNotAccepted ⟨4⟩) ∧
      (Call.addGatedFilter (.rotate "0.5") {} [⟨1⟩]).GatesInVain interleaved ∧
      (Call.addGatedFilter (.rotate "0.5") {} [⟨1⟩]).after interleaved =
        (Call.addFilter (.rotate "0.5") [⟨1⟩]).after interleaved := by
  have hsplit : (Call.setInputs ⟨5⟩ [⟨0⟩]).error? interleavedOnce =
      some (.invalidInput ⟨5⟩ (.fixedWiring "split")) := by
    decide +kernel
  have hgate : (Call.addGatedFilter (.rotate "0.5") {} [⟨1⟩]).error? interleaved =
      some (.gateNotAccepted ⟨4⟩) := by
    decide +kernel
  have hvain : (Call.addGatedFilter (.rotate "0.5") {} [⟨1⟩]).GatesInVain interleaved := by
    refine ⟨rfl, fun id hid => ?_, rfl⟩
    rw [List.mem_singleton.mp hid]
    exact Option.isSome_iff_exists.mp (by decide +kernel)
  exact ⟨⟨hsplit, fun hne => (refused_call hsplit).1.mp hne⟩, hgate, hvain,
    ((refused_call hgate).2 hvain).2⟩

/-- A rotation accepts no gate. Adding one with a gate is refused, and yet there is one more
node. -/
theorem refused_gate_leaves_filter :
    Reachable interleaved ∧
      (Call.addGatedFilter (.rotate "0.5") {} [⟨1⟩]).error? interleaved =
        some (.gateNotAccepted ⟨4⟩) ∧
      (Call.addGatedFilter (.rotate "0.5") {} [⟨1⟩]).after interleaved ≠ interleaved := by
  exact ⟨built_interleaved.reachable, by decide +kernel, by decide +kernel⟩

end Filtergraph
