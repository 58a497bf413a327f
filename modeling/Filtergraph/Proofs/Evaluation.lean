import Filtergraph.Proofs.Labels
import Filtergraph.Proofs.Meaning

/-!
# What programs put out

A program can be run on terms: each statement takes what its labels carry, passes it through
its stages and binds what comes out to the labels that it defines. What is left without a
label goes to the output, and so does what the mappings name.

The program of a compilation puts out what the graph means. The invariant of the run speaks
of the heads whose statements have been run: all labels of a head carry the term of its node.
Along a chain the single output of one operation is the single input of the next, because a
split, the one node with several outputs, never joins a chain.
-/

namespace Filtergraph

open Filtergraph.Graph

/-! ## Running a program -/

/-- Why a program cannot be run. -/
inductive Fault where
  /-- Nothing defines the label, or the file that it names is not opened. -/
  | undefined (label : Label)
  /-- A stage gets the wrong number of streams. -/
  | wrongInputs (stage : Stage) (found : Nat)
  /-- A statement has more labels than outputs. -/
  | tooManyLabels (labels : List Label)

/-- What labels carry, by their texts. -/
abbrev Bindings := List (String × Term)

/-- What a label carries. A stream of a file is looked up among the files that are opened. -/
def Program.resolve (p : Program) (env : Bindings) (label : Label) : Except Fault Term :=
  match label with
  | .input position stream =>
    match p.sources[position]? with
    | some source => .ok (.file source stream)
    | none => .error (.undefined label)
  | _ =>
    match env.lookup label.text with
    | some t => .ok t
    | none => .error (.undefined label)

/-- What a stage puts out. -/
def Stage.run : Stage → List Term → Except Fault (List Term)
  | .filter description, ts => .ok [.apply description ts]
  | .merge n, ts =>
    if ts.length = n then .ok [.apply (Stage.merge n).text ts]
    else .error (.wrongInputs (.merge n) ts.length)
  | .split n, [t] => .ok (List.replicate n t)
  | .split n, ts => .error (.wrongInputs (.split n) ts.length)

/-- Stages one after the other, each on what the one before puts out. -/
def runStages (stages : List Stage) (ts : List Term) : Except Fault (List Term) :=
  stages.foldlM (fun ts stage => stage.run ts) ts

/-- How far a run has come. -/
structure Run where
  env : Bindings := []
  /-- What came out without a label. -/
  loose : List Term := []

/-- Runs one statement. -/
def Statement.run (p : Program) (r : Run) (st : Statement) : Except Fault Run := do
  let ts ← st.inputs.mapM (p.resolve r.env)
  let outs ← runStages st.stages ts
  if outs.length < st.outputs.length then .error (.tooManyLabels st.outputs)
  else .ok {
    env := (st.outputs.map Label.text).zip outs ++ r.env
    loose := r.loose ++ outs.drop st.outputs.length }

/-- What goes to the output. -/
structure Results where
  /-- What is left without a label. -/
  unlabelled : List Term
  /-- What the mappings name, in their order. -/
  mapped : List Term

/-- Runs the statements in their order and looks up the mappings. -/
def Program.results (p : Program) : Except Fault Results := do
  let r ← p.statements.foldlM (Statement.run p) {}
  let mapped ← p.targets.mapM (p.resolve r.env)
  return ⟨r.loose, mapped⟩

theorem resolve_input {p : Program} {position : Nat} {source : NodeId}
    (h : p.sources[position]? = some source) (env : Bindings) (stream : Stream) :
    p.resolve env (.input position stream) = .ok (.file source stream) := by
  unfold Program.resolve
  dsimp only
  rw [h]

theorem resolve_of_lookup {p : Program} {env : Bindings} {l : Label} {t : Term}
    (hl : l.isInput = false) (h : env.lookup l.text = some t) : p.resolve env l = .ok t := by
  unfold Program.resolve
  cases l with
  | input position stream => exact absurd hl (by simp [Label.isInput])
  | output x => dsimp only; rw [h]
  | port x n => dsimp only; rw [h]

theorem lookup_zip_replicate {keys : List String} {key : String} {n : Nat} (t : Term)
    (hn : keys.length ≤ n) (hkey : key ∈ keys) :
    (keys.zip (List.replicate n t)).lookup key = some t := by
  induction keys generalizing n with
  | nil => exact absurd hkey (by simp)
  | cons key' keys ih =>
    obtain ⟨m, rfl⟩ : ∃ m, n = m + 1 := ⟨n - 1, by simp at hn; omega⟩
    rw [List.replicate_succ, List.zip_cons_cons, List.lookup_cons]
    cases heq : key == key' with
    | true => rfl
    | false =>
      refine ih (by simpa using hn) ((List.mem_cons.mp hkey).resolve_left fun he => ?_)
      rw [he] at heq
      exact absurd heq (by simp)

theorem lookup_zip_eq_none {keys : List String} {key : String} (ts : List Term)
    (hkey : key ∉ keys) : (keys.zip ts).lookup key = none := by
  rw [List.lookup_eq_none_iff]
  intro pair hpair
  rw [bne_iff_ne]
  rintro rfl
  exact hkey (List.of_mem_zip hpair).1

/-! ## Chains -/

/-- An operation puts out what it stands for, at each of its ports. -/
theorem Graph.WellFormed.exists_stage_run {g : Graph} (h : g.WellFormed) {x : NodeId} {n : Node}
    (hn : g.node? x = some n) (hop : n.kind.isOperation = true) {ts : List Term}
    (hts : List.Forall₂ (fun e t => g.Denotes e.node t) n.inputs ts) :
    ∃ stage t, n.stage? = some stage ∧ g.Denotes x t ∧
      stage.run ts = .ok (List.replicate n.kind.ports t) := by
  have hshape := (h x n hn).shape
  obtain ⟨k, es⟩ := n
  cases k with
  | source s => exact absurd hop (by simp [Kind.isOperation])
  | selector s => exact absurd hop (by simp [Kind.isOperation])
  | filter f gate =>
    cases gate with
    | none => exact ⟨_, _, rfl, (denotes_apply_iff hn rfl rfl).mpr ⟨ts, rfl, hts⟩, rfl⟩
    | some gate => exact ⟨_, _, rfl, (denotes_apply_iff hn rfl rfl).mpr ⟨ts, rfl, hts⟩, rfl⟩
  | merge =>
    refine ⟨_, _, rfl, (denotes_apply_iff hn rfl rfl).mpr ⟨ts, rfl, hts⟩, ?_⟩
    exact if_pos hts.length_eq.symm
  -- a split copies its single input to each of its ports
  | split fanOut =>
    obtain ⟨_, e, hes, _⟩ := hshape
    have hes : es = [e] := hes
    subst hes
    obtain ⟨t, rest, ht, hrest, rfl⟩ := List.forall₂_cons_left_iff.mp hts
    rw [List.forall₂_nil_left_iff] at hrest
    subst hrest
    exact ⟨_, t, rfl, .split hn ht, rfl⟩

theorem runStages_append {stages stages' : List Stage} {ts ts' : List Term}
    (h : runStages stages ts = .ok ts') :
    runStages (stages ++ stages') ts = runStages stages' ts' := by
  rw [runStages, List.foldlM_append]
  rw [runStages] at h
  rw [h]
  rfl

/-- The stages of some operations. -/
def Plan.stagesOf (p : Plan) (ids : List NodeId) : List Stage :=
  (ids.filterMap p.graph.node?).filterMap Node.stage?

section Chain

variable {p : Plan} {roots order : List NodeId} {x : NodeId} {n : Node} {ts : List Term}

/-- One more operation at the lower end of a chain. -/
theorem Ready.run_below (h : Ready p roots order) (hn : p.graph.node? x = some n)
    (hop : n.kind.isOperation = true) {above : List NodeId} {ts' : List Term}
    (habove : runStages (p.stagesOf above.reverse) ts = .ok ts')
    (hts' : List.Forall₂ (fun e t => p.graph.Denotes e.node t) n.inputs ts') :
    ∃ t, p.graph.Denotes x t ∧
      runStages (p.stagesOf (x :: above).reverse) ts = .ok (List.replicate n.kind.ports t) := by
  obtain ⟨stage, t, hstage, ht, hrun⟩ := h.wellFormed.exists_stage_run hn hop hts'
  have hstages : p.stagesOf (x :: above).reverse = p.stagesOf above.reverse ++ [stage] := by
    simp [Plan.stagesOf, hn, hstage]
  refine ⟨t, ht, ?_⟩
  rw [hstages, runStages_append habove, runStages, List.foldlM_cons, hrun]
  rfl

/-- What stands above `x` in its chain puts out what `x` reads. -/
theorem Ready.exists_fed (h : Ready p roots order)
    (hsingle : ∀ y m, p.Joined order y → p.graph.node? y = some m → m.kind.ports = 1)
    (d : NodeId) (k : Nat) (hx : x ∈ order)
    (hts : List.Forall₂ (fun e t => p.graph.Denotes e.node t)
      (p.graph.inputs ((x :: p.climb k x).getLastD d)) ts) :
    ∃ ts', runStages (p.stagesOf (p.climb k x).reverse) ts = .ok ts' ∧
      List.Forall₂ (fun e t => p.graph.Denotes e.node t) (p.graph.inputs x) ts' := by
  induction k generalizing x with
  | zero => exact ⟨ts, rfl, hts⟩
  | succ k ih =>
    cases ha : p.above? x with
    | none =>
      rw [Plan.climb_succ_of_none ha] at hts ⊢
      exact ⟨ts, rfl, hts⟩
    | some y =>
      rw [Plan.climb_succ_of_some ha] at hts ⊢
      obtain ⟨hy, hyop⟩ := h.above_mem hx ha
      obtain ⟨m, hm, hmop⟩ := node?_of_isOperation hyop
      obtain ⟨ts', hrun, hts'⟩ := ih hy hts
      rw [inputs_of_node? hm] at hts'
      obtain ⟨t, ht, hrun⟩ := h.run_below hm hmop hrun hts'
      -- what joins a chain has one output, and its reader one slot
      rw [hsingle y m ⟨x, hx, ha⟩ hm] at hrun
      obtain ⟨e, hinputs, rfl, _⟩ := Plan.above?_eq_some.mp ha
      exact ⟨[t], hrun, by rw [hinputs]; exact .cons ht .nil⟩

/-- **A chain puts out what its head stands for.** -/
theorem Ready.exists_chain_run (h : Ready p roots order)
    (hsingle : ∀ y m, p.Joined order y → p.graph.node? y = some m → m.kind.ports = 1)
    (hx : x ∈ order) (hn : p.graph.node? x = some n) (hop : n.kind.isOperation = true)
    (hts : List.Forall₂ (fun e t => p.graph.Denotes e.node t) (p.slots x) ts) :
    ∃ t, p.graph.Denotes x t ∧
      runStages (p.stagesOf (p.chain x).reverse) ts = .ok (List.replicate n.kind.ports t) := by
  obtain ⟨ts', hrun, hts'⟩ := h.exists_fed hsingle x p.graph.size hx hts
  rw [inputs_of_node? hn] at hts'
  exact h.run_below hn hop hrun hts'

/-- An operation either has a label for each of its ports, or one output and no label. -/
theorem Ready.outputLabels_cases (h : Ready p roots order) (hn : p.graph.node? x = some n) :
    (p.outputLabels x ≠ [] ∧ (p.outputLabels x).length = n.kind.ports ∧
        (0 < p.uses x ∨ ∃ fanOut, n.kind = .split fanOut)) ∨
      (p.outputLabels x = [] ∧ n.kind.ports = 1 ∧ p.uses x = 0 ∧
        ∀ fanOut, n.kind ≠ .split fanOut) := by
  have hshape := (h.wellFormed x n hn).shape
  by_cases hsplit : ∃ fanOut, n.kind = .split fanOut
  · obtain ⟨fanOut, hk⟩ := hsplit
    rw [hk] at hshape
    have hlen : (p.outputLabels x).length = fanOut := by
      rw [Plan.outputLabels, kind?_of_node? hn, hk]
      simp
    refine Or.inl ⟨fun hnil => ?_, by rw [hk]; exact hlen, Or.inr ⟨fanOut, hk⟩⟩
    rw [hnil] at hlen
    have hfan := hshape.1
    simp at hlen
    omega
  · have hns : ∀ fanOut, n.kind ≠ .split fanOut := fun fanOut hk => hsplit ⟨fanOut, hk⟩
    have hports : n.kind.ports = 1 := by
      cases hk : n.kind with
      | split fanOut => exact absurd hk (hns fanOut)
      | _ => rfl
    have hlabels := Plan.outputLabels_of_not_split (p := p) (x := x) fun fanOut hk => by
      rw [kind?_of_node? hn, Option.some.injEq] at hk
      exact hns fanOut hk
    -- without uses there is no label, and the output stays loose
    by_cases huses : 0 < p.uses x
    · rw [hlabels, if_pos huses]
      exact Or.inl ⟨by simp, hports.symm, Or.inl huses⟩
    · exact Or.inr ⟨by rw [hlabels, if_neg huses], hports, by omega, hns⟩

theorem Ready.outputLabels_length_le (h : Ready p roots order) (hn : p.graph.node? x = some n) :
    (p.outputLabels x).length ≤ n.kind.ports := by
  rcases h.outputLabels_cases hn with ⟨_, hlen, _⟩ | ⟨hnil, _⟩
  · exact le_of_eq hlen
  · rw [hnil]
    exact Nat.zero_le _

end Chain

/-! ## The run of a compiled program -/

/-- The state of a run once the statements of `heads` have been run. -/
structure Run.Follows (p : Plan) (heads : List NodeId) (r : Run) : Prop where
  /-- All labels of a head carry what it stands for. -/
  labels : ∀ x ∈ heads, ∃ t, p.graph.Denotes x t ∧
    ∀ l ∈ p.outputLabels x, r.env.lookup l.text = some t
  /-- Heads without labels have put out what they stand for. -/
  loose : List.Forall₂ p.graph.Denotes (heads.filter fun x => (p.outputLabels x).isEmpty) r.loose

/-- The state after one more head: its labels are bound to its term, or its term comes out
without a label. -/
theorem Run.Follows.snoc {p : Plan} {roots order done : List NodeId} {r : Run} {x : NodeId}
    {n : Node} {t : Term} (hr : r.Follows p done) (h : Ready p roots order) (hnew : x ∉ done)
    (hn : p.graph.node? x = some n) (ht : p.graph.Denotes x t) :
    Run.Follows p (done ++ [x]) {
      env := ((p.outputLabels x).map Label.text).zip (List.replicate n.kind.ports t) ++ r.env
      loose := r.loose ++ (List.replicate n.kind.ports t).drop (p.outputLabels x).length } where
  labels := by
    intro y hy
    rcases List.mem_append.mp hy with hy | hy
    · -- labels of different heads have different texts
      obtain ⟨u, hu, hlabels⟩ := hr.labels y hy
      refine ⟨u, hu, fun l hl => ?_⟩
      rw [List.lookup_append, lookup_zip_eq_none _ fun hin => ?_]
      · exact hlabels l hl
      · obtain ⟨l', hl', htext⟩ := List.mem_map.mp hin
        have hsame := eq_of_text_eq (Plan.isInput_of_mem_outputLabels hl') htext
        rw [hsame] at hl'
        exact hnew (Plan.eq_of_mem_outputLabels hl' hl ▸ hy)
    · rw [List.mem_singleton.mp hy]
      refine ⟨t, ht, fun l hl => ?_⟩
      have hlen := h.outputLabels_length_le hn
      rw [List.lookup_append, lookup_zip_replicate t (by rw [List.length_map]; exact hlen)
        (List.mem_map_of_mem hl)]
      rfl
  loose := by
    rw [List.filter_append, List.drop_replicate]
    refine List.rel_append hr.loose ?_
    rcases h.outputLabels_cases hn with ⟨hne, hlen, _⟩ | ⟨hnil, hports, _⟩
    · rw [List.filter_cons_of_neg (by simpa using hne), hlen, Nat.sub_self]
      exact .nil
    · rw [List.filter_cons_of_pos (by simp [hnil]), hnil, hports]
      exact .cons ht .nil

variable {g : Graph} {ms : List Mapping} {roots : List NodeId}

/-- A split has all its ports read, so it has several uses and joins no chain. -/
theorem Passage.ports_joined (s : Passage g ms roots) (hfree : g.SplitFree) {y : NodeId} {m : Node}
    (hj : s.plan.Joined s.order y) (hm : s.numbered.node? y = some m) : m.kind.ports = 1 := by
  cases hk : m.kind with
  | split fanOut =>
    have hkind : s.numbered.kind? y = some (.split fanOut) := by rw [kind?_of_node? hm, hk]
    obtain ⟨i, d, hd, rfl⟩ :=
      s.splits.split_new (s.selectors.splitFree hfree) (kind?_split_numbered s.same hkind)
    obtain ⟨t, _, ha⟩ := hj
    obtain ⟨_, _, _, _, huses⟩ := Plan.above?_eq_some.mp ha
    have hlen := (s.readOnce_new hd hkind).length_eq
    rw [List.length_append, List.length_map, Plan.length_portOf?, List.length_range,
      ← s.ready.surveys.count_eq_length] at hlen
    have hshape := (s.ready.wellFormed _ _ hm).shape
    rw [hk] at hshape
    have hfan := hshape.1
    rw [Plan.uses] at huses
    omega
  | _ => rfl

namespace Passage.Yields

variable {s : Passage g ms roots} {heads done : List NodeId} {p : Program} {r : Run}

/-- What a slot reads can be looked up once its operation has been run. -/
theorem exists_resolved (h : s.Yields heads p) (hr : r.Follows s.plan done) {head : NodeId}
    (hhead : head ∈ heads) {e : Edge} (he : e ∈ s.plan.slots head)
    (hdone : s.numbered.isOperation e.node = true → e.node ∈ done) {l : Label}
    (hl : s.plan.label e = .ok l) :
    ∃ t, s.numbered.Denotes e.node t ∧ p.resolve r.env l = .ok t := by
  rcases h.slot_cases hhead he hl with ⟨hop, rfl⟩ | ⟨stream, source, position, hn, hi, rfl⟩
  · obtain ⟨t, ht, hlabels⟩ := hr.labels _ (hdone hop)
    have hmem := h.opLabel_mem (mem_edges_of_slot hhead he hop)
    exact ⟨t, ht, resolve_of_lookup (s.plan.isInput_opLabel e) (hlabels _ hmem)⟩
  · exact ⟨_, .stream hn, resolve_input hi r.env stream⟩

/-- **One statement**, after those of the heads before it. -/
theorem exists_step (h : s.Yields heads p) (hfree : g.SplitFree) {head : NodeId}
    {rest : List NodeId} {st : Statement} (hheads : heads = done ++ head :: rest)
    (hw : s.plan.Writes head st) (hr : r.Follows s.plan done) :
    ∃ r', st.run p r = .ok r' ∧ r'.Follows s.plan (done ++ [head]) := by
  have hmem : head ∈ heads := by rw [hheads]; simp
  have hhead := (h.schedules.mem_iff head).mp hmem
  have hget : heads[done.length]? = some head := by rw [hheads]; simp
  have hnew : head ∉ done := by
    have hnd := h.schedules.once
    rw [hheads] at hnd
    exact fun hin => (List.nodup_append.mp hnd).2.2 head hin head List.mem_cons_self rfl
  -- producers stand first, so what the statement reads has been run
  have hbefore : ∀ e ∈ s.plan.slots head, s.numbered.isOperation e.node = true → e.node ∈ done := by
    intro e he hop
    obtain ⟨j, hlt, hj⟩ := h.schedules.before s.ready hget he hop
    rw [hheads, List.getElem?_append_left hlt] at hj
    exact List.mem_of_getElem? hj
  obtain ⟨ts, hdenote, hresolve⟩ := forall₂_exists_common (Plan.labels_eq_ok.mp hw.inputs)
    fun e he l hl => h.exists_resolved hr hmem he (hbefore e he) hl
  obtain ⟨n, hn, hop⟩ := node?_of_isOperation hhead.2.1
  obtain ⟨t, ht, hrun⟩ := s.ready.exists_chain_run (fun y m => s.ports_joined hfree)
    hhead.1 hn hop hdenote
  have hlen := s.ready.outputLabels_length_le hn
  refine ⟨_, except_bind_eq_ok.mpr ⟨ts, mapM_eq_ok.mpr hresolve, except_bind_eq_ok.mpr
    ⟨_, by rw [hw.stages]; exact hrun, if_neg ?_⟩⟩, ?_⟩
  · rw [List.length_replicate, hw.outputs]
    exact Nat.not_lt.mpr hlen
  · rw [hw.outputs]
    exact hr.snoc s.ready hnew hn ht

/-- **All statements**, from the start. -/
theorem exists_run (h : s.Yields heads p) (hfree : g.SplitFree) :
    ∃ r, p.statements.foldlM (Statement.run p) {} = .ok r ∧ r.Follows s.plan heads := by
  -- from any point on, with the heads passed so far
  have hall : ∀ (todo : List NodeId) (sts : List Statement) (done : List NodeId) (r : Run),
      List.Forall₂ s.plan.Writes todo sts → heads = done ++ todo → r.Follows s.plan done →
      ∃ r', sts.foldlM (Statement.run p) r = .ok r' ∧ r'.Follows s.plan heads := by
    intro todo sts done r hwritten
    induction hwritten generalizing done r with
    | nil =>
      intro hheads hr
      rw [List.append_nil] at hheads
      exact ⟨r, rfl, hheads ▸ hr⟩
    | cons hw _ ih =>
      intro hheads hr
      obtain ⟨r₁, hstep, hr₁⟩ := h.exists_step hfree hheads hw hr
      obtain ⟨r', hrun, hr'⟩ := ih (done ++ [_]) r₁ (by rw [hheads]; simp) hr₁
      exact ⟨r', except_bind_eq_ok.mpr ⟨r₁, hstep, hrun⟩, hr'⟩
  exact hall heads p.statements [] {} h.schedules.written rfl ⟨by simp, .nil⟩

end Passage.Yields

/-! ## What goes to the output -/

/-- An operation among the roots that nothing reads and no mapping names. -/
structure LooseEnd (g : Graph) (roots : List NodeId) (ms : List Mapping) (x : NodeId) : Prop where
  root : x ∈ roots
  operation : g.isOperation x = true
  unread : ∀ c, g.Reached roots c → ¬ g.Reads c x
  unmapped : ∀ m ∈ ms, m.reads x = false

/-- The term that a mapping sends to the output. -/
def Graph.Sends (g : Graph) : Mapping → Term → Prop
  | .stream source stream, t => t = .file source stream
  | .output e, t => g.TermOf e.node t

namespace Passage

/-- A node at the end of a passage that has no uses, and is no split, is a loose end. -/
theorem looseEnd (s : Passage g ms roots) {x : NodeId} (hx : x ∈ s.order)
    (hop : s.numbered.isOperation x = true)
    (hsplit : ∀ fanOut, s.numbered.kind? x ≠ some (.split fanOut)) (huses : s.plan.uses x = 0) :
    x.index < g.size ∧ LooseEnd g roots ms x := by
  have huses : s.readers.count x + s.outlets.mappings.countP (·.reads x) = 0 := huses
  obtain ⟨n, hn, hnop⟩ := node?_of_isOperation hop
  have hn' : s.wired.node? x = some n := by
    refine s.same.symm.node?_eq hn ?_
    rw [← isSource_of_node? hn]
    exact isSource_eq_false_of_isOperation hop
  have hlt : x.index < g.size := by
    refine s.lt_of_kind? (kind?_of_node? hn') ?_ fun fanOut hk => ?_
    · intro stream hk
      exact absurd hnop (by simp [hk, Kind.isOperation])
    · exact hsplit fanOut (by rw [kind?_of_node? hn, hk])
  have hroot : x ∈ s.outlets.roots := by
    refine (s.surveys.root_or_reader hx).resolve_right fun hreader => ?_
    have hpos := s.surveys.count_pos_iff.mpr hreader
    omega
  -- no split took the place of this root, so it was a root before
  have hend := s.splits.root_origin x hroot
  rw [Rerouted.origin_old _ (s.lt_selected hlt)] at hend
  obtain ⟨hroots, hunread⟩ := ((final_of_finalRoots s.final_eq).mem_iff x).mp hend
  refine ⟨hlt, hroots, ?_, hunread, fun m hm => ?_⟩
  · rw [isOperation, ← s.kind?_old hlt, kind?_of_node? hn']
    exact hnop
  · by_contra hreads
    rw [Bool.not_eq_false] at hreads
    obtain ⟨m', hm', hmoved⟩ := forall₂_exists_right s.splits.outlets.mappings hm
    rcases hmoved with ⟨i, d, port, hd, hnode, _⟩ | ⟨_, rfl⟩
    · -- the split that the mapping reads instead would be a use of `x`
      cases m with
      | stream source stream => exact absurd hreads (by simp [Mapping.reads])
      | output e =>
        have hsame : d.node = x := (reads_output.mp hnode).symm.trans (reads_output.mp hreads)
        have hone := s.splits.count_of_split s.surveys hd
        rw [hsame] at hone
        omega
    · have hpos : 0 < s.outlets.mappings.countP (·.reads x) :=
        List.countP_pos_iff.mpr ⟨m', hm', hreads⟩
      omega

/-- Loose ends have no uses after the passes either. -/
theorem uses_of_looseEnd (s : Passage g ms roots) (hfree : g.SplitFree) {x : NodeId}
    (h : LooseEnd g roots ms x) :
    x ∈ s.outlets.roots ∧ s.numbered.isOperation x = true ∧
      (∀ fanOut, s.numbered.kind? x ≠ some (.split fanOut)) ∧ s.plan.uses x = 0 := by
  obtain ⟨n, hn, hnop⟩ := node?_of_isOperation h.operation
  have hkind : s.wired.kind? x = some n.kind := by
    rw [s.kind?_old (index_lt_of_node? hn), kind?_of_node? hn]
  have hend := ((final_of_finalRoots s.final_eq).mem_iff x).mpr ⟨h.root, h.unread⟩
  have hmapped : ms.countP (·.reads x) = 0 :=
    List.countP_eq_zero.mpr fun m hm => by rw [h.unmapped m hm]; simp
  have hleft : LeftAlone s.selected s.order₁ ⟨s.ends, ms⟩ s.wired s.outlets x := by
    refine s.splits.leftAlone (s.selectors.splitFree hfree) (s.splittable.root_mem hend) ?_
    have hunread : s.r₁.count x = 0 := s.splittable.unread x hend
    rw [s.splits.usesOf_eq, hunread, Nat.zero_add]
    exact lt_of_eq_of_lt hmapped Nat.zero_lt_two
  have hroot : x ∈ s.outlets.roots := by
    obtain ⟨i, hi⟩ := List.mem_iff_getElem?.mp hend
    exact List.mem_of_getElem? (hleft.roots i hi)
  refine ⟨hroot, ?_, fun fanOut hk => ?_, ?_⟩
  · rw [s.same.isOperation, isOperation, hkind]
    exact hnop
  · have hk := kind?_split_numbered s.same hk
    rw [s.kind?_old (index_lt_of_node? hn)] at hk
    exact hfree x fanOut hk
  · have hcount : s.readers.count x = 0 := s.splits.roots_unread s.surveys x hroot
    have hmaps : s.outlets.mappings.countP (·.reads x) = 0 := by
      refine List.countP_eq_zero.mpr fun m hm hreads => ?_
      obtain ⟨i, hi⟩ := List.mem_iff_getElem?.mp hm
      have hmem := List.mem_of_getElem? ((hleft.mappings i m hreads).mp hi)
      rw [h.unmapped m hmem] at hreads
      exact absurd hreads (by simp)
    show s.readers.count x + s.outlets.mappings.countP (·.reads x) = 0
    rw [hcount, hmaps]

/-- What a mapping reads in the end leads back to what it named. -/
theorem origin_mapped (s : Passage g ms roots) {e e' : Edge} (he : .output e ∈ ms)
    (h : MappingMoved s.selected.size (splitDetours s.selected s.r₁ ⟨s.ends, ms⟩)
      (.output e) (.output e')) : s.origin e'.node = e.node := by
  obtain ⟨n, hn, _⟩ := s.mapped_node he
  rcases h with ⟨i, d, port, hd, hreads, hnew⟩ | ⟨_, hsame⟩
  · rw [Mapping.output.injEq] at hnew
    rw [hnew, origin, Rerouted.origin_new hd, ← reads_output.mp hreads,
      Rerouted.origin_old _ (index_lt_of_node? hn)]
  · rw [Mapping.output.injEq] at hsame
    rw [hsame, s.origin_old (index_lt_of_node? hn)]

end Passage

namespace Passage.Yields

variable {s : Passage g ms roots} {heads : List NodeId} {p : Program} {r : Run}

/-- **What is left without a label are the loose ends.** -/
theorem loose_iff (h : s.Yields heads p) (hfree : g.SplitFree) {x : NodeId} :
    x ∈ heads.filter (fun x => (s.plan.outputLabels x).isEmpty) ↔ LooseEnd g roots ms x := by
  rw [List.mem_filter, h.schedules.mem_iff, List.isEmpty_iff]
  constructor
  · rintro ⟨hhead, hnil⟩
    obtain ⟨n, hn, hop⟩ := node?_of_isOperation hhead.2.1
    rcases s.ready.outputLabels_cases hn with ⟨hne, _⟩ | ⟨_, _, huses, hsplit⟩
    · exact absurd hnil hne
    · refine (s.looseEnd hhead.1 hhead.2.1 (fun fanOut hk => ?_) huses).2
      have hkind := (kind?_of_node? hn).symm.trans hk
      rw [Option.some.injEq] at hkind
      exact hsplit fanOut hkind
  · intro hloose
    obtain ⟨hroot, hop, hsplit, huses⟩ := s.uses_of_looseEnd hfree hloose
    refine ⟨⟨(s.surveys.mem_iff x).mpr (.root hroot), hop, fun hj => ?_⟩, ?_⟩
    · exact (s.ready.joined_unused hj).1 hroot
    · obtain ⟨n, hn, _⟩ := node?_of_isOperation hop
      rcases s.ready.outputLabels_cases hn with ⟨_, _, hused | ⟨fanOut, hk⟩⟩ | ⟨hnil, _⟩
      · exact absurd huses (Nat.ne_of_gt hused)
      · exact absurd (by rw [kind?_of_node? hn, hk]) (hsplit fanOut)
      · exact hnil

/-- What a mapping names can be looked up, and it is what the graph means there. -/
theorem exists_sent (h : s.Yields heads p) (hr : r.Follows s.plan heads) {m m' : Mapping}
    {l : Label} (hm : m ∈ ms) (hm' : m' ∈ s.outlets.mappings)
    (hmoved : MappingMoved s.selected.size (splitDetours s.selected s.r₁ ⟨s.ends, ms⟩) m m')
    (hl : m'.target s.numbered = .ok l) : ∃ t, g.Sends m t ∧ p.resolve r.env l = .ok t := by
  -- passes move a mapping from a node to its split, never to a stream
  cases m' with
  | stream x stream =>
    have hsame : m = .stream x stream := by
      rcases hmoved with ⟨_, _, _, _, _, hnew⟩ | ⟨_, hsame⟩
      · exact absurd hnew (by simp)
      · exact hsame.symm
    subst hsame
    obtain ⟨position, hi, rfl⟩ := h.target_stream hm' hl
    exact ⟨_, rfl, resolve_input hi r.env stream⟩
  | output e' =>
    obtain ⟨_, hop⟩ := s.mapped_operation hm'
    have hl := (target_output (p := s.plan) hop).symm.trans hl
    rw [Except.ok.injEq] at hl
    subst hl
    have hedge : e' ∈ s.plan.edges heads := mem_edges_of_mapping hm'
    have hhead := (h.schedules.mem_iff e'.node).mpr (h.isHead_of_mem_edges hedge)
    obtain ⟨t, ht, hlabels⟩ := hr.labels _ hhead
    have hresolve := resolve_of_lookup (p := p) (s.plan.isInput_opLabel e')
      (hlabels _ (h.opLabel_mem hedge))
    have hterm := s.termOf_origin ht
    cases m with
    | stream x stream =>
      rcases hmoved with ⟨_, _, _, _, hreads, _⟩ | ⟨_, hsame⟩
      · exact absurd hreads (by simp [Mapping.reads])
      · exact absurd hsame (by simp)
    | output e =>
      rw [s.origin_mapped hm hmoved] at hterm
      exact ⟨t, hterm, hresolve⟩

end Passage.Yields

/-- The program puts out what the graph means: the terms of its loose ends, one each, and
those that the mappings name, in their order. -/
def Program.Realizes (p : Program) (g : Graph) (roots : List NodeId) (ms : List Mapping) : Prop :=
  ∃ (results : Results) (ends : List NodeId), p.results = .ok results ∧
    ends.Nodup ∧ (∀ x, x ∈ ends ↔ LooseEnd g roots ms x) ∧
    List.Forall₂ g.TermOf ends results.unlabelled ∧ List.Forall₂ g.Sends ms results.mapped

/-- **The program of a passage puts out what the graph means.** -/
theorem Passage.Yields.realizes {s : Passage g ms roots} {heads : List NodeId} {p : Program}
    (h : s.Yields heads p) (hfree : g.SplitFree) : p.Realizes g roots ms := by
  obtain ⟨r, hrun, hr⟩ := h.exists_run hfree
  obtain ⟨ts, hsent, hresolve⟩ : ∃ ts, List.Forall₂ g.Sends ms ts ∧
      List.Forall₂ (fun l t => p.resolve r.env l = .ok t) p.targets ts := by
    have htargets := (List.forall₂_and_left _ _).mpr ⟨fun _ hm' => hm', h.targets⟩
    -- a mapping, what it reads after the passes, and the label of that
    have hlabels : List.Forall₂ (fun m l => ∃ m' ∈ s.outlets.mappings,
        MappingMoved s.selected.size (splitDetours s.selected s.r₁ ⟨s.ends, ms⟩) m m' ∧
        m'.target s.numbered = .ok l) ms p.targets :=
      forall₂_trans (fun m m' l hmoved hl => ⟨m', hl.1, hmoved, hl.2⟩)
        s.splits.outlets.mappings htargets
    refine forall₂_exists_common hlabels fun m hm l hl => ?_
    obtain ⟨m', hm', hmoved, hl⟩ := hl
    exact h.exists_sent hr hm hm' hmoved hl
  refine ⟨⟨r.loose, ts⟩, _, ?_, h.schedules.once.filter _, fun x => h.loose_iff hfree, ?_, hsent⟩
  · exact except_bind_eq_ok.mpr ⟨r, hrun, except_bind_eq_ok.mpr ⟨ts, mapM_eq_ok.mpr hresolve, rfl⟩⟩
  · have hloose := (List.forall₂_and_left _ _).mpr ⟨fun x hx => (h.loose_iff hfree).mp hx, hr.loose⟩
    refine hloose.imp fun x t hx => ?_
    obtain ⟨n, hn, _⟩ := node?_of_isOperation hx.1.operation
    have hterm := s.termOf_origin hx.2
    rw [s.origin_old (index_lt_of_node? hn)] at hterm
    exact hterm

/-- **Compilation preserves meaning.** If a graph that calls have built compiles, its program
can be run, and what it puts out is what the graph meant before: the term of each loose end,
and the terms of the mapped nodes and streams. The command opens the files of the program, each
as the graph has it, in their order. -/
theorem compile_preserves_meaning {job : Job} {cmd : Command} {g' : Graph} (hg : Built g)
    (h : job.compile roots g = .ok cmd g') :
    ∃ (p : Program) (files : List Source), job.program roots g = .ok p g' ∧
      List.Forall₂ (fun x f => g.source? x = some f) p.sources files ∧
      cmd.args = files.flatMap Source.flags ++ filterArgs p.statements ++ mappingArgs p.targets
        ++ job.options ++ [job.destination] ∧
      p.Realizes g roots job.mappings := by
  obtain ⟨p, hp, hargs⟩ := exists_program h
  obtain ⟨s, heads, rfl, hs⟩ := exists_yields hg.reachable.wellFormed hp
  obtain ⟨files, hfiles, hopened⟩ := s.exists_files
  refine ⟨p, files, hp, hs.sources ▸ hfiles, ?_, hs.realizes hg.splitFree⟩
  rw [hargs, Program.args, hs.sources, hopened]

/-- A filter with three readers and a mapping, below a merge that is a loose end. -/
theorem compile_preserves_meaning_interleaved :
    ∃ cmd g', Job.compile { destination := "out.mp4", mappings := [.output ⟨⟨1⟩, 0⟩] } [⟨3⟩]
        interleaved = .ok cmd g' ∧
      ∃ (p : Program) (files : List Source),
        Job.program { destination := "out.mp4", mappings := [.output ⟨⟨1⟩, 0⟩] } [⟨3⟩]
          interleaved = .ok p g' ∧
        List.Forall₂ (fun x f => interleaved.source? x = some f) p.sources files ∧
        cmd.args = files.flatMap Source.flags ++ filterArgs p.statements
          ++ mappingArgs p.targets ++ [] ++ ["out.mp4"] ∧
        p.Realizes interleaved [⟨3⟩] [.output ⟨⟨1⟩, 0⟩] := by
  obtain ⟨cmd, g', h⟩ := Change.exists_of_succeeds (x := Job.compile
    { destination := "out.mp4", mappings := [.output ⟨⟨1⟩, 0⟩] } [⟨3⟩]) (s := interleaved)
    (by decide +kernel)
  exact ⟨cmd, g', h, compile_preserves_meaning built_interleaved h⟩

end Filtergraph
