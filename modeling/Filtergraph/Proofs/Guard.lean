import Filtergraph.Proofs.Outcome

/-!
# The check of the splits

A program is written only if the ports of the splits that end a statement are read once each.
Here we say what the check can and cannot find.

It cannot find a read of a port that is not there. Slots are well formed in every graph that can
come about, and a mapping reads a split only if it was pointed at a port of it.

It can find a port that is not read, or read twice: splits stay in the graph, and a later
compilation may have other roots. The splits of the compilation itself are always in order.

The check does not see all splits. A split that is left with a single use, by the only slot of
a reached node, joins the chain of that node and ends no statement. Its ports have no labels
then, and the compilation goes on. Every other split is seen.
-/

namespace Filtergraph

open Filtergraph.Graph

/-- The only use of `x` is the only slot of a listed node. -/
def Graph.JoinsReader (g : Graph) (order : List NodeId) (ms : List Mapping) (x : NodeId) : Prop :=
  usesOf g order ms x = 1 ∧ ∃ c ∈ order, ∃ e, g.inputs c = [e] ∧ e.node = x

/-- A split that joins no reader and whose ports are not read once each. -/
structure Graph.Uneven (g : Graph) (order : List NodeId) (ms : List Mapping) (x : NodeId)
    (fanOut : Nat) : Prop where
  mem : x ∈ order
  kind : g.kind? x = some (.split fanOut)
  apart : ¬ g.JoinsReader order ms x
  uneven : ¬ ∀ port < fanOut, (g.portsRead order ms x).count port = 1

/-- The split ends a statement that defines a label for each of its ports, and each of these
labels is read once, by the statements and the mappings together. -/
structure Program.Guards (p : Program) (x : NodeId) (fanOut : Nat) : Prop where
  statement : ∃ st ∈ p.statements, st.stages.getLast? = some (.split fanOut) ∧
    st.outputs = (List.range fanOut).map (.port x)
  read : ∀ port < fanOut, p.reads.count (.port x port) = 1

instance (p : Program) (x : NodeId) (fanOut : Nat) : Decidable (p.Guards x fanOut) :=
  decidable_of_iff ((∃ st ∈ p.statements, st.stages.getLast? = some (.split fanOut) ∧
      st.outputs = (List.range fanOut).map (.port x)) ∧
    ∀ port < fanOut, p.reads.count (.port x port) = 1)
    ⟨fun h => ⟨h.1, h.2⟩, fun h => ⟨h.statement, h.read⟩⟩

namespace Passage

variable {g : Graph} {ms : List Mapping} {roots : List NodeId} {x : NodeId} {fanOut : Nat}

/-! ## Ports that are there -/

/-- A mapping that reads a split was pointed at it by the compilation. -/
theorem split_new_of_mapping (s : Passage g ms roots)
    (hk : s.wired.kind? x = some (.split fanOut)) {port : Nat}
    (hm : .output ⟨x, port⟩ ∈ s.outlets.mappings) :
    ∃ i d, (splitDetours s.selected s.r₁ ⟨s.ends, ms⟩)[i]? = some d ∧
      x = ⟨s.selected.size + i⟩ := by
  obtain ⟨m, hmem, hmoved⟩ := forall₂_exists_left s.splits.outlets.mappings hm
  rcases hmoved with ⟨i, d, _, hd, _, hnew⟩ | ⟨_, hsame⟩
  · rw [Mapping.output.injEq, Edge.mk.injEq] at hnew
    exact ⟨i, d, hd, hnew.1⟩
  · -- the mappings that are given name filters and merges
    obtain ⟨n, hn, hkind⟩ := s.mapped_node (e := ⟨x, port⟩) (hsame ▸ hmem)
    rw [s.kind?_old (index_lt_of_node? hn), kind?_of_node? hn, Option.some.injEq] at hk
    rw [hk] at hkind
    exact absurd hkind (by simp [Kind.isFilterOrMerge])

/-- **Ports that are read are there.** -/
theorem lt_of_mem_portsRead (s : Passage g ms roots)
    (hk : s.numbered.kind? x = some (.split fanOut)) {port : Nat}
    (hport : port ∈ s.numbered.portsRead s.order s.outlets.mappings x) : port < fanOut := by
  rcases List.mem_append.mp hport with hslot | hmapped
  · -- a slot
    obtain ⟨e, he, rfl⟩ := List.mem_map.mp hslot
    obtain ⟨c, _, hmem⟩ := List.mem_flatMap.mp he
    obtain ⟨hmem, hnode⟩ := List.mem_filter.mp hmem
    obtain ⟨m, hm, hin⟩ := node?_of_mem_inputs hmem
    obtain ⟨n, hn, hlt⟩ := (s.ready.wellFormed c m hm).ports e hin
    have hnode : e.node = x := by simpa using hnode
    have hkind : s.numbered.kind? x = some n.kind := by rw [← hnode]; exact kind?_of_node? hn
    rw [hk, Option.some.injEq] at hkind
    rwa [← hkind] at hlt
  · -- a mapping
    obtain ⟨m, hm, hread⟩ := List.mem_filterMap.mp hmapped
    cases m with
    | stream y stream => exact absurd hread (by simp [Mapping.portOf?])
    | output e =>
      rw [Mapping.portOf?, Option.ite_none_right_eq_some] at hread
      have he : e = ⟨x, e.port⟩ := by rw [← hread.1]
      obtain ⟨i, d, hd, rfl⟩ :=
        s.split_new_of_mapping (kind?_split_numbered s.same hk) (he ▸ hm)
      exact List.mem_range.mp ((s.readOnce_new hd hk).mem_iff.mp hport)

/-- **What is left to go wrong at the end of a passage.** -/
theorem statements_error (s : Passage g ms roots) {e : GraphError}
    (h : s.plan.statements s.outlets.roots = .error e) :
    ∃ x fanOut, s.plan.IsHead s.order x ∧ s.numbered.kind? x = some (.split fanOut) ∧
      ¬ s.plan.ReadOnce s.order x fanOut ∧ e = .unevenReads x
        ((List.range fanOut).map (s.numbered.portsRead s.order s.outlets.mappings x).count) := by
  obtain ⟨x, fanOut, hx, hk, hcase⟩ := Plan.statements_error s.ready h
  rcases hcase with ⟨port, hport, hge, _⟩ | ⟨honce, he⟩
  · have hlt := s.lt_of_mem_portsRead hk hport
    omega
  · exact ⟨x, fanOut, hx, hk, honce, he⟩

theorem program_error (s : Passage g ms roots) (job : Job) (hjob : job.mappings = ms)
    {e : GraphError} {g' : Graph} (h : job.program roots g = .error e g') :
    s.plan.statements s.outlets.roots = .error e := by
  obtain ⟨targets, htargets⟩ := s.exists_targets
  rw [s.program_eq job hjob, htargets] at h
  cases hstatements : s.plan.statements s.outlets.roots with
  | ok statements =>
    rw [hstatements] at h
    exact absurd h (by simp)
  | error e' =>
    rw [hstatements] at h
    injection h with he
    rw [he]

end Passage

/-- **Ports always exist.** Whatever was done with a graph, all its nodes have slots that are
right for their roles, and no compilation finds a read of a port that is not there. -/
theorem ports_always_exist {g : Graph} (hg : Reachable g) : g.WellFormed ∧
    ∀ (job : Job) (roots : List NodeId) (split : NodeId) (port : Nat) (g' : Graph),
      job.compile roots g ≠ .error (.noSuchPort split port) g' := by
  refine ⟨hg.wellFormed, fun job roots split port g' h => ?_⟩
  rw [compile_eq_error] at h
  cases hwire : job.wire roots g with
  | error e w =>
    rw [program_error_of_wire hwire] at h
    injection h with he
    have hrefused := wire_refused hg.wellFormed hwire
    rw [he] at hrefused
    -- the reasons to refuse a compilation have errors of their own
    cases hrefused
  | ok o w =>
    obtain ⟨s, _, _⟩ := exists_passage_of_wire hg.wellFormed hwire
    obtain ⟨x, fanOut, _, _, _, he⟩ := s.statements_error (s.program_error job rfl h)
    exact absurd he (by simp)

/-- The merge of a compiled graph is pointed at the split of the compilation, which it then
reads twice at the same port. -/
theorem ports_always_exist_rewired :
    ((Call.setInputs ⟨3⟩ [⟨5⟩, ⟨2⟩, ⟨5⟩]).after interleavedOnce).inputs ⟨3⟩
        = [⟨⟨5⟩, 0⟩, ⟨⟨2⟩, 0⟩, ⟨⟨5⟩, 0⟩] ∧
      ((Call.setInputs ⟨3⟩ [⟨5⟩, ⟨2⟩, ⟨5⟩]).after interleavedOnce).WellFormed ∧
      ∀ split port g', Job.compile { destination := "out.mp4" } [⟨3⟩]
          ((Call.setInputs ⟨3⟩ [⟨5⟩, ⟨2⟩, ⟨5⟩]).after interleavedOnce)
        ≠ .error (.noSuchPort split port) g' := by
  have hports := ports_always_exist
    (.call reachable_interleavedOnce (.setInputs ⟨3⟩ [⟨5⟩, ⟨2⟩, ⟨5⟩]))
  exact ⟨by decide +kernel, hports.1, hports.2 _ _⟩

/-! ## Splits that end a statement -/

namespace Passage

variable {g : Graph} {ms : List Mapping} {roots : List NodeId} {x : NodeId} {fanOut : Nat}

theorem portsRead_numbered (s : Passage g ms roots) (x : NodeId) :
    s.numbered.portsRead s.order s.outlets.mappings x
      = s.wired.portsRead s.order s.outlets.mappings x := by
  unfold portsRead slotsReading
  simp only [s.same.inputs]

/-- **The check sees all splits but those that join a reader.** -/
theorem isHead_iff (s : Passage g ms roots) (hx : x ∈ s.order)
    (hk : s.wired.kind? x = some (.split fanOut)) :
    s.plan.IsHead s.order x ↔ ¬ s.wired.JoinsReader s.order s.outlets.mappings x := by
  have hop : s.numbered.isOperation x = true := by
    rw [s.same.isOperation, isOperation, hk]
    rfl
  have huses : s.plan.uses x = usesOf s.wired s.order s.outlets.mappings x := by
    rw [usesOf, ← s.surveys.count_eq_length]
    rfl
  constructor
  · rintro ⟨_, _, hapart⟩ ⟨hone, t, ht, e, he, hnode⟩
    exact hapart ⟨t, ht, Plan.above?_eq_some.mpr
      ⟨e, (s.same.inputs t).trans he, hnode, hop, huses.trans hone⟩⟩
  · intro hapart
    refine ⟨hx, hop, ?_⟩
    rintro ⟨t, ht, habove⟩
    obtain ⟨e, he, hnode, _, hone⟩ := Plan.above?_eq_some.mp habove
    exact hapart ⟨huses.symm.trans hone, t, ht, e, (s.same.inputs t).symm.trans he, hnode⟩

theorem readOnce_iff (s : Passage g ms roots) (hk : s.numbered.kind? x = some (.split fanOut)) :
    s.plan.ReadOnce s.order x fanOut ↔
      ∀ port < fanOut, (s.wired.portsRead s.order s.outlets.mappings x).count port = 1 := by
  rw [← s.portsRead_numbered]
  exact perm_range_iff.trans
    (and_iff_right fun port hport => s.lt_of_mem_portsRead hk hport)

section Yields

variable {s : Passage g ms roots} {heads : List NodeId} {p : Program}

/-- A head that is a split comes last in its statement, which defines all its ports. -/
theorem Yields.exists_statement (h : s.Yields heads p) (hx : x ∈ heads)
    (hk : s.plan.graph.kind? x = some (.split fanOut)) :
    ∃ st ∈ p.statements, st.stages.getLast? = some (.split fanOut) ∧
      st.outputs = (List.range fanOut).map (.port x) := by
  obtain ⟨st, hst, hwrites⟩ := forall₂_exists_right h.schedules.written hx
  refine ⟨st, hst, ?_, ?_⟩
  · obtain ⟨n, hn, hkind⟩ := node?_of_kind? hk
    have hstage : n.stage? = some (.split fanOut) := by rw [Node.stage?, hkind]
    rw [hwrites.stages, Plan.chain, List.reverse_cons, List.filterMap_append,
      List.filterMap_cons_some hn, List.filterMap_nil, List.filterMap_append,
      List.filterMap_cons_some hstage, List.filterMap_nil, List.getLast?_concat]
  · rw [hwrites.outputs, Plan.outputLabels, hk]

/-- **A split is guarded unless it joins a reader.** -/
theorem Yields.guards_iff (h : s.Yields heads p) (hx : x ∈ s.order)
    (hk : s.wired.kind? x = some (.split fanOut)) :
    p.Guards x fanOut ↔ ¬ s.wired.JoinsReader s.order s.outlets.mappings x := by
  have hk' : s.numbered.kind? x = some (.split fanOut) := kind?_split_numbered s.same.symm hk
  rw [← s.isHead_iff hx hk, ← h.schedules.mem_iff]
  constructor
  · intro hguards
    obtain ⟨st, hst, _, houtputs⟩ := hguards.statement
    obtain ⟨head, hhead, hwrites⟩ := forall₂_exists_left h.schedules.written hst
    -- the statement defines the first port of the split, so it is the statement of the split
    obtain ⟨n, hn, hkind⟩ := node?_of_kind? hk'
    have hshape := (s.ready.wellFormed x n hn).shape
    rw [hkind] at hshape
    have hfirst : .port x 0 ∈ s.plan.outputLabels head := by
      rw [← hwrites.outputs, houtputs]
      exact List.mem_map_of_mem (List.mem_range.mpr (Nat.lt_of_lt_of_le Nat.zero_lt_two hshape.1))
    rcases Plan.node_of_mem_outputLabels hfirst with hl | ⟨k, hl⟩
    · exact absurd hl (by simp)
    · rw [Label.port.injEq] at hl
      exact hl.1 ▸ hhead
  · intro hhead
    obtain ⟨st, hst, hlast, houtputs⟩ := h.exists_statement hhead hk'
    refine ⟨⟨st, hst, hlast, houtputs⟩, fun port hport => ?_⟩
    have hdefined : .port x port ∈ p.defines := by
      refine List.mem_flatMap.mpr ⟨st, hst, ?_⟩
      rw [houtputs]
      exact List.mem_map_of_mem (List.mem_range.mpr hport)
    rw [h.perm_reads.count_eq]
    exact List.count_eq_one_of_mem h.nodup_defines hdefined

end Yields

/-- **Only a split that the check sees and that is not read evenly stops the writing.** -/
theorem uneven_of_statements (s : Passage g ms roots) {e : GraphError}
    (h : s.plan.statements s.outlets.roots = .error e) :
    ∃ x fanOut, s.wired.Uneven s.order s.outlets.mappings x fanOut ∧
      e = .unevenReads x ((List.range fanOut).map
        (s.wired.portsRead s.order s.outlets.mappings x).count) := by
  obtain ⟨x, fanOut, hhead, hk, honce, he⟩ := s.statements_error h
  have hk' := kind?_split_numbered s.same hk
  refine ⟨x, fanOut, ⟨hhead.1, hk', (s.isHead_iff hhead.1 hk').mp hhead, ?_⟩, ?_⟩
  · exact fun heven => honce ((s.readOnce_iff hk).mpr heven)
  · rw [he, s.portsRead_numbered]

/-- **A split that the check sees and that is not read evenly ends the compilation.** -/
theorem program_uneven (s : Passage g ms roots) (job : Job) (hjob : job.mappings = ms)
    (h : s.wired.Uneven s.order s.outlets.mappings x fanOut) :
    ∃ x fanOut, s.wired.Uneven s.order s.outlets.mappings x fanOut ∧
      job.program roots g = .error (.unevenReads x ((List.range fanOut).map
        (s.wired.portsRead s.order s.outlets.mappings x).count)) s.numbered := by
  have hk : s.numbered.kind? x = some (.split fanOut) := kind?_split_numbered s.same.symm h.kind
  cases hstatements : s.plan.statements s.outlets.roots with
  | ok statements =>
    -- all splits that are heads would be read once each
    obtain ⟨heads, _, hs, hiff⟩ := Plan.exists_schedule s.ready
    have hhead := (hs.mem_iff x).mpr ((s.isHead_iff h.mem h.kind).mpr h.apart)
    have honce := ((hiff statements).mp hstatements).2 x hhead fanOut hk
    exact absurd ((s.readOnce_iff hk).mp honce) h.uneven
  | error e =>
    obtain ⟨y, k, hy, rfl⟩ := s.uneven_of_statements hstatements
    exact ⟨y, k, hy, by rw [s.program_eq job hjob, hstatements]⟩

end Passage

/-- **The guard of splits.** In a program, every split is guarded but those that join a reader.
And if there is a split that joins no reader and is not read evenly, then there is no program:
the compilation ends with the error that names such a split and says how often its ports are
read. -/
theorem split_guard {g : Graph} (hg : Reachable g) (job : Job) (roots : List NodeId) :
    (∀ cmd g', job.compile roots g = .ok cmd g' →
      ∃ (o : Outlets) (w : Graph) (p : Program) (order : List NodeId),
        job.wire roots g = .ok o w ∧ w.Lists o.roots order ∧ job.program roots g = .ok p g' ∧
        cmd.args = p.args g' ++ job.options ++ [job.destination] ∧
        ∀ x ∈ order, ∀ fanOut, w.kind? x = some (.split fanOut) →
          (p.Guards x fanOut ↔ ¬ w.JoinsReader order o.mappings x)) ∧
    ∀ (o : Outlets) (w : Graph), job.wire roots g = .ok o w →
      ∃ order, w.Lists o.roots order ∧
        ((∃ x fanOut, w.Uneven order o.mappings x fanOut) →
          ∃ x fanOut g', w.Uneven order o.mappings x fanOut ∧
            job.compile roots g = .error (.unevenReads x
              ((List.range fanOut).map (w.portsRead order o.mappings x).count)) g') := by
  constructor
  · intro cmd g' h
    obtain ⟨p, hp, hargs⟩ := exists_program h
    obtain ⟨s, heads, _, hs⟩ := exists_yields hg.wellFormed hp
    exact ⟨s.outlets, s.wired, p, s.order, s.wire_eq job rfl,
      ⟨s.surveys.settled.nodup, s.surveys.mem_iff⟩, hp, hargs,
      fun x hx fanOut hk => hs.guards_iff hx hk⟩
  · intro o w hwired
    obtain ⟨s, rfl, rfl⟩ := exists_passage_of_wire hg.wellFormed hwired
    refine ⟨s.order, ⟨s.surveys.settled.nodup, s.surveys.mem_iff⟩, fun ⟨x, fanOut, h⟩ => ?_⟩
    obtain ⟨y, k, hy, herror⟩ := s.program_uneven job rfl h
    exact ⟨y, k, s.numbered, hy, compile_eq_error.mpr herror⟩

/-- When the graph is compiled again for the same root, its split is guarded. -/
theorem split_guard_again : ∃ (o : Outlets) (w g' : Graph) (p : Program) (order : List NodeId),
    Job.wire { destination := "out.mp4" } [⟨3⟩] interleavedOnce = .ok o w ∧
      w.Lists o.roots order ∧
      Job.program { destination := "out.mp4" } [⟨3⟩] interleavedOnce = .ok p g' ∧
      p.Guards ⟨5⟩ 3 ∧ ¬ w.JoinsReader order o.mappings ⟨5⟩ := by
  obtain ⟨o, w, hw, htest⟩ := Change.exists_of_yields
    (x := Job.wire { destination := "out.mp4" } [⟨3⟩]) (s := interleavedOnce)
    (q := fun o w => decide (o.roots = [⟨3⟩] ∧ w.inputs ⟨3⟩ = [⟨⟨5⟩, 0⟩, ⟨⟨2⟩, 0⟩, ⟨⟨5⟩, 2⟩] ∧
      w.kind? ⟨5⟩ = some (.split 3))) (by decide +kernel)
  obtain ⟨p, g', hp, hguards⟩ := Change.exists_of_yields
    (x := Job.program { destination := "out.mp4" } [⟨3⟩]) (s := interleavedOnce)
    (q := fun p _ => decide (p.Guards ⟨5⟩ 3)) (by decide +kernel)
  obtain ⟨hroots, hinputs, hkind⟩ := of_decide_eq_true htest
  have hguards := of_decide_eq_true hguards
  have hcompile : Job.compile { destination := "out.mp4" } [⟨3⟩] interleavedOnce
      = .ok ⟨p.args g' ++ [] ++ ["out.mp4"]⟩ g' := bind_of_eq_ok hp
  obtain ⟨o', w', p', order, hw', hlists, hp', _, hiff⟩ :=
    (split_guard reachable_interleavedOnce _ _).1 _ _ hcompile
  rw [hw] at hw'
  injection hw' with ho hw'
  subst ho hw'
  rw [hp] at hp'
  injection hp' with hp'
  subst hp'
  have hroot : w.Reached o.roots ⟨3⟩ := .root (by rw [hroots]; exact List.mem_cons_self)
  have hmem : (⟨5⟩ : NodeId) ∈ order :=
    (hlists.2 _).mpr (hroot.reads ⟨⟨⟨5⟩, 0⟩, by rw [hinputs]; exact List.mem_cons_self, rfl⟩)
  exact ⟨o, w, g', p, order, hw, hlists, hp, hguards, (hiff _ hmem 3 hkind).mp hguards⟩

/-- When the graph is compiled for the filter that reads one port of its split, the compilation
succeeds, and the split is not guarded. -/
theorem split_unguarded : Reachable interleavedOnce ∧
    ∃ (o : Outlets) (w g' : Graph) (cmd : Command) (p : Program),
      Job.wire { destination := "out.mp4" } [⟨2⟩] interleavedOnce = .ok o w ∧
      w.Reached o.roots ⟨5⟩ ∧ w.kind? ⟨5⟩ = some (.split 3) ∧
      Job.compile { destination := "out.mp4" } [⟨2⟩] interleavedOnce = .ok cmd g' ∧
      Job.program { destination := "out.mp4" } [⟨2⟩] interleavedOnce = .ok p g' ∧
      ¬ p.Guards ⟨5⟩ 3 := by
  obtain ⟨o, w, hw, htest⟩ := Change.exists_of_yields
    (x := Job.wire { destination := "out.mp4" } [⟨2⟩]) (s := interleavedOnce)
    (q := fun o w => decide (o.roots = [⟨2⟩] ∧ w.inputs ⟨2⟩ = [⟨⟨5⟩, 1⟩] ∧
      w.kind? ⟨5⟩ = some (.split 3))) (by decide +kernel)
  obtain ⟨p, g', hp, hguards⟩ := Change.exists_of_yields
    (x := Job.program { destination := "out.mp4" } [⟨2⟩]) (s := interleavedOnce)
    (q := fun p _ => decide (¬ p.Guards ⟨5⟩ 3)) (by decide +kernel)
  obtain ⟨hroots, hinputs, hkind⟩ := of_decide_eq_true htest
  have hroot : w.Reached o.roots ⟨2⟩ := .root (by rw [hroots]; exact List.mem_cons_self)
  have hsplit : w.Reached o.roots ⟨5⟩ :=
    hroot.reads ⟨⟨⟨5⟩, 1⟩, by rw [hinputs]; exact List.mem_cons_self, rfl⟩
  exact ⟨reachable_interleavedOnce, o, w, g', _, p, hw, hsplit, hkind, bind_of_eq_ok hp, hp,
    of_decide_eq_true hguards⟩

end Filtergraph
