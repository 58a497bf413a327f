import Filtergraph.Proofs.Detour

/-!
# Splits are detours

Every node with at least two uses gets one detour, over a split with a port for each use.
The readers of the node take the first ports, in the order in which the walk found them;
the mappings that name it take the others, in their own order. A root that gets a split is
replaced by it.

The pass works from the record of a walk that was made before it changed anything. That is
enough because a detour behind one node moves no slot that reads another.
-/

namespace Filtergraph

open Filtergraph.Graph

/-- Whether the node gets a split. -/
def isShared (g : Graph) (r : Readers) (o : Outlets) (x : NodeId) : Bool :=
  (g.kind? x).any Kind.isSplittable && 2 ≤ r.count x + o.mapped x

/-- The detour over a split: the readers take the ports in their order. -/
def splitDetour (r : Readers) (o : Outlets) (x : NodeId) : Detour :=
  ⟨x, .split (r.count x + o.mapped x), (r.of x).zipIdx⟩

/-- The detours that a graph with these outlets needs. -/
def splitDetours (g : Graph) (r : Readers) (o : Outlets) : List Detour :=
  ((r.producers ++ o.roots).filter (isShared g r o)).map (splitDetour r o)

/-! ## Taking ports -/

theorem takePorts_eq_ok {g g' : Graph} {id split : NodeId} {port : Nat} {consumers : List NodeId}
    (h : redirectAll id ((consumers.zipIdx port).map fun m => (m.1, ⟨split, m.2⟩)) g = some g') :
    takePorts id split port consumers g = .ok () g' := by
  induction consumers generalizing g port with
  | nil =>
    injection h with h
    subst h
    rfl
  | cons c consumers ih =>
    rw [List.zipIdx_cons, List.map_cons, redirectAll] at h
    obtain ⟨g₁, hg₁, h⟩ := Option.bind_eq_some_iff.mp h
    rw [takePorts_cons, hg₁]
    exact ih h

theorem filter_zipIdx_length (cs : List NodeId) (port : Nat) (c : NodeId) :
    ((cs.zipIdx port).filter (·.1 = c)).length = cs.count c := by
  induction cs generalizing port with
  | nil => rfl
  | cons d cs ih =>
    rw [List.zipIdx_cons]
    by_cases hd : d = c
    · subst hd
      rw [List.filter_cons_of_pos (by simp), List.length_cons, ih, List.count_cons_self]
    · rw [List.filter_cons_of_neg (by simpa using hd), ih, List.count_cons_of_ne hd]

/-- A consumer gets a port for each time it was recorded. -/
theorem splitDetour_ports_length (r : Readers) (o : Outlets) (x c : NodeId) :
    ((splitDetour r o x).ports c).length = (r.of x).count c := by
  unfold splitDetour Detour.ports
  rw [List.length_map, filter_zipIdx_length]

theorem reads_of_splitDetour {roots order : List NodeId} {g : Graph} {r : Readers} {o : Outlets}
    (hs : Surveys g roots r order) {x c : NodeId} (h : (splitDetour r o x).ports c ≠ []) :
    c ∈ order ∧ g.Reads c x := by
  refine hs.of_subset (List.count_pos_iff.mp ?_)
  rw [← splitDetour_ports_length r o]
  exact List.length_pos_of_ne_nil h

/-- Media files are not split. -/
theorem isSource_of_isShared {g : Graph} {r : Readers} {o : Outlets} {x : NodeId}
    (h : isShared g r o x = true) : g.isSource x = false := by
  rw [isShared, Bool.and_eq_true] at h
  obtain ⟨n, hn, hkind⟩ := node?_of_any h.1
  rw [isSource_of_node? hn]
  -- media files are not splittable
  cases hk : n.kind with
  | source s => exact absurd hkind (by simp [hk, Kind.isSplittable])
  | _ => rfl

/-! ## Outlets after detours -/

/-- A root is replaced by the new node behind it, if there is one. -/
def RootMoved (size : Nat) (ds : List Detour) (root root' : NodeId) : Prop :=
  (∃ i d, ds[i]? = some d ∧ d.node = root ∧ root' = ⟨size + i⟩) ∨
  ((∀ d ∈ ds, d.node ≠ root) ∧ root' = root)

/-- A mapping reads the new node behind the one it names, if there is one. -/
def MappingMoved (size : Nat) (ds : List Detour) (m m' : Mapping) : Prop :=
  (∃ i d p, ds[i]? = some d ∧ m.reads d.node = true ∧ m' = .output ⟨⟨size + i⟩, p⟩) ∨
  ((∀ d ∈ ds, m.reads d.node = false) ∧ m' = m)

/-- The port of a node that a mapping reads. -/
def Mapping.portOf? (node : NodeId) : Mapping → Option Nat
  | .stream _ _ => none
  | .output e => if e.node = node then some e.port else none

/-- `o'` are the outlets `o` after some detours. -/
structure Redrawn (size : Nat) (ds : List Detour) (o o' : Outlets) : Prop where
  roots : List.Forall₂ (RootMoved size ds) o.roots o'.roots
  mappings : List.Forall₂ (MappingMoved size ds) o.mappings o'.mappings
  /-- Mappings take the ports after those of the slots, in order. -/
  ports : ∀ i d, ds[i]? = some d →
    o'.mappings.filterMap (Mapping.portOf? ⟨size + i⟩)
      = List.range' d.moves.length (o.mapped d.node)

variable {id split : NodeId} {ms : List Mapping}

theorem reads_output {e : Edge} : (Mapping.output e).reads id = true ↔ e.node = id := by
  simp [Mapping.reads]

/-- A mapping that names the node names the split from now on, the others stay. -/
theorem forall₂_retarget (id split : NodeId) (port : Nat) (ms : List Mapping) :
    List.Forall₂ (fun m m' => (m.reads id = true ∧ ∃ p, m' = .output ⟨split, p⟩) ∨
      (m.reads id = false ∧ m' = m)) ms (Outlets.retarget id split port ms) := by
  induction ms generalizing port with
  | nil => exact .nil
  | cons m ms ih =>
    rw [Outlets.retarget]
    by_cases hm : m.reads id = true
    · rw [if_pos hm]
      exact .cons (Or.inl ⟨hm, port, rfl⟩) (ih _)
    · rw [if_neg hm]
      exact .cons (Or.inr ⟨Bool.eq_false_iff.mpr hm, rfl⟩) (ih _)

theorem portOf?_eq_none {m : Mapping} {x : NodeId} (h : m.reads x = false) :
    m.portOf? x = none := by
  cases m with
  | stream s t => rfl
  | output e =>
    rw [Mapping.portOf?, if_neg]
    exact fun he => Bool.eq_false_iff.mp h (reads_output.mpr he)

/-- The mappings take consecutive ports of the split, in their order. -/
theorem portOf?_retarget_new (port : Nat) (hms : ∀ m ∈ ms, m.reads split = false) :
    (Outlets.retarget id split port ms).filterMap (Mapping.portOf? split)
      = List.range' port (ms.countP (·.reads id)) := by
  induction ms generalizing port with
  | nil => rfl
  | cons m ms ih =>
    have hrest := fun m' hm' => hms m' (List.mem_cons_of_mem _ hm')
    rw [Outlets.retarget]
    -- a mapping of the node takes the next port, any other leaves it for the rest
    by_cases hm : m.reads id = true
    · have hport : (Mapping.output ⟨split, port⟩).portOf? split = some port := if_pos rfl
      rw [if_pos hm, List.countP_cons, if_pos hm, List.range'_succ,
        List.filterMap_cons_some hport, ih (port + 1) hrest]
    · rw [if_neg hm, List.countP_cons, if_neg hm, Nat.add_zero,
        List.filterMap_cons_none (portOf?_eq_none (hms m List.mem_cons_self)), ih port hrest]

/-- The ports of other nodes stay with the mappings that had them. -/
theorem portOf?_retarget_other (port : Nat) {x : NodeId} (hid : x ≠ id) (hsplit : x ≠ split) :
    (Outlets.retarget id split port ms).filterMap (Mapping.portOf? x)
      = ms.filterMap (Mapping.portOf? x) := by
  induction ms generalizing port with
  | nil => rfl
  | cons m ms ih =>
    rw [Outlets.retarget]
    by_cases hm : m.reads id = true
    · have hx : m.portOf? x = none := by
        cases m with
        | stream s t => rfl
        | output e =>
          rw [Mapping.portOf?, if_neg]
          exact fun he => hid (he.symm.trans (reads_output.mp hm))
      have hy : (Mapping.output ⟨split, port⟩).portOf? x = none := by
        rw [Mapping.portOf?, if_neg]
        exact fun he => hsplit he.symm
      rw [if_pos hm, List.filterMap_cons_none hx, List.filterMap_cons_none hy, ih]
    · rw [if_neg hm, List.filterMap_cons, List.filterMap_cons, ih]

namespace Redrawn

variable {size : Nat} {ds : List Detour} {o o' : Outlets}

theorem refl (size : Nat) (o : Outlets) : Redrawn size [] o o where
  roots := List.forall₂_same.mpr fun _ _ => Or.inr ⟨by simp, rfl⟩
  mappings := List.forall₂_same.mpr fun _ _ => Or.inr ⟨by simp, rfl⟩
  ports := by intro i d h; exact absurd h (by simp)

theorem moved_reads_eq {x : NodeId} (hx : x.index < size) (hds : ∀ d ∈ ds, d.node ≠ x)
    {m m' : Mapping} (h : MappingMoved size ds m m') : m.reads x = m'.reads x := by
  rcases h with ⟨i, d, p, hd, hreads, rfl⟩ | ⟨_, rfl⟩
  · have hm : m.reads x = false := by
      cases m with
      | stream s t => rfl
      | output e =>
        rw [Bool.eq_false_iff]
        intro he
        exact hds d (List.mem_of_getElem? hd)
          ((reads_output.mp hreads).symm.trans (reads_output.mp he))
    rw [hm, eq_comm, Bool.eq_false_iff]
    exact fun he => new_ne hx i (reads_output.mp he)
  · rfl

/-- A node that none of the detours stands behind is named as often as before. -/
theorem mapped_eq (h : Redrawn size ds o o') {x : NodeId} (hx : x.index < size)
    (hds : ∀ d ∈ ds, d.node ≠ x) : o'.mapped x = o.mapped x :=
  (forall₂_countP h.mappings fun _ _ hm => moved_reads_eq hx hds hm).symm

/-- **One more detour.** -/
theorem snoc (h : Redrawn size ds o o') {d : Detour} (hnode : d.node.index < size)
    (hnew : ∀ d' ∈ ds, d'.node ≠ d.node)
    (hmaps : ∀ e, .output e ∈ o.mappings → e.node.index < size) :
    Redrawn size (ds ++ [d]) o {
      roots := o'.roots.map fun root => if root = d.node then ⟨size + ds.length⟩ else root
      mappings := Outlets.retarget d.node ⟨size + ds.length⟩ d.moves.length o'.mappings } := by
  have hsnoc : ∀ P : Detour → Prop, (∀ d' ∈ ds, P d') → P d → ∀ d' ∈ ds ++ [d], P d' :=
    fun P hall hd => List.forall_mem_append.mpr ⟨hall, List.forall_mem_singleton.mpr hd⟩
  constructor
  -- a root that was moved is a new node now, which this detour is not behind
  case roots =>
    rw [List.forall₂_map_right_iff]
    refine h.roots.imp fun root root' hm => ?_
    rcases hm with ⟨i, d', hd', hr, rfl⟩ | ⟨hall, rfl⟩
    · rw [if_neg (new_ne hnode i)]
      exact Or.inl ⟨i, d', getElem?_snoc hd' d, hr, rfl⟩
    · by_cases hr : root' = d.node
      · rw [if_pos hr]
        exact Or.inl ⟨ds.length, d, List.getElem?_concat_length, hr.symm, rfl⟩
      · rw [if_neg hr]
        exact Or.inr ⟨hsnoc _ hall (Ne.symm hr), rfl⟩
  case mappings =>
    refine forall₂_trans ?_ h.mappings (forall₂_retarget _ _ _ _)
    -- earlier detours are behind other nodes, so `m` names this one just if `m₁` does
    rintro m m₁ m₂ hm hstep
    have hreads := moved_reads_eq hnode hnew hm
    rcases hstep with ⟨hr, p, rfl⟩ | ⟨hr, rfl⟩
    · exact Or.inl ⟨ds.length, d, p, List.getElem?_concat_length, by rw [hreads, hr], rfl⟩
    · rcases hm with ⟨i, d', p, hd', hread, rfl⟩ | ⟨hall, rfl⟩
      · exact Or.inl ⟨i, d', p, getElem?_snoc hd' d, hread, rfl⟩
      · exact Or.inr ⟨hsnoc _ hall hr, rfl⟩
  case ports =>
    intro i d' hd'
    -- the ports of an earlier split stay, those of the new one are counted here
    rcases getElem?_snoc_cases hd' with hd' | ⟨rfl, rfl⟩
    · have hi := (List.getElem?_eq_some_iff.mp hd').1
      rw [← h.ports i d' hd']
      refine portOf?_retarget_other _ (new_ne hnode i) ?_
      rw [ne_eq, NodeId.mk.injEq]
      omega
    · rw [portOf?_retarget_new]
      · exact congrArg (List.range' _) (h.mapped_eq hnode hnew)
      · -- no mapping names a node that is only being added
        intro m' hm'
        obtain ⟨m, hm, hmoved⟩ := forall₂_exists_left h.mappings hm'
        rcases hmoved with ⟨i, d₁, p, hd₁, _, rfl⟩ | ⟨_, rfl⟩
        · have hi := (List.getElem?_eq_some_iff.mp hd₁).1
          rw [Bool.eq_false_iff, ne_eq, reads_output, NodeId.mk.injEq]
          omega
        · cases m' with
          | stream s t => rfl
          | output e =>
            rw [Bool.eq_false_iff, ne_eq, reads_output]
            exact (new_ne (hmaps e hm) _).symm

end Redrawn

/-! ## The pass -/

/-- What the pass is given: a well-formed graph, the record of a walk from the roots,
roots that nothing reads, and mappings of nodes that exist. -/
structure Splittable (g : Graph) (o : Outlets) (r : Readers) (order : List NodeId) : Prop where
  wellFormed : g.WellFormed
  surveys : Surveys g o.roots r order
  rootsOnce : o.roots.Nodup
  unread : ∀ root ∈ o.roots, r.count root = 0
  mappings : ∀ e, .output e ∈ o.mappings → e.node.index < g.size

namespace Splittable

variable {g g' : Graph} {o o' : Outlets} {r : Readers} {order : List NodeId}

theorem lt_of_mem (h : Splittable g o r order) {x : NodeId} (hx : x ∈ order) :
    x.index < g.size := by
  obtain ⟨n, hn⟩ := h.surveys.known x hx
  exact index_lt_of_node? hn

theorem root_mem (h : Splittable g o r order) {x : NodeId} (hx : x ∈ o.roots) : x ∈ order :=
  (h.surveys.mem_iff x).mpr (.root hx)

/-- The candidates are the nodes that are reached, each once. -/
theorem mem_candidates_iff (h : Splittable g o r order) {x : NodeId} :
    x ∈ r.producers ++ o.roots ↔ x ∈ order := by
  rw [List.mem_append, h.surveys.mem_producers_iff, h.surveys.reader_or_root_iff]

/-- No node comes up twice: roots are not read, so they are no producers. -/
theorem nodup_candidates (h : Splittable g o r order) : (r.producers ++ o.roots).Nodup := by
  rw [List.nodup_append]
  refine ⟨nodup_eraseDups _, h.rootsOnce, ?_⟩
  intro x hx root hroot he
  have hpos := h.surveys.count_pos_iff.mpr (h.surveys.mem_producers_iff.mp hx)
  rw [he, h.unread root hroot] at hpos
  exact Nat.lt_irrefl _ hpos

/-- A consumer that was walked has all its slots moved, any other has none. -/
theorem ports_full (h : Splittable g o r order) (x c : NodeId) :
    (splitDetour r o x).ports c = [] ∨
      ((splitDetour r o x).ports c).length = (g.inputs c).countP (·.node = x) := by
  -- only slots of walked nodes were recorded
  by_cases hc : c ∈ order
  · exact Or.inr (by rw [splitDetour_ports_length, h.surveys.count_of hc])
  · refine Or.inl (List.length_eq_zero_iff.mp ?_)
    rw [splitDetour_ports_length, List.count_eq_zero]
    exact fun hmem => hc (h.surveys.of_subset hmem).1

/-- One candidate of the pass, in a graph that already has the detours of some others. -/
theorem step (h : Splittable g o r order) {done : List NodeId} {x : NodeId} (hx : x ∈ order)
    (hnew : x ∉ done) (hg : Rerouted g ((done.filter (isShared g r o)).map (splitDetour r o)) g')
    (ho : Redrawn g.size ((done.filter (isShared g r o)).map (splitDetour r o)) o o') :
    ∃ g'' o'', splitIfShared r o' x g' = .ok o'' g'' ∧
      Rerouted g (((done ++ [x]).filter (isShared g r o)).map (splitDetour r o)) g'' ∧
      Redrawn g.size (((done ++ [x]).filter (isShared g r o)).map (splitDetour r o)) o o'' := by
  have hlt := h.lt_of_mem hx
  have hother : ∀ d ∈ (done.filter (isShared g r o)).map (splitDetour r o), d.node ≠ x := by
    intro d hd he
    obtain ⟨y, hy, rfl⟩ := List.mem_map.mp hd
    have he : y = x := he
    exact hnew (he ▸ (List.mem_filter.mp hy).1)
  -- the splits made so far stand behind other nodes, so `x` is counted as at the start
  have hcond : ((g'.kind? x).any Kind.isSplittable && 2 ≤ r.count x + o'.mapped x)
      = isShared g r o x := by
    rw [isShared, hg.kind? hlt, ho.mapped_eq hlt hother]
  rw [splitIfShared_eq, hcond, List.filter_append, List.map_append]
  by_cases hshared : isShared g r o x = true
  · rw [if_pos hshared, List.filter_cons_of_pos hshared, ho.mapped_eq hlt hother]
    obtain ⟨g'', happly, hrer⟩ :=
      hg.snoc (d := splitDetour r o x) hlt hother (h.ports_full x) h.wellFormed.closed
    have htake : takePorts x ⟨g'.size⟩ 0 (r.of x)
        (g'.push (.split (r.count x + o.mapped x)) [⟨x, 0⟩]) = .ok () g'' := takePorts_eq_ok happly
    rw [htake]
    refine ⟨g'', _, rfl, hrer, ?_⟩
    have hred := ho.snoc (d := splitDetour r o x) hlt hother h.mappings
    have hlen : (splitDetour r o x).moves.length = r.count x := List.length_zipIdx
    rw [hlen, ← hg.size] at hred
    exact hred
  · rw [if_neg hshared, List.filter_cons_of_neg hshared]
    exact ⟨g', o', rfl, by simpa using hg, by simpa using ho⟩

/-- The pass from the middle on, with the detours of the candidates that are done. -/
theorem run (h : Splittable g o r order) (done todo : List NodeId)
    (hall : done ++ todo = r.producers ++ o.roots)
    (hg : Rerouted g ((done.filter (isShared g r o)).map (splitDetour r o)) g')
    (ho : Redrawn g.size ((done.filter (isShared g r o)).map (splitDetour r o)) o o') :
    ∃ g'' o'', todo.foldlM (splitIfShared r) o' g' = .ok o'' g'' ∧
      Rerouted g (splitDetours g r o) g'' ∧ Redrawn g.size (splitDetours g r o) o o'' := by
  -- the candidates that are done grow as those to do get fewer
  induction todo generalizing done g' o' with
  | nil =>
    rw [List.append_nil] at hall
    subst hall
    exact ⟨g', o', rfl, hg, ho⟩
  | cons x todo ih =>
    have hnd : (done ++ x :: todo).Nodup := hall ▸ h.nodup_candidates
    have hnew : x ∉ done := by
      rw [List.perm_middle.nodup_iff, List.nodup_cons, List.mem_append, not_or] at hnd
      exact hnd.1.1
    have hx : x ∈ order := by
      rw [← h.mem_candidates_iff, ← hall]
      exact List.mem_append_right _ List.mem_cons_self
    obtain ⟨g₁, o₁, hstep, hg₁, ho₁⟩ := h.step hx hnew hg ho
    obtain ⟨g'', o'', hrun, hg'', ho''⟩ :=
      ih (done ++ [x]) (by rw [← hall, List.append_assoc]; rfl) hg₁ ho₁
    refine ⟨g'', o'', ?_, hg'', ho''⟩
    rw [List.foldlM_cons]
    exact bind_eq_ok.mpr ⟨o₁, g₁, hstep, hrun⟩

/-- **The pass makes the detours that are needed**, once its mappings are accepted. -/
theorem insertSplits (h : Splittable g o r order) (hr : Readers.build g o.roots = .ok r)
    (hreach : o.checkReached r = .ok ()) :
    ∃ g' o', Filtergraph.insertSplits o g = .ok o' g' ∧
      Rerouted g (splitDetours g r o) g' ∧ Redrawn g.size (splitDetours g r o) o o' := by
  obtain ⟨g', o', hrun, hg, ho⟩ :=
    h.run [] (r.producers ++ o.roots) rfl (Rerouted.refl g) (Redrawn.refl g.size o)
  refine ⟨g', o', ?_, hg, ho⟩
  unfold Filtergraph.insertSplits
  refine Eq.trans (consult_bind_of_ok hr) ?_
  exact Eq.trans (consult_bind_of_ok hreach) hrun

end Splittable

end Filtergraph
