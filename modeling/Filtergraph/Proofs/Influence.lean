import Filtergraph.Proofs.History
import Filtergraph.Proofs.Lockstep
import Filtergraph.Proofs.Writing

/-!
# What a compilation depends on

A compilation depends on the nodes that its roots lead to and on the roles of the nodes that
its mappings name. What stands elsewhere in the table, and the positions that media files have
from earlier compilations, make no difference.

Up to the numbering the two graphs go in lockstep. Numbering gives the files that matter the same
positions in both, so from then on the nodes that are reached are equal. The writing stays among
them: its queue starts with the roots, and only what a written node reads enters it. Its bound
counts slots of the whole table, but the slots that do enter the queue belong to nodes that are
visited once, so neither bound is ever used up.
-/

namespace Filtergraph

open Filtergraph.Graph

/-! ## Writing over another graph -/

/-- The same readers and mappings over another graph. -/
def Plan.on (p : Plan) (g : Graph) : Plan := { p with graph := g }

/-- The nodes of the plan in `part` are in `g'` as they are, and `part` is closed. -/
structure Plan.Stands (p : Plan) (part : NodeId → Prop) (g' : Graph) : Prop where
  closed : ∀ c x, part c → p.graph.Reads c x → part x
  nodes : ∀ x, part x → g'.node? x = p.graph.node? x
  size : g'.size = p.graph.size

namespace Plan

variable {p : Plan} {k : Nat} {visited : List NodeId} {t y : NodeId}

/-- The upper end of what a statement takes in. -/
theorem end_mem_chainAbove (p : Plan) (k : Nat) (visited : List NodeId) (t : NodeId) :
    (t :: p.chainAbove k visited t).getLastD t ∈ t :: p.chainAbove k visited t := by
  rw [List.getLastD_cons]
  exact List.getLastD_mem_cons

/-- What joins a chain was not visited, is an operation and is read by the chain. -/
theorem mem_chainAbove (hy : y ∈ p.chainAbove k visited t) :
    y ∉ visited ∧ p.graph.isOperation y = true ∧ Relation.ReflTransGen p.graph.Reads t y := by
  -- what joined before counts as visited, so it is part of what is general
  induction k generalizing visited t with
  | zero => exact absurd hy (by simp [chainAbove])
  | succ k ih =>
    unfold chainAbove at hy
    split at hy
    · rename_i e he
      split at hy
      · rename_i hjoin
        have hread : p.graph.Reads t e.node := ⟨e, by rw [he]; exact List.mem_singleton_self e, rfl⟩
        rcases List.mem_cons.mp hy with rfl | hy
        · exact ⟨hjoin.1, hjoin.2.1, .single hread⟩
        · obtain ⟨hnew, hop, hpath⟩ := ih hy
          exact ⟨fun hmem => hnew (List.mem_cons_of_mem _ hmem), hop, hpath.head hread⟩
      · exact absurd hy (by simp)
    · exact absurd hy (by simp)

theorem nodup_chainAbove : (p.chainAbove k visited t).Nodup := by
  induction k generalizing visited t with
  | zero => exact List.nodup_nil
  | succ k ih =>
    unfold chainAbove
    split
    · split
      · refine List.nodup_cons.mpr ⟨fun hmem => ?_, ih⟩
        exact (mem_chainAbove hmem).1 List.mem_cons_self
      · exact List.nodup_nil
    · exact List.nodup_nil

end Plan

namespace Plan.Stands

variable {p : Plan} {part : NodeId → Prop} {g' : Graph} {x : NodeId} {e : Edge} {es : List Edge}
  (h : p.Stands part g')
include h

theorem inputs (hx : part x) : g'.inputs x = p.graph.inputs x := by
  rw [Graph.inputs, Graph.inputs, h.nodes x hx]

theorem kind? (hx : part x) : g'.kind? x = p.graph.kind? x := by
  rw [Graph.kind?, Graph.kind?, h.nodes x hx]

theorem slots (hx : part x) : ∀ e ∈ p.graph.inputs x, part e.node :=
  fun e he => h.closed x e.node hx ⟨e, he, rfl⟩

/-- The label of a slot depends on what the slot reads, and for a selector on its file. -/
theorem label_eq (he : part e.node) : (p.on g').label e = p.label e := by
  have hnode : (p.on g').graph.node? e.node = p.graph.node? e.node := h.nodes _ he
  unfold Plan.label
  rw [hnode]
  cases hn : p.graph.node? e.node with
  | none => rfl
  | some n =>
    obtain ⟨k, es⟩ := n
    -- only a selector asks about another node, its file
    cases k with
    | selector stream =>
      cases es with
      | nil => rfl
      | cons source rest =>
        have hsource : part source.node := by
          refine h.slots he source ?_
          rw [inputs_of_node? hn]
          exact List.mem_cons_self
        dsimp only [Plan.on]
        rw [source?, h.kind? hsource, ← source?]
    | _ => rfl

theorem labels_eq (hes : ∀ e ∈ es, part e.node) : (p.on g').labels es = p.labels es := by
  induction es with
  | nil => rfl
  | cons e es ih =>
    obtain ⟨he, hrest⟩ := List.forall_mem_cons.mp hes
    rw [Plan.labels, Plan.labels, h.label_eq he, ih hrest]

/-- Going up from a node of the part, one stays in the part. -/
theorem chainAbove_eq (k : Nat) (visited : List NodeId) {t : NodeId} (ht : part t) :
    (p.on g').chainAbove k visited t = p.chainAbove k visited t := by
  induction k generalizing visited t with
  | zero => rfl
  | succ k ih =>
    unfold Plan.chainAbove
    have hin : (p.on g').graph.inputs t = p.graph.inputs t := h.inputs ht
    rw [hin]
    cases hes : p.graph.inputs t with
    | nil => rfl
    | cons e rest =>
      cases rest with
      | nil =>
        have hpart := h.slots ht e (by rw [hes]; exact List.mem_singleton_self e)
        have hop : (p.on g').graph.isOperation e.node = p.graph.isOperation e.node := by
          rw [isOperation, isOperation]
          exact congrArg _ (h.kind? hpart)
        dsimp only
        rw [hop, ih _ hpart]
        rfl
      | cons e' rest => rfl

theorem outputLabels_eq (hx : part x) : (p.on g').outputLabels x = p.outputLabels x := by
  have hkind : (p.on g').graph.kind? x = p.graph.kind? x := h.kind? hx
  unfold Plan.outputLabels
  rw [hkind]
  rfl

theorem isPortRead_eq (he : part e.node) :
    Progress.isPortRead g' e = Progress.isPortRead p.graph e := by
  unfold Progress.isPortRead
  rw [h.kind? he]

/-- The operations of a statement belong to the part. -/
theorem chain_part (hx : part x) (k : Nat) (visited : List NodeId) :
    ∀ y ∈ x :: p.chainAbove k visited x, part y := by
  refine List.forall_mem_cons.mpr ⟨hx, fun y hy => ?_⟩
  exact part_of_path h.closed hx (Plan.mem_chainAbove hy).2.2

theorem write_eq (s : Progress) (hx : part x) :
    Progress.write (p.on g') s x = Progress.write p s x := by
  have hsize : (p.on g').graph.size = p.graph.size := h.size
  have hchain := h.chainAbove_eq p.graph.size (x :: s.visited) hx
  have hpart := h.chain_part hx p.graph.size (x :: s.visited)
  have htail := p.end_mem_chainAbove p.graph.size (x :: s.visited) x
  unfold Progress.write
  rw [hsize, hchain]
  generalize x :: p.chainAbove p.graph.size (x :: s.visited) x = chain at hpart htail
  have htail := hpart _ htail
  have hslots : (p.on g').graph.inputs (chain.getLastD x) = p.graph.inputs (chain.getLastD x) :=
    h.inputs htail
  have hreads : (p.graph.inputs (chain.getLastD x)).filter (Progress.isPortRead (p.on g').graph)
      = (p.graph.inputs (chain.getLastD x)).filter (Progress.isPortRead p.graph) :=
    List.filter_congr fun e he => h.isPortRead_eq (h.slots htail e he)
  have hstages : chain.reverse.filterMap (p.on g').graph.node?
      = chain.reverse.filterMap p.graph.node? :=
    List.filterMap_congr fun y hy => h.nodes y (hpart y (List.mem_reverse.mp hy))
  have hkind : (p.on g').graph.kind? x = p.graph.kind? x := h.kind? hx
  dsimp only
  rw [hslots, h.labels_eq (h.slots htail), hreads, hstages, hkind, h.outputLabels_eq hx]

/-- **A step is the same over both graphs.** -/
theorem step_eq {s : Progress} (hqueue : ∀ y ∈ s.queue, part y) :
    Progress.step (p.on g') s = Progress.step p s := by
  cases hq : s.queue with
  | nil => unfold Progress.step; rw [hq]
  | cons id queue =>
    have hid : part id := hqueue id (by rw [hq]; exact List.mem_cons_self)
    have hnode : (p.on g').graph.node? id = p.graph.node? id := h.nodes id hid
    unfold Progress.step
    rw [hq]
    dsimp only
    rw [hnode, h.write_eq _ hid]
    rfl

end Plan.Stands

/-! ## The bound on the steps -/

namespace Progress

variable {p : Plan} {part : NodeId → Prop} {g' : Graph} {s s' : Progress} {id : NodeId}
  {rest : List NodeId}

/-- The writing stays in `part` and visits each node once. -/
structure Tidy (p : Plan) (part : NodeId → Prop) (s : Progress) : Prop where
  queue : ∀ x ∈ s.queue, part x
  visited : ∀ x ∈ s.visited, part x ∧ ∃ n, p.graph.node? x = some n
  once : s.visited.Nodup

/-- The visited nodes have no more slots than the table. -/
theorem Tidy.passed_le (hs : Tidy p part s) :
    passed p s ≤ (p.graph.nodes.toList.map fun n => n.inputs.length).sum :=
  sum_inputs_le List.length hs.once fun x hx => (hs.visited x hx).2

/-- Writing a statement visits its chain and puts what its upper end reads into the queue. -/
theorem write_eq_ok (h : write p s id = .ok s') :
    s'.queue = s.queue ++ (p.graph.inputs ((id :: p.chainAbove p.graph.size (id :: s.visited) id
      ).getLastD id)).map Edge.node ∧
    s'.visited = (id :: p.chainAbove p.graph.size (id :: s.visited) id) ++ s.visited := by
  unfold write at h
  obtain ⟨inputs, _, h⟩ := except_bind_eq_ok.mp h
  injection h with h
  rw [← h]
  exact ⟨rfl, rfl⟩

section Step

variable (hclosed : ∀ c x, part c → p.graph.Reads c x → part x) (hs : Tidy p part s)
include hclosed hs

/-- A statement pays for what it puts into the queue: the slots belong to a node that was not
visited before. -/
theorem Tidy.write (hid : part id) (hnew : id ∉ s.visited)
    (hknown : ∃ n, p.graph.node? id = some n) (h : write p s id = .ok s') :
    Tidy p part s' ∧ s'.queue.length + passed p s ≤ s.queue.length + passed p s' := by
  obtain ⟨hqueue, hvisited⟩ := write_eq_ok h
  have htail := p.end_mem_chainAbove p.graph.size (id :: s.visited) id
  have hchain : ∀ y ∈ id :: p.chainAbove p.graph.size (id :: s.visited) id,
      part y ∧ (∃ n, p.graph.node? y = some n) ∧ y ∉ s.visited := by
    intro y hy
    rcases List.mem_cons.mp hy with rfl | hy
    · exact ⟨hid, hknown, hnew⟩
    · obtain ⟨hout, hop, hpath⟩ := Plan.mem_chainAbove hy
      obtain ⟨n, hn, _⟩ := node?_of_isOperation hop
      exact ⟨part_of_path hclosed hid hpath, ⟨n, hn⟩,
        fun hmem => hout (List.mem_cons_of_mem _ hmem)⟩
  have hnd : (id :: p.chainAbove p.graph.size (id :: s.visited) id).Nodup :=
    List.nodup_cons.mpr
      ⟨fun hmem => (Plan.mem_chainAbove hmem).1 List.mem_cons_self, Plan.nodup_chainAbove⟩
  generalize id :: p.chainAbove p.graph.size (id :: s.visited) id = chain
    at hqueue hvisited htail hchain hnd
  refine ⟨⟨fun x hx => ?_, fun x hx => ?_, ?_⟩, ?_⟩
  · rw [hqueue, List.mem_append] at hx
    rcases hx with hx | hx
    · exact hs.queue x hx
    · obtain ⟨e, he, rfl⟩ := List.mem_map.mp hx
      exact hclosed _ _ (hchain _ htail).1 ⟨e, he, rfl⟩
  · rw [hvisited, List.mem_append] at hx
    rcases hx with hx | hx
    · exact ⟨(hchain x hx).1, (hchain x hx).2.1⟩
    · exact hs.visited x hx
  · rw [hvisited, List.nodup_append]
    refine ⟨hnd, hs.once, fun x hx y hy he => ?_⟩
    exact (hchain x hx).2.2 (he ▸ hy)
  · -- the slots that enter the queue are those of one node of the chain
    have hslots : (p.graph.inputs (chain.getLastD id)).length
        ≤ (chain.map fun x => (p.graph.inputs x).length).sum :=
      List.le_sum_of_mem (List.mem_map.mpr ⟨_, htail, rfl⟩)
    rw [passed, passed, hqueue, hvisited, List.map_append, List.sum_append, List.length_append,
      List.length_map]
    omega

/-- **A step pays for what it puts into the queue.** -/
theorem Tidy.step (hq : s.queue = id :: rest) (h : step p s = .ok s') :
    Tidy p part s' ∧ s'.queue.length + passed p s + 1 ≤ s.queue.length + passed p s' := by
  have hid : part id := hs.queue id (by rw [hq]; exact List.mem_cons_self)
  have hrest : ∀ x ∈ rest, part x :=
    fun x hx => hs.queue x (by rw [hq]; exact List.mem_cons_of_mem _ hx)
  have hlen : s.queue.length = rest.length + 1 := by rw [hq, List.length_cons]
  cases hn : p.graph.node? id with
  | none =>
    have hnew : id ∉ s.visited := by
      intro hmem
      obtain ⟨n, hn'⟩ := (hs.visited id hmem).2
      rw [hn] at hn'
      exact absurd hn' (by simp)
    unfold Progress.step at h
    rw [hq] at h
    dsimp only at h
    rw [if_neg hnew, hn] at h
    exact absurd h (by simp)
  | some n =>
    -- visited before, no operation, not asked for often enough, or written
    rcases step_cases hq hn with ⟨_, heq⟩ | ⟨hnew, _, heq⟩ | ⟨_, _, _, heq⟩ | ⟨hnew, _, _, heq⟩
    · rw [heq, Except.ok.injEq] at h
      subst h
      refine ⟨⟨hrest, hs.visited, hs.once⟩, ?_⟩
      show rest.length + passed p s + 1 ≤ s.queue.length + passed p s
      omega
    · rw [heq, Except.ok.injEq] at h
      subst h
      refine ⟨⟨fun x hx => ?_, ?_, List.nodup_cons.mpr ⟨hnew, hs.once⟩⟩, ?_⟩
      · rcases List.mem_append.mp hx with hx | hx
        · exact hrest x hx
        · obtain ⟨e, he, rfl⟩ := List.mem_map.mp hx
          exact hclosed id _ hid ⟨e, by rwa [inputs_of_node? hn], rfl⟩
      · exact List.forall_mem_cons.mpr ⟨⟨hid, n, hn⟩, hs.visited⟩
      · simp only [passed, List.map_cons, List.sum_cons, List.length_append, List.length_map,
          inputs_of_node? hn]
        omega
    · rw [heq, Except.ok.injEq] at h
      subst h
      refine ⟨⟨hrest, hs.visited, hs.once⟩, ?_⟩
      show rest.length + passed p s + 1 ≤ s.queue.length + passed p s
      omega
    · rw [heq] at h
      have hs₁ : Tidy p part { s with queue := rest, asked := id :: s.asked } :=
        ⟨hrest, hs.visited, hs.once⟩
      obtain ⟨hs', hpassed⟩ := Tidy.write hclosed hs₁ hid hnew ⟨n, hn⟩ h
      have hpassed : s'.queue.length + passed p s ≤ rest.length + passed p s' := hpassed
      exact ⟨hs', by omega⟩

end Step

theorem run_of_nil (h : s.queue = []) (p : Plan) (fuel : Nat) : run p fuel s = .ok s := by
  cases fuel with
  | zero => rfl
  | succ fuel => rw [run, h]

theorem run_succ (h : s.queue = id :: rest) (p : Plan) (fuel : Nat) :
    run p (fuel + 1) s = step p s >>= run p fuel := by
  rw [run, h]

/-- **Both runs end alike**, whatever fuel they have beyond their bounds. -/
theorem run_eq (h : p.Stands part g') (hs : Tidy p part s) {fuel fuel' : Nat}
    (hfuel : s.queue.length + (p.graph.nodes.toList.map fun n => n.inputs.length).sum
      ≤ fuel + passed p s)
    (hfuel' : s.queue.length + (g'.nodes.toList.map fun n => n.inputs.length).sum
      ≤ fuel' + passed p s) : run (p.on g') fuel' s = run p fuel s := by
  -- on the fuel of the one run; the other has some left as long as the queue has
  induction fuel generalizing s fuel' with
  | zero =>
    have hle := hs.passed_le
    have hnil : s.queue = [] := List.length_eq_zero_iff.mp (by omega)
    rw [run_of_nil hnil, run_of_nil hnil]
  | succ fuel ih =>
    cases hq : s.queue with
    | nil => rw [run_of_nil hq, run_of_nil hq]
    | cons id rest =>
      -- the other graph has all the visited nodes too
      have hle' : passed p s ≤ (g'.nodes.toList.map fun n => n.inputs.length).sum := by
        have hpassed : passed (p.on g') s = passed p s := by
          refine congrArg List.sum (List.map_congr_left fun x hx => ?_)
          exact congrArg List.length (h.inputs (hs.visited x hx).1)
        rw [← hpassed]
        refine sum_inputs_le List.length hs.once fun x hx => ?_
        show ∃ n, g'.node? x = some n
        rw [h.nodes x (hs.visited x hx).1]
        exact (hs.visited x hx).2
      rw [hq, List.length_cons] at hfuel'
      obtain ⟨fuel', rfl⟩ : ∃ k, fuel' = k + 1 := ⟨fuel' - 1, by omega⟩
      rw [run_succ hq, run_succ hq, h.step_eq hs.queue]
      cases hstep : Progress.step p s with
      | error e =>
        -- nothing is run any more, so there is no need to compare what would be
        show (Except.error e : Except GraphError Progress) = .error e
        rfl
      | ok s₁ =>
        obtain ⟨hs₁, hpassed⟩ := Tidy.step h.closed hs hq hstep
        rw [hq, List.length_cons] at hpassed hfuel
        exact ih hs₁ (by omega) (by omega)

end Progress

/-- The statements are the same over both graphs. -/
theorem Plan.Stands.statements_eq {p : Plan} {part : NodeId → Prop} {g' : Graph}
    (h : p.Stands part g') {roots : List NodeId} (hroots : ∀ root ∈ roots, part root)
    (hports : (p.on g').mappedPorts = p.mappedPorts) :
    (p.on g').statements roots = p.statements roots := by
  have hrun : Progress.run (p.on g') (Progress.bound (p.on g') roots) { queue := roots }
      = Progress.run p (Progress.bound p roots) { queue := roots } :=
    Progress.run_eq h ⟨hroots, by simp, List.nodup_nil⟩ (Nat.le_refl _) (Nat.le_refl _)
  unfold Plan.statements
  rw [hrun, hports]

/-! ## The same positions -/

/-- Files under one name are the same up to their positions. -/
theorem Graph.SameKind.source? {g g' : Graph} {x : NodeId} {f : Source} (h : g.SameKind g' x)
    (hf : g.source? x = some f) :
    ∃ f', g'.source? x = some f' ∧ { f' with index := none } = { f with index := none } := by
  obtain ⟨es, hn⟩ := source?_eq_some.mp hf
  obtain ⟨⟨k', es'⟩, hn', hkind⟩ := h.node? hn
  cases k' with
  | source f' =>
    rw [Kind.unnumbered, Kind.unnumbered, Kind.source.injEq] at hkind
    exact ⟨f', source?_eq_some.mpr ⟨es', hn'⟩, hkind⟩
  | _ => exact absurd hkind (by simp [Kind.unnumbered])

theorem Graph.source?_eq_none {g : Graph} {x : NodeId} (h : g.isSource x = false) :
    g.source? x = none := by
  cases hf : g.source? x with
  | none => rfl
  | some f =>
    obtain ⟨es, hn⟩ := source?_eq_some.mp hf
    rw [isSource_of_node? hn] at h
    exact absurd h (by simp [Kind.isSource])

namespace Alike

variable {part named : NodeId → Prop} {g g' : Graph} (h : Alike part named g g')
include h

/-- **Numbered alike, the files of both graphs are equal**, if all files among them are listed. -/
theorem source?_numberFrom {ids : List NodeId} (hids : ids.Nodup) {x : NodeId}
    (hx : part x ∨ named x) (hlisted : g.isSource x = true → x ∈ ids) :
    (g'.numberFrom 0 ids).source? x = (g.numberFrom 0 ids).source? x := by
  have hkind := h.kind hx
  by_cases hsource : g.isSource x = true
  · obtain ⟨i, hi⟩ := List.mem_iff_getElem?.mp (hlisted hsource)
    obtain ⟨f, hf⟩ := exists_source? hsource
    obtain ⟨f', hf', hsame⟩ := hkind.source? hf
    rw [Graph.source?_numberFrom hids hi hf, Graph.source?_numberFrom hids hi hf']
    exact congrArg (fun s : Source => some { s with index := some (0 + i) }) hsame
  · rw [Bool.not_eq_true] at hsource
    rw [source?_eq_none, source?_eq_none]
    · rw [(sameButNumbers_numberFrom g 0 ids).isSource, hsource]
    · rw [(sameButNumbers_numberFrom g' 0 ids).isSource, hkind.isSource, hsource]

theorem numberFrom (ids : List NodeId) :
    Alike part named (g.numberFrom 0 ids) (g'.numberFrom 0 ids) :=
  h.numbered (sameButNumbers_numberFrom g 0 ids) (sameButNumbers_numberFrom g' 0 ids)
    (size_numberFrom g 0 ids) (size_numberFrom g' 0 ids)

/-- The nodes in the part whose files are equal are equal. -/
theorem node?_eq {x : NodeId} (hx : part x) (hsource : g'.source? x = g.source? x) :
    g'.node? x = g.node? x := by
  cases hn : g.node? x with
  | none => exact (h.nodes x hx).node?_eq_none hn
  | some n =>
    -- files are equal by assumption, and all other nodes because they have no position
    by_cases hk : n.kind.isSource = true
    · obtain ⟨f, hf⟩ := exists_source? (by rwa [isSource_of_node? hn])
      obtain ⟨es, hnf⟩ := source?_eq_some.mp hf
      obtain ⟨es', hnf'⟩ := source?_eq_some.mp (hsource.trans hf)
      have hinputs := (h.nodes x hx).inputs
      rw [inputs_of_node? hnf, inputs_of_node? hnf'] at hinputs
      have hinputs : es' = es := hinputs
      rw [hnf', hinputs, ← hnf, hn]
    · exact (h.nodes x hx).node?_eq hn (Bool.eq_false_iff.mpr hk)

theorem isPortRead_eq {e : Edge} (he : part e.node ∨ named e.node) :
    Progress.isPortRead g' e = Progress.isPortRead g e := by
  unfold Progress.isPortRead
  rcases (h.kind he).kind?_cases with hsame | ⟨f, f', hf, hf'⟩
  · rw [hsame]
  · rw [hf, hf']

/-- A mapping has the same target if its file has the same position. -/
theorem target_eq {m : Mapping} (hm : part m.node ∨ named m.node)
    (hsource : ∀ x, m.source? = some x → g'.source? x = g.source? x) :
    m.target g' = m.target g := by
  cases m with
  | stream source stream => rw [Mapping.target, Mapping.target, hsource source rfl]
  | output e =>
    rw [Mapping.target, Mapping.target]
    rcases (h.kind hm).kind?_cases with hsame | ⟨f, f', hf, hf'⟩
    · have hsame : g'.kind? e.node = g.kind? e.node := hsame
      rw [hsame]
    · have hf : g.kind? e.node = some (.source f) := hf
      have hf' : g'.kind? e.node = some (.source f') := hf'
      rw [hf, hf']

end Alike

/-! ## Alike up to the end -/

/-- Graphs that were wired alike, with the record of a walk from their roots. -/
structure Wired (part named : NodeId → Prop) (o : Outlets) (r : Readers) (g g' : Graph) : Prop where
  alike : Alike part named g g'
  covers : Alike.Covers part named o
  readers : Readers.build g o.roots = .ok r

namespace Wired

variable {part named : NodeId → Prop} {o : Outlets} {r : Readers} {g g' h₁ h₁' : Graph}
  (h : Wired part named o r g g')
  (h₁_eq : h₁ = g.numberFrom 0 (inputOrder g r o.roots o.mappings))
  (h₁'_eq : h₁' = g'.numberFrom 0 (inputOrder g r o.roots o.mappings))
include h h₁_eq h₁'_eq

theorem alike_numbered : Alike part named h₁ h₁' := by
  rw [h₁_eq, h₁'_eq]
  exact h.alike.numberFrom _

/-- **All files that matter are equal once they are numbered.** -/
theorem source?_eq {x : NodeId}
    (hx : x ∈ r.producers ++ o.roots ++ o.mappings.filterMap Mapping.source?) :
    h₁'.source? x = h₁.source? x := by
  rw [h₁_eq, h₁'_eq]
  refine h.alike.source?_numberFrom (nodup_eraseDups _) (h.alike.candidate h.covers h.readers hx)
    fun hsource => ?_
  rw [List.mem_eraseDups, List.mem_filter]
  exact ⟨hx, hsource⟩

/-- **The nodes that are reached are equal.** -/
theorem stands (ms : List Mapping) : Plan.Stands ⟨h₁, r, ms⟩ (h₁.Reached o.roots) h₁' where
  closed := fun _ _ hc hr => hc.reads hr
  nodes := by
    intro x hx
    have halike := h.alike_numbered h₁_eq h₁'_eq
    refine halike.node?_eq (halike.reached h.covers.roots hx) (h.source?_eq h₁_eq h₁'_eq ?_)
    have hsame : g.SameButNumbers h₁ := h₁_eq ▸ sameButNumbers_numberFrom g 0 _
    exact List.mem_append_left _ ((Readers.mem_walked h.readers).mpr (hsame.reached_iff.mp hx))
  size := (h.alike_numbered h₁_eq h₁'_eq).size

theorem statements_eq : Plan.statements ⟨h₁', r, o.mappings⟩ o.roots
    = Plan.statements ⟨h₁, r, o.mappings⟩ o.roots := by
  refine (h.stands h₁_eq h₁'_eq o.mappings).statements_eq (fun _ hroot => .root hroot) ?_
  refine List.filterMap_congr fun m hm => ?_
  cases m with
  | stream source stream => rfl
  | output e =>
    have hread := (h.alike_numbered h₁_eq h₁'_eq).isPortRead_eq (h.covers.mappings _ hm)
    show (if Progress.isPortRead h₁' e then some e else none)
      = if Progress.isPortRead h₁ e then some e else none
    rw [hread]

theorem mappingTargets_eq : mappingTargets h₁' o.mappings = mappingTargets h₁ o.mappings := by
  have hall : ∀ m ∈ o.mappings, m.target h₁' = m.target h₁ := by
    intro m hm
    refine (h.alike_numbered h₁_eq h₁'_eq).target_eq (h.covers.mappings m hm) fun x hx => ?_
    refine h.source?_eq h₁_eq h₁'_eq (List.mem_append_right _ ?_)
    exact List.mem_filterMap.mpr ⟨m, hm, hx⟩
  clear h₁_eq h₁'_eq h
  generalize o.mappings = ms at hall
  induction ms with
  | nil => rfl
  | cons m ms ih =>
    obtain ⟨hm, hrest⟩ := List.forall_mem_cons.mp hall
    rw [mappingTargets, mappingTargets, hm, ih hrest]

theorem inputArgs_eq : inputArgs h₁' (inputOrder g r o.roots o.mappings)
    = inputArgs h₁ (inputOrder g r o.roots o.mappings) := by
  refine congrArg (List.flatMap Source.flags) (List.filterMap_congr fun x hx => ?_)
  unfold inputOrder at hx
  rw [List.mem_eraseDups, List.mem_filter] at hx
  exact h.source?_eq h₁_eq h₁'_eq hx.1

end Wired

namespace Alike

variable {part named : NodeId → Prop} {g g' : Graph} (h : Alike part named g g') {job : Job}
  {roots : List NodeId} (ho : Covers part named ⟨roots, job.mappings⟩)
include h ho

/-- **Graphs that look alike have the same program**, with the same files. -/
theorem program : Change.EndAlike
    (fun p h p' h' => p' = p ∧ inputArgs h' p.sources = inputArgs h p.sources)
    (job.program roots g) (job.program roots g') := by
  rw [Job.program_eq_wire]
  refine (h.wire ho).bind fun _ w o w' hwired => ?_
  obtain ⟨rfl, hcovers, halike⟩ := hwired
  refine Change.EndAlike.bind (Q := fun r h₁ r' h₁' => r' = r ∧ h₁ = w ∧ h₁' = w' ∧
      Readers.build w o.roots = .ok r)
    (.consult (halike.build_eq hcovers.roots) fun r hr => ⟨rfl, rfl, rfl, hr⟩)
    fun _ w r w' hQ => ?_
  obtain ⟨rfl, rfl, rfl, hr⟩ := hQ
  have hw : Wired part named o r w w' := ⟨halike, hcovers, hr⟩
  -- both graphs are numbered by the same list
  rw [get_bind_eq, get_bind_eq, set_bind_eq, set_bind_eq, halike.inputOrder hcovers hr]
  generalize h₁_eq : w.numberFrom 0 (Filtergraph.inputOrder w r o.roots o.mappings) = h₁,
    h₁'_eq : w'.numberFrom 0 (Filtergraph.inputOrder w r o.roots o.mappings) = h₁'
  refine Change.EndAlike.bind (Q := fun p h₂ p' h₂' => p' = p ∧ h₂ = h₁ ∧ h₂' = h₁')
    (.consult (hw.statements_eq h₁_eq.symm h₁'_eq.symm) fun _ _ => ⟨rfl, rfl, rfl⟩)
    fun _ h₂ statements h₂' hQ => ?_
  obtain ⟨rfl, rfl, rfl⟩ := hQ
  refine Change.EndAlike.bind (Q := fun ls h₃ ls' h₃' => ls' = ls ∧ h₃ = h₂ ∧ h₃' = h₂')
    (.consult (hw.mappingTargets_eq h₁_eq.symm h₁'_eq.symm) fun _ _ => ⟨rfl, rfl, rfl⟩)
    fun _ _ targets _ hQ => ?_
  obtain ⟨rfl, rfl, rfl⟩ := hQ
  exact .ok ⟨rfl, hw.inputArgs_eq h₁_eq.symm h₁'_eq.symm⟩

/-- Graphs that look alike compile to the same command. -/
theorem compile : Change.EndAlike (fun cmd _ cmd' _ => cmd' = cmd)
    (job.compile roots g) (job.compile roots g') := by
  unfold Job.compile
  refine (h.program ho).bind fun p h₁ p' h₁' hQ => ?_
  obtain ⟨rfl, hargs⟩ := hQ
  rw [get_bind_eq, get_bind_eq]
  refine .ok ?_
  unfold Program.args
  rw [hargs]

end Alike

/-- The graphs have the same nodes as far as `roots` lead, and the same roles where mappings
point, up to the positions of media files. -/
structure Graph.SameFrom (roots : List NodeId) (ms : List Mapping) (g g' : Graph) : Prop where
  size : g'.size = g.size
  kinds : ∀ x, g.Reached roots x → g.SameKind g' x
  inputs : ∀ x, g.Reached roots x → g'.inputs x = g.inputs x
  mapped : ∀ m ∈ ms, g.SameKind g' m.node

/-- It is enough to look at what a walk from the roots has met. -/
theorem Graph.SameFrom.of_walk {g g' : Graph} {roots : List NodeId} {ms : List Mapping}
    {r : Readers} (hr : Readers.build g roots = .ok r) (hsize : g'.size = g.size)
    (hwalked : ∀ x ∈ r.producers ++ roots,
      (g'.node? x).map Node.unnumbered = (g.node? x).map Node.unnumbered)
    (hmapped : ∀ m ∈ ms, (g'.kind? m.node).map Kind.unnumbered
      = (g.kind? m.node).map Kind.unnumbered) : g.SameFrom roots ms g' := by
  have hnode : ∀ x, g.Reached roots x → g.SameNode g' x :=
    fun x hx => hwalked x ((Readers.mem_walked hr).mpr hx)
  exact ⟨hsize, fun x hx => (hnode x hx).kind, fun x hx => (hnode x hx).inputs, hmapped⟩

/-- The part of the table that counts: what the roots lead to, and all that is not there yet. -/
theorem Graph.SameFrom.alike {g g' : Graph} {roots : List NodeId} {ms : List Mapping}
    (h : g.SameFrom roots ms g') :
    Alike (fun x => g.Reached roots x ∨ g.size ≤ x.index) (fun x => ∃ m ∈ ms, m.node = x) g g' where
  closed := by
    intro c x hc hr
    -- a node that is not there yet reads nothing
    rcases hc with hc | hc
    · exact Or.inl (hc.reads hr)
    · obtain ⟨e, he, _⟩ := hr
      rw [inputs_of_none (node?_eq_none hc)] at he
      exact absurd he (by simp)
  nodes := by
    intro x hx
    rcases hx with hx | hx
    · exact .of_kind (h.kinds x hx) (h.inputs x hx)
    · have hx' : g'.size ≤ x.index := by rw [h.size]; exact hx
      rw [SameNode, node?_eq_none hx, node?_eq_none hx']
  size := h.size
  late := fun x hx => Or.inr hx
  kinds := fun x ⟨m, hm, hx⟩ => hx ▸ h.mapped m hm

/-- **What is not reached has no influence.** Two graphs that are the same as far as the roots
lead compile to the same command or fail with the same error. -/
theorem unreached_without_influence {g g' : Graph} {roots : List NodeId} {job : Job}
    (h : g.SameFrom roots job.mappings g') :
    (job.compile roots).outcome g' = (job.compile roots).outcome g :=
  (h.alike.compile
    ⟨fun _ hroot => Or.inl (.root hroot), fun m hm => Or.inr ⟨m, hm, rfl⟩⟩).outcome_eq

/-- The merge is not reached, so it may as well read something else. The media file may have any
position before. -/
theorem unreached_without_influence_rewired :
    ((Call.setInputs ⟨3⟩ [⟨0⟩, ⟨2⟩]).after interleavedOnce).setIndex ⟨0⟩ 7 ≠ interleavedOnce ∧
    (Job.compile { destination := "out.mp4", mappings := [.stream ⟨0⟩ .audio] } [⟨2⟩]).outcome
        (((Call.setInputs ⟨3⟩ [⟨0⟩, ⟨2⟩]).after interleavedOnce).setIndex ⟨0⟩ 7)
      = (Job.compile { destination := "out.mp4", mappings := [.stream ⟨0⟩ .audio] } [⟨2⟩]).outcome
          interleavedOnce := by
  refine ⟨by decide +kernel, unreached_without_influence (.of_walk
    (r := ⟨[⟨⟨5⟩, ⟨2⟩⟩, ⟨⟨1⟩, ⟨5⟩⟩, ⟨⟨4⟩, ⟨1⟩⟩, ⟨⟨0⟩, ⟨4⟩⟩]⟩) ?_ ?_ ?_ ?_)⟩
  · decide +kernel
  · decide +kernel
  · decide +kernel
  · decide +kernel

end Filtergraph
