import Filtergraph.Proofs.Agreement

/-!
# Two compilations side by side

We run the passes on two graphs that agree on a part. A pass asks only for nodes that were
walked or that a mapping names, and it changes the same nodes of both graphs in the same way. So
the graphs agree on that part afterwards as they did before, or both passes end with the same
error.

Nodes are added at the end of both tables, so the tables have to be of the same size. All names
beyond the end count as members of the part from the start: there is nothing to be seen there
yet, and what is added later is the same in both.
-/

namespace Filtergraph

open Filtergraph.Graph

/-! ## Edits that end alike -/

namespace Change

variable {α β : Type} {Q : α → Graph → α → Graph → Prop} {Q' : β → Graph → β → Graph → Prop}
  {g g' : Graph}

/-- With the same error, or with results and graphs in the relation `Q`. -/
inductive EndAlike (Q : α → Graph → α → Graph → Prop) :
    EStateM.Result GraphError Graph α → EStateM.Result GraphError Graph α → Prop where
  | ok {a a' : α} {g g' : Graph} (h : Q a g a' g') : EndAlike Q (.ok a g) (.ok a' g')
  | error (e : GraphError) (g g' : Graph) : EndAlike Q (.error e g) (.error e g')

/-- Steps that end alike can be put one after the other. -/
theorem EndAlike.bind {x x' : Edit α} {f f' : α → Edit β} (hx : EndAlike Q (x g) (x' g'))
    (hf : ∀ a h a' h', Q a h a' h' → EndAlike Q' (f a h) (f' a' h')) :
    EndAlike Q' ((x >>= f) g) ((x' >>= f') g') := by
  show EndAlike Q' (EStateM.bind x f g) (EStateM.bind x' f' g')
  unfold EStateM.bind
  generalize x g = r, x' g' = r' at hx
  cases hx with
  | ok h => exact hf _ _ _ _ h
  | error e h h' => exact .error e h h'

/-- Questions that have the same answer. -/
theorem EndAlike.consult {q q' : Graph → Except GraphError α} (hq : q' g' = q g)
    (hQ : ∀ a, q g = .ok a → Q a g a g') : EndAlike Q (consult q g) (consult q' g') := by
  unfold Filtergraph.consult
  rw [hq]
  cases ha : q g with
  | ok a => exact .ok (hQ a ha)
  | error e => exact .error e g g'

/-- A loop whose steps keep the relation `R`. -/
theorem EndAlike.foldlM {f : β → α → Edit β} {R : β → Graph → Graph → Prop} {l : List α}
    (hf : ∀ a ∈ l, ∀ b h h', R b h h' →
      EndAlike (fun b h b' h' => b' = b ∧ R b h h') (f b a h) (f b a h'))
    {b : β} (hb : R b g g') :
    EndAlike (fun b h b' h' => b' = b ∧ R b h h') (l.foldlM f b g) (l.foldlM f b g') := by
  induction l generalizing b g g' with
  | nil => exact .ok ⟨rfl, hb⟩
  | cons a l ih =>
    rw [List.foldlM_cons]
    refine (hf a List.mem_cons_self b g g' hb).bind fun b₁ h b₁' h' hR => ?_
    obtain ⟨rfl, hR⟩ := hR
    exact ih (fun a' ha' => hf a' (List.mem_cons_of_mem _ ha')) hR

theorem EndAlike.outcome_eq {x : Edit α}
    (h : EndAlike (fun a _ a' _ => a' = a) (x g) (x g')) : x.outcome g' = x.outcome g := by
  unfold outcome
  generalize x g = r, x g' = r' at h
  cases h with
  | ok h => rw [h]
  | error e h h' => rfl

end Change

open Change (EndAlike)

/-! ## Graphs that look alike -/

/-- The graphs agree on `part`, and on the roles of the nodes in `named`. -/
structure Alike (part named : NodeId → Prop) (g g' : Graph) : Prop extends
    Graph.AgreeOn part g g' where
  size : g'.size = g.size
  /-- What is still to be added belongs to the part. -/
  late : ∀ x : NodeId, g.size ≤ x.index → part x
  kinds : ∀ x, named x → g.SameKind g' x

namespace Alike

variable {part named : NodeId → Prop} {g g' : Graph} (h : Alike part named g g')
include h

theorem kind {x : NodeId} (hx : part x ∨ named x) : g.SameKind g' x := by
  rcases hx with hx | hx
  · exact (h.nodes x hx).kind
  · exact h.kinds x hx

/-- **One node is added or changed in both graphs alike.** -/
theorem update {h₁ h₁' : Graph} {x : NodeId} {n n' : Node}
    (hnode : ∀ y, h₁.node? y = if y = x then some n else g.node? y)
    (hnode' : ∀ y, h₁'.node? y = if y = x then some n' else g'.node? y)
    (hsize : g.size ≤ h₁.size) (hsize' : h₁'.size = h₁.size)
    (hsame : n'.unnumbered = n.unnumbered) (hpart : ∀ e ∈ n.inputs, part e.node) :
    Alike part named h₁ h₁' where
  closed := by
    intro c y hc hr
    -- the changed node reads into the part by assumption, any other as before
    by_cases hx : c = x
    · obtain ⟨e, he, rfl⟩ := hr
      have hn : h₁.node? c = some n := by rw [hnode, if_pos hx]
      rw [inputs_of_node? hn] at he
      exact hpart e he
    · refine h.closed c y hc ?_
      rwa [Reads, inputs, hnode, if_neg hx] at hr
  nodes := by
    intro y hy
    rw [SameNode, hnode, hnode']
    by_cases hx : y = x
    · rw [if_pos hx, if_pos hx, Option.map_some, Option.map_some, hsame]
    · rw [if_neg hx, if_neg hx]
      exact h.nodes y hy
  size := hsize'
  late := fun y hy => h.late y (by omega)
  kinds := by
    intro y hy
    rw [SameKind, kind?, kind?, hnode, hnode']
    by_cases hx : y = x
    · rw [if_pos hx, if_pos hx, Option.map_some, Option.map_some, Option.map_some, Option.map_some]
      exact congrArg (fun m : Node => some m.kind) hsame
    · rw [if_neg hx, if_neg hx]
      exact h.kinds y hy

theorem push (k : Kind) (es : List Edge) (hes : ∀ e ∈ es, part e.node) :
    Alike part named (g.push k es) (g'.push k es) := by
  refine h.update (node?_push g k es) (fun y => ?_) ?_ ?_ rfl hes
  · rw [node?_push, h.size]
  · rw [size_push]
    omega
  · rw [size_push, size_push, h.size]

/-- A slot of a node in the part is moved in both graphs, or in none. -/
theorem redirect {c : NodeId} (hc : part c) (old : NodeId) (new : Edge) (hnew : part new.node) :
    (g.redirect? c old new = none ∧ g'.redirect? c old new = none) ∨
    ∃ h₁ h₁', g.redirect? c old new = some h₁ ∧ g'.redirect? c old new = some h₁' ∧
      Alike part named h₁ h₁' := by
  unfold redirect?
  cases hn : g.node? c with
  | none => exact Or.inl ⟨rfl, by rw [(h.nodes c hc).node?_eq_none hn]⟩
  | some n =>
    obtain ⟨n', hn', hkind, hinputs⟩ := (h.nodes c hc).node? hn
    rw [hn']
    dsimp only
    rw [hinputs]
    cases hes : redirectFirst old new n.inputs with
    | none => exact Or.inl ⟨rfl, rfl⟩
    | some es =>
      refine Or.inr ⟨_, _, rfl, rfl, h.update (node?_set hn _) (node?_set hn' _) ?_ ?_ ?_ ?_⟩
      · rw [size_set]
      · rw [size_set, size_set, h.size]
      · rw [Node.unnumbered, Node.unnumbered, hkind]
      · -- the slots are the old ones but for the one that was moved
        obtain ⟨front, d, back, hsplit, _, _, rfl⟩ := redirectFirst_spec hes
        have hold : ∀ e ∈ front ++ d :: back, part e.node := by
          intro e he
          refine h.closed c _ hc ⟨e, ?_, rfl⟩
          rwa [inputs_of_node? hn, hsplit]
        intro e he
        rw [List.mem_append, List.mem_cons] at he
        rcases he with he | rfl | he
        · exact hold e (List.mem_append_left _ he)
        · exact hnew
        · exact hold e (List.mem_append_right _ (List.mem_cons_of_mem _ he))

omit h in
theorem numbered {h₁ h₁' : Graph} (h : Alike part named g g') (hg : g.SameButNumbers h₁)
    (hg' : g'.SameButNumbers h₁') (hsize : h₁.size = g.size) (hsize' : h₁'.size = g'.size) :
    Alike part named h₁ h₁' where
  closed := fun c x hc hr => h.closed c x hc (hg.reads_iff.mp hr)
  nodes := fun x hx => ((hg' x).trans (h.nodes x hx)).trans (hg x).symm
  size := by rw [hsize, hsize', h.size]
  late := fun x hx => h.late x (by omega)
  kinds := fun x hx => ((hg'.sameNode x).kind.trans (h.kinds x hx)).trans (hg.sameNode x).kind.symm

/-! ## Selectors -/

/-- The same media file is put behind a selector in both graphs. -/
theorem readThroughSelector {r : Readers} {key : NodeId} (hkey : part key)
    (hof : ∀ c ∈ r.of key, part c) (added added' : Nat) :
    Alike part named (Filtergraph.readThroughSelector r (g, added) key).1
      (Filtergraph.readThroughSelector r (g', added') key).1 := by
  have husers : (r.of key).filter g'.isOperation = (r.of key).filter g.isOperation :=
    List.filter_congr fun c hc => (h.nodes c (hof c hc)).kind.isOperation
  unfold Filtergraph.readThroughSelector
  dsimp only
  rw [husers, (h.nodes key hkey).kind.isSource, h.size]
  split
  · -- the selector is new, so it belongs to the part
    have hselector : part ⟨g.size⟩ := h.late _ (Nat.le_refl _)
    refine List.foldl_rel (r := Alike part named) ?_ fun c hc h₁ h₁' h₁alike => ?_
    · exact h.push _ _ (by simpa using hkey)
    · have hc := hof c (List.mem_filter.mp hc).1
      rcases h₁alike.redirect hc key ⟨⟨g.size⟩, 0⟩ hselector with
        ⟨hnone, hnone'⟩ | ⟨h₂, h₂', hsome, hsome', h₂alike⟩
      · rw [hnone, hnone']
        exact h₁alike
      · rw [hsome, hsome']
        exact h₂alike
  · exact h

theorem insertSelectors {roots : List NodeId} (hroots : ∀ root ∈ roots, part root) :
    EndAlike (fun s _ s' _ => Alike part named s.1 s'.1)
      (consult (Filtergraph.insertSelectors · roots) g)
      (consult (Filtergraph.insertSelectors · roots) g') := by
  unfold consult Filtergraph.insertSelectors
  dsimp only
  rw [h.build_eq hroots]
  cases hr : Readers.build g roots with
  | error e => exact .error e g g'
  | ok r =>
    obtain ⟨hproducers, hof⟩ := h.mem_build hroots hr
    exact .ok (List.foldl_rel (r := fun s s' : Graph × Nat => Alike part named s.1 s'.1) h
      fun key hkey s s' hs => hs.readThroughSelector (hproducers key hkey) (hof key) s.2 s'.2)

/-! ## Splits -/

/-- What is asked of the outlets: roots in the part, and mappings of nodes whose roles agree. -/
structure Covers (part named : NodeId → Prop) (o : Outlets) : Prop where
  roots : ∀ root ∈ o.roots, part root
  mappings : ∀ m ∈ o.mappings, part m.node ∨ named m.node

/-- The same ports are handed out, or both stop at the same consumer. -/
theorem takePorts (id : NodeId) {split : NodeId} (hsplit : part split) {consumers : List NodeId}
    (hconsumers : ∀ c ∈ consumers, part c) (port : Nat) :
    EndAlike (fun _ h _ h' => Alike part named h h')
      (Filtergraph.takePorts id split port consumers g)
      (Filtergraph.takePorts id split port consumers g') := by
  induction consumers generalizing g g' port with
  | nil => exact .ok h
  | cons c consumers ih =>
    obtain ⟨hc, hrest⟩ := List.forall_mem_cons.mp hconsumers
    rw [takePorts_cons, takePorts_cons]
    rcases h.redirect hc id ⟨split, port⟩ hsplit with
      ⟨hnone, hnone'⟩ | ⟨h₁, h₁', hsome, hsome', h₁alike⟩
    · rw [hnone, hnone']
      exact .error _ _ _
    · rw [hsome, hsome']
      exact ih h₁alike hrest _

/-- The same nodes are split in both graphs. -/
theorem splitIfShared {r : Readers} {o : Outlets} {id : NodeId} (hid : part id)
    (hof : ∀ c ∈ r.of id, part c) (ho : Covers part named o) :
    EndAlike (fun o h o' h' => o' = o ∧ Covers part named o ∧ Alike part named h h')
      (Filtergraph.splitIfShared r o id g) (Filtergraph.splitIfShared r o id g') := by
  have hkind : (g'.kind? id).any Kind.isSplittable = (g.kind? id).any Kind.isSplittable :=
    (h.nodes id hid).kind.any_kind? fun k => by cases k <;> rfl
  have hsplit : part ⟨g.size⟩ := h.late _ (Nat.le_refl _)
  have htake := (h.push (.split (r.count id + o.mapped id)) [⟨id, 0⟩]
    (by simpa using hid)).takePorts id hsplit hof 0
  rw [splitIfShared_eq, splitIfShared_eq, hkind, h.size]
  split
  · generalize Filtergraph.takePorts id ⟨g.size⟩ 0 (r.of id) (g.push _ [⟨id, 0⟩]) = x,
      Filtergraph.takePorts id ⟨g.size⟩ 0 (r.of id) (g'.push _ [⟨id, 0⟩]) = x' at htake ⊢
    cases htake with
    | error e h₁ h₁' => exact .error e h₁ h₁'
    | ok h₁ =>
      -- new roots and mappings name the split, which belongs to the part
      refine .ok ⟨rfl, ⟨fun root' hroot' => ?_, fun m' hm' => ?_⟩, h₁⟩
      · obtain ⟨root, hroot, rfl⟩ := List.mem_map.mp hroot'
        split
        · exact hsplit
        · exact ho.roots root hroot
      · obtain ⟨m, hm, hmoved⟩ := forall₂_exists_left (forall₂_retarget id _ _ o.mappings) hm'
        rcases hmoved with ⟨_, port, rfl⟩ | ⟨_, rfl⟩
        · exact Or.inl hsplit
        · exact ho.mappings _ hm
  · exact .ok ⟨rfl, ho, h⟩

theorem insertSplits {o : Outlets} (ho : Covers part named o) :
    EndAlike (fun o h o' h' => o' = o ∧ Covers part named o ∧ Alike part named h h')
      (Filtergraph.insertSplits o g) (Filtergraph.insertSplits o g') := by
  unfold Filtergraph.insertSplits
  refine EndAlike.bind (Q := fun r h₁ r' h₁' => r' = r ∧ h₁ = g ∧ h₁' = g' ∧
      Readers.build g o.roots = .ok r)
    (.consult (h.build_eq ho.roots) fun r hr => ⟨rfl, rfl, rfl, hr⟩) fun _ _ r _ hQ => ?_
  obtain ⟨rfl, rfl, rfl, hr⟩ := hQ
  obtain ⟨hproducers, hof⟩ := h.mem_build ho.roots hr
  refine EndAlike.bind (Q := fun _ h₁ _ h₁' => Alike part named h₁ h₁')
    (.consult rfl fun _ _ => h) fun _ h₁ _ h₁' halike => ?_
  refine EndAlike.foldlM (R := fun o h h' => Covers part named o ∧ Alike part named h h')
    (fun id hid o h₂ h₂' hR => ?_) ⟨ho, halike⟩
  refine hR.2.splitIfShared ?_ (hof id) hR.1
  rcases List.mem_append.mp hid with hid | hid
  · exact hproducers id hid
  · exact ho.roots id hid

/-! ## Up to the graph that is numbered -/

/-- **Both graphs are wired alike.** -/
theorem wire {job : Job} {roots : List NodeId} (ho : Covers part named ⟨roots, job.mappings⟩) :
    EndAlike (fun o h o' h' => o' = o ∧ Covers part named o ∧ Alike part named h h')
      (job.wire roots g) (job.wire roots g') := by
  -- the roots that are left depend on roles and on the walk
  have hfinal : finalRoots g' job.mappings roots = finalRoots g job.mappings roots := by
    refine finalRoots_congr (fun root hroot => h.kind (Or.inl (ho.roots root hroot)))
      (fun m hm => h.kind (ho.mappings m hm)) ?_
    rw [h.build_eq fun root hroot => ho.roots root (List.mem_eraseDups.mp hroot)]
  unfold Job.wire
  refine EndAlike.bind (Q := fun ends h₁ ends' h₁' => ends' = ends ∧ h₁ = g ∧ h₁' = g' ∧
      finalRoots g job.mappings roots = .ok ends)
    (.consult hfinal fun ends hends => ⟨rfl, rfl, rfl, hends⟩) fun _ _ ends _ hQ => ?_
  obtain ⟨rfl, rfl, rfl, hends⟩ := hQ
  have hsub : ∀ root ∈ ends, part root := fun root hroot =>
    ho.roots root (((final_of_finalRoots hends).mem_iff root).mp hroot).1
  refine EndAlike.bind (h.insertSelectors hsub) fun s h₁ s' h₁' halike => ?_
  refine EndAlike.bind (Q := fun _ h₁ _ h₁' => Alike part named h₁ h₁') (.ok halike)
    fun _ _ _ _ halike => ?_
  exact halike.insertSplits ⟨hsub, ho.mappings⟩

/-- What may become an input is known to both graphs. -/
theorem candidate {r : Readers} {o : Outlets} (ho : Covers part named o)
    (hr : Readers.build g o.roots = .ok r) {x : NodeId}
    (hx : x ∈ r.producers ++ o.roots ++ o.mappings.filterMap Mapping.source?) :
    part x ∨ named x := by
  rw [List.mem_append, List.mem_append] at hx
  rcases hx with (hx | hx) | hx
  · exact Or.inl ((h.mem_build ho.roots hr).1 x hx)
  · exact Or.inl (ho.roots x hx)
  · obtain ⟨m, hm, hsource⟩ := List.mem_filterMap.mp hx
    cases m with
    | stream source stream =>
      rw [Mapping.source?, Option.some.injEq] at hsource
      exact hsource ▸ ho.mappings _ hm
    | output e => exact absurd hsource (by simp [Mapping.source?])

/-- The same files are opened, in the same order. -/
theorem inputOrder {r : Readers} {o : Outlets} (ho : Covers part named o)
    (hr : Readers.build g o.roots = .ok r) :
    Filtergraph.inputOrder g' r o.roots o.mappings
      = Filtergraph.inputOrder g r o.roots o.mappings :=
  congrArg List.eraseDups
    (List.filter_congr fun _ hx => (h.kind (h.candidate ho hr hx)).isSource)

end Alike

end Filtergraph
