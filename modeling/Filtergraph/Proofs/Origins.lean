import Filtergraph.Proofs.Meaning

/-!
# What a slot reads

A slot reads a node, and behind splits it reads what is split. Looking through all splits one
comes to the origin of the slot: a filter or merge, or a stream of a media file.

A compilation may put selectors and splits between a slot and its origin, and may stop at any
point. The origin stays the same. Detours lead over the first stream of a media file or over a
split, so a slot that is moved comes out where it came out before, and every other slot is as
it was.

That a slot has an origin at all is not plain, since splits may stand behind splits. It holds
because a split is only ever put behind a node that is already there.
-/

namespace Filtergraph

open Filtergraph.Graph

/-- Where what a slot reads comes from. -/
inductive Origin where
  /-- A filter or merge. -/
  | operation (node : NodeId)
  /-- A stream of a media file. -/
  | stream (source : NodeId) (stream : Stream)
deriving DecidableEq

/-- Where a reader of the node `x` is led: to an origin, or through a split to what is split. -/
def Node.lead? (x : NodeId) (n : Node) : Option (Origin ⊕ NodeId) :=
  match n.kind with
  | .filter _ _ => some (.inl (.operation x))
  | .merge => some (.inl (.operation x))
  | .source _ => some (.inl (.stream x .first))
  | .selector stream => n.inputs.head?.map fun e => .inl (.stream e.node stream)
  | .split _ => n.inputs.head?.map fun e => .inr e.node

/-- Where a reader of the node is led in the graph. -/
def Graph.lead? (g : Graph) (x : NodeId) : Option (Origin ⊕ NodeId) :=
  (g.node? x).bind (Node.lead? x)

/-- Who reads the node reads what comes from the origin. -/
inductive Graph.ComesFrom (g : Graph) : NodeId → Origin → Prop where
  | origin {x : NodeId} {o : Origin} (hl : g.lead? x = some (.inl o)) : ComesFrom g x o
  | split {x y : NodeId} {o : Origin} (hl : g.lead? x = some (.inr y)) (ho : ComesFrom g y o) :
    ComesFrom g x o

/-- `o` is the one origin of what the node gives. -/
def Graph.OriginOf (g : Graph) (x : NodeId) (o : Origin) : Prop :=
  ∀ o', g.ComesFrom x o' ↔ o' = o

/-- The filters, merges and splits of `g` are in `g'` with as many slots, and every slot has
the origin that it had. -/
def Graph.KeepsOrigins (g g' : Graph) : Prop :=
  ∀ c n, g.node? c = some n → n.kind.isOperation = true →
    ∃ es, g'.node? c = some ⟨n.kind, es⟩ ∧
      List.Forall₂ (fun e e' => ∃ o, g.OriginOf e.node o ∧ g'.OriginOf e'.node o) n.inputs es

namespace Graph

variable {g g' g'' : Graph} {x : NodeId} {o o' : Origin}

theorem lead?_of_node? {n : Node} (hn : g.node? x = some n) : g.lead? x = n.lead? x := by
  rw [lead?, hn, Option.bind_some]

/-- **A slot has one origin at most.** -/
theorem ComesFrom.unique (h : g.ComesFrom x o) (h' : g.ComesFrom x o') : o' = o := by
  -- both ways look through the same splits, one by one
  induction h with
  | origin hl =>
    cases h' with
    | origin hl' =>
      rw [hl, Option.some.injEq, Sum.inl.injEq] at hl'
      exact hl'.symm
    | split hl' _ => exact absurd (hl.symm.trans hl') (by simp)
  | split hl _ ih =>
    cases h' with
    | origin hl' => exact absurd (hl.symm.trans hl') (by simp)
    | split hl' ho' =>
      rw [hl, Option.some.injEq, Sum.inr.injEq] at hl'
      exact ih (hl' ▸ ho')

/-- So an origin, once found, is the origin. -/
theorem ComesFrom.originOf (h : g.ComesFrom x o) : g.OriginOf x o :=
  fun _ => ⟨h.unique, fun he => he ▸ h⟩

/-- Where nodes lead on as they did, slots come from where they came from. -/
theorem ComesFrom.mono (hlead : ∀ y l, g.lead? y = some l → g'.lead? y = some l)
    (h : g.ComesFrom x o) : g'.ComesFrom x o := by
  induction h with
  | origin hl => exact .origin (hlead _ _ hl)
  | split hl _ ih => exact .split (hlead _ _ hl) ih

/-- Positions of media files do not matter. -/
theorem SameButNumbers.lead? (h : g.SameButNumbers g') (x : NodeId) :
    g'.lead? x = g.lead? x := by
  have hunnumbered : ∀ n : Node, n.unnumbered.lead? x = n.lead? x := by
    intro n
    obtain ⟨k, es⟩ := n
    cases k <;> rfl
  have hmap : ∀ g : Graph, g.lead? x = ((g.node? x).map Node.unnumbered).bind (Node.lead? x) := by
    intro g
    rw [Graph.lead?]
    cases g.node? x with
    | none => rfl
    | some n => exact (hunnumbered n).symm
  rw [hmap g, hmap g', h x]

/-! ## Slots with an origin -/

/-- What any node gives has an origin. -/
def Traced (g : Graph) : Prop :=
  ∀ x n, g.node? x = some n → ∃ o, g.ComesFrom x o

theorem Traced.mono (h : g.Traced) (hlead : ∀ x l, g.lead? x = some l → g'.lead? x = some l)
    (hold : ∀ x n, g'.node? x = some n → ∃ n', g.node? x = some n') : g'.Traced := by
  intro x n hn
  obtain ⟨n', hn'⟩ := hold x n hn
  obtain ⟨o, ho⟩ := h x n' hn'
  exact ⟨o, ho.mono hlead⟩

/-- A new node that leads to an origin at once. -/
theorem Traced.push (h : g.Traced) {k : Kind} {es : List Edge} {o : Origin}
    (ho : Node.lead? ⟨g.size⟩ ⟨k, es⟩ = some (.inl o)) : (g.push k es).Traced := by
  intro x n hn
  rw [node?_push] at hn
  by_cases hx : x = ⟨g.size⟩
  · subst hx
    exact ⟨o, .origin ((lead?_of_node? (node?_push_self g k es)).trans ho)⟩
  · rw [if_neg hx] at hn
    obtain ⟨o, ho⟩ := h x n hn
    -- the old nodes lead where they led
    refine ⟨o, ho.mono fun y l hl => ?_⟩
    obtain ⟨m, hm, _⟩ := Option.bind_eq_some_iff.mp hl
    rw [Graph.lead?, node?_push_of_lt (index_lt_of_node? hm)]
    exact hl

/-- A changed node that leads where it led. -/
theorem Traced.set (h : g.Traced) {id : NodeId} {n m : Node} (hn : g.node? id = some n)
    (hm : m.lead? id = n.lead? id) : (g.set id m).Traced := by
  refine h.mono (fun x l hl => ?_) fun x n' hn' => ?_
  · rw [Graph.lead?, node?_set hn]
    by_cases hx : x = id
    · rw [if_pos hx, hx, Option.bind_some, hm, ← lead?_of_node? hn, ← hx, hl]
    · rw [if_neg hx]
      exact hl
  · rw [node?_set hn] at hn'
    by_cases hx : x = id
    · exact ⟨n, hx ▸ hn⟩
    · rw [if_neg hx] at hn'
      exact ⟨n', hn'⟩

end Graph

/-- No call takes an origin away: calls make no splits. -/
theorem CallStep.traced {g g' : Graph} (hstep : CallStep g g') (h : g.Traced) : g'.Traced := by
  cases hstep with
  | refused => exact h
  | source s => exact h.push rfl
  | selector stream _ => exact h.push rfl
  | audio s => exact (h.push rfl).push rfl
  | operation _ hkind =>
    rcases hkind with ⟨f, rfl, _⟩ | ⟨rfl, _⟩
    · exact h.push rfl
    · exact h.push rfl
  | gate gate hn _ => exact h.set hn rfl
  | @rewired id n inputs hn _ hkind =>
    obtain ⟨k, es⟩ := n
    rcases hkind with ⟨f, gate, rfl, _⟩ | ⟨rfl, _⟩
    · exact h.set hn rfl
    · exact h.set hn rfl

/-! ## Detours -/

namespace Rerouted

variable {g g' : Graph} {ds : List Detour} {x : NodeId} {o : Origin}

/-- A node that leads to an origin still does, since selectors take no detours. -/
theorem lead?_origin (h : Rerouted g ds g') (hds : ∀ d ∈ ds, d.Transparent g)
    (hl : g.lead? x = some (.inl o)) : g'.lead? x = some (.inl o) := by
  obtain ⟨⟨k, es⟩, hn, hlead⟩ := Option.bind_eq_some_iff.mp hl
  obtain ⟨es', hn', hes⟩ := h.kept x _ hn
  rw [lead?_of_node? hn', ← hlead]
  cases k with
  | filter f gate => rfl
  | merge => rfl
  | source s => rfl
  | selector stream =>
    have hsame : List.Forall₂ Eq es es' := by
      refine hes.imp fun e e' hm => ?_
      rcases hm with ⟨i, d, hd, _, hports, _⟩ | ⟨_, he⟩
      · have hop := (hds d (List.mem_of_getElem? hd)).takers x hports
        rw [isOperation_of_node? hn] at hop
        exact absurd hop (by simp [Kind.isOperation])
      · exact he.symm
    rw [List.forall₂_eq_eq_eq] at hsame
    rw [hsame]
  | split fanOut =>
    obtain ⟨e, _, he⟩ := Option.map_eq_some_iff.mp hlead
    exact absurd he (by simp)

/-- A split leads to what its slot reads, and the slot may have been moved. -/
theorem lead?_split (h : Rerouted g ds g') {y : NodeId} (hl : g.lead? x = some (.inr y)) :
    ∃ e e', e.node = y ∧ Moved g.size ds x e e' ∧ g'.lead? x = some (.inr e'.node) := by
  obtain ⟨⟨k, es⟩, hn, hlead⟩ := Option.bind_eq_some_iff.mp hl
  obtain ⟨es', hn', hes⟩ := h.kept x _ hn
  rw [lead?_of_node? hn']
  cases k with
  | filter f gate => exact absurd hlead (by simp [Node.lead?])
  | merge => exact absurd hlead (by simp [Node.lead?])
  | source s => exact absurd hlead (by simp [Node.lead?])
  | selector stream =>
    obtain ⟨e, _, he⟩ := Option.map_eq_some_iff.mp hlead
    exact absurd he (by simp)
  | split fanOut =>
    obtain ⟨e, he, hy⟩ := Option.map_eq_some_iff.mp hlead
    rw [Sum.inr.injEq] at hy
    cases hes with
    | nil => exact absurd he (by simp)
    | @cons e₀ e' rest rest' hm _ =>
      rw [List.head?_cons, Option.some.injEq] at he
      exact ⟨e₀, e', he ▸ hy, hm, rfl⟩

/-- A slot that is moved comes out where it came out before. -/
theorem comesFrom_moved (h : Rerouted g ds g') (hds : ∀ d ∈ ds, d.Transparent g) {c : NodeId}
    {e e' : Edge} (hm : Moved g.size ds c e e') (ho : g.ComesFrom e.node o)
    (ho' : g'.ComesFrom e.node o) : g'.ComesFrom e'.node o := by
  rcases hm with ⟨i, d, hd, hnode, _, hnew⟩ | ⟨_, he⟩
  · have hlead := lead?_of_node? (h.added i d hd)
    rw [← hnode] at ho ho'
    rw [hnew]
    rcases (hds d (List.mem_of_getElem? hd)).kind with ⟨hk, hsource⟩ | ⟨fanOut, hk⟩
    · -- a media file that was read as it is, and its first stream
      obtain ⟨s, hs⟩ := exists_source? hsource
      obtain ⟨es, hn⟩ := source?_eq_some.mp hs
      have hfirst : g.ComesFrom d.node (.stream d.node .first) := .origin (lead?_of_node? hn)
      rw [hfirst.unique ho]
      rw [hk] at hlead
      exact .origin hlead
    · rw [hk] at hlead
      exact .split hlead ho'
  · rw [he]
    exact ho'

/-- **Detours keep the origins of what nodes give.** -/
theorem comesFrom (h : Rerouted g ds g') (hds : ∀ d ∈ ds, d.Transparent g)
    (ho : g.ComesFrom x o) : g'.ComesFrom x o := by
  induction ho with
  | origin hl => exact .origin (h.lead?_origin hds hl)
  | split hl ho ih =>
    obtain ⟨e, e', rfl, hm, hl'⟩ := h.lead?_split hl
    exact .split hl' (h.comesFrom_moved hds hm ho ih)

theorem traced (h : Rerouted g ds g') (hds : ∀ d ∈ ds, d.Transparent g) (hg : g.Traced) :
    g'.Traced := by
  intro x n hn
  rcases h.node?_cases hn with ⟨_, es, hn', _⟩ | ⟨i, d, hd, rfl, rfl⟩
  · obtain ⟨o, ho⟩ := hg x _ hn'
    exact ⟨o, h.comesFrom hds ho⟩
  · have hd' := hds d (List.mem_of_getElem? hd)
    have hlead := lead?_of_node? hn
    rcases hd'.kind with ⟨hk, _⟩ | ⟨fanOut, hk⟩
    · rw [hk] at hlead
      exact ⟨_, .origin hlead⟩
    · -- the node behind the new split was there before
      obtain ⟨m, hm⟩ := exists_node? hd'.known
      obtain ⟨o, ho⟩ := hg d.node m hm
      rw [hk] at hlead
      exact ⟨o, .split hlead (h.comesFrom hds ho)⟩

end Rerouted

/-! ## Compilations -/

/-- Slot by slot, an operation of `g` reads in `g'` what comes from where it came from. -/
def Graph.Carries (g g' : Graph) : Prop :=
  ∀ c n, g.node? c = some n → n.kind.isOperation = true →
    ∃ es, g'.node? c = some ⟨n.kind, es⟩ ∧
      List.Forall₂ (fun e e' => ∀ o, g.ComesFrom e.node o → g'.ComesFrom e'.node o) n.inputs es

namespace Graph

variable {g g' g'' : Graph}

theorem Carries.refl (g : Graph) : g.Carries g :=
  fun _ n hn _ => ⟨n.inputs, hn, List.forall₂_same.mpr fun _ _ _ ho => ho⟩

theorem Carries.trans (h : g.Carries g') (h' : g'.Carries g'') : g.Carries g'' := by
  intro c n hn hop
  obtain ⟨es, hn', hes⟩ := h c n hn hop
  obtain ⟨es', hn'', hes'⟩ := h' c _ hn' hop
  exact ⟨es', hn'', forall₂_trans (fun _ _ _ h₁ h₂ o ho => h₂ o (h₁ o ho)) hes hes'⟩

theorem SameButNumbers.carries (h : g.SameButNumbers g') : g.Carries g' := by
  intro c n hn hop
  have hsource : n.kind.isSource = false := by
    cases hk : n.kind with
    | source s => exact absurd hop (by simp [hk, Kind.isOperation])
    | _ => rfl
  refine ⟨n.inputs, h.node?_eq hn hsource, List.forall₂_same.mpr fun e _ o ho => ?_⟩
  exact ho.mono fun y l hl => (h.lead? y).trans hl

/-- Where there is one origin at most, to carry origins over is to keep them. -/
theorem Carries.keepsOrigins (h : g.Carries g') (hwf : g.WellFormed) (hg : g.Traced) :
    g.KeepsOrigins g' := by
  intro c n hn hop
  obtain ⟨es, hn', hes⟩ := h c n hn hop
  refine ⟨es, hn', forall₂_imp_of_mem hes fun e he e' hcarried => ?_⟩
  obtain ⟨m, hm, _⟩ := (hwf c n hn).ports e he
  obtain ⟨o, ho⟩ := hg e.node m hm
  exact ⟨o, ho.originOf, (hcarried o ho).originOf⟩

end Graph

section Stations

variable {g : Graph} {ms : List Mapping} {roots : List NodeId}

/-- Detours carry the origins of all slots over. -/
theorem Rerouted.carries {g' : Graph} {ds : List Detour} (h : Rerouted g ds g')
    (hds : ∀ d ∈ ds, d.Transparent g) : g.Carries g' := by
  intro c n hn _
  obtain ⟨es, hn', hes⟩ := h.kept c n hn
  exact ⟨es, hn', hes.imp fun e e' hm o ho => h.comesFrom_moved hds hm ho (h.comesFrom hds ho)⟩

theorem Approach.carries (s : Approach g ms roots) : g.Carries s.selected :=
  s.selectors.graph.carries s.selectors.transparent

theorem Passage.carries (s : Passage g ms roots) : g.Carries s.numbered :=
  (s.toApproach.carries.trans (s.splits.graph.carries s.splits.transparent)).trans s.same.carries

theorem Approach.traced (s : Approach g ms roots) (hg : g.Traced) : s.selected.Traced :=
  s.selectors.graph.traced s.selectors.transparent hg

theorem Passage.traced (s : Passage g ms roots) (hg : g.Traced) : s.numbered.Traced := by
  have hwired := s.splits.graph.traced s.splits.transparent (s.toApproach.traced hg)
  refine hwired.mono (fun x l hl => (s.same.lead? x).trans hl) fun x n hn => ?_
  obtain ⟨n', hn', _⟩ := s.same.symm.node? hn
  exact ⟨n', hn'⟩

end Stations

/-- **Every slot has an origin**, whatever was done with the graph. -/
theorem Reachable.traced {g : Graph} (h : Reachable g) : g.Traced := by
  induction h with
  | empty => intro x n hn; exact absurd hn (by simp [node?])
  | @call g _ c ih =>
    obtain ⟨g₁, h₁, h₂⟩ := callStep_after g c
    exact h₂.traced (h₁.traced ih)
  | compile hg job roots ih =>
    -- a compilation stops before the first pass, after the selectors or after all passes
    rcases after_compile_cases hg.wellFormed job roots with hsame | ⟨s, hs⟩ | ⟨s, hs⟩
    · rw [hsame]
      exact ih
    · rw [hs]
      exact s.traced ih
    · rw [hs]
      exact s.traced ih

/-- **Compilations keep what slots read.** However a compilation ends, the slots of the
filters, merges and splits that were there have the origins that they had. -/
theorem compile_keepsOrigins {g : Graph} (hg : Reachable g) (job : Job) (roots : List NodeId) :
    g.KeepsOrigins (Change.after (job.compile roots) g) := by
  refine Carries.keepsOrigins ?_ hg.wellFormed hg.traced
  rcases after_compile_cases hg.wellFormed job roots with hsame | ⟨s, hs⟩ | ⟨s, hs⟩
  · rw [hsame]
    exact .refl g
  · rw [hs]
    exact s.carries
  · rw [hs]
    exact s.carries

/-- A compilation that fails because the ports of a split are not read. It has put a second
split before the first, which still reads what comes from the filter. -/
theorem compile_keepsOrigins_uneven :
    (Job.compile { destination := "out.mp4", mappings := [.output ⟨⟨1⟩, 0⟩] } [⟨5⟩]).error?
        interleavedOnce = some (.unevenReads ⟨5⟩ [0, 0, 0]) ∧
      interleavedOnce.inputs ⟨5⟩ = [⟨⟨1⟩, 0⟩] ∧
      (Change.after (Job.compile { destination := "out.mp4", mappings := [.output ⟨⟨1⟩, 0⟩] } [⟨5⟩])
        interleavedOnce).inputs ⟨5⟩ = [⟨⟨6⟩, 0⟩] ∧
      interleavedOnce.KeepsOrigins (Change.after (Job.compile
        { destination := "out.mp4", mappings := [.output ⟨⟨1⟩, 0⟩] } [⟨5⟩]) interleavedOnce) :=
  ⟨by decide +kernel, by decide +kernel, by decide +kernel,
    compile_keepsOrigins reachable_interleavedOnce _ _⟩

end Filtergraph
