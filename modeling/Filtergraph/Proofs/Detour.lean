import Filtergraph.Proofs.Survey
import Filtergraph.Proofs.WellFormed

/-!
# Detours

Both passes that change the wiring do the same thing: they put a new node behind a node,
and let some slots that read the node read the new one instead. We call this a detour.
A detour moves its slots one at a time, each time the first slot of a consumer that still
reads the node.

A consumer takes part in a detour with all its slots that read the node, or with none. So
one can say what a list of detours does without looking at the order of events: a slot
that is moved reads the new node at the same place among the slots, the ports come in the
order in which the detour lists them, and every other slot is as before.
-/

namespace Filtergraph

/-! ## Filling slots -/

/-- Puts the given edges, in order, into the slots that read `old`, as far as they go. -/
def substitute (old : NodeId) : List Edge → List Edge → List Edge
  | _, [] => []
  | [], e :: es => e :: es
  | new :: news, e :: es =>
    if e.node = old then new :: substitute old news es
    else e :: substitute old (new :: news) es

variable {old : NodeId} {new : Edge} {news es es' : List Edge}

@[simp] theorem substitute_none (old : NodeId) (es : List Edge) : substitute old [] es = es := by
  cases es with
  | nil => rfl
  | cons e es => rfl

/-- Filling the first slot and then the others is filling all of them. -/
theorem substitute_redirectFirst (h : Graph.redirectFirst old new es = some es')
    (hne : new.node ≠ old) : substitute old news es' = substitute old (new :: news) es := by
  induction es generalizing es' with
  | nil => exact absurd h (by simp [Graph.redirectFirst])
  | cons e es ih =>
    rw [Graph.redirectFirst] at h
    by_cases he : e.node = old
    · rw [if_pos he] at h
      injection h with h
      subst h
      rw [substitute, if_pos he]
      cases news with
      | nil => simp
      | cons new' news => rw [substitute, if_neg hne]
    · rw [if_neg he] at h
      obtain ⟨rest, hrest, rfl⟩ := Option.map_eq_some_iff.mp h
      rw [substitute, if_neg he, ← ih hrest]
      cases news with
      | nil => simp
      | cons new' news => rw [substitute, if_neg he]

theorem exists_redirectFirst (new : Edge) (h : 0 < es.countP (·.node = old)) :
    ∃ es', Graph.redirectFirst old new es = some es' := by
  induction es with
  | nil => exact absurd h (by simp)
  | cons e es ih =>
    rw [Graph.redirectFirst]
    by_cases he : e.node = old
    · exact ⟨new :: es, if_pos he⟩
    · rw [List.countP_cons_of_neg (by simpa using he)] at h
      obtain ⟨es', hes⟩ := ih h
      exact ⟨e :: es', by rw [if_neg he, hes]; rfl⟩

theorem countP_redirectFirst (h : Graph.redirectFirst old new es = some es')
    (hne : new.node ≠ old) : es'.countP (·.node = old) + 1 = es.countP (·.node = old) := by
  obtain ⟨front, e, back, rfl, he, _, rfl⟩ := Graph.redirectFirst_spec h
  rw [List.countP_append, List.countP_append, List.countP_cons_of_neg (by simpa using hne),
    List.countP_cons_of_pos (by simpa using he)]
  omega

/-- When there is an edge for every slot, exactly the slots that read `old` change. -/
theorem forall₂_substitute (h : news.length = es.countP (·.node = old)) :
    List.Forall₂ (fun e e' => (e.node = old ∧ e' ∈ news) ∨ (e.node ≠ old ∧ e' = e))
      es (substitute old news es) := by
  induction es generalizing news with
  | nil => rw [substitute]; exact .nil
  | cons e es ih =>
    -- a slot that reads the old node takes the next edge, and there is one
    by_cases he : e.node = old
    · rw [List.countP_cons_of_pos (by simpa using he)] at h
      cases news with
      | nil => exact absurd h (by simp)
      | cons new news =>
        rw [substitute, if_pos he]
        simp only [List.length_cons, Nat.add_right_cancel_iff] at h
        refine .cons (Or.inl ⟨he, List.mem_cons_self⟩) ((ih h).imp ?_)
        rintro d d' (⟨hd, hmem⟩ | hd)
        · exact Or.inl ⟨hd, List.mem_cons_of_mem _ hmem⟩
        · exact Or.inr hd
    · rw [List.countP_cons_of_neg (by simpa using he)] at h
      have hstep : substitute old news (e :: es) = e :: substitute old news es := by
        cases news with
        | nil => simp
        | cons new news => rw [substitute, if_neg he]
      rw [hstep]
      exact .cons (Or.inr ⟨he, rfl⟩) (ih h)

/-- The slots that changed hold the new edges, in their order. -/
theorem filter_substitute_new {new : NodeId} (h : news.length = es.countP (·.node = old))
    (hnew : ∀ d ∈ news, d.node = new) (hes : ∀ e ∈ es, e.node ≠ new) :
    (substitute old news es).filter (·.node = new) = news := by
  induction es generalizing news with
  | nil =>
    rw [List.countP_nil, List.length_eq_zero_iff] at h
    rw [h, substitute]
    rfl
  | cons e es ih =>
    have hrest : ∀ d ∈ es, d.node ≠ new := fun d hd => hes d (List.mem_cons_of_mem _ hd)
    cases news with
    | nil =>
      rw [substitute_none, List.filter_eq_nil_iff]
      intro d hd
      simpa using hes d hd
    | cons d news =>
      rw [substitute]
      by_cases he : e.node = old
      · rw [List.countP_cons_of_pos (by simpa using he)] at h
        simp only [List.length_cons, Nat.add_right_cancel_iff] at h
        rw [if_pos he, List.filter_cons_of_pos (by simpa using hnew d List.mem_cons_self),
          ih h (fun x hx => hnew x (List.mem_cons_of_mem _ hx)) hrest]
      · rw [List.countP_cons_of_neg (by simpa using he)] at h
        rw [if_neg he, List.filter_cons_of_neg (by simpa using hes e List.mem_cons_self),
          ih h hnew hrest]

/-- Slots that read something else are not looked at. -/
theorem filter_substitute_other {p : Edge → Bool} (hold : ∀ e ∈ es, e.node = old → p e = false)
    (hnew : ∀ d ∈ news, p d = false) : (substitute old news es).filter p = es.filter p := by
  induction es generalizing news with
  | nil => rw [substitute]
  | cons e es ih =>
    have hrest : ∀ d ∈ es, d.node = old → p d = false :=
      fun d hd => hold d (List.mem_cons_of_mem _ hd)
    cases news with
    | nil => rw [substitute_none]
    | cons d news =>
      rw [substitute]
      by_cases he : e.node = old
      · rw [if_pos he, List.filter_cons_of_neg (by simp [hnew d List.mem_cons_self]),
          List.filter_cons_of_neg (by simp [hold e List.mem_cons_self he]),
          ih hrest fun x hx => hnew x (List.mem_cons_of_mem _ hx)]
      · rw [if_neg he, List.filter_cons, List.filter_cons, ih hrest hnew]

/-! ## Moving slots of several consumers -/

open Filtergraph.Graph

/-- Points the first slot of each listed consumer that still reads `old` at its edge. -/
def redirectAll (old : NodeId) : List (NodeId × Edge) → Graph → Option Graph
  | [], g => some g
  | (c, new) :: moves, g => (g.redirect? c old new).bind (redirectAll old moves)

/-- The edges that a consumer gets. -/
def edgesFor (c : NodeId) (moves : List (NodeId × Edge)) : List Edge :=
  (moves.filter (·.1 = c)).map Prod.snd

theorem edgesFor_cons (c d : NodeId) (new : Edge) (moves : List (NodeId × Edge)) :
    edgesFor c ((d, new) :: moves)
      = if d = c then new :: edgesFor c moves else edgesFor c moves := by
  unfold edgesFor
  by_cases hd : d = c
  · rw [if_pos hd, List.filter_cons_of_pos (by simpa using hd), List.map_cons]
  · rw [if_neg hd, List.filter_cons_of_neg (by simpa using hd)]

/-- Moving one slot first and filling the others then is filling them all. -/
theorem node?_redirect? {g g₁ : Graph} {d : NodeId} (h : g.redirect? d old new = some g₁)
    (hne : new.node ≠ old) (news : List Edge) (c : NodeId) :
    (g₁.node? c).map (fun n => (⟨n.kind, substitute old news n.inputs⟩ : Node))
      = (g.node? c).map fun n =>
        ⟨n.kind, substitute old (if d = c then new :: news else news) n.inputs⟩ := by
  obtain ⟨n, es, hn, hes, rfl⟩ := redirect?_cases h
  rw [node?_set hn]
  by_cases hc : c = d
  · subst hc
    rw [if_pos rfl, if_pos rfl, hn, Option.map_some, Option.map_some,
      substitute_redirectFirst hes hne]
  · rw [if_neg hc, if_neg (Ne.symm hc)]

/-- As long as every consumer has slots enough, all moves can be made. -/
theorem redirectAll_spec {g : Graph} (moves : List (NodeId × Edge))
    (hne : ∀ m ∈ moves, m.2.node ≠ old)
    (hroom : ∀ c, (edgesFor c moves).length ≤ (g.inputs c).countP (·.node = old)) :
    ∃ g', redirectAll old moves g = some g' ∧ g'.size = g.size ∧ ∀ c, g'.node? c
      = (g.node? c).map fun n => ⟨n.kind, substitute old (edgesFor c moves) n.inputs⟩ := by
  induction moves generalizing g with
  | nil =>
    refine ⟨g, rfl, rfl, fun c => ?_⟩
    cases hc : g.node? c with
    | none => rfl
    | some n => simp [edgesFor]
  | cons m moves ih =>
    obtain ⟨d, new⟩ := m
    have hd := hne (d, new) List.mem_cons_self
    -- the consumer exists and has a slot to move
    have hslot : 0 < (g.inputs d).countP (·.node = old) := by
      have := hroom d
      rw [edgesFor_cons, if_pos rfl, List.length_cons] at this
      omega
    obtain ⟨n, hn⟩ : ∃ n, g.node? d = some n := by
      cases hd : g.node? d with
      | none => rw [inputs_of_none hd] at hslot; exact absurd hslot (by simp)
      | some n => exact ⟨n, rfl⟩
    rw [inputs_of_node? hn] at hslot
    obtain ⟨es, hes⟩ := exists_redirectFirst new hslot
    have hred : g.redirect? d old new = some (g.set d ⟨n.kind, es⟩) := by
      unfold redirect?
      rw [hn]
      dsimp only
      rw [hes, Option.map_some]
    -- the move uses up one slot and one edge of the same consumer
    have hroom' : ∀ c, (edgesFor c moves).length
        ≤ ((g.set d ⟨n.kind, es⟩).inputs c).countP (·.node = old) := by
      intro c
      have hc := hroom c
      rw [edgesFor_cons] at hc
      rw [inputs, node?_set hn]
      by_cases hcd : c = d
      · rw [if_pos hcd.symm, List.length_cons, hcd, inputs_of_node? hn,
          ← countP_redirectFirst hes hd] at hc
        rw [if_pos hcd, hcd]
        exact Nat.le_of_succ_le_succ hc
      · rw [if_neg (Ne.symm hcd)] at hc
        rw [if_neg hcd]
        exact hc
    obtain ⟨g', hg', hsize, hnode⟩ := ih (fun m hm => hne m (List.mem_cons_of_mem _ hm)) hroom'
    refine ⟨g', by rw [redirectAll, hred]; exact hg', by rw [hsize, size_set], fun c => ?_⟩
    rw [hnode c, node?_redirect? hred hd, edgesFor_cons]

/-! ## One detour -/

/-- A new node behind `node`, and who reads it instead, in order, at which port. -/
structure Detour where
  node : NodeId
  kind : Kind
  moves : List (NodeId × Nat)

namespace Detour

/-- The ports that a consumer gets. -/
def ports (d : Detour) (c : NodeId) : List Nat :=
  (d.moves.filter (·.1 = c)).map Prod.snd

/-- Adds the node and moves the slots. -/
def apply (d : Detour) (g : Graph) : Option Graph :=
  redirectAll d.node (d.moves.map fun m => (m.1, ⟨⟨g.size⟩, m.2⟩)) (g.push d.kind [⟨d.node, 0⟩])

theorem edgesFor_moves (d : Detour) (split c : NodeId) :
    edgesFor c (d.moves.map fun m => (m.1, ⟨split, m.2⟩))
      = (d.ports c).map fun p => ⟨split, p⟩ := by
  unfold edgesFor ports
  rw [List.filter_map, List.map_map, List.map_map]
  rfl

/-- A detour can be made where every consumer has slots for its ports, and it changes nothing else.
-/
theorem apply_spec {d : Detour} {g : Graph} (hnode : d.node.index < g.size)
    (hroom : ∀ c, (d.ports c).length ≤ (g.inputs c).countP (·.node = d.node)) :
    ∃ g', d.apply g = some g' ∧ g'.size = g.size + 1
      ∧ g'.node? ⟨g.size⟩ = some ⟨d.kind, [⟨d.node, 0⟩]⟩
      ∧ ∀ c, c.index < g.size → g'.node? c = (g.node? c).map fun n =>
        ⟨n.kind, substitute d.node ((d.ports c).map fun p => ⟨⟨g.size⟩, p⟩) n.inputs⟩ := by
  have hself : (⟨g.size⟩ : NodeId) ≠ d.node := by
    intro he
    rw [← he] at hnode
    exact Nat.lt_irrefl _ hnode
  -- nothing but older nodes takes part, since only they have slots to move
  have hlast : d.ports ⟨g.size⟩ = [] := by
    have hge : g.size ≤ (⟨g.size⟩ : NodeId).index := Nat.le_refl _
    have := hroom ⟨g.size⟩
    rw [inputs_of_none (node?_eq_none hge)] at this
    exact List.length_eq_zero_iff.mp (Nat.le_zero.mp this)
  have hne : ∀ m ∈ d.moves.map fun m => (m.1, (⟨⟨g.size⟩, m.2⟩ : Edge)), m.2.node ≠ d.node := by
    intro m hm
    obtain ⟨m', _, rfl⟩ := List.mem_map.mp hm
    exact hself
  have hroom' : ∀ c, (edgesFor c (d.moves.map fun m => (m.1, ⟨⟨g.size⟩, m.2⟩))).length
      ≤ ((g.push d.kind [⟨d.node, 0⟩]).inputs c).countP (·.node = d.node) := by
    intro c
    rw [edgesFor_moves, List.length_map, inputs, node?_push]
    by_cases hc : c = ⟨g.size⟩
    · rw [hc, hlast]
      exact Nat.zero_le _
    · rw [if_neg hc]
      exact hroom c
  obtain ⟨g', hg', hsize, hnodes⟩ := redirectAll_spec _ hne hroom'
  refine ⟨g', hg', by rw [hsize, size_push], ?_, ?_⟩
  · rw [hnodes, node?_push_self, edgesFor_moves, hlast]
    simp
  · intro c hc
    rw [hnodes, node?_push_of_lt hc, edgesFor_moves]

end Detour

/-! ## Several detours -/

theorem new_ne {size : Nat} {x : NodeId} (hx : x.index < size) (i : Nat) :
    (⟨size + i⟩ : NodeId) ≠ x := by
  rintro rfl
  exact absurd hx (by simp)

/-- How a slot of `c` fares when detours are made in a graph of `size` nodes. It reads the
new node of the detour if `c` takes part in one, and else stays as it is. -/
def Moved (size : Nat) (ds : List Detour) (c : NodeId) (e e' : Edge) : Prop :=
  (∃ i d, ds[i]? = some d ∧ d.node = e.node ∧ d.ports c ≠ [] ∧ e'.node = ⟨size + i⟩) ∨
  ((∀ d ∈ ds, d.node = e.node → d.ports c = []) ∧ e' = e)

/-- `g'` is `g` with some detours. -/
structure Rerouted (g : Graph) (ds : List Detour) (g' : Graph) : Prop where
  /-- One node is added for each detour. -/
  size : g'.size = g.size + ds.length
  /-- The new nodes read those they are put behind. -/
  added : ∀ i d, ds[i]? = some d → g'.node? ⟨g.size + i⟩ = some ⟨d.kind, [⟨d.node, 0⟩]⟩
  /-- The nodes of `g` keep their roles, and their slots stay or are moved. -/
  kept : ∀ c n, g.node? c = some n →
    ∃ es, g'.node? c = some ⟨n.kind, es⟩ ∧ List.Forall₂ (Moved g.size ds c) n.inputs es
  /-- The slots of a node that read a new node hold the listed ports, in order. -/
  ports : ∀ i d c, ds[i]? = some d → c.index < g.size →
    (g'.inputs c).filter (·.node = ⟨g.size + i⟩) = (d.ports c).map fun p => ⟨⟨g.size + i⟩, p⟩

namespace Rerouted

variable {g g' : Graph} {ds : List Detour}

theorem refl (g : Graph) : Rerouted g [] g where
  size := rfl
  added := by intro i d h; exact absurd h (by simp)
  kept := by
    intro c n hn
    refine ⟨n.inputs, hn, List.forall₂_same.mpr fun e _ => Or.inr ⟨?_, rfl⟩⟩
    intro d hd
    exact absurd hd (by simp)
  ports := by intro i d c h; exact absurd h (by simp)

theorem kind? (h : Rerouted g ds g') {c : NodeId} (hc : c.index < g.size) :
    g'.kind? c = g.kind? c := by
  obtain ⟨n, hn⟩ := exists_node? hc
  obtain ⟨es, hes, _⟩ := h.kept c n hn
  rw [kind?_of_node? hn, kind?_of_node? hes]

theorem slots (h : Rerouted g ds g') {c : NodeId} (hc : c.index < g.size) :
    List.Forall₂ (Moved g.size ds c) (g.inputs c) (g'.inputs c) := by
  obtain ⟨n, hn⟩ := exists_node? hc
  obtain ⟨es, hes, hall⟩ := h.kept c n hn
  rw [inputs_of_node? hn, inputs_of_node? hes]
  exact hall

/-- A node that takes part in no detour is as before. -/
theorem node?_eq (h : Rerouted g ds g') {c : NodeId} {n : Node} (hn : g.node? c = some n)
    (hnone : ∀ d ∈ ds, d.ports c = []) : g'.node? c = some n := by
  obtain ⟨es, hes, hall⟩ := h.kept c n hn
  have hsame : List.Forall₂ (· = ·) n.inputs es := by
    refine hall.imp fun e e' hm => ?_
    rcases hm with ⟨i, d, hd, _, hports, _⟩ | ⟨_, he⟩
    · exact absurd (hnone d (List.mem_of_getElem? hd)) hports
    · exact he.symm
  rw [List.forall₂_eq_eq_eq] at hsame
  rw [hes, ← hsame]

/-- Of a node without detour the same slots are read as before. -/
theorem moved_reads_iff {x c : NodeId} {e e' : Edge} (hx : x.index < g.size)
    (hds : ∀ d ∈ ds, d.node ≠ x) (h : Moved g.size ds c e e') : e.node = x ↔ e'.node = x := by
  rcases h with ⟨i, d, hd, hde, _, he'⟩ | ⟨_, rfl⟩
  · exact ⟨fun he => absurd (hde.trans he) (hds d (List.mem_of_getElem? hd)),
      fun he => absurd (he'.symm.trans he) (new_ne hx i)⟩
  · exact Iff.rfl

theorem countP_reads (h : Rerouted g ds g') {x c : NodeId} (hx : x.index < g.size)
    (hds : ∀ d ∈ ds, d.node ≠ x) (hc : c.index < g.size) :
    (g.inputs c).countP (·.node = x) = (g'.inputs c).countP (·.node = x) := by
  refine forall₂_countP (h.slots hc) fun e e' hm => ?_
  rw [decide_eq_decide]
  exact moved_reads_iff hx hds hm

theorem moved_snoc_stay {c : NodeId} {d : Detour} {e e' : Edge} (h : Moved g.size ds c e e')
    (hstay : d.node = e.node → d.ports c = []) : Moved g.size (ds ++ [d]) c e e' := by
  rcases h with ⟨i, d', hd', hrest⟩ | ⟨hall, rfl⟩
  · exact Or.inl ⟨i, d', getElem?_snoc hd' d, hrest⟩
  · exact Or.inr
      ⟨List.forall_mem_append.mpr ⟨hall, List.forall_mem_singleton.mpr hstay⟩, rfl⟩

theorem lt_of_mem (h : Rerouted g ds g') (hclosed : ∀ c x, g.Reads c x → x.index < g.size)
    {c : NodeId} (hc : c.index < g.size) {e' : Edge} (he : e' ∈ g'.inputs c) :
    e'.node.index < g'.size := by
  obtain ⟨e, hmem, hm⟩ := forall₂_exists_left (h.slots hc) he
  rw [h.size]
  rcases hm with ⟨i, d, hd, _, _, he'⟩ | ⟨_, rfl⟩
  · have hi := (List.getElem?_eq_some_iff.mp hd).1
    rw [he']
    exact Nat.add_lt_add_left hi _
  · exact Nat.lt_of_lt_of_le (hclosed c _ ⟨_, hmem, rfl⟩) (Nat.le_add_right _ _)

/-- A detour that takes all slots of a consumer that read the node. -/
theorem moved_snoc_full {c : NodeId} {d : Detour} {e e₁ e₂ : Edge} (hnode : d.node.index < g.size)
    (hnew : ∀ d' ∈ ds, d'.node ≠ d.node) (h : Moved g.size ds c e e₁)
    (hsub : (e₁.node = d.node ∧ e₂ ∈ (d.ports c).map fun p => ⟨⟨g.size + ds.length⟩, p⟩) ∨
      (e₁.node ≠ d.node ∧ e₂ = e₁)) : Moved g.size (ds ++ [d]) c e e₂ := by
  have hiff := moved_reads_iff hnode hnew h
  rcases hsub with ⟨he₁, he₂⟩ | ⟨he₁, rfl⟩
  · obtain ⟨p, hp, rfl⟩ := List.mem_map.mp he₂
    exact Or.inl ⟨ds.length, d, List.getElem?_concat_length, (hiff.mpr he₁).symm,
      List.ne_nil_of_mem hp, rfl⟩
  · exact moved_snoc_stay h fun he => absurd (hiff.mp he.symm) he₁

section Snoc

variable {d : Detour} {c : NodeId} (h : Rerouted g ds g') (hnode : d.node.index < g.size)
  (hnew : ∀ d' ∈ ds, d'.node ≠ d.node)
  (hports : ∀ c, d.ports c = [] ∨ (d.ports c).length = (g.inputs c).countP (·.node = d.node))

include hports in
theorem ports_of_late (hc : g.size ≤ c.index) : d.ports c = [] := by
  rcases hports c with hnil | hlen
  · exact hnil
  · rw [inputs_of_none (node?_eq_none hc)] at hlen
    exact List.length_eq_zero_iff.mp hlen

include h hnode hnew hports

/-- A consumer has slots for all its ports, since no earlier detour took them. -/
theorem ports_length_le (c : NodeId) :
    (d.ports c).length ≤ (g'.inputs c).countP (·.node = d.node) := by
  by_cases hc : c.index < g.size
  · rw [← h.countP_reads hnode hnew hc]
    rcases hports c with hnil | hlen
    · rw [hnil]
      exact Nat.zero_le _
    · exact Nat.le_of_eq hlen
  · rw [ports_of_late hports (Nat.le_of_not_lt hc)]
    exact Nat.zero_le _

/-- The slots of an old node after one more detour. -/
theorem moved_substitute (hc : c.index < g.size) : List.Forall₂ (Moved g.size (ds ++ [d]) c)
    (g.inputs c) (substitute d.node ((d.ports c).map fun p => ⟨⟨g'.size⟩, p⟩) (g'.inputs c)) := by
  rcases hports c with hnil | hlen
  · rw [hnil, List.map_nil, substitute_none]
    exact (h.slots hc).imp fun e e' hm => moved_snoc_stay hm fun _ => hnil
  · have hfull : ((d.ports c).map fun p => (⟨⟨g.size + ds.length⟩, p⟩ : Edge)).length
        = (g'.inputs c).countP (·.node = d.node) := by
      rw [List.length_map, hlen, h.countP_reads hnode hnew hc]
    rw [h.size]
    -- first the detours made so far, then the new one on top of them
    refine forall₂_trans ?_ (h.slots hc) (forall₂_substitute hfull)
    exact fun _ _ _ hm hsub => moved_snoc_full hnode hnew hm hsub

theorem filter_substitute_last (hclosed : ∀ c x, g.Reads c x → x.index < g.size)
    (hc : c.index < g.size) :
    (substitute d.node ((d.ports c).map fun p => ⟨⟨g'.size⟩, p⟩) (g'.inputs c)).filter
      (·.node = ⟨g'.size⟩) = (d.ports c).map fun p => ⟨⟨g'.size⟩, p⟩ := by
  have hfresh : ∀ e ∈ g'.inputs c, e.node ≠ ⟨g'.size⟩ :=
    fun e he => (new_ne (h.lt_of_mem hclosed hc he) 0).symm
  -- the consumer takes no part, or all its slots are moved
  rcases hports c with hnil | hlen
  · rw [hnil, List.map_nil, substitute_none, List.filter_eq_nil_iff]
    intro e he
    simpa using hfresh e he
  · refine filter_substitute_new ?_ ?_ hfresh
    · rw [List.length_map, hlen, h.countP_reads hnode hnew hc]
    · intro e he
      obtain ⟨p, _, rfl⟩ := List.mem_map.mp he
      rfl

/-- **One more detour**, behind a node that has none yet. -/
theorem snoc (hclosed : ∀ c x, g.Reads c x → x.index < g.size) :
    ∃ g'', d.apply g' = some g'' ∧ Rerouted g (ds ++ [d]) g'' := by
  have hle : g.size ≤ g'.size := by rw [h.size]; exact Nat.le_add_right _ _
  obtain ⟨g'', happly, hsize, hlast, hold⟩ :=
    Detour.apply_spec (Nat.lt_of_lt_of_le hnode hle) (h.ports_length_le hnode hnew hports)
  refine ⟨g'', happly, ?_⟩
  constructor
  case size =>
    rw [hsize, h.size, List.length_append, List.length_singleton]
    omega
  case added =>
    intro i d' hd'
    rcases getElem?_snoc_cases hd' with hd' | ⟨rfl, rfl⟩
    · -- a new node takes part in no later detour
      have hi := (List.getElem?_eq_some_iff.mp hd').1
      rw [hold _ (by rw [h.size]; exact Nat.add_lt_add_left hi _), h.added i d' hd',
        Option.map_some, ports_of_late hports (Nat.le_add_right _ _)]
      simp
    · rw [← h.size]
      exact hlast
  case kept =>
    intro c n hn
    have hc := index_lt_of_node? hn
    obtain ⟨es, hes, _⟩ := h.kept c n hn
    refine ⟨_, by rw [hold c (Nat.lt_of_lt_of_le hc hle), hes]; rfl, ?_⟩
    have hmoved := h.moved_substitute hnode hnew hports hc
    rwa [inputs_of_node? hn, inputs_of_node? hes] at hmoved
  case ports =>
    intro i d' c hd' hc
    have hc' := Nat.lt_of_lt_of_le hc hle
    obtain ⟨m, hm⟩ := exists_node? hc'
    have hin : g''.inputs c = substitute d.node
        ((d.ports c).map fun p => ⟨⟨g'.size⟩, p⟩) (g'.inputs c) := by
      rw [inputs, hold c hc', inputs_of_node? hm, hm]
      rfl
    rw [hin]
    rcases getElem?_snoc_cases hd' with hd' | ⟨rfl, rfl⟩
    · -- ports of earlier detours are not touched
      have hi := (List.getElem?_eq_some_iff.mp hd').1
      rw [← h.ports i d' c hd' hc]
      refine filter_substitute_other ?_ ?_
      · intro e _ he
        rw [decide_eq_false_iff_not, he]
        exact (new_ne hnode i).symm
      · intro e he
        obtain ⟨p, _, rfl⟩ := List.mem_map.mp he
        rw [decide_eq_false_iff_not, NodeId.mk.injEq, h.size]
        omega
    · rw [← h.size]
      exact h.filter_substitute_last hnode hnew hports hclosed hc

end Snoc

/-! ## What is reached after detours -/

/-- The node behind which a new node stands; an old node stands for itself. -/
def origin (g : Graph) (ds : List Detour) (x : NodeId) : NodeId :=
  if x.index < g.size then x else (ds[x.index - g.size]?).elim x Detour.node

theorem origin_old (ds : List Detour) {x : NodeId} (hx : x.index < g.size) :
    origin g ds x = x := by
  rw [origin, if_pos hx]

theorem origin_new {i : Nat} {d : Detour} (hd : ds[i]? = some d) :
    origin g ds ⟨g.size + i⟩ = d.node := by
  have hge : ¬ (⟨g.size + i⟩ : NodeId).index < g.size := by simp
  rw [origin, if_neg hge]
  show (ds[g.size + i - g.size]?).elim _ _ = _
  rw [Nat.add_sub_cancel_left, hd]
  rfl

/-- What is new stands behind the node of some detour. -/
theorem exists_detour (h : Rerouted g ds g') {c : NodeId} (hc : ¬ c.index < g.size) {n : Node}
    (hn : g'.node? c = some n) :
    ∃ i d, ds[i]? = some d ∧ c = ⟨g.size + i⟩ ∧ n = ⟨d.kind, [⟨d.node, 0⟩]⟩ := by
  have hlt := index_lt_of_node? hn
  rw [h.size] at hlt
  have hi : c.index - g.size < ds.length := by omega
  have hc' : c = ⟨g.size + (c.index - g.size)⟩ := by
    obtain ⟨k⟩ := c
    simp only [NodeId.mk.injEq] at hc ⊢
    omega
  refine ⟨_, ds[c.index - g.size], List.getElem?_eq_getElem hi, hc', ?_⟩
  have hadd := h.added _ _ (List.getElem?_eq_getElem hi)
  rw [← hc', hn] at hadd
  injection hadd

/-- A slot that is moved still leads to the node that it read. -/
theorem origin_moved {c : NodeId} {e e' : Edge} (he : e.node.index < g.size)
    (h : Moved g.size ds c e e') : origin g ds e'.node = e.node := by
  rcases h with ⟨i, d, hd, hnode, _, hnew⟩ | ⟨_, rfl⟩
  · rw [hnew, origin_new hd, hnode]
  · exact origin_old ds he

/-- An old node reads, up to detours, what it read before; a new node reads the one that it
stands behind. -/
theorem reads_origin (h : Rerouted g ds g') (hclosed : ∀ c x, g.Reads c x → x.index < g.size)
    {c x : NodeId} (hr : g'.Reads c x) :
    (c.index < g.size ∧ g.Reads c (origin g ds x)) ∨
      ∃ i d, ds[i]? = some d ∧ c = ⟨g.size + i⟩ ∧ x = d.node := by
  obtain ⟨e', he', rfl⟩ := hr
  by_cases hc : c.index < g.size
  · obtain ⟨e, he, hm⟩ := forall₂_exists_left (h.slots hc) he'
    exact Or.inl ⟨hc, e, he, (origin_moved (hclosed c _ ⟨_, he, rfl⟩) hm).symm⟩
  · obtain ⟨n, hn, hmem⟩ := node?_of_mem_inputs he'
    obtain ⟨i, d, hd, rfl, rfl⟩ := h.exists_detour hc hn
    exact Or.inr ⟨i, d, hd, rfl, by rw [List.mem_singleton.mp hmem]⟩

/-- What is reached after the detours comes from what was reached before. -/
theorem reached_origin (h : Rerouted g ds g') (hclosed : ∀ c x, g.Reads c x → x.index < g.size)
    (hnodes : ∀ d ∈ ds, d.node.index < g.size) {roots roots' : List NodeId}
    (hroots : ∀ r ∈ roots', origin g ds r ∈ roots) {x : NodeId} (hx : g'.Reached roots' x) :
    g.Reached roots (origin g ds x) := by
  obtain ⟨root, hroot, hpath⟩ := hx
  induction hpath with
  | refl => exact .root (hroots root hroot)
  | tail _ hr ih =>
    rcases h.reads_origin hclosed hr with ⟨hc, hread⟩ | ⟨i, d, hd, rfl, rfl⟩
    · rw [origin_old ds hc] at ih
      exact ih.reads hread
    · -- the path goes through a new node to its origin, which is old
      rw [origin_new hd] at ih
      rw [origin_old ds (hnodes d (List.mem_of_getElem? hd))]
      exact ih

/-- A slot still leads where it led, perhaps with a stop on the way. -/
theorem path_of_reads (h : Rerouted g ds g') {c x : NodeId} (hr : g.Reads c x) :
    Relation.TransGen g'.Reads c x := by
  obtain ⟨e, he, rfl⟩ := hr
  obtain ⟨n, hn, _⟩ := node?_of_mem_inputs he
  obtain ⟨e', he', hm⟩ := forall₂_exists_right (h.slots (index_lt_of_node? hn)) he
  rcases hm with ⟨i, d, hd, hde, _, hx⟩ | ⟨_, rfl⟩
  -- through the new node, which reads what the slot read
  · have hstop : g'.Reads ⟨g.size + i⟩ e.node := by
      refine ⟨⟨d.node, 0⟩, ?_, hde⟩
      rw [inputs_of_node? (h.added i d hd)]
      exact List.mem_cons_self
    exact .tail (.single ⟨e', he', hx⟩) hstop
  · exact .single ⟨_, he', rfl⟩

/-- Whatever was reached is still reached, through new nodes if need be. -/
theorem reached_of_reached (h : Rerouted g ds g') {roots roots' : List NodeId}
    (hroots : ∀ r ∈ roots, g'.Reached roots' r) {x : NodeId} (hx : g.Reached roots x) :
    g'.Reached roots' x := by
  obtain ⟨root, hroot, hpath⟩ := hx
  induction hpath with
  | refl => exact hroots root hroot
  | tail _ hr ih =>
    obtain ⟨start, hstart, hpath⟩ := ih
    exact ⟨start, hstart, hpath.trans (h.path_of_reads hr).to_reflTransGen⟩

/-- Detours make no cycles: a new node fits between its origin and the readers of it. -/
theorem not_onCycle (h : Rerouted g ds g') (hclosed : ∀ c x, g.Reads c x → x.index < g.size)
    (hnodes : ∀ d ∈ ds, d.node.index < g.size) {roots roots' : List NodeId}
    (hroots : ∀ r ∈ roots', origin g ds r ∈ roots) {height : NodeId → Nat}
    (hheight : ∀ c, g.Reached roots c → ∀ x, g.Reads c x → height x < height c)
    {x : NodeId} (hx : g'.Reached roots' x) : ¬ g'.OnCycle x := by
  -- twice the height of the origin, and one more for a new node, goes down along every slot
  have hdown : ∀ c, g'.Reached roots' c → ∀ y, g'.Reads c y →
      2 * height (origin g ds y) + (if y.index < g.size then 0 else 1)
        < 2 * height (origin g ds c) + (if c.index < g.size then 0 else 1) := by
    intro c hc y hr
    rcases h.reads_origin hclosed hr with ⟨hold, hread⟩ | ⟨i, d, hd, rfl, rfl⟩
    · have hreach := h.reached_origin hclosed hnodes hroots hc
      rw [origin_old ds hold] at hreach ⊢
      have := hheight c hreach _ hread
      rw [if_pos hold]
      split <;> omega
    · have hlt := hnodes d (List.mem_of_getElem? hd)
      have hnew : ¬ (⟨g.size + i⟩ : NodeId).index < g.size := by simp
      rw [origin_new hd, origin_old ds hlt, if_pos hlt, if_neg hnew]
      omega
  have hpath : ∀ y, Relation.TransGen g'.Reads x y → g'.Reached roots' y ∧
      2 * height (origin g ds y) + (if y.index < g.size then 0 else 1)
        < 2 * height (origin g ds x) + (if x.index < g.size then 0 else 1) := by
    intro y hy
    induction hy with
    | single hr => exact ⟨hx.reads hr, hdown x hx _ hr⟩
    | tail _ hr ih => exact ⟨ih.1.reads hr, Nat.lt_trans (hdown _ ih.1 _ hr) ih.2⟩
  intro hcyc
  exact Nat.lt_irrefl _ (hpath x hcyc).2

/-- If the same old nodes count, a node without detour has as many slots that read it as
before: no new node reads it. -/
theorem slotsReading_length (h : Rerouted g ds g') {x : NodeId} (hx : x.index < g.size)
    (hds : ∀ d ∈ ds, d.node ≠ x) {order order' : List NodeId} (hnd : order.Nodup)
    (hnd' : order'.Nodup) (hlt : ∀ c ∈ order, c.index < g.size)
    (hsame : ∀ c, c.index < g.size → (c ∈ order' ↔ c ∈ order)) :
    (g'.slotsReading order' x).length = (g.slotsReading order x).length := by
  have hnew : g'.slotsReading (order'.filter fun c => !decide (c.index < g.size)) x = [] := by
    refine slotsReading_eq_nil fun c hc hr => ?_
    have hlate := (List.mem_filter.mp hc).2
    rw [Bool.not_eq_true', decide_eq_false_iff_not] at hlate
    obtain ⟨e, he, rfl⟩ := hr
    obtain ⟨n, hn, hmem⟩ := node?_of_mem_inputs he
    obtain ⟨i, d, hd, _, rfl⟩ := h.exists_detour hlate hn
    exact hds d (List.mem_of_getElem? hd) (by rw [List.mem_singleton.mp hmem])
  -- the listed nodes are the old ones, and new ones that do not read the node
  have hold : (order'.filter fun c => c.index < g.size).Perm order := by
    refine (List.perm_ext_iff_of_nodup (hnd'.filter _) hnd).mpr fun c => ?_
    rw [List.mem_filter, decide_eq_true_eq]
    constructor
    · rintro ⟨hc, hclt⟩
      exact (hsame c hclt).mp hc
    · intro hc
      exact ⟨(hsame c (hlt c hc)).mpr hc, hlt c hc⟩
  have hsplit : order'.Perm (order ++ order'.filter fun c => !decide (c.index < g.size)) :=
    (List.filter_append_perm (fun c => decide (c.index < g.size)) order').symm.trans
      (hold.append_right _)
  rw [(slotsReading_perm hsplit).length_eq, slotsReading_append, hnew, List.append_nil,
    slotsReading, slotsReading, List.length_flatMap, List.length_flatMap]
  refine congrArg List.sum (List.map_congr_left fun c hc => ?_)
  rw [← List.countP_eq_length_filter, ← List.countP_eq_length_filter]
  exact (h.countP_reads hx hds (hlt c hc)).symm

section Roots

variable {roots roots' order : List NodeId} {r : Readers}

/-- Old nodes are reached as before, if old and new roots lead to each other. -/
theorem reached_old_iff (h : Rerouted g ds g') (hclosed : ∀ c x, g.Reads c x → x.index < g.size)
    (hnodes : ∀ d ∈ ds, d.node.index < g.size) (hto : ∀ r ∈ roots', origin g ds r ∈ roots)
    (hfrom : ∀ r ∈ roots, g'.Reached roots' r) {x : NodeId} (hx : x.index < g.size) :
    g'.Reached roots' x ↔ g.Reached roots x := by
  constructor
  · intro hreached
    have horigin := h.reached_origin hclosed hnodes hto hreached
    rwa [origin_old ds hx] at horigin
  · exact h.reached_of_reached hfrom

/-- **A graph that can be walked can be walked after detours.** -/
theorem exists_build (h : Rerouted g ds g') (hclosed : ∀ c x, g.Reads c x → x.index < g.size)
    (hnodes : ∀ d ∈ ds, d.node.index < g.size) (hto : ∀ r ∈ roots', origin g ds r ∈ roots)
    (hs : Surveys g roots r order) (hwf : g'.WellFormed)
    (hknown : ∀ r ∈ roots', ∃ n, g'.node? r = some n) :
    ∃ r', Readers.build g' roots' = .ok r' := by
  obtain ⟨height, hheight⟩ := hs.settled.exists_height
  have hlower : ∀ c, g.Reached roots c → ∀ y, g.Reads c y → height y < height c :=
    fun c hc => hheight c ((hs.mem_iff c).mpr hc)
  exact Readers.exists_build (fun x hx => hwf.node?_of_reached hknown hx)
    fun x hx => h.not_onCycle hclosed hnodes hto hlower hx

end Roots

end Rerouted

end Filtergraph
