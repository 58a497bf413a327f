import Filtergraph.Command
import Filtergraph.Proofs.Table

/-!
# Well-formed graphs

Every slot names an output that exists, and every node has the slots that its role asks
for. No call can break this, and neither can a compilation, wherever it stops: each pass
changes the table by adding a node that fits and by pointing a slot of an operation at
such a node, and both keep the graph well formed.
-/

namespace Filtergraph

/-- How many outputs a node of this role has. -/
def Kind.ports : Kind → Nat
  | .split fanOut => fanOut
  | _ => 1

namespace Graph

/-- The edge names an output that exists. -/
def HasPort (g : Graph) (e : Edge) : Prop :=
  ∃ n, g.node? e.node = some n ∧ e.port < n.kind.ports

/-- The slots that a node of some role must have. -/
def Shape (g : Graph) : Kind → List Edge → Prop
  | .source _, es => es = []
  | .selector _, es => ∃ e, es = [e] ∧ g.isSource e.node = true
  | .filter f gate, es => es.length = f.arity ∧ (gate.isSome = true → f.acceptsGate = true)
  | .split fanOut, es => 2 ≤ fanOut ∧ ∃ e, es = [e] ∧ g.isSource e.node = false
  | .merge, es => 2 ≤ es.length

/-- The slots of a node are right for its role. -/
structure Fits (g : Graph) (n : Node) : Prop where
  /-- Every slot reads an output that exists. -/
  ports : ∀ e ∈ n.inputs, g.HasPort e
  /-- The slots are as many, and of the kind, that the role asks for. -/
  shape : g.Shape n.kind n.inputs

/-- All nodes have slots that are right for their roles. -/
def WellFormed (g : Graph) : Prop :=
  ∀ id n, g.node? id = some n → g.Fits n

/-- The nodes of `g` are still there and keep their outputs, and media files stay what
they are. -/
def KeepsRoles (g g' : Graph) : Prop :=
  ∀ id n, g.node? id = some n → ∃ n', g'.node? id = some n' ∧
    n'.kind.isSource = n.kind.isSource ∧ n'.kind.ports = n.kind.ports

variable {g g' : Graph} {id : NodeId} {n : Node}

/-! ## What a slot reads in a well-formed graph -/

/-- Whatever is read exists. -/
theorem WellFormed.node?_of_reads (h : g.WellFormed) {c x : NodeId} (hr : g.Reads c x) :
    ∃ n, g.node? x = some n := by
  obtain ⟨e, he, rfl⟩ := hr
  obtain ⟨m, hm, hmem⟩ := node?_of_mem_inputs he
  obtain ⟨n, hn, _⟩ := (h c m hm).ports e hmem
  exact ⟨n, hn⟩

theorem WellFormed.closed (h : g.WellFormed) : ∀ c x, g.Reads c x → x.index < g.size := by
  intro c x hr
  obtain ⟨n, hn⟩ := h.node?_of_reads hr
  exact index_lt_of_node? hn

/-- From roots that exist, only nodes that exist are reached. -/
theorem WellFormed.node?_of_reached (h : g.WellFormed) {roots : List NodeId}
    (hroots : ∀ r ∈ roots, ∃ n, g.node? r = some n) {x : NodeId} (hx : g.Reached roots x) :
    ∃ n, g.node? x = some n := by
  rcases hx.cases_reader with hroot | ⟨c, _, hr⟩
  · exact hroots x hroot
  · exact h.node?_of_reads hr

/-- Whatever reads a node that is no media file is an operation. -/
theorem WellFormed.isOperation_of_reads (h : g.WellFormed) {c x : NodeId} (hr : g.Reads c x)
    (hx : g.isSource x = false) : g.isOperation c = true := by
  obtain ⟨e, he, rfl⟩ := hr
  obtain ⟨m, hm, hmem⟩ := node?_of_mem_inputs he
  rw [isOperation_of_node? hm]
  have hshape := (h c m hm).shape
  obtain ⟨kind, inputs⟩ := m
  -- media files read nothing, and selectors read media files only
  cases kind with
  | source s =>
    have hnil : inputs = [] := hshape
    rw [hnil] at hmem
    exact absurd hmem (by simp)
  | selector s =>
    obtain ⟨e', hone, hsrc⟩ := hshape
    have he' : e = e' := List.mem_singleton.mp (hone ▸ hmem)
    rw [he', hsrc] at hx
    exact absurd hx (by simp)
  | filter f gate => rfl
  | split k => rfl
  | merge => rfl

theorem isSource_eq_false_of_isOperation (h : g.isOperation id = true) :
    g.isSource id = false := by
  obtain ⟨n, hn, hop⟩ := node?_of_isOperation h
  rw [isSource_of_node? hn]
  cases hk : n.kind with
  | source s => rw [hk] at hop; exact absurd hop (by simp [Kind.isOperation])
  | selector s => rfl
  | filter f gate => rfl
  | split k => rfl
  | merge => rfl

/-! ## Growing a well-formed graph -/

theorem KeepsRoles.isSource (h : g.KeepsRoles g') (hn : g.node? id = some n) :
    g'.isSource id = g.isSource id := by
  obtain ⟨n', hn', hsrc, _⟩ := h id n hn
  rw [isSource_of_node? hn', isSource_of_node? hn, hsrc]

theorem HasPort.mono {e : Edge} (he : g.HasPort e) (h : g.KeepsRoles g') : g'.HasPort e := by
  obtain ⟨n, hn, hlt⟩ := he
  obtain ⟨n', hn', _, hports⟩ := h e.node n hn
  exact ⟨n', hn', by rwa [hports]⟩

/-- Slots that are right stay right in a graph that keeps the roles of this one. -/
theorem Fits.mono (hn : g.Fits n) (h : g.KeepsRoles g') : g'.Fits n := by
  refine ⟨fun e he => (hn.ports e he).mono h, ?_⟩
  have hsrc : ∀ e ∈ n.inputs, g'.isSource e.node = g.isSource e.node := by
    intro e he
    obtain ⟨m, hm, _⟩ := hn.ports e he
    exact h.isSource hm
  have hshape := hn.shape
  obtain ⟨kind, inputs⟩ := n
  -- only selectors and splits ask what it is that they read
  cases kind with
  | source s => exact hshape
  | selector s =>
    obtain ⟨e, hone, he⟩ := hshape
    exact ⟨e, hone, by rw [hsrc e (by rw [hone]; exact List.mem_cons_self), he]⟩
  | filter f gate => exact hshape
  | split k =>
    obtain ⟨hk, e, hone, he⟩ := hshape
    exact ⟨hk, e, hone, by rw [hsrc e (by rw [hone]; exact List.mem_cons_self), he]⟩
  | merge => exact hshape

theorem keepsRoles_push (g : Graph) (k : Kind) (es : List Edge) : g.KeepsRoles (g.push k es) :=
  fun _ n hn => ⟨n, by rw [node?_push_of_lt (index_lt_of_node? hn), hn], rfl, rfl⟩

theorem keepsRoles_set {m : Node} (hn : g.node? id = some n)
    (hsrc : m.kind.isSource = n.kind.isSource) (hports : m.kind.ports = n.kind.ports) :
    g.KeepsRoles (g.set id m) := by
  intro j p hp
  rw [node?_set hn]
  by_cases hj : j = id
  · subst hj
    rw [hn] at hp
    injection hp with hp
    exact ⟨m, if_pos rfl, by rw [hsrc, hp], by rw [hports, hp]⟩
  · exact ⟨p, by rw [if_neg hj, hp], rfl, rfl⟩

theorem wellFormed_empty : WellFormed {} := by
  intro id n hn
  have hlt := index_lt_of_node? hn
  exact absurd hlt (Nat.not_lt_zero _)

/-- A node that fits may be added. -/
theorem WellFormed.push {k : Kind} {es : List Edge} (h : g.WellFormed) (hfit : g.Fits ⟨k, es⟩) :
    (g.push k es).WellFormed := by
  intro id n hn
  have hkeep := keepsRoles_push g k es
  rw [node?_push] at hn
  -- the new node fits by assumption, the others as before
  split at hn
  · injection hn with hn
    exact hn ▸ hfit.mono hkeep
  · exact (h id n hn).mono hkeep

/-- A node may be replaced by one that fits and that its readers cannot tell from it. -/
theorem WellFormed.set {m : Node} (h : g.WellFormed) (hn : g.node? id = some n)
    (hsrc : m.kind.isSource = n.kind.isSource) (hports : m.kind.ports = n.kind.ports)
    (hfit : g.Fits m) : (g.set id m).WellFormed := by
  intro j p hp
  have hkeep := keepsRoles_set hn hsrc hports
  rw [node?_set hn] at hp
  split at hp
  · injection hp with hp
    exact hp ▸ hfit.mono hkeep
  · exact (h j p hp).mono hkeep

/-! ## Pointing a slot elsewhere -/

/-- The slot that is pointed elsewhere is the first that reads the old node, and the others stay.
-/
theorem redirectFirst_spec {old : NodeId} {new : Edge} {es es' : List Edge}
    (h : redirectFirst old new es = some es') :
    ∃ front e back, es = front ++ e :: back ∧ e.node = old ∧ (∀ d ∈ front, d.node ≠ old) ∧
      es' = front ++ new :: back := by
  -- along the slots, past those that read something else
  induction es generalizing es' with
  | nil => exact absurd h (by simp [redirectFirst])
  | cons e es ih =>
    unfold redirectFirst at h
    split at h
    · injection h with h
      exact ⟨[], e, es, rfl, ‹_›, by simp, h.symm⟩
    · rename_i hne
      obtain ⟨rest, hrest, rfl⟩ := Option.map_eq_some_iff.mp h
      obtain ⟨front, d, back, rfl, hd, hfront, rfl⟩ := ih hrest
      refine ⟨e :: front, d, back, rfl, hd, ?_, rfl⟩
      intro x hx
      rcases List.mem_cons.mp hx with rfl | hx
      · exact hne
      · exact hfront x hx

/-- A redirection changes the slots of one node, which had a slot that read the old one. -/
theorem redirect?_cases {c old : NodeId} {new : Edge} (h : g.redirect? c old new = some g') :
    ∃ n es, g.node? c = some n ∧ redirectFirst old new n.inputs = some es ∧
      g' = g.set c ⟨n.kind, es⟩ := by
  unfold redirect? at h
  split at h
  · exact absurd h (by simp)
  · rename_i n hn
    obtain ⟨es, hes, hg⟩ := Option.map_eq_some_iff.mp h
    exact ⟨n, es, hn, hes, hg.symm⟩

theorem kind?_redirect? {c old : NodeId} {new : Edge} (h : g.redirect? c old new = some g')
    (id : NodeId) : g'.kind? id = g.kind? id := by
  obtain ⟨n, es, hn, _, rfl⟩ := redirect?_cases h
  rw [kind?, kind?, node?_set hn]
  split
  · rename_i hid
    rw [hid, hn]; rfl
  · rfl

/-- What can be redirected did read the old node. -/
theorem reads_of_redirect? {c old : NodeId} {new : Edge} (h : g.redirect? c old new = some g') :
    g.Reads c old := by
  obtain ⟨n, es, hn, hes, _⟩ := redirect?_cases h
  obtain ⟨front, e, back, heq, he, _⟩ := redirectFirst_spec hes
  refine ⟨e, ?_, he⟩
  rw [inputs_of_node? hn, heq]
  exact List.mem_append_right _ List.mem_cons_self

/-- Only operations may be pointed elsewhere, and not at a media file. -/
theorem WellFormed.redirect {c old : NodeId} {new : Edge} (h : g.WellFormed)
    (hred : g.redirect? c old new = some g') (hop : g.isOperation c = true)
    (hport : g.HasPort new) (hsrc : g.isSource new.node = false) : g'.WellFormed := by
  obtain ⟨n, es, hn, hes, rfl⟩ := redirect?_cases hred
  obtain ⟨front, e, back, heq, _, _, rfl⟩ := redirectFirst_spec hes
  have hfit := h c n hn
  refine h.set hn rfl rfl ⟨?_, ?_⟩
  · -- the ports: only the new slot has to be looked at
    intro d hd
    rcases List.mem_append.mp hd with hd | hd
    · exact hfit.ports d (heq ▸ List.mem_append_left _ hd)
    · rcases List.mem_cons.mp hd with rfl | hd
      · exact hport
      · exact hfit.ports d (heq ▸ List.mem_append_right _ (List.mem_cons_of_mem _ hd))
  · -- the shape: as many slots as before
    have hlen : (front ++ new :: back).length = n.inputs.length := by rw [heq]; simp
    have hshape := hfit.shape
    rw [isOperation_of_node? hn] at hop
    obtain ⟨kind, inputs⟩ := n
    cases kind with
    | source s => exact absurd hop (by simp [Kind.isOperation])
    | selector s => exact absurd hop (by simp [Kind.isOperation])
    | filter f gate => exact ⟨hlen.trans hshape.1, hshape.2⟩
    | merge => exact le_of_le_of_eq hshape hlen.symm
    | split k =>
      -- the only slot of a split is the one that was changed
      obtain ⟨hk, e', hone, _⟩ := hshape
      have hsingle : front ++ e :: back = [e'] := heq.symm.trans hone
      obtain ⟨rfl, rfl⟩ : front = [] ∧ back = [] := by
        have := congrArg List.length hsingle
        simp only [List.length_append, List.length_cons, List.length_nil] at this
        exact ⟨List.length_eq_zero_iff.mp (by omega), List.length_eq_zero_iff.mp (by omega)⟩
      exact ⟨hk, new, rfl, hsrc⟩

theorem WellFormed.setIndex (h : g.WellFormed) (id : NodeId) (index : Nat) :
    (g.setIndex id index).WellFormed := by
  unfold Graph.setIndex
  split
  · rename_i s inputs hn
    exact h.set hn rfl rfl ⟨(h id _ hn).ports, (h id _ hn).shape⟩
  · exact h

theorem WellFormed.numberFrom (h : g.WellFormed) (position : Nat) (ids : List NodeId) :
    (g.numberFrom position ids).WellFormed := by
  induction ids generalizing g position with
  | nil => exact h
  | cons id rest ih => exact ih (h.setIndex id position) (position + 1)

end Graph

/-! ## The passes -/

open Filtergraph.Graph

variable {g g' : Graph}

/-- Making some operations read a media file through a selector that is there. -/
theorem wellFormed_redirectAll {users : List NodeId} {key selector : NodeId} (h : g.WellFormed)
    (hops : ∀ u ∈ users, g.isOperation u = true) {n : Node}
    (hsel : g.node? selector = some n) (hkind : n.kind = .selector .first) :
    (users.foldl (fun g u => (g.redirect? u key ⟨selector, 0⟩).getD g) g).WellFormed := by
  induction users generalizing g n with
  | nil => exact h
  | cons u users ih =>
    have hu := hops u List.mem_cons_self
    have hrest : ∀ v ∈ users, g.isOperation v = true :=
      fun v hv => hops v (List.mem_cons_of_mem _ hv)
    rw [List.foldl_cons]
    -- a user with no slot left that reads the file is passed over
    cases hred : g.redirect? u key ⟨selector, 0⟩ with
    | none => exact ih h hrest hsel hkind
    | some g₁ =>
      have hport : g.HasPort ⟨selector, 0⟩ := ⟨n, hsel, by rw [hkind]; exact Nat.zero_lt_one⟩
      have hsrc : g.isSource selector = false := by rw [isSource_of_node? hsel, hkind]; rfl
      have h₁ := h.redirect hred hu hport hsrc
      -- roles do not change, so the other users are operations still
      have hop : ∀ v, g₁.isOperation v = g.isOperation v := by
        intro v
        rw [isOperation, isOperation, kind?_redirect? hred]
      have hself : selector ≠ u := by
        intro he
        rw [← he, isOperation_of_node? hsel, hkind] at hu
        exact absurd hu (by simp [Kind.isOperation])
      obtain ⟨m, es, hm, _, rfl⟩ := redirect?_cases hred
      refine ih h₁ (fun v hv => (hop v).trans (hrest v hv)) (n := n) ?_ hkind
      rw [Option.getD_some, node?_set hm, if_neg hself, hsel]

/-- One media file is put behind a selector, or left as it is. -/
theorem wellFormed_readThroughSelector (h : g.WellFormed) (readers : Readers) (added : Nat)
    (key : NodeId) : (readThroughSelector readers (g, added) key).1.WellFormed := by
  unfold readThroughSelector
  dsimp only
  split
  · rename_i hcond
    obtain ⟨hsrc, _⟩ := Bool.and_eq_true_iff.mp hcond
    obtain ⟨m, hm, hk⟩ := node?_of_isSource hsrc
    -- media files have one output, which the selector takes
    have hports : 0 < m.kind.ports := by
      cases hkind : m.kind with
      | source s => exact Nat.zero_lt_one
      | selector s => exact Nat.zero_lt_one
      | filter f gate => exact Nat.zero_lt_one
      | split k => rw [hkind] at hk; exact absurd hk (by simp [Kind.isSource])
      | merge => exact Nat.zero_lt_one
    have hfit : g.Fits ⟨.selector .first, [⟨key, 0⟩]⟩ := by
      refine ⟨?_, ⟨key, 0⟩, rfl, hsrc⟩
      intro e he
      rw [List.mem_singleton.mp he]
      exact ⟨m, hm, hports⟩
    refine wellFormed_redirectAll (h.push hfit) ?_ (node?_push_self _ _ _) rfl
    intro u hu
    obtain ⟨n, hn, hop⟩ := node?_of_isOperation (List.mem_filter.mp hu).2
    rw [isOperation_of_node? (by rw [node?_push_of_lt (index_lt_of_node? hn)]; exact hn)]
    exact hop
  · exact h

theorem wellFormed_insertSelectors {roots : List NodeId} {added : Nat} (h : g.WellFormed)
    (hins : insertSelectors g roots = .ok (g', added)) : g'.WellFormed := by
  obtain ⟨readers, _, hfold⟩ := except_bind_eq_ok.mp hins
  injection hfold with hfold
  -- the loop, from any state on
  have hkeep : ∀ (keys : List NodeId) (state : Graph × Nat), state.1.WellFormed →
      (keys.foldl (readThroughSelector readers) state).1.WellFormed := by
    intro keys
    induction keys with
    | nil => exact fun state hs => hs
    | cons key keys ih =>
      intro state hs
      exact ih _ (wellFormed_readThroughSelector hs readers state.2 key)
  have := hkeep readers.producers (g, 0) h
  rwa [hfold] at this

/-- The first consumer takes the port, or everything stops where it is. -/
theorem takePorts_cons (id split : NodeId) (port : Nat) (c : NodeId) (rest : List NodeId)
    (g : Graph) : takePorts id split port (c :: rest) g =
      match g.redirect? c id ⟨split, port⟩ with
      | none => .error (.invalidInput c (.noSlotReading id)) g
      | some g₁ => takePorts id split (port + 1) rest g₁ := by
  rw [takePorts]
  show EStateM.bind EStateM.get _ g = _
  unfold EStateM.bind EStateM.get
  dsimp only
  cases g.redirect? c id ⟨split, port⟩ with
  | none => rfl
  | some g₁ => rfl

/-- Handing out the ports of a split keeps the graph well formed, as long as there are enough of
them; this also holds of the graph that a refused consumer leaves behind. -/
theorem wellFormed_takePorts {id split : NodeId} {fanOut : Nat} {es : List Edge} (port : Nat)
    (consumers : List NodeId) (h : g.WellFormed) (hid : g.isSource id = false)
    (hsplit : g.node? split = some ⟨.split fanOut, es⟩) (hroom : port + consumers.length ≤ fanOut) :
    (Change.after (takePorts id split port consumers) g).WellFormed := by
  induction consumers generalizing g port es with
  | nil => exact h
  | cons c rest ih =>
    rw [Change.after, takePorts_cons]
    cases hred : g.redirect? c id ⟨split, port⟩ with
    | none => exact h
    | some g₁ =>
      -- only an operation can have read `id`, so it may be pointed elsewhere
      have hread := reads_of_redirect? hred
      have hlt : port < fanOut := by simp only [List.length_cons] at hroom; omega
      have hport : g.HasPort ⟨split, port⟩ := ⟨_, hsplit, hlt⟩
      have hsrc : g.isSource split = false := isSource_of_node? hsplit
      have h₁ := h.redirect hred (h.isOperation_of_reads hread hid) hport hsrc
      have hid₁ : g₁.isSource id = false := by rw [isSource, kind?_redirect? hred]; exact hid
      -- the split may itself be the consumer, and then reads something else
      obtain ⟨es₁, hsplit₁⟩ : ∃ es₁, g₁.node? split = some ⟨.split fanOut, es₁⟩ := by
        have hkind := kind?_redirect? hred split
        rw [kind?_of_node? hsplit] at hkind
        obtain ⟨⟨kind, inputs⟩, hn, rfl⟩ := node?_of_kind? hkind
        exact ⟨inputs, hn⟩
      simp only [List.length_cons] at hroom
      exact ih (port + 1) h₁ hid₁ hsplit₁ (by omega)

/-- A shared node is split by adding the split and handing out its ports, with no other change to
the graph. -/
theorem splitIfShared_eq (readers : Readers) (o : Outlets) (id : NodeId) (g : Graph) :
    splitIfShared readers o id g =
      if (g.kind? id).any Kind.isSplittable && 2 ≤ readers.count id + o.mapped id then
        match takePorts id ⟨g.size⟩ 0 (readers.of id)
          (g.push (.split (readers.count id + o.mapped id)) [⟨id, 0⟩]) with
        | .ok _ g₁ => .ok {
            roots := o.roots.map fun root => if root = id then ⟨g.size⟩ else root
            mappings := Outlets.retarget id ⟨g.size⟩ (readers.count id) o.mappings } g₁
        | .error e g₁ => .error e g₁
      else .ok o g := by
  unfold splitIfShared
  show EStateM.bind EStateM.get _ g = _
  unfold EStateM.bind EStateM.get
  dsimp only
  split
  · show EStateM.bind (add _ _) _ g = _
    unfold EStateM.bind add
    dsimp only
    show EStateM.bind (takePorts _ _ _ _) _ _ = _
    unfold EStateM.bind
    cases takePorts id ⟨g.size⟩ 0 (readers.of id)
      (g.push (.split (readers.count id + o.mapped id)) [⟨id, 0⟩]) with
    | ok _ g₁ => rfl
    | error e g₁ => rfl
  · rfl

/-- A splittable node that exists may have a split put behind it. -/
theorem Graph.WellFormed.push_split {id : NodeId} {fanOut : Nat} (h : g.WellFormed)
    (hkind : (g.kind? id).any Kind.isSplittable = true) (hfan : 2 ≤ fanOut) :
    g.isSource id = false ∧ id ≠ ⟨g.size⟩ ∧ (g.push (.split fanOut) [⟨id, 0⟩]).WellFormed := by
  cases hk : g.kind? id with
  | none => rw [hk] at hkind; exact absurd hkind (by simp)
  | some k =>
    rw [hk, Option.any_some] at hkind
    obtain ⟨n, hn, rfl⟩ := node?_of_kind? hk
    -- the roles that may be split have one output
    have hports : n.kind.isSource = false ∧ 0 < n.kind.ports := by
      cases hkd : n.kind with
      | source s => rw [hkd] at hkind; exact absurd hkind (by simp [Kind.isSplittable])
      | selector s => exact ⟨rfl, Nat.zero_lt_one⟩
      | filter f gate => exact ⟨rfl, Nat.zero_lt_one⟩
      | split m => rw [hkd] at hkind; exact absurd hkind (by simp [Kind.isSplittable])
      | merge => exact ⟨rfl, Nat.zero_lt_one⟩
    have hsrc : g.isSource id = false := by rw [isSource_of_node? hn]; exact hports.1
    refine ⟨hsrc, ?_, h.push ⟨?_, hfan, ⟨id, 0⟩, rfl, hsrc⟩⟩
    · intro he
      have := index_lt_of_node? hn
      rw [he] at this
      exact Nat.lt_irrefl _ this
    · intro e he
      rw [List.mem_singleton.mp he]
      exact ⟨n, hn, hports.2⟩

theorem wellFormed_splitIfShared (h : g.WellFormed) (readers : Readers) (o : Outlets)
    (id : NodeId) : (Change.after (splitIfShared readers o id) g).WellFormed := by
  rw [Change.after, splitIfShared_eq]
  by_cases hcond : (g.kind? id).any Kind.isSplittable && 2 ≤ readers.count id + o.mapped id
  · rw [if_pos hcond]
    obtain ⟨hkind, hfan⟩ := Bool.and_eq_true_iff.mp hcond
    obtain ⟨hsrc, hne, hpush⟩ := h.push_split hkind (of_decide_eq_true hfan)
    have hsrc' : (g.push (.split (readers.count id + o.mapped id)) [⟨id, 0⟩]).isSource id
        = false := by
      rw [isSource, kind?, node?_push, if_neg hne]
      exact hsrc
    have htake := wellFormed_takePorts 0 (readers.of id) hpush hsrc'
      (node?_push_self _ _ _) (by rw [Nat.zero_add]; exact Nat.le_add_right _ _)
    rw [Change.after] at htake
    cases hres : takePorts id ⟨g.size⟩ 0 (readers.of id)
      (g.push (.split (readers.count id + o.mapped id)) [⟨id, 0⟩]) with
    | ok _ g₁ => rw [hres] at htake; exact htake
    | error e g₁ => rw [hres] at htake; exact htake
  · rw [if_neg hcond]
    exact h

/-- Splitting keeps a graph well formed, wherever it stops. -/
theorem wellFormed_insertSplits (h : g.WellFormed) (o : Outlets) :
    (Change.after (insertSplits o) g).WellFormed := by
  unfold insertSplits
  refine Change.Keeps.bind (Change.keeps_consult _) (fun readers => ?_) g h
  refine Change.Keeps.bind (Change.keeps_consult _) (fun _ => ?_)
  generalize readers.producers ++ o.roots = ids
  -- the outlets change from node to node, so they have to be general
  induction ids generalizing o with
  | nil => exact fun g h => h
  | cons id ids ih =>
    rw [List.foldlM_cons]
    exact Change.Keeps.bind (fun g h => wellFormed_splitIfShared h readers o id) fun o' => ih o'

/-- **Compiling keeps a graph well formed, wherever it stops.** -/
theorem wellFormed_program (h : g.WellFormed) (job : Job) (roots : List NodeId) :
    (Change.after (job.program roots) g).WellFormed := by
  unfold Job.program
  refine Change.Keeps.bind (Change.keeps_consult _) (fun final => ?_) g h
  intro g h
  rw [Change.after_bind]
  cases hins : consult (insertSelectors · final) g with
  | error e g₁ =>
    obtain ⟨_, rfl⟩ := consult_eq_error.mp hins
    exact h
  | ok result g₁ =>
    obtain ⟨hsel, rfl⟩ := consult_eq_ok.mp hins
    obtain ⟨g₂, added⟩ := result
    have h₂ : g₂.WellFormed := wellFormed_insertSelectors h hsel
    -- the graph with its selectors is taken over, and the rest runs on it
    show (Change.after (set g₂ >>= fun _ => _) g₁).WellFormed
    rw [Change.after_bind]
    show (Change.after (_ >>= fun _ => _) g₂).WellFormed
    refine Change.Keeps.bind (P := WellFormed) (fun g h => wellFormed_insertSplits h _)
      (fun outlets => ?_) g₂ h₂
    refine Change.Keeps.bind (Change.keeps_consult _) (fun readers => ?_)
    intro g₃ h₃
    rw [Change.after_bind]
    show (Change.after (set (g₃.numberFrom 0 _) >>= fun _ => _) g₃).WellFormed
    rw [Change.after_bind]
    show (Change.after (_ >>= fun _ => _) (g₃.numberFrom 0 _)).WellFormed
    refine Change.Keeps.bind (Change.keeps_consult _) (fun statements => ?_) _ (h₃.numberFrom 0 _)
    exact Change.Keeps.bind (Change.keeps_consult _) fun targets g h => h

theorem wellFormed_compile (h : g.WellFormed) (job : Job) (roots : List NodeId) :
    (Change.after (job.compile roots) g).WellFormed := by
  unfold Job.compile
  refine Change.Keeps.bind (P := WellFormed) (fun g h => wellFormed_program h job roots)
    (fun program => ?_) g h
  exact fun g h => h

end Filtergraph
