/-!
# Changes

A change starts from a state and ends with a result or an error, and with a state in both cases:
what was changed before an error stays changed. Graphs are changed like this, and file systems.

Proofs look at a change from its end. The lemmas here take a change apart that is made of several
ones: it ends with a result if all of them do, and with the first error if one does not. Checks
over a list are the changes that leave no trace, so the same is said of them.
-/

namespace Filtergraph

/-- A change to a state, with the errors that it can end with. -/
abbrev Change (ε σ : Type) := EStateM ε σ

variable {ε σ α β : Type}

/-- Asks something of the state without changing it. -/
def consult (question : σ → Except ε α) : Change ε σ α := fun s =>
  match question s with
  | .ok a => .ok a s
  | .error e => .error e s

/-- Takes another state for the one that there is, unless there is a reason against it. -/
def revise (next : σ → Except ε σ) : Change ε σ Unit := fun s =>
  match next s with
  | .ok s' => .ok () s'
  | .error e => .error e s

/-! ## How a change ends -/

section Endings

variable {x : Change ε σ α} {f : α → Change ε σ β} {s s' : σ}

/-- **A result needs a result of every part.** -/
theorem bind_eq_ok {b : β} : (x >>= f) s = .ok b s' ↔
    ∃ a s₁, x s = .ok a s₁ ∧ f a s₁ = .ok b s' := by
  show EStateM.bind x f s = _ ↔ _
  unfold EStateM.bind
  cases hx : x s with
  | ok a s₁ => simp [and_assoc]
  | error e s₁ => simp

/-- **An error comes from the first part, or from the second after a result of the first.** -/
theorem bind_eq_error {e : ε} : (x >>= f) s = .error e s' ↔
    x s = .error e s' ∨ ∃ a s₁, x s = .ok a s₁ ∧ f a s₁ = .error e s' := by
  show EStateM.bind x f s = _ ↔ _
  unfold EStateM.bind
  cases hx : x s with
  | ok a s₁ => simp [and_assoc]
  | error e₁ s₁ => simp

theorem bind_of_eq_ok {a : α} (h : x s = .ok a s') : (x >>= f) s = f a s' := by
  show EStateM.bind x f s = _
  unfold EStateM.bind
  rw [h]

/-- What comes after a change depends only on how the change ended. -/
theorem bind_eq_bind {x' : Change ε σ α} (h : x' s' = x s) : (x' >>= f) s' = (x >>= f) s := by
  show EStateM.bind x' f s' = EStateM.bind x f s
  unfold EStateM.bind
  rw [h]

theorem get_bind_eq (f : σ → Change ε σ β) (s : σ) :
    ((get : Change ε σ σ) >>= f) s = f s s := rfl

theorem set_bind_eq (f : PUnit → Change ε σ β) (s s' : σ) :
    ((MonadStateOf.set s' : Change ε σ PUnit) >>= f) s = f ⟨⟩ s' := rfl

/-- A question that is answered leaves the state as it is. -/
theorem consult_eq_ok {q : σ → Except ε α} {a : α} :
    consult q s = .ok a s' ↔ q s = .ok a ∧ s' = s := by
  unfold consult
  cases q s with
  | ok b => simp [eq_comm]
  | error e => simp

/-- So does a question that is not. -/
theorem consult_eq_error {q : σ → Except ε α} {e : ε} :
    consult q s = .error e s' ↔ q s = .error e ∧ s' = s := by
  unfold consult
  cases q s with
  | ok b => simp
  | error e₁ => simp [eq_comm]

/-- A question that is answered leaves it to what follows. -/
theorem consult_bind_of_ok {q : σ → Except ε α} {a : α} (h : q s = .ok a) :
    (consult q >>= f) s = f a s :=
  bind_of_eq_ok (consult_eq_ok.mpr ⟨h, rfl⟩)

/-- A question that is not answered ends the change. -/
theorem consult_bind_of_error {q : σ → Except ε α} {e : ε} (h : q s = .error e) :
    (consult q >>= f) s = .error e s :=
  bind_eq_error.mpr (Or.inl (consult_eq_error.mpr ⟨h, rfl⟩))

end Endings

/-! ## Computations without a state -/

section Results

/-- The same of computations that have no state. -/
theorem except_bind_eq_ok {x : Except ε α} {f : α → Except ε β} {b : β} :
    x >>= f = .ok b ↔ ∃ a, x = .ok a ∧ f a = .ok b := by
  cases x with
  | ok a => simp [bind, Except.bind]
  | error e => simp [bind, Except.bind]

theorem except_bind_eq_error {x : Except ε α} {f : α → Except ε β} {e : ε} :
    x >>= f = .error e ↔ x = .error e ∨ ∃ a, x = .ok a ∧ f a = .error e := by
  cases x with
  | ok a => simp [bind, Except.bind]
  | error e₁ => simp [bind, Except.bind]

theorem except_map_eq_ok {x : Except ε α} {f : α → β} {b : β} :
    f <$> x = .ok b ↔ ∃ a, x = .ok a ∧ f a = b := by
  cases x with
  | ok a => simp [Functor.map, Except.map]
  | error e => simp [Functor.map, Except.map]

theorem except_map_eq_error {x : Except ε α} {f : α → β} {e : ε} :
    f <$> x = .error e ↔ x = .error e := by
  cases x with
  | ok a => simp [Functor.map, Except.map]
  | error e₁ => simp [Functor.map, Except.map]

end Results

/-! ## Checks over a list -/

section Checks

variable {f : α → Except ε Unit} {l : List α}

theorem forM_cons_eq (f : α → Except ε Unit) (a : α) (l : List α) :
    (a :: l).forM f = f a >>= fun _ => l.forM f := rfl

/-- A check of a list is told by the checks of its entries. -/
theorem forM_congr {f' : α → Except ε Unit} (h : ∀ a ∈ l, f' a = f a) :
    l.forM f' = l.forM f := by
  induction l with
  | nil => rfl
  | cons a l ih =>
    obtain ⟨ha, hl⟩ := List.forall_mem_cons.mp h
    rw [forM_cons_eq, forM_cons_eq, ha, ih hl]

/-- A check of a list passes if every entry does. -/
theorem forM_eq_ok {u : PUnit} : l.forM f = .ok u ↔ ∀ a ∈ l, f a = .ok () := by
  induction l with
  | nil => simp [List.forM, pure, Except.pure]
  | cons a l ih =>
    rw [forM_cons_eq, except_bind_eq_ok, List.forall_mem_cons, ← ih]
    constructor
    · rintro ⟨_, ha, hl⟩
      exact ⟨ha, hl⟩
    · rintro ⟨ha, hl⟩
      exact ⟨(), ha, hl⟩

/-- One more entry, that passes if those in front of it do, makes no difference. -/
theorem forM_insert {front back : List α} {a : α} (h : front.forM f = .ok () → f a = .ok ()) :
    (front ++ a :: back).forM f = (front ++ back).forM f := by
  induction front with
  | nil => rw [List.nil_append, List.nil_append, forM_cons_eq, h rfl]; rfl
  | cons b front ih =>
    rw [List.cons_append, List.cons_append, forM_cons_eq, forM_cons_eq]
    cases hb : f b with
    -- the check has ended before it comes to the new entry
    | error e => rfl
    | ok u =>
      refine ih fun hfront => h ?_
      rw [forM_cons_eq, hb]
      exact hfront

/-- A check of a list fails at the first entry that is refused. -/
theorem forM_eq_error {e : ε} : l.forM f = .error e ↔
    ∃ front a back, l = front ++ a :: back ∧ (∀ b ∈ front, f b = .ok ()) ∧ f a = .error e := by
  induction l with
  | nil => simp [List.forM, pure, Except.pure]
  | cons a l ih =>
    rw [forM_cons_eq, except_bind_eq_error, ih]
    constructor
    · rintro (ha | ⟨_, ha, front, b, back, rfl, hfront, hb⟩)
      · exact ⟨[], a, l, rfl, by simp, ha⟩
      · refine ⟨a :: front, b, back, rfl, ?_, hb⟩
        exact List.forall_mem_cons.mpr ⟨ha, hfront⟩
    · rintro ⟨front, b, back, hl, hfront, hb⟩
      -- the entry that is refused is the first one, or it stands in the rest
      cases front with
      | nil =>
        rw [List.nil_append, List.cons.injEq] at hl
        exact Or.inl (hl.1 ▸ hb)
      | cons a' front =>
        rw [List.cons_append, List.cons.injEq] at hl
        obtain ⟨ha, hfront⟩ := List.forall_mem_cons.mp hfront
        exact Or.inr ⟨(), hl.1 ▸ ha, front, b, back, hl.2, hfront, hb⟩

end Checks

/-! ## What a change comes to -/

namespace Change

variable {x : Change ε σ α} {f : α → Change ε σ β} {s : σ} {P : σ → Prop}

/-- The state after a change, whatever came of it. -/
def after (x : Change ε σ α) (s : σ) : σ :=
  match x s with
  | .ok _ s' => s'
  | .error _ s' => s'

/-- What comes of a change, whatever state it leaves. -/
def outcome (x : Change ε σ α) (s : σ) : Except ε α :=
  match x s with
  | .ok a _ => .ok a
  | .error e _ => .error e

/-- Whether a change ends with a result. -/
def succeeds (x : Change ε σ α) (s : σ) : Bool :=
  match x s with
  | .ok _ _ => true
  | .error _ _ => false

/-- Success can be computed, and gives the result. -/
theorem exists_of_succeeds (h : x.succeeds s = true) : ∃ a s', x s = .ok a s' := by
  unfold succeeds at h
  cases hx : x s with
  | ok a s' => exact ⟨a, s', rfl⟩
  | error e s' => rw [hx] at h; exact absurd h (by simp)

/-- Whether a change ends with a result that passes the test `q`. -/
def yields (x : Change ε σ α) (q : α → σ → Bool) (s : σ) : Bool :=
  match x s with
  | .ok a s' => q a s'
  | .error _ _ => false

/-- The same with a test that the result passes. -/
theorem exists_of_yields {q : α → σ → Bool} (h : x.yields q s = true) :
    ∃ a s', x s = .ok a s' ∧ q a s' = true := by
  unfold yields at h
  cases hx : x s with
  | ok a s' => rw [hx] at h; exact ⟨a, s', rfl, h⟩
  | error e s' => rw [hx] at h; exact absurd h (by simp)

/-- The error that a change ends with. -/
def error? (x : Change ε σ α) (s : σ) : Option ε :=
  match x s with
  | .ok _ _ => none
  | .error e _ => some e

/-- The same for a change that ends with an error. -/
theorem exists_of_error? {e : ε} (h : x.error? s = some e) : ∃ s', x s = .error e s' := by
  unfold error? at h
  cases hx : x s with
  | ok a s' => rw [hx] at h; exact absurd h (by simp)
  | error e' s' =>
    rw [hx, Option.some.injEq] at h
    exact ⟨s', by rw [h]⟩

theorem after_bind (x : Change ε σ α) (f : α → Change ε σ β) (s : σ) :
    after (x >>= f) s =
      match x s with
      | .ok a s' => after (f a) s'
      | .error _ s' => s' := by
  show (match EStateM.bind x f s with | .ok _ s' => s' | .error _ s' => s') = _
  unfold EStateM.bind
  cases x s with
  | ok a s' => rfl
  | error e s' => rfl

/-! ## Invariants -/

/-- The change cannot break `P`, however it ends. -/
def Keeps (P : σ → Prop) (x : Change ε σ α) : Prop :=
  ∀ s, P s → P (after x s)

/-- **An invariant of the parts is an invariant of the whole**, also if a part ends with an
error. -/
theorem Keeps.bind (hx : Keeps P x) (hf : ∀ a, Keeps P (f a)) : Keeps P (x >>= f) := by
  intro s hs
  have hmid := hx s hs
  rw [after] at hmid
  rw [after_bind]
  -- an error of the first part ends the whole there
  cases hxs : x s with
  | ok a s' => rw [hxs] at hmid; exact hf a s' hmid
  | error e s' => rw [hxs] at hmid; exact hmid

/-- Questions break nothing. -/
theorem keeps_consult (q : σ → Except ε α) : Keeps P (consult q) := by
  intro s hs
  rw [after, consult]
  cases q s with
  | ok a => exact hs
  | error e => exact hs

/-- A change that has changed nothing if it ends with an error. -/
def Atomic (x : Change ε σ α) : Prop :=
  ∀ s e s', x s = .error e s' → s' = s

theorem atomic_of_ok (h : ∀ s, ∃ a s', x s = .ok a s') : Atomic x := by
  intro s e s' he
  obtain ⟨a, s₁, hok⟩ := h s
  exact absurd (hok.symm.trans he) (by simp)

theorem atomic_throw (e : ε) : Atomic (throw e : Change ε σ α) := by
  intro s e' s' he
  injection he with _ hs
  exact hs.symm

/-- **Questions may stand in front.** -/
theorem Atomic.consult_bind {q : σ → Except ε α} (hf : ∀ a, Atomic (f a)) :
    Atomic (consult q >>= f) := by
  intro s e s' he
  -- a question fails before anything is changed
  rcases bind_eq_error.mp he with hq | ⟨a, s₁, hq, hrest⟩
  · exact (consult_eq_error.mp hq).2
  · obtain ⟨_, rfl⟩ := consult_eq_ok.mp hq
    exact hf a s₁ e s' hrest

/-- After an error an atomic change can be tried again. -/
theorem Atomic.after_eq (hx : Atomic x) {e : ε} (h : x.error? s = some e) : x.after s = s := by
  obtain ⟨s', hs'⟩ := exists_of_error? h
  rw [after, hs']
  exact hx s e s' hs'

end Change

end Filtergraph
