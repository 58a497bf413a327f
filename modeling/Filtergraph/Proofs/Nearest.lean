import Mathlib.Algebra.Order.Field.Rat
import Mathlib.Tactic.FieldSimp
import Mathlib.Tactic.Positivity
import Filtergraph.Proofs.Rounding

/-!
# Rounding to the nearest magnitude

The magnitudes of a format, as if it had no last one, form a rising sequence of rational numbers
that starts at zero. A number is rounded to the nearest of them. If two are equally near, they are
neighbours, so one of the two has an even rank: it is taken. Only then it is seen whether the rank
lies past the last finite one.

This rule determines the rank and respects the order of numbers, and quotients are rounded by it.
A quotient lies between two neighbours of its binade, and the half of the step between them
decides.
-/

namespace Filtergraph

namespace Binary.Format

variable {f : Format} {q q' : ℚ} {l r r' n d : Nat}

/-! ## Magnitudes -/

/-- The magnitude of a rank. -/
def magnitude (f : Format) (r : Nat) : ℚ := f.units r / 2 ^ f.scale

theorem units_lt_succ (f : Format) (r : Nat) : f.units r < f.units (r + 1) := by
  obtain ⟨s, q, rfl, hq, hs⟩ := f.exists_significand r
  rw [Nat.add_assoc, units_add hq.le hs, units_add (by omega) (by omega)]
  exact Nat.mul_lt_mul_of_pos_right (Nat.lt_succ_self q) (Nat.two_pow_pos s)

theorem units_strictMono (f : Format) : StrictMono f.units :=
  strictMono_nat_of_lt_succ f.units_lt_succ

theorem magnitude_strictMono (f : Format) : StrictMono f.magnitude := by
  intro r r' h
  have hpow : (0 : ℚ) < 2 ^ f.scale := by positivity
  have hunits : (f.units r : ℚ) < f.units r' := by exact_mod_cast f.units_strictMono h
  exact div_lt_div_of_pos_right hunits hpow

/-! ## The nearest rank -/

/-- The magnitude of this rank is nearest to `q`, and if another is as near the rank is even. -/
structure Nearest (f : Format) (q : ℚ) (r : Nat) : Prop where
  nearest : ∀ r', |f.magnitude r - q| ≤ |f.magnitude r' - q|
  even : ∀ r', r' ≠ r → |f.magnitude r - q| = |f.magnitude r' - q| → r % 2 = 0

/-- The lower of two numbers is the nearer one up to their middle. -/
theorem abs_sub_le_iff_lower {a b : ℚ} (h : a < b) : |a - q| ≤ |b - q| ↔ 2 * q ≤ a + b := by
  have hfactor : (b - q) ^ 2 - (a - q) ^ 2 = (b - a) * (a + b - 2 * q) := by ring
  rw [← sq_le_sq, ← sub_nonneg, hfactor, mul_nonneg_iff_of_pos_left (sub_pos.mpr h), sub_nonneg]

theorem abs_sub_le_iff_upper {a b : ℚ} (h : a < b) : |b - q| ≤ |a - q| ↔ a + b ≤ 2 * q := by
  have hfactor : (a - q) ^ 2 - (b - q) ^ 2 = (b - a) * (2 * q - (a + b)) := by ring
  rw [← sq_le_sq, ← sub_nonneg, hfactor, mul_nonneg_iff_of_pos_left (sub_pos.mpr h), sub_nonneg]

/-- **It is enough to look at the two neighbours.** -/
theorem nearest_of_neighbours (hbelow : ∀ l, l + 1 = r → f.magnitude l + f.magnitude r ≤ 2 * q)
    (habove : 2 * q ≤ f.magnitude r + f.magnitude (r + 1))
    (hodd : r % 2 ≠ 0 → (∀ l, l + 1 = r → f.magnitude l + f.magnitude r ≠ 2 * q) ∧
      2 * q ≠ f.magnitude r + f.magnitude (r + 1)) : f.Nearest q r := by
  have hmono := f.magnitude_strictMono
  -- any other rank is as far away as the neighbour on its side, or further
  have hlower : ∀ r' < r, ∃ l, l + 1 = r ∧ f.magnitude r' ≤ f.magnitude l :=
    fun r' hr' => ⟨r - 1, by omega, hmono.monotone (by omega)⟩
  refine ⟨fun r' => ?_, fun r' hne htie => ?_⟩
  · rcases lt_trichotomy r' r with hr' | rfl | hr'
    · obtain ⟨l, hl, hle⟩ := hlower r' hr'
      refine (abs_sub_le_iff_upper (hmono hr')).mpr ?_
      linarith [hbelow l hl]
    · exact le_rfl
    · have hle := hmono.monotone (Nat.succ_le_of_lt hr')
      refine (abs_sub_le_iff_lower (hmono hr')).mpr ?_
      linarith
  · by_contra heven
    obtain ⟨hstrict, hstrict'⟩ := hodd heven
    rcases lt_or_gt_of_ne hne with hr' | hr'
    · obtain ⟨l, hl, hle⟩ := hlower r' hr'
      have hmiddle := (abs_sub_le_iff_lower (hmono hr')).mp htie.symm.le
      refine hstrict l hl (le_antisymm (hbelow l hl) ?_)
      linarith
    · have hle := hmono.monotone (Nat.succ_le_of_lt hr')
      have hmiddle := (abs_sub_le_iff_upper (hmono hr')).mp htie.symm.le
      refine hstrict' (le_antisymm habove ?_)
      linarith

/-- The lower of two neighbours that enclose `q`. -/
theorem nearest_lower (hlow : f.magnitude l ≤ q)
    (hhalf : 2 * q ≤ f.magnitude l + f.magnitude (l + 1))
    (hodd : l % 2 ≠ 0 → 2 * q ≠ f.magnitude l + f.magnitude (l + 1)) : f.Nearest q l := by
  have hbelow : ∀ k, k + 1 = l → f.magnitude k + f.magnitude l < 2 * q := by
    intro k hk
    have hlt : f.magnitude k < f.magnitude l := f.magnitude_strictMono (by omega)
    linarith
  exact nearest_of_neighbours (fun k hk => (hbelow k hk).le) hhalf
    fun h => ⟨fun k hk => (hbelow k hk).ne, hodd h⟩

/-- The upper of two neighbours that enclose `q`. -/
theorem nearest_upper (hhigh : q ≤ f.magnitude (l + 1))
    (hhalf : f.magnitude l + f.magnitude (l + 1) ≤ 2 * q)
    (hodd : (l + 1) % 2 ≠ 0 → f.magnitude l + f.magnitude (l + 1) ≠ 2 * q) :
    f.Nearest q (l + 1) := by
  have hlt : f.magnitude (l + 1) < f.magnitude (l + 1 + 1) :=
    f.magnitude_strictMono (Nat.lt_succ_self _)
  refine nearest_of_neighbours ?_ (by linarith) fun h => ⟨?_, by linarith⟩
  · intro k hk
    obtain rfl : k = l := by omega
    exact hhalf
  · intro k hk
    obtain rfl : k = l := by omega
    exact hodd h

/-- **Rounding is unambiguous.** -/
theorem Nearest.unique (h : f.Nearest q r) (h' : f.Nearest q r') : r = r' := by
  have hmono := f.magnitude_strictMono
  -- if the ranks differ, both are even, and the rank after the lower one is nearer than both
  have hlt : ∀ {r r' : Nat}, f.Nearest q r → f.Nearest q r' → ¬ r < r' := by
    intro r r' h h' hlt
    have htie := le_antisymm (h.nearest r') (h'.nearest r)
    have heven := h.even r' hlt.ne' htie
    have heven' := h'.even r hlt.ne htie.symm
    have hupper := (abs_sub_le_iff_upper (hmono hlt)).mp (h'.nearest r)
    have hlower := (abs_sub_le_iff_lower (hmono (Nat.lt_succ_self r))).mp (h.nearest (r + 1))
    have hbetween : f.magnitude (r + 1) < f.magnitude r' := hmono (by omega)
    linarith
  have hle := hlt h' h
  have hge := hlt h h'
  omega

/-- **Rounding respects the order.** -/
theorem Nearest.mono (h : f.Nearest q r) (h' : f.Nearest q' r') (hle : q ≤ q') : r ≤ r' := by
  by_contra hlt
  have hlt : r' < r := by omega
  have hmono := f.magnitude_strictMono
  have hupper := (abs_sub_le_iff_upper (hmono hlt)).mp (h.nearest r')
  have hlower := (abs_sub_le_iff_lower (hmono hlt)).mp (h'.nearest r)
  -- on the wrong side of each other they would have to be equal
  obtain rfl : q = q' := le_antisymm hle (by linarith)
  exact hlt.ne' (h.unique h')

/-! ## Quotients -/

section Binades

variable {s m : Nat} {part : ℚ} (hf : 0 < f.fractionBits) (hm : m < 2 * 2 ^ f.fractionBits)
  (hs : s = 0 ∨ 2 ^ f.fractionBits ≤ m)
include hm hs

theorem magnitude_lower :
    f.magnitude (s * 2 ^ f.fractionBits + m) = m * (2 ^ s / 2 ^ f.scale) := by
  rw [magnitude, units_add hm.le hs]
  push_cast
  ring

theorem magnitude_upper :
    f.magnitude (s * 2 ^ f.fractionBits + m + 1) = (m + 1) * (2 ^ s / 2 ^ f.scale) := by
  rw [magnitude, Nat.add_assoc, units_add (by omega) (by omega)]
  push_cast
  ring

include hf

/-- **In its binade a number is rounded by the part of a step** that it exceeds its lower
neighbour by. An even significand has an even rank. -/
theorem nearest_of_part (hnonneg : 0 ≤ part) (hlt : part < 1) :
    (2 * part < 1 ∨ (2 * part = 1 ∧ m % 2 = 0) →
      f.Nearest ((m + part) * (2 ^ s / 2 ^ f.scale)) (s * 2 ^ f.fractionBits + m)) ∧
    (1 < 2 * part ∨ (2 * part = 1 ∧ m % 2 ≠ 0) →
      f.Nearest ((m + part) * (2 ^ s / 2 ^ f.scale)) (s * 2 ^ f.fractionBits + m + 1)) := by
  have hlower := magnitude_lower hm hs
  have hupper := magnitude_upper hm hs
  -- ranks of a binade start at an even one
  have hparity : (s * 2 ^ f.fractionBits + m) % 2 = m % 2 := by
    obtain ⟨b, hb⟩ : ∃ b, f.fractionBits = b + 1 := ⟨f.fractionBits - 1, by omega⟩
    rw [hb, Nat.pow_succ, ← Nat.mul_assoc]
    omega
  have hstep : (0 : ℚ) < 2 ^ s / 2 ^ f.scale := by positivity
  generalize (2 : ℚ) ^ s / 2 ^ f.scale = step at *
  constructor
  · intro hpart
    have hgap : 0 ≤ (1 - 2 * part) * step :=
      mul_nonneg (by rcases hpart with h | h <;> linarith) hstep.le
    refine nearest_lower ?_ ?_ fun hodd => ?_
    · rw [hlower]
      exact mul_le_mul_of_nonneg_right (by linarith) hstep.le
    · rw [hlower, hupper]
      linarith
    · rcases hpart with hpart | hpart
      · have hgap : 0 < (1 - 2 * part) * step := mul_pos (by linarith) hstep
        rw [hlower, hupper]
        linarith
      · omega
  · intro hpart
    have hgap : 0 ≤ (2 * part - 1) * step :=
      mul_nonneg (by rcases hpart with h | h <;> linarith) hstep.le
    refine nearest_upper ?_ ?_ fun hodd => ?_
    · rw [hupper]
      exact mul_le_mul_of_nonneg_right (by linarith) hstep.le
    · rw [hlower, hupper]
      linarith
    · rcases hpart with hpart | hpart
      · have hgap : 0 < (2 * part - 1) * step := mul_pos (by linarith) hstep
        rw [hlower, hupper]
        linarith
      · omega

end Binades

/-- **A quotient is rounded to the nearest rank.** -/
theorem nearest_rankOf (hf : 0 < f.fractionBits) (n : Nat) (hd : 0 < d) :
    f.Nearest (n / d) (f.rankOf n d) := by
  obtain ⟨hm, hs⟩ := f.significand_bounds n d
  rw [rankOf_eq]
  generalize f.shiftOf n d = s at *
  have hD : 0 < d * 2 ^ s := Nat.mul_pos hd (Nat.two_pow_pos s)
  have hD' : (0 : ℚ) < (d * 2 ^ s : Nat) := by exact_mod_cast hD
  have hdivision := Nat.div_add_mod (n * 2 ^ f.scale) (d * 2 ^ s)
  have hrest := Nat.mod_lt (n * 2 ^ f.scale) hD
  unfold divHalfEven
  dsimp only
  generalize n * 2 ^ f.scale / (d * 2 ^ s) = m at *
  generalize n * 2 ^ f.scale % (d * 2 ^ s) = rest at *
  -- the quotient is `m` steps of the binade and a part of one
  obtain ⟨part, hpart⟩ : ∃ part : ℚ, part * (d * 2 ^ s : Nat) = rest :=
    ⟨rest / (d * 2 ^ s : Nat), div_mul_cancel₀ _ hD'.ne'⟩
  have hnonneg : 0 ≤ part := nonneg_of_mul_nonneg_left (by rw [hpart]; positivity) hD'
  have hcompare : ∀ k : Nat, (k * part < 1 ↔ k * rest < d * 2 ^ s) ∧
      (1 < k * part ↔ d * 2 ^ s < k * rest) := by
    intro k
    have hscaled : (k * part) * (d * 2 ^ s : Nat) = (k * rest : Nat) := by
      rw [mul_assoc, hpart]
      push_cast
      ring
    constructor
    · rw [← mul_lt_mul_iff_of_pos_right hD', hscaled, one_mul, Nat.cast_lt]
    · rw [← mul_lt_mul_iff_of_pos_right hD', hscaled, one_mul, Nat.cast_lt]
  have hlt : part < 1 := by simpa [hrest] using (hcompare 1).1
  have hq : (n / d : ℚ) = (m + part) * (2 ^ s / 2 ^ f.scale) := by
    have hcast : (d * 2 ^ s * m + rest : ℚ) = n * 2 ^ f.scale := by exact_mod_cast hdivision
    have hd' : (d : ℚ) ≠ 0 := by exact_mod_cast hd.ne'
    rw [← hpart] at hcast
    push_cast at hcast
    field_simp
    linarith
  obtain ⟨hbelow, habove⟩ := nearest_of_part hf hm hs hnonneg hlt
  obtain ⟨hless, hmore⟩ := hcompare 2
  rw [hq]
  -- below, at and above the middle of the step
  rcases lt_trichotomy (2 * rest) (d * 2 ^ s) with h | h | h
  · rw [if_pos h]
    exact hbelow (.inl (hless.mpr h))
  · have hhalf : 2 * part = 1 := by
      refine le_antisymm (not_lt.mp ?_) (not_lt.mp ?_)
      · exact mt hmore.mp h.not_gt
      · exact mt hless.mp h.not_lt
    rw [if_neg h.not_lt, if_neg h.not_gt]
    by_cases heven : m % 2 = 0
    · rw [if_pos heven]
      exact hbelow (.inr ⟨hhalf, heven⟩)
    · rw [if_neg heven, ← Nat.add_assoc]
      exact habove (.inr ⟨hhalf, heven⟩)
  · rw [if_neg h.not_gt, if_pos h, ← Nat.add_assoc]
    exact habove (.inl (hmore.mpr h))

theorem units_zero (f : Format) : f.units 0 = 0 := by simp [units]

theorem magnitude_zero (f : Format) : f.magnitude 0 = 0 := by
  rw [magnitude, units_zero, Nat.cast_zero, zero_div]

theorem magnitude_pos_iff : 0 < f.magnitude r ↔ r ≠ 0 := by
  rw [← f.magnitude_zero, f.magnitude_strictMono.lt_iff_lt, Nat.pos_iff_ne_zero]

end Binary.Format

/-- The value of a decimal. -/
def Decimal.value (d : Decimal) : ℚ := d.digits * 10 ^ d.exponent

theorem Decimal.value_eq (d : Decimal) : d.value = d.numerator / d.denominator := by
  obtain ⟨digits, exponent⟩ := d
  unfold Decimal.value Decimal.numerator Decimal.denominator
  dsimp only
  -- zeros behind the digits, or a power of ten below them
  rcases Int.le_total 0 exponent with h | h
  · obtain ⟨k, rfl⟩ := Int.eq_ofNat_of_zero_le h
    simp
  · obtain ⟨k, hk⟩ := Int.eq_ofNat_of_zero_le (Int.neg_nonneg.mpr h)
    obtain rfl : exponent = -(k : Int) := by omega
    simp [div_eq_mul_inv]

/-! ## Numbers -/

namespace Binary

variable {f : Format} {negative : Bool} {q : ℚ} {x y : Binary f} {n d : Nat}

/-- The number of that sign with the magnitude nearest to `q`. -/
def Rounds (negative : Bool) (q : ℚ) (x : Binary f) : Prop :=
  ∃ r, f.Nearest q r ∧ x = ofRank negative r

theorem Rounds.unique (h : Rounds negative q x) (h' : Rounds negative q y) : x = y := by
  obtain ⟨r, hr, rfl⟩ := h
  obtain ⟨r', hr', rfl⟩ := h'
  rw [hr.unique hr']

/-- **Decimals are rounded to the nearest number.** -/
theorem rounds_ofDecimal (hf : 0 < f.fractionBits) (d : Decimal) :
    Rounds negative d.value (ofDecimal negative d : Binary f) := by
  rw [d.value_eq, ofDecimal_eq]
  exact ⟨_, Format.nearest_rankOf hf _ d.denominator_pos, rfl⟩

/-- The exact value of a finite number. -/
def value? : Binary f → Option ℚ
  | .nan => none
  | .infinite _ => none
  | .finite negative rank => some (if negative then -f.magnitude rank else f.magnitude rank)

/-- Numbers above zero have a rank, and it is not the first. -/
theorem value?_eq_some_pos : (∃ q, x.value? = some q ∧ 0 < q) ↔
    ∃ rank : Fin f.magnitudes, x = .finite false rank ∧ rank.val ≠ 0 := by
  cases x with
  | nan => simp [value?]
  | infinite negative => simp [value?]
  | finite negative rank =>
    have hnonneg : 0 ≤ f.magnitude rank := by
      rw [← f.magnitude_zero]
      exact f.magnitude_strictMono.monotone (Nat.zero_le _)
    cases negative with
    | false => simp [value?, Format.magnitude_pos_iff]
    | true => simp [value?, hnonneg]

/-- The test for a finite number above zero. -/
theorem isFinite_and_isPositive :
    (x.isFinite && x.isPositive) = true ↔ ∃ q, x.value? = some q ∧ 0 < q := by
  rw [value?_eq_some_pos]
  cases x with
  | nan => simp [isFinite]
  | infinite negative => simp [isFinite]
  | finite negative rank => simp [isFinite, isPositive]

/-- **The reciprocal is rounded once.** -/
theorem rounds_reciprocal (hf : 0 < f.fractionBits) (h : x.value? = some q) (hq : 0 < q) :
    Rounds false q⁻¹ x.reciprocal := by
  obtain ⟨rank, rfl, hrank⟩ := value?_eq_some_pos.mp ⟨q, h, hq⟩
  have hvalue : f.magnitude rank = q := by simpa [value?] using h
  have hunits : 0 < f.units rank := by
    rw [← f.units_zero]
    exact f.units_strictMono (Nat.pos_of_ne_zero hrank)
  have hinv : q⁻¹ = (2 ^ f.scale : Nat) / (f.units rank : ℚ) := by
    rw [← hvalue, Format.magnitude, inv_div]
    push_cast
    rfl
  rw [hinv, reciprocal, if_neg hrank]
  exact ⟨_, Format.nearest_rankOf hf _ hunits, rfl⟩

end Binary

end Filtergraph
