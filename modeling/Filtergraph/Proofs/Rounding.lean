import Mathlib.Data.Nat.Log
import Mathlib.Tactic.Linarith
import Mathlib.Tactic.Ring
import Filtergraph.Number

/-!
# Rounding and reading back

A rank is a significand in a binade: `shift * 2 ^ fractionBits + q` is the rank of
`q * 2 ^ shift` units. A quotient that lies less than half a step above a magnitude is rounded to
its rank, and exactly the magnitude is. So the exact decimal of a magnitude reads back, and with it
the shortest one.

Whole numbers are rounded to whole numbers. And a whole number is written without places: either
it has few digits, so that the grid of ones is tried, or it has so many that a coarser grid is
finer than the spacing of magnitudes.
-/

namespace Filtergraph

/-! ## Quotients -/

section Quotients

variable {n d k q r : Nat}

/-- The rounded quotient of a fraction does not change when it is expanded. -/
theorem divHalfEven_mul_right (hk : 0 < k) : divHalfEven (n * k) (d * k) = divHalfEven n d := by
  unfold divHalfEven
  have hlt : 2 * (n % d * k) < d * k ↔ 2 * (n % d) < d := by
    rw [← Nat.mul_assoc, Nat.mul_lt_mul_right hk]
  have hgt : d * k < 2 * (n % d * k) ↔ d < 2 * (n % d) := by
    rw [← Nat.mul_assoc, Nat.mul_lt_mul_right hk]
  simp only [Nat.mul_div_mul_right n d hk, Nat.mul_mod_mul_right, hlt, hgt]

/-- Less than half a step above a whole number. -/
theorem divHalfEven_of_lt (h : 2 * r < d) : divHalfEven (q * d + r) d = q := by
  unfold divHalfEven
  have hdiv : (q * d + r) / d = q := by
    rw [Nat.mul_comm, Nat.mul_add_div (by omega), Nat.div_eq_of_lt (by omega), Nat.add_zero]
  have hmod : (q * d + r) % d = r := by
    rw [Nat.mul_comm, Nat.mul_add_mod, Nat.mod_eq_of_lt (by omega)]
  simp only [hdiv, hmod, if_pos h]

theorem divHalfEven_mul (hd : 0 < d) : divHalfEven (q * d) d = q :=
  divHalfEven_of_lt (q := q) (r := 0) (by omega)

theorem divHalfEven_cases (n d : Nat) : divHalfEven n d = n / d ∨ divHalfEven n d = n / d + 1 := by
  unfold divHalfEven
  dsimp only
  split
  · exact .inl rfl
  · split
    · exact .inr rfl
    · split
      · exact .inl rfl
      · exact .inr rfl

end Quotients

/-! ## Ranks -/

namespace Binary.Format

variable {f : Format} {n d n' d' k q s : Nat}

/-- How far the binade of a quotient lies above the two lowest. -/
def shiftOf (f : Format) (n d : Nat) : Nat := (n * 2 ^ f.scale / d).log2 - f.fractionBits

theorem rankOf_eq (f : Format) (n d : Nat) : f.rankOf n d =
    f.shiftOf n d * 2 ^ f.fractionBits + divHalfEven (n * 2 ^ f.scale) (d * 2 ^ f.shiftOf n d) :=
  rfl

/-- **Rounding depends on the quotient only.** -/
theorem rankOf_mul_right (hk : 0 < k) : f.rankOf (n * k) (d * k) = f.rankOf n d := by
  have hshift : f.shiftOf (n * k) (d * k) = f.shiftOf n d := by
    rw [shiftOf, shiftOf, Nat.mul_right_comm, Nat.mul_div_mul_right _ _ hk]
  rw [rankOf_eq, rankOf_eq, hshift, Nat.mul_right_comm, Nat.mul_right_comm d,
    divHalfEven_mul_right hk]

theorem rankOf_congr (hd : 0 < d) (hd' : 0 < d') (h : n * d' = n' * d) :
    f.rankOf n d = f.rankOf n' d' := by
  rw [← rankOf_mul_right (n := n) hd', h, Nat.mul_comm d, rankOf_mul_right hd]

/-- The magnitude of a significand in a binade. The significand `2 ^ (fractionBits + 1)` is that
of the next binade's least magnitude. -/
theorem units_add (hq : q ≤ 2 * 2 ^ f.fractionBits) (hs : s = 0 ∨ 2 ^ f.fractionBits ≤ q) :
    f.units (s * 2 ^ f.fractionBits + q) = q * 2 ^ s := by
  have hunits : ∀ r, f.units r = if r / 2 ^ f.fractionBits = 0 then r
      else (2 ^ f.fractionBits + r % 2 ^ f.fractionBits) * 2 ^ (r / 2 ^ f.fractionBits - 1) :=
    fun r => rfl
  have hpos : 0 < 2 ^ f.fractionBits := Nat.two_pow_pos _
  rw [hunits]
  generalize 2 ^ f.fractionBits = m at *
  -- subnormal, the next binade's least, or in a binade of its own
  by_cases hlow : q < m
  · obtain rfl : s = 0 := by omega
    rw [Nat.zero_mul, Nat.zero_add, Nat.div_eq_of_lt hlow, if_pos rfl, Nat.pow_zero, Nat.mul_one]
  by_cases htop : q = 2 * m
  · have hrank : s * m + q = (s + 2) * m := by rw [htop]; ring
    rw [hrank, Nat.mul_div_cancel _ hpos, Nat.mul_mod_left, if_neg (by omega), htop]
    show (m + 0) * 2 ^ (s + 1) = _
    ring
  · have hrank : s * m + q = (s + 1) * m + (q - m) := by
      rw [Nat.add_mul, Nat.one_mul]
      omega
    have hdiv : ((s + 1) * m + (q - m)) / m = s + 1 := by
      rw [Nat.mul_comm, Nat.mul_add_div hpos, Nat.div_eq_of_lt (by omega), Nat.add_zero]
    have hmod : ((s + 1) * m + (q - m)) % m = q - m := by
      rw [Nat.mul_comm, Nat.mul_add_mod, Nat.mod_eq_of_lt (by omega)]
    rw [hrank, hdiv, hmod, if_neg (by omega), Nat.add_sub_cancel]
    congr 1
    omega

/-- Every rank is a significand in a binade. -/
theorem exists_significand (f : Format) (r : Nat) : ∃ s q, r = s * 2 ^ f.fractionBits + q ∧
    q < 2 * 2 ^ f.fractionBits ∧ (s = 0 ∨ 2 ^ f.fractionBits ≤ q) := by
  have hpos : 0 < 2 ^ f.fractionBits := Nat.two_pow_pos _
  generalize 2 ^ f.fractionBits = m at *
  have hdiv : m * (r / m) + r % m = r := Nat.div_add_mod r m
  have hmod : r % m < m := Nat.mod_lt r hpos
  -- the lowest binade has no leading bit, the others do
  cases hb : r / m with
  | zero =>
    rw [hb] at hdiv
    exact ⟨0, r, by omega, by omega, .inl rfl⟩
  | succ s =>
    refine ⟨s, m + r % m, ?_, by omega, .inr (by omega)⟩
    rw [hb] at hdiv
    calc r = m * (s + 1) + r % m := hdiv.symm
      _ = s * m + (m + r % m) := by ring

/-- **A quotient less than half a step above a magnitude is rounded to it.** -/
theorem rankOf_of_lt {e : Nat} (hd : 0 < d) (hq : q < 2 * 2 ^ f.fractionBits)
    (hs : s = 0 ∨ 2 ^ f.fractionBits ≤ q) (hn : n * 2 ^ f.scale = q * (d * 2 ^ s) + e)
    (he : 2 * e < d * 2 ^ s) : f.rankOf n d = s * 2 ^ f.fractionBits + q := by
  have hdiv : n * 2 ^ f.scale / d = q * 2 ^ s + e / d := by
    rw [hn, show q * (d * 2 ^ s) + e = d * (q * 2 ^ s) + e by ring, Nat.mul_add_div hd]
  have hsmall : e / d < 2 ^ s := Nat.div_lt_of_lt_mul (by omega)
  have hbelow : q * 2 ^ s + e / d < 2 ^ (f.fractionBits + 1 + s) := by
    have hstep : (q + 1) * 2 ^ s ≤ 2 * 2 ^ f.fractionBits * 2 ^ s := Nat.mul_le_mul_right _ hq
    rw [Nat.add_mul, Nat.one_mul] at hstep
    calc q * 2 ^ s + e / d < q * 2 ^ s + 2 ^ s := by omega
      _ ≤ 2 * 2 ^ f.fractionBits * 2 ^ s := hstep
      _ = 2 ^ (f.fractionBits + 1 + s) := by rw [Nat.pow_add, Nat.pow_succ]; ring
  -- the excess does not carry the quotient out of its binade
  have hshift : f.shiftOf n d = s := by
    unfold shiftOf
    rw [hdiv]
    -- zero has no logarithm, but then the significand is zero as well
    by_cases hzero : q * 2 ^ s + e / d = 0
    · have hqz : q * 2 ^ s = 0 := (Nat.add_eq_zero_iff.mp hzero).1
      rcases Nat.mul_eq_zero.mp hqz with rfl | hpow
      · have hpos : 0 < 2 ^ f.fractionBits := Nat.two_pow_pos _
        rw [hzero, Nat.log2_zero]
        omega
      · exact absurd hpow (Nat.two_pow_pos s).ne'
    · have hupper := (Nat.log2_lt hzero).mpr hbelow
      rcases hs with rfl | hq'
      · omega
      · have habove : 2 ^ (f.fractionBits + s) ≤ q * 2 ^ s + e / d := by
          rw [Nat.pow_add]
          exact Nat.le_add_right_of_le (Nat.mul_le_mul_right _ hq')
        have hlower := (Nat.le_log2 hzero).mpr habove
        omega
  rw [rankOf_eq, hshift, hn, divHalfEven_of_lt he]

/-- **A magnitude is rounded to its own rank.** -/
theorem rankOf_units (f : Format) (r : Nat) : f.rankOf (f.units r) (2 ^ f.scale) = r := by
  obtain ⟨s, q, rfl, hq, hs⟩ := f.exists_significand r
  have hpos : 0 < 2 ^ f.scale * 2 ^ s := Nat.mul_pos (Nat.two_pow_pos _) (Nat.two_pow_pos _)
  rw [units_add hq.le hs]
  refine rankOf_of_lt (e := 0) (Nat.two_pow_pos _) hq hs ?_ (by omega)
  ring

/-- A quotient, cut off in its binade, is a significand there. -/
theorem significand_bounds (f : Format) (n d : Nat) :
    n * 2 ^ f.scale / (d * 2 ^ f.shiftOf n d) < 2 * 2 ^ f.fractionBits ∧
      (f.shiftOf n d = 0 ∨ 2 ^ f.fractionBits ≤ n * 2 ^ f.scale / (d * 2 ^ f.shiftOf n d)) := by
  rw [← Nat.div_div_eq_div_mul]
  constructor
  · refine Nat.div_lt_of_lt_mul ?_
    have hlog := Nat.lt_log2_self (n := n * 2 ^ f.scale / d)
    refine hlog.trans_le ?_
    rw [← Nat.pow_succ', ← Nat.pow_add]
    refine Nat.pow_le_pow_right (by omega) ?_
    unfold shiftOf
    omega
  by_cases hshift : f.shiftOf n d = 0
  · exact .inl hshift
  · have hne : n * 2 ^ f.scale / d ≠ 0 := by
      intro h
      rw [shiftOf, h, Nat.log2_zero, Nat.zero_sub] at hshift
      exact hshift rfl
    refine .inr ?_
    rw [Nat.le_div_iff_mul_le (Nat.two_pow_pos _), ← Nat.pow_add]
    refine le_trans (Nat.pow_le_pow_right (by omega) ?_) (Nat.log2_self_le hne)
    unfold shiftOf at hshift ⊢
    omega

/-- What a quotient is rounded to. -/
theorem units_rankOf (f : Format) (n d : Nat) : f.units (f.rankOf n d) =
    divHalfEven (n * 2 ^ f.scale) (d * 2 ^ f.shiftOf n d) * 2 ^ f.shiftOf n d := by
  have hcases := divHalfEven_cases (n * 2 ^ f.scale) (d * 2 ^ f.shiftOf n d)
  obtain ⟨hbelow, habove⟩ := f.significand_bounds n d
  rw [rankOf_eq, units_add (by omega) (by omega)]

/-- **Whole numbers are rounded to whole numbers.** Where the steps are whole, every magnitude is;
below that nothing is rounded. -/
theorem whole_units_rankOf (f : Format) (n : Nat) : 2 ^ f.scale ∣ f.units (f.rankOf n 1) := by
  rw [units_rankOf, Nat.one_mul]
  rcases Nat.le_total (f.shiftOf n 1) f.scale with hle | hge
  · obtain ⟨m, hm⟩ := Nat.pow_dvd_pow 2 hle
    have hexact : n * 2 ^ f.scale = n * m * 2 ^ f.shiftOf n 1 := by rw [hm]; ring
    rw [hexact, divHalfEven_mul (Nat.two_pow_pos _), ← hexact]
    exact Nat.dvd_mul_left _ _
  · exact (Nat.pow_dvd_pow 2 hge).mul_left _

end Binary.Format

/-! ## Decimals -/

/-- A decimal as a quotient. -/
def Decimal.numerator (d : Decimal) : Nat := d.digits * 10 ^ d.exponent.toNat

/-- The power of ten below the fraction bar. -/
def Decimal.denominator (d : Decimal) : Nat := 10 ^ (-d.exponent).toNat

theorem Decimal.denominator_pos (d : Decimal) : 0 < d.denominator := Nat.pow_pos (by decide)

namespace Binary

variable {f : Format} {negative : Bool} {n : Nat}

theorem ofRatio_of_le (h : f.magnitudes ≤ f.rankOf n 1) :
    (ofRatio negative n 1 : Binary f) = .infinite negative := by
  rw [ofRatio, ofRank, dif_neg (by omega)]

/-- A number of so many binary digits is past the last finite one. -/
theorem magnitudes_le_rankOf (h : 2 ^ (f.binades + f.fractionBits) ≤ n) :
    f.magnitudes ≤ f.rankOf n 1 := by
  have hpos : 0 < n := Nat.lt_of_lt_of_le (Nat.two_pow_pos _) h
  have hscaled : n ≤ n * 2 ^ f.scale / 1 := by
    rw [Nat.div_one]
    exact Nat.le_mul_of_pos_right n (Nat.two_pow_pos _)
  have hlog : f.binades + f.fractionBits ≤ (n * 2 ^ f.scale / 1).log2 :=
    (Nat.le_log2 (by omega)).mpr (h.trans hscaled)
  have hshift : f.binades ≤ f.shiftOf n 1 := by
    unfold Format.shiftOf
    omega
  calc f.magnitudes = f.binades * 2 ^ f.fractionBits := rfl
    _ ≤ f.shiftOf n 1 * 2 ^ f.fractionBits := Nat.mul_le_mul_right _ hshift
    _ ≤ f.rankOf n 1 := by rw [Format.rankOf_eq]; exact Nat.le_add_right _ _

/-- Less than half of the least positive magnitude. -/
theorem rankOf_eq_zero {d : Nat} (h : 2 * (n * 2 ^ f.scale) < d) : f.rankOf n d = 0 := by
  have hzero := Format.rankOf_of_lt (f := f) (n := n) (d := d) (q := 0) (s := 0)
    (e := n * 2 ^ f.scale) (by omega) (by have := Nat.two_pow_pos f.fractionBits; omega)
    (.inl rfl) (by simp) (by simpa using h)
  simpa using hzero

/-- **The shortcuts for exponents out of range change nothing.** -/
theorem ofDecimal_eq (negative : Bool) (d : Decimal) :
    (ofDecimal negative d : Binary f) = ofRatio negative d.numerator d.denominator := by
  obtain ⟨digits, exponent⟩ := d
  unfold ofDecimal Decimal.numerator Decimal.denominator
  dsimp only
  by_cases hzero : digits = 0
  · have hpos : 0 < 10 ^ (-exponent).toNat := Nat.pow_pos (by decide)
    rw [if_pos hzero, hzero, Nat.zero_mul, ofRatio, rankOf_eq_zero (by omega)]
  rw [if_neg hzero]
  -- so many zeros behind the digits: past the last finite number
  by_cases hlarge : (f.binades + f.fractionBits : Int) ≤ exponent
  · have hnonneg : (-exponent).toNat = 0 := by omega
    rw [if_pos hlarge, hnonneg, Nat.pow_zero, ofRatio_of_le]
    apply magnitudes_le_rankOf
    calc 2 ^ (f.binades + f.fractionBits) ≤ 10 ^ (f.binades + f.fractionBits) :=
          Nat.pow_le_pow_left (by decide) _
      _ ≤ 10 ^ exponent.toNat := Nat.pow_le_pow_right (by decide) (by omega)
      _ ≤ digits * 10 ^ exponent.toNat := Nat.le_mul_of_pos_left _ (by omega)
  rw [if_neg hlarge]
  -- so many in front of them: less than half the least one
  by_cases hsmall : digits.log2 + 1 + exponent < -(f.scale : Int)
  · have htop : exponent.toNat = 0 := by omega
    rw [if_pos hsmall, ofRatio, htop, Nat.pow_zero, Nat.mul_one, rankOf_eq_zero]
    calc 2 * (digits * 2 ^ f.scale) < 2 * (2 ^ (digits.log2 + 1) * 2 ^ f.scale) := by
          have := Nat.mul_lt_mul_of_pos_right (Nat.lt_log2_self (n := digits))
            (Nat.two_pow_pos f.scale)
          omega
      _ = 2 ^ (digits.log2 + 1 + f.scale + 1) := by rw [← Nat.pow_add, ← Nat.pow_succ']
      _ ≤ 2 ^ (-exponent).toNat := Nat.pow_le_pow_right (by decide) (by omega)
      _ ≤ 10 ^ (-exponent).toNat := Nat.pow_le_pow_left (by decide) _
  rw [if_neg hsmall]
  by_cases hsign : 0 ≤ exponent
  · have hbelow : (-exponent).toNat = 0 := by omega
    rw [if_pos hsign, hbelow]
    rfl
  · have htop : exponent.toNat = 0 := by omega
    have hbelow : exponent.natAbs = (-exponent).toNat := by omega
    rw [if_neg hsign, htop, hbelow, Nat.pow_zero, Nat.mul_one]
    rfl

theorem ofRatio_eq_finite {d : Nat} {rank : Fin f.magnitudes} :
    (ofRatio negative n d : Binary f) = .finite negative rank ↔ f.rankOf n d = rank := by
  unfold ofRatio ofRank
  split
  · rw [Binary.finite.injEq, Fin.ext_iff]
    simp
  · have := rank.isLt
    simp
    omega

/-- The decimal is rounded to that rank. -/
def ReadsAs (f : Format) (d : Decimal) (rank : Nat) : Prop :=
  f.rankOf d.numerator d.denominator = rank

theorem ReadsAs.congr {d d' : Decimal} {rank : Nat} (h : ReadsAs f d rank)
    (heq : d.numerator * d'.denominator = d'.numerator * d.denominator) : ReadsAs f d' rank := by
  rw [ReadsAs, ← Format.rankOf_congr d.denominator_pos d'.denominator_pos heq]
  exact h

theorem ofDecimal_eq_finite {d : Decimal} {rank : Fin f.magnitudes} :
    (ofDecimal negative d : Binary f) = .finite negative rank ↔ ReadsAs f d rank := by
  rw [ofDecimal_eq, ofRatio_eq_finite, ReadsAs]

/-! ## The shortest decimal -/

section Shortest

variable {rank : Fin f.magnitudes} {e : Int} {d : Decimal}

/-- The decimal on a grid that is nearest below the magnitude of a rank. -/
def floorOn (f : Format) (rank : Nat) (e : Int) : Nat := (onGrid f rank e).1 / (onGrid f rank e).2

theorem readingBack?_eq (f : Format) (rank : Fin f.magnitudes) (e : Int) :
    readingBack? f rank e =
      let reads (x : Decimal) : Bool := (ofDecimal false x : Binary f) == .finite false rank
      match reads ⟨floorOn f rank e, e⟩, reads ⟨floorOn f rank e + 1, e⟩ with
      | true, true => some (if 2 * ((onGrid f rank e).1 % (onGrid f rank e).2) < (onGrid f rank e).2
          then ⟨floorOn f rank e, e⟩ else ⟨floorOn f rank e + 1, e⟩)
      | true, false => some ⟨floorOn f rank e, e⟩
      | false, true => some ⟨floorOn f rank e + 1, e⟩
      | false, false => none := rfl

theorem reads_eq_true {x : Decimal} :
    ((ofDecimal false x : Binary f) == .finite false rank) = true ↔ ReadsAs f x rank := by
  rw [beq_iff_eq, ofDecimal_eq_finite]

/-- What is found on a grid reads back. -/
theorem readsAs_of_readingBack? (h : readingBack? f rank e = some d) :
    ReadsAs f d rank ∧ d.exponent = e := by
  rw [readingBack?_eq] at h
  dsimp only at h
  -- if both neighbours read back the nearer one is taken
  split at h
  · rename_i hlower hupper
    rw [reads_eq_true] at hlower hupper
    obtain rfl := Option.some.inj h
    split
    · exact ⟨hlower, rfl⟩
    · exact ⟨hupper, rfl⟩
  · rename_i hlower _
    obtain rfl := Option.some.inj h
    exact ⟨reads_eq_true.mp hlower, rfl⟩
  · rename_i _ hupper
    obtain rfl := Option.some.inj h
    exact ⟨reads_eq_true.mp hupper, rfl⟩
  · exact absurd h (by simp)

theorem readingBack?_isSome (h : ReadsAs f ⟨floorOn f rank e, e⟩ rank ∨
    ReadsAs f ⟨floorOn f rank e + 1, e⟩ rank) : (readingBack? f rank e).isSome = true := by
  rw [readingBack?_eq]
  dsimp only
  rw [← reads_eq_true, ← reads_eq_true] at h
  split
  · rfl
  · rfl
  · rfl
  · rename_i hlower hupper
    rw [hlower, hupper] at h
    simp at h

/-- The exact decimal reads back. -/
theorem readsAs_exact (f : Format) (rank : Nat) :
    ReadsAs f ⟨f.units rank * 5 ^ f.scale, -(f.scale : Int)⟩ rank := by
  unfold ReadsAs Decimal.numerator Decimal.denominator
  have hten : (10 : Nat) ^ f.scale = 2 ^ f.scale * 5 ^ f.scale := by rw [← Nat.mul_pow]
  simp only [Int.toNat_neg_natCast, Int.neg_neg, Int.toNat_natCast, Nat.pow_zero, Nat.mul_one, hten]
  rw [Format.rankOf_mul_right (Nat.pow_pos (by decide)), Format.rankOf_units]

/-- Whatever grid the search ends on, its decimal reads back. -/
theorem readsAs_shortestFrom (tries : Nat) (e : Int) :
    ReadsAs f (shortestFrom f rank tries e) rank := by
  induction tries generalizing e with
  -- no grid was left, so it is the exact decimal
  | zero => exact readsAs_exact f rank
  | succ tries ih =>
    unfold shortestFrom
    cases h : readingBack? f rank e with
    | none => exact ih (e - 1)
    | some d => exact (readsAs_of_readingBack? h).1

/-- A grid that will do is not passed. -/
theorem le_exponent_shortestFrom {e₀ : Int} (h₀ : (readingBack? f rank e₀).isSome = true)
    {tries : Nat} (he : e₀ ≤ e) (htries : e < e₀ + tries) :
    e₀ ≤ (shortestFrom f rank tries e).exponent := by
  induction tries generalizing e with
  | zero => omega
  | succ tries ih =>
    unfold shortestFrom
    cases h : readingBack? f rank e with
    | some d => exact (readsAs_of_readingBack? h).2 ▸ he
    | none =>
      have hne : e ≠ e₀ := by
        rintro rfl
        rw [h] at h₀
        exact absurd h₀ (by simp)
      exact ih (by omega) (by omega)

/-- **The shortest decimal reads back.** -/
theorem readsAs_shortest (f : Format) (rank : Fin f.magnitudes) :
    ReadsAs f (shortest f rank) rank := by
  unfold shortest
  split
  · rename_i hzero
    rw [hzero]
    exact rankOf_eq_zero (by simp [Decimal.numerator, Decimal.denominator])
  · exact readsAs_shortestFrom _ _

/-! ## Whole numbers -/

/-- A decimal without places reads as a whole number. -/
theorem whole_of_readsAs (h : ReadsAs f d rank) (he : 0 ≤ d.exponent) :
    2 ^ f.scale ∣ f.units rank := by
  have hdenominator : d.denominator = 1 := by
    rw [Decimal.denominator, show (-d.exponent).toNat = 0 by omega, Nat.pow_zero]
  rw [ReadsAs, hdenominator] at h
  rw [← h]
  exact f.whole_units_rankOf d.numerator

/-- On the grid of ones a whole number stands for itself. -/
theorem readingBack?_zero {m : Nat} (hm : f.units rank = m * 2 ^ f.scale) :
    (readingBack? f rank 0).isSome = true := by
  have hfloor : floorOn f rank 0 = m := by
    show f.units rank / (2 ^ f.scale * 10 ^ 0) = m
    rw [Nat.pow_zero, Nat.mul_one, hm, Nat.mul_div_cancel _ (Nat.two_pow_pos _)]
  refine readingBack?_isSome (.inl ?_)
  rw [hfloor]
  show f.rankOf (m * 10 ^ 0) (10 ^ 0) = rank
  rw [← f.rankOf_units rank, hm]
  exact Format.rankOf_congr (by decide) (Nat.two_pow_pos _) (by ring)

/-- A grid finer than half a step has a decimal just above the magnitude. -/
theorem readingBack?_fine {k q s : Nat} (hrank : (rank : Nat) = s * 2 ^ f.fractionBits + q)
    (hq : q < 2 * 2 ^ f.fractionBits) (hs : s = 0 ∨ 2 ^ f.fractionBits ≤ q)
    (hk : 2 * (10 ^ k * 2 ^ f.scale) < 2 ^ s) : (readingBack? f rank k).isSome = true := by
  have hunits : f.units rank = q * 2 ^ s := by rw [hrank, Format.units_add hq.le hs]
  have hten : 0 < 2 ^ f.scale * 10 ^ k := Nat.mul_pos (Nat.two_pow_pos _) (Nat.pow_pos (by decide))
  have hfloor : floorOn f rank k = q * 2 ^ s / (2 ^ f.scale * 10 ^ k) := by
    unfold floorOn onGrid
    rw [if_pos (by omega), hunits]
    rfl
  -- what the upper neighbour exceeds the magnitude by is at most one step of the grid
  obtain ⟨x, hx, hle⟩ : ∃ x, (floorOn f rank k + 1) * (2 ^ f.scale * 10 ^ k) = q * 2 ^ s + x ∧
      x ≤ 2 ^ f.scale * 10 ^ k := by
    rw [hfloor]
    generalize q * 2 ^ s = m
    generalize 2 ^ f.scale * 10 ^ k = g at hten
    have hdiv := Nat.div_add_mod m g
    have hmod := Nat.mod_lt m hten
    have hcomm : (m / g + 1) * g = g * (m / g) + g := by ring
    exact ⟨g - m % g, by omega, by omega⟩
  refine readingBack?_isSome (.inr ?_)
  show f.rankOf ((floorOn f rank k + 1) * 10 ^ (k : Int).toNat) (10 ^ (-(k : Int)).toNat) = rank
  rw [Int.toNat_natCast, Int.toNat_neg_natCast, Nat.pow_zero]
  refine (Format.rankOf_of_lt (e := x) (by decide) hq hs ?_ ?_).trans hrank.symm
  · rw [Nat.one_mul, ← hx]
    ring
  · rw [Nat.one_mul]
    calc 2 * x ≤ 2 * (2 ^ f.scale * 10 ^ k) := by omega
      _ = 2 * (10 ^ k * 2 ^ f.scale) := by ring
      _ < 2 ^ s := hk

/-- The digits of a number reach its leading power of ten. -/
theorem pow_le_of_length {m l : Nat} (hm : 0 < m) (hl : (digitsOf m).length = l + 1) :
    10 ^ l ≤ m := by
  cases l with
  | zero => exact hm
  | succ l =>
    have h := (Nat.length_toDigits_le_iff (b := 10) (n := m) (k := l + 1) (by decide) (by omega))
    unfold digitsOf at hl
    omega

/-- The last grid that is tried for a long whole number is finer than half a step. -/
theorem fine_of_length {m k q s : Nat} (hf : 4 ≤ f.fractionBits) (hm : 0 < m)
    (hunits : m * 2 ^ f.scale = q * 2 ^ s) (hq : q < 2 * 2 ^ f.fractionBits)
    (hk : (digitsOf m).length = k + f.fractionBits) : 2 * (10 ^ (k + 1) * 2 ^ f.scale) < 2 ^ s := by
  obtain ⟨b, hb⟩ : ∃ b, f.fractionBits = b + 4 := ⟨f.fractionBits - 4, by omega⟩
  rw [hb] at hq hk
  have hleading : 10 ^ (k + 1) * 10 ^ (b + 2) ≤ m := by
    rw [← Nat.pow_add]
    exact pow_le_of_length hm (by omega)
  have hpowers : 2 ^ (b + 6) ≤ 10 ^ (b + 2) := by
    calc 2 ^ (b + 6) = 2 ^ b * 64 := by rw [Nat.pow_add]
      _ ≤ 10 ^ b * 100 := Nat.mul_le_mul (Nat.pow_le_pow_left (by decide) b) (by decide)
      _ = 10 ^ (b + 2) := by rw [Nat.pow_add]
  refine Nat.lt_of_mul_lt_mul_right (a := 2 ^ (b + 5)) ?_
  calc 2 * (10 ^ (k + 1) * 2 ^ f.scale) * 2 ^ (b + 5)
      = 10 ^ (k + 1) * 2 ^ (b + 6) * 2 ^ f.scale := by ring
    _ ≤ 10 ^ (k + 1) * 10 ^ (b + 2) * 2 ^ f.scale :=
        Nat.mul_le_mul_right _ (Nat.mul_le_mul_left _ hpowers)
    _ ≤ m * 2 ^ f.scale := Nat.mul_le_mul_right _ hleading
    _ = q * 2 ^ s := hunits
    _ < 2 * 2 ^ (b + 4) * 2 ^ s := Nat.mul_lt_mul_of_pos_right hq (Nat.two_pow_pos _)
    _ = 2 ^ s * 2 ^ (b + 5) := by ring

/-- **A whole number is written without places.** -/
theorem exponent_shortest (hf : 4 ≤ f.fractionBits) (hwhole : 2 ^ f.scale ∣ f.units rank) :
    0 ≤ (shortest f rank).exponent := by
  unfold shortest
  split
  · exact le_rfl
  rename_i hzero
  obtain ⟨m, hm⟩ := hwhole
  rw [Nat.mul_comm] at hm
  have hpos : 0 < m := by
    refine Nat.pos_of_ne_zero ?_
    rintro rfl
    rw [Nat.zero_mul] at hm
    have hrank := f.rankOf_units rank
    rw [hm, rankOf_eq_zero (by simp)] at hrank
    exact hzero hrank.symm
  have hplace : leadingPlace (f.units rank) (2 ^ f.scale) = (digitsOf m).length := by
    unfold leadingPlace
    rw [hm, if_pos (Nat.le_mul_of_pos_left _ hpos), Nat.mul_div_cancel _ (Nat.two_pow_pos _)]
  show 0 ≤ (shortestFrom f rank f.fractionBits (leadingPlace (f.units rank) (2 ^ f.scale))).exponent
  rw [hplace]
  -- few digits reach the grid of ones, many stop on a coarser grid
  by_cases hfew : (digitsOf m).length < f.fractionBits
  · exact le_exponent_shortestFrom (readingBack?_zero hm) (by omega) (by omega)
  · obtain ⟨k, hk⟩ : ∃ k, (digitsOf m).length = k + f.fractionBits :=
      ⟨(digitsOf m).length - f.fractionBits, by omega⟩
    obtain ⟨s, q, hrank, hq, hs⟩ := f.exists_significand rank
    have hunits : m * 2 ^ f.scale = q * 2 ^ s := by rw [← hm, hrank, Format.units_add hq.le hs]
    have hfine : (readingBack? f rank (k + 1 : Nat)).isSome = true :=
      readingBack?_fine hrank hq hs (fine_of_length hf hpos hunits hq hk)
    have hle : ((k + 1 : Nat) : Int) ≤
        (shortestFrom f rank f.fractionBits (digitsOf m).length).exponent :=
      le_exponent_shortestFrom hfine (by omega) (by omega)
    omega

/-- A number is whole if and only if it is written without places. -/
theorem isWhole_iff (hf : 4 ≤ f.fractionBits) :
    isWhole (.finite negative rank : Binary f) = true ↔ 0 ≤ (shortest f rank).exponent := by
  show (f.units rank % 2 ^ f.scale == 0) = true ↔ _
  rw [beq_iff_eq, ← Nat.dvd_iff_mod_eq_zero]
  constructor
  · exact exponent_shortest hf
  · exact whole_of_readsAs (readsAs_shortest f rank)

end Shortest

end Binary

end Filtergraph
