import Filtergraph.Proofs.Numerals
import Filtergraph.Proofs.Settings

/-!
# Speeds as they are written

A speed is taken if it is finite and above zero. What is written for it is another number: for
frames the reciprocal, for sound the speed to two places. So the check does not carry over to the
text. The reciprocal of a small speed lies past the last finite number and is written `inf`, and a
small speed has no place left that is not zero. Below are the exact limits: above them the text
stands for a number above zero, at and below them it never does.
-/

namespace Filtergraph

open Catalogue Filtergraph.Graph

/-- The text stands for a finite number above zero. -/
def Usable (text : String) : Prop := ∃ v, DecimalNumeral text.toList v ∧ 0 < v

/-! ## Written numbers -/

theorem DecimalNumeral.unique {cs : List Char} {v v' : ℚ} (h : DecimalNumeral cs v)
    (h' : DecimalNumeral cs v') : v = v' := by
  obtain ⟨d, hd, rfl⟩ := ofChars?_eq_some.mpr h
  obtain ⟨d', hd', rfl⟩ := ofChars?_eq_some.mpr h'
  rw [Option.some.inj (hd.symm.trans hd')]

namespace Decimal

variable {d : Decimal}

/-- A decimal that is written out reads as its value. -/
theorem decimalNumeral_chars (d : Decimal) : DecimalNumeral d.chars d.value := by
  -- with places behind a point, or with zeros at the end
  rcases Int.lt_or_le d.exponent 0 with h | h
  · obtain ⟨w, ds, hchars, hw, hplaces, hds, hdigits⟩ := Toml.chars_of_neg h
    have hnumeral := DecimalNumeral.mk (.point hw.isDigit hds (.inl hw.ne_nil)) .absent
    have hexponent : (0 : Int) - ds.length = d.exponent := by omega
    have hvalue : Nat.ofDigitChars 10 (w ++ ds) 0 = d.digits := hdigits
    rw [List.append_nil, ← hchars, hexponent, hvalue] at hnumeral
    exact hnumeral
  · obtain ⟨hw, hdigits⟩ := Toml.chars_of_nonneg h
    have hnumeral := DecimalNumeral.mk (.whole hw.ne_nil hw.isDigit) .absent
    have hvalue : Nat.ofDigitChars 10 d.chars 0 = d.numerator := hdigits
    have hdenominator : d.denominator = 1 := by
      rw [Decimal.denominator, show (-d.exponent).toNat = 0 by omega, Nat.pow_zero]
    rw [List.append_nil, hvalue] at hnumeral
    rw [d.value_eq, hdenominator]
    simpa using hnumeral

theorem value_pos_iff : 0 < d.value ↔ d.digits ≠ 0 := by
  unfold Decimal.value
  rw [mul_pos_iff_of_pos_right (zpow_pos (by norm_num) _), Nat.cast_pos, Nat.pos_iff_ne_zero]

/-- A decimal that is written out is usable unless all its digits are zero. -/
theorem usable_chars : Usable (String.ofList d.chars) ↔ d.digits ≠ 0 := by
  unfold Usable
  rw [String.toList_ofList, ← value_pos_iff]
  constructor
  · rintro ⟨v, hv, hpos⟩
    rw [d.decimalNumeral_chars.unique hv]
    exact hpos
  · intro h
    exact ⟨d.value, d.decimalNumeral_chars, h⟩

end Decimal

theorem not_usable_inf : ¬ Usable "inf" := by
  rintro ⟨v, hv, -⟩
  obtain ⟨c, rest, hcs, hc⟩ := hv.exists_head
  have hhead : c = 'i' := by simpa using congrArg List.head? hcs.symm
  rw [hhead] at hc
  exact absurd hc (by decide)

/-- Up to the half a quotient is rounded to zero, and zero is even. -/
theorem divHalfEven_eq_zero {n d : Nat} (hd : 0 < d) : divHalfEven n d = 0 ↔ 2 * n ≤ d := by
  have hdivision := Nat.div_add_mod n d
  have hrest := Nat.mod_lt n hd
  unfold divHalfEven
  dsimp only
  -- the whole part is zero, or the quotient is one at least
  rcases Nat.eq_zero_or_pos (n / d) with hzero | hpos
  · rw [hzero, Nat.mul_zero] at hdivision
    rw [hzero]
    split
    · omega
    · rw [if_pos (Nat.zero_mod 2)]
      split
      · omega
      · omega
  · have hle : d * 1 ≤ d * (n / d) := Nat.mul_le_mul_left d hpos
    split
    · omega
    · split
      · omega
      · split
        · omega
        · omega

namespace Binary

variable {f : Format} {q : ℚ}

/-- The shortest decimal of a number above zero has a digit that is not zero. -/
theorem digits_shortest {rank : Fin f.magnitudes} (h : rank.val ≠ 0) :
    (shortest f rank).digits ≠ 0 := by
  intro hzero
  have hreads : f.rankOf (shortest f rank).numerator (shortest f rank).denominator = rank :=
    readsAs_shortest f rank
  rw [Decimal.numerator, hzero, Nat.zero_mul,
    rankOf_eq_zero (by simpa using (shortest f rank).denominator_pos)] at hreads
  exact h hreads.symm

/-! ## Reciprocals -/

theorem Format.nearest_magnitude (f : Format) (r : Nat) : f.Nearest (f.magnitude r) r := by
  have hlt := f.magnitude_strictMono (Nat.lt_succ_self r)
  refine nearest_lower le_rfl ?_ fun _ => ?_
  · linarith
  · linarith

/-- The first rank past the finite ones. -/
theorem magnitude_single_magnitudes :
    Format.single.magnitude Format.single.magnitudes = 2 ^ 128 := by
  have hunits : Format.single.units Format.single.magnitudes = 2 ^ (128 + 149) := by
    decide +kernel
  have hpow : (2 ^ 149 : ℚ) ≠ 0 := by positivity
  rw [Format.magnitude, hunits, Nat.cast_pow, pow_add]
  exact mul_div_cancel_right₀ _ hpow

theorem magnitude_single_pow : Format.single.magnitude (2 ^ 21) = (2 ^ 128)⁻¹ := by
  have hunits : Format.single.units (2 ^ 21) = 2 ^ 21 := by decide +kernel
  rw [Format.magnitude, hunits, Format.single]
  norm_num

theorem ofRank_of_le {negative : Bool} {r : Nat} (h : f.magnitudes ≤ r) :
    (ofRank negative r : Binary f) = .infinite negative := dif_neg (Nat.not_lt.mpr h)

/-- **Small speeds have no finite reciprocal.** -/
theorem reciprocal_of_le {x : Single} (hx : x.value? = some q) (hq : 0 < q)
    (h : q ≤ (2 ^ 128)⁻¹) : x.reciprocal = .infinite false := by
  obtain ⟨r, hr, hy⟩ := rounds_reciprocal (by decide) hx hq
  have hlast := Format.single.nearest_magnitude Format.single.magnitudes
  rw [hy]
  refine ofRank_of_le (hlast.mono hr ?_)
  rw [magnitude_single_magnitudes]
  exact (le_inv_comm₀ hq (by norm_num)).mp h

/-- Past the limit, reciprocals are bounded by that of the next magnitude. -/
theorem inv_magnitude_le {r : Nat} (h : (2 ^ 128)⁻¹ < Format.single.magnitude r) :
    (Format.single.magnitude r)⁻¹ ≤ (2 ^ 149 : Nat) / (2 ^ 21 + 1 : Nat) := by
  have hmono := Format.single.magnitude_strictMono
  have hunits : Format.single.units (2 ^ 21 + 1) = 2 ^ 21 + 1 := by decide +kernel
  rw [← magnitude_single_pow, hmono.lt_iff_lt] at h
  calc (Format.single.magnitude r)⁻¹ ≤ (Format.single.magnitude (2 ^ 21 + 1))⁻¹ := by
        refine inv_anti₀ ?_ (hmono.monotone h)
        rw [Format.magnitude_pos_iff]
        norm_num
    _ = (2 ^ 149 : Nat) / (2 ^ 21 + 1 : Nat) := by
        rw [Format.magnitude, hunits, inv_div, Nat.cast_pow]
        rfl

/-- **All others have one, and it is above zero.** -/
theorem reciprocal_of_lt {x : Single} (hx : x.value? = some q) (h : (2 ^ 128)⁻¹ < q) :
    ∃ rank : Fin Format.single.magnitudes, x.reciprocal = .finite false rank ∧ rank.val ≠ 0 := by
  have hq : 0 < q := lt_trans (by norm_num) h
  obtain ⟨r, hr, hy⟩ := rounds_reciprocal (by decide) hx hq
  obtain ⟨rank, rfl, hrank⟩ := value?_eq_some_pos.mp ⟨q, hx, hq⟩
  obtain rfl : Format.single.magnitude rank = q := by simpa [value?] using hx
  -- the least speed past the limit still has a finite reciprocal
  have hfinite : r < Format.single.magnitudes := by
    have hround := Format.nearest_rankOf (f := .single) (by decide) (2 ^ 149) (d := 2 ^ 21 + 1)
      (by norm_num)
    exact lt_of_le_of_lt (hr.mono hround (inv_magnitude_le h)) (by decide +kernel)
  -- the greatest finite speed still has one above zero
  have hpos : 2 ^ 21 ≤ r := by
    refine (Format.single.nearest_magnitude (2 ^ 21)).mono hr ?_
    rw [magnitude_single_pow, ← magnitude_single_magnitudes]
    exact inv_anti₀ hq (Format.single.magnitude_strictMono rank.isLt).le
  refine ⟨⟨r, hfinite⟩, ?_, by dsimp only; omega⟩
  rw [hy, ofRank, dif_pos hfinite]

/-! ## The two texts -/

/-- The reciprocal with the fewest digits. -/
theorem text_reciprocal {x : Single} (hx : x.value? = some q) (hq : 0 < q) :
    (Usable x.reciprocal.text ↔ (2 ^ 128)⁻¹ < q) ∧
      (q ≤ (2 ^ 128)⁻¹ → x.reciprocal.text = "inf") := by
  -- past the finite numbers there is but one text
  rcases le_or_gt q (2 ^ 128)⁻¹ with h | h
  · have htext : x.reciprocal.text = "inf" := by
      rw [reciprocal_of_le hx hq h]
      rfl
    rw [htext]
    exact ⟨iff_of_false not_usable_inf h.not_gt, fun _ => rfl⟩
  · obtain ⟨rank, hrank, hne⟩ := reciprocal_of_lt hx h
    have htext : x.reciprocal.text = String.ofList (shortest .single rank).chars := by
      rw [hrank]
      rfl
    rw [htext, Decimal.usable_chars]
    exact ⟨iff_of_true (digits_shortest hne) h, fun hle => absurd h hle.not_gt⟩

/-- The speed to two places; half of a hundredth is rounded to zero. -/
theorem textTwoPlaces_speed {x : Single} (hx : x.value? = some q) (hq : 0 < q) :
    (Usable x.textTwoPlaces ↔ 1 / 200 < q) ∧ (q ≤ 1 / 200 → x.textTwoPlaces = "0.00") := by
  obtain ⟨rank, rfl, -⟩ := value?_eq_some_pos.mp ⟨q, hx, hq⟩
  have hvalue : Format.single.magnitude rank = q := by simpa [value?] using hx
  have htext : textTwoPlaces (.finite false rank : Single) = String.ofList
      (Decimal.chars ⟨divHalfEven (Format.single.units rank * 100) (2 ^ 149), -2⟩) := rfl
  have hzero : divHalfEven (Format.single.units rank * 100) (2 ^ 149) = 0 ↔ q ≤ 1 / 200 := by
    have hcast : 2 * (Format.single.units rank * 100) ≤ 2 ^ 149 ↔
        ((Format.single.units rank : ℚ) * 200 ≤ 2 ^ 149) := by
      rw [← Nat.cast_le (α := ℚ)]
      push_cast
      constructor
      · intro h
        linarith
      · intro h
        linarith
    rw [divHalfEven_eq_zero (by norm_num), hcast, ← hvalue, Format.magnitude,
      div_le_div_iff₀ (by norm_num [Format.single]) (by norm_num), one_mul]
    rfl
  rw [htext, Decimal.usable_chars, ← not_le, ← hzero]
  refine ⟨Iff.rfl, fun h => ?_⟩
  rw [h]
  decide

end Binary

/-! ## Accepted speeds -/

/-- The values give a speed, and it is read as `q`. -/
def SpeedGiven (values : Dict String) (q : ℚ) : Prop :=
  ∃ (raw : String) (x : Single), values.get? "speed" = some raw ∧
    ValueKind.number.Takes raw (.number x) ∧ x.value? = some q ∧ 0 < q

/-- The operation is a filter that writes a text for the given speed between `before` and `after`.
The text is usable if the speed is above the limit, and it is `useless` otherwise. -/
def WritesSpeed (values : Dict String) (op : Operation) (before after : String) (limit : ℚ)
    (useless : String) : Prop :=
  ∃ (q : ℚ) (filter : Filter) (text : String), SpeedGiven values q ∧ op = .filter filter ∧
    filter.description = before ++ text ++ after ∧ (Usable text ↔ limit < q) ∧
    (q ≤ limit → text = useless)

variable {values : Dict String} {entry : Entry} {summary : String}

/-- A speed that is accepted was given, since there is no default. -/
theorem exists_speed (hentry : entry ∈ entries)
    (hp : required "speed" summary ∈ entry.parameters) {x : Single}
    (h : (entry.arguments values).positive "speed" = .ok x) :
    ∃ q, x.value? = some q ∧ 0 < q ∧ SpeedGiven values q := by
  obtain ⟨raw, htext, htakes⟩ := Arguments.positive_eq_ok.mp h
  have hget : values.get? "speed" = some raw := by
    have hvalue := (text_eq hentry hp values).symm.trans htext
    rw [Parameter.value?, required, Option.or_none] at hvalue
    cases hget : values.get? "speed" with
    | none =>
      rw [hget] at hvalue
      exact absurd hvalue (by simp)
    | some raw' =>
      rw [hget] at hvalue
      rw [Except.ok.inj hvalue]
  cases htakes with
  | positive hnumber hvalue hpos => exact ⟨_, hvalue, hpos, raw, x, hget, hnumber, hvalue, hpos⟩

theorem make_of_create_id {op : Operation} (hentry : entry ∈ entries)
    (h : create entry.id values = .ok op) : entry.make (entry.arguments values) = .ok op := by
  obtain ⟨entry', hentry', hid, -, hmake⟩ := make_of_create h
  obtain rfl : entry' = entry := List.inj_on_of_nodup_map nodup_ids hentry' hentry hid
  exact hmake

/-- **What is written for an accepted speed.** For frames it is a number above zero if and only if
the speed is above `2 ^ -128`, and `inf` otherwise; for sound if and only if the speed is above
one two-hundredth, and `0.00` otherwise. -/
theorem accepted_speed_written (values : Dict String) (op : Operation) :
    (create "speed" values = .ok op →
      WritesSpeed values op "setpts=" "*PTS" (2 ^ 128)⁻¹ "inf") ∧
    (create "atempo" values = .ok op →
      WritesSpeed values op "atempo=" "" (1 / 200) "0.00") := by
  refine ⟨fun h => ?_, fun h => ?_⟩
  · have hentry : Catalogue.speed ∈ entries := by simp [entries]
    obtain ⟨x, hx, hop⟩ := except_bind_eq_ok.mp (make_of_create_id hentry h)
    obtain ⟨q, hvalue, hpos, hgiven⟩ := exists_speed hentry List.mem_cons_self hx
    obtain ⟨husable, huseless⟩ := Binary.text_reciprocal hvalue hpos
    exact ⟨q, .atSpeed x, _, hgiven, (Except.ok.inj hop).symm, rfl, husable, huseless⟩
  · have hentry : tempo ∈ entries := by simp [entries]
    obtain ⟨x, hx, hop⟩ := except_bind_eq_ok.mp (make_of_create_id hentry h)
    obtain ⟨q, hvalue, hpos, hgiven⟩ := exists_speed hentry List.mem_cons_self hx
    obtain ⟨husable, huseless⟩ := Binary.textTwoPlaces_speed hvalue hpos
    refine ⟨q, .tempo x, _, hgiven, (Except.ok.inj hop).symm, ?_, husable, huseless⟩
    rw [String.append_empty]
    rfl

/-- A speed below the normal numbers, and one that is rounded up to the last place. -/
theorem accepted_speed_written_small :
    (∃ op, create "speed" (.ofList [("speed", "1e-38")]) = .ok op ∧
      WritesSpeed (.ofList [("speed", "1e-38")]) op "setpts=" "*PTS" (2 ^ 128)⁻¹ "inf") ∧
    ∃ op, create "atempo" (.ofList [("speed", " 0.006")]) = .ok op ∧
      WritesSpeed (.ofList [("speed", " 0.006")]) op "atempo=" "" (1 / 200) "0.00" := by
  have hspeed : create "speed" (.ofList [("speed", "1e-38")]) =
    .ok (.filter (.atSpeed (Binary.ofDecimal false ⟨1, -38⟩))) := by decide +kernel
  have htempo : create "atempo" (.ofList [("speed", " 0.006")]) =
    .ok (.filter (.tempo (Binary.ofDecimal false ⟨6, -3⟩))) := by decide +kernel
  exact ⟨⟨_, hspeed, (accepted_speed_written _ _).1 hspeed⟩,
    ⟨_, htempo, (accepted_speed_written _ _).2 htempo⟩⟩

/-- **Not every accepted speed is written as a usable number.** -/
theorem accepted_speed_unusable :
    (∃ filter text, create "speed" (.ofList [("speed", "1e-39")]) = .ok (.filter filter) ∧
      filter.description = "setpts=" ++ text ++ "*PTS" ∧ ¬ Usable text) ∧
    ∃ filter text, create "atempo" (.ofList [("speed", "0.001")]) = .ok (.filter filter) ∧
      filter.description = "atempo=" ++ text ∧ ¬ Usable text := by
  refine ⟨⟨.retime (.infinite false), "inf", by decide +kernel, by decide, not_usable_inf⟩,
    ⟨.tempo (Binary.ofDecimal false ⟨1, -3⟩), "0.00", by decide +kernel, by decide +kernel, ?_⟩⟩
  have hzero : Usable (String.ofList (Decimal.chars ⟨0, -2⟩)) ↔ (0 : Nat) ≠ 0 :=
    Decimal.usable_chars
  exact fun h => hzero.mp h rfl

end Filtergraph
