import Filtergraph.Proofs.Labels
import Filtergraph.Proofs.Rounding
import Filtergraph.Toml.Printer
import Filtergraph.Toml.Reader

/-!
# Numerals of a document

A number that a document writes is read back as that number. Behind it stands what ends a value: a
line break, a comma or a bracket. So its digits are all read, and it is taken neither for a date
nor for a number in another base.

A float always has a point: its own if its shortest decimal has places, else the one that is
added to a whole number.
-/

namespace Filtergraph

/-! ## Digits -/

theorem digitsValue_digitsOf (n : Nat) : digitsValue (digitsOf n) = n :=
  Nat.ofDigitChars_toDigits (by decide) (by decide)

theorem digitsValue_append (ds es : List Char) :
    digitsValue (ds ++ es) = Nat.ofDigitChars 10 es (digitsValue ds) :=
  Nat.ofDigitChars_append 0

/-- Zeros behind the digits are powers of ten. -/
theorem digitsValue_zeros (ds : List Char) (k : Nat) :
    digitsValue (ds ++ List.replicate k '0') = digitsValue ds * 10 ^ k := by
  rw [digitsValue_append, Nat.ofDigitChars_replicate_zero, Nat.mul_comm]

theorem digitsValue_padded (width n : Nat) : digitsValue (padded width n) = n := by
  have hzeros := digitsValue_zeros [] (width - (digitsOf n).length)
  rw [List.nil_append, show digitsValue [] = 0 from rfl, Nat.zero_mul] at hzeros
  rw [padded, digitsValue_append, hzeros]
  exact digitsValue_digitsOf n

theorem digit_of_mem_padded {width n : Nat} {c : Char} (h : c ∈ padded width n) :
    c.isDigit = true := by
  rcases List.mem_append.mp h with h | h
  · rw [List.eq_of_mem_replicate h]
    rfl
  · exact digit_of_mem_digitsOf h

/-- Digits before a point: a zero alone, or digits that do not start with one. -/
inductive WholePart : List Char → Prop where
  | zero : WholePart ['0']
  | digits {c : Char} {ds : List Char} (nonzero : c ≠ '0') (all : ∀ x ∈ c :: ds, x.isDigit = true) :
      WholePart (c :: ds)

theorem WholePart.isDigit {w : List Char} (hw : WholePart w) : ∀ c ∈ w, c.isDigit = true := by
  cases hw with
  | zero => exact List.forall_mem_singleton.mpr rfl
  | digits _ all => exact all

theorem WholePart.ne_nil {w : List Char} (hw : WholePart w) : w ≠ [] := by
  cases hw with
  | zero => exact List.cons_ne_nil _ _
  | digits _ _ => exact List.cons_ne_nil _ _

/-- More digits may follow, unless the first is a zero. -/
theorem WholePart.append {w ds : List Char} (hw : WholePart w) (hne : w ≠ ['0'])
    (hds : ∀ x ∈ ds, x.isDigit = true) : WholePart (w ++ ds) := by
  cases hw with
  | zero => exact absurd rfl hne
  | digits nonzero all =>
    refine .digits nonzero ?_
    intro x hx
    exact (List.mem_append.mp (show x ∈ (_ :: _) ++ ds from hx)).elim (all x) (hds x)

theorem digitsOf_ne_zero {n : Nat} (hn : n ≠ 0) : digitsOf n ≠ ['0'] := by
  intro h
  have hvalue := digitsValue_digitsOf n
  rw [h] at hvalue
  exact hn hvalue.symm

/-- The digits of a number do not start with a zero, except for zero itself. -/
theorem wholePart_digitsOf (n : Nat) : WholePart (digitsOf n) := by
  have hchar : ∀ k < 10, k ≠ 0 → k.digitChar ≠ '0' := by decide
  -- on the number: all digits but the last are those of a tenth of it
  induction n using Nat.strong_induction_on with
  | _ n ih =>
    have hstep : digitsOf n = if n < 10 then [n.digitChar]
        else digitsOf (n / 10) ++ [(n % 10).digitChar] := Nat.toDigits_eq_if (by decide)
    have hall : ∀ x ∈ digitsOf n, x.isDigit = true := fun x hx => digit_of_mem_digitsOf hx
    by_cases hlt : n < 10
    · rw [if_pos hlt] at hstep
      rw [hstep] at hall ⊢
      by_cases hzero : n = 0
      · rw [hzero]
        exact .zero
      · exact .digits (hchar n hlt hzero) hall
    · rw [if_neg hlt] at hstep
      rw [hstep] at hall ⊢
      refine (ih (n / 10) (by omega)).append (digitsOf_ne_zero (by omega)) ?_
      intro x hx
      exact hall x (List.mem_append_right _ hx)

namespace Toml

/-! ## Reading digits -/

/-- Behind a value in a line or list. -/
inductive Delimited : List Char → Prop where
  | newline (rest : List Char) : Delimited ('\n' :: rest)
  | comma (rest : List Char) : Delimited (',' :: rest)
  | bracket (rest : List Char) : Delimited (']' :: rest)

/-- Behind the digits of a number. -/
inductive Stops : List Char → Prop where
  | point (rest : List Char) : Stops ('.' :: rest)
  | value {rest : List Char} (h : Delimited rest) : Stops rest

variable {w ds rest : List Char} {negative : Bool}

theorem moreDigits?_append (hds : ∀ c ∈ ds, c.isDigit = true) (hrest : Stops rest) :
    moreDigits? Char.isDigit (ds ++ rest) = some (ds, rest) := by
  induction ds with
  | nil =>
    cases hrest with
    | point rest => rfl
    | value h => cases h <;> rfl
  | cons c ds ih =>
    have hc := hds c List.mem_cons_self
    -- an underscore could stand between digits, but none was written
    have hne : c ≠ '_' := by
      rintro rfl
      exact absurd hc (by decide)
    have hds' := ih fun x hx => hds x (List.mem_cons_of_mem _ hx)
    rw [List.cons_append, moreDigits?, if_pos hc, hds']
    · rfl
    · intro x more hx _
      exact hne hx

theorem someDigits?_append (hne : ds ≠ []) (hds : ∀ c ∈ ds, c.isDigit = true)
    (hrest : Stops rest) : someDigits? Char.isDigit (ds ++ rest) = some (ds, rest) := by
  cases ds with
  | nil => exact absurd rfl hne
  | cons c ds =>
    have hmore := moreDigits?_append (fun x hx => hds x (List.mem_cons_of_mem _ hx)) hrest
    rw [List.cons_append, someDigits?, if_pos (hds c List.mem_cons_self), hmore]
    rfl

theorem wholeDigits?_append (hw : WholePart w) (hrest : Stops rest) :
    wholeDigits? (w ++ rest) = some (w, rest) := by
  cases hw with
  | zero => rfl
  | @digits c ds nonzero all =>
    have hsome := someDigits?_append (List.cons_ne_nil c ds) all hrest
    rw [List.cons_append] at hsome ⊢
    rw [wholeDigits?, hsome]
    intro more h
    exact nonzero (List.cons.inj h).1

/-- Digits without a point make an integer, if it is not too large. -/
theorem decimal?_integer (hw : WholePart w) (hrest : Delimited rest) :
    decimal? negative (w ++ rest) = do
      let i ← int64? (if negative then -(digitsValue w : Int) else digitsValue w)
      return (.integer i, rest) := by
  unfold decimal?
  rw [wholeDigits?_append hw (.value hrest)]
  cases hrest <;> rfl

/-- Digits on both sides of a point make a float. -/
theorem decimal?_float (hw : WholePart w) (hne : ds ≠ []) (hds : ∀ c ∈ ds, c.isDigit = true)
    (hrest : Delimited rest) :
    decimal? negative (w ++ '.' :: (ds ++ rest)) = do
      let x ← float? negative ⟨digitsValue (w ++ ds), -(ds.length : Int)⟩
      return (.float x, rest) := by
  have hexponent : exponentPart? rest = some (0, rest) := by
    cases hrest <;> rfl
  unfold decimal?
  simp only [Option.bind_eq_bind, wholeDigits?_append hw (.point _), Option.bind_some,
    someDigits?_append hne hds (.value hrest), hexponent, Int.zero_sub]

/-! ## Numbers -/

/-- A date or time starts with digits, and behind them stands a dash or a colon. -/
theorem exists_of_startsDate {cs : List Char} (h : (startsDate cs || startsTime cs) = true) :
    ∃ c more, cs = c :: more ∧ c.isDigit = true ∧
      ((cs.dropWhile Char.isDigit).head? = some '-' ∨
        (cs.dropWhile Char.isDigit).head? = some ':') := by
  rcases Bool.or_eq_true_iff.mp h with hdate | htime
  · unfold startsDate at hdate
    split at hdate
    · simp only [Bool.and_eq_true] at hdate
      obtain ⟨⟨⟨ha, hb⟩, hc⟩, hd⟩ := hdate
      refine ⟨_, _, rfl, ha, .inl ?_⟩
      simp [ha, hb, hc, hd]
    · exact absurd hdate (by simp)
  · unfold startsTime at htime
    split at htime
    · simp only [Bool.and_eq_true] at htime
      obtain ⟨ha, hb⟩ := htime
      refine ⟨_, _, rfl, ha, .inr ?_⟩
      simp [ha, hb]
    · exact absurd htime (by simp)

/-- Digits that a number ends behind are no date. -/
theorem not_startsDate (hds : ∀ c ∈ ds, c.isDigit = true) (hrest : Stops rest) :
    ¬ (startsDate (ds ++ rest) || startsTime (ds ++ rest)) = true := by
  intro h
  obtain ⟨_, _, _, _, hbehind⟩ := exists_of_startsDate h
  rw [List.dropWhile_append_of_pos hds] at hbehind
  cases hrest with
  | point rest => exact absurd hbehind (by simp)
  | value h => cases h <;> exact absurd hbehind (by simp)

theorem not_startsDate_of_not_digit {c : Char} (cs : List Char) (hc : c.isDigit = false) :
    ¬ (startsDate (c :: cs) || startsTime (c :: cs)) = true := by
  intro h
  obtain ⟨_, _, heq, hdigit, _⟩ := exists_of_startsDate h
  rw [← (List.cons.inj heq).1, hc] at hdigit
  exact absurd hdigit (by decide)

theorem cons_ne_of_not_mem {c x : Char} {cs rest chars : List Char} (hc : c ∉ chars)
    (hx : x ∈ chars) : c :: cs ≠ x :: rest := by
  intro h
  rw [(List.cons.inj h).1] at hc
  exact hc hx

/-- What is no string, no truth value and no date is read as a number. -/
theorem scalar?_eq_number? {c : Char} {cs : List Char} (hc : c ∉ ['"', '\'', 't', 'f'])
    (hdate : ¬ (startsDate (c :: cs) || startsTime (c :: cs)) = true) :
    scalar? (c :: cs) = number? (c :: cs) := by
  rw [scalar?, if_neg hdate]
  · exact fun _ => cons_ne_of_not_mem hc (by decide)
  · exact fun _ => cons_ne_of_not_mem hc (by decide)
  · exact fun _ => cons_ne_of_not_mem hc (by decide)
  · exact fun _ => cons_ne_of_not_mem hc (by decide)

theorem magnitude?_eq_decimal? {c : Char} {cs : List Char} (hc : c.isDigit = true) :
    magnitude? negative (c :: cs) = decimal? negative (c :: cs) := by
  rw [magnitude?]
  · intro rest h
    rw [(List.cons.inj h).1] at hc
    exact absurd hc (by decide)
  · intro rest h
    rw [(List.cons.inj h).1] at hc
    exact absurd hc (by decide)

theorem number?_of_nonzero {c : Char} {cs : List Char} (hc : c.isDigit = true) (hzero : c ≠ '0') :
    number? (c :: cs) = magnitude? false (c :: cs) := by
  have hsign : ∀ x, x.isDigit = false → c ≠ x := by
    rintro x hx rfl
    rw [hc] at hx
    exact absurd hx (by decide)
  rw [number?]
  · intro rest h
    exact hzero (List.cons.inj h).1
  · intro rest h
    exact hzero (List.cons.inj h).1
  · intro rest h
    exact hzero (List.cons.inj h).1
  · intro rest h
    exact hsign '+' (by decide) (List.cons.inj h).1
  · intro rest h
    exact hsign '-' (by decide) (List.cons.inj h).1

/-- A whole part does not look like a number in another base. -/
theorem number?_of_wholePart {tail : List Char} (hw : WholePart w) (htail : Stops tail) :
    number? (w ++ tail) = decimal? false (w ++ tail) := by
  -- only behind a zero could a letter name a base, and there is none
  cases hw with
  | zero =>
    cases htail with
    | point rest => rfl
    | value h => cases h <;> rfl
  | @digits c ds nonzero all =>
    have hc := all c List.mem_cons_self
    exact (number?_of_nonzero hc nonzero).trans (magnitude?_eq_decimal? hc)

/-- **A number with its sign in front is read as one.** -/
theorem scalar?_number {tail : List Char} (hw : WholePart w) (htail : Stops tail) :
    scalar? (Binary.signChars negative ++ (w ++ tail)) = decimal? negative (w ++ tail) := by
  have hdate := not_startsDate hw.isDigit htail
  obtain ⟨c, ds, rfl⟩ : ∃ c ds, w = c :: ds := by
    cases hw with
    | zero => exact ⟨_, _, rfl⟩
    | digits _ _ => exact ⟨_, _, rfl⟩
  have hc := hw.isDigit c List.mem_cons_self
  -- with a sign it cannot be a date, and without one its end tells
  cases negative with
  | true =>
    have hsign := not_startsDate_of_not_digit (c := '-') (c :: ds ++ tail) (by decide)
    exact (scalar?_eq_number? (by decide) hsign).trans (magnitude?_eq_decimal? hc)
  | false =>
    have hplain : c ∉ ['"', '\'', 't', 'f'] := by
      intro h
      have hall : ∀ x ∈ ['"', '\'', 't', 'f'], x.isDigit = false := by simp
      rw [hall c h] at hc
      exact absurd hc (by decide)
    exact (scalar?_eq_number? hplain hdate).trans (number?_of_wholePart hw htail)

/-- **Integers are read back.** -/
theorem scalar?_integer (i : Int64) (hrest : Delimited rest) :
    scalar? ((Value.integer i).chars ++ rest) = some (.integer i, rest) := by
  have hchars : (Value.integer i).chars =
      Binary.signChars (i.toInt < 0) ++ digitsOf i.toInt.natAbs := by
    rw [Value.chars, intText, String.toList_ofList]
  -- sign and size make up the number again
  have hvalue : (if decide (i.toInt < 0) = true then -(i.toInt.natAbs : Int)
      else i.toInt.natAbs) = i.toInt := by
    simp only [decide_eq_true_eq]
    split
    · omega
    · omega
  have hint : int64? i.toInt = some i := by
    rw [int64?, if_pos ⟨i.le_toInt, i.toInt_lt⟩, Int64.ofInt_toInt]
  have hw := wholePart_digitsOf i.toInt.natAbs
  rw [hchars, List.append_assoc, scalar?_number hw (.value hrest), decimal?_integer hw hrest,
    digitsValue_digitsOf, hvalue, hint]
  rfl

/-! ## Floats -/

/-- A decimal near enough to a float is read as that float. -/
theorem float?_of_readsAs {d : Decimal} {rank : Fin Binary.Format.double.magnitudes}
    (h : Binary.ReadsAs .double d rank) :
    float? negative d = some (.finite negative rank) := by
  unfold float?
  rw [Binary.ofDecimal_eq_finite.mpr h]

/-- A decimal without places is a whole part. -/
theorem chars_of_nonneg {d : Decimal} (h : 0 ≤ d.exponent) :
    WholePart d.chars ∧ digitsValue d.chars = d.numerator := by
  obtain ⟨digits, exponent⟩ := d
  unfold Decimal.chars Decimal.numerator
  dsimp only at h ⊢
  rw [if_pos h]
  by_cases hzero : digits = 0
  · rw [if_pos hzero, hzero, Nat.zero_mul]
    exact ⟨.zero, rfl⟩
  · rw [if_neg hzero, digitsValue_zeros, digitsValue_digitsOf]
    refine ⟨(wholePart_digitsOf digits).append (digitsOf_ne_zero hzero) ?_, rfl⟩
    intro x hx
    rw [List.eq_of_mem_replicate hx]
    rfl

/-- The whole part of a decimal with places. -/
theorem wholePart_take (places n : Nat) :
    WholePart ((padded (places + 1) n).take ((padded (places + 1) n).length - places)) := by
  -- enough digits to fill the places, or zeros are put in front
  by_cases hlong : places < (digitsOf n).length
  · have hpadded : padded (places + 1) n = digitsOf n := by
      rw [padded, Nat.sub_eq_zero_of_le hlong, List.replicate_zero, List.nil_append]
    rw [hpadded]
    obtain ⟨k, hk⟩ : ∃ k, (digitsOf n).length - places = k + 1 :=
      ⟨(digitsOf n).length - places - 1, by omega⟩
    rw [hk]
    have hw := wholePart_digitsOf n
    generalize digitsOf n = w at hw
    cases hw with
    | zero =>
      rw [List.take_succ_cons, List.take_nil]
      exact .zero
    | digits nonzero all =>
      refine .digits nonzero ?_
      intro x hx
      exact all x (List.mem_of_mem_take (i := k + 1) hx)
  · obtain ⟨k, hk⟩ : ∃ k, places + 1 - (digitsOf n).length = k + 1 :=
      ⟨places - (digitsOf n).length, by omega⟩
    have hlength : (padded (places + 1) n).length - places = 1 := by
      rw [padded, List.length_append, List.length_replicate]
      omega
    rw [hlength, padded, hk]
    exact .zero

/-- A decimal with places is a whole part, a point and the places. -/
theorem chars_of_neg {d : Decimal} (h : d.exponent < 0) :
    ∃ w ds, d.chars = w ++ '.' :: ds ∧ WholePart w ∧ (ds.length : Int) = -d.exponent ∧
      (∀ c ∈ ds, c.isDigit = true) ∧ digitsValue (w ++ ds) = d.digits := by
  obtain ⟨digits, exponent⟩ := d
  dsimp only at h ⊢
  obtain ⟨places, rfl⟩ : ∃ places : Nat, exponent = -(places : Int) := ⟨exponent.natAbs, by omega⟩
  let shown := padded (places + 1) digits
  refine ⟨shown.take (shown.length - places), shown.drop (shown.length - places), ?_,
    wholePart_take places digits, ?_, ?_, ?_⟩
  · unfold Decimal.chars
    dsimp only
    rw [if_neg (by omega), Int.natAbs_neg, Int.natAbs_natCast]
  · have hlength : places < shown.length := by
      simp only [shown, padded, List.length_append, List.length_replicate]
      omega
    rw [List.length_drop]
    omega
  · intro x hx
    exact digit_of_mem_padded (List.mem_of_mem_drop hx)
  · rw [List.take_append_drop]
    exact digitsValue_padded _ _

/-- **A finite float is written as digits, a point and digits, and they make up a decimal that
reads back.** -/
theorem exists_numeral (negative : Bool) (rank : Fin Binary.Format.double.magnitudes) :
    ∃ w ds, floatChars (.finite negative rank) = Binary.signChars negative ++ (w ++ '.' :: ds) ∧
      WholePart w ∧ ds ≠ [] ∧ (∀ c ∈ ds, c.isDigit = true) ∧
      Binary.ReadsAs .double ⟨digitsValue (w ++ ds), -(ds.length : Int)⟩ rank := by
  have hreads := Binary.readsAs_shortest .double rank
  have hwhole : Binary.isWhole (.finite negative rank : Double) = true ↔
      0 ≤ (Binary.shortest .double rank).exponent := Binary.isWhole_iff (by decide)
  have hchars : floatChars (.finite negative rank) =
      Binary.signChars negative ++ (Binary.shortest .double rank).chars ++
        if 0 ≤ (Binary.shortest .double rank).exponent then ['.', '0'] else [] := by
    unfold floatChars
    simp only [Binary.text, String.toList_ofList, hwhole]
  rw [hchars]
  generalize Binary.shortest .double rank = d at hreads
  -- a whole number gets a zero behind its point, which changes the decimal but not its value
  by_cases hsign : 0 ≤ d.exponent
  · obtain ⟨hw, hvalue⟩ := chars_of_nonneg hsign
    refine ⟨d.chars, ['0'], ?_, hw, by simp, List.forall_mem_singleton.mpr rfl, ?_⟩
    · rw [if_pos hsign, List.append_assoc]
    · have hzero := digitsValue_zeros d.chars 1
      rw [hvalue] at hzero
      refine Binary.ReadsAs.congr hreads ?_
      show d.numerator * 10 = digitsValue (d.chars ++ ['0']) * 1 * d.denominator
      rw [show digitsValue (d.chars ++ ['0']) = d.numerator * 10 ^ 1 from hzero,
        Decimal.denominator, show (-d.exponent).toNat = 0 by omega]
      ring
  · obtain ⟨w, ds, hd, hw, hlength, hds, hvalue⟩ := chars_of_neg (by omega : d.exponent < 0)
    refine ⟨w, ds, ?_, hw, ?_, hds, ?_⟩
    · rw [if_neg hsign, List.append_nil, hd]
    · rintro rfl
      rw [List.length_nil] at hlength
      omega
    · rw [hvalue, show -(ds.length : Int) = d.exponent by omega]
      exact hreads

/-- **Floats are read back.** -/
theorem scalar?_float (x : Double) (hrest : Delimited rest) :
    scalar? ((Value.float x).chars ++ rest) = some (.float x, rest) := by
  rw [Value.chars]
  -- the special values start with a letter or a sign, so they are no dates either
  cases x with
  | nan =>
    have hdate := not_startsDate_of_not_digit (c := 'n') ('a' :: 'n' :: rest) (by decide)
    exact scalar?_eq_number? (by decide) hdate
  | infinite negative =>
    have hchars :
        floatChars (.infinite negative) = Binary.signChars negative ++ ['i', 'n', 'f'] := by
      unfold floatChars
      simp only [Binary.text, String.toList_ofList, Binary.isWhole]
      exact List.append_nil _
    rw [hchars]
    cases negative with
    | true =>
      have hdate := not_startsDate_of_not_digit (c := '-') ('i' :: 'n' :: 'f' :: rest) (by decide)
      exact scalar?_eq_number? (by decide) hdate
    | false =>
      have hdate := not_startsDate_of_not_digit (c := 'i') ('n' :: 'f' :: rest) (by decide)
      exact scalar?_eq_number? (by decide) hdate
  | finite negative rank =>
    obtain ⟨w, ds, hchars, hw, hne, hds, hreads⟩ := exists_numeral negative rank
    rw [hchars, List.append_assoc, List.append_assoc, List.cons_append,
      scalar?_number hw (.point _), decimal?_float hw hne hds hrest, float?_of_readsAs hreads]
    rfl

end Toml

end Filtergraph
