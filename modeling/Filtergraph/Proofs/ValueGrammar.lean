import Mathlib.Data.List.TakeWhile
import Filtergraph.Number
import Filtergraph.Text
import Filtergraph.Proofs.Nearest

/-!
# The grammar of numbers

What a text has to look like to be a number, and which number it then is. Whole numbers are
digits behind an optional sign, of any length. Other numbers may have a point among or around
their digits and an exponent behind them, or are one of three names; what they denote is rounded
to the nearest number of the format.

The grammar is told by how a text is made up. Readers go from left to right and decide at each
character what it belongs to. Both agree: a reader accepts a text if and only if the grammar makes
a number of it, and then gives that number.
-/

namespace Filtergraph

/-! ## Blanks around a value -/

section Spans

variable {p : Char → Bool} {front rest : List Char}

/-- What is in front of something else is taken, and no more. -/
theorem span_append (hfront : ∀ c ∈ front, p c = true)
    (hrest : ∀ c, rest.head? = some c → p c = false) :
    (front ++ rest).takeWhile p = front ∧ (front ++ rest).dropWhile p = rest := by
  rw [List.takeWhile_append_of_pos hfront, List.dropWhile_append_of_pos hfront]
  cases rest with
  | nil => simp
  | cons c rest =>
    have hc := hrest c rfl
    simp [hc]

/-- A text is cut where a property ends. -/
theorem exists_span (p : Char → Bool) (cs : List Char) : ∃ front rest, cs = front ++ rest ∧
    (∀ c ∈ front, p c = true) ∧ ∀ c, rest.head? = some c → p c = false := by
  refine ⟨_, _, List.takeWhile_append_dropWhile.symm, fun c hc => List.mem_takeWhile_imp hc, ?_⟩
  intro c hc
  have hstop := List.head?_dropWhile_not p cs
  rw [hc] at hstop
  exact hstop

end Spans

/-- The text is `core` with blanks around it, and `core` neither starts nor ends with a blank. -/
structure Trimmed (text core : List Char) : Prop where
  around : ∃ front back, text = front ++ (core ++ back) ∧ (∀ c ∈ front, isBlank c = true) ∧
    ∀ c ∈ back, isBlank c = true
  head : ∀ c, core.head? = some c → isBlank c = false
  last : ∀ c, core.getLast? = some c → isBlank c = false

theorem trimmed_trimBlanks (text : List Char) : Trimmed text (trimBlanks text) := by
  obtain ⟨front, middle, rfl, hfront, hhead⟩ := exists_span isBlank text
  obtain ⟨back, core, hmiddle, hback, hlast⟩ := exists_span isBlank middle.reverse
  have htrim : trimBlanks (front ++ middle) = core.reverse := by
    rw [trimBlanks, (span_append hfront hhead).2, hmiddle, (span_append hback hlast).2]
  obtain rfl : middle = core.reverse ++ back.reverse := by
    rw [← List.reverse_append, ← hmiddle, List.reverse_reverse]
  rw [htrim]
  refine ⟨⟨front, back.reverse, rfl, hfront, by simpa using hback⟩, fun c hc => ?_, ?_⟩
  · exact hhead c (by rw [List.head?_append, hc, Option.some_or])
  · simpa using hlast

/-- **Trimming finds the value between the blanks.** -/
theorem trimBlanks_eq {text core : List Char} : trimBlanks text = core ↔ Trimmed text core := by
  constructor
  · rintro rfl
    exact trimmed_trimBlanks text
  · intro h
    obtain ⟨front, back, rfl, hfront, hback⟩ := h.around
    rw [trimBlanks, List.dropWhile_append_of_pos hfront]
    -- an empty core may take its blanks from either side
    cases core with
    | nil =>
      have hnil : back.dropWhile isBlank = [] := List.dropWhile_eq_nil_iff.mpr hback
      simp [hnil]
    | cons c core =>
      have hc : isBlank c = false := h.head c rfl
      have hlast : ∀ c', (c :: core).reverse.head? = some c' → isBlank c' = false := by
        rw [List.head?_reverse]
        exact h.last
      have hback' : ∀ c ∈ back.reverse, isBlank c = true := by simpa using hback
      rw [List.cons_append, List.dropWhile_cons_of_neg (by simp [hc]), ← List.cons_append,
        List.reverse_append, (span_append hback' hlast).2, List.reverse_reverse]

/-! ## Whole numbers -/

/-- One or more digits, and their value. -/
structure Digits (cs : List Char) (n : Nat) : Prop where
  nonempty : cs ≠ []
  all : ∀ c ∈ cs, c.isDigit = true
  value : Nat.ofDigitChars 10 cs 0 = n

/-- Digits, with or without a plus. -/
inductive NatNumeral : List Char → Nat → Prop where
  | plain {cs : List Char} {n : Nat} (h : Digits cs n) : NatNumeral cs n
  | plus {cs : List Char} {n : Nat} (h : Digits cs n) : NatNumeral ('+' :: cs) n

/-- Digits, with or without a sign. -/
inductive IntNumeral : List Char → Int → Prop where
  | natural {cs : List Char} {n : Nat} (h : NatNumeral cs n) : IntNumeral cs n
  | minus {cs : List Char} {n : Nat} (h : Digits cs n) : IntNumeral ('-' :: cs) (-n)

variable {c : Char} {cs ds rest : List Char} {n : Nat} {i : Int}

theorem Digits.head_isDigit (h : Digits (c :: cs) n) : c.isDigit = true :=
  h.all c List.mem_cons_self

theorem natNumeral_plus : NatNumeral ('+' :: cs) n ↔ Digits cs n := by
  refine ⟨fun h => ?_, .plus⟩
  cases h with
  | plain h => exact absurd h.head_isDigit (by decide)
  | plus h => exact h

theorem natNumeral_plain (hne : ∀ ds, cs = '+' :: ds → False) : NatNumeral cs n ↔ Digits cs n := by
  refine ⟨fun h => ?_, .plain⟩
  cases h with
  | plain h => exact h
  | @plus ds _ h => exact (hne ds rfl).elim

theorem intNumeral_minus : IntNumeral ('-' :: cs) i ↔ ∃ n, Digits cs n ∧ i = -(n : Int) := by
  constructor
  · intro h
    cases h with
    | natural h =>
      cases h with
      | plain h => exact absurd h.head_isDigit (by decide)
    | minus h => exact ⟨_, h, rfl⟩
  · rintro ⟨n, h, rfl⟩
    exact .minus h

theorem intNumeral_natural (hne : ∀ ds, cs = '-' :: ds → False) :
    IntNumeral cs i ↔ ∃ n, NatNumeral cs n ∧ i = (n : Int) := by
  constructor
  · intro h
    cases h with
    | natural h => exact ⟨_, h, rfl⟩
    | @minus ds _ h => exact (hne ds rfl).elim
  · rintro ⟨n, h, rfl⟩
    exact .natural h

theorem intNumeral_plus : IntNumeral ('+' :: cs) i ↔ ∃ n, Digits cs n ∧ i = (n : Int) := by
  rw [intNumeral_natural (by simp)]
  simp only [natNumeral_plus]

theorem intNumeral_plain (hminus : ∀ ds, cs = '-' :: ds → False)
    (hplus : ∀ ds, cs = '+' :: ds → False) :
    IntNumeral cs i ↔ ∃ n, Digits cs n ∧ i = (n : Int) := by
  rw [intNumeral_natural hminus]
  simp only [natNumeral_plain hplus]

/-- One digit or more, and nothing else. -/
theorem readDigits?_eq_some : readDigits? cs = some n ↔ Digits cs n := by
  unfold readDigits?
  by_cases hbad : cs.isEmpty ∨ ¬ cs.all Char.isDigit
  · rw [if_pos hbad]
    refine ⟨fun h => absurd h (by simp), fun h => ?_⟩
    -- there are none, or something else is among them
    rcases hbad with hempty | hother
    · exact absurd (List.isEmpty_iff.mp hempty) h.nonempty
    · exact absurd (List.all_eq_true.mpr h.all) hother
  · rw [if_neg hbad, Option.some.injEq]
    rw [not_or, not_not, List.isEmpty_iff, List.all_eq_true] at hbad
    exact ⟨fun h => ⟨hbad.1, hbad.2, h⟩, fun h => h.value⟩

/-- **Natural numbers below a bound.** -/
theorem readNatBelow?_eq_some {bound : Nat} :
    readNatBelow? bound cs = some n ↔ NatNumeral cs n ∧ n < bound := by
  unfold readNatBelow?
  rw [Option.filter_eq_some_iff, readDigits?_eq_some, decide_eq_true_eq]
  split
  · rw [natNumeral_plus]
  · rw [natNumeral_plain ‹_›]

/-- **Whole numbers between two bounds.** -/
theorem readIntBetween?_eq_some {low high : Int} :
    readIntBetween? low high cs = some i ↔ IntNumeral cs i ∧ low ≤ i ∧ i < high := by
  unfold readIntBetween?
  rw [Option.filter_eq_some_iff, Bool.and_eq_true, decide_eq_true_eq, decide_eq_true_eq]
  refine and_congr_left fun _ => ?_
  -- the reader looks for a minus, then for a plus
  split
  · rename_i ds
    simp only [intNumeral_minus, ← readDigits?_eq_some]
    cases readDigits? ds with
    | none => simp
    | some n => simp [eq_comm]
  · rename_i ds
    simp only [intNumeral_plus, ← readDigits?_eq_some]
    cases readDigits? ds with
    | none => simp
    | some n => simp [eq_comm]
  · rename_i hminus hplus
    simp only [intNumeral_plain hminus hplus, ← readDigits?_eq_some]
    cases readDigits? cs with
    | none => simp
    | some n => simp [eq_comm]

/-! ## Decimal numerals -/

/-- Digits with at most one point among or around them: the text, its digits, and how many of
them stand behind the point. -/
inductive Mantissa : List Char → List Char → Nat → Prop where
  | whole {ds : List Char} (hne : ds ≠ []) (hds : ∀ c ∈ ds, c.isDigit = true) : Mantissa ds ds 0
  | point {front back : List Char} (hfront : ∀ c ∈ front, c.isDigit = true)
    (hback : ∀ c ∈ back, c.isDigit = true) (hne : front ≠ [] ∨ back ≠ []) :
    Mantissa (front ++ '.' :: back) (front ++ back) back.length

/-- Nothing, or a mark and a whole number. -/
inductive ExponentPart : List Char → Int → Prop where
  | absent : ExponentPart [] 0
  | marked {mark : Char} {cs : List Char} {e : Int} (hmark : mark = 'e' ∨ mark = 'E')
    (h : IntNumeral cs e) : ExponentPart (mark :: cs) e

/-- A numeral without a sign, and its exact value. -/
inductive DecimalNumeral : List Char → ℚ → Prop where
  | mk {text digits tail : List Char} {places : Nat} {e : Int} (hm : Mantissa text digits places)
    (he : ExponentPart tail e) :
    DecimalNumeral (text ++ tail) (Nat.ofDigitChars 10 digits 0 * 10 ^ (e - places))

/-- Digits after a sign, read as the exponent reads them. -/
theorem signedDigits_eq_some {negative : Bool} :
    (if ds.isEmpty ∨ ¬ ds.all Char.isDigit then none
      else some (if negative then -(digitsValue ds : Int) else digitsValue ds)) = some i ↔
    ∃ n, Digits ds n ∧ i = if negative then -(n : Int) else n := by
  simp only [← readDigits?_eq_some, readDigits?]
  split
  · simp
  · simp [eq_comm]

/-- **Exponents.** An empty text counts as zero. -/
theorem exponentOf?_eq_some {e : Int} : Decimal.exponentOf? cs = some e ↔ ExponentPart cs e := by
  unfold Decimal.exponentOf?
  cases cs with
  | nil =>
    dsimp only
    rw [Option.some.injEq]
    constructor
    · rintro rfl
      exact .absent
    · intro h
      cases h
      rfl
  | cons mark rest =>
    have hinv : ExponentPart (mark :: rest) e ↔ (mark = 'e' ∨ mark = 'E') ∧ IntNumeral rest e := by
      constructor
      · intro h
        cases h with
        | marked hmark h => exact ⟨hmark, h⟩
      · rintro ⟨hmark, h⟩
        exact .marked hmark h
    rw [hinv]
    dsimp only
    -- behind the mark it reads on as a whole number does
    by_cases hmark : mark = 'e' ∨ mark = 'E'
    · rw [if_pos hmark, and_iff_right hmark, signedDigits_eq_some]
      split
      · rw [intNumeral_minus]
        simp
      · rw [intNumeral_plus]
        simp
      · rename_i hminus hplus
        rw [intNumeral_plain hminus hplus]
        simp
    · rw [if_neg hmark]
      simp [hmark]

theorem ExponentPart.head_cases {e : Int} (h : ExponentPart cs e) :
    ∀ c, cs.head? = some c → c = 'e' ∨ c = 'E' := by
  cases h with
  | absent => simp
  | marked hmark h =>
    intro c hc
    obtain rfl := Option.some.inj hc
    exact hmark

/-- So the digits of the mantissa end where the exponent starts. -/
theorem ExponentPart.head_not_digit {e : Int} (h : ExponentPart cs e) :
    ∀ c, cs.head? = some c → c.isDigit = false := by
  intro c hc
  rcases h.head_cases c hc with rfl | rfl
  · decide
  · decide

/-- A text without a point after its leading digits. -/
theorem ofChars?_whole (hds : ∀ c ∈ ds, c.isDigit = true)
    (hrest : ∀ c, rest.head? = some c → c.isDigit = false) (hpoint : rest.head? ≠ some '.') :
    Decimal.ofChars? (ds ++ rest) = if ds = [] then none
      else (Decimal.exponentOf? rest).map fun e => ⟨Nat.ofDigitChars 10 ds 0, e - (0 : Nat)⟩ := by
  obtain ⟨htake, hdrop⟩ := span_append hds hrest
  unfold Decimal.ofChars?
  dsimp only
  rw [htake, hdrop]
  split
  · exact absurd rfl hpoint
  · simp [digitsValue, Nat.ofDigitChars]

/-- A text with a point after its leading digits. -/
theorem ofChars?_point {front back : List Char} (hfront : ∀ c ∈ front, c.isDigit = true)
    (hback : ∀ c ∈ back, c.isDigit = true)
    (hrest : ∀ c, rest.head? = some c → c.isDigit = false) :
    Decimal.ofChars? (front ++ '.' :: (back ++ rest)) = if front = [] ∧ back = [] then none
      else (Decimal.exponentOf? rest).map
        fun e => ⟨Nat.ofDigitChars 10 (front ++ back) 0, e - back.length⟩ := by
  have hpoint : ∀ c, ('.' :: (back ++ rest)).head? = some c → c.isDigit = false := by simp
  obtain ⟨htake, hdrop⟩ := span_append hfront hpoint
  obtain ⟨htake', hdrop'⟩ := span_append hback hrest
  unfold Decimal.ofChars?
  dsimp only
  rw [htake, hdrop]
  simp [htake', hdrop', digitsValue, Nat.ofDigitChars]

/-- **Numerals without a sign.** -/
theorem ofChars?_eq_some {q : ℚ} :
    (∃ d, Decimal.ofChars? cs = some d ∧ d.value = q) ↔ DecimalNumeral cs q := by
  constructor
  · rintro ⟨d, hd, rfl⟩
    obtain ⟨front, rest, rfl, hfront, hrest⟩ := exists_span Char.isDigit cs
    -- the leading digits end at a point, or somewhere else
    by_cases hpoint : rest.head? = some '.'
    · obtain ⟨more, rfl⟩ := List.head?_eq_some_iff.mp hpoint
      obtain ⟨back, rest, rfl, hback, hrest⟩ := exists_span Char.isDigit more
      rw [ofChars?_point hfront hback hrest] at hd
      split at hd
      · exact absurd hd (by simp)
      · rename_i hne
        obtain ⟨e, he, rfl⟩ := Option.map_eq_some_iff.mp hd
        rw [← List.cons_append, ← List.append_assoc]
        exact .mk (.point hfront hback (not_and_or.mp hne)) (exponentOf?_eq_some.mp he)
    · rw [ofChars?_whole hfront hrest hpoint] at hd
      split at hd
      · exact absurd hd (by simp)
      · rename_i hne
        obtain ⟨e, he, rfl⟩ := Option.map_eq_some_iff.mp hd
        exact .mk (.whole hne hfront) (exponentOf?_eq_some.mp he)
  · intro h
    obtain ⟨hm, he⟩ := h
    have hrest := he.head_not_digit
    cases hm with
    | whole hne hds =>
      have hpoint := fun h => he.head_cases '.' h
      rw [ofChars?_whole hds hrest (by simpa using hpoint), if_neg hne,
        exponentOf?_eq_some.mpr he]
      exact ⟨_, rfl, rfl⟩
    | point hfront hback hne =>
      rw [List.append_assoc, List.cons_append, ofChars?_point hfront hback hrest,
        if_neg (not_and_or.mpr hne), exponentOf?_eq_some.mpr he]
      exact ⟨_, rfl, rfl⟩

/-- A numeral starts with a digit or a point. -/
theorem DecimalNumeral.exists_head {q : ℚ} (h : DecimalNumeral cs q) :
    ∃ c rest, cs = c :: rest ∧ (c.isDigit = true ∨ c = '.') := by
  obtain ⟨hm, he⟩ := h
  cases hm with
  | whole hne hds =>
    obtain ⟨c, ds, rfl⟩ := List.exists_cons_of_ne_nil hne
    exact ⟨c, _, rfl, .inl (hds c List.mem_cons_self)⟩
  | @point front back hfront hback hne =>
    cases front with
    | nil => exact ⟨'.', _, rfl, .inr rfl⟩
    | cons c front => exact ⟨c, _, rfl, .inl (hfront c List.mem_cons_self)⟩

theorem toLower_of_isDigit (h : c.isDigit = true) : c.toLower = c := by
  simp only [Char.isDigit, Bool.and_eq_true, decide_eq_true_eq] at h
  refine dif_neg fun hupper => ?_
  exact absurd (UInt32.le_trans hupper.1 h.2) (by decide)

/-- No numeral is a name. -/
theorem DecimalNumeral.not_name {q : ℚ} {name : List Char} (h : DecimalNumeral cs q)
    (hname : name.head? = some 'i' ∨ name.head? = some 'n') : cs.map Char.toLower ≠ name := by
  rintro rfl
  obtain ⟨c, rest, rfl, hc⟩ := h.exists_head
  simp only [List.map_cons, List.head?_cons, Option.some.injEq] at hname
  rcases hc with hc | rfl
  · rw [toLower_of_isDigit hc] at hname
    rcases hname with rfl | rfl
    · exact absurd hc (by decide)
    · exact absurd hc (by decide)
  · exact absurd hname (by decide)

/-! ## Numbers of a format -/

namespace Binary

variable {f : Format} {negative : Bool} {x : Binary f}

/-- What a text without a sign stands for, given the sign in front of it. The three names may be
written in any case. -/
inductive Magnitude (negative : Bool) : List Char → Binary f → Prop where
  | decimal {cs : List Char} {q : ℚ} {x : Binary f} (h : DecimalNumeral cs q)
    (hx : Rounds negative q x) : Magnitude negative cs x
  | infinite {cs : List Char}
    (h : cs.map Char.toLower = "inf".toList ∨ cs.map Char.toLower = "infinity".toList) :
    Magnitude negative cs (.infinite negative)
  | nan {cs : List Char} (h : cs.map Char.toLower = "nan".toList) : Magnitude negative cs .nan

/-- What a text stands for, with or without a sign. -/
inductive Denotes : List Char → Binary f → Prop where
  | plain {cs : List Char} {x : Binary f} (h : Magnitude false cs x) : Denotes cs x
  | plus {cs : List Char} {x : Binary f} (h : Magnitude false cs x) : Denotes ('+' :: cs) x
  | minus {cs : List Char} {x : Binary f} (h : Magnitude true cs x) : Denotes ('-' :: cs) x

/-- **Numbers without a sign.** -/
theorem unsigned?_eq_some (hf : 0 < f.fractionBits) :
    unsigned? negative cs = some x ↔ Magnitude negative cs x := by
  unfold unsigned? special?
  simp only [← String.toList_inj, String.toList_ofList]
  -- names are tried first, and no numeral looks like one
  by_cases hinf : cs.map Char.toLower = "inf".toList ∨ cs.map Char.toLower = "infinity".toList
  · rw [if_pos hinf]
    dsimp only
    rw [Option.some.injEq]
    constructor
    · rintro rfl
      exact .infinite hinf
    · intro h
      cases h with
      | decimal h hx =>
        rcases hinf with hinf | hinf
        · exact absurd hinf (h.not_name (.inl rfl))
        · exact absurd hinf (h.not_name (.inl rfl))
      | infinite h => rfl
      | nan h => exact absurd hinf (by rw [h]; decide)
  by_cases hnan : cs.map Char.toLower = "nan".toList
  · rw [if_neg hinf, if_pos hnan]
    dsimp only
    rw [Option.some.injEq]
    constructor
    · rintro rfl
      exact .nan hnan
    · intro h
      cases h with
      | decimal h hx => exact absurd hnan (h.not_name (.inr rfl))
      | infinite h => exact absurd h hinf
      | nan h => rfl
  · rw [if_neg hinf, if_neg hnan]
    dsimp only
    rw [Option.map_eq_some_iff]
    constructor
    · rintro ⟨d, hd, rfl⟩
      exact .decimal (ofChars?_eq_some.mp ⟨d, hd, rfl⟩) (rounds_ofDecimal hf d)
    · intro h
      cases h with
      | decimal h hx =>
        obtain ⟨d, hd, rfl⟩ := ofChars?_eq_some.mpr h
        exact ⟨d, hd, (rounds_ofDecimal hf d).unique hx⟩
      | infinite h => exact absurd h hinf
      | nan h => exact absurd h hnan

/-- What is read without a sign does not start with one. -/
theorem not_magnitude_sign {sign : Char} (hsign : sign = '+' ∨ sign = '-') :
    ¬ Magnitude negative (sign :: cs) x := by
  have hnumeral : ¬ (sign.isDigit = true ∨ sign = '.') := by
    rcases hsign with rfl | rfl <;> decide
  have hname : sign.toLower ≠ 'i' ∧ sign.toLower ≠ 'n' := by
    rcases hsign with rfl | rfl <;> decide
  intro h
  cases h with
  | decimal h hx =>
    obtain ⟨c, rest, heq, hc⟩ := h.exists_head
    obtain ⟨rfl, -⟩ := List.cons.inj heq
    exact hnumeral hc
  | infinite h => simp [hname] at h
  | nan h => simp [hname] at h

/-- **Numbers of a format.** A text is read if and only if it denotes a number, as that number. -/
theorem read?_eq_some (hf : 0 < f.fractionBits) :
    read? (String.ofList cs) = some x ↔ Denotes cs x := by
  unfold read?
  rw [String.toList_ofList]
  -- a sign in front can only be the sign
  split
  · rw [unsigned?_eq_some hf]
    refine ⟨.minus, fun h => ?_⟩
    cases h with
    | plain h => exact absurd h (not_magnitude_sign (.inr rfl))
    | minus h => exact h
  · rw [unsigned?_eq_some hf]
    refine ⟨.plus, fun h => ?_⟩
    cases h with
    | plain h => exact absurd h (not_magnitude_sign (.inl rfl))
    | plus h => exact h
  · rename_i hminus hplus
    rw [unsigned?_eq_some hf]
    refine ⟨.plain, fun h => ?_⟩
    cases h with
    | plain h => exact h
    | @plus cs _ h => exact absurd rfl (hplus cs)
    | @minus cs _ h => exact absurd rfl (hminus cs)

end Binary

end Filtergraph
