import Filtergraph.Proofs.Labels
import Filtergraph.Proofs.ValueGrammar

/-!
# Names of streams

A stream is named by `a`, by `v` or by its number; the number may have a plus and any number
of zeros in front, and blanks around a name do not matter. The grammar says which stream a name
stands for, and the reader follows it exactly: it takes no other text, and no number that does
not fit into 32 bits.

What a stream is written as is one of its names, so it is read back as that stream, whatever
blanks are put around it.
-/

namespace Filtergraph

variable {text : String} {core cs : List Char} {c : Char} {x : Stream}

/-- What a text without blanks around it stands for. -/
inductive Stream.Named : List Char → Stream → Prop where
  | audio : Named ['a'] .audio
  | video : Named ['v'] .video
  | number {cs : List Char} {n : UInt32} (h : NatNumeral cs n.toNat) : Named cs (.number n)

/-! ## Reading -/

theorem NatNumeral.head_cases {n : Nat} (h : NatNumeral (c :: cs) n) :
    c = '+' ∨ c.isDigit = true := by
  cases h with
  | plain h => exact Or.inr h.head_isDigit
  | plus h => exact Or.inl rfl

/-- A letter stands for nothing but the stream it is meant for. -/
theorem not_natNumeral_letter {n : Nat} (hc : c = 'a' ∨ c = 'v') : ¬ NatNumeral (c :: cs) n := by
  intro h
  rcases hc with rfl | rfl
  · exact absurd h.head_cases (by decide)
  · exact absurd h.head_cases (by decide)

theorem Stream.named_audio : Stream.Named core .audio ↔ core = ['a'] := by
  constructor
  · intro h
    cases h
    rfl
  · rintro rfl
    exact .audio

theorem Stream.named_video : Stream.Named core .video ↔ core = ['v'] := by
  constructor
  · intro h
    cases h
    rfl
  · rintro rfl
    exact .video

theorem Stream.named_number {n : UInt32} :
    Stream.Named core (.number n) ↔ NatNumeral core n.toNat := by
  constructor
  · intro h
    cases h
    assumption
  · exact .number

/-- Numbers are read if they fit into 32 bits. -/
theorem readNumber_eq_some :
    (readNatBelow? UInt32.size cs).map (fun n => Stream.number (UInt32.ofNat n)) = some x ↔
      ∃ n : UInt32, x = .number n ∧ NatNumeral cs n.toNat := by
  simp only [Option.map_eq_some_iff, readNatBelow?_eq_some]
  constructor
  · rintro ⟨n, ⟨hn, hlt⟩, rfl⟩
    refine ⟨UInt32.ofNat n, rfl, ?_⟩
    rwa [UInt32.toNat_ofNat_of_lt' hlt]
  · rintro ⟨n, rfl, hn⟩
    exact ⟨n.toNat, ⟨hn, n.toNat_lt⟩, by rw [UInt32.ofNat_toNat]⟩

/-- **The reader follows the grammar.** -/
theorem Stream.parse?_eq_some (h : Trimmed text.toList core) :
    Stream.parse? text = some x ↔ Stream.Named core x := by
  unfold Stream.parse?
  rw [trimBlanks_eq.mpr h]
  split
  · -- `a` alone
    rw [Option.some.injEq]
    constructor
    · rintro rfl
      exact .audio
    · intro h
      cases h with
      | audio => rfl
      | number h => exact absurd h (not_natNumeral_letter (Or.inl rfl))
  · -- `v` alone
    rw [Option.some.injEq]
    constructor
    · rintro rfl
      exact .video
    · intro h
      cases h with
      | video => rfl
      | number h => exact absurd h (not_natNumeral_letter (Or.inr rfl))
  · rename_i ha hv
    rw [readNumber_eq_some]
    constructor
    · rintro ⟨n, rfl, hn⟩
      exact .number hn
    · intro h
      cases h with
      | audio => exact absurd rfl ha
      | video => exact absurd rfl hv
      | number h => exact ⟨_, rfl, h⟩

/-- A text is refused if nothing is named by it. -/
theorem Stream.parse?_eq_none (h : Trimmed text.toList core) : Stream.parse? text = none ↔
    core ≠ ['a'] ∧ core ≠ ['v'] ∧ ∀ n, NatNumeral core n → 2 ^ 32 ≤ n := by
  rw [Option.eq_none_iff_forall_ne_some]
  simp only [ne_eq, Stream.parse?_eq_some h]
  constructor
  · intro hnone
    refine ⟨fun ha => hnone _ (named_audio.mpr ha), fun hv => hnone _ (named_video.mpr hv), ?_⟩
    intro n hn
    -- a number that fits would have named a stream
    by_contra hlt
    refine hnone (.number (UInt32.ofNat n)) (named_number.mpr ?_)
    rwa [UInt32.toNat_ofNat_of_lt' (not_le.mp hlt)]
  · rintro ⟨ha, hv, hnumber⟩ x hx
    cases hx with
    | audio => exact ha rfl
    | video => exact hv rfl
    | @number _ n hn => exact absurd (hnumber _ hn) (not_le.mpr n.toNat_lt)

/-! ## Writing and reading back -/

theorem isBlank_of_isDigit (h : c.isDigit = true) : isBlank c = false := by
  have hval : 48 ≤ c.toNat ∧ c.toNat ≤ 57 := by
    simpa [Char.isDigit, UInt32.le_iff_toNat_le] using h
  simp only [isBlank, Bool.or_eq_false_iff, Bool.and_eq_false_iff, decide_eq_false_iff_not,
    beq_eq_false_iff_ne]
  omega

/-- So trimming takes nothing from what is written. -/
theorem Stream.isBlank_of_mem_text (h : c ∈ x.text.toList) : isBlank c = false := by
  cases x with
  | number n =>
    rw [Stream.text, toList_natText] at h
    exact isBlank_of_isDigit (digit_of_mem_digitsOf h)
  | audio => rw [List.mem_singleton.mp h]; rfl
  | video => rw [List.mem_singleton.mp h]; rfl

theorem digits_digitsOf (n : Nat) : Digits (digitsOf n) n where
  nonempty := Nat.toDigits_ne_nil
  all := fun _ hc => digit_of_mem_digitsOf hc
  value := Nat.ofDigitChars_toDigits (by decide) (by decide)

/-- What a stream is written as is one of its names. -/
theorem Stream.named_text (x : Stream) : Stream.Named x.text.toList x := by
  cases x with
  | number n =>
    rw [Stream.text, toList_natText]
    exact .number (.plain (digits_digitsOf n.toNat))
  | audio => exact .audio
  | video => exact .video

/-- **Names of streams.** With `core` the text without the blanks around it, a text is read as
the best audio or video stream if and only if `core` is that letter, and as the stream `n` if and
only if `core` is a numeral of `n`, with or without a plus; any other text is refused. What a
stream is written as is read back as that stream, with any blanks around it. -/
theorem stream_names :
    (∀ text : String, ∃ core, Trimmed text.toList core ∧
      (Stream.parse? text = some .audio ↔ core = ['a']) ∧
      (Stream.parse? text = some .video ↔ core = ['v']) ∧
      (∀ n : UInt32, Stream.parse? text = some (.number n) ↔ NatNumeral core n.toNat) ∧
      (Stream.parse? text = none ↔
        core ≠ ['a'] ∧ core ≠ ['v'] ∧ ∀ n, NatNumeral core n → 2 ^ 32 ≤ n)) ∧
    ∀ (x : Stream) (front back : List Char), (∀ c ∈ front, isBlank c = true) →
      (∀ c ∈ back, isBlank c = true) →
      Stream.parse? (String.ofList (front ++ (x.text.toList ++ back))) = some x := by
  refine ⟨fun text => ?_, fun x front back hfront hback => ?_⟩
  · have h := trimmed_trimBlanks text.toList
    exact ⟨_, h, (Stream.parse?_eq_some h).trans Stream.named_audio,
      (Stream.parse?_eq_some h).trans Stream.named_video,
      fun n => (Stream.parse?_eq_some h).trans Stream.named_number, Stream.parse?_eq_none h⟩
  · have h : Trimmed (String.ofList (front ++ (x.text.toList ++ back))).toList x.text.toList := by
      rw [String.toList_ofList]
      refine ⟨⟨front, back, rfl, hfront, hback⟩, fun c hc => ?_, fun c hc => ?_⟩
      · exact Stream.isBlank_of_mem_text (List.mem_of_head? hc)
      · exact Stream.isBlank_of_mem_text (List.mem_of_getLast? hc)
    exact (Stream.parse?_eq_some h).mpr x.named_text

/-- The last number of all, between blanks of several kinds. -/
theorem stream_names_surrounded :
    (∀ c ∈ ['　', '\t'], isBlank c = true) ∧ (∀ c ∈ [' ', '\u0085'], isBlank c = true) ∧
      Stream.parse? (String.ofList (['　', '\t'] ++
        ((Stream.number 4294967295).text.toList ++ [' ', '\u0085']))) =
          some (.number 4294967295) := by
  have hfront : ∀ c ∈ ['　', '\t'], isBlank c = true := by simp [isBlank]
  have hback : ∀ c ∈ [' ', '\u0085'], isBlank c = true := by simp [isBlank]
  exact ⟨hfront, hback, stream_names.2 _ _ _ hfront hback⟩

end Filtergraph
