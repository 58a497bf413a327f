import Filtergraph.Media
import Filtergraph.Proofs.Numerals
import Filtergraph.Proofs.ValueGrammar

/-!
# Times on a clock

A duration is shown as hours, minutes and seconds. Minutes and seconds are two digits each and
stay below sixty. Hours are never wrapped: they have two digits, or as many as they need. So a
clock text stands for one number of seconds, and that is the number of seconds nearest to the
duration, as far as 64 bits hold it.

Nothing is lost between the two but what is rounded away. Longer durations show no earlier times,
and the same text is shown for two durations only if they are rounded to the same second.
-/

namespace Filtergraph

/-! ## The grammar -/

/-- Two or more digits, and no zero in front of more than two. -/
structure HourNumeral (cs : List Char) (n : Nat) : Prop extends Digits cs n where
  two_le : 2 ≤ cs.length
  tight : 2 < cs.length → cs.head? ≠ some '0'

/-- Two digits with a value below sixty. -/
structure SixtyNumeral (cs : List Char) (n : Nat) : Prop extends Digits cs n where
  two : cs.length = 2
  lt : n < 60

/-- A text of hours, minutes and seconds, and the seconds that these are in all. -/
inductive ClockText : String → Nat → Prop where
  | parts {hs ms ss : List Char} {h m s : Nat} (hours : HourNumeral hs h)
    (minutes : SixtyNumeral ms m) (seconds : SixtyNumeral ss s) :
    ClockText (String.ofList (hs ++ ':' :: ms ++ ':' :: ss)) (h * 3600 + m * 60 + s)

theorem Digits.unique {cs : List Char} {n n' : Nat} (h : Digits cs n) (h' : Digits cs n') :
    n = n' := h.value.symm.trans h'.value

/-- **A text shows one time.** Minutes and seconds have two digits, so they are found from the
end of the text. -/
theorem ClockText.unique {text : String} {t t' : Nat} (h : ClockText text t)
    (h' : ClockText text t') : t = t' := by
  obtain ⟨hours, minutes, seconds⟩ := h
  generalize htext : String.ofList _ = text at h'
  obtain ⟨hours', minutes', seconds'⟩ := h'
  have hlist := String.ofList_injective htext
  -- seconds first, then minutes: both have two digits, so the rest are the hours
  obtain ⟨hfront, hback⟩ := List.append_inj' hlist (by simp [seconds.two, seconds'.two])
  obtain ⟨hfront, hmiddle⟩ := List.append_inj' hfront (by simp [minutes.two, minutes'.two])
  rw [List.cons.injEq] at hmiddle hback
  subst hfront
  rw [hmiddle.2] at minutes
  rw [hback.2] at seconds
  rw [hours.toDigits.unique hours'.toDigits, minutes.toDigits.unique minutes'.toDigits,
    seconds.toDigits.unique seconds'.toDigits]

/-! ## Padded numerals -/

theorem digits_padded (width n : Nat) : Digits (padded width n) n where
  nonempty := List.append_ne_nil_of_right_ne_nil _ Nat.toDigits_ne_nil
  all := fun _ hc => digit_of_mem_padded hc
  value := digitsValue_padded width n

theorem length_padded (width n : Nat) :
    (padded width n).length = max width (digitsOf n).length := by
  rw [padded, List.length_append, List.length_replicate]
  omega

/-- A numeral that fills its width has no zeros put in front of it. -/
theorem padded_of_le {width n : Nat} (h : width ≤ (digitsOf n).length) :
    padded width n = digitsOf n := by
  rw [padded, Nat.sub_eq_zero_of_le h, List.replicate_zero, List.nil_append]

/-- Two digits or more do not start with a zero. -/
theorem WholePart.head?_ne_zero {w : List Char} (hw : WholePart w) (hlong : 1 < w.length) :
    w.head? ≠ some '0' := by
  cases hw with
  | zero => exact absurd hlong (by simp)
  | digits nonzero all => simpa using nonzero

/-- Hours have two digits, or as many as they need. -/
theorem hourNumeral_padded (n : Nat) : HourNumeral (padded 2 n) n where
  toDigits := digits_padded 2 n
  two_le := by
    rw [length_padded]
    exact Nat.le_max_left 2 _
  tight := by
    rw [length_padded]
    -- more than two digits means that nothing was put in front
    intro hlong
    rw [padded_of_le (by omega)]
    exact (wholePart_digitsOf n).head?_ne_zero (by omega)

theorem sixtyNumeral_padded {n : Nat} (h : n < 60) : SixtyNumeral (padded 2 n) n where
  toDigits := digits_padded 2 n
  two := by
    have hshort : (digitsOf n).length ≤ 2 :=
      (Nat.length_toDigits_le_iff (by decide) (by decide)).mpr (by omega)
    rw [length_padded, Nat.max_eq_left hshort]
  lt := h

/-! ## Rounding -/

namespace Duration

variable {d d' : Duration}

/-- The length in nanoseconds. -/
def span (d : Duration) : Nat := d.seconds.toNat * 10 ^ 9 + d.nanos.val

/-- The second nearest to the end of the duration, half a second counting as one, up to the last
second that 64 bits hold. -/
def nearest (d : Duration) : Nat :=
  min (d.seconds.toNat + if 5 * 10 ^ 8 ≤ d.nanos.val then 1 else 0) (2 ^ 64 - 1)

/-- The time that is shown is the nearest second. -/
theorem rounded_eq_nearest (d : Duration) : d.rounded = d.nearest := by
  have hseconds := d.seconds.toNat_lt
  have hsize : UInt64.size = 2 ^ 64 := rfl
  have hnanos : nanosPerSecond = 10 ^ 9 := rfl
  have hhalf : nanosPerSecond ≤ 2 * d.nanos.val ↔ 5 * 10 ^ 8 ≤ d.nanos.val := by omega
  rw [rounded, nearest, hsize]
  by_cases h : 5 * 10 ^ 8 ≤ d.nanos.val
  · rw [if_pos (hhalf.mpr h), if_pos h]
  · rw [if_neg (mt hhalf.mp h), if_neg h]
    omega

theorem nearest_mono (h : d.span ≤ d'.span) : d.nearest ≤ d'.nearest := by
  have hnanos : d.nanos.val < 10 ^ 9 := d.nanos.isLt
  have hnanos' : d'.nanos.val < 10 ^ 9 := d'.nanos.isLt
  rw [span, span] at h
  rw [nearest, nearest]
  -- the seconds go up, or they stay and the nanoseconds do not go down
  split <;> split <;> omega

/-- **A duration shows the second nearest to it.** -/
theorem clockText_clock (d : Duration) : ClockText d.clock d.nearest := by
  have hsplit : d.rounded / 3600 * 3600 + d.rounded % 3600 / 60 * 60 + d.rounded % 60
      = d.rounded := by omega
  have htext := ClockText.parts (hourNumeral_padded (d.rounded / 3600))
    (sixtyNumeral_padded (n := d.rounded % 3600 / 60) (by omega))
    (sixtyNumeral_padded (n := d.rounded % 60) (by omega))
  rw [hsplit] at htext
  rw [← rounded_eq_nearest]
  exact htext

theorem clock_eq_clock_iff : d.clock = d'.clock ↔ d.nearest = d'.nearest := by
  constructor
  · intro h
    exact (h ▸ d.clockText_clock).unique d'.clockText_clock
  · intro h
    rw [clock, clock, rounded_eq_nearest, rounded_eq_nearest, h]

end Duration

/-- **Durations are shown exactly.** Every duration is shown as hours, minutes and seconds that
make up the nearest second. A text shows one time, so a longer duration never shows an earlier
one, and two durations are shown alike if and only if their nearest seconds are the same. -/
theorem durations_shown_exactly :
    (∀ d : Duration, ClockText d.clock d.nearest) ∧
    (∀ text t t', ClockText text t → ClockText text t' → t = t') ∧
    (∀ (d d' : Duration) (t t' : Nat), d.span ≤ d'.span → ClockText d.clock t →
      ClockText d'.clock t' → t ≤ t') ∧
    ∀ d d' : Duration, d.clock = d'.clock ↔ d.nearest = d'.nearest := by
  refine ⟨Duration.clockText_clock, fun _ _ _ => ClockText.unique, ?_,
    fun _ _ => Duration.clock_eq_clock_iff⟩
  intro d d' t t' hspan ht ht'
  rw [ht.unique d.clockText_clock, ht'.unique d'.clockText_clock]
  exact Duration.nearest_mono hspan

/-- Half a second before one hour. -/
def Duration.almostOneHour : Duration := ⟨3599, ⟨500000000, by decide⟩⟩

/-- The longest duration that there is. -/
def Duration.longest : Duration := ⟨18446744073709551615, ⟨999999999, by decide⟩⟩

/-- Half a second carries through minutes and hours, and the longest duration of all is cut off at
the last second. -/
theorem durations_shown_exactly_carried :
    Duration.almostOneHour.span ≤ Duration.longest.span ∧
    ClockText "01:00:00" 3600 ∧ ClockText "5124095576030431:00:15" (2 ^ 64 - 1) ∧
    ∀ t t', ClockText "01:00:00" t → ClockText "5124095576030431:00:15" t' → t ≤ t' := by
  have hcarried : Duration.almostOneHour.clock = "01:00:00" := by decide +kernel
  have hlongest : Duration.longest.clock = "5124095576030431:00:15" := by decide +kernel
  have hspan : Duration.almostOneHour.span ≤ Duration.longest.span := by decide
  obtain ⟨hshown, _, hlater, _⟩ := durations_shown_exactly
  refine ⟨hspan, hcarried ▸ hshown _, hlongest ▸ hshown _, fun t t' ht ht' => ?_⟩
  exact hlater _ _ t t' hspan (hcarried ▸ ht) (hlongest ▸ ht')

end Filtergraph
