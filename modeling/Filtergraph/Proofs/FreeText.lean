import Mathlib.Logic.Function.Basic
import Filtergraph.Text

/-!
# Free text stays in its place

How a description is read. In each of two passes, text between single quotes is literal, and
outside quotes a backslash makes the next character literal. The first pass takes a description
apart at brackets, commas, semicolons and colons that are not protected in this way; the second
reads the value of an option.

Free text that was quoted gets through both passes unharmed. After the first pass nothing of it
has stood unprotected, so whatever it contains ends no option, filter or statement. What is left
for the second pass has a backslash before every character that is special there, and reads as the
text itself. Both facts are proved a character at a time: each is written in such a way that the
reader is between the same quotes before and after it.
-/

namespace Filtergraph.OptionValue

/-! ## Reading a description -/

/-- How a character that a pass keeps was written. -/
inductive Mark where
  /-- Outside quotes and for itself. -/
  | bare
  /-- After a backslash. -/
  | escaped
  /-- Between single quotes. -/
  | quoted
deriving DecidableEq

/-- Where the next character stands. -/
inductive Place where
  | outside
  /-- After a backslash. -/
  | escape
  /-- Between single quotes. -/
  | inside
deriving DecidableEq

/-- One pass, from a place on: the characters that it keeps, with the way they were written.
There are none if a quote stays open or nothing follows a backslash. -/
def scan : Place → List Char → Option (List (Char × Mark))
  | .outside, [] => some []
  | _, [] => none
  | .escape, c :: rest => (scan .outside rest).map ((c, .escaped) :: ·)
  | .inside, c :: rest =>
    if c = '\'' then scan .outside rest
    else (scan .inside rest).map ((c, .quoted) :: ·)
  | .outside, c :: rest =>
    if c = '\'' then scan .inside rest
    else if c = '\\' then scan .escape rest
    else (scan .outside rest).map ((c, .bare) :: ·)

/-- Where the first pass takes a description apart, if nothing protects the character. -/
def isDelimiter (c : Char) : Bool := "[],;:".toList.contains c

/-- What would not stand for itself in the second pass. -/
def isSpecial (c : Char) : Bool := c == ':' || c == '\'' || c == '\\'

/-! ## The two passes over quoted text -/

/-- What the first pass leaves of a character of free text. A single quote was written outside
the quotes, all else between them. -/
def firstPass (c : Char) : List (Char × Mark) :=
  if c = '\'' then [('\\', .escaped), ('\'', .escaped)]
  else (escapedChar c).map fun d => (d, .quoted)

/-- What the second pass makes of a character of free text. -/
def secondPass (c : Char) : Char × Mark :=
  (c, if escapedChar c = [c] then .bare else .escaped)

/-- Between quotes a character stands for itself or behind a backslash. -/
theorem escapedChar_cases {c : Char} (hc : c ≠ '\'') :
    (escapedChar c = [c] ∧ c ≠ '\\') ∨ escapedChar c = ['\\', c] := by
  unfold escapedChar
  rw [if_neg hc]
  split
  · exact .inr rfl
  · rename_i hplain
    exact .inl ⟨rfl, fun h => hplain (.inl h)⟩

/-- **Between the quotes the first pass goes on**, up to the quote that closes them for good. -/
theorem scan_inside (text rest : List Char) :
    scan .inside (text.flatMap escapedChar ++ '\'' :: rest) =
      (scan .outside rest).map (text.flatMap firstPass ++ ·) := by
  induction text with
  | nil => simp [scan]
  | cons c text ih =>
    rw [List.flatMap_cons, List.append_assoc, List.flatMap_cons, firstPass]
    by_cases hc : c = '\''
    · -- the quotes close, a backslash and a quote follow backslashes, and the quotes open again
      subst hc
      simp [escapedChar, scan, ih, Function.comp_def]
    · rw [if_neg hc]
      rcases escapedChar_cases hc with ⟨hplain, _⟩ | hescaped
      · rw [hplain]
        simp [scan, hc, ih, Function.comp_def]
      · rw [hescaped]
        simp [scan, hc, ih, Function.comp_def]

/-- **Quoted text is a whole for the first pass**, whatever follows it. -/
theorem scan_quoteChars (text rest : List Char) :
    scan .outside (quoteChars text ++ rest) =
      (scan .outside rest).map (text.flatMap firstPass ++ ·) := by
  rw [quoteChars, List.cons_append, List.cons_append, List.append_assoc, scan, if_pos rfl,
    List.singleton_append, scan_inside]

/-- Nothing of free text is left unprotected. -/
theorem protected_of_mem_firstPass {c : Char} {m : Char × Mark} (h : m ∈ firstPass c) :
    m.2 ≠ .bare := by
  unfold firstPass at h
  split at h
  · simp only [List.mem_cons, List.not_mem_nil, or_false] at h
    rcases h with rfl | rfl
    · simp
    · simp
  · obtain ⟨d, _, rfl⟩ := List.mem_map.mp h
    simp

/-- **The second pass restores the text.** -/
theorem scan_firstPass (text : List Char) :
    scan .outside ((text.flatMap firstPass).map Prod.fst) = some (text.map secondPass) := by
  induction text with
  | nil => rfl
  | cons c text ih =>
    rw [List.flatMap_cons, List.map_append, List.map_cons, firstPass, secondPass]
    by_cases hc : c = '\''
    · subst hc
      simp [escapedChar, scan, ih]
    · rw [if_neg hc]
      -- a backslash is left where the second pass needs one
      rcases escapedChar_cases hc with ⟨hplain, hbackslash⟩ | hescaped
      · rw [hplain]
        simp [scan, hc, hbackslash, ih]
      · rw [hescaped]
        simp [scan, ih]

theorem escaped_of_isSpecial {c : Char} (h : isSpecial c = true) :
    (secondPass c).2 = .escaped := by
  unfold isSpecial at h
  simp only [Bool.or_eq_true, beq_iff_eq] at h
  rcases h with (rfl | rfl) | rfl
  · rfl
  · rfl
  · rfl

/-! ## Free text -/

/-- What the two passes make of a written value: the first keeps `kept`, the second `read`. -/
structure Decodes (written : String) (kept read : List (Char × Mark)) : Prop where
  /-- The first pass finds every quote closed. -/
  first : scan .outside written.toList = some kept
  /-- Behind the value it goes on as if the value were not there. -/
  onward : ∀ rest, scan .outside (written.toList ++ rest) =
    (scan .outside rest).map (kept ++ ·)
  /-- It finds nothing to take the value apart at. -/
  whole : ∀ m ∈ kept, m.2 = .bare → isDelimiter m.1 = false
  /-- The second pass reads what the first one kept. -/
  second : scan .outside (kept.map Prod.fst) = some read
  /-- What is special there stands after a backslash. -/
  escaped : ∀ m ∈ read, isSpecial m.1 = true → m.2 = .escaped

theorem decodes_quote (text : String) :
    Decodes (quote text) (text.toList.flatMap firstPass) (text.toList.map secondPass) where
  first := by
    have hscan := scan_quoteChars text.toList []
    rw [List.append_nil] at hscan
    simpa [quote, scan] using hscan
  onward := by
    intro rest
    rw [quote, String.toList_ofList, scan_quoteChars]
  whole := by
    intro m hm hbare
    obtain ⟨c, _, hc⟩ := List.mem_flatMap.mp hm
    exact absurd hbare (protected_of_mem_firstPass hc)
  second := scan_firstPass text.toList
  escaped := by
    intro m hm hspecial
    obtain ⟨c, _, rfl⟩ := List.mem_map.mp hm
    exact escaped_of_isSpecial hspecial

/-- **Free text cannot be broken out of, and decodes back.** In the first pass all quotes of a
quoted text are closed, and no delimiter stands unprotected. The second pass reads from what is
left the text itself, each special character of it after a backslash. So different texts are
quoted differently. -/
theorem quoted_text_decodes :
    (∀ text, ∃ kept read, Decodes (quote text) kept read ∧
      String.ofList (read.map Prod.fst) = text) ∧
    Function.Injective quote := by
  have hall : ∀ text, ∃ kept read, Decodes (quote text) kept read ∧
      String.ofList (read.map Prod.fst) = text := by
    intro text
    refine ⟨_, _, decodes_quote text, ?_⟩
    simp [secondPass, Function.comp_def]
  refine ⟨hall, ?_⟩
  intro s t heq
  obtain ⟨kept, read, hs, rfl⟩ := hall s
  obtain ⟨kept', read', ht, rfl⟩ := hall t
  -- the passes have one result each
  obtain rfl : kept = kept' := Option.some.inj (hs.first.symm.trans (heq ▸ ht.first))
  obtain rfl : read = read' := Option.some.inj (hs.second.symm.trans ht.second)
  rfl

/-- A quote at each end, backslashes in a row, and delimiters. -/
example : quote "'a\\\\:[b];'" = "''\\\\\\''a\\\\\\\\\\:[b];'\\\\\\'''" := by decide

end Filtergraph.OptionValue
