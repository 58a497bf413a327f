import Mathlib.Data.List.Forall2
import Filtergraph.Command
import Filtergraph.Text

/-!
# Reading a command line back

How a shell takes a line apart. Outside quotes a blank or a line break ends a word, and a
backslash makes the next character literal; between single quotes every character is literal.
Pieces that nothing separates belong to one word, so two quotes in a row are the empty word.

A line that was written here comes apart into the words it was written from. What stands
outside its quotes is harmless: characters that mean themselves, a backslash before a quote,
and one space between two words.
-/

namespace Filtergraph.Shell

/-! ## Taking a line apart -/

/-- What ends a word. -/
def isSeparator (c : Char) : Bool := c == ' ' || c == '\t' || c == '\n'

/-- What means something to a shell when it stands outside quotes; blanks of every kind are
counted in. -/
def isSpecial (c : Char) : Bool :=
  "|&;<>()$`\\\"*?[]#~\x7b\x7d!".toList.contains c || isBlank c

/-- A piece of a line. -/
inductive Piece where
  /-- A blank or a line break outside quotes. -/
  | separator (c : Char)
  /-- A character outside quotes that stands for itself. -/
  | plain (c : Char)
  /-- A character after a backslash. -/
  | escaped (c : Char)
  /-- Text between single quotes. -/
  | quoted (text : List Char)
deriving DecidableEq

namespace Piece

/-- What the piece means. -/
def text : Piece → List Char
  | separator _ => []
  | plain c => [c]
  | escaped c => [c]
  | quoted text => text

/-- How the piece is written. -/
def chars : Piece → List Char
  | separator c => [c]
  | plain c => [c]
  | escaped c => ['\\', c]
  | quoted text => '\'' :: text ++ ['\'']

/-- Whether the piece belongs to a word and shows nothing outside quotes that a shell would
act on. A backslash is there for a single quote only. -/
def isHarmless : Piece → Bool
  | separator _ => false
  | plain c => !isSpecial c
  | escaped c => c == '\''
  | quoted _ => true

end Piece

/-- Where in a line the next character stands. -/
inductive Place where
  | outside
  /-- After a backslash. -/
  | escape
  /-- Between single quotes, after that text. -/
  | inside (text : List Char)

/-- What has been read of the piece that is not complete. -/
def Place.chars : Place → List Char
  | outside => []
  | escape => ['\\']
  | inside text => '\'' :: text

/-- The pieces of a line, from a place in it on. There are none if a quote stays open or nothing
follows a backslash. -/
def scan : Place → List Char → Option (List Piece)
  | .outside, [] => some []
  | _, [] => none
  | .escape, c :: rest => (scan .outside rest).map (.escaped c :: ·)
  | .inside text, c :: rest =>
    if c = '\'' then (scan .outside rest).map (.quoted text :: ·)
    else scan (.inside (text ++ [c])) rest
  | .outside, c :: rest =>
    if c = '\'' then scan (.inside []) rest
    else if c = '\\' then scan .escape rest
    else if isSeparator c then (scan .outside rest).map (.separator c :: ·)
    else (scan .outside rest).map (.plain c :: ·)

/-- The words that pieces make up. The first argument is the word that is not finished yet. -/
def join : Option (List Char) → List Piece → List (List Char)
  | word, [] => word.toList
  | word, .separator _ :: rest => word.toList ++ join none rest
  | word, piece :: rest => join (some (word.getD [] ++ piece.text)) rest

/-- The pieces of a line. -/
def pieces? (line : String) : Option (List Piece) := scan .outside line.toList

/-- The words of a line. -/
def words? (line : String) : Option (List String) :=
  (pieces? line).map fun pieces => (join none pieces).map String.ofList

/-- The scan leaves nothing out. -/
theorem chars_of_scan {place : Place} {cs : List Char} {pieces : List Piece}
    (h : scan place cs = some pieces) : place.chars ++ cs = pieces.flatMap Piece.chars := by
  fun_induction scan place cs generalizing pieces with
  | case1 =>
    obtain rfl := Option.some.inj h
    rfl
  -- the line ends inside quotes or behind a backslash
  | case2 => exact absurd h (by simp)
  | case3 c rest ih =>
    obtain ⟨more, hmore, rfl⟩ := Option.map_eq_some_iff.mp h
    simpa [Place.chars, Piece.chars] using ih hmore
  | case4 text rest ih =>
    obtain ⟨more, hmore, rfl⟩ := Option.map_eq_some_iff.mp h
    simpa [Place.chars, Piece.chars] using ih hmore
  | case5 text c rest _ ih => simpa [Place.chars] using ih h
  | case6 rest ih => simpa [Place.chars] using ih h
  | case7 rest _ ih => simpa [Place.chars] using ih h
  | case8 c rest _ _ _ ih =>
    obtain ⟨more, hmore, rfl⟩ := Option.map_eq_some_iff.mp h
    simpa [Place.chars, Piece.chars] using ih hmore
  | case9 c rest _ _ _ ih =>
    obtain ⟨more, hmore, rfl⟩ := Option.map_eq_some_iff.mp h
    simpa [Place.chars, Piece.chars] using ih hmore

/-! ## The pieces of a written word -/

/-- Text between quotes in pieces: each single quote in it stands between two of them. -/
def quotedPieces : List Char → List Char → List Piece
  | text, [] => [.quoted text]
  | text, c :: rest =>
    if c = '\'' then .quoted text :: .escaped '\'' :: quotedPieces [] rest
    else quotedPieces (text ++ [c]) rest

/-- The pieces that a word is written in. -/
def wordPieces (word : List Char) : List Piece :=
  if !word.isEmpty && word.all isUnreserved then word.map .plain else quotedPieces [] word

/-- Unreserved characters are among the first few, so they can be gone through. -/
theorem lt_of_unreserved {c : Char} (h : isUnreserved c = true) : c.toNat < 128 := by
  have hothers : ∀ d ∈ "_-./:=,+@%".toList, d.toNat < 128 := by simp
  unfold isUnreserved Char.isAlphanum Char.isAlpha Char.isUpper Char.isLower Char.isDigit at h
  simp only [Bool.or_eq_true, List.contains_iff_mem] at h
  rcases h with h | h
  · simp [UInt32.le_iff_toNat_le] at h
    omega
  · exact hothers c h

/-- What is left without quotes means nothing to a shell. -/
theorem not_special_of_unreserved {c : Char} (h : isUnreserved c = true) :
    isSpecial c = false := by
  have hall : ∀ n < 128, isUnreserved (Char.ofNat n) = true → isSpecial (Char.ofNat n) = false := by
    decide
  have hc := hall c.toNat (lt_of_unreserved h)
  rw [Char.ofNat_toNat] at hc
  exact hc h

/-- An unreserved character is a piece of its own. -/
theorem scan_unreserved {c : Char} (h : isUnreserved c = true) (rest : List Char) :
    scan .outside (c :: rest) = (scan .outside rest).map (.plain c :: ·) := by
  have hquote : c ≠ '\'' := by
    rintro rfl
    exact absurd h (by decide)
  have hbackslash : c ≠ '\\' := by
    rintro rfl
    exact absurd h (by decide)
  have hseparator : isSeparator c = false := by
    by_contra hs
    simp only [isSeparator, Bool.not_eq_false, Bool.or_eq_true, beq_iff_eq] at hs
    rcases hs with (rfl | rfl) | rfl <;> exact absurd h (by decide)
  simp [scan, hquote, hbackslash, hseparator]

theorem scan_plain {word : List Char} (h : word.all isUnreserved = true) (rest : List Char) :
    scan .outside (word ++ rest) = (scan .outside rest).map (word.map Piece.plain ++ ·) := by
  induction word with
  | nil => simp
  | cons c word ih =>
    rw [List.all_cons, Bool.and_eq_true] at h
    rw [List.cons_append, scan_unreserved h.1, ih h.2, Option.map_map]
    rfl

/-- Inside quotes, up to the quote that closes them for good. -/
theorem scan_quoted (text word rest : List Char) :
    scan (.inside text) (word.flatMap quotedChar ++ '\'' :: rest) =
      (scan .outside rest).map (quotedPieces text word ++ ·) := by
  induction word generalizing text with
  | nil => simp [scan, quotedPieces]
  | cons c word ih =>
    rw [List.flatMap_cons, List.append_assoc, quotedPieces]
    by_cases hc : c = '\''
    · -- the quotes close, a quote follows a backslash, and the quotes open again
      subst hc
      simp [quotedChar, scan, ih, Function.comp_def]
    · rw [if_neg hc]
      simp [quotedChar, hc, scan, ih]

/-- **A written word comes apart into its pieces**, whatever follows. -/
theorem scan_quoteChars (word rest : List Char) :
    scan .outside (quoteChars word ++ rest) = (scan .outside rest).map (wordPieces word ++ ·) := by
  unfold quoteChars wordPieces
  by_cases hplain : (!word.isEmpty && word.all isUnreserved) = true
  · rw [if_pos hplain, if_pos hplain]
    exact scan_plain (Bool.and_eq_true_iff.mp hplain).2 rest
  · rw [if_neg hplain, if_neg hplain, List.append_assoc]
    simpa [scan] using scan_quoted [] word rest

/-! ## What the pieces mean -/

/-- Pieces that show a word in a harmless way. -/
structure Spells (word : List Char) (pieces : List Piece) : Prop where
  nonempty : pieces ≠ []
  harmless : ∀ p ∈ pieces, p.isHarmless = true
  text : pieces.flatMap Piece.text = word

theorem quotedPieces_ne_nil (text word : List Char) : quotedPieces text word ≠ [] := by
  induction word generalizing text with
  | nil => simp [quotedPieces]
  | cons c word ih =>
    rw [quotedPieces]
    split
    · simp
    · exact ih _

/-- Between quotes anything may stand, and the quotes in it are escaped. -/
theorem isHarmless_quotedPieces {text word : List Char} :
    ∀ p ∈ quotedPieces text word, p.isHarmless = true := by
  induction word generalizing text with
  | nil => simp [quotedPieces, Piece.isHarmless]
  | cons c word ih =>
    rw [quotedPieces]
    split
    · intro p hp
      rcases List.mem_cons.mp hp with rfl | hp
      · rfl
      rcases List.mem_cons.mp hp with rfl | hp
      · rfl
      · exact ih p hp
    · exact ih

theorem text_quotedPieces (text word : List Char) :
    (quotedPieces text word).flatMap Piece.text = text ++ word := by
  induction word generalizing text with
  | nil => simp [quotedPieces, Piece.text]
  | cons c word ih =>
    rw [quotedPieces]
    split
    · rename_i hc
      simp [Piece.text, ih, hc]
    · simp [ih]

/-- **A written word spells itself.** -/
theorem spells_wordPieces (word : List Char) : Spells word (wordPieces word) := by
  unfold wordPieces
  -- with nothing reserved in it the word stands as it is
  split
  · rename_i hplain
    rw [Bool.and_eq_true, List.all_eq_true] at hplain
    refine ⟨by simpa using hplain.1, ?_, ?_⟩
    · intro p hp
      obtain ⟨c, hc, rfl⟩ := List.mem_map.mp hp
      simp [Piece.isHarmless, not_special_of_unreserved (hplain.2 c hc)]
    · simp [List.flatMap_map, Piece.text]
  · exact ⟨quotedPieces_ne_nil _ _, isHarmless_quotedPieces, text_quotedPieces [] word⟩

/-- Pieces without a separator belong to the word that is open. -/
theorem join_append {pieces : List Piece} (h : ∀ p ∈ pieces, p.isHarmless = true)
    (word : List Char) (rest : List Piece) :
    join (some word) (pieces ++ rest) = join (some (word ++ pieces.flatMap Piece.text)) rest := by
  induction pieces generalizing word with
  | nil => simp
  | cons p pieces ih =>
    have hrest := fun q hq => h q (List.mem_cons_of_mem _ hq)
    have hp := h p List.mem_cons_self
    cases p with
    | separator c => exact absurd hp (by simp [Piece.isHarmless])
    | _ => simp [join, ih hrest]

theorem Spells.join {word : List Char} {pieces : List Piece} (h : Spells word pieces)
    (rest : List Piece) : join none (pieces ++ rest) = join (some word) rest := by
  obtain ⟨p, more, rfl⟩ := List.exists_cons_of_ne_nil h.nonempty
  -- the first piece opens the word, whichever it is
  have hopen : Shell.join none (p :: more ++ rest) = Shell.join (some []) (p :: more ++ rest) := by
    have hp := h.harmless p List.mem_cons_self
    cases p with
    | separator c => exact absurd hp (by simp [Piece.isHarmless])
    | _ => simp [Shell.join]
  rw [hopen, join_append h.harmless, h.text, List.nil_append]

/-! ## Lines -/

/-- The pieces of a line, one space between the pieces of two words. -/
def linePieces (parts : List (List Piece)) : List Piece := [Piece.separator ' '].intercalate parts

theorem toList_line (words : List String) :
    (line words).toList = [' '].intercalate ((words.map String.toList).map quoteChars) := by
  simp [line, quote, String.toList_intercalate, Function.comp_def]

/-- A written line comes apart into the pieces of its words. -/
theorem scan_line (words : List (List Char)) :
    scan .outside ([' '].intercalate (words.map quoteChars)) =
      some (linePieces (words.map wordPieces)) := by
  unfold linePieces
  induction words with
  | nil => rfl
  | cons word rest ih =>
    -- a space follows only if there is a next word
    cases rest with
    | nil => simpa [scan] using scan_quoteChars word []
    | cons next rest =>
      rw [List.map_cons, List.map_cons] at ih ⊢
      rw [List.map_cons, List.map_cons, List.intercalate_cons_cons, List.append_assoc,
        scan_quoteChars, List.singleton_append, scan, if_neg (by decide), if_neg (by decide),
        if_pos (by decide), ih, List.intercalate_cons_cons]
      simp

theorem join_line {words : List (List Char)} {parts : List (List Piece)}
    (h : List.Forall₂ Spells words parts) : join none (linePieces parts) = words := by
  unfold linePieces
  induction h with
  | nil => rfl
  | @cons word part words parts hword hrest ih =>
    cases hrest with
    | nil => simpa [join] using hword.join []
    | cons =>
      rw [List.intercalate_cons_cons, List.append_assoc, hword.join, List.singleton_append, join,
        ih]
      rfl

end Filtergraph.Shell

namespace Filtergraph

/-- **The line of a command reads back as its arguments**, in order. It is made of the pieces of
one argument after the other with one space between them, and outside of quotes no piece of an
argument shows anything that a shell would act on. -/
theorem command_reads_back (c : Command) :
    Shell.words? c.text = some c.args ∧
      ∃ parts, Shell.pieces? c.text = some (Shell.linePieces parts) ∧
        c.text.toList = (Shell.linePieces parts).flatMap Shell.Piece.chars ∧
        List.Forall₂ (fun arg part => Shell.Spells arg.toList part) c.args parts := by
  have hspells : List.Forall₂ Shell.Spells (c.args.map String.toList)
      ((c.args.map String.toList).map Shell.wordPieces) := by
    rw [List.forall₂_map_right_iff, List.forall₂_same]
    exact fun word _ => Shell.spells_wordPieces word
  have hscan : Shell.pieces? c.text =
      some (Shell.linePieces ((c.args.map String.toList).map Shell.wordPieces)) := by
    rw [Shell.pieces?, Command.text, Shell.toList_line, Shell.scan_line]
  refine ⟨?_, _, hscan, Shell.chars_of_scan hscan, by simpa using hspells⟩
  rw [Shell.words?, hscan, Option.map_some, Shell.join_line hspells, List.map_map]
  simp [Function.comp_def]

/-- Quotes inside, at the ends and in a row, an empty word, and a word that a shell would act on. -/
example : (Command.mk ["-i", "it's", "", "''a$(b)"]).text =
    "-i 'it'\\''s' '' ''\\'''\\''a$(b)'" := by decide

end Filtergraph
