import Mathlib.Data.List.TakeWhile
import Filtergraph.Toml.Reader

/-!
# Strings and keys of a document

Whichever way a string is written, it is read back as that string. Each reader is looked at with
any text behind the closing quote; only a further quote would change what it reads.

In the ways over several lines the reader takes quotes in runs, and the writer counts them one by
one. So the inductions carry a number of quotes that were written but not read yet, at most two.
-/

namespace Filtergraph.Toml

/-! ## Characters of basic strings -/

/-- How a basic string may spell a character. -/
inductive Spelled (c : Char) : List Char → Prop where
  | shown (shown : isShown c = true) (quote : c ≠ '"') (backslash : c ≠ '\\') : Spelled c [c]
  | escaped {code : List Char} (read : ∀ rest, escape? (code ++ rest) = some (c, rest))
      (unbroken : ∀ rest, continued? (code ++ rest) = none) : Spelled c ('\\' :: code)

theorem spelled_quote : Spelled '"' ['\\', '"'] :=
  .escaped (fun _ => rfl) fun _ => rfl

/-- Four hexadecimal digits are read back as the character. -/
theorem hexChar?_hexFour {n : Nat} (hn : n < 128) (rest : List Char) :
    hexChar? 4 (hexFour n ++ rest) = some (Char.ofNat n, rest) := by
  -- few enough to try them all
  have hfour : ∀ n < 128, (hexFour n).length = 4 ∧ (hexFour n).all isHex = true ∧
      valueIn 16 (hexFour n) = n ∧ n.isValidChar := by decide
  obtain ⟨hlength, hhex, hvalue, hvalid⟩ := hfour n hn
  unfold hexChar?
  rw [← hlength, List.take_left, List.drop_left]
  simp only [hhex, hvalue, hvalid, and_self, if_true]

theorem lt_of_isControl {c : Char} (h : isControl c = true) : c.toNat < 128 := by
  unfold isControl at h
  simp only [Bool.or_eq_true, decide_eq_true_eq, beq_iff_eq] at h
  omega

/-- Whatever a character is, what is written for it is one of its spellings. -/
theorem spelled_escapeChar {c : Char} (hc : c ≠ '"') : Spelled c (escapeChar c) := by
  unfold escapeChar
  -- the short escapes, then control characters by number, then all others as they are
  split_ifs with hbackslash hnewline htab hreturn hbackspace hfeed hcontrol
  · subst hbackslash
    exact .escaped (fun _ => rfl) fun _ => rfl
  · subst hnewline
    exact .escaped (fun _ => rfl) fun _ => rfl
  · subst htab
    exact .escaped (fun _ => rfl) fun _ => rfl
  · subst hreturn
    exact .escaped (fun _ => rfl) fun _ => rfl
  · obtain rfl : c = '\x08' := Char.toNat_inj.mp hbackspace
    exact .escaped (fun _ => rfl) fun _ => rfl
  · obtain rfl : c = '\x0c' := Char.toNat_inj.mp hfeed
    exact .escaped (fun _ => rfl) fun _ => rfl
  · refine .escaped (fun rest => ?_) fun _ => rfl
    show hexChar? 4 (hexFour c.toNat ++ rest) = _
    rw [hexChar?_hexFour (lt_of_isControl hcontrol), Char.ofNat_toNat]
  · exact .shown (by simp [isShown, hcontrol]) hc hbackslash

theorem newline?_eq_none {c : Char} (hc : isShown c = true) (rest : List Char) :
    newline? (c :: rest) = none := by
  rw [newline?]
  · intro more h
    rw [(List.cons.inj h).1] at hc
    exact absurd hc (by decide)
  · intro more h
    rw [(List.cons.inj h).1] at hc
    exact absurd hc (by decide)

/-- Adds a character to what was read. -/
def withChar (c : Char) (x : List Char × List Char) : List Char × List Char := (c :: x.1, x.2)

theorem bind_withChar (c : Char) (x : Option (List Char × List Char)) :
    (x.bind fun y => some (withChar c y)) = x.map (withChar c) := by
  cases x <;> rfl

variable {c : Char} {cs code rest : List Char} {fuel : Nat}

/-- A spelling is read as its character, and then the rest is read. -/
theorem basicTail?_spelled (h : Spelled c code) :
    basicTail? (fuel + 1) (code ++ rest) = (basicTail? fuel rest).map (withChar c) := by
  cases h with
  | shown hshown hquote hbackslash =>
    rw [List.singleton_append, basicTail?, if_neg hquote, if_neg hbackslash, if_pos hshown]
    exact bind_withChar c _
  | escaped read unbroken =>
    rw [List.cons_append, basicTail?, if_neg (by decide), if_pos rfl, read]
    exact bind_withChar c _

theorem basicLinesTail?_spelled (h : Spelled c code) :
    basicLinesTail? (fuel + 1) (code ++ rest) = (basicLinesTail? fuel rest).map (withChar c) := by
  cases h with
  | shown hshown hquote hbackslash =>
    rw [List.singleton_append, basicLinesTail?, if_neg hquote, if_neg hbackslash,
      newline?_eq_none hshown]
    dsimp only
    rw [if_pos hshown]
    exact bind_withChar c _
  | escaped read unbroken =>
    rw [List.cons_append, basicLinesTail?, if_neg (by decide), if_pos rfl, unbroken, read]
    exact bind_withChar c _

/-! ## On one line -/

/-- Between quotes every character is written in one of its spellings. -/
theorem exists_escapeLine_cons (c : Char) (cs : List Char) :
    ∃ code, Spelled c code ∧ escapeLine (c :: cs) = code ++ escapeLine cs := by
  unfold escapeLine
  rw [List.flatMap_cons]
  by_cases hc : c = '"'
  · rw [if_pos hc, hc]
    exact ⟨_, spelled_quote, rfl⟩
  · rw [if_neg hc]
    exact ⟨_, spelled_escapeChar hc, rfl⟩

theorem Spelled.length_pos (h : Spelled c code) : 0 < code.length := by
  cases h <;> exact Nat.succ_pos _

/-- An escaped string on one line is read back. -/
theorem basicTail?_escapeLine (cs rest : List Char) (hfuel : (escapeLine cs).length < fuel) :
    basicTail? fuel (escapeLine cs ++ '"' :: rest) = some (cs, rest) := by
  induction cs generalizing fuel with
  | nil =>
    obtain ⟨k, rfl⟩ : ∃ k, fuel = k + 1 := ⟨fuel - 1, by omega⟩
    rfl
  | cons c cs ih =>
    obtain ⟨code, hcode, hcons⟩ := exists_escapeLine_cons c cs
    -- each character takes one step and at least one written character
    have hpos := hcode.length_pos
    rw [hcons, List.length_append] at hfuel
    obtain ⟨k, rfl⟩ : ∃ k, fuel = k + 1 := ⟨fuel - 1, by omega⟩
    rw [hcons, List.append_assoc, basicTail?_spelled hcode, ih (by omega)]
    rfl

/-- A string without quotes and control characters is read back as it stands. -/
theorem literalTail?_append (hquote : '\'' ∉ cs) (hshown : ∀ c ∈ cs, isShown c = true)
    (rest : List Char) : literalTail? (cs ++ '\'' :: rest) = some (cs, rest) := by
  have hne : ∀ c ∈ cs, decide (c ≠ '\'') = true := by
    intro c hc
    exact decide_eq_true fun h => hquote (h ▸ hc)
  have hall : cs.all isShown = true := List.all_eq_true.mpr hshown
  unfold literalTail?
  rw [List.takeWhile_append_of_pos hne, List.dropWhile_append_of_pos hne]
  simp [hall]

/-! ## Runs of quotes -/

/-- A reader of strings over several lines treats quotes as runs. -/
def TakesRuns (q : Char) (tail? : Nat → List Char → Option (List Char × List Char)) : Prop :=
  ∀ fuel rest, tail? (fuel + 1) (q :: rest) =
    match quoteRun q (q :: rest) with
    | (.tooLong, _) => none
    | (.closing quotes, rest) => some (quotes, rest)
    | (.inside quotes, rest) => do
      let (cs, rest) ← tail? fuel rest
      return (quotes ++ cs, rest)

theorem takesRuns_basicLinesTail? : TakesRuns '"' basicLinesTail? := by
  intro fuel rest
  rw [basicLinesTail?]
  exact if_pos rfl

theorem takesRuns_literalLinesTail? : TakesRuns '\'' literalLinesTail? := by
  intro fuel rest
  rw [literalLinesTail?]
  exact if_pos rfl

section Runs

variable {q : Char} {tail? : Nat → List Char → Option (List Char × List Char)} {run n : Nat}
  {text : List Char}

theorem quoteRun_replicate (htext : text.head? ≠ some q) :
    quoteRun q (List.replicate n q ++ text) = (.ofLength q n, text) := by
  have hquotes : ∀ c ∈ List.replicate n q, decide (c = q) = true := by
    intro c hc
    exact decide_eq_true (List.eq_of_mem_replicate hc)
  -- none of the quotes counted stands behind the run
  have hnone : text.takeWhile (fun c => decide (c = q)) = [] ∧
      text.dropWhile (fun c => decide (c = q)) = text := by
    cases text with
    | nil => exact ⟨rfl, rfl⟩
    | cons c text =>
      have hc : c ≠ q := fun h => htext (by rw [h]; rfl)
      simp [hc]
  unfold quoteRun
  rw [List.takeWhile_append_of_pos hquotes, List.dropWhile_append_of_pos hquotes, hnone.1, hnone.2,
    List.append_nil, List.length_replicate]

theorem replicate_append_cons (run : Nat) (q : Char) (text : List Char) :
    List.replicate run q ++ q :: text = List.replicate (run + 1) q ++ text := by
  rw [List.replicate_succ', List.append_assoc]
  rfl

/-- Three quotes close the string, and up to two before them belong to it. -/
theorem TakesRuns.closing (h : TakesRuns q tail?) (hrun : run ≤ 2) (hrest : rest.head? ≠ some q) :
    tail? (fuel + 1) (List.replicate run q ++ q :: q :: q :: rest) =
      some (List.replicate run q, rest) := by
  have hsplit : List.replicate run q ++ q :: q :: q :: rest =
      List.replicate (run + 3) q ++ rest := by
    rw [replicate_append_cons, replicate_append_cons, replicate_append_cons]
  have hkind : QuoteRun.ofLength q (run + 3) = .closing (List.replicate run q) := by
    unfold QuoteRun.ofLength
    rw [if_neg (by omega), if_pos (by omega), Nat.add_sub_cancel]
  rw [hsplit, List.replicate_succ, List.cons_append, h, ← List.cons_append, ← List.replicate_succ,
    quoteRun_replicate hrest, hkind]

/-- Up to two quotes belong to the string. -/
theorem TakesRuns.inside (h : TakesRuns q tail?) (hrun : run ≤ 2) (htext : text.head? ≠ some q)
    (hread : ∀ k, n < k → tail? k text = some (cs, rest)) (hfuel : run + n < fuel) :
    tail? fuel (List.replicate run q ++ text) = some (List.replicate run q ++ cs, rest) := by
  cases run with
  | zero => exact hread fuel (by omega)
  | succ run =>
    obtain ⟨k, rfl⟩ : ∃ k, fuel = k + 1 := ⟨fuel - 1, by omega⟩
    have hkind : QuoteRun.ofLength q (run + 1) = .inside (List.replicate (run + 1) q) := by
      unfold QuoteRun.ofLength
      rw [if_pos (by omega)]
    rw [List.replicate_succ, List.cons_append, h, ← List.cons_append, ← List.replicate_succ,
      quoteRun_replicate htext, hkind]
    dsimp only
    rw [hread k (by omega)]
    rfl

end Runs

/-! ## Over several lines -/

theorem basicLinesTail?_newline :
    basicLinesTail? (fuel + 1) ('\n' :: rest) =
      (basicLinesTail? fuel rest).map (withChar '\n') := by
  rw [basicLinesTail?, if_neg (by decide), if_neg (by decide)]
  exact bind_withChar '\n' _

theorem Spelled.head?_ne (h : Spelled c code) (text : List Char) :
    (code ++ text).head? ≠ some '"' := by
  cases h with
  | shown _ quote _ => simpa using quote
  | escaped _ _ => simp

/-- A character that is no quote ends the run, and its spelling is read as the character. -/
theorem exists_escapeLines_cons (hc : c ≠ '"') (run : Nat) (cs : List Char) :
    ∃ code, escapeLines run (c :: cs) = code ++ escapeLines 0 cs ∧ 0 < code.length ∧
      (∀ text, (code ++ text).head? ≠ some '"') ∧
      ∀ fuel text, basicLinesTail? (fuel + 1) (code ++ text) =
        (basicLinesTail? fuel text).map (withChar c) := by
  rw [escapeLines, if_neg hc]
  by_cases hnewline : c = '\n'
  · subst hnewline
    exact ⟨['\n'], rfl, by decide, by simp, fun _ _ => basicLinesTail?_newline⟩
  · have hspelled := spelled_escapeChar hc
    rw [if_neg hnewline]
    exact ⟨_, rfl, hspelled.length_pos, hspelled.head?_ne, fun _ _ =>
      basicLinesTail?_spelled hspelled⟩

/-- **An escaped string over several lines is read back.** `run` quotes were written before it. -/
theorem basicLinesTail?_escapeLines (cs : List Char) {run : Nat} (hrun : run ≤ 2)
    (hrest : rest.head? ≠ some '"') (hfuel : run + (escapeLines run cs).length < fuel) :
    basicLinesTail? fuel
        (List.replicate run '"' ++ (escapeLines run cs ++ '"' :: '"' :: '"' :: rest))
      = some (List.replicate run '"' ++ cs, rest) := by
  induction cs generalizing run fuel with
  | nil =>
    obtain ⟨k, rfl⟩ : ∃ k, fuel = k + 1 := ⟨fuel - 1, by omega⟩
    rw [List.append_nil]
    exact takesRuns_basicLinesTail?.closing hrun hrest
  | cons c cs ih =>
    -- a spelling that ends the run: first the quotes, then the character, then the rest
    have hstep : ∀ code : List Char, escapeLines run (c :: cs) = code ++ escapeLines 0 cs →
        0 < code.length → (∀ text, (code ++ text).head? ≠ some '"') →
        (∀ fuel text, basicLinesTail? (fuel + 1) (code ++ text) =
          (basicLinesTail? fuel text).map (withChar c)) →
        basicLinesTail? fuel (List.replicate run '"' ++
          (escapeLines run (c :: cs) ++ '"' :: '"' :: '"' :: rest)) =
            some (List.replicate run '"' ++ c :: cs, rest) := by
      intro code hcode hpos hhead hread
      rw [hcode, List.length_append] at hfuel
      rw [hcode, List.append_assoc]
      refine takesRuns_basicLinesTail?.inside (n := code.length + (escapeLines 0 cs).length) hrun
        (hhead _) ?_ hfuel
      intro k hk
      obtain ⟨j, rfl⟩ : ∃ j, k = j + 1 := ⟨k - 1, by omega⟩
      have htail : basicLinesTail? j (List.replicate 0 '"' ++
          (escapeLines 0 cs ++ '"' :: '"' :: '"' :: rest)) =
          some (List.replicate 0 '"' ++ cs, rest) :=
        ih (by omega) (by omega)
      rw [List.replicate_zero, List.nil_append, List.nil_append] at htail
      rw [hread, htail]
      rfl
    by_cases hc : c = '"'
    · subst hc
      -- a third quote in a row would close the string, so it is escaped
      by_cases hfull : run = 2
      · subst hfull
        exact hstep ['\\', '"'] rfl (by decide) (by simp) fun _ _ =>
          basicLinesTail?_spelled spelled_quote
      · have hcons : escapeLines run ('"' :: cs) = '"' :: escapeLines (run + 1) cs := by
          rw [escapeLines, if_pos rfl, if_neg hfull]
        rw [hcons, List.length_cons] at hfuel
        rw [hcons, List.cons_append, replicate_append_cons, replicate_append_cons]
        exact ih (by omega) (by omega)
    · obtain ⟨code, hcode, hpos, hhead, hread⟩ := exists_escapeLines_cons hc run cs
      exact hstep code hcode hpos hhead hread

/-- Three in a row stay three in a row. -/
theorem hasTriple_of_cons {q : Char} (h : hasTriple q (c :: cs) = false) :
    hasTriple q cs = false := by
  cases cs with
  | nil => rfl
  | cons a cs =>
    cases cs with
    | nil => rfl
    | cons b cs =>
      rw [hasTriple, Bool.or_eq_false_iff] at h
      exact h.2

theorem hasTriple_of_append {q : Char} {cs' : List Char} (h : hasTriple q (cs' ++ cs) = false) :
    hasTriple q cs = false := by
  induction cs' with
  | nil => exact h
  | cons c cs' ih => exact ih (hasTriple_of_cons h)

/-- What a literal string over several lines may hold. -/
def IsLiteral (c : Char) : Prop := c = '\n' ∨ isShown c = true

theorem literalLinesTail?_cons (hc : c ≠ '\'') (h : IsLiteral c) :
    literalLinesTail? (fuel + 1) (c :: rest) = (literalLinesTail? fuel rest).map (withChar c) := by
  rw [literalLinesTail?, if_neg hc]
  rcases h with rfl | h
  · exact bind_withChar '\n' _
  · rw [newline?_eq_none h]
    dsimp only
    rw [if_pos h]
    exact bind_withChar c _

/-- **A literal string over several lines is read back.** `run` quotes stand before it. -/
theorem literalLinesTail?_append (cs : List Char) {run : Nat} (hrun : run ≤ 2)
    (htriple : hasTriple '\'' (List.replicate run '\'' ++ cs) = false)
    (hliteral : ∀ c ∈ cs, IsLiteral c) (hrest : rest.head? ≠ some '\'')
    (hfuel : run + cs.length < fuel) :
    literalLinesTail? fuel (List.replicate run '\'' ++ (cs ++ '\'' :: '\'' :: '\'' :: rest)) =
      some (List.replicate run '\'' ++ cs, rest) := by
  induction cs generalizing run fuel with
  | nil =>
    obtain ⟨k, rfl⟩ : ∃ k, fuel = k + 1 := ⟨fuel - 1, by omega⟩
    rw [List.append_nil]
    exact takesRuns_literalLinesTail?.closing hrun hrest
  | cons c cs ih =>
    rw [List.length_cons] at hfuel
    have hliteral' := fun x hx => hliteral x (List.mem_cons_of_mem _ hx)
    by_cases hc : c = '\''
    · subst hc
      rw [replicate_append_cons] at htriple
      -- with two before it this would be the third, and there are no three
      have hrun' : run ≠ 2 := by
        rintro rfl
        exact absurd htriple (by simp [List.replicate, hasTriple])
      rw [List.cons_append, replicate_append_cons, replicate_append_cons]
      exact ih (by omega) htriple hliteral' (by omega)
    · refine takesRuns_literalLinesTail?.inside (n := cs.length + 1) hrun (by simpa using hc) ?_
        hfuel
      intro k hk
      obtain ⟨j, rfl⟩ : ∃ j, k = j + 1 := ⟨k - 1, by omega⟩
      have htriple' : hasTriple '\'' (List.replicate 0 '\'' ++ cs) = false :=
        hasTriple_of_cons (hasTriple_of_append htriple)
      have htail := ih (by omega) htriple' hliteral' (by omega : 0 + cs.length < j)
      rw [List.replicate_zero, List.nil_append, List.nil_append] at htail
      rw [List.cons_append, literalLinesTail?_cons hc (hliteral c List.mem_cons_self), htail]
      rfl

/-! ## Strings -/

/-- In a string that needs no escapes only line breaks are not shown. -/
theorem isShown_of_needsEscape (h : needsEscape cs = false) (hc : c ∈ cs) (hnewline : c ≠ '\n') :
    isShown c = true := by
  unfold needsEscape at h
  have hc' := List.any_eq_false.mp h c hc
  unfold isShown
  by_cases htab : c = '\t'
  · simp [htab]
  · simpa [htab, hnewline] using hc'

theorem isLiteral_of_needsEscape (h : needsEscape cs = false) (hc : c ∈ cs) : IsLiteral c := by
  by_cases hnewline : c = '\n'
  · exact .inl hnewline
  · exact .inr (isShown_of_needsEscape h hc hnewline)

theorem basicQuoted_append (cs rest : List Char) :
    basicQuoted cs ++ rest = '"' :: (escapeLine cs ++ '"' :: rest) := by
  simp [basicQuoted]

theorem literalQuoted_append (cs rest : List Char) :
    literalQuoted cs ++ rest = '\'' :: (cs ++ '\'' :: rest) := by
  simp [literalQuoted]

/-- A string in quotes is read back, unless another quote follows: an empty string would then open
three. -/
theorem string?_basicQuoted (cs : List Char) (hrest : rest.head? ≠ some '"') :
    string? (basicQuoted cs ++ rest) = some (cs, rest) := by
  -- two more quotes would be read as the opening of several lines
  have hopening : ∀ more, escapeLine cs ++ '"' :: rest ≠ '"' :: '"' :: more := by
    intro more h
    cases cs with
    | nil =>
      rw [(List.cons.inj h).2] at hrest
      exact hrest rfl
    | cons c cs =>
      obtain ⟨code, hcode, hcons⟩ := exists_escapeLine_cons c cs
      rw [hcons, List.append_assoc] at h
      exact hcode.head?_ne _ (by rw [h]; rfl)
  rw [basicQuoted_append, string?]
  · refine basicTail?_escapeLine cs rest ?_
    rw [List.length_append]
    omega
  · intro more h
    exact hopening more h

/-- A literal string is read back, under the same condition. -/
theorem string?_literalQuoted (hquote : '\'' ∉ cs) (hshown : ∀ c ∈ cs, isShown c = true)
    (hrest : rest.head? ≠ some '\'') : string? (literalQuoted cs ++ rest) = some (cs, rest) := by
  have hopening : ∀ more, cs ++ '\'' :: rest ≠ '\'' :: '\'' :: more := by
    intro more h
    cases cs with
    | nil =>
      rw [(List.cons.inj h).2] at hrest
      exact hrest rfl
    | cons c cs => exact hquote (by rw [(List.cons.inj h).1]; exact List.mem_cons_self)
  rw [literalQuoted_append, string?]
  · exact literalTail?_append hquote hshown rest
  · intro more h
    exact hopening more h

/-- The line break behind the opening is dropped, if one was written. -/
theorem skipFirstBreak_append {newline : Bool} {text : List Char}
    (h : newline = false → newline? text = none) :
    skipFirstBreak ((if newline = true then ['\n'] else []) ++ text) = text := by
  cases newline with
  | true => rfl
  | false =>
    show skipFirstBreak text = text
    rw [skipFirstBreak, h rfl]
    rfl

theorem tripleQuoted_append (q : Char) (newline : Bool) (inside rest : List Char) :
    tripleQuoted q newline inside ++ rest =
      q :: q :: q ::
        ((if newline = true then ['\n'] else []) ++ (inside ++ q :: q :: q :: rest)) := by
  simp [tripleQuoted]

theorem string?_tripleQuoted_basic {newline : Bool} (hnewline : newline = false → '\n' ∉ cs)
    (hrest : rest.head? ≠ some '"') :
    string? (tripleQuoted '"' newline (escapeLines 0 cs) ++ rest) = some (cs, rest) := by
  -- without a line break behind the opening there must be none to drop
  have hbreak : newline = false →
      newline? (escapeLines 0 cs ++ '"' :: '"' :: '"' :: rest) = none := by
    intro h
    have hmem := hnewline h
    cases cs with
    | nil => rfl
    | cons c cs =>
      rw [escapeLines]
      by_cases hc : c = '"'
      · rw [if_pos hc]
        rfl
      · have hne : c ≠ '\n' := fun h => hmem (h ▸ List.mem_cons_self)
        rw [if_neg hc, if_neg hne]
        generalize hcode : escapeChar c = code
        cases hcode ▸ spelled_escapeChar hc with
        | shown hshown _ _ => exact newline?_eq_none hshown _
        | escaped _ _ => rfl
  have htail := basicLinesTail?_escapeLines cs (by decide : 0 ≤ 2) hrest
    (by rw [List.length_append, List.length_append]; omega :
      0 + (escapeLines 0 cs).length < ((if newline = true then ['\n'] else []) ++
        (escapeLines 0 cs ++ '"' :: '"' :: '"' :: rest)).length + 1)
  rw [tripleQuoted_append, string?, skipFirstBreak_append hbreak]
  exact htail

theorem string?_tripleQuoted_literal {newline : Bool} (hnewline : newline = false → '\n' ∉ cs)
    (htriple : hasTriple '\'' cs = false) (hliteral : ∀ c ∈ cs, IsLiteral c)
    (hrest : rest.head? ≠ some '\'') :
    string? (tripleQuoted '\'' newline cs ++ rest) = some (cs, rest) := by
  have hbreak : newline = false → newline? (cs ++ '\'' :: '\'' :: '\'' :: rest) = none := by
    intro h
    have hmem := hnewline h
    cases cs with
    | nil => rfl
    | cons c cs =>
      rcases hliteral c List.mem_cons_self with rfl | hc
      · exact absurd List.mem_cons_self hmem
      · exact newline?_eq_none hc _
  have htail := literalLinesTail?_append cs (by decide : 0 ≤ 2) htriple hliteral hrest
    (by rw [List.length_append, List.length_append]; omega :
      0 + cs.length < ((if newline = true then ['\n'] else []) ++
        (cs ++ '\'' :: '\'' :: '\'' :: rest)).length + 1)
  rw [tripleQuoted_append, string?, skipFirstBreak_append hbreak]
  exact htail

theorem not_mem_of_contains (h : cs.contains c = false) : c ∉ cs := by
  intro hc
  rw [List.contains_iff_mem.mpr hc] at h
  exact absurd h (by decide)

/-- **A string is read back, in whichever way it is written.** -/
theorem string?_stringChars (cs : List Char) (hbasic : rest.head? ≠ some '"')
    (hliteral : rest.head? ≠ some '\'') : string? (stringChars cs ++ rest) = some (cs, rest) := by
  have hnewline : cs.contains '\n' = false → '\n' ∉ cs := not_mem_of_contains
  unfold stringChars
  dsimp only
  -- the order in which the ways of writing are tried
  split
  · exact string?_basicQuoted cs hbasic
  split
  · rename_i h
    simp only [Bool.and_eq_true, Bool.not_eq_true'] at h
    obtain ⟨⟨hescapes, hbreaks⟩, hquote⟩ := h
    refine string?_literalQuoted (not_mem_of_contains hquote) ?_ hliteral
    intro c hc
    exact isShown_of_needsEscape hescapes hc fun h => hnewline hbreaks (h ▸ hc)
  split
  · exact string?_tripleQuoted_basic hnewline hbasic
  split
  · rename_i h
    simp only [Bool.and_eq_true, Bool.not_eq_true'] at h
    exact string?_tripleQuoted_literal hnewline h.2 (fun c => isLiteral_of_needsEscape h.1) hliteral
  split
  · exact string?_tripleQuoted_basic (by simp) hbasic
  · exact string?_basicQuoted cs hbasic

/-! ## Keys -/

/-- A bare key is read up to the first character that cannot be part of it. -/
theorem key?_bare (hne : cs ≠ []) (hbare : ∀ x ∈ cs, isBare x = true) (hc : isBare c = false) :
    key? (cs ++ c :: rest) = some (String.ofList cs, c :: rest) := by
  have hnil : cs.isEmpty = false := by simpa using hne
  have hquote : ∀ q more, cs ++ c :: rest = q :: more → isBare q = true := by
    intro q more h
    cases cs with
    | nil => exact absurd rfl hne
    | cons x cs =>
      rw [← (List.cons.inj h).1]
      exact hbare x List.mem_cons_self
  rw [key?, List.takeWhile_append_of_pos hbare, List.dropWhile_append_of_pos hbare,
    List.takeWhile_cons_of_neg (by simp [hc]), List.dropWhile_cons_of_neg (by simp [hc]),
    List.append_nil, hnil, if_neg (by decide)]
  · intro more h
    exact absurd (hquote _ _ h) (by decide)
  · intro more h
    exact absurd (hquote _ _ h) (by decide)

/-- **A key is read back**, with anything behind it that cannot be part of a bare key. -/
theorem key?_keyChars (key : String) (hc : isBare c = false) :
    key? (keyChars key ++ c :: rest) = some (key, c :: rest) := by
  have hbasic : key? (basicQuoted key.toList ++ c :: rest) = some (key, c :: rest) := by
    have htail := basicTail?_escapeLine key.toList (c :: rest)
      (by rw [List.length_append]; omega :
        (escapeLine key.toList).length < (escapeLine key.toList ++ '"' :: c :: rest).length + 1)
    rw [basicQuoted_append, key?, htail, Option.map_some]
    dsimp only
    rw [String.ofList_toList]
  unfold keyChars
  dsimp only
  split
  · rename_i h
    simp only [Bool.and_eq_true, Bool.not_eq_true', List.all_eq_true] at h
    obtain ⟨hne, hbare⟩ := h
    rw [key?_bare (by simpa using hne) hbare hc, String.ofList_toList]
  split
  · exact hbasic
  split
  · rename_i h
    simp only [Bool.and_eq_true, Bool.not_eq_true', Bool.or_eq_false_iff] at h
    obtain ⟨⟨hescapes, hbreaks⟩, hquote⟩ := h
    have hliteral := literalTail?_append (not_mem_of_contains hquote)
      (fun x hx => isShown_of_needsEscape hescapes hx fun h =>
        not_mem_of_contains hbreaks (h ▸ hx)) (c :: rest)
    rw [literalQuoted_append, key?, hliteral, Option.map_some]
    dsimp only
    rw [String.ofList_toList]
  · exact hbasic

end Filtergraph.Toml
