import Filtergraph.Proofs.Numerals
import Filtergraph.Proofs.Quotation

/-!
# Documents line by line

A document is a list of lines: assignments, and headers with a blank line before them. The text of
lines is read back as those lines, as long as values are plain and paths are not too long.

What starts a value or a key is not looked up in the printer. A reader that succeeds tells: on a
blank, a line break, a comment mark or a bracket the readers of scalars and keys fail.
-/

namespace Filtergraph.Toml

variable {c : Char} {cs rest : List Char} {v : Value}

/-! ## Scalars -/

/-- Strings, numbers and truth values. -/
def Value.isScalar : Value → Bool
  | .string _ => true
  | .integer _ => true
  | .float _ => true
  | .boolean _ => true
  | _ => false

theorem Delimited.head?_ne (h : Delimited rest) {q : Char} (hq : q ∉ ['\n', ',', ']']) :
    rest.head? ≠ some q := by
  intro hhead
  cases h <;> exact hq (by rw [← Option.some.inj hhead]; decide)

/-- A string starts with a quote. -/
theorem exists_of_string? {x : List Char × List Char} (h : string? cs = some x) :
    ∃ more, cs = '"' :: more ∨ cs = '\'' :: more := by
  unfold string? at h
  split at h
  · exact ⟨_, .inl rfl⟩
  · exact ⟨_, .inr rfl⟩
  · exact ⟨_, .inl rfl⟩
  · exact ⟨_, .inr rfl⟩
  · exact absurd h (by simp)

/-- **Scalars are read back.** -/
theorem scalar?_chars (h : v.isScalar = true) (hrest : Delimited rest) :
    scalar? (v.chars ++ rest) = some (v, rest) := by
  cases v with
  | string s =>
    have hstring := string?_stringChars s.toList (hrest.head?_ne (by decide))
      (hrest.head?_ne (by decide))
    rw [Value.chars]
    generalize stringChars s.toList ++ rest = text at hstring
    -- a quote is the first thing that is asked for
    have hscalar : scalar? text =
        (string? text).map fun x => (.string (String.ofList x.1), x.2) := by
      obtain ⟨more, rfl | rfl⟩ := exists_of_string? hstring
      · rfl
      · rfl
    rw [hscalar, hstring, Option.map_some]
    dsimp only
    rw [String.ofList_toList]
  | integer i => exact scalar?_integer i hrest
  | float x => exact scalar?_float x hrest
  | boolean b => cases b <;> rfl
  | dateTime d => exact absurd h (by simp [Value.isScalar])
  | array items => exact absurd h (by simp [Value.isScalar])
  | table entries => exact absurd h (by simp [Value.isScalar])

/-- What is skipped between the items of a list, or starts a comment there. -/
def fillers : List Char := [' ', '\t', '\n', '\r', '#']

/-- What no scalar starts with. -/
def nonScalars : List Char := fillers ++ [']', '[', '\x7b']

theorem scalar?_eq_none (hc : c ∈ nonScalars) : scalar? (c :: cs) = none := by
  have hplain : ∀ x ∈ nonScalars, x ∉ ['"', '\'', 't', 'f'] ∧ x.isDigit = false := by
    simp [nonScalars, fillers]
  obtain ⟨hquote, hdigit⟩ := hplain c hc
  -- only a number is left to try, and it needs a digit or a sign
  rw [scalar?_eq_number? hquote (not_startsDate_of_not_digit cs hdigit)]
  simp only [nonScalars, fillers, List.cons_append, List.nil_append, List.mem_cons,
    List.not_mem_nil, or_false] at hc
  rcases hc with rfl | rfl | rfl | rfl | rfl | rfl | rfl | rfl <;> rfl

/-- What was read as a scalar starts with something that a scalar can start with. -/
theorem exists_of_scalar? {x : Value × List Char} (h : scalar? cs = some x) :
    ∃ c more, cs = c :: more ∧ c ∉ nonScalars := by
  cases cs with
  | nil =>
    have hnil : scalar? [] = none := rfl
    rw [hnil] at h
    exact absurd h (by simp)
  | cons c more =>
    refine ⟨c, more, rfl, fun hc => ?_⟩
    rw [scalar?_eq_none hc] at h
    exact absurd h (by simp)

theorem value?_of_scalar? {x : Value × List Char} (h : scalar? cs = some x) (depth : Nat) :
    value? depth cs = some x := by
  obtain ⟨c, more, rfl, hc⟩ := exists_of_scalar? h
  cases depth with
  | zero => exact h
  | succ depth =>
    rw [value?]
    · exact h
    · exact fun _ => cons_ne_of_not_mem hc (by decide)
    · exact fun _ => cons_ne_of_not_mem hc (by decide)

/-! ## Lists of scalars -/

theorem skipBlankLines_append {ws : List Char} (hws : ∀ x ∈ ws, x = ' ' ∨ x = '\n')
    (cs : List Char) : skipBlankLines (ws ++ cs) = skipBlankLines cs := by
  induction ws with
  | nil => rfl
  | cons x ws ih =>
    have hrest := ih fun y hy => hws y (List.mem_cons_of_mem _ hy)
    rcases hws x List.mem_cons_self with rfl | rfl
    · rw [List.cons_append, skipBlankLines, if_pos (by decide), hrest]
      intro more h
      exact absurd h (by decide)
    · rw [List.cons_append, skipBlankLines, if_pos (by decide), hrest]
      intro more h
      exact absurd h (by decide)

/-- Blanks and line breaks in front of anything else are dropped. -/
theorem skipFiller_append {ws : List Char} (hws : ∀ x ∈ ws, x = ' ' ∨ x = '\n')
    (hc : c ∉ fillers) (fuel : Nat) : skipFiller (fuel + 1) (ws ++ c :: cs) = c :: cs := by
  have hblank : skipBlankLines (c :: cs) = c :: cs := by
    rw [skipBlankLines, if_neg]
    · simp only [isSpace, Bool.or_eq_true, beq_iff_eq, not_or]
      exact ⟨⟨fun h => hc (by rw [h]; decide), fun h => hc (by rw [h]; decide)⟩,
        fun h => hc (by rw [h]; decide)⟩
    · intro more h _
      exact hc (by rw [h]; decide)
  rw [skipFiller, skipBlankLines_append hws, hblank]
  -- nothing is skipped any more, so there is no comment to go on with
  split
  · rename_i heq
    exact absurd heq (cons_ne_of_not_mem hc (by decide))
  · rfl

theorem skipFiller_cons (hc : c ∉ fillers) (fuel : Nat) :
    skipFiller (fuel + 1) (c :: cs) = c :: cs :=
  skipFiller_append (List.forall_mem_nil _) hc fuel

section Lists

variable {items : List Value} {depth fuel : Nat} {ws text more : List Char}

theorem listTail?_end (hws : ∀ x ∈ ws, x = ' ' ∨ x = '\n') (rest : List Char) :
    listTail? (value? depth) (fuel + 1) (ws ++ ']' :: rest) = some ([], rest) := by
  rw [listTail?, skipFiller_append hws (by decide)]
  rfl

/-- An item is read, and then what stands behind it decides. -/
theorem listTail?_item (hws : ∀ x ∈ ws, x = ' ' ∨ x = '\n') (h : scalar? text = some (v, rest)) :
    listTail? (value? depth) (fuel + 1) (ws ++ text) =
      match skipFiller (rest.length + 1) rest with
      | ',' :: rest => do
        let (vs, rest) ← listTail? (value? depth) fuel rest
        return (v :: vs, rest)
      | ']' :: rest => return ([v], rest)
      | _ => none := by
  obtain ⟨c, more, rfl, hc⟩ := exists_of_scalar? h
  rw [listTail?, skipFiller_append hws fun hmem => hc (List.mem_append_left _ hmem)]
  -- a bracket would end the list, but no scalar starts with one
  split
  · rename_i heq
    exact absurd heq (cons_ne_of_not_mem hc (by decide))
  · rw [value?_of_scalar? h]
    rfl

/-- Behind a comma the list goes on. -/
theorem listTail?_comma {vs : List Value} (hws : ∀ x ∈ ws, x = ' ' ∨ x = '\n')
    (h : scalar? text = some (v, ',' :: more))
    (hmore : listTail? (value? depth) fuel more = some (vs, rest)) :
    listTail? (value? depth) (fuel + 1) (ws ++ text) = some (v :: vs, rest) := by
  rw [listTail?_item hws h, skipFiller_cons (by decide)]
  simp only [hmore, Option.bind_eq_bind, Option.bind_some, Option.pure_def]

theorem listTail?_last (h : scalar? text = some (v, ']' :: rest)) :
    listTail? (value? depth) (fuel + 1) text = some ([v], rest) := by
  rw [← List.nil_append text, listTail?_item (List.forall_mem_nil _) h, skipFiller_cons (by decide)]
  rfl

/-- The items of a list that has one on each line. -/
theorem listTail?_spread (hitems : ∀ v ∈ items, v.isScalar = true) (hfuel : items.length < fuel) :
    listTail? (value? depth) fuel
      (items.flatMap (fun v => "\n    ".toList ++ v.chars ++ [',']) ++ '\n' :: ']' :: rest) =
        some (items, rest) := by
  have hindent : ∀ x ∈ "\n    ".toList, x = ' ' ∨ x = '\n' := by simp
  induction items generalizing fuel with
  | nil =>
    obtain ⟨k, rfl⟩ : ∃ k, fuel = k + 1 := ⟨fuel - 1, by omega⟩
    exact listTail?_end (List.forall_mem_singleton.mpr (.inr rfl)) rest
  | cons v items ih =>
    rw [List.length_cons] at hfuel
    obtain ⟨k, rfl⟩ : ∃ k, fuel = k + 1 := ⟨fuel - 1, by omega⟩
    have hv := hitems v List.mem_cons_self
    have hlength : items.length < k := by omega
    have hrest := ih (fun x hx => hitems x (List.mem_cons_of_mem _ hx)) hlength
    rw [List.flatMap_cons, List.append_assoc, List.append_assoc, List.append_assoc]
    exact listTail?_comma hindent (scalar?_chars hv (.comma _)) hrest

theorem itemsChars_eq_map (items : List Value) : itemsChars items = items.map Value.chars := by
  induction items with
  | nil => rfl
  | cons v items ih => rw [itemsChars, ih, List.map_cons]

theorem length_le_flatMap {α : Type} {f : α → List Char} (hf : ∀ x, 0 < (f x).length) (l : List α) :
    l.length ≤ (l.flatMap f).length := by
  induction l with
  | nil => exact Nat.zero_le _
  | cons x l ih =>
    have hx := hf x
    rw [List.flatMap_cons, List.length_append, List.length_cons]
    omega

theorem spread_append (items : List Value) (rest : List Char) :
    spread (items.map Value.chars) ++ rest = '[' ::
      (items.flatMap (fun v => "\n    ".toList ++ v.chars ++ [',']) ++ '\n' :: ']' :: rest) := by
  simp [spread, List.flatMap_map]

/-- **Lists of scalars are read back.** -/
theorem value?_list (hitems : ∀ v ∈ items, v.isScalar = true) (rest : List Char) :
    value? (depth + 1) ((Value.array items).chars ++ rest) = some (.array items, rest) := by
  have hopen : ∀ more vs, listTail? (value? depth) (more.length + 1) more = some (vs, rest) →
      value? (depth + 1) ('[' :: more) = some (.array vs, rest) := by
    intro more vs h
    show (listTail? (value? depth) (more.length + 1) more).map _ = _
    rw [h]
    rfl
  rw [Value.chars, itemsChars_eq_map]
  -- no item and one item stand on the line, more are spread over lines
  cases items with
  | nil => exact hopen _ _ (listTail?_end (List.forall_mem_nil _) rest)
  | cons v items =>
    cases items with
    | nil =>
      have hv := scalar?_chars (hitems v List.mem_cons_self) (.bracket rest)
      show value? (depth + 1) ('[' :: (v.chars ++ [']'] ++ rest)) = _
      rw [List.append_assoc]
      exact hopen _ _ (listTail?_last hv)
    | cons w items =>
      show value? (depth + 1) (spread ((v :: w :: items).map Value.chars) ++ rest) = _
      rw [spread_append]
      refine hopen _ _ (listTail?_spread hitems ?_)
      have hlength := length_le_flatMap (f := fun v => "\n    ".toList ++ v.chars ++ [','])
        (fun v => by simp) (v :: w :: items)
      rw [List.length_append]
      omega

end Lists

/-- A scalar, or a list of scalars. -/
inductive Value.IsPlain : Value → Prop where
  | scalar {v : Value} (h : v.isScalar = true) : IsPlain v
  | list {items : List Value} (h : ∀ v ∈ items, v.isScalar = true) : IsPlain (.array items)

/-- **Plain values are read back.** -/
theorem value?_chars (h : v.IsPlain) (hrest : Delimited rest) (depth : Nat) :
    value? (depth + 1) (v.chars ++ rest) = some (v, rest) := by
  cases h with
  | scalar h => exact value?_of_scalar? (scalar?_chars h hrest) _
  | list h => exact value?_list h rest

/-- A plain value starts with something that is not skipped. -/
theorem Value.IsPlain.exists_cons (h : v.IsPlain) (hrest : Delimited rest) :
    ∃ c more, v.chars ++ rest = c :: more ∧ c ∉ fillers := by
  cases h with
  | scalar h =>
    obtain ⟨c, more, hcons, hc⟩ := exists_of_scalar? (scalar?_chars h hrest)
    exact ⟨c, more, hcons, fun hmem => hc (List.mem_append_left _ hmem)⟩
  | @list items h =>
    rw [Value.chars, itemsChars_eq_map]
    cases items with
    | nil => exact ⟨_, _, rfl, by decide⟩
    | cons v items =>
      cases items with
      | nil => exact ⟨_, _, rfl, by decide⟩
      | cons w items => exact ⟨_, _, rfl, by decide⟩

/-! ## Keys -/

/-- A key starts with a quote or with what bare keys are made of. -/
theorem exists_of_key? {x : String × List Char} (h : key? cs = some x) :
    ∃ c more, cs = c :: more ∧ (c = '"' ∨ c = '\'' ∨ isBare c = true) := by
  unfold key? at h
  split at h
  · exact ⟨_, _, rfl, .inl rfl⟩
  · exact ⟨_, _, rfl, .inr (.inl rfl)⟩
  · -- a bare key has at least one character
    cases cs with
    | nil => exact absurd h (by simp)
    | cons c more =>
      refine ⟨c, more, rfl, .inr (.inr ?_)⟩
      by_contra hbare
      rw [List.takeWhile_cons_of_neg hbare] at h
      exact absurd h (by simp)

theorem skipSpaces_of_not_mem (hc : c ∉ fillers) : skipSpaces (c :: cs) = c :: cs := by
  have hspace : isSpace c ≠ true := by
    intro h
    rcases Bool.or_eq_true_iff.mp h with h | h
    · exact hc (by rw [beq_iff_eq.mp h]; decide)
    · exact hc (by rw [beq_iff_eq.mp h]; decide)
  exact List.dropWhile_cons_of_neg hspace

/-- What no key starts with. -/
def nonKeys : List Char := fillers ++ ['[', '\ufeff']

/-- What keys start with is neither skipped nor the start of a header. -/
theorem not_mem_of_key (h : c = '"' ∨ c = '\'' ∨ isBare c = true) : c ∉ nonKeys := by
  have hall : ∀ x ∈ nonKeys, ¬ (x = '"' ∨ x = '\'' ∨ isBare x = true) := by
    simp [nonKeys, fillers, isBare]
  intro hc
  exact hall c hc h

/-- A key, and then what stands behind it decides. -/
theorem keyParts?_key (key : String) (hc : isBare c = false) (fuel : Nat) :
    keyParts? (fuel + 1) (keyChars key ++ c :: rest) =
      match skipSpaces (c :: rest) with
      | '.' :: more => do
        let (keys, rest) ← keyParts? fuel more
        return (key :: keys, rest)
      | rest => return ([key], rest) := by
  have hkey : key? (keyChars key ++ c :: rest) = some (key, c :: rest) := key?_keyChars key hc
  obtain ⟨d, more, hcons, hd⟩ := exists_of_key? hkey
  have hskip : skipSpaces (keyChars key ++ c :: rest) = keyChars key ++ c :: rest := by
    rw [hcons]
    exact skipSpaces_of_not_mem fun hmem => not_mem_of_key hd (List.mem_append_left _ hmem)
  rw [keyParts?, hskip, hkey]
  rfl

/-- The keys of a path are read back, up to what ends it. -/
theorem keyParts?_pathChars {path : List String} (hpath : path ≠ []) (hc : isBare c = false)
    (hnext : (skipSpaces (c :: rest)).head? ≠ some '.') {fuel : Nat} (hfuel : path.length ≤ fuel) :
    keyParts? fuel (pathChars path ++ c :: rest) = some (path, skipSpaces (c :: rest)) := by
  induction path generalizing fuel with
  | nil => exact absurd rfl hpath
  | cons key path ih =>
    rw [List.length_cons] at hfuel
    obtain ⟨k, rfl⟩ : ∃ k, fuel = k + 1 := ⟨fuel - 1, by omega⟩
    -- the last key is followed by what ends the path, any other by a dot
    cases path with
    | nil =>
      rw [pathChars, keyParts?_key key hc]
      split
      · rename_i heq
        rw [heq] at hnext
        exact absurd rfl hnext
      · rfl
    | cons key' path =>
      have hrest := ih (List.cons_ne_nil _ _) (by omega : (key' :: path).length ≤ k)
      have hchars : pathChars (key :: key' :: path) =
          keyChars key ++ '.' :: pathChars (key' :: path) := by
        rw [pathChars]
        exact List.cons_ne_nil _ _
      rw [hchars, List.append_assoc, List.cons_append, keyParts?_key key (by decide),
        skipSpaces_of_not_mem (by decide)]
      simp only [hrest, Option.bind_eq_bind, Option.bind_some, Option.pure_def]

/-- A path has no more keys than characters, so reading it does not run out. -/
theorem length_le_pathChars (path : List String) : path.length ≤ (pathChars path).length + 1 := by
  induction path with
  | nil => exact Nat.zero_le _
  | cons key path ih =>
    cases path with
    | nil => simp
    | cons key' path =>
      rw [pathChars]
      · simp only [List.length_append, List.length_cons] at ih ⊢
        omega
      · exact List.cons_ne_nil _ _

/-- A path that is not empty and not too long. -/
structure ShortPath (path : List String) : Prop where
  nonempty : path ≠ []
  short : path.length < depthLimit

theorem path?_pathChars {path : List String} (h : ShortPath path) (hc : isBare c = false)
    (hnext : (skipSpaces (c :: rest)).head? ≠ some '.') :
    path? (pathChars path ++ c :: rest) = some (path, skipSpaces (c :: rest)) := by
  have hlength := length_le_pathChars path
  unfold path?
  rw [keyParts?_pathChars h.nonempty hc hnext (by rw [List.length_append]; omega),
    Option.filter_some,
    if_pos (decide_eq_true h.short)]

/-! ## Lines -/

/-- The text of a line; a header has a blank line before it. -/
def Line.chars : Line → List Char
  | .assign path v => pathChars path ++ (" = ".toList ++ (v.chars ++ ['\n']))
  | .table path => tableHeader path
  | .item path => itemHeader path

/-- A line with a short path and a plain value. -/
def Line.IsShort : Line → Prop
  | .assign path v => ShortPath path ∧ v.IsPlain
  | .table path => ShortPath path
  | .item path => ShortPath path

theorem exists_pathChars_cons {path : List String} (hpath : path ≠ []) (hc : isBare c = false)
    (rest : List Char) :
    ∃ d more, pathChars path ++ c :: rest = d :: more ∧ d ∉ nonKeys := by
  cases path with
  | nil => exact absurd rfl hpath
  | cons key path =>
    -- something that cannot be part of a bare key stands behind the first key
    obtain ⟨x, tail, htext, hx⟩ : ∃ x tail,
        pathChars (key :: path) ++ c :: rest = keyChars key ++ x :: tail ∧ isBare x = false := by
      cases path with
      | nil => exact ⟨c, rest, rfl, hc⟩
      | cons key' path =>
        refine ⟨'.', pathChars (key' :: path) ++ c :: rest, ?_, by decide⟩
        rw [pathChars, List.append_assoc]
        · rfl
        · exact List.cons_ne_nil _ _
    obtain ⟨d, more, hcons, hd⟩ := exists_of_key? (key?_keyChars key hx)
    exact ⟨d, more, htext.trans hcons, not_mem_of_key hd⟩

theorem chars_assign_append (path : List String) (v : Value) (text : List Char) :
    (Line.assign path v).chars ++ text =
      pathChars path ++ ' ' :: '=' :: ' ' :: (v.chars ++ '\n' :: text) := by
  simp [Line.chars]

theorem exists_assign_cons {path : List String} (hpath : ShortPath path) (v : Value)
    (text : List Char) :
    ∃ d more, (Line.assign path v).chars ++ text = d :: more ∧ d ∉ nonKeys := by
  rw [chars_assign_append]
  exact exists_pathChars_cons hpath.nonempty (by decide) _

/-- An assignment is read back, up to the end of its line. -/
theorem assignment?_chars {path : List String} (hpath : ShortPath path) (hv : v.IsPlain)
    (depth : Nat) (text : List Char) :
    assignment? (value? (depth + 1))
        (pathChars path ++ ' ' :: '=' :: ' ' :: (v.chars ++ '\n' :: text))
      = some ((path, v), '\n' :: text) := by
  have hvalue := value?_chars hv (.newline text) depth
  obtain ⟨c, more, hcons, hc⟩ := hv.exists_cons (.newline text)
  have hskip : skipSpaces (' ' :: (v.chars ++ '\n' :: text)) = v.chars ++ '\n' :: text := by
    show skipSpaces (v.chars ++ '\n' :: text) = _
    rw [hcons]
    exact skipSpaces_of_not_mem hc
  have hequals : skipSpaces (' ' :: '=' :: ' ' :: (v.chars ++ '\n' :: text)) =
      '=' :: ' ' :: (v.chars ++ '\n' :: text) := rfl
  have hread := path?_pathChars (c := ' ') hpath (by decide) (by rw [hequals]; simp)
  have hexpect : ∀ rest, expect? '=' ('=' :: rest) = some rest := fun _ => rfl
  unfold assignment?
  simp only [hread, hequals, hexpect, hskip, hvalue, Option.bind_eq_bind, Option.bind_some,
    Option.pure_def]

theorem line?_assign {path : List String} (hpath : ShortPath path) (hv : v.IsPlain)
    (text : List Char) :
    line? ((Line.assign path v).chars ++ text) = some (.assign path v, text) := by
  have hassign := assignment?_chars hpath hv 78 text
  obtain ⟨d, more, hcons, hd⟩ := exists_assign_cons hpath v text
  rw [← chars_assign_append, hcons] at hassign
  rw [hcons]
  unfold line?
  -- it is no header, as keys do not start with a bracket
  split
  · rename_i heq
    exact absurd heq (cons_ne_of_not_mem hd (by decide))
  · show ((assignment? (value? 79) (d :: more)).map _ >>= _) = _
    rw [hassign]
    rfl

theorem path?_bracket {path : List String} (hpath : ShortPath path) (text : List Char) :
    path? (pathChars path ++ ']' :: text) = some (path, ']' :: text) :=
  path?_pathChars hpath (by decide) (by simp [skipSpaces, isSpace])

theorem line?_header {l : Line} {text : List Char} (h : header? cs = some (l, '\n' :: text)) :
    line? ('[' :: cs) = some (l, text) := by
  have hend : lineEnd? ('\n' :: text) = some text := rfl
  unfold line?
  simp only [h, hend, Option.bind_eq_bind, Option.bind_some, Option.pure_def]

theorem line?_table {path : List String} (hpath : ShortPath path) (text : List Char) :
    line? ('[' :: (pathChars path ++ ']' :: '\n' :: text)) = some (.table path, text) := by
  obtain ⟨d, more, hcons, hd⟩ := exists_pathChars_cons hpath.nonempty
    (by decide : isBare ']' = false) ('\n' :: text)
  apply line?_header
  rw [header?, path?_bracket hpath]
  · rfl
  · -- a second bracket would have made it the header of an array
    intro rest
    rw [hcons]
    exact cons_ne_of_not_mem hd (by decide)

theorem line?_item {path : List String} (hpath : ShortPath path) (text : List Char) :
    line? ('[' :: '[' :: (pathChars path ++ ']' :: ']' :: '\n' :: text)) =
      some (.item path, text) := by
  apply line?_header
  rw [header?, path?_bracket hpath]
  rfl

/-- A line that starts with neither a blank, a comment nor a line break. -/
theorem lines?_line {l : Line} {ls : List Line} {text : List Char} (hc : c ∉ fillers)
    (hline : line? (c :: cs) = some (l, text)) {fuel : Nat} (hrest : lines? fuel text = some ls) :
    lines? (fuel + 1) (c :: cs) = some (l :: ls) := by
  have hnewline : newline? (c :: cs) = none := by
    rw [newline?]
    · exact fun _ => cons_ne_of_not_mem hc (by decide)
    · exact fun _ => cons_ne_of_not_mem hc (by decide)
  rw [lines?, skipSpaces_of_not_mem hc]
  split
  · rename_i heq
    exact absurd heq (List.cons_ne_nil _ _)
  · rename_i heq
    exact absurd heq (cons_ne_of_not_mem hc (by decide))
  · simp only [hnewline, hline, hrest, Option.bind_eq_bind, Option.bind_some, Option.pure_def]

theorem lines?_newline (fuel : Nat) (text : List Char) :
    lines? (fuel + 1) ('\n' :: text) = lines? fuel text := rfl

/-- One line more, if the rest can be read with whatever is left to count down. -/
theorem lines?_cons {l : Line} {ls : List Line} {text : List Char} (hl : l.IsShort)
    (hrest : ∀ k, text.length < k → lines? k text = some ls) {fuel : Nat}
    (hfuel : (l.chars ++ text).length < fuel) :
    lines? fuel (l.chars ++ text) = some (l :: ls) := by
  obtain ⟨k, rfl⟩ : ∃ k, fuel = k + 1 := ⟨fuel - 1, by omega⟩
  -- headers have a blank line before them, which counts as one step more
  cases l with
  | assign path v =>
    have hline := line?_assign hl.1 hl.2 text
    obtain ⟨d, more, hcons, hd⟩ := exists_assign_cons hl.1 v text
    have hlength : text.length < k := by
      simp only [chars_assign_append, List.length_append, List.length_cons] at hfuel
      omega
    rw [hcons] at hline ⊢
    exact lines?_line (fun hmem => hd (List.mem_append_left _ hmem)) hline (hrest k hlength)
  | table path =>
    have hchars : (Line.table path).chars ++ text =
        '\n' :: '[' :: (pathChars path ++ ']' :: '\n' :: text) := by
      simp [Line.chars, tableHeader]
    simp only [hchars, List.length_append, List.length_cons] at hfuel
    obtain ⟨j, rfl⟩ : ∃ j, k = j + 1 := ⟨k - 1, by omega⟩
    rw [hchars, lines?_newline]
    exact lines?_line (by decide) (line?_table hl text) (hrest j (by omega))
  | item path =>
    have hchars : (Line.item path).chars ++ text =
        '\n' :: '[' :: '[' :: (pathChars path ++ ']' :: ']' :: '\n' :: text) := by
      simp [Line.chars, itemHeader]
    simp only [hchars, List.length_append, List.length_cons] at hfuel
    obtain ⟨j, rfl⟩ : ∃ j, k = j + 1 := ⟨k - 1, by omega⟩
    rw [hchars, lines?_newline]
    exact lines?_line (by decide) (line?_item hl text) (hrest j (by omega))

/-- **The text of lines is read back as those lines.** -/
theorem lines?_chars {ls : List Line} (h : ∀ l ∈ ls, l.IsShort) :
    ∀ k, (ls.flatMap Line.chars).length < k → lines? k (ls.flatMap Line.chars) = some ls := by
  induction ls with
  | nil =>
    intro fuel hfuel
    obtain ⟨k, rfl⟩ : ∃ k, fuel = k + 1 := ⟨fuel - 1, by omega⟩
    rfl
  | cons l ls ih =>
    intro fuel hfuel
    exact lines?_cons (h l List.mem_cons_self)
      (ih fun x hx => h x (List.mem_cons_of_mem _ hx)) hfuel

/-- No line starts with a byte order mark. -/
theorem skipMark_chars {ls : List Line} (h : ∀ l ∈ ls, l.IsShort) :
    skipMark (ls.flatMap Line.chars) = ls.flatMap Line.chars := by
  cases ls with
  | nil => rfl
  | cons l ls =>
    rw [List.flatMap_cons]
    -- headers start with a line break
    cases l with
    | table path => rfl
    | item path => rfl
    | assign path v =>
      have hl := h _ List.mem_cons_self
      obtain ⟨d, more, hcons, hd⟩ := exists_assign_cons hl.1 v (ls.flatMap Line.chars)
      rw [hcons, skipMark]
      exact fun _ => cons_ne_of_not_mem hd (by decide)

end Filtergraph.Toml
