import Filtergraph.Proofs.Inputs

/-!
# Finding the filter graph in a command

A command is a flat list of words. The filter graph is looked up behind the first word that
equals its flag, but the list also has words that the caller chose: the paths of the media files
in front of it, and the options and the destination behind it.

The words that are written by the program itself cannot be mistaken for the flag, and neither can
the destination, since nothing follows it. So two things decide whether the look-up finds what
was written. A media file whose path is the flag always leads it astray: what follows the path is
another flag, and a filter graph starts with a bracket. An option that is the flag does so only
if there is no filter graph, since it comes after it.
-/

namespace Filtergraph

open Filtergraph.Graph

/-- The word in front of the filter graph. -/
def Command.filterFlag : String := "-filter_complex"

/-- The text of the filter graph, if there is one. -/
def Program.expression? (p : Program) : Option String :=
  if p.statements.isEmpty then none else some (expressionText p.statements)

/-! ## Words without a hyphen -/

section Hyphens

variable {c : Char} {n width : Nat}

theorem not_mem_digitsOf (hc : c.isDigit = false) : c ∉ digitsOf n := by
  intro h
  rw [digit_of_mem_digitsOf h] at hc
  exact absurd hc (by simp)

theorem hyphen_not_mem_padded : '-' ∉ padded width n := by
  intro h
  rcases List.mem_append.mp h with hzero | hdigit
  · exact absurd (List.eq_of_mem_replicate hzero) (by decide)
  · exact not_mem_digitsOf (by decide) hdigit

theorem Duration.hyphen_not_mem_clock (d : Duration) : '-' ∉ d.clock.toList := by
  rw [Duration.clock, String.toList_ofList]
  simp [hyphen_not_mem_padded]

theorem Stream.hyphen_not_mem_text (stream : Stream) : '-' ∉ stream.text.toList := by
  cases stream with
  | number n =>
    rw [Stream.text, toList_natText]
    exact not_mem_digitsOf (by decide)
  | audio => decide
  | video => decide

/-- Labels are made of digits, letters, brackets, colons and underscores. -/
theorem Label.hyphen_not_mem_argument (l : Label) : '-' ∉ l.argument.toList := by
  have hdigits : ∀ n, '-' ∉ digitsOf n := fun n => not_mem_digitsOf (by decide)
  cases l with
  | input position stream =>
    rw [Label.argument, toList_input]
    simp [hdigits, stream.hyphen_not_mem_text]
  | output x =>
    show '-' ∉ (Label.output x).bracketed.toList
    simp [Label.bracketed, toList_output, hdigits]
  | port x k =>
    show '-' ∉ (Label.port x k).bracketed.toList
    simp [Label.bracketed, toList_port, hdigits]

theorem ne_filterFlag {word : String} (h : '-' ∉ word.toList) : word ≠ Command.filterFlag := by
  rintro rfl
  exact h (by decide)

end Hyphens

/-! ## Looking up a flag -/

namespace Command

variable {flag : String} {front rest : List String}

/-- Words that are not the flag are passed over. -/
theorem valueOf?_append (h : flag ∉ front) :
    valueOf? flag (front ++ rest) = valueOf? flag rest := by
  induction front with
  | nil => rfl
  | cons word front ih =>
    rw [List.mem_cons, not_or] at h
    rw [List.cons_append, valueOf?, if_neg (Ne.symm h.1), ih h.2]

theorem valueOf?_of_first (h : flag ∉ front) :
    valueOf? flag (front ++ flag :: rest) = rest.head? := by
  rw [valueOf?_append h, valueOf?, if_pos rfl]

end Command

/-! ## The words of a media file -/

namespace Source

/-- The words in front of the path. -/
def opening (s : Source) : List String :=
  (if s.looped then ["-stream_loop", "-1"] else [])
    ++ timeFlag "-t" s.duration ++ timeFlag "-ss" s.offset ++ ["-i"]

theorem flags_eq (s : Source) : s.flags = s.opening ++ [s.path] := by
  simp [flags, opening]

theorem filterFlag_not_mem_timeFlag (flag : String) (hflag : flag ≠ Command.filterFlag)
    (d : Option Duration) : Command.filterFlag ∉ timeFlag flag d := by
  cases d with
  | none => simp [timeFlag]
  | some d =>
    have hclock := ne_filterFlag d.hyphen_not_mem_clock
    simp [timeFlag, hflag.symm, hclock.symm]

/-- In front of its path, a media file has no word that could be taken for the flag. -/
theorem filterFlag_not_mem_opening (s : Source) : Command.filterFlag ∉ s.opening := by
  have ht := filterFlag_not_mem_timeFlag "-t" (by decide) s.duration
  have hss := filterFlag_not_mem_timeFlag "-ss" (by decide) s.offset
  have hlooped : Command.filterFlag ∉ if s.looped then ["-stream_loop", "-1"] else [] := by
    split
    · decide
    · simp
  have hi : Command.filterFlag ∉ ["-i"] := by decide
  simp only [opening, List.mem_append, not_or]
  exact ⟨⟨⟨hlooped, ht⟩, hss⟩, hi⟩

/-- The words of a media file start with a flag. -/
theorem head?_flags (s : Source) :
    ∃ word rest, s.flags = word :: rest ∧ word.toList.head? = some '-' := by
  unfold flags
  cases s.looped with
  | true => exact ⟨_, _, rfl, rfl⟩
  | false =>
    cases s.duration with
    | some d => exact ⟨_, _, rfl, rfl⟩
    | none =>
      cases s.offset with
      | some d => exact ⟨_, _, rfl, rfl⟩
      | none => exact ⟨_, _, rfl, rfl⟩

variable {files : List Source} {rest : List String}

/-- Media files with other paths are passed over. -/
theorem valueOf?_flags (h : ∀ f ∈ files, f.path ≠ Command.filterFlag) :
    Command.valueOf? Command.filterFlag (files.flatMap flags ++ rest) =
      Command.valueOf? Command.filterFlag rest := by
  refine Command.valueOf?_append fun hmem => ?_
  obtain ⟨f, hf, hword⟩ := List.mem_flatMap.mp hmem
  rw [flags_eq, List.mem_append, List.mem_singleton] at hword
  rcases hword with hopening | hpath
  · exact f.filterFlag_not_mem_opening hopening
  · exact h f hf hpath.symm

/-- The first media file whose path is the flag stops the look-up, and the word behind its path
is taken. -/
theorem valueOf?_flags_of_path (h : ∃ f ∈ files, f.path = Command.filterFlag) :
    ∃ later : List Source, Command.valueOf? Command.filterFlag (files.flatMap flags ++ rest) =
      (later.flatMap flags ++ rest).head? := by
  induction files with
  | nil => exact absurd h (by simp)
  | cons f files ih =>
    rw [List.flatMap_cons, List.append_assoc, flags_eq, List.append_assoc]
    -- the look-up ends at this file, or goes on with the next
    by_cases hf : f.path = Command.filterFlag
    · refine ⟨files, ?_⟩
      rw [hf]
      exact Command.valueOf?_of_first f.filterFlag_not_mem_opening
    · obtain ⟨later, hlater⟩ := ih (by simpa [hf] using h)
      refine ⟨later, ?_⟩
      rw [Command.valueOf?_append f.filterFlag_not_mem_opening, List.singleton_append,
        Command.valueOf?, if_neg hf, hlater]

end Source

/-! ## The words behind the media files -/

section Tail

variable {statements : List Statement} {targets : List Label} {options : List String}
  {destination : String}

theorem filterFlag_not_mem_mappingArgs (targets : List Label) :
    Command.filterFlag ∉ mappingArgs targets := by
  intro h
  obtain ⟨l, _, hword⟩ := List.mem_flatMap.mp h
  rcases List.mem_pair.mp hword with hmap | hlabel
  · exact absurd hmap (by decide)
  · exact ne_filterFlag l.hyphen_not_mem_argument hlabel.symm

/-- A filter graph that was written is found if the look-up gets to it. -/
theorem valueOf?_filterArgs (h : statements ≠ []) (rest : List String) :
    Command.valueOf? Command.filterFlag (filterArgs statements ++ rest) =
      some (expressionText statements) := by
  rw [filterArgs, if_neg (by simpa using h)]
  rfl

/-- Without a filter graph, what an option may have to say is found. The destination is the last
word and has nothing behind it. -/
theorem valueOf?_tail :
    Command.valueOf? Command.filterFlag (mappingArgs targets ++ (options ++ [destination])) = none ↔
      Command.filterFlag ∉ options := by
  rw [Command.valueOf?_append (filterFlag_not_mem_mappingArgs targets)]
  -- an option has at least the destination behind it
  constructor
  · intro hnone hmem
    obtain ⟨front, back, rfl, hfront⟩ := List.eq_append_cons_of_mem hmem
    rw [List.append_assoc, List.cons_append, Command.valueOf?_of_first hfront] at hnone
    exact absurd hnone (by simp)
  · intro hnot
    rw [Command.valueOf?_append hnot, Command.valueOf?]
    split
    · rfl
    · rfl

end Tail

/-! ## Filter graphs start with a bracket -/

theorem Label.toList_bracketed (l : Label) : ∃ cs, l.bracketed.toList = '[' :: cs :=
  ⟨l.text.toList ++ [']'], by simp [Label.bracketed]⟩

theorem Statement.toList_text {st : Statement} (h : st.inputs ≠ []) :
    ∃ cs, st.text.toList = '[' :: cs := by
  obtain ⟨l, ls, hl⟩ := List.exists_cons_of_ne_nil h
  obtain ⟨cs, hcs⟩ := l.toList_bracketed
  simp [Statement.text, hl, hcs]

/-- The text of statements starts with the first label that they read. -/
theorem toList_expressionText {st : Statement} (h : st.inputs ≠ [])
    (statements : List Statement) :
    ∃ cs, (expressionText (st :: statements)).toList = '[' :: cs := by
  obtain ⟨cs, hcs⟩ := st.toList_text h
  cases statements with
  | nil => simp [expressionText, hcs]
  | cons st' rest =>
    simp [expressionText, String.toList_intercalate, hcs]

theorem Filter.arity_pos (f : Filter) : 0 < f.arity := by
  cases f <;> exact Nat.succ_pos _

/-- Every operation reads something. -/
theorem Graph.WellFormed.inputs_ne_nil {g : Graph} (h : g.WellFormed) {x : NodeId}
    (hx : g.isOperation x = true) : g.inputs x ≠ [] := by
  obtain ⟨⟨kind, es⟩, hn, hop⟩ := node?_of_isOperation hx
  have hshape := (h x _ hn).shape
  rw [inputs_of_node? hn]
  rintro rfl
  cases kind with
  | filter f gate => exact absurd hshape.1 f.arity_pos.ne
  | split fanOut =>
    obtain ⟨_, e, he, _⟩ := hshape
    exact absurd he (by simp)
  | merge => exact absurd (show 2 ≤ 0 from hshape) (by decide)
  | source s => exact absurd hop (by simp [Kind.isOperation])
  | selector s => exact absurd hop (by simp [Kind.isOperation])

theorem Program.Renders.inputs_ne_nil {p : Program} {g : Graph} (hwf : g.WellFormed)
    {x : NodeId} {st : Statement} (h : p.Renders g x st) : st.inputs ≠ [] := by
  obtain ⟨ops, c, hhead, _, hops, _, _, hlabels⟩ := h.chain
  have hne := hwf.inputs_ne_nil (hops c (List.mem_of_head? hhead))
  rintro hnil
  rw [hnil] at hlabels
  exact hne (List.forall₂_nil_right_iff.mp hlabels)

/-! ## The whole command -/

section Whole

variable {files : List Source} {p : Program} {options : List String} {destination : String}

/-- Behind the path of a media file there is the flag of the next one, or that of the filter
graph. -/
theorem head?_behind_path (later : List Source) {statements : List Statement}
    (h : statements ≠ []) (rest : List String) :
    ∃ word, (later.flatMap Source.flags ++ (filterArgs statements ++ rest)).head? = some word ∧
      word.toList.head? = some '-' := by
  cases later with
  | nil =>
    rw [filterArgs, if_neg (by simpa using h)]
    exact ⟨_, rfl, rfl⟩
  | cons f later =>
    obtain ⟨word, words, hflags, hword⟩ := f.head?_flags
    rw [List.flatMap_cons, hflags]
    exact ⟨word, rfl, hword⟩

/-- **When the look-up finds what was written.** -/
theorem valueOf?_eq_expression?_iff (hst : ∀ st ∈ p.statements, st.inputs ≠ []) :
    Command.valueOf? Command.filterFlag (files.flatMap Source.flags ++ filterArgs p.statements
        ++ mappingArgs p.targets ++ options ++ [destination]) = p.expression? ↔
      (∀ f ∈ files, f.path ≠ Command.filterFlag) ∧
        (p.statements = [] → Command.filterFlag ∉ options) := by
  rw [List.append_assoc, List.append_assoc, List.append_assoc]
  by_cases hpath : ∀ f ∈ files, f.path ≠ Command.filterFlag
  · rw [Source.valueOf?_flags hpath, and_iff_right hpath, Program.expression?]
    -- what was written is looked up first, and without it the options are
    cases hp : p.statements with
    | nil => simp [filterArgs, valueOf?_tail]
    | cons st statements => simp [valueOf?_filterArgs]
  · -- the look-up ends at the path of a media file
    refine iff_of_false (fun heq => ?_) fun h => hpath h.1
    push Not at hpath
    obtain ⟨later, hlater⟩ := Source.valueOf?_flags_of_path hpath
    rw [hlater, Program.expression?] at heq
    cases hp : p.statements with
    | nil => simp [hp] at heq
    | cons st statements =>
      obtain ⟨cs, hcs⟩ := toList_expressionText
        (hst st (by rw [hp]; exact List.mem_cons_self)) statements
      obtain ⟨word, hword, hhyphen⟩ := head?_behind_path later (List.cons_ne_nil st statements)
        (mappingArgs p.targets ++ (options ++ [destination]))
      rw [hp, hword] at heq
      have htext : word = expressionText (st :: statements) := by simpa using heq
      rw [htext, hcs] at hhyphen
      exact absurd hhyphen (by simp)

end Whole

/-- The files that are opened, by what they are in the given graph. -/
theorem Passage.mem_files_iff {g : Graph} {ms : List Mapping} {roots : List NodeId}
    (s : Passage g ms roots) {files : List Source}
    (hfiles : List.Forall₂ (fun x f => g.source? x = some f) s.sources files) {f : Source} :
    f ∈ files ↔ ∃ x, g.source? x = some f ∧
      (g.Reached roots x ∨ ∃ stream, .stream x stream ∈ ms) := by
  constructor
  · intro hf
    obtain ⟨x, hx, hsource⟩ := forall₂_exists_left hfiles hf
    exact ⟨x, hsource, ((s.mem_sources_iff_given x).mp hx).2⟩
  · rintro ⟨x, hsource, hx⟩
    obtain ⟨es, hn⟩ := source?_eq_some.mp hsource
    have hmem := (s.mem_sources_iff_given x).mpr ⟨isSource_of_node? hn, hx⟩
    obtain ⟨f', hf', hsource'⟩ := forall₂_exists_right hfiles hmem
    rw [hsource, Option.some.injEq] at hsource'
    exact hsource' ▸ hf'

/-- **When the filter graph of a command is found.** Looking for the filter graph of a command
gives the text of the statements, and nothing if there are none, if and only if no media file
that is opened has the flag for its path, and no option is the flag where there are no
statements. -/
theorem filterComplex_found_iff {g g' : Graph} {job : Job} {roots : List NodeId} {cmd : Command}
    (hg : Reachable g) (h : job.compile roots g = .ok cmd g') :
    ∃ p, job.program roots g = .ok p g' ∧
      (cmd.filterComplex? = p.expression? ↔
        (∀ x f, g.source? x = some f →
          (g.Reached roots x ∨ ∃ stream, .stream x stream ∈ job.mappings) →
          f.path ≠ Command.filterFlag) ∧
        (p.statements = [] → Command.filterFlag ∉ job.options)) := by
  obtain ⟨p, hp, hargs⟩ := exists_program h
  obtain ⟨s, heads, rfl, hs⟩ := exists_yields hg.wellFormed hp
  obtain ⟨files, hfiles, hopened⟩ := s.exists_files
  have hcoherent := hs.coherent
  -- every statement reads something
  have hst : ∀ st ∈ p.statements, st.inputs ≠ [] := by
    obtain ⟨lasts, _, hrenders⟩ := hcoherent.statements
    intro st hmem
    obtain ⟨x, _, hx⟩ := forall₂_exists_left hrenders hmem
    exact hx.inputs_ne_nil s.ready.wellFormed
  have hpaths : (∀ f ∈ files, f.path ≠ Command.filterFlag) ↔ ∀ x f, g.source? x = some f →
      (g.Reached roots x ∨ ∃ stream, .stream x stream ∈ job.mappings) →
      f.path ≠ Command.filterFlag := by
    simp only [s.mem_files_iff hfiles]
    constructor
    · intro h x f hf hx
      exact h f ⟨x, hf, hx⟩
    · rintro h f ⟨x, hf, hx⟩
      exact h x f hf hx
  refine ⟨p, hp, ?_⟩
  rw [← hpaths, ← valueOf?_eq_expression?_iff hst, Command.filterComplex?, hargs, Program.args,
    hs.sources, hopened]
  rfl

/-- An option that is the flag does no harm if there is a filter graph. -/
theorem filterComplex_found_iff_option :
    ∃ cmd g', Job.compile { destination := "out.mp4", options := ["-filter_complex", "null"] }
        [⟨3⟩] interleaved = .ok cmd g' ∧
      ∃ p, Job.program { destination := "out.mp4", options := ["-filter_complex", "null"] }
          [⟨3⟩] interleaved = .ok p g' ∧
        (cmd.filterComplex? = p.expression? ↔
          (∀ x f, interleaved.source? x = some f →
            (interleaved.Reached [⟨3⟩] x ∨ ∃ stream, .stream x stream ∈ ([] : List Mapping)) →
            f.path ≠ Command.filterFlag) ∧
          (p.statements = [] → Command.filterFlag ∉ ["-filter_complex", "null"])) := by
  obtain ⟨cmd, g', h⟩ := Change.exists_of_succeeds (x := Job.compile
    { destination := "out.mp4", options := ["-filter_complex", "null"] } [⟨3⟩])
    (s := interleaved) (by decide +kernel)
  exact ⟨cmd, g', h, filterComplex_found_iff built_interleaved.reachable h⟩

/-- A media file whose name is the flag. -/
def flagNamed : Graph :=
  afterCalls [.addSource { path := "-filter_complex" }, .addFilter (.rotate "PI") [⟨0⟩]]

/-- Looking for the filter graph behind such a file gives the flag itself. -/
theorem filterComplex_astray :
    Reachable flagNamed ∧ ∃ cmd p g',
      Job.compile { destination := "out.mp4" } [⟨1⟩] flagNamed = .ok cmd g' ∧
      Job.program { destination := "out.mp4" } [⟨1⟩] flagNamed = .ok p g' ∧
      cmd.filterComplex? = some "-filter_complex" ∧ p.expression? = some "[0:0]rotate=PI" := by
  obtain ⟨p, g', hp, hexpression⟩ := Change.exists_of_yields
    (x := Job.program { destination := "out.mp4" } [⟨1⟩]) (s := flagNamed)
    (q := fun p _ => p.expression? = some "[0:0]rotate=PI") (by decide +kernel)
  obtain ⟨cmd, g₁, hcmd, hfound⟩ := Change.exists_of_yields
    (x := Job.compile { destination := "out.mp4" } [⟨1⟩]) (s := flagNamed)
    (q := fun cmd _ => cmd.filterComplex? = some "-filter_complex") (by decide +kernel)
  -- the command is that of the program, so both end in the same graph
  obtain ⟨p₁, hp₁, _⟩ := exists_program hcmd
  rw [hp] at hp₁
  injection hp₁ with _ hg
  subst hg
  exact ⟨(built_afterCalls _).reachable, cmd, p, g', hcmd, hp, of_decide_eq_true hfound,
    of_decide_eq_true hexpression⟩

end Filtergraph
