import Filtergraph.Pipeline.Library

/-!
# Names of pipelines

The pipelines of a directory are listed by their paths. The name of a pipeline is its file name
without the suffix, and by this name it is found again: the suffix is put back and the directory
in front.

A name may also be given with the suffix, and then it is taken as a file name. So one kind of
file cannot be found by its own name: the one whose name still ends with the suffix once it has
lost it, like `n.toml.toml`. What is found by the name `n.toml` is the file `n.toml`. Two listed
files get into each other's way only like these two.

Where a path leads is found by following its pieces. As the way up from a directory never ends at
a file, the last piece of a path to a file is the name of that file.
-/

namespace Filtergraph

/-! ## Paths -/

namespace Path

variable {dir name piece : String}

theorem splitChars_ne_nil (cs : List Char) : splitChars cs ≠ [] := by
  cases cs with
  | nil => simp [splitChars]
  | cons c cs =>
    rw [splitChars]
    split
    · simp
    · split <;> simp

/-- A slash ends a piece. -/
theorem splitChars_append (front back : List Char) :
    splitChars (front ++ '/' :: back) = splitChars front ++ splitChars back := by
  induction front with
  | nil => simp [splitChars]
  | cons c front ih =>
    rw [List.cons_append, splitChars, splitChars, ih]
    split
    · rfl
    · -- there is always a piece to put the character in front of
      cases hpieces : splitChars front with
      | nil => exact absurd hpieces (splitChars_ne_nil front)
      | cons piece rest => rfl

theorem splitChars_of_no_slash {cs : List Char} (h : '/' ∉ cs) : splitChars cs = [cs] := by
  induction cs with
  | nil => rfl
  | cons c cs ih =>
    rw [List.mem_cons, not_or] at h
    rw [splitChars, if_neg (Ne.symm h.1), ih h.2]

theorem pieces_ne_nil (path : String) : pieces path ≠ [] := by
  simp [pieces, splitChars_ne_nil]

theorem pieces_of_no_slash (h : '/' ∉ name.toList) : pieces name = [name] := by
  simp [pieces, splitChars_of_no_slash h]

/-- A slash between two paths keeps their pieces apart. -/
theorem pieces_append (dir path : String) :
    pieces (dir ++ "/" ++ path) = pieces dir ++ pieces path := by
  simp [pieces, splitChars_append]

theorem isAbsolute_of_no_slash (h : '/' ∉ name.toList) : isAbsolute name = false := by
  rw [isAbsolute, beq_eq_false_iff_ne]
  intro hhead
  exact h (List.mem_of_head? hhead)

/-- A directory with a slash behind it. -/
def lead (dir : String) : String :=
  if dir.toList.getLast? == some '/' then dir else dir ++ "/"

/-- A name without slashes goes behind the directory. -/
theorem join_eq (hdir : dir ≠ "") (hname : '/' ∉ name.toList) :
    join dir name = lead dir ++ name := by
  unfold join lead
  rw [isAbsolute_of_no_slash hname, Bool.false_or, if_neg (by simpa using hdir)]
  split
  · rfl
  · rfl

theorem exists_lead_eq (dir : String) : ∃ front, lead dir = front ++ "/" := by
  unfold lead
  split
  · rename_i hlast
    obtain ⟨cs, hcs⟩ := List.getLast?_eq_some_iff.mp (beq_iff_eq.mp hlast)
    refine ⟨String.ofList cs, ?_⟩
    rw [← String.toList_inj, hcs]
    simp
  · exact ⟨dir, rfl⟩

/-- The directory gives pieces, at least one, and the name is the piece after them. -/
theorem pieces_join (hdir : dir ≠ "") (hname : '/' ∉ name.toList) :
    ∃ before, before ≠ [] ∧ pieces (join dir name) = before ++ [name] := by
  obtain ⟨front, hlead⟩ := exists_lead_eq dir
  refine ⟨pieces front, pieces_ne_nil front, ?_⟩
  rw [join_eq hdir hname, hlead, pieces_append, pieces_of_no_slash hname]

/-- Only pieces that go nowhere are dropped from the end. -/
theorem dropIdle_of_not_idle {pieces : List String} (h : isIdle piece = false) :
    dropIdle (piece :: pieces) = piece :: pieces := by
  cases pieces with
  | nil => rfl
  | cons before rest => simp [dropIdle, h]

/-- What was joined to a directory is the file name there. -/
theorem fileName?_join (hdir : dir ≠ "") (hname : '/' ∉ name.toList)
    (hstep : isStep name = false) : fileName? (join dir name) = some name := by
  obtain ⟨before, _, hpieces⟩ := pieces_join hdir hname
  have hidle : isIdle name = false := (Bool.or_eq_false_iff.mp hstep).1
  have htelling : tellingPieces (join dir name) = name :: before.reverse := by
    rw [tellingPieces, hpieces, List.reverse_append, List.reverse_singleton,
      List.singleton_append, dropIdle_of_not_idle hidle]
  rw [fileName?, htelling]
  exact if_neg (by simpa [isStep] using hstep)

/-- **A name with an extension** is its stem, a dot and the extension. -/
theorem splitName_eq_some {stem ext : String} (h : splitName name = (stem, some ext)) :
    name = stem ++ "." ++ ext := by
  have hsplit := List.takeWhile_append_dropWhile (p := (· ≠ '.')) (l := name.toList.reverse)
  unfold splitName at h
  dsimp only at h
  split at h
  · exact absurd h (by simp)
  · exact absurd h (by simp)
  · rename_i c before _ hdrop
    obtain ⟨rfl, hext⟩ := Prod.mk.inj h
    obtain rfl := Option.some.inj hext
    -- the search from the end stopped at a dot
    obtain rfl : c = '.' := by
      have hhead := List.head?_dropWhile_not (· ≠ '.') name.toList.reverse
      rw [hdrop] at hhead
      simpa using hhead
    have hname : name.toList
        = before.reverse ++ '.' :: (name.toList.reverse.takeWhile (· ≠ '.')).reverse := by
      calc name.toList
          = (name.toList.reverse.takeWhile (· ≠ '.') ++ '.' :: before).reverse := by
            rw [← hdrop, hsplit, List.reverse_reverse]
        _ = before.reverse ++ '.' :: (name.toList.reverse.takeWhile (· ≠ '.')).reverse := by
            rw [List.reverse_append, List.reverse_cons, List.append_assoc, List.singleton_append]
    simpa [← String.toList_inj] using hname

end Path

/-! ## Where paths lead -/

variable {fs : FileTable} {dir p q name path : String}

namespace FileTable

variable {place q : Place} {piece path : String}

theorem text_of_ofPiece {name : FileName} (h : FileName.ofPiece piece = .ok name) :
    name.text = piece := by
  unfold FileName.ofPiece FileName.of? at h
  split at h
  · rename_i found hfound
    split at hfound
    · obtain rfl := Option.some.inj hfound
      injection h with h
      rw [← h]
    · exact absurd hfound (by simp)
  · exact absurd h (by simp)

/-- **One step of a path**: it stays, goes up, or goes to something of that name. -/
theorem enter_eq_ok (h : fs.enter place piece = .ok q) : fs.at? place = some .directory ∧
    ((Path.isIdle piece = true ∧ q = place) ∨ (piece = ".." ∧ q = place.tail) ∨
      (isStep piece = false ∧ ∃ name : FileName, name.text = piece ∧ q = name :: place)) := by
  unfold enter at h
  -- only from a directory can one go on
  split at h
  · exact absurd h (by simp)
  · exact absurd h (by simp)
  · rename_i hdir
    refine ⟨hdir, ?_⟩
    split at h
    · rename_i hidle
      injection h with h
      exact Or.inl ⟨hidle, h.symm⟩
    · rename_i hidle
      split at h
      · rename_i hup
        injection h with h
        exact Or.inr (Or.inl ⟨hup, h.symm⟩)
      · rename_i hup
        obtain ⟨name, hname, hrest⟩ := except_bind_eq_ok.mp h
        refine Or.inr (Or.inr ⟨by simp [isStep, hidle, hup], name, text_of_ofPiece hname, ?_⟩)
        split at hrest
        · injection hrest with hrest
          exact hrest.symm
        · exact absurd hrest (by simp)

/-- A path is followed piece by piece, if it can be a path at all. -/
theorem resolve_eq_ok : fs.resolve path = .ok q ↔
    checkPath path = .ok () ∧ (fs.start path).2.foldlM fs.enter (fs.start path).1 = .ok q := by
  unfold resolve
  rw [except_bind_eq_ok]
  constructor
  · rintro ⟨_, hcheck, hfollow⟩
    exact ⟨hcheck, hfollow⟩
  · rintro ⟨hcheck, hfollow⟩
    exact ⟨(), hcheck, hfollow⟩

theorem ne_empty_of_resolve (h : fs.resolve path = .ok q) : path ≠ "" := by
  rintro rfl
  exact absurd (resolve_eq_ok.mp h).1 (by simp [checkPath])

theorem stat_eq_ok {entry : FileEntry} : fs.stat path = .ok entry ↔
    ∃ place, fs.resolve path = .ok place ∧ fs.at? place = some entry := by
  unfold stat
  simp only [except_bind_eq_ok]
  refine exists_congr fun place => and_congr_right fun _ => ?_
  cases fs.at? place with
  | none => simp
  | some found => simp [pure, Except.pure]

theorem isFile_eq_true : fs.isFile path = true ↔
    ∃ place content, fs.resolve path = .ok place ∧ fs.at? place = some (.file content) := by
  have hstat : fs.isFile path = true ↔ ∃ content, fs.stat path = .ok (.file content) := by
    unfold isFile
    split
    · rename_i content hstat
      exact iff_of_true rfl ⟨content, hstat⟩
    · rename_i hno
      refine iff_of_false (by simp) ?_
      rintro ⟨content, hstat⟩
      exact hno content hstat
  simp only [hstat, stat_eq_ok]
  exact exists_comm

/-- **A file is named by the last piece of a path that leads to it**: where the last piece only
says where to go, the path leads to a directory. -/
theorem Sound.name_of_file (hfs : fs.Sound) {before : List String} {piece : String} {place : Place}
    {content : ByteArray} (hpieces : (fs.start path).2 = before ++ [piece])
    (h : fs.resolve path = .ok place) (hfile : fs.at? place = some (.file content)) :
    ∃ (x : FileName) (parent : Place), place = x :: parent ∧ x.text = piece := by
  have hfollow := (resolve_eq_ok.mp h).2
  rw [hpieces, List.foldlM_append] at hfollow
  obtain ⟨parent, _, hlast⟩ := except_bind_eq_ok.mp hfollow
  obtain ⟨found, hfound, hlast⟩ := except_bind_eq_ok.mp hlast
  injection hlast with hlast
  subst hlast
  -- staying or going up ends at a directory, so the last piece was a name
  obtain ⟨hparent, ⟨_, rfl⟩ | ⟨_, rfl⟩ | ⟨_, x, hx, rfl⟩⟩ := enter_eq_ok hfound
  · exact absurd (hparent.symm.trans hfile) (by simp)
  · exact absurd ((hfs.tail hparent).symm.trans hfile) (by simp)
  · exact ⟨x, parent, rfl, hx⟩

theorem start_of_no_slash (fs : FileTable) (hname : '/' ∉ name.toList) :
    ∃ before, (fs.start name).2 = before ++ [name] := by
  refine ⟨[], ?_⟩
  rw [List.nil_append, start, Path.isAbsolute_of_no_slash hname, Path.pieces_of_no_slash hname,
    if_neg Bool.false_ne_true]

/-- A joined path ends with the name, whether or not it starts at the root. -/
theorem start_join (fs : FileTable) (hdir : dir ≠ "") (hname : '/' ∉ name.toList) :
    ∃ before, (fs.start (Path.join dir name)).2 = before ++ [name] := by
  obtain ⟨before, hbefore, hpieces⟩ := Path.pieces_join hdir hname
  unfold start
  split
  · exact ⟨before.tail, by rw [hpieces, List.tail_append_of_ne_nil hbefore]⟩
  · exact ⟨before, hpieces⟩

/-- What a directory lists is what stands in it. -/
theorem mem_names_iff : (∃ names, fs.names dir = .ok names ∧ name ∈ names) ↔
    ∃ place, fs.resolve dir = .ok place ∧ fs.at? place = some .directory ∧
      ∃ (x : FileName) (entry : FileEntry), (x :: place, entry) ∈ fs.entries ∧ x.text = name := by
  unfold names
  simp only [except_bind_eq_ok, ← exists_and_right, and_assoc]
  rw [exists_comm]
  refine exists_congr fun place => ?_
  rw [exists_and_left]
  refine and_congr_right fun _ => ?_
  split
  · rename_i hdir
    simp only [hdir, pure, Except.pure, Except.ok.injEq, exists_eq_left', List.mem_mergeSort,
      List.mem_filterMap, true_and]
    constructor
    · rintro ⟨⟨found, entry⟩, hmem, hname⟩
      -- the root stands in no directory
      cases found with
      | nil => exact absurd hname (by simp)
      | cons x parent =>
        obtain ⟨rfl, htext⟩ := Option.ite_none_right_eq_some.mp hname
        exact ⟨x, entry, hmem, Option.some.inj htext⟩
    · rintro ⟨x, entry, hmem, rfl⟩
      exact ⟨(x :: place, entry), hmem, if_pos rfl⟩
  · rename_i hother
    refine iff_of_false ?_ fun h => hother h.1
    rintro ⟨names, hnames, _⟩
    exact absurd hnames (by simp)

end FileTable

/-! ## Listing and finding -/

namespace Library

theorem toList_suffix : suffix.toList = ['.', 't', 'o', 'm', 'l'] := rfl

theorem no_slash_append_suffix (h : '/' ∉ name.toList) : '/' ∉ (name ++ suffix).toList := by
  rw [String.toList_append, List.mem_append, not_or]
  exact ⟨h, by simp [toList_suffix]⟩

/-- The name ends with the suffix already. -/
def Suffixed (name : String) : Prop := suffix.toList <:+ name.toList

instance : DecidablePred Suffixed := fun name =>
  inferInstanceAs (Decidable (suffix.toList <:+ name.toList))

theorem fileFor_of_suffixed (h : Suffixed name) : fileFor name = name := by
  rw [fileFor, if_pos (List.isSuffixOf_iff_suffix.mpr h)]

theorem fileFor_of_not_suffixed (h : ¬ Suffixed name) : fileFor name = name ++ suffix := by
  rw [fileFor, if_neg (fun hsuffix => h (List.isSuffixOf_iff_suffix.mp hsuffix))]

/-- A name is a file name, or it gets the suffix. -/
theorem fileFor_cases (name : String) : fileFor name = name ∨ fileFor name = name ++ suffix := by
  by_cases h : Suffixed name
  · exact Or.inl (fileFor_of_suffixed h)
  · exact Or.inr (fileFor_of_not_suffixed h)

theorem no_slash_fileFor (h : '/' ∉ name.toList) : '/' ∉ (fileFor name).toList := by
  rcases fileFor_cases name with heq | heq
  · rw [heq]
    exact h
  · rw [heq]
    exact no_slash_append_suffix h

/-- **What is found**: the file that the name itself leads to, else the file of that name in the
directory. -/
theorem findIn?_eq_some : findIn? fs dir name = some path ↔
    fs.isFile path = true ∧
      (path = name ∨ fs.isFile name = false ∧ path = Path.join dir (fileFor name)) := by
  rw [findIn?, candidates, List.find?_cons, List.find?_singleton]
  -- the name itself comes first
  cases hname : fs.isFile name with
  | true =>
    refine ⟨fun h => ?_, fun h => ?_⟩
    · obtain rfl := Option.some.inj h
      exact ⟨hname, Or.inl rfl⟩
    · obtain ⟨_, rfl | ⟨hno, _⟩⟩ := h
      · rfl
      · exact absurd hno (by simp)
  | false =>
    refine ⟨fun h => ?_, fun h => ?_⟩
    · obtain ⟨hfile, hpath⟩ := Option.ite_none_right_eq_some.mp h
      obtain rfl := Option.some.inj hpath
      exact ⟨hfile, Or.inr ⟨rfl, rfl⟩⟩
    · obtain ⟨hfile, rfl | ⟨_, rfl⟩⟩ := h
      · exact absurd (hname.symm.trans hfile) (by simp)
      · exact if_pos hfile

/-- **What is listed**: the files in the directory that have the extension. -/
theorem mem_list_iff : p ∈ list fs dir ↔
    (∃ place, fs.resolve dir = .ok place ∧ fs.at? place = some .directory ∧
      ∃ (x : FileName) (entry : FileEntry), (x :: place, entry) ∈ fs.entries ∧
        p = Path.join dir x.text) ∧
    fs.isFile p = true ∧ Path.extension? p = some "toml" := by
  have hnames : p ∈ list fs dir ↔ (∃ name, (∃ names, fs.names dir = .ok names ∧ name ∈ names) ∧
      Path.join dir name = p) ∧ fs.isFile p = true ∧ Path.extension? p = some "toml" := by
    unfold list
    cases fs.names dir with
    | error fault => simp
    | ok names => simp
  rw [hnames]
  refine and_congr_left fun _ => ⟨fun h => ?_, fun h => ?_⟩
  · obtain ⟨name, hname, rfl⟩ := h
    obtain ⟨place, hplace, hdir, x, entry, hmem, rfl⟩ := FileTable.mem_names_iff.mp hname
    exact ⟨place, hplace, hdir, x, entry, hmem, rfl⟩
  · obtain ⟨place, hplace, hdir, x, entry, hmem, rfl⟩ := h
    exact ⟨x.text, FileTable.mem_names_iff.mpr ⟨place, hplace, hdir, x, entry, hmem, rfl⟩, rfl⟩

/-- A listed path, and the name of its pipeline. -/
structure Listed (fs : FileTable) (dir p name : String) : Prop where
  dir_ne : dir ≠ ""
  no_slash : '/' ∉ name.toList
  path_eq : p = Path.join dir (name ++ suffix)
  nameOf?_eq : nameOf? p = some name
  isFile : fs.isFile p = true

/-- **Every listed path is that of a pipeline with a name**, and it is the suffixed name in the
directory. -/
theorem exists_listed (h : p ∈ list fs dir) : ∃ name, Listed fs dir p name := by
  obtain ⟨⟨place, hplace, _, x, _, _, rfl⟩, hfile, hext⟩ := mem_list_iff.mp h
  have hdir : dir ≠ "" := FileTable.ne_empty_of_resolve hplace
  have hproper := x.proper
  simp only [isFileName, Bool.and_eq_true, Bool.not_eq_true', List.contains_eq_mem,
    decide_eq_false_iff_not] at hproper
  obtain ⟨⟨⟨hstep, hslash⟩, _⟩, _⟩ := hproper
  have hlast := Path.fileName?_join hdir hslash hstep
  rw [Path.extension?, hlast, Option.bind_some] at hext
  -- what has the extension is a stem with the suffix behind it
  obtain ⟨stem, hsplit⟩ : ∃ stem, Path.splitName x.text = (stem, some "toml") :=
    ⟨_, Prod.ext rfl hext⟩
  have htext : x.text = stem ++ suffix := by
    rw [Path.splitName_eq_some hsplit, String.append_assoc]
    rfl
  refine ⟨stem, hdir, ?_, by rw [htext], ?_, hfile⟩
  · rw [htext, String.toList_append, List.mem_append, not_or] at hslash
    exact hslash.1
  · rw [nameOf?, Path.stem?, hlast, Option.map_some, hsplit]

/-- If the names differ by the suffix, so do the paths. -/
theorem Listed.eq_append_suffix {name' : String} (hp : Listed fs dir p name)
    (hq : Listed fs dir q name') (h : name' = name ++ suffix) : q = p ++ suffix := by
  have hslash := no_slash_append_suffix hp.no_slash
  rw [hp.path_eq, hq.path_eq, h, Path.join_eq hp.dir_ne hslash,
    Path.join_eq hp.dir_ne (no_slash_append_suffix hslash), ← String.append_assoc]

/-- A name with the suffix is looked for as it stands. -/
theorem findIn?_of_suffixed (hno : fs.isFile name = false) (h : Suffixed name) :
    findIn? fs dir name = some path ↔ path = Path.join dir name ∧ fs.isFile path = true := by
  rw [findIn?_eq_some, fileFor_of_suffixed h]
  refine ⟨fun hfound => ?_, fun hfound => ⟨hfound.2, Or.inr ⟨hno, hfound.1⟩⟩⟩
  obtain ⟨hfile, rfl | ⟨_, hpath⟩⟩ := hfound
  · exact absurd (hno.symm.trans hfile) (by simp)
  · exact ⟨hpath, hfile⟩

/-- **A listed pipeline is found by its name** unless the name ends with the suffix. -/
theorem Listed.findIn?_eq_iff (hp : Listed fs dir p name) (hno : fs.isFile name = false) :
    findIn? fs dir name = some p ↔ ¬ Suffixed name := by
  constructor
  · intro hfound hsuffix
    -- then the name alone and the name with the suffix would be the same file of the directory
    have hsame := ((findIn?_of_suffixed hno hsuffix).mp hfound).1
    rw [hp.path_eq, Path.join_eq hp.dir_ne hp.no_slash,
      Path.join_eq hp.dir_ne (no_slash_append_suffix hp.no_slash)] at hsame
    have hlength := congrArg String.length hsame
    simp [suffix] at hlength
  · intro hnot
    rw [findIn?_eq_some, fileFor_of_not_suffixed hnot]
    exact ⟨hp.isFile, Or.inr ⟨hno, hp.path_eq⟩⟩

/-- The name of the pipeline at a path leads to a place. -/
def Reaches (fs : FileTable) (dir p : String) (place : Place) : Prop :=
  ∃ name path, nameOf? p = some name ∧ findIn? fs dir name = some path ∧
    fs.resolve path = .ok place

/-- **Where the name of a listed pipeline leads**: to a file of that name, with the suffix or
without it. -/
theorem Listed.name_of_reaches {fs : FileSystem} {place : Place} (hp : Listed fs dir p name)
    (h : Reaches fs dir p place) : ∃ (x : FileName) (parent : Place), place = x :: parent ∧
      (x.text = name ∨ x.text = name ++ suffix) := by
  obtain ⟨_, path, hname, hfound, hresolve⟩ := h
  obtain rfl := Option.some.inj (hname.symm.trans hp.nameOf?_eq)
  obtain ⟨hfile, hpath⟩ := findIn?_eq_some.mp hfound
  obtain ⟨_, content, hplace, hcontent⟩ := FileTable.isFile_eq_true.mp hfile
  obtain rfl := Except.ok.inj (hresolve.symm.trans hplace)
  -- found at the name itself, or under the file name for it in the directory
  rcases hpath with rfl | ⟨_, rfl⟩
  · obtain ⟨before, hstart⟩ := fs.start_of_no_slash hp.no_slash
    obtain ⟨x, parent, hplace, hx⟩ := fs.sound.name_of_file hstart hresolve hcontent
    exact ⟨x, parent, hplace, Or.inl hx⟩
  · obtain ⟨before, hstart⟩ := fs.start_join hp.dir_ne (no_slash_fileFor hp.no_slash)
    obtain ⟨x, parent, hplace, hx⟩ := fs.sound.name_of_file hstart hresolve hcontent
    refine ⟨x, parent, hplace, ?_⟩
    rw [hx]
    exact fileFor_cases _

/-- **Listing and finding.** Where no file stands at its name, a listed pipeline is found by its
name exactly if the name does not end with the suffix once more; if it does, what is found is the
file of the name as it stands. And in a file system two listed pipelines lead to the same file only
if the one is the other with a further suffix. -/
theorem listed_pipelines_found (dir : String) :
    (∀ fs : FileTable, ∀ p ∈ list fs dir, ∃ name, nameOf? p = some name ∧
      (fs.isFile name = false →
        (findIn? fs dir name = some p ↔ ¬ Suffixed name) ∧
        (Suffixed name → ∀ path, findIn? fs dir name = some path ↔
          path = Path.join dir name ∧ fs.isFile path = true))) ∧
    ∀ fs : FileSystem, ∀ p ∈ list fs dir, ∀ q ∈ list fs dir, ∀ place, Reaches fs dir p place →
      Reaches fs dir q place → p = q ∨ q = p ++ suffix ∨ p = q ++ suffix := by
  refine ⟨fun fs p hp => ?_, fun fs p hp q hq place hreachp hreachq => ?_⟩
  · obtain ⟨name, hlisted⟩ := exists_listed hp
    exact ⟨name, hlisted.nameOf?_eq, fun hno => ⟨hlisted.findIn?_eq_iff hno, fun hsuffix path =>
      findIn?_of_suffixed hno hsuffix⟩⟩
  · obtain ⟨name, hp⟩ := exists_listed hp
    obtain ⟨name', hq⟩ := exists_listed hq
    obtain ⟨x, parent, rfl, hx⟩ := hp.name_of_reaches hreachp
    obtain ⟨x', parent', hplace, hx'⟩ := hq.name_of_reaches hreachq
    obtain rfl := (List.cons.inj hplace).1
    have hsame : name = name' → p = q := by
      intro heq
      rw [hp.path_eq, hq.path_eq, heq]
    -- each of the two names is that of the file, or lacks its suffix
    rcases hx with hx | hx <;> rcases hx' with hx' | hx'
    · exact Or.inl (hsame (hx.symm.trans hx'))
    · exact Or.inr (Or.inr (hq.eq_append_suffix hp (hx.symm.trans hx')))
    · exact Or.inr (Or.inl (hp.eq_append_suffix hq (hx'.symm.trans hx)))
    · have hchars := congrArg String.toList (hx.symm.trans hx')
      rw [String.toList_append, String.toList_append] at hchars
      exact Or.inl (hsame (String.toList_injective (List.append_cancel_right hchars)))

/-- A directory with two pipelines, the one named like the other with a further suffix. -/
def shelf : FileSystem :=
  Change.after (do
    FileSystem.makeDirectory "d"
    FileSystem.write "d/n.toml" ByteArray.empty
    FileSystem.write "d/n.toml.toml" ByteArray.empty) {}

theorem mem_list_shelf : "d/n.toml" ∈ list shelf "d" ∧ "d/n.toml.toml" ∈ list shelf "d" := by
  have hplace : shelf.resolve "d" = .ok [⟨"d", by decide⟩] := rfl
  have hdir : shelf.at? [⟨"d", by decide⟩] = some .directory := by decide
  have hmem : ∀ (x : FileName) (p : String),
      (x :: [⟨"d", by decide⟩], .file ByteArray.empty) ∈ shelf.entries → p = Path.join "d" x.text →
      shelf.isFile p = true → Path.extension? p = some "toml" → p ∈ list shelf "d" :=
    fun x p hx hp hfile hext => mem_list_iff.mpr ⟨⟨_, hplace, hdir, x, _, hx, hp⟩, hfile, hext⟩
  exact ⟨hmem ⟨"n.toml", by decide⟩ _ (by decide) (by decide) (by decide) (by decide),
    hmem ⟨"n.toml.toml", by decide⟩ _ (by decide) (by decide) (by decide) (by decide)⟩

/-- The place of the first of the two. -/
def shelfPlace : Place := [⟨"n.toml", by decide⟩, ⟨"d", by decide⟩]

theorem reaches_shelf : Reaches shelf "d" "d/n.toml" shelfPlace ∧
    Reaches shelf "d" "d/n.toml.toml" shelfPlace := by
  have hplace : shelf.resolve "d/n.toml" = .ok shelfPlace := rfl
  exact ⟨⟨"n", "d/n.toml", by decide, by decide, hplace⟩,
    ⟨"n.toml", "d/n.toml", by decide, by decide, hplace⟩⟩

theorem listed_pipelines_found_shelf :
    ("d/n.toml" ∈ list shelf "d" ∧ nameOf? "d/n.toml" = some "n" ∧ shelf.isFile "n" = false ∧
      findIn? shelf "d" "n" = some "d/n.toml") ∧
    ("d/n.toml.toml" ∈ list shelf "d" ∧ nameOf? "d/n.toml.toml" = some "n.toml" ∧
      shelf.isFile "n.toml" = false ∧ Suffixed "n.toml" ∧
      findIn? shelf "d" "n.toml" = some "d/n.toml") ∧
    Reaches shelf "d" "d/n.toml" shelfPlace ∧ Reaches shelf "d" "d/n.toml.toml" shelfPlace ∧
    ("d/n.toml" = "d/n.toml.toml" ∨ "d/n.toml.toml" = "d/n.toml" ++ suffix ∨
      "d/n.toml" = "d/n.toml.toml" ++ suffix) := by
  obtain ⟨hfound, hapart⟩ := listed_pipelines_found "d"
  refine ⟨⟨mem_list_shelf.1, by decide, by decide, ?_⟩,
    ⟨mem_list_shelf.2, by decide, by decide, by decide, ?_⟩, reaches_shelf.1, reaches_shelf.2,
    hapart shelf _ mem_list_shelf.1 _ mem_list_shelf.2 _ reaches_shelf.1 reaches_shelf.2⟩
  · obtain ⟨name, hname, hby⟩ := hfound shelf _ mem_list_shelf.1
    obtain rfl : "n" = name := Option.some.inj (Eq.trans (by decide) hname)
    exact (hby (by decide)).1.mpr (by decide)
  · obtain ⟨name, hname, hby⟩ := hfound shelf _ mem_list_shelf.2
    obtain rfl : "n.toml" = name := Option.some.inj (Eq.trans (by decide) hname)
    exact ((hby (by decide)).2 (by decide) _).mpr ⟨by decide, by decide⟩

/-- A pipeline that is not found by its name, and two that lead to the same file. -/
theorem listed_pipeline_hidden :
    (∃ p name, p ∈ list shelf "d" ∧ nameOf? p = some name ∧ shelf.isFile name = false ∧
      findIn? shelf "d" name ≠ some p) ∧
    ∃ p q place, p ∈ list shelf "d" ∧ q ∈ list shelf "d" ∧ p ≠ q ∧
      Reaches shelf "d" p place ∧ Reaches shelf "d" q place :=
  ⟨⟨"d/n.toml.toml", "n.toml", mem_list_shelf.2, by decide, by decide, by decide⟩,
    "d/n.toml", "d/n.toml.toml", shelfPlace, mem_list_shelf.1, mem_list_shelf.2, by decide,
    reaches_shelf.1, reaches_shelf.2⟩

end Library

end Filtergraph
