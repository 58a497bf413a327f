import Filtergraph.Change
import Filtergraph.Files.Path

/-!
# Files and directories

A table says what is at a place. A place is the list of names that leads to it from the root,
the last name first. The root is always a directory. The pieces with a meaning of their own,
such as two dots, are not names.

A path is followed piece by piece from the root or the working directory. Each piece needs
a directory to stand in; two dots go up.

A file system is a table in which everything stands in a directory, and it carries the proof.
Files and directories are only put into directories, and no file takes the place of a directory.
So whatever is done to a file system, the way up from a directory never ends at a file.
-/

namespace Filtergraph

/-! ## Faults -/

/-- Why a file operation fails. -/
inductive FileFault where
  | notFound
  | alreadyThere
  | notADirectory
  | isADirectory
  | denied
  /-- The name, or the whole path, has too many bytes. -/
  | nameTooLong
  /-- The name holds a character that ends names. -/
  | nulInName
  /-- The content is no text in UTF-8. -/
  | notText
deriving DecidableEq

/-- The wording of a fault. -/
def FileFault.message : FileFault → String
  | notFound => "No such file or directory (os error 2)"
  | alreadyThere => "File exists (os error 17)"
  | notADirectory => "Not a directory (os error 20)"
  | isADirectory => "Is a directory (os error 21)"
  | denied => "Permission denied (os error 13)"
  | nameTooLong => "File name too long (os error 36)"
  | nulInName => "file name contained an unexpected NUL byte"
  | notText => "stream did not contain valid UTF-8"

/-! ## Names and places -/

/-- How many bytes a name may have. -/
def nameLimit : Nat := 255

/-- How many bytes a path may have. -/
def pathLimit : Nat := 4095

/-- Whether a piece of a path says where to go instead of naming something. -/
def isStep (piece : String) : Bool := Path.isIdle piece || piece == ".."

/-- Whether a text can name something in a directory. -/
def isFileName (text : String) : Bool :=
  !isStep text && !text.toList.contains '/' && !text.toList.contains (Char.ofNat 0)
    && text.utf8ByteSize ≤ nameLimit

/-- The name of something in its directory. -/
structure FileName where
  text : String
  proper : isFileName text = true
deriving DecidableEq

/-- The name that a text gives. -/
def FileName.of? (text : String) : Option FileName :=
  if proper : isFileName text = true then some ⟨text, proper⟩ else none

/-- The name that a piece of a path gives. A piece of a checked path that is no step can only
be too long. -/
def FileName.ofPiece (piece : String) : Except FileFault FileName :=
  match FileName.of? piece with
  | some name => .ok name
  | none => .error .nameTooLong

/-- The names that lead to something, the last one first. -/
abbrev Place := List FileName

/-- What is at a place. -/
inductive FileEntry where
  | directory
  | file (content : ByteArray)

instance : DecidableEq FileEntry
  | .directory, .directory => .isTrue rfl
  | .directory, .file _ => .isFalse FileEntry.noConfusion
  | .file _, .directory => .isFalse FileEntry.noConfusion
  | .file a, .file b =>
    @decidable_of_iff _ (a = b) ⟨congrArg FileEntry.file, FileEntry.file.inj⟩
      (ByteArray.instDecidableEq a b)

/-- Files and directories, and the directory in which relative paths start. -/
structure FileTable where
  entries : List (Place × FileEntry) := []
  working : Place := []
deriving DecidableEq

namespace FileTable

/-! ## Looking -/

/-- What is at a place. -/
def at? (t : FileTable) (place : Place) : Option FileEntry :=
  if place.isEmpty then some .directory else t.entries.lookup place

/-- Follows one piece of a path. -/
def enter (t : FileTable) (place : Place) (piece : String) : Except FileFault Place :=
  match t.at? place with
  | none => .error .notFound
  | some (.file _) => .error .notADirectory
  | some .directory =>
    if Path.isIdle piece then .ok place
    else if piece = ".." then .ok place.tail
    else do
      let name ← FileName.ofPiece piece
      if (t.at? (name :: place)).isSome then return name :: place else throw .notFound

/-- Refuses the paths that name nothing at all. -/
def checkPath (path : String) : Except FileFault Unit :=
  if path = "" then .error .notFound
  else if path.toList.contains (Char.ofNat 0) then .error .nulInName
  else if path.utf8ByteSize > pathLimit then .error .nameTooLong
  else .ok ()

/-- Where a path starts, and the pieces that are to be followed. -/
def start (t : FileTable) (path : String) : Place × List String :=
  if Path.isAbsolute path then ([], (Path.pieces path).tail) else (t.working, Path.pieces path)

/-- The place to which a path leads. -/
def resolve (t : FileTable) (path : String) : Except FileFault Place := do
  checkPath path
  let (place, pieces) := t.start path
  pieces.foldlM t.enter place

/-- What a path leads to. -/
def stat (t : FileTable) (path : String) : Except FileFault FileEntry := do
  let place ← t.resolve path
  match t.at? place with
  | some entry => return entry
  | none => throw .notFound

/-- Whether a path leads to anything. -/
def pathExists (t : FileTable) (path : String) : Bool :=
  match t.stat path with
  | .ok _ => true
  | .error _ => false

/-- Whether a path leads to a file. -/
def isFile (t : FileTable) (path : String) : Bool :=
  match t.stat path with
  | .ok (.file _) => true
  | _ => false

/-- Whether a path leads to a directory. -/
def isDirectory (t : FileTable) (path : String) : Bool :=
  match t.stat path with
  | .ok .directory => true
  | _ => false

/-- Content as text. -/
def decode (content : ByteArray) : Except FileFault String :=
  match String.fromUTF8? content with
  | some text => .ok text
  | none => .error .notText

/-- The text of a file. -/
def readText (t : FileTable) (path : String) : Except FileFault String := do
  match ← t.stat path with
  | .directory => throw .isADirectory
  | .file content => decode content

/-- The names in a directory, in order. -/
def names (t : FileTable) (path : String) : Except FileFault (List String) := do
  let place ← t.resolve path
  match t.at? place with
  | some .directory =>
    let names := t.entries.filterMap fun
      | (name :: parent, _) => if parent = place then some name.text else none
      | ([], _) => none
    return names.mergeSort (fun a b => decide (a ≤ b))
  | _ => throw .notADirectory

/-! ## Where things are made -/

/-- Where something is about to be made. -/
structure Target (t : FileTable) where
  /-- The directory in which it is to stand. -/
  parent : Place
  /-- The last piece of the path that is not empty; a dot for the root. -/
  last : String
  /-- Whether slashes follow it. -/
  slashed : Bool
  /-- Unless the last piece only says where to go, there is a directory. -/
  directory : isStep last = false → t.at? parent = some .directory

/-- Follows a path up to its last piece, which need not lead to anything yet. -/
def target (t : FileTable) (path : String) : Except FileFault t.Target := do
  checkPath path
  let (place, pieces) := t.start path
  -- slashes at the end add empty pieces, which name nothing
  match pieces.reverse.dropWhile (· = "") with
  | [] => return ⟨place, ".", true, fun hstep => absurd hstep (by decide)⟩
  | last :: before =>
    let parent ← before.reverse.foldlM t.enter place
    match hparent : t.at? parent with
    | some .directory => return ⟨parent, last, pieces.getLast? = some "", fun _ => hparent⟩
    | some (.file _) => throw .notADirectory
    | none => throw .notFound

/-- Puts something at a place, instead of what was there. -/
def put (t : FileTable) (place : Place) (entry : FileEntry) : FileTable :=
  { t with entries := (place, entry) :: t.entries.filter fun e => e.1 ≠ place }

theorem at?_cons (t : FileTable) (name : FileName) (place : Place) :
    t.at? (name :: place) = t.entries.lookup (name :: place) := rfl

/-- Other places are as before. -/
theorem at?_put (t : FileTable) (name : FileName) (place q : Place) (entry : FileEntry) :
    (t.put (name :: place) entry).at? q = if q = name :: place then some entry else t.at? q := by
  have hlookup : ∀ (entries : List (Place × FileEntry)), q ≠ name :: place →
      (entries.filter fun e => e.1 ≠ name :: place).lookup q = entries.lookup q := by
    intro entries hne
    induction entries with
    | nil => rfl
    | cons e entries ih =>
      obtain ⟨at', entry'⟩ := e
      by_cases heq : at' = name :: place
      · -- an entry that is dropped is not the one that is looked up
        have hne' : (q == at') = false := by simpa [heq] using hne
        rw [List.filter_cons_of_neg (by simp [heq]), ih, List.lookup_cons, hne']
      · rw [List.filter_cons_of_pos (by simpa using heq), List.lookup_cons, List.lookup_cons, ih]
  cases q with
  | nil => simp [at?]
  | cons name' place' =>
    rw [at?_cons, at?_cons, put, List.lookup_cons]
    by_cases heq : name' :: place' = name :: place
    · rw [if_pos heq, heq]
      simp
    · have hne' : (name' :: place' == name :: place) = false := by simpa using heq
      rw [if_neg heq, hne', hlookup t.entries heq]

/-! ## Sound tables -/

/-- Everything stands in a directory. -/
def Sound (t : FileTable) : Prop :=
  ∀ name place entry, t.at? (name :: place) = some entry → t.at? place = some .directory

theorem sound_nil (working : Place) : Sound { working } := by
  intro name place entry h
  exact absurd h (by simp [at?_cons])

/-- **What is put into a directory leaves a table sound**, unless a directory is replaced by a
file. -/
theorem Sound.put {t : FileTable} (h : t.Sound) {name : FileName} {place : Place}
    {entry : FileEntry} (hparent : t.at? place = some .directory)
    (hentry : entry = .directory ∨ t.at? (name :: place) ≠ some .directory) :
    (t.put (name :: place) entry).Sound := by
  intro name' place' entry' hat
  rw [at?_put] at hat
  rw [at?_put]
  by_cases hnew : name' :: place' = name :: place
  · -- the new entry stands in `place`, which is a place above it
    obtain ⟨-, rfl⟩ := List.cons.inj hnew
    rw [if_neg (fun hself => absurd (congrArg List.length hself) (by simp))]
    exact hparent
  · rw [if_neg hnew] at hat
    have hbefore := h name' place' entry' hat
    -- if something stands in the new place already, that place was a directory and stays one
    split
    · rename_i hinside
      rcases hentry with rfl | hnot
      · rfl
      · exact absurd (hinside ▸ hbefore) hnot
    · exact hbefore

/-- The way up from a directory leads to a directory. -/
theorem Sound.tail {t : FileTable} (h : t.Sound) {place : Place}
    (hdir : t.at? place = some .directory) : t.at? place.tail = some .directory := by
  cases place with
  | nil => rfl
  | cons name place => exact h name place _ hdir

end FileTable

/-! ## File systems -/

/-- A table in which everything stands in a directory. -/
structure FileSystem extends FileTable where
  sound : toFileTable.Sound := by exact FileTable.sound_nil _
deriving DecidableEq

instance : Coe FileSystem FileTable := ⟨FileSystem.toFileTable⟩

/-- A change to a file system. -/
abbrev FileEdit := Change FileFault FileSystem

namespace FileSystem

/-- Puts something into a directory. No file takes the place of a directory. -/
def putIn (fs : FileSystem) (name : FileName) (parent : Place) (entry : FileEntry)
    (hparent : fs.at? parent = some .directory)
    (hentry : entry = .directory ∨ fs.at? (name :: parent) ≠ some .directory) : FileSystem :=
  ⟨fs.toFileTable.put (name :: parent) entry, fs.sound.put hparent hentry⟩

/-- Writes a file, instead of what it held. -/
def write (path : String) (content : ByteArray) : FileEdit Unit := revise fun fs => do
  let t ← fs.target path
  if hnamed : t.slashed = false ∧ isStep t.last = false then
    let name ← FileName.ofPiece t.last
    if hold : fs.at? (name :: t.parent) = some .directory then throw .isADirectory
    else return fs.putIn name t.parent (.file content) (t.directory hnamed.2) (.inr hold)
  else throw .isADirectory

/-- Makes one directory in an existing one. -/
def makeDirectory (path : String) : FileEdit Unit := revise fun fs => do
  let t ← fs.target path
  if hnamed : isStep t.last = false then
    let name ← FileName.ofPiece t.last
    if (fs.at? (name :: t.parent)).isSome then throw .alreadyThere
    else return fs.putIn name t.parent .directory (t.directory hnamed) (.inl rfl)
  else throw .alreadyThere

/-- Makes a directory and those above it. The fuel bounds how many there are; a path has fewer
of them than characters. -/
def makeDirectoriesWithin : Nat → String → FileEdit Unit
  | 0, _ => throw .notFound
  | fuel + 1, path =>
    if path = "" then pure ()
    else fun fs =>
      match makeDirectory path fs with
      | .ok () fs => .ok () fs
      | .error .notFound fs =>
        -- the directory to stand in may be missing: make it first, then try again
        match Path.parent? path with
        | none => .error .notFound fs
        | some parent =>
          match makeDirectoriesWithin fuel parent fs with
          | .error e fs => .error e fs
          | .ok () fs =>
            match makeDirectory path fs with
            | .ok () fs => .ok () fs
            | .error e fs => if fs.isDirectory path then .ok () fs else .error e fs
      | .error e fs => if fs.isDirectory path then .ok () fs else .error e fs

/-- Makes a directory and those above it, as far as they do not exist. -/
def makeDirectories (path : String) : FileEdit Unit :=
  makeDirectoriesWithin (path.length + 1) path

/-- The file system with something at a place, and with directories above it where nothing was.
It stays as it is if a file is in the way, or a directory in the place of the file. -/
def install (fs : FileSystem) : Place → FileEntry → FileSystem
  | [], _ => fs
  | name :: parent, entry =>
    -- the directories above it are made first
    let fs := if (fs.at? parent).isSome then fs else fs.install parent .directory
    if h : fs.at? parent = some .directory ∧
        (entry = .directory ∨ fs.at? (name :: parent) ≠ some .directory) then
      fs.putIn name parent entry h.1 h.2
    else fs

end FileSystem

end Filtergraph
