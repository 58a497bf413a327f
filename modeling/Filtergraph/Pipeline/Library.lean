import Filtergraph.Files.System
import Filtergraph.Pipeline.Document

/-!
# Pipelines on disk

A pipeline is a file. It is found by its path, or by its name among the pipelines that the
user keeps in one directory.
-/

namespace Filtergraph

/-- The settings of the user that say where their files are. -/
structure Environment where
  home : Option String
  configHome : Option String

namespace Environment

/-- Where the user's settings are: the place named for it if it is absolute, else the usual
place in the home directory. -/
def settings (env : Environment) : String :=
  let usual := (env.home.map (Path.join · ".config")).getD "."
  match env.configHome with
  | some dir => if Path.isAbsolute dir then dir else usual
  | none => usual

/-- The directory of this program's settings. -/
def configDirectory (env : Environment) : String := Path.join env.settings "ffgraph"

/-- The directory of the user's pipelines. -/
def pipelineDirectory (env : Environment) : String := Path.join env.configDirectory "pipelines"

end Environment

namespace Library

/-- The ending of pipeline files. -/
def suffix : String := ".toml"

/-- The file in which a pipeline of that name is kept. -/
def fileFor (name : String) : String :=
  if suffix.toList.isSuffixOf name.toList then name else name ++ suffix

/-- The paths at which a pipeline may be, the first one that is a file being meant. -/
def candidates (directory name : String) : List String :=
  [name, Path.join directory (fileFor name)]

/-- Finds a pipeline by its path, or by its name in a directory. -/
def findIn? (fs : FileTable) (directory name : String) : Option String :=
  (candidates directory name).find? fs.isFile

/-- The pipelines in a directory, in the order of their names. -/
def list (fs : FileTable) (directory : String) : List String :=
  match fs.names directory with
  | .error _ => []
  | .ok names =>
    (names.map (Path.join directory)).filter fun path =>
      fs.isFile path && Path.extension? path == some "toml"

/-- The name of the pipeline in a file. -/
def nameOf? (path : String) : Option String := Path.stem? path

end Library

/-- The pipeline in a text that was read from a file. -/
def Pipeline.ofFile (path : String) (text : Except FileFault String) :
    Except PipelineError Pipeline :=
  match text with
  | .error fault => .error (.cannotRead path fault)
  | .ok text => Pipeline.ofToml text

/-- Reads a pipeline from a file. -/
def Pipeline.load (fs : FileTable) (path : String) : Except PipelineError Pipeline :=
  Pipeline.ofFile path (fs.readText path)

/-- Writes a pipeline to a file, and makes the directory of the file if there is none. -/
def Pipeline.save (p : Pipeline) (path : String) : Change PipelineError FileSystem Unit := do
  let fs ← get
  match Path.parent? path with
  | some parent =>
    if parent ≠ "" ∧ ¬ fs.pathExists parent then
      (FileSystem.makeDirectories parent).adaptExcept (.cannotCreate parent)
  | none => pure ()
  (FileSystem.write path p.toToml.toUTF8).adaptExcept (.cannotWrite path)

end Filtergraph
