import Filtergraph.Files.System
import Filtergraph.Graph

/-!
# What can be wrong with a pipeline

The causes for which a pipeline is not read, built or compiled, and their wording.
-/

namespace Filtergraph

/-- What is wrong with a parameter of a filter. -/
inductive ParameterFault where
  /-- It has no value and no default. -/
  | missing
  /-- The filter has no such parameter. -/
  | unknown
  /-- The value is a list, a table or a date. -/
  | notScalar
  /-- The value is no numeral of the type. -/
  | unreadable (value type : String)
  | notPositive
deriving DecidableEq

/-- The wording of a parameter fault. -/
def ParameterFault.message : ParameterFault → String
  | missing => "missing required value"
  | unknown => "unknown parameter"
  | notScalar => "expected a string, number or boolean"
  | unreadable value type => "cannot parse '" ++ value ++ "' as " ++ type
  | notPositive => "must be a positive number"

/-- Why a pipeline is refused. -/
inductive PipelineError where
  | cannotRead (path : String) (fault : FileFault)
  | cannotWrite (path : String) (fault : FileFault)
  | cannotCreate (path : String) (fault : FileFault)
  /-- The text is no document, or not the document of a pipeline. -/
  | malformed
  | pipelineNotFound (name : String)
  | unknownFilter (id : String)
  /-- A reference to something that is not declared, or only later. -/
  | unknownName (name : String)
  /-- A root that names a media file. -/
  | notANode (name : String)
  | duplicateName (name : String)
  | invalidParameter (filter parameter : String) (fault : ParameterFault)
  /-- A name or reference that selects no stream in a proper way. -/
  | invalidStream (reference : String)
  | invalidTime (name : String) (seconds : Double)
  | noNodes
  | graph (error : GraphError)
deriving DecidableEq

namespace PipelineError

/-- The wording of an error. -/
def message : PipelineError → String
  | cannotRead path fault => "failed to read file '" ++ path ++ "': " ++ fault.message
  | cannotWrite path fault => "failed to write file '" ++ path ++ "': " ++ fault.message
  | cannotCreate path fault => "failed to create directory '" ++ path ++ "': " ++ fault.message
  | malformed => "failed to parse TOML: not a pipeline document"
  | pipelineNotFound name => "pipeline not found: " ++ name
  | unknownFilter id => "unknown filter kind: " ++ id
  | unknownName name => "unknown input or node '" ++ name ++ "'"
  | notANode name => "'" ++ name ++ "' names an input, not a node"
  | duplicateName name => "duplicate name '" ++ name ++ "'"
  | invalidParameter filter parameter fault =>
    "invalid parameter '" ++ parameter ++ "' for filter '" ++ filter ++ "': " ++ fault.message
  | invalidStream reference => "invalid stream selection '" ++ reference ++ "'"
  | invalidTime name seconds => "invalid time for '" ++ name ++ "': " ++ seconds.text
  | noNodes => "pipeline declares no nodes"
  | graph error => "graph error: " ++ error.message

/-- The wording of the cause behind an error, if it wraps one. -/
def cause? : PipelineError → Option String
  | cannotRead _ fault => some fault.message
  | cannotWrite _ fault => some fault.message
  | cannotCreate _ fault => some fault.message
  | malformed => some "not a pipeline document"
  | graph error => some error.message
  | _ => none

end PipelineError

end Filtergraph
