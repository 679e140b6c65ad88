import CertifiedPlanning.CommandLine.Seconds
import CertifiedPlanning.Model.Catalog

/-!
# Arguments of the command line

The first argument names the model, the others are flags with a value each. A flag given twice
counts once, with its last value.
-/

namespace CertifiedPlanning.CommandLine

/-- What the command line asks for. -/
structure Arguments where
  model : String
  config : Option String
  seconds : Float
  policyOut : Option String
  scriptOut : Option String

/-- How the command is to be called. -/
def usage : String :=
  "usage: anytime_mdp <" ++ "|".intercalate Catalog.names
    ++ "> [--config FILE] [--time SECS] [--policy OUT] [--script OUT]"

/-- Reads flags and their values. -/
def readFlags (args : Arguments) : List String → Except String Arguments
  | [] => .ok args
  | [flag] => .error (flag ++ " needs a value\n" ++ usage)
  | flag :: value :: rest =>
      match flag with
      | "--config" => readFlags { args with config := some value } rest
      | "--time" =>
          match Seconds.parse? value with
          | some seconds => readFlags { args with seconds := seconds } rest
          | none => .error ("bad --time " ++ quoted value)
      | "--policy" => readFlags { args with policyOut := some value } rest
      | "--script" => readFlags { args with scriptOut := some value } rest
      | _ => .error ("unknown flag " ++ flag ++ "\n" ++ usage)

/-- Reads the arguments; a refusal is a text for the user. -/
def readArguments : List String → Except String Arguments
  | [] => .error usage
  | model :: flags => readFlags ⟨model, none, 10.0, none, none⟩ flags

end CertifiedPlanning.CommandLine
