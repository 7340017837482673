import Clausal.Builtin.Arguments
import Clausal.Builtin.ConfigText

/-!
# A program with libraries of its own

Libraries that come with the program, so that it runs without any others.
-/

set_option autoImplicit false

namespace Clausal.CommandLine

/-- The filter of a setting that is the name of a level, or that turns the log off.  Any other
setting is passed over. -/
def levelFilter (setting : String) (entry : Record) : Bool :=
  if setting.toLower = "off" then false
  else ((Level.ofName? setting).getD .info).admits entry.level

def builtin : Build where
  version := "0.1.0"
  profile := "debug"
  compiler := "Lean 4"
  parseArguments := parseArguments
  readUpdate text := match ConfigUpdate.ofText text with
    | .ok update => .ok update
    | .error error => .error error.message
  filterOf := levelFilter

theorem documented_builtin : builtin.Documented :=
  fun _ _ parsed _ named => isSome_procedureNamed? parsed named

end Clausal.CommandLine
