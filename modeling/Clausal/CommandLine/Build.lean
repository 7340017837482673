import Clausal.Config
import Clausal.Log
import Clausal.Text.Utf8

/-!
# What the program is built from

Libraries split the command line, read configuration texts and filter the log.  The program is the
same whatever they take for a well-formed command line, an accepted text or a filter.  It relies on
a promise of the first one only: a procedure on the command line is one of the procedures
(`Build.Documented`).
-/

set_option autoImplicit false

namespace Clausal.CommandLine

/-- The values in a command line.  They come from the system and need not be texts. -/
structure Values where
  input : Option (List UInt8)
  configFile : Option (List UInt8)
  configOptions : List (List UInt8)
  procedure : Option (List UInt8)
  deriving DecidableEq, Repr

inductive Parsed
  /-- The command line is wrong or asks about the program itself, which ends with some lines. -/
  | exit (code : Nat) (lines : List String)
  | values (values : Values)
  deriving DecidableEq, Repr

/-- The texts that the program is compiled with, and its libraries. -/
structure Build where
  version : String
  profile : String
  compiler : String
  parseArguments : List (List UInt8) → Parsed
  /-- Reads a configuration text, or says why it is refused. -/
  readUpdate : String → Except String ConfigUpdate
  /-- The records that a setting lets through.  Modules do not share the texts of their records, so
  a filter may depend on the module, too. -/
  filterOf : String → Record → Bool

def procedureNamed? (name : List UInt8) : Option Procedure :=
  (Utf8.decode? name).bind fun text => Procedure.ofName? text.toLower

def Values.NameProcedure (values : Values) : Prop :=
  ∀ name ∈ values.procedure, (procedureNamed? name).isSome = true

/-- Other names are refused with the command line. -/
def Build.Documented (build : Build) : Prop :=
  ∀ arguments values, build.parseArguments arguments = .values values → values.NameProcedure

end Clausal.CommandLine
