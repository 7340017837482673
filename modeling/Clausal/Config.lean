/-!
# Configuration

Which procedure decides a formula and with which options.  An update is a partial configuration;
merging updates lets the later one win, and applying an update replaces what it sets.
-/

set_option autoImplicit false

namespace Clausal

/-- A decision procedure.  All are complete; elimination and search also give a model. -/
inductive Procedure
  /-- Variable elimination. -/
  | dp
  /-- Backtracking search. -/
  | dpll
  /-- Saturation under resolution. -/
  | resolution
  deriving DecidableEq, Repr

namespace Procedure

def name : Procedure → String
  | .dp => "dp"
  | .dpll => "dpll"
  | .resolution => "resolution"

def all : List Procedure := [.dp, .dpll, .resolution]

def ofName? (name : String) : Option Procedure :=
  all.find? fun procedure => procedure.name == name

instance : ToString Procedure := ⟨name⟩

end Procedure

structure Config where
  procedure : Procedure := .dpll
  /-- Whether the search assigns pure literals. -/
  pureLiterals : Bool := true
  /-- Whether a found model is checked against the formula. -/
  checkModel : Bool := true
  deriving DecidableEq, Repr, Inhabited

/-- A configuration of which some values may be left open. -/
structure ConfigUpdate where
  procedure : Option Procedure := none
  pureLiterals : Option Bool := none
  checkModel : Option Bool := none
  deriving DecidableEq, Repr, Inhabited

/-- Combines two updates; where both set a value, the second wins. -/
def ConfigUpdate.merge (first second : ConfigUpdate) : ConfigUpdate where
  procedure := second.procedure.or first.procedure
  pureLiterals := second.pureLiterals.or first.pureLiterals
  checkModel := second.checkModel.or first.checkModel

namespace Config

def apply (config : Config) (update : ConfigUpdate) : Config where
  procedure := update.procedure.getD config.procedure
  pureLiterals := update.pureLiterals.getD config.pureLiterals
  checkModel := update.checkModel.getD config.checkModel

def help : String :=
  "procedure = \"dp\" | \"dpll\" | \"resolution\"\n" ++
  "    Decision procedure to use. (Default: \"dpll\")\n" ++
  "pure_literals = true | false\n" ++
  "    Assign pure literals during DPLL propagation. (Default: true)\n" ++
  "check_model = true | false\n" ++
  "    Check a found model against the input formula. (Default: true)\n"

end Config

/-- Applying two updates in turn is applying what they merge to. -/
theorem Config.apply_merge (config : Config) (first second : ConfigUpdate) :
    config.apply (first.merge second) = (config.apply first).apply second := by
  simp only [Config.apply, ConfigUpdate.merge, Config.mk.injEq]
  refine ⟨?_, ?_, ?_⟩
  · cases second.procedure <;> simp
  · cases second.pureLiterals <;> simp
  · cases second.checkModel <;> simp

end Clausal
