import Clausal.Config
import Clausal.Builtin.Toml.Document

/-!
# Configuration texts

An update is written as a TOML document with the option names as keys.  A procedure is a string,
or a table that holds an empty table under the name of the procedure.  Options that do not exist
and procedures that do not exist are reported by name, all other faults of a text as one.
-/

set_option autoImplicit false

namespace Clausal

inductive ConfigError
  | unknownField (name : String)
  | unknownVariant (name : String)
  /-- The text is no document, or an option has a value of another kind or two values. -/
  | malformed
  deriving DecidableEq, Repr

def ConfigError.message : ConfigError → String
  | .unknownField name =>
      s!"unknown field `{name}`, expected one of `procedure`, `pure_literals`, " ++
        "`check_model`"
  | .unknownVariant name =>
      s!"unknown variant `{name}`, expected one of `dp`, `dpll`, `resolution`"
  | .malformed => "malformed configuration"

inductive ConfigField
  | procedure
  | pureLiterals
  | checkModel
  deriving DecidableEq, Repr

def ConfigField.ofName? : String → Option ConfigField
  | "procedure" => some .procedure
  | "pure_literals" => some .pureLiterals
  | "check_model" => some .checkModel
  | _ => none

namespace ConfigUpdate

open Toml (Value Entries Table Document)

def procedureNamed (name : String) : Except ConfigError Procedure :=
  match Procedure.ofName? name with
  | some procedure => .ok procedure
  | none => .error (.unknownVariant name)

def isEmptyTable : Value → Bool
  | .inlineTable entries => entries.isEmpty
  | .dottedTable entries => entries.isEmpty
  | _ => false

def procedureOf : Value → Except ConfigError Procedure
  | .string name => procedureNamed name
  | .inlineTable [(name, value)] =>
      match procedureNamed name with
      | .error error => .error error
      | .ok procedure => if isEmptyTable value then .ok procedure else .error .malformed
  | _ => .error .malformed

def booleanOf : Value → Except ConfigError Bool
  | .boolean value => .ok value
  | _ => .error .malformed

/-- Sets one option that is not set yet. -/
def setEntry (update : ConfigUpdate) (name : String) (value : Value) :
    Except ConfigError ConfigUpdate :=
  match ConfigField.ofName? name with
  | none => .error (.unknownField name)
  | some .procedure =>
      if update.procedure.isSome then .error .malformed
      else (procedureOf value).map fun procedure => { update with procedure := some procedure }
  | some .pureLiterals =>
      if update.pureLiterals.isSome then .error .malformed
      else (booleanOf value).map fun value => { update with pureLiterals := some value }
  | some .checkModel =>
      if update.checkModel.isSome then .error .malformed
      else (booleanOf value).map fun value => { update with checkModel := some value }

def setEntries (update : ConfigUpdate) : Entries → Except ConfigError ConfigUpdate
  | [] => .ok update
  | (name, value) :: rest =>
      match update.setEntry name value with
      | .error error => .error error
      | .ok next => next.setEntries rest

/-- Reads a document that is one table: it can name a procedure by the last part of its header. -/
def ofTable (table : Table) : Except ConfigError ConfigUpdate :=
  match table.header with
  | [] => .error .malformed
  | name :: parts =>
      match ConfigField.ofName? name with
      | none => .error (.unknownField name)
      | some .procedure =>
          match procedureNamed (parts.getLast?.getD name) with
          | .error error => .error error
          | .ok procedure =>
              if table.entries.isEmpty then .ok { procedure := some procedure }
              else .error .malformed
      | some _ => .error .malformed

/-- Refuses a table beside other entries or tables. -/
def refuseTable (table : Table) : ConfigError :=
  match table.header with
  | [] => .malformed
  | name :: _ =>
      match ConfigField.ofName? name with
      | none => .unknownField name
      | some _ => .malformed

def ofDocument (document : Document) : Except ConfigError ConfigUpdate :=
  match document.root, document.tables with
  | [], [table] => ofTable table
  | entries, tables =>
      match ({} : ConfigUpdate).setEntries entries with
      | .error error => .error error
      | .ok update =>
          match tables with
          | [] => .ok update
          | table :: _ => .error (refuseTable table)

def ofText (text : String) : Except ConfigError ConfigUpdate :=
  match Document.parse? text with
  | none => .error .malformed
  | some document => ofDocument document

end ConfigUpdate

end Clausal
