import Clausal.CommandLine.Build

/-!
# Arguments

The command line takes an input file and three options.

* `--config FILE`, once;
* `-C OPTION=VALUE` or `--config-option OPTION=VALUE`, any number of times;
* `--procedure NAME`, once, in letters of either case.

A long option takes its value after an equals sign or as the next argument, a short one also right
behind its letter.  After `--` every argument is an input file.  The first `-h`, `--help`, `-V` or
`--version` decides what is done, unless an argument before it is unknown.
-/

set_option autoImplicit false

namespace Clausal.CommandLine

inductive Opt
  | config
  | configOption
  | procedure
  deriving DecidableEq, Repr

structure Scan where
  input : Option (List UInt8) := none
  /-- The values of the options, the last one first. -/
  values : List (Opt × List UInt8) := []
  /-- The options that occurred, the last one first. -/
  occurrences : List Opt := []
  /-- The option whose value is the next argument. -/
  waiting : Option Opt := none
  onlyInputs : Bool := false

inductive ScanStep
  | next (scan : Scan)
  | stop (code : Nat) (lines : List String)

def versionText : String := "trisat 0.1.0"

def usageText : List String :=
  ["usage: trisat [--config FILE] [-C OPTION=VALUE]... [--procedure NAME] [INPUT]",
    "", "-C help lists the options of the configuration."]

namespace ScanStep

def usage : ScanStep := .stop 1 []

def help : ScanStep := .stop 0 usageText

def version : ScanStep := .stop 0 [versionText]

end ScanStep

def hyphen : UInt8 := 45

def equalsSign : UInt8 := 61

namespace Scan

def give (scan : Scan) (opt : Opt) (value : List UInt8) : Scan :=
  { scan with
    values := (opt, value.dropWhile (· == equalsSign)) :: scan.values
    occurrences := opt :: scan.occurrences
    waiting := none }

def await (scan : Scan) (opt : Opt) : Scan :=
  { scan with occurrences := opt :: scan.occurrences, waiting := some opt }

def addInput (scan : Scan) (argument : List UInt8) : ScanStep :=
  match scan.input with
  | some _ => .usage
  | none => .next { scan with input := some argument }

def long (scan : Scan) (text : List UInt8) : ScanStep :=
  let option (opt : Opt) : ScanStep :=
    match text.dropWhile (· != equalsSign) with
    | [] => .next (scan.await opt)
    | value => .next (scan.give opt value)
  match Utf8.decode? (text.takeWhile (· != equalsSign)) with
  | some "config" => option .config
  | some "config-option" => option .configOption
  | some "procedure" => option .procedure
  | some "help" => .help
  | some "version" => .version
  | _ => .usage

def short (scan : Scan) : List UInt8 → ScanStep
  | [] => .usage
  | letter :: value =>
      match Char.ofNat letter.toNat, value with
      | 'C', [] => .next (scan.await .configOption)
      | 'C', value => .next (scan.give .configOption value)
      | 'h', _ => .help
      | 'V', _ => .version
      | _, _ => .usage

def argument (scan : Scan) (text : List UInt8) : ScanStep :=
  let hyphens := text.takeWhile (· == hyphen)
  let stripped := text.dropWhile (· == hyphen)
  if scan.onlyInputs then scan.addInput text
  else if text = [hyphen, hyphen] then .next { scan with onlyInputs := true }
  else if 2 ≤ hyphens.length then scan.long stripped
  else if hyphens.length = 1 ∧ stripped ≠ [] then scan.short stripped
  else
    match scan.waiting with
    | some opt => .next { scan with values := (opt, text) :: scan.values, waiting := none }
    | none => scan.addInput text

def arguments (scan : Scan) : List (List UInt8) → ScanStep
  | [] => .next scan
  | text :: rest =>
      match scan.argument text with
      | .next next => next.arguments rest
      | .stop code lines => .stop code lines

def valuesOf (scan : Scan) (opt : Opt) : List (List UInt8) :=
  ((scan.values.filter fun value => value.1 == opt).map Prod.snd).reverse

/-- Whether an option that occurred has no value. -/
def isBare (scan : Scan) (opt : Opt) : Bool :=
  scan.occurrences.contains opt && (scan.valuesOf opt).isEmpty

def finish (scan : Scan) : Parsed :=
  if [Opt.config, Opt.configOption, Opt.procedure].any scan.isBare then .exit 1 []
  else if scan.occurrences.count .config > 1 || scan.occurrences.count .procedure > 1 then
    .exit 1 []
  else if (scan.valuesOf .procedure).any fun name => (procedureNamed? name).isNone then .exit 1 []
  else .values {
    input := scan.input
    configFile := (scan.valuesOf .config).head?
    configOptions := scan.valuesOf .configOption
    procedure := (scan.valuesOf .procedure).head? }

end Scan

def parseArguments (arguments : List (List UInt8)) : Parsed :=
  match ({} : Scan).arguments arguments with
  | .next scan => scan.finish
  | .stop code lines => .exit code lines

theorem Scan.isSome_of_finish {scan : Scan} {values : Values} {name : List UInt8}
    (finished : scan.finish = .values values) (named : name ∈ values.procedure) :
    (procedureNamed? name).isSome = true := by
  rw [finish] at finished
  split at finished
  · cases finished
  · split at finished
    · cases finished
    · split at finished
      · cases finished
      · next allNamed =>
          cases finished
          have member := List.mem_of_mem_head? named
          simp only [List.any_eq_true, not_exists, not_and, Option.isNone_iff_eq_none] at allNamed
          exact Option.isSome_iff_ne_none.mpr (allNamed name member)

/-- No other name passes for a procedure. -/
theorem isSome_procedureNamed? {arguments : List (List UInt8)} {values : Values} {name : List UInt8}
    (parsed : parseArguments arguments = .values values) (named : name ∈ values.procedure) :
    (procedureNamed? name).isSome = true := by
  rw [parseArguments] at parsed
  split at parsed
  · exact Scan.isSome_of_finish parsed named
  · cases parsed

end Clausal.CommandLine
