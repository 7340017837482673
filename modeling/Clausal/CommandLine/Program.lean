import Clausal.CommandLine.Build
import Clausal.CommandLine.FileError
import Clausal.Solver

/-!
# The program

The program reads its configuration and a formula, decides the formula and reports the verdict.
Sources of the configuration apply in order: the defaults, the configuration file, the options
from left to right, the procedure.  It exits with 10 for a satisfiable formula, with 20 for an
unsatisfiable one and with 1 when it fails.  A value of the command line that is needed as a text
and is none makes it panic.

Everything it prints is a comment, but for the status line and the line of the model.
-/

set_option autoImplicit false

namespace Clausal.CommandLine

structure Environment where
  /-- The variable `TRISAT_LOG`, if it is set. -/
  logSetting : Option (List UInt8)
  /-- Opens the file at a path.  Reading it may still fail. -/
  openFile : String → Except FileError (List Dimacs.Piece)
  stdin : List Dimacs.Piece

inductive Failure
  | config (message : String)
  | file (error : FileError)
  | parse (error : Dimacs.ParseError)
  | solve (error : SolveError)
  deriving DecidableEq

def Failure.message : Failure → String
  | .config message => message
  | .file error => error.message
  | .parse error => error.message
  | .solve error => error.message

inductive Stop
  | failure (cause : Failure)
  /-- A panic: a value is no text. -/
  | notText
  /-- A panic: there is no procedure of that name. -/
  | noProcedure
  deriving DecidableEq

inductive Line
  /-- A log record, printed if the filter lets it through. -/
  | record (entry : Record)
  | elapsed
  | failure (cause : Failure)
  /-- A line that is always printed. -/
  | text (written : String)
  deriving DecidableEq

namespace Line

def record? (time : String) : Line → Option Record
  | .record entry => some entry
  | .elapsed => some (.info s!"Solved in {time}")
  | .failure cause => some (.error cause.message)
  | .text _ => none

/-- How a record is printed; its level is left out where it is the usual one. -/
def recordText (entry : Record) : String :=
  if entry.level = .info then s!"c {entry.text}"
  else s!"c {entry.level.name}: {entry.text}"

def print? (admits : Record → Bool) (time : String) (line : Line) : Option String :=
  match line with
  | .text written => some written
  | other =>
      match other.record? time with
      | some entry => if admits entry then some (recordText entry) else none
      | none => none

end Line

structure Report where
  exitCode : Nat
  lines : List Line
  deriving DecidableEq

namespace Report

def after (report : Report) (lines : List Line) : Report :=
  { report with lines := lines ++ report.lines }

/-- What goes to standard output.  Each text is followed by a newline, and may hold others. -/
def printed (report : Report) (admits : Record → Bool) (time : String) : List String :=
  report.lines.filterMap (Line.print? admits time)

end Report

def failureReport (failure : Failure) : Report := ⟨1, [.failure failure]⟩

def panicReport : Report := ⟨101, []⟩

def stopReport : Stop → Report
  | .failure cause => failureReport cause
  | .notText => panicReport
  | .noProcedure => panicReport

section Run

variable (build : Build) (environment : Environment)

/-- The filter of the log.  A setting that is no text counts as none. -/
def logFilter : Record → Bool :=
  match environment.logSetting.bind Utf8.decode? with
  | none => fun entry => Level.info.admits entry.level
  | some setting => build.filterOf setting

def banner : List Line :=
  [.record (.info s!"This is trisat {build.version}"),
    .record (.info s!"  {build.profile} build - {build.compiler}")]

def readAll (pieces : List Dimacs.Piece) : Except FileError (List UInt8) :=
  match Dimacs.chunks pieces with
  | (chunks, none) => .ok chunks.flatten
  | (_, some text) => .error (.other text)

def readConfig (path : String) : Except Failure ConfigUpdate :=
  match environment.openFile path with
  | .error error => .error (.file error)
  | .ok pieces =>
      match readAll pieces with
      | .error error => .error (.file error)
      | .ok bytes =>
          match Utf8.decode? bytes with
          | none => .error (.file .notText)
          | some text =>
              match build.readUpdate text with
              | .error message => .error (.config message)
              | .ok update => .ok update

def fileUpdate : Option (List UInt8) → Except Stop ConfigUpdate
  | none => .ok {}
  | some path =>
      match Utf8.decode? path with
      | none => .error .notText
      | some path =>
          match readConfig build environment path with
          | .error failure => .error (.failure failure)
          | .ok update => .ok update

def mergeTexts (update : ConfigUpdate) : List String → Except Failure ConfigUpdate
  | [] => .ok update
  | text :: rest =>
      match build.readUpdate text with
      | .error message => .error (.config message)
      | .ok next => mergeTexts (update.merge next) rest

def procedureUpdate : Option (List UInt8) → Except Stop ConfigUpdate
  | none => .ok {}
  | some name =>
      match Utf8.decode? name with
      | none => .error .notText
      | some name =>
          match Procedure.ofName? name.toLower with
          | none => .error .noProcedure
          | some procedure => .ok { procedure := some procedure }

def configUpdate (values : Values) (options : List String) : Except Stop ConfigUpdate :=
  match fileUpdate build environment values.configFile with
  | .error stop => .error stop
  | .ok update =>
      match mergeTexts build update options with
      | .error failure => .error (.failure failure)
      | .ok update =>
          match procedureUpdate values.procedure with
          | .error stop => .error stop
          | .ok last => .ok (update.merge last)

/-- Where the formula is read from: the line that says so, and the pieces of the input. -/
def openInput : Option String → Line × Except Failure (List Dimacs.Piece)
  | none => (.record (.info "Reading from stdin"), .ok environment.stdin)
  | some path =>
      (.record (.info s!"Reading file '{path}'"),
        match environment.openFile path with
        | .error error => .error (.file error)
        | .ok pieces => .ok pieces)

def modelText (model : List Lit) : String :=
  "v" ++ String.join (model.map fun l => s!" {l}") ++ " 0"

def verdictReport (solver : Solver) (sat : Bool) : Report :=
  if sat then
    let model := match solver.model with
      | some model => [Line.text (modelText model)]
      | none => []
    ⟨10, .text "s SATISFIABLE" :: model⟩
  else
    ⟨20, [.text "s UNSATISFIABLE"]⟩

def logLines (log : Array Record) : List Line := log.toList.map Line.record

def solveReport (solver : Solver) : Report :=
  let reply := solver.solve
  let report := match reply.answer with
    | .error error => failureReport (.solve error)
    | .ok sat =>
        (verdictReport reply.solver sat).after
          [.elapsed, .record (.info (toString reply.solver.stats))]
  report.after (logLines reply.log)

def readFailure : Dimacs.ReadError Empty → Failure
  | .parse error => .parse error
  | .input text => .file (.other text)

def loadReport (solver : Solver) (input : List Dimacs.Piece) : Report :=
  let loaded := solver.addDimacs input
  let report := match loaded.answer with
    | .error error => failureReport (readFailure error)
    | .ok () => solveReport loaded.solver
  report.after (logLines loaded.log)

def inputReport (solver : Solver) (path : Option String) : Report :=
  let (line, input) := openInput environment path
  let report := match input with
    | .error failure => failureReport failure
    | .ok pieces => loadReport solver pieces
  report.after [line]

def runValues (values : Values) (options : List String) : Report :=
  match configUpdate build environment values options with
  | .error stop => stopReport stop
  | .ok update =>
      match values.input.mapM Utf8.decode? with
      | none => stopReport .notText
      | some path => inputReport environment (Solver.new.configure update) path

def run (arguments : List (List UInt8)) : Report :=
  match build.parseArguments arguments with
  | .exit code lines => ⟨code, lines.map .text⟩
  | .values values =>
      match values.configOptions.mapM Utf8.decode? with
      | none => stopReport .notText
      | some options =>
          if options.contains "help" then
            ⟨0, (Config.help.splitOn "\n").dropLast.map .text⟩
          else
            (runValues build environment values options).after (banner build)

end Run

end Clausal.CommandLine
