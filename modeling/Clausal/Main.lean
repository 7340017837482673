import Clausal.Builtin.Build
import Clausal.CommandLine.Program

/-!
# The executable

Reads the files that the arguments name and standard input if it is needed, runs the program with
the libraries of its own on them, and prints its report.
-/

set_option autoImplicit false

namespace Clausal.CommandLine

/-- The number of a system error, which some functions of the system give negated. -/
def errorNumber (code : UInt32) : UInt32 :=
  if code < 0x80000000 then code else 0 - code

def fileErrorOf : IO.Error → FileError
  | .noFileOrDirectory .. => .notFound
  | .inappropriateType _ code _ =>
      if errorNumber code = 20 then .notDirectory else .isDirectory
  | .invalidArgument _ code details =>
      let number := errorNumber code
      if number = 36 then .nameTooLong else .other s!"{details} (os error {number})"
  | .permissionDenied _ code _ => .other s!"Permission denied (os error {errorNumber code})"
  | error => .other error.toString

def readPath (path : String) : IO (Except FileError (List Dimacs.Piece)) := do
  try
    let bytes ← IO.FS.readBinFile path
    return .ok [.bytes bytes.toList]
  catch error =>
    return .error (fileErrorOf error)

/-- Reads a stream to its end or its first failure, the last piece first. -/
partial def readStream (stream : IO.FS.Stream) (seen : List Dimacs.Piece) :
    IO (List Dimacs.Piece) := do
  let piece ← try
      let bytes ← stream.read 65536
      pure (Dimacs.Piece.bytes bytes.toList)
    catch error =>
      pure (Dimacs.Piece.failure (fileErrorOf error).message)
  match piece with
  | .bytes [] | .failure _ => return piece :: seen
  | .bytes _ => readStream stream (piece :: seen)

def pathsOf : Parsed → List String
  | .values values =>
      (values.configFile.toList ++ values.input.toList).filterMap Utf8.decode?
  | .exit .. => []

def readsStdin : Parsed → Bool
  | .values values =>
      values.input.isNone && !values.configOptions.contains (Utf8.encode "help")
  | .exit .. => false

def secondsText (milliseconds : Nat) : String :=
  let fraction := toString (milliseconds % 1000)
  let padding := String.ofList (List.replicate (3 - fraction.length) '0')
  s!"{milliseconds / 1000}.{padding}{fraction}s"

end Clausal.CommandLine

open Clausal Clausal.CommandLine in
def main (texts : List String) : IO UInt32 := do
  let arguments := texts.map Utf8.encode
  let parsed := builtin.parseArguments arguments
  let files ← (pathsOf parsed).mapM fun path => do
    return (path, ← readPath path)
  let stdin ← if readsStdin parsed then readStream (← IO.getStdin) [] else pure []
  let environment : Environment := {
    logSetting := (← IO.getEnv "TRISAT_LOG").map Utf8.encode
    openFile := fun path => (files.lookup path).getD (.error .notFound)
    stdin := stdin.reverse }
  let start ← IO.monoMsNow
  let report := run builtin environment arguments
  let exitCode := report.exitCode
  let finish ← IO.monoMsNow
  let elapsed := secondsText (finish - start)
  for text in report.printed (logFilter builtin environment) elapsed do
    IO.println text
  return exitCode.toUInt32
