import Clausal.CommandLine.FileError
import Clausal.Dimacs.Reader

/-!
# Files in memory

A tree of files held in memory, for runs of the program that touch no real file.  A path is followed
part by part, so the first part that cannot be followed decides how opening it fails.
-/

set_option autoImplicit false

namespace Clausal.CommandLine

/-- Files by the parts of their absolute paths, and the directory where relative paths start. -/
structure FileSystem where
  files : List (List String × List UInt8)
  workingDirectory : List String

namespace FileSystem

def maxPartBytes : Nat := 255

def maxPathBytes : Nat := 4095

/-- A place is a directory if the working directory or a file is below it. -/
def hasDirectory (system : FileSystem) (place : List String) : Bool :=
  place.isPrefixOf system.workingDirectory ||
    system.files.any fun file => place.isPrefixOf file.1

/-- Follows the parts of a path from a directory.  The root is its own parent. -/
def lookup (system : FileSystem) (place : List String) :
    List String → Except FileError (List UInt8)
  | [] => .error .isDirectory
  | part :: rest =>
      if part = "" ∨ part = "." then system.lookup place rest
      else if part = ".." then system.lookup place.dropLast rest
      else if maxPartBytes < part.utf8ByteSize then .error .nameTooLong
      else
        let here := place ++ [part]
        match system.files.find? fun file => file.1 == here with
        | some (_, bytes) => if rest.isEmpty then .ok bytes else .error .notDirectory
        | none => if system.hasDirectory here then system.lookup here rest else .error .notFound

/-- The content of the file at a path, which is absolute if it starts with a slash. -/
def read (system : FileSystem) (path : String) : Except FileError (List UInt8) :=
  if path.isEmpty then .error .notFound
  else if maxPathBytes < path.utf8ByteSize then .error .nameTooLong
  else
    match path.splitOn "/" with
    | "" :: parts => system.lookup [] parts
    | parts => system.lookup system.workingDirectory parts

def openFile (system : FileSystem) (path : String) : Except FileError (List Dimacs.Piece) :=
  (system.read path).map fun bytes => [.bytes bytes]

end FileSystem

end Clausal.CommandLine
