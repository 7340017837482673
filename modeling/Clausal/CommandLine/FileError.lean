/-!
# Errors of files

What opening or reading a file can fail with.
-/

set_option autoImplicit false

namespace Clausal.CommandLine

inductive FileError
  | notFound
  | notDirectory
  | isDirectory
  /-- The path, or a part of it on the way, has more bytes than the system allows. -/
  | nameTooLong
  /-- The file is to be read as text and is not UTF-8. -/
  | notText
  | other (text : String)
  deriving DecidableEq, Repr

def FileError.message : FileError → String
  | .notFound => "No such file or directory (os error 2)"
  | .notDirectory => "Not a directory (os error 20)"
  | .isDirectory => "Is a directory (os error 21)"
  | .nameTooLong => "File name too long (os error 36)"
  | .notText => "stream did not contain valid UTF-8"
  | .other text => text

end Clausal.CommandLine
