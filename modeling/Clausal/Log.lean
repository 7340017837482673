/-!
# Log records

What the procedures say while they work.  A record has a level, and a limit lets through the
records of its own level and of the more severe ones.
-/

set_option autoImplicit false

namespace Clausal

/-- How severe a record is, the most severe level first. -/
inductive Level
  | error
  | warn
  | info
  | debug
  | trace
  deriving DecidableEq, Repr

namespace Level

def rank : Level → Nat
  | .error => 1
  | .warn => 2
  | .info => 3
  | .debug => 4
  | .trace => 5

def name : Level → String
  | .error => "ERROR"
  | .warn => "WARN"
  | .info => "INFO"
  | .debug => "DEBUG"
  | .trace => "TRACE"

def all : List Level := [.error, .warn, .info, .debug, .trace]

def ofName? (name : String) : Option Level :=
  all.find? fun level => level.name == name.toUpper

def admits (limit level : Level) : Bool := level.rank ≤ limit.rank

end Level

structure Record where
  level : Level
  text : String
  deriving DecidableEq, Repr

namespace Record

def error (text : String) : Record := ⟨.error, text⟩
def warn (text : String) : Record := ⟨.warn, text⟩
def info (text : String) : Record := ⟨.info, text⟩
def debug (text : String) : Record := ⟨.debug, text⟩
def trace (text : String) : Record := ⟨.trace, text⟩

instance : ToString Record := ⟨fun record => s!"{record.level.name} {record.text}"⟩

end Record

def admitted (limit : Level) (log : Array Record) : List Record :=
  log.toList.filter fun record => limit.admits record.level

end Clausal
