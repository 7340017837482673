import Clausal.Fault
import Clausal.Log

/-!
# Progress of a procedure

The counters that the procedures keep, and the result of a run: what it counted and logged, and
either an answer or the fault that stopped it.  What was counted and logged before a fault stays.
-/

set_option autoImplicit false

namespace Clausal

structure Stats where
  decisions : Nat := 0
  /-- Branches of the search that ended in a falsified clause. -/
  conflicts : Nat := 0
  propagations : Nat := 0
  pureLiterals : Nat := 0
  eliminatedVars : Nat := 0
  /-- Resolvents generated that are not tautologies. -/
  resolvents : Nat := 0
  saturationRounds : Nat := 0
  deriving DecidableEq, Repr, Inhabited

instance : ToString Stats :=
  ⟨fun stats =>
    s!"decisions: {stats.decisions}, conflicts: {stats.conflicts}, " ++
    s!"propagations: {stats.propagations}, pure literals: {stats.pureLiterals}, " ++
    s!"eliminated variables: {stats.eliminatedVars}, resolvents: {stats.resolvents}, " ++
    s!"saturation rounds: {stats.saturationRounds}"⟩

structure Progress where
  stats : Stats := {}
  log : Array Record := #[]
  deriving DecidableEq, Inhabited

namespace Progress

def note (progress : Progress) (record : Record) : Progress :=
  { progress with log := progress.log.push record }

def count (progress : Progress) (change : Stats → Stats) : Progress :=
  { progress with stats := change progress.stats }

@[simp] theorem stats_note (progress : Progress) (record : Record) :
    (progress.note record).stats = progress.stats := rfl

@[simp] theorem stats_count (progress : Progress) (change : Stats → Stats) :
    (progress.count change).stats = change progress.stats := rfl

end Progress

structure Run (α : Type) where
  progress : Progress
  result : Except Fault α

namespace Run

def done {α : Type} (progress : Progress) (answer : α) : Run α := ⟨progress, .ok answer⟩

def stopped {α : Type} (progress : Progress) (fault : Fault) : Run α := ⟨progress, .error fault⟩

def map {α β : Type} (f : α → β) (run : Run α) : Run β := ⟨run.progress, run.result.map f⟩

theorem map_result_eq_ok_iff {α β : Type} {f : α → β} {run : Run α} {b : β} :
    (run.map f).result = .ok b ↔ ∃ a, run.result = .ok a ∧ f a = b :=
  map_eq_ok_iff

end Run

end Clausal
