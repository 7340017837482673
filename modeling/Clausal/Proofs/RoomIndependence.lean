import Clausal.Elimination
import Clausal.Search
import Clausal.Proofs.AssignmentSlots

/-!
# Room of assignments

The room that an assignment has is there for its slots.  Giving an assignment more room beforehand
changes nothing that a call does to it, nothing that is asked of it and no step of a procedure: the
procedures with more room run as they do with less, and what they find has more room
(`propagate_roomier`, `searchFrom_roomier`, `eliminate_roomier`).

So assignments that start with different room show no difference under the same calls, and the
procedures come to the same true literals, outcome, counters and log for every number of variables
(`room_unobservable`).  What uses an assignment by its calls and answers only does the same on
slots, which is shown in `Clausal.Proofs.AssignmentClients`.
-/

set_option autoImplicit false

namespace Clausal

namespace Assignment

variable (assignment : Assignment) (room : Nat)

def roomier : Assignment := { assignment with room := max assignment.room room }

theorem value_roomier : (assignment.roomier room).value = assignment.value := rfl

theorem isTrue_roomier : (assignment.roomier room).isTrue = assignment.isTrue := rfl

theorem isFalse_roomier : (assignment.roomier room).isFalse = assignment.isFalse := rfl

theorem satisfies_roomier : (assignment.roomier room).satisfies = assignment.satisfies := rfl

theorem answers_roomier : (assignment.roomier room).answers = assignment.answers := rfl

theorem withRoom_eq_roomier : withRoom room = (withRoom 0).roomier room := by
  rw [roomier, withRoom, withRoom, Nat.zero_max]

/-- Both the room given beforehand and the room for the literal are a maximum, in either order. -/
theorem assign_roomier (l : Lit) :
    (assignment.roomier room).assign l = (assignment.assign l).map (·.roomier room) := by
  unfold assign
  rw [value_roomier]
  cases assignment.value l.var with
  | some polarity => rfl
  | none =>
      have sameRoom := Nat.max_right_comm assignment.room room (l.index + 1)
      simp only [roomier, sameRoom, Except.map]

theorem assignVar_roomier (v : Var) (polarity : Bool) :
    (assignment.roomier room).assignVar v polarity =
      (assignment.assignVar v polarity).map (·.roomier room) :=
  assignment.assign_roomier room (v.lit polarity)

theorem unassign_roomier (v : Var) :
    (assignment.roomier room).unassign v = (assignment.unassign v).roomier room := rfl

theorem afterCall_roomier (result : Except Fault Assignment) :
    afterCall (assignment.roomier room) (result.map (·.roomier room)) =
      (afterCall assignment result).map (·.roomier room) id := by
  cases result <;> rfl

theorem perform_roomier (call : Call) :
    (assignment.roomier room).perform call = (assignment.perform call).map (·.roomier room) id := by
  cases call with
  | assign l => rw [perform, assign_roomier, afterCall_roomier, perform]
  | assignVar v polarity => rw [perform, assignVar_roomier, afterCall_roomier, perform]
  | unassign v => rfl

end Assignment

/-! ## Propagation and search -/

section Search

variable {clauses : List (List Lit)} {pureLiterals : Bool} (room : Nat)

theorem reduce?_roomier (assignment : Assignment) (clauses : List (List Lit)) :
    reduce? (assignment.roomier room) clauses = reduce? assignment clauses := by
  induction clauses with
  | nil => rfl
  | cons clause rest inductionHypothesis =>
      rw [reduce?, reduce?, Assignment.isTrue_roomier, Assignment.isFalse_roomier,
        inductionHypothesis]

theorem nextStep_roomier (assignment : Assignment) :
    nextStep clauses pureLiterals (assignment.roomier room) =
      nextStep clauses pureLiterals assignment := by
  rw [nextStep, nextStep, reduce?_roomier]

/-- One step of propagation and what follows it. -/
theorem propagate_step (assignment : Assignment) (progress : Progress) :
    propagate clauses pureLiterals assignment progress =
      match nextStep clauses pureLiterals assignment with
      | .conflict => .done progress (.conflict, assignment)
      | .satisfied => .done progress (.satisfied, assignment)
      | .branch l => .done progress (.undecided l, assignment)
      | .force rule l =>
          match assignment.assign l with
          | .ok next => propagate clauses pureLiterals next (progress.force rule l)
          | .error fault => .stopped (progress.force rule l) fault := by
  rw [propagate]
  split
  · next step => rw [step]
  · next step => rw [step]
  · next step => rw [step]
  · next step =>
      rw [step]
      split <;> next assigned => simp only [assigned]

theorem propagate_roomier (assignment : Assignment) (progress : Progress) :
    propagate clauses pureLiterals (assignment.roomier room) progress =
      (propagate clauses pureLiterals assignment progress).map (Prod.map id (·.roomier room)) := by
  fun_induction propagate clauses pureLiterals assignment progress with
  | case1 assignment progress step =>
      rw [propagate_step, nextStep_roomier, step]
      rfl
  | case2 assignment progress step =>
      rw [propagate_step, nextStep_roomier, step]
      rfl
  | case3 assignment progress l step =>
      rw [propagate_step, nextStep_roomier, step]
      rfl
  | case4 assignment progress rule l step next assigned inductionHypothesis =>
      rw [propagate_step, nextStep_roomier, step]
      simp only [Assignment.assign_roomier, assigned]
      exact inductionHypothesis
  | case5 assignment progress rule l step fault failed =>
      rw [propagate_step, nextStep_roomier, step]
      simp only [Assignment.assign_roomier, failed]
      rfl

def Visit.mapNodes (change : Assignment → Assignment) : Visit → Visit
  | .over run => .over (run.map (Option.map change))
  | .next stack progress => .next (stack.map change) progress

theorem visit_roomier (stack : List Assignment) (progress : Progress) :
    visit clauses pureLiterals (stack.map (·.roomier room)) progress =
      (visit clauses pureLiterals stack progress).mapNodes (·.roomier room) := by
  cases stack with
  | nil => rfl
  | cons node waiting =>
      -- The height of the stack shows in the log, and it stays.
      simp only [List.map_cons, visit, propagate_roomier, List.length_map]
      cases propagate clauses pureLiterals node progress with
      | mk after result =>
          cases result with
          | error fault => rfl
          | ok answer =>
              obtain ⟨outcome, leaf⟩ := answer
              cases outcome with
              | conflict => rfl
              | satisfied => rfl
              | undecided l =>
                  simp only [Run.map, Except.map, Prod.map, id_eq, Assignment.assignVar_roomier]
                  cases leaf.assignVar l.var false with
                  | error fault => rfl
                  | ok whenFalse =>
                      cases leaf.assignVar l.var true with
                      | error fault => rfl
                      | ok whenTrue => rfl

/-- One visit of the search and what follows it. -/
theorem searchFrom_step (stack : List Assignment) (progress : Progress) :
    searchFrom clauses pureLiterals stack progress =
      match visit clauses pureLiterals stack progress with
      | .over run => run
      | .next rest after => searchFrom clauses pureLiterals rest after := by
  rw [searchFrom]
  split <;> next visited => rw [visited]

theorem searchFrom_roomier (stack : List Assignment) (progress : Progress) :
    searchFrom clauses pureLiterals (stack.map (·.roomier room)) progress =
      (searchFrom clauses pureLiterals stack progress).map (Option.map (·.roomier room)) := by
  fun_induction searchFrom clauses pureLiterals stack progress with
  | case1 stack progress run visited =>
      rw [searchFrom_step, visit_roomier, visited]
      rfl
  | case2 stack progress rest after visited inductionHypothesis =>
      rw [searchFrom_step, visit_roomier, visited]
      exact inductionHypothesis

theorem search_roomier (clauses : List (List Lit)) (progress : Progress) :
    search clauses room pureLiterals progress =
      (search clauses 0 pureLiterals progress).map (Option.map (·.roomier room)) := by
  rw [search, search, Assignment.withRoom_eq_roomier room]
  cases simplifyWritten clauses with
  | unsat => rfl
  | sat => rfl
  | remaining kept => exact searchFrom_roomier room [.withRoom 0] progress

end Search

/-! ## Elimination -/

section Elimination

variable (room : Nat)

theorem fillFalse_roomier (pivot : Var) (assignment : Assignment) (lits : List Lit) :
    fillFalse pivot (assignment.roomier room) lits =
      (fillFalse pivot assignment lits).map (·.roomier room) := by
  induction lits generalizing assignment with
  | nil => rfl
  | cons l rest inductionHypothesis =>
      rw [fillFalse, fillFalse, Assignment.value_roomier, Assignment.assignVar_roomier]
      split
      · cases assignment.assignVar l.var false with
        | error fault => rfl
        | ok next => exact inductionHypothesis next
      · exact inductionHypothesis assignment

theorem isSatisfied_roomier (level : EliminationLevel) (assignment : Assignment) :
    level.isSatisfied (assignment.roomier room) = level.isSatisfied assignment := by
  rw [EliminationLevel.isSatisfied, Assignment.satisfies_roomier, EliminationLevel.isSatisfied]

theorem extendModel_roomier (level : EliminationLevel) (assignment : Assignment) :
    extendModel level (assignment.roomier room) =
      (extendModel level assignment).map (·.roomier room) := by
  rw [extendModel, extendModel, fillFalse_roomier]
  cases fillFalse level.pivot assignment (level.clauses.flatMap Clause.lits) with
  | error fault => rfl
  | ok filled =>
      simp only [Except.map, bind, Except.bind, Assignment.assignVar_roomier]
      cases filled.assignVar level.pivot false with
      | error fault => rfl
      | ok low =>
          simp only [isSatisfied_roomier, Assignment.unassign_roomier, Assignment.assignVar_roomier]
          split
          · rfl
          · cases (low.unassign level.pivot).assignVar level.pivot true with
            | error fault => rfl
            | ok high =>
                simp only [Except.map]
                rw [isSatisfied_roomier]
                split <;> rfl

theorem extendThrough_roomier (assignment : Assignment) (levels : List EliminationLevel) :
    extendThrough (assignment.roomier room) levels =
      (extendThrough assignment levels).map (·.roomier room) := by
  induction levels generalizing assignment with
  | nil => rfl
  | cons level rest inductionHypothesis =>
      rw [extendThrough, extendThrough, extendModel_roomier]
      cases extendModel level assignment with
      | error fault => rfl
      | ok next => exact inductionHypothesis next

theorem eliminate_roomier (clauses : List Clause) (progress : Progress) :
    eliminate clauses room progress =
      (eliminate clauses 0 progress).map (Option.map (·.roomier room)) := by
  rw [eliminate, eliminate, Assignment.withRoom_eq_roomier room]
  cases eliminateFrom [] clauses progress with
  | mk after result =>
      cases result with
      | error fault => rfl
      | ok found =>
          cases found with
          | none => rfl
          | some levels =>
              simp only [extendThrough_roomier]
              cases extendThrough (.withRoom 0) levels <;> rfl

end Elimination

/-! ## Room does not show -/

theorem after_roomier (room : Nat) (calls : List Assignment.Call) :
    Assignment.after room calls = (Assignment.after 0 calls).map (·.roomier room) id := by
  rw [Assignment.after, Assignment.withRoom_eq_roomier]
  exact performAll_view (fun assignment => Assignment.perform_roomier assignment room)
    (Assignment.withRoom 0) calls

theorem answers_after (room : Nat) (calls : List Assignment.Call) :
    (Slots.after room calls).1.answers = (Assignment.after 0 calls).1.answers := by
  have listed : (Slots.after room calls).1.toAssignment = (Assignment.after room calls).1 := by
    rw [after_eq_slots]
    rfl
  rw [← Slots.answers_toAssignment, listed, after_roomier]
  exact Assignment.answers_roomier _ room

/-- The outcome, the counters and the log of a propagation, and what it makes true. -/
def Run.shown (run : Run (Propagation × Assignment)) : Run (Propagation × List Lit) :=
  run.map (Prod.map id Assignment.trueLits)

def Run.shownModel (run : Run (Option Assignment)) : Run (Option (List Lit)) :=
  run.map (Option.map Assignment.trueLits)

theorem Run.shown_roomier (run : Run (Propagation × Assignment)) (room : Nat) :
    (run.map (Prod.map id (·.roomier room))).shown = run.shown := by
  obtain ⟨progress, result⟩ := run
  cases result <;> rfl

theorem Run.shownModel_roomier (run : Run (Option Assignment)) (room : Nat) :
    (run.map (Option.map (·.roomier room))).shownModel = run.shownModel := by
  obtain ⟨progress, result⟩ := run
  cases result with
  | error fault => rfl
  | ok found => cases found <;> rfl

theorem shown_propagate_after (clauses : List (List Lit)) (pureLiterals : Bool) (room : Nat)
    (calls : List Assignment.Call) (progress : Progress) :
    (propagate clauses pureLiterals (Assignment.after room calls).1 progress).shown =
      (propagate clauses pureLiterals (Assignment.after 0 calls).1 progress).shown := by
  rw [after_roomier, Prod.map_fst, propagate_roomier, Run.shown_roomier]

theorem shownModel_eliminate (clauses : List Clause) (room : Nat) (progress : Progress) :
    (eliminate clauses room progress).shownModel = (eliminate clauses 0 progress).shownModel := by
  rw [eliminate_roomier, Run.shownModel_roomier]

theorem shownModel_search (clauses : List (List Lit)) (room : Nat) (pureLiterals : Bool)
    (progress : Progress) :
    (search clauses room pureLiterals progress).shownModel =
      (search clauses 0 pureLiterals progress).shownModel := by
  rw [search_roomier, Run.shownModel_roomier]

/-- Two numbers of slots to start with make no difference that can be seen.  The same calls stop
with a fault, those that give a bound variable a value, and they change nothing; all answers are
those of a finite map; and the procedures come to the same end. -/
theorem room_unobservable (calls : List Assignment.Call) (count other : Nat) :
    Assignment.after count calls = (Slots.after count calls).map Slots.toAssignment id ∧
    ((Slots.after count calls).2 = (Bindings.after calls).2 ∧
      (Slots.after other calls).2 = (Bindings.after calls).2) ∧
    ((Slots.after count calls).1.Shows (Bindings.after calls).1 ∧
      (Slots.after other calls).1.answers = (Slots.after count calls).1.answers) ∧
    (∀ clauses pureLiterals progress,
      (propagate clauses pureLiterals (Assignment.after other calls).1 progress).shown =
        (propagate clauses pureLiterals (Assignment.after count calls).1 progress).shown) ∧
    (∀ clauses progress,
      (eliminate clauses other progress).shownModel =
        (eliminate clauses count progress).shownModel) ∧
    (∀ clauses pureLiterals progress,
      (search clauses other pureLiterals progress).shownModel =
        (search clauses count pureLiterals progress).shownModel) := by
  refine ⟨after_eq_slots count calls, ⟨?_, ?_⟩, ⟨shows_after count calls, ?_⟩, ?_, ?_, ?_⟩
  · rw [bindings_after_slots count]
    rfl
  · rw [bindings_after_slots other]
    rfl
  · rw [answers_after, answers_after]
  · intro clauses pureLiterals progress
    rw [shown_propagate_after, shown_propagate_after clauses pureLiterals count]
  · intro clauses progress
    rw [shownModel_eliminate, shownModel_eliminate clauses count]
  · intro clauses pureLiterals progress
    rw [shownModel_search, shownModel_search clauses count]

end Clausal
