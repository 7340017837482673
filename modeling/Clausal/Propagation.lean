import Clausal.Assignment
import Clausal.Progress

/-!
# Unit propagation and pure literals

Propagation works on the full clause list and a partial assignment.  Clauses with a true literal
are passed over and false literals are dropped; the residual clauses are what still constrains
the open variables.  A residual clause with one literal forces it.  A variable that occurs in the
residual with one polarity only may be given that polarity.  Propagation applies these two rules
until neither applies, unit clauses first.

`openCount` counts the literal occurrences whose variable is open.  Each rule lowers it, so
propagation ends (`openCount_assign_lt`), and propagation never raises it (`openCount_propagate`).
-/

set_option autoImplicit false

namespace Clausal

/-- The residual clauses under an assignment, in their order and with their literals in order;
absent when some clause has all its literals false. -/
def reduce? (assignment : Assignment) : List (List Lit) → Option (List (List Lit))
  | [] => some []
  | clause :: rest =>
      if clause.any assignment.isTrue then reduce? assignment rest
      else
        match clause.filter fun l => !assignment.isFalse l with
        | [] => none
        | l :: lits => (reduce? assignment rest).map ((l :: lits) :: ·)

def pureWith? (lits : List Lit) (polarity : Bool) : Option Lit :=
  ((variablesOfLits lits).find? fun v =>
    lits.contains (v.lit polarity) && !lits.contains (v.lit !polarity)).map (·.lit polarity)

/-- A literal whose variable occurs with one polarity only.  Positive ones come before negative
ones, and smaller variables before larger ones. -/
def pureLit? (residual : List (List Lit)) : Option Lit :=
  (pureWith? residual.flatten true).or (pureWith? residual.flatten false)

def unitLit? : List Lit → Option Lit
  | [l] => some l
  | _ => none

inductive Rule
  | unit
  | pure
  deriving DecidableEq, Repr

inductive Step
  | conflict
  | satisfied
  /-- A rule makes a literal true. -/
  | force (rule : Rule) (l : Lit)
  /-- No rule applies; this is the first open literal of the first residual clause. -/
  | branch (l : Lit)
  deriving DecidableEq

def nextStep (clauses : List (List Lit)) (pureLiterals : Bool) (assignment : Assignment) : Step :=
  match reduce? assignment clauses with
  | none => .conflict
  | some residual =>
      match residual.findSome? unitLit? with
      | some l => .force .unit l
      | none =>
          match if pureLiterals then pureLit? residual else none with
          | some l => .force .pure l
          | none =>
              match residual.flatten with
              | [] => .satisfied
              | l :: _ => .branch l

inductive Propagation
  | conflict
  | satisfied
  /-- Clauses remain; a decision on the variable of this literal is needed. -/
  | undecided (l : Lit)
  deriving DecidableEq

def Rule.count : Rule → Stats → Stats
  | .unit, stats => { stats with propagations := stats.propagations + 1 }
  | .pure, stats => { stats with pureLiterals := stats.pureLiterals + 1 }

def Rule.name : Rule → String
  | .unit => "unit"
  | .pure => "pure"

def Progress.force (progress : Progress) (rule : Rule) (l : Lit) : Progress :=
  (progress.note (.trace s!"{rule.name} {l}")).count rule.count

def openCount (clauses : List (List Lit)) (assignment : Assignment) : Nat :=
  clauses.flatten.countP fun l => (assignment.value l.var).isNone

theorem open_of_mem_residual {assignment : Assignment} {clauses residual : List (List Lit)}
    (reduced : reduce? assignment clauses = some residual) {l : Lit}
    (member : l ∈ residual.flatten) :
    l ∈ clauses.flatten ∧ assignment.value l.var = none := by
  induction clauses generalizing residual with
  | nil =>
      simp only [reduce?, Option.some.injEq] at reduced
      subst reduced
      simp at member
  | cons clause rest inductionHypothesis =>
      unfold reduce? at reduced
      split at reduced
      · have ⟨inRest, unbound⟩ := inductionHypothesis reduced member
        exact ⟨by simp only [List.flatten_cons, List.mem_append]; exact .inr inRest, unbound⟩
      · next noneTrue =>
          split at reduced
          · cases reduced
          · next first others kept =>
              obtain ⟨restResidual, restReduced, isCons⟩ := Option.map_eq_some_iff.mp reduced
              subst isCons
              simp only [List.flatten_cons, List.mem_append] at member ⊢
              rcases member with here | later
              · rw [← kept, List.mem_filter] at here
                refine ⟨.inl here.1, Assignment.value_eq_none_of_open ?_ ?_⟩
                · have notAny := List.any_eq_false.mp (Bool.eq_false_iff.mpr noneTrue) l here.1
                  simpa using notAny
                · simpa using here.2
              · have ⟨inRest, unbound⟩ := inductionHypothesis restReduced later
                exact ⟨.inr inRest, unbound⟩

theorem mem_of_unitLit? {residual : List (List Lit)} {l : Lit}
    (found : residual.findSome? unitLit? = some l) : [l] ∈ residual := by
  obtain ⟨clause, member, isUnit⟩ := List.exists_of_findSome?_eq_some found
  unfold unitLit? at isUnit
  split at isUnit
  · cases isUnit
    exact member
  · cases isUnit

theorem mem_of_pureWith? {lits : List Lit} {polarity : Bool} {l : Lit}
    (found : pureWith? lits polarity = some l) : l ∈ lits := by
  obtain ⟨v, foundVar, isLit⟩ := Option.map_eq_some_iff.mp found
  have holds := List.find?_some foundVar
  simp only [Bool.and_eq_true] at holds
  subst isLit
  simpa using holds.1

theorem mem_of_pureLit? {residual : List (List Lit)} {l : Lit}
    (found : pureLit? residual = some l) : l ∈ residual.flatten := by
  rw [pureLit?, Option.or_eq_some_iff] at found
  rcases found with positive | ⟨_, negative⟩
  · exact mem_of_pureWith? positive
  · exact mem_of_pureWith? negative

theorem open_of_nextStep {clauses : List (List Lit)} {pureLiterals : Bool}
    {assignment : Assignment} {l : Lit}
    (step : (∃ rule, nextStep clauses pureLiterals assignment = .force rule l) ∨
      nextStep clauses pureLiterals assignment = .branch l) :
    l ∈ clauses.flatten ∧ assignment.value l.var = none := by
  unfold nextStep at step
  cases reduced : reduce? assignment clauses with
  | none => simp [reduced] at step
  | some residual =>
      refine open_of_mem_residual reduced ?_
      simp only [reduced] at step
      cases isUnit : residual.findSome? unitLit? with
      | some m =>
          simp only [isUnit, Step.force.injEq, exists_eq_left', reduceCtorEq, or_false] at step
          subst step
          exact List.mem_flatten.mpr ⟨[m], mem_of_unitLit? isUnit, by simp⟩
      | none =>
          simp only [isUnit] at step
          cases isPure : if pureLiterals then pureLit? residual else none with
          | some m =>
              simp only [isPure, Step.force.injEq, reduceCtorEq, or_false, exists_and_right,
                exists_eq', true_and] at step
              subst step
              split at isPure
              · exact mem_of_pureLit? isPure
              · cases isPure
          | none =>
              simp only [isPure] at step
              cases flat : residual.flatten with
              | nil => simp [flat] at step
              | cons m others =>
                  simp only [flat, reduceCtorEq, exists_false, Step.branch.injEq,
                    false_or] at step
                  subst step
                  simp

/-- Binding an open variable of the clauses lowers the count of open occurrences. -/
theorem openCount_assign_lt {clauses : List (List Lit)} {assignment next : Assignment} {l : Lit}
    (member : ∃ m ∈ clauses.flatten, m.var = l.var) (assigned : assignment.assign l = .ok next) :
    openCount clauses next < openCount clauses assignment := by
  obtain ⟨m, occurs, sameVar⟩ := member
  have value := Assignment.value_assign assigned
  refine countP_lt ?_ occurs ?_ ?_
  · intro other isOpen
    rw [value] at isOpen
    split at isOpen
    · cases isOpen
    · exact isOpen
  · rw [value, if_pos sameVar]
    rfl
  · rw [sameVar, Assignment.unbound_of_assign assigned]
    rfl

set_option linter.unusedVariables false in
def propagate (clauses : List (List Lit)) (pureLiterals : Bool) (assignment : Assignment)
    (progress : Progress) : Run (Propagation × Assignment) :=
  match step : nextStep clauses pureLiterals assignment with
  | .conflict => .done progress (.conflict, assignment)
  | .satisfied => .done progress (.satisfied, assignment)
  | .branch l => .done progress (.undecided l, assignment)
  | .force rule l =>
      match assigned : assignment.assign l with
      | .ok next => propagate clauses pureLiterals next (progress.force rule l)
      | .error fault => .stopped (progress.force rule l) fault
  termination_by openCount clauses assignment
  decreasing_by
    have occurs := (open_of_nextStep (.inl ⟨rule, step⟩)).1
    exact openCount_assign_lt ⟨l, occurs, rfl⟩ assigned

theorem openCount_propagate {clauses : List (List Lit)} {pureLiterals : Bool}
    {assignment : Assignment} {progress : Progress} {outcome : Propagation} {next : Assignment}
    (run : (propagate clauses pureLiterals assignment progress).result = .ok (outcome, next)) :
    openCount clauses next ≤ openCount clauses assignment := by
  fun_induction propagate clauses pureLiterals assignment progress with
  | case1 | case2 | case3 =>
      simp only [Run.done, Except.ok.injEq, Prod.mk.injEq] at run
      exact Nat.le_of_eq (congrArg (openCount clauses) run.2.symm)
  | case4 assignment progress rule l step after assigned inductionHypothesis =>
      have occurs := (open_of_nextStep (.inl ⟨rule, step⟩)).1
      have lower := openCount_assign_lt ⟨l, occurs, rfl⟩ assigned
      exact Nat.le_trans (inductionHypothesis run) (Nat.le_of_lt lower)
  | case5 => cases run

theorem mem_of_propagate_undecided {clauses : List (List Lit)} {pureLiterals : Bool}
    {assignment : Assignment} {progress : Progress} {l : Lit} {next : Assignment}
    (run : (propagate clauses pureLiterals assignment progress).result =
      .ok (.undecided l, next)) :
    l ∈ clauses.flatten := by
  fun_induction propagate clauses pureLiterals assignment progress with
  | case1 | case2 | case5 => simp [Run.done, Run.stopped] at run
  | case3 assignment progress m step =>
      simp only [Run.done, Except.ok.injEq, Prod.mk.injEq, Propagation.undecided.injEq] at run
      rw [← run.1]
      exact (open_of_nextStep (.inr step)).1
  | case4 assignment progress rule m step after assigned inductionHypothesis =>
      exact inductionHypothesis run

end Clausal
