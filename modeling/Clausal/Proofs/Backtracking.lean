import Clausal.Proofs.ForcedLiterals
import Clausal.Search

/-!
# Backtracking search

A visit forces literals from a node down to a leaf and then gives the node up, ends the search or
puts two children in its place (`nodeVisit_visit`).  If the clauses have a model at all, some node
still waiting extends to one (`Pending`), and every visit keeps this.  An empty stack therefore
shows that there is none.
-/

set_option autoImplicit false

namespace Clausal

/-! ## Visits -/

def BindsWithin (clauses : List (List Lit)) (assignment : Assignment) : Prop :=
  ∀ v, (assignment.value v).isSome → ∃ l ∈ clauses.flatten, l.var = v

/-- What a visit of a node can come to.  Literals are forced down to a leaf; there the node is
given up, ends the search with a model, or is replaced by its two children. -/
inductive NodeVisit (clauses : List (List Lit)) (pureLiterals : Bool) (node : Assignment)
    (waiting : List Assignment) (progress : Progress) : Visit → Prop
  | conflict {leaf : Assignment} {forced : List (Rule × Lit)}
      (forces : Forces clauses pureLiterals node forced leaf)
      (ends : nextStep clauses pureLiterals leaf = .conflict) :
      NodeVisit clauses pureLiterals node waiting progress
        (.next waiting (progress.forceAll forced).conflict)
  | satisfied {leaf : Assignment} {forced : List (Rule × Lit)}
      (forces : Forces clauses pureLiterals node forced leaf)
      (ends : nextStep clauses pureLiterals leaf = .satisfied) :
      NodeVisit clauses pureLiterals node waiting progress
        (.over (.done (progress.forceAll forced).modelFound (some leaf)))
  | undecided {leaf whenTrue whenFalse : Assignment} {forced : List (Rule × Lit)} {l : Lit}
      (forces : Forces clauses pureLiterals node forced leaf)
      (ends : nextStep clauses pureLiterals leaf = .branch l)
      (assignedTrue : leaf.assignVar l.var true = .ok whenTrue)
      (assignedFalse : leaf.assignVar l.var false = .ok whenFalse) :
      NodeVisit clauses pureLiterals node waiting progress
        (.next (whenTrue :: whenFalse :: waiting)
          ((progress.forceAll forced).decision l.var waiting.length))

section Visit

variable {clauses : List (List Lit)} {pureLiterals : Bool} {assignment next : Assignment}

theorem nodeVisit_visit (clauses : List (List Lit)) (pureLiterals : Bool) (node : Assignment)
    (waiting : List Assignment) (progress : Progress) :
    NodeVisit clauses pureLiterals node waiting progress
      (visit clauses pureLiterals (node :: waiting) progress) := by
  obtain ⟨outcome, leaf, forced, forces, ends, run⟩ :=
    propagate_forces clauses pureLiterals node progress
  rw [visit, run]
  cases outcome with
  | conflict => exact .conflict forces ends
  | satisfied => exact .satisfied forces ends
  | undecided l =>
      have unbound : ∀ polarity, leaf.value (l.var.lit polarity).var = none := by
        intro polarity
        rw [Lit.var_lit]
        exact (open_of_nextStep (.inr ends)).2
      obtain ⟨whenFalse, assignedFalse⟩ := Assignment.assign_of_unbound (unbound false)
      obtain ⟨whenTrue, assignedTrue⟩ := Assignment.assign_of_unbound (unbound true)
      simp only [Run.done, Assignment.assignVar, assignedFalse, assignedTrue]
      exact .undecided forces ends assignedTrue assignedFalse

theorem bindsWithin_withRoom (clauses : List (List Lit)) (room : Nat) :
    BindsWithin clauses (.withRoom room) := by
  intro v bound
  cases bound

theorem bindsWithin_assign (within : BindsWithin clauses assignment) {l : Lit}
    (occurs : ∃ m ∈ clauses.flatten, m.var = l.var) (assigned : assignment.assign l = .ok next) :
    BindsWithin clauses next := by
  intro v bound
  rw [Assignment.value_assign assigned] at bound
  split at bound
  · next same =>
      rw [same]
      exact occurs
  · exact within v bound

theorem Forces.bindsWithin {forced : List (Rule × Lit)}
    (forces : Forces clauses pureLiterals assignment forced next)
    (within : BindsWithin clauses assignment) : BindsWithin clauses next := by
  intro v bound
  cases wasBound : assignment.value v with
  | some polarity => exact within v (by rw [wasBound]; rfl)
  | none => exact forces.occurs_of_mem_vars (forces.mem_vars_iff.mpr ⟨bound, wasBound⟩)

theorem bindsWithin_child (within : BindsWithin clauses assignment) {l : Lit}
    (ends : nextStep clauses pureLiterals assignment = .branch l) {polarity : Bool}
    (assigned : assignment.assignVar l.var polarity = .ok next) : BindsWithin clauses next :=
  bindsWithin_assign within ⟨l, (open_of_nextStep (.inr ends)).1, (Lit.var_lit _ _).symm⟩ assigned

end Visit

/-! ## The search -/

structure Pending (clauses : List (List Lit)) (stack : List Assignment) : Prop where
  within : ∀ node ∈ stack, BindsWithin clauses node
  extendable : Satisfiable clauses → ∃ node ∈ stack, Extendable clauses node

/-- An answer of the search: an assignment with a true literal in every clause, or none because
the clauses have no model. -/
def Answers (clauses : List (List Lit)) : Option Assignment → Prop
  | none => ¬Satisfiable clauses
  | some assignment => BindsWithin clauses assignment ∧
      ∀ clause ∈ clauses, ∃ l ∈ clause, assignment.isTrue l = true

section Search

variable {clauses : List (List Lit)}

theorem extendable_child {leaf whenTrue whenFalse : Assignment} {v : Var}
    (assignedTrue : leaf.assignVar v true = .ok whenTrue)
    (assignedFalse : leaf.assignVar v false = .ok whenFalse)
    (extendable : Extendable clauses leaf) :
    Extendable clauses whenTrue ∨ Extendable clauses whenFalse := by
  obtain ⟨valuation, completes, models⟩ := extendable
  cases value : valuation v with
  | true =>
      refine .inl ⟨valuation, (extends_assign_iff assignedTrue).mpr ⟨completes, ?_⟩, models⟩
      rw [Lit.Holds, Lit.var_lit, Lit.isPositive_lit, value]
  | false =>
      refine .inr ⟨valuation, (extends_assign_iff assignedFalse).mpr ⟨completes, ?_⟩, models⟩
      rw [Lit.Holds, Lit.var_lit, Lit.isPositive_lit, value]

theorem Pending.drop {node : Assignment} {waiting : List Assignment}
    (pending : Pending clauses (node :: waiting)) (dead : ¬Extendable clauses node) :
    Pending clauses waiting where
  within other member := pending.within other (by simp [member])
  extendable satisfiable := by
    obtain ⟨other, member, extendable⟩ := pending.extendable satisfiable
    rcases List.mem_cons.mp member with head | tail
    · rw [head] at extendable
      exact absurd extendable dead
    · exact ⟨other, tail, extendable⟩

theorem Pending.split {node leaf whenTrue whenFalse : Assignment} {waiting : List Assignment}
    (pending : Pending clauses (node :: waiting)) (trueWithin : BindsWithin clauses whenTrue)
    (falseWithin : BindsWithin clauses whenFalse)
    (keeps : Extendable clauses node → Extendable clauses leaf) {v : Var}
    (assignedTrue : leaf.assignVar v true = .ok whenTrue)
    (assignedFalse : leaf.assignVar v false = .ok whenFalse) :
    Pending clauses (whenTrue :: whenFalse :: waiting) where
  within other member := by
    rcases List.mem_cons.mp member with isTrueChild | others
    · rw [isTrueChild]
      exact trueWithin
    · rcases List.mem_cons.mp others with isFalseChild | waits
      · rw [isFalseChild]
        exact falseWithin
      · exact pending.within other (by simp [waits])
  extendable satisfiable := by
    obtain ⟨other, member, extendable⟩ := pending.extendable satisfiable
    rcases List.mem_cons.mp member with head | tail
    · rw [head] at extendable
      rcases extendable_child assignedTrue assignedFalse (keeps extendable) with left | right
      · exact ⟨whenTrue, by simp, left⟩
      · exact ⟨whenFalse, by simp, right⟩
    · exact ⟨other, by simp [tail], extendable⟩

def Visit.Keeps (clauses : List (List Lit)) : Visit → Prop
  | .over run => ∃ found, run.result = .ok found ∧ Answers clauses found
  | .next rest _ => Pending clauses rest

theorem visit_keeps {stack : List Assignment} (pending : Pending clauses stack)
    (pureLiterals : Bool) (progress : Progress) :
    (visit clauses pureLiterals stack progress).Keeps clauses := by
  cases stack with
  | nil =>
      refine ⟨none, rfl, ?_⟩
      intro satisfiable
      obtain ⟨node, member, _⟩ := pending.extendable satisfiable
      cases member
  | cons node waiting =>
      have visited := nodeVisit_visit clauses pureLiterals node waiting progress
      have nodeWithin := pending.within node (by simp)
      generalize visit clauses pureLiterals (node :: waiting) progress = result at visited
      cases visited with
      | conflict forces ends =>
          exact pending.drop fun extendable =>
            not_extendable_of_conflict ends (forces.extendable extendable)
      | satisfied forces ends =>
          exact ⟨_, rfl, forces.bindsWithin nodeWithin, exists_true_of_satisfied ends⟩
      | undecided forces ends assignedTrue assignedFalse =>
          have leafWithin := forces.bindsWithin nodeWithin
          exact pending.split (bindsWithin_child leafWithin ends assignedTrue)
            (bindsWithin_child leafWithin ends assignedFalse) forces.extendable assignedTrue
            assignedFalse

theorem searchFrom_answers {stack : List Assignment} (pending : Pending clauses stack)
    (pureLiterals : Bool) (progress : Progress) :
    ∃ found, (searchFrom clauses pureLiterals stack progress).result = .ok found ∧
      Answers clauses found := by
  fun_induction searchFrom clauses pureLiterals stack progress with
  | case1 stack progress run visited =>
      have keeps := visit_keeps pending pureLiterals progress
      rw [visited] at keeps
      exact keeps
  | case2 stack progress rest after visited inductionHypothesis =>
      have keeps := visit_keeps pending pureLiterals progress
      rw [visited] at keeps
      exact inductionHypothesis keeps

theorem pending_withRoom (clauses : List (List Lit)) (room : Nat) :
    Pending clauses [Assignment.withRoom room] where
  within node member := by
    rw [List.mem_singleton.mp member]
    exact bindsWithin_withRoom clauses room
  extendable satisfiable := by
    obtain ⟨valuation, models⟩ := satisfiable
    refine ⟨Assignment.withRoom room, by simp, valuation, ?_, models⟩
    intro v polarity bound
    cases bound

/-- An assignment that settles the clauses and binds only variables of those that are not
tautologies, or nothing for clauses without a model. -/
def Decides (clauses : List (List Lit)) : Option Assignment → Prop
  | none => ¬Satisfiable clauses
  | some assignment => (∀ v, (assignment.value v).isSome → Constrained clauses v) ∧
      assignment.Settles clauses

theorem decides_of_answers {kept : List (List Lit)}
    (simplified : simplifyWritten clauses = .remaining kept) {found : Option Assignment}
    (answers : Answers kept found) : Decides clauses found := by
  have keptIff : ∀ lits, lits ∈ kept ↔ lits ∈ clauses ∧ Proper lits :=
    mem_kept_iff (fun _ => isTautologyWritten_eq_false_iff) simplified
  cases found with
  | none =>
      rintro ⟨valuation, models⟩
      exact answers ⟨valuation, fun lits member => models lits ((keptIff lits).mp member).1⟩
  | some assignment =>
      obtain ⟨within, allTrue⟩ := answers
      constructor
      · intro v bound
        obtain ⟨l, inKept, sameVar⟩ := within v bound
        obtain ⟨lits, member, inClause⟩ := List.mem_flatten.mp inKept
        obtain ⟨inClauses, proper⟩ := (keptIff lits).mp member
        exact ⟨lits, inClauses, proper, l, inClause, sameVar⟩
      · intro lits member proper
        exact allTrue lits ((keptIff lits).mpr ⟨member, proper⟩)

theorem search_found (clauses : List (List Lit)) (varCount : Nat) (pureLiterals : Bool)
    (progress : Progress) :
    ∃ found, (search clauses varCount pureLiterals progress).result = .ok found ∧
      Decides clauses found := by
  cases simplified : simplifyWritten clauses with
  | unsat =>
      refine ⟨none, by simp only [search, simplified]; rfl, ?_⟩
      have none : ¬Satisfiable (clauses.map id) :=
        not_satisfiable_of_unsat (fun _ => List.isEmpty_iff) simplified
      rwa [List.map_id] at none
  | sat =>
      refine ⟨some (.withRoom varCount), by simp only [search, simplified]; rfl, ?_, ?_⟩
      · intro v bound
        cases bound
      · intro lits member proper
        exact absurd proper
          (not_proper_of_sat (fun _ => isTautologyWritten_eq_false_iff) simplified member)
  | remaining kept =>
      obtain ⟨found, run, answers⟩ :=
        searchFrom_answers (pending_withRoom kept varCount) pureLiterals progress
      refine ⟨found, ?_, decides_of_answers simplified answers⟩
      simp only [search, simplified, run]

/-- The search ends with an answer for every clause list: nothing exactly when no valuation
satisfies the clauses, and else an assignment of which every completion is a model. -/
theorem search_decides (clauses : List (List Lit)) (varCount : Nat) (pureLiterals : Bool)
    (progress : Progress) :
    ∃ found, (search clauses varCount pureLiterals progress).result = .ok found ∧
      (found = none ↔ ¬Satisfiable clauses) ∧
      ∀ assignment, found = some assignment →
        (∀ v, (assignment.value v).isSome → Constrained clauses v) ∧
        assignment.Settles clauses ∧
        ∀ valuation, Valuation.Extends valuation assignment →
          Valuation.Models valuation clauses := by
  obtain ⟨found, run, decides⟩ := search_found clauses varCount pureLiterals progress
  refine ⟨found, run, ?_⟩
  cases found with
  | none =>
      refine ⟨⟨fun _ => decides, fun _ => rfl⟩, ?_⟩
      intro assignment different
      cases different
  | some assignment =>
      obtain ⟨within, settles⟩ := decides
      have models : ∀ valuation, Valuation.Extends valuation assignment →
          Valuation.Models valuation clauses :=
        fun _ completes => models_of_settles settles completes
      refine ⟨⟨fun different => absurd different (by simp), fun unsatisfiable => ?_⟩, ?_⟩
      · exact absurd ⟨_, models _ (extends_completion assignment)⟩ unsatisfiable
      · rintro _ ⟨rfl⟩
        exact ⟨within, settles, models⟩

end Search

end Clausal
