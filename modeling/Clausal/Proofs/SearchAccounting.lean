import Clausal.Proofs.Backtracking

/-!
# Accounting for the search

The loop of visits is followed state by state (`Visiting`).  Below each node of the stack wait at
most as many nodes as it binds variables (`Deepening`), because a node is replaced by two that
bind one variable more.  So the stack stays linear in the number of variables though the search
may visit exponentially many nodes.  A conflict takes a node from the stack and a decision adds
one, which balances its length with the two counters (`search_accounting`).
-/

set_option autoImplicit false

namespace Clausal

/-- The states of the loop: the nodes still to visit, the next one first, and what was counted. -/
inductive Visiting (clauses : List (List Lit)) (pureLiterals : Bool) (root : Assignment)
    (start : Progress) : List Assignment → Progress → Prop
  | start : Visiting clauses pureLiterals root start [root] start
  | step {stack rest : List Assignment} {before after : Progress}
      (earlier : Visiting clauses pureLiterals root start stack before)
      (visited : visit clauses pureLiterals stack before = .next rest after) :
      Visiting clauses pureLiterals root start rest after

/-- Below each node wait at most as many nodes as it binds variables. -/
def Deepening : List Assignment → Prop
  | [] => True
  | node :: waiting => waiting.length ≤ node.trueLits.length ∧ Deepening waiting

structure Accounted (clauses : List (List Lit)) (stack : List Assignment) (progress : Progress) :
    Prop where
  within : ∀ node ∈ stack, BindsWithin clauses node
  deepening : Deepening stack
  balanced : stack.length + progress.stats.conflicts = progress.stats.decisions + 1

section Counting

variable {clauses : List (List Lit)} {pureLiterals : Bool} {node leaf child : Assignment}

theorem decisions_forceAll (progress : Progress) (forced : List (Rule × Lit)) :
    (progress.forceAll forced).stats.decisions = progress.stats.decisions := by
  rw [stats_forceAll]

theorem conflicts_forceAll (progress : Progress) (forced : List (Rule × Lit)) :
    (progress.forceAll forced).stats.conflicts = progress.stats.conflicts := by
  rw [stats_forceAll]

theorem Forces.length_trueLits_le {forced : List (Rule × Lit)}
    (forces : Forces clauses pureLiterals node forced leaf) :
    node.trueLits.length ≤ leaf.trueLits.length := by
  rw [forces.perm_trueLits.length_eq, List.length_append]
  omega

theorem length_trueLits_child {v : Var} {polarity : Bool}
    (assigned : leaf.assignVar v polarity = .ok child) :
    child.trueLits.length = leaf.trueLits.length + 1 :=
  (Assignment.perm_assign assigned).length_eq

theorem Assignment.nodup_vars (assignment : Assignment) :
    (assignment.trueLits.map Lit.var).Nodup := by
  rw [List.Nodup, List.pairwise_map]
  refine assignment.ascending.imp ?_
  intro l m below sameVar
  exact absurd below (by rw [Lit.index, Lit.index, sameVar]; omega)

theorem BindsWithin.length_trueLits_le (within : BindsWithin clauses node) {vars : List Var}
    (occurring : ∀ l ∈ clauses.flatten, l.var ∈ vars) : node.trueLits.length ≤ vars.length := by
  have subset : node.trueLits.map Lit.var ⊆ vars := by
    intro v member
    obtain ⟨l, listed, isVar⟩ := List.mem_map.mp member
    have bound : node.value v = some l.isPositive := by
      rw [← isVar]
      exact Assignment.mem_trueLits_iff_value.mp listed
    obtain ⟨m, occurs, sameVar⟩ := within v (by rw [bound]; rfl)
    rw [← sameVar]
    exact occurring m occurs
  simpa using node.nodup_vars.length_le_of_subset subset

end Counting

/-! ## The loop -/

section Loop

variable {clauses : List (List Lit)} {pureLiterals : Bool} {root : Assignment}
  {start progress before after : Progress} {stack rest : List Assignment}

theorem accounted_root (rootWithin : BindsWithin clauses root)
    (even : start.stats.conflicts = start.stats.decisions) :
    Accounted clauses [root] start where
  within node member := by
    rw [List.mem_singleton.mp member]
    exact rootWithin
  deepening := ⟨Nat.zero_le _, trivial⟩
  balanced := by
    rw [List.length_singleton, even, Nat.add_comm]

theorem Accounted.visit (accounted : Accounted clauses stack before)
    (visited : Clausal.visit clauses pureLiterals stack before = .next rest after) :
    Accounted clauses rest after := by
  cases stack with
  | nil => cases visited
  | cons node waiting =>
      have nodeVisit := nodeVisit_visit clauses pureLiterals node waiting before
      rw [visited] at nodeVisit
      have nodeWithin := accounted.within node List.mem_cons_self
      have waitingWithin : ∀ other ∈ waiting, BindsWithin clauses other :=
        fun other member => accounted.within other (List.mem_cons_of_mem _ member)
      have ⟨atMost, waitingDeepening⟩ := accounted.deepening
      have balanced := accounted.balanced
      rw [List.length_cons] at balanced
      cases nodeVisit with
      | @conflict leaf forced forces ends =>
          refine ⟨waitingWithin, waitingDeepening, ?_⟩
          simp only [Progress.conflict, Progress.stats_count, decisions_forceAll,
            conflicts_forceAll]
          omega
      | @undecided leaf whenTrue whenFalse forced l forces ends assignedTrue assignedFalse =>
          have leafWithin := forces.bindsWithin nodeWithin
          have deeper := forces.length_trueLits_le
          have trueLength := length_trueLits_child assignedTrue
          have falseLength := length_trueLits_child assignedFalse
          -- One node more waits below `whenTrue` than below `node`, and it binds one variable more.
          refine ⟨?_, ⟨?_, ?_, waitingDeepening⟩, ?_⟩
          · refine List.forall_mem_cons.mpr ⟨bindsWithin_child leafWithin ends assignedTrue, ?_⟩
            exact List.forall_mem_cons.mpr
              ⟨bindsWithin_child leafWithin ends assignedFalse, waitingWithin⟩
          · rw [List.length_cons]
            omega
          · omega
          · simp only [Progress.decision, Progress.stats_count, Progress.stats_note,
              decisions_forceAll, conflicts_forceAll, List.length_cons]
            omega

theorem Visiting.accounted (visiting : Visiting clauses pureLiterals root start stack progress)
    (rootWithin : BindsWithin clauses root)
    (even : start.stats.conflicts = start.stats.decisions) :
    Accounted clauses stack progress := by
  induction visiting with
  | start => exact accounted_root rootWithin even
  | step earlier visited inductionHypothesis => exact inductionHypothesis.visit visited

theorem Accounted.length_le (accounted : Accounted clauses stack progress) {vars : List Var}
    (occurring : ∀ l ∈ clauses.flatten, l.var ∈ vars) : stack.length ≤ vars.length + 1 := by
  cases stack with
  | nil => exact Nat.zero_le _
  | cons node waiting =>
      have atMost := accounted.deepening.1
      have bound := (accounted.within node List.mem_cons_self).length_trueLits_le occurring
      rw [List.length_cons]
      omega

theorem searchFrom_visiting (visiting : Visiting clauses pureLiterals root start stack before) :
    ∃ last atLast, Visiting clauses pureLiterals root start last atLast ∧
      visit clauses pureLiterals last atLast =
        .over (searchFrom clauses pureLiterals stack before) := by
  fun_induction searchFrom clauses pureLiterals stack before with
  | case1 stack before run visited => exact ⟨stack, before, visiting, visited⟩
  | case2 stack before rest after visited inductionHypothesis =>
      exact inductionHypothesis (visiting.step visited)

structure Counted (varCount : Nat) (found : Option Assignment) (stats : Stats) : Prop where
  exhausted : found = none → stats.conflicts = stats.decisions + 1
  modelFound : found.isSome → stats.conflicts ≤ stats.decisions ∧
    stats.decisions ≤ stats.conflicts + varCount

theorem Accounted.counted (accounted : Accounted clauses stack before) {vars : List Var}
    (occurring : ∀ l ∈ clauses.flatten, l.var ∈ vars) {run : Run (Option Assignment)}
    (visited : Clausal.visit clauses pureLiterals stack before = .over run) :
    ∃ found after, run = .done after found ∧ Counted vars.length found after.stats := by
  have balanced := accounted.balanced
  have atMost := accounted.length_le occurring
  cases stack with
  | nil =>
      cases visited
      refine ⟨none, before.exhausted, rfl, ?_, ?_⟩
      · intro _
        rw [List.length_nil] at balanced
        simp only [Progress.exhausted, Progress.stats_note]
        omega
      · intro isSome
        cases isSome
  | cons node waiting =>
      have nodeVisit := nodeVisit_visit clauses pureLiterals node waiting before
      rw [visited] at nodeVisit
      cases nodeVisit with
      | @satisfied leaf forced forces ends =>
          refine ⟨some leaf, _, rfl, ?_, ?_⟩
          · intro isNone
            cases isNone
          · intro _
            rw [List.length_cons] at balanced atMost
            simp only [Progress.modelFound, Progress.stats_note, decisions_forceAll,
              conflicts_forceAll]
            omega

end Loop

theorem var_mem_constrainedVars {clauses kept : List (List Lit)}
    (simplified : simplifyWritten clauses = .remaining kept) :
    ∀ l ∈ kept.flatten, l.var ∈ constrainedVars (clauses.map Clause.ofList) := by
  intro l occurs
  obtain ⟨lits, member, inClause⟩ := List.mem_flatten.mp occurs
  obtain ⟨inClauses, proper⟩ :=
    (mem_kept_iff (fun _ => isTautologyWritten_eq_false_iff) simplified lits).mp member
  rw [mem_constrainedVars, List.map_map]
  refine (constrained_map_iff fun _ _ => Clause.mem_ofList).mpr ?_
  exact ⟨lits, inClauses, proper, l, inClause, rfl⟩

/-- A search from zero counters never has more nodes to visit than one above the number of
variables of the clauses that are not tautologies.  Before each visit this number of nodes and the
conflicts together are one more than the decisions.  So a search that finds nothing has one more
conflict than decisions, and a search that finds a model has at least as many decisions as
conflicts and at most as many more as there are variables. -/
theorem search_accounting (clauses : List (List Lit)) (varCount : Nat) (pureLiterals : Bool)
    (log : Array Record) :
    let start : Progress := { log := log }
    let vars := constrainedVars (clauses.map Clause.ofList)
    (∀ kept, simplifyWritten clauses = .remaining kept →
      (∀ stack progress, Visiting kept pureLiterals (.withRoom varCount) start stack progress →
        stack.length ≤ vars.length + 1 ∧
        stack.length + progress.stats.conflicts = progress.stats.decisions + 1) ∧
      ∃ last progress, Visiting kept pureLiterals (.withRoom varCount) start last progress ∧
        visit kept pureLiterals last progress =
          .over (search clauses varCount pureLiterals start)) ∧
    ∃ found after, search clauses varCount pureLiterals start = .done after found ∧
      (found = none → simplifyWritten clauses ≠ .unsat →
        after.stats.conflicts = after.stats.decisions + 1) ∧
      (found.isSome → after.stats.conflicts ≤ after.stats.decisions ∧
        after.stats.decisions ≤ after.stats.conflicts + vars.length) := by
  intro start vars
  have accounted : ∀ {kept stack progress},
      Visiting kept pureLiterals (.withRoom varCount) start stack progress →
      Accounted kept stack progress :=
    fun visiting => visiting.accounted (bindsWithin_withRoom _ varCount) rfl
  cases simplified : simplifyWritten clauses with
  | unsat =>
      refine ⟨?_, none, start, by simp only [search, simplified], ?_, ?_⟩
      · intro kept different
        cases different
      · intro _ notUnsat
        exact absurd rfl notUnsat
      · intro isSome
        cases isSome
  | sat =>
      refine ⟨?_, some (.withRoom varCount), start, by simp only [search, simplified], ?_, ?_⟩
      · intro kept different
        cases different
      · intro isNone
        cases isNone
      · intro _
        exact ⟨Nat.le_refl _, Nat.zero_le _⟩
  | remaining kept =>
      have occurring := var_mem_constrainedVars simplified
      have isSearch : search clauses varCount pureLiterals start =
          searchFrom kept pureLiterals [.withRoom varCount] start := by
        simp only [search, simplified]
      obtain ⟨last, atLast, visiting, ends⟩ :=
        searchFrom_visiting (@Visiting.start kept pureLiterals (.withRoom varCount) start)
      rw [← isSearch] at ends
      obtain ⟨found, after, run, counted⟩ := (accounted visiting).counted occurring ends
      refine ⟨?_, found, after, run, fun isNone _ => counted.exhausted isNone,
        counted.modelFound⟩
      intro other sameKept
      cases sameKept
      refine ⟨?_, last, atLast, visiting, ends⟩
      intro stack progress reached
      exact ⟨(accounted reached).length_le occurring, (accounted reached).balanced⟩

end Clausal
