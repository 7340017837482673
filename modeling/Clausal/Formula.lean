import Clausal.Clause

/-!
# Formulas

A formula keeps its clauses as they were written, with their repetitions and in their order.  The
literals of all clauses stand in one buffer, and a second buffer says where each clause ends.
`clauses` is the view as a list of literal lists; `clauses_addClause` says that adding a clause
appends it to the view.

A formula also has a number of variables, which covers every literal and may be raised above
what the literals need.
-/

set_option autoImplicit false

namespace Clausal

structure Formula where
  varCount : Nat
  lits : Array Lit
  ends : Array Nat
  ends_ascending : ends.toList.Pairwise (· ≤ ·)
  last_end : ends.toList.getLast?.getD 0 = lits.size
  deriving DecidableEq

namespace Formula

def empty : Formula := ⟨0, #[], #[], List.Pairwise.nil, rfl⟩

instance : Inhabited Formula := ⟨empty⟩

def size (formula : Formula) : Nat := formula.ends.size

def isEmpty (formula : Formula) : Bool := formula.ends.isEmpty

/-- Raises the number of variables, never lowering it. -/
def setVarCount (formula : Formula) (count : Nat) : Formula :=
  { formula with varCount := max formula.varCount count }

def countFor (lits : List Lit) : Nat :=
  lits.foldl (fun count l => max count l.var.number) 0

theorem le_getLast {ends : List Nat} (ascending : ends.Pairwise (· ≤ ·)) {stop : Nat}
    (member : stop ∈ ends) : stop ≤ ends.getLast?.getD 0 := by
  induction ends generalizing stop with
  | nil => exact absurd member (by simp)
  | cons first rest inductionHypothesis =>
      have ⟨below, restAscending⟩ := List.pairwise_cons.mp ascending
      cases rest with
      | nil =>
          have : stop = first := by simpa using member
          simp [this]
      | cons second others =>
          have restLast : (first :: second :: others).getLast? =
              (second :: others).getLast? := by simp
          rw [restLast]
          rcases List.mem_cons.mp member with head | tail
          · subst head
            exact Nat.le_trans (below second (by simp))
              (inductionHypothesis restAscending (by simp))
          · exact inductionHypothesis restAscending tail

def addClause (formula : Formula) (clause : List Lit) : Formula where
  varCount := max formula.varCount (countFor clause)
  lits := formula.lits ++ clause.toArray
  ends := formula.ends.push (formula.lits.size + clause.length)
  ends_ascending := by
    rw [Array.toList_push, List.pairwise_append]
    refine ⟨formula.ends_ascending, by simp, ?_⟩
    intro stop member last isLast
    have atMost := le_getLast formula.ends_ascending member
    rw [formula.last_end] at atMost
    have : last = formula.lits.size + clause.length := by simpa using isLast
    omega
  last_end := by simp

def ofClauses (clauses : List (List Lit)) : Formula :=
  clauses.foldl addClause empty

def cutAt (lits : Array Lit) (start : Nat) : List Nat → List (List Lit)
  | [] => []
  | stop :: rest => (lits.extract start stop).toList :: cutAt lits stop rest

def clauses (formula : Formula) : List (List Lit) :=
  cutAt formula.lits 0 formula.ends.toList

/-- One clause by its index.  The end of the clause before it is looked up first. -/
def clause (formula : Formula) (index : Nat) : Except Fault (List Lit) :=
  let start := if index = 0 then some 0 else formula.ends[index - 1]?
  match start, formula.ends[index]? with
  | none, _ => .error (.clauseIndex formula.size (index - 1))
  | some _, none => .error (.clauseIndex formula.size index)
  | some start, some stop => .ok (formula.lits.extract start stop).toList

def occurringVars (formula : Formula) : List Var :=
  variablesOfLits formula.lits.toList

def append (formula other : Formula) : Formula :=
  (other.clauses.foldl addClause formula).setVarCount other.varCount

instance : ToString Formula :=
  ⟨fun formula =>
    s!"{formula.varCount} vars [" ++
      String.intercalate ", " (formula.clauses.map bracketed) ++ "]"⟩

@[simp] theorem clauses_empty : empty.clauses = [] := rfl

@[simp] theorem clauses_setVarCount (formula : Formula) (count : Nat) :
    (formula.setVarCount count).clauses = formula.clauses := rfl

@[simp] theorem varCount_setVarCount (formula : Formula) (count : Nat) :
    (formula.setVarCount count).varCount = max formula.varCount count := rfl

@[simp] theorem varCount_addClause (formula : Formula) (clause : List Lit) :
    (formula.addClause clause).varCount = max formula.varCount (countFor clause) := rfl

theorem cutAt_append (lits : Array Lit) (start : Nat) (front back : List Nat) :
    cutAt lits start (front ++ back) =
      cutAt lits start front ++ cutAt lits (front.getLast?.getD start) back := by
  induction front generalizing start with
  | nil => rfl
  | cons stop rest inductionHypothesis =>
      rw [List.cons_append, cutAt, inductionHypothesis, cutAt, List.cons_append]
      cases rest with
      | nil => rfl
      | cons second others =>
          rw [List.getLast?_cons_cons]
          simp [List.getLast?_cons]

theorem cutAt_extend (lits : Array Lit) (more : List Lit) (start : Nat) (ends : List Nat)
    (within : ∀ stop ∈ ends, stop ≤ lits.size) :
    cutAt (lits ++ more.toArray) start ends = cutAt lits start ends := by
  induction ends generalizing start with
  | nil => rfl
  | cons stop rest inductionHypothesis =>
      have stopWithin := within stop (by simp)
      have restWithin : ∀ stop ∈ rest, stop ≤ lits.size := by
        intro other member
        exact within other (by simp [member])
      rw [cutAt, inductionHypothesis stop restWithin, cutAt]
      congr 1
      simp only [Array.toList_extract, Array.toList_append, List.extract_eq_take_drop]
      by_cases startWithin : start ≤ lits.size
      · rw [List.drop_append_of_le_length (by simpa using startWithin),
          List.take_append_of_le_length (by simp; omega)]
      · have nothing : stop - start = 0 := by omega
        simp [nothing]

theorem ends_within (formula : Formula) :
    ∀ stop ∈ formula.ends.toList, stop ≤ formula.lits.size := by
  intro stop member
  rw [← formula.last_end]
  exact le_getLast formula.ends_ascending member

/-- Adding a clause appends it to the list of clauses. -/
@[simp] theorem clauses_addClause (formula : Formula) (clause : List Lit) :
    (formula.addClause clause).clauses = formula.clauses ++ [clause] := by
  have lastEnd := formula.last_end
  simp only [clauses, addClause, Array.toList_push, cutAt_append]
  rw [cutAt_extend formula.lits clause 0 formula.ends.toList formula.ends_within]
  congr 1
  rw [lastEnd]
  simp [cutAt]

end Formula

end Clausal
