import Clausal.Ascending
import Clausal.Lit

/-!
# Clauses

A clause is the set of its literals, kept in ascending order of code.  Every literal list has one
clause, and two lists have the same clause exactly when they hold the same literals.  Because the
two literals of a variable have neighbouring codes, a tautology shows as two neighbours in the
list.
-/

set_option autoImplicit false

namespace Clausal

/-- A set of literals, read as their disjunction. -/
structure Clause where
  lits : List Lit
  ascending : Ascending Lit.code lits
  deriving DecidableEq

namespace Clause

def ofList (lits : List Lit) : Clause :=
  ⟨Ascending.ofList Lit.code lits, Ascending.ascending_ofList⟩

def empty : Clause := ⟨[], List.Pairwise.nil⟩

instance : Inhabited Clause := ⟨empty⟩

instance : Membership Lit Clause := ⟨fun clause l => l ∈ clause.lits⟩

instance (l : Lit) (clause : Clause) : Decidable (l ∈ clause) :=
  inferInstanceAs (Decidable (l ∈ clause.lits))

def size (clause : Clause) : Nat := clause.lits.length

def isEmpty (clause : Clause) : Bool := clause.lits.isEmpty

def contains (clause : Clause) (l : Lit) : Bool := clause.lits.contains l

def hasClashingNeighbours : List Lit → Bool
  | l :: m :: rest => l == -m || hasClashingNeighbours (m :: rest)
  | _ => false

def isTautology (clause : Clause) : Bool := hasClashingNeighbours clause.lits

/-- Literal lists compare at the first place where they differ; a list comes after its prefixes. -/
def compareLits : List Lit → List Lit → Ordering
  | [], [] => .eq
  | [], _ :: _ => .lt
  | _ :: _, [] => .gt
  | l :: lrest, m :: mrest => (compare l m).then (compareLits lrest mrest)

instance : Ord Clause := ⟨fun c d => compareLits c.lits d.lits⟩

def sort (clauses : List Clause) : List Clause :=
  clauses.mergeSort fun c d => (compare c d).isLE

instance : ToString Clause := ⟨fun clause => bracketed clause.lits⟩

theorem ext_lits {c d : Clause} (sameLits : c.lits = d.lits) : c = d := by
  cases c
  cases d
  simpa using sameLits

theorem code_injective : ∀ l m : Lit, l.code = m.code → l = m :=
  fun _ _ => Lit.ext_code

@[simp] theorem mem_lits {clause : Clause} {l : Lit} : l ∈ clause.lits ↔ l ∈ clause := Iff.rfl

@[simp] theorem mem_ofList {lits : List Lit} {l : Lit} : l ∈ ofList lits ↔ l ∈ lits :=
  Ascending.mem_ofList code_injective

@[simp] theorem contains_iff_mem {clause : Clause} {l : Lit} :
    clause.contains l = true ↔ l ∈ clause := by
  simp [contains]

/-- No literal is between the two of a variable, so the negation of the first literal of an
ascending list can only come next. -/
theorem eq_negate_of_negate_mem {x y : Lit} {others : List Lit}
    (ascending : Ascending Lit.code (x :: y :: others)) (member : -x ∈ y :: others) : x = -y := by
  have ⟨below, restAscending⟩ := List.pairwise_cons.mp ascending
  rcases List.mem_cons.mp member with isNext | later
  · rw [← isNext, Lit.negate_negate]
  · have xBelow := below y List.mem_cons_self
    have yBelow := (List.pairwise_cons.mp restAscending).1 (-x) later
    have negatedCode := Lit.code_negate x
    split at negatedCode <;> omega

theorem hasClashingNeighbours_iff {lits : List Lit} (ascending : Ascending Lit.code lits) :
    hasClashingNeighbours lits = true ↔ ∃ l ∈ lits, -l ∈ lits := by
  induction lits with
  | nil => simp [hasClashingNeighbours]
  | cons x rest inductionHypothesis =>
      have restIff := inductionHypothesis (List.pairwise_cons.mp ascending).2
      cases rest with
      | nil => simp [hasClashingNeighbours, Lit.negate_ne]
      | cons y others =>
          have unfolded : hasClashingNeighbours (x :: y :: others) =
              (x == -y || hasClashingNeighbours (y :: others)) := rfl
          rw [unfolded, Bool.or_eq_true, beq_iff_eq, restIff]
          constructor
          · rintro (clash | ⟨l, member, negatedMember⟩)
            · exact ⟨y, by simp, clash ▸ List.mem_cons_self⟩
            · exact ⟨l, List.mem_cons_of_mem _ member, List.mem_cons_of_mem _ negatedMember⟩
          · rintro ⟨l, member, negatedMember⟩
            rcases List.mem_cons.mp member with isHead | inRest
            · rw [isHead] at negatedMember
              have later := (List.mem_cons.mp negatedMember).resolve_left (Lit.negate_ne x)
              exact .inl (eq_negate_of_negate_mem ascending later)
            · rcases List.mem_cons.mp negatedMember with negatedHead | negatedTail
              · refine .inl (eq_negate_of_negate_mem ascending ?_)
                rw [← negatedHead, Lit.negate_negate]
                exact inRest
              · exact .inr ⟨l, inRest, negatedTail⟩

theorem isTautology_iff {clause : Clause} :
    clause.isTautology = true ↔ ∃ l ∈ clause, -l ∈ clause :=
  hasClashingNeighbours_iff clause.ascending

theorem negate_notMem {clause : Clause} (proper : clause.isTautology = false) {l : Lit}
    (member : l ∈ clause) : -l ∉ clause := by
  intro negatedMember
  have tautology := isTautology_iff.mpr ⟨l, member, negatedMember⟩
  rw [proper] at tautology
  cases tautology

theorem var_ne_of_notMem {clause : Clause} {v : Var} (noPositive : v.positive ∉ clause)
    (noNegative : -v.positive ∉ clause) {l : Lit} (member : l ∈ clause) : l.var ≠ v := by
  intro sameVar
  rw [← Var.var_positive v] at sameVar
  rcases Lit.eq_or_eq_negate sameVar with positive | negative
  · exact noPositive (positive ▸ member)
  · exact noNegative (negative ▸ member)

end Clause

def variablesOfLits (lits : List Lit) : List Var :=
  Ascending.ofList Var.index (lits.map Lit.var)

def variablesOf (clauses : List Clause) : List Var :=
  variablesOfLits (clauses.flatMap Clause.lits)

theorem mem_variablesOfLits {lits : List Lit} {v : Var} :
    v ∈ variablesOfLits lits ↔ ∃ l ∈ lits, l.var = v := by
  rw [variablesOfLits, Ascending.mem_ofList fun _ _ => Var.ext_index, List.mem_map]

theorem mem_variablesOf {clauses : List Clause} {v : Var} :
    v ∈ variablesOf clauses ↔ ∃ clause ∈ clauses, ∃ l ∈ clause, l.var = v := by
  rw [variablesOf, mem_variablesOfLits]
  constructor
  · rintro ⟨l, member, sameVar⟩
    obtain ⟨clause, clauseMember, litMember⟩ := List.mem_flatMap.mp member
    exact ⟨clause, clauseMember, l, litMember, sameVar⟩
  · rintro ⟨clause, clauseMember, l, litMember, sameVar⟩
    exact ⟨l, List.mem_flatMap.mpr ⟨clause, clauseMember, litMember⟩, sameVar⟩

theorem ascending_variablesOf {clauses : List Clause} :
    Ascending Var.index (variablesOf clauses) :=
  Ascending.ascending_ofList

end Clausal
