import Clausal.Clause

/-!
# Partial assignments

A partial assignment gives some variables a value.  It is kept as the list of its true literals,
ascending by variable, so that each bound variable has one entry.  `value_eq_some_iff` reads the
list as a finite map.

An assignment also remembers for how many variables it has room.  Binding a variable makes room
for it; nothing but equality shows the room.
-/

set_option autoImplicit false

namespace Clausal

def Lit.index (l : Lit) : Nat := l.var.index

structure Assignment where
  room : Nat
  trueLits : List Lit
  ascending : Ascending Lit.index trueLits
  deriving DecidableEq

namespace Assignment

/-- The assignment that binds nothing, with room for a number of variables.  Room stands for memory
that there is: counts that no vector can hold, past the largest signed word, are out of scope. -/
def withRoom (room : Nat) : Assignment := ⟨room, [], List.Pairwise.nil⟩

instance : Inhabited Assignment := ⟨withRoom 0⟩

def value (assignment : Assignment) (v : Var) : Option Bool :=
  (assignment.trueLits.find? fun l => l.var == v).map Lit.isPositive

def litValue (assignment : Assignment) (l : Lit) : Option Bool :=
  (assignment.value l.var).map (· != l.isNegative)

def isTrue (assignment : Assignment) (l : Lit) : Bool := assignment.litValue l == some true

def isFalse (assignment : Assignment) (l : Lit) : Bool := assignment.litValue l == some false

/-- Makes a literal true.  Its variable must not be bound. -/
def assign (assignment : Assignment) (l : Lit) : Except Fault Assignment :=
  match assignment.value l.var with
  | some _ => .error (.alreadyAssigned l.var.number)
  | none => .ok {
      room := max assignment.room (l.index + 1)
      trueLits := Ascending.insert Lit.index l assignment.trueLits
      ascending := Ascending.ascending_insert assignment.ascending }

def assignVar (assignment : Assignment) (v : Var) (polarity : Bool) : Except Fault Assignment :=
  assignment.assign (v.lit polarity)

def unassign (assignment : Assignment) (v : Var) : Assignment where
  room := assignment.room
  trueLits := assignment.trueLits.filter fun l => l.var != v
  ascending := List.Pairwise.filter _ assignment.ascending

def satisfies (assignment : Assignment) (clause : Clause) : Bool :=
  clause.lits.any assignment.isTrue

def assignAll (assignment : Assignment) : List Lit → Except Fault Assignment
  | [] => .ok assignment
  | l :: rest =>
      match assignment.assign l with
      | .ok next => next.assignAll rest
      | .error fault => .error fault

/-- A variable has a value exactly when the literal that this makes true is listed. -/
theorem value_eq_some_iff {assignment : Assignment} {v : Var} {polarity : Bool} :
    assignment.value v = some polarity ↔ v.lit polarity ∈ assignment.trueLits := by
  constructor
  · intro hasValue
    obtain ⟨l, found, positive⟩ := Option.map_eq_some_iff.mp hasValue
    have sameVar : l.var = v := by simpa using List.find?_some found
    have member := List.mem_of_find?_eq_some found
    rw [← sameVar, ← positive, Lit.lit_var_isPositive]
    exact member
  · intro member
    cases found : assignment.trueLits.find? fun l => l.var == v with
    | none =>
        have := List.find?_eq_none.mp found (v.lit polarity) member
        simp at this
    | some l =>
        have sameVar : l.var = v := by simpa using List.find?_some found
        have same := assignment.ascending.eq_of_key_eq (List.mem_of_find?_eq_some found) member
          (by rw [Lit.index, Lit.index, sameVar, Lit.var_lit])
        simp [value, found, same]

theorem value_eq_none_iff {assignment : Assignment} {v : Var} :
    assignment.value v = none ↔ ∀ l ∈ assignment.trueLits, l.var ≠ v := by
  simp [value]

theorem isTrue_iff {assignment : Assignment} {l : Lit} :
    assignment.isTrue l = true ↔ l ∈ assignment.trueLits := by
  have entry := @value_eq_some_iff assignment l.var l.isPositive
  rw [Lit.lit_var_isPositive] at entry
  rw [← entry]
  simp only [isTrue, litValue, Lit.isNegative_eq]
  cases assignment.value l.var with
  | none => simp
  | some b => cases b <;> cases l.isPositive <;> simp

theorem isFalse_iff {assignment : Assignment} {l : Lit} :
    assignment.isFalse l = true ↔ assignment.value l.var = some (!l.isPositive) := by
  simp only [isFalse, litValue, Lit.isNegative_eq]
  cases assignment.value l.var with
  | none => simp
  | some b => cases b <;> cases l.isPositive <;> simp

/-- A literal that is neither true nor false has an unbound variable. -/
theorem value_eq_none_of_open {assignment : Assignment} {l : Lit}
    (notTrue : assignment.isTrue l = false) (notFalse : assignment.isFalse l = false) :
    assignment.value l.var = none := by
  simp only [isTrue, isFalse, litValue] at notTrue notFalse
  cases bound : assignment.value l.var with
  | none => rfl
  | some b =>
      rw [bound] at notTrue notFalse
      revert notTrue notFalse
      cases b <;> cases l.isNegative <;> simp

theorem assign_of_unbound {assignment : Assignment} {l : Lit}
    (unbound : assignment.value l.var = none) :
    ∃ next, assignment.assign l = .ok next := by
  simp [assign, unbound]

theorem unbound_of_assign {assignment next : Assignment} {l : Lit}
    (assigned : assignment.assign l = .ok next) : assignment.value l.var = none := by
  unfold assign at assigned
  split at assigned
  · cases assigned
  · assumption

theorem mem_trueLits_assign {assignment next : Assignment} {l : Lit}
    (assigned : assignment.assign l = .ok next) {m : Lit} :
    m ∈ next.trueLits ↔ m = l ∨ m ∈ assignment.trueLits := by
  have unbound := unbound_of_assign assigned
  have absent := value_eq_none_iff.mp unbound
  simp only [assign, unbound, Except.ok.injEq] at assigned
  subst assigned
  refine Ascending.mem_insert ?_
  intro entry member sameIndex
  exact absurd (Var.ext_index sameIndex.symm) (absent entry member)

/-- Binding a variable changes its own value only. -/
theorem value_assign {assignment next : Assignment} {l : Lit}
    (assigned : assignment.assign l = .ok next) (v : Var) :
    next.value v = if v = l.var then some l.isPositive else assignment.value v := by
  have unbound := unbound_of_assign assigned
  by_cases same : v = l.var
  · subst same
    rw [if_pos rfl, value_eq_some_iff, mem_trueLits_assign assigned, Lit.lit_var_isPositive]
    exact .inl rfl
  · rw [if_neg same]
    have otherVar : ∀ polarity, v.lit polarity ≠ l := by
      intro polarity sameLit
      exact same (by rw [← sameLit, Lit.var_lit])
    cases before : assignment.value v with
    | some polarity =>
        rw [value_eq_some_iff] at before ⊢
        exact (mem_trueLits_assign assigned).mpr (.inr before)
    | none =>
        cases after : next.value v with
        | none => rfl
        | some polarity =>
            rw [value_eq_some_iff, mem_trueLits_assign assigned] at after
            rcases after with isNew | wasThere
            · exact absurd isNew (otherVar polarity)
            · rw [value_eq_some_iff.mpr wasThere] at before
              cases before

theorem value_unassign (assignment : Assignment) (v w : Var) :
    (assignment.unassign v).value w = if w = v then none else assignment.value w := by
  by_cases same : w = v
  · rw [if_pos same, value_eq_none_iff]
    intro l member
    rw [same]
    simpa using (List.mem_filter.mp member).2
  · rw [if_neg same]
    apply Option.ext
    intro polarity
    rw [value_eq_some_iff, value_eq_some_iff, unassign, List.mem_filter]
    simp [same]

end Assignment

end Clausal
