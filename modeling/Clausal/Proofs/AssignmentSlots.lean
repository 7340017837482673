import Clausal.Proofs.Satisfaction

/-!
# Assignments as slots

A partial assignment can be kept in place, as an array with a slot for each variable up to some
index.  A variable is bound when its slot holds a value.  A slot past the end counts as empty, and
binding a variable makes room for its slot.

Listing what the slots make true gives an assignment, and an assignment is a finite map from
variables to values.  A call does to the list what it does to the slots (`toAssignment_perform`),
and to the map what it does to the list (`bindings_perform`), and stops with the same fault at all
three.  So do sequences of calls, and after them every question about the slots has the answer that
the map gives (`shows_after`).
-/

set_option autoImplicit false

namespace Clausal

namespace Assignment

theorem ext_of_value {assignment other : Assignment} (sameRoom : other.room = assignment.room)
    (sameValues : ∀ v, other.value v = assignment.value v) : other = assignment := by
  have sameLits := trueLits_eq_of_value_eq sameValues
  cases assignment
  cases other
  subst sameRoom sameLits
  rfl

theorem value_withRoom (room : Nat) (v : Var) : (withRoom room).value v = none := rfl

theorem assign_of_bound {assignment : Assignment} {l : Lit} {polarity : Bool}
    (bound : assignment.value l.var = some polarity) :
    assignment.assign l = .error (.alreadyAssigned l.var.number) := by
  rw [assign, bound]

theorem room_assign {assignment next : Assignment} {l : Lit}
    (assigned : assignment.assign l = .ok next) :
    next.room = max assignment.room (l.index + 1) := by
  rw [assign, unbound_of_assign assigned] at assigned
  cases assigned
  rfl

end Assignment

/-- An array with a slot for each variable up to some index. -/
structure Slots where
  entries : Array (Option Bool)
  /-- A slot that holds a value belongs to a variable. -/
  index_lt : ∀ index polarity, entries[index]?.join = some polarity → index < Var.maxCount
  deriving DecidableEq

namespace Slots

/-- Empty slots for a number of variables, which stays within what a vector can hold. -/
def ofCount (count : Nat) : Slots where
  entries := Array.replicate count none
  index_lt := by
    intro index polarity holds
    rw [Array.getElem?_replicate] at holds
    split at holds <;> cases holds

def value (slots : Slots) (v : Var) : Option Bool :=
  slots.entries[v.index]?.join

def litValue (slots : Slots) (l : Lit) : Option Bool :=
  (slots.value l.var).map (· != l.isNegative)

def isTrue (slots : Slots) (l : Lit) : Bool := slots.litValue l == some true

def isFalse (slots : Slots) (l : Lit) : Bool := slots.litValue l == some false

def satisfies (slots : Slots) (clause : Clause) : Bool := clause.lits.any slots.isTrue

def trueLit? (slots : Slots) (index : Nat) : Option Lit :=
  match holds : slots.entries[index]?.join with
  | some polarity => some (Var.lit ⟨index, slots.index_lt index polarity holds⟩ polarity)
  | none => none

def trueLits (slots : Slots) : List Lit :=
  (List.range slots.entries.size).filterMap slots.trueLit?

/-! ## Writing to the slots -/

theorem getElem?_append_none (entries : Array (Option Bool)) (count index : Nat) :
    (entries ++ Array.replicate count none)[index]?.join = entries[index]?.join := by
  rw [Array.getElem?_append]
  split
  · rfl
  · next outside =>
      rw [Array.getElem?_eq_none (Nat.le_of_not_lt outside), Array.getElem?_replicate]
      split <;> rfl

theorem getElem?_setIfInBounds_join (entries : Array (Option Bool)) (index other : Nat)
    (entry : Option Bool) :
    (entries.setIfInBounds index entry)[other]?.join =
      if other = index ∧ index < entries.size then entry else entries[other]?.join := by
  by_cases same : other = index
  · rw [same, Array.getElem?_setIfInBounds_self]
    by_cases inside : index < entries.size
    · rw [if_pos inside, if_pos ⟨rfl, inside⟩]
      rfl
    · rw [if_neg inside, if_neg (fun both => inside both.2),
        Array.getElem?_eq_none (Nat.le_of_not_lt inside)]
  · rw [if_neg (fun both => same both.1), Array.getElem?_setIfInBounds_ne (Ne.symm same)]

def reaching (slots : Slots) (v : Var) : Slots where
  entries := slots.entries ++ Array.replicate (v.index + 1 - slots.entries.size) none
  index_lt := by
    intro index polarity holds
    rw [getElem?_append_none] at holds
    exact slots.index_lt index polarity holds

/-- Writes to the slot of a variable if there is one. -/
def write (slots : Slots) (v : Var) (entry : Option Bool) : Slots where
  entries := slots.entries.setIfInBounds v.index entry
  index_lt := by
    intro index polarity holds
    rw [getElem?_setIfInBounds_join] at holds
    split at holds
    · next same =>
        rw [same.1]
        exact v.index_lt
    · exact slots.index_lt index polarity holds

/-- Stores a value in the slot of a variable, which there must be. -/
def store (v : Var) (polarity : Bool) : EStateM Fault Slots Unit := do
  let slots ← get
  if v.index < slots.entries.size then
    set (slots.write v (some polarity))
  else
    throw (.slotIndex slots.entries.size v.index)

def assign (l : Lit) : EStateM Fault Slots Unit := do
  if ((← get).value l.var).isSome then
    throw (.alreadyAssigned l.var.number)
  modify fun slots => slots.reaching l.var
  store l.var l.isPositive

def assignVar (v : Var) (polarity : Bool) : EStateM Fault Slots Unit :=
  assign (v.lit polarity)

def unassign (v : Var) : EStateM Fault Slots Unit :=
  modify fun slots => slots.write v none

theorem value_ofCount (count : Nat) (v : Var) : (ofCount count).value v = none := by
  rw [value, ofCount, Array.getElem?_replicate]
  split <;> rfl

theorem value_reaching (slots : Slots) (v w : Var) : (slots.reaching v).value w = slots.value w :=
  getElem?_append_none slots.entries _ w.index

theorem size_reaching (slots : Slots) (v : Var) :
    (slots.reaching v).entries.size = max slots.entries.size (v.index + 1) := by
  rw [reaching, Array.size_append, Array.size_replicate]
  omega

theorem size_write (slots : Slots) (v : Var) (entry : Option Bool) :
    (slots.write v entry).entries.size = slots.entries.size :=
  Array.size_setIfInBounds

theorem value_write (slots : Slots) (v w : Var) (entry : Option Bool) :
    (slots.write v entry).value w =
      if w = v ∧ v.index < slots.entries.size then entry else slots.value w := by
  rw [value, write, getElem?_setIfInBounds_join]
  have sameIndex : w.index = v.index ↔ w = v := ⟨Var.ext_index, congrArg Var.index⟩
  exact ite_congr (by rw [sameIndex]) (fun _ => rfl) (fun _ => rfl)

/-- A slot past the end is empty anyway, so taking a value away changes this value only. -/
theorem value_write_none (slots : Slots) (v w : Var) :
    (slots.write v none).value w = if w = v then none else slots.value w := by
  rw [value_write]
  by_cases same : w = v
  · rw [if_pos same]
    split
    · rfl
    · next outside =>
        have beyond : slots.entries.size ≤ w.index := by
          rw [same]
          exact Nat.le_of_not_lt fun inside => outside ⟨same, inside⟩
        rw [value, Array.getElem?_eq_none beyond]
        rfl
  · rw [if_neg same, if_neg fun both => same both.1]

/-- There is a slot for the variable when its value is stored. -/
theorem store_reaching (slots : Slots) (v : Var) (polarity : Bool) :
    store v polarity (slots.reaching v) = .ok () ((slots.reaching v).write v (some polarity)) := by
  have inside : v.index < (slots.reaching v).entries.size := by
    rw [size_reaching]
    omega
  change (if v.index < (slots.reaching v).entries.size then _ else _ :
    EStateM Fault Slots Unit) _ = _
  rw [if_pos inside]
  rfl

theorem assign_eq (slots : Slots) (l : Lit) :
    assign l slots =
      if (slots.value l.var).isSome then .error (.alreadyAssigned l.var.number) slots
      else .ok () ((slots.reaching l.var).write l.var (some l.isPositive)) := by
  change (if (slots.value l.var).isSome then _ else _ : EStateM Fault Slots Unit) slots = _
  split
  · rfl
  · exact store_reaching slots l.var l.isPositive

theorem value_write_reaching (slots : Slots) (v w : Var) (polarity : Bool) :
    ((slots.reaching v).write v (some polarity)).value w =
      if w = v then some polarity else slots.value w := by
  have inside : v.index < (slots.reaching v).entries.size := by
    rw [size_reaching]
    omega
  rw [value_write, value_reaching]
  exact ite_congr (propext (and_iff_left inside)) (fun _ => rfl) (fun _ => rfl)

/-! ## The assignment that the slots list -/

theorem trueLit?_eq_some_iff {slots : Slots} {index : Nat} {l : Lit} :
    slots.trueLit? index = some l ↔
      l.index = index ∧ slots.value l.var = some l.isPositive := by
  unfold trueLit?
  split
  · next polarity holds =>
      rw [Option.some_inj]
      constructor
      · intro isLit
        subst isLit
        rw [Lit.index, Lit.var_lit, Lit.isPositive_lit]
        exact ⟨rfl, holds⟩
      · rintro ⟨rfl, hasValue⟩
        obtain rfl : polarity = l.isPositive := Option.some_inj.mp (holds.symm.trans hasValue)
        exact Lit.lit_var_isPositive l
  · next empty =>
      refine iff_of_false (by simp) ?_
      rintro ⟨rfl, hasValue⟩
      have isNone : slots.value l.var = none := empty
      rw [isNone] at hasValue
      cases hasValue

theorem ascending_trueLits (slots : Slots) : Ascending Lit.index slots.trueLits := by
  rw [trueLits, Ascending, List.pairwise_filterMap]
  refine List.pairwise_lt_range.imp ?_
  intro index other below l isFirst m isSecond
  rw [(trueLit?_eq_some_iff.mp isFirst).1, (trueLit?_eq_some_iff.mp isSecond).1]
  exact below

theorem mem_trueLits_iff {slots : Slots} {l : Lit} :
    l ∈ slots.trueLits ↔ slots.value l.var = some l.isPositive := by
  rw [trueLits, List.mem_filterMap]
  constructor
  · rintro ⟨index, _, isTrueLit⟩
    exact (trueLit?_eq_some_iff.mp isTrueLit).2
  · intro hasValue
    refine ⟨l.index, List.mem_range.mpr ?_, trueLit?_eq_some_iff.mpr ⟨rfl, hasValue⟩⟩
    apply Nat.lt_of_not_le
    intro outside
    have isNone : slots.entries[l.var.index]? = none := Array.getElem?_eq_none outside
    rw [value, isNone] at hasValue
    cases hasValue

/-- The assignment with the true literals of the slots, and with room as far as they go. -/
def toAssignment (slots : Slots) : Assignment where
  room := slots.entries.size
  trueLits := slots.trueLits
  ascending := slots.ascending_trueLits

theorem room_toAssignment (slots : Slots) : slots.toAssignment.room = slots.entries.size := rfl

theorem value_toAssignment (slots : Slots) : slots.toAssignment.value = slots.value := by
  funext v
  apply Option.ext
  intro polarity
  rw [Assignment.value_eq_some_iff]
  exact mem_trueLits_iff.trans (by rw [Lit.var_lit, Lit.isPositive_lit])

theorem toAssignment_ofCount (count : Nat) : (ofCount count).toAssignment = .withRoom count := by
  refine Assignment.ext_of_value ?_ ?_
  · exact Array.size_replicate
  · intro v
    rw [value_toAssignment, value_ofCount, Assignment.value_withRoom]

end Slots

/-! ## Calls -/

inductive Assignment.Call
  | assign (l : Lit)
  | assignVar (v : Var) (polarity : Bool)
  | unassign (v : Var)
  deriving DecidableEq

def Assignment.Call.bound? : Assignment.Call → Option Var
  | .assign l => some l.var
  | .assignVar v _ => some v
  | .unassign _ => none

open Assignment (Call)

def performAll {σ : Type} (perform : σ → Call → σ × Option Fault) (state : σ) :
    List Call → σ × List (Option Fault)
  | [] => (state, [])
  | call :: rest =>
      let step := perform state call
      let run := performAll perform step.1 rest
      (run.1, step.2 :: run.2)

/-- A view of the state that every call commutes with commutes with sequences of calls. -/
theorem performAll_view {σ τ : Type} {perform : σ → Call → σ × Option Fault}
    {performView : τ → Call → τ × Option Fault} {view : σ → τ}
    (commutes : ∀ state call,
      performView (view state) call = (perform state call).map view id)
    (state : σ) (calls : List Call) :
    performAll performView (view state) calls = (performAll perform state calls).map view id := by
  induction calls generalizing state with
  | nil => rfl
  | cons call rest inductionHypothesis =>
      rw [performAll, commutes]
      dsimp only [Prod.map_fst, Prod.map_snd]
      rw [inductionHypothesis]
      rfl

/-- The state after a call that may fail before it changes anything. -/
def afterCall {σ : Type} (state : σ) : Except Fault σ → σ × Option Fault
  | .ok next => (next, none)
  | .error fault => (state, some fault)

def Assignment.perform (assignment : Assignment) : Call → Assignment × Option Fault
  | .assign l => afterCall assignment (assignment.assign l)
  | .assignVar v polarity => afterCall assignment (assignment.assignVar v polarity)
  | .unassign v => (assignment.unassign v, none)

namespace Slots

def run : Call → EStateM Fault Slots Unit
  | .assign l => assign l
  | .assignVar v polarity => assignVar v polarity
  | .unassign v => unassign v

def afterRun : EStateM.Result Fault Slots Unit → Slots × Option Fault
  | .ok _ next => (next, none)
  | .error fault next => (next, some fault)

def perform (slots : Slots) (call : Call) : Slots × Option Fault := afterRun (run call slots)

theorem toAssignment_assign (slots : Slots) (l : Lit) :
    afterCall slots.toAssignment (slots.toAssignment.assign l) =
      (afterRun (assign l slots)).map toAssignment id := by
  have sameValue := congrFun slots.value_toAssignment l.var
  cases before : slots.value l.var with
  | some polarity =>
      rw [before] at sameValue
      rw [assign_eq, before, Assignment.assign_of_bound sameValue]
      rfl
  | none =>
      rw [before] at sameValue
      obtain ⟨next, assigned⟩ := Assignment.assign_of_unbound sameValue
      have sameNext :
          next = ((slots.reaching l.var).write l.var (some l.isPositive)).toAssignment := by
        refine Assignment.ext_of_value ?_ ?_
        · rw [Assignment.room_assign assigned, room_toAssignment, room_toAssignment, size_write,
            size_reaching]
          rfl
        · intro v
          rw [Assignment.value_assign assigned, value_toAssignment, value_toAssignment,
            value_write_reaching]
      rw [assign_eq, before, assigned, sameNext]
      rfl

theorem toAssignment_unassign (slots : Slots) (v : Var) :
    slots.toAssignment.unassign v = (slots.write v none).toAssignment := by
  refine Assignment.ext_of_value ?_ ?_
  · exact (slots.size_write v none).symm
  · intro w
    rw [Assignment.value_unassign, value_toAssignment, value_toAssignment, value_write_none]

theorem toAssignment_perform (slots : Slots) (call : Call) :
    slots.toAssignment.perform call = (slots.perform call).map toAssignment id := by
  cases call with
  | assign l => exact slots.toAssignment_assign l
  | assignVar v polarity => exact slots.toAssignment_assign (v.lit polarity)
  | unassign v => exact congrArg (·, none) (slots.toAssignment_unassign v)

theorem assign_fault (slots : Slots) (l : Lit) :
    ((afterRun (assign l slots)).2.isSome = true ↔ (slots.value l.var).isSome = true) ∧
      ((afterRun (assign l slots)).2.isSome = true → (afterRun (assign l slots)).1 = slots) := by
  cases before : slots.value l.var with
  | some polarity =>
      rw [assign_eq, before]
      exact ⟨Iff.rfl, fun _ => rfl⟩
  | none =>
      rw [assign_eq, before]
      exact ⟨Iff.rfl, Bool.noConfusion⟩

/-- A call stops with a fault exactly when it gives a bound variable a value, and then the slots
are as they were. -/
theorem perform_fault (slots : Slots) (call : Call) :
    ((slots.perform call).2.isSome = true ↔
        ∃ v, call.bound? = some v ∧ (slots.value v).isSome = true) ∧
      ((slots.perform call).2.isSome = true → (slots.perform call).1 = slots) := by
  cases call with
  | assign l =>
      obtain ⟨faults, unchanged⟩ := slots.assign_fault l
      exact ⟨faults.trans (by simp [Call.bound?]), unchanged⟩
  | assignVar v polarity =>
      obtain ⟨faults, unchanged⟩ := slots.assign_fault (v.lit polarity)
      exact ⟨faults.trans (by simp [Call.bound?]), unchanged⟩
  | unassign v => exact ⟨iff_of_false Bool.noConfusion (by simp [Call.bound?]), Bool.noConfusion⟩

end Slots

/-! ## The map that an assignment is -/

abbrev Bindings := Var → Option Bool

namespace Bindings

def bind (bindings : Bindings) (v : Var) (polarity : Bool) : Bindings × Option Fault :=
  match bindings v with
  | some _ => (bindings, some (.alreadyAssigned v.number))
  | none => (Function.update bindings v (some polarity), none)

def perform (bindings : Bindings) : Call → Bindings × Option Fault
  | .assign l => bindings.bind l.var l.isPositive
  | .assignVar v polarity => bindings.bind v polarity
  | .unassign v => (Function.update bindings v none, none)

end Bindings

theorem bindings_assign (assignment : Assignment) (l : Lit) :
    Bindings.bind assignment.value l.var l.isPositive =
      (afterCall assignment (assignment.assign l)).map Assignment.value id := by
  cases before : assignment.value l.var with
  | some polarity =>
      rw [Bindings.bind, before, Assignment.assign_of_bound before]
      rfl
  | none =>
      obtain ⟨next, assigned⟩ := Assignment.assign_of_unbound before
      have values : Function.update assignment.value l.var (some l.isPositive) = next.value := by
        funext v
        rw [Function.update_apply, Assignment.value_assign assigned]
      rw [Bindings.bind, before, assigned, values]
      rfl

theorem bindings_perform (assignment : Assignment) (call : Call) :
    Bindings.perform assignment.value call = (assignment.perform call).map Assignment.value id := by
  cases call with
  | assign l => exact bindings_assign assignment l
  | assignVar v polarity =>
      have assigned := bindings_assign assignment (v.lit polarity)
      rw [Lit.var_lit, Lit.isPositive_lit] at assigned
      exact assigned
  | unassign v =>
      have values : Function.update assignment.value v none = (assignment.unassign v).value := by
        funext w
        rw [Function.update_apply, Assignment.value_unassign]
      exact congrArg (·, none) values

/-! ## Answers -/

structure Assignment.Answers where
  value : Var → Option Bool
  litValue : Lit → Option Bool
  isTrue : Lit → Bool
  isFalse : Lit → Bool
  satisfies : Clause → Bool
  trueLits : List Lit

def Assignment.answers (assignment : Assignment) : Assignment.Answers where
  value := assignment.value
  litValue := assignment.litValue
  isTrue := assignment.isTrue
  isFalse := assignment.isFalse
  satisfies := assignment.satisfies
  trueLits := assignment.trueLits

def Slots.answers (slots : Slots) : Assignment.Answers where
  value := slots.value
  litValue := slots.litValue
  isTrue := slots.isTrue
  isFalse := slots.isFalse
  satisfies := slots.satisfies
  trueLits := slots.trueLits

/-- The answers are those of a finite map.  The true literals list each bound variable once,
ascending. -/
structure Bindings.Gives (bindings : Bindings) (answers : Assignment.Answers) : Prop where
  value_eq : ∀ v, answers.value v = bindings v
  litValue_eq : ∀ l, answers.litValue l = (bindings l.var).map (· == l.isPositive)
  isTrue_iff : ∀ l, answers.isTrue l = true ↔ bindings l.var = some l.isPositive
  isFalse_iff : ∀ l, answers.isFalse l = true ↔ bindings l.var = some (!l.isPositive)
  satisfies_iff : ∀ clause : Clause, answers.satisfies clause = true ↔
    ∃ l ∈ clause, bindings l.var = some l.isPositive
  ascending : answers.trueLits.Pairwise fun l m => l.var < m.var
  mem_trueLits_iff : ∀ l, l ∈ answers.trueLits ↔ bindings l.var = some l.isPositive

/-- Slots show a finite map: they answer as it does, and the next call stops with a fault exactly
when it gives a variable a value that the map binds, and then changes nothing. -/
structure Slots.Shows (slots : Slots) (bindings : Bindings) : Prop where
  gives : bindings.Gives slots.answers
  fault_iff : ∀ call, (slots.perform call).2.isSome = true ↔
    ∃ v, call.bound? = some v ∧ (bindings v).isSome = true
  unchanged : ∀ call, (slots.perform call).2.isSome = true → (slots.perform call).1 = slots

theorem Slots.answers_toAssignment (slots : Slots) :
    slots.toAssignment.answers = slots.answers := by
  have sameLitValue : slots.toAssignment.litValue = slots.litValue := by
    funext l
    rw [Assignment.litValue, Slots.litValue, slots.value_toAssignment]
  have sameTrue : slots.toAssignment.isTrue = slots.isTrue := by
    funext l
    rw [Assignment.isTrue, Slots.isTrue, sameLitValue]
  have sameFalse : slots.toAssignment.isFalse = slots.isFalse := by
    funext l
    rw [Assignment.isFalse, Slots.isFalse, sameLitValue]
  have sameSatisfies : slots.toAssignment.satisfies = slots.satisfies := by
    funext clause
    rw [Assignment.satisfies, Slots.satisfies, sameTrue]
  rw [Assignment.answers, Slots.answers, slots.value_toAssignment, sameLitValue, sameTrue,
    sameFalse, sameSatisfies]
  rfl

theorem gives_answers (assignment : Assignment) :
    Bindings.Gives assignment.value assignment.answers where
  value_eq v := rfl
  litValue_eq l := by
    show (assignment.value l.var).map (· != l.isNegative) = _
    rw [Lit.isNegative_eq]
    cases assignment.value l.var with
    | none => rfl
    | some polarity => cases polarity <;> cases l.isPositive <;> rfl
  isTrue_iff l := Assignment.isTrue_iff_value
  isFalse_iff l := Assignment.isFalse_iff
  satisfies_iff clause := by
    refine List.any_eq_true.trans (exists_congr fun l => and_congr_right fun _ => ?_)
    exact Assignment.isTrue_iff_value
  ascending := assignment.ascending
  mem_trueLits_iff l := Assignment.mem_trueLits_iff_value

/-! ## Sequences of calls -/

def Slots.after (count : Nat) (calls : List Call) : Slots × List (Option Fault) :=
  performAll Slots.perform (.ofCount count) calls

def Assignment.after (room : Nat) (calls : List Call) : Assignment × List (Option Fault) :=
  performAll Assignment.perform (.withRoom room) calls

def Bindings.after (calls : List Call) : Bindings × List (Option Fault) :=
  performAll Bindings.perform (fun _ => none) calls

theorem after_eq_slots (count : Nat) (calls : List Call) :
    Assignment.after count calls = (Slots.after count calls).map Slots.toAssignment id := by
  rw [Assignment.after, ← Slots.toAssignment_ofCount]
  exact performAll_view Slots.toAssignment_perform (.ofCount count) calls

theorem bindings_after (room : Nat) (calls : List Call) :
    Bindings.after calls = (Assignment.after room calls).map Assignment.value id :=
  performAll_view bindings_perform (.withRoom room) calls

theorem bindings_after_slots (count : Nat) (calls : List Call) :
    Bindings.after calls = (Slots.after count calls).map Slots.value id := by
  have sameValues : Assignment.value ∘ Slots.toAssignment = Slots.value :=
    funext Slots.value_toAssignment
  rw [bindings_after count, after_eq_slots, Prod.map_map, sameValues]
  rfl

/-- The slots after calls show the map after the same calls, for every number of slots to start
with. -/
theorem shows_after (count : Nat) (calls : List Call) :
    (Slots.after count calls).1.Shows (Bindings.after calls).1 := by
  have values : (Bindings.after calls).1 = (Slots.after count calls).1.value := by
    rw [bindings_after_slots count]
    rfl
  rw [values]
  have faults := (Slots.after count calls).1.perform_fault
  refine ⟨?_, fun call => (faults call).1, fun call => (faults call).2⟩
  rw [← Slots.answers_toAssignment, ← Slots.value_toAssignment]
  exact gives_answers _

example : (Slots.after 1 [.assign (Var.lit ⟨2, by decide⟩ false), .unassign ⟨7, by decide⟩,
    .assignVar ⟨2, by decide⟩ true]).2 = [none, none, some (.alreadyAssigned 3)] := by
  decide

end Clausal
