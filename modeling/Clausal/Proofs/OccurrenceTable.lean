import Clausal.Proofs.PureLiterals

/-!
# Pure literals from a table

Which literals occur can be kept in a table with an entry for each literal code up to some code.
The table grows when a literal is marked whose entry is past its end, and always to hold both
literals of a variable.  So every literal of the variables that the table reaches has an entry, and
a search through these variables in their order stays inside the table and finds the pure literal
(`search_eq`).
-/

set_option autoImplicit false

namespace Clausal

inductive TableFault
  /-- An entry was asked for past the end. -/
  | pastEnd (size index : Nat)
  /-- A literal was asked for that does not exist. -/
  | noLit (fault : Fault)
  deriving DecidableEq, Repr

namespace OccurrenceTable

def resize (table : Array Bool) (size : Nat) : Array Bool :=
  table.take size ++ Array.replicate (size - table.size) false

/-- Marks a literal in a table that grows, if it must, to hold both literals of the variable. -/
def mark (table : Array Bool) (l : Lit) : Except TableFault (Array Bool) :=
  let reaching := if table.size ≤ l.code then resize table ((l.index + 1) * 2) else table
  if inside : l.code < reaching.size then .ok (reaching.set l.code true)
  else .error (.pastEnd reaching.size l.code)

def entry (table : Array Bool) (index : Nat) : Except TableFault Bool :=
  if inside : index < table.size then .ok table[index] else .error (.pastEnd table.size index)

def isPure (table : Array Bool) (l : Lit) : Except TableFault Bool := do
  if ← entry table l.code then
    return !(← entry table (-l).code)
  else
    return false

/-- The first of the literals with these indexes and one polarity that is marked without its
negation. -/
def findPure (table : Array Bool) (polarity : Bool) : List Nat → Except TableFault (Option Lit)
  | [] => .ok none
  | index :: rest => do
      let l ← (Lit.ofIndex index polarity).mapError .noLit
      if ← isPure table l then
        return some l
      else
        findPure table polarity rest

/-- Marks the literals of clauses in their order, and then looks for a positive literal without
its negation before it looks for a negative one. -/
def search (residual : List (List Lit)) : Except TableFault (Option Lit) := do
  let table ← residual.flatten.foldlM mark #[]
  let indexes := List.range (table.size / 2)
  match ← findPure table true indexes with
  | some l => return some l
  | none => findPure table false indexes

/-! ## Marking -/

/-- The table has both entries of a variable or none, and the entry of a literal says whether the
list has the literal. -/
structure Marks (table : Array Bool) (lits : List Lit) : Prop where
  size_even : table.size % 2 = 0
  size_le : table.size ≤ 2 * Var.maxCount
  marked_iff : ∀ l : Lit, table[l.code]? = some true ↔ l ∈ lits

theorem size_resize (table : Array Bool) (size : Nat) : (resize table size).size = size := by
  rw [resize, Array.size_append, Array.size_replicate, Array.take_eq_extract, Array.size_extract]
  omega

theorem getElem?_resize {table : Array Bool} {size : Nat} (grows : table.size ≤ size)
    (index : Nat) : (resize table size)[index]? = some true ↔ table[index]? = some true := by
  rw [resize, Array.take_eq_extract, Array.extract_eq_self_of_le grows, Array.getElem?_append]
  split
  · rfl
  · next outside =>
      rw [Array.getElem?_eq_none (Nat.le_of_not_lt outside), Array.getElem?_replicate]
      simp

theorem marks_empty : Marks #[] [] where
  size_even := rfl
  size_le := Nat.zero_le _
  marked_iff l := by simp

theorem Marks.resize {table : Array Bool} {lits : List Lit} (marks : Marks table lits) {v : Var}
    (grows : table.size ≤ (v.index + 1) * 2) : Marks (resize table ((v.index + 1) * 2)) lits where
  size_even := by
    rw [size_resize]
    omega
  size_le := by
    have inRange := v.index_lt
    rw [size_resize, Var.maxCount]
    omega
  marked_iff l := (getElem?_resize grows l.code).trans (marks.marked_iff l)

theorem Marks.set {table : Array Bool} {lits : List Lit} (marks : Marks table lits) {l : Lit}
    (inside : l.code < table.size) : Marks (table.set l.code true) (lits ++ [l]) where
  size_even := by
    rw [Array.size_set]
    exact marks.size_even
  size_le := by
    rw [Array.size_set]
    exact marks.size_le
  marked_iff m := by
    rw [Array.getElem?_set, List.mem_append, List.mem_singleton]
    by_cases same : l.code = m.code
    · rw [if_pos same, Lit.ext_code same]
      simp
    · rw [if_neg same, marks.marked_iff, or_iff_left]
      rintro rfl
      exact same rfl

/-- Marking a literal never misses the table. -/
theorem mark_of_marks {table : Array Bool} {lits : List Lit} (marks : Marks table lits) (l : Lit) :
    ∃ next, mark table l = .ok next ∧ Marks next (lits ++ [l]) := by
  unfold mark
  have index : l.index = l.code / 2 := rfl
  by_cases beyond : table.size ≤ l.code
  · -- The new size is above the code, so the table grows and is not cut.
    have grows : table.size ≤ (l.index + 1) * 2 := by omega
    have inside : l.code < (resize table ((l.index + 1) * 2)).size := by
      rw [size_resize]
      omega
    simp only [if_pos beyond, dif_pos inside]
    exact ⟨_, rfl, (marks.resize grows).set inside⟩
  · have inside : l.code < table.size := Nat.lt_of_not_le beyond
    simp only [if_neg beyond, dif_pos inside]
    exact ⟨_, rfl, marks.set inside⟩

theorem foldlM_mark {table : Array Bool} {done : List Lit} (marks : Marks table done)
    (lits : List Lit) :
    ∃ next, lits.foldlM mark table = .ok next ∧ Marks next (done ++ lits) := by
  induction lits generalizing table done with
  | nil => exact ⟨table, rfl, by rwa [List.append_nil]⟩
  | cons l rest inductionHypothesis =>
      obtain ⟨next, marked, nextMarks⟩ := mark_of_marks marks l
      obtain ⟨last, run, lastMarks⟩ := inductionHypothesis nextMarks
      refine ⟨last, ?_, by rwa [List.append_assoc] at lastMarks⟩
      rw [List.foldlM_cons, marked]
      exact run

/-! ## Searching -/

section Searching

variable {table : Array Bool} {lits : List Lit}

theorem Marks.entry_eq (marks : Marks table lits) {l : Lit} (inside : l.code < table.size) :
    entry table l.code = .ok (decide (l ∈ lits)) := by
  rw [entry, dif_pos inside, Except.ok.injEq, Bool.eq_iff_iff, decide_eq_true_iff,
    ← marks.marked_iff, Array.getElem?_eq_getElem inside, Option.some_inj]

/-- Both literals of a variable have entries, so the search may look at both. -/
theorem Marks.isPure_eq (marks : Marks table lits) {v : Var} (inside : v.index < table.size / 2)
    (polarity : Bool) :
    isPure table (v.lit polarity) = .ok (decide (OccursOnly lits polarity v)) := by
  have bothInside : ∀ sign, (v.lit sign).code < table.size := by
    intro sign
    have atMost : (v.lit sign).code ≤ 2 * v.index + 1 := by
      cases sign <;> simp [Var.lit]
    have even := marks.size_even
    omega
  rw [isPure, Lit.negate_lit, marks.entry_eq (bothInside _), marks.entry_eq (bothInside _)]
  by_cases occurs : v.lit polarity ∈ lits
  · simp [OccursOnly, occurs, bind, Except.bind, pure, Except.pure]
  · simp [OccursOnly, occurs, bind, Except.bind, pure, Except.pure]

theorem Marks.findPure_eq (marks : Marks table lits) (polarity : Bool) (vars : List Var)
    (inside : ∀ v ∈ vars, v.index < table.size / 2) :
    findPure table polarity (vars.map Var.index) =
      .ok ((vars.find? fun v => decide (OccursOnly lits polarity v)).map (·.lit polarity)) := by
  induction vars with
  | nil => rfl
  | cons v rest inductionHypothesis =>
      have ⟨headInside, restInside⟩ := List.forall_mem_cons.mp inside
      have isLit : (Lit.ofIndex v.index polarity).mapError .noLit =
          (.ok (v.lit polarity) : Except TableFault Lit) := by
        rw [Lit.ofIndex, Var.ofIndex, dif_pos v.index_lt]
        rfl
      rw [List.map_cons, findPure, isLit, List.find?_cons]
      by_cases occursOnly : OccursOnly lits polarity v
      · simp [marks.isPure_eq headInside, occursOnly, bind, Except.bind, pure, Except.pure]
      · simp [marks.isPure_eq headInside, occursOnly, bind, Except.bind,
          inductionHypothesis restInside]

/-- The variables with indexes below a number. -/
theorem exists_vars_below {count : Nat} (atMost : count ≤ Var.maxCount) :
    ∃ vars : List Var, vars.map Var.index = List.range count := by
  refine ⟨(List.range count).pmap Var.mk fun index member =>
    Nat.lt_of_lt_of_le (List.mem_range.mp member) atMost, ?_⟩
  rw [List.map_pmap, List.pmap_eq_map, List.map_id']

theorem Marks.findPure_range (marks : Marks table lits) (polarity : Bool) :
    findPure table polarity (List.range (table.size / 2)) = .ok (pureWith? lits polarity) := by
  have atMost : table.size / 2 ≤ Var.maxCount := by
    have bound := marks.size_le
    omega
  obtain ⟨vars, indexes⟩ := exists_vars_below atMost
  have mem_vars : ∀ v, v ∈ vars ↔ v.index < table.size / 2 := by
    intro v
    rw [← List.mem_range, ← indexes, List.mem_map]
    constructor
    · intro member
      exact ⟨v, member, rfl⟩
    · rintro ⟨w, member, sameIndex⟩
      exact Var.ext_index sameIndex ▸ member
  have varsAscending : Ascending Var.index vars := by
    rw [Ascending, ← List.pairwise_map, indexes]
    exact List.pairwise_lt_range
  rw [← indexes, marks.findPure_eq polarity vars fun v => (mem_vars v).mp, pureWith?_eq]
  congr 2
  -- Both lists of variables ascend, and a pure variable is in both.
  refine varsAscending.find?_eq_find? Ascending.ascending_ofList ?_
  intro v occursOnly
  have occurs := of_decide_eq_true occursOnly
  refine iff_of_true ((mem_vars v).mpr ?_) occurs.mem_variablesOfLits
  have marked := (marks.marked_iff _).mpr occurs.1
  obtain ⟨inside, _⟩ := Array.getElem?_eq_some_iff.mp marked
  have code : 2 * v.index ≤ (v.lit polarity).code := Nat.le_add_right _ _
  have even := marks.size_even
  omega

/-- The search never leaves the table and finds the pure literal. -/
theorem search_eq (residual : List (List Lit)) : search residual = .ok (pureLit? residual) := by
  obtain ⟨table, run, marks⟩ := foldlM_mark marks_empty residual.flatten
  rw [List.nil_append] at marks
  rw [search, run]
  simp only [bind, Except.bind]
  rw [marks.findPure_range true, marks.findPure_range false, pureLit?]
  cases pureWith? residual.flatten true <;> rfl

end Searching

end OccurrenceTable

/-- Looking for a pure literal in a table of occurrences, which never asks for an entry past the
end, finds the positive literal of the smallest variable that occurs positively only.  If there is
none, it finds the negative literal of the smallest variable that occurs negatively only.  It finds
nothing exactly when every variable that occurs does so with both polarities. -/
theorem pureLit?_smallest (residual : List (List Lit)) :
    OccurrenceTable.search residual = .ok (pureLit? residual) ∧
    (∀ v : Var, pureLit? residual = some v.positive ↔ FirstOccursOnly residual.flatten true v) ∧
    (∀ v : Var, pureLit? residual = some v.negative ↔
      (∀ w, ¬OccursOnly residual.flatten true w) ∧ FirstOccursOnly residual.flatten false v) ∧
    (pureLit? residual = none ↔ ∀ l ∈ residual.flatten,
      l.var.positive ∈ residual.flatten ∧ l.var.negative ∈ residual.flatten) :=
  ⟨OccurrenceTable.search_eq residual, fun _ => pureLit?_eq_positive_iff,
    fun _ => pureLit?_eq_negative_iff, pureLit?_eq_none_iff⟩

example : OccurrenceTable.search
    [[Var.negative ⟨3, by decide⟩, Var.positive ⟨2, by decide⟩],
      [Var.negative ⟨2, by decide⟩, Var.negative ⟨1, by decide⟩]] =
    .ok (some (Var.negative ⟨1, by decide⟩)) := by
  rfl

end Clausal
