import Mathlib.Data.List.Forall2
import Clausal.Proofs.FirstOccurrences
import Clausal.Proofs.Satisfaction

/-!
# Two forms of the clauses

The procedures start from the clauses as sets or from the clauses as written, with each literal
at its first place only.  Simplification comes to the same in both forms, because it asks of a
clause only which literals it holds: each form simplifies to the image of what the clauses as
written simplify to (`simplify_map_ofList`, `simplifyWritten_map_eraseDups`).  What is left says
the same about the models as the clauses themselves (`Simplifies`).
-/

set_option autoImplicit false

namespace Clausal

namespace Simplified

variable {α β γ : Type}

def map (f : α → β) : Simplified α → Simplified β
  | .unsat => .unsat
  | .sat => .sat
  | .remaining clauses => .remaining (clauses.map f)

/-- Two answers are both unsatisfiable, both satisfiable, or leave as many clauses, which are
related place by place. -/
inductive Agree (related : α → β → Prop) : Simplified α → Simplified β → Prop
  | unsat : Agree related .unsat .unsat
  | sat : Agree related .sat .sat
  | remaining {clauses : List α} {others : List β}
      (clausewise : List.Forall₂ related clauses others) :
      Agree related (.remaining clauses) (.remaining others)

def SatisfiedBy (valuation : Valuation) (litsOf : α → List Lit) : Simplified α → Prop
  | .unsat => False
  | .sat => True
  | .remaining clauses => Valuation.Models valuation (clauses.map litsOf)

theorem map_id (answer : Simplified α) : answer.map id = answer := by
  cases answer with
  | unsat => rfl
  | sat => rfl
  | remaining clauses => rw [map, List.map_id]

theorem map_eq_remaining_iff {f : α → β} {answer : Simplified α} {others : List β} :
    answer.map f = .remaining others ↔
      ∃ clauses, answer = .remaining clauses ∧ others = clauses.map f := by
  cases answer with
  | unsat => simp [map]
  | sat => simp [map]
  | remaining clauses => simp [map, eq_comm]

theorem agree_map {related : β → γ → Prop} {f : α → β} {g : α → γ}
    (relates : ∀ x, related (f x) (g x)) (answer : Simplified α) :
    Agree related (answer.map f) (answer.map g) := by
  cases answer with
  | unsat => exact .unsat
  | sat => exact .sat
  | remaining clauses =>
      refine .remaining ?_
      rw [List.forall₂_map_left_iff, List.forall₂_map_right_iff, List.forall₂_same]
      exact fun x _ => relates x

theorem agree_map_left {related : β → α → Prop} {f : α → β} (relates : ∀ x, related (f x) x)
    (answer : Simplified α) : Agree related (answer.map f) answer := by
  have agree : Agree related (answer.map f) (answer.map id) := agree_map relates answer
  rwa [map_id] at agree

theorem classify_map (f : α → β) (isTautology isEmpty : β → Bool) (clauses : List α) :
    classify isTautology isEmpty (clauses.map f) =
      (classify (isTautology ∘ f) (isEmpty ∘ f) clauses).map f := by
  have sameKept : (clauses.map f).filter (fun c => !isTautology c) =
      (clauses.filter fun c => !(isTautology ∘ f) c).map f := by
    rw [List.filter_map]
    rfl
  rw [classify, classify, sameKept, List.any_map, List.isEmpty_map]
  split
  · rfl
  · split <;> rfl

end Simplified

/-! ## Sets and written clauses -/

def SameLits (clause : Clause) (lits : List Lit) : Prop := ∀ l, l ∈ clause ↔ l ∈ lits

/-- The literals of a written clause, each once and in the order of their first places. -/
structure FirstOccurrences (lits written : List Lit) : Prop where
  mem_iff : ∀ l, l ∈ written ↔ l ∈ lits
  ordered : written.Pairwise fun l m => lits.idxOf l < lits.idxOf m

theorem firstOccurrences_eraseDups (lits : List Lit) : FirstOccurrences lits lits.eraseDups :=
  ⟨fun _ => List.mem_eraseDups, pairwise_idxOf_eraseDups lits⟩

theorem eq_nil_iff_of_mem_iff {lits others : List Lit} (sameLits : ∀ l, l ∈ others ↔ l ∈ lits) :
    others = [] ↔ lits = [] := by
  simp only [List.eq_nil_iff_forall_not_mem, sameLits]

theorem isEmpty_eq_of_mem_iff {lits others : List Lit} (sameLits : ∀ l, l ∈ others ↔ l ∈ lits) :
    others.isEmpty = lits.isEmpty := by
  rw [Bool.eq_iff_iff, List.isEmpty_iff, List.isEmpty_iff, eq_nil_iff_of_mem_iff sameLits]

theorem isTautologyWritten_eq_of_mem_iff {lits others : List Lit}
    (sameLits : ∀ l, l ∈ others ↔ l ∈ lits) :
    isTautologyWritten others = isTautologyWritten lits := by
  have sameProper : Proper others ↔ Proper lits := by
    simp only [Proper, sameLits]
  rw [← isTautologyWritten_eq_false_iff, ← isTautologyWritten_eq_false_iff] at sameProper
  rw [← Bool.not_inj_iff, Bool.eq_iff_iff, Bool.not_eq_true', Bool.not_eq_true', sameProper]

theorem simplify_map_ofList (clauses : List (List Lit)) :
    simplify (clauses.map Clause.ofList) = (simplifyWritten clauses).map Clause.ofList := by
  have sameEmpty : Clause.isEmpty ∘ Clause.ofList = List.isEmpty := by
    funext lits
    exact isEmpty_eq_of_mem_iff fun _ => Clause.mem_ofList
  rw [simplify, Simplified.classify_map, sameEmpty]
  rfl

theorem simplifyWritten_map_eraseDups (clauses : List (List Lit)) :
    simplifyWritten (clauses.map List.eraseDups) =
      (simplifyWritten clauses).map List.eraseDups := by
  have sameTautology : isTautologyWritten ∘ List.eraseDups = isTautologyWritten := by
    funext lits
    exact isTautologyWritten_eq_of_mem_iff fun _ => List.mem_eraseDups
  have sameEmpty : List.isEmpty ∘ (List.eraseDups : List Lit → List Lit) = List.isEmpty := by
    funext lits
    exact isEmpty_eq_of_mem_iff fun _ => List.mem_eraseDups
  rw [simplifyWritten, Simplified.classify_map, sameTautology, sameEmpty]
  rfl

theorem simplifyWritten_remaining {clauses kept : List (List Lit)}
    (simplified : simplifyWritten clauses = .remaining kept) :
    kept = clauses.filter fun lits => decide (Proper lits) := by
  rw [(classify_eq_remaining_iff.mp simplified).1]
  refine List.filter_congr ?_
  intro lits _
  rw [Bool.eq_iff_iff, Bool.not_eq_true', isTautologyWritten_eq_false_iff, decide_eq_true_iff]

theorem map_lits_normalized (formula : Formula) :
    formula.normalized.map Clause.lits =
      formula.clauses.map fun lits => (Clause.ofList lits).lits := by
  rw [Formula.normalized, List.map_map]
  rfl

theorem mem_lits_ofList (lits : List Lit) (l : Lit) : l ∈ (Clause.ofList lits).lits ↔ l ∈ lits :=
  Clause.mem_ofList

/-! ## What is left -/

/-- What the simplified form of clauses says about them.  Simplifying what is left once more
changes nothing. -/
structure Simplifies {α : Type} (again : List α → Simplified α) (litsOf : α → List Lit)
    (clauses : List (List Lit)) (answer : Simplified α) : Prop where
  unsat_iff : answer = .unsat ↔ [] ∈ clauses
  sat_iff : answer = .sat ↔ [] ∉ clauses ∧ ∀ lits ∈ clauses, ¬Proper lits
  again_eq : ∀ kept, answer = .remaining kept → again kept = .remaining kept
  satisfiedBy_iff : ∀ valuation : Valuation,
    answer.SatisfiedBy valuation litsOf ↔ Valuation.Models valuation clauses

section Simplifies

variable {α : Type} {isTautology isEmpty : α → Bool} {litsOf : α → List Lit} {clauses : List α}

theorem proper_nil : Proper [] := fun _ inEmpty => absurd inEmpty List.not_mem_nil

theorem nil_notMem_of_not_proper {clauses : List (List Lit)}
    (tautologies : ∀ lits ∈ clauses, ¬Proper lits) : [] ∉ clauses :=
  fun member => tautologies [] member proper_nil

theorem classify_kept {kept : List α}
    (simplified : Simplified.classify isTautology isEmpty clauses = .remaining kept) :
    Simplified.classify isTautology isEmpty kept = .remaining kept := by
  obtain ⟨isKept, nonempty, noneEmpty⟩ := classify_eq_remaining_iff.mp simplified
  refine classify_eq_remaining_iff.mpr ⟨?_, nonempty, noneEmpty⟩
  rw [isKept, List.filter_filter]
  refine List.filter_congr ?_
  intro c _
  rw [Bool.and_self]

theorem satisfiedBy_classify_iff (properIff : ∀ c, isTautology c = false ↔ Proper (litsOf c))
    (emptyIff : ∀ c, isEmpty c = true ↔ litsOf c = []) (valuation : Valuation) :
    (Simplified.classify isTautology isEmpty clauses).SatisfiedBy valuation litsOf ↔
      Valuation.Models valuation (clauses.map litsOf) := by
  cases simplified : Simplified.classify isTautology isEmpty clauses with
  | unsat =>
      refine iff_of_false id ?_
      intro models
      exact not_satisfiable_of_unsat emptyIff simplified ⟨valuation, models⟩
  | sat =>
      refine iff_of_true trivial (models_iff_proper.mpr ?_)
      intro lits member proper
      obtain ⟨c, inClauses, isLits⟩ := List.mem_map.mp member
      rw [← isLits] at proper
      exact absurd proper (not_proper_of_sat properIff simplified inClauses)
  | remaining kept => exact models_kept_iff properIff simplified

theorem simplifies_classify (properIff : ∀ c, isTautology c = false ↔ Proper (litsOf c))
    (emptyIff : ∀ c, isEmpty c = true ↔ litsOf c = []) (clauses : List α) :
    Simplifies (Simplified.classify isTautology isEmpty) litsOf (clauses.map litsOf)
      (Simplified.classify isTautology isEmpty clauses) where
  unsat_iff := by
    rw [classify_eq_unsat_iff, List.mem_map]
    refine exists_congr fun c => and_congr_right fun _ => ?_
    rw [properIff, emptyIff, and_iff_right_iff_imp]
    intro empty
    rw [empty]
    exact proper_nil
  sat_iff := by
    rw [classify_eq_sat_iff, and_iff_right_of_imp nil_notMem_of_not_proper, List.forall_mem_map]
    refine forall₂_congr fun c _ => ?_
    rw [← properIff, Bool.not_eq_false]
  again_eq _ := classify_kept
  satisfiedBy_iff := satisfiedBy_classify_iff properIff emptyIff

theorem simplifies_simplify (clauses : List Clause) :
    Simplifies simplify Clause.lits (clauses.map Clause.lits) (simplify clauses) :=
  simplifies_classify (fun _ => Clause.isTautology_eq_false_iff) (fun _ => List.isEmpty_iff) clauses

theorem simplifies_simplifyWritten (clauses : List (List Lit)) :
    Simplifies simplifyWritten id clauses (simplifyWritten clauses) := by
  have simplifies : Simplifies simplifyWritten id (clauses.map id) (simplifyWritten clauses) :=
    simplifies_classify (fun _ => isTautologyWritten_eq_false_iff) (fun _ => List.isEmpty_iff)
      clauses
  rwa [List.map_id] at simplifies

theorem Simplifies.of_map {again : List α → Simplified α} {rewrite : List Lit → List Lit}
    {clauses : List (List Lit)} {answer : Simplified α}
    (simplifies : Simplifies again litsOf (clauses.map rewrite) answer)
    (sameLits : ∀ lits l, l ∈ rewrite lits ↔ l ∈ lits) :
    Simplifies again litsOf clauses answer := by
  have nilIff : [] ∈ clauses.map rewrite ↔ [] ∈ clauses := by
    simp only [List.mem_map, eq_nil_iff_of_mem_iff (sameLits _), exists_eq_right]
  have properIff : (∀ lits ∈ clauses.map rewrite, ¬Proper lits) ↔
      ∀ lits ∈ clauses, ¬Proper lits := by
    simp only [Proper, List.forall_mem_map, sameLits]
  refine ⟨?_, ?_, simplifies.again_eq, ?_⟩
  · rw [simplifies.unsat_iff, nilIff]
  · rw [simplifies.sat_iff, nilIff, properIff]
  · intro valuation
    rw [simplifies.satisfiedBy_iff, models_map_iff sameLits]

end Simplifies

/-- Simplification answers alike for the clauses of a formula as sets and as written with each
literal at its first place, and so it does for all written clauses and their sets.  The answer is
unsatisfiable exactly for an empty clause and satisfiable exactly for tautologies only; otherwise
what is left stays as it is when simplified again and has the models of the formula. -/
theorem simplify_forms_agree (formula : Formula) :
    (simplify formula.normalized).Agree SameLits (simplifyWritten formula.withoutRepeats) ∧
    (∀ written, simplifyWritten formula.withoutRepeats = .remaining written →
      List.Forall₂ FirstOccurrences (formula.clauses.filter fun lits => decide (Proper lits))
        written) ∧
    (∀ raw : List (List Lit),
      (simplify (raw.map Clause.ofList)).Agree SameLits (simplifyWritten raw)) ∧
    Simplifies simplify Clause.lits formula.clauses (simplify formula.normalized) ∧
    Simplifies simplifyWritten id formula.clauses (simplifyWritten formula.withoutRepeats) := by
  have sets : simplify formula.normalized =
      (simplifyWritten formula.clauses).map Clause.ofList := simplify_map_ofList formula.clauses
  have written : simplifyWritten formula.withoutRepeats =
      (simplifyWritten formula.clauses).map List.eraseDups :=
    simplifyWritten_map_eraseDups formula.clauses
  refine ⟨?_, ?_, ?_, ?_, ?_⟩
  · rw [sets, written]
    refine Simplified.agree_map ?_ _
    intro lits l
    rw [Clause.mem_ofList, List.mem_eraseDups]
  · intro kept isKept
    rw [written] at isKept
    obtain ⟨raw, simplified, isMap⟩ := Simplified.map_eq_remaining_iff.mp isKept
    rw [isMap, ← simplifyWritten_remaining simplified, List.forall₂_map_right_iff,
      List.forall₂_same]
    exact fun lits _ => firstOccurrences_eraseDups lits
  · intro raw
    rw [simplify_map_ofList]
    exact Simplified.agree_map_left (fun _ _ => Clause.mem_ofList) _
  · have simplifies := simplifies_simplify formula.normalized
    rw [map_lits_normalized] at simplifies
    exact simplifies.of_map mem_lits_ofList
  · have simplifies := simplifies_simplifyWritten formula.withoutRepeats
    exact simplifies.of_map fun _ _ => List.mem_eraseDups

end Clausal
