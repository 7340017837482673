import Clausal.Resolution
import Clausal.Simplify

/-!
# Saturation

A round resolves every pair of the present clauses on every literal on which they clash and adds
what is new.  Rounds repeat until the empty clause arises or nothing is new.

A resolvent has only literals of the present clauses, so all rounds draw their clauses from the
finitely many sets of the first clauses' literals.  `missingCount` counts the sets that are not
present; every round that adds a clause lowers it.
-/

set_option autoImplicit false

namespace Clausal

structure Clash where
  left : Clause
  right : Clause
  pivot : Var
  deriving DecidableEq

def clashesBetween (a b : Clause) : List Clash :=
  (a.lits.filter fun l => b.contains (-l)).map fun l => ⟨a, b, l.var⟩

def clashes : List Clause → List Clash
  | [] => []
  | a :: rest => rest.flatMap (clashesBetween a) ++ clashes rest

inductive Round
  | refuted
  | added (clauses : List Clause)

namespace Progress

def round (progress : Progress) : Progress :=
  progress.count fun stats => { stats with saturationRounds := stats.saturationRounds + 1 }

def refuted (progress : Progress) : Progress :=
  progress.note (.debug s!"derived the empty clause in round {progress.stats.saturationRounds}")

def roundEnd (progress : Progress) (present new : Nat) : Progress :=
  progress.note (.debug
    s!"saturation round {progress.stats.saturationRounds}: {present} clauses, {new} new")

end Progress

def resolveClashes (present : List Clause) :
    List Clash → List Clause → Progress → Run Round
  | [], added, progress => .done progress (.added added)
  | clash :: rest, added, progress =>
      match resolve clash.left clash.right clash.pivot with
      | .error fault => .stopped progress fault
      | .ok none => resolveClashes present rest added progress
      | .ok (some resolvent) =>
          if resolvent.isEmpty then .done progress.resolvent.refuted .refuted
          else if present.contains resolvent || added.contains resolvent then
            resolveClashes present rest added progress.resolvent
          else
            resolveClashes present rest (added ++ [resolvent]) progress.resolvent

inductive Saturation
  | refuted
  | closed (clauses : List Clause)

/-- All ways to pick members of a list, in the order of the list. -/
def subsets {α : Type} : List α → List (List α)
  | [] => [[]]
  | x :: rest => subsets rest ++ (subsets rest).map (x :: ·)

def literalsOf (clauses : List Clause) : List Lit :=
  Ascending.ofList Lit.code (clauses.flatMap Clause.lits)

/-- How many sets of the clauses' literals are not among the clauses. -/
def missingCount (clauses : List Clause) : Nat :=
  (subsets (literalsOf clauses)).countP fun lits => !(clauses.map Clause.lits).contains lits

theorem mem_literalsOf {clauses : List Clause} {l : Lit} :
    l ∈ literalsOf clauses ↔ ∃ clause ∈ clauses, l ∈ clause := by
  rw [literalsOf, Ascending.mem_ofList Clause.code_injective, List.mem_flatMap]
  exact Iff.rfl

theorem mem_subsets {α : Type} {part all : List α} (sublist : part.Sublist all) :
    part ∈ subsets all := by
  induction sublist with
  | slnil => exact List.mem_singleton.mpr rfl
  | cons x _ inductionHypothesis => exact List.mem_append_left _ inductionHypothesis
  | cons_cons x _ inductionHypothesis =>
      exact List.mem_append_right _ (List.mem_map_of_mem inductionHypothesis)

theorem lits_mem_subsets {clauses : List Clause} {c : Clause}
    (within : ∀ l ∈ c, l ∈ literalsOf clauses) : c.lits ∈ subsets (literalsOf clauses) :=
  mem_subsets (c.ascending.sublist_of_subset Ascending.ascending_ofList within)

theorem mem_of_mem_clashes {clauses : List Clause} {clash : Clash}
    (member : clash ∈ clashes clauses) : clash.left ∈ clauses ∧ clash.right ∈ clauses := by
  induction clauses with
  | nil => simp [clashes] at member
  | cons a rest inductionHypothesis =>
      rw [clashes, List.mem_append] at member
      rcases member with here | later
      · obtain ⟨b, inRest, between⟩ := List.mem_flatMap.mp here
        obtain ⟨l, _, same⟩ := List.mem_map.mp between
        subst same
        simp [inRest]
      · have := inductionHypothesis later
        simp [this]

/-- A round adds only resolvents, none of which is present. -/
theorem new_of_resolveClashes {present : List Clause} {todo : List Clash} {before after : List Clause}
    {progress : Progress}
    (todoPresent : ∀ clash ∈ todo, clash.left ∈ present ∧ clash.right ∈ present)
    (beforeNew : ∀ c ∈ before, c ∉ present ∧ ∀ l ∈ c, l ∈ literalsOf present)
    (run : (resolveClashes present todo before progress).result = .ok (.added after)) :
    ∀ c ∈ after, c ∉ present ∧ ∀ l ∈ c, l ∈ literalsOf present := by
  fun_induction resolveClashes present todo before progress with
  | case1 =>
      simp only [Run.done, Except.ok.injEq, Round.added.injEq] at run
      rw [← run]
      exact beforeNew
  | case2 => cases run
  | case3 clash rest before progress resolved inductionHypothesis =>
      exact inductionHypothesis (fun c member => todoPresent c (by simp [member])) beforeNew run
  | case4 => simp [Run.done] at run
  | case5 clash rest before progress resolvent resolved notEmpty known inductionHypothesis =>
      exact inductionHypothesis (fun c member => todoPresent c (by simp [member])) beforeNew run
  | case6 clash rest before progress resolvent resolved notEmpty unknown inductionHypothesis =>
      refine inductionHypothesis (fun c member => todoPresent c (by simp [member])) ?_ run
      intro c member
      rcases List.mem_append.mp member with old | new
      · exact beforeNew c old
      · have same : c = resolvent := by simpa using new
        subst same
        constructor
        · intro isPresent
          exact unknown (by simp [isPresent])
        · intro l inClause
          obtain ⟨leftPresent, rightPresent⟩ := todoPresent clash (by simp)
          rw [mem_literalsOf]
          rcases (mem_resolvent resolved).mp inClause with ⟨inLeft, _⟩ | ⟨inRight, _⟩
          · exact ⟨clash.left, leftPresent, inLeft⟩
          · exact ⟨clash.right, rightPresent, inRight⟩

theorem literalsOf_append {clauses new : List Clause}
    (within : ∀ c ∈ new, ∀ l ∈ c, l ∈ literalsOf clauses) :
    literalsOf (clauses ++ new) = literalsOf clauses := by
  refine Ascending.eq_of_mem_iff Ascending.ascending_ofList Ascending.ascending_ofList ?_
  intro l
  constructor
  · intro member
    obtain ⟨c, inAppend, inClause⟩ := mem_literalsOf.mp member
    rcases List.mem_append.mp inAppend with old | added
    · exact mem_literalsOf.mpr ⟨c, old, inClause⟩
    · exact within c added l inClause
  · intro member
    obtain ⟨c, old, inClause⟩ := mem_literalsOf.mp member
    exact mem_literalsOf.mpr ⟨c, List.mem_append_left _ old, inClause⟩

theorem contains_lits_iff {clauses : List Clause} {c : Clause} :
    (clauses.map Clause.lits).contains c.lits = true ↔ c ∈ clauses := by
  rw [List.contains_iff_mem]
  constructor
  · intro member
    obtain ⟨d, present, sameLits⟩ := List.mem_map.mp member
    rwa [← Clause.ext_lits sameLits]
  · exact List.mem_map_of_mem

/-- Adding a clause over the present literals lowers the number of missing ones. -/
theorem missingCount_append_lt {clauses new : List Clause}
    (isNew : ∀ c ∈ new, c ∉ clauses ∧ ∀ l ∈ c, l ∈ literalsOf clauses) (nonempty : new ≠ []) :
    missingCount (clauses ++ new) < missingCount clauses := by
  obtain ⟨c, added⟩ := List.exists_mem_of_ne_nil new nonempty
  obtain ⟨absent, within⟩ := isNew c added
  rw [missingCount, missingCount, literalsOf_append fun d member => (isNew d member).2]
  refine countP_lt ?_ (lits_mem_subsets within) ?_ ?_
  · intro lits missing
    simp only [Bool.not_eq_true', ← Bool.not_eq_true, List.contains_iff_mem, List.map_append,
      List.mem_append, not_or] at missing ⊢
    exact missing.1
  · rw [Bool.not_eq_false', contains_lits_iff]
    exact List.mem_append_right _ added
  · rw [Bool.not_eq_true', ← Bool.not_eq_true, contains_lits_iff]
    exact absent

set_option linter.unusedVariables false in
def saturateFrom (clauses : List Clause) (progress : Progress) : Run Saturation :=
  match derived : resolveClashes clauses (clashes clauses) [] progress.round with
  | ⟨after, .error fault⟩ => .stopped after fault
  | ⟨after, .ok .refuted⟩ => .done after .refuted
  | ⟨after, .ok (.added [])⟩ => .done (after.roundEnd clauses.length 0) (.closed clauses)
  | ⟨after, .ok (.added (first :: others))⟩ =>
      saturateFrom (clauses ++ first :: others)
        (after.roundEnd clauses.length (others.length + 1))
  termination_by missingCount clauses
  decreasing_by
    have answered : (resolveClashes clauses (clashes clauses) [] progress.round).result =
        .ok (.added (first :: others)) := by rw [derived]
    have isNew := new_of_resolveClashes (fun _ => mem_of_mem_clashes) (by simp) answered
    exact missingCount_append_lt isNew (by simp)

/-- Adds resolvents to the distinct clauses of a list until the empty clause arises or every
resolvent is present. -/
def saturate (clauses : List Clause) (progress : Progress) : Run Saturation :=
  let distinct := clauses.eraseDups
  if distinct.any Clause.isEmpty then .done progress .refuted
  else saturateFrom distinct progress

def isSatisfiable (clauses : List Clause) (progress : Progress) : Run Bool :=
  match simplify clauses with
  | .unsat => .done progress false
  | .sat => .done progress true
  | .remaining clauses =>
      match saturate clauses progress with
      | ⟨after, .error fault⟩ => .stopped after fault
      | ⟨after, .ok .refuted⟩ => .done after false
      | ⟨after, .ok (.closed closure)⟩ =>
          .done (after.note (.debug s!"closure has {closure.length} clauses")) true

end Clausal
