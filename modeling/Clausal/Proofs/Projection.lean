import Clausal.Elimination
import Clausal.Proofs.PivotResolvents

/-!
# Elimination is projection

Replacing the clauses that hold a variable by their resolvents on it leaves exactly the models of
the clauses with the value of that variable forgotten (`Projects.exists_models_update_iff`), and
the clauses that are left mention only other variables of the clauses before (`Projects.var_mem`).
No elimination faults (`eliminateSmallest_ne_stopped`).
-/

set_option autoImplicit false

namespace Clausal

/-- What is left of clauses without a variable. -/
structure Projects (clauses : List Clause) (pivot : Var) (next : List Clause) : Prop where
  proper : ∀ c ∈ clauses, Proper c.lits
  mem_next_iff : ∀ c, c ∈ next ↔
    (c ∈ clauses ∧ pivot.positive ∉ c ∧ -pivot.positive ∉ c) ∨
    ∃ a ∈ clauses, ∃ b ∈ clauses, pivot.positive ∈ a ∧ -pivot.positive ∈ b ∧
      c = joined a b pivot.positive ∧ Proper c.lits

/-- The step from clauses to the clauses without their smallest variable. -/
structure Eliminated (kept : List Clause) (pivot : Var) (next : List Clause) : Prop where
  proper : ∀ c ∈ kept, Proper c.lits
  occurs : pivot ∈ variablesOf kept
  smallest : ∀ v ∈ variablesOf kept, v ≠ pivot → pivot < v
  mem_next_iff : ∀ c, c ∈ next ↔
    (c ∈ kept ∧ pivot.positive ∉ c ∧ -pivot.positive ∉ c) ∨
    ∃ a ∈ kept, ∃ b ∈ kept, pivot.positive ∈ a ∧ -pivot.positive ∈ b ∧
      c = joined a b pivot.positive ∧ Proper c.lits

theorem Eliminated.projects {kept next : List Clause} {pivot : Var}
    (eliminated : Eliminated kept pivot next) : Projects kept pivot next :=
  ⟨eliminated.proper, eliminated.mem_next_iff⟩

/-! ## The clauses sorted by a variable -/

section Parts

variable {pivot : Var} {kept : List Clause}

theorem mem_positive_iff {c : Clause} :
    c ∈ (Partition.on pivot kept).positive ↔ c ∈ kept ∧ pivot.positive ∈ c := by
  simp only [Partition.on, List.mem_filter, Clause.contains_iff_mem]

theorem mem_negative_iff (proper : ∀ c ∈ kept, Proper c.lits) {c : Clause} :
    c ∈ (Partition.on pivot kept).negative ↔ c ∈ kept ∧ -pivot.positive ∈ c := by
  simp only [Partition.on, List.mem_filter, Bool.and_eq_true, Bool.not_eq_true',
    ← Bool.not_eq_true, Clause.contains_iff_mem, Var.negative_eq]
  constructor
  · rintro ⟨inKept, _, inClause⟩
    exact ⟨inKept, inClause⟩
  · rintro ⟨inKept, inClause⟩
    exact ⟨inKept, fun inPositive => proper c inKept _ inPositive inClause, inClause⟩

theorem opposed_of_mem_product (proper : ∀ c ∈ kept, Proper c.lits) {pair : Clause × Clause}
    (member : pair ∈ (Partition.on pivot kept).positive ×ˢ (Partition.on pivot kept).negative) :
    Opposed pivot pair.1 pair.2 := by
  obtain ⟨inPositive, inNegative⟩ := List.mem_product.mp member
  obtain ⟨leftIn, inLeft⟩ := mem_positive_iff.mp inPositive
  obtain ⟨rightIn, inRight⟩ := (mem_negative_iff proper).mp inNegative
  exact ⟨proper pair.1 leftIn, proper pair.2 rightIn, inLeft, inRight⟩

/-- The clauses without the pivot and all resolvents on it are what is left without it. -/
theorem projects_partition (proper : ∀ c ∈ kept, Proper c.lits) {next : List Clause}
    (memIff : ∀ c, c ∈ next ↔ c ∈ (Partition.on pivot kept).rest ∨
      c ∈ generated pivot
        ((Partition.on pivot kept).positive ×ˢ (Partition.on pivot kept).negative)) :
    Projects kept pivot next where
  proper := proper
  mem_next_iff c := by
    have opposed := fun pair => @opposed_of_mem_product pivot kept proper pair
    rw [memIff, mem_rest_iff, mem_generated_iff opposed]
    refine or_congr_right ?_
    constructor
    · rintro ⟨pair, member, clashOnly, isJoined⟩
      have opposedPair := opposed pair member
      obtain ⟨inPositive, inNegative⟩ := List.mem_product.mp member
      refine ⟨pair.1, (mem_positive_iff.mp inPositive).1, pair.2,
        ((mem_negative_iff proper).mp inNegative).1, opposedPair.inLeft, opposedPair.inRight,
        isJoined, ?_⟩
      rw [isJoined]
      exact opposedPair.proper_joined_iff.mpr clashOnly
    · rintro ⟨a, aIn, b, bIn, inLeft, inRight, isJoined, isProper⟩
      have member : (a, b) ∈
          (Partition.on pivot kept).positive ×ˢ (Partition.on pivot kept).negative :=
        List.mem_product.mpr
          ⟨mem_positive_iff.mpr ⟨aIn, inLeft⟩, (mem_negative_iff proper).mpr ⟨bIn, inRight⟩⟩
      rw [isJoined] at isProper
      exact ⟨(a, b), member, (opposed (a, b) member).proper_joined_iff.mp isProper, isJoined⟩

theorem exists_pivot (nonempty : kept ≠ []) (noEmpty : ∀ c ∈ kept, c.lits ≠ []) :
    ∃ pivot others, variablesOf kept = pivot :: others := by
  cases vars : variablesOf kept with
  | cons pivot others => exact ⟨pivot, others, rfl⟩
  | nil =>
      obtain ⟨c, member⟩ := List.exists_mem_of_ne_nil kept nonempty
      obtain ⟨l, inClause⟩ := List.exists_mem_of_ne_nil c.lits (noEmpty c member)
      have occurs : l.var ∈ variablesOf kept := mem_variablesOf.mpr ⟨c, member, l, inClause, rfl⟩
      rw [vars] at occurs
      cases occurs

end Parts

/-! ## One elimination -/

theorem eliminateSmallest_remaining {clauses kept : List Clause}
    (simplified : simplify clauses = .remaining kept) (progress : Progress) :
    ∃ pivot next after,
      eliminateSmallest clauses progress = .done after (.eliminated ⟨pivot, kept⟩ next) ∧
      Eliminated kept pivot next ∧
      after.stats.eliminatedVars = progress.stats.eliminatedVars + 1 := by
  have keptIff : ∀ c, c ∈ kept ↔ c ∈ clauses ∧ Proper c.lits :=
    mem_kept_iff (fun _ => Clause.isTautology_eq_false_iff) simplified
  have proper : ∀ c ∈ kept, Proper c.lits := fun c member => ((keptIff c).mp member).2
  obtain ⟨pivot, others, vars⟩ := exists_pivot (kept_ne_nil simplified)
    (fun c member => ne_nil_of_kept (fun _ => List.isEmpty_iff) simplified member)
  have resolved :=
    resolveOn_eq (fun pair => @opposed_of_mem_product pivot kept proper pair) progress
  refine ⟨pivot, _, _, by simp only [eliminateSmallest, simplified, vars, resolved]; rfl,
    ⟨proper, by simp [vars], ?_, ?_⟩, rfl⟩
  · intro v member other
    have ascending := @ascending_variablesOf kept
    rw [vars] at ascending member
    exact (List.pairwise_cons.mp ascending).1 v ((List.mem_cons.mp member).resolve_left other)
  · refine (projects_partition proper ?_).mem_next_iff
    intro c
    rw [List.mem_eraseDups, List.mem_append, List.mem_eraseDups]

def EliminationStep.Describes (clauses : List Clause) : EliminationStep → Prop
  | .unsat => simplify clauses = .unsat
  | .sat => simplify clauses = .sat
  | .eliminated level next =>
      simplify clauses = .remaining level.clauses ∧ Eliminated level.clauses level.pivot next

def EliminationStep.Counts (before after : Progress) : EliminationStep → Prop
  | .eliminated _ _ => after.stats.eliminatedVars = before.stats.eliminatedVars + 1
  | _ => after = before

theorem eliminateSmallest_describes (clauses : List Clause) (progress : Progress) :
    ∃ step after, eliminateSmallest clauses progress = .done after step ∧
      step.Describes clauses ∧ step.Counts progress after := by
  cases simplified : simplify clauses with
  | unsat =>
      exact ⟨.unsat, progress, by simp only [eliminateSmallest, simplified], simplified, rfl⟩
  | sat => exact ⟨.sat, progress, by simp only [eliminateSmallest, simplified], simplified, rfl⟩
  | remaining kept =>
      obtain ⟨pivot, next, after, run, eliminated, counted⟩ :=
        eliminateSmallest_remaining simplified progress
      exact ⟨.eliminated ⟨pivot, kept⟩ next, after, run, ⟨simplified, eliminated⟩, counted⟩

section Run

variable {clauses : List Clause} {before after : Progress}

theorem eliminateSmallest_ne_stopped {fault : Fault} :
    eliminateSmallest clauses before ≠ .stopped after fault := by
  obtain ⟨step, counted, answered, _⟩ := eliminateSmallest_describes clauses before
  rw [answered]
  intro same
  cases same

theorem describes_of_done {step : EliminationStep}
    (run : eliminateSmallest clauses before = .done after step) :
    step.Describes clauses ∧ step.Counts before after := by
  obtain ⟨answer, counted, answered, describes⟩ := eliminateSmallest_describes clauses before
  rw [run] at answered
  cases answered
  exact describes

end Run

/-! ## The models of what is left -/

namespace Projects

variable {clauses next : List Clause} {pivot : Var} {valuation : Valuation}

theorem var_mem (projects : Projects clauses pivot next) {c : Clause} (member : c ∈ next)
    {l : Lit} (inClause : l ∈ c) : l.var ∈ variablesOf clauses ∧ l.var ≠ pivot := by
  rcases (projects.mem_next_iff c).mp member with ⟨cIn, noPositive, noNegative⟩ |
    ⟨a, aIn, b, bIn, inA, inB, isJoined, _⟩
  · exact ⟨mem_variablesOf.mpr ⟨c, cIn, l, inClause, rfl⟩,
      Clause.var_ne_of_notMem noPositive noNegative inClause⟩
  · have opposed : Opposed pivot a b := ⟨projects.proper a aIn, projects.proper b bIn, inA, inB⟩
    rw [isJoined] at inClause
    obtain ⟨occurs, other⟩ := opposed.mem_joined_iff.mp inClause
    refine ⟨?_, other⟩
    rcases occurs with fromA | fromB
    · exact mem_variablesOf.mpr ⟨a, aIn, l, fromA, rfl⟩
    · exact mem_variablesOf.mpr ⟨b, bIn, l, fromB, rfl⟩

theorem models_next (projects : Projects clauses pivot next)
    (models : Valuation.Models valuation (clauses.map Clause.lits)) :
    Valuation.Models valuation (next.map Clause.lits) := by
  simp only [Valuation.Models, List.forall_mem_map] at models ⊢
  intro c member
  rcases (projects.mem_next_iff c).mp member with ⟨cIn, _⟩ | ⟨a, aIn, b, bIn, _, _, isJoined, _⟩
  · exact models c cIn
  · rw [isJoined]
    exact satisfies_joined (models a aIn) (models b bIn)

theorem satisfies_update_iff (projects : Projects clauses pivot next) {c : Clause}
    (member : c ∈ next) (polarity : Bool) :
    Valuation.Satisfies (Function.update valuation pivot polarity) c.lits ↔
      Valuation.Satisfies valuation c.lits := by
  refine satisfies_congr ?_
  intro l inClause
  exact Function.update_of_ne (projects.var_mem member inClause).2 polarity valuation

theorem positive_mem_of_unsatisfied (projects : Projects clauses pivot next)
    (models : Valuation.Models valuation (next.map Clause.lits)) {a : Clause} (aIn : a ∈ clauses)
    (unsatisfied : ¬Valuation.Satisfies (Function.update valuation pivot false) a.lits) :
    pivot.positive ∈ a := by
  by_contra noPositive
  by_cases inNegative : -pivot.positive ∈ a
  · refine unsatisfied ⟨-pivot.positive, inNegative, ?_⟩
    rw [Var.positive, Lit.negate_lit, Lit.Holds, Lit.var_lit, Lit.isPositive_lit,
      Function.update_self]
    rfl
  · have isNext : a ∈ next :=
      (projects.mem_next_iff a).mpr (.inl ⟨aIn, noPositive, inNegative⟩)
    exact unsatisfied ((projects.satisfies_update_iff isNext false).mpr
      (models a.lits (List.mem_map_of_mem isNext)))

/-- Where false does not do for the pivot, true does. -/
theorem models_update_true (projects : Projects clauses pivot next)
    (models : Valuation.Models valuation (next.map Clause.lits))
    (falseFails :
      ¬Valuation.Models (Function.update valuation pivot false) (clauses.map Clause.lits)) :
    Valuation.Models (Function.update valuation pivot true) (clauses.map Clause.lits) := by
  simp only [Valuation.Models, List.forall_mem_map, not_forall] at falseFails
  obtain ⟨a, aIn, unsatisfied⟩ := falseFails
  have inA := projects.positive_mem_of_unsatisfied models aIn unsatisfied
  simp only [Valuation.Models, List.forall_mem_map]
  intro c cIn
  by_cases inPositive : pivot.positive ∈ c
  · refine ⟨pivot.positive, inPositive, ?_⟩
    rw [Var.positive, Lit.Holds, Lit.var_lit, Lit.isPositive_lit, Function.update_self]
  · by_cases inNegative : -pivot.positive ∈ c
    · -- the resolvent with the failing clause has a true literal, which is not from that clause
      have resolventHolds : Valuation.Satisfies valuation (joined a c pivot.positive).lits := by
        by_cases isProper : Proper (joined a c pivot.positive).lits
        · have isNext : joined a c pivot.positive ∈ next :=
            (projects.mem_next_iff _).mpr
              (.inr ⟨a, aIn, c, cIn, inA, inNegative, rfl, isProper⟩)
          exact models _ (List.mem_map_of_mem isNext)
        · exact satisfies_of_not_proper isProper valuation
      obtain ⟨l, member, holds⟩ := resolventHolds
      have opposed : Opposed pivot a c :=
        ⟨projects.proper a aIn, projects.proper c cIn, inA, inNegative⟩
      obtain ⟨fromA | fromC, other⟩ := opposed.mem_joined_iff.mp member
      · exact absurd ⟨l, fromA, (holds_update_of_ne other valuation false).mpr holds⟩ unsatisfied
      · exact ⟨l, fromC, (holds_update_of_ne other valuation true).mpr holds⟩
    · have isNext : c ∈ next :=
        (projects.mem_next_iff c).mpr (.inl ⟨cIn, inPositive, inNegative⟩)
      exact (projects.satisfies_update_iff isNext true).mpr
        (models c.lits (List.mem_map_of_mem isNext))

theorem exists_models_update_iff (projects : Projects clauses pivot next) (valuation : Valuation) :
    (∃ polarity,
      Valuation.Models (Function.update valuation pivot polarity) (clauses.map Clause.lits)) ↔
      Valuation.Models valuation (next.map Clause.lits) := by
  constructor
  · rintro ⟨polarity, models⟩
    have nextModels := projects.models_next models
    simp only [Valuation.Models, List.forall_mem_map] at nextModels ⊢
    intro c member
    exact (projects.satisfies_update_iff member polarity).mp (nextModels c member)
  · intro models
    by_cases falseDoes :
        Valuation.Models (Function.update valuation pivot false) (clauses.map Clause.lits)
    · exact ⟨false, falseDoes⟩
    · exact ⟨true, projects.models_update_true models falseDoes⟩

end Projects

/-- Resolving all clauses that hold a variable is exact: with the clauses that do not hold it, the
resolvents are satisfied by just the valuations that some value of the variable makes satisfy all
clauses.  They are the rests of the pairs that clash on no other variable, each listed where it
first arises and counted as often as it arises. -/
theorem resolveOn_projection {clauses : List Clause} (proper : ∀ c ∈ clauses, Proper c.lits)
    (pivot : Var) (progress : Progress) :
    let parts := Partition.on pivot clauses
    let pairs := parts.positive ×ˢ parts.negative
    ∃ resolvents,
      resolveOn parts.positive parts.negative pivot progress =
        .done (progress.resolvents (pairs.countP fun pair => ClashOnlyOn pivot pair.1 pair.2))
          resolvents ∧
      (∀ valuation : Valuation,
        (∃ polarity, Valuation.Models (Function.update valuation pivot polarity)
          (clauses.map Clause.lits)) ↔
        Valuation.Models valuation ((parts.rest ++ resolvents).map Clause.lits)) ∧
      (∀ c ∈ resolvents, Proper c.lits ∧ ∃ a ∈ parts.positive, ∃ b ∈ parts.negative,
        ∀ l, l ∈ c ↔ (l ∈ a ∨ l ∈ b) ∧ l.var ≠ pivot) ∧
      (∀ c, c ∈ resolvents ↔ c ∈ generated pivot pairs) ∧ resolvents.Nodup ∧
      resolvents.Pairwise fun c d =>
        (generated pivot pairs).idxOf c < (generated pivot pairs).idxOf d := by
  intro parts pairs
  have opposed : ∀ pair ∈ pairs, Opposed pivot pair.1 pair.2 :=
    fun _ member => opposed_of_mem_product proper member
  refine ⟨(generated pivot pairs).eraseDups, resolveOn_eq opposed progress, ?_, ?_,
    fun c => List.mem_eraseDups, nodup_eraseDups _, pairwise_idxOf_eraseDups _⟩
  · refine (projects_partition proper ?_).exists_models_update_iff
    intro c
    rw [List.mem_append, List.mem_eraseDups]
  · intro c member
    obtain ⟨pair, inPairs, clashOnly, isJoined⟩ :=
      (mem_generated_iff opposed).mp (List.mem_eraseDups.mp member)
    obtain ⟨inPositive, inNegative⟩ := List.mem_product.mp inPairs
    have opposedPair := opposed pair inPairs
    rw [isJoined]
    exact ⟨opposedPair.proper_joined_iff.mpr clashOnly, pair.1, inPositive, pair.2, inNegative,
      fun l => opposedPair.mem_joined_iff⟩

/-- Of six pairs three clash on a second variable and two give the same resolvent.  Where `x` and
`z` are false the resolvents leave no value for `y`. -/
theorem resolveOn_projection_repeated_resolvent :
    let x : Var := ⟨0, by decide⟩
    let y : Var := ⟨1, by decide⟩
    let z : Var := ⟨2, by decide⟩
    let w : Var := ⟨3, by decide⟩
    let clauses := [Clause.ofList [w.negative, y.positive], .ofList [x.positive, y.positive],
      .ofList [y.negative, z.positive], .ofList [z.negative, w.positive],
      .ofList [x.positive, y.positive, z.positive], .ofList [x.negative, y.negative, w.positive]]
    let parts := Partition.on y clauses
    (∀ c ∈ clauses, Proper c.lits) ∧
      (resolveOn parts.positive parts.negative y {}).result =
        .ok [Clause.ofList [w.negative, z.positive], .ofList [x.positive, z.positive]] ∧
      (resolveOn parts.positive parts.negative y {}).progress.stats.resolvents = 3 ∧
      (∃ polarity, Valuation.Models (Function.update (fun v => v == x) y polarity)
        (clauses.map Clause.lits)) ∧
      ¬∃ polarity, Valuation.Models (Function.update (fun _ => false) y polarity)
        (clauses.map Clause.lits) := by
  intro x y z w clauses parts
  have proper : ∀ c ∈ clauses, Proper c.lits := by decide
  have answered : (resolveOn parts.positive parts.negative y {}).result =
      .ok [Clause.ofList [w.negative, z.positive], .ofList [x.positive, z.positive]] := by decide
  obtain ⟨resolvents, run, exactFor, _⟩ := resolveOn_projection proper y {}
  have listed : resolvents =
      [Clause.ofList [w.negative, z.positive], .ofList [x.positive, z.positive]] :=
    Except.ok.inj ((congrArg Run.result run).symm.trans answered)
  refine ⟨proper, answered, by decide, (exactFor _).mpr ?_, mt (exactFor _).mp ?_⟩
  · rw [listed, Valuation.Models]
    decide
  · rw [listed, Valuation.Models]
    decide

end Clausal
