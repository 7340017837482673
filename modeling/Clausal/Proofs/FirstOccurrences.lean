import Mathlib.Data.List.Nodup

/-!
# First occurrences

Erasing the repeats of a list leaves every entry once (`nodup_eraseDups`), in the order of the
places where they first stand (`pairwise_idxOf_eraseDups`).
-/

set_option autoImplicit false

namespace Clausal

variable {α : Type} [DecidableEq α]

theorem idxOf_lt_of_filter {keeps : α → Bool} {xs : List α} {y z : α} (yKept : keeps y = true)
    (zKept : keeps z = true)
    (before : (xs.filter keeps).idxOf y < (xs.filter keeps).idxOf z) :
    xs.idxOf y < xs.idxOf z := by
  induction xs with
  | nil => exact before
  | cons x rest inductionHypothesis =>
      by_cases kept : keeps x = true
      · rw [List.filter_cons_of_pos kept] at before
        by_cases zHead : x = z
        · rw [zHead, List.idxOf_cons_self] at before
          exact absurd before (Nat.not_lt_zero _)
        · by_cases yHead : x = y
          · rw [yHead, List.idxOf_cons_self, List.idxOf_cons_ne _ (yHead ▸ zHead)]
            exact Nat.succ_pos _
          · rw [List.idxOf_cons_ne _ yHead, List.idxOf_cons_ne _ zHead] at before ⊢
            exact Nat.succ_lt_succ (inductionHypothesis (Nat.lt_of_succ_lt_succ before))
      · rw [List.filter_cons_of_neg kept] at before
        have notHead : ∀ {w : α}, keeps w = true → x ≠ w := by
          rintro w wKept rfl
          exact kept wKept
        rw [List.idxOf_cons_ne _ (notHead yKept), List.idxOf_cons_ne _ (notHead zKept)]
        exact Nat.succ_lt_succ (inductionHypothesis before)

theorem pairwise_idxOf_eraseDups (xs : List α) :
    xs.eraseDups.Pairwise fun y z => xs.idxOf y < xs.idxOf z := by
  cases xs with
  | nil => exact List.Pairwise.nil
  | cons x rest =>
      have later : ∀ {y}, y ∈ (rest.filter fun w => !w == x).eraseDups → x ≠ y := by
        rintro y member rfl
        simpa using List.mem_eraseDups.mp member
      rw [List.eraseDups_cons, List.pairwise_cons]
      constructor
      · intro y member
        rw [List.idxOf_cons_self, List.idxOf_cons_ne _ (later member)]
        exact Nat.succ_pos _
      · refine (pairwise_idxOf_eraseDups (rest.filter fun w => !w == x)).imp_of_mem ?_
        intro y z yIn zIn before
        rw [List.idxOf_cons_ne _ (later yIn), List.idxOf_cons_ne _ (later zIn)]
        refine Nat.succ_lt_succ (idxOf_lt_of_filter ?_ ?_ before)
        · simpa using Ne.symm (later yIn)
        · simpa using Ne.symm (later zIn)
  termination_by xs.length
  decreasing_by
    have fewer := List.length_filter_le (fun w => !w == x) rest
    rw [List.length_cons]
    omega

theorem nodup_eraseDups (xs : List α) : xs.eraseDups.Nodup :=
  (pairwise_idxOf_eraseDups xs).imp fun before same =>
    absurd (same ▸ before) (Nat.lt_irrefl _)

end Clausal
