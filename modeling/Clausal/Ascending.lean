/-!
# Lists ascending by a key

A finite set or map is kept as a list whose keys ascend strictly, so every set has one list.
The main statements say what insertion does to the members (`mem_insert`), that it keeps the
order (`ascending_insert`), and that two ascending lists with the same members are equal
(`eq_of_mem_iff`).

Procedures end because a set gets smaller (`length_lt_of_subset`) or because a condition holds for
fewer entries of a list (`countP_lt`).
-/

set_option autoImplicit false

namespace Clausal

variable {α : Type}

def Ascending (key : α → Nat) (xs : List α) : Prop :=
  xs.Pairwise fun x y => key x < key y

instance (key : α → Nat) (xs : List α) : Decidable (Ascending key xs) :=
  inferInstanceAs (Decidable (xs.Pairwise fun x y => key x < key y))

namespace Ascending

/-- Inserts an entry at its place, unless its key is there already. -/
def insert (key : α → Nat) (x : α) : List α → List α
  | [] => [x]
  | y :: rest =>
      if key x < key y then x :: y :: rest
      else if key x = key y then y :: rest
      else y :: insert key x rest

/-- The entries of a list in ascending order, each key once. -/
def ofList (key : α → Nat) (xs : List α) : List α :=
  xs.foldr (insert key) []

/-- Insertion adds the entry unless its key is there already, so then it must be the same entry. -/
theorem mem_insert {key : α → Nat} {x z : α} {xs : List α}
    (unique : ∀ y ∈ xs, key x = key y → x = y) : z ∈ insert key x xs ↔ z = x ∨ z ∈ xs := by
  induction xs with
  | nil => simp [insert]
  | cons y rest inductionHypothesis =>
      have ⟨uniqueHead, uniqueRest⟩ := List.forall_mem_cons.mp unique
      unfold insert
      split
      · exact List.mem_cons
      · split
        · next sameKey =>
            rw [uniqueHead sameKey]
            simp
        · rw [List.mem_cons, inductionHypothesis uniqueRest, List.mem_cons, or_left_comm]

theorem mem_of_mem_insert {key : α → Nat} {x z : α} {xs : List α}
    (member : z ∈ insert key x xs) : z = x ∨ z ∈ xs := by
  induction xs with
  | nil => simpa [insert] using member
  | cons y rest inductionHypothesis =>
      unfold insert at member
      split at member
      · simpa using member
      · split at member
        · exact .inr member
        · rcases List.mem_cons.mp member with head | tail
          · simp [head]
          · rcases inductionHypothesis tail with head | tail
            · simp [head]
            · simp [tail]

theorem ascending_insert {key : α → Nat} {x : α} {xs : List α} (ascending : Ascending key xs) :
    Ascending key (insert key x xs) := by
  induction xs with
  | nil => simp [insert, Ascending]
  | cons y rest inductionHypothesis =>
      have ⟨below, tailAscending⟩ := List.pairwise_cons.mp ascending
      unfold insert
      split
      · next before =>
          refine List.pairwise_cons.mpr ⟨?_, ascending⟩
          intro z member
          rcases List.mem_cons.mp member with head | tail
          · simpa [head] using before
          · exact Nat.lt_trans before (below z tail)
      · split
        · exact ascending
        · refine List.pairwise_cons.mpr ⟨?_, inductionHypothesis tailAscending⟩
          intro z member
          rcases mem_of_mem_insert member with head | tail
          · subst head
            omega
          · exact below z tail

theorem mem_ofList {key : α → Nat} (injective : ∀ x y, key x = key y → x = y) {z : α}
    {xs : List α} : z ∈ ofList key xs ↔ z ∈ xs := by
  induction xs with
  | nil => simp [ofList]
  | cons x rest inductionHypothesis =>
      have step : ofList key (x :: rest) = insert key x (ofList key rest) := rfl
      rw [step, mem_insert fun y _ => injective x y, inductionHypothesis, List.mem_cons]

theorem ascending_ofList {key : α → Nat} {xs : List α} : Ascending key (ofList key xs) := by
  induction xs with
  | nil => exact List.Pairwise.nil
  | cons x rest inductionHypothesis => exact ascending_insert inductionHypothesis

theorem nodup {key : α → Nat} {xs : List α} (ascending : Ascending key xs) : xs.Nodup := by
  refine ascending.imp ?_
  intro x y below same
  rw [same] at below
  exact Nat.lt_irrefl _ below

theorem eq_of_key_eq {key : α → Nat} {xs : List α} (ascending : Ascending key xs) {x y : α}
    (xIn : x ∈ xs) (yIn : y ∈ xs) (sameKey : key x = key y) : x = y := by
  induction xs with
  | nil => cases xIn
  | cons first rest inductionHypothesis =>
      have ⟨below, restAscending⟩ := List.pairwise_cons.mp ascending
      rcases List.mem_cons.mp xIn with xHead | xTail
      · rcases List.mem_cons.mp yIn with yHead | yTail
        · rw [xHead, yHead]
        · have firstBelow := below y yTail
          rw [← xHead] at firstBelow
          omega
      · rcases List.mem_cons.mp yIn with yHead | yTail
        · have firstBelow := below x xTail
          rw [← yHead] at firstBelow
          omega
        · exact inductionHypothesis restAscending xTail yTail

theorem eq_of_mem_iff {key : α → Nat} {xs ys : List α} (xsAscending : Ascending key xs)
    (ysAscending : Ascending key ys) (sameMembers : ∀ z, z ∈ xs ↔ z ∈ ys) : xs = ys := by
  have perm : xs.Perm ys :=
    (List.perm_ext_iff_of_nodup xsAscending.nodup ysAscending.nodup).mpr sameMembers
  refine perm.eq_of_pairwise ?_ xsAscending ysAscending
  intro x y _ _ below above
  exact absurd below (Nat.lt_asymm above)

theorem sublist_of_subset [DecidableEq α] {key : α → Nat} {xs ys : List α}
    (xsAscending : Ascending key xs) (ysAscending : Ascending key ys)
    (subset : ∀ z ∈ xs, z ∈ ys) : xs.Sublist ys := by
  have isFilter : xs = ys.filter fun z => decide (z ∈ xs) := by
    refine eq_of_mem_iff xsAscending (List.Pairwise.filter _ ysAscending) ?_
    intro z
    rw [List.mem_filter, decide_eq_true_iff]
    exact ⟨fun inXs => ⟨subset z inXs, inXs⟩, And.right⟩
  have isSublist : (ys.filter fun z => decide (z ∈ xs)).Sublist ys := List.filter_sublist
  rwa [← isFilter] at isSublist

/-- A strictly ascending list that misses a member of another one which holds all its members is
the shorter of the two. -/
theorem length_lt_of_subset {key : α → Nat} {xs ys : List α} (ascending : Ascending key xs)
    (subset : ∀ z ∈ xs, z ∈ ys) {w : α} (wIn : w ∈ ys) (wOut : w ∉ xs) :
    xs.length < ys.length := by
  have larger : (w :: xs).Nodup := List.nodup_cons.mpr ⟨wOut, ascending.nodup⟩
  exact larger.length_le_of_subset (List.cons_subset.mpr ⟨wIn, subset⟩)

end Ascending

/-- Of a list that has an entry for which only the weaker condition holds, the stronger condition
holds for fewer entries. -/
theorem countP_lt {stronger weaker : α → Bool} {xs : List α}
    (implies : ∀ x, stronger x = true → weaker x = true) {w : α} (member : w ∈ xs)
    (fails : stronger w = false) (holds : weaker w = true) :
    xs.countP stronger < xs.countP weaker := by
  obtain ⟨front, back, rfl⟩ := List.append_of_mem member
  have frontAtMost : front.countP stronger ≤ front.countP weaker :=
    List.countP_mono_left fun x _ => implies x
  have backAtMost : back.countP stronger ≤ back.countP weaker :=
    List.countP_mono_left fun x _ => implies x
  rw [List.countP_append, List.countP_append, List.countP_cons_of_neg (by rw [fails]; simp),
    List.countP_cons_of_pos holds]
  omega

end Clausal
