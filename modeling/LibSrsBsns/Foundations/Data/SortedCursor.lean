import LibSrsBsns.Foundations.Data.SortedList

/-!
# Changing a sorted list while going through it

An element is put into a strictly sorted list in place of the one equal to it or between the smaller
and the greater ones, and taken out again. Going through the list needs no position in it: from an
element, whether it is still there or not, the list goes on with the least one that is greater
(`nextAfter`).
-/

namespace LibSrsBsns

variable {α : Type} {cmp : α → α → ℤ} {xs ys : List α} {x y : α}

/-- Put an element in its place, in place of one equal to it. -/
def insertEq (cmp : α → α → ℤ) (x : α) : List α → List α
  | [] => [x]
  | y :: ys => if cmp x y < 0 then x :: y :: ys else if cmp x y > 0 then y :: insertEq cmp x ys else x :: ys

/-- Take out the elements equal to `x`. -/
def eraseEq (cmp : α → α → ℤ) (x : α) (xs : List α) : List α := xs.filter fun y => cmp x y ≠ 0

/-- The first element greater than `x`. -/
def nextAfter (cmp : α → α → ℤ) (x : α) (xs : List α) : Option α := xs.find? fun y => cmp x y < 0

/-- The last element smaller than `x`. -/
def lastBefore (cmp : α → α → ℤ) (x : α) (xs : List α) : Option α :=
  (xs.filter fun y => cmp y x < 0).getLast?

theorem eraseEq_of_ne (h : ∀ y ∈ xs, cmp x y ≠ 0) : eraseEq cmp x xs = xs :=
  List.filter_eq_self.2 fun y hy => decide_eq_true (h y hy)

variable (hc : IsCmpFn cmp)
include hc

theorem insertEq_append (hxs : ∀ y ∈ xs, cmp y x < 0) :
    insertEq cmp x (xs ++ ys) = xs ++ insertEq cmp x ys := by
  induction xs with
  | nil => rfl
  | cons y xs ih =>
    obtain ⟨hy, hxs⟩ := List.forall_mem_cons.1 hxs
    have hgt := (hc.flip _ _).1 hy
    rw [List.cons_append, insertEq, if_neg (by omega), if_pos hgt, ih hxs, List.cons_append]

/-- The element goes between the smaller and the greater ones. -/
theorem insertEq_between (hxs : ∀ y ∈ xs, cmp y x < 0) (hys : ∀ y ∈ ys, cmp x y < 0) :
    insertEq cmp x (xs ++ ys) = xs ++ x :: ys := by
  rw [insertEq_append hc hxs]
  cases ys with
  | nil => rfl
  | cons y ys => rw [insertEq, if_pos (hys y (by simp))]

/-- The element replaces the one equal to it. -/
theorem insertEq_replace (hxs : ∀ y ∈ xs, cmp y x < 0) (hxy : cmp x y = 0) :
    insertEq cmp x (xs ++ y :: ys) = xs ++ x :: ys := by
  rw [insertEq_append hc hxs, insertEq, if_neg (by omega), if_neg (by omega)]

/-- In a sorted list the elements before one that is equal to `x` are smaller than `x`, and those
after it greater. -/
theorem SortedBy.around (h : SortedBy cmp (xs ++ y :: ys)) (hxy : cmp x y = 0) :
    (∀ z ∈ xs, cmp z x < 0) ∧ ∀ z ∈ ys, cmp x z < 0 := by
  obtain ⟨-, hys, hlt⟩ := sortedBy_append.1 h
  constructor
  · intro z hz
    exact (hc.lt_congr_right hxy).2 (hlt z hz y (by simp))
  · intro z hz
    exact (hc.lt_congr_left hxy).2 ((sortedBy_cons.1 hys).1 z hz)

theorem eraseEq_split (h : SortedBy cmp (xs ++ y :: ys)) (hxy : cmp x y = 0) :
    eraseEq cmp x (xs ++ y :: ys) = xs ++ ys := by
  obtain ⟨hxs, hys⟩ := h.around hc hxy
  have hxs' : eraseEq cmp x xs = xs := eraseEq_of_ne (ne_of_lt_of_eq hc hxs (hc.self x))
  have hys' : eraseEq cmp x ys = ys := eraseEq_of_ne fun z hz => (hys z hz).ne
  rw [eraseEq, List.filter_append, List.filter_cons_of_neg (by simpa using hxy), ← eraseEq,
    ← eraseEq, hxs', hys']

/-- From an element equal to one of the list, the list goes on with what comes after that one. -/
theorem nextAfter_split (h : SortedBy cmp (xs ++ y :: ys)) (hxy : cmp x y = 0) :
    nextAfter cmp x (xs ++ y :: ys) = ys.head? := by
  obtain ⟨hxs, hys⟩ := h.around hc hxy
  have hnone : xs.find? (fun z => cmp x z < 0) = none := by
    rw [List.find?_eq_none]
    intro z hz
    have := (hc.flip z x).1 (hxs z hz)
    simp only [decide_eq_true_eq]
    omega
  rw [nextAfter, List.find?_append, hnone, Option.none_or, List.find?_cons_of_neg (by simp [hxy])]
  cases ys with
  | nil => rfl
  | cons z ys => exact List.find?_cons_of_pos (decide_eq_true (hys z (by simp)))

theorem lastBefore_split (h : SortedBy cmp (xs ++ y :: ys)) (hxy : cmp x y = 0) :
    lastBefore cmp x (xs ++ y :: ys) = xs.getLast? := by
  obtain ⟨hxs, hys⟩ := h.around hc hxy
  have hyx := hc.eq_comm.1 hxy
  have hxs' : xs.filter (fun z => cmp z x < 0) = xs :=
    List.filter_eq_self.2 fun z hz => decide_eq_true (hxs z hz)
  have hys' : ys.filter (fun z => cmp z x < 0) = [] := by
    rw [List.filter_eq_nil_iff]
    intro z hz
    have := (hc.flip x z).1 (hys z hz)
    simp only [decide_eq_true_eq]
    omega
  rw [lastBefore, List.filter_append, List.filter_cons_of_neg (by simp [hyx]), hxs', hys',
    List.append_nil]

end LibSrsBsns
