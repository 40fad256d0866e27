import LibSrsBsns.Foundations.Data.Comparator
import Mathlib.Data.List.Nodup
import Mathlib.Data.Set.Card

/-!
# Lists sorted by a comparison function

A strictly sorted list holds at most one element of each class of equal elements, so that looking
for an element equal to `x` from the left finds the only one. The lemmas say how the result of such
a search changes when an element is put in or replaced at its place.
-/

namespace LibSrsBsns

variable {α : Type} {cmp : α → α → ℤ} {xs ys zs : List α} {x y z : α}

/-- The list is strictly sorted. -/
def SortedBy (cmp : α → α → ℤ) (xs : List α) : Prop := xs.Pairwise fun x y => cmp x y < 0

instance : Decidable (SortedBy cmp xs) :=
  inferInstanceAs (Decidable (xs.Pairwise fun x y => cmp x y < 0))

/-- The first element that is equal to `x`. -/
def findEq (cmp : α → α → ℤ) (x : α) (xs : List α) : Option α := xs.find? fun y => cmp x y = 0

theorem findEq_cons : findEq cmp z (x :: xs) = if cmp z x = 0 then some x else findEq cmp z xs := by
  unfold findEq
  rw [List.find?_cons]
  split <;> simp_all

theorem findEq_eq_none : findEq cmp x xs = none ↔ ∀ y ∈ xs, cmp x y ≠ 0 := by
  simp [findEq]

theorem findEq_append (h : ∀ y ∈ xs, cmp z y ≠ 0) : findEq cmp z (xs ++ ys) = findEq cmp z ys := by
  rw [findEq, List.find?_append, ← findEq, findEq_eq_none.2 h]
  rfl

theorem mem_of_findEq (h : findEq cmp x xs = some y) : y ∈ xs ∧ cmp x y = 0 :=
  ⟨List.mem_of_find?_eq_some h, by simpa using List.find?_some h⟩

theorem SortedBy.sublist (h : SortedBy cmp xs) (hs : ys.Sublist xs) : SortedBy cmp ys :=
  List.Pairwise.sublist hs h

theorem sortedBy_append : SortedBy cmp (xs ++ ys) ↔
    SortedBy cmp xs ∧ SortedBy cmp ys ∧ ∀ x ∈ xs, ∀ y ∈ ys, cmp x y < 0 := List.pairwise_append

theorem sortedBy_cons : SortedBy cmp (x :: xs) ↔ (∀ y ∈ xs, cmp x y < 0) ∧ SortedBy cmp xs :=
  List.pairwise_cons

variable (hc : IsCmpFn cmp)
include hc

/-- Putting in an element between the smaller ones and the greater ones. -/
theorem SortedBy.insert (h : SortedBy cmp (xs ++ ys)) (hx : ∀ y ∈ xs, cmp y x < 0)
    (hy : ∀ y ∈ ys, cmp x y < 0) : SortedBy cmp (xs ++ x :: ys) := by
  obtain ⟨hxs, hys, hxy⟩ := sortedBy_append.1 h
  refine sortedBy_append.2 ⟨hxs, sortedBy_cons.2 ⟨hy, hys⟩, fun a ha b hb => ?_⟩
  rcases List.mem_cons.1 hb with rfl | hb
  · exact hx a ha
  · exact hc.lt_trans (hx a ha) (hy b hb)

/-- Replacing an element by an equal one. -/
theorem SortedBy.replace (h : SortedBy cmp (xs ++ y :: ys)) (hxy : cmp x y = 0) :
    SortedBy cmp (xs ++ x :: ys) := by
  obtain ⟨hxs, hys, hlt⟩ := sortedBy_append.1 h
  obtain ⟨hy, hys⟩ := sortedBy_cons.1 hys
  refine sortedBy_append.2 ⟨hxs, sortedBy_cons.2 ⟨fun b hb => ?_, hys⟩, fun a ha b hb => ?_⟩
  · exact (hc.lt_congr_left hxy).2 (hy b hb)
  · rcases List.mem_cons.1 hb with rfl | hb
    · exact (hc.lt_congr_right hxy).2 (hlt a ha y (by simp))
    · exact hlt a ha b (by simp [hb])

/-- Smaller elements are not equal to `x`. -/
theorem ne_of_lt_of_eq (hxs : ∀ y ∈ xs, cmp y x < 0) (hz : cmp z x = 0) : ∀ y ∈ xs, cmp z y ≠ 0 := by
  intro y hy hzy
  have hlt := hxs y hy
  have hxy := (hc.eq_congr_left hz).1 hzy
  have := hc.eq_comm.1 hxy
  omega

theorem findEq_insert (hxs : ∀ y ∈ xs, cmp y x < 0) (z : α) :
    findEq cmp z (xs ++ x :: ys) = if cmp z x = 0 then some x else findEq cmp z (xs ++ ys) := by
  split
  case isTrue hz => rw [findEq_append (ne_of_lt_of_eq hc hxs hz), findEq_cons, if_pos hz]
  case isFalse hz =>
    unfold findEq
    rw [List.find?_append, List.find?_append, List.find?_cons]
    simp [hz]

theorem findEq_replace (hxs : ∀ y ∈ xs, cmp y x < 0) (hxy : cmp x y = 0) (z : α) :
    findEq cmp z (xs ++ x :: ys) = if cmp z x = 0 then some x else findEq cmp z (xs ++ y :: ys) := by
  rw [findEq_insert hc hxs]
  split
  case isTrue hz => rfl
  case isFalse hz =>
    have hzy : cmp z y ≠ 0 := fun e => hz (hc.eq_trans e (hc.eq_comm.1 hxy))
    unfold findEq
    rw [List.find?_append, List.find?_append, List.find?_cons]
    simp [hzy]

/-- An element of a sorted list is found. -/
theorem SortedBy.findEq_eq_some (h : SortedBy cmp (xs ++ y :: ys)) (hxy : cmp x y = 0) :
    findEq cmp x (xs ++ y :: ys) = some y := by
  have hlt : ∀ a ∈ xs, cmp a y < 0 := fun a ha => (sortedBy_append.1 h).2.2 a ha y (by simp)
  rw [findEq_insert hc hlt, if_pos hxy]

theorem SortedBy.mem_iff (h : SortedBy cmp xs) : y ∈ xs ↔ findEq cmp y xs = some y := by
  constructor
  · intro hy
    obtain ⟨as, bs, rfl⟩ := List.append_of_mem hy
    exact h.findEq_eq_some hc (hc.self y)
  · exact fun hy => (mem_of_findEq hy).1

/-- No element between the smaller ones and the greater ones. -/
theorem findEq_eq_none_of_between (hxs : ∀ y ∈ xs, cmp y x < 0) (hys : ∀ y ∈ ys, cmp x y < 0) :
    findEq cmp x (xs ++ ys) = none := by
  rw [findEq_append (ne_of_lt_of_eq hc hxs (hc.self x)), findEq_eq_none]
  exact fun y hy => (hys y hy).ne

/-- An element of a sorted list is at one place only. -/
theorem SortedBy.split_unique {y' : α} {xs' ys' : List α} (h : SortedBy cmp (xs ++ y :: ys))
    (he : xs ++ y :: ys = xs' ++ y' :: ys') (hy : cmp y y' = 0) : xs = xs' ∧ ys = ys' := by
  have hy' := hc.eq_comm.1 hy
  have hlen : xs.length = xs'.length := by
    have hpair := List.pairwise_iff_getElem.1 h
    have hget : (xs ++ y :: ys)[xs.length]? = some y := by simp
    have hget' : (xs ++ y :: ys)[xs'.length]? = some y' := by simp [he]
    obtain ⟨hi, hi'⟩ := List.getElem?_eq_some_iff.1 hget
    obtain ⟨hj, hj'⟩ := List.getElem?_eq_some_iff.1 hget'
    rcases Nat.lt_trichotomy xs.length xs'.length with hlt | heq | hgt
    · have := hpair _ _ hi hj hlt
      rw [hi', hj'] at this
      omega
    · exact heq
    · have := hpair _ _ hj hi hgt
      rw [hi', hj'] at this
      omega
  obtain ⟨hxs, hcons⟩ := List.append_inj he hlen
  exact ⟨hxs, (List.cons.inj hcons).2⟩

/-- The classes of equal elements. -/
def IsCmpFn.setoid : Setoid α where
  r x y := cmp x y = 0
  iseqv := ⟨hc.self, hc.eq_comm.1, hc.eq_trans⟩

/-- A sorted list that finds what the list `ys` finds has an element for each class of `ys`. -/
theorem SortedBy.length_eq (h : SortedBy cmp xs) (hf : ∀ x, findEq cmp x xs = findEq cmp x ys) :
    xs.length = {c | ∃ y ∈ ys, Quotient.mk hc.setoid y = c}.ncard := by
  classical
  have hset : {c | ∃ y ∈ ys, Quotient.mk hc.setoid y = c} =
      ((xs.map (Quotient.mk hc.setoid)).toFinset : Set (Quotient hc.setoid)) := by
    ext c
    simp only [Set.mem_ofPred_eq, List.coe_toFinset, List.mem_map]
    constructor
    · rintro ⟨y, hy, rfl⟩
      have hsome : findEq cmp y xs ≠ none := by
        rw [hf, Ne, findEq_eq_none]
        exact fun hne => hne y hy (hc.self y)
      obtain ⟨x, hx⟩ := Option.ne_none_iff_exists'.1 hsome
      obtain ⟨hmem, heq⟩ := mem_of_findEq hx
      exact ⟨x, hmem, (Quotient.sound heq).symm⟩
    · rintro ⟨x, hx, rfl⟩
      rw [h.mem_iff hc, hf] at hx
      exact ⟨x, (mem_of_findEq hx).1, rfl⟩
  have hnd : (xs.map (Quotient.mk hc.setoid)).Nodup := by
    apply List.Pairwise.map _ _ h
    intro a b hab hq
    have heq : cmp a b = 0 := Quotient.exact hq
    omega
  rw [hset, Set.ncard_coe_finset, List.toFinset_card_of_nodup hnd, List.length_map]

end LibSrsBsns
