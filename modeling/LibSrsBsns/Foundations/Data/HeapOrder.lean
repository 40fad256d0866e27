import Mathlib.Logic.Equiv.Basic
import Mathlib.Order.Defs.Unbundled
import Mathlib.Tactic.Common

/-!
# Heap order

A list is read as a binary tree: the children of the node `i` are the nodes `2 * i + 1` and
`2 * i + 2`. In heap order (`HeapOrder.Ordered`) no node is before its parent. Sifting breaks the
order along one path, and the two invariants say where: in `HeapOrder.Above xs k` only the edge
from the node `k` to its parent may be out of order, in `HeapOrder.Below xs k` only the edges from
`k` to its children. An exchange of two neighbours moves the place on; the end restores the order.
-/

namespace LibSrsBsns.HeapOrder

variable {α : Type} {r : α → α → Prop} {xs : List α} {i j k : ℕ} {x : α}

/-- The values with the indices `i` and `j`, where there are such, are related. -/
def LeAt (r : α → α → Prop) (xs : List α) (i j : ℕ) : Prop :=
  ∀ a b, xs[i]? = some a → xs[j]? = some b → r a b

theorem LeAt.trans [IsTrans α r] (hij : LeAt r xs i j) (hjk : LeAt r xs j k) (hj : j < xs.length) :
    LeAt r xs i k := by
  intro a c ha hc
  have hb := List.getElem?_eq_getElem hj
  exact IsTrans.trans _ _ _ (hij a _ ha hb) (hjk _ c hb hc)

theorem LeAt.refl [Std.Refl r] (i : ℕ) : LeAt r xs i i := by
  intro a b ha hb
  obtain rfl := Option.some.inj (ha.symm.trans hb)
  exact Std.Refl.refl a

theorem LeAt.of_length_le (h : xs.length ≤ j) : LeAt r xs i j := by
  intro a b _ hb
  simp [List.getElem?_eq_none h] at hb

/-- The list `xs` with the values of the indices `i` and `j` exchanged. -/
def swapAt (xs : List α) (hi : i < xs.length) (hj : j < xs.length) : List α :=
  (xs.set i xs[j]).set j xs[i]

section swapAt

variable (hi : i < xs.length) (hj : j < xs.length)

@[simp] theorem length_swapAt : (swapAt xs hi hj).length = xs.length := by
  simp [swapAt]

theorem swapAt_perm : (swapAt xs hi hj).Perm xs := List.set_set_perm hi hj

theorem getElem?_swapAt (k : ℕ) : (swapAt xs hi hj)[k]? = xs[Equiv.swap i j k]? := by
  rw [swapAt]
  by_cases hkj : k = j
  · subst hkj
    rw [Equiv.swap_apply_right, List.getElem?_set_self (by simpa using hj),
      List.getElem?_eq_getElem hi]
  by_cases hki : k = i
  · subst hki
    rw [Equiv.swap_apply_left, List.getElem?_set_ne (Ne.symm hkj), List.getElem?_set_self hi,
      List.getElem?_eq_getElem hj]
  · rw [Equiv.swap_apply_of_ne_of_ne hki hkj, List.getElem?_set_ne (Ne.symm hkj),
      List.getElem?_set_ne (Ne.symm hki)]

theorem leAt_swapAt {a b : ℕ} : LeAt r (swapAt xs hi hj) a b ↔
    LeAt r xs (Equiv.swap i j a) (Equiv.swap i j b) := by
  simp only [LeAt, getElem?_swapAt]

end swapAt

/-- The list `xs` is in heap order. -/
def Ordered (r : α → α → Prop) (xs : List α) : Prop := ∀ i, 0 < i → LeAt r xs ((i - 1) / 2) i

/-- Only the edge from `k` to its parent may be out of order. -/
structure Above (r : α → α → Prop) (xs : List α) (k : ℕ) : Prop where
  edge : ∀ i, 0 < i → i ≠ k → LeAt r xs ((i - 1) / 2) i
  grand : 0 < k → ∀ i, 0 < i → (i - 1) / 2 = k → LeAt r xs ((k - 1) / 2) i

/-- Only the edges from `k` to its children may be out of order. -/
structure Below (r : α → α → Prop) (xs : List α) (k : ℕ) : Prop where
  edge : ∀ i, 0 < i → (i - 1) / 2 ≠ k → LeAt r xs ((i - 1) / 2) i
  grand : 0 < k → ∀ i, 0 < i → (i - 1) / 2 = k → LeAt r xs ((k - 1) / 2) i

theorem ordered_nil : Ordered r [] := fun _ _ => .of_length_le (Nat.zero_le _)

/-- The root is before every node. -/
theorem Ordered.root [IsPreorder α r] (h : Ordered r xs) (i : ℕ) : LeAt r xs 0 i := by
  induction i using Nat.strongRecOn with
  | _ i ih =>
    rcases Nat.eq_zero_or_pos i with rfl | hi
    · exact .refl 0
    · rcases Nat.lt_or_ge i xs.length with hlt | hge
      · exact (ih ((i - 1) / 2) (by omega)).trans (h i hi) (by omega)
      · exact .of_length_le hge

/-! ## Sifting up -/

theorem Above.of_root (h : Above r xs k) (hk : k = 0) : Ordered r xs :=
  fun i hi => h.edge i hi (by omega)

theorem Above.finish (h : Above r xs k) (hk : LeAt r xs ((k - 1) / 2) k) : Ordered r xs := by
  intro i hi
  by_cases hik : i = k
  · exact hik ▸ hk
  · exact h.edge i hi hik

/-- A new value behind an ordered list. -/
theorem Ordered.concat (h : Ordered r xs) (x : α) : Above r (xs ++ [x]) xs.length := by
  constructor
  case edge =>
    intro i hi hne
    rcases Nat.lt_or_ge i xs.length with hlt | hge
    · intro a b ha hb
      rw [List.getElem?_append_left (by omega)] at ha hb
      exact h i hi a b ha hb
    · exact .of_length_le (by rw [List.length_append, List.length_singleton]; omega)
  case grand =>
    intro hk i hi hik
    exact .of_length_le (by rw [List.length_append, List.length_singleton]; omega)

/-- A node before its parent is exchanged with it. -/
theorem Above.swap [IsTrans α r] (h : Above r xs k) (hk : k < xs.length) (hpos : 0 < k)
    (hp : (k - 1) / 2 < xs.length) (hlt : LeAt r xs k ((k - 1) / 2)) :
    Above r (swapAt xs hk hp) ((k - 1) / 2) := by
  constructor
  case edge =>
    intro i hi hne
    rw [leAt_swapAt]
    by_cases hik : i = k
    · rw [hik, Equiv.swap_apply_left, Equiv.swap_apply_right]
      exact hlt
    rw [Equiv.swap_apply_of_ne_of_ne hik hne]
    by_cases hpk : (i - 1) / 2 = k
    · -- a child of `k`, which now has the value of its parent above it
      rw [hpk, Equiv.swap_apply_left]
      exact h.grand hpos i hi hpk
    by_cases hpp : (i - 1) / 2 = (k - 1) / 2
    · -- the sibling of `k`
      rw [hpp, Equiv.swap_apply_right]
      exact hlt.trans (hpp ▸ h.edge i hi hik) hp
    · rw [Equiv.swap_apply_of_ne_of_ne hpk hpp]
      exact h.edge i hi hik
  case grand =>
    intro hpos' i hi hip
    have hpar := h.edge ((k - 1) / 2) hpos' (by omega)
    rw [leAt_swapAt, Equiv.swap_apply_of_ne_of_ne (by omega) (by omega)]
    by_cases hik : i = k
    · rw [hik, Equiv.swap_apply_left]
      exact hpar
    · rw [Equiv.swap_apply_of_ne_of_ne hik (by omega)]
      exact hpar.trans (hip ▸ h.edge i hi hik) hp

/-! ## Sifting down -/

theorem Below.finish (h : Below r xs k) (hl : LeAt r xs k (2 * k + 1))
    (hr : LeAt r xs k (2 * k + 2)) : Ordered r xs := by
  intro i hi
  by_cases hik : (i - 1) / 2 = k
  · rcases (by omega : i = 2 * k + 1 ∨ i = 2 * k + 2) with rfl | rfl
    · rwa [hik]
    · rwa [hik]
  · exact h.edge i hi hik

/-- Another value at the root of an ordered list, the last of which is gone. -/
theorem Ordered.replace_root {y : α} (h : Ordered r (xs ++ [y])) (x : α) :
    Below r (xs.set 0 x) 0 := by
  constructor
  case edge =>
    intro i hi hne a b ha hb
    rw [List.getElem?_set_ne (by omega)] at ha hb
    have hlt : i < xs.length := (List.getElem?_eq_some_iff.1 hb).1
    refine h i hi a b ?_ ?_
    · rwa [List.getElem?_append_left (by omega)]
    · rwa [List.getElem?_append_left hlt]
  case grand =>
    intro hk
    omega

/-- A node after one of its children is exchanged with it, if it is before its sibling. -/
theorem Below.swap [IsTrans α r] (h : Below r xs k) (hk : k < xs.length) (hj : j < xs.length)
    (hpos : 0 < j) (hjk : (j - 1) / 2 = k) (hlt : LeAt r xs j k)
    (hsib : ∀ i, 0 < i → (i - 1) / 2 = k → i ≠ j → LeAt r xs j i) :
    Below r (swapAt xs hk hj) j := by
  constructor
  case edge =>
    intro i hi hne
    rw [leAt_swapAt]
    by_cases hij : i = j
    · rw [hij, hjk, Equiv.swap_apply_left, Equiv.swap_apply_right]
      exact hlt
    by_cases hik : i = k
    · -- the value that has moved up, below the parent of `k`
      have hpar := h.grand (by omega) j hpos hjk
      rw [hik, Equiv.swap_apply_left, Equiv.swap_apply_of_ne_of_ne (by omega) (by omega)]
      exact hpar
    rw [Equiv.swap_apply_of_ne_of_ne hik hij]
    by_cases hpk : (i - 1) / 2 = k
    · -- the sibling of `j`
      rw [hpk, Equiv.swap_apply_left]
      exact hsib i hi hpk hij
    · rw [Equiv.swap_apply_of_ne_of_ne hpk hne]
      exact h.edge i hi hpk
  case grand =>
    intro _ i hi hij
    rw [leAt_swapAt, hjk, Equiv.swap_apply_left, Equiv.swap_apply_of_ne_of_ne (by omega) (by omega)]
    exact hij ▸ h.edge i hi (by omega)

end LibSrsBsns.HeapOrder
