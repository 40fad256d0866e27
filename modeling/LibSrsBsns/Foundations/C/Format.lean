import LibSrsBsns.Foundations.C.Exec

/-!
# Formats

The `printf` functions write the characters of a format, and for each conversion in it the next
argument. What an argument is written as is a function of the text of its conversion. A conversion
without an argument or without an end is undefined. Text without a percent sign is written as it is,
in front of a format (`vformat_append_left`) and behind one (`vformat_append_right`).
-/

namespace LibSrsBsns.C

variable {α : Type} (conv : List Char → α → List Char)

/-- The characters that end a conversion which takes an argument. -/
def isConversion (c : Char) : Bool := "diouxXeEfFgGaAcsp".toList.contains c

/-- The text of the format `cs` with its arguments. Behind a percent sign, `spec` is what has been
read of the conversion. -/
def vformat : Option (List Char) → List Char → List α → Exec (List Char)
  | none, [], _ => .ok []
  | some _, [], _ => .error .indeterminate
  | none, c :: cs, args =>
    if c = '%' then vformat (some []) cs args
    else do
      let out ← vformat none cs args
      .ok (c :: out)
  | some spec, c :: cs, args =>
    if c = '%' then do
      let out ← vformat none cs args
      .ok ('%' :: out)
    else if isConversion c then
      match args with
      | [] => .error .indeterminate
      | arg :: args => do
        let out ← vformat none cs args
        .ok (conv (spec ++ [c]) arg ++ out)
    else vformat (some (spec ++ [c])) cs args

variable {conv} {lit cs out : List Char} {args : List α}

theorem vformat_literal (hlit : '%' ∉ lit) : vformat conv none lit args = .ok lit := by
  induction lit with
  | nil => rfl
  | cons c lit ih =>
    have hc : ¬ c = '%' := fun he => hlit (he ▸ List.mem_cons_self)
    rw [vformat, if_neg hc, ih fun hmem => hlit (List.mem_cons_of_mem _ hmem), ok_bind]

/-- Text in front of a format. -/
theorem vformat_append_left (hlit : '%' ∉ lit) (h : vformat conv none cs args = .ok out) :
    vformat conv none (lit ++ cs) args = .ok (lit ++ out) := by
  induction lit with
  | nil => exact h
  | cons c lit ih =>
    have hc : ¬ c = '%' := fun he => hlit (he ▸ List.mem_cons_self)
    rw [List.cons_append, vformat, if_neg hc, ih fun hmem => hlit (List.mem_cons_of_mem _ hmem),
      ok_bind, List.cons_append]

/-- Text behind a format, from any place in it. -/
theorem vformat_append_right (hlit : '%' ∉ lit) {spec : Option (List Char)}
    (h : vformat conv spec cs args = .ok out) :
    vformat conv spec (cs ++ lit) args = .ok (out ++ lit) := by
  induction cs generalizing spec args out with
  | nil =>
    cases spec with
    | some spec => cases h
    | none =>
      obtain rfl := Except.ok.inj h
      exact vformat_literal hlit
  | cons c cs ih =>
    cases spec with
    | none =>
      rw [vformat] at h
      rw [List.cons_append, vformat]
      split at h
      case isTrue hc =>
        rw [if_pos hc]
        exact ih h
      case isFalse hc =>
        obtain ⟨out', hout', h⟩ := bind_eq_ok.1 h
        obtain rfl := Except.ok.inj h
        rw [if_neg hc, ih hout', ok_bind, List.cons_append]
    | some spec =>
      rw [vformat.eq_def] at h
      rw [List.cons_append, vformat.eq_def]
      dsimp only at h ⊢
      split at h
      case isTrue hc =>
        obtain ⟨out', hout', h⟩ := bind_eq_ok.1 h
        obtain rfl := Except.ok.inj h
        rw [if_pos hc, ih hout', ok_bind, List.cons_append]
      case isFalse hc =>
        rw [if_neg hc]
        split at h
        case isFalse hconv =>
          rw [if_neg hconv]
          exact ih h
        case isTrue hconv =>
          rw [if_pos hconv]
          cases args with
          | nil => cases h
          | cons arg args =>
            obtain ⟨out', hout', h⟩ := bind_eq_ok.1 h
            obtain rfl := Except.ok.inj h
            simp only [ih hout', ok_bind, List.append_assoc]

end LibSrsBsns.C
