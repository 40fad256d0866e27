import LibSrsBsns.Deque.Sequence

/-!
# The growth of the deque

The growth loops of `deque_pushfront` and `deque_pushback` end with room for the element in every
state that calls reach (`deque_growth_ends`). What they need of the state is the invariant
`Deque.Lists` only, which says nothing of the pushes counted so far nor of an iteration; the bias
that these pushes give may be any.
-/

namespace LibSrsBsns

open C

variable {α : Type}

namespace Deque

variable {d : Deque α} {xs : List α}

/-- With allocations succeeding, the loop of `deque_pushfront` ends after at most one resize, that of
`deque_pushback` after finitely many, and the pushes store their element inside the array. -/
structure Grows (d : Deque α) : Prop where
  front : Returns (growFront Buffer.ample 2 d) fun r => r.1 = true ∧ r.2.front < r.2.nelem
  back : ∃ turns, Returns (growBack Buffer.ample turns d) fun r => r.1 = true ∧ 0 < r.2.back
  pushfront : ∀ x, Returns (dequePushfront d (some x) Buffer.ample) fun r =>
    r.1 = true ∧ ∃ i < r.2.nelem, r.2.data.size = r.2.nelem ∧ r.2.front = i + 1 ∧
      r.2.data.cell i = some x
  pushback : ∀ x, Returns (dequePushback d (some x) Buffer.ample) fun r =>
    r.1 = true ∧ r.2.back < r.2.nelem ∧ r.2.data.size = r.2.nelem ∧
      r.2.data.cell r.2.back = some x

/-- The elements are where they are, whatever has been counted and wherever an iteration is. -/
theorem Lists.recount (h : d.Lists xs) (iter : Option ℕ) (pfcnt pbcnt : ℕ) :
    Lists { d with iter, pfcnt, pbcnt } xs :=
  ⟨h.pos, h.size, h.front, h.holds⟩

/-- The last element is in the cell below the front. -/
theorem Lists.last_cell {x : α} (h : d.Lists (xs ++ [x])) :
    ∃ i < d.nelem, d.front = i + 1 ∧ d.data.cell i = some x := by
  have hle := h.le
  have hfront := h.front
  have hcell := h.holds.cell (i := xs.length) (by simp)
  rw [List.length_append, List.length_singleton] at hle hfront
  rw [List.getElem_concat_length rfl] at hcell
  exact ⟨d.back + xs.length, by omega, hfront, hcell⟩

/-- The first element is in the cell at the back. -/
theorem Lists.head_cell {x : α} (h : d.Lists (x :: xs)) :
    d.back < d.nelem ∧ d.data.cell d.back = some x := by
  have hle := h.le
  rw [List.length_cons] at hle
  exact ⟨by omega, h.holds.cell (i := 0) (Nat.succ_pos _)⟩

theorem Lists.grows (h : d.Lists xs) : d.Grows := by
  constructor
  case front =>
    apply (growFront_spec h Buffer.ample Nat.one_lt_two).mono
    rintro ⟨ok, d'⟩ ⟨_, hok⟩
    cases ok with
    | true => exact ⟨rfl, hok⟩
    | false => exact absurd hok (by simp)
  case back =>
    refine ⟨xs.length + 22, ?_⟩
    apply (growBack_spec h Buffer.ample (Nat.lt_succ_self _)).mono
    rintro ⟨ok, d'⟩ ⟨_, hok⟩
    cases ok with
    | true => exact ⟨rfl, hok⟩
    | false => exact absurd hok (by simp)
  case pushfront =>
    intro x
    apply (pushfront_spec h x Buffer.ample).mono
    rintro ⟨ok, d'⟩ hok
    cases ok with
    | true =>
      have hd : d'.Lists (xs ++ [x]) := hok
      obtain ⟨i, hlt, hfront, hcell⟩ := hd.last_cell
      exact ⟨rfl, i, hlt, hd.size, hfront, hcell⟩
    | false => exact absurd hok.2 (by simp)
  case pushback =>
    intro x
    apply (pushback_spec h x Buffer.ample).mono
    rintro ⟨ok, d'⟩ hok
    cases ok with
    | true =>
      have hd : d'.Lists (x :: xs) := hok
      exact ⟨rfl, hd.head_cell.1, hd.size, hd.head_cell.2⟩
    | false => exact absurd hok.2 (by simp)

/-- A step of an iteration moves none of the elements, also where the iteration is stale. -/
theorem Lists.next (h : d.Lists xs) (forwards : Bool) :
    Ends (dequeNext d forwards) (fun r => r.2.Lists xs) fun _ => True := by
  unfold dequeNext
  split
  case h_1 => trivial
  case h_2 iter hiter =>
    split
    case isTrue => exact h
    case isFalse =>
      apply (Ends.trivial (d.data.read _)).bind
      intro x _
      exact h.recount _ _ _

/-- A call that returns leaves the elements in one piece inside the array. Only a step of an
iteration may not return. -/
theorem step_lists (h : ∃ xs, d.Lists xs) (op : DequeOp α) :
    Ends (dequeStep d op) (fun r => ∃ xs, r.2.Lists xs) fun _ => ∃ forwards, op = .next forwards := by
  obtain ⟨xs, h⟩ := h
  have hother (hpre : Walk.Pre ⟨xs, none⟩ op) :
      Ends (dequeStep d op) (fun r => ∃ xs, r.2.Lists xs)
        fun _ => ∃ forwards, op = .next forwards := by
    apply ((step_refines d ⟨xs, none⟩ op hpre h.refines).ends _).mono
    intro r ⟨_, hr⟩
    exact ⟨_, hr.items⟩
  cases op with
  | next forwards =>
    have hnext : Ends (dequeStep d (.next forwards)) (fun r => ∃ xs, r.2.Lists xs) fun _ => True := by
      apply (h.next forwards).bind
      intro r hr
      exact ⟨xs, hr⟩
    exact hnext.fault_mono fun _ _ => ⟨forwards, rfl⟩
  | _ => exact hother trivial

end Deque

/-- **The growth loops of the deque end.** In every state that a run of calls on a fresh deque
reaches, with any counts of pushes and any place of an iteration in it, both loops end with room, and
each push stores its element inside the array. A run that reaches no state has stepped through an
iteration that is not there. -/
theorem deque_growth_ends (initsize : ℕ) (ops : List (DequeOp α)) :
    Ends (runs dequeStep (dequeInit initsize) ops)
      (fun r => ∀ iter pfcnt pbcnt, Deque.Grows { r.2 with iter, pfcnt, pbcnt })
      (fun _ => ∃ op ∈ ops, ∃ forwards, op = .next forwards) := by
  have hrun := Ends.runs_trace (fun (_ : Unit) (_ : DequeOp α) (_ : DequeOut α) (_ : Unit) => True)
    (fun d _ => ∃ xs, Deque.Lists d xs) (fun op _ => ∃ forwards, op = .next forwards) (fun _ => True)
    (fun d _ op _ hd => (Deque.step_lists hd op).mono fun r hr => ⟨(), trivial, hr⟩)
    (t := ()) ⟨[], Deque.lists_init initsize⟩ (fun _ _ => trivial : ∀ op ∈ ops, True)
  apply hrun.mono
  intro r ⟨_, _, xs, hd⟩ iter pfcnt pbcnt
  exact (hd.recount iter pfcnt pbcnt).grows

end LibSrsBsns
