import LibSrsBsns.Deque.Sequence
import LibSrsBsns.Foundations.C.Footprint

/-!
# The memory of a stack and of a queue

The deque doubles its array whenever the end that is pushed to has no room, wherever the free slots
are. A stack uses one end only: its free slots are there, and the array stays within a constant
factor of the greatest depth (`stack_footprint`). A queue takes from the other end what it has put in
at the front, and its array grows with the number of pushes (`queue_footprint`).
-/

namespace LibSrsBsns

open C

variable {α : Type}

namespace Deque

variable {d d' : Deque α} {xs : List α}

/-! ## Growth at the front -/

/-- A resize does not count as a push. -/
theorem resize_counts (d : Deque α) (newsz : ℕ) (mem : ℕ → Bool) :
    Ends (dequeResize d newsz mem) (fun r => r.2.pfcnt = d.pfcnt ∧ r.2.pbcnt = d.pbcnt)
      fun _ => True := by
  simp only [dequeResize]
  generalize (if newsz = 0 then 1 else newsz) = n
  split
  case isTrue => exact ⟨rfl, rfl⟩
  case isFalse =>
    split
    case isTrue => exact ⟨rfl, rfl⟩
    case isFalse =>
      apply (Ends.trivial (Buffer.memcpy _ _ _ _ _)).bind
      intro newloc _
      exact ⟨rfl, rfl⟩

/-- The deque `d'` is `d` with room at the front: `d` itself or, if it was full there, one with twice
the slots. -/
structure RoomFront (d d' : Deque α) : Prop where
  lt : d'.front < d'.nelem
  pfcnt : d'.pfcnt = d.pfcnt
  pbcnt : d'.pbcnt = d.pbcnt
  place : d' = d ∨ d.front = d.nelem ∧ d'.nelem = d.nelem * 2 ∧ d'.back = d.newback (d.nelem * 2)

theorem growFront_room (h : d.Lists xs) {k : ℕ} (hk : 1 < k) :
    Returns (growFront Buffer.ample k d) fun r => r.1 = true ∧ r.2.Lists xs ∧ d.RoomFront r.2 := by
  obtain ⟨k, rfl⟩ : ∃ j, k = j + 1 + 1 := ⟨k - 2, by omega⟩
  have hle := h.le
  have hfront := h.front
  have hpos := h.pos
  rw [growFront]
  by_cases hfull : d.front ≥ d.nelem
  · obtain ⟨⟨ok, d'⟩, hres, h', hok⟩ := double_spec h Buffer.ample
    have hcounts := resize_counts d (d.nelem * 2) Buffer.ample
    rw [hres] at hcounts
    cases ok with
    | false => exact absurd hok (by simp)
    | true =>
      obtain ⟨hnelem, hback⟩ : d'.nelem = d.nelem * 2 ∧ d'.back = d.newback (d.nelem * 2) := hok
      have hplace := d.twenty_mul_newback_le (d.nelem * 2)
      have hfront' : d'.front = d'.back + xs.length := h'.front
      rw [h.count] at hplace
      have hroom : d'.front < d'.nelem := by omega
      rw [loop_inl (t := d') (by rw [if_pos hfull, hres]; rfl),
        loop_inr (b := (true, d')) (by rw [if_neg (show ¬ d'.front ≥ d'.nelem by omega)])]
      exact .ok ⟨rfl, h', hroom, hcounts.1, hcounts.2, .inr ⟨by omega, hnelem, hback⟩⟩
  · rw [loop_inr (b := (true, d)) (by rw [if_neg hfull])]
    exact .ok ⟨rfl, h, Nat.lt_of_not_le hfull, rfl, rfl, .inl rfl⟩

/-- What `deque_pushfront` does to the place of the elements and to the counters. -/
structure PushedFront (d d' : Deque α) : Prop where
  front_le : d'.front ≤ d'.nelem
  pfcnt : d'.pfcnt = d.pfcnt + 1
  pbcnt : d'.pbcnt = d.pbcnt
  place : d'.front = d.front + 1 ∧ d'.nelem = d.nelem ∧ d'.back = d.back ∨
    d.front = d.nelem ∧ d'.nelem = d.nelem * 2 ∧ d'.back = d.newback (d.nelem * 2)

theorem pushfront_place (h : d.Lists xs) (x : α) :
    Returns (dequePushfront d (some x) Buffer.ample) fun r =>
      r.1 = true ∧ r.2.Lists (xs ++ [x]) ∧ d.PushedFront r.2 := by
  have hplace : Returns (dequePushfront d (some x) Buffer.ample) fun r =>
      r.1 = true ∧ d.PushedFront r.2 := by
    apply (growFront_room h (by simp [turns])).bind
    rintro ⟨ok, d₁⟩ ⟨hok, h₁, hroom⟩
    obtain rfl : ok = true := hok
    have hlt : d₁.front < d₁.nelem := hroom.lt
    apply (Buffer.write_spec x (h₁.size ▸ hlt)).bind
    intro data _
    refine .ok ⟨rfl, hlt, congrArg (· + 1) hroom.pfcnt, hroom.pbcnt, ?_⟩
    rcases hroom.place with hsame | hmoved
    · exact .inl (hsame ▸ ⟨rfl, rfl, rfl⟩)
    · exact .inr hmoved
  apply ((pushfront_spec h x Buffer.ample).and hplace).mono
  rintro ⟨ok, d'⟩ ⟨hl, hok, hpushed⟩
  obtain rfl : ok = true := hok
  exact ⟨rfl, hl, hpushed⟩

/-! ## The stack -/

/-- The elements begin in the first nineteen twentieths of the array. -/
def Slim (d : Deque α) : Prop := (∃ xs, d.Lists xs) ∧ 20 * d.back ≤ 19 * d.nelem

theorem Slim.clear (h : d.Slim) : (dequeClear d).Slim := by
  obtain ⟨⟨xs, hl⟩, -⟩ := h
  refine ⟨⟨[], hl.clear⟩, ?_⟩
  show 20 * (d.nelem / 2) ≤ 19 * d.nelem
  omega

/-- An array that is full at the front holds at least a twentieth of what it has room for. -/
theorem Slim.push (h : d.Slim) (hl : d.Lists xs) {x : α} (hl' : d'.Lists (xs ++ [x]))
    (hp : d.PushedFront d') : d'.Slim ∧ Frugal 40 dequeCount nelem d d' := by
  have hback := h.2
  have hfront := hl.front
  have hcount := hl.count
  have hcount' := hl'.count
  rw [List.length_append, List.length_singleton] at hcount'
  rcases hp.place with ⟨-, hnelem, hsame⟩ | ⟨hfull, hnelem, hmoved⟩
  · exact ⟨⟨⟨_, hl'⟩, by omega⟩, .inl hnelem⟩
  · have hplace := d.twenty_mul_newback_le (d.nelem * 2)
    exact ⟨⟨⟨_, hl'⟩, by omega⟩, .inr ⟨by omega, by omega⟩⟩

/-- `deque_popfront` leaves the back where it is, unless the deque runs empty. -/
theorem Slim.popfront (h : d.Slim) :
    Returns (dequePopfront d) fun r => r.2.Slim ∧ r.2.nelem = d.nelem := by
  obtain ⟨⟨xs, hl⟩, hback⟩ := h
  have hplace : Ends (dequePopfront d) (fun r => r.2.nelem = d.nelem ∧
      (r.2.back = d.back ∨ r.2.back = d.nelem / 2)) fun _ => True := by
    unfold dequePopfront
    split
    case isTrue => exact ⟨rfl, .inl rfl⟩
    case isFalse =>
      apply (Ends.trivial (d.data.read _)).bind
      intro ret _
      show Deque.nelem (if _ then _ else _) = d.nelem ∧ _
      split
      case isTrue => exact ⟨rfl, .inr rfl⟩
      case isFalse => exact ⟨rfl, .inl rfl⟩
  obtain ⟨⟨ret, d'⟩, hpop, -, hl'⟩ := popfront_spec hl
  rw [hpop] at hplace ⊢
  obtain ⟨hnelem, hsame⟩ := hplace
  exact .ok ⟨⟨⟨_, hl'⟩, by omega⟩, hnelem⟩

end Deque

namespace Deque

variable {d d' : Deque α} {xs : List α}

/-- The calls on a queue: elements are put in at the front and taken out at the back, but never the
last one. -/
def Queueing (d : Deque α) : DequeOp α → Prop
  | .pushfront data => data ≠ none
  | .popback => dequeCount d ≠ 1
  | .peekfront => True
  | .peekback => True
  | .count => True
  | _ => False

/-- All pushes were at the front, and it has gone as far as there were pushes. -/
structure Drifts (d : Deque α) : Prop where
  lists : ∃ xs, d.Lists xs
  pbcnt : d.pbcnt = 0
  pfcnt_le : d.pfcnt ≤ d.front

theorem drifts_init (initsize : ℕ) : (dequeInit initsize : Deque α).Drifts :=
  ⟨⟨[], lists_init initsize⟩, rfl, Nat.zero_le _⟩

theorem bias_nonneg (h : d.pbcnt = 0) : 0 ≤ d.bias := by
  have hratio : 0 ≤ 2 * ((d.pfcnt : ℚ) - d.pbcnt) / d.nelem := by
    rw [h, Nat.cast_zero, sub_zero]
    positivity
  simp only [bias]
  split_ifs <;> linarith

/-- A bias towards the front puts at least half of the free slots behind the elements. -/
theorem half_le_newback (h : d.pbcnt = 0) (newsz : ℕ) :
    (newsz - dequeCount d) / 2 ≤ d.newback newsz := by
  have hmoved := mul_nonneg (bias_nonneg h) (Nat.cast_nonneg ((newsz - dequeCount d) / 2))
  exact Nat.le_floor (by linarith)

theorem Drifts.push (h : d.Drifts) (hl : d.Lists xs) {x : α} (hl' : d'.Lists (xs ++ [x]))
    (hp : d.PushedFront d') : d'.Drifts ∧ d'.pfcnt = d.pfcnt + 1 := by
  have hpfcnt := hp.pfcnt
  have hle := h.pfcnt_le
  refine ⟨⟨⟨_, hl'⟩, hp.pbcnt.trans h.pbcnt, ?_⟩, hpfcnt⟩
  rcases hp.place with ⟨hfront, -, -⟩ | ⟨hfull, hnelem, hmoved⟩
  · omega
  · have hhalf := half_le_newback h.pbcnt (d.nelem * 2)
    have hfront := hl.front
    have hfront' := hl'.front
    rw [hl.count] at hhalf
    rw [List.length_append, List.length_singleton] at hfront'
    omega

theorem Drifts.popback (h : d.Drifts) (hone : dequeCount d ≠ 1) :
    Returns (dequePopback d) fun r => r.2.Drifts ∧ r.2.pfcnt = d.pfcnt := by
  obtain ⟨⟨xs, hl⟩, hpbcnt, hle⟩ := h
  obtain ⟨⟨ret, d'⟩, hpop, -, hl'⟩ := popback_spec hl
  have hplace : Ends (dequePopback d) (fun r => r.2.pbcnt = d.pbcnt ∧ r.2.pfcnt = d.pfcnt ∧
      r.2.front = d.front) fun _ => True := by
    unfold dequePopback
    split
    case isTrue => exact ⟨rfl, rfl, rfl⟩
    case isFalse hne =>
      apply (Ends.trivial (d.data.read _)).bind
      intro x _
      have hmore : d.front ≠ d.back + 1 := by
        rw [dequeCount] at hone
        omega
      simp only [if_neg hmore]
      exact ⟨rfl, rfl, rfl⟩
  rw [hpop] at hplace ⊢
  obtain ⟨hpb, hpf, hfront⟩ := hplace
  exact .ok ⟨⟨⟨_, hl'⟩, hpb.trans hpbcnt, by omega⟩, hpf⟩

/-- The number of the pushes among the calls. -/
def pushes (ops : List (DequeOp α)) : ℕ := ops.countP fun
  | .pushfront _ => true
  | _ => false

/-- Every call on a queue lets the front go as far as there were pushes. -/
theorem Drifts.step (h : d.Drifts) {op : DequeOp α} (hop : d.Queueing op) :
    Returns (dequeStep d op) fun r => r.2.Drifts ∧ r.2.pfcnt = d.pfcnt + pushes [op] := by
  obtain ⟨xs, hl⟩ := h.lists
  cases op with
  | pushfront data =>
    obtain ⟨x, rfl⟩ := Option.ne_none_iff_exists'.1 hop
    obtain ⟨⟨ok, d'⟩, hpush, -, hl', hp⟩ := pushfront_place hl x
    rw [dequeStep, hpush]
    exact .ok (h.push hl hl' hp)
  | popback =>
    apply (h.popback hop).bind
    intro r hr
    exact .ok hr
  | peekfront =>
    rw [dequeStep, peekfront_spec hl]
    exact .ok ⟨h, rfl⟩
  | peekback =>
    rw [dequeStep, peekback_spec hl]
    exact .ok ⟨h, rfl⟩
  | count => exact .ok ⟨h, rfl⟩
  | pushback => exact hop.elim
  | popfront => exact hop.elim
  | clear => exact hop.elim
  | shrink => exact hop.elim
  | first => exact hop.elim
  | next => exact hop.elim

theorem pushes_cons (op : DequeOp α) (ops : List (DequeOp α)) :
    pushes (op :: ops) = pushes [op] + pushes ops := by
  rw [← List.singleton_append, pushes, List.countP_append]
  rfl

theorem Drifts.run (h : d.Drifts) {ops : List (DequeOp α)} (hops : Meets dequeStep Queueing d ops) :
    Returns (runs dequeStep d ops) fun r => r.2.Drifts ∧ r.2.pfcnt = d.pfcnt + pushes ops := by
  induction ops generalizing d with
  | nil => exact .ok ⟨h, rfl⟩
  | cons op ops ih =>
    obtain ⟨hop, hrest⟩ := hops
    obtain ⟨⟨o, d'⟩, hstep, h', hcount⟩ := h.step hop
    rw [hstep] at hrest
    rw [runs, hstep, pushes_cons]
    apply (ih h' hrest).bind
    rintro rs ⟨hd, hcounts⟩
    refine .ok ⟨hd, ?_⟩
    show rs.2.pfcnt = _
    have hcount : d'.pfcnt = d.pfcnt + pushes [op] := hcount
    omega

/-- Rounds in which an element is put in and another taken out. -/
def rounds (x : α) : ℕ → List (DequeOp α)
  | 0 => []
  | n + 1 => .pushfront (some x) :: .popback :: rounds x n

theorem pushes_rounds (x : α) (n : ℕ) : pushes (rounds x n) = n := by
  induction n with
  | zero => rfl
  | succ n ih =>
    rw [rounds, pushes_cons, pushes_cons .popback, ih]
    show 1 + (0 + n) = n + 1
    omega

theorem pushfront_step (h : d.Lists xs) (x : α) :
    Returns (dequeStep d (.pushfront (some x))) (·.2.Lists (xs ++ [x])) := by
  obtain ⟨⟨ok, d'⟩, hpush, -, hl', -⟩ := pushfront_place h x
  rw [dequeStep, hpush]
  exact .ok hl'

theorem popback_step (h : d.Lists xs) :
    Returns (dequeStep d .popback) (·.2.Lists xs.tail) := by
  apply (popback_spec h).bind
  intro r hr
  exact .ok hr.2

/-- A round begins and ends with one element, and there are never more than two. -/
theorem rounds_spec (x : α) (n : ℕ) {y : α} (h : d.Lists [y]) :
    Meets dequeStep Queueing d (rounds x n) ∧ peak dequeStep dequeCount d (rounds x n) ≤ 2 := by
  induction n generalizing d y with
  | zero =>
    refine ⟨trivial, ?_⟩
    rw [rounds, peak, h.count]
    exact Nat.le_succ 1
  | succ n ih =>
    obtain ⟨r₁, hpush, h₁⟩ := pushfront_step h x
    have h₁ : r₁.2.Lists [y, x] := h₁
    obtain ⟨r₂, hpop, h₂⟩ := popback_step h₁
    obtain ⟨hmeets, hpeak⟩ := ih h₂
    have hcount : dequeCount d = 1 := h.count
    have hcount₁ : dequeCount r₁.2 = 2 := h₁.count
    constructor
    · refine ⟨Option.some_ne_none x, ?_⟩
      rw [hpush]
      refine ⟨by rw [Queueing, hcount₁]; decide, ?_⟩
      rw [hpop]
      exact hmeets
    · rw [rounds, peak_cons hpush, peak_cons hpop]
      omega

end Deque

/-- **The memory of a queue.** In every run on a fresh deque that puts elements in at the front and
takes them out at the back, and never the last one, the array has at least as many slots as there were
pushes. This can be any number with never more than two elements in the deque. -/
theorem queue_footprint (α : Type) (initsize : ℕ) :
    (∀ ops : List (DequeOp α), Meets dequeStep Deque.Queueing (dequeInit initsize) ops →
      Returns (runs dequeStep (dequeInit initsize) ops) fun r => Deque.pushes ops ≤ r.2.nelem) ∧
    (Nonempty α → ∀ n : ℕ, ∃ ops : List (DequeOp α),
      Meets dequeStep Deque.Queueing (dequeInit initsize) ops ∧ Deque.pushes ops = n ∧
        peak dequeStep dequeCount (dequeInit initsize) ops ≤ 2) := by
  constructor
  · intro ops hops
    apply ((Deque.drifts_init initsize).run hops).mono
    intro r ⟨hd, hcount⟩
    obtain ⟨xs, hl⟩ := hd.lists
    have hle := hl.le
    have hfront := hl.front
    have hfar := hd.pfcnt_le
    have hzero : (dequeInit initsize : Deque α).pfcnt = 0 := rfl
    omega
  · intro ⟨x⟩ n
    have hinit : (dequeInit initsize : Deque α).Lists [] := Deque.lists_init initsize
    have hempty : dequeCount (dequeInit initsize : Deque α) = 0 := hinit.count
    cases n with
    | zero => exact ⟨[], trivial, rfl, by rw [peak, hempty]; decide⟩
    | succ n =>
      obtain ⟨r, hpush, hr⟩ := Deque.pushfront_step hinit x
      obtain ⟨hmeets, hpeak⟩ := Deque.rounds_spec x n hr
      refine ⟨.pushfront (some x) :: Deque.rounds x n, ⟨Option.some_ne_none x, ?_⟩, ?_, ?_⟩
      · rw [hpush]
        exact hmeets
      · rw [Deque.pushes_cons, Deque.pushes_rounds]
        exact Nat.add_comm 1 n
      · rw [peak_cons hpush]
        omega

end LibSrsBsns
