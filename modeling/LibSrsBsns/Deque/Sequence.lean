import LibSrsBsns.Deque.Model
import LibSrsBsns.Foundations.C.Runs
import Mathlib.Tactic.Linarith
import Mathlib.Tactic.NormNum
import Mathlib.Tactic.Positivity

/-!
# The deque is a sequence with two ends

The elements of a deque lie in one piece from `back` to `front` (`Deque.Lists`). A resize moves them
to a place that depends on the pushes so far. Whatever the bias, that place leaves one free cell out
of twenty in front of the elements, and a free cell behind them once twenty cells are free
(`Deque.twenty_mul_newback_le`, `Deque.newback_pos`). So a push finds room after one resize at the
front, and after finitely many at the back.
-/

namespace LibSrsBsns

open C

variable {α : Type}

namespace Deque

/-- The deque holds the list `xs`, from back to front. -/
structure Lists (d : Deque α) (xs : List α) : Prop where
  pos : 0 < d.nelem
  size : d.data.size = d.nelem
  front : d.front = d.back + xs.length
  holds : d.data.Holds d.back xs

variable {d : Deque α} {xs : List α} {x : α} {mem : ℕ → Bool}

theorem Lists.le (h : d.Lists xs) : d.back + xs.length ≤ d.nelem := h.size ▸ h.holds.le

theorem Lists.count (h : d.Lists xs) : dequeCount d = xs.length := by
  rw [dequeCount, h.front, Nat.add_sub_cancel_left]

theorem Lists.front_eq_back (h : d.Lists xs) : d.front = d.back ↔ xs = [] := by
  rw [h.front, ← List.length_eq_zero_iff]
  omega

/-- A fresh deque is empty. -/
theorem lists_init (initsize : ℕ) : (dequeInit initsize : Deque α).Lists [] := by
  refine ⟨?_, rfl, rfl, Buffer.holds_nil.2 (Nat.div_le_self ..)⟩
  simp only [dequeInit]
  split <;> omega

theorem Lists.clear (h : d.Lists xs) : (dequeClear d).Lists [] :=
  ⟨h.pos, h.size, rfl, Buffer.holds_nil.2 (h.size ▸ Nat.div_le_self ..)⟩

/-! ## Where a resize puts the elements -/

theorem bias_le (d : Deque α) : d.bias ≤ 9 / 10 := by
  simp only [bias]
  split_ifs <;> linarith

theorem le_bias (d : Deque α) : -(9 / 10) ≤ d.bias := by
  simp only [bias]
  split_ifs <;> linarith

theorem twenty_mul_newback_le (d : Deque α) (newsz : ℕ) :
    20 * d.newback newsz ≤ 19 * (newsz - dequeCount d) := by
  unfold newback
  set free := newsz - dequeCount d
  have hhalf : 2 * ((free / 2 : ℕ) : ℚ) ≤ free := by exact_mod_cast Nat.mul_div_le free 2
  have hnonneg : (0 : ℚ) ≤ (free / 2 : ℕ) := Nat.cast_nonneg _
  have hle := mul_le_mul_of_nonneg_right d.bias_le hnonneg
  have hge := mul_le_mul_of_nonneg_right d.le_bias hnonneg
  have hfloor := Nat.floor_le (show 0 ≤ ((free / 2 : ℕ) : ℚ) + d.bias * (free / 2 : ℕ) by linarith)
  have : (20 : ℚ) * ⌊((free / 2 : ℕ) : ℚ) + d.bias * (free / 2 : ℕ)⌋₊ ≤ 19 * free := by linarith
  exact_mod_cast this

theorem newback_pos {newsz : ℕ} (h : dequeCount d + 20 ≤ newsz) : 0 < d.newback newsz := by
  have hten : (10 : ℚ) ≤ ((newsz - dequeCount d) / 2 : ℕ) := by
    exact_mod_cast (show 10 ≤ (newsz - dequeCount d) / 2 by omega)
  have hge := mul_le_mul_of_nonneg_right d.le_bias (show (0 : ℚ) ≤ _ from by linarith)
  exact Nat.floor_pos.2 (by linarith)

/-- A resize keeps the elements; it fails for want of room or of memory. -/
theorem resize_spec (h : d.Lists xs) (newsz : ℕ) (mem : ℕ → Bool) :
    Returns (dequeResize d newsz mem) fun r => r.2.Lists xs ∧
      if r.1 then r.2.nelem = max newsz 1 ∧ r.2.back = d.newback (max newsz 1)
      else max newsz 1 < xs.length ∨ mem (max newsz 1) = false := by
  have hsz : (if newsz = 0 then 1 else newsz) = max newsz 1 := by split <;> omega
  simp only [dequeResize, hsz, h.count]
  generalize hn : max newsz 1 = n
  refine .ite (fun hlt => .ok ⟨h, ?_⟩) fun hge => .ite (fun hm => .ok ⟨h, ?_⟩) fun hm => ?_
  · simp [hlt]
  · simp [show mem n = false by simpa using hm]
  have hplace := d.twenty_mul_newback_le n
  rw [h.count] at hplace
  have hfits : d.newback n + xs.length ≤ n := by omega
  refine (Buffer.memcpy_spec h.holds hfits).bind fun newloc hb => .ok ⟨?_, ?_⟩
  · exact ⟨show 0 < n by omega, hb.size, rfl, hb.holds⟩
  · simp

/-- The resize of the growth loops fails only for want of memory. -/
theorem double_spec (h : d.Lists xs) (mem : ℕ → Bool) :
    Returns (dequeResize d (d.nelem * 2) mem) fun r => r.2.Lists xs ∧
      if r.1 then r.2.nelem = d.nelem * 2 ∧ r.2.back = d.newback (d.nelem * 2)
      else ∃ n, mem n = false := by
  have hpos := h.pos
  have hle := h.le
  have hmax : max (d.nelem * 2) 1 = d.nelem * 2 := by omega
  refine (resize_spec h (d.nelem * 2) mem).mono fun r hr => ⟨hr.1, ?_⟩
  have hr := hr.2
  rw [hmax] at hr
  split_ifs at hr ⊢
  · exact hr
  · exact ⟨_, hr.resolve_left (by omega)⟩

/-- There is a free cell in front of the elements after one resize. -/
theorem growFront_spec (h : d.Lists xs) (mem : ℕ → Bool) {k : ℕ} (hk : 1 < k) :
    Returns (growFront mem k d) fun r => r.2.Lists xs ∧
      if r.1 then r.2.front < r.2.nelem else ∃ n, mem n = false := by
  refine Returns.loop (·.Lists xs) (fun d => if d.front ≥ d.nelem then 1 else 0) _
    (fun d h => ?_) h (by split <;> omega)
  have hpos := h.pos
  have hle := h.le
  refine .ite (fun hfull => ?_) fun hroom => .ok ⟨h, by simpa using hroom⟩
  refine (double_spec h mem).bind ?_
  rintro ⟨ok, d'⟩ ⟨(h' : d'.Lists xs), hok⟩
  cases ok with
  | false => exact .ok ⟨h', hok⟩
  | true =>
    obtain ⟨hnelem, hback⟩ : d'.nelem = d.nelem * 2 ∧ d'.back = d.newback (d.nelem * 2) := hok
    have hplace := d.twenty_mul_newback_le (d.nelem * 2)
    have hfront := h'.front
    rw [h.count] at hplace
    refine .ok ⟨h', ?_⟩
    rw [if_pos hfull, if_neg (show ¬ d'.front ≥ d'.nelem by omega)]
    exact Nat.one_pos

/-- There is a free cell behind the elements after finitely many resizes: a deque with twenty free
cells needs at most one. -/
theorem growBack_spec (h : d.Lists xs) (mem : ℕ → Bool) {k : ℕ} (hk : xs.length + 21 < k) :
    Returns (growBack mem k d) fun r => r.2.Lists xs ∧
      if r.1 then 0 < r.2.back else ∃ n, mem n = false := by
  refine Returns.loop (·.Lists xs)
    (fun d => if d.back = 0 then 1 + (xs.length + 20 - d.nelem) else 0) _
    (fun d h => ?_) h (by split <;> omega)
  have hpos := h.pos
  refine .ite (fun hfull => ?_) fun hroom => .ok ⟨h, by simpa using Nat.pos_of_ne_zero hroom⟩
  refine (double_spec h mem).bind ?_
  rintro ⟨ok, d'⟩ ⟨(h' : d'.Lists xs), hok⟩
  cases ok with
  | false => exact .ok ⟨h', hok⟩
  | true =>
    obtain ⟨hnelem, hback⟩ : d'.nelem = d.nelem * 2 ∧ d'.back = d.newback (d.nelem * 2) := hok
    refine .ok ⟨h', ?_⟩
    rw [if_pos hfull]
    split
    case isTrue h0 =>
      have hfew : ¬ dequeCount d + 20 ≤ d.nelem * 2 := fun hge => by
        have hpos' := newback_pos hge
        have h0 : d'.back = 0 := h0
        omega
      rw [h.count] at hfew
      show 1 + (xs.length + 20 - d'.nelem) < _
      omega
    case isFalse => omega

/-! ## Operations -/

theorem pushfront_spec (h : d.Lists xs) (x : α) (mem : ℕ → Bool) :
    Returns (dequePushfront d (some x) mem) fun r =>
      if r.1 then r.2.Lists (xs ++ [x]) else r.2.Lists xs ∧ ∃ n, mem n = false := by
  refine (growFront_spec h mem (by simp [turns])).bind ?_
  rintro ⟨ok, d⟩ ⟨(h : d.Lists xs), hok⟩
  cases ok with
  | false => exact .ok ⟨h, hok⟩
  | true =>
    have hroom : d.front < d.nelem := hok
    refine (Buffer.write_spec x (h.size ▸ hroom)).bind fun data hb => .ok ?_
    refine ⟨h.pos, hb.size.trans h.size, ?_, h.holds.extend (h.front ▸ hb)⟩
    simp [h.front, Nat.add_assoc]

theorem pushback_spec (h : d.Lists xs) (x : α) (mem : ℕ → Bool) :
    Returns (dequePushback d (some x) mem) fun r =>
      if r.1 then r.2.Lists (x :: xs) else r.2.Lists xs ∧ ∃ n, mem n = false := by
  refine (growBack_spec h mem (by simp [turns, h.count])).bind ?_
  rintro ⟨ok, d⟩ ⟨(h : d.Lists xs), hok⟩
  cases ok with
  | false => exact .ok ⟨h, hok⟩
  | true =>
    have hroom : 0 < d.back := hok
    have hback : d.back - 1 + 1 = d.back := by omega
    have hle := h.le
    have hsize := h.size
    refine (Buffer.write_spec x (by omega)).bind fun data hb => .ok ?_
    refine ⟨h.pos, hb.size.trans h.size, ?_, Buffer.holds_cons.2 ⟨⟨?_, hb.cell_self⟩, ?_⟩⟩
    · simp only [h.front, List.length_cons]
      omega
    · exact hb.size ▸ (show d.back - 1 < d.data.size by omega)
    · show data.Holds (d.back - 1 + 1) xs
      rw [hback]
      exact hb.holds_behind h.holds (by rw [List.length_singleton]; omega)

/-- A shrink by a factor of at least one succeeds if there is memory. -/
theorem shrink_spec (h : d.Lists xs) (countfac : ℚ) (mem : ℕ → Bool) :
    Returns (dequeShrink d countfac mem) fun r => r.2.Lists xs ∧
      (r.1 = decide (1 ≤ countfac) ∨ ∃ n, mem n = false) := by
  unfold dequeShrink
  refine .ite (fun hlt => .ok ⟨h, .inl (by simpa using hlt)⟩) fun hge => ?_
  rw [not_lt] at hge
  refine (resize_spec h _ mem).mono fun r hr => ⟨hr.1, ?_⟩
  have hr := hr.2
  rw [h.count] at hr
  split_ifs at hr with hok
  · exact .inl (by simp [hok, hge])
  · have hfits : xs.length ≤ ⌊countfac * xs.length⌋₊ :=
      Nat.le_floor (le_mul_of_one_le_left (Nat.cast_nonneg _) hge)
    exact .inr ⟨_, hr.resolve_left (by omega)⟩

/-- An element is taken from either end; a deque that runs empty is centred again. -/
theorem Lists.recentre (h : d.Lists xs) :
    (if d.front = d.back then dequeClear d else d).Lists xs := by
  split
  case isTrue heq =>
    obtain rfl := h.front_eq_back.1 heq
    exact h.clear
  case isFalse => exact h

theorem popfront_spec (h : d.Lists xs) : Returns (dequePopfront d) fun r =>
    r.1 = xs.getLast? ∧ r.2.Lists xs.dropLast := by
  unfold dequePopfront
  refine .ite (fun heq => ?_) fun hne => ?_
  · obtain rfl := h.front_eq_back.1 heq.symm
    exact .ok ⟨rfl, h⟩
  obtain ⟨ys, y, rfl⟩ : ∃ ys y, xs = ys ++ [y] :=
    List.eq_nil_or_concat' xs |>.resolve_left fun e => hne (h.front_eq_back.2 e).symm
  have hfront : d.front - 1 = d.back + ys.length := by simp [h.front, ← Nat.add_assoc]
  have hread := h.holds.read (i := ys.length) (by simp)
  obtain ⟨hys, -⟩ := Buffer.holds_append.1 h.holds
  simp only [hfront, hread, ok_bind]
  refine .ok ⟨by simp, ?_⟩
  rw [List.dropLast_concat]
  exact Lists.recentre (d := { d with front := d.back + ys.length }) ⟨h.pos, h.size, rfl, hys⟩

theorem popback_spec (h : d.Lists xs) : Returns (dequePopback d) fun r =>
    r.1 = xs.head? ∧ r.2.Lists xs.tail := by
  unfold dequePopback
  refine .ite (fun heq => ?_) fun hne => ?_
  · obtain rfl := h.front_eq_back.1 heq.symm
    exact .ok ⟨rfl, h⟩
  cases xs with
  | nil => exact absurd (h.front_eq_back.2 rfl).symm hne
  | cons y ys =>
    have hread := h.holds.read (i := 0) (by simp)
    obtain ⟨-, hys⟩ := Buffer.holds_cons.1 h.holds
    rw [Nat.add_zero] at hread
    rw [hread, ok_bind]
    refine .ok ⟨rfl, Lists.recentre ⟨h.pos, h.size, ?_, hys⟩⟩
    simp only [h.front, List.length_cons, List.tail_cons]
    omega

/-- The element at the place `k` of the sequence. -/
theorem Lists.read (h : d.Lists xs) {k i : ℕ} (hi : i = d.back + k) (hk : k < xs.length) :
    d.data.read i = .ok xs[k] := hi ▸ h.holds.read hk

theorem peekfront_spec (h : d.Lists xs) : dequePeekfront d = .ok xs.getLast? := by
  unfold dequePeekfront
  split
  case isTrue heq =>
    obtain rfl := h.front_eq_back.1 heq
    rfl
  case isFalse hne =>
    have hpos := List.length_pos_iff.2 fun e => hne (h.front_eq_back.2 e)
    have hfront := h.front
    rw [h.read (k := xs.length - 1) (by omega) (by omega), List.getLast?_eq_getElem?,
      List.getElem?_eq_getElem (by omega)]
    rfl

theorem peekback_spec (h : d.Lists xs) : dequePeekback d = .ok xs.head? := by
  unfold dequePeekback
  split
  case isTrue heq =>
    obtain rfl := h.front_eq_back.1 heq
    rfl
  case isFalse hne =>
    have hpos := List.length_pos_iff.2 fun e => hne (h.front_eq_back.2 e)
    rw [h.read (k := 0) (Nat.add_zero _).symm hpos, List.head?_eq_getElem?, List.getElem?_eq_getElem hpos]
    rfl

end Deque

/-! ## Sequences with an iteration -/

/-- A sequence, from back to front, and the place that an iteration over it is at. -/
structure Walk (α : Type) where
  items : List α
  place : Option ℕ

/-- The calls on a deque. A push of a null pointer is one of `none`. -/
inductive DequeOp (α : Type)
  | pushfront (data : Option α)
  | pushback (data : Option α)
  | popfront
  | popback
  | peekfront
  | peekback
  | clear
  | count
  | shrink (countfac : ℚ)
  | first (back : Bool)
  | next (forwards : Bool)

/-- What a call returns; a null pointer is the element `none`. -/
inductive DequeOut (α : Type)
  | unit
  | bool (b : Bool)
  | size (n : ℕ)
  | elem (x : Option α)
  deriving DecidableEq

/-- A call on the deque, with allocations succeeding. -/
def dequeStep (d : Deque α) : DequeOp α → Exec (DequeOut α × Deque α)
  | .pushfront data => do
    let (ok, d) ← dequePushfront d data Buffer.ample
    .ok (.bool ok, d)
  | .pushback data => do
    let (ok, d) ← dequePushback d data Buffer.ample
    .ok (.bool ok, d)
  | .popfront => do
    let (x, d) ← dequePopfront d
    .ok (.elem x, d)
  | .popback => do
    let (x, d) ← dequePopback d
    .ok (.elem x, d)
  | .peekfront => do
    let x ← dequePeekfront d
    .ok (.elem x, d)
  | .peekback => do
    let x ← dequePeekback d
    .ok (.elem x, d)
  | .clear => .ok (.unit, dequeClear d)
  | .count => .ok (.size (dequeCount d), d)
  | .shrink countfac => do
    let (ok, d) ← dequeShrink d countfac Buffer.ample
    .ok (.bool ok, d)
  | .first back => do
    let (x, d) ← dequeFirst d back
    .ok (.elem x, d)
  | .next forwards => do
    let (x, d) ← dequeNext d forwards
    .ok (.elem x, d)

namespace Walk

variable (w : Walk α)

/-- Start at the back or at the front of a sequence that is not empty. -/
def first (back : Bool) : Option α × Walk α :=
  if w.items = [] then (none, w)
  else if back then (w.items.head?, { w with place := some 0 })
  else (w.items.getLast?, { w with place := some (w.items.length - 1) })

/-- Move from the place `k` by one, unless that leaves the sequence. -/
def move : ℕ → Bool → Option α × Walk α
  | k, true =>
    if k + 1 < w.items.length then (w.items[k + 1]?, { w with place := some (k + 1) })
    else (none, w)
  | 0, false => (none, w)
  | k + 1, false => (w.items[k]?, { w with place := some k })

/-- A call on a sequence. Those that change it end an iteration over it. -/
def spec : Walk α → DequeOp α → DequeOut α × Walk α
  | w, .pushfront none => (.bool false, w)
  | w, .pushfront (some x) => (.bool true, ⟨w.items ++ [x], none⟩)
  | w, .pushback none => (.bool false, w)
  | w, .pushback (some x) => (.bool true, ⟨x :: w.items, none⟩)
  | w, .popfront => (.elem w.items.getLast?, ⟨w.items.dropLast, none⟩)
  | w, .popback => (.elem w.items.head?, ⟨w.items.tail, none⟩)
  | w, .peekfront => (.elem w.items.getLast?, w)
  | w, .peekback => (.elem w.items.head?, w)
  | _, .clear => (.unit, ⟨[], none⟩)
  | w, .count => (.size w.items.length, w)
  | w, .shrink countfac => (.bool (1 ≤ countfac), ⟨w.items, none⟩)
  | w, .first back => (.elem (w.first back).1, (w.first back).2)
  | w, .next forwards =>
    match w.place with
    | none => (.elem none, w)
    | some k => (.elem (w.move k forwards).1, (w.move k forwards).2)

/-- The precondition of a call: an iteration goes on only from where it has come to since the last
change of the sequence. -/
def Pre : Walk α → DequeOp α → Prop
  | w, .next _ => w.place.isSome
  | _, _ => True

end Walk

namespace Deque

variable {d : Deque α} {w : Walk α} {k : ℕ}

/-- The iteration over a deque is at the place `k` of its elements. -/
def At (d : Deque α) (n : ℕ) (k : ℕ) : Prop := k < n ∧ d.iter = some (d.back + k)

/-- The deque holds a sequence, and its iteration is where that over the sequence is. -/
structure Refines (d : Deque α) (w : Walk α) : Prop where
  items : d.Lists w.items
  place : ∀ k, w.place = some k → d.At w.items.length k

theorem Lists.refines {xs : List α} (h : d.Lists xs) : d.Refines ⟨xs, none⟩ :=
  ⟨h, fun _ hk => absurd hk (by simp)⟩

/-- The iteration goes to the place `k`. -/
theorem Refines.visit (h : d.Refines w) (hk : k < w.items.length) {i : ℕ} (hi : i = d.back + k) :
    Returns (do
      let x ← d.data.read i
      .ok (some x, { d with iter := some i })) fun r =>
        r.1 = w.items[k]? ∧ r.2.Refines { w with place := some k } := by
  rw [h.items.read hi hk, ok_bind, List.getElem?_eq_getElem hk]
  refine .ok ⟨rfl, ⟨h.items.pos, h.items.size, h.items.front, h.items.holds⟩, ?_⟩
  intro j hj
  obtain rfl : k = j := by simpa using hj
  exact ⟨hk, congrArg some hi⟩

theorem first_spec (h : d.Refines w) (back : Bool) : Returns (dequeFirst d back) fun r =>
    r.1 = (w.first back).1 ∧ r.2.Refines (w.first back).2 := by
  have hfront := h.items.front
  unfold dequeFirst Walk.first
  by_cases he : w.items = []
  · rw [if_pos (h.items.front_eq_back.2 he), if_pos he]
    exact .ok ⟨rfl, h⟩
  rw [if_neg (mt h.items.front_eq_back.1 he), if_neg he]
  have hpos := List.length_pos_iff.2 he
  cases back with
  | true =>
    rw [List.head?_eq_getElem?]
    exact h.visit hpos rfl
  | false =>
    rw [List.getLast?_eq_getElem?]
    exact h.visit (by omega) (show d.front - 1 = _ by omega)

theorem next_spec (h : d.Refines w) (hk : w.place = some k) (forwards : Bool) :
    Returns (dequeNext d forwards) fun r =>
      r.1 = (w.move k forwards).1 ∧ r.2.Refines (w.move k forwards).2 := by
  obtain ⟨hlt, hiter⟩ := h.place k hk
  have hfront := h.items.front
  simp only [dequeNext, hiter]
  cases forwards with
  | true =>
    simp only [Walk.move, Bool.not_true, Bool.false_eq_true, false_and, true_and, false_or, if_true]
    by_cases hroom : k + 1 < w.items.length
    · rw [if_neg (by omega), if_pos hroom]
      exact h.visit hroom (Nat.add_assoc ..)
    · rw [if_pos (by omega), if_neg hroom]
      exact .ok ⟨rfl, h⟩
  | false =>
    cases k with
    | zero =>
      rw [if_pos (by simp)]
      exact .ok ⟨rfl, h⟩
    | succ k =>
      rw [if_neg (by simp)]
      exact h.visit (by omega) rfl

/-- One call on a deque does what it does on the sequence. -/
theorem step_refines (d : Deque α) (w : Walk α) (op : DequeOp α) (hpre : w.Pre op)
    (h : d.Refines w) :
    Returns (dequeStep d op) fun r => r.1 = (w.spec op).1 ∧ r.2.Refines (w.spec op).2 := by
  cases op with
  | pushfront data =>
    cases data with
    | none => exact .ok ⟨rfl, h⟩
    | some x =>
      apply (pushfront_spec h.items x _).bind
      rintro ⟨ok, d'⟩ hok
      cases ok with
      | true => exact .ok ⟨rfl, Lists.refines hok⟩
      | false => exact absurd hok.2 (by simp)
  | pushback data =>
    cases data with
    | none => exact .ok ⟨rfl, h⟩
    | some x =>
      apply (pushback_spec h.items x _).bind
      rintro ⟨ok, d'⟩ hok
      cases ok with
      | true => exact .ok ⟨rfl, Lists.refines hok⟩
      | false => exact absurd hok.2 (by simp)
  | popfront =>
    apply (popfront_spec h.items).bind
    intro r hr
    exact .ok ⟨congrArg _ hr.1, hr.2.refines⟩
  | popback =>
    apply (popback_spec h.items).bind
    intro r hr
    exact .ok ⟨congrArg _ hr.1, hr.2.refines⟩
  | peekfront => exact ⟨_, congrArg (· >>= _) (peekfront_spec h.items), rfl, h⟩
  | peekback => exact ⟨_, congrArg (· >>= _) (peekback_spec h.items), rfl, h⟩
  | clear => exact .ok ⟨rfl, h.items.clear.refines⟩
  | count => exact .ok ⟨congrArg _ h.items.count, h⟩
  | shrink countfac =>
    apply (shrink_spec h.items countfac _).bind
    intro r hr
    exact .ok ⟨congrArg _ (hr.2.resolve_right (by simp)), hr.1.refines⟩
  | first back =>
    apply (first_spec h back).bind
    intro r hr
    exact .ok ⟨congrArg _ hr.1, hr.2⟩
  | next forwards =>
    obtain ⟨k, hk⟩ := Option.isSome_iff_exists.1 hpre
    apply (next_spec h hk forwards).bind
    intro r hr
    simp only [Walk.spec, hk]
    exact .ok ⟨congrArg _ hr.1, hr.2⟩

end Deque

/-! ## The stack -/

/-- The calls on a stack. A push of a null pointer is one of `none`. -/
inductive StackOp (α : Type)
  | push (data : Option α)
  | pop
  | peek
  | clear
  | count

/-- A call on the stack, with allocations succeeding. -/
def stackStep (s : Stack α) : StackOp α → Exec (DequeOut α × Stack α)
  | .push data => do
    let s ← stackPush s data Buffer.ample
    .ok (.unit, s)
  | .pop => do
    let (x, s) ← stackPop s
    .ok (.elem x, s)
  | .peek => do
    let x ← stackPeek s
    .ok (.elem x, s)
  | .clear => .ok (.unit, stackClear s)
  | .count => .ok (.size (stackCount s), s)

/-- A call on a last-in first-out stack, whose top is the head of the list. -/
def lifoSpec (s : List α) : StackOp α → DequeOut α × List α
  | .push none => (.unit, s)
  | .push (some x) => (.unit, x :: s)
  | .pop => (.elem s.head?, s.tail)
  | .peek => (.elem s.head?, s)
  | .clear => (.unit, [])
  | .count => (.size s.length, s)

/-- The front of its deque is the top of a stack. -/
def Stack.Lists (s : Stack α) (xs : List α) : Prop := s.data.Lists xs.reverse

namespace Stack

variable {s : Stack α} {xs : List α}

theorem lists_init (initsize : ℕ) : (stackInit initsize : Stack α).Lists [] :=
  Deque.lists_init initsize

theorem push_spec (h : s.Lists xs) (x : α) :
    Returns (stackPush s (some x) Buffer.ample) (·.Lists (x :: xs)) := by
  apply (Deque.pushfront_spec h x Buffer.ample).bind
  rintro ⟨ok, d⟩ hok
  cases ok with
  | true => exact .ok (by simpa [Lists] using hok)
  | false => exact absurd hok.2 (by simp)

theorem pop_spec (h : s.Lists xs) : Returns (stackPop s) fun r =>
    r.1 = xs.head? ∧ r.2.Lists xs.tail := by
  apply (Deque.popfront_spec h).bind
  intro r ⟨hx, hd⟩
  exact .ok ⟨by simpa using hx, by simpa [Lists] using hd⟩

end Stack

/-- One call on a stack does what it does on the list. -/
theorem stackStep_refines (s : Stack α) (xs : List α) (op : StackOp α) (h : s.Lists xs) :
    Returns (stackStep s op) fun r =>
      r.1 = (lifoSpec xs op).1 ∧ r.2.Lists (lifoSpec xs op).2 := by
  cases op with
  | push data =>
    cases data with
    | none => exact .ok ⟨rfl, h⟩
    | some x =>
      apply (Stack.push_spec h x).bind
      intro s' hs
      exact .ok ⟨rfl, hs⟩
  | pop =>
    apply (Stack.pop_spec h).bind
    intro r ⟨hx, hs⟩
    exact .ok ⟨congrArg _ hx, hs⟩
  | peek =>
    rw [stackStep, stackPeek, Deque.peekfront_spec h]
    exact .ok ⟨congrArg _ List.getLast?_reverse, h⟩
  | clear => exact .ok ⟨rfl, h.clear⟩
  | count => exact .ok ⟨congrArg _ (by simpa using h.count), h⟩

/-! ## Runs -/

/-- **The deque is a sequence with two ends.** A run of calls on a fresh deque whose iterations go
on only between changes returns, without an access outside the array, what it returns on a sequence.
At its end the elements of the sequence lie between `back` and `front`, in order. Every run on a
fresh stack returns what it returns on a last-in first-out list. -/
theorem deque_refines_sequence :
    (∀ (initsize : ℕ) (ops : List (DequeOp α)), Admissible Walk.spec Walk.Pre ⟨[], none⟩ ops →
      Returns (runs dequeStep (dequeInit initsize) ops) fun r =>
        r.1 = (runSpec Walk.spec ⟨[], none⟩ ops).1 ∧
          r.2.back ≤ r.2.front ∧ r.2.front ≤ r.2.nelem ∧ r.2.data.size = r.2.nelem ∧
          r.2.Lists (runSpec Walk.spec ⟨[], none⟩ ops).2.items) ∧
    ∀ (initsize : ℕ) (ops : List (StackOp α)),
      Returns (runs stackStep (stackInit initsize) ops) fun r =>
        r.1 = (runSpec lifoSpec [] ops).1 ∧ r.2.Lists (runSpec lifoSpec [] ops).2 := by
  constructor
  · intro initsize ops hops
    apply (Returns.runs_of_admissible Walk.spec Walk.Pre Deque.Refines Deque.step_refines
      (Deque.lists_init initsize).refines hops).mono
    intro r ⟨hout, href⟩
    have hle := href.items.le
    have hfront := href.items.front
    exact ⟨hout, by omega, by omega, href.items.size, href.items⟩
  · intro initsize ops
    exact Returns.runs lifoSpec Stack.Lists (fun _ => True)
      (fun s xs op _ h => stackStep_refines s xs op h) (Stack.lists_init initsize)
      (fun _ _ => trivial : ∀ op ∈ ops, True)

/-- A deque of one cell that is filled from both ends, walked over, shrunk and emptied. -/
theorem deque_refines_sequence_one :
    Returns (runs dequeStep (dequeInit 0) [.pushback (some 2), .pushfront (some 3),
      .pushback (some 1), .first true, .next true, .peekfront, .next false, .next false, .shrink 1,
      .popfront, .popback, .pushback none, .count]) fun r =>
        r.1 = [.bool true, .bool true, .bool true, .elem (some 1), .elem (some 2), .elem (some 3),
          .elem (some 1), .elem none, .bool true, .elem (some 3), .elem (some 1), .bool false,
          .size 1] :=
  (deque_refines_sequence.1 0 _ (by simp [Admissible, Walk.Pre, Walk.spec, Walk.first, Walk.move])).mono
    fun _ hr => hr.1.trans (by decide)

end LibSrsBsns
