import LibSrsBsns.Foundations.C.Buffer
import Mathlib.Algebra.Order.Floor.Semiring
import Mathlib.Data.Rat.Floor

/-!
# The deque and the stack

The model of `deque.c` and of `stack.c`. The factors that the source computes in `double` are exact
rationals. The argument `mem` of a function that allocates says which numbers of cells `malloc` can
provide. `deque_init` leaves `iter` unset, and a caller's null pointer is the absence of a value.
-/

namespace LibSrsBsns

open C

variable {α : Type}

/-- `struct deque`. -/
structure Deque (α : Type) where
  nelem : ℕ
  data : Buffer α
  back : ℕ
  front : ℕ
  iter : Option ℕ
  pfcnt : ℕ
  pbcnt : ℕ

def dequeInit (initsize : ℕ) : Deque α :=
  let initsize := if initsize = 0 then 1 else initsize
  ⟨initsize, .malloc initsize, initsize / 2, initsize / 2, none, 0, 0⟩

def dequeClear (d : Deque α) : Deque α := { d with back := d.nelem / 2, front := d.nelem / 2 }

def dequeCount (d : Deque α) : ℕ := d.front - d.back

/-- The local `bias` of `deque_resize`. -/
def Deque.bias (d : Deque α) : ℚ :=
  let bias := 2 * ((d.pfcnt : ℚ) - d.pbcnt) / d.nelem
  if bias > 9 / 10 then 9 / 10 else if bias < -(9 / 10) then -(9 / 10) else bias

/-- The local `newback` of `deque_resize`: the conversion to `size_t` drops the fraction. -/
def Deque.newback (d : Deque α) (newsz : ℕ) : ℕ :=
  let newback := (newsz - dequeCount d) / 2
  ⌊(newback : ℚ) + d.bias * newback⌋₊

def dequeResize (d : Deque α) (newsz : ℕ) (mem : ℕ → Bool) : Exec (Bool × Deque α) :=
  let newsz := if newsz = 0 then 1 else newsz
  let count := dequeCount d
  if newsz < count then .ok (false, d)
  else if !mem newsz then .ok (false, d)
  else do
    let newback := d.newback newsz
    let newloc ← (Buffer.malloc newsz).memcpy newback d.data d.back count
    .ok (true, { d with data := newloc, back := newback, front := newback + count, nelem := newsz })

/-- The growth loop of `deque_pushfront`, up to its condition or a `deque_resize` that fails. -/
def Deque.growFront (mem : ℕ → Bool) : ℕ → Deque α → Exec (Bool × Deque α) :=
  loop fun d =>
    if d.front ≥ d.nelem then do
      let (ok, d) ← dequeResize d (d.nelem * 2) mem
      if !ok then .ok (.inr (false, d)) else .ok (.inl d)
    else .ok (.inr (true, d))

/-- The growth loop of `deque_pushback`. -/
def Deque.growBack (mem : ℕ → Bool) : ℕ → Deque α → Exec (Bool × Deque α) :=
  loop fun d =>
    if d.back = 0 then do
      let (ok, d) ← dequeResize d (d.nelem * 2) mem
      if !ok then .ok (.inr (false, d)) else .ok (.inl d)
    else .ok (.inr (true, d))

/-- A bound for the number of turns of the growth loops. -/
def Deque.turns (d : Deque α) : ℕ := dequeCount d + 22

def dequePushfront (d : Deque α) (data : Option α) (mem : ℕ → Bool) : Exec (Bool × Deque α) :=
  match data with
  | none => .ok (false, d)
  | some x => do
    let (ok, d) ← Deque.growFront mem d.turns d
    if !ok then .ok (false, d)
    else do
      let data ← d.data.write d.front x
      .ok (true, { d with data, front := d.front + 1, pfcnt := d.pfcnt + 1 })

def dequePushback (d : Deque α) (data : Option α) (mem : ℕ → Bool) : Exec (Bool × Deque α) :=
  match data with
  | none => .ok (false, d)
  | some x => do
    let (ok, d) ← Deque.growBack mem d.turns d
    if !ok then .ok (false, d)
    else do
      let data ← d.data.write (d.back - 1) x
      .ok (true, { d with data, back := d.back - 1, pbcnt := d.pbcnt + 1 })

def dequeShrink (d : Deque α) (countfac : ℚ) (mem : ℕ → Bool) : Exec (Bool × Deque α) :=
  if countfac < 1 then .ok (false, d) else dequeResize d ⌊countfac * dequeCount d⌋₊ mem

def dequePopfront (d : Deque α) : Exec (Option α × Deque α) :=
  if d.back = d.front then .ok (none, d)
  else do
    let d := { d with front := d.front - 1 }
    let ret ← d.data.read d.front
    .ok (some ret, if d.front = d.back then dequeClear d else d)

def dequePopback (d : Deque α) : Exec (Option α × Deque α) :=
  if d.back = d.front then .ok (none, d)
  else do
    let ret ← d.data.read d.back
    let d := { d with back := d.back + 1 }
    .ok (some ret, if d.front = d.back then dequeClear d else d)

def dequePeekfront (d : Deque α) : Exec (Option α) :=
  if d.front = d.back then .ok none else some <$> d.data.read (d.front - 1)

def dequePeekback (d : Deque α) : Exec (Option α) :=
  if d.front = d.back then .ok none else some <$> d.data.read d.back

def dequeFirst (d : Deque α) (back : Bool) : Exec (Option α × Deque α) :=
  if d.front = d.back then .ok (none, d)
  else do
    let iter := if back then d.back else d.front - 1
    let x ← d.data.read iter
    .ok (some x, { d with iter := some iter })

def dequeNext (d : Deque α) (forwards : Bool) : Exec (Option α × Deque α) :=
  match d.iter with
  | none => .error .indeterminate
  | some iter =>
    if !forwards ∧ iter ≤ d.back ∨ forwards ∧ iter + 1 ≥ d.front then .ok (none, d)
    else do
      let iter := if forwards then iter + 1 else iter - 1
      let x ← d.data.read iter
      .ok (some x, { d with iter := some iter })

/-! ## The stack -/

/-- `struct stack`. -/
structure Stack (α : Type) where
  data : Deque α

def stackInit (initsize : ℕ) : Stack α := ⟨dequeInit initsize⟩

def stackClear (s : Stack α) : Stack α := ⟨dequeClear s.data⟩

def stackCount (s : Stack α) : ℕ := dequeCount s.data

def stackPush (s : Stack α) (data : Option α) (mem : ℕ → Bool) : Exec (Stack α) := do
  let (_, d) ← dequePushfront s.data data mem
  .ok ⟨d⟩

def stackPop (s : Stack α) : Exec (Option α × Stack α) := do
  let (ret, d) ← dequePopfront s.data
  .ok (ret, ⟨d⟩)

def stackPeek (s : Stack α) : Exec (Option α) := dequePeekfront s.data

end LibSrsBsns
