import LibSrsBsns.Foundations.C.Buffer
import Mathlib.Algebra.Order.Floor.Semiring
import Mathlib.Data.Rat.Floor

/-!
# The dynamic array

The model of `dynarr.c`. An element is a pointer, `none` if it is null. The argument `mem` of a
function that allocates says which numbers of cells `malloc` can provide, and `unset`, of a function
that reads an element, what the read of a cell gives that was never written: some value, or the fault
`Buffer.indeterminate` where the value is used. `dynarr_init` leaves `iter` unset.
-/

namespace LibSrsBsns

open C

variable {α : Type}

/-- `struct dynarr`. -/
structure Dynarr (α : Type) where
  nelem : ℕ
  nused : ℕ
  iter : Option ℕ
  data : Buffer (Option α)
  nulling : Bool

def nullrange (data : Buffer (Option α)) (off num : ℕ) : Exec (Buffer (Option α)) :=
  forRange (fun i data => data.write (i + off) none) 0 num data

def dynarrInit (initsize : ℕ) (nulling : Bool) : Exec (Dynarr α) := do
  let data := .malloc initsize
  let data ← if nulling then nullrange data 0 initsize else .ok data
  .ok ⟨initsize, initsize, none, data, nulling⟩

def dynarrClear (d : Dynarr α) : Dynarr α := { d with nused := 0 }

def dynarrTruncate (d : Dynarr α) (fromindex : ℕ) : Exec (Dynarr α) := do
  let data ←
    if d.nulling then nullrange d.data fromindex (sizeSub d.nelem fromindex) else .ok d.data
  .ok { d with data, nused := fromindex }

def dynarrCount (d : Dynarr α) : ℕ := d.nused

def dynarrResize (d : Dynarr α) (newsz : ℕ) (mem : ℕ → Bool) : Exec (Bool × Dynarr α) :=
  if !mem newsz then .ok (false, d)
  else do
    let min := if newsz < d.nused then newsz else d.nused
    let newloc ← (Buffer.malloc newsz).memcpy 0 d.data 0 min
    let newloc ← if d.nulling then nullrange newloc min (newsz - min) else .ok newloc
    .ok (true, { d with data := newloc, nelem := newsz, nused := min })

/-- `1 << k`, where the literal is an `int` of 32 bits. -/
def shiftOne (k : ℕ) : Exec ℕ := if k < 31 then .ok (2 ^ k) else .error .badShift

/-- `provide_index`; it leaves the process with `EXIT_FAILURE` if there is no memory. -/
def provideIndex (d : Dynarr α) (index : ℕ) (mem : ℕ → Bool) : Exec (Dynarr α) :=
  if index ≥ d.nelem then do
    let nsz ← shiftOne (if index = 0 then 0 else Nat.log2 index + 1)
    let (ok, d) ← dynarrResize d nsz mem
    if !ok then .error (.exit 1) else .ok d
  else .ok d

def dynarrPush (d : Dynarr α) (data : Option α) (mem : ℕ → Bool) : Exec (Bool × Dynarr α) := do
  let d ← provideIndex d d.nused mem
  let buf ← d.data.write d.nused data
  .ok (true, { d with data := buf, nused := d.nused + 1 })

def dynarrGet (d : Dynarr α) (index : ℕ) (mem : ℕ → Bool) (unset : ℕ → Exec (Option α)) :
    Exec (Option α × Dynarr α) := do
  let d ← provideIndex d index mem
  let x ← d.data.readOr index unset
  .ok (x, d)

def dynarrPut (d : Dynarr α) (index : ℕ) (elem : Option α) (mem : ℕ → Bool) :
    Exec (Dynarr α) := do
  let d ← provideIndex d index mem
  let data ← d.data.write index elem
  .ok { d with data, nused := if index ≥ d.nused then index + 1 else d.nused }

def dynarrShrink (d : Dynarr α) (countfac : ℚ) (mem : ℕ → Bool) : Exec (Bool × Dynarr α) :=
  if countfac < 1 then .ok (false, d) else dynarrResize d ⌊countfac * d.nused⌋₊ mem

/-- `dynarr_next`: the element that it stores for its caller, unless it returns `false`. -/
def dynarrNext (d : Dynarr α) (unset : ℕ → Exec (Option α)) :
    Exec (Option (Option α) × Dynarr α) :=
  match d.iter with
  | none => .error .indeterminate
  | some iter =>
    if iter ≥ d.nused then .ok (none, d)
    else do
      let x ← d.data.readOr iter unset
      .ok (some x, { d with iter := some (iter + 1) })

def dynarrFirst (d : Dynarr α) (unset : ℕ → Exec (Option α)) :
    Exec (Option (Option α) × Dynarr α) :=
  dynarrNext { d with iter := some 0 } unset

/-- The loop of the functions that look for an element. -/
def Dynarr.findLoop (d : Dynarr α) (found : Option α → Bool) (unset : ℕ → Exec (Option α)) :
    ℕ → ℕ → Exec ℤ :=
  loop fun i =>
    if i < d.nused then do
      let x ← d.data.readOr i unset
      if found x then .ok (.inr i) else .ok (.inl (i + 1))
    else .ok (.inr (-1))

def dynarrFindraw [DecidableEq α] (d : Dynarr α) (data : Option α) (unset : ℕ → Exec (Option α)) :
    Exec ℤ :=
  d.findLoop (fun x => x = data) unset (d.nused + 1) 0

def dynarrFindfn (d : Dynarr α) (ffn : Option α → Bool) (unset : ℕ → Exec (Option α)) : Exec ℤ :=
  d.findLoop ffn unset (d.nused + 1) 0

def dynarrFindeqfn (d : Dynarr α) (efn : Option α → Option α → Bool) (needle : Option α)
    (unset : ℕ → Exec (Option α)) : Exec ℤ :=
  d.findLoop (efn · needle) unset (d.nused + 1) 0

end LibSrsBsns
