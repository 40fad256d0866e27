import LibSrsBsns.Foundations.C.Exec

/-!
# Arrays in allocated memory

A `Buffer` is a block of `size` cells from `malloc`, each written or not. Every access is checked:
outside the bounds it faults, and so does reading a cell that was never written. The assertion
`b.Holds off xs` says that the cells from `off` on contain the list `xs`, and `b.Filled off xs b'`
that this is what was written to `b` to get `b'`.
-/

namespace LibSrsBsns.C

/-- The difference of two values of type `size_t`. -/
def sizeSub (a b : ℕ) : ℕ := if b ≤ a then a - b else 2 ^ 64 + a - b

/-- The remainder of two values of type `size_t`. -/
def sizeMod (a b : ℕ) : Exec ℕ := if b = 0 then .error .divByZero else .ok (a % b)

theorem sizeMod_of_pos {b : ℕ} (h : 0 < b) (a : ℕ) : sizeMod a b = .ok (a % b) :=
  if_neg (Nat.ne_of_gt h)

/-- The conversion of a value of type `size_t` to an `int` of 32 bits. -/
def sizeToInt (n : ℕ) : ℤ := Int.bmod n (2 ^ 32)

/-- The conversion keeps the numbers that an `int` can hold, and no others. -/
theorem sizeToInt_eq_iff {n : ℕ} : sizeToInt n = n ↔ n < 2 ^ 31 := by
  have hbmod : sizeToInt n = if (n : ℤ) % 4294967296 < 2147483648 then (n : ℤ) % 4294967296
      else (n : ℤ) % 4294967296 - 4294967296 := Int.bmod_def _ _
  rw [hbmod]
  split <;> omega

/-- A block of cells. A cell holds `none` until it is written. -/
structure Buffer (α : Type) where
  size : ℕ
  cell : ℕ → Option α

namespace Buffer

variable {α : Type} {b b' : Buffer α} {off n : ℕ} {x : α} {xs ys : List α}

/-- A fresh block of `n` cells. -/
def malloc (n : ℕ) : Buffer α := ⟨n, fun _ => none⟩

/-- `realloc` to `n` cells: the cells that both blocks have keep their contents. -/
def realloc (b : Buffer α) (n : ℕ) : Buffer α :=
  ⟨n, fun i => if i < b.size then b.cell i else none⟩

/-- The cell at index `i`, written or not. -/
def load (b : Buffer α) (i : ℕ) : Exec (Option α) :=
  if i < b.size then .ok (b.cell i) else .error .outOfBounds

/-- The value at index `i`. -/
def read (b : Buffer α) (i : ℕ) : Exec α := do
  match ← b.load i with
  | some x => .ok x
  | none => .error .indeterminate

/-- The value at index `i`, where the read of a cell that was never written has the outcome
`unset`. -/
def readOr (b : Buffer α) (i : ℕ) (unset : ℕ → Exec α) : Exec α := do
  match ← b.load i with
  | some x => .ok x
  | none => unset i

/-- The read of a cell that was never written, where its value is used. -/
def indeterminate : ℕ → Exec α := fun _ => .error .indeterminate

/-- Store a cell at index `i`. -/
def store (b : Buffer α) (i : ℕ) (c : Option α) : Exec (Buffer α) :=
  if i < b.size then .ok { b with cell := Function.update b.cell i c } else .error .outOfBounds

/-- Write the value `x` at index `i`. -/
def write (b : Buffer α) (i : ℕ) (x : α) : Exec (Buffer α) := b.store i (some x)

/-- `memcpy` of `n` cells from `src` at `soff` to `dst` at `doff`, in different blocks. -/
def memcpy (dst : Buffer α) (doff : ℕ) (src : Buffer α) (soff n : ℕ) : Exec (Buffer α) :=
  if doff + n ≤ dst.size ∧ soff + n ≤ src.size then
    .ok { dst with cell := fun i =>
      if doff ≤ i ∧ i < doff + n then src.cell (soff + (i - doff)) else dst.cell i }
  else .error .outOfBounds

/-- `memcpy` of the list `xs` of the caller to `b` at `off`. -/
def copyIn (b : Buffer α) (off : ℕ) (xs : List α) : Exec (Buffer α) :=
  b.memcpy off ⟨xs.length, fun i => xs[i]?⟩ 0 xs.length

/-- `memcpy` of `n` values at `off` to the caller. -/
def copyOut (b : Buffer α) : ℕ → ℕ → Exec (List α)
  | off, 0 => if off ≤ b.size then .ok [] else .error .outOfBounds
  | off, n + 1 => do
    let x ← b.read off
    let xs ← b.copyOut (off + 1) n
    .ok (x :: xs)

/-- Memory in which `malloc` succeeds for every number of cells. -/
def ample : ℕ → Bool := fun _ => true

@[simp] theorem ample_apply (n : ℕ) : ample n = true := rfl

@[simp] theorem size_malloc (n : ℕ) : (malloc n : Buffer α).size = n := rfl

/-- The cells from `off` on are inside the block and contain the list `xs`. -/
def Holds (b : Buffer α) (off : ℕ) (xs : List α) : Prop :=
  off + xs.length ≤ b.size ∧ ∀ i (h : i < xs.length), b.cell (off + i) = some xs[i]

theorem Holds.le (h : b.Holds off xs) : off + xs.length ≤ b.size := h.1

theorem Holds.cell (h : b.Holds off xs) {i : ℕ} (hi : i < xs.length) :
    b.cell (off + i) = some xs[i] := h.2 i hi

@[simp] theorem holds_nil : b.Holds off [] ↔ off ≤ b.size := by simp [Holds]

theorem holds_append :
    b.Holds off (xs ++ ys) ↔ b.Holds off xs ∧ b.Holds (off + xs.length) ys := by
  simp only [Holds, List.length_append]
  constructor
  · rintro ⟨hle, h⟩
    refine ⟨⟨by omega, fun i hi => ?_⟩, by omega, fun i hi => ?_⟩
    · rw [h i (by omega), List.getElem_append_left hi]
    · rw [Nat.add_assoc, h (xs.length + i) (by omega), List.getElem_append_right (by omega)]
      simp
  · rintro ⟨⟨-, hx⟩, hle, hy⟩
    refine ⟨by omega, fun i hi => ?_⟩
    rcases Nat.lt_or_ge i xs.length with hlt | hge
    · rw [hx i hlt, List.getElem_append_left hlt]
    · have := hy (i - xs.length) (by omega)
      rw [show off + xs.length + (i - xs.length) = off + i by omega] at this
      rw [this, List.getElem_append_right hge]

theorem holds_singleton : b.Holds off [x] ↔ off < b.size ∧ b.cell off = some x := by
  constructor
  · intro h
    exact ⟨h.le, h.cell (i := 0) (by simp)⟩
  · rintro ⟨hlt, hc⟩
    refine ⟨hlt, fun i hi => ?_⟩
    obtain rfl : i = 0 := by simpa using hi
    exact hc

theorem holds_cons : b.Holds off (x :: xs) ↔
    (off < b.size ∧ b.cell off = some x) ∧ b.Holds (off + 1) xs := by
  rw [← List.singleton_append, holds_append, holds_singleton]
  rfl

/-- Blocks of the same size whose cells agree on a range hold the same list there. -/
theorem Holds.congr (h : b.Holds off xs) (hs : b'.size = b.size)
    (hc : ∀ i, off ≤ i → i < off + xs.length → b'.cell i = b.cell i) : b'.Holds off xs :=
  ⟨hs ▸ h.1, fun i hi => (hc _ (by omega) (by omega)).trans (h.2 i hi)⟩

/-- The first `n` values of a range, and those after them. -/
theorem Holds.split (h : b.Holds off xs) (n : ℕ) (hn : n ≤ xs.length) :
    b.Holds off (xs.take n) ∧ b.Holds (off + n) (xs.drop n) := by
  rw [← List.take_append_drop n xs, holds_append] at h
  simpa [hn] using h

theorem Holds.read (h : b.Holds off xs) {i : ℕ} (hi : i < xs.length) :
    b.read (off + i) = .ok xs[i] := by
  have := h.le
  simp [Buffer.read, load, h.cell hi, show off + i < b.size by omega]

theorem Holds.copyOut (h : b.Holds off xs) : b.copyOut off xs.length = .ok xs := by
  induction xs generalizing off with
  | nil => simpa [Buffer.copyOut] using h
  | cons x xs ih =>
    have hx : b.read off = .ok x := h.read (i := 0) (by simp)
    rw [List.length_cons, Buffer.copyOut, hx, ok_bind, ih (holds_cons.1 h).2]
    rfl

/-- The first `n` values of a range are copied out. -/
theorem Holds.copyOut_take (h : b.Holds off xs) (hn : n ≤ xs.length) :
    b.copyOut off n = .ok (xs.take n) := by
  have hout := (h.split n hn).1.copyOut
  rwa [List.length_take_of_le hn] at hout

theorem read_of_cell (hi : off < b.size) (hc : b.cell off = some x) : b.read off = .ok x := by
  simpa using (holds_singleton.2 ⟨hi, hc⟩).read (i := 0) (by simp)

theorem readOr_of_cell (unset : ℕ → Exec α) (hi : off < b.size) (hc : b.cell off = some x) :
    b.readOr off unset = .ok x := by
  rw [readOr, load, if_pos hi, ok_bind, hc]

/-- A read that gives some value where the cell was never written. -/
theorem readOr_junk (junk : ℕ → α) (hi : off < b.size) :
    b.readOr off (fun j => .ok (junk j)) = .ok ((b.cell off).getD (junk off)) := by
  rw [readOr, load, if_pos hi, ok_bind]
  cases b.cell off <;> rfl

theorem store_of_lt (c : Option α) (h : off < b.size) :
    b.store off c = .ok { b with cell := Function.update b.cell off c } := by
  rw [store, if_pos h]

theorem write_of_lt (x : α) (h : off < b.size) :
    b.write off x = .ok { b with cell := Function.update b.cell off (some x) } :=
  store_of_lt _ h

theorem Holds.realloc (h : b.Holds off xs) (hn : off + xs.length ≤ n) :
    (b.realloc n).Holds off xs :=
  ⟨hn, fun i hi => by simp [Buffer.realloc, h.cell hi, show off + i < b.size by have := h.le; omega]⟩

/-- Writing to a range that holds a list. -/
theorem Holds.write (h : b.Holds off xs) {i : ℕ} (hi : i < xs.length) (x : α) :
    Returns (b.write (off + i) x) fun b' => b'.size = b.size ∧ b'.Holds off (xs.set i x) := by
  have hle := h.le
  rw [write_of_lt x (by omega)]
  refine .ok ⟨rfl, by simpa using hle, fun j hj => ?_⟩
  rw [List.length_set] at hj
  by_cases hij : i = j
  · simp [hij]
  · rw [List.getElem_set_ne hij, ← h.cell hj]
    exact Function.update_of_ne (by omega) _ _

/-- The block `b'` is `b` with the list `xs` written at `off`, and nothing else changed. -/
structure Filled (b : Buffer α) (off : ℕ) (xs : List α) (b' : Buffer α) : Prop where
  size : b'.size = b.size
  holds : b'.Holds off xs
  frame : ∀ i, i < off ∨ off + xs.length ≤ i → b'.cell i = b.cell i

theorem filled_nil (h : off ≤ b.size) : b.Filled off [] b := ⟨rfl, holds_nil.2 h, fun _ _ => rfl⟩

theorem Filled.cell_self (h : b.Filled off [x] b') : b'.cell off = some x :=
  (holds_singleton.1 h.holds).2

theorem Filled.cell_of_ne {i : ℕ} (h : b.Filled off [x] b') (hi : i ≠ off) :
    b'.cell i = b.cell i :=
  h.frame i (by rw [List.length_singleton]; omega)

/-- What lies before the list that is written stays. -/
theorem Filled.holds_before {i : ℕ} (h : b.Filled off xs b') (hold : b.Holds i ys)
    (hi : i + ys.length ≤ off) : b'.Holds i ys :=
  hold.congr h.size fun _ _ hj => h.frame _ (.inl (by omega))

/-- What lies behind the list that is written stays. -/
theorem Filled.holds_behind {i : ℕ} (h : b.Filled off xs b') (hold : b.Holds i ys)
    (hi : off + xs.length ≤ i) : b'.Holds i ys :=
  hold.congr h.size fun _ hj _ => h.frame _ (.inr (by omega))

/-- What is written behind a list extends it. -/
theorem Holds.extend (hold : b.Holds off xs) (h : b.Filled (off + xs.length) ys b') :
    b'.Holds off (xs ++ ys) :=
  holds_append.2 ⟨h.holds_before hold le_rfl, h.holds⟩

/-- One list is written behind the other. -/
theorem Filled.append {b₁ b₂ : Buffer α} (h₁ : b.Filled off xs b₁)
    (h₂ : b₁.Filled (off + xs.length) ys b₂) : b.Filled off (xs ++ ys) b₂ := by
  constructor
  case size => exact h₂.size.trans h₁.size
  case holds => exact h₁.holds.extend h₂
  case frame =>
    intro i hi
    rw [List.length_append] at hi
    rw [h₂.frame i (by omega), h₁.frame i (by omega)]

theorem write_spec (x : α) (h : off < b.size) : Returns (b.write off x) (b.Filled off [x]) := by
  rw [write_of_lt x h]
  refine .ok ⟨rfl, holds_singleton.2 ⟨h, by simp⟩, fun i hi => ?_⟩
  rw [List.length_singleton] at hi
  exact Function.update_of_ne (by omega) _ _

theorem memcpy_spec {src : Buffer α} {soff : ℕ} (hs : src.Holds soff xs)
    (hd : off + xs.length ≤ b.size) :
    Returns (b.memcpy off src soff xs.length) (b.Filled off xs) := by
  rw [memcpy, if_pos ⟨hd, hs.le⟩]
  refine .ok ⟨rfl, ⟨hd, fun i hi => ?_⟩, fun i hi => ?_⟩
  · simpa [hi] using hs.cell hi
  · exact if_neg (by omega)

theorem copyIn_spec (hd : off + xs.length ≤ b.size) :
    Returns (b.copyIn off xs) (b.Filled off xs) :=
  memcpy_spec ⟨by simp, fun i hi => by simp [hi]⟩ hd

end Buffer

end LibSrsBsns.C
