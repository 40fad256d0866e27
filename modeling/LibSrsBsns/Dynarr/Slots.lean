import LibSrsBsns.Dynarr.Contents
import LibSrsBsns.Foundations.C.Runs

/-!
# The slots of a dynamic array

What the operations do to the single slots of a dynamic array, visible or not and written or not,
whatever their arguments. `Dynarr.Moves` and `Dynarr.Stores` say how the array after a call is
related to the one before; the invariants of runs are read off from them.
-/

namespace LibSrsBsns

open C

variable {α : Type} {d d' : Dynarr α} {i : ℕ}

namespace Dynarr

/-- A call that needs room for the index `i` ends with the fault `e`: the shift does not reach the
index, or there is no memory. -/
def NoRoom (d : Dynarr α) (i : ℕ) (mem : ℕ → Bool) (e : Fault) : Prop :=
  d.nelem ≤ i ∧ (e = .badShift ∧ 2 ^ 30 ≤ i ∨ e = .exit 1 ∧ i < 2 ^ 30 ∧ mem ≠ Buffer.ample)

/-- There is room for the index `i`, or the shift reaches it. -/
def InReach (d : Dynarr α) (i : ℕ) : Prop := i < d.nelem ∨ i < 2 ^ 30

/-- The value read at the index `i`, where `junk` is what a slot reads as that was never written. -/
def valueAt (d : Dynarr α) (junk : ℕ → Option α) (i : ℕ) : Option α := (d.data.cell i).getD (junk i)

/-- `d'` is `d` with `x` stored at the index `i`, and counted. -/
structure Stores (d : Dynarr α) (i : ℕ) (x : Option α) (d' : Dynarr α) : Prop where
  used : d'.nused = max d.nused (i + 1)
  fits : d'.Fits
  self : d'.data.cell i = some x
  cell : ∀ j < d.nused, j ≠ i → d'.data.cell j = d.data.cell j
  nulling : d'.nulling = d.nulling
  tail : d.nulling = true → d.NullTail →
    ∀ j, d.nused ≤ j → j ≠ i → j < d'.nelem → d'.data.cell j = some none

theorem Stores.nullTail {x : Option α} (h : d.Stores i x d') (hnull : d.nulling = true)
    (ht : d.NullTail) : d'.NullTail := by
  intro j hj hjn
  have hused := h.used
  exact h.tail hnull ht j (by omega) (by omega) hjn

/-- Storing in a slot that there is room for. -/
theorem Provides.stores {x : Option α} {data : Buffer (Option α)} (h : d.Provides i d')
    (hdata : d'.data.Filled i [x] data) :
    d.Stores i x { d' with data, nused := max d.nused (i + 1) } := by
  have hsize := h.fits.size
  have hle := h.fits.le
  have hlt := h.lt
  have hused := h.used
  refine ⟨rfl, ⟨hdata.size.trans hsize, ?_⟩, hdata.cell_self, fun j hj hji => ?_, h.nulling,
    fun hnull ht j hj hji hjn => ?_⟩
  · show max d.nused (i + 1) ≤ d'.nelem
    omega
  · exact (hdata.cell_of_ne hji).trans (h.cell j hj)
  · exact (hdata.cell_of_ne hji).trans (h.tail hnull ht j (by omega) hjn)

/-! ## The operations -/

theorem Fits.put_ends (h : d.Fits) (i : ℕ) (x : Option α) (mem : ℕ → Bool) :
    Ends (dynarrPut d i x mem) (fun d' => d.Stores i x d' ∧ d.InReach i) (d.NoRoom i mem) := by
  apply (provideIndex_ends h i mem).bind
  intro d₁ ⟨hprov, hreach⟩
  have hsize := hprov.fits.size
  have hlt := hprov.lt
  obtain ⟨data, hwrite, hdata⟩ := Buffer.write_spec x (show i < d₁.data.size by omega)
  rw [hwrite]
  have hused : (if i ≥ d₁.nused then i + 1 else d₁.nused) = max d.nused (i + 1) := by
    have := hprov.used
    split <;> omega
  rw [ok_bind, hused]
  exact ⟨hprov.stores hdata, hreach⟩

theorem Fits.push_ends (h : d.Fits) (x : Option α) (mem : ℕ → Bool) :
    Ends (dynarrPush d x mem)
      (fun r => r.1 = true ∧ d.Stores d.nused x r.2 ∧ d.InReach d.nused) (d.NoRoom d.nused mem) := by
  apply (provideIndex_ends h d.nused mem).bind
  intro d₁ ⟨hprov, hreach⟩
  have hsize := hprov.fits.size
  have hlt := hprov.lt
  obtain ⟨data, hwrite, hdata⟩ := Buffer.write_spec x (show d.nused < d₁.data.size by omega)
  have hused : d.nused + 1 = max d.nused (d.nused + 1) := by omega
  rw [hprov.used, hwrite, ok_bind, hused]
  exact ⟨rfl, hprov.stores hdata, hreach⟩

/-- A read that gives some value where a slot was never written. -/
theorem Fits.get_ends (h : d.Fits) (i : ℕ) (mem : ℕ → Bool) (junk : ℕ → Option α) :
    Ends (dynarrGet d i mem fun j => .ok (junk j))
      (fun r => d.Provides i r.2 ∧ d.InReach i ∧ r.1 = r.2.valueAt junk i)
      (d.NoRoom i mem) := by
  apply (provideIndex_ends h i mem).bind
  intro d₁ ⟨hprov, hreach⟩
  have hsize := hprov.fits.size
  have hlt := hprov.lt
  rw [Buffer.readOr_junk junk (by omega)]
  exact ⟨hprov, hreach, rfl⟩

theorem Fits.shrink_ends (h : d.Fits) (countfac : ℚ) (mem : ℕ → Bool) :
    Returns (dynarrShrink d countfac mem) fun r => d.Moves r.2 := by
  unfold dynarrShrink
  refine .ite (fun _ => .ok h.moves) fun hfac => ?_
  have hle : d.nused ≤ ⌊countfac * d.nused⌋₊ := by
    apply Nat.le_floor
    have hnn : (0 : ℚ) ≤ d.nused := Nat.cast_nonneg _
    nlinarith [not_lt.1 hfac]
  cases hmem : mem ⌊countfac * d.nused⌋₊ with
  | false =>
    simp only [dynarrResize, hmem, Bool.not_false, if_true]
    exact .ok h.moves
  | true => exact (resize_spec h hle hmem).mono fun r hr => hr.2.1

/-- Truncation within the block that is allocated. -/
theorem Fits.truncate_ends (h : d.Fits) (hi : i ≤ d.nelem) :
    Returns (dynarrTruncate d i) fun d' => d'.nused = i ∧ d'.Fits ∧ d'.nelem = d.nelem ∧
      (∀ j < i, d'.data.cell j = d.data.cell j) ∧ d'.nulling = d.nulling ∧
        (d.nulling = true → d'.NullTail) := by
  have hsize := h.size
  have hsub : sizeSub d.nelem i = d.nelem - i := if_pos hi
  rw [dynarrTruncate, hsub]
  cases hnull : d.nulling with
  | false =>
    refine .ok ⟨rfl, ⟨hsize, hi⟩, rfl, fun _ _ => rfl, rfl, fun h => ?_⟩
    cases h
  | true =>
    apply (nullrange_spec d.data i (d.nelem - i) (by omega)).bind
    intro data hdata
    obtain ⟨hdsize, hdcell⟩ := hdata
    refine .ok ⟨rfl, ⟨hdsize.trans hsize, hi⟩, rfl, fun j hj => ?_, rfl, fun _ j hj hjn => ?_⟩
    · show data.cell j = _
      rw [hdcell, if_neg (by omega)]
    · have hj' : i ≤ j := hj
      have hjn' : j < d.nelem := hjn
      show data.cell j = _
      rw [hdcell, if_pos (by omega)]

/-- Truncation past the block either leaves it or counts slots that there are not. -/
theorem truncate_past (d : Dynarr α) (i : ℕ) :
    Ends (dynarrTruncate d i)
      (fun d' => d'.nused = i ∧ d'.nelem = d.nelem ∧ d'.data.size = d.data.size) (· = .outOfBounds) := by
  have hnull : ∀ off num, Ends (nullrange d.data off num) (fun data => data.size = d.data.size)
      (· = .outOfBounds) := by
    intro off num
    apply Ends.forRange (fun _ (data : Buffer (Option α)) => data.size = d.data.size) _ _ rfl
    intro j data _ _ hsize
    unfold Buffer.write Buffer.store
    split
    · exact hsize
    · exact rfl
  unfold dynarrTruncate
  cases d.nulling with
  | false => exact ⟨rfl, rfl, rfl⟩
  | true =>
    apply (hnull i _).bind
    intro data hdata
    exact ⟨rfl, rfl, hdata⟩

/-- The search finds the first of the visible values that is looked for. -/
theorem Fits.find_returns (h : d.Fits) (found : Option α → Bool) (junk : ℕ → Option α) :
    Returns (d.findLoop found (fun j => .ok (junk j)) (d.nused + 1) 0) fun r =>
      (r = -1 ∧ ∀ j < d.nused, found (d.valueAt junk j) = false) ∨
        ∃ j < d.nused, r = j ∧ found (d.valueAt junk j) = true ∧
          ∀ k < j, found (d.valueAt junk k) = false := by
  have hsize := h.size
  have hle := h.le
  refine Returns.loop (fun j => j ≤ d.nused ∧ ∀ k < j, found (d.valueAt junk k) = false)
    (fun j => d.nused - j) _ (fun j ⟨hj, hI⟩ => ?_) ⟨Nat.zero_le _, by simp⟩ (by omega)
  by_cases hlt : j < d.nused
  · rw [if_pos hlt, Buffer.readOr_junk junk (by omega), ok_bind]
    cases hf : found ((d.data.cell j).getD (junk j)) with
    | true => exact .ok (.inr ⟨j, hlt, rfl, hf, hI⟩)
    | false =>
      refine .ok ⟨⟨hlt, fun k hk => ?_⟩, by omega⟩
      rcases Nat.lt_succ_iff_lt_or_eq.1 hk with hk | rfl
      · exact hI k hk
      · exact hf
  · obtain rfl : j = d.nused := by omega
    rw [if_neg hlt]
    exact .ok (.inl ⟨rfl, hI⟩)

theorem Fits.next_returns (h : d.Fits) (k : ℕ) (junk : ℕ → Option α) :
    Returns (dynarrNext { d with iter := some k } fun j => .ok (junk j)) fun r =>
      r.2 = { d with iter := some (if k < d.nused then k + 1 else k) } ∧
        r.1 = if k < d.nused then some (d.valueAt junk k) else none := by
  have hsize := h.size
  have hle := h.le
  unfold dynarrNext
  by_cases hlt : k < d.nused
  · have hread := Buffer.readOr_junk (b := d.data) junk (show k < d.data.size by omega)
    simp only [ge_iff_le, if_neg (Nat.not_le.2 hlt), hread, ok_bind, if_pos hlt]
    exact .ok ⟨rfl, rfl⟩
  · simp only [ge_iff_le, if_pos (Nat.not_lt.1 hlt), if_neg hlt]
    exact .ok ⟨rfl, rfl⟩

/-- The capacity that `provide_index` asks for is a power of two above the index. If there is memory
for it, the array has that capacity, and so the slot at the index, and all that was visible. -/
def CapacityCovers (d : Dynarr α) (i : ℕ) (mem : ℕ → Bool) : Prop :=
  ∃ k, i < 2 ^ k ∧ Ends (provideIndex d i mem) (fun d' => d.Provides i d' ∧ d'.nelem = 2 ^ k)
    fun e => e = .exit 1 ∧ mem (2 ^ k) = false

end Dynarr

/-- **The new capacity covers the index below `2 ^ 30`, and only there.** From there on, the literal
of the shift, an `int`, is not wide enough for the power of two. -/
theorem dynarr_capacity_covers_iff (h : d.Fits) (hi : d.nelem ≤ i) (mem : ℕ → Bool) :
    d.CapacityCovers i mem ↔ i < 2 ^ 30 := by
  constructor
  · rintro ⟨k, -, hends⟩
    by_contra hge
    rw [provideIndex_of_ge hi (Nat.not_lt.1 hge)] at hends
    cases hends.1
  · exact fun hlt => provideIndex_of_lt h hi hlt mem

/-- An index of six in an array without slots. -/
theorem dynarr_capacity_covers_iff_six :
    (⟨0, 0, none, .malloc 0, false⟩ : Dynarr ℕ).CapacityCovers 6 Buffer.ample ↔ 6 < 2 ^ 30 :=
  dynarr_capacity_covers_iff ⟨rfl, le_rfl⟩ (Nat.zero_le 6) Buffer.ample

/-- The index `2 ^ 30` in a fresh array. -/
theorem not_capacityCovers_of_wide : ∃ d : Dynarr ℕ, dynarrInit 1 false = .ok d ∧
    ¬ d.CapacityCovers (2 ^ 30) Buffer.ample := by
  refine ⟨_, rfl, ?_⟩
  rintro ⟨k, -, hends⟩
  rw [provideIndex_of_ge (by show 1 ≤ 2 ^ 30; decide) le_rfl] at hends
  cases hends.1

end LibSrsBsns
