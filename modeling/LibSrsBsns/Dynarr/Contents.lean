import LibSrsBsns.Dynarr.Model
import Mathlib.Data.List.Perm.Basic

/-!
# The contents of a dynamic array

The visible elements of a dynamic array are the cells below `nused`, and `Dynarr.Lists d xs` says
that they are the list `xs`. Room for an index is made by growth to the next power of two
(`provideIndex_spec`), which the shift of an `int` cannot express from the index `2 ^ 30` on.
-/

namespace LibSrsBsns

open C

variable {α : Type} {d : Dynarr α} {xs : List (Option α)} {x : Option α} {i : ℕ}

namespace Dynarr

/-- The visible elements. -/
def toList (d : Dynarr α) : List (Option α) := (List.range d.nused).filterMap d.data.cell

/-- The visible elements are `xs`. -/
structure Lists (d : Dynarr α) (xs : List (Option α)) : Prop where
  used : d.nused = xs.length
  size : d.data.size = d.nelem
  holds : d.data.Holds 0 xs

theorem Lists.le (h : d.Lists xs) : xs.length ≤ d.nelem := by
  have := h.holds.le
  have := h.size
  omega

theorem Lists.cell (h : d.Lists xs) (hi : i < xs.length) : d.data.cell i = some xs[i] := by
  simpa using h.holds.cell hi

theorem Lists.readOr (h : d.Lists xs) (unset : ℕ → Exec (Option α)) (hi : i < xs.length) :
    d.data.readOr i unset = .ok xs[i] := by
  have hle := h.le
  have hsize := h.size
  exact Buffer.readOr_of_cell unset (by omega) (h.cell hi)

theorem Lists.toList_eq (h : d.Lists xs) : d.toList = xs := by
  have hcells : ∀ i ∈ List.range xs.length, d.data.cell i = some (xs[i]?.getD none) := by
    intro i hi
    rw [List.mem_range] at hi
    rw [h.cell hi, List.getElem?_eq_getElem hi]
    rfl
  rw [toList, h.used, List.filterMap_congr hcells, List.filterMap_eq_map']
  apply List.ext_getElem
  · simp
  · intro i hi hi'
    simp [hi']

end Dynarr

/-! ## Growth -/

theorem nullrange_spec (data : Buffer (Option α)) (off num : ℕ) (h : off + num ≤ data.size) :
    Returns (nullrange data off num) fun data' => data'.size = data.size ∧
      ∀ i, data'.cell i = if off ≤ i ∧ i < off + num then some none else data.cell i := by
  unfold nullrange
  apply (Returns.forRange (fun k (data' : Buffer (Option α)) => data'.size = data.size ∧
    ∀ i, data'.cell i = if off ≤ i ∧ i < off + k then some none else data.cell i) ?_
    ⟨rfl, fun i => by rw [if_neg (by omega)]⟩).mono
  · intro data' hdata
    simpa using hdata
  · intro k data' _ hk ⟨hsize, hcell⟩
    apply (Buffer.write_spec none (by omega)).mono
    intro data'' hb
    refine ⟨hb.size.trans hsize, fun i => ?_⟩
    by_cases hi : i = k + off
    · rw [hi, hb.cell_self, if_pos (by omega)]
    · rw [hb.cell_of_ne hi, hcell]
      congr 1
      ext
      omega

/-- The count is within the block that is allocated. -/
structure Dynarr.Fits (d : Dynarr α) : Prop where
  size : d.data.size = d.nelem
  le : d.nused ≤ d.nelem

/-- The cells that are allocated and not visible hold null. -/
def Dynarr.NullTail (d : Dynarr α) : Prop :=
  ∀ i, d.nused ≤ i → i < d.nelem → d.data.cell i = some none

/-- `d'` is `d`, moved to another block or not: the visible elements are the same. -/
structure Dynarr.Moves (d d' : Dynarr α) : Prop where
  used : d'.nused = d.nused
  fits : d'.Fits
  cell : ∀ j < d.nused, d'.data.cell j = d.data.cell j
  nulling : d'.nulling = d.nulling
  tail : d.nulling = true → d.NullTail → d'.NullTail

theorem Dynarr.Fits.moves (h : d.Fits) : d.Moves d :=
  ⟨rfl, h, fun _ _ => rfl, rfl, fun _ => id⟩

/-- `d'` is `d` with room for the index `i`. -/
structure Dynarr.Provides (d : Dynarr α) (i : ℕ) (d' : Dynarr α) : Prop extends d.Moves d' where
  lt : i < d'.nelem

/-- The visible elements are moved to a block that has room for them. -/
theorem resize_spec (h : d.Fits) {n : ℕ} (hn : d.nused ≤ n) {mem : ℕ → Bool} (hmem : mem n = true) :
    Returns (dynarrResize d n mem) fun r => r.1 = true ∧ d.Moves r.2 ∧ r.2.nelem = n := by
  have hmin : (if n < d.nused then n else d.nused) = d.nused := if_neg (by omega)
  have hle := h.le
  have hsize := h.size
  simp only [dynarrResize, hmem, Bool.not_true, Bool.false_eq_true, if_false, hmin]
  rw [Buffer.memcpy, if_pos ⟨by simpa using hn, by omega⟩, ok_bind]
  cases hnull : d.nulling with
  | false =>
    refine .ok ⟨rfl, ⟨rfl, ⟨rfl, hn⟩, fun j hj => ?_, hnull.symm, ?_⟩, rfl⟩
    · simp [hj]
    · intro hnull'
      rw [hnull] at hnull'
      cases hnull'
  | true =>
    apply (nullrange_spec _ d.nused (n - d.nused) (by simp [hn])).bind
    intro newloc hnewloc
    obtain ⟨hnewsize, hnewcell⟩ := hnewloc
    refine .ok ⟨rfl, ⟨rfl, ⟨hnewsize, hn⟩, fun j hj => ?_, hnull.symm, fun _ _ j hj hjn => ?_⟩, rfl⟩
    · show newloc.cell j = _
      rw [hnewcell, if_neg (by omega)]
      simp [hj]
    · have hj' : d.nused ≤ j := hj
      have hjn' : j < n := hjn
      show newloc.cell j = _
      rw [hnewcell, if_pos (by omega)]

/-- The power of two that `provide_index` computes is above the index. -/
theorem lt_two_pow_shift (i : ℕ) : i < 2 ^ (if i = 0 then 0 else Nat.log2 i + 1) := by
  split
  case isTrue h => simp [h]
  case isFalse => exact Nat.lt_log2_self

/-- The literal of the shift is wide enough for the indices below `2 ^ 30`. -/
theorem shift_lt_iff (i : ℕ) : (if i = 0 then 0 else Nat.log2 i + 1) < 31 ↔ i < 2 ^ 30 := by
  split
  case isTrue h => simp [h]
  case isFalse h => rw [← Nat.log2_lt h, Nat.succ_lt_succ_iff]

/-- Where the shift reaches the index, `provide_index` asks for a power of two above it. -/
theorem provideIndex_of_lt (h : d.Fits) {i : ℕ} (hge : d.nelem ≤ i) (hi : i < 2 ^ 30)
    (mem : ℕ → Bool) : ∃ k, i < 2 ^ k ∧
      Ends (provideIndex d i mem) (fun d' => d.Provides i d' ∧ d'.nelem = 2 ^ k)
        fun e => e = .exit 1 ∧ mem (2 ^ k) = false := by
  have hle := h.le
  have hlog := lt_two_pow_shift i
  refine ⟨_, hlog, ?_⟩
  rw [provideIndex, if_pos hge, shiftOne, if_pos ((shift_lt_iff i).2 hi), ok_bind]
  generalize (if i = 0 then 0 else Nat.log2 i + 1) = k at hlog ⊢
  cases hmem : mem (2 ^ k) with
  | true =>
    obtain ⟨⟨ok, d'⟩, hres, rfl, hd', hnelem⟩ := resize_spec h (by omega) hmem
    rw [hres]
    exact ⟨⟨hd', hnelem ▸ hlog⟩, hnelem⟩
  | false =>
    have hres : dynarrResize d (2 ^ k) mem = .ok (false, d) := by simp [dynarrResize, hmem]
    rw [hres]
    exact ⟨rfl, rfl⟩

/-- Where it does not reach the index, the shift is not defined. -/
theorem provideIndex_of_ge {i : ℕ} (hge : d.nelem ≤ i) (hi : 2 ^ 30 ≤ i) (mem : ℕ → Bool) :
    provideIndex d i mem = .error .badShift := by
  rw [provideIndex, if_pos hge, shiftOne, if_neg (by rw [shift_lt_iff]; omega), error_bind]

/-- `provide_index` makes room for the index, unless there is no memory for it or the shift cannot
express how much is needed. -/
theorem provideIndex_ends (h : d.Fits) (i : ℕ) (mem : ℕ → Bool) :
    Ends (provideIndex d i mem) (fun d' => d.Provides i d' ∧ (i < d.nelem ∨ i < 2 ^ 30)) fun e =>
      d.nelem ≤ i ∧ (e = .badShift ∧ 2 ^ 30 ≤ i ∨ e = .exit 1 ∧ i < 2 ^ 30 ∧ mem ≠ Buffer.ample) := by
  rcases Nat.lt_or_ge i d.nelem with hlt | hge
  · rw [provideIndex, if_neg (by omega)]
    exact ⟨⟨h.moves, hlt⟩, .inl hlt⟩
  · rcases Nat.lt_or_ge i (2 ^ 30) with hi | hi
    · obtain ⟨k, -, hends⟩ := provideIndex_of_lt h hge hi mem
      apply (hends.mono fun d' hd' => ⟨hd'.1, .inr hi⟩).fault_mono
      rintro e ⟨rfl, hmem⟩
      refine ⟨hge, .inr ⟨rfl, hi, ?_⟩⟩
      rintro rfl
      cases hmem
    · rw [provideIndex_of_ge hge hi]
      exact ⟨hge, .inl ⟨rfl, hi⟩⟩

/-- `provide_index` where there is memory. -/
theorem provideIndex_spec (h : d.Fits) (i : ℕ) :
    Ends (provideIndex d i Buffer.ample) (d.Provides i) fun e => e = .badShift ∧ 2 ^ 30 ≤ i := by
  apply ((provideIndex_ends h i Buffer.ample).mono fun _ hd => hd.1).fault_mono
  rintro e ⟨-, he | ⟨-, -, hne⟩⟩
  · exact he
  · exact absurd rfl hne

/-! ## Operations -/

namespace Dynarr

theorem Lists.fits (h : d.Lists xs) : d.Fits := ⟨h.size, h.used ▸ h.le⟩

theorem Lists.provides {d' : Dynarr α} (h : d.Lists xs) (hd : d.Provides i d') : d'.Lists xs := by
  refine ⟨hd.used.trans h.used, hd.fits.size, ?_, fun j hj => ?_⟩
  · rw [Nat.zero_add, ← h.used, hd.fits.size, ← hd.used]
    exact hd.fits.le
  · rw [Nat.zero_add, hd.cell j (h.used ▸ hj), h.cell hj]

/-- An array that has the index is left as it is. -/
theorem Lists.provideIndex (h : d.Lists xs) (hi : i < xs.length) (mem : ℕ → Bool) :
    provideIndex d i mem = .ok d := by
  have := h.le
  rw [LibSrsBsns.provideIndex, if_neg (by omega)]

/-- An array that its user asked to be filled with null pointers starts with these. -/
theorem init_spec (n : ℕ) :
    Returns (dynarrInit n true) fun d : Dynarr α => d.Lists (List.replicate n none) := by
  apply (nullrange_spec (Buffer.malloc n : Buffer (Option α)) 0 n (by simp)).bind
  intro data hdata
  refine .ok ⟨by simp, hdata.1, ?_, fun i hi => ?_⟩
  · simp [hdata.1]
  · rw [hdata.2, List.getElem_replicate, if_pos (by simpa using hi)]

theorem get_spec (h : d.Lists xs) (hi : i < xs.length) (mem : ℕ → Bool)
    (unset : ℕ → Exec (Option α)) : dynarrGet d i mem unset = .ok (xs[i], d) := by
  rw [dynarrGet, h.provideIndex hi, ok_bind, h.readOr unset hi]
  rfl

theorem put_spec (h : d.Lists xs) (hi : i < xs.length) (x : Option α) (mem : ℕ → Bool) :
    Returns (dynarrPut d i x mem) (·.Lists (xs.set i x)) := by
  have hwrite := h.holds.write hi x
  rw [Nat.zero_add] at hwrite
  rw [dynarrPut, h.provideIndex hi, ok_bind]
  apply hwrite.bind
  intro data hdata
  refine .ok ⟨?_, hdata.1.trans h.size, hdata.2⟩
  rw [if_neg (by rw [h.used]; omega), List.length_set, h.used]

/-- `dynarr_push` appends, unless the shift cannot express the growth. -/
theorem push_spec (h : d.Lists xs) (x : Option α) :
    Ends (dynarrPush d x Buffer.ample) (fun r => r.1 = true ∧ r.2.Lists (xs ++ [x]))
      fun e => e = .badShift ∧ 2 ^ 30 ≤ xs.length := by
  rw [← h.used]
  apply (provideIndex_spec h.fits d.nused).bind
  intro d' hd
  have h' := h.provides hd
  have hlt := hd.lt
  have hsize := hd.fits.size
  have hused := hd.used
  obtain ⟨data, hwrite, hdata⟩ := Buffer.write_spec x (show d'.nused < d'.data.size by omega)
  rw [hwrite]
  have hend : d'.nused = 0 + xs.length := by rw [Nat.zero_add, h'.used]
  exact ⟨rfl, by simp [h'.used], hdata.size.trans hsize, h'.holds.extend (hend ▸ hdata)⟩

/-- Truncation within the elements leaves the first of them. -/
theorem truncate_spec (h : d.Lists xs) (hi : i ≤ xs.length) :
    Returns (dynarrTruncate d i) (·.Lists (xs.take i)) := by
  have hle := h.le
  have hsize := h.size
  have hlen := List.length_take_of_le hi
  obtain ⟨hold, -⟩ := h.holds.split i hi
  have hsub : sizeSub d.nelem i = d.nelem - i := if_pos (by omega)
  rw [dynarrTruncate, hsub]
  cases d.nulling with
  | false => exact .ok ⟨hlen.symm, hsize, hold⟩
  | true =>
    apply (nullrange_spec d.data i (d.nelem - i) (by omega)).bind
    intro data hdata
    refine .ok ⟨hlen.symm, hdata.1.trans hsize, hold.congr hdata.1 fun j _ hj => ?_⟩
    rw [hdata.2, if_neg (by omega)]

/-- `dynarr_next` stores the element under the cursor, if there is one, and goes to the next. -/
theorem next_spec (h : d.Lists xs) (i : ℕ) (unset : ℕ → Exec (Option α)) :
    ∃ k, dynarrNext { d with iter := some i } unset = .ok (xs[i]?, { d with iter := some k }) ∧
      (i < xs.length → k = i + 1) := by
  simp only [dynarrNext, h.used]
  by_cases hi : i < xs.length
  · refine ⟨i + 1, ?_, fun _ => rfl⟩
    rw [if_neg (Nat.not_le.2 hi), h.readOr unset hi, List.getElem?_eq_getElem hi]
    rfl
  · refine ⟨i, ?_, fun hlt => absurd hlt hi⟩
    rw [if_pos (Nat.not_lt.1 hi), List.getElem?_eq_none (Nat.not_lt.1 hi)]

/-- The search finds the first element that is looked for. -/
theorem findLoop_spec (h : d.Lists xs) (found : Option α → Bool) (unset : ℕ → Exec (Option α))
    {k : ℕ} (hk : xs.length < k) : Returns (d.findLoop found unset k 0) fun r =>
      (r = -1 ∧ ∀ x ∈ xs, found x = false) ∨
        ∃ (i : ℕ) (hi : i < xs.length), r = i ∧ found xs[i] = true := by
  refine Returns.loop (fun i => i ≤ xs.length ∧ ∀ x ∈ xs.take i, found x = false)
    (fun i => xs.length - i) _ (fun i ⟨hle, hI⟩ => ?_) ⟨Nat.zero_le _, by simp⟩ (by omega)
  rw [h.used]
  by_cases hi : i < xs.length
  · rw [if_pos hi, h.readOr unset hi, ok_bind]
    cases hf : found xs[i] with
    | true => exact .ok (.inr ⟨i, hi, rfl, hf⟩)
    | false =>
      refine .ok ⟨⟨hi, fun x hx => ?_⟩, by omega⟩
      rw [List.take_succ_eq_append_getElem hi, List.mem_append, List.mem_singleton] at hx
      rcases hx with hx | rfl
      · exact hI x hx
      · exact hf
  · rw [if_neg hi]
    rw [List.take_of_length_le (by omega)] at hI
    exact .ok (.inl ⟨rfl, hI⟩)

end Dynarr

end LibSrsBsns
