import LibSrsBsns.Dynarr.Slots

/-!
# What holds of a dynamic array in every run

Two properties of dynamic arrays are relied on by all operations: the count is within the block that
is allocated, and the slots of a nulling array behind the count hold null. `dynarr_truncate` breaks
the first one where it is asked to (`dynarr_in_bounds_iff`), and `dynarr_clear`, which leaves the
elements where they are, the second (`dynarr_hides_null_iff`).
-/

namespace LibSrsBsns

open C

variable {α : Type}

/-- The calls on a dynamic array; `mem` says which numbers of cells `malloc` can provide. -/
inductive DynarrOp (α : Type)
  | push (data : Option α) (mem : ℕ → Bool)
  | put (index : ℕ) (elem : Option α) (mem : ℕ → Bool)
  | get (index : ℕ) (mem : ℕ → Bool)
  | truncate (fromindex : ℕ)
  | clear
  | shrink (countfac : ℚ) (mem : ℕ → Bool)

/-- What a call returns. -/
inductive DynarrOut (α : Type)
  | unit
  | bool (b : Bool)
  | elem (x : Option α)
  deriving DecidableEq

/-- A call on a dynamic array, where `junk` is what a slot reads as that was never written. -/
def dynarrStep (junk : ℕ → Option α) (d : Dynarr α) : DynarrOp α → Exec (DynarrOut α × Dynarr α)
  | .push data mem => do
    let (b, d) ← dynarrPush d data mem
    .ok (.bool b, d)
  | .put index elem mem => do
    let d ← dynarrPut d index elem mem
    .ok (.unit, d)
  | .get index mem => do
    let (x, d) ← dynarrGet d index mem fun j => .ok (junk j)
    .ok (.elem x, d)
  | .truncate fromindex => do
    let d ← dynarrTruncate d fromindex
    .ok (.unit, d)
  | .clear => .ok (.unit, dynarrClear d)
  | .shrink countfac mem => do
    let (b, d) ← dynarrShrink d countfac mem
    .ok (.bool b, d)

namespace Dynarr

/-- The call needs no room for an index that the shift does not reach. -/
def OpInReach (d : Dynarr α) : DynarrOp α → Prop
  | .push _ _ => d.InReach d.nused
  | .put index _ _ => d.InReach index
  | .get index _ => d.InReach index
  | _ => True

/-- The call leaves the count within the block. -/
def KeepsBound (d : Dynarr α) : DynarrOp α → Prop
  | .truncate fromindex => fromindex ≤ d.nelem
  | _ => True

/-- The call hides nothing but null. -/
def HidesOnlyNull (d : Dynarr α) : DynarrOp α → Prop
  | .clear => ∀ i < d.nused, d.data.cell i = some none
  | _ => True

/-- The call is defined, and hides nothing but null. -/
def KeepsNull (d : Dynarr α) (op : DynarrOp α) : Prop := d.OpInReach op ∧ d.HidesOnlyNull op

/-- What a call may fault with: the shift does not reach the index it needs room for, or there is no
memory. -/
def OpFault (d : Dynarr α) (op : DynarrOp α) (e : Fault) : Prop :=
  e = .badShift ∧ ¬ d.OpInReach op ∨ e = .exit 1 ∧ d.KeepsNull op

theorem NoRoom.fault {d : Dynarr α} {i : ℕ} {mem : ℕ → Bool} {e : Fault} (h : d.NoRoom i mem e) :
    e = .badShift ∧ ¬ d.InReach i ∨ e = .exit 1 ∧ d.InReach i ∧ True := by
  obtain ⟨hge, ⟨rfl, hi⟩ | ⟨rfl, hi, -⟩⟩ := h
  · exact .inl ⟨rfl, by unfold InReach; omega⟩
  · exact .inr ⟨rfl, .inr hi, trivial⟩

/-- **One call**, if it leaves the count within the block: the array fits again, and its slots
behind the count hold null if the call hides nothing else. -/
theorem Fits.step {d : Dynarr α} (h : d.Fits) (junk : ℕ → Option α) {op : DynarrOp α}
    (hop : d.KeepsBound op) :
    Ends (dynarrStep junk d op) (fun r => r.2.Fits ∧ d.OpInReach op ∧ r.2.nulling = d.nulling ∧
      (d.nulling = true → d.NullTail → (r.2.NullTail ↔ d.HidesOnlyNull op))) (d.OpFault op) := by
  have hsame : ∀ {d' : Dynarr α}, d.Moves d' → d'.Fits ∧ True ∧ d'.nulling = d.nulling ∧
      (d.nulling = true → d.NullTail → (d'.NullTail ↔ True)) := fun hd =>
    ⟨hd.fits, trivial, hd.nulling, fun hnull ht => iff_of_true (hd.tail hnull ht) trivial⟩
  cases op with
  | push data mem =>
    apply ((h.push_ends data mem).fault_mono fun e he => he.fault).bind
    rintro ⟨b, d'⟩ ⟨-, hd, hreach⟩
    exact ⟨hd.fits, hreach, hd.nulling,
      fun hnull ht => iff_of_true (hd.nullTail hnull ht) trivial⟩
  | put index elem mem =>
    apply ((h.put_ends index elem mem).fault_mono fun e he => he.fault).bind
    intro d' ⟨hd, hreach⟩
    exact ⟨hd.fits, hreach, hd.nulling,
      fun hnull ht => iff_of_true (hd.nullTail hnull ht) trivial⟩
  | get index mem =>
    apply ((h.get_ends index mem junk).fault_mono fun e he => he.fault).bind
    rintro ⟨x, d'⟩ ⟨hd, hreach, -⟩
    exact ⟨hd.fits, hreach, hd.nulling,
      fun hnull ht => iff_of_true (hd.tail hnull ht) trivial⟩
  | truncate fromindex =>
    apply ((h.truncate_ends hop).ends _).bind
    intro d' ⟨_, hfits, _, _, hnulling, htail⟩
    exact ⟨hfits, trivial, hnulling, fun hnull _ => iff_of_true (htail hnull) trivial⟩
  | clear =>
    refine ⟨⟨h.size, Nat.zero_le _⟩, trivial, rfl, fun _ ht => ⟨fun ht' i hi => ?_, fun hv i _ hi => ?_⟩⟩
    · exact ht' i (Nat.zero_le _) (Nat.lt_of_lt_of_le hi h.le)
    · rcases Nat.lt_or_ge i d.nused with hlt | hge
      · exact hv i hlt
      · exact ht i hge hi
  | shrink countfac mem =>
    apply ((h.shrink_ends countfac mem).ends _).bind
    rintro ⟨b, d'⟩ hd
    exact hsame hd

/-! ## Bounds -/

/-- The count is within the block, and the functions that go through the elements return: they read
nothing outside it. -/
structure InBounds (junk : ℕ → Option α) (d : Dynarr α) : Prop where
  le : d.nused ≤ d.nelem
  next : ∀ k, Returns (dynarrNext { d with iter := some k } fun j => .ok (junk j)) fun _ => True
  findraw : ∀ [DecidableEq α] data,
    Returns (dynarrFindraw d data fun j => .ok (junk j)) fun _ => True
  findfn : ∀ ffn, Returns (dynarrFindfn d ffn fun j => .ok (junk j)) fun _ => True
  findeqfn : ∀ efn needle,
    Returns (dynarrFindeqfn d efn needle fun j => .ok (junk j)) fun _ => True

theorem Fits.inBounds {d : Dynarr α} (h : d.Fits) (junk : ℕ → Option α) : d.InBounds junk where
  le := h.le
  next k := (h.next_returns k junk).mono fun _ _ => trivial
  findraw data := (h.find_returns (fun x => x = data) junk).mono fun _ _ => trivial
  findfn ffn := (h.find_returns ffn junk).mono fun _ _ => trivial
  findeqfn efn needle := (h.find_returns (efn · needle) junk).mono fun _ _ => trivial

theorem inBounds_step {d : Dynarr α} (junk : ℕ → Option α) (op : DynarrOp α)
    (hsize : d.data.size = d.nelem) (hin : d.InBounds junk) :
    Ends (dynarrStep junk d op)
      (fun r => r.2.data.size = r.2.nelem ∧ (r.2.InBounds junk ↔ d.KeepsBound op))
      fun e => (e = .badShift ∨ e = .exit 1) ↔ d.KeepsBound op := by
  have hfits : d.Fits := ⟨hsize, hin.le⟩
  by_cases hop : d.KeepsBound op
  · apply ((hfits.step junk hop).mono fun r hr => ?_).fault_mono
    · intro e he
      exact iff_of_true (he.imp And.left And.left) hop
    · exact ⟨hr.1.size, iff_of_true (hr.1.inBounds junk) hop⟩
  · cases op with
    | truncate fromindex =>
      apply ((truncate_past d fromindex).fault_mono fun e he => ?_).bind
      · intro d' ⟨hused, hnelem, hdsize⟩
        refine ⟨hdsize.trans (hsize.trans hnelem.symm), iff_of_false (fun hb => hop ?_) hop⟩
        have hle := hb.le
        rw [hused, hnelem] at hle
        exact hle
      · rw [he]
        exact iff_of_false (by simp) hop
    | _ => exact absurd trivial hop

/-! ## Hidden slots -/

/-- The slots behind the count hold null: a `dynarr_get` there returns null, and a `dynarr_put`
behind the count exposes nothing else between it and the new element. -/
structure HidesNull (junk : ℕ → Option α) (d : Dynarr α) : Prop where
  tail : ∀ i, d.nused ≤ i → i < d.nelem → d.data.cell i = some none
  get : ∀ i mem, d.nused ≤ i → Ends (dynarrGet d i mem fun j => .ok (junk j)) (fun r => r.1 = none)
    (d.NoRoom i mem)
  put : ∀ i elem mem, d.nused ≤ i → Ends (dynarrPut d i elem mem)
    (fun d' => ∀ j, d.nused ≤ j → j < i → d'.data.cell j = some none) (d.NoRoom i mem)

theorem Fits.hidesNull_iff {d : Dynarr α} (h : d.Fits) (hnull : d.nulling = true)
    (junk : ℕ → Option α) : d.HidesNull junk ↔ d.NullTail := by
  constructor
  · intro hh
    exact hh.tail
  · intro ht
    refine ⟨ht, fun i mem hi => ?_, fun i elem mem hi => ?_⟩
    · apply (h.get_ends i mem junk).mono
      intro r ⟨hd, _, hr⟩
      have hcell := hd.tail hnull ht i (by rw [hd.used]; exact hi) hd.lt
      rw [hr, valueAt, hcell]
      rfl
    · apply (h.put_ends i elem mem).mono
      intro d' ⟨hd, _⟩ j hj hji
      have hused := hd.used
      have hle := hd.fits.le
      exact hd.tail hnull ht j hj (by omega) (by omega)

/-- A truncation is to at most the current count. -/
def WithinCount (d : Dynarr α) : DynarrOp α → Prop
  | .truncate fromindex => fromindex ≤ d.nused
  | _ => True

theorem Fits.keepsBound {d : Dynarr α} (h : d.Fits) {op : DynarrOp α} (hop : d.WithinCount op) :
    d.KeepsBound op := by
  cases op with
  | truncate fromindex => exact Nat.le_trans hop h.le
  | _ => trivial

theorem HidesNull.step {d : Dynarr α} {junk : ℕ → Option α} {op : DynarrOp α}
    (hop : d.WithinCount op) (h : d.Fits) (hnull : d.nulling = true) (hh : d.HidesNull junk) :
    Ends (dynarrStep junk d op)
      (fun r => (r.2.Fits ∧ r.2.nulling = true) ∧ (r.2.HidesNull junk ↔ d.KeepsNull op))
      fun e => e = .exit 1 ↔ d.KeepsNull op := by
  apply ((h.step junk (h.keepsBound hop)).mono fun r hr => ?_).fault_mono
  · rintro e (⟨rfl, hreach⟩ | ⟨rfl, hk⟩)
    · exact iff_of_false (by simp) fun hk => hreach hk.1
    · exact iff_of_true rfl hk
  · obtain ⟨hfits, hreach, hnulling, htail⟩ := hr
    have hnull' : r.2.nulling = true := hnulling.trans hnull
    refine ⟨⟨hfits, hnull'⟩, ?_⟩
    rw [hfits.hidesNull_iff hnull', htail hnull hh.tail]
    exact ⟨fun hv => ⟨hreach, hv⟩, fun hk => hk.2⟩

end Dynarr

/-! ## Runs -/

/-- What `dynarr_init` makes. -/
theorem dynarrInit_spec (initsize : ℕ) (nulling : Bool) :
    Returns (dynarrInit initsize nulling) fun d : Dynarr α =>
      d.Fits ∧ d.nused = initsize ∧ d.nulling = nulling ∧ d.NullTail := by
  cases nulling with
  | false => exact .ok ⟨⟨rfl, le_rfl⟩, rfl, rfl, fun i hi hin => absurd hin (Nat.not_lt.2 hi)⟩
  | true =>
    apply (nullrange_spec (Buffer.malloc initsize : Buffer (Option α)) 0 initsize (by simp)).bind
    intro data ⟨hsize, hcell⟩
    exact .ok ⟨⟨hsize, le_rfl⟩, rfl, rfl, fun i hi hin => absurd hin (Nat.not_lt.2 hi)⟩

/-- **The bounds of a dynamic array.** In every run of calls on a fresh array, as far as the shift of
an `int` and memory suffice, the count is within the block throughout and no call or reader goes
outside the block, if and only if no truncation is past the block. -/
theorem dynarr_in_bounds_iff (initsize : ℕ) (nulling : Bool) (junk : ℕ → Option α)
    (ops : List (DynarrOp α)) :
    Returns (dynarrInit initsize nulling) fun d =>
      Throughout (dynarrStep junk) (fun e => e = .badShift ∨ e = .exit 1) (Dynarr.InBounds junk) d ops ↔
        Meets (dynarrStep junk) Dynarr.KeepsBound d ops := by
  apply (dynarrInit_spec initsize nulling).mono
  intro d ⟨hfits, _⟩
  exact throughout_iff_meets (fun d : Dynarr α => d.data.size = d.nelem)
    (fun d op hsize hin => Dynarr.inBounds_step junk op hsize hin) hfits.size (hfits.inBounds junk) ops

/-- A truncation past the block makes the count larger than it. -/
theorem not_inBounds_of_truncate :
    ¬ Returns (dynarrInit 1 false) fun d : Dynarr ℕ =>
      Throughout (dynarrStep fun _ => none) (fun e => e = .badShift ∨ e = .exit 1)
        (Dynarr.InBounds fun _ => none) d [.truncate 2] := by
  rintro ⟨d, hd, h⟩
  obtain rfl := Except.ok.inj hd
  have hle : 2 ≤ 1 := (h.of_runs rfl).le
  omega

/-- **The hidden slots of a nulling array.** In every run of calls that truncate a fresh nulling
array to at most its count, as far as there is memory, the slots behind the count hold null
throughout, if and only if no call needs room for an index that the shift of an `int` does not reach,
and no `dynarr_clear` finds an element that is not null. -/
theorem dynarr_hides_null_iff (initsize : ℕ) (junk : ℕ → Option α) (ops : List (DynarrOp α)) :
    Returns (dynarrInit initsize true) fun d =>
      Meets (dynarrStep junk) Dynarr.WithinCount d ops →
        (Throughout (dynarrStep junk) (· = .exit 1) (Dynarr.HidesNull junk) d ops ↔
          Meets (dynarrStep junk) Dynarr.KeepsNull d ops) := by
  apply (dynarrInit_spec initsize true).mono
  intro d ⟨hfits, _, hnull, htail⟩ hlegal
  exact throughout_iff_meets_of_legal (fun d : Dynarr α => d.Fits ∧ d.nulling = true)
    (fun d op hop hI hh => hh.step hop hI.1 hI.2) ⟨hfits, hnull⟩
    ((hfits.hidesNull_iff hnull junk).2 htail) hlegal

/-- An element is put, truncated away and read past the count. -/
theorem dynarr_hides_null_truncated :
    Returns (dynarrInit 1 true) fun d : Dynarr ℕ =>
      Throughout (dynarrStep fun _ => none) (· = .exit 1) (Dynarr.HidesNull fun _ => none) d
        [.put 0 (some 5) Buffer.ample, .truncate 0, .get 3 Buffer.ample] := by
  obtain ⟨d, hd, h⟩ := dynarr_hides_null_iff 1 (fun _ => none)
    [.put 0 (some 5) Buffer.ample, .truncate 0, .get 3 Buffer.ample]
  obtain rfl := Except.ok.inj hd
  refine ⟨_, hd, (h ?_).2 ?_⟩
  · exact ⟨trivial, Nat.zero_le _, trivial, trivial⟩
  · exact ⟨⟨.inr (by decide), trivial⟩, ⟨trivial, trivial⟩, ⟨.inr (by decide), trivial⟩, trivial⟩

/-- `dynarr_clear` leaves an element behind the count. -/
theorem not_hidesNull_of_clear :
    ¬ Returns (dynarrInit 1 true) fun d : Dynarr ℕ =>
      Throughout (dynarrStep fun _ => none) (· = .exit 1) (Dynarr.HidesNull fun _ => none) d
        [.put 0 (some 5) Buffer.ample, .clear] := by
  rintro ⟨d, hd, h⟩
  obtain rfl := Except.ok.inj hd
  have hcell := (h.of_runs rfl).tail 0 le_rfl Nat.zero_lt_one
  cases hcell

end LibSrsBsns
