import LibSrsBsns.Dynarr.Invariants

/-!
# What was last written in a dynamic array

The abstract state of a dynamic array, `Written`, is its count and what was last written at every
index below it, if anything was, since a truncation or `dynarr_clear` last removed the index. It is
a function of the calls alone, in which reads, growth and `dynarr_shrink` do not appear. An array
answers as it says (`dynarr_last_written`), whatever the slots that were never written read as.
-/

namespace LibSrsBsns

open C

variable {α : Type}

/-- The count of an array, and the values written that are still there. -/
structure Written (α : Type) where
  count : ℕ
  value : ℕ → Option (Option α)

namespace Written

/-- A fresh array, in which nothing has been written. -/
def init (initsize : ℕ) : Written α := ⟨initsize, fun _ => none⟩

/-- `x` is written at the index `i`. -/
def write (w : Written α) (i : ℕ) (x : Option α) : Written α :=
  ⟨max w.count (i + 1), Function.update w.value i (some x)⟩

/-- The indices from `i` on are removed. -/
def truncate (w : Written α) (i : ℕ) : Written α := ⟨i, fun j => if j < i then w.value j else none⟩

/-- What has been written after one call more. -/
def next (w : Written α) : DynarrOp α → Written α
  | .push data _ => w.write w.count data
  | .put index elem _ => w.write index elem
  | .get _ _ => w
  | .truncate fromindex => w.truncate fromindex
  | .clear => w.truncate 0
  | .shrink _ _ => w

/-- The call is for an index below `2 ^ 30`, with memory for it, and a truncation to at most the
count. -/
def Allows (w : Written α) : DynarrOp α → Prop
  | .push _ mem => w.count < 2 ^ 30 ∧ mem = Buffer.ample
  | .put index _ mem => index < 2 ^ 30 ∧ mem = Buffer.ample
  | .get index mem => index < 2 ^ 30 ∧ mem = Buffer.ample
  | .truncate fromindex => fromindex ≤ w.count
  | .clear => True
  | .shrink _ mem => mem = Buffer.ample

variable {w : Written α} {i j : ℕ} {x : Option α}

@[simp] theorem count_write : (w.write i x).count = max w.count (i + 1) := rfl

theorem value_write_self : (w.write i x).value i = some x := Function.update_self ..

theorem value_write_of_ne (h : j ≠ i) : (w.write i x).value j = w.value j :=
  Function.update_of_ne h _ _

@[simp] theorem count_truncate : (w.truncate i).count = i := rfl

theorem value_truncate : (w.truncate i).value j = if j < i then w.value j else none := rfl

end Written

namespace Dynarr

variable {d d' : Dynarr α} {w : Written α} {i : ℕ} {x : Option α}

/-- The slots of the array hold what has been written. -/
structure Records (d : Dynarr α) (w : Written α) : Prop where
  fits : d.Fits
  count : d.nused = w.count
  value : ∀ i x, w.value i = some x → i < w.count ∧ d.data.cell i = some x

theorem Records.moves (h : d.Records w) (hd : d.Moves d') : d'.Records w := by
  refine ⟨hd.fits, hd.used.trans h.count, fun i x hx => ?_⟩
  obtain ⟨hi, hcell⟩ := h.value i x hx
  exact ⟨hi, (hd.cell i (h.count ▸ hi)).trans hcell⟩

theorem Records.stores (h : d.Records w) (hd : d.Stores i x d') : d'.Records (w.write i x) := by
  have hcount := h.count
  refine ⟨hd.fits, by rw [hd.used, hcount, Written.count_write], fun j y hy => ?_⟩
  rw [Written.count_write]
  by_cases hji : j = i
  · subst hji
    rw [Written.value_write_self] at hy
    exact ⟨by omega, hd.self.trans hy⟩
  · rw [Written.value_write_of_ne hji] at hy
    obtain ⟨hj, hcell⟩ := h.value j y hy
    exact ⟨by omega, (hd.cell j (hcount ▸ hj) hji).trans hcell⟩

theorem Records.truncate (h : d.Records w) (hused : d'.nused = i) (hfits : d'.Fits)
    (hcell : ∀ j < i, d'.data.cell j = d.data.cell j) : d'.Records (w.truncate i) := by
  refine ⟨hfits, hused, fun j x hx => ?_⟩
  rw [Written.value_truncate] at hx
  by_cases hj : j < i
  · rw [if_pos hj] at hx
    exact ⟨hj, (hcell j hj).trans (h.value j x hx).2⟩
  · rw [if_neg hj] at hx
    cases hx

/-- One call takes the record on. -/
theorem Records.step (h : d.Records w) (junk : ℕ → Option α) {op : DynarrOp α} (hop : w.Allows op) :
    Returns (dynarrStep junk d op) fun r => r.2.Records (w.next op) := by
  have hno : ∀ {i mem}, i < 2 ^ 30 ∧ mem = Buffer.ample → ∀ e, ¬ d.NoRoom i mem e := by
    rintro i mem ⟨hi, rfl⟩ e ⟨-, ⟨-, hge⟩ | ⟨-, -, hne⟩⟩
    · omega
    · exact hne rfl
  cases op with
  | push data mem =>
    have hpush := (h.fits.push_ends data mem).returns (hno (h.count ▸ hop))
    apply hpush.bind
    rintro ⟨b, d'⟩ ⟨-, hd, -⟩
    exact .ok (h.stores (h.count ▸ hd))
  | put index elem mem =>
    apply ((h.fits.put_ends index elem mem).returns (hno hop)).bind
    intro d' ⟨hd, _⟩
    exact .ok (h.stores hd)
  | get index mem =>
    apply ((h.fits.get_ends index mem junk).returns (hno hop)).bind
    rintro ⟨y, d'⟩ ⟨hd, -, -⟩
    exact .ok (h.moves hd.toMoves)
  | truncate fromindex =>
    have hle := h.fits.le
    have hcount := h.count
    apply (h.fits.truncate_ends (Nat.le_trans (hcount ▸ hop) hle)).bind
    intro d' ⟨hused, hfits, _, hcell, _⟩
    exact .ok (h.truncate hused hfits hcell)
  | clear =>
    exact .ok (h.truncate rfl ⟨h.fits.size, Nat.zero_le _⟩ fun j hj => absurd hj (Nat.not_lt_zero j))
  | shrink countfac mem =>
    apply (h.fits.shrink_ends countfac mem).bind
    rintro ⟨b, d'⟩ hd
    exact .ok (h.moves hd)

end Dynarr

/-! ## Answers -/

/-- The calls that go through the elements. -/
inductive DynarrIter
  | first
  | next

/-- One of the calls that go through the elements: the element stored, or `none` if it returns
false. -/
def dynarrIter (junk : ℕ → Option α) (d : Dynarr α) :
    DynarrIter → Exec (Option (Option α) × Dynarr α)
  | .first => dynarrFirst d fun j => .ok (junk j)
  | .next => dynarrNext d fun j => .ok (junk j)

namespace Dynarr

variable {d : Dynarr α} {w : Written α}

/-- The array `d` answers as `w` says. -/
structure Answers [DecidableEq α] (junk : ℕ → Option α) (d : Dynarr α) (w : Written α) : Prop where
  count : dynarrCount d = w.count
  get : ∀ i x mem, w.value i = some x → dynarrGet d i mem (fun j => .ok (junk j)) = .ok (x, d)
  walk : Returns (runs (dynarrIter junk) d (.first :: List.replicate w.count .next)) fun r =>
    ∃ v : ℕ → Option α, r.1 = (List.range w.count).map (fun i => some (v i)) ++ [none] ∧
      ∀ i x, w.value i = some x → v i = x
  findraw : ∀ data, Returns (dynarrFindraw d data fun j => .ok (junk j)) fun r =>
    (r = -1 ∧ ∀ i x, w.value i = some x → x ≠ data) ∨
      ∃ j < w.count, r = j ∧ (∀ x, w.value j = some x → x = data) ∧
        ∀ i < j, ∀ x, w.value i = some x → x ≠ data

/-- The calls of `dynarr_next` from the index `k` on. -/
theorem Fits.walk_next (h : d.Fits) (junk : ℕ → Option α) {n k : ℕ} (hk : k + n = d.nused) :
    Returns (runs (dynarrIter junk) { d with iter := some k } (List.replicate (n + 1) .next)) fun r =>
      r.1 = (List.range' k n).map (fun i => some (d.valueAt junk i)) ++ [none] := by
  induction n generalizing k with
  | zero =>
    apply (h.next_returns k junk).bind
    rintro ⟨x, d'⟩ ⟨rfl, rfl⟩
    rw [if_neg (by omega)]
    exact .ok rfl
  | succ n ih =>
    rw [List.replicate_succ, runs]
    apply (h.next_returns k junk).bind
    rintro ⟨x, d'⟩ ⟨(rfl : d' = _), (rfl : x = _)⟩
    rw [if_pos (show k < d.nused by omega), if_pos (show k < d.nused by omega)]
    apply (ih (k := k + 1) (by omega)).bind
    intro r hr
    exact .ok (by rw [hr]; rfl)

theorem Records.valueAt (h : d.Records w) (junk : ℕ → Option α) {i : ℕ} {x : Option α}
    (hx : w.value i = some x) : d.valueAt junk i = x := by
  rw [Dynarr.valueAt, (h.value i x hx).2]
  rfl

theorem Records.answers [DecidableEq α] (h : d.Records w) (junk : ℕ → Option α) :
    d.Answers junk w where
  count := h.count
  get i x mem hx := by
    obtain ⟨hi, hcell⟩ := h.value i x hx
    have hle := h.fits.le
    have hsize := h.fits.size
    have hcount := h.count
    rw [dynarrGet, provideIndex, if_neg (by omega), ok_bind, Buffer.readOr_of_cell _ (by omega) hcell]
    rfl
  walk := by
    have hwalk := h.fits.walk_next junk (k := 0) (n := w.count) (by rw [h.count, Nat.zero_add])
    rw [← List.range_eq_range', List.replicate_succ] at hwalk
    -- `dynarr_first` is `dynarr_next` from the index 0
    change Returns (runs (dynarrIter junk) d (.first :: List.replicate w.count .next)) _ at hwalk
    exact hwalk.mono fun r hr => ⟨_, hr, fun i x hx => h.valueAt junk hx⟩
  findraw data := by
    apply (h.fits.find_returns (fun x => x = data) junk).mono
    have hne : ∀ i x, w.value i = some x → decide (d.valueAt junk i = data) = false → x ≠ data := by
      intro i x hx hfalse
      rwa [h.valueAt junk hx, decide_eq_false_iff_not] at hfalse
    rintro r (⟨rfl, hall⟩ | ⟨j, hj, rfl, hfound, hbefore⟩)
    · exact .inl ⟨rfl, fun i x hx => hne i x hx (hall i (h.count ▸ (h.value i x hx).1))⟩
    · refine .inr ⟨j, h.count ▸ hj, rfl, fun x hx => ?_, fun i hi x hx => hne i x hx (hbefore i hi)⟩
      rwa [h.valueAt junk hx, decide_eq_true_eq] at hfound

end Dynarr

/-- **A dynamic array remembers what was last written.** After every run of calls for indices below
`2 ^ 30` that truncate to at most the count, with memory for them, the array answers as the record of
what was written says. -/
theorem dynarr_last_written [DecidableEq α] (initsize : ℕ) (nulling : Bool) (junk : ℕ → Option α)
    {ops : List (DynarrOp α)}
    (hops : Admissible (fun w op => ((), Written.next w op)) Written.Allows (.init initsize) ops) :
    Returns (do runs (dynarrStep junk) (← dynarrInit initsize nulling) ops) fun r =>
      r.2.Answers junk (ops.foldl Written.next (.init initsize)) := by
  apply (dynarrInit_spec initsize nulling).bind
  intro d ⟨hfits, hused, _⟩
  have hinit : d.Records (.init initsize) := ⟨hfits, hused, fun i x hx => by cases hx⟩
  apply (Returns.runs_foldl Written.next Written.Allows Dynarr.Records
    (fun d w op hop h => h.step junk hop) hinit hops).mono
  intro r hr
  exact hr.answers junk

/-- Two elements are written, the array grows by a read, and the second one is truncated away. -/
theorem dynarr_last_written_truncated :
    Returns (do runs (dynarrStep fun _ => none) (← dynarrInit 0 false) [.push (some 7) Buffer.ample,
      .put 5 (some 8) Buffer.ample, .get 40 Buffer.ample, .truncate 1, .shrink 1 Buffer.ample])
      fun r => dynarrGet r.2 0 Buffer.ample (fun _ => .ok none) = .ok (some 7, r.2) := by
  apply (dynarr_last_written 0 false (fun _ => (none : Option ℕ)) ?_).mono
  · intro r hr
    exact hr.get 0 (some 7) Buffer.ample rfl
  · exact ⟨⟨by decide, rfl⟩, ⟨by decide, rfl⟩, ⟨by decide, rfl⟩, (by decide : 1 ≤ 6), rfl, trivial⟩

end LibSrsBsns
