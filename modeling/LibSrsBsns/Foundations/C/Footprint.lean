import LibSrsBsns.Foundations.C.Runs

/-!
# The footprint of a run

A container in allocated memory has a load, what it holds, and a capacity. A frugal call leaves the
capacity alone, or moves the load to a larger block that the new load justifies (`Frugal`). Along a
run of frugal calls the capacity is bounded by the largest load so far (`peak`), and all the moves
together (`moves`) copy no more than the capacity in the end.
-/

namespace LibSrsBsns.C

variable {σ ι ω : Type}

section

variable (step : σ → ι → Exec (ω × σ)) (load cap : σ → ℕ)

/-- The largest load in the states of a run, as far as its calls return. -/
def peak : σ → List ι → ℕ
  | s, [] => load s
  | s, i :: is =>
    match step s i with
    | .ok r => max (load s) (peak r.2 is)
    | .error _ => load s

/-- How much the calls of a run move: the load, wherever the capacity changes. -/
def moves : σ → List ι → ℕ
  | _, [] => 0
  | s, i :: is =>
    match step s i with
    | .ok r => (if cap r.2 = cap s then 0 else load s) + moves r.2 is
    | .error _ => 0

end

variable {step : σ → ι → Exec (ω × σ)} {load cap : σ → ℕ} {k : ℕ} {s s' : σ}

theorem peak_cons {i : ι} {r : ω × σ} (h : step s i = .ok r) (load : σ → ℕ) (is : List ι) :
    peak step load s (i :: is) = max (load s) (peak step load r.2 is) := by
  rw [peak, h]

theorem peak_cons_error {i : ι} {e : Fault} (h : step s i = .error e) (load : σ → ℕ) (is : List ι) :
    peak step load s (i :: is) = load s := by
  rw [peak, h]

theorem moves_cons {i : ι} {r : ω × σ} (h : step s i = .ok r) (load cap : σ → ℕ) (is : List ι) :
    moves step load cap s (i :: is) =
      (if cap r.2 = cap s then 0 else load s) + moves step load cap r.2 is := by
  rw [moves, h]

theorem load_le_peak (step : σ → ι → Exec (ω × σ)) (load : σ → ℕ) (s : σ) (is : List ι) :
    load s ≤ peak step load s is := by
  cases is with
  | nil => exact le_rfl
  | cons i is =>
    cases hx : step s i with
    | error e => rw [peak_cons_error hx]
    | ok r => exact peak_cons hx load is ▸ le_max_left _ _

/-- From `s` to `s'` the capacity stays, or what was there before fits in what is new, and the new
capacity is at most `k` times the new load. -/
def Frugal (k : ℕ) (load cap : σ → ℕ) (s s' : σ) : Prop :=
  cap s' = cap s ∨ load s + cap s ≤ cap s' ∧ cap s' ≤ k * load s'

/-- **The rule for the footprint**: what frugal calls allocate and move in a run. -/
theorem Ends.footprint {E : Fault → Prop} (I : σ → Prop)
    (hstep : ∀ s i, I s → Ends (step s i) (fun r => I r.2 ∧ Frugal k load cap s r.2) E) (hs : I s)
    (is : List ι) : Ends (runs step s is)
      (fun r => cap r.2 ≤ max (cap s) (k * peak step load s is) ∧
        moves step load cap s is + cap s ≤ cap r.2) E := by
  induction is generalizing s with
  | nil => exact ⟨le_max_left _ _, by rw [moves, Nat.zero_add]⟩
  | cons i is ih =>
    have hi := hstep s i hs
    rw [runs]
    cases hx : step s i with
    | error e =>
      rw [hx] at hi
      exact hi
    | ok r =>
      rw [hx] at hi
      obtain ⟨hI, hfrugal⟩ := hi
      rw [peak_cons hx, moves_cons hx]
      apply (ih hI).bind
      rintro rs ⟨hcap, hmoves⟩
      have hpeak : k * peak step load r.2 is ≤ k * max (load s) (peak step load r.2 is) :=
        Nat.mul_le_mul_left k (le_max_right _ _)
      have hload : k * load r.2 ≤ k * peak step load r.2 is :=
        Nat.mul_le_mul_left k (load_le_peak step load r.2 is)
      change cap rs.2 ≤ _ ∧ _ + cap s ≤ cap rs.2
      rcases hfrugal with hsame | ⟨hroom, hle⟩
      · rw [if_pos hsame, Nat.zero_add, ← hsame]
        exact ⟨hcap.trans (max_le_max le_rfl hpeak), hmoves⟩
      · have hmove : (if cap r.2 = cap s then 0 else load s) ≤ load s := by split <;> omega
        refine ⟨?_, by omega⟩
        apply hcap.trans
        apply le_max_of_le_right
        exact (max_le (hle.trans hload) le_rfl).trans hpeak

end LibSrsBsns.C
