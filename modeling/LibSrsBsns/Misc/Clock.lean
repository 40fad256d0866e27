import LibSrsBsns.Foundations.C.Exec

/-!
# Times

The model of `tconv` and `tstamp_us` of `misc.c`. Times in microseconds have the type `int64_t`, in
which they do not overflow.
-/

namespace LibSrsBsns

/-- `struct timeval`. -/
structure Timeval where
  sec : ℤ
  usec : ℤ
  deriving DecidableEq

/-- `tconv`, which overwrites one of its arguments. -/
def tconv (tv : Timeval) (ts : ℤ) (tvToTs : Bool) : Timeval × ℤ :=
  if tvToTs then (tv, tv.sec * 1000000 + tv.usec)
  else (⟨ts.tdiv 1000000, ts.tmod 1000000⟩, ts)

/-- `tstamp_us`, where `gettimeofday` stores the time `t` or fails. -/
def tstampUs (t : Option Timeval) : ℤ :=
  match t with
  | some t => (tconv t 0 true).2
  | none => 0

/-- The timeval is the time span `ts`, in whole seconds and microseconds. -/
structure Timeval.Spans (tv : Timeval) (ts : ℤ) : Prop where
  eq : tv.sec * 1000000 + tv.usec = ts
  sec : 0 ≤ tv.sec
  usec : 0 ≤ tv.usec ∧ tv.usec < 1000000

/-- `tconv` is exact. -/
theorem tconv_spans {ts : ℤ} (h : 0 ≤ ts) (tv : Timeval) : (tconv tv ts false).1.Spans ts := by
  have hdiv : ts.tdiv 1000000 = ts / 1000000 := Int.tdiv_eq_ediv_of_nonneg h
  have hmod : ts.tmod 1000000 = ts % 1000000 := Int.tmod_eq_emod_of_nonneg h
  simp only [tconv, Bool.false_eq_true, if_false, hdiv, hmod]
  constructor
  case eq => exact Int.ediv_mul_add_emod ts 1000000
  case sec => exact Int.ediv_nonneg h (by decide)
  case usec => exact ⟨Int.emod_nonneg ts (by decide), Int.emod_lt_of_pos ts (by decide)⟩

end LibSrsBsns
