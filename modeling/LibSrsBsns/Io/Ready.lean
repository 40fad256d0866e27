import LibSrsBsns.Bufrd.Model
import LibSrsBsns.Io.Deadline

/-!
# When `io_select` returns, and what its callers make of it

`io_select` goes round as long as the outcome of `select` is skipped and the deadline is ahead. So it
returns in the first turn that is final (`SelectEnv.Final`), and in no other: `io_select_ends` says
when that is and what is returned. Its callers `io_select2r` and `bufrd_canread` pass on what that turn
reports.
-/

namespace LibSrsBsns

open C

/-! ## The callers -/

def ioSelect1r (env : SelectEnv) (turns : ℕ) (fd toUs : ℤ) (ignoreintr : Bool) :
    Exec (List SelectArgs ⊕ SelectReturn) :=
  ioSelect env turns [fd] [] [] toUs ignoreintr

/-- What `io_select2r` returns and stores where its pointers, if they are not null, point to. -/
structure Select2r where
  r : ℤ
  rdbl1 : Option Bool
  rdbl2 : Option Bool

/-- `bufrd_canread` of a reader on the descriptor `fd`, if it returns in the given number of turns. -/
def bufrdCanread (b : Bufrd) (env : SelectEnv) (turns : ℕ) (fd : ℤ) : Exec (Option Bool) :=
  if bufrdBuffered b then .ok (some true)
  else do
    match ← ioSelect1r env turns fd (-1) true with
    | .inl _ => .ok none
    | .inr res => .ok (some (res.r ≠ 0))

/-! ## The turn in which `io_select` returns -/

namespace SelectEnv

variable (env : SelectEnv) (toUs : ℤ)

/-- The deadline has passed when `select` is about to be called for the `i`th time. -/
def Late (i : ℕ) : Prop := 0 < toUs ∧ env.left toUs i ≤ 0

/-- `io_select` returns in the turn `i`, if it comes to it. -/
def Final (i : ℕ) : Prop := env.Late toUs i ∨ ¬ env.Skipped toUs i

/-- `io_select` returns in the turn `i`. -/
structure FirstFinal (i : ℕ) : Prop where
  final : env.Final toUs i
  before : ∀ j < i, ¬ env.Final toUs j

end SelectEnv

/-- What `io_select` returns in the turn `i`: a timeout before `select` is called, or what `select`
reports. -/
structure SelectReturn.Reports (r : SelectReturn) (env : SelectEnv) (toUs : ℤ) (rfd wfd efd : List ℤ)
    (i : ℕ) : Prop where
  late : env.Late toUs i → r.r = 0 ∧ r.calls.length = i ∧ r.rfd = rfd ∧ r.wfd = wfd ∧ r.efd = efd
  selected : ¬ env.Late toUs i →
    r.r = (env.select i).r ∧ r.calls.length = i + 1 ∧ r.Leaves (env.select i) rfd wfd efd

section

variable {env : SelectEnv} {toUs fd1 fd2 fd : ℤ} {rfd wfd efd : List ℤ} {calls : List SelectArgs}

theorem SelectEnv.not_final {call : SelectArgs} {i : ℕ} (hasks : env.Asks toUs rfd wfd efd i call)
    (hskip : env.Skipped toUs i) : ¬ env.Final toUs i := by
  rintro (⟨hpos, hle⟩ | hnot)
  · exact absurd (hasks.waits.limited hpos).1 (not_lt.2 hle)
  · exact hnot hskip

theorem selectTurn_final {tsend : ℤ} {poll : Bool} (h : Encodes env toUs tsend poll)
    (hfds : Placed (rfd ++ wfd ++ efd)) (hne : rfd ++ wfd ++ efd ≠ [])
    (calls : List SelectArgs) :
    Returns (selectTurn env rfd wfd efd tsend poll true calls) (Sum.elim
      (fun calls' => calls'.length = calls.length + 1 ∧ ¬ env.Final toUs calls.length)
      (fun r => env.Final toUs calls.length ∧ r.Reports env toUs rfd wfd efd calls.length)) := by
  apply (selectTurn_spec h hfds hne calls).mono
  rintro (calls' | r)
  · rintro ⟨call, rfl, hasks, hskip⟩
    exact ⟨by rw [List.length_append, List.length_singleton], SelectEnv.not_final hasks hskip⟩
  · rintro (⟨hcalls, hr, hpos, hleft, harrays⟩ | ⟨call, hcalls, hasks, hnot, hr, hleaves⟩)
    · have hlate : env.Late toUs calls.length := ⟨hpos, hleft⟩
      exact ⟨.inl hlate, fun _ => ⟨hr, by rw [hcalls], harrays⟩, fun hnot => absurd hlate hnot⟩
    · have hlate : ¬ env.Late toUs calls.length := fun hlate =>
        absurd (hasks.waits.limited hlate.1).1 (not_lt.2 hlate.2)
      refine ⟨.inr hnot, fun h => absurd h hlate, fun _ => ⟨hr, ?_, hleaves⟩⟩
      rw [hcalls, List.length_append, List.length_singleton]

/-- **When `io_select` returns.** For all arrays of descriptors that have places, every timeout, every
clock and every outcome of each `select`, `io_select` that goes on after interruptions returns in the
first turn that finds the deadline behind it or an outcome of `select` that is not skipped, with what
that turn reports; as long as there is no such turn it goes on, with one call of `select` in each
turn. -/
theorem io_select_ends (env : SelectEnv) {rfd wfd efd : List ℤ}
    (hfds : Placed (rfd ++ wfd ++ efd)) (hne : rfd ++ wfd ++ efd ≠ []) {toUs : ℤ}
    (hclock : 0 < toUs → 0 < tstampUs (env.clock 0)) (turns : ℕ) :
    Returns (ioSelect env turns rfd wfd efd toUs true) (Sum.elim
      (fun calls => calls.length = turns ∧ ∀ i < turns, ¬ env.Final toUs i)
      (fun r => ∃ i < turns, env.FirstFinal toUs i ∧ r.Reports env toUs rfd wfd efd i)) := by
  have hbody (i : ℕ) (calls : List SelectArgs) (hi : i < 0 + turns)
      (hgoing : calls.length = i ∧ ∀ j < i, ¬ env.Final toUs j) :
      Returns (selectTurn env rfd wfd efd (env.tsend toUs) (toUs < 0) true calls) (Sum.elim
        (fun calls => calls.length = i + 1 ∧ ∀ j < i + 1, ¬ env.Final toUs j)
        (fun r => ∃ i < turns, env.FirstFinal toUs i ∧ r.Reports env toUs rfd wfd efd i)) := by
    obtain ⟨rfl, hbefore⟩ := hgoing
    apply (selectTurn_final (encodes_of_pos hclock) hfds hne calls).mono
    rintro (calls' | r)
    · rintro ⟨hlen, hnot⟩
      refine ⟨hlen, fun j hj => ?_⟩
      rcases Nat.lt_succ_iff_lt_or_eq.1 hj with hlt | rfl
      · exact hbefore j hlt
      · exact hnot
    · rintro ⟨hfinal, hreports⟩
      exact ⟨calls.length, by omega, ⟨hfinal, hbefore⟩, hreports⟩
  have hstart : ([] : List SelectArgs).length = 0 ∧ ∀ j < 0, ¬ env.Final toUs j :=
    ⟨rfl, fun j hj => absurd hj (Nat.not_lt_zero j)⟩
  have hloop := Returns.loopFor_turns _ _ hbody hstart
  rw [Nat.zero_add] at hloop
  exact hloop

/-- A clock that ticks and a `select` that always ends early. -/
def tickingEnv : SelectEnv := ⟨fun i => some ⟨7, 10 * i⟩, fun _ => ⟨0, ∅, ∅, ∅, 0⟩⟩

theorem io_select_ends_ticking :
    Returns (ioSelect tickingEnv 9 [3] [] [] 25 true) (Sum.elim
      (fun calls => calls.length = 9 ∧ ∀ i < 9, ¬ tickingEnv.Final 25 i)
      (fun r => ∃ i < 9, tickingEnv.FirstFinal 25 i ∧ r.Reports tickingEnv 25 [3] [] [] i)) :=
  io_select_ends tickingEnv (by decide) (by decide) (fun _ => by decide) 9

/-! ## Two descriptors -/

/-- The turn `i` of `io_select` reports that the descriptor can be read from. -/
def SelectEnv.Readable (env : SelectEnv) (toUs : ℤ) (i : ℕ) (fd : ℤ) : Prop :=
  ¬ env.Late toUs i ∧ 0 < (env.select i).r ∧ fd ∈ (env.select i).rfds

/-- What `io_select2r` passes on of the turn `i`. -/
structure Select2r.Reports (res : Select2r) (env : SelectEnv) (toUs : ℤ) (rdbl1 rdbl2 : Bool)
    (fd1 fd2 : ℤ) (i : ℕ) : Prop where
  late : env.Late toUs i → res.r = 0
  selected : ¬ env.Late toUs i → res.r = (env.select i).r
  rdbl1 : ∃ b, res.rdbl1 = (if rdbl1 then some b else none) ∧ (b = true ↔ env.Readable toUs i fd1)
  rdbl2 : ∃ b, res.rdbl2 = (if rdbl2 then some b else none) ∧ (b = true ↔ env.Readable toUs i fd2)

theorem ReadyMarked.pair {set : Finset ℤ} {fds : List ℤ} (h : ReadyMarked set [fd1, fd2] fds) :
    fds = [if fd1 ∈ set then fd1 else -1, if fd2 ∈ set then fd2 else -1] := by
  apply List.ext_getElem?
  intro i
  match i with
  | 0 => exact h.entry 0 fd1 rfl
  | 1 => exact h.entry 1 fd2 rfl
  | i + 2 =>
    have hlen : fds.length = 2 := h.length
    rw [List.getElem?_eq_none (by omega), List.getElem?_eq_none (by simp)]

def SelectEnv.Interrupted (env : SelectEnv) (i : ℕ) : Prop :=
  (env.select i).r < 0 ∧ (env.select i).errno = eintr

/-- A poll only goes round for interruptions. -/
theorem SelectEnv.final_poll_iff (i : ℕ) : env.Final (-1) i ↔ ¬ env.Interrupted i := by
  unfold Final Late Skipped Interrupted
  omega

/-- **What `bufrd_canread` says.** Whatever `select` reports and the clock shows, the answer is yes if
something is buffered. Otherwise it is what the first `select` says that is not interrupted: no if that
finds nothing to read, and yes if it finds something or fails; without such a `select` there is no
answer. -/
theorem bufrd_canread_answers (b : Bufrd) (env : SelectEnv) {fd : ℤ} (hfd : Placed [fd]) (turns : ℕ) :
    Returns (bufrdCanread b env turns fd) fun
      | none => bufrdBuffered b = false ∧ ∀ i < turns, env.Interrupted i
      | some yes => bufrdBuffered b = true ∧ yes = true ∨
          bufrdBuffered b = false ∧ ∃ i < turns, ¬ env.Interrupted i ∧
            (∀ j < i, env.Interrupted j) ∧ (yes = true ↔ (env.select i).r ≠ 0) := by
  unfold bufrdCanread
  refine .ite (fun hbuf => .ok (.inl ⟨hbuf, rfl⟩)) fun hbuf => ?_
  have hempty : bufrdBuffered b = false := Bool.eq_false_of_not_eq_true hbuf
  have hinterrupted (i : ℕ) (h : ¬ env.Final (-1) i) : env.Interrupted i := by
    rwa [env.final_poll_iff, not_not] at h
  have hall : Placed ([fd] ++ [] ++ []) := hfd
  apply (io_select_ends env hall (by simp) (by omega) turns).bind
  rintro (calls | r)
  · rintro ⟨-, hnot⟩
    exact .ok ⟨hempty, fun i hi => hinterrupted i (hnot i hi)⟩
  · rintro ⟨i, hi, hfirst, hreports⟩
    have hnotLate : ¬ env.Late (-1) i := fun hlate => absurd hlate.1 (by decide)
    obtain ⟨hr, -⟩ := hreports.selected hnotLate
    refine .ok (.inr ⟨hempty, i, hi, (env.final_poll_iff i).1 hfirst.final, fun j hj =>
      hinterrupted j (hfirst.before j hj), ?_⟩)
    rw [decide_eq_true_iff, hr]

/-- An empty reader, and a descriptor that cannot be read from yet. -/
theorem bufrd_canread_answers_no :
    Returns (bufrdCanread (bufrdInit ⟨fun _ => .eof, 0⟩ 8) tickingEnv 2 3) (· ≠ some true) := by
  apply (bufrd_canread_answers (bufrdInit ⟨fun _ => .eof, 0⟩ 8) tickingEnv (by decide) 2).mono
  rintro (- | yes) h heq
  · cases heq
  · rcases h with ⟨h, -⟩ | ⟨-, i, -, -, -, h⟩
    · cases h
    · exact h.1 (Option.some.inj heq) rfl

end

end LibSrsBsns
