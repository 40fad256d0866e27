import LibSrsBsns.Io.Model
import Mathlib.Data.Finset.Dedup
import Mathlib.Data.Finset.Lattice.Lemmas

/-!
# The deadline of `io_select`

`io_select` calls `select` again as long as nothing is ready before the deadline and as long as it is
interrupted (`Skipped`); every call asks for the same descriptors and for the time that is left
(`Asks`). One turn of the loop is specified by `selectTurn_spec`, any number of turns by
`ioSelect_spec`. All of this needs descriptors that have a place in an `fd_set`, which `io_select` does
not check (`io_select_keeps_deadline_iff`).
-/

namespace LibSrsBsns

open C

namespace SelectEnv

variable (env : SelectEnv) (toUs : ℤ)

/-- The time that is left when `select` is about to be called for the `i`th time, counted from 0: the
clock is read once at the start, and once before each call. -/
def left (i : ℕ) : ℤ := tstampUs (env.clock 0) + toUs - tstampUs (env.clock (i + 1))

/-- The timeout of the `i`th call of `select`. -/
structure Waits (i : ℕ) (timeout : Option Timeval) : Prop where
  limited : 0 < toUs → 0 < env.left toUs i ∧ ∃ tv, timeout = some tv ∧ tv.Spans (env.left toUs i)
  unlimited : toUs = 0 → timeout = none
  poll : toUs < 0 → ∃ tv, timeout = some tv ∧ tv.Spans 0

/-- The `i`th call of `select` is for the descriptors of the arrays and for the time left. -/
structure Asks (rfd wfd efd : List ℤ) (i : ℕ) (call : SelectArgs) : Prop where
  rfds : call.rfds = rfd.toFinset
  wfds : call.wfds = wfd.toFinset
  efds : call.efds = efd.toFinset
  nfds : ∀ fd ∈ rfd ++ wfd ++ efd, fd < call.nfds
  waits : env.Waits toUs i call.timeout

/-- The `i`th call of `select` reports what makes `io_select` call it again: nothing ready, unless it
only polls, or an interruption. -/
def Skipped (i : ℕ) : Prop :=
  (env.select i).r = 0 ∧ 0 ≤ toUs ∨ (env.select i).r < 0 ∧ (env.select i).errno = eintr

end SelectEnv

/-- The descriptors have places in an `fd_set`. -/
def Placed (fds : List ℤ) : Prop := ∀ fd ∈ fds, 0 ≤ fd ∧ fd < fdSetsize

instance (fds : List ℤ) : Decidable (Placed fds) :=
  inferInstanceAs (Decidable (∀ fd ∈ fds, 0 ≤ fd ∧ fd < fdSetsize))

theorem placed_cons {fd : ℤ} {fds : List ℤ} :
    Placed (fd :: fds) ↔ (0 ≤ fd ∧ fd < fdSetsize) ∧ Placed fds :=
  List.forall_mem_cons

theorem placed_append {fds fds' : List ℤ} : Placed (fds ++ fds') ↔ Placed fds ∧ Placed fds' :=
  List.forall_mem_append

/-- In the array `fds'` the entries of `fds` that are not in the set are replaced by -1, and no
others. -/
structure ReadyMarked (set : Finset ℤ) (fds fds' : List ℤ) : Prop where
  length : fds'.length = fds.length
  entry : ∀ (i : ℕ) (fd : ℤ), fds[i]? = some fd → fds'[i]? = some (if fd ∈ set then fd else -1)

/-- What `io_select` leaves in the arrays when it returns after the last outcome `out`. -/
structure SelectReturn.Leaves (r : SelectReturn) (out : SelectOutcome) (rfd wfd efd : List ℤ) :
    Prop where
  unchanged : r.r ≤ 0 → r.rfd = rfd ∧ r.wfd = wfd ∧ r.efd = efd
  marked : 0 < r.r →
    ReadyMarked out.rfds rfd r.rfd ∧ ReadyMarked out.wfds wfd r.wfd ∧ ReadyMarked out.efds efd r.efd

/-- What `io_select` has done when it returns: it ran into the deadline after calls of `select` that
were all skipped, or it returns what the last of them reports, and only those before it were
skipped. -/
inductive SelectReturn.Ended (env : SelectEnv) (toUs : ℤ) (rfd wfd efd : List ℤ) (r : SelectReturn) :
    Prop
  | timeout (hr : r.r = 0) (hto : 0 < toUs) (hleft : env.left toUs r.calls.length ≤ 0)
      (hskip : ∀ i < r.calls.length, env.Skipped toUs i)
      (harrays : r.rfd = rfd ∧ r.wfd = wfd ∧ r.efd = efd)
  | reported (k : ℕ) (hk : r.calls.length = k + 1) (hr : r.r = (env.select k).r)
      (hnot : ¬ env.Skipped toUs k) (hskip : ∀ i < k, env.Skipped toUs i)
      (hleaves : r.Leaves (env.select k) rfd wfd efd)

section

variable {env : SelectEnv} {toUs : ℤ} {rfd wfd efd fds : List ℤ} {calls : List SelectArgs}

theorem markUnset_spec (hfds : Placed fds) (set : Finset ℤ) :
    Returns (markUnset set fds) (ReadyMarked set fds) := by
  induction fds with
  | nil => exact .ok ⟨rfl, fun i fd hi => by cases hi⟩
  | cons fd fds ih =>
    obtain ⟨hfd, hrest⟩ := placed_cons.1 hfds
    rw [markUnset, fdIsset, if_pos hfd, ok_bind]
    apply (ih hrest).bind
    intro fds' hfds'
    refine .ok ⟨congrArg (· + 1) hfds'.length, fun i fd' hi => ?_⟩
    cases i with
    | zero =>
      obtain rfl := Option.some.inj hi
      by_cases hmem : fd ∈ set <;> simp [hmem]
    | succ i => exact hfds'.entry i fd' hi

theorem markUnsets_spec (hfds : Placed (rfd ++ wfd ++ efd)) (out : SelectOutcome) :
    ∃ rfd' wfd' efd', markUnset out.rfds rfd = .ok rfd' ∧ markUnset out.wfds wfd = .ok wfd' ∧
      markUnset out.efds efd = .ok efd' ∧ ReadyMarked out.rfds rfd rfd' ∧
      ReadyMarked out.wfds wfd wfd' ∧ ReadyMarked out.efds efd efd' := by
  simp only [placed_append] at hfds
  obtain ⟨rfd', hr, hrfd⟩ := markUnset_spec hfds.1.1 out.rfds
  obtain ⟨wfd', hw, hwfd⟩ := markUnset_spec hfds.1.2 out.wfds
  obtain ⟨efd', he, hefd⟩ := markUnset_spec hfds.2 out.efds
  exact ⟨rfd', wfd', efd', hr, hw, he, hrfd, hwfd, hefd⟩

theorem fillSet_spec (hfds : Placed fds) (set : Finset ℤ) (maxfd : ℤ) :
    Returns (fillSet fds (set, maxfd)) fun r =>
      r.1 = set ∪ fds.toFinset ∧ maxfd ≤ r.2 ∧ ∀ fd ∈ fds, fd ≤ r.2 := by
  induction fds generalizing set maxfd with
  | nil => exact .ok ⟨by simp, le_rfl, by simp⟩
  | cons fd fds ih =>
    obtain ⟨hfd, hrest⟩ := placed_cons.1 hfds
    rw [fillSet, fdSet, if_pos hfd, ok_bind]
    apply (ih hrest _ _).mono
    intro r ⟨hset, hmax, hle⟩
    have hmax' : maxfd ≤ r.2 ∧ fd ≤ r.2 := by
      split at hmax <;> omega
    refine ⟨by rw [hset, List.toFinset_cons, Finset.insert_union_comm], hmax'.1, ?_⟩
    intro fd' hfd'
    rcases List.mem_cons.1 hfd' with rfl | hmem
    · exact hmax'.2
    · exact hle fd' hmem

theorem fillSets_spec (hfds : Placed (rfd ++ wfd ++ efd)) : ∃ m₁ m₂ m₃,
    fillSet rfd (∅, -1) = .ok (rfd.toFinset, m₁) ∧ fillSet wfd (∅, m₁) = .ok (wfd.toFinset, m₂) ∧
    fillSet efd (∅, m₂) = .ok (efd.toFinset, m₃) ∧ ∀ fd ∈ rfd ++ wfd ++ efd, fd ≤ m₃ := by
  simp only [placed_append] at hfds
  obtain ⟨⟨rs, m₁⟩, hr, rfl, -, hmr⟩ := fillSet_spec hfds.1.1 ∅ (-1)
  obtain ⟨⟨ws, m₂⟩, hw, rfl, hm₂, hmw⟩ := fillSet_spec hfds.1.2 ∅ m₁
  obtain ⟨⟨es, m₃⟩, he, rfl, hm₃, hme⟩ := fillSet_spec hfds.2 ∅ m₂
  rw [Finset.empty_union] at hr hw he
  refine ⟨m₁, m₂, m₃, hr, hw, he, ?_⟩
  simp only [List.mem_append]
  rintro fd ((hfd | hfd) | hfd)
  · exact (hmr fd hfd).trans (hm₂.trans hm₃)
  · exact (hmw fd hfd).trans hm₃
  · exact hme fd hfd

/-- A descriptor without a place is written outside the set. -/
theorem fillSet_ends (fds : List ℤ) (s : Finset ℤ × ℤ) :
    Ends (fillSet fds s) (fun _ => Placed fds) (· = .outOfBounds) := by
  induction fds generalizing s with
  | nil => exact List.forall_mem_nil _
  | cons fd fds ih =>
    rw [fillSet, fdSet]
    split
    case isTrue hfd => exact (ih _).mono fun _ hrest => placed_cons.2 ⟨hfd, hrest⟩
    case isFalse => rfl

/-- Without places for all descriptors, a turn writes outside a set before it does anything else. -/
theorem selectTurn_of_not_placed (hfds : ¬ Placed (rfd ++ wfd ++ efd)) (tsend : ℤ)
    (poll ignoreintr : Bool) (calls : List SelectArgs) :
    selectTurn env rfd wfd efd tsend poll ignoreintr calls = .error .outOfBounds := by
  have hends : Ends (selectTurn env rfd wfd efd tsend poll ignoreintr calls) (fun _ => False)
      (· = .outOfBounds) := by
    unfold selectTurn
    apply (fillSet_ends rfd _).bind
    intro r hr
    apply (fillSet_ends wfd _).bind
    intro w hw
    apply (fillSet_ends efd _).bind
    intro e he
    exact absurd (placed_append.2 ⟨placed_append.2 ⟨hr, hw⟩, he⟩) hfds
  cases hx : selectTurn env rfd wfd efd tsend poll ignoreintr calls with
  | ok r =>
    rw [hx] at hends
    exact hends.elim
  | error e =>
    rw [hx] at hends
    exact congrArg _ hends

theorem ioSelect_of_not_placed (hfds : ¬ Placed (rfd ++ wfd ++ efd)) (turns : ℕ) (toUs : ℤ)
    (ignoreintr : Bool) :
    ioSelect env (turns + 1) rfd wfd efd toUs ignoreintr = .error .outOfBounds := by
  rw [ioSelect, loopFor, selectTurn_of_not_placed hfds, error_bind]

/-- The local variables `tsend` and `poll` of `io_select` encode its argument `to_us`. -/
structure Encodes (env : SelectEnv) (toUs tsend : ℤ) (poll : Bool) : Prop where
  limited : 0 < toUs → tsend = tstampUs (env.clock 0) + toUs ∧ tsend ≠ 0
  other : toUs ≤ 0 → tsend = 0
  poll : poll = true ↔ toUs < 0

theorem encodes_of_pos (hclock : 0 < toUs → 0 < tstampUs (env.clock 0)) :
    Encodes env toUs (env.tsend toUs) (decide (toUs < 0)) := by
  unfold SelectEnv.tsend
  constructor
  case limited =>
    intro hpos
    have := hclock hpos
    rw [if_neg (by omega : ¬ toUs < 0), if_pos (by omega)]
    omega
  case other =>
    intro hle
    rw [if_neg]
    split <;> omega
  case poll => exact decide_eq_true_iff

theorem Encodes.trem_eq {tsend : ℤ} {poll : Bool} (h : Encodes env toUs tsend poll) (hpos : 0 < toUs)
    (i : ℕ) : selectTrem tsend (tstampUs (env.clock (i + 1))) = env.left toUs i := by
  obtain ⟨htsend, hne⟩ := h.limited hpos
  rw [selectTrem, if_pos hne, htsend]
  rfl

/-- A turn finds the time up if nothing is left of a timeout. -/
theorem Encodes.late_iff {tsend : ℤ} {poll : Bool} (h : Encodes env toUs tsend poll) (i : ℕ) :
    tsend ≠ 0 ∧ selectTrem tsend (tstampUs (env.clock (i + 1))) ≤ 0 ↔
      0 < toUs ∧ env.left toUs i ≤ 0 := by
  constructor
  · rintro ⟨hne, hle⟩
    have hlimited : 0 < toUs := by
      by_contra hnot
      exact hne (h.other (not_lt.1 hnot))
    rw [h.trem_eq hlimited] at hle
    exact ⟨hlimited, hle⟩
  · rintro ⟨hlimited, hle⟩
    rw [h.trem_eq hlimited]
    exact ⟨(h.limited hlimited).2, hle⟩

/-- The timeout that a turn computes, where the time is not up. -/
theorem Encodes.waits {tsend : ℤ} {poll : Bool} (h : Encodes env toUs tsend poll) {i : ℕ}
    (hleft : 0 < toUs → 0 < env.left toUs i) :
    env.Waits toUs i (if tsend ≠ 0 ∨ poll = true then
      some (if tsend ≠ 0 then
        (tconv ⟨0, 0⟩ (selectTrem tsend (tstampUs (env.clock (i + 1)))) false).1 else ⟨0, 0⟩)
      else none) := by
  constructor
  case limited =>
    intro hpos
    have hne := (h.limited hpos).2
    rw [if_pos (.inl hne), if_pos hne, h.trem_eq hpos]
    exact ⟨hleft hpos, _, rfl, tconv_spans (hleft hpos).le _⟩
  case unlimited =>
    intro hzero
    have hpoll : ¬ poll = true := fun hp => by have := h.poll.1 hp; omega
    rw [if_neg (not_or_intro (not_not_intro (h.other hzero.le)) hpoll)]
  case poll =>
    intro hneg
    rw [if_pos (.inr (h.poll.2 hneg)), if_neg (not_not_intro (h.other hneg.le))]
    exact ⟨_, rfl, rfl, le_rfl, le_rfl, by decide⟩

/-- After `select` the loop goes round if its outcome is skipped, and returns the outcome if not. -/
theorem afterSelect_spec (env : SelectEnv) {poll : Bool} (hpoll : poll = true ↔ toUs < 0) (i : ℕ)
    (hfds : Placed (rfd ++ wfd ++ efd)) (calls : List SelectArgs) :
    Returns (afterSelect (env.select i) rfd wfd efd poll true calls) fun
      | .inl calls' => calls' = calls ∧ env.Skipped toUs i
      | .inr r => r.calls = calls ∧ ¬ env.Skipped toUs i ∧ r.r = (env.select i).r ∧
          r.Leaves (env.select i) rfd wfd efd := by
  unfold afterSelect SelectEnv.Skipped
  split_ifs with h0 hp hlt hintr
  · -- nothing is ready, and `io_select` only polls
    have hneg := hpoll.1 hp
    exact .ok ⟨rfl, by omega, h0.symm, fun _ => ⟨rfl, rfl, rfl⟩, fun hpos => absurd hpos (lt_irrefl 0)⟩
  · exact .ok ⟨rfl, .inl ⟨h0, not_lt.1 (mt hpoll.2 hp)⟩⟩
  · exact .ok ⟨rfl, .inr ⟨hlt, hintr.1⟩⟩
  · -- `select` failed for another reason than an interruption
    have hnot : (env.select i).errno ≠ eintr := fun he => hintr ⟨he, rfl⟩
    exact .ok ⟨rfl, by tauto, rfl, fun _ => ⟨rfl, rfl, rfl⟩, fun hpos => absurd hpos hlt.not_gt⟩
  · obtain ⟨rfd', wfd', efd', hr, hw, he, hmarked⟩ := markUnsets_spec hfds (env.select i)
    simp only [hr, hw, he, ok_bind]
    refine .ok ⟨rfl, by tauto, rfl, fun hle => ?_, fun _ => hmarked⟩
    exact absurd (le_antisymm hle (not_lt.1 hlt)) h0

/-- One turn of `io_select`: the time is up, or `select` is called, and called again if that is
skipped. -/
theorem selectTurn_spec {tsend : ℤ} {poll : Bool} (h : Encodes env toUs tsend poll)
    (hfds : Placed (rfd ++ wfd ++ efd)) (hne : rfd ++ wfd ++ efd ≠ [])
    (calls : List SelectArgs) :
    Returns (selectTurn env rfd wfd efd tsend poll true calls) fun
      | .inl calls' => ∃ call, calls' = calls ++ [call] ∧
          env.Asks toUs rfd wfd efd calls.length call ∧ env.Skipped toUs calls.length
      | .inr r =>
        (r.calls = calls ∧ r.r = 0 ∧ 0 < toUs ∧ env.left toUs calls.length ≤ 0 ∧
          r.rfd = rfd ∧ r.wfd = wfd ∧ r.efd = efd) ∨
        ∃ call, r.calls = calls ++ [call] ∧ env.Asks toUs rfd wfd efd calls.length call ∧
          ¬ env.Skipped toUs calls.length ∧ r.r = (env.select calls.length).r ∧
          r.Leaves (env.select calls.length) rfd wfd efd := by
  obtain ⟨m₁, m₂, m₃, hr, hw, he, hmax⟩ := fillSets_spec hfds
  simp only [selectTurn, hr, hw, he, ok_bind]
  have hpos : ¬ m₃ < 0 := by
    obtain ⟨fd, hmem⟩ := List.exists_mem_of_ne_nil _ hne
    exact not_lt.2 ((hfds fd hmem).1.trans (hmax fd hmem))
  rw [if_neg hpos]
  refine .ite (fun hup => .ok (.inl ?_)) fun htime => ?_
  · obtain ⟨hlimited, hleft⟩ := (h.late_iff calls.length).1 hup
    exact ⟨rfl, rfl, hlimited, hleft, rfl, rfl, rfl⟩
  · have hleft (hlimited : 0 < toUs) : 0 < env.left toUs calls.length := by
      by_contra hle
      exact htime ((h.late_iff calls.length).2 ⟨hlimited, not_lt.1 hle⟩)
    have hwaits := h.waits hleft
    generalize htimeout : (if tsend ≠ 0 ∨ poll = true then
      some (if tsend ≠ 0 then
        (tconv ⟨0, 0⟩ (selectTrem tsend (tstampUs (env.clock (calls.length + 1)))) false).1
        else ⟨0, 0⟩) else none) = timeout at hwaits ⊢
    generalize hcall :
      (⟨m₃ + 1, rfd.toFinset, wfd.toFinset, efd.toFinset, timeout⟩ : SelectArgs) = call
    have hasks : env.Asks toUs rfd wfd efd calls.length call := by
      rw [← hcall]
      exact ⟨rfl, rfl, rfl, fun fd hfd => Int.lt_add_one_of_le (hmax fd hfd), hwaits⟩
    apply (afterSelect_spec env h.poll calls.length hfds (calls ++ [call])).mono
    rintro (calls' | r)
    · rintro ⟨hcalls, hskip⟩
      exact ⟨_, hcalls, hasks, hskip⟩
    · rintro ⟨hcalls, hnot, hr, hleaves⟩
      exact .inr ⟨_, hcalls, hasks, hnot, hr, hleaves⟩

/-- The calls of `select` that have been made ask for the descriptors and for the time left. -/
def SelectEnv.AsksAll (env : SelectEnv) (toUs : ℤ) (rfd wfd efd : List ℤ) (calls : List SelectArgs) :
    Prop :=
  ∀ i call, calls[i]? = some call → env.Asks toUs rfd wfd efd i call

theorem SelectEnv.AsksAll.concat (h : env.AsksAll toUs rfd wfd efd calls) {call : SelectArgs}
    (hcall : env.Asks toUs rfd wfd efd calls.length call) :
    env.AsksAll toUs rfd wfd efd (calls ++ [call]) := by
  intro i call' hi
  rcases lt_trichotomy i calls.length with hlt | rfl | hgt
  · rw [List.getElem?_append_left hlt] at hi
    exact h i call' hi
  · rw [List.getElem?_concat_length, Option.some.injEq] at hi
    exact hi ▸ hcall
  · rw [List.getElem?_eq_none (by simp; omega)] at hi
    cases hi

/-- The state of the loop after calls of `select` that were all skipped. -/
def SelectEnv.Going (env : SelectEnv) (toUs : ℤ) (rfd wfd efd : List ℤ) (calls : List SelectArgs) :
    Prop :=
  env.AsksAll toUs rfd wfd efd calls ∧ ∀ i < calls.length, env.Skipped toUs i

/-- What `io_select` has done when it returns. -/
def SelectEnv.Done (env : SelectEnv) (toUs : ℤ) (rfd wfd efd : List ℤ) (r : SelectReturn) : Prop :=
  env.AsksAll toUs rfd wfd efd r.calls ∧ r.Ended env toUs rfd wfd efd

theorem SelectEnv.Going.turn {tsend : ℤ} {poll : Bool} (h : env.Going toUs rfd wfd efd calls)
    (henc : Encodes env toUs tsend poll) (hfds : Placed (rfd ++ wfd ++ efd))
    (hne : rfd ++ wfd ++ efd ≠ []) :
    Returns (selectTurn env rfd wfd efd tsend poll true calls)
      (Sum.elim (env.Going toUs rfd wfd efd) (env.Done toUs rfd wfd efd)) := by
  obtain ⟨hasks, hskip⟩ := h
  apply (selectTurn_spec henc hfds hne calls).mono
  rintro (calls' | r)
  · rintro ⟨call, rfl, hcall, hnext⟩
    refine ⟨hasks.concat hcall, fun i hi => ?_⟩
    rw [List.length_append, List.length_singleton] at hi
    rcases Nat.lt_succ_iff_lt_or_eq.1 hi with hlt | rfl
    · exact hskip i hlt
    · exact hnext
  · rintro (⟨hcalls, hr, hpos, hleft, harrays⟩ | ⟨call, hcalls, hcall, hnot, hr, hleaves⟩)
    · have hlen : r.calls.length = calls.length := congrArg List.length hcalls
      exact ⟨hcalls ▸ hasks, .timeout hr hpos (hlen ▸ hleft) (hlen ▸ hskip) harrays⟩
    · have hlen : r.calls.length = calls.length + 1 := by
        rw [hcalls, List.length_append, List.length_singleton]
      exact ⟨hcalls ▸ hasks.concat hcall, .reported calls.length hlen hr hnot hskip hleaves⟩

/-- **`io_select`**, for any number of turns: all calls of `select` ask for the time left, and until
it returns all their outcomes are skipped. -/
theorem ioSelect_spec (hclock : 0 < toUs → 0 < tstampUs (env.clock 0))
    (hfds : Placed (rfd ++ wfd ++ efd)) (hne : rfd ++ wfd ++ efd ≠ []) (turns : ℕ) :
    Returns (ioSelect env turns rfd wfd efd toUs true)
      (Sum.elim (env.Going toUs rfd wfd efd) (env.Done toUs rfd wfd efd)) := by
  have hinit : env.Going toUs rfd wfd efd [] :=
    ⟨fun i call hi => (by cases hi), fun i hi => absurd hi (Nat.not_lt_zero i)⟩
  exact Returns.loopFor _ _ (fun _ h => h.turn (encodes_of_pos hclock) hfds hne) turns hinit

end

/-- The first `turns` turns of `io_select` keep one deadline: with a timeout, every call of `select`
waits for what is left to the deadline, 0 is returned when it has passed, and an interruption or an
early end of `select` makes no difference; without one, 0 is not returned; polling returns 0 for the
first `select` with nothing ready; and only a positive result leaves marks in the arrays. -/
structure KeepsDeadline (env : SelectEnv) (toUs : ℤ) (rfd wfd efd : List ℤ) (turns : ℕ) : Prop where
  waits : 0 < toUs → Returns (ioSelect env turns rfd wfd efd toUs true) fun res =>
    ∀ (i : ℕ) call, (Sum.elim id SelectReturn.calls res)[i]? = some call →
      0 < env.left toUs i ∧ ∃ tv, call.timeout = some tv ∧ tv.Spans (env.left toUs i)
  limited : 0 < toUs → Returns (ioSelect env turns rfd wfd efd toUs true) fun
    | .inl _ => True
    | .inr r =>
      (r.r = 0 → tstampUs (env.clock 0) + toUs ≤ tstampUs (env.clock (r.calls.length + 1))) ∧
      (r.r ≠ 0 → ∃ k, r.calls.length = k + 1 ∧ r.r = (env.select k).r ∧
        ((env.select k).r < 0 → (env.select k).errno ≠ eintr))
  unlimited : toUs = 0 → Returns (ioSelect env turns rfd wfd efd toUs true) fun
    | .inl calls => ∀ call ∈ calls, call.timeout = none
    | .inr r => r.r ≠ 0 ∧ ∀ call ∈ r.calls, call.timeout = none
  poll : toUs < 0 → Returns (ioSelect env turns rfd wfd efd toUs true) fun
    | .inl calls => ∀ i < calls.length, (env.select i).r ≠ 0
    | .inr r => ∃ k, r.calls.length = k + 1 ∧ r.r = (env.select k).r ∧ ∀ i < k, (env.select i).r ≠ 0
  arrays : Returns (ioSelect env turns rfd wfd efd toUs true) fun
    | .inl _ => True
    | .inr r =>
      (r.r ≤ 0 → r.rfd = rfd ∧ r.wfd = wfd ∧ r.efd = efd) ∧
      (0 < r.r → ∃ k, r.calls.length = k + 1 ∧ ReadyMarked (env.select k).rfds rfd r.rfd ∧
        ReadyMarked (env.select k).wfds wfd r.wfd ∧ ReadyMarked (env.select k).efds efd r.efd)

theorem keepsDeadline_of_placed (env : SelectEnv) {rfd wfd efd : List ℤ}
    (hfds : Placed (rfd ++ wfd ++ efd)) (hne : rfd ++ wfd ++ efd ≠ []) {toUs : ℤ}
    (hclock : 0 < toUs → 0 < tstampUs (env.clock 0)) (turns : ℕ) :
    KeepsDeadline env toUs rfd wfd efd turns := by
  have hspec := ioSelect_spec hclock hfds hne turns
  constructor
  case waits =>
    intro hpos
    apply hspec.mono
    rintro (calls | r) h i call hcall
    · exact (h.1 i call hcall).waits.limited hpos
    · exact (h.1 i call hcall).waits.limited hpos
  case limited =>
    intro hpos
    apply hspec.mono
    rintro (calls | r) h
    · trivial
    · rcases h.2 with ⟨hr, -, hleft, -, -⟩ | ⟨k, hk, hr, hnot, -, -⟩
      · refine ⟨fun _ => ?_, fun hne => absurd hr hne⟩
        unfold SelectEnv.left at hleft
        omega
      · refine ⟨fun h0 => ?_, fun _ => ⟨k, hk, hr, fun hlt he => hnot (.inr ⟨hlt, he⟩)⟩⟩
        exact absurd (.inl ⟨hr.symm.trans h0, hpos.le⟩) hnot
  case unlimited =>
    intro hzero
    apply hspec.mono
    rintro (calls | r) h
    · intro call hcall
      obtain ⟨i, hi⟩ := List.mem_iff_getElem?.1 hcall
      exact (h.1 i call hi).waits.unlimited hzero
    · refine ⟨?_, fun call hcall => ?_⟩
      · rcases h.2 with ⟨-, hpos, -, -, -⟩ | ⟨k, -, hr, hnot, -, -⟩
        · omega
        · exact fun h0 => hnot (.inl ⟨hr.symm.trans h0, hzero.ge⟩)
      · obtain ⟨i, hi⟩ := List.mem_iff_getElem?.1 hcall
        exact (h.1 i call hi).waits.unlimited hzero
  case poll =>
    intro hneg
    have hskipped (i : ℕ) (hskip : env.Skipped toUs i) : (env.select i).r ≠ 0 := by
      rcases hskip with ⟨-, hnonneg⟩ | ⟨hlt, -⟩
      · omega
      · exact hlt.ne
    apply hspec.mono
    rintro (calls | r) h
    · exact fun i hi => hskipped i (h.2 i hi)
    · rcases h.2 with ⟨-, hpos, -, -, -⟩ | ⟨k, hk, hr, -, hskip, -⟩
      · omega
      · exact ⟨k, hk, hr, fun i hi => hskipped i (hskip i hi)⟩
  case arrays =>
    apply hspec.mono
    rintro (calls | r) h
    · trivial
    · rcases h.2 with ⟨hr, -, -, -, harrays⟩ | ⟨k, hk, -, -, -, hleaves⟩
      · exact ⟨fun _ => harrays, fun hpos => absurd hr hpos.ne'⟩
      · exact ⟨hleaves.unchanged, fun hpos => ⟨k, hk, hleaves.marked hpos⟩⟩

/-- **The deadline of `io_select`.** For all arrays of descriptors that are not negative, every timeout
and every outcome of each `select`, `io_select` that goes on after interruptions keeps its deadline,
for any number of turns, if and only if every descriptor is below `FD_SETSIZE`. -/
theorem io_select_keeps_deadline_iff (env : SelectEnv) {rfd wfd efd : List ℤ}
    (hfds : ∀ fd ∈ rfd ++ wfd ++ efd, 0 ≤ fd) (hne : rfd ++ wfd ++ efd ≠ []) {toUs : ℤ}
    (hclock : 0 < toUs → 0 < tstampUs (env.clock 0)) :
    (∀ turns, KeepsDeadline env toUs rfd wfd efd turns) ↔
      ∀ fd ∈ rfd ++ wfd ++ efd, fd < fdSetsize := by
  constructor
  · intro hkeeps
    by_contra hnot
    have hplaced : ¬ Placed (rfd ++ wfd ++ efd) := fun h => hnot fun fd hfd => (h fd hfd).2
    have hfirst := (hkeeps 1).arrays
    rw [ioSelect_of_not_placed hplaced] at hfirst
    exact not_returns_error hfirst
  · intro hlt turns
    exact keepsDeadline_of_placed env (fun fd hfd => ⟨hfds fd hfd, hlt fd hfd⟩) hne hclock turns

/-- A clock that ticks, an interruption, and a `select` that always ends early after it. -/
def interruptedEnv : SelectEnv :=
  ⟨fun i => some ⟨7, 10 * i⟩, fun i => ⟨if i = 0 then -1 else 0, ∅, ∅, ∅, eintr⟩⟩

theorem io_select_keeps_deadline_two : KeepsDeadline interruptedEnv 25 [3, 5] [] [] 9 :=
  (io_select_keeps_deadline_iff interruptedEnv (by decide) (by decide) fun _ => by decide).2
    (by decide) 9

/-- The descriptor 1024 is written outside the set. -/
theorem not_keepsDeadline_of_fdSetsize :
    ¬ ∀ turns, KeepsDeadline interruptedEnv 25 [1024] [] [] turns := by
  intro hkeeps
  have hfirst := (hkeeps 1).arrays
  rw [show ioSelect interruptedEnv 1 [1024] [] [] 25 true = .error .outOfBounds from rfl] at hfirst
  exact not_returns_error hfirst

end LibSrsBsns
