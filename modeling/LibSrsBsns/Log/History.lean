import LibSrsBsns.Log.Logger
import LibSrsBsns.Foundations.C.Runs

/-!
# What the logger does, from the calls made

The logger keeps a level, a destination and whether messages are coloured. All three follow from the
calls made so far: the last `log_setlvl`, the last `log_syslog` or `log_stderr`, and the last
`log_setfancy` that was not ignored. `log_follows_history` says that a run returns, writes and connects
as these calls demand. `log_stderr` closes the connection and forgets to record it, so that it can be
closed once more (`log_closes_open_iff`).
-/

namespace LibSrsBsns

open C

variable {α : Type} {conv : List Char → α → List Char}

/-! ## Histories -/

/-- Where messages go after some calls, the latest first: to the connection with this name, or to
`stderr`. -/
def lastDest : List (LogCall α) → Option SyslogId
  | [] => none
  | .syslog id :: _ => some id
  | .stderr :: _ => none
  | _ :: h => lastDest h

/-- The level set last. -/
def lastLvl : List (LogCall α) → ℤ
  | [] => 0
  | .setlvl lvl :: _ => lvl
  | _ :: h => lastLvl h

/-- Whether messages are coloured: what was set last on `stderr`, unless `log_syslog` has been called
since. -/
def lastFancy : List (LogCall α) → Bool
  | [] => false
  | .setfancy fancy :: h => if (lastDest h).isNone then fancy else lastFancy h
  | .syslog _ :: _ => false
  | _ :: h => lastFancy h

/-- `log_syslog` has been called. -/
def everOpened : List (LogCall α) → Bool
  | [] => false
  | .syslog _ :: _ => true
  | _ :: h => everOpened h

namespace LogMsg

variable (m : LogMsg α)

/-- What the caller wants to be written. -/
def text (conv : List Char → α → List Char) : List Char :=
  match vformat conv none m.fmt m.args with
  | .ok out => out
  | .error _ => []

/-- The effects of `log_log` after the calls `h`. -/
def written (conv : List Char → α → List Char) (h : List (LogCall α)) : List LogEffect :=
  if m.lvl > lastLvl h then []
  else
    match lastDest h with
    | none => [.stderr (m.lead (lastFancy h) ++ m.text conv ++ m.trail (lastFancy h))]
    | some _ => [.syslog m.lvl (m.place ++ m.text conv ++ m.errmsg)]

/-- The format is one for the arguments, what stands around it is taken literally, and all of it fits
in the array of `log_log`. -/
structure WellFormed (conv : List Char → α → List Char) : Prop where
  fmt : Returns (vformat conv none m.fmt m.args) fun _ => True
  file : '%' ∉ m.file
  func : '%' ∉ m.func
  err : ∀ e ∈ m.err, '%' ∉ e
  short : (m.lead true ++ m.fmt ++ m.trail true).length < 4096

end LogMsg

/-- A call after the calls `h`. -/
def historySpec (conv : List Char → α → List Char) (h : List (LogCall α)) (c : LogCall α) :
    LogOut × List (LogCall α) :=
  (match c with
    | .syslog id => .effects ((if everOpened h then [.closelog] else []) ++ [.openlog id])
    | .stderr => .effects (if everOpened h then [.closelog] else [])
    | .setfancy _ => .effects []
    | .getfancy => .bool ((lastDest h).isNone && lastFancy h)
    | .setlvl _ => .effects []
    | .getlvl => .int (lastLvl h)
    | .log m => .effects (m.written conv h), c :: h)

/-- The connection, if there is one, after an effect: it is not opened twice, and nothing is sent
without it. -/
def LogEffect.connect : Option SyslogId → LogEffect → Option (Option SyslogId)
  | none, .openlog id => some (some id)
  | some _, .openlog _ => none
  | _, .closelog => some none
  | c, .stderr _ => some c
  | none, .syslog _ _ => none
  | some id, .syslog _ _ => some (some id)

/-- The same, where a connection is not closed twice either. -/
def LogEffect.connectStrictly : Option SyslogId → LogEffect → Option (Option SyslogId)
  | none, .closelog => none
  | c, e => e.connect c

/-! ## Messages -/

namespace LogMsg

variable {m : LogMsg α}

theorem percent_notMem_decimal (n : ℤ) : '%' ∉ decimal n := by
  have hdigits (k : ℕ) : '%' ∉ Nat.toDigits 10 k := by
    intro hmem
    cases Nat.isDigit_of_mem_toDigits (by decide) (by decide) hmem
  unfold decimal
  split
  · intro hmem
    rcases List.mem_cons.1 hmem with he | hmem
    · cases he
    · exact hdigits _ hmem
  · exact hdigits _

theorem percent_notMem_lvlnam (lvl : ℤ) : '%' ∉ lvlnam lvl := by
  unfold lvlnam
  split_ifs <;> decide

theorem percent_notMem_lvlcol (lvl : ℤ) : '%' ∉ lvlcol lvl := by
  unfold lvlcol
  split_ifs <;> decide

namespace WellFormed

variable (h : m.WellFormed conv)
include h

theorem place : '%' ∉ m.place := by
  have hline := percent_notMem_decimal m.line
  simp [LogMsg.place, h.file, h.func, hline]

theorem errmsg : '%' ∉ m.errmsg := by
  have herr := h.err
  unfold LogMsg.errmsg
  cases he : m.err with
  | none => exact List.not_mem_nil
  | some e =>
    intro hmem
    have hnot := herr e he
    simp only [List.mem_cons] at hmem
    rcases hmem with hc | hc | hmem
    · cases hc
    · cases hc
    · exact hnot (List.mem_of_mem_take hmem)

theorem lead (fancy : Bool) : '%' ∉ m.lead fancy := by
  have hnam := percent_notMem_lvlnam m.lvl
  have hcol := percent_notMem_lvlcol m.lvl
  cases fancy <;> simp [LogMsg.lead, h.place, hnam, hcol]

theorem trail (fancy : Bool) : '%' ∉ m.trail fancy := by
  have hrst : '%' ∉ colRst := by decide
  cases fancy <;> simp [LogMsg.trail, h.errmsg, hrst]

/-- The longest message fits, so the others do. -/
theorem fits (fancy : Bool) :
    logBuf (m.lead fancy ++ m.fmt ++ m.trail fancy) = m.lead fancy ++ m.fmt ++ m.trail fancy ∧
      logBuf (m.place ++ m.fmt ++ m.errmsg) = m.place ++ m.fmt ++ m.errmsg := by
  have hshort := h.short
  cases fancy
  all_goals
    simp only [LogMsg.lead, LogMsg.trail, List.length_append, List.length_cons, if_true,
      Bool.false_eq_true, if_false, List.length_nil] at hshort ⊢
    constructor
    all_goals
      apply List.take_of_length_le
      simp only [List.length_append, List.length_cons, List.length_nil]
      omega

theorem vformat_fmt : vformat conv none m.fmt m.args = .ok (m.text conv) := by
  obtain ⟨out, hout, -⟩ := h.fmt
  rw [LogMsg.text, hout]

/-- What stands around a format is written as it is. -/
theorem vformat_around {before after : List Char} (hbefore : '%' ∉ before) (hafter : '%' ∉ after) :
    vformat conv none (before ++ m.fmt ++ after) m.args =
      .ok (before ++ m.text conv ++ after) := by
  rw [List.append_assoc, List.append_assoc]
  exact vformat_append_left hbefore (vformat_append_right hafter h.vformat_fmt)

end WellFormed

end LogMsg

/-! ## One call -/

/-- The variables of the logger after the calls `h`. -/
structure Log.After (s : Log) (h : List (LogCall α)) : Prop where
  sOpen : s.sOpen = everOpened h
  sStderr : s.sStderr = (lastDest h).isNone
  sLvl : s.sLvl = lastLvl h
  sFancy : s.sFancy = lastFancy h

theorem Log.After.log {s : Log} {h : List (LogCall α)} (hs : s.After h) {m : LogMsg α}
    (hm : m.WellFormed conv) : logLog conv s m = .ok (m.written conv h) := by
  unfold logLog LogMsg.written
  rw [hs.sLvl, hs.sStderr, hs.sFancy]
  split
  · rfl
  · cases hdest : lastDest h with
    | none =>
      rw [(hm.fits _).1, hm.vformat_around (hm.lead _) (hm.trail _)]
      rfl
    | some id =>
      rw [(hm.fits true).2, hm.vformat_around hm.place hm.errmsg]
      rfl

/-- One call does what the calls before it demand. -/
theorem logStep_spec {s : Log} {h : List (LogCall α)} {c : LogCall α}
    (hc : ∀ m, c = .log m → m.WellFormed conv) (hs : s.After h) :
    Returns (logStep conv s c) fun r =>
      r.1 = (historySpec conv h c).1 ∧ r.2.After (historySpec conv h c).2 := by
  cases c with
  | syslog id =>
    refine .ok ⟨?_, ⟨rfl, rfl, hs.sLvl, rfl⟩⟩
    rw [logSyslog, hs.sOpen]
    rfl
  | stderr =>
    refine .ok ⟨?_, ⟨hs.sOpen, rfl, hs.sLvl, hs.sFancy⟩⟩
    rw [logStderr, hs.sOpen]
    rfl
  | setfancy fancy =>
    refine .ok ⟨rfl, ?_⟩
    have hstderr := hs.sStderr
    simp only [logSetfancy, hstderr, historySpec]
    cases hdest : lastDest h with
    | none => exact ⟨hs.sOpen, by simp [hdest, lastDest], hs.sLvl, by simp [lastFancy, hdest]⟩
    | some id =>
      exact ⟨hs.sOpen, by simpa [hdest, lastDest] using hstderr, hs.sLvl,
        by simpa [lastFancy, hdest] using hs.sFancy⟩
  | getfancy =>
    refine .ok ⟨?_, ⟨hs.sOpen, hs.sStderr, hs.sLvl, hs.sFancy⟩⟩
    rw [logGetfancy, hs.sStderr, hs.sFancy]
    rfl
  | setlvl lvl => exact .ok ⟨rfl, ⟨hs.sOpen, hs.sStderr, rfl, hs.sFancy⟩⟩
  | getlvl =>
    refine .ok ⟨?_, ⟨hs.sOpen, hs.sStderr, hs.sLvl, hs.sFancy⟩⟩
    rw [logGetlvl, hs.sLvl]
    rfl
  | log m =>
    rw [logStep, hs.log (hc m rfl), ok_bind]
    exact .ok ⟨rfl, ⟨hs.sOpen, hs.sStderr, hs.sLvl, hs.sFancy⟩⟩

/-! ## The connection -/

section

variable {h : List (LogCall α)} {id : SyslogId}

theorem everOpened_of_lastDest (hid : lastDest h = some id) : everOpened h = true := by
  induction h with
  | nil => cases hid
  | cons c h ih =>
    cases c with
    | syslog id' => rfl
    | stderr => cases hid
    | setfancy | getfancy | setlvl | getlvl | log => exact ih hid

/-- The effects of a call leave the connection that the logger is meant to have. -/
theorem connect_historySpec (h : List (LogCall α)) (c : LogCall α) :
    (historySpec conv h c).1.effs.foldlM LogEffect.connect (lastDest h) =
      some (lastDest (historySpec conv h c).2) := by
  cases c with
  | syslog id =>
    cases hdest : lastDest h with
    | none =>
      cases hopen : everOpened h <;>
        simp [historySpec, LogOut.effs, hopen, LogEffect.connect, lastDest]
    | some id' =>
      simp [historySpec, LogOut.effs, everOpened_of_lastDest hdest, LogEffect.connect, lastDest]
  | stderr =>
    cases hdest : lastDest h with
    | none =>
      cases hopen : everOpened h <;>
        simp [historySpec, LogOut.effs, hopen, LogEffect.connect, lastDest]
    | some id' =>
      simp [historySpec, LogOut.effs, everOpened_of_lastDest hdest, LogEffect.connect, lastDest]
  | setfancy | getfancy | setlvl | getlvl => simp [historySpec, LogOut.effs, lastDest]
  | log m =>
    simp only [historySpec, LogOut.effs, LogMsg.written, lastDest]
    split
    · rfl
    · cases hdest : lastDest h <;> simp [LogEffect.connect]

/-- The call chooses where messages go. -/
def LogCall.Selects : LogCall α → Prop
  | .syslog _ => True
  | .stderr => True
  | _ => False

/-- After the calls `h`, the call does not close a connection that is closed: it chooses no
destination where `log_syslog` has been called but `log_stderr` after it. -/
def ClosesOpen (h : List (LogCall α)) (c : LogCall α) : Prop :=
  c.Selects → everOpened h = true → lastDest h ≠ none

theorem connectStrictly_of_closesOpen {c : LogCall α} (hc : ClosesOpen h c) :
    (historySpec conv h c).1.effs.foldlM LogEffect.connectStrictly (lastDest h) =
      some (lastDest (historySpec conv h c).2) := by
  cases c with
  | syslog id =>
    cases hdest : lastDest h with
    | none =>
      have hopen : everOpened h = false := by
        by_contra hopen
        exact hc trivial (Bool.eq_true_of_not_eq_false hopen) hdest
      simp [historySpec, LogOut.effs, hopen, LogEffect.connectStrictly, LogEffect.connect, lastDest]
    | some id' =>
      simp [historySpec, LogOut.effs, everOpened_of_lastDest hdest, LogEffect.connectStrictly,
        LogEffect.connect, lastDest]
  | stderr =>
    cases hdest : lastDest h with
    | none =>
      have hopen : everOpened h = false := by
        by_contra hopen
        exact hc trivial (Bool.eq_true_of_not_eq_false hopen) hdest
      simp [historySpec, LogOut.effs, hopen, lastDest]
    | some id' =>
      simp [historySpec, LogOut.effs, everOpened_of_lastDest hdest, LogEffect.connectStrictly,
        LogEffect.connect, lastDest]
  | setfancy | getfancy | setlvl | getlvl => simp [historySpec, LogOut.effs, lastDest]
  | log m =>
    simp only [historySpec, LogOut.effs, LogMsg.written, lastDest]
    split
    · rfl
    · cases hdest : lastDest h <;> simp [LogEffect.connectStrictly, LogEffect.connect]

theorem connectStrictly_eq_none {c : LogCall α} (hc : ¬ ClosesOpen h c) :
    (historySpec conv h c).1.effs.foldlM LogEffect.connectStrictly (lastDest h) = none := by
  unfold ClosesOpen at hc
  push Not at hc
  obtain ⟨hsel, hopen, hdest⟩ := hc
  cases c with
  | syslog id => simp [historySpec, LogOut.effs, hopen, hdest, LogEffect.connectStrictly]
  | stderr => simp [historySpec, LogOut.effs, hopen, hdest, LogEffect.connectStrictly]
  | setfancy | getfancy | setlvl | getlvl | log => exact hsel.elim

end

/-! ## Runs -/

/-- The effects of a run leave the connection that the logger is meant to have. -/
theorem connect_runs (h calls : List (LogCall α)) :
    ((runSpec (historySpec conv) h calls).1.flatMap LogOut.effs).foldlM LogEffect.connect
      (lastDest h) = some (lastDest (calls.reverse ++ h)) := by
  induction calls generalizing h with
  | nil => rfl
  | cons c calls ih =>
    rw [runSpec_cons, List.flatMap_cons, List.foldlM_append, connect_historySpec, Option.bind_eq_bind,
      Option.bind_some, ih, List.reverse_cons, List.append_assoc]
    rfl

/-- They close open connections only if every call does. -/
theorem connectStrictly_runs (h calls : List (LogCall α)) :
    ((runSpec (historySpec conv) h calls).1.flatMap LogOut.effs).foldlM LogEffect.connectStrictly
      (lastDest h) ≠ none ↔ Admissible (historySpec conv) ClosesOpen h calls := by
  induction calls generalizing h with
  | nil => exact iff_of_true (Option.some_ne_none _) trivial
  | cons c calls ih =>
    rw [runSpec_cons, List.flatMap_cons, List.foldlM_append, Option.bind_eq_bind, Admissible]
    by_cases hc : ClosesOpen h c
    · rw [connectStrictly_of_closesOpen hc, Option.bind_some, ih, and_iff_right hc]
    · rw [connectStrictly_eq_none hc, Option.bind_none, and_iff_left_of_imp fun h' => absurd h' hc]
      exact iff_of_false (fun h' => h' rfl) hc

theorem runs_logStep {calls : List (LogCall α)} (hcalls : ∀ m, .log m ∈ calls → m.WellFormed conv) :
    Returns (runs (logStep conv) .start calls) fun r =>
      r.1 = (runSpec (historySpec conv) [] calls).1 := by
  have hstart : Log.start.After ([] : List (LogCall α)) := ⟨rfl, rfl, rfl, rfl⟩
  apply (Returns.runs (historySpec conv) Log.After (fun c => ∀ m, c = .log m → m.WellFormed conv)
    (fun s h c hc hs => logStep_spec hc hs) hstart ?_).mono
  · intro r hr
    exact hr.1
  · rintro c hc m rfl
    exact hcalls m hc

/-- **The logger follows its history.** In every run, a message is written if its level is at most the
one set last, to `stderr` or to the connection chosen last, complete and in the colours of its level
if these were asked for on `stderr` and no connection has been opened since. A connection is never
opened while there is one, a message is never sent without one, and the connection open in the end is
the one chosen last. -/
theorem log_follows_history {calls : List (LogCall α)}
    (hcalls : ∀ m, .log m ∈ calls → m.WellFormed conv) :
    Returns (runs (logStep conv) .start calls) fun r =>
      r.1 = (runSpec (historySpec conv) [] calls).1 ∧
        (r.1.flatMap LogOut.effs).foldlM LogEffect.connect none = some (lastDest calls.reverse) := by
  apply (runs_logStep hcalls).mono
  rintro r hr
  refine ⟨hr, ?_⟩
  rw [hr]
  exact (connect_runs [] calls).trans (by rw [List.append_nil])

/-- A message with an argument, in a file whose name has no percent sign. -/
def greeting : LogMsg (List Char) where
  lvl := 3
  err := none
  file := ['f']
  line := 7
  func := ['g']
  fmt := ['h', 'i', ' ', '%', 's']
  args := [['x']]

theorem log_follows_history_greeting :
    Returns (runs (logStep fun _ arg => arg) .start [.setlvl 3, .setfancy true, .syslog ⟨none, 8⟩,
      .log greeting, .stderr, .log greeting]) fun r =>
        (r.1.flatMap LogOut.effs).foldlM LogEffect.connect none = some none := by
  have hfmt : greeting.WellFormed fun _ arg => arg :=
    ⟨⟨_, rfl, trivial⟩, by decide, by decide, nofun, by decide +kernel⟩
  apply (log_follows_history (fun m hm => ?_)).mono fun r hr => hr.2
  have hm : m = greeting := by simpa using hm
  exact hm ▸ hfmt

/-- **When connections are closed once only.** In a run, `closelog` is never called without a
connection if and only if no call of `log_syslog` or `log_stderr` comes where `log_syslog` has been
called and `log_stderr` after it. -/
theorem log_closes_open_iff {calls : List (LogCall α)}
    (hcalls : ∀ m, .log m ∈ calls → m.WellFormed conv) :
    Returns (runs (logStep conv) .start calls) fun r =>
      (r.1.flatMap LogOut.effs).foldlM LogEffect.connectStrictly none ≠ none ↔
        Admissible (historySpec conv) ClosesOpen [] calls := by
  apply (runs_logStep hcalls).mono
  rintro r hr
  rw [hr]
  exact connectStrictly_runs [] calls

theorem log_closes_open_iff_twice :
    Returns (runs (logStep fun _ arg => arg) .start
      [.syslog ⟨none, 8⟩, .stderr, (.stderr : LogCall (List Char))]) fun r =>
        (r.1.flatMap LogOut.effs).foldlM LogEffect.connectStrictly none ≠ none ↔
          Admissible (historySpec fun _ arg => arg) ClosesOpen []
            [.syslog ⟨none, 8⟩, .stderr, .stderr] :=
  log_closes_open_iff fun m hm => by simp at hm

end LibSrsBsns
