import LibSrsBsns.Log.Config
import LibSrsBsns.Foundations.C.Runs

/-!
# Which messages of the library are written

The log of the library reads its configuration when a message is sent while its level is -1, which it
is at first. What is written after that follows from the calls made: a level set before the first
message keeps the configuration from being read, one set later replaces the default level but not the
levels of single files, and the level -1 makes the next message read the configuration again, with the
destination and the colours. `bsnslog_follows_history` says so for every run.
-/

namespace LibSrsBsns

open C Settings

/-! ## Calls -/

inductive BsnslogCall
  | syslog
  | stderr
  | setfancy (fancy : Bool)
  | getfancy
  | setlvl (lvl : ℤ)
  | getlvl
  | log (lvl : ℤ) (file : List Char)

/-- What a call returns, or where it writes its message. -/
inductive BsnslogOut
  | unit
  | bool (b : Bool)
  | int (n : ℤ)
  | sink (dest : Option LogSink)
  deriving DecidableEq

def bsnslogStep (env : LogEnv) (s : Bsnslog) : BsnslogCall → Exec (BsnslogOut × Bsnslog)
  | .syslog => .ok (.unit, bsnslogSyslog s)
  | .stderr => .ok (.unit, bsnslogStderr s)
  | .setfancy fancy => .ok (.unit, bsnslogSetfancy s fancy)
  | .getfancy => .ok (.bool (bsnslogGetfancy s), s)
  | .setlvl lvl => .ok (.unit, bsnslogSetlvl s lvl)
  | .getlvl => .ok (.int (bsnslogGetlvl s), s)
  | .log lvl file => do
    let (dest, s) ← bsnslogLog env .ample s lvl file
    .ok (.sink dest, s)

/-! ## Histories -/

/-- What the environment says: the tokens of `LIBSRSBSNS_DEBUG`, whether the target is `syslog`, and
whether messages are to be coloured. -/
structure LogConfig where
  tokens : List (LogToken × ℕ)
  syslog : Bool
  fancy : Bool

/-- The environment has the configuration. -/
structure LogEnv.Denotes (env : LogEnv) (c : LogConfig) : Prop where
  debug : env.debug = none ∧ c.tokens = [] ∨ ∃ v lead, env.debug = some v ∧
    v.Str 0 (render ' ' LogToken.text lead c.tokens) ∧ Apart c.tokens
  target : c.syslog = true ↔ env.target = some "syslog".toList
  fancy : c.fancy = env.fancy.elim false fun v => decide (v.headD nul ≠ '0')

namespace LogConfig

variable (c : LogConfig)

/-- The level after some calls, the latest first. -/
def level : List BsnslogCall → ℤ
  | [] => -1
  | .setlvl lvl :: _ => lvl
  | .log _ _ :: h => if level h = -1 then defaultLevel c.tokens else level h
  | _ :: h => level h

def isRead : List BsnslogCall → Bool
  | [] => false
  | .log _ _ :: h => isRead h || c.level h = -1
  | _ :: h => isRead h

/-- The greatest level at which messages from the file are written. -/
def threshold (h : List BsnslogCall) (file : List Char) : ℤ :=
  if c.isRead h then (latest (settings c.tokens) (some file)).getD (c.level h) else c.level h

/-- Messages are written to `stderr`. -/
def toStderr : List BsnslogCall → Bool
  | [] => true
  | .syslog :: _ => false
  | .stderr :: _ => true
  | .log _ _ :: h => if c.level h = -1 then !c.syslog else toStderr h
  | _ :: h => toStderr h

/-- Messages are coloured, if they are written to `stderr`. -/
def coloured : List BsnslogCall → Bool
  | [] => false
  | .syslog :: _ => false
  | .setfancy fancy :: h => if c.toStderr h then fancy else coloured h
  | .log _ _ :: h => if c.level h = -1 then !c.syslog && c.fancy else coloured h
  | _ :: h => coloured h

end LogConfig

/-- A call after the calls `h`. -/
def bsnslogSpec (c : LogConfig) (h : List BsnslogCall) (call : BsnslogCall) :
    BsnslogOut × List BsnslogCall :=
  (match call with
    | .getfancy => .bool (c.toStderr h && c.coloured h)
    | .getlvl => .int (c.level h)
    | .log lvl file => .sink (if lvl > c.threshold (call :: h) file then none
        else some (if c.toStderr (call :: h) then .stderr else .syslog))
    | _ => .unit, call :: h)

/-! ## Reading the configuration -/

/-- The variables of the log are as the configuration says. -/
structure Bsnslog.Obeys (s : Bsnslog) (c : LogConfig) : Prop where
  sLvl : s.sLvl = defaultLevel c.tokens
  sLvlmap : ∃ lvlmap, s.sLvlmap = some lvlmap ∧
    lvlmap.Binds fun file => latest (settings c.tokens) (some file)
  sStderr : s.sStderr = !c.syslog
  sFancy : s.sFancy = (!c.syslog && c.fancy)

section

variable {env : LogEnv} {c : LogConfig}

theorem LogEnv.Denotes.finish (henv : env.Denotes c) {l : LogLoop} (hreads : l.Reads (settings c.tokens))
    {s : Bsnslog} (hlvl : s.sLvl = l.lvl) (hlvlmap : s.sLvlmap = some l.lvlmap) :
    (bsnslogSetfancy (if env.target = some "syslog".toList then bsnslogSyslog s else bsnslogStderr s)
      c.fancy).Obeys c := by
  have hmap : ∃ lvlmap, s.sLvlmap = some lvlmap ∧
      lvlmap.Binds fun file => latest (settings c.tokens) (some file) :=
    ⟨l.lvlmap, hlvlmap, hreads.lvlmap⟩
  cases hsyslog : c.syslog with
  | true =>
    rw [if_pos (henv.target.1 hsyslog)]
    exact ⟨hlvl.trans hreads.lvl, hmap, by rw [hsyslog]; rfl, by rw [hsyslog]; rfl⟩
  | false =>
    have hne : env.target ≠ some "syslog".toList := fun h => by simp [henv.target.2 h] at hsyslog
    rw [if_neg hne]
    exact ⟨hlvl.trans hreads.lvl, hmap, by rw [hsyslog]; rfl, by rw [hsyslog]; rfl⟩

theorem LogEnv.Denotes.init (henv : env.Denotes c) (s : Bsnslog) :
    Returns (bsnslogInit env .ample s) (·.Obeys c) := by
  obtain ⟨lvlmap, hmap, hempty⟩ := Smap.init_spec (V := ℤ) (show 1 ≤ 16 by decide)
  have hmem : (!LogMem.ample.map) = false := rfl
  have hfancy := henv.fancy
  simp only [bsnslogInit, hmem, Bool.false_eq_true, if_false, hmap, ok_bind]
  rcases henv.debug with ⟨hnone, htokens⟩ | ⟨v, lead, hsome, hstr, hapart⟩
  · have hreads : LogLoop.Reads ⟨0, .malloc 64, logErr, lvlmap⟩ (settings c.tokens) := by
      rw [htokens]
      exact ⟨rfl, hempty⟩
    simp only [hnone]
    cases hv : env.fancy with
    | none =>
      rw [hv, Option.elim_none] at hfancy
      exact .ok (hfancy ▸ henv.finish hreads rfl rfl)
    | some v =>
      rw [hv, Option.elim_some] at hfancy
      exact .ok (hfancy ▸ henv.finish hreads rfl rfl)
  · have hstart : LogLoop.At v c.tokens ⟨0, .malloc 64, logErr, lvlmap⟩ :=
      ⟨[], lead, c.tokens, rfl, hapart, hstr, rfl, rfl, hempty⟩
    obtain ⟨l, hloop, hreads⟩ := logLoop_spec (n := v.size + 1) hstart (Nat.lt_succ_self v.size)
    simp only [hsome, hloop, ok_bind]
    cases hv : env.fancy with
    | none =>
      rw [hv, Option.elim_none] at hfancy
      exact .ok (hfancy ▸ henv.finish hreads rfl rfl)
    | some v =>
      rw [hv, Option.elim_some] at hfancy
      exact .ok (hfancy ▸ henv.finish hreads rfl rfl)

end

/-! ## One call -/

/-- The variables of the log after the calls `h`. -/
structure Bsnslog.After (c : LogConfig) (s : Bsnslog) (h : List BsnslogCall) : Prop where
  sLvl : s.sLvl = c.level h
  sLvlmap : if c.isRead h then ∃ lvlmap, s.sLvlmap = some lvlmap ∧
      lvlmap.Binds fun file => latest (settings c.tokens) (some file)
    else s.sLvlmap = none
  sStderr : s.sStderr = c.toStderr h
  sFancy : s.sFancy = c.coloured h

section

variable {env : LogEnv} {c : LogConfig} {s : Bsnslog} {h : List BsnslogCall}

theorem Bsnslog.After.read (hs : s.After c h) (henv : env.Denotes c) (lvl : ℤ) (file : List Char) :
    Returns (if s.sLvl = -1 then bsnslogInit env .ample s else .ok s)
      (·.After c (.log lvl file :: h)) := by
  rw [hs.sLvl]
  refine .ite (fun hlvl => ?_) fun hlvl => .ok ?_
  · apply (henv.init s).mono
    intro s' hs'
    refine ⟨?_, ?_, ?_, ?_⟩
    · rw [hs'.sLvl, LogConfig.level, if_pos hlvl]
    · rw [LogConfig.isRead, decide_eq_true hlvl, Bool.or_true, if_pos rfl]
      exact hs'.sLvlmap
    · rw [hs'.sStderr, LogConfig.toStderr, if_pos hlvl]
    · rw [hs'.sFancy, LogConfig.coloured, if_pos hlvl]
  · refine ⟨?_, ?_, ?_, ?_⟩
    · rw [hs.sLvl, LogConfig.level, if_neg hlvl]
    · rw [LogConfig.isRead, decide_eq_false hlvl, Bool.or_false]
      exact hs.sLvlmap
    · rw [hs.sStderr, LogConfig.toStderr, if_neg hlvl]
    · rw [hs.sFancy, LogConfig.coloured, if_neg hlvl]

theorem Bsnslog.After.thr (hs : s.After c h) (file : List Char) :
    s.thr file = .ok (c.threshold h file) := by
  have hmap := hs.sLvlmap
  unfold Bsnslog.thr LogConfig.threshold
  split_ifs at hmap ⊢ with hread
  · obtain ⟨lvlmap, hsome, hbinds⟩ := hmap
    simp only [hsome, hbinds.get, ok_bind, hs.sLvl]
  · simp only [hmap, hs.sLvl]

theorem bsnslogStep_spec (henv : env.Denotes c) (call : BsnslogCall) (hs : s.After c h) :
    Returns (bsnslogStep env s call) fun r =>
      r.1 = (bsnslogSpec c h call).1 ∧ r.2.After c (bsnslogSpec c h call).2 := by
  cases call with
  | syslog => exact .ok ⟨rfl, hs.sLvl, hs.sLvlmap, rfl, rfl⟩
  | stderr => exact .ok ⟨rfl, hs.sLvl, hs.sLvlmap, rfl, hs.sFancy⟩
  | setfancy fancy =>
    refine .ok ⟨rfl, ?_⟩
    simp only [bsnslogSetfancy, hs.sStderr]
    cases hdest : c.toStderr h with
    | true =>
      exact ⟨hs.sLvl, hs.sLvlmap, hdest.symm, by simp [bsnslogSpec, LogConfig.coloured, hdest]⟩
    | false =>
      exact ⟨hs.sLvl, hs.sLvlmap, hs.sStderr,
        by simpa [bsnslogSpec, LogConfig.coloured, hdest] using hs.sFancy⟩
  | getfancy =>
    refine .ok ⟨?_, hs.sLvl, hs.sLvlmap, hs.sStderr, hs.sFancy⟩
    rw [bsnslogGetfancy, hs.sStderr, hs.sFancy]
    rfl
  | setlvl lvl => exact .ok ⟨rfl, rfl, hs.sLvlmap, hs.sStderr, hs.sFancy⟩
  | getlvl =>
    refine .ok ⟨?_, hs.sLvl, hs.sLvlmap, hs.sStderr, hs.sFancy⟩
    rw [bsnslogGetlvl, hs.sLvl]
    rfl
  | log lvl file =>
    obtain ⟨s', hread, hs'⟩ := hs.read henv lvl file
    have hlog : bsnslogLog env .ample s lvl file =
        .ok (if lvl > c.threshold (.log lvl file :: h) file then none
          else some (if c.toStderr (.log lvl file :: h) then .stderr else .syslog), s') := by
      by_cases hlvl : s.sLvl = -1
      · rw [if_pos hlvl] at hread
        simp only [bsnslogLog, if_pos hlvl, hread, ok_bind, hs'.thr, hs'.sStderr]
        split <;> rfl
      · rw [if_neg hlvl] at hread
        obtain rfl := Except.ok.inj hread
        simp only [bsnslogLog, if_neg hlvl, ok_bind, hs'.thr, hs'.sStderr]
        split <;> rfl
    rw [bsnslogStep, hlog, ok_bind]
    exact .ok ⟨rfl, hs'⟩

end

/-- **Which messages of the library are written, and where.** Whatever the environment denotes, in
every run of calls on the log, with allocations succeeding, each one returns what the calls before it
demand, and a message is written if and only if its level is at most the threshold of its file, to the
destination that the calls demand. -/
theorem bsnslog_follows_history {env : LogEnv} {c : LogConfig} (henv : env.Denotes c)
    (calls : List BsnslogCall) : Returns (runs (bsnslogStep env) .start calls) fun r =>
      r.1 = (runSpec (bsnslogSpec c) [] calls).1 := by
  have hstart : Bsnslog.start.After c [] := ⟨rfl, rfl, rfl, rfl⟩
  have hruns := Returns.runs (bsnslogSpec c) (Bsnslog.After c) (fun _ => True)
    (fun s h call _ hs => bsnslogStep_spec henv call hs) hstart fun call (_ : call ∈ calls) => trivial
  exact hruns.mono fun _ hr => hr.1

theorem denotes_fiveEnv : fiveEnv.Denotes ⟨[(assignFive, 2), (malformedX, 0)], false, false⟩ :=
  ⟨.inr ⟨_, 1, rfl, ⟨holds_stringBuffer _, by decide⟩, List.isChain_pair.2 (show 0 < 2 by decide)⟩,
    by decide, rfl⟩

/-- The file `a` has the level 5 from the environment, which is not read while a level is set, and
keeps it afterwards. -/
theorem bsnslog_follows_history_five :
    Returns (runs (bsnslogStep fiveEnv) .start [.setlvl 0, .log 3 ['a'], .setlvl (-1), .log 5 ['a'],
      .setlvl 1, .log 5 ['a'], .log 3 ['b']]) fun r => r.1 = [.unit, .sink none, .unit,
        .sink (some .stderr), .unit, .sink (some .stderr), .sink none] := by
  exact (bsnslog_follows_history denotes_fiveEnv _).mono fun r hr => hr.trans (by decide +kernel)

/-! ## A level set at the start -/

/-- The level is set, and the configuration has not been read. -/
structure Bsnslog.Unread (s : Bsnslog) : Prop where
  sLvl : s.sLvl ≠ -1
  sLvlmap : s.sLvlmap = none

/-- Until the level is -1, no call looks at the environment. -/
theorem Bsnslog.Unread.step {s : Bsnslog} (hs : s.Unread) (env env' : LogEnv) {call : BsnslogCall}
    (hcall : call ≠ .setlvl (-1)) :
    Returns (bsnslogStep env s call) fun r => bsnslogStep env' s call = .ok r ∧ r.2.Unread := by
  cases call with
  | syslog => exact .ok ⟨rfl, hs.sLvl, hs.sLvlmap⟩
  | stderr => exact .ok ⟨rfl, hs.sLvl, hs.sLvlmap⟩
  | setfancy fancy =>
    refine .ok ⟨rfl, ?_⟩
    unfold bsnslogSetfancy
    split
    · exact hs
    · exact ⟨hs.sLvl, hs.sLvlmap⟩
  | getfancy => exact .ok ⟨rfl, hs⟩
  | setlvl lvl => exact .ok ⟨rfl, fun heq => hcall (congrArg BsnslogCall.setlvl heq), hs.sLvlmap⟩
  | getlvl => exact .ok ⟨rfl, hs⟩
  | log lvl file =>
    have hlog (env : LogEnv) : bsnslogLog env .ample s lvl file =
        .ok (if lvl > s.sLvl then none else some (if s.sStderr then .stderr else .syslog), s) := by
      simp only [bsnslogLog, if_neg hs.sLvl, Bsnslog.thr, hs.sLvlmap, ok_bind]
      split <;> rfl
    simp only [bsnslogStep, hlog, ok_bind]
    exact .ok ⟨rfl, hs⟩

/-- **A level set at the start keeps the environment out.** If a run starts with `bsnslog_setlvl` and
never sets the level -1, it returns, and returns and writes the same in any other environment: neither
the levels of files nor the target nor the colours in it have an effect. -/
theorem bsnslog_ignores_environment (env env' : LogEnv) {lvl : ℤ} (hlvl : lvl ≠ -1)
    {calls : List BsnslogCall} (hcalls : .setlvl (-1) ∉ calls) :
    Returns (runs (bsnslogStep env) .start (.setlvl lvl :: calls)) fun r =>
      runs (bsnslogStep env') .start (.setlvl lvl :: calls) = .ok r := by
  have hset : Bsnslog.Unread (bsnslogSetlvl .start lvl) := ⟨hlvl, rfl⟩
  have hlegal : ∀ call ∈ calls, call ≠ .setlvl (-1) := fun call hcall heq => hcalls (heq ▸ hcall)
  obtain ⟨r, hr, hr'⟩ := runs_agree Bsnslog.Unread (· ≠ BsnslogCall.setlvl (-1))
    (fun s call hcall hs => hs.step env env' hcall) hset hlegal
  have hrun (env : LogEnv) (h : runs (bsnslogStep env) (bsnslogSetlvl .start lvl) calls = .ok r) :
      runs (bsnslogStep env) .start (.setlvl lvl :: calls) = .ok (.unit :: r.1, r.2) := by
    rw [runs, bsnslogStep, ok_bind, h, ok_bind]
  exact ⟨_, hrun env hr, hrun env' hr'⟩

/-- The level 2 set at the start, with and without a level for the file `a`. -/
theorem bsnslog_ignores_environment_five :
    Returns (runs (bsnslogStep fiveEnv) .start [.setlvl 2, .log 5 ['a'], .getfancy]) fun r =>
      runs (bsnslogStep ⟨none, none, none⟩) .start [.setlvl 2, .log 5 ['a'], .getfancy] = .ok r :=
  bsnslog_ignores_environment fiveEnv ⟨none, none, none⟩ (by decide) (by simp)

end LibSrsBsns
