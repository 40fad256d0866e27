import LibSrsBsns.StrMap.Model
import LibSrsBsns.Misc.Strings

/-!
# The log

The model of `intlog.c`, up to the text of the messages: what `bsnslog_init` makes of the environment,
and which messages `bsnslog_log` writes where. A level in the map is stored by itself, as nothing else
points to it.
-/

namespace LibSrsBsns

open C

/-- `LOG_ERR` of `syslog.h`. -/
def logErr : ℤ := 3

/-- The conversion of a `long` to an `int` of 32 bits. -/
def longToInt (n : ℤ) : ℤ := Int.bmod n (2 ^ 32)

/-- What `getenv` returns for `LIBSRSBSNS_DEBUG`, `LIBSRSBSNS_DEBUG_TARGET` and
`LIBSRSBSNS_DEBUG_FANCY`. -/
structure LogEnv where
  debug : Option (Buffer Char)
  target : Option (List Char)
  fancy : Option (List Char)

/-- What `malloc` finds room for: the map, and for the token that ends at some index of the variable
its level and the list nodes of its key and of its value. -/
structure LogMem where
  map : Bool
  level : ℕ → Bool
  key : ℕ → Bool
  val : ℕ → Bool

/-- There is room for everything. -/
def LogMem.ample : LogMem := ⟨true, fun _ => true, fun _ => true, fun _ => true⟩

/-- The static variables of `intlog.c`. -/
structure Bsnslog where
  sOpen : Bool
  sStderr : Bool
  sLvl : ℤ
  sLvlmap : Option (Smap ℤ)
  sFancy : Bool

/-- Their initial values. -/
def Bsnslog.start : Bsnslog := ⟨false, true, -1, none, false⟩

def bsnslogSyslog (s : Bsnslog) : Bsnslog :=
  { s with sOpen := true, sFancy := false, sStderr := false }

def bsnslogStderr (s : Bsnslog) : Bsnslog := { s with sStderr := true }

def bsnslogSetfancy (s : Bsnslog) (fancy : Bool) : Bsnslog :=
  if !s.sStderr then s else { s with sFancy := fancy }

def bsnslogGetfancy (s : Bsnslog) : Bool := s.sStderr && s.sFancy

def bsnslogSetlvl (s : Bsnslog) (lvl : ℤ) : Bsnslog := { s with sLvl := lvl }

def bsnslogGetlvl (s : Bsnslog) : ℤ := s.sLvl

/-! ## The configuration -/

/-- The local variables of the loop of `bsnslog_init` and the static ones that it changes. -/
structure LogLoop where
  sp : ℕ
  tok : Buffer Char
  lvl : ℤ
  lvlmap : Smap ℤ

/-- The loop that moves `sp` over white space. -/
def skipSpaceLoop (v : Buffer Char) : ℕ → ℕ → Exec ℕ :=
  loop fun sp => do
    let c ← v.read sp
    if isSpace c then .ok (.inl (sp + 1)) else .ok (.inr sp)

def skipSpace (v : Buffer Char) (sp : ℕ) : Exec ℕ := skipSpaceLoop v (v.size + 1) sp

/-- The local `end` of `bsnslog_init`: the next space, or the end of the string. -/
def tokenEnd (v : Buffer Char) (sp : ℕ) : Exec ℕ := do
  match ← v.strchr sp ' ' with
  | some stop => .ok stop
  | none => do
    let len ← v.strlen sp
    .ok (sp + len)

/-- What `bsnslog_init` does with the token that it has copied to `tok`. -/
def LogLoop.useToken (mem : LogMem) (l : LogLoop) : Exec LogLoop := do
  match ← l.tok.strchr 0 '=' with
  | none => do
    let tok ← l.tok.text 0
    if isdigitstr tok then .ok { l with lvl := longToInt (strtol tok) } else .ok l
  | some eq => do
    let nlen := if eq + 1 > 64 then 64 else eq + 1
    let vlen ← l.tok.strlen eq
    let vlen := if vlen > 64 then 64 else vlen
    let nam ← strNcpy (.malloc 64) (← l.tok.text 0) nlen
    let val ← strNcpy (.malloc 64) (← l.tok.text (eq + 1)) vlen
    let val ← val.text 0
    if !isdigitstr val then .ok l
    else if !mem.level l.sp then .ok l
    else do
      let nam ← nam.text 0
      let lvlmap ← smapPut l.lvlmap (some nam) (some (longToInt (strtol val))) (mem.key l.sp)
        (mem.val l.sp)
      .ok { l with lvlmap }

/-- The loop of `bsnslog_init` over the tokens of the variable. -/
def logLoop (mem : LogMem) (v : Buffer Char) : ℕ → LogLoop → Exec LogLoop :=
  loop fun l => do
    let sp ← skipSpace v l.sp
    let c ← v.read sp
    if c = nul then .ok (.inr { l with sp })
    else do
      let stop ← tokenEnd v sp
      let len := if stop - sp + 1 > 64 then 64 else stop - sp + 1
      let tok ← strNcpy l.tok (← v.text sp) len
      let l ← LogLoop.useToken mem { l with sp := stop, tok }
      let c ← v.read l.sp
      if c = nul then .ok (.inr l) else .ok (.inl l)

def bsnslogInit (env : LogEnv) (mem : LogMem) (s : Bsnslog) : Exec Bsnslog :=
  let s := { s with sLvl := logErr }
  if !mem.map then .ok { s with sLvlmap := none }
  else do
    let lvlmap ← smapInit 16
    let l ← match env.debug with
      | none => .ok ⟨0, .malloc 64, logErr, lvlmap⟩
      | some v => logLoop mem v (v.size + 1) ⟨0, .malloc 64, logErr, lvlmap⟩
    let s := { s with sLvl := l.lvl, sLvlmap := some l.lvlmap }
    let s := if env.target = some "syslog".toList then bsnslogSyslog s else bsnslogStderr s
    match env.fancy with
    | none => .ok (bsnslogSetfancy s false)
    | some v => .ok (bsnslogSetfancy s (v.headD nul ≠ '0'))

/-! ## Messages -/

/-- Where a message is written. -/
inductive LogSink
  | stderr
  | syslog
  deriving DecidableEq

/-- The local `thr` of `bsnslog_log`. -/
def Bsnslog.thr (s : Bsnslog) (file : List Char) : Exec ℤ :=
  match s.sLvlmap with
  | none => .ok s.sLvl
  | some lvlmap => do
    let l ← smapGet lvlmap file
    .ok (l.getD s.sLvl)

/-- `bsnslog_log`: where the message is written, if it is. -/
def bsnslogLog (env : LogEnv) (mem : LogMem) (s : Bsnslog) (lvl : ℤ) (file : List Char) :
    Exec (Option LogSink × Bsnslog) := do
  let s ← if s.sLvl = -1 then bsnslogInit env mem s else .ok s
  let thr ← s.thr file
  if lvl > thr then .ok (none, s)
  else .ok (some (if s.sStderr then .stderr else .syslog), s)

end LibSrsBsns
