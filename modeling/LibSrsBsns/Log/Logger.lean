import LibSrsBsns.Foundations.C.Format
import LibSrsBsns.Log.Model

/-!
# The logger

The model of `log.c`. What the functions do to the outside is a list of effects: the calls of
`openlog`, `closelog` and `vsyslog`, and what is written to `stderr`. A message is put together in an
array of 4096 bytes, and the result is used as a format for the arguments of the caller.
-/

namespace LibSrsBsns

open C

variable {α : Type}

/-! ## Levels -/

/-- `LOG_CRIT` of `syslog.h`. -/
def logCrit : ℤ := 2

/-- `LOG_WARNING` of `syslog.h`. -/
def logWarning : ℤ := 4

/-- `LOG_NOTICE` of `syslog.h`. -/
def logNotice : ℤ := 5

/-- `LOG_INFO` of `syslog.h`. -/
def logInfo : ℤ := 6

/-- `LOG_DEBUG` of `syslog.h`. -/
def logDebug : ℤ := 7

def lvlnam (lvl : ℤ) : List Char :=
  if lvl = logDebug then "DBG".toList
  else if lvl = logInfo then "INF".toList
  else if lvl = logNotice then "NOT".toList
  else if lvl = logWarning then "WRN".toList
  else if lvl = logCrit then "CRT".toList
  else if lvl = logErr then "ERR".toList
  else "???".toList

def colRedinv : List Char := "\x1b[07;31;01m".toList

def colRed : List Char := "\x1b[31;01m".toList

def colYellow : List Char := "\x1b[33;01m".toList

def colGreen : List Char := "\x1b[32;01m".toList

def colWhite : List Char := "\x1b[37;01m".toList

def colWhiteinv : List Char := "\x1b[07;37;01m".toList

def colGray : List Char := "\x1b[30;01m".toList

def colRst : List Char := "\x1b[0m".toList

def lvlcol (lvl : ℤ) : List Char :=
  if lvl = logDebug then colGray
  else if lvl = logInfo then colWhite
  else if lvl = logNotice then colGreen
  else if lvl = logWarning then colYellow
  else if lvl = logErr then colRed
  else if lvl = logCrit then colRedinv
  else colWhiteinv

/-! ## State and effects -/

/-- The static variables of `log.c`. -/
structure Log where
  sOpen : Bool
  sStderr : Bool
  sLvl : ℤ
  sFancy : Bool

/-- Their initial values. -/
def Log.start : Log := ⟨false, true, 0, false⟩

/-- The arguments of `openlog`: the name of the program, which may be null, and the facility. -/
structure SyslogId where
  ident : Option (List Char)
  facility : ℤ

/-- What a function does to the outside. -/
inductive LogEffect
  | openlog (id : SyslogId)
  | closelog
  | stderr (text : List Char)
  | syslog (lvl : ℤ) (text : List Char)

/-- The arguments of `log_log`. The text for `errn` is the one that `strerror_r` stores, if `errn` is
not negative. -/
structure LogMsg (α : Type) where
  lvl : ℤ
  err : Option (List Char)
  file : List Char
  line : ℤ
  func : List Char
  fmt : List Char
  args : List α

/-- `%d`. -/
def decimal (n : ℤ) : List Char :=
  if n < 0 then '-' :: Nat.toDigits 10 n.natAbs else Nat.toDigits 10 n.natAbs

namespace LogMsg

variable (m : LogMsg α)

/-- The local `errmsg` of `log_log`, an array of 256 bytes. -/
def errmsg : List Char :=
  match m.err with
  | none => []
  | some e => ':' :: ' ' :: e.take 253

/-- The part `%s:%d:%s(): ` of a message. -/
def place : List Char := m.file ++ ':' :: decimal m.line ++ ':' :: m.func ++ "(): ".toList

/-- What stands before the message of the caller on `stderr`. -/
def lead (fancy : Bool) : List Char :=
  (if fancy then lvlcol m.lvl else []) ++ lvlnam m.lvl ++ ':' :: ' ' :: m.place

/-- What stands behind it. -/
def trail (fancy : Bool) : List Char := m.errmsg ++ (if fancy then colRst else []) ++ ['\n']

end LogMsg

/-! ## Functions -/

def logSyslog (s : Log) (id : SyslogId) : List LogEffect × Log :=
  ((if s.sOpen then [.closelog] else []) ++ [.openlog id],
    { s with sOpen := true, sFancy := false, sStderr := false })

def logStderr (s : Log) : List LogEffect × Log :=
  (if s.sOpen then [.closelog] else [], { s with sStderr := true })

def logSetfancy (s : Log) (fancy : Bool) : Log :=
  if !s.sStderr then s else { s with sFancy := fancy }

def logGetfancy (s : Log) : Bool := s.sStderr && s.sFancy

def logSetlvl (s : Log) (lvl : ℤ) : Log := { s with sLvl := lvl }

def logGetlvl (s : Log) : ℤ := s.sLvl

/-- What `snprintf` stores of a text in the array `buf` of `log_log`. -/
def logBuf (text : List Char) : List Char := text.take (4096 - 1)

def logLog (conv : List Char → α → List Char) (s : Log) (m : LogMsg α) : Exec (List LogEffect) :=
  if m.lvl > s.sLvl then .ok []
  else if s.sStderr then do
    let text ← vformat conv none (logBuf (m.lead s.sFancy ++ m.fmt ++ m.trail s.sFancy)) m.args
    .ok [.stderr text]
  else do
    let text ← vformat conv none (logBuf (m.place ++ m.fmt ++ m.errmsg)) m.args
    .ok [.syslog m.lvl text]

/-! ## Calls -/

/-- The calls on the logger. -/
inductive LogCall (α : Type)
  | syslog (id : SyslogId)
  | stderr
  | setfancy (fancy : Bool)
  | getfancy
  | setlvl (lvl : ℤ)
  | getlvl
  | log (m : LogMsg α)

/-- What a call does to the outside, or returns. -/
inductive LogOut
  | effects (es : List LogEffect)
  | bool (b : Bool)
  | int (n : ℤ)

/-- The effects of a call. -/
def LogOut.effs : LogOut → List LogEffect
  | effects es => es
  | _ => []

def logStep (conv : List Char → α → List Char) (s : Log) : LogCall α → Exec (LogOut × Log)
  | .syslog id => .ok (.effects (logSyslog s id).1, (logSyslog s id).2)
  | .stderr => .ok (.effects (logStderr s).1, (logStderr s).2)
  | .setfancy fancy => .ok (.effects [], logSetfancy s fancy)
  | .getfancy => .ok (.bool (logGetfancy s), s)
  | .setlvl lvl => .ok (.effects [], logSetlvl s lvl)
  | .getlvl => .ok (.int (logGetlvl s), s)
  | .log m => do
    let es ← logLog conv s m
    .ok (.effects es, s)

end LibSrsBsns
