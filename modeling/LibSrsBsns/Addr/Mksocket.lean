import LibSrsBsns.Io.Model

/-!
# Making a socket

The model of `addr_mksocket` of `addr.c`. An entry of the list from `getaddrinfo` carries what the
system does when the entry is tried: the outcome of each call and, for each place where the clock is
read, what it shows. Descriptors are numbers; a log says which ones `socket` has returned, which of
them are not closed, and which waits `io_select1w` was asked for.
-/

namespace LibSrsBsns

open C

/-- What the backend function, `connect` or `bind`, returns: something else than -1, or -1 with
`errno` `EINPROGRESS`, or -1 with another `errno`. -/
inductive Backend
  | done
  | pending
  | failed
  deriving DecidableEq

/-- An entry of the list and what happens when it is tried, in the order of the source. -/
structure Attempt where
  /-- The clock before the socket is made. -/
  head : Option Timeval
  /-- The descriptor from `socket`. -/
  socket : Option ℕ
  /-- Whether `setblocking` of the socket to non-blocking mode succeeds. -/
  nonblock : Bool
  backend : Backend
  /-- The clock after the backend function, read for the hard deadline. -/
  reported : Option Timeval
  /-- The clock from which the soft timeout counts. -/
  softStart : Option Timeval
  /-- The clock that the soft timeout is compared with. -/
  softNow : Option Timeval
  select : SelectEnv
  /-- The error state from `getsockopt`. -/
  sockopt : Option ℤ
  /-- Whether `setblocking` of the socket back to blocking mode succeeds. -/
  block : Bool

/-- The descriptors that `socket` has returned, those of them that are not closed, and the waits that
`io_select1w` was asked for, each with the entry it is for. -/
structure SocketLog where
  opened : List ℕ
  live : List ℕ
  waits : List (Attempt × ℤ)

namespace SocketLog

def socket (w : SocketLog) (sck : ℕ) : SocketLog :=
  { w with opened := w.opened ++ [sck], live := w.live ++ [sck] }

def close (w : SocketLog) (sck : ℕ) : SocketLog := { w with live := w.live.erase sck }

def wait (w : SocketLog) (a : Attempt) (trem : ℤ) : SocketLog :=
  { w with waits := w.waits ++ [(a, trem)] }

end SocketLog

/-- How a turn of the loop of `addr_mksocket` ends: the next entry is tried, a socket is found, or
`io_select1w` has not returned. -/
inductive Verdict
  | next
  | success (sck : ℕ)
  | waiting

namespace Attempt

variable (a : Attempt) (hardtsend softtoUs : ℤ)

/-- The local `trem` of `addr_mksocket`, the wait for a pending backend function, unless one of the
limits is already reached. -/
def trem : Option ℤ :=
  let trem := if hardtsend ≠ 0 then hardtsend - tstampUs a.reported else 0
  if hardtsend ≠ 0 ∧ trem ≤ 0 then none
  else
    let softtsend := if softtoUs ≠ 0 then tstampUs a.softStart + softtoUs else 0
    if softtsend ≠ 0 then
      let tremTmp := softtsend - tstampUs a.softNow
      if tremTmp ≤ 0 then none else if tremTmp < trem then some tremTmp else some trem
    else some trem

def finish (w : SocketLog) (sck : ℕ) : SocketLog × Verdict :=
  if a.block then (w, .success sck) else (w.close sck, .next)

def await (turns : ℕ) (w : SocketLog) (sck : ℕ) : Exec (SocketLog × Verdict) :=
  match a.trem hardtsend softtoUs with
  | none => .ok (w.close sck, .next)
  | some trem => do
    let w := w.wait a trem
    match ← ioSelect1w a.select turns sck trem true with
    | .inl _ => .ok (w, .waiting)
    | .inr r =>
      if r.r < 0 then .ok (w.close sck, .next)
      else if r.r = 0 then .ok (w.close sck, .next)
      else
        match a.sockopt with
        | none => .ok (w.close sck, .next)
        | some opt => .ok (if opt = 0 then a.finish w sck else (w.close sck, .next))

/-- A turn of the loop of `addr_mksocket` for an entry, behind the check of the hard deadline; `func`
says whether there is a backend function. -/
def attempt (func : Bool) (turns : ℕ) (w : SocketLog) : Exec (SocketLog × Verdict) :=
  match a.socket with
  | none => .ok (w, .next)
  | some sck =>
    let w := w.socket sck
    if func then
      if !a.nonblock then .ok (w.close sck, .next)
      else
        match a.backend with
        | .failed => .ok (w.close sck, .next)
        | .pending => a.await hardtsend softtoUs turns w sck
        | .done => .ok (a.finish w sck)
    else .ok (w, .success sck)

end Attempt

/-- The loop of `addr_mksocket`, with what it returns once it does. -/
def mksocketLoop (func : Bool) (hardtsend softtoUs : ℤ) (turns : ℕ) :
    List Attempt → SocketLog → Exec (SocketLog × Option ℤ)
  | [], w => .ok (w, some (-1))
  | a :: ais, w =>
    if hardtsend ≠ 0 ∧ hardtsend - tstampUs a.head ≤ 0 then .ok (w, some 0)
    else do
      match ← a.attempt hardtsend softtoUs func turns w with
      | (w, .next) => mksocketLoop func hardtsend softtoUs turns ais w
      | (w, .success sck) => .ok (w, some sck)
      | (w, .waiting) => .ok (w, none)

/-- The deadline `hardtsend` of `addr_mksocket`, 0 if there is none. -/
def hardDeadline (start : Option Timeval) (hardtoUs : ℤ) : ℤ :=
  if hardtoUs ≠ 0 then tstampUs start + hardtoUs else 0

/-- `addr_mksocket`, where `ais` is the list from `getaddrinfo`, if that succeeds, and `start` the
clock at the start. It is followed for the given number of turns of each `io_select`. -/
def addrMksocket (ais : Option (List Attempt)) (func : Bool) (start : Option Timeval)
    (softtoUs hardtoUs : ℤ) (turns : ℕ) : Exec (SocketLog × Option ℤ) :=
  match ais with
  | none => .ok (⟨[], [], []⟩, some (-1))
  | some ais => mksocketLoop func (hardDeadline start hardtoUs) softtoUs turns ais ⟨[], [], []⟩

end LibSrsBsns
