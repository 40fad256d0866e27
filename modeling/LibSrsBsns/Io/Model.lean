import LibSrsBsns.Foundations.C.Str
import LibSrsBsns.Misc.Clock
import Mathlib.Data.Finset.Insert

/-!
# Input and output

The model of `io.c`. What the calls of the operating system do is given: the bytes that `read`
delivers one by one, how much each `write` takes, what each `select` reports and what the clock shows
when it is read. A set of descriptors (`fd_set`) is a set of numbers, which has places for those below
`FD_SETSIZE`, and `errno` is looked at only where the source does.
-/

namespace LibSrsBsns

open C

/-! ## `io_read_line` -/

/-- `ISLINETERM`. -/
def isLineTerm (c : Char) : Bool := c = '\n' ∨ c = '\r' ∨ c = nul

/-- The local variables of `io_read_line`, with what is still to be read from the descriptor: a
character or, where `read` fails, nothing; and the end of file behind all of it. -/
structure LineState where
  dest : Buffer Char
  bc : ℕ
  c : Char
  fd : List (Option Char)

/-- The loop of `io_read_line`, and whether it is left because `read` fails. -/
def readLineLoop (destSz : ℕ) : ℕ → LineState → Exec (Bool × LineState) :=
  loop fun s =>
    match s.fd with
    | [] => .ok (.inr (false, s))
    | none :: fd => .ok (.inr (true, { s with fd }))
    | some c :: fd => do
      let dest ← (if s.bc < destSz then s.dest.write s.bc c else .ok s.dest)
      let s := { s with dest, bc := s.bc + 1, c, fd }
      if !isLineTerm c then .ok (.inl s) else .ok (.inr (false, s))

/-- `io_read_line`: the value returned, the array `dest` and what is left on the descriptor. -/
def ioReadLine (fd : List (Option Char)) (dest : Buffer Char) (destSz : ℕ) :
    Exec (ℤ × Buffer Char × List (Option Char)) := do
  let (failed, s) ← readLineLoop destSz (fd.length + 1) ⟨dest, 0, nul, fd⟩
  if failed then .ok (-1, s.dest, s.fd)
  else do
    let bc := if s.c = nul then sizeSub s.bc 1 else s.bc
    let dest ← s.dest.write (if bc ≥ destSz then sizeSub destSz 1 else bc) nul
    .ok (sizeToInt bc, dest, s.fd)

/-! ## `io_vfprintf` and `io_writeall` -/

/-- A descriptor that is written to: what has been written, and for every call of `write` still to
come whether it fails or how many bytes it takes at most, which is one more than the number given. -/
structure Sink where
  written : List Char
  calls : ℕ → Option ℕ

/-- `write` of some bytes: how many it takes, if it does not fail. -/
def Sink.write (fd : Sink) (data : List Char) : Option ℕ × Sink :=
  let calls := fun i => fd.calls (i + 1)
  match fd.calls 0 with
  | none => (none, { fd with calls })
  | some k =>
    let r := min (k + 1) data.length
    (some r, { written := fd.written ++ data.take r, calls })

/-- The loop of `io_writeall`. -/
def writeallLoop (buf : Buffer Char) (n : ℕ) : ℕ → ℕ × Sink → Exec (Bool × Sink) :=
  loop fun (bc, fd) =>
    if bc < n then do
      let data ← buf.copyOut bc (n - bc)
      match fd.write data with
      | (none, fd) => .ok (.inr (false, fd))
      | (some r, fd) => .ok (.inl (bc + r, fd))
    else .ok (.inr (true, fd))

def ioWriteall (fd : Sink) (buf : Buffer Char) (n : ℕ) : Exec (Bool × Sink) :=
  writeallLoop buf n (n + 1) (0, fd)

/-- `MAX_WRITEBUF`. -/
def maxWritebuf : ℕ := 4096

/-- `vsnprintf` to a buffer of `size` bytes, where `text` is the formatted text: it stores as much of
it as there is room for with a null character behind, and returns its length, which an `int` must be
able to hold. -/
def vsnprintf (buf : Buffer Char) (size : ℕ) (text : List Char) : Exec (ℤ × Buffer Char) := do
  let buf ← buf.copyIn 0 (text.take (size - 1) ++ [nul])
  .ok (if text.length < 2 ^ 31 then text.length else -1, buf)

/-- `io_vfprintf`, where `text` is what the format and the arguments stand for. -/
def ioVfprintf (fd : Sink) (text : List Char) : Exec (ℤ × Sink) := do
  let (r, buf) ← vsnprintf (.malloc maxWritebuf) maxWritebuf text
  let n ← buf.strlen 0
  let (ok, fd) ← ioWriteall fd buf n
  if !ok then .ok (-1, fd) else .ok (r, fd)

def ioFprintf (fd : Sink) (text : List Char) : Exec (ℤ × Sink) := ioVfprintf fd text

/-! ## `io_select` -/

/-- `EINTR`. -/
def eintr : ℤ := 4

/-- The arguments of a call of `select`. -/
structure SelectArgs where
  nfds : ℤ
  rfds : Finset ℤ
  wfds : Finset ℤ
  efds : Finset ℤ
  timeout : Option Timeval

/-- What a call of `select` returns, leaves in the sets and, where it fails, stores in `errno`. -/
structure SelectOutcome where
  r : ℤ
  rfds : Finset ℤ
  wfds : Finset ℤ
  efds : Finset ℤ
  errno : ℤ

/-- What `io_select` is told by the system: the results of `gettimeofday` and of `select`, call by
call. -/
structure SelectEnv where
  clock : ℕ → Option Timeval
  select : ℕ → SelectOutcome

/-- What `io_select` returns and leaves in the arrays, and the calls of `select` it made. -/
structure SelectReturn where
  r : ℤ
  rfd : List ℤ
  wfd : List ℤ
  efd : List ℤ
  calls : List SelectArgs

/-- `FD_SETSIZE`. -/
def fdSetsize : ℤ := 1024

/-- `FD_SET`. -/
def fdSet (fd : ℤ) (set : Finset ℤ) : Exec (Finset ℤ) :=
  if 0 ≤ fd ∧ fd < fdSetsize then .ok (insert fd set) else .error .outOfBounds

/-- `FD_ISSET`. -/
def fdIsset (fd : ℤ) (set : Finset ℤ) : Exec Bool :=
  if 0 ≤ fd ∧ fd < fdSetsize then .ok (decide (fd ∈ set)) else .error .outOfBounds

/-- The loops of `io_select` that put the descriptors of an array in a set and find the greatest. -/
def fillSet : List ℤ → Finset ℤ × ℤ → Exec (Finset ℤ × ℤ)
  | [], s => .ok s
  | fd :: fds, (set, maxfd) => do
    let set ← fdSet fd set
    fillSet fds (set, if fd > maxfd then fd else maxfd)

/-- The loops of `io_select` that mark the descriptors of an array that are not in a set. -/
def markUnset (set : Finset ℤ) : List ℤ → Exec (List ℤ)
  | [] => .ok []
  | fd :: fds => do
    let isset ← fdIsset fd set
    let fds ← markUnset set fds
    .ok ((if !isset then -1 else fd) :: fds)

/-- The time that is left before the deadline `tsend`, if there is one, when the clock shows `now`. -/
def selectTrem (tsend now : ℤ) : ℤ := if tsend ≠ 0 then tsend - now else 0

/-- What a turn of the loop of `io_select` makes of the outcome of `select`. -/
def afterSelect (out : SelectOutcome) (rfd wfd efd : List ℤ) (poll ignoreintr : Bool)
    (calls : List SelectArgs) : Exec (List SelectArgs ⊕ SelectReturn) :=
  if out.r = 0 then
    if poll then .ok (.inr ⟨0, rfd, wfd, efd, calls⟩) else .ok (.inl calls)
  else if out.r < 0 then
    if out.errno = eintr ∧ ignoreintr then .ok (.inl calls)
    else .ok (.inr ⟨out.r, rfd, wfd, efd, calls⟩)
  else do
    let rfd ← markUnset out.rfds rfd
    let wfd ← markUnset out.wfds wfd
    let efd ← markUnset out.efds efd
    .ok (.inr ⟨out.r, rfd, wfd, efd, calls⟩)

/-- One turn of the loop of `io_select`, with the calls of `select` before it. The clock has been read
once at the start and, if there is a deadline `tsend`, once before each of these calls. -/
def selectTurn (env : SelectEnv) (rfd wfd efd : List ℤ) (tsend : ℤ) (poll ignoreintr : Bool)
    (calls : List SelectArgs) : Exec (List SelectArgs ⊕ SelectReturn) := do
  let (rfds, maxfd) ← fillSet rfd (∅, -1)
  let (wfds, maxfd) ← fillSet wfd (∅, maxfd)
  let (efds, maxfd) ← fillSet efd (∅, maxfd)
  if maxfd < 0 then .ok (.inr ⟨-1, rfd, wfd, efd, calls⟩)
  else
    let trem := selectTrem tsend (tstampUs (env.clock (calls.length + 1)))
    if tsend ≠ 0 ∧ trem ≤ 0 then .ok (.inr ⟨0, rfd, wfd, efd, calls⟩)
    else
      let tout := if tsend ≠ 0 then (tconv ⟨0, 0⟩ trem false).1 else ⟨0, 0⟩
      let timeout := if tsend ≠ 0 ∨ poll then some tout else none
      afterSelect (env.select calls.length) rfd wfd efd poll ignoreintr
        (calls ++ [⟨maxfd + 1, rfds, wfds, efds, timeout⟩])

/-- The local `tsend` of `io_select`: the deadline, or 0 if there is none. -/
def SelectEnv.tsend (env : SelectEnv) (toUs : ℤ) : ℤ :=
  let toUs := if toUs < 0 then 0 else toUs
  if toUs ≠ 0 then tstampUs (env.clock 0) + toUs else 0

/-- The first `turns` turns of `io_select`: what it returns or, where it is not done, the calls of
`select` it has made. -/
def ioSelect (env : SelectEnv) (turns : ℕ) (rfd wfd efd : List ℤ) (toUs : ℤ) (ignoreintr : Bool) :
    Exec (List SelectArgs ⊕ SelectReturn) :=
  loopFor (selectTurn env rfd wfd efd (env.tsend toUs) (toUs < 0) ignoreintr) turns []

def ioSelect1w (env : SelectEnv) (turns : ℕ) (fd toUs : ℤ) (ignoreintr : Bool) :
    Exec (List SelectArgs ⊕ SelectReturn) :=
  ioSelect env turns [] [fd] [] toUs ignoreintr

end LibSrsBsns
