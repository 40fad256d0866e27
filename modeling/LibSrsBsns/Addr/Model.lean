import LibSrsBsns.Misc.Strings

/-!
# Host specifications and socket addresses

The model of the functions of `addr.c` that take a host specification apart and make a socket address
of it. `inet_pton`, which reads the text of an address, is a parameter.
-/

namespace LibSrsBsns

open C

/-- Store something in the buffer `service`, unless it is null or has size 0. -/
def ifRoom (service : Option (Buffer Char)) (serviceSz : ℕ)
    (f : Buffer Char → Exec (Buffer Char)) : Exec (Option (Buffer Char)) :=
  match service with
  | none => .ok none
  | some service =>
    if serviceSz = 0 then .ok (some service)
    else do
      let service ← f service
      .ok (some service)

/-- The text from `hostspec + (hostspec[0] == '[')` on. -/
def skipBracket (hostspec : List Char) : List Char :=
  if hostspec.head? = some '[' then hostspec.tail else hostspec

/-- The end of `addr_parse_hostspec`, from the search for the colon on. -/
def splitService (hoststr : Buffer Char) (ptr : ℕ) (service : Option (Buffer Char))
    (serviceSz : ℕ) : Exec (Buffer Char × Option (Buffer Char)) := do
  match ← hoststr.strchr ptr ':' with
  | some ptr => do
    let service ← ifRoom service serviceSz fun service => do
      let text ← hoststr.text (ptr + 1)
      strNcpy service text serviceSz
    let hoststr ← hoststr.write ptr nul
    .ok (hoststr, service)
  | none => do
    let service ← ifRoom service serviceSz (·.write 0 nul)
    .ok (hoststr, service)

/-- `addr_parse_hostspec`, where `service` may be null. -/
def addrParseHostspec (hoststr : Buffer Char) (hoststrSz : ℕ) (service : Option (Buffer Char))
    (serviceSz : ℕ) (hostspec : List Char) : Exec (Buffer Char × Option (Buffer Char)) := do
  let hoststr ← strNcpy hoststr (skipBracket hostspec) hoststrSz
  match ← hoststr.strchr 0 ']' with
  | none => splitService hoststr 0 service serviceSz
  | some ptr => do
    let hoststr ← hoststr.write ptr nul
    splitService hoststr (ptr + 1) service serviceSz

/-- `addr_parse_hostspec_p`: the contents of `hoststr`, and what is stored in `*port`. -/
def addrParseHostspecP (hoststr : Buffer Char) (hoststrSz : ℕ) (hostspec : List Char) :
    Exec (Buffer Char × ℕ) := do
  let (hoststr, portstr) ← addrParseHostspec hoststr hoststrSz (some (.malloc 6)) 6 hostspec
  match portstr with
  | none => .error .nullDeref
  | some portstr =>
    let text ← portstr.text 0
    .ok (hoststr, strtoul text % 2 ^ 16)

/-- The address families. -/
inductive Family
  | inet
  | inet6
  deriving DecidableEq

/-- The size of a socket address: `sizeof (struct sockaddr_in)` or `sizeof (struct sockaddr_in6)`. -/
def Family.sockaddrSize : Family → ℕ
  | inet => 16
  | inet6 => 28

/-- What `inet_pton` does with a text: the value returned, and the address that it stores. -/
abbrev InetPton := Family → List Char → ℤ × List UInt8

/-- The two bytes of a port in network order. -/
def htons (port : ℕ) : UInt8 × UInt8 := (UInt8.ofNat (port / 256), UInt8.ofNat port)

/-- `struct sockaddr_in` or `struct sockaddr_in6`. -/
structure Sockaddr where
  family : Family
  port : UInt8 × UInt8
  addr : List UInt8
  deriving DecidableEq

variable (inetPton : InetPton)

/-- `addr_make_sockaddr_in6` and `addr_make_sockaddr_in4`: the value returned, and what is stored in
`*dst`. -/
def addrMakeSockaddrIn (af : Family) (ip : List Char) (port : ℕ) : Bool × Option Sockaddr :=
  let (r, addr) := inetPton af ip
  if r = 0 then (false, none)
  else if r < 0 then (false, none)
  else (true, some ⟨af, htons port, addr⟩)

def addrMakeSockaddrIn6 : List Char → ℕ → Bool × Option Sockaddr := addrMakeSockaddrIn inetPton .inet6

def addrMakeSockaddrIn4 : List Char → ℕ → Bool × Option Sockaddr := addrMakeSockaddrIn inetPton .inet

/-- `addr_make_sockaddr`: the value returned, and what is stored in `*dst` and `*sasz`. -/
def addrMakeSockaddr (ip : List Char) : Exec ((Bool × Option Sockaddr) × ℕ) := do
  let (host, port) ← addrParseHostspecP (.malloc 256) 256 ip
  match ← host.strchr 0 ':' with
  | some _ => do
    let len ← host.strlen 0
    let host ← host.write (sizeSub len 1) nul
    let text ← host.text 1
    .ok (addrMakeSockaddrIn6 inetPton text port, Family.inet6.sockaddrSize)
  | none => do
    let text ← host.text 0
    .ok (addrMakeSockaddrIn4 inetPton text port, Family.inet.sockaddrSize)

end LibSrsBsns
