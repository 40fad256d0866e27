import LibSrsBsns.Addr.Bind
import LibSrsBsns.Addr.Sockaddr

/-!
# From a host specification to a socket

A host specification can be taken apart into a host and a service, or into a host and a port, which
`addr_connect_socket_p` writes out again for `addr_connect_socket`. The second way leads where the
first does exactly if the service is the port in decimal (`addr_connect_socket_p_agrees_iff`).
-/

namespace LibSrsBsns

open C

variable {hoststr service : Buffer Char} {hoststrSz serviceSz : ℕ} {hostspec h s : List Char}

/-- `portstr` is the port in decimal, whatever is stored in `*port`. -/
theorem portstr_mod (n : ℕ) : portstr (n % 65536) = Nat.toDigits 10 (n % 65536) :=
  (portstr_spec (Nat.mod_lt _ (by decide))).1

/-- Where a host and a service are found, `addr_parse_hostspec_p` finds the host, and the port in the
first five characters of the service. -/
theorem Parses.parseP (hparse : Parses hoststr hoststrSz service serviceSz hostspec h s)
    (hnul : nul ∉ hostspec) (hsz : 1 ≤ hoststrSz) (hroom : hoststrSz ≤ hoststr.size)
    (hssz : 6 ≤ serviceSz) (hsroom : serviceSz ≤ service.size) :
    Returns (addrParseHostspecP hoststr hoststrSz hostspec) fun r =>
      r.1.Str 0 h ∧ r.2 = strtoul (s.take 5) % 65536 := by
  obtain ⟨rfl, rfl⟩ := (parses_iff hnul hsz hroom (by omega) hsroom).1 hparse
  apply (parseP_spec hnul hsz hroom).mono
  intro r ⟨hhost, hport⟩
  rw [List.take_take, min_eq_left (by omega)]
  exact ⟨hhost, hport⟩

/-- A host whose addresses are known for one service only. -/
def onlyService (s : List Char) : Getaddrinfo := fun _ service _ =>
  if service = s then some [⟨none, some 3, true, .done, none, none, none,
    ⟨fun _ => none, fun _ => ⟨0, ∅, ∅, ∅, 0⟩⟩, none, true⟩] else none

/-- With it, connecting succeeds for this service, and for no other. -/
theorem addrConnectSocket_onlyService (host : Option (List Char)) (s' : List Char) :
    Returns (addrConnectSocket (onlyService s) host s' none 0 0 0) fun r =>
      r.2 = some (if s' = s then 3 else -1) := by
  unfold addrConnectSocket addrMksocketOf onlyService
  split
  · exact ⟨_, rfl, rfl⟩
  · exact ⟨_, rfl, rfl⟩

/-- **Two ways to a socket.** For every specification and buffers of any size with room for what they
are said to have, of which the one for the service has room for a port: taking the specification apart
into a host and a port and connecting to these does what taking it apart into a host and a service and
connecting to these does, whatever `getaddrinfo` and the system do, if and only if the service is a
port in decimal, without a sign or zeros in front of it. -/
theorem addr_connect_socket_p_agrees_iff (hnul : nul ∉ hostspec) (hsz : 1 ≤ hoststrSz)
    (hroom : hoststrSz ≤ hoststr.size) (hssz : 6 ≤ serviceSz) (hsroom : serviceSz ≤ service.size)
    (hparse : Parses hoststr hoststrSz service serviceSz hostspec h s) :
    (∀ getaddrinfo start softtoUs hardtoUs turns,
      (do
        let (host, port) ← addrParseHostspecP hoststr hoststrSz hostspec
        let host ← host.text 0
        addrConnectSocketP getaddrinfo (some host) port start softtoUs hardtoUs turns) =
      addrConnectSocket getaddrinfo (some h) s start softtoUs hardtoUs turns) ↔
    ∃ port < 65536, s = Nat.toDigits 10 port := by
  obtain ⟨⟨host, port⟩, hrun, hhost, hport⟩ := hparse.parseP hnul hsz hroom hssz hsroom
  dsimp only at hhost hport
  simp only [hrun, ok_bind, Buffer.text_spec hhost, addrConnectSocketP, hport, portstr_mod]
  constructor
  · intro hall
    refine ⟨_, Nat.mod_lt (strtoul (s.take 5)) (by decide), ?_⟩
    obtain ⟨r, hr, hret⟩ := addrConnectSocket_onlyService (s := s) (some h) s
    obtain ⟨r', hr', hret'⟩ := addrConnectSocket_onlyService (s := s) (some h)
      (Nat.toDigits 10 (strtoul (s.take 5) % 65536))
    obtain rfl : r' = r := by
      have heq := hall (onlyService s) none 0 0 0
      rw [hr, hr'] at heq
      exact Except.ok.inj heq
    by_contra hne
    rw [hret, if_pos rfl, if_neg (Ne.symm hne)] at hret'
    exact absurd hret' (by decide)
  · rintro ⟨port', hlt, rfl⟩ getaddrinfo start softtoUs hardtoUs turns
    obtain ⟨htake, -, hread⟩ := portstr_spec hlt
    have hport' : strtoul ((Nat.toDigits 10 port').take 5) % 65536 = port' := by
      rw [show (Nat.toDigits 10 port').take 5 = portstr port' from rfl, hread, Nat.mod_eq_of_lt hlt]
    rw [hport']

/-- `ab:80` names a port, and `ab:http` does not. -/
theorem addr_connect_socket_p_agrees_iff_http :
    (∀ getaddrinfo start softtoUs hardtoUs turns,
      (do
        let (host, port) ← addrParseHostspecP (.malloc 8) 8 "ab:80".toList
        let host ← host.text 0
        addrConnectSocketP getaddrinfo (some host) port start softtoUs hardtoUs turns) =
      addrConnectSocket getaddrinfo (some "ab".toList) "80".toList start softtoUs hardtoUs turns) ∧
    ¬ ∀ getaddrinfo start softtoUs hardtoUs turns,
      (do
        let (host, port) ← addrParseHostspecP (.malloc 8) 8 "ab:http".toList
        let host ← host.text 0
        addrConnectSocketP getaddrinfo (some host) port start softtoUs hardtoUs turns) =
      addrConnectSocket getaddrinfo (some "ab".toList) "http".toList start softtoUs hardtoUs turns := by
  have hsize : 8 ≤ (Buffer.malloc 8 : Buffer Char).size := le_rfl
  have hport : Parses (.malloc 8) 8 (.malloc 8) 8 "ab:80".toList "ab".toList "80".toList :=
    (parses_iff (by decide) (by decide) hsize (by decide) hsize).2 (by decide)
  have hname : Parses (.malloc 8) 8 (.malloc 8) 8 "ab:http".toList "ab".toList "http".toList :=
    (parses_iff (by decide) (by decide) hsize (by decide) hsize).2 (by decide)
  constructor
  · exact (addr_connect_socket_p_agrees_iff (by decide) (by decide) hsize (by decide) hsize hport).2
      ⟨80, by decide, by decide⟩
  · rw [addr_connect_socket_p_agrees_iff (by decide) (by decide) hsize (by decide) hsize hname]
    rintro ⟨port, -, hdigits⟩
    have hletter : 'h' ∈ Nat.toDigits 10 port := by
      rw [← hdigits]
      decide
    exact absurd (Nat.isDigit_of_mem_toDigits (by decide) le_rfl hletter) (by decide)

end LibSrsBsns
