import LibSrsBsns.Addr.Hostspec

/-!
# Making a socket address

`addr_make_sockaddr` decides by a colon in the host that it is an IPv6 address, and then takes off its
first and its last character, where `addr_parse_hostspec` has taken off the brackets already
(`handsTo_chopped`). Of an IPv6 address in brackets, what `inet_pton` reads therefore lacks two
characters (`addr_make_sockaddr_hands_iff`).
-/

namespace LibSrsBsns

open C

variable {ip h x : List Char} {p : ℕ} {af : Family}

/-- `addr_make_sockaddr` hands the text `h` to `inet_pton` for the family `af`, and makes an address
with the port `p` of what is read. -/
def HandsTo (ip : List Char) (af : Family) (h : List Char) (p : ℕ) : Prop :=
  ∀ inetPton, addrMakeSockaddr inetPton ip = .ok (addrMakeSockaddrIn inetPton af h p, af.sockaddrSize)

/-- An `inet_pton` that reads no text but `h`, and this only for the family `af`. -/
def readsOnly (af : Family) (h : List Char) : InetPton := fun af' x =>
  if af' = af ∧ x = h then (1, []) else (0, [])

theorem made_of_readsOnly_iff {af' : Family} :
    (addrMakeSockaddrIn (readsOnly af h) af' x p).1 = true ↔ af' = af ∧ x = h := by
  unfold addrMakeSockaddrIn readsOnly
  by_cases hx : af' = af ∧ x = h
  · simp [hx]
  · simp [hx]

/-- Only one text is handed on. -/
theorem HandsTo.unique {af' : Family} {p' : ℕ} (hh : HandsTo ip af h p) (hx : HandsTo ip af' x p') :
    af' = af ∧ x = h := by
  have hret := (hh (readsOnly af h)).symm.trans (hx (readsOnly af h))
  have heq : addrMakeSockaddrIn (readsOnly af h) af h p = addrMakeSockaddrIn (readsOnly af h) af' x p' :=
    congrArg Prod.fst (Except.ok.inj hret)
  have hmade : (addrMakeSockaddrIn (readsOnly af h) af h p).1 = true :=
    made_of_readsOnly_iff.2 ⟨rfl, rfl⟩
  rw [heq] at hmade
  exact made_of_readsOnly_iff.1 hmade

/-- The family of an address, which is an IPv6 address if it contains a colon. -/
def familyOf (h : List Char) : Family := if ':' ∈ h then .inet6 else .inet

/-- The host without its first and its last character, if it contains a colon. -/
def chopped (h : List Char) : List Char := if ':' ∈ h then h.tail.dropLast else h

theorem chopped_eq_self_iff : chopped h = h ↔ ':' ∉ h := by
  unfold chopped
  split_ifs with hcolon
  · have hpos : 0 < h.length := List.length_pos_of_mem hcolon
    refine iff_of_false (fun he => ?_) (not_not.2 hcolon)
    have hlen := congrArg List.length he
    rw [List.length_dropLast, List.length_tail] at hlen
    omega
  · exact iff_of_true rfl hcolon

/-- Ending a string before its last character and reading it from the second one on. -/
theorem text_chopped {b : Buffer Char} (hb : b.Str 0 h) (hpos : 0 < h.length) :
    Returns (b.write (h.length - 1) nul) fun b' => b'.text 1 = .ok h.tail.dropLast := by
  obtain ⟨xs, c, rfl⟩ : ∃ xs c, h = xs ++ [c] :=
    ⟨_, _, (List.dropLast_concat_getLast (List.length_pos_iff.1 hpos)).symm⟩
  have hlast : (xs ++ [c]).length - 1 = 0 + xs.length := by simp
  rw [hlast]
  apply hb.cut.mono
  rintro b' ⟨-, hxs, hnil⟩
  cases xs with
  | nil => exact Buffer.text_spec hnil
  | cons x xs =>
    rw [List.cons_append, List.tail_cons, List.dropLast_concat]
    exact Buffer.text_spec hxs.tail

/-- `addr_parse_hostspec_p` finds the host, and the port in the first five characters of the service. -/
theorem parseP_spec {hoststr : Buffer Char} {hoststrSz : ℕ} {hostspec : List Char}
    (hnul : nul ∉ hostspec) (hsz : 1 ≤ hoststrSz) (hroom : hoststrSz ≤ hoststr.size) :
    Returns (addrParseHostspecP hoststr hoststrSz hostspec) fun r =>
      r.1.Str 0 (splitHostspec ((skipBracket hostspec).take (hoststrSz - 1))).1 ∧
        r.2 = strtoul
          ((splitHostspec ((skipBracket hostspec).take (hoststrSz - 1))).2.take 5) % 2 ^ 16 := by
  apply (parse_spec hnul hsz hroom (by decide) (le_refl (Buffer.malloc 6).size)).bind
  rintro ⟨b, _⟩ ⟨hb, service, rfl, hservice⟩
  simp only [Buffer.text_spec hservice, ok_bind]
  exact .ok ⟨hb, rfl⟩

/-- What `addr_make_sockaddr` hands on, for every text. -/
theorem handsTo_chopped (hnul : nul ∉ ip) {host service : List Char}
    (hsplit : splitHostspec ((skipBracket ip).take 255) = (host, service)) :
    HandsTo ip (familyOf host) (chopped host) (strtoul (service.take 5) % 2 ^ 16) := by
  intro inetPton
  obtain ⟨⟨b, port⟩, hok, hb, hport⟩ :=
    parseP_spec hnul (Nat.le_add_left 1 255) (le_refl (Buffer.malloc 256).size)
  change b.Str 0 (splitHostspec ((skipBracket ip).take 255)).1 at hb
  change port = strtoul ((splitHostspec ((skipBracket ip).take 255)).2.take 5) % 2 ^ 16 at hport
  rw [hsplit] at hb hport
  have hok' : addrParseHostspecP (.malloc 256) 256 ip = .ok (b, port) := hok
  by_cases hcolon : ':' ∈ host
  · have hpos : 0 < host.length := List.length_pos_of_mem hcolon
    have hlen : sizeSub host.length 1 = host.length - 1 := if_pos hpos
    obtain ⟨xs, ys, hxs, hnot⟩ := List.eq_append_cons_of_mem hcolon
    have hchr : b.strchr 0 ':' = .ok (some (0 + xs.length)) :=
      Buffer.strchr_of_mem (hxs ▸ hb) hnot
    obtain ⟨b', hwrite, htext⟩ := text_chopped hb hpos
    simp only [addrMakeSockaddr, hok', ok_bind, hchr, Buffer.strlen_spec hb, hlen, hwrite, htext,
      familyOf, chopped, if_pos hcolon, hport]
    rfl
  · simp only [addrMakeSockaddr, hok', ok_bind, Buffer.strchr_of_notMem hb hcolon (by decide),
      Buffer.text_spec hb, familyOf, chopped, if_neg hcolon, hport]
    rfl

/-! ## The documented forms -/

/-- An address and a port as the comment at `addr_make_sockaddr` says: `h:p` for an IPv4 address,
`[h]:p` for an IPv6 address. -/
def documented (h : List Char) (p : ℕ) : List Char :=
  if ':' ∈ h then '[' :: h ++ ']' :: ':' :: Nat.toDigits 10 p else h ++ ':' :: Nat.toDigits 10 p

theorem plain_toDigits : Plain (Nat.toDigits 10 p) := by
  have hdigit (c : Char) (hc : c ∈ Nat.toDigits 10 p) : c.isDigit = true :=
    Nat.isDigit_of_mem_toDigits (by decide) le_rfl hc
  constructor
  all_goals
    intro hmem
    cases hdigit _ hmem

theorem length_toDigits_port (hp : p < 65536) : (Nat.toDigits 10 p).length ≤ 5 :=
  (Nat.length_toDigits_le_iff (by decide) (by decide)).2 (by omega)

theorem splitHostspec_documented (hh : Plain h) (hlen : h.length < 200) (hp : p < 65536) :
    splitHostspec ((skipBracket (documented h p)).take 255) = (h, Nat.toDigits 10 p) := by
  have hdigits := length_toDigits_port hp
  unfold documented
  split_ifs with hcolon
  · have hskip : skipBracket ('[' :: h ++ ']' :: ':' :: Nat.toDigits 10 p) =
        h ++ ']' :: ':' :: Nat.toDigits 10 p := rfl
    rw [hskip, List.take_of_length_le (by simp only [List.length_append, List.length_cons]; omega),
      splitHostspec_close hh.close_notMem, behind_cons_self]
  · rw [skipBracket_colon hh,
      List.take_of_length_le (by simp only [List.length_append, List.length_cons]; omega),
      splitHostspec_colon hh.close_notMem plain_toDigits.close_notMem hcolon]

theorem nul_notMem_documented (hh : Plain h) : nul ∉ documented h p := by
  have hne : nul ≠ '[' ∧ nul ≠ ']' ∧ nul ≠ ':' := by decide
  unfold documented
  split_ifs
  · simp [hh.nul_notMem, plain_toDigits.nul_notMem, hne]
  · simp [hh.nul_notMem, plain_toDigits.nul_notMem, hne]

theorem handsTo_documented (hh : Plain h) (hlen : h.length < 200) (hp : p < 65536) :
    HandsTo (documented h p) (familyOf h) (chopped h) p := by
  have hhands := handsTo_chopped (nul_notMem_documented hh) (splitHostspec_documented hh hlen hp)
  have hport : p % 2 ^ 16 = p := Nat.mod_eq_of_lt hp
  rwa [List.take_of_length_le (length_toDigits_port hp), strtoul_toDigits (by omega), hport] at hhands

/-- `addr_make_sockaddr` hands the address of a documented form to `inet_pton` exactly if it contains no
colon: an IPv6 address loses its first and its last character. -/
theorem addr_make_sockaddr_hands_iff (hh : Plain h) (hlen : h.length < 200) (hp : p < 65536) :
    HandsTo (documented h p) (familyOf h) h p ↔ ':' ∉ h := by
  have hhands := handsTo_documented hh hlen hp
  rw [← chopped_eq_self_iff]
  constructor
  · intro hself
    exact (hself.unique hhands).2
  · intro heq
    rwa [heq] at hhands

/-- The address in `1.2.3.4:80` is handed on. -/
theorem addr_make_sockaddr_hands_iff_ipv4 :
    HandsTo ['1', '.', '2', '.', '3', '.', '4', ':', '8', '0'] .inet
      ['1', '.', '2', '.', '3', '.', '4'] 80 := by
  have hdoc : documented ['1', '.', '2', '.', '3', '.', '4'] 80 =
      ['1', '.', '2', '.', '3', '.', '4', ':', '8', '0'] := by decide
  have hfamily : familyOf ['1', '.', '2', '.', '3', '.', '4'] = .inet := by decide
  rw [← hdoc, ← hfamily]
  exact (addr_make_sockaddr_hands_iff (by decide) (by decide) (by decide)).2 (by decide)

/-- The one in `[::1]:80` is not: the text that is handed on is a colon. -/
theorem not_handsTo_of_ipv6 :
    documented [':', ':', '1'] 80 = ['[', ':', ':', '1', ']', ':', '8', '0'] ∧
      ¬ HandsTo ['[', ':', ':', '1', ']', ':', '8', '0'] .inet6 [':', ':', '1'] 80 := by
  refine ⟨by decide, fun hself => ?_⟩
  have hsplit : splitHostspec ((skipBracket ['[', ':', ':', '1', ']', ':', '8', '0']).take 255) =
      ([':', ':', '1'], ['8', '0']) := by decide
  have heq : chopped [':', ':', '1'] = [':', ':', '1'] :=
    (hself.unique (handsTo_chopped (by decide) hsplit)).2
  exact absurd heq (by decide)

end LibSrsBsns
