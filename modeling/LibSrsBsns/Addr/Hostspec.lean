import LibSrsBsns.Addr.Model
import Mathlib.Data.List.TakeDrop

/-!
# Taking a host specification apart

`addr_parse_hostspec` copies the whole specification to the buffer for the host before it looks for the
bracket and the colon. What it finds is therefore determined by the part that fits there
(`parse_spec`), and the service is found only where there is room for it behind the host
(`addr_parse_hostspec_inverts_iff`).
-/

namespace LibSrsBsns

open C

variable {hoststr service : Buffer Char} {hoststrSz serviceSz : ℕ} {hostspec h s cs : List Char}

/-- Host and service of a specification without the bracket at its start. -/
def splitHostspec (cs : List Char) : List Char × List Char :=
  if ']' ∈ cs then (before ']' cs, behind ':' (behind ']' cs)) else (before ':' cs, behind ':' cs)

/-- The service is what is behind the colon, as far as there is room for it, and the string it is
found in ends there. -/
theorem splitService_spec {ptr : ℕ} (hstr : hoststr.Str ptr cs) (hsz : 1 ≤ serviceSz)
    (hroom : serviceSz ≤ service.size) :
    Returns (splitService hoststr ptr (some service) serviceSz) fun r =>
      r.1.size = hoststr.size ∧ (∀ i < ptr, r.1.cell i = hoststr.cell i) ∧
        r.1.Str ptr (before ':' cs) ∧
          ∃ service', r.2 = some service' ∧ service'.Str 0 ((behind ':' cs).take (serviceSz - 1)) := by
  have hne : serviceSz ≠ 0 := by omega
  have hcolon : ':' ≠ nul := by decide
  unfold splitService
  by_cases hc : ':' ∈ cs
  · obtain ⟨xs, ys, rfl, hxs⟩ := List.eq_append_cons_of_mem hc
    have hys : nul ∉ ys := fun hmem => hstr.nul_notMem (by simp [hmem])
    have hrest : hoststr.Str (ptr + xs.length + 1) ys := hstr.drop
    rw [Buffer.strchr_of_mem hstr hxs, ok_bind, before_append hxs, behind_append hxs,
      before_cons_self, behind_cons_self, List.append_nil]
    simp only [ifRoom, hne, if_false, Buffer.text_spec hrest, ok_bind]
    obtain ⟨service', hcopy, -, hservice⟩ := strNcpy_spec hsz hroom hys
    obtain ⟨hoststr', hwrite, hfilled, hhost, -⟩ := hstr.cut
    simp only [hcopy, hwrite, ok_bind]
    exact .ok ⟨hfilled.size, fun i hi => hfilled.cell_of_ne (by omega), hhost, service', rfl,
      hservice⟩
  · rw [Buffer.strchr_of_notMem hstr hc hcolon, ok_bind, before_of_notMem hc, behind_of_notMem hc,
      List.take_nil]
    simp only [ifRoom, hne, if_false]
    obtain ⟨service', hwrite, hservice⟩ := Buffer.str_nil (b := service) (i := 0) (by omega)
    simp only [hwrite, ok_bind]
    exact .ok ⟨rfl, fun _ _ => rfl, hstr, service', rfl, hservice⟩

/-- `addr_parse_hostspec` takes apart as much of the specification as there is room for in the buffer
for the host. -/
theorem parse_spec (hnul : nul ∉ hostspec) (hsz : 1 ≤ hoststrSz) (hroom : hoststrSz ≤ hoststr.size)
    (hssz : 1 ≤ serviceSz) (hsroom : serviceSz ≤ service.size) :
    Returns (addrParseHostspec hoststr hoststrSz (some service) serviceSz hostspec) fun r =>
      r.1.Str 0 (splitHostspec ((skipBracket hostspec).take (hoststrSz - 1))).1 ∧
        ∃ service', r.2 = some service' ∧ service'.Str 0
          ((splitHostspec ((skipBracket hostspec).take (hoststrSz - 1))).2.take (serviceSz - 1)) := by
  have hnul' : nul ∉ skipBracket hostspec := by
    unfold skipBracket
    split
    · exact fun hmem => hnul (List.mem_of_mem_tail hmem)
    · exact hnul
  have hbracket : ']' ≠ nul := by decide
  apply (strNcpy_spec hsz hroom hnul').bind
  generalize (skipBracket hostspec).take (hoststrSz - 1) = cs
  intro b ⟨_, hb⟩
  unfold splitHostspec
  by_cases hc : ']' ∈ cs
  · obtain ⟨xs, ys, rfl, hxs⟩ := List.eq_append_cons_of_mem hc
    obtain ⟨b', hwrite, hfilled, hhost, hrest⟩ := hb.cut
    simp only [if_pos hc, Buffer.strchr_of_mem hb hxs, ok_bind, hwrite, before_append hxs,
      behind_append hxs, before_cons_self, behind_cons_self, List.append_nil]
    apply (splitService_spec hrest hssz hsroom).mono
    intro r ⟨hsize, hcell, _, hservice⟩
    exact ⟨hhost.congr hsize fun j hj => hcell j (by omega), hservice⟩
  · simp only [if_neg hc, Buffer.strchr_of_notMem hb hc hbracket, ok_bind]
    apply (splitService_spec hb hssz hsroom).mono
    intro r ⟨_, _, hhost, hservice⟩
    exact ⟨hhost, hservice⟩

/-! ## Specifications as they are written -/

/-- A text that can be the host or the service of a specification. -/
structure Plain (cs : List Char) : Prop where
  nul_notMem : nul ∉ cs
  open_notMem : '[' ∉ cs
  close_notMem : ']' ∉ cs

instance (cs : List Char) : Decidable (Plain cs) :=
  decidable_of_iff (nul ∉ cs ∧ '[' ∉ cs ∧ ']' ∉ cs)
    ⟨fun ⟨h₁, h₂, h₃⟩ => ⟨h₁, h₂, h₃⟩, fun ⟨h₁, h₂, h₃⟩ => ⟨h₁, h₂, h₃⟩⟩

theorem skipBracket_plain (hh : Plain h) : skipBracket h = h := by
  apply if_neg
  intro he
  exact hh.open_notMem (List.mem_of_mem_head? he)

theorem skipBracket_colon (hh : Plain h) : skipBracket (h ++ ':' :: s) = h ++ ':' :: s := by
  apply if_neg
  cases h with
  | nil => simp
  | cons c h =>
    intro he
    exact hh.open_notMem (Option.some.inj he ▸ List.mem_cons_self)

theorem splitHostspec_close (hh : ']' ∉ h) : splitHostspec (h ++ ']' :: cs) = (h, behind ':' cs) := by
  rw [splitHostspec, if_pos (by simp), before_append hh, behind_append hh, before_cons_self,
    behind_cons_self, List.append_nil]

theorem splitHostspec_colon (hh : ']' ∉ h) (hs : ']' ∉ s) (hcolon : ':' ∉ h) :
    splitHostspec (h ++ ':' :: s) = (h, s) := by
  rw [splitHostspec, if_neg (by simp [hh, hs]), before_append hcolon, behind_append hcolon,
    before_cons_self, behind_cons_self, List.append_nil]

theorem splitHostspec_of_notMem (hh : ']' ∉ h) (hcolon : ':' ∉ h) : splitHostspec h = (h, []) := by
  rw [splitHostspec, if_neg hh, before_of_notMem hcolon, behind_of_notMem hcolon]

/-- A host with a colon that is not followed by a bracket is torn apart at the colon. -/
theorem splitHostspec_ne (hh : ']' ∉ h) (hcolon : ':' ∈ h) : (splitHostspec h).1 ≠ h := by
  obtain ⟨xs, ys, rfl, hxs⟩ := List.eq_append_cons_of_mem hcolon
  rw [splitHostspec, if_neg hh, before_append hxs, before_cons_self]
  simp

/-! ## Specifications that are cut off -/

/-- The beginning of a specification with at least the room for its host. -/
theorem take_host {n : ℕ} (hn : h.length ≤ n) (c : Char) (cs : List Char) :
    n = h.length ∧ (h ++ c :: cs).take n = h ∨
      ∃ k, n = h.length + 1 + k ∧ (h ++ c :: cs).take n = h ++ c :: cs.take k := by
  obtain ⟨k, rfl⟩ := Nat.exists_eq_add_of_le hn
  rw [List.take_length_add_append]
  cases k with
  | zero => exact .inl ⟨rfl, List.append_nil h⟩
  | succ k => exact .inr ⟨k, by omega, by rw [List.take_succ_cons]⟩

theorem take_take_eq_self_iff {m n : ℕ} (hm : s.length ≤ m) :
    (s.take n).take m = s ↔ s.length ≤ n := by
  rw [List.take_take, List.take_eq_self_iff]
  omega

/-- What is found in a host in brackets, when `n` characters behind the first bracket are copied. -/
theorem splitHostspec_take_close {m n : ℕ} (hh : Plain h) (hn : h.length ≤ n) :
    ((splitHostspec ((h ++ ']' :: cs).take n)).1 = h ∧
        (splitHostspec ((h ++ ']' :: cs).take n)).2.take m = s) ↔
      n = h.length ∧ ':' ∉ h ∧ s = [] ∨
        h.length < n ∧ (behind ':' (cs.take (n - h.length - 1))).take m = s := by
  rcases take_host hn ']' cs with ⟨rfl, htake⟩ | ⟨k, rfl, htake⟩
  · rw [htake]
    by_cases hcolon : ':' ∈ h
    · simp [splitHostspec_ne hh.close_notMem hcolon, hcolon]
    · simp [splitHostspec_of_notMem hh.close_notMem hcolon, hcolon, eq_comm]
  · have hk : h.length + 1 + k - h.length - 1 = k := by omega
    have hlt : h.length < h.length + 1 + k := by omega
    have hne : h.length + 1 + k ≠ h.length := by omega
    simp only [htake, splitHostspec_close hh.close_notMem, hk, hlt, hne, true_and, false_and, false_or]

/-! ## What the function finds -/

/-- The host `h` and the service `s` are found in the specification. -/
def Parses (hoststr : Buffer Char) (hoststrSz : ℕ) (service : Buffer Char) (serviceSz : ℕ)
    (hostspec h s : List Char) : Prop :=
  Returns (addrParseHostspec hoststr hoststrSz (some service) serviceSz hostspec) fun r =>
    r.1.Str 0 h ∧ ∃ service', r.2 = some service' ∧ service'.Str 0 s

theorem parses_iff (hnul : nul ∉ hostspec) (hsz : 1 ≤ hoststrSz) (hroom : hoststrSz ≤ hoststr.size)
    (hssz : 1 ≤ serviceSz) (hsroom : serviceSz ≤ service.size) :
    Parses hoststr hoststrSz service serviceSz hostspec h s ↔
      (splitHostspec ((skipBracket hostspec).take (hoststrSz - 1))).1 = h ∧
        (splitHostspec ((skipBracket hostspec).take (hoststrSz - 1))).2.take (serviceSz - 1) = s := by
  obtain ⟨r, hr, hhost, service', hs', hservice⟩ := parse_spec hnul hsz hroom hssz hsroom
  constructor
  · rintro ⟨r', hr', hhost', service'', hs'', hservice'⟩
    obtain rfl : r' = r := Except.ok.inj (hr'.symm.trans hr)
    obtain rfl : service'' = service' := Option.some.inj (hs''.symm.trans hs')
    exact ⟨hhost.unique hhost', hservice.unique hservice'⟩
  · rintro ⟨rfl, rfl⟩
    exact ⟨r, hr, hhost, service', hs', hservice⟩

section Forms

variable (hh : Plain h) (hs : Plain s) (hsz : h.length < hoststrSz) (hroom : hoststrSz ≤ hoststr.size)
  (hssz : s.length < serviceSz) (hsroom : serviceSz ≤ service.size)

include hh hsz hroom hssz hsroom

include hs in
theorem parses_bracket_service_iff :
    Parses hoststr hoststrSz service serviceSz ('[' :: h ++ ']' :: ':' :: s) h s ↔
      h.length + 2 + s.length < hoststrSz ∨ s = [] ∧ (':' ∉ h ∨ h.length + 1 < hoststrSz) := by
  have hnul : nul ∉ '[' :: h ++ ']' :: ':' :: s := by
    simp [hh.nul_notMem, hs.nul_notMem, show nul ≠ '[' by decide, show nul ≠ ']' by decide,
      show nul ≠ ':' by decide]
  have hskip : skipBracket ('[' :: h ++ ']' :: ':' :: s) = h ++ ']' :: ':' :: s := rfl
  rw [parses_iff hnul (by omega) hroom (by omega) hsroom, hskip,
    splitHostspec_take_close hh (by omega), behind_take_cons_self,
    take_take_eq_self_iff (by omega), ← List.length_eq_zero_iff]
  by_cases hcolon : ':' ∈ h
  · simp only [hcolon, not_true, false_and, and_false, false_or]
    omega
  · simp only [hcolon, not_false_iff, true_and, true_or, and_true]
    omega

theorem parses_bracket_iff :
    Parses hoststr hoststrSz service serviceSz ('[' :: h ++ [']']) h [] ↔
      ':' ∉ h ∨ h.length + 1 < hoststrSz := by
  have hnul : nul ∉ '[' :: h ++ [']'] := by
    simp [hh.nul_notMem, show nul ≠ '[' by decide, show nul ≠ ']' by decide]
  have hskip : skipBracket ('[' :: h ++ [']']) = h ++ [']'] := rfl
  rw [parses_iff hnul (by omega) hroom (by omega) hsroom, hskip,
    splitHostspec_take_close hh (by omega)]
  simp only [List.take_nil, behind_of_notMem List.not_mem_nil, and_true]
  by_cases hcolon : ':' ∈ h
  · simp only [hcolon, not_true, and_false, false_or]
    omega
  · simp only [hcolon, not_false_iff, and_true, true_or, iff_true]
    omega

include hs in
theorem parses_service_iff (hcolon : ':' ∉ h) :
    Parses hoststr hoststrSz service serviceSz (h ++ ':' :: s) h s ↔
      s = [] ∨ h.length + 1 + s.length < hoststrSz := by
  have hnul : nul ∉ h ++ ':' :: s := by
    simp [hh.nul_notMem, hs.nul_notMem, show nul ≠ ':' by decide]
  have hn : h.length ≤ hoststrSz - 1 := by omega
  rw [parses_iff hnul (by omega) hroom (by omega) hsroom, skipBracket_colon hh]
  rcases take_host hn ':' s with ⟨hend, htake⟩ | ⟨k, hk, htake⟩
  · rw [htake, splitHostspec_of_notMem hh.close_notMem hcolon, List.take_nil]
    simp only [true_and, eq_comm (a := []), ← List.length_eq_zero_iff]
    omega
  · have hclose : ']' ∉ s.take k := fun hmem => hs.close_notMem (List.mem_of_mem_take hmem)
    rw [htake, splitHostspec_colon hh.close_notMem hclose hcolon, take_take_eq_self_iff (by omega)]
    simp only [true_and, ← List.length_eq_zero_iff]
    omega

theorem parses_host (hcolon : ':' ∉ h) : Parses hoststr hoststrSz service serviceSz h h [] := by
  have hn : h.length ≤ hoststrSz - 1 := by omega
  rw [parses_iff hh.nul_notMem (by omega) hroom (by omega) hsroom, skipBracket_plain hh,
    List.take_of_length_le hn, splitHostspec_of_notMem hh.close_notMem hcolon]
  exact ⟨rfl, List.take_nil⟩

end Forms

/-- `addr_parse_hostspec` undoes the formatting of a host and a service exactly where the buffer for
the host has room for the service too, or where what it has no room for is not needed. -/
theorem addr_parse_hostspec_inverts_iff (hh : Plain h) (hs : Plain s) (hsz : h.length < hoststrSz)
    (hroom : hoststrSz ≤ hoststr.size) (hssz : s.length < serviceSz)
    (hsroom : serviceSz ≤ service.size) :
    (Parses hoststr hoststrSz service serviceSz ('[' :: h ++ ']' :: ':' :: s) h s ↔
        h.length + 2 + s.length < hoststrSz ∨ s = [] ∧ (':' ∉ h ∨ h.length + 1 < hoststrSz)) ∧
      (Parses hoststr hoststrSz service serviceSz ('[' :: h ++ [']']) h [] ↔
        ':' ∉ h ∨ h.length + 1 < hoststrSz) ∧
      (':' ∉ h →
        (Parses hoststr hoststrSz service serviceSz (h ++ ':' :: s) h s ↔
          s = [] ∨ h.length + 1 + s.length < hoststrSz) ∧
        Parses hoststr hoststrSz service serviceSz h h []) := by
  refine ⟨parses_bracket_service_iff hh hs hsz hroom hssz hsroom,
    parses_bracket_iff hh hsz hroom hssz hsroom, fun hcolon => ⟨?_, ?_⟩⟩
  · exact parses_service_iff hh hs hsz hroom hssz hsroom hcolon
  · exact parses_host hh hsz hroom hssz hsroom hcolon

/-- In `ab:80` the service is found with room for five characters and the end of the string. -/
theorem addr_parse_hostspec_inverts_iff_six :
    Parses (.malloc 6) 6 (.malloc 3) 3 ['a', 'b', ':', '8', '0'] ['a', 'b'] ['8', '0'] := by
  change Parses _ _ _ _ (['a', 'b'] ++ ':' :: ['8', '0']) _ _
  refine ((addr_parse_hostspec_inverts_iff ?_ ?_ ?_ ?_ ?_ ?_).2.2 ?_).1.2 ?_
  all_goals decide

/-- With room for the host and the end of the string it is not. -/
theorem not_parses_of_short_buffer : Plain ['a', 'b'] ∧ Plain ['8', '0'] ∧
    ¬ Parses (.malloc 3) 3 (.malloc 3) 3 ['a', 'b', ':', '8', '0'] ['a', 'b'] ['8', '0'] := by
  refine ⟨by decide, by decide, ?_⟩
  have hsize : 3 ≤ (Buffer.malloc 3 : Buffer Char).size := le_rfl
  rw [parses_iff (by decide) (by decide) hsize (by decide) hsize]
  decide

end LibSrsBsns
