import LibSrsBsns.Io.Model

/-!
# Formatted output

`io_writeall` writes its buffer once and in order, whatever part of it each `write` takes
(`writeall_spec`). `io_vfprintf` formats to a buffer of fixed size and writes what a string in it ends
at, but returns the length of the whole text; so what it reports has been written only where the text
fits (`io_vfprintf_writes_iff`).
-/

namespace LibSrsBsns

open C

/-- Of the calls of `write` to come, one fails before `n` bytes are written. -/
inductive Fails : (ℕ → Option ℕ) → ℕ → Prop
  | now {calls : ℕ → Option ℕ} {n : ℕ} (h : calls 0 = none) (hn : 0 < n) : Fails calls n
  | later {calls : ℕ → Option ℕ} {n k : ℕ} (h : calls 0 = some k)
      (hf : Fails (fun i => calls (i + 1)) (n - (k + 1))) : Fails calls n

/-- `io_writeall` writes a part of the bytes `cs` in the buffer, from the start on, and returns `true`
if and only if that is all of them. -/
def WritesAll (fd : Sink) (buf : Buffer Char) (cs : List Char) : Prop :=
  Returns (ioWriteall fd buf cs.length) fun r =>
    (∃ k, r.2.written = fd.written ++ cs.take k) ∧ (r.1 = true ↔ r.2.written = fd.written ++ cs)

/-- If the value that `io_fprintf` or `io_vfprintf` returns is not negative, it is the number of bytes
written, and these are the formatted text. -/
structure PrintsAll (fd : Sink) (text : List Char) : Prop where
  vfprintf : Returns (ioVfprintf fd text) fun r =>
    0 ≤ r.1 → r.1 = text.length ∧ r.2.written = fd.written ++ text
  fprintf : Returns (ioFprintf fd text) fun r =>
    0 ≤ r.1 → r.1 = text.length ∧ r.2.written = fd.written ++ text

section

variable {calls : ℕ → Option ℕ} {fd : Sink} {buf : Buffer Char} {cs text : List Char} {n k : ℕ}

theorem not_fails_zero : ¬ Fails calls 0 := by
  intro h
  generalize hn : 0 = n at h
  induction h with
  | now _ hpos => omega
  | later _ _ ih => exact ih (by omega)

theorem fails_of_some (h : calls 0 = some k) :
    Fails calls n ↔ Fails (fun i => calls (i + 1)) (n - (k + 1)) := by
  constructor
  · intro hf
    cases hf with
    | now hnone _ => cases h.symm.trans hnone
    | later hk hf =>
      obtain rfl := Option.some.inj (h.symm.trans hk)
      exact hf
  · exact .later h

/-! ## `io_writeall` -/

theorem Sink.write_of_none (h : fd.calls 0 = none) (data : List Char) :
    fd.write data = (none, { fd with calls := fun i => fd.calls (i + 1) }) := by
  simp only [Sink.write, h]

theorem Sink.write_of_some (h : fd.calls 0 = some k) (data : List Char) :
    fd.write data = (some (min (k + 1) data.length),
      { written := fd.written ++ data.take (min (k + 1) data.length)
        calls := fun i => fd.calls (i + 1) }) := by
  simp only [Sink.write, h]

/-- `io_writeall` writes the bytes from the start on, and all of them unless a `write` fails. -/
theorem writeall_spec (fd : Sink) (hbuf : buf.Holds 0 cs) :
    Returns (ioWriteall fd buf cs.length) fun r => ∃ k ≤ cs.length,
      r.2.written = fd.written ++ cs.take k ∧ (r.1 = true ↔ k = cs.length) ∧
        (r.1 = false ↔ Fails fd.calls cs.length) := by
  apply Returns.loop (fun s => s.1 ≤ cs.length ∧ s.2.written = fd.written ++ cs.take s.1 ∧
    (Fails fd.calls cs.length ↔ Fails s.2.calls (cs.length - s.1))) (fun s => cs.length - s.1) _ _
    ⟨Nat.zero_le _, by simp, Iff.rfl⟩ (by omega)
  rintro ⟨bc, fd'⟩ ⟨(hle : bc ≤ cs.length), hw, hfails⟩
  simp only at hw hfails ⊢
  split
  case isTrue hlt =>
    have hdata : buf.copyOut bc (cs.length - bc) = .ok (cs.drop bc) := by
      have hout := (hbuf.split bc hle).2.copyOut
      rwa [Nat.zero_add, List.length_drop] at hout
    rw [hdata, ok_bind]
    cases hcall : fd'.calls 0 with
    | none =>
      rw [Sink.write_of_none hcall]
      have hf : Fails fd.calls cs.length := hfails.2 (.now hcall (by omega))
      exact .ok ⟨bc, hle, hw, by simp; omega, by simp [hf]⟩
    | some m =>
      rw [Sink.write_of_some hcall, List.length_drop]
      have hrest : cs.length - bc - (m + 1) = cs.length - (bc + min (m + 1) (cs.length - bc)) := by
        omega
      refine .ok ⟨⟨?_, ?_, ?_⟩, ?_⟩
      · show bc + min (m + 1) (cs.length - bc) ≤ cs.length
        omega
      · show fd'.written ++ _ = fd.written ++ cs.take (bc + min (m + 1) (cs.length - bc))
        rw [hw, List.take_add, List.append_assoc]
      · rw [hfails, fails_of_some hcall, hrest]
      · show cs.length - (bc + min (m + 1) (cs.length - bc)) < cs.length - bc
        omega
  case isFalse hge =>
    obtain rfl : bc = cs.length := by omega
    rw [Nat.sub_self] at hfails
    exact .ok ⟨cs.length, le_rfl, hw, by simp, by simp [hfails, not_fails_zero]⟩

/-! ## `io_vfprintf` -/

/-- The bytes that `io_vfprintf` writes of a text: what there is room for, up to the first null
character. -/
def buffered (text : List Char) : List Char := before nul (text.take (maxWritebuf - 1))

theorem buffered_length (text : List Char) : (buffered text).length < maxWritebuf := by
  have htake : (text.take (maxWritebuf - 1)).length ≤ maxWritebuf - 1 := List.length_take_le _ _
  have hbefore := (List.takeWhile_sublist (l := text.take (maxWritebuf - 1)) (· != nul)).length_le
  unfold buffered before
  unfold maxWritebuf at *
  omega

/-- All of a text is written if it is short and has no null character. -/
theorem buffered_eq_iff : buffered text = text ↔ nul ∉ text ∧ text.length < maxWritebuf := by
  constructor
  · intro h
    rw [← h]
    exact ⟨notMem_before nul _, buffered_length text⟩
  · rintro ⟨hnul, hlen⟩
    unfold maxWritebuf at hlen
    rw [buffered, List.take_of_length_le (by unfold maxWritebuf; omega), before_of_notMem hnul]

/-- What `vsnprintf` stores is a string up to its first null character. -/
theorem vsnprintf_spec (text : List Char) :
    Returns (vsnprintf (.malloc maxWritebuf) maxWritebuf text) fun r =>
      r.1 = (if text.length < 2 ^ 31 then (text.length : ℤ) else -1) ∧ r.2.Str 0 (buffered text) := by
  have hlen : (text.take (maxWritebuf - 1) ++ [nul]).length ≤ maxWritebuf := by
    have htake : (text.take (maxWritebuf - 1)).length ≤ maxWritebuf - 1 := List.length_take_le _ _
    rw [List.length_append, List.length_singleton]
    unfold maxWritebuf at *
    omega
  apply (Buffer.copyIn_spec (by rw [Buffer.size_malloc]; omega)).bind
  intro buf hb
  exact .ok ⟨by simp only, Buffer.str_before hb.holds⟩

/-- `io_vfprintf` writes the buffered part of the text, and returns the length of the text or, if a
`write` or the conversion fails, -1. -/
theorem ioVfprintf_spec (fd : Sink) (text : List Char) :
    Returns (ioVfprintf fd text) fun r =>
      (Fails fd.calls (buffered text).length ∧ r.1 = -1) ∨
      (¬ Fails fd.calls (buffered text).length ∧
        r.1 = (if text.length < 2 ^ 31 then (text.length : ℤ) else -1) ∧
        r.2.written = fd.written ++ buffered text) := by
  apply (vsnprintf_spec text).bind
  rintro ⟨ret, buf⟩ ⟨hret, hstr⟩
  simp only [Buffer.strlen_spec hstr, ok_bind]
  apply (writeall_spec fd hstr.holds_text).bind
  rintro ⟨ok, fd'⟩ ⟨k, -, hw, hok, hfail⟩
  cases ok with
  | false => exact .ok (.inl ⟨hfail.1 rfl, rfl⟩)
  | true =>
    obtain rfl := hok.1 rfl
    rw [List.take_length] at hw
    exact .ok (.inr ⟨fun hf => Bool.noConfusion (hfail.2 hf), hret, hw⟩)

end

/-- **Formatted output.** `io_vfprintf` and `io_fprintf` write the text or return an error if and only
if the text has no null character and fits in the buffer, or is so long that `vsnprintf` fails, or a
`write` fails before the buffered part of the text is written. `io_writeall` writes every buffer. -/
theorem io_vfprintf_writes_iff (fd : Sink) :
    (∀ text, PrintsAll fd text ↔ (nul ∉ text ∧ text.length < 4096) ∨ 2 ^ 31 ≤ text.length ∨
      Fails fd.calls (before nul (text.take 4095)).length) ∧
    ∀ buf cs, buf.Holds 0 cs → WritesAll fd buf cs := by
  constructor
  · intro text
    constructor
    · intro h
      rcases (ioVfprintf_spec fd text).and h.vfprintf with ⟨r, hr, hspec, htext⟩
      rcases hspec with ⟨hf, -⟩ | ⟨-, hret, hw⟩
      · exact .inr (.inr hf)
      · by_cases hlong : text.length < 2 ^ 31
        · rw [if_pos hlong] at hret
          have hwritten := (htext (by omega)).2
          rw [hw, List.append_cancel_left_eq] at hwritten
          exact .inl (buffered_eq_iff.1 hwritten)
        · exact .inr (.inl (Nat.le_of_not_lt hlong))
    · intro hcond
      have hprints : Returns (ioVfprintf fd text) fun r =>
          0 ≤ r.1 → r.1 = text.length ∧ r.2.written = fd.written ++ text := by
        apply (ioVfprintf_spec fd text).mono
        intro r hr hpos
        rcases hr with ⟨-, hret⟩ | ⟨hnot, hret, hw⟩
        · omega
        · split at hret
          case isTrue hshort =>
            have hfits := (hcond.resolve_right fun h => h.elim (fun hlong => by omega) hnot)
            rw [buffered_eq_iff.2 hfits] at hw
            exact ⟨hret, hw⟩
          case isFalse hlong => omega
      exact ⟨hprints, hprints⟩
  · intro buf cs hbuf
    apply (writeall_spec fd hbuf).mono
    intro r ⟨k, hk, hw, hok, _⟩
    refine ⟨⟨k, hw⟩, hok.trans ?_⟩
    rw [hw, List.append_cancel_left_eq, List.take_eq_self_iff]
    omega

/-- A text of three bytes, of which the first `write` takes one. -/
theorem io_vfprintf_writes_short :
    WritesAll ⟨[], fun _ => some 0⟩ ⟨3, fun i => ['a', 'b', 'c'][i]?⟩ ['a', 'b', 'c'] :=
  (io_vfprintf_writes_iff _).2 _ _ ⟨by decide, fun i _ => by simp⟩

/-- A text of one null character: nothing is written, and 1 is returned. -/
theorem not_printsAll_of_nul : ¬ PrintsAll ⟨[], fun _ => some 0⟩ [nul] := by
  intro h
  obtain ⟨r, hr, hprints⟩ := h.vfprintf
  have heval : (ioVfprintf ⟨[], fun _ => some 0⟩ [nul]).map (fun r => (r.1, r.2.written)) =
      .ok (1, []) := by decide +kernel
  rw [hr] at heval
  obtain ⟨hret, hw⟩ := Prod.mk.inj (Except.ok.inj heval)
  have hwritten := (hprints (by omega)).2
  rw [hw] at hwritten
  cases hwritten

end LibSrsBsns
