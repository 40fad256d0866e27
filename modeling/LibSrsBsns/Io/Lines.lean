import LibSrsBsns.Io.Model

/-!
# Lines read byte by byte

What `io_read_line` reads is `consumedLine`: the bytes up to and including the first line terminator.
The text of the line (`lineText`) keeps the terminator unless it is a null character. The function
returns its length and stores as much of it as there is room for, except on an empty stream, where
the counter wraps below zero (`io_read_line_iff`).
-/

namespace LibSrsBsns

open C

/-- The bytes up to and including the first line terminator, or all of them if there is none. -/
def consumedLine : List Char → List Char
  | [] => []
  | c :: cs => if isLineTerm c then [c] else c :: consumedLine cs

/-- The text of a line, without the null character that may end it. -/
def lineText (cs : List Char) : List Char := before nul (consumedLine cs)

/-- On a stream of the bytes `cs` and for a buffer of `destSz` bytes, the counter of `io_read_line`
does not wrap below zero, the line is consumed and stored as far as there is room for it, and its
length is returned if anything was read. -/
structure ReadsLine (cs : List Char) (dest : Buffer Char) (destSz : ℕ) : Prop where
  counter : Returns (readLineLoop destSz ((cs.map some).length + 1) ⟨dest, 0, nul, cs.map some⟩)
    fun r => r.2.c = nul → 0 < r.2.bc
  result : Returns (ioReadLine (cs.map some) dest destSz) fun r =>
    r.2.2 = (cs.drop (consumedLine cs).length).map some ∧
      r.2.1.Str 0 ((lineText cs).take (destSz - 1)) ∧
      (consumedLine cs ≠ [] → r.1 = (lineText cs).length)

section

variable {cs xs ys : List Char} {dest : Buffer Char} {destSz n : ℕ}

theorem isLineTerm_nul : isLineTerm nul = true := by decide

theorem consumedLine_ne_nil (h : cs ≠ []) : consumedLine cs ≠ [] := by
  cases cs with
  | nil => exact absurd rfl h
  | cons c cs =>
    rw [consumedLine]
    split <;> exact List.cons_ne_nil _ _

/-- A null character can only be the last one of a line. -/
theorem consumedLine_cases (cs : List Char) :
    nul ∉ consumedLine cs ∨ ∃ zs, consumedLine cs = zs ++ [nul] ∧ nul ∉ zs := by
  induction cs with
  | nil => exact .inl List.not_mem_nil
  | cons c cs ih =>
    by_cases hterm : isLineTerm c = true
    · rw [consumedLine, if_pos hterm]
      by_cases hc : nul = c
      · exact .inr ⟨[], by rw [hc]; rfl, List.not_mem_nil⟩
      · exact .inl (by simpa using hc)
    · have hne : nul ≠ c := by
        rintro rfl
        exact hterm isLineTerm_nul
      rw [consumedLine, if_neg hterm]
      rcases ih with hnot | ⟨zs, hzs, hnot⟩
      · exact .inl (by simp [hne, hnot])
      · exact .inr ⟨c :: zs, by rw [hzs]; rfl, by simp [hne, hnot]⟩

/-- The bytes `xs` have been read. -/
structure LineState.Read (s : LineState) (xs : List Char) (sz destSz : ℕ) : Prop where
  bc : s.bc = xs.length
  c : s.c = xs.getLastD nul
  size : s.dest.size = sz
  dest : s.dest.Holds 0 (xs.take destSz)

theorem LineState.Read.store {s : LineState} (h : s.Read xs dest.size destSz)
    (hroom : destSz ≤ dest.size) (c : Char) (fd : List (Option Char)) :
    Returns (if s.bc < destSz then s.dest.write s.bc c else .ok s.dest) fun dest' =>
      Read ⟨dest', s.bc + 1, c, fd⟩ (xs ++ [c]) dest.size destSz := by
  have hbc := h.bc
  have hsize := h.size
  have hlen : s.bc + 1 = (xs ++ [c]).length := by rw [List.length_append, hbc]; rfl
  have hlast : c = (xs ++ [c]).getLastD nul := by simp
  split
  case isTrue hlt =>
    have htake : xs.take destSz = xs := List.take_of_length_le (by omega)
    have htake' : (xs ++ [c]).take destSz = xs ++ [c] := List.take_of_length_le (by omega)
    have hold := h.dest
    rw [htake] at hold
    apply (Buffer.write_spec c (by omega : s.bc < s.dest.size)).mono
    intro dest' hb
    rw [hbc, ← Nat.zero_add xs.length] at hb
    refine ⟨hlen, hlast, hb.size.trans hsize, ?_⟩
    rw [htake']
    exact hold.extend hb
  case isFalse hge =>
    have htake : (xs ++ [c]).take destSz = xs.take destSz :=
      List.take_append_of_le_length (by omega)
    exact .ok ⟨hlen, hlast, hsize, htake ▸ h.dest⟩

theorem readLineLoop_spec (hroom : destSz ≤ dest.size) (hn : cs.length < n) {s : LineState}
    (hs : s.Read xs dest.size destSz) (hfd : s.fd = cs.map some) :
    Returns (readLineLoop destSz n s) fun r => r.1 = false ∧
      r.2.Read (xs ++ consumedLine cs) dest.size destSz ∧
      r.2.fd = (cs.drop (consumedLine cs).length).map some := by
  induction cs generalizing xs n s with
  | nil =>
    obtain ⟨n, rfl⟩ : ∃ k, n = k + 1 := ⟨n - 1, by omega⟩
    rw [readLineLoop, loop_inr (b := (false, s)) (by rw [hfd]; rfl)]
    exact .ok ⟨rfl, by simpa [consumedLine] using hs, hfd⟩
  | cons c cs ih =>
    obtain ⟨n, rfl⟩ : ∃ k, n = k + 1 := ⟨n - 1, by omega⟩
    rw [List.length_cons] at hn
    obtain ⟨dest', hstore, hread⟩ := hs.store hroom c (cs.map some)
    by_cases hterm : isLineTerm c = true
    · rw [readLineLoop, loop_inr (b := (false, ⟨dest', s.bc + 1, c, cs.map some⟩))
        (by simp [hfd, hstore, hterm])]
      exact .ok ⟨rfl, by simpa [consumedLine, hterm] using hread, by simp [consumedLine, hterm]⟩
    · rw [readLineLoop, loop_inl (t := ⟨dest', s.bc + 1, c, cs.map some⟩)
        (by simp [hfd, hstore, hterm])]
      apply (ih (by omega) hread rfl).mono
      intro r hr
      simpa [consumedLine, hterm] using hr

theorem readLineLoop_init (hroom : destSz ≤ dest.size) (cs : List Char) :
    Returns (readLineLoop destSz ((cs.map some).length + 1) ⟨dest, 0, nul, cs.map some⟩) fun r =>
      r.1 = false ∧ r.2.Read (consumedLine cs) dest.size destSz ∧
        r.2.fd = (cs.drop (consumedLine cs).length).map some := by
  have hinit : LineState.Read ⟨dest, 0, nul, cs.map some⟩ [] dest.size destSz :=
    ⟨rfl, rfl, rfl, by simp⟩
  exact readLineLoop_spec hroom (by rw [List.length_map]; omega) hinit rfl

/-- Ending the stored part of a text with a null character, in the last cell at the latest. -/
theorem terminate_spec {b : Buffer Char} (hb : b.Holds 0 (xs.take destSz)) (hnul : nul ∉ xs)
    (hpos : 1 ≤ destSz) (hroom : destSz ≤ b.size) :
    Returns (b.write (if xs.length ≥ destSz then destSz - 1 else xs.length) nul) fun b' =>
      b'.Str 0 (xs.take (destSz - 1)) := by
  have hlen : (if xs.length ≥ destSz then destSz - 1 else xs.length) =
      (xs.take (destSz - 1)).length := by
    rw [List.length_take]
    split <;> omega
  have htake : (xs.take destSz).take (destSz - 1) = xs.take (destSz - 1) := by
    rw [List.take_take, Nat.min_eq_left (Nat.sub_le _ _)]
  have hle : (xs.take (destSz - 1)).length ≤ destSz - 1 := List.length_take_le _ _
  have hhead : b.Holds 0 (xs.take (destSz - 1)) := by
    rcases Nat.le_total (destSz - 1) (xs.take destSz).length with h | h
    · exact htake ▸ (hb.split (destSz - 1) h).1
    · rw [← htake, List.take_of_length_le h]
      exact hb
  rw [hlen]
  apply (Buffer.write_spec nul (by omega)).mono
  intro b' hb'
  rw [← Nat.zero_add (xs.take (destSz - 1)).length] at hb'
  exact ⟨hhead.extend hb', fun hmem => hnul (List.mem_of_mem_take hmem)⟩

theorem counter_eq {s : LineState} {sz : ℕ} (hs : s.Read (consumedLine cs) sz destSz)
    (hcs : cs ≠ []) :
    (if s.c = nul then sizeSub s.bc 1 else s.bc) = (lineText cs).length ∧
      s.dest.Holds 0 ((lineText cs).take destSz) ∧ (s.c = nul → 0 < s.bc) := by
  have hbc := hs.bc
  have hpos := List.length_pos_iff.2 (consumedLine_ne_nil hcs)
  rcases consumedLine_cases cs with hnot | ⟨zs, hzs, hnot⟩
  · have hc : s.c ≠ nul := by
      rw [hs.c, List.getLastD_eq_getLast?, List.getLast?_eq_some_getLast (consumedLine_ne_nil hcs),
        Option.getD_some]
      intro he
      exact hnot (he ▸ List.getLast_mem _)
    rw [if_neg hc, lineText, before_of_notMem hnot]
    exact ⟨hbc, hs.dest, fun he => absurd he hc⟩
  · have hc : s.c = nul := by rw [hs.c, hzs]; simp
    have htext : lineText cs = zs := by
      rw [lineText, hzs, before_append hnot, before_cons_self, List.append_nil]
    rw [hzs, List.length_append, List.length_singleton] at hbc
    have hdest := hs.dest
    rw [hzs, List.take_append, ← htext] at hdest
    rw [if_pos hc, sizeSub, if_pos (by omega), htext]
    exact ⟨by omega, htext ▸ (Buffer.holds_append.1 hdest).1, fun _ => by omega⟩

/-- A line of at least one byte is read, and its length is returned as an `int`. -/
theorem ioReadLine_spec (hpos : 1 ≤ destSz) (hroom : destSz ≤ dest.size) (hcs : cs ≠ []) :
    Returns (ioReadLine (cs.map some) dest destSz) fun r =>
      r.1 = sizeToInt (lineText cs).length ∧
        r.2.2 = (cs.drop (consumedLine cs).length).map some ∧
        r.2.1.Str 0 ((lineText cs).take (destSz - 1)) := by
  apply (readLineLoop_init hroom cs).bind
  rintro ⟨failed, s⟩ ⟨rfl, hs, hfd⟩
  obtain ⟨hcount, hdest, -⟩ := counter_eq hs hcs
  have hnul : nul ∉ lineText cs := notMem_before nul _
  have hsub : sizeSub destSz 1 = destSz - 1 := if_pos hpos
  simp only [Bool.false_eq_true, if_false, hcount, hsub]
  apply (terminate_spec hdest hnul hpos (hroom.trans hs.size.ge)).bind
  intro dest' hstr
  exact .ok ⟨by simp only, hfd, hstr⟩

end

/-- **Reading a line.** On a stream without read errors, `io_read_line` reads the line if and only if
the stream is not empty and an `int` can hold the length of the line. -/
theorem io_read_line_iff {dest : Buffer Char} {destSz : ℕ} (hpos : 1 ≤ destSz)
    (hroom : destSz ≤ dest.size) (cs : List Char) :
    ReadsLine cs dest destSz ↔ cs ≠ [] ∧ (lineText cs).length < 2 ^ 31 := by
  constructor
  · intro h
    have hcs : cs ≠ [] := by
      rintro rfl
      obtain ⟨r, hr, hwrap⟩ := h.counter
      obtain rfl := Except.ok.inj hr
      exact absurd (hwrap rfl) (Nat.lt_irrefl 0)
    refine ⟨hcs, ?_⟩
    obtain ⟨r, hr, -, -, hlen⟩ := h.result
    have hint := ((ioReadLine_spec hpos hroom hcs).of_eq_ok hr).1
    exact sizeToInt_eq_iff.1 (hint.symm.trans (hlen (consumedLine_ne_nil hcs)))
  · rintro ⟨hcs, hlen⟩
    constructor
    case counter =>
      apply (readLineLoop_init hroom cs).mono
      intro r ⟨_, hs, _⟩
      exact (counter_eq hs hcs).2.2
    case result =>
      apply (ioReadLine_spec hpos hroom hcs).mono
      intro r ⟨hint, hfd, hstr⟩
      exact ⟨hfd, hstr, fun _ => hint.trans (sizeToInt_eq_iff.2 hlen)⟩

/-- A line that is too long for the buffer, with a carriage return. -/
theorem io_read_line_iff_long : ReadsLine ['a', 'b', 'c', '\r', 'd'] (.malloc 4) 3 :=
  (io_read_line_iff (by decide) (by decide) _).2 (by decide)

/-- On the empty stream the counter wraps, and the last cell of the buffer is overwritten instead of
the first. -/
theorem not_readsLine_of_eof : ¬ ReadsLine [] (.malloc 4) 3 := by
  intro h
  obtain ⟨r, hr, hwrap⟩ := h.counter
  obtain rfl := Except.ok.inj hr
  exact absurd (hwrap rfl) (Nat.lt_irrefl 0)

end LibSrsBsns
