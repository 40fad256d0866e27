import LibSrsBsns.Bufrd.Source
import LibSrsBsns.RingBuf.Footprint

/-!
# The memory of the buffered reader

`read` is called only where the ring buffer is empty, and delivers at most 4096 bytes. So whatever is
read, and however long the lines are, the ring buffer never has to be larger than twice that.
-/

namespace LibSrsBsns

open C

namespace Bufrd

variable {b : Bufrd} {n : ℕ}

/-- The ring buffer is no larger than `n`, or than twice what one `read` delivers. -/
def Bounded (n : ℕ) (b : Bufrd) : Prop := b.buf.bufsz ≤ max n 8191

theorem readMore_bounded (h : b.Bounded n) (hempty : b.buf.num = 0) :
    Ends (readMore b) (fun r => r.2.Bounded n) fun _ => True := by
  have hle : b.buf.num ≤ b.buf.bufsz := by omega
  simp only [readMore]
  cases b.fd.next with
  | data chunk =>
    have hpos : 0 < chunk.bytes.length := List.length_pos_iff.2 chunk.ne_nil
    have hchunk := chunk.le
    have hb : b.buf.bufsz ≤ max n 8191 := h
    rw [if_pos (show (ReadResult.data chunk).value > 0 from Int.natCast_pos.2 hpos)]
    apply (RingBuf.put_bounds hle chunk.bytes).bind
    rintro buf ⟨hnum, hbufsz⟩
    show buf.bufsz ≤ max n 8191
    omega
  | eof => exact h
  | error => exact h

theorem take_bounded (h : b.Bounded n) (nbytes : ℕ) :
    Ends (b.take nbytes) (fun r => r.2.2.Bounded n) fun _ => True := by
  simp only [take]
  split
  case isTrue =>
    apply (RingBuf.doGet_bufsz b.buf _ false).bind
    intro r hr
    show r.2.2.bufsz ≤ max n 8191
    rw [hr]
    exact h
  case isFalse => exact h

theorem read_bounded (h : b.Bounded n) (nbytes : ℕ) :
    Ends (bufrdRead b nbytes) (fun r => r.2.2.Bounded n) fun _ => True := by
  unfold bufrdRead
  split
  case isTrue => exact h
  case isFalse =>
    split
    case isTrue hnothing =>
      have hempty : b.buf.num = 0 := by simpa [ringbufEmpty] using hnothing.2
      apply (readMore_bounded h hempty).bind
      intro r hr
      show Ends (if r.1 ≤ 0 then _ else _) _ _
      split
      case isTrue => exact hr
      case isFalse => exact take_bounded hr nbytes
    case isFalse => exact take_bounded h nbytes

theorem getchar_bounded (h : b.Bounded n) :
    Ends (bufrdGetchar b) (fun r => r.2.Bounded n) fun _ => True := by
  unfold bufrdGetchar
  split
  case isTrue => exact h
  case isFalse =>
    apply (read_bounded h 1).bind
    intro r hr
    show Ends (if r.1 ≤ 0 then _ else _) _ _
    split
    case isTrue => exact hr
    case isFalse =>
      cases r.2.1 with
      | nil => trivial
      | cons ch cs => exact hr

theorem getline_bounded (h : b.Bounded n) (destsz turns : ℕ) :
    Ends (bufrdGetline b destsz turns) (fun r => r.2.2.Bounded n) fun _ => True := by
  have hloop : Ends (getlineLoop turns ⟨b, [], destsz, 0⟩) (fun s => s.b.Bounded n) fun _ => True := by
    apply Ends.loop_partial (fun s : Getline => s.b.Bounded n) _ _ h
    intro s hs
    apply (getchar_bounded hs).bind
    intro r hr
    have hstore (c : ℤ) : (Getline.store { s with b := r.2 } c).b.Bounded n := by
      unfold Getline.store
      split <;> exact hr
    show Ends (if r.1 = -1 then _ else _) _ _
    split
    case isTrue => exact hr
    case isFalse =>
      split
      case isTrue => exact hstore r.1
      case isFalse => exact hstore r.1
  apply hloop.bind
  intro s hs
  exact hs

theorem step_bounded (turns : ℕ) (h : b.Bounded n) (op : BufrdOp) :
    Ends (bufrdStep turns b op) (fun r => r.2.Bounded n) fun _ => True := by
  cases op with
  | read nbytes =>
    apply (read_bounded h nbytes).bind
    intro r hr
    exact hr
  | getchar =>
    apply (getchar_bounded h).bind
    intro r hr
    exact hr
  | getline destsz =>
    apply (getline_bounded h destsz turns).bind
    intro r hr
    exact hr
  | ungetchar c =>
    show Bounded n (bufrdUngetchar b c).2
    unfold bufrdUngetchar
    split <;> exact h

end Bufrd

/-- **The memory of a buffered reader.** Whatever `read` returns on the descriptor and whatever calls
are made, the ring buffer never has more than 8191 bytes, unless it was made with more. -/
theorem bufrd_footprint (results : ℕ → ReadResult) {bufsz : ℕ} (hsz : 1 ≤ bufsz) (turns : ℕ)
    (ops : List BufrdOp) : Throughout (bufrdStep turns) (· = .spin)
      (fun b => b.buf.bufsz ≤ max bufsz 8191) (bufrdInit ⟨results, 0⟩ bufsz) ops := by
  have hinit : (∃ s, (bufrdInit ⟨results, 0⟩ bufsz).Holds s) ∧
      (bufrdInit ⟨results, 0⟩ bufsz).Bounded bufsz :=
    ⟨⟨_, Bufrd.holds_init _ hsz⟩, le_max_left _ _⟩
  refine Throughout.of_invariant (fun b : Bufrd => (∃ s, b.Holds s) ∧ b.Bounded bufsz)
    (fun b h => h.2) ?_ hinit ops
  intro b op ⟨⟨s, hs⟩, hb⟩
  have hends := bufrdStep_ends turns op hs
  have hbounded := Bufrd.step_bounded turns hb op
  cases hstep : bufrdStep turns b op with
  | error e =>
    rw [hstep] at hends
    exact hends.1
  | ok r =>
    rw [hstep] at hends hbounded
    exact ⟨⟨_, hends.2⟩, hbounded⟩

/-- A reader with a buffer of one byte, where `read` delivers `7 10` for ever. -/
theorem bufrd_footprint_one : Throughout (bufrdStep 9) (· = .spin) (fun b => b.buf.bufsz ≤ max 1 8191)
    (bufrdInit ⟨fun _ => .data ⟨[7, 10], by decide, by decide⟩, 0⟩ 1) [.getline 2, .ungetchar 3] :=
  bufrd_footprint _ le_rfl 9 _

end LibSrsBsns
