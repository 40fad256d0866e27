import LibSrsBsns.RingBuf.Queue
import LibSrsBsns.Foundations.C.Footprint

/-!
# The memory of the ring buffer

Only `ringbuf_put` changes the capacity, and only where the new bytes do not fit. The capacity that it
finds is then at least twice the old one and less than twice what the bytes need, so that a run
allocates in proportion to the most bytes it ever holds (`ringbuf_footprint`).
-/

namespace LibSrsBsns

open C

namespace RingBuf

variable {b : RingBuf} {q : List UInt8}

/-- What the doubling loop finds where it has to double. -/
theorem capLoop_bounds {cnt num bufsz k : ℕ} (hcnt : cnt ≤ bufsz) (hfull : bufsz - cnt < num) :
    Ends (capLoop cnt num k bufsz) (fun n => 2 * bufsz ≤ n ∧ n < 2 * (cnt + num)) fun _ => True := by
  refine Ends.loop_partial (fun n => n = bufsz ∨ 2 * bufsz ≤ n ∧ n < 2 * (cnt + num)) _ ?_ (.inl rfl)
  intro n hn
  split
  case isTrue hlt =>
    show n * 2 = bufsz ∨ 2 * bufsz ≤ n * 2 ∧ n * 2 < 2 * (cnt + num)
    omega
  case isFalse hge =>
    show 2 * bufsz ≤ n ∧ n < 2 * (cnt + num)
    omega

/-- Storing bytes where there is room for them does not change the capacity. -/
theorem fill_bufsz (b : RingBuf) (wrapped : Bool) (data : List UInt8) :
    Ends (b.fill wrapped data) (fun b' => b'.bufsz = b.bufsz ∧ b'.num = b.num + data.length)
      fun _ => True := by
  simp only [fill]
  generalize (if wrapped = true then b.tail - b.head else b.bufsz - b.head) = avail1
  split
  case isTrue =>
    apply (Ends.trivial (b.buf.copyIn _ _)).bind
    intro buf _
    exact ⟨rfl, rfl⟩
  case isFalse =>
    apply (Ends.trivial (b.buf.copyIn _ _)).bind
    intro buf _
    apply (Ends.trivial (buf.copyIn _ _)).bind
    intro buf _
    exact ⟨rfl, rfl⟩

/-- `ringbuf_put` of more than there is room for. -/
theorem put_bounds (hle : b.num ≤ b.bufsz) (data : List UInt8) :
    Ends (ringbufPut b data) (fun b' => b'.num = b.num + data.length ∧
      (b'.bufsz = b.bufsz ∨ 2 * b.bufsz ≤ b'.bufsz ∧ b'.bufsz < 2 * b'.num)) fun _ => True := by
  unfold ringbufPut
  split
  case isTrue hfull =>
    have hgrow : Ends (b.grow data.length) (fun b' => b'.num = b.num ∧
        2 * b.bufsz ≤ b'.bufsz ∧ b'.bufsz < 2 * (b.num + data.length)) fun _ => True := by
      apply (capLoop_bounds hle hfull).bind
      intro nbufsz hbounds
      apply (Ends.trivial (b.moveTo _)).bind
      intro nbuf _
      exact ⟨rfl, hbounds⟩
    apply hgrow.bind
    intro b₁ ⟨hnum, hbounds⟩
    apply (fill_bufsz b₁ false data).mono
    intro b' ⟨hbufsz, hnum'⟩
    exact ⟨by omega, .inr (by omega)⟩
  case isFalse hroom =>
    apply (fill_bufsz b b.wrapped data).mono
    intro b' ⟨hbufsz, hnum'⟩
    exact ⟨hnum', .inl hbufsz⟩

theorem doGet_bufsz (b : RingBuf) (num : ℕ) (peek : Bool) :
    Ends (doGet b num peek) (fun r => r.2.2.bufsz = b.bufsz) fun _ => True := by
  unfold doGet
  split
  case isTrue => exact rfl
  case isFalse =>
    apply (Ends.trivial (b.copyFront _)).bind
    intro r _
    cases peek <;> exact rfl

/-- Every call on a ring buffer is frugal. -/
theorem step_frugal (h : b.Queue q) (op : RingbufOp) :
    Returns (ringbufStep b op) fun r =>
      (∃ q', r.2.Queue q') ∧ Frugal 2 ringbufCount bufsz b r.2 := by
  have hle : b.num ≤ b.bufsz := h.num ▸ h.num_le
  obtain ⟨r, hstep, -, hq⟩ := ringbufStep_refines b q op h
  have hfrugal : Ends (ringbufStep b op) (fun r => Frugal 2 ringbufCount bufsz b r.2) fun _ => True := by
    cases op with
    | put data =>
      apply (put_bounds hle data).bind
      rintro b' ⟨hnum, hsame | hbounds⟩
      · exact .inl hsame
      · refine .inr ⟨?_, ?_⟩
        · show b.num + b.bufsz ≤ b'.bufsz
          omega
        · show b'.bufsz ≤ 2 * b'.num
          omega
    | get num =>
      apply (doGet_bufsz b num false).bind
      intro r hr
      exact .inl hr
    | peek num =>
      apply (doGet_bufsz b num true).bind
      intro r hr
      exact .inl hr
    | clear => exact .inl rfl
    | count => exact .inl rfl
    | empty => exact .inl rfl
  rw [hstep] at hfrugal ⊢
  exact .ok ⟨⟨_, hq⟩, hfrugal⟩

end RingBuf

/-- **The memory of a ring buffer.** After every run of calls on a fresh ring buffer, its capacity is
at most twice the number of bytes that it ever held, or the one it was made with; and all growth
together has copied fewer bytes than the capacity. -/
theorem ringbuf_footprint {initsize : ℕ} (hsz : 1 ≤ initsize) (ops : List RingbufOp) :
    Returns (runs ringbufStep (ringbufInit initsize) ops) fun r =>
      r.2.bufsz ≤ max initsize (2 * peak ringbufStep ringbufCount (ringbufInit initsize) ops) ∧
        moves ringbufStep ringbufCount RingBuf.bufsz (ringbufInit initsize) ops < r.2.bufsz := by
  have hinit : ∃ q, (ringbufInit initsize).Queue q := ⟨[], RingBuf.queue_init hsz⟩
  have hrun := Ends.footprint (fun b : RingBuf => ∃ q, b.Queue q)
    (fun b op ⟨q, h⟩ => (RingBuf.step_frugal h op).ends fun _ => False) hinit ops
  apply (hrun.returns fun _ => id).mono
  intro r ⟨hle, hmoves⟩
  have hcap : (ringbufInit initsize).bufsz = initsize := rfl
  exact ⟨hle, by omega⟩

/-- A buffer for one byte that has to grow twice. -/
theorem ringbuf_footprint_one : Returns
    (runs ringbufStep (ringbufInit 1) [.put [1, 2], .get 1, .put [3, 4, 5]]) fun r =>
      r.2.bufsz ≤ max 1 (2 * peak ringbufStep ringbufCount (ringbufInit 1)
        [.put [1, 2], .get 1, .put [3, 4, 5]]) :=
  (ringbuf_footprint le_rfl _).mono fun _ hr => hr.1

end LibSrsBsns
