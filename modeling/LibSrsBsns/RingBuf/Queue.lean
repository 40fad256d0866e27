import LibSrsBsns.RingBuf.Model
import LibSrsBsns.Foundations.C.Runs

/-!
# The ring buffer is a queue

The bytes of a ring buffer lie in one piece from `tail` to `head` (`RingBuf.Straight`), or in two
pieces, from `tail` to the end of the buffer and from its start to `head` (`RingBuf.Wrapped`). In
the second case `head` is not at the start, so that a buffer that runs empty always has `head` and
`tail` in one place. `RingBuf.Queue b q` says that the buffer holds the bytes `q` in either way; the
operations treat `q` as a first-in first-out queue.
-/

namespace LibSrsBsns

open C

namespace RingBuf

/-- The bytes `q` lie in one piece. -/
def Straight (b : RingBuf) (q : List UInt8) : Prop :=
  b.head = b.tail + q.length ∧ b.buf.Holds b.tail q

/-- The bytes `q` lie in two pieces, the second not empty. -/
def Wrapped (b : RingBuf) (q : List UInt8) : Prop :=
  ∃ q₁ q₂, q = q₁ ++ q₂ ∧ q₂ ≠ [] ∧ b.head ≤ b.tail ∧ b.tail + q₁.length = b.bufsz ∧
    q₂.length = b.head ∧ b.buf.Holds b.tail q₁ ∧ b.buf.Holds 0 q₂

/-- The ring buffer holds the bytes `q`. -/
structure Queue (b : RingBuf) (q : List UInt8) : Prop where
  pos : 0 < b.bufsz
  size : b.buf.size = b.bufsz
  num : b.num = q.length
  layout : b.Straight q ∨ b.Wrapped q

variable {b : RingBuf} {q data : List UInt8} {n : ℕ}

theorem Straight.wrapped_eq (h : b.Straight q) (hn : b.num = q.length) : b.wrapped = false := by
  have := h.1
  simp only [wrapped, decide_eq_false_iff_not]
  omega

theorem Wrapped.wrapped_eq (h : b.Wrapped q) (hn : b.num = q.length) : b.wrapped = true := by
  obtain ⟨q₁, q₂, rfl, hne, hle, -⟩ := h
  have := List.length_pos_iff.2 hne
  rw [List.length_append] at hn
  simp only [wrapped, decide_eq_true_eq]
  omega

theorem Queue.num_le (h : b.Queue q) : q.length ≤ b.bufsz := by
  rcases h.layout with ⟨hh, hq⟩ | ⟨q₁, q₂, rfl, hne, hle, h₁, h₂, -⟩
  · have := hq.le
    have := h.size
    omega
  · rw [List.length_append]
    omega

/-- A fresh ring buffer of a positive size is an empty queue. -/
theorem queue_init (hn : 1 ≤ n) : (ringbufInit n).Queue [] :=
  ⟨hn, rfl, rfl, .inl ⟨rfl, Buffer.holds_nil.2 (Nat.zero_le _)⟩⟩

theorem Queue.clear (h : b.Queue q) : (ringbufClear b).Queue [] :=
  ⟨h.pos, h.size, rfl, .inl ⟨rfl, Buffer.holds_nil.2 (Nat.zero_le _)⟩⟩

/-! ## Taking bytes -/

theorem Straight.copyFront_spec (hs : b.Straight q) (h : b.Queue q) (hn : n ≤ q.length) :
    Returns (b.copyFront n) fun r =>
      r.1 = q.take n ∧ Queue { b with tail := r.2, num := b.num - n } (q.drop n) := by
  have hnum : b.num - n = (q.drop n).length := by rw [h.num, List.length_drop]
  obtain ⟨hhead, hold⟩ := id hs
  simp only [copyFront, hs.wrapped_eq h.num, Bool.not_false, if_true]
  rw [if_pos (by omega), hold.copyOut_take hn]
  refine .ok ⟨rfl, h.pos, h.size, hnum, .inl ⟨?_, (hold.split n hn).2⟩⟩
  simp only [List.length_drop]
  omega

theorem Wrapped.copyFront_spec (hw : b.Wrapped q) (h : b.Queue q) (hn : n ≤ q.length) :
    Returns (b.copyFront n) fun r =>
      r.1 = q.take n ∧ Queue { b with tail := r.2, num := b.num - n } (q.drop n) := by
  have hnum : b.num - n = (q.drop n).length := by rw [h.num, List.length_drop]
  obtain ⟨q₁, q₂, rfl, hne, hle, hend, hhead, hold₁, hold₂⟩ := id hw
  have hfirst : b.bufsz - b.tail = q₁.length := by omega
  rw [List.length_append] at hn
  simp only [copyFront, hw.wrapped_eq h.num, Bool.not_true, Bool.false_eq_true, if_false, hfirst]
  split
  case isTrue hge =>
    rw [hold₁.copyOut_take hge]
    refine .ok ⟨(List.take_append_of_le_length hge).symm, h.pos, h.size, hnum, .inr
      ⟨q₁.drop n, q₂, List.drop_append_of_le_length hge, hne, ?_, ?_, hhead, (hold₁.split n hge).2,
        hold₂⟩⟩
    · change b.head ≤ b.tail + n
      omega
    · change b.tail + n + _ = b.bufsz
      rw [List.length_drop]
      omega
  case isFalse hlt =>
    -- the first piece is used up, and what is left of the second is in one piece
    have hle' : q₁.length ≤ n := by omega
    have hdrop : (q₁ ++ q₂).drop n = q₂.drop (n - q₁.length) := by
      rw [List.drop_append, List.drop_of_length_le hle', List.nil_append]
    rw [hold₁.copyOut, ok_bind, hold₂.copyOut_take (by omega)]
    refine .ok ⟨?_, h.pos, h.size, hnum, .inl ⟨?_, ?_⟩⟩
    · rw [List.take_append, List.take_of_length_le hle']
    · rw [hdrop, List.length_drop]
      change b.head = n - q₁.length + _
      omega
    · rw [hdrop]
      simpa using (hold₂.split (n - q₁.length) (by omega)).2

/-- The oldest bytes are copied out of one piece or of both. -/
theorem copyFront_spec (h : b.Queue q) (hn : n ≤ q.length) : Returns (b.copyFront n) fun r =>
    r.1 = q.take n ∧ Queue { b with tail := r.2, num := b.num - n } (q.drop n) := by
  rcases h.layout with hs | hw
  · exact hs.copyFront_spec h hn
  · exact hw.copyFront_spec h hn

/-- `do_get` copies out the oldest bytes, and takes them unless it only peeks. -/
theorem doGet_spec (h : b.Queue q) (n : ℕ) (peek : Bool) : Returns (doGet b n peek) fun r =>
    r.1 = min n q.length ∧ r.2.1 = q.take n ∧ r.2.2.Queue (if peek then q else q.drop n) := by
  unfold doGet
  refine .ite (fun h0 => ?_) fun h0 => ?_
  · obtain rfl : q = [] := List.eq_nil_of_length_eq_zero (h.num ▸ h0)
    exact .ok ⟨by simp, by simp, by simpa using h⟩
  have hk : (if n > b.num then b.num else n) = min n q.length := by
    rw [h.num]
    split <;> omega
  rw [hk]
  refine (copyFront_spec h (Nat.min_le_right ..)).bind fun r hr => .ok ⟨rfl, ?_, ?_⟩
  · rw [hr.1, ← List.take_eq_take_min]
  · cases peek with
    | true => exact h
    | false => simpa [← List.drop_eq_drop_min] using hr.2

/-! ## Putting bytes -/

/-- The capacity that the doubling loop finds has room. -/
theorem capLoop_spec {cnt bufsz : ℕ} (hpos : 0 < bufsz) (hcnt : cnt ≤ bufsz) (num : ℕ) {k : ℕ}
    (hk : cnt + num < k) :
    Returns (capLoop cnt num k bufsz) fun nbufsz => cnt + num ≤ nbufsz ∧ bufsz ≤ nbufsz := by
  refine Returns.loop (fun s => 0 < s ∧ bufsz ≤ s) (fun s => cnt + num - s) _ (fun s hs => ?_)
    ⟨hpos, le_rfl⟩ (by omega)
  split
  case isTrue hlt => exact .ok ⟨by omega, by omega⟩
  case isFalse hge => exact .ok (by omega)

/-- The bytes are moved to the start of a buffer that is large enough. -/
theorem moveTo_spec (h : b.Queue q) (nbuf : Buffer UInt8) (hsz : q.length ≤ nbuf.size) :
    Returns (b.moveTo nbuf) fun nbuf' => nbuf'.size = nbuf.size ∧ nbuf'.Holds 0 q := by
  rcases h.layout with hs | hw
  · obtain ⟨hhead, hold⟩ := id hs
    rw [moveTo, hs.wrapped_eq h.num, Bool.not_false, if_pos rfl,
      show b.head - b.tail = q.length by omega]
    exact (Buffer.memcpy_spec hold (by omega)).mono fun nbuf' hb => ⟨hb.size, hb.holds⟩
  · rw [moveTo, hw.wrapped_eq h.num, Bool.not_true, if_neg (by simp)]
    obtain ⟨q₁, q₂, rfl, hne, hle, hend, hhead, hold₁, hold₂⟩ := hw
    rw [List.length_append] at hsz
    rw [show b.bufsz - b.tail = q₁.length by omega, ← hhead]
    refine (Buffer.memcpy_spec hold₁ (by omega)).bind fun nbuf₁ hb₁ => ?_
    have hsz₁ := hb₁.size
    refine (Buffer.memcpy_spec hold₂ (by omega)).mono fun nbuf₂ hb₂ => ?_
    have hb := hb₁.append (by rwa [Nat.zero_add])
    exact ⟨hb.size, hb.holds⟩

/-- Growth leaves the bytes in one piece, with room for more. -/
theorem grow_spec (h : b.Queue q) (num : ℕ) : Returns (b.grow num) fun b' =>
    b'.Queue q ∧ b'.Straight q ∧ num ≤ b'.bufsz - b'.num := by
  have hle := h.num_le
  have hnum := h.num
  have hpos := h.pos
  refine (capLoop_spec h.pos (h.num ▸ hle) num (k := b.num + num + 1) (by omega)).bind
    fun nbufsz hn => ?_
  refine (moveTo_spec h (.malloc nbufsz) (by
    rw [Buffer.size_malloc]
    omega)).bind fun nbuf hb => .ok ?_
  have hstraight : Straight { b with
      buf := nbuf, head := b.bufsz - (b.bufsz - b.num), tail := 0, bufsz := nbufsz } q := by
    refine ⟨?_, hb.2⟩
    show b.bufsz - (b.bufsz - b.num) = 0 + q.length
    omega
  exact ⟨⟨show 0 < nbufsz by omega, hb.1, h.num, .inl hstraight⟩, hstraight,
    show num ≤ nbufsz - b.num by omega⟩

/-- The new bytes have room behind the one piece, or wrap around the end of the buffer. -/
theorem Straight.fill_spec (hs : b.Straight q) (h : b.Queue q)
    (hroom : data.length ≤ b.bufsz - b.num) :
    Returns (b.fill b.wrapped data) (Queue · (q ++ data)) := by
  have hnum := h.num
  have hsize := h.size
  have hnum' : b.num + data.length = (q ++ data).length := by rw [List.length_append, h.num]
  obtain ⟨hhead, hold⟩ := id hs
  have hle := hold.le
  simp only [fill, hs.wrapped_eq h.num, Bool.false_eq_true, if_false]
  split
  case isTrue hge =>
    apply (Buffer.copyIn_spec (by omega)).bind
    intro buf hb
    refine .ok ⟨h.pos, hb.size.trans hsize, hnum', .inl ⟨?_, hold.extend (hhead ▸ hb)⟩⟩
    change b.head + data.length = b.tail + _
    rw [List.length_append]
    omega
  case isFalse hlt =>
    have htake : (data.take (b.bufsz - b.head)).length = b.bufsz - b.head :=
      List.length_take_of_le (by omega)
    have hdrop : (data.drop (b.bufsz - b.head)).length = data.length - (b.bufsz - b.head) :=
      List.length_drop
    apply (Buffer.copyIn_spec (by omega)).bind
    intro buf₁ hb₁
    have hsz₁ := hb₁.size
    have hb₁' : b.buf.Filled (b.tail + q.length) (data.take (b.bufsz - b.head)) buf₁ := by
      rwa [← hhead]
    apply (Buffer.copyIn_spec (by omega)).bind
    intro buf₂ hb₂
    have hold₂ : buf₂.Holds b.tail (q ++ data.take (b.bufsz - b.head)) :=
      hb₂.holds_behind (hold.extend hb₁') (by omega)
    refine .ok ⟨h.pos, hb₂.size.trans (hb₁.size.trans hsize), hnum', .inr
      ⟨q ++ data.take (b.bufsz - b.head), data.drop (b.bufsz - b.head), by simp, ?_, ?_, ?_, hdrop,
        hold₂, hb₂.holds⟩⟩
    · exact List.ne_nil_of_length_pos (by omega)
    · change data.length - _ ≤ b.tail
      omega
    · change b.tail + _ = b.bufsz
      rw [List.length_append, htake]
      omega

/-- The new bytes go behind the second piece. -/
theorem Wrapped.fill_spec (hw : b.Wrapped q) (h : b.Queue q)
    (hroom : data.length ≤ b.bufsz - b.num) :
    Returns (b.fill b.wrapped data) (Queue · (q ++ data)) := by
  have hnum := h.num
  have hsize := h.size
  have hnum' : b.num + data.length = (q ++ data).length := by rw [List.length_append, h.num]
  obtain ⟨q₁, q₂, rfl, hne, hle, hend, hhead, hold₁, hold₂⟩ := id hw
  rw [List.length_append] at hnum
  simp only [fill, hw.wrapped_eq h.num, if_true]
  rw [if_pos (by omega)]
  apply (Buffer.copyIn_spec (by omega)).bind
  intro buf hb
  have hb' : b.buf.Filled (0 + q₂.length) data buf := by rwa [Nat.zero_add, hhead]
  have hold₁' : buf.Holds b.tail q₁ := hb.holds_behind hold₁ (by omega)
  refine .ok ⟨h.pos, hb.size.trans hsize, hnum', .inr ⟨q₁, q₂ ++ data, by simp, by simp [hne], ?_,
    hend, ?_, hold₁', hold₂.extend hb'⟩⟩
  · change b.head + data.length ≤ b.tail
    omega
  · rw [List.length_append, hhead]

/-- Bytes that there is room for go behind those that are there. -/
theorem fill_spec (h : b.Queue q) (hroom : data.length ≤ b.bufsz - b.num) :
    Returns (b.fill b.wrapped data) (Queue · (q ++ data)) := by
  rcases h.layout with hs | hw
  · exact hs.fill_spec h hroom
  · exact hw.fill_spec h hroom

/-- The bytes that can be taken. -/
def contents (b : RingBuf) : List UInt8 :=
  match ringbufPeek b b.num with
  | .ok (_, data, _) => data
  | .error _ => []

theorem Queue.contents_eq (h : b.Queue q) : b.contents = q := by
  obtain ⟨⟨k, data, b'⟩, hpeek, -, rfl, -⟩ := doGet_spec h b.num true
  rw [contents, ringbufPeek, hpeek]
  exact List.take_of_length_le (by rw [h.num])

/-- Doubling does not take a capacity of 0 anywhere. -/
theorem capLoop_zero {cnt num : ℕ} (hnum : 1 ≤ num) (k : ℕ) : capLoop cnt num k 0 = .error .spin := by
  induction k with
  | zero => rfl
  | succ k ih =>
    unfold capLoop at ih ⊢
    rw [loop_inl (t := 0) (by simp; omega)]
    exact ih

/-- A buffer without capacity never has room. -/
theorem put_of_no_capacity (hsz : b.bufsz = 0) (hnum : b.num = 0) (hdata : data ≠ []) :
    ringbufPut b data = .error .spin := by
  have hpos := List.length_pos_iff.2 hdata
  have hcap : capLoop b.num data.length (b.num + data.length + 1) b.bufsz = .error .spin := by
    rw [hsz]
    exact capLoop_zero hpos _
  rw [ringbufPut, if_pos (by omega), grow, hcap, error_bind, error_bind]

theorem put_init_zero (hdata : data ≠ []) : ringbufPut (ringbufInit 0) data = .error .spin :=
  put_of_no_capacity rfl rfl hdata

/-- `ringbuf_put` appends the bytes. -/
theorem put_spec (h : b.Queue q) (data : List UInt8) :
    Returns (ringbufPut b data) (Queue · (q ++ data)) := by
  unfold ringbufPut
  refine .ite (fun _ => ?_) fun hge => fill_spec h (by omega)
  refine (grow_spec h data.length).bind fun b' hb' => ?_
  have := fill_spec hb'.1 hb'.2.2
  rwa [hb'.2.1.wrapped_eq hb'.1.num] at this

end RingBuf

/-! ## Runs -/

/-- The calls on a ring buffer. -/
inductive RingbufOp
  | put (data : List UInt8)
  | get (num : ℕ)
  | peek (num : ℕ)
  | clear
  | count
  | empty

/-- What a call returns: `get` and `peek` the number of bytes and the bytes. -/
inductive RingbufOut
  | unit
  | bytes (num : ℕ) (data : List UInt8)
  | size (n : ℕ)
  | bool (b : Bool)
  deriving DecidableEq

/-- A call on the ring buffer, with allocations succeeding. -/
def ringbufStep (b : RingBuf) : RingbufOp → Exec (RingbufOut × RingBuf)
  | .put data => do
    let b ← ringbufPut b data
    .ok (.unit, b)
  | .get num => do
    let (n, data, b) ← ringbufGet b num
    .ok (.bytes n data, b)
  | .peek num => do
    let (n, data, b) ← ringbufPeek b num
    .ok (.bytes n data, b)
  | .clear => .ok (.unit, ringbufClear b)
  | .count => .ok (.size (ringbufCount b), b)
  | .empty => .ok (.bool (ringbufEmpty b), b)

/-- A call on a first-in first-out queue of bytes, the oldest first. -/
def fifoSpec (q : List UInt8) : RingbufOp → RingbufOut × List UInt8
  | .put data => (.unit, q ++ data)
  | .get num => (.bytes (min num q.length) (q.take num), q.drop num)
  | .peek num => (.bytes (min num q.length) (q.take num), q)
  | .clear => (.unit, [])
  | .count => (.size q.length, q)
  | .empty => (.bool (q = []), q)

/-- One call on a ring buffer does what it does on the queue. -/
theorem ringbufStep_refines (b : RingBuf) (q : List UInt8) (op : RingbufOp) (h : b.Queue q) :
    Returns (ringbufStep b op) fun r => r.1 = (fifoSpec q op).1 ∧ r.2.Queue (fifoSpec q op).2 := by
  cases op with
  | put data => exact (RingBuf.put_spec h data).bind fun b' hb' => .ok ⟨rfl, hb'⟩
  | get num =>
    exact (RingBuf.doGet_spec h num false).bind fun r hr =>
      .ok ⟨by rw [hr.1, hr.2.1]; rfl, hr.2.2⟩
  | peek num =>
    exact (RingBuf.doGet_spec h num true).bind fun r hr =>
      .ok ⟨by rw [hr.1, hr.2.1]; rfl, hr.2.2⟩
  | clear => exact .ok ⟨rfl, h.clear⟩
  | count => exact .ok ⟨congrArg RingbufOut.size h.num, h⟩
  | empty => exact .ok ⟨by simp [fifoSpec, ringbufEmpty, h.num], h⟩

/-- **The ring buffer is a first-in first-out queue of bytes.** Every run of calls on a ring buffer
of positive size returns, without an access outside the buffer, what it returns on a queue, whose
bytes the buffer holds at the end. -/
theorem ringbuf_refines_fifo {initsize : ℕ} (hsz : 1 ≤ initsize) (ops : List RingbufOp) :
    Returns (runs ringbufStep (ringbufInit initsize) ops) fun r =>
      r.1 = (runSpec fifoSpec [] ops).1 ∧ r.2.buf.size = r.2.bufsz ∧
        r.2.Queue (runSpec fifoSpec [] ops).2 :=
  (Returns.runs fifoSpec RingBuf.Queue (fun _ => True)
    (fun b q op _ h => ringbufStep_refines b q op h) (RingBuf.queue_init hsz) (by simp)).mono
      fun _ hr => ⟨hr.1, hr.2.size, hr.2⟩

/-- A buffer of one byte that is filled, emptied and made to grow. -/
theorem ringbuf_refines_fifo_one :
    Returns (runs ringbufStep (ringbufInit 1) [.put [1], .get 1, .put [2], .put [3, 4], .get 9])
      fun r => r.1 = [.unit, .bytes 1 [1], .unit, .unit, .bytes 3 [2, 3, 4]] :=
  (ringbuf_refines_fifo (by decide) _).mono fun _ hr => hr.1.trans rfl

end LibSrsBsns
