import LibSrsBsns.RingBuf.Queue

/-!
# The capacity of the ring buffer

`ringbuf_put` doubles the capacity until the new bytes fit beside those that are there. A capacity
that is positive gets there, one of 0 never does; and the capacity is 0 in exactly the buffers that
come from `ringbuf_init(0)` (`ringbuf_makes_room_iff`).
-/

namespace LibSrsBsns

open C

namespace RingBuf

variable {b : RingBuf} {q data : List UInt8}

/-- The doubling loop for the bytes `data` ends with a capacity that holds them and those of the
buffer, and so does `ringbuf_put`. -/
structure MakesRoom (b : RingBuf) (data : List UInt8) : Prop where
  loop : ∃ turns, Returns (capLoop b.num data.length turns b.bufsz) fun nbufsz =>
    b.num + data.length ≤ nbufsz
  put : Returns (ringbufPut b data) fun b' => b.num + data.length ≤ b'.bufsz

theorem Queue.makesRoom (h : b.Queue q) (data : List UInt8) : b.MakesRoom data := by
  have hle := h.num_le
  have hnum := h.num
  constructor
  case loop =>
    refine ⟨b.num + data.length + 1, ?_⟩
    apply (capLoop_spec h.pos (hnum ▸ hle) data.length (Nat.lt_succ_self _)).mono
    intro nbufsz hn
    exact hn.1
  case put =>
    apply (put_spec h data).mono
    intro b' hb'
    have hle' := hb'.num_le
    rw [List.length_append] at hle'
    omega

/-- The state of a ring buffer that was made with the size 0. -/
structure NoCapacity (b : RingBuf) : Prop where
  bufsz : b.bufsz = 0
  num : b.num = 0
  head : b.head = 0
  size : b.buf.size = 0

theorem noCapacity_init : (ringbufInit 0).NoCapacity := ⟨rfl, rfl, rfl, rfl⟩

theorem NoCapacity.put_nil (h : b.NoCapacity) : Returns (ringbufPut b []) NoCapacity := by
  have hsize := h.size
  have hhead := h.head
  have hroom : ¬ ([] : List UInt8).length > b.bufsz - b.num := Nat.not_lt_zero _
  rw [ringbufPut, if_neg hroom, fill]
  simp only [List.length_nil, ge_iff_le, Nat.zero_le, if_true]
  apply (Buffer.copyIn_spec (by rw [List.length_nil]; omega)).bind
  intro buf hb
  exact .ok ⟨h.bufsz, h.num, hhead, hb.size.trans hsize⟩

/-- A call on a buffer without capacity leaves it so, unless it puts bytes, which hangs. -/
theorem NoCapacity.step (h : b.NoCapacity) (op : RingbufOp) :
    Ends (ringbufStep b op) (fun r => r.2.NoCapacity) (· = .spin) := by
  have hget (num : ℕ) (peek : Bool) : doGet b num peek = .ok (0, [], b) := by
    rw [doGet, if_pos h.num]
  cases op with
  | put data =>
    by_cases hdata : data = []
    · obtain ⟨b', hput, hb'⟩ := h.put_nil
      rw [hdata, ringbufStep, hput]
      exact hb'
    · rw [ringbufStep, put_of_no_capacity h.bufsz h.num hdata]
      rfl
  | get num =>
    rw [ringbufStep, ringbufGet, hget]
    exact h
  | peek num =>
    rw [ringbufStep, ringbufPeek, hget]
    exact h
  | clear => exact ⟨h.bufsz, rfl, rfl, h.size⟩
  | count => exact h
  | empty => exact h

theorem NoCapacity.makesRoom_iff (h : b.NoCapacity) (data : List UInt8) :
    b.MakesRoom data ↔ data = [] := by
  constructor
  · intro hroom
    by_contra hdata
    have hput := hroom.put
    rw [put_of_no_capacity h.bufsz h.num hdata] at hput
    exact not_returns_error hput
  · rintro rfl
    constructor
    case loop =>
      refine ⟨1, ?_⟩
      have hdone : ¬ b.bufsz - b.num < ([] : List UInt8).length := Nat.not_lt_zero _
      rw [capLoop, loop_inr (b := b.bufsz) (by rw [if_neg hdone]), returns_ok, h.num,
        List.length_nil]
      omega
    case put =>
      apply h.put_nil.mono
      intro b' _
      rw [h.num, List.length_nil]
      omega

end RingBuf

/-- **When `ringbuf_put` finds room.** In every state that a run of calls on a fresh ring buffer
reaches, the doubling loop ends with a capacity that holds the bytes of the buffer and the new ones,
if and only if the initial size is positive or there are no new bytes. A run that reaches no state
hung in that loop, on a buffer of the initial size 0. -/
theorem ringbuf_makes_room_iff (initsize : ℕ) (ops : List RingbufOp) :
    Ends (runs ringbufStep (ringbufInit initsize) ops)
      (fun r => ∀ data, r.2.MakesRoom data ↔ 1 ≤ initsize ∨ data = [])
      (fun e => e = .spin ∧ initsize = 0) := by
  rcases Nat.eq_zero_or_pos initsize with rfl | hpos
  · have hall : Throughout ringbufStep (· = .spin) RingBuf.NoCapacity (ringbufInit 0) ops :=
      .of_invariant RingBuf.NoCapacity (fun _ => id) (fun b op hb => hb.step op)
        RingBuf.noCapacity_init ops
    apply (hall.ends.fault_mono fun e he => ⟨he, rfl⟩).mono
    intro r hr data
    rw [hr.makesRoom_iff, or_iff_right (Nat.not_succ_le_zero 0)]
  · have hrun := Returns.runs fifoSpec RingBuf.Queue (fun _ => True)
      (fun b q op _ h => ringbufStep_refines b q op h) (RingBuf.queue_init hpos)
      (fun _ _ => trivial : ∀ op ∈ ops, True)
    apply (hrun.ends _).mono
    intro r ⟨_, hr⟩ data
    exact iff_of_true (hr.makesRoom data) (.inl hpos)

/-- A byte put in a fresh buffer of size 0. -/
theorem not_makesRoom_of_size_zero :
    ¬ Ends (runs ringbufStep (ringbufInit 0) []) (fun r => r.2.MakesRoom [7]) fun _ => False := by
  intro hroom
  have hput := RingBuf.MakesRoom.put hroom
  have hspin : ringbufPut (ringbufInit 0) [7] = .error .spin :=
    RingBuf.put_init_zero (List.cons_ne_nil _ _)
  rw [hspin] at hput
  exact not_returns_error hput

end LibSrsBsns
