import LibSrsBsns.Foundations.C.Buffer

/-!
# The ring buffer

The model of `ringbuf.c`. The pointers `head` (where the next byte is put) and `tail` (where the
next byte is taken) are their distances from `buf`; each may rest at the end of the buffer.
-/

namespace LibSrsBsns

open C

/-- `struct ringbuf`. -/
structure RingBuf where
  buf : Buffer UInt8
  head : ℕ
  tail : ℕ
  num : ℕ
  bufsz : ℕ

def ringbufInit (initsize : ℕ) : RingBuf := ⟨.malloc initsize, 0, 0, 0, initsize⟩

def ringbufEmpty (b : RingBuf) : Bool := b.num = 0

def ringbufClear (b : RingBuf) : RingBuf := { b with head := 0, tail := 0, num := 0 }

def ringbufCount (b : RingBuf) : ℕ := b.num

/-- The local `wrapped` of `do_get` and `ringbuf_put`. -/
def RingBuf.wrapped (b : RingBuf) : Bool := b.num > 0 ∧ b.head ≤ b.tail

/-- The copies of `do_get`: the `num` oldest bytes, and the `tail` after them. -/
def RingBuf.copyFront (b : RingBuf) (num : ℕ) : Exec (List UInt8 × ℕ) :=
  let avail1 := if !b.wrapped then b.head - b.tail else b.bufsz - b.tail
  if avail1 ≥ num then do
    let data ← b.buf.copyOut b.tail num
    .ok (data, b.tail + num)
  else do
    let data₁ ← b.buf.copyOut b.tail avail1
    let data₂ ← b.buf.copyOut 0 (num - avail1)
    .ok (data₁ ++ data₂, num - avail1)

/-- `do_get`: the number of bytes, the bytes, and the buffer after. -/
def doGet (b : RingBuf) (num : ℕ) (peek : Bool) : Exec (ℕ × List UInt8 × RingBuf) :=
  if b.num = 0 then .ok (0, [], b) else do
    let num := if num > b.num then b.num else num
    let (data, tail) ← b.copyFront num
    .ok (num, data, if peek then b else { b with tail, num := b.num - num })

def ringbufGet (b : RingBuf) (num : ℕ) : Exec (ℕ × List UInt8 × RingBuf) := doGet b num false

def ringbufPeek (b : RingBuf) (num : ℕ) : Exec (ℕ × List UInt8 × RingBuf) := doGet b num true

/-- The loop of `ringbuf_put` that doubles the capacity until `num` more bytes fit. -/
def RingBuf.capLoop (cnt num : ℕ) : ℕ → ℕ → Exec ℕ :=
  loop fun nbufsz =>
    if nbufsz - cnt < num then .ok (.inl (nbufsz * 2)) else .ok (.inr nbufsz)

/-- The copies of `ringbuf_put` to a new buffer: the bytes in order, from its start. -/
def RingBuf.moveTo (b : RingBuf) (nbuf : Buffer UInt8) : Exec (Buffer UInt8) :=
  if !b.wrapped then nbuf.memcpy 0 b.buf b.tail (b.head - b.tail)
  else do
    let firstlen := b.bufsz - b.tail
    let nbuf ← nbuf.memcpy 0 b.buf b.tail firstlen
    nbuf.memcpy firstlen b.buf 0 b.head

/-- The growth in `ringbuf_put`. -/
def RingBuf.grow (b : RingBuf) (num : ℕ) : Exec RingBuf := do
  let avail := b.bufsz - b.num
  let nbufsz ← RingBuf.capLoop b.num num (b.num + num + 1) b.bufsz
  let nbuf ← b.moveTo (.malloc nbufsz)
  .ok { b with buf := nbuf, head := b.bufsz - avail, tail := 0, bufsz := nbufsz }

/-- The copy of the bytes `data` to a buffer with room for them in `ringbuf_put`. -/
def RingBuf.fill (b : RingBuf) (wrapped : Bool) (data : List UInt8) : Exec RingBuf :=
  let avail1 := if wrapped then b.tail - b.head else b.bufsz - b.head
  if avail1 ≥ data.length then do
    let buf ← b.buf.copyIn b.head data
    .ok { b with buf, head := b.head + data.length, num := b.num + data.length }
  else do
    let buf ← b.buf.copyIn b.head (data.take avail1)
    let buf ← buf.copyIn 0 (data.drop avail1)
    .ok { b with buf, head := data.length - avail1, num := b.num + data.length }

def ringbufPut (b : RingBuf) (data : List UInt8) : Exec RingBuf :=
  if data.length > b.bufsz - b.num then do
    let b ← b.grow data.length
    b.fill false data
  else b.fill b.wrapped data

end LibSrsBsns
