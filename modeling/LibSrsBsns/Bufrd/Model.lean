import LibSrsBsns.RingBuf.Model
import Mathlib.Algebra.Order.Ring.Int

/-!
# The buffered reader

The model of `bufrd.c`. A descriptor is the sequence of results that `read` returns on it, with the
number of those that it has returned so far. What a function stores in the buffer of its caller is
the list of the bytes that it stores from the start of that buffer on.
-/

namespace LibSrsBsns

open C

/-- The bytes that one call of `read` delivers to a buffer of 4096 bytes. -/
structure Chunk where
  bytes : List UInt8
  ne_nil : bytes ≠ []
  le : bytes.length ≤ 4096

/-- What one call of `read` returns. -/
inductive ReadResult
  | data (chunk : Chunk)
  | eof
  | error

namespace ReadResult

/-- The value returned. -/
def value : ReadResult → ℤ
  | data chunk => chunk.bytes.length
  | eof => 0
  | error => -1

/-- The bytes delivered. -/
def bytes : ReadResult → List UInt8
  | data chunk => chunk.bytes
  | _ => []

end ReadResult

/-- A descriptor that can be read from. -/
structure Descriptor where
  results : ℕ → ReadResult
  pos : ℕ

namespace Descriptor

/-- The result of the next call of `read`. -/
def next (fd : Descriptor) : ReadResult := fd.results fd.pos

/-- The descriptor after one call of `read`. -/
def advance (fd : Descriptor) : Descriptor := { fd with pos := fd.pos + 1 }

/-- The bytes obtained from `read` so far. -/
def obtained (fd : Descriptor) : List UInt8 :=
  (List.range fd.pos).flatMap fun i => (fd.results i).bytes

end Descriptor

/-- `struct bufrd`. -/
structure Bufrd where
  fd : Descriptor
  buf : RingBuf
  unget : ℤ
  eof : Bool

def bufrdInit (fd : Descriptor) (bufsz : ℕ) : Bufrd := ⟨fd, ringbufInit bufsz, -1, false⟩

/-- `read_more`, where `ringbuf_put` finds memory. -/
def readMore (b : Bufrd) : Exec (ℤ × Bufrd) := do
  let r := b.fd.next
  let b := { b with fd := b.fd.advance }
  if r.value > 0 then do
    let buf ← ringbufPut b.buf r.bytes
    .ok (r.value, { b with buf })
  else .ok (r.value, b)

/-- The part of `bufrd_read` that hands out what is pending. -/
def Bufrd.take (b : Bufrd) (nbytes : ℕ) : Exec (ℤ × List UInt8 × Bufrd) :=
  let ungot := b.unget ≠ -1
  let dest : List UInt8 := if ungot then [UInt8.ofInt b.unget] else []
  let nbytes := if ungot then nbytes - 1 else nbytes
  let b := { b with unget := -1 }
  if !ringbufEmpty b.buf then do
    let (n, data, buf) ← ringbufGet b.buf nbytes
    .ok ((if ungot then 1 else 0) + n, dest ++ data, { b with buf })
  else .ok (if ungot then 1 else 0, dest, b)

/-- `bufrd_read`: the value returned, and the bytes stored at `dest`. -/
def bufrdRead (b : Bufrd) (nbytes : ℕ) : Exec (ℤ × List UInt8 × Bufrd) :=
  if nbytes = 0 then .ok (-1, [], b)
  else if b.unget = -1 ∧ ringbufEmpty b.buf then do
    let (r, b) ← readMore b
    if r ≤ 0 then .ok (r, [], b) else b.take nbytes
  else b.take nbytes

def bufrdGetchar (b : Bufrd) : Exec (ℤ × Bufrd) :=
  if b.unget ≠ -1 then .ok ((UInt8.ofInt b.unget).toNat, { b with unget := -1 })
  else do
    let (r, ch, b) ← bufrdRead b 1
    if r ≤ 0 then .ok (-1, { b with eof := r = 0 })
    else
      match ch with
      | [] => .error .indeterminate
      | ch :: _ => .ok (ch.toNat, b)

def bufrdEof (b : Bufrd) : Bool := b.eof

def bufrdBuffered (b : Bufrd) : Bool := b.unget ≠ -1 ∨ !ringbufEmpty b.buf

def bufrdUngetchar (b : Bufrd) (c : ℤ) : Bool × Bufrd :=
  if b.unget ≠ -1 then (false, b) else (true, { b with unget := c })

/-- The variables of the loop of `bufrd_getline`: what it has stored at `dest`, and how much it has
counted. -/
structure Getline where
  b : Bufrd
  dest : List UInt8
  destsz : ℕ
  bc : ℕ

/-- The part of the loop of `bufrd_getline` that stores and counts the byte `c`. -/
def Getline.store (s : Getline) (c : ℤ) : Getline :=
  let s := if s.destsz > 1
    then { s with dest := s.dest ++ [UInt8.ofInt c], destsz := s.destsz - 1 } else s
  { s with bc := s.bc + 1 }

/-- The loop of `bufrd_getline`. -/
def getlineLoop : ℕ → Getline → Exec Getline :=
  loop fun s => do
    let (c, b) ← bufrdGetchar s.b
    if c = -1 then .ok (.inr { s with b })
    else
      let s := { s with b }.store c
      if c = 10 then .ok (.inr s) else .ok (.inl s)

/-- `bufrd_getline`, with a bound for the number of bytes it may consume: the value returned, and the
bytes stored at `dest`. -/
def bufrdGetline (b : Bufrd) (destsz turns : ℕ) : Exec (ℕ × List UInt8 × Bufrd) := do
  let s ← getlineLoop turns ⟨b, [], destsz, 0⟩
  .ok (s.bc, s.dest ++ [0], s.b)

end LibSrsBsns
