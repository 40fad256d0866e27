import LibSrsBsns.Bufrd.Model
import LibSrsBsns.RingBuf.Queue

/-!
# The buffered reader as a source of bytes

A buffered reader holds bytes that are pending: the one that was pushed back, if any, and behind it
those in the ring buffer. Its operations are functions of the abstract state `Source`, which has the
pending bytes as lists: when nothing is pending one result of `read` is fetched
(`Source.refill`), and then the first pending bytes are handed out.
-/

namespace LibSrsBsns

open C

/-! ## Bytes and characters -/

@[simp] theorem ofInt_toNat (c : UInt8) : UInt8.ofInt (c.toNat : ℤ) = c := by
  rw [UInt8.ofInt, Int.emod_eq_of_lt (by omega) (by have := c.toNat_lt; omega)]
  simp

/-- The byte that a value of `unget` stands for, if it stands for one. -/
def slotOf (unget : ℤ) : Option UInt8 := if unget = -1 then none else some (UInt8.ofInt unget)

@[simp] theorem slotOf_neg_one : slotOf (-1) = none := rfl

@[simp] theorem slotOf_eq_none (unget : ℤ) : slotOf unget = none ↔ unget = -1 := by
  simp [slotOf]

theorem slotOf_eq_some {unget : ℤ} {c : UInt8} (h : slotOf unget = some c) :
    unget ≠ -1 ∧ UInt8.ofInt unget = c := by
  by_cases hu : unget = -1
  · simp [hu] at h
  · rw [slotOf, if_neg hu] at h
    exact ⟨hu, Option.some.inj h⟩

/-! ## Sources -/

/-- How a line ends. -/
inductive LineEnd
  | newline
  | eof
  | error
  deriving DecidableEq

/-- A descriptor, the bytes that are pending (the one that was pushed back, and those buffered), and
the end-of-file flag. -/
structure Source where
  fd : Descriptor
  slot : Option UInt8
  ring : List UInt8
  eof : Bool

namespace Source

variable (s : Source)

/-- The bytes that are pending. -/
def pending : List UInt8 := s.slot.toList ++ s.ring

/-- Fetch a result of `read` if nothing is pending. -/
def refill : Source :=
  if s.pending = [] then { s with fd := s.fd.advance, ring := s.fd.next.bytes } else s

/-- The source without the first `n` pending bytes, for `n` at least one. -/
def drop (n : ℕ) : Source :=
  match s.slot with
  | none => { s with ring := s.ring.drop n }
  | some _ => { s with slot := none, ring := s.ring.drop (n - 1) }

/-- Hand out up to `n` bytes, or the value of a `read` that delivered none. -/
def read (n : ℕ) : ℤ × List UInt8 × Source :=
  if n = 0 then (-1, [], s)
  else if s.refill.pending = [] then (s.fd.next.value, [], s.refill)
  else ((s.refill.pending.take n).length, s.refill.pending.take n, s.refill.drop n)

/-- Hand out one byte. The end of the file is recorded where there is none. -/
def getchar : ℤ × Source :=
  match s.refill.pending with
  | [] => (-1, { s.refill with eof := s.fd.next.value = 0 })
  | c :: _ => (c.toNat, s.refill.drop 1)

/-- Push a byte back, unless one is. -/
def unget (c : ℤ) : Bool × Source :=
  match s.slot with
  | none => (true, { s with slot := slotOf c })
  | some _ => (false, s)

/-- Hand out bytes up to the first newline, the end of the file or an error, if there are fewer than
`turns` of them. -/
def line (turns : ℕ) (s : Source) : Option (List UInt8 × LineEnd × Source) :=
  match turns, s.refill.pending with
  | 0, _ => none
  | _ + 1, [] => some ([], if s.fd.next.value = 0 then .eof else .error, s.getchar.2)
  | turns + 1, c :: _ =>
    if c = 10 then some ([c], .newline, s.getchar.2)
    else (line turns s.getchar.2).map fun r => (c :: r.1, r.2)

variable {s} {n : ℕ}

theorem pending_drop (hn : 1 ≤ n) : (s.drop n).pending = s.pending.drop n := by
  obtain ⟨fd, slot, ring, eof⟩ := s
  obtain ⟨n, rfl⟩ : ∃ k, n = k + 1 := ⟨n - 1, by omega⟩
  cases slot <;> rfl

theorem fd_drop (n : ℕ) : (s.drop n).fd = s.fd := by
  unfold drop
  split <;> rfl

theorem refill_of_pending (h : s.pending ≠ []) : s.refill = s := if_neg h

theorem pending_refill_of_nil (h : s.pending = []) : s.refill.pending = s.fd.next.bytes := by
  rw [refill, if_pos h, pending, (List.append_eq_nil_iff.1 h).1]
  rfl

/-- A result of `read` that is not positive delivers no bytes. -/
theorem bytes_eq_nil_iff (r : ReadResult) : r.bytes = [] ↔ r.value ≤ 0 := by
  cases r with
  | data chunk =>
    have hne := chunk.ne_nil
    have hpos := List.length_pos_iff.2 hne
    simp only [ReadResult.bytes, ReadResult.value, hne, false_iff]
    omega
  | eof => simp [ReadResult.bytes, ReadResult.value]
  | error => simp [ReadResult.bytes, ReadResult.value]

theorem pending_of_refill (h : s.refill.pending = []) : s.pending = [] := by
  by_contra hne
  exact hne (refill_of_pending hne ▸ h)

theorem refill_of_nil (h : s.refill.pending = []) :
    s.refill = { s with fd := s.fd.advance, ring := s.fd.next.bytes } := if_pos (pending_of_refill h)

/-- Where fetching leaves nothing pending, `read` delivered nothing. -/
theorem value_le_of_refill (h : s.refill.pending = []) : s.fd.next.value ≤ 0 :=
  (bytes_eq_nil_iff _).1 ((pending_refill_of_nil (pending_of_refill h)).symm.trans h)

theorem read_of_nil (hn : n ≠ 0) (h : s.refill.pending = []) :
    s.read n = (s.fd.next.value, [], s.refill) := by
  rw [read, if_neg hn, if_pos h]

theorem read_of_pending (hn : n ≠ 0) (h : s.refill.pending ≠ []) : s.read n =
    (((s.refill.pending.take n).length : ℤ), s.refill.pending.take n, s.refill.drop n) := by
  rw [read, if_neg hn, if_neg h]

theorem getchar_of_nil (h : s.refill.pending = []) :
    s.getchar = (-1, { s.refill with eof := s.fd.next.value = 0 }) := by
  rw [getchar, h]

theorem getchar_of_cons {c : UInt8} {cs : List UInt8} (h : s.refill.pending = c :: cs) :
    s.getchar = ((c.toNat : ℤ), s.refill.drop 1) := by
  rw [getchar, h]

end Source

/-- The reader `b` is the source `s`. -/
structure Bufrd.Holds (b : Bufrd) (s : Source) : Prop where
  fd : b.fd = s.fd
  slot : slotOf b.unget = s.slot
  ring : b.buf.Queue s.ring
  eof : b.eof = s.eof

namespace Bufrd

variable {b : Bufrd} {s : Source} {n : ℕ}

/-- The source of a fresh reader. -/
theorem holds_init (fd : Descriptor) {bufsz : ℕ} (h : 1 ≤ bufsz) :
    (bufrdInit fd bufsz).Holds ⟨fd, none, [], false⟩ :=
  ⟨rfl, rfl, RingBuf.queue_init h, rfl⟩

/-- The source that a reader is. -/
def source (b : Bufrd) : Source := ⟨b.fd, slotOf b.unget, b.buf.contents, b.eof⟩

theorem Holds.source_eq (h : b.Holds s) : b.source = s := by
  rw [source, h.fd, h.slot, h.ring.contents_eq, h.eof]

theorem Holds.unget_eq_neg_one (h : b.Holds s) : b.unget = -1 ↔ s.slot = none := by
  rw [← h.slot, slotOf_eq_none]

theorem Holds.empty_eq (h : b.Holds s) : ringbufEmpty b.buf = decide (s.ring = []) := by
  simp [ringbufEmpty, h.ring.num]

/-- Nothing is pending exactly if the reader says so. -/
theorem Holds.pending_eq_nil (h : b.Holds s) :
    s.pending = [] ↔ b.unget = -1 ∧ ringbufEmpty b.buf = true := by
  rw [h.unget_eq_neg_one, h.empty_eq, decide_eq_true_eq, Source.pending, List.append_eq_nil_iff,
    Option.toList_eq_nil_iff]

theorem Holds.buffered_eq (h : b.Holds s) : bufrdBuffered b = !decide (s.pending = []) := by
  simp [bufrdBuffered, h.pending_eq_nil]

theorem take_spec (h : b.Holds s) (hn : 1 ≤ n) : Returns (b.take n) fun r =>
    r.1 = (s.pending.take n).length ∧ r.2.1 = s.pending.take n ∧ r.2.2.Holds (s.drop n) := by
  obtain ⟨n, rfl⟩ : ∃ k, n = k + 1 := ⟨n - 1, by omega⟩
  obtain ⟨fd, slot, ring, eof⟩ := s
  have hring := h.ring
  have hempty := h.empty_eq
  cases slot with
  | none =>
    have hunget : b.unget = -1 := h.unget_eq_neg_one.2 rfl
    simp only [take, hunget, ne_eq, not_true_eq_false, if_false, hempty]
    refine .ite (fun _ => ?_) fun he => ?_
    · apply (RingBuf.doGet_spec hring (n + 1) false).bind
      rintro ⟨k, data, buf⟩ ⟨rfl, rfl, hbuf⟩
      exact .ok ⟨by simp [Source.pending], rfl, ⟨h.fd, rfl, hbuf, h.eof⟩⟩
    · obtain rfl : ring = [] := by simpa using he
      exact .ok ⟨rfl, rfl, ⟨h.fd, rfl, hring, h.eof⟩⟩
  | some c =>
    obtain ⟨hne, hc⟩ := slotOf_eq_some h.slot
    simp only [take, ne_eq, hne, not_false_eq_true, if_true, hc, hempty, Nat.add_sub_cancel]
    refine .ite (fun _ => ?_) fun he => ?_
    · apply (RingBuf.doGet_spec hring n false).bind
      rintro ⟨k, data, buf⟩ ⟨rfl, rfl, hbuf⟩
      refine .ok ⟨?_, rfl, ⟨h.fd, rfl, hbuf, h.eof⟩⟩
      simp only [Source.pending, Option.toList_some, List.singleton_append, List.take_succ_cons,
        List.length_cons, List.length_take]
      omega
    · obtain rfl : ring = [] := by simpa using he
      exact .ok ⟨by simp [Source.pending], by simp [Source.pending],
        ⟨h.fd, rfl, by simpa [Source.drop] using hring, h.eof⟩⟩

/-- `read_more` fetches a result of `read`. -/
theorem readMore_spec (h : b.Holds s) (hs : s.pending = []) : Returns (readMore b) fun r =>
    r.1 = s.fd.next.value ∧ r.2.Holds s.refill := by
  have hqueue := h.ring
  rw [(List.append_eq_nil_iff.1 hs).2] at hqueue
  simp only [readMore, h.fd, Source.refill, if_pos hs]
  refine .ite (fun _ => ?_) fun hle => ?_
  · apply (RingBuf.put_spec hqueue s.fd.next.bytes).bind
    intro buf hbuf
    exact .ok ⟨rfl, ⟨rfl, h.slot, hbuf, h.eof⟩⟩
  · have hnil : s.fd.next.bytes = [] := (Source.bytes_eq_nil_iff _).2 (by omega)
    exact .ok ⟨rfl, ⟨rfl, h.slot, hnil ▸ hqueue, h.eof⟩⟩

/-- `bufrd_read` is the read of the source. -/
theorem read_spec (h : b.Holds s) (n : ℕ) : Returns (bufrdRead b n) fun r =>
    r.1 = (s.read n).1 ∧ r.2.1 = (s.read n).2.1 ∧ r.2.2.Holds (s.read n).2.2 := by
  unfold bufrdRead Source.read
  by_cases hn : n = 0
  · rw [if_pos hn, if_pos hn]
    exact .ok ⟨rfl, rfl, h⟩
  rw [if_neg hn, if_neg hn]
  by_cases hs : s.pending = []
  · rw [if_pos (by simpa using h.pending_eq_nil.1 hs)]
    apply (readMore_spec h hs).bind
    rintro ⟨r, b'⟩ ⟨(rfl : r = _), hb⟩
    have hpending := Source.pending_refill_of_nil hs
    refine .ite (fun hle => ?_) fun hpos => ?_
    · rw [if_pos (hpending.trans ((Source.bytes_eq_nil_iff _).2 hle))]
      exact .ok ⟨rfl, rfl, hb⟩
    · rw [if_neg (hpending ▸ mt (Source.bytes_eq_nil_iff _).1 hpos)]
      exact take_spec hb (by omega)
  · rw [if_neg (by simpa using mt h.pending_eq_nil.2 hs), Source.refill_of_pending hs, if_neg hs]
    exact take_spec h (by omega)

/-- `bufrd_getchar` is that of the source. -/
theorem getchar_spec (h : b.Holds s) : Returns (bufrdGetchar b) fun r =>
    r.1 = s.getchar.1 ∧ r.2.Holds s.getchar.2 := by
  unfold bufrdGetchar
  by_cases hunget : b.unget = -1
  · rw [if_neg (by simpa using hunget)]
    apply (read_spec h 1).bind
    rintro ⟨r, data, b'⟩ ⟨(rfl : r = _), (rfl : data = _), (hb : b'.Holds _)⟩
    cases hp : s.refill.pending with
    | nil =>
      rw [Source.read_of_nil one_ne_zero hp] at hb ⊢
      rw [Source.getchar_of_nil hp]
      simp only [if_pos (Source.value_le_of_refill hp)]
      exact .ok ⟨rfl, ⟨hb.fd, hb.slot, hb.ring, rfl⟩⟩
    | cons c cs =>
      have hne : s.refill.pending ≠ [] := by simp [hp]
      rw [Source.read_of_pending one_ne_zero hne, hp] at hb ⊢
      have hpos : ¬ (((c :: cs).take 1).length : ℤ) ≤ 0 := by simp
      rw [Source.getchar_of_cons hp]
      simp only [if_neg hpos]
      exact .ok ⟨rfl, hb⟩
  · obtain ⟨c, hc⟩ := Option.ne_none_iff_exists'.1 (mt h.unget_eq_neg_one.2 hunget)
    have hp : s.pending = c :: s.ring := by rw [Source.pending, hc]; rfl
    have hrefill : s.refill = s := Source.refill_of_pending (hp ▸ List.cons_ne_nil c s.ring)
    rw [if_pos hunget, Source.getchar_of_cons (hrefill.symm ▸ hp), hrefill, Source.drop, hc,
      (slotOf_eq_some (h.slot.trans hc)).2]
    exact .ok ⟨rfl, ⟨h.fd, rfl, h.ring, h.eof⟩⟩

/-- `bufrd_ungetchar` is that of the source. -/
theorem unget_spec (h : b.Holds s) (c : ℤ) :
    (bufrdUngetchar b c).1 = (s.unget c).1 ∧ (bufrdUngetchar b c).2.Holds (s.unget c).2 := by
  unfold bufrdUngetchar Source.unget
  cases hs : s.slot with
  | none =>
    rw [if_neg (by simpa using h.unget_eq_neg_one.2 hs)]
    exact ⟨rfl, ⟨h.fd, rfl, h.ring, h.eof⟩⟩
  | some c' =>
    rw [if_pos (mt h.unget_eq_neg_one.1 (by simp [hs]))]
    exact ⟨rfl, h⟩

theorem store_b (st : Getline) (c : ℤ) : (st.store c).b = st.b := by
  unfold Getline.store
  split_ifs <;> rfl

theorem store_bc (st : Getline) (c : ℤ) : (st.store c).bc = st.bc + 1 := by
  unfold Getline.store
  split_ifs <;> rfl

/-- The bytes are stored as far as there is room for them and the null character. -/
theorem store_dest (st : Getline) (c : UInt8) (cs : List UInt8) :
    (st.store c.toNat).dest ++ cs.take ((st.store c.toNat).destsz - 1) =
      st.dest ++ (c :: cs).take (st.destsz - 1) := by
  unfold Getline.store
  split
  case isTrue hroom =>
    obtain ⟨k, hk⟩ : ∃ k, st.destsz = k + 2 := ⟨st.destsz - 2, by omega⟩
    simp [hk]
  case isFalse hfull =>
    have hk : st.destsz - 1 = 0 := by omega
    simp [hk]

/-- One turn of the loop of `bufrd_getline`. -/
theorem getlineLoop_succ (turns : ℕ) (st : Getline) : getlineLoop (turns + 1) st =
    bufrdGetchar st.b >>= fun r =>
      if r.1 = -1 then .ok { st with b := r.2 }
      else if r.1 = 10 then .ok (Getline.store { st with b := r.2 } r.1)
      else getlineLoop turns (Getline.store { st with b := r.2 } r.1) := by
  rw [getlineLoop, loop]
  cases bufrdGetchar st.b with
  | error e => rfl
  | ok r =>
    simp only [ok_bind]
    split_ifs <;> rfl

/-- The loop of `bufrd_getline` consumes a line, and stores as much of it as there is room for. -/
theorem getlineLoop_spec (turns : ℕ) {st : Getline} (h : st.b.Holds s) :
    match s.line turns with
    | none => getlineLoop turns st = .error .spin
    | some (cs, _, s') => Returns (getlineLoop turns st) fun r => r.b.Holds s' ∧
        r.bc = st.bc + cs.length ∧ r.dest = st.dest ++ cs.take (st.destsz - 1) := by
  induction turns generalizing st s with
  | zero =>
    rw [Source.line]
    rfl
  | succ turns ih =>
    obtain ⟨⟨c, b'⟩, hget, (rfl : c = _), (hb : b'.Holds _)⟩ := getchar_spec h
    unfold Source.line
    rw [getlineLoop_succ, hget, ok_bind]
    cases hp : s.refill.pending with
    | nil =>
      have hc : s.getchar.1 = -1 := by rw [Source.getchar_of_nil hp]
      simp only [if_pos hc]
      exact .ok ⟨hb, rfl, by simp⟩
    | cons c cs =>
      have hc : s.getchar.1 = c.toNat := by rw [Source.getchar_of_cons hp]
      have hne : ¬ (c.toNat : ℤ) = -1 := by omega
      have h10 : ((c.toNat : ℤ) = 10) ↔ c = 10 := by
        rw [← UInt8.toNat_inj]
        exact Nat.cast_inj
      simp only [hc, if_neg hne, h10]
      by_cases hend : c = 10
      · have hdest := store_dest { st with b := b' } c []
        rw [List.take_nil, List.append_nil] at hdest
        simp only [if_pos hend]
        exact .ok ⟨(store_b ..).symm ▸ hb, store_bc .., hdest⟩
      · have hb' : (Getline.store { st with b := b' } c.toNat).b.Holds s.getchar.2 := by
          rw [store_b]
          exact hb
        have hrest := ih hb'
        simp only [if_neg hend]
        cases hl : s.getchar.2.line turns with
        | none =>
          rw [hl] at hrest
          exact hrest
        | some r =>
          obtain ⟨cs', fin, s'⟩ := r
          rw [hl] at hrest
          simp only [Option.map_some] at hrest ⊢
          apply hrest.mono
          intro r ⟨hr, hbc, hdest⟩
          rw [store_bc] at hbc
          rw [store_dest] at hdest
          exact ⟨hr, by rw [hbc, List.length_cons]; simp only; omega, hdest⟩

/-- `bufrd_getline` consumes a line. -/
theorem getline_spec (h : b.Holds s) (destsz turns : ℕ) :
    match s.line turns with
    | none => bufrdGetline b destsz turns = .error .spin
    | some (cs, _, s') => Returns (bufrdGetline b destsz turns) fun r =>
        r.1 = cs.length ∧ r.2.1 = cs.take (destsz - 1) ++ [0] ∧ r.2.2.Holds s' := by
  have hstart : (Getline.mk b [] destsz 0).b.Holds s := h
  have hloop := getlineLoop_spec turns hstart
  unfold bufrdGetline
  cases hl : s.line turns with
  | none =>
    rw [hl] at hloop
    rw [show getlineLoop turns ⟨b, [], destsz, 0⟩ = _ from hloop, error_bind]
  | some r =>
    rw [hl] at hloop
    apply hloop.bind
    intro st ⟨hst, hbc, hdest⟩
    exact .ok ⟨by simpa using hbc, by rw [hdest]; rfl, hst⟩

end Bufrd

/-! ## Calls -/

/-- The calls on a buffered reader. -/
inductive BufrdOp
  | read (nbytes : ℕ)
  | getchar
  | getline (destsz : ℕ)
  | ungetchar (c : ℤ)

/-- What a call returns, and the bytes that it stores. -/
inductive BufrdOut
  | bytes (r : ℤ) (data : List UInt8)
  | char (c : ℤ)
  | line (bc : ℕ) (data : List UInt8)
  | bool (b : Bool)
  deriving DecidableEq

/-- A call on a buffered reader, where `bufrd_getline` may consume fewer than `turns` bytes. -/
def bufrdStep (turns : ℕ) (b : Bufrd) : BufrdOp → Exec (BufrdOut × Bufrd)
  | .read nbytes => do
    let (r, data, b) ← bufrdRead b nbytes
    .ok (.bytes r data, b)
  | .getchar => do
    let (c, b) ← bufrdGetchar b
    .ok (.char c, b)
  | .getline destsz => do
    let (bc, data, b) ← bufrdGetline b destsz turns
    .ok (.line bc data, b)
  | .ungetchar c => .ok (.bool (bufrdUngetchar b c).1, (bufrdUngetchar b c).2)

/-- A call on a source. A line that does not end leaves it alone. -/
def sourceSpec (turns : ℕ) (s : Source) : BufrdOp → BufrdOut × Source
  | .read nbytes => (.bytes (s.read nbytes).1 (s.read nbytes).2.1, (s.read nbytes).2.2)
  | .getchar => (.char s.getchar.1, s.getchar.2)
  | .getline destsz =>
    match s.line turns with
    | none => (.line 0 [], s)
    | some (cs, _, s') => (.line cs.length (cs.take (destsz - 1) ++ [0]), s')
  | .ungetchar c => (.bool (s.unget c).1, (s.unget c).2)

/-- One call on a reader does what it does on the source, unless it is for a line that does not
end. -/
theorem bufrdStep_ends (turns : ℕ) {b : Bufrd} {s : Source} (op : BufrdOp) (h : b.Holds s) :
    Ends (bufrdStep turns b op)
      (fun r => r.1 = (sourceSpec turns s op).1 ∧ r.2.Holds (sourceSpec turns s op).2)
      fun e => e = .spin ∧ ∃ destsz, op = .getline destsz ∧ s.line turns = none := by
  cases op with
  | read nbytes =>
    apply ((Bufrd.read_spec h nbytes).ends _).bind
    rintro ⟨r, data, b'⟩ ⟨rfl, rfl, hb⟩
    exact ⟨rfl, hb⟩
  | getchar =>
    apply ((Bufrd.getchar_spec h).ends _).bind
    rintro ⟨c, b'⟩ ⟨rfl, hb⟩
    exact ⟨rfl, hb⟩
  | getline destsz =>
    have hline := Bufrd.getline_spec h destsz turns
    simp only [bufrdStep, sourceSpec]
    cases hl : s.line turns with
    | none =>
      rw [hl] at hline
      rw [show bufrdGetline b destsz turns = _ from hline]
      exact ⟨rfl, destsz, rfl, rfl⟩
    | some l =>
      rw [hl] at hline
      apply (hline.ends _).bind
      rintro ⟨bc, data, b'⟩ ⟨rfl, rfl, hb⟩
      exact ⟨rfl, hb⟩
  | ungetchar c =>
    obtain ⟨hout, hb⟩ := Bufrd.unget_spec h c
    exact ⟨congrArg BufrdOut.bool hout, hb⟩

end LibSrsBsns
