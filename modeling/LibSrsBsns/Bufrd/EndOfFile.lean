import LibSrsBsns.Bufrd.Source
import LibSrsBsns.Foundations.C.Runs

/-!
# The end-of-file flag

Beside the reader goes a ghost state, what `bufrd_eof` is due to return (`dueAfter`): true after a call
that stopped because `read` returned 0, false once a later call has delivered a byte or pushed one
back. `bufrd_getchar` sets the flag, and `bufrd_read` does not; nothing that delivers a byte clears
it. So the flag is what is due as long as every call that should change it finds it changed already
(`bufrd_eof_faithful_iff`).
-/

namespace LibSrsBsns

open C

namespace Descriptor

variable {fd fd' fd'' : Descriptor}

/-- What the last call of `read` returned that led from `fd` to `fd'`, if there was one. -/
def lastRead (fd fd' : Descriptor) : Option ℤ :=
  if fd.pos < fd'.pos then some (fd'.results (fd'.pos - 1)).value else none

/-- Calls of `read` lead from `fd` to `fd'`. -/
structure Before (fd fd' : Descriptor) : Prop where
  results : fd'.results = fd.results
  le : fd.pos ≤ fd'.pos

@[simp] theorem lastRead_self (fd : Descriptor) : fd.lastRead fd = none := by simp [lastRead]

@[simp] theorem lastRead_advance (fd : Descriptor) :
    fd.lastRead fd.advance = some fd.next.value := by
  simp [lastRead, advance, next]

theorem Before.refl (fd : Descriptor) : fd.Before fd := ⟨rfl, le_rfl⟩

theorem before_advance (fd : Descriptor) : fd.Before fd.advance := ⟨rfl, Nat.le_succ _⟩

theorem Before.trans (h : fd.Before fd') (h' : fd'.Before fd'') : fd.Before fd'' :=
  ⟨h'.results.trans h.results, h.le.trans h'.le⟩

/-- The last of the calls is one of the second ones, if there are any. -/
theorem Before.lastRead (h : fd.Before fd') (h' : fd'.Before fd'') :
    fd.lastRead fd'' = (fd'.lastRead fd'').or (fd.lastRead fd') := by
  unfold Descriptor.lastRead
  have hle := h.le
  have hle' := h'.le
  rcases Nat.lt_or_eq_of_le hle' with hlt | heq
  · rw [if_pos hlt, if_pos (by omega), Option.some_or]
  · simp [← heq, h'.results]

end Descriptor

/-- The call delivers a byte or pushes one back. -/
def BufrdOp.transfers : BufrdOp → BufrdOut → Bool
  | .read _, .bytes _ data => data ≠ []
  | .getchar, .char c => c ≠ -1
  | .getline _, .line bc _ => bc ≠ 0
  | .ungetchar c, .bool pushed => pushed ∧ c ≠ -1
  | _, _ => false

/-- What `bufrd_eof` is due to return after a call, if anything. After a call that ends with an error,
it need not tell of an end of file that was met before. -/
def dueAfter (op : BufrdOp) (out : BufrdOut) (fd fd' : Descriptor) (due : Option Bool) :
    Option Bool :=
  if fd.lastRead fd' = some 0 then some true
  else if op.transfers out then some false
  else if fd.lastRead fd' = none then due
  else due.filter (!·)

/-- A call on a reader, with what `bufrd_eof` is due to return beside it. -/
def bufrdEofStep (turns : ℕ) (x : Bufrd × Option Bool) (op : BufrdOp) :
    Exec (BufrdOut × Bufrd × Option Bool) := do
  let (out, b) ← bufrdStep turns x.1 op
  .ok (out, b, dueAfter op out x.1.fd b.fd x.2)

/-- `bufrd_eof` returns what it is due to return. -/
def EofFaithful (x : Bufrd × Option Bool) : Prop := ∀ v, x.2 = some v → bufrdEof x.1 = v

namespace Source

variable {s s' : Source} {n turns : ℕ} {cs : List UInt8} {fin : LineEnd}

/-- The flag is set already where `bufrd_read` meets the end of the file, and clear where a byte is
delivered or pushed back, unless the call goes on to the end of the file. -/
def FlagFits (turns : ℕ) (s : Source) : BufrdOp → Prop
  | .read n => 1 ≤ n → (s.refill.pending ≠ [] → s.eof = false) ∧
      (s.refill.pending = [] → s.fd.next.value = 0 → s.eof = true)
  | .getchar => s.refill.pending ≠ [] → s.eof = false
  | .getline _ => (∃ cs s', s.line turns = some (cs, .newline, s')) → s.eof = false
  | .ungetchar c => s.slot = none → c ≠ -1 → s.eof = false

theorem before_refill (s : Source) : s.fd.Before s.refill.fd := by
  unfold refill
  split
  · exact Descriptor.before_advance s.fd
  · exact .refl s.fd

/-- A `read` after which something is pending has delivered it. -/
theorem pos_of_lastRead_refill (h : s.refill.pending ≠ []) {v : ℤ}
    (hv : s.fd.lastRead s.refill.fd = some v) : 0 < v := by
  by_cases hs : s.pending = []
  · have hne : s.fd.next.bytes ≠ [] := pending_refill_of_nil hs ▸ h
    rw [refill, if_pos hs, Descriptor.lastRead_advance] at hv
    obtain rfl := Option.some.inj hv
    have := mt (bytes_eq_nil_iff _).2 hne
    omega
  · rw [refill_of_pending hs, Descriptor.lastRead_self] at hv
    cases hv

/-- A `read` that delivers nothing returns 0 or -1. -/
theorem value_eq_zero_or (h : s.refill.pending = []) :
    s.fd.next.value = 0 ∨ s.fd.next.value = -1 := by
  have hle := value_le_of_refill h
  cases hn : s.fd.next with
  | data chunk =>
    rw [hn, ← bytes_eq_nil_iff] at hle
    exact absurd hle chunk.ne_nil
  | eof => exact .inl rfl
  | error => exact .inr rfl

/-- What the line `cs` leaves behind: one that ends with a newline leaves the flag as it was, and the
others record how they ended. -/
def Leaves (s : Source) (cs : List UInt8) (s' : Source) : LineEnd → Prop
  | .newline => cs ≠ [] ∧ s'.eof = s.eof ∧ ∀ v, s.fd.lastRead s'.fd = some v → 0 < v
  | .eof => s'.eof = true ∧ s.fd.lastRead s'.fd = some 0
  | .error => s'.eof = false ∧ s.fd.lastRead s'.fd = some (-1)

theorem eof_refill (s : Source) : s.refill.eof = s.eof := by
  unfold refill
  split <;> rfl

theorem eof_drop (s : Source) (n : ℕ) : (s.drop n).eof = s.eof := by
  unfold drop
  split <;> rfl

/-- A `getchar` that delivers nothing records how its `read` ended. -/
theorem getchar_leaves_nil (hp : s.refill.pending = []) : s.fd.Before s.getchar.2.fd ∧
    s.getchar.2.eof = decide (s.fd.next.value = 0) ∧
    s.fd.lastRead s.getchar.2.fd = some s.fd.next.value := by
  have hget : s.getchar.2 = { s.refill with eof := decide (s.fd.next.value = 0) } := by
    rw [getchar_of_nil hp]
  have hfd : s.getchar.2.fd = s.fd.advance := by rw [hget, refill_of_nil hp]
  rw [hfd, Descriptor.lastRead_advance, hget]
  exact ⟨Descriptor.before_advance s.fd, rfl, rfl⟩

/-- A `getchar` that delivers a byte leaves the flag as it was. -/
theorem getchar_leaves_cons {c : UInt8} (hp : s.refill.pending = c :: cs) :
    s.fd.Before s.getchar.2.fd ∧ s.getchar.2.eof = s.eof ∧
    ∀ v, s.fd.lastRead s.getchar.2.fd = some v → 0 < v := by
  have hget : s.getchar.2 = s.refill.drop 1 := by rw [getchar_of_cons hp]
  rw [hget, fd_drop, eof_drop, eof_refill]
  exact ⟨before_refill s, rfl, fun v hv => pos_of_lastRead_refill (by simp [hp]) hv⟩

theorem line_leaves (h : s.line turns = some (cs, fin, s')) :
    s.fd.Before s'.fd ∧ s.Leaves cs s' fin := by
  induction turns generalizing s cs fin s' with
  | zero => cases h
  | succ turns ih =>
    unfold line at h
    cases hp : s.refill.pending with
    | nil =>
      rw [hp] at h
      obtain ⟨rfl, rfl, rfl⟩ := by simpa using h
      obtain ⟨hbefore, heof, hlast⟩ := getchar_leaves_nil hp
      refine ⟨hbefore, ?_⟩
      rcases value_eq_zero_or hp with h0 | h1
      · rw [if_pos h0]
        exact ⟨by rw [heof, h0]; rfl, by rw [hlast, h0]⟩
      · rw [if_neg (by omega)]
        exact ⟨by rw [heof, h1]; rfl, by rw [hlast, h1]⟩
    | cons c cs' =>
      obtain ⟨hbefore, heof, hpos⟩ := getchar_leaves_cons hp
      rw [hp] at h
      simp only at h
      split at h
      case isTrue h10 =>
        obtain ⟨rfl, rfl, rfl⟩ := by simpa using h
        exact ⟨hbefore, by simp, heof, hpos⟩
      case isFalse h10 =>
        obtain ⟨⟨cs₁, fin₁, s₁⟩, hl, he⟩ := Option.map_eq_some_iff.1 h
        obtain ⟨rfl, rfl, rfl⟩ := by simpa using he
        obtain ⟨hbefore', hfin⟩ := ih hl
        have hlast := hbefore.lastRead hbefore'
        refine ⟨hbefore.trans hbefore', ?_⟩
        cases fin₁ with
        | newline =>
          obtain ⟨-, heof', hpos'⟩ := hfin
          refine ⟨by simp, heof'.trans heof, fun v hv => ?_⟩
          rw [hlast] at hv
          rcases Option.or_eq_some_iff.1 hv with hv | ⟨-, hv⟩
          · exact hpos' v hv
          · exact hpos v hv
        | eof => exact ⟨hfin.1, by rw [hlast, hfin.2, Option.some_or]⟩
        | error => exact ⟨hfin.1, by rw [hlast, hfin.2, Option.some_or]⟩

/-! ## One call -/

variable {op : BufrdOp} {out : BufrdOut} {due : Option Bool}

/-- What is due after a call that stopped at the end of the file. -/
theorem dueAfter_eof {fd fd' : Descriptor} (h : fd.lastRead fd' = some 0) :
    dueAfter op out fd fd' due = some true := if_pos h

/-- What is due after a call that delivered a byte or pushed one back, and did not stop there. -/
theorem dueAfter_transfer {fd fd' : Descriptor} (h : ∀ v, fd.lastRead fd' = some v → v ≠ 0)
    (ht : op.transfers out = true) : dueAfter op out fd fd' due = some false := by
  rw [dueAfter, if_neg fun h0 => h 0 h0 rfl, if_pos ht]

/-- What is due after a call that did neither, and did not read. -/
theorem dueAfter_nothing (fd : Descriptor) (ht : op.transfers out = false) :
    dueAfter op out fd fd due = due := by
  simp [dueAfter, ht]

/-- A call that ends with an error leaves the flag clear or as it was. -/
theorem faithful_error {fd fd' : Descriptor} (h : fd.lastRead fd' = some (-1))
    (ht : op.transfers out = false) (hf : ∀ v, due = some v → s.eof = v)
    (heof : s'.eof = s.eof ∨ s'.eof = false) :
    ∀ v, dueAfter op out fd fd' due = some v → s'.eof = v := by
  intro v hv
  rw [dueAfter, h, if_neg (by simp), if_neg (by simp [ht]), if_neg (by simp)] at hv
  obtain ⟨hdue, hfalse⟩ := Option.filter_eq_some_iff.1 hv
  obtain rfl : v = false := by simpa using hfalse
  rcases heof with heof | heof
  · exact heof.trans (hf false hdue)
  · exact heof

theorem faithful_some {v : Bool} (h : due = some v) :
    (∀ w, due = some w → s.eof = w) ↔ s.eof = v := by
  simp [h]

/-- `bufrd_read` leaves the flag as it was. -/
theorem read_faithful (hf : ∀ v, due = some v → s.eof = v) (n : ℕ) :
    (∀ v, dueAfter (.read n) (.bytes (s.read n).1 (s.read n).2.1) s.fd (s.read n).2.2.fd due = some v →
      (s.read n).2.2.eof = v) ↔ s.FlagFits turns (.read n) := by
  by_cases hn : n = 0
  · have hread : s.read n = (-1, [], s) := by rw [read, if_pos hn]
    rw [hread, dueAfter_nothing s.fd (by simp [BufrdOp.transfers])]
    exact iff_of_true hf fun h1 => absurd hn (by omega)
  have h1 : 1 ≤ n := by omega
  by_cases hp : s.refill.pending = []
  · have hlast : s.fd.lastRead s.refill.fd = some s.fd.next.value := by
      rw [refill_of_nil hp, Descriptor.lastRead_advance]
    simp only [read_of_nil hn hp, FlagFits, hp, ne_eq, not_true_eq_false, false_implies, true_and, h1,
      true_implies]
    rcases value_eq_zero_or hp with h0 | h1
    · rw [faithful_some (dueAfter_eof (hlast.trans (congrArg some h0))), eof_refill]
      simp [h0]
    · refine iff_of_true ?_ (by simp [h1])
      exact faithful_error (hlast.trans (congrArg some h1)) (by simp [BufrdOp.transfers]) hf
        (.inl (eof_refill s))
  · have htake : s.refill.pending.take n ≠ [] := by
      rw [Ne, List.take_eq_nil_iff]
      simp [hn, hp]
    have hlast (v : ℤ) (hv : s.fd.lastRead (s.refill.drop n).fd = some v) : v ≠ 0 := by
      rw [fd_drop] at hv
      have := pos_of_lastRead_refill hp hv
      omega
    simp only [read_of_pending hn hp]
    rw [faithful_some (dueAfter_transfer hlast (by simp [BufrdOp.transfers, htake])), eof_drop,
      eof_refill]
    simp [FlagFits, hp, h1]

/-- `bufrd_getchar` records how it ended if it delivers no byte. -/
theorem getchar_faithful (hf : ∀ v, due = some v → s.eof = v) :
    (∀ v, dueAfter .getchar (.char s.getchar.1) s.fd s.getchar.2.fd due = some v →
      s.getchar.2.eof = v) ↔ s.FlagFits turns .getchar := by
  cases hp : s.refill.pending with
  | nil =>
    have hlast : s.fd.lastRead s.refill.fd = some s.fd.next.value := by
      rw [refill_of_nil hp, Descriptor.lastRead_advance]
    refine iff_of_true ?_ fun hne => absurd hp hne
    rw [getchar_of_nil hp]
    rcases value_eq_zero_or hp with h0 | h1
    · rw [faithful_some (dueAfter_eof (hlast.trans (congrArg some h0)))]
      simp [h0]
    · exact faithful_error (hlast.trans (congrArg some h1)) (by simp [BufrdOp.transfers]) hf
        (.inr (by simp [h1]))
  | cons c cs =>
    have hne : s.refill.pending ≠ [] := by simp [hp]
    have hlast (v : ℤ) (hv : s.fd.lastRead (s.refill.drop 1).fd = some v) : v ≠ 0 := by
      rw [fd_drop] at hv
      have := pos_of_lastRead_refill hne hv
      omega
    have hc : BufrdOp.getchar.transfers (.char c.toNat) = true := by
      have : (c.toNat : ℤ) ≠ -1 := by omega
      simp [BufrdOp.transfers, this]
    rw [getchar_of_cons hp, faithful_some (dueAfter_transfer hlast hc), eof_drop, eof_refill]
    simp [FlagFits, hp]

/-- `bufrd_getline` records how it ended, unless it was with a newline. -/
theorem getline_faithful (hf : ∀ v, due = some v → s.eof = v) (destsz : ℕ) (data : List UInt8)
    (h : s.line turns = some (cs, fin, s')) :
    (∀ v, dueAfter (.getline destsz) (.line cs.length data) s.fd s'.fd due = some v → s'.eof = v) ↔
      s.FlagFits turns (.getline destsz) := by
  obtain ⟨-, hfin⟩ := line_leaves h
  cases fin with
  | newline =>
    obtain ⟨hne, heof, hpos⟩ := hfin
    have hlen : cs.length ≠ 0 := mt List.length_eq_zero_iff.1 hne
    rw [faithful_some (dueAfter_transfer (fun v hv => (hpos v hv).ne')
      (by simp [BufrdOp.transfers, hne])), heof]
    exact ⟨fun hs _ => hs, fun hs => hs ⟨_, _, h⟩⟩
  | eof =>
    obtain ⟨heof, hlast⟩ := hfin
    rw [faithful_some (dueAfter_eof hlast)]
    exact iff_of_true heof fun ⟨_, _, h'⟩ => by simp [h] at h'
  | error =>
    obtain ⟨heof, hlast⟩ := hfin
    refine iff_of_true ?_ fun ⟨_, _, h'⟩ => by simp [h] at h'
    by_cases hcs : cs = []
    · exact faithful_error hlast (by simp [BufrdOp.transfers, hcs]) hf (.inr heof)
    · rw [faithful_some (dueAfter_transfer (by simp [hlast]) (by simp [BufrdOp.transfers, hcs]))]
      exact heof

/-- `bufrd_ungetchar` leaves the flag as it was. -/
theorem unget_faithful (hf : ∀ v, due = some v → s.eof = v) (c : ℤ) :
    (∀ v, dueAfter (.ungetchar c) (.bool (s.unget c).1) s.fd (s.unget c).2.fd due = some v →
      (s.unget c).2.eof = v) ↔ s.FlagFits turns (.ungetchar c) := by
  unfold unget
  cases hslot : s.slot with
  | none =>
    by_cases hc : c = -1
    · rw [dueAfter_nothing s.fd (by simp [BufrdOp.transfers, hc])]
      exact iff_of_true hf fun _ hne => absurd hc hne
    · rw [faithful_some (dueAfter_transfer (by simp) (by simp [BufrdOp.transfers, hc]))]
      simp [FlagFits, hslot, hc]
  | some c' =>
    rw [dueAfter_nothing s.fd (by simp [BufrdOp.transfers])]
    refine iff_of_true hf fun hnone => ?_
    rw [hslot] at hnone
    cases hnone

/-- A call leaves the flag as it is due exactly if it finds it fit, unless it is for a line that does
not end. -/
theorem spec_faithful (hf : ∀ v, due = some v → s.eof = v) (op : BufrdOp)
    (hline : ¬ ∃ destsz, op = .getline destsz ∧ s.line turns = none) :
    (∀ v, dueAfter op (sourceSpec turns s op).1 s.fd (sourceSpec turns s op).2.fd due = some v →
      (sourceSpec turns s op).2.eof = v) ↔ s.FlagFits turns op := by
  cases op with
  | read n => exact read_faithful hf n
  | getchar => exact getchar_faithful hf
  | getline destsz =>
    obtain ⟨⟨cs, fin, s'⟩, hl⟩ := Option.ne_none_iff_exists'.1 fun h => hline ⟨destsz, rfl, h⟩
    rw [sourceSpec, hl]
    exact getline_faithful hf destsz _ hl
  | ungetchar c => exact unget_faithful hf c

end Source

/-! ## Buffers without room -/

/-- The reader with an empty ring buffer that has room. -/
def Bufrd.widen (b : Bufrd) : Bufrd := { b with buf := ringbufInit 1 }

def Getline.widen (st : Getline) : Getline := { st with b := st.b.widen }

theorem Getline.widen_store (st : Getline) (c : ℤ) : (st.store c).widen = st.widen.store c := by
  unfold Getline.store
  split_ifs <;> first | rfl | contradiction

namespace Bufrd

variable {b : Bufrd} {s : Source} {due : Option Bool} {turns : ℕ}

theorem take_of_empty (h : ringbufEmpty b.buf = true) (n : ℕ) : b.take n =
    .ok (if b.unget ≠ -1 then 1 else 0, if b.unget ≠ -1 then [UInt8.ofInt b.unget] else [],
      { b with unget := -1 }) := by
  simp [take, h]

/-- With nothing pending, a `read` that delivers nothing ends the call. -/
theorem read_of_nothing {n : ℕ} (hn : n ≠ 0) (hunget : b.unget = -1)
    (hempty : ringbufEmpty b.buf = true) (hle : b.fd.next.value ≤ 0) :
    bufrdRead b n = .ok (b.fd.next.value, [], { b with fd := b.fd.advance }) := by
  have hmore : readMore b = .ok (b.fd.next.value, { b with fd := b.fd.advance }) := by
    rw [readMore]
    exact if_neg (by omega)
  rw [bufrdRead, if_neg hn, if_pos ⟨hunget, hempty⟩, hmore]
  exact if_pos hle

/-- With nothing pending and no room, a `read` that delivers data hangs the call. -/
theorem read_hangs {n : ℕ} (hn : n ≠ 0) (hunget : b.unget = -1) (h : b.buf = ringbufInit 0)
    (hpos : 0 < b.fd.next.value) : bufrdRead b n = .error .spin := by
  have hdata : b.fd.next.bytes ≠ [] := mt (Source.bytes_eq_nil_iff _).1 (by omega)
  have hmore : readMore b = .error .spin := by
    simp [readMore, hpos, h, RingBuf.put_init_zero hdata]
  rw [bufrdRead, if_neg hn, if_pos ⟨hunget, by rw [h]; rfl⟩, hmore, error_bind]

/-- A reader whose ring buffer has size 0 does what one with room does, unless it hangs. -/
theorem read_follows (h : b.buf = ringbufInit 0) (n : ℕ) :
    Ends (bufrdRead b n) (fun r => r.2.2.buf = ringbufInit 0 ∧
      bufrdRead b.widen n = .ok (r.1, r.2.1, r.2.2.widen)) (· = .spin) := by
  have hempty : ringbufEmpty b.buf = true := by rw [h]; rfl
  by_cases hn : n = 0
  · rw [bufrdRead, bufrdRead, if_pos hn, if_pos hn]
    exact ⟨h, rfl⟩
  by_cases hunget : b.unget = -1
  · by_cases hpos : 0 < b.fd.next.value
    · rw [read_hangs hn hunget h hpos]
      exact rfl
    · rw [read_of_nothing hn hunget hempty (not_lt.1 hpos)]
      exact ⟨h, read_of_nothing (b := b.widen) hn hunget rfl (not_lt.1 hpos)⟩
  · have hunget' : ¬ b.widen.unget = -1 := hunget
    rw [bufrdRead, bufrdRead, if_neg hn, if_neg hn, if_neg fun hb => hunget hb.1,
      if_neg fun hb => hunget' hb.1, take_of_empty hempty, take_of_empty (b := b.widen) rfl]
    exact ⟨h, rfl⟩

theorem getchar_follows (h : b.buf = ringbufInit 0) :
    Ends (bufrdGetchar b) (fun r => r.2.buf = ringbufInit 0 ∧
      bufrdGetchar b.widen = .ok (r.1, r.2.widen)) (· = .spin) := by
  have hempty : ringbufEmpty b.buf = true := by rw [h]; rfl
  unfold bufrdGetchar
  by_cases hunget : b.unget = -1
  · have hunget' : b.widen.unget = -1 := hunget
    rw [if_neg (not_not.2 hunget), if_neg (not_not.2 hunget')]
    by_cases hpos : 0 < b.fd.next.value
    · rw [read_hangs one_ne_zero hunget h hpos]
      exact rfl
    · have hle : b.fd.next.value ≤ 0 := not_lt.1 hpos
      rw [read_of_nothing one_ne_zero hunget hempty hle,
        read_of_nothing (b := b.widen) one_ne_zero hunget rfl hle, ok_bind, ok_bind]
      simp only [if_pos hle]
      rw [if_pos (show b.widen.fd.next.value ≤ 0 from hle)]
      exact ⟨h, rfl⟩
  · have hunget' : b.widen.unget ≠ -1 := hunget
    rw [if_pos hunget, if_pos hunget']
    exact ⟨h, rfl⟩

theorem getlineLoop_follows {st : Getline} (h : st.b.buf = ringbufInit 0) (turns : ℕ) :
    Ends (getlineLoop turns st) (fun r => r.b.buf = ringbufInit 0 ∧
      getlineLoop turns st.widen = .ok r.widen) (· = .spin) := by
  induction turns generalizing st with
  | zero => exact rfl
  | succ turns ih =>
    rw [getlineLoop_succ, getlineLoop_succ]
    apply (getchar_follows h).bind
    rintro ⟨c, b'⟩ ⟨hb, hget⟩
    have hstore : (Getline.store { st with b := b' } c).b.buf = ringbufInit 0 := by
      rw [store_b]
      exact hb
    have hwiden := Getline.widen_store { st with b := b' } c
    rw [Getline.widen, hget, ok_bind]
    simp only
    split_ifs
    · exact ⟨hb, rfl⟩
    · exact ⟨hstore, congrArg Except.ok hwiden.symm⟩
    · have hrest := ih hstore
      rw [hwiden] at hrest
      exact hrest

theorem step_follows (h : b.buf = ringbufInit 0) (turns : ℕ) (op : BufrdOp) :
    Ends (bufrdStep turns b op) (fun r => r.2.buf = ringbufInit 0 ∧
      bufrdStep turns b.widen op = .ok (r.1, r.2.widen)) (· = .spin) := by
  cases op with
  | read n =>
    apply (read_follows h n).bind
    rintro ⟨r, data, b'⟩ ⟨hb, hread⟩
    exact ⟨hb, by rw [bufrdStep, hread]; rfl⟩
  | getchar =>
    apply (getchar_follows h).bind
    rintro ⟨c, b'⟩ ⟨hb, hget⟩
    exact ⟨hb, by rw [bufrdStep, hget]; rfl⟩
  | getline destsz =>
    have hloop : Ends (bufrdGetline b destsz turns) (fun r => r.2.2.buf = ringbufInit 0 ∧
        bufrdGetline b.widen destsz turns = .ok (r.1, r.2.1, r.2.2.widen)) (· = .spin) := by
      have hstart : (Getline.mk b [] destsz 0).b.buf = ringbufInit 0 := h
      apply (getlineLoop_follows hstart turns).bind
      intro st hst
      obtain ⟨hst, hloop⟩ := hst
      exact ⟨hst, by rw [bufrdGetline, show getlineLoop turns ⟨b.widen, _, _, _⟩ = _ from hloop]; rfl⟩
    apply hloop.bind
    rintro ⟨bc, data, b'⟩ ⟨hb, hline⟩
    exact ⟨hb, by rw [bufrdStep, hline]; rfl⟩
  | ungetchar c =>
    have hout : (bufrdUngetchar b.widen c) = ((bufrdUngetchar b c).1, (bufrdUngetchar b c).2.widen) ∧
        (bufrdUngetchar b c).2.buf = ringbufInit 0 := by
      unfold bufrdUngetchar
      have hunget : b.widen.unget = b.unget := rfl
      rw [hunget]
      split_ifs
      · exact ⟨rfl, h⟩
      · exact ⟨rfl, h⟩
    exact ⟨hout.2, by rw [bufrdStep, hout.1]⟩

end Bufrd

/-! ## Runs -/

variable {b : Bufrd} {s : Source} {due : Option Bool} {turns : ℕ} {op : BufrdOp}

/-- A reader whose ring buffer has room, or size 0. -/
def Bufrd.Sound (b : Bufrd) : Prop := b.Holds b.source ∨ b.buf = ringbufInit 0

theorem Bufrd.sound_init (fd : Descriptor) (bufsz : ℕ) : (bufrdInit fd bufsz).Sound := by
  cases bufsz with
  | zero => exact .inr rfl
  | succ n =>
    have h := Bufrd.holds_init fd (Nat.succ_pos n)
    exact .inl (h.source_eq.symm ▸ h)

theorem Bufrd.Holds.eofFaithful_iff (h : b.Holds s) :
    EofFaithful (b, due) ↔ ∀ v, due = some v → s.eof = v := by
  rw [EofFaithful, bufrdEof, h.eof]

/-- A call on a reader with room leaves the flag as it is due exactly if it finds it fit. -/
theorem Bufrd.Holds.eofStep_ends (h : b.Holds s) (hf : EofFaithful (b, due)) :
    Ends (bufrdEofStep turns (b, due) op)
      (fun r => r.2.1.Sound ∧ (EofFaithful r.2 ↔ s.FlagFits turns op)) (· = .spin) := by
  unfold bufrdEofStep
  by_cases hline : ∃ destsz, op = .getline destsz ∧ s.line turns = none
  · obtain ⟨destsz, rfl, hl⟩ := hline
    have hspin := Bufrd.getline_spec h destsz turns
    rw [hl] at hspin
    rw [bufrdStep, show bufrdGetline b destsz turns = _ from hspin]
    exact rfl
  · apply ((bufrdStep_ends turns op h).fault_mono fun e he => he.1).bind
    rintro ⟨out, b'⟩ ⟨rfl, (hb : b'.Holds _)⟩
    refine ⟨.inl (hb.source_eq.symm ▸ hb), hb.eofFaithful_iff.trans ?_⟩
    rw [h.fd, hb.fd]
    exact Source.spec_faithful (h.eofFaithful_iff.1 hf) op hline

/-- So does one on a reader with a ring buffer of size 0, unless it hangs. -/
theorem eofStep_ends_of_no_room (h : b.buf = ringbufInit 0) (hf : EofFaithful (b, due)) :
    Ends (bufrdEofStep turns (b, due) op)
      (fun r => r.2.1.Sound ∧ (EofFaithful r.2 ↔ b.source.FlagFits turns op)) (· = .spin) := by
  have hwiden : b.widen.Holds b.source := by
    have hsource : b.source = ⟨b.fd, slotOf b.unget, [], b.eof⟩ := by rw [Bufrd.source, h]; rfl
    rw [hsource]
    exact ⟨rfl, rfl, RingBuf.queue_init le_rfl, rfl⟩
  unfold bufrdEofStep
  apply (Bufrd.step_follows h turns op).bind
  rintro ⟨out, b'⟩ ⟨hb, hstep⟩
  have hends : Ends (bufrdEofStep turns (b.widen, due) op)
      (fun r => r.2.1.Sound ∧ (EofFaithful r.2 ↔ b.source.FlagFits turns op)) (· = .spin) :=
    hwiden.eofStep_ends hf
  rw [bufrdEofStep, hstep] at hends
  exact ⟨.inr hb, hends.2⟩

/-- A call that returns finds the flag fit. -/
def FindsFlagFit (turns : ℕ) (x : Bufrd × Option Bool) (op : BufrdOp) : Prop :=
  ∀ r, bufrdStep turns x.1 op = .ok r → x.1.source.FlagFits turns op

/-- **When `bufrd_eof` is faithful.** Whatever `read` returns on the descriptor, whatever the size of
the buffer and however the calls are interleaved: all along the run `bufrd_eof` is true after a call
that stopped because `read` returned 0, and false again after a later call has delivered a byte or
pushed one back, if and only if every call that returns finds the flag fit. -/
theorem bufrd_eof_faithful_iff (results : ℕ → ReadResult) (bufsz turns : ℕ) (ops : List BufrdOp) :
    Throughout (bufrdEofStep turns) (· = .spin) EofFaithful
        (bufrdInit ⟨results, 0⟩ bufsz, some false) ops ↔
      Meets (bufrdEofStep turns) (FindsFlagFit turns)
        (bufrdInit ⟨results, 0⟩ bufsz, some false) ops := by
  apply throughout_iff_meets (·.1.Sound)
  · rintro ⟨b, due⟩ op (hb : b.Sound) hf
    have hends : Ends (bufrdEofStep turns (b, due) op)
        (fun r => r.2.1.Sound ∧ (EofFaithful r.2 ↔ b.source.FlagFits turns op)) (· = .spin) := by
      rcases hb with hb | hb
      · exact hb.eofStep_ends hf
      · exact eofStep_ends_of_no_room hb hf
    cases hstep : bufrdStep turns b op with
    | error e =>
      rw [bufrdEofStep, hstep] at hends ⊢
      exact iff_of_true hends fun r hr => by simp [hstep] at hr
    | ok r =>
      have hfits : FindsFlagFit turns (b, due) op ↔ b.source.FlagFits turns op :=
        ⟨fun h => h r hstep, fun h _ _ => h⟩
      rw [bufrdEofStep, hstep] at hends ⊢
      exact ⟨hends.1, hends.2.trans hfits.symm⟩
  · exact Bufrd.sound_init _ _
  · rintro v ⟨⟩
    rfl

/-- `bufrd_read` meets the end of the file and returns 0, and the flag stays clear. -/
theorem not_eofFaithful_of_read : ¬ Throughout (bufrdEofStep 0) (· = .spin) EofFaithful
    (bufrdInit ⟨fun _ => .eof, 0⟩ 1, some false) [.read 1] := by
  intro h
  have hlast := h.of_runs rfl true rfl
  cases hlast

end LibSrsBsns
