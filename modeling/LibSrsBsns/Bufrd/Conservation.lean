import LibSrsBsns.Bufrd.Source
import LibSrsBsns.Foundations.C.Runs

/-!
# No byte is lost

The bytes of a descriptor reach the caller of the buffered reader in order and once each, however
the calls that hand them out and push them back are interleaved. The calls are read as a history of
`Handover`s, and `replay` says what is still to come after a history: at every point it takes what
`read` has delivered to what is pending (`bufrd_conserves_bytes`). The proof has one law,
`Source.Conserves`, which holds for the steps a call consists of and composes.
-/

namespace LibSrsBsns

open C

/-! ## Histories -/

/-- A byte is handed out, or pushed back in front of what is still to come. -/
inductive Handover
  | out (c : UInt8)
  | back (c : UInt8)
  deriving DecidableEq

/-- What is still to come after a handover, if it can take place. -/
def Handover.next (cs : List UInt8) : Handover → Option (List UInt8)
  | out c => if cs.head? = some c then some cs.tail else none
  | back c => some (c :: cs)

/-- What is still to come after a history, if it can take place. -/
def replay (cs : List UInt8) (es : List Handover) : Option (List UInt8) := es.foldlM Handover.next cs

theorem replay_cons (cs : List UInt8) (e : Handover) (es : List Handover) :
    replay cs (e :: es) = (e.next cs).bind (replay · es) := rfl

theorem replay_append (cs : List UInt8) (es fs : List Handover) :
    replay cs (es ++ fs) = (replay cs es).bind (replay · fs) := List.foldlM_append

/-- Bytes that come later do not interfere with a history. -/
theorem replay_behind {cs cs' : List UInt8} {es : List Handover} (h : replay cs es = some cs')
    (ds : List UInt8) : replay (cs ++ ds) es = some (cs' ++ ds) := by
  induction es generalizing cs with
  | nil =>
    obtain rfl := Option.some.inj h
    rfl
  | cons e es ih =>
    rw [replay_cons] at h ⊢
    obtain ⟨cs₁, he, hes⟩ := Option.bind_eq_some_iff.1 h
    have he' : e.next (cs ++ ds) = some (cs₁ ++ ds) := by
      cases e with
      | out c =>
        cases cs with
        | nil => simp [Handover.next] at he
        | cons c' cs =>
          obtain ⟨rfl, rfl⟩ : c' = c ∧ cs = cs₁ := by simpa [Handover.next] using he
          simp [Handover.next]
      | back c =>
        obtain rfl := Option.some.inj he
        rfl
    rw [he', Option.bind_some]
    exact ih hes

/-- Handing out the bytes that come next. -/
theorem replay_out (xs cs : List UInt8) : replay (xs ++ cs) (xs.map .out) = some cs := by
  induction xs with
  | nil => rfl
  | cons x xs ih => simpa [replay_cons, Handover.next] using ih

/-! ## The law -/

namespace Source

variable {s t u : Source} {es fs : List Handover}

/-- Between `s` and `t` the history is `es`: it takes what was pending in `s`, with the bytes
obtained since behind it, to what is pending in `t`. -/
def Conserves (s : Source) (es : List Handover) (t : Source) : Prop :=
  ∃ cs, t.fd.obtained = s.fd.obtained ++ cs ∧ replay (s.pending ++ cs) es = some t.pending

namespace Conserves

theorem refl (s : Source) : s.Conserves [] s := ⟨[], by simp, by simp [replay]⟩

theorem trans (h₁ : s.Conserves es t) (h₂ : t.Conserves fs u) : s.Conserves (es ++ fs) u := by
  obtain ⟨cs, hfd, hes⟩ := h₁
  obtain ⟨ds, hfd', hfs⟩ := h₂
  refine ⟨cs ++ ds, by rw [hfd', hfd, List.append_assoc], ?_⟩
  rw [← List.append_assoc, replay_append, replay_behind hes, Option.bind_some, hfs]

end Conserves

theorem obtained_advance (fd : Descriptor) : fd.advance.obtained = fd.obtained ++ fd.next.bytes := by
  simp [Descriptor.obtained, Descriptor.advance, Descriptor.next, List.range_succ]

theorem conserves_refill (s : Source) : s.Conserves [] s.refill := by
  by_cases hs : s.pending = []
  · refine ⟨s.fd.next.bytes, ?_, ?_⟩
    · rw [refill, if_pos hs]
      exact obtained_advance s.fd
    · rw [pending_refill_of_nil hs, hs]
      rfl
  · rw [refill_of_pending hs]
    exact .refl s

theorem conserves_drop {n : ℕ} (hn : 1 ≤ n) (s : Source) :
    s.Conserves ((s.pending.take n).map .out) (s.drop n) := by
  refine ⟨[], by rw [fd_drop, List.append_nil], ?_⟩
  rw [List.append_nil, pending_drop hn]
  have hout := replay_out (s.pending.take n) (s.pending.drop n)
  rwa [List.take_append_drop] at hout

theorem conserves_read {n : ℕ} (hn : 1 ≤ n) (s : Source) :
    s.Conserves ((s.read n).2.1.map .out) (s.read n).2.2 := by
  rw [read, if_neg (by omega)]
  split
  case isTrue => exact conserves_refill s
  case isFalse => exact (conserves_refill s).trans (conserves_drop hn s.refill)

theorem conserves_getchar (s : Source) :
    s.Conserves ((slotOf s.getchar.1).toList.map .out) s.getchar.2 := by
  have hrefill := conserves_refill s
  cases hp : s.refill.pending with
  | nil =>
    rw [getchar_of_nil hp]
    exact hrefill
  | cons c cs =>
    rw [getchar_of_cons hp]
    have hdrop := conserves_drop le_rfl s.refill
    rw [hp] at hdrop
    have hslot : slotOf c.toNat = some c := by
      rw [slotOf, if_neg (by omega), ofInt_toNat]
    rw [hslot]
    exact hrefill.trans hdrop

theorem conserves_unget (s : Source) (c : ℤ) :
    s.Conserves (if (s.unget c).1 then (slotOf c).toList.map .back else []) (s.unget c).2 := by
  obtain ⟨fd, slot, ring, eof⟩ := s
  cases slot with
  | none =>
    refine ⟨[], (List.append_nil _).symm, ?_⟩
    cases hc : slotOf c <;> simp [unget, pending, hc, replay, Handover.next]
  | some c' => exact .refl _

end Source

/-! ## Runs -/

/-- The handovers of a call that returns `out`. -/
def BufrdOp.handovers : BufrdOp → BufrdOut → List Handover
  | .read _, .bytes _ data => data.map .out
  | .getchar, .char c => (slotOf c).toList.map .out
  | .ungetchar c, .bool true => (slotOf c).toList.map .back
  | _, _ => []

/-- The history of the calls `ops` that return `outs`. -/
def history (ops : List BufrdOp) (outs : List BufrdOut) : List Handover :=
  (List.zipWith BufrdOp.handovers ops outs).flatten

/-- The calls that hand out single bytes or blocks of them, and those that push a byte back. -/
def BufrdOp.Bytewise : BufrdOp → Prop
  | .read nbytes => 1 ≤ nbytes
  | .getchar => True
  | .getline _ => False
  | .ungetchar c => 0 ≤ c ∧ c ≤ 255

instance : DecidablePred BufrdOp.Bytewise := fun op => by
  cases op <;> (unfold BufrdOp.Bytewise; infer_instance)

theorem sourceSpec_conserves {turns : ℕ} (s : Source) {op : BufrdOp} (h : op.Bytewise) :
    s.Conserves (op.handovers (sourceSpec turns s op).1) (sourceSpec turns s op).2 := by
  cases op with
  | read nbytes => exact Source.conserves_read h s
  | getchar => exact Source.conserves_getchar s
  | getline destsz => exact h.elim
  | ungetchar c =>
    have hunget := Source.conserves_unget s c
    cases hb : (s.unget c).1 <;> simpa [sourceSpec, BufrdOp.handovers, hb] using hunget

theorem runSpec_conserves (turns : ℕ) (s : Source) {ops : List BufrdOp}
    (h : ∀ op ∈ ops, op.Bytewise) :
    s.Conserves (history ops (runSpec (sourceSpec turns) s ops).1)
      (runSpec (sourceSpec turns) s ops).2 := by
  induction ops generalizing s with
  | nil => exact .refl s
  | cons op ops ih =>
    exact (sourceSpec_conserves s (h op (by simp))).trans (ih _ fun op' hop' => h op' (by simp [hop']))

/-- A call other than `bufrd_getline` does what it does on the source. -/
theorem bufrdStep_refines (turns : ℕ) {b : Bufrd} {s : Source} {op : BufrdOp} (hop : op.Bytewise)
    (h : b.Holds s) : Returns (bufrdStep turns b op) fun r =>
      r.1 = (sourceSpec turns s op).1 ∧ r.2.Holds (sourceSpec turns s op).2 := by
  apply (bufrdStep_ends turns op h).returns
  rintro e ⟨-, destsz, rfl, -⟩
  exact hop

/-- What `bufrd_read` of up to `n` bytes does, where `r` is its value, `data` what it stores and `b'`
the reader after it. -/
structure ReadsUpTo (n : ℕ) (b : Bufrd) (r : ℤ) (data : List UInt8) (b' : Bufrd) : Prop where
  le : data.length ≤ n
  eq_length : 0 < r → r = data.length
  nothing : r ≤ 0 → data = [] ∧ bufrdBuffered b = false ∧ r = b.fd.next.value ∧ b'.fd = b.fd.advance

theorem Bufrd.Holds.readsUpTo {n : ℕ} (hn : 1 ≤ n) {b : Bufrd} {s : Source} (h : b.Holds s) :
    Returns (bufrdRead b n) fun r => ReadsUpTo n b r.1 r.2.1 r.2.2 := by
  apply (Bufrd.read_spec h n).mono
  rintro ⟨r, data, b'⟩ ⟨rfl, rfl, hb⟩
  have hn' : n ≠ 0 := by omega
  by_cases hp : s.refill.pending = []
  · rw [Source.read_of_nil hn' hp] at hb ⊢
    have hle := Source.value_le_of_refill hp
    refine ⟨by simp, fun hpos => absurd hpos (by omega), fun _ => ⟨rfl, ?_, by rw [h.fd], ?_⟩⟩
    · rw [h.buffered_eq]
      simpa using Source.pending_of_refill hp
    · rw [hb.fd, h.fd, Source.refill_of_nil hp]
  · rw [Source.read_of_pending hn' hp]
    have hpos : 0 < (s.refill.pending.take n).length := by
      have := List.length_pos_iff.2 hp
      rw [List.length_take]
      omega
    exact ⟨by rw [List.length_take]; omega, fun _ => rfl, fun hle => by omega⟩

/-- **No byte is lost, duplicated or reordered.** Whatever `read` returns on the descriptor and
however the calls are interleaved, they return, and the history of the bytes that they hand out and
push back takes the bytes obtained from `read` to the one that is pushed back and those in the ring
buffer. A `bufrd_read` that follows stores no more than it is asked for and returns how much it
stored; what else it returns is what `read` returned to it, with nothing pending. -/
theorem bufrd_conserves_bytes (results : ℕ → ReadResult) {bufsz : ℕ} (hsz : 1 ≤ bufsz) (turns : ℕ)
    {ops : List BufrdOp} (hops : ∀ op ∈ ops, op.Bytewise) :
    Returns (runs (bufrdStep turns) (bufrdInit ⟨results, 0⟩ bufsz) ops) fun r =>
      (∃ ring, r.2.buf.Queue ring ∧
        replay r.2.fd.obtained (history ops r.1) = some ((slotOf r.2.unget).toList ++ ring)) ∧
      ∀ n, 1 ≤ n → Returns (bufrdRead r.2 n) fun q => ReadsUpTo n r.2 q.1 q.2.1 q.2.2 := by
  have hinit := Bufrd.holds_init ⟨results, 0⟩ hsz
  apply (Returns.runs (sourceSpec turns) Bufrd.Holds BufrdOp.Bytewise
    (fun b s op hop h => bufrdStep_refines turns hop h) hinit hops).mono
  rintro ⟨outs, b⟩ ⟨rfl, (hb : b.Holds _)⟩
  refine ⟨⟨_, hb.ring, ?_⟩, fun n hn => hb.readsUpTo hn⟩
  obtain ⟨cs, hobtained, hreplay⟩ := runSpec_conserves turns ⟨⟨results, 0⟩, none, [], false⟩ hops
  rw [hb.fd, hb.slot, hobtained]
  exact hreplay

/-- A byte is handed out, pushed back and handed out again with the one behind it, where `read`
delivers `7 8 9` for ever. -/
theorem bufrd_conserves_bytes_pushed_back :
    Returns (runs (bufrdStep 0) (bufrdInit ⟨fun _ => .data ⟨[7, 8, 9], by decide, by decide⟩, 0⟩ 1)
      [.getchar, .ungetchar 7, .read 2]) fun r => ∃ ring, r.2.buf.Queue ring ∧
        replay r.2.fd.obtained (history [.getchar, .ungetchar 7, .read 2] r.1) =
          some ((slotOf r.2.unget).toList ++ ring) :=
  (bufrd_conserves_bytes _ le_rfl 0 (by decide)).mono fun _ hr => hr.1

end LibSrsBsns
