import LibSrsBsns.Bufrd.Source
import LibSrsBsns.Foundations.C.Runs
import LibSrsBsns.Foundations.Data.StreamBlocks

/-!
# Lines

What is still to come from a buffered reader is a stream of arrivals: bytes, and places where `read`
finds the end of the file or fails. How `read` groups the bytes is not part of it. One byte is the
head of the stream and what is left is its tail (`Source.stream_of_cons`, `Source.stream_of_nil`), so
that a line is determined by the stream (`Source.line_stream`). Two readers with one stream between
them return the same lines, whatever the chunks and the buffers (`bufrd_getline_takes_line`).
-/

namespace LibSrsBsns

open C

/-! ## Arrivals -/

/-- What `read` delivers: a byte, the end of the file or an error. -/
inductive Arrival
  | byte (c : UInt8)
  | eof
  | error
  deriving DecidableEq

namespace Arrival

def byte? : Arrival → Option UInt8
  | byte c => some c
  | _ => none

/-- A line ends with a newline, at the end of the file or at an error. -/
def EndsLine : Arrival → Prop
  | byte c => c = 10
  | _ => True

end Arrival

/-- What one call of `read` delivers. -/
def ReadResult.arrivals : ReadResult → List Arrival
  | data chunk => chunk.bytes.map .byte
  | eof => [.eof]
  | error => [.error]

theorem ReadResult.arrivals_ne_nil (r : ReadResult) : r.arrivals ≠ [] := by
  cases r with
  | data chunk => exact mt List.map_eq_nil_iff.1 chunk.ne_nil
  | eof => exact List.cons_ne_nil _ _
  | error => exact List.cons_ne_nil _ _

/-- What arrives from a descriptor. -/
def Descriptor.stream (fd : Descriptor) : Stream' Arrival :=
  concat (fun n => (fd.results (fd.pos + n)).arrivals) fun _ => ReadResult.arrivals_ne_nil _

theorem Descriptor.stream_eq (fd : Descriptor) :
    fd.stream = fd.next.arrivals ++ₛ fd.advance.stream := by
  rw [stream, concat_eq_append]
  refine congrArg (_ ++ₛ ·) (concat_congr fun n => ?_)
  rw [advance, Nat.add_right_comm, Nat.add_assoc]

namespace Source

variable {s s' : Source} {turns : ℕ} {c : UInt8} {cs : List UInt8}

/-- What is still to come from a source: the pending bytes, and what arrives from the descriptor. -/
def stream (s : Source) : Stream' Arrival := s.pending.map .byte ++ₛ s.fd.stream

/-- Fetching a result of `read` that delivers bytes does not change what is still to come. -/
theorem stream_refill (h : s.refill.pending ≠ []) : s.refill.stream = s.stream := by
  by_cases hs : s.pending = []
  · have hp := pending_refill_of_nil hs
    have hfd : s.refill.fd = s.fd.advance := by rw [refill, if_pos hs]
    have harrivals : s.fd.next.arrivals = s.fd.next.bytes.map .byte := by
      cases hn : s.fd.next with
      | data chunk => rfl
      | eof => exact absurd (hp.trans (by rw [hn]; rfl)) h
      | error => exact absurd (hp.trans (by rw [hn]; rfl)) h
    rw [stream, stream, hp, hfd, hs, s.fd.stream_eq, harrivals]
    rfl
  · rw [refill_of_pending hs]

/-- Where a byte can be had, it comes first. -/
theorem stream_of_cons (h : s.refill.pending = c :: cs) :
    s.stream = .cons (.byte c) s.getchar.2.stream := by
  have hne : s.refill.pending ≠ [] := by simp [h]
  rw [← stream_refill hne, getchar_of_cons h, stream, stream, pending_drop le_rfl, fd_drop, h]
  rfl

/-- Where none can, the end of the file or an error does. -/
theorem stream_of_nil (h : s.refill.pending = []) :
    s.stream = .cons (if s.fd.next.value = 0 then .eof else .error) s.getchar.2.stream := by
  have hs := pending_of_refill h
  have hget : s.getchar.2.stream = s.fd.advance.stream := by
    have hp : s.getchar.2.pending = [] := by
      rw [getchar_of_nil h]
      exact h
    have hfd : s.getchar.2.fd = s.fd.advance := by rw [getchar_of_nil h, refill_of_nil h]
    rw [stream, hp, hfd]
    rfl
  have hvalue := value_le_of_refill h
  rw [hget, stream, hs, s.fd.stream_eq]
  cases hn : s.fd.next with
  | data chunk =>
    rw [hn] at hvalue
    exact absurd ((bytes_eq_nil_iff _).2 hvalue) chunk.ne_nil
  | eof => rfl
  | error => rfl

/-- A line reaches up to the first arrival that ends it. -/
theorem line_stream (turns : ℕ) (s : Source) :
    match s.line turns with
    | none => ∀ n < turns, ¬ FirstAt Arrival.EndsLine s.stream n
    | some (cs, _, s') => ∃ n < turns, FirstAt Arrival.EndsLine s.stream n ∧
        cs = (s.stream.take (n + 1)).filterMap Arrival.byte? ∧ s'.stream = s.stream.drop (n + 1) := by
  induction turns generalizing s with
  | zero => exact fun n hn => absurd hn (Nat.not_lt_zero n)
  | succ turns ih =>
    unfold line
    cases hp : s.refill.pending with
    | nil =>
      have hstream := stream_of_nil hp
      simp only
      refine ⟨0, Nat.succ_pos _, ?_⟩
      rw [hstream]
      refine ⟨.zero ?_, ?_, rfl⟩
      · split_ifs <;> trivial
      · split_ifs <;> rfl
    | cons c cs =>
      have hstream := stream_of_cons hp
      simp only
      rw [hstream]
      by_cases hc : c = 10
      · rw [if_pos hc]
        exact ⟨0, Nat.succ_pos _, .zero hc, rfl, rfl⟩
      · have hrest := ih s.getchar.2
        have hends : ¬ (Arrival.byte c).EndsLine := hc
        rw [if_neg hc]
        cases hl : s.getchar.2.line turns with
        | none =>
          rw [hl] at hrest
          intro n hn hfirst
          cases n with
          | zero => exact hends hfirst.holds
          | succ n => exact hrest n (by omega) ((FirstAt.succ_iff hends).1 hfirst)
        | some r =>
          rw [hl] at hrest
          obtain ⟨n, hn, hfirst, hcs, hs'⟩ := hrest
          refine ⟨n + 1, by omega, (FirstAt.succ_iff hends).2 hfirst, ?_, hs'⟩
          rw [hcs]
          rfl

/-- Lines are taken from the stream alone. -/
theorem line_congr (hs : s'.stream = s.stream) (turns : ℕ) :
    (s'.line turns).map (fun r => (r.1, r.2.2.stream)) =
      (s.line turns).map fun r => (r.1, r.2.2.stream) := by
  have hline := line_stream turns s
  have hline' := line_stream turns s'
  rw [hs] at hline'
  cases hl : s.line turns with
  | none =>
    cases hl' : s'.line turns with
    | none => rfl
    | some r' =>
      rw [hl] at hline
      rw [hl'] at hline'
      obtain ⟨n, hn, hfirst, -⟩ := hline'
      exact absurd hfirst (hline n hn)
  | some r =>
    rw [hl] at hline
    obtain ⟨n, hn, hfirst, hcs, hrest⟩ := hline
    cases hl' : s'.line turns with
    | none =>
      rw [hl'] at hline'
      exact absurd hfirst (hline' n hn)
    | some r' =>
      rw [hl'] at hline'
      obtain ⟨m, -, hfirst', hcs', hrest'⟩ := hline'
      obtain rfl := hfirst.unique hfirst'
      rw [Option.map_some, Option.map_some, hcs, hcs', hrest, hrest']

end Source

/-! ## Readers -/

namespace Bufrd

variable {b b' : Bufrd} {s s' : Source} {turns destsz : ℕ}

/-- What is still to come from a reader. -/
def stream (b : Bufrd) : Stream' Arrival := b.source.stream

/-- Calls lead to the reader from a fresh one whose buffer has room. -/
def Reached (b : Bufrd) : Prop :=
  ∃ results bufsz turns ops outs, 1 ≤ bufsz ∧
    runs (bufrdStep turns) (bufrdInit ⟨results, 0⟩ bufsz) ops = .ok (outs, b)

/-- What `bufrd_getline` does if it may consume up to `turns` bytes: where the line ends before, it
returns, with the bytes of the line counted and stored as far as there is room for them and the null
character, and the stream is left behind the line. -/
structure TakesLine (turns : ℕ) (b : Bufrd) (destsz : ℕ) : Prop where
  returns : ∀ n < turns, FirstAt Arrival.EndsLine b.stream n →
    Returns (bufrdGetline b destsz turns) fun r =>
      r.1 = ((b.stream.take (n + 1)).filterMap Arrival.byte?).length ∧
      r.2.1 = ((b.stream.take (n + 1)).filterMap Arrival.byte?).take (destsz - 1) ++ [0] ∧
      r.2.1.length ≤ destsz ∧ r.2.2.stream = b.stream.drop (n + 1)
  spins : (∀ n < turns, ¬ FirstAt Arrival.EndsLine b.stream n) →
    bufrdGetline b destsz turns = .error .spin

theorem Holds.stream_eq (h : b.Holds s) : b.stream = s.stream := by rw [stream, h.source_eq]

theorem Reached.holds (h : b.Reached) : ∃ s, b.Holds s := by
  obtain ⟨results, bufsz, turns, ops, outs, hbufsz, hruns⟩ := h
  apply runs_invariant (fun b => ∃ s, b.Holds s) ?_ ⟨_, holds_init _ hbufsz⟩ hruns
  intro b op out b' ⟨s, hb⟩ hstep
  have hends := bufrdStep_ends turns op hb
  rw [hstep] at hends
  exact ⟨_, hends.2⟩

theorem Holds.takesLine (h : b.Holds s) (turns : ℕ) (hdest : 1 ≤ destsz) :
    TakesLine turns b destsz := by
  have hget := getline_spec h destsz turns
  have hline := s.line_stream turns
  rw [← h.stream_eq] at hline
  cases hl : s.line turns with
  | none =>
    rw [hl] at hget hline
    exact ⟨fun n hn hfirst => absurd hfirst (hline n hn), fun _ => hget⟩
  | some r =>
    obtain ⟨cs, fin, s'⟩ := r
    rw [hl] at hget hline
    obtain ⟨n, hn, hfirst, hcs, hs'⟩ := hline
    refine ⟨fun m _ hfirst' => ?_, fun hnone => absurd hfirst (hnone n hn)⟩
    obtain rfl := hfirst.unique hfirst'
    apply hget.mono
    rintro ⟨bc, data, b'⟩ ⟨rfl, rfl, hb'⟩
    refine ⟨by rw [← hcs], by rw [← hcs], ?_, hb'.stream_eq.trans hs'⟩
    simp only [List.length_append, List.length_take, List.length_singleton]
    omega

/-- A call for a line. -/
theorem Holds.step_getline (h : b.Holds s) (turns destsz : ℕ) :
    match s.line turns with
    | none => bufrdStep turns b (.getline destsz) = .error .spin
    | some (cs, _, s') => Returns (bufrdStep turns b (.getline destsz)) fun r =>
        r.1 = .line cs.length (cs.take (destsz - 1) ++ [0]) ∧ r.2.Holds s' := by
  have hget := getline_spec h destsz turns
  cases hl : s.line turns with
  | none =>
    rw [hl] at hget
    rw [bufrdStep, show bufrdGetline b destsz turns = _ from hget, error_bind]
  | some r =>
    rw [hl] at hget
    apply hget.bind
    rintro ⟨bc, data, b'⟩ ⟨rfl, rfl, hb'⟩
    exact .ok ⟨rfl, hb'⟩

/-- One stream, one sequence of lines. -/
theorem Holds.getlines_eq (h : b.Holds s) (h' : b'.Holds s') (hs : s'.stream = s.stream)
    (turns : ℕ) (destszs : List ℕ) :
    (runs (bufrdStep turns) b' (destszs.map .getline)).map Prod.fst =
      (runs (bufrdStep turns) b (destszs.map .getline)).map Prod.fst := by
  induction destszs generalizing b b' s s' with
  | nil => rfl
  | cons destsz destszs ih =>
    have hstep := h.step_getline turns destsz
    have hstep' := h'.step_getline turns destsz
    have hline := Source.line_congr hs turns
    rw [List.map_cons]
    cases hl : s.line turns with
    | none =>
      rw [hl] at hstep hline
      rw [Option.map_eq_none_iff.1 hline] at hstep'
      rw [runs_cons_error hstep, runs_cons_error hstep']
    | some r =>
      rw [hl] at hstep hline
      obtain ⟨r', hl', hr⟩ := Option.map_eq_some_iff.1 hline
      obtain ⟨hcs, hrest⟩ := Prod.mk.inj hr
      rw [hl'] at hstep'
      obtain ⟨⟨out, b₁⟩, hok, rfl, hb₁⟩ := hstep
      obtain ⟨⟨out', b₁'⟩, hok', rfl, hb₁'⟩ := hstep'
      rw [runs_cons_fst hok, runs_cons_fst hok', ih hb₁ hb₁' hrest, hcs]

end Bufrd

/-- **Lines do not depend on how the stream was split.** Whatever calls led to the reader `b`, and
whatever `read` returns on its descriptor: `bufrd_getline` takes from what is still to come the bytes
up to the first newline, or up to where the file ends or `read` fails. Another reader that is due to
deliver the same, from other chunks through a buffer of another size, returns the same lines. -/
theorem bufrd_getline_takes_line {b : Bufrd} (hb : b.Reached) (turns : ℕ) :
    (∀ destsz, 1 ≤ destsz → b.TakesLine turns destsz) ∧
      ∀ b' : Bufrd, b'.Reached → b'.stream = b.stream → ∀ destszs : List ℕ,
        (runs (bufrdStep turns) b' (destszs.map .getline)).map Prod.fst =
          (runs (bufrdStep turns) b (destszs.map .getline)).map Prod.fst := by
  obtain ⟨s, h⟩ := hb.holds
  refine ⟨fun destsz hdest => h.takesLine turns hdest, fun b' hb' hstream destszs => ?_⟩
  obtain ⟨s', h'⟩ := hb'.holds
  have hs : s'.stream = s.stream := h'.stream_eq.symm.trans (hstream.trans h.stream_eq)
  exact h.getlines_eq h' hs turns destszs

/-- What `read` returns where one chunk is all there is. -/
def onlyChunk (chunk : Chunk) : ℕ → ReadResult
  | 0 => .data chunk
  | _ + 1 => .eof

/-- A line that arrives in one chunk, and the same line with its first byte pushed back. -/
theorem bufrd_getline_takes_line_pushed_back :
    (bufrdInit ⟨onlyChunk ⟨[97, 98, 10], by decide, by decide⟩, 0⟩ 1).TakesLine 4 2 ∧
      (runs (bufrdStep 4)
          (bufrdUngetchar (bufrdInit ⟨onlyChunk ⟨[98, 10], by decide, by decide⟩, 0⟩ 2) 97).2
          [.getline 2, .getline 9]).map Prod.fst =
        (runs (bufrdStep 4) (bufrdInit ⟨onlyChunk ⟨[97, 98, 10], by decide, by decide⟩, 0⟩ 1)
          [.getline 2, .getline 9]).map Prod.fst := by
  have hb : (bufrdInit ⟨onlyChunk ⟨[97, 98, 10], by decide, by decide⟩, 0⟩ 1).Reached :=
    ⟨_, 1, 4, [], [], le_rfl, rfl⟩
  have hb' : (bufrdUngetchar (bufrdInit ⟨onlyChunk ⟨[98, 10], by decide, by decide⟩, 0⟩ 2)
      97).2.Reached := ⟨_, 2, 4, [.ungetchar 97], [.bool true], Nat.le_succ 1, rfl⟩
  obtain ⟨hline, hlines⟩ := bufrd_getline_takes_line hb 4
  refine ⟨hline 2 (Nat.le_succ 1), hlines _ hb' ?_ [2, 9]⟩
  rw [Bufrd.stream, Bufrd.stream, Source.stream, Source.stream, Descriptor.stream_eq,
    Descriptor.stream_eq (Bufrd.source _).fd]
  refine congrArg (([97, 98, 10] : List UInt8).map Arrival.byte ++ₛ ·) (concat_congr fun n => ?_)
  change (onlyChunk _ (1 + n)).arrivals = (onlyChunk _ (1 + n)).arrivals
  rw [Nat.add_comm 1 n]
  rfl

end LibSrsBsns
