import LibSrsBsns.Foundations.C.Str
import LibSrsBsns.Foundations.Data.Quoting

/-!
# Splitting a text in place

The model of `splitquoted` of `misc.c`, which cuts a text into words by writing null characters into
it. Pointers into the text are positions in it. The words are those of a `Quoting`, for a scan whose
mode is kept in the flags `quotetype` and `inws` (`SplitState.In`); what a character does there is
`splitTurn_spec`, and what the loop leaves, by induction on the text, `splitLoop_spec`.
-/

namespace LibSrsBsns

open C

def apostrophe : Char := Char.ofNat 39

def quotationMark : Char := Char.ofNat 34

/-- The quoting of `splitquoted`: a word is quoted by either mark. -/
def splitQuoting : Quoting Char where
  blank c := c = ' ' ∨ c = '\t' ∨ c = '\r' ∨ c = '\n'
  quote c := c = apostrophe ∨ c = quotationMark
  quote_of_blank c h := by
    rcases of_decide_eq_true h with rfl | rfl | rfl | rfl <;> decide

/-- The locals of `splitquoted`, with the arrays it writes to. -/
structure SplitState where
  input : Buffer Char
  pos : ℕ
  dest : Buffer ℕ
  quotetype : Char
  inws : Bool
  n : ℕ

namespace SplitState

/-- A word begins at the position `p`. -/
def found (s : SplitState) (destNelem p : ℕ) : Exec SplitState := do
  let dest ← (if s.n < destNelem then s.dest.write s.n p else .ok s.dest)
  .ok { s with dest := dest, n := s.n + 1 }

/-- `*input = '\0'`. -/
def terminate (s : SplitState) : Exec SplitState := do
  let input ← s.input.write s.pos nul
  .ok { s with input := input }

end SplitState

/-- The `switch` of `splitquoted` for the character `c`. -/
def splitTurn (destNelem : ℕ) (s : SplitState) (c : Char) : Exec SplitState :=
  if c = apostrophe ∨ c = quotationMark then
    if s.inws then
      { s with quotetype := c, inws := false }.found destNelem (s.pos + 1)
    else if s.quotetype = c then
      { s with quotetype := nul, inws := true }.terminate
    else if s.quotetype = nul then do
      let s ← { s with quotetype := c }.terminate
      s.found destNelem (s.pos + 1)
    else .ok s
  else if c = ' ' ∨ c = '\t' ∨ c = '\r' ∨ c = '\n' then
    if s.inws then .ok s
    else if s.quotetype = nul then { s with inws := true }.terminate
    else .ok s
  else if s.inws then
    { s with quotetype := nul, inws := false }.found destNelem s.pos
  else .ok s

/-- The loop of `splitquoted`. -/
def splitLoop (destNelem : ℕ) : ℕ → SplitState → Exec SplitState :=
  loop fun s => do
    let c ← s.input.read s.pos
    if c = nul then .ok (.inr s)
    else do
      let s ← splitTurn destNelem s c
      .ok (.inl { s with pos := s.pos + 1 })

/-- What `splitquoted` returns and leaves in the arrays. -/
structure SplitReturn where
  ret : ℤ
  input : Buffer Char
  dest : Buffer ℕ

/-- `splitquoted` on the text at the start of `input`. -/
def splitquoted (input : Buffer Char) (dest : Buffer ℕ) (destNelem : ℕ) : Exec SplitReturn :=
  if 2 ^ 31 - 1 < destNelem then .ok ⟨-1, input, dest⟩
  else do
    let s ← splitLoop destNelem (input.size + 1) ⟨input, 0, dest, nul, true, 0⟩
    .ok ⟨sizeToInt s.n, s.input, s.dest⟩

/-! ## One character -/

open Quoting (Mode)

/-- The flags say what mode the scan is in. -/
def SplitState.In (s : SplitState) : Mode Char → Prop
  | .blank => s.inws = true
  | .bare => s.inws = false ∧ s.quotetype = nul
  | .quoted q => s.inws = false ∧ s.quotetype = q ∧ splitQuoting.quote q = true

/-- Where the word begins that begins with the character `c` at the position `pos`, if one does. -/
def begun (m : Mode Char) (c : Char) (pos : ℕ) : List ℕ :=
  if splitQuoting.starts m c then [if splitQuoting.quote c then pos + 1 else pos] else []

theorem begun_of_not_starts {m : Mode Char} {c : Char} (h : splitQuoting.starts m c = false)
    (pos : ℕ) : begun m c pos = [] := by
  rw [begun, h, if_neg (by decide)]

/-- What the character `c` does: it may be overwritten, and a pointer behind it or to it be stored. -/
structure SplitState.Turned (s : SplitState) (destNelem : ℕ) (m : Mode Char) (c : Char)
    (s' : SplitState) : Prop where
  mode : s'.In (splitQuoting.next m c)
  pos : s'.pos = s.pos
  input : s.input.Filled s.pos [if splitQuoting.ends m c then nul else c] s'.input
  dest : s.dest.Filled (min s.n destNelem) ((begun m c s.pos).take (destNelem - s.n)) s'.dest
  n : s'.n = s.n + (begun m c s.pos).length

section

variable {s : SplitState} {destNelem p : ℕ} {m : Mode Char} {c : Char}

theorem SplitState.found_spec (s : SplitState) (p : ℕ) (hroom : destNelem ≤ s.dest.size) :
    Returns (s.found destNelem p) fun s' => ∃ dest',
      s.dest.Filled (min s.n destNelem) ([p].take (destNelem - s.n)) dest' ∧
        s' = { s with dest := dest', n := s.n + 1 } := by
  rw [found]
  by_cases hn : s.n < destNelem
  · obtain ⟨dest', hok, hfilled⟩ := Buffer.write_spec p (hn.trans_le hroom)
    rw [if_pos hn, hok, ok_bind]
    refine .ok ⟨dest', ?_, rfl⟩
    rwa [min_eq_left hn.le, List.take_of_length_le (by rw [List.length_singleton]; omega)]
  · rw [if_neg hn, ok_bind]
    refine .ok ⟨s.dest, ?_, rfl⟩
    rw [Nat.sub_eq_zero_of_le (not_lt.1 hn), List.take_zero]
    exact Buffer.filled_nil (by omega)

theorem SplitState.terminate_spec (s : SplitState) (hpos : s.pos < s.input.size) :
    Returns s.terminate fun s' =>
      ∃ input', s.input.Filled s.pos [nul] input' ∧ s' = { s with input := input' } := by
  obtain ⟨input', hok, hfilled⟩ := Buffer.write_spec nul hpos
  rw [terminate, hok, ok_bind]
  exact .ok ⟨input', hfilled, rfl⟩

theorem quote_iff : splitQuoting.quote c = true ↔ c = apostrophe ∨ c = quotationMark :=
  decide_eq_true_iff

theorem blank_iff :
    splitQuoting.blank c = true ↔ c = ' ' ∨ c = '\t' ∨ c = '\r' ∨ c = '\n' :=
  decide_eq_true_iff

theorem ne_nul_of_quote (h : splitQuoting.quote c = true) : c ≠ nul := by
  rintro rfl
  exact absurd h (by decide)

/-- The scan has come to the character `c`, and there is room for the pointers. -/
structure SplitState.At (s : SplitState) (destNelem : ℕ) (m : Mode Char) (c : Char) : Prop where
  mode : s.In m
  input : s.input.Holds s.pos [c]
  room : destNelem ≤ s.dest.size

namespace SplitState.At

variable {q : Char} {w : Bool}

theorem lt (h : s.At destNelem m c) : s.pos < s.input.size := (Buffer.holds_singleton.1 h.input).1

/-- Nothing is written to the input where no word ends. -/
theorem input_keep (h : s.At destNelem m c) (hends : splitQuoting.ends m c = false) :
    s.input.Filled s.pos [if splitQuoting.ends m c then nul else c] s.input := by
  rw [hends]
  exact ⟨rfl, h.input, fun _ _ => rfl⟩

/-- Nothing is stored where no word begins. -/
theorem dest_keep (h : s.At destNelem m c) (hbegun : begun m c s.pos = []) :
    s.dest.Filled (min s.n destNelem) ((begun m c s.pos).take (destNelem - s.n)) s.dest := by
  rw [hbegun, List.take_nil]
  exact Buffer.filled_nil ((min_le_right _ _).trans h.room)

/-- The character does nothing. -/
theorem keep (h : s.At destNelem m c) (hends : splitQuoting.ends m c = false)
    (hbegun : begun m c s.pos = []) (hmode : s.In (splitQuoting.next m c)) :
    s.Turned destNelem m c s :=
  ⟨hmode, rfl, h.input_keep hends, h.dest_keep hbegun, by rw [hbegun]; rfl⟩

/-- In quotes, another character than the quote does nothing. -/
theorem inside (h : s.At destNelem (.quoted q) c) (hc : c ≠ q) :
    s.Turned destNelem (.quoted q) c s := by
  have hnext : splitQuoting.next (.quoted q) c = .quoted q := if_neg hc
  exact h.keep (by simp [Quoting.ends, hc]) rfl (by rw [hnext]; exact h.mode)

theorem ne_quote (h : s.At destNelem (.quoted q) c) (hq : splitQuoting.quote c = false) : c ≠ q := by
  rintro rfl
  have hquote := h.mode.2.2
  rw [hq] at hquote
  cases hquote

/-- A word begins. -/
theorem found (h : s.At destNelem m c) (hends : splitQuoting.ends m c = false)
    (hbegun : begun m c s.pos = [p])
    (hmode : SplitState.In { s with quotetype := q, inws := w } (splitQuoting.next m c)) :
    Returns (SplitState.found { s with quotetype := q, inws := w } destNelem p)
      (s.Turned destNelem m c) := by
  apply (SplitState.found_spec { s with quotetype := q, inws := w } p h.room).mono
  rintro s' ⟨dest', hdest, rfl⟩
  exact ⟨hmode, rfl, h.input_keep hends, by rwa [hbegun], by rw [hbegun]; rfl⟩

/-- A word ends. -/
theorem terminate (h : s.At destNelem m c) (hends : splitQuoting.ends m c = true)
    (hbegun : begun m c s.pos = [])
    (hmode : SplitState.In { s with quotetype := q, inws := w } (splitQuoting.next m c)) :
    Returns (SplitState.terminate { s with quotetype := q, inws := w })
      (s.Turned destNelem m c) := by
  apply (SplitState.terminate_spec { s with quotetype := q, inws := w } h.lt).mono
  rintro s' ⟨input', hinput, rfl⟩
  exact ⟨hmode, rfl, by rwa [hends], h.dest_keep hbegun, by rw [hbegun]; rfl⟩

/-- A word ends at the quote that begins the next one. -/
theorem terminate_found (h : s.At destNelem m c) (hends : splitQuoting.ends m c = true)
    (hbegun : begun m c s.pos = [s.pos + 1])
    (hmode : SplitState.In { s with quotetype := q } (splitQuoting.next m c)) :
    Returns (do
      let s ← SplitState.terminate { s with quotetype := q }
      s.found destNelem (s.pos + 1)) (s.Turned destNelem m c) := by
  apply (SplitState.terminate_spec { s with quotetype := q } h.lt).bind
  rintro s' ⟨input', hinput, rfl⟩
  apply (SplitState.found_spec { s with input := input', quotetype := q } (s.pos + 1) h.room).mono
  rintro s' ⟨dest', hdest, rfl⟩
  exact ⟨hmode, rfl, by rwa [hends], by rwa [hbegun], by rw [hbegun]; rfl⟩

end SplitState.At

theorem splitTurn_quote (h : s.At destNelem m c) (hq : splitQuoting.quote c = true) :
    Returns (splitTurn destNelem s c) (s.Turned destNelem m c) := by
  have hb : splitQuoting.blank c = false := Quoting.blank_of_quote hq
  rw [splitTurn, if_pos (quote_iff.1 hq)]
  cases m with
  | blank =>
    have hbegun : begun .blank c s.pos = [s.pos + 1] := by
      simp [begun, Quoting.starts, hb, hq]
    have hnext : splitQuoting.next .blank c = .quoted c := if_pos hq
    have hws : s.inws = true := h.mode
    rw [if_pos hws]
    exact h.found rfl hbegun (by rw [hnext]; exact ⟨rfl, rfl, hq⟩)
  | bare =>
    obtain ⟨hws, htype⟩ := h.mode
    have hbegun : begun .bare c s.pos = [s.pos + 1] := by
      simp [begun, Quoting.starts, hq]
    have hnext : splitQuoting.next .bare c = .quoted c := if_pos hq
    rw [if_neg (by simp [hws]), if_neg (by rw [htype]; exact (ne_nul_of_quote hq).symm), if_pos htype]
    exact h.terminate_found (q := c) (by simp [Quoting.ends, hq]) hbegun
      (by rw [hnext]; exact ⟨hws, rfl, hq⟩)
  | quoted q =>
    obtain ⟨hws, htype, hquote⟩ := h.mode
    rw [if_neg (by simp [hws]), htype]
    by_cases hc : q = c
    · have hnext : splitQuoting.next (.quoted q) c = .blank := if_pos hc.symm
      rw [if_pos hc]
      exact h.terminate (by simp [Quoting.ends, hc]) rfl (by rw [hnext]; rfl)
    · rw [if_neg hc, if_neg (ne_nul_of_quote hquote)]
      exact .ok (h.inside (Ne.symm hc))

theorem splitTurn_blank (h : s.At destNelem m c) (hb : splitQuoting.blank c = true) :
    Returns (splitTurn destNelem s c) (s.Turned destNelem m c) := by
  have hq : splitQuoting.quote c = false := splitQuoting.quote_of_blank c hb
  rw [splitTurn, if_neg (by rw [← quote_iff, hq]; decide), if_pos (blank_iff.1 hb)]
  cases m with
  | blank =>
    have hnext : splitQuoting.next .blank c = .blank := by simp [Quoting.next, hq, hb]
    have hws : s.inws = true := h.mode
    rw [if_pos hws]
    exact .ok (h.keep rfl (begun_of_not_starts (by simp [Quoting.starts, hb]) s.pos)
      (by rw [hnext]; exact h.mode))
  | bare =>
    obtain ⟨hws, htype⟩ := h.mode
    have hnext : splitQuoting.next .bare c = .blank := by simp [Quoting.next, hq, hb]
    rw [if_neg (by simp [hws]), if_pos htype]
    exact h.terminate (by simp [Quoting.ends, hb]) (begun_of_not_starts (m := .bare) hq s.pos)
      (by rw [hnext]; rfl)
  | quoted q =>
    obtain ⟨hws, htype, hquote⟩ := h.mode
    rw [if_neg (by simp [hws]), htype, if_neg (ne_nul_of_quote hquote)]
    exact .ok (h.inside (h.ne_quote hq))

theorem splitTurn_plain (h : s.At destNelem m c) (hp : splitQuoting.Plain c) :
    Returns (splitTurn destNelem s c) (s.Turned destNelem m c) := by
  obtain ⟨hq, hb⟩ := hp
  rw [splitTurn, if_neg (by rw [← quote_iff, hq]; decide), if_neg (by rw [← blank_iff, hb]; decide)]
  cases m with
  | blank =>
    have hbegun : begun .blank c s.pos = [s.pos] := by simp [begun, Quoting.starts, hb, hq]
    have hnext : splitQuoting.next .blank c = .bare := by simp [Quoting.next, hq, hb]
    have hws : s.inws = true := h.mode
    rw [if_pos hws]
    exact h.found rfl hbegun (by rw [hnext]; exact ⟨rfl, rfl⟩)
  | bare =>
    have hnext : splitQuoting.next .bare c = .bare := by simp [Quoting.next, hq, hb]
    rw [if_neg (by simp [h.mode.1])]
    exact .ok (h.keep (by simp [Quoting.ends, hq, hb]) (begun_of_not_starts (m := .bare) hq s.pos)
      (by rw [hnext]; exact h.mode))
  | quoted q =>
    rw [if_neg (by simp [h.mode.1])]
    exact .ok (h.inside (h.ne_quote hq))

/-- The `switch` does what the character does in the mode. -/
theorem splitTurn_spec (h : s.At destNelem m c) :
    Returns (splitTurn destNelem s c) (s.Turned destNelem m c) := by
  cases hq : splitQuoting.quote c with
  | true => exact splitTurn_quote h hq
  | false =>
    cases hb : splitQuoting.blank c with
    | true => exact splitTurn_blank h hb
    | false => exact splitTurn_plain h ⟨hq, hb⟩

/-! ## The whole text -/

/-- What the loop leaves once it has come to the rest `cs` of the text: the stub of it is a string
where it was, and so are the words that begin in it, with pointers to them in `dest`. -/
structure SplitState.Splits (s : SplitState) (destNelem : ℕ) (m : Mode Char) (cs : List Char)
    (s' : SplitState) : Prop where
  before : ∀ i < s.pos, s'.input.cell i = s.input.cell i
  size : s'.input.size = s.input.size
  stub : s'.input.Str s.pos (splitQuoting.stub m cs)
  n : s'.n = s.n + (splitQuoting.words m cs).length
  words : ∃ ps, List.Forall₂ s'.input.Str ps (splitQuoting.words m cs) ∧
    s.dest.Filled (min s.n destNelem) (ps.take (destNelem - s.n)) s'.dest

variable {cs : List Char} {s₁ s' : SplitState}

/-- The character in front of the stub is part of it, or ends the word there. -/
theorem stub_cons (hlt : s.pos < s'.input.size) (hne : c ≠ nul)
    (hcell : s'.input.cell s.pos = some (if splitQuoting.ends m c then nul else c))
    (hstub : s'.input.Str (s.pos + 1) (splitQuoting.stub (splitQuoting.next m c) cs)) :
    s'.input.Str s.pos (splitQuoting.stub m (c :: cs)) := by
  cases hends : splitQuoting.ends m c with
  | true =>
    rw [hends, if_pos rfl] at hcell
    rw [Quoting.stub_of_ends hends]
    exact ⟨Buffer.holds_singleton.2 ⟨hlt, hcell⟩, List.not_mem_nil⟩
  | false =>
    rw [hends, if_neg (by decide)] at hcell
    rw [Quoting.stub_of_not_ends hends]
    refine ⟨Buffer.holds_cons.2 ⟨⟨hlt, hcell⟩, hstub.holds⟩, ?_⟩
    rw [List.mem_cons, not_or]
    exact ⟨hne.symm, hstub.nul_notMem⟩

/-- The word that begins with the character is a string where it begins. -/
theorem begun_words (hstub : s'.input.Str s.pos (splitQuoting.stub m (c :: cs)))
    (hrest : s'.input.Str (s.pos + 1) (splitQuoting.stub (splitQuoting.next m c) cs))
    {ps : List ℕ} (hps : List.Forall₂ s'.input.Str ps
      (splitQuoting.words (splitQuoting.next m c) cs)) :
    List.Forall₂ s'.input.Str (begun m c s.pos ++ ps) (splitQuoting.words m (c :: cs)) := by
  cases hstarts : splitQuoting.starts m c with
  | false => rwa [begun_of_not_starts hstarts, Quoting.words_of_not_starts hstarts]
  | true =>
    rw [begun, hstarts, if_pos rfl, Quoting.words]
    simp only [hstarts, if_true]
    cases hq : splitQuoting.quote c with
    | true => exact .cons hrest hps
    | false =>
      -- only between words can a word begin without a quote
      have hends : splitQuoting.ends m c = false := by
        cases m with
        | blank => rfl
        | bare => exact absurd (hq.symm.trans hstarts) (by decide)
        | quoted q => cases hstarts
      rw [Quoting.stub_of_not_ends hends] at hstub
      exact .cons hstub hps

theorem SplitState.Splits.cons (hne : c ≠ nul) (hlt : s.pos < s.input.size)
    (hturn : s.Turned destNelem m c s₁)
    (h : SplitState.Splits { s₁ with pos := s₁.pos + 1 } destNelem (splitQuoting.next m c) cs s') :
    s.Splits destNelem m (c :: cs) s' := by
  have hsize : s'.input.size = s.input.size := h.size.trans hturn.input.size
  have hcell : s'.input.cell s.pos = some (if splitQuoting.ends m c then nul else c) := by
    rw [h.before s.pos (by rw [hturn.pos]; exact Nat.lt_succ_self _), hturn.input.cell_self]
  have hrest : s'.input.Str (s.pos + 1) (splitQuoting.stub (splitQuoting.next m c) cs) :=
    hturn.pos ▸ h.stub
  have hstub := stub_cons (by omega) hne hcell hrest
  obtain ⟨ps, hps, hfilled⟩ := h.words
  have hwords := begun_words hstub hrest hps
  constructor
  case before =>
    intro i hi
    have hi' : i < s₁.pos + 1 := by rw [hturn.pos]; omega
    exact (h.before i hi').trans (hturn.input.cell_of_ne hi.ne)
  case size => exact hsize
  case stub => exact hstub
  case n =>
    have hlen := hwords.length_eq
    rw [List.length_append, hps.length_eq] at hlen
    have hn := h.n
    have hbegun := hturn.n
    simp only at hn
    omega
  case words =>
    refine ⟨begun m c s.pos ++ ps, hwords, ?_⟩
    have hn := hturn.n
    have hoff : min s₁.n destNelem = min s.n destNelem +
        ((begun m c s.pos).take (destNelem - s.n)).length := by
      rw [List.length_take]
      omega
    have hleft : destNelem - s₁.n = destNelem - s.n - (begun m c s.pos).length := by omega
    simp only [hoff, hleft] at hfilled
    rw [List.take_append]
    exact hturn.dest.append hfilled

/-- The loop splits the rest of the text, whatever the mode. -/
theorem splitLoop_spec {turns : ℕ} (hinput : s.input.Str s.pos cs) (hmode : s.In m)
    (hroom : destNelem ≤ s.dest.size) (hturns : cs.length < turns) :
    Returns (splitLoop destNelem turns s) (s.Splits destNelem m cs) := by
  induction cs generalizing s m turns with
  | nil =>
    obtain ⟨turns, rfl⟩ : ∃ k, turns = k + 1 := ⟨turns - 1, by omega⟩
    have hend : s.input.read s.pos = .ok nul := hinput.read_end
    rw [splitLoop, loop_inr (b := s) (by rw [hend, ok_bind, if_pos rfl])]
    refine .ok ⟨fun _ _ => rfl, rfl, hinput, rfl, [], .nil, ?_⟩
    rw [List.take_nil]
    exact Buffer.filled_nil (by omega)
  | cons c cs ih =>
    obtain ⟨turns, rfl⟩ : ∃ k, turns = k + 1 := ⟨turns - 1, by omega⟩
    have hread : s.input.read s.pos = .ok c := hinput.head
    have hne : c ≠ nul := fun he => hinput.nul_notMem (he ▸ List.mem_cons_self)
    obtain ⟨hat, hbehind⟩ := Buffer.holds_cons.1 hinput.holds
    obtain ⟨s₁, hok, hturn⟩ := splitTurn_spec ⟨hmode, Buffer.holds_singleton.2 hat, hroom⟩
    rw [splitLoop, loop_inl (t := { s₁ with pos := s₁.pos + 1 })
      (by rw [hread, ok_bind, if_neg hne, hok, ok_bind]), ← splitLoop]
    have hinput' : s₁.input.Str (s₁.pos + 1) cs := by
      rw [hturn.pos]
      exact ⟨hturn.input.holds_behind hbehind le_rfl, hinput.tail.nul_notMem⟩
    have hroom' : destNelem ≤ s₁.dest.size := hturn.dest.size ▸ hroom
    apply (ih (s := { s₁ with pos := s₁.pos + 1 }) hinput' hturn.mode hroom'
      (by rw [List.length_cons] at hturns; omega)).mono
    intro s' hs'
    exact hs'.cons hne hat.1 hturn

end

end LibSrsBsns
