import LibSrsBsns.Misc.Splitquoted
import LibSrsBsns.Misc.Strings

/-!
# The arguments that `splitquoted` extracts

`splitquoted` stores pointers to the words of a text, as many as there is room for
(`splitquoted_spec`). So it undoes quoting (`splitquoted_render`). What it leaves of the text has the
first word only, which makes counting the words before they are extracted useless for a text with more
(`splitquoted_counts_iff`).
-/

namespace LibSrsBsns

open C

/-- The arguments are strings in the input, and the array `dest` has been changed to have the pointers
to them, and not otherwise. -/
def Stores (dest : Buffer ℕ) (r : SplitReturn) (args : List (List Char)) : Prop :=
  ∃ ps, List.Forall₂ r.input.Str ps args ∧ dest.Filled 0 ps r.dest

/-- What `splitquoted` does to a text: the words of it that there is room for are stored, and the
stub of the text is left. -/
structure SplitReturn.Of (r : SplitReturn) (text : List Char) (dest : Buffer ℕ) (destNelem : ℕ) :
    Prop where
  ret : r.ret = sizeToInt (splitQuoting.words .blank text).length
  stores : Stores dest r ((splitQuoting.words .blank text).take destNelem)
  stub : r.input.Str 0 (splitQuoting.stub .blank text)

section

variable {input : Buffer Char} {dest : Buffer ℕ} {text : List Char} {destNelem : ℕ}

theorem splitquoted_spec (hinput : input.Str 0 text) (hmax : destNelem < 2 ^ 31)
    (hroom : destNelem ≤ dest.size) :
    Returns (splitquoted input dest destNelem) (·.Of text dest destNelem) := by
  have hlt := hinput.lt_size
  obtain ⟨s, hok, hs⟩ := splitLoop_spec (s := ⟨input, 0, dest, nul, true, 0⟩) (m := .blank)
    hinput rfl hroom (show text.length < input.size + 1 by omega)
  rw [splitquoted, if_neg (by omega), hok, ok_bind]
  obtain ⟨ps, hps, hfilled⟩ := hs.words
  rw [Nat.zero_min, Nat.sub_zero] at hfilled
  refine .ok ⟨?_, ⟨ps.take destNelem, List.forall₂_take destNelem hps, hfilled⟩, hs.stub⟩
  rw [hs.n, Nat.zero_add]

/-- A text is refused if there is more room than an `int` can count. -/
theorem splitquoted_of_gt (input : Buffer Char) (dest : Buffer ℕ) (h : 2 ^ 31 ≤ destNelem) :
    splitquoted input dest destNelem = .ok ⟨-1, input, dest⟩ :=
  if_pos (by omega)

end

/-! ## Undoing quotes -/

open Quoting

/-- `splitquoted` returns the number of the arguments `args` and stores as many as there is room for. -/
def Undoes (args : List (List Char)) (input : Buffer Char) (dest : Buffer ℕ) (destNelem : ℕ) : Prop :=
  Returns (splitquoted input dest destNelem) fun r =>
    r.ret = args.length ∧ Stores dest r (args.take destNelem)

section

variable {lead : List Char} {ps : List (Piece splitQuoting)} {input : Buffer Char} {dest : Buffer ℕ}
  {destNelem : ℕ}

theorem ne_nul_of_blank {c : Char} (h : splitQuoting.blank c = true) : c ≠ nul := by
  rintro rfl
  exact absurd h (by decide)

/-- Quotes and blanks add no null characters. -/
theorem nul_notMem_render (hlead : ∀ c ∈ lead, splitQuoting.blank c = true)
    (hargs : ∀ p ∈ ps, nul ∉ p.word) : nul ∉ render lead ps := by
  rw [render, List.mem_append, not_or, List.mem_flatMap]
  refine ⟨fun hmem => ne_nul_of_blank (hlead nul hmem) rfl, ?_⟩
  rintro ⟨p, hp, hmem⟩
  rw [Piece.text, List.mem_append, Piece.body] at hmem
  rcases hmem with hbody | hsep
  · cases hmark : p.mark with
    | none =>
      rw [hmark] at hbody
      exact hargs p hp hbody
    | some q =>
      have hq : nul ≠ q := (ne_nul_of_quote (p.quoted q hmark).1).symm
      simp only [hmark, List.mem_cons, List.mem_append, hq, List.not_mem_nil, or_false, false_or]
        at hbody
      exact hargs p hp hbody
  · exact ne_nul_of_blank (p.blank nul hsep) rfl

/-- **Splitting undoes quoting.** For all arguments, each written without quotes or between two of
them, with blanks in between where they are needed, `splitquoted` stores pointers to as many of them
as there is room for and returns their number, unless that is more than an `int` can hold. It refuses
to do anything if there is more room than that. -/
theorem splitquoted_render (hlead : ∀ c ∈ lead, splitQuoting.blank c = true)
    (hps : ps.IsChain Piece.Separate) (hargs : ∀ p ∈ ps, nul ∉ p.word)
    (hinput : input.Holds 0 (render lead ps ++ [nul])) (hroom : destNelem ≤ dest.size) :
    (destNelem < 2 ^ 31 → Returns (splitquoted input dest destNelem) fun r =>
      (ps.length < 2 ^ 31 → r.ret = ps.length) ∧ Stores dest r ((ps.map Piece.word).take destNelem)) ∧
    (2 ^ 31 ≤ destNelem → splitquoted input dest destNelem = .ok ⟨-1, input, dest⟩) := by
  refine ⟨fun hmax => ?_, splitquoted_of_gt input dest⟩
  apply (splitquoted_spec ⟨hinput, nul_notMem_render hlead hargs⟩ hmax hroom).mono
  intro r hr
  have hwords : splitQuoting.words .blank (render lead ps) = ps.map Piece.word :=
    words_render hlead hps
  refine ⟨fun hcount => ?_, hwords ▸ hr.stores⟩
  rw [hr.ret, hwords, List.length_map, sizeToInt_eq_iff.2 hcount]

end

/-- The argument `ab`, without quotes and with no blank behind it. -/
def bareAb : Piece splitQuoting where
  word := ['a', 'b']
  mark := none
  sep := []
  bare _ := ⟨by decide, List.forall_mem_cons.2 ⟨by decide, List.forall_mem_singleton.2 (by decide)⟩⟩
  quoted _ hq := by cases hq
  blank := List.forall_mem_nil _

/-- The argument `c d` in quotation marks, with a blank behind it. -/
def quotedCd : Piece splitQuoting where
  word := ['c', ' ', 'd']
  mark := some quotationMark
  sep := [' ']
  bare hmark := by cases hmark
  quoted q hq := by
    obtain rfl := Option.some.inj hq
    exact ⟨by decide, by decide⟩
  blank := List.forall_mem_singleton.2 (by decide)

/-- Two arguments of the three in the text `ab"c d" ab`. -/
theorem splitquoted_render_two :
    ((2 : ℕ) < 2 ^ 31 → Returns
      (splitquoted (stringBuffer (render [] [bareAb, quotedCd, bareAb])) (.malloc 2) 2) fun r =>
        ([bareAb, quotedCd, bareAb].length < 2 ^ 31 → r.ret = [bareAb, quotedCd, bareAb].length) ∧
        Stores (.malloc 2) r (([bareAb, quotedCd, bareAb].map Piece.word).take 2)) ∧
    ((2 : ℕ) ^ 31 ≤ 2 →
      splitquoted (stringBuffer (render [] [bareAb, quotedCd, bareAb])) (.malloc 2) 2 =
        .ok ⟨-1, stringBuffer (render [] [bareAb, quotedCd, bareAb]), .malloc 2⟩) :=
  splitquoted_render (List.forall_mem_nil _) (by decide) (by decide) (holds_stringBuffer _) le_rfl

/-- With room for 2 ^ 31 pointers, the text `ab` is refused. -/
theorem not_undoes_of_room : ¬ ∀ (lead : List Char) (ps : List (Piece splitQuoting))
    (input : Buffer Char) (dest : Buffer ℕ) (destNelem : ℕ),
    (∀ c ∈ lead, splitQuoting.blank c = true) → ps.IsChain Piece.Separate →
    (∀ p ∈ ps, nul ∉ p.word) → input.Holds 0 (render lead ps ++ [nul]) → destNelem ≤ dest.size →
    Undoes (ps.map Piece.word) input dest destNelem := by
  intro h
  obtain ⟨r, hr, hret, -⟩ := h [] [bareAb] (stringBuffer (render [] [bareAb])) (.malloc (2 ^ 31))
    (2 ^ 31) (List.forall_mem_nil _) (by decide) (by decide) (holds_stringBuffer _) le_rfl
  rw [splitquoted_of_gt _ _ le_rfl] at hr
  obtain rfl := Except.ok.inj hr
  cases hret

/-! ## Counting -/

/-- The arguments can be counted before they are extracted: after a call with no room that returns
their number, a call with room for as many returns it again and stores the arguments that a single
call stores, with this room or more. -/
def CountsSoundly (input : Buffer Char) : Prop :=
  ∀ dest : Buffer ℕ, Returns (splitquoted input dest 0) fun r => ∃ args : List (List Char),
    r.ret = args.length ∧
    (∀ dest' : Buffer ℕ, args.length ≤ dest'.size →
      Returns (splitquoted r.input dest' args.length) fun r' =>
        r'.ret = args.length ∧ Stores dest' r' args) ∧
    ∀ (destNelem : ℕ) (dest' : Buffer ℕ), args.length ≤ destNelem → destNelem < 2 ^ 31 →
      destNelem ≤ dest'.size → Returns (splitquoted input dest' destNelem) (Stores dest' · args)

section

variable {input : Buffer Char} {text : List Char} {args : List (List Char)} {r : SplitReturn}

/-- In a new array there are as many pointers as arguments. -/
theorem Stores.cell_isSome {n : ℕ} (h : Stores (.malloc n) r args) (i : ℕ) :
    (r.dest.cell i).isSome ↔ i < args.length := by
  obtain ⟨ps, hps, hfilled⟩ := h
  rw [← hps.length_eq]
  constructor
  · intro hsome
    by_contra hle
    rw [hfilled.frame i (.inr (by omega))] at hsome
    cases hsome
  · intro hlt
    have hcell := hfilled.holds.cell hlt
    rw [Nat.zero_add] at hcell
    rw [hcell]
    rfl

theorem counts_of_le_one (hinput : input.Str 0 text)
    (h : (splitQuoting.words .blank text).length ≤ 1) : CountsSoundly input := by
  intro dest
  apply (splitquoted_spec hinput (by decide) (Nat.zero_le dest.size)).mono
  intro r hr
  have hint : sizeToInt (splitQuoting.words .blank text).length =
      (splitQuoting.words .blank text).length := sizeToInt_eq_iff.2 (by omega)
  have hstub : splitQuoting.words .blank (splitQuoting.stub .blank text) =
      splitQuoting.words .blank text := by
    rw [words_stub, List.take_of_length_le h]
  refine ⟨splitQuoting.words .blank text, hr.ret.trans hint, fun dest' hroom => ?_,
    fun destNelem dest' hle hmax hroom => ?_⟩
  · apply (splitquoted_spec hr.stub (by omega) hroom).mono
    intro r' hr'
    have hret := hr'.ret
    have hstores := hr'.stores
    rw [hstub] at hret hstores
    rw [List.take_length] at hstores
    exact ⟨hret.trans hint, hstores⟩
  · apply (splitquoted_spec hinput hmax hroom).mono
    intro r' hr'
    have hstores := hr'.stores
    rwa [List.take_of_length_le hle] at hstores

/-- With two words or more, the second call finds one. -/
theorem le_one_of_counts (hinput : input.Str 0 text) (h : CountsSoundly input) :
    (splitQuoting.words .blank text).length ≤ 1 := by
  by_contra hmany
  obtain ⟨r, hok, args, -, hsecond, hsingle⟩ := h (.malloc 0)
  have hr := (splitquoted_spec hinput (by decide) (Nat.zero_le _)).of_eq_ok hok
  have hone : args.length = 1 := by
    obtain ⟨r', hok', hret, -⟩ := hsecond (.malloc args.length) le_rfl
    rcases Nat.lt_or_ge args.length (2 ^ 31) with hmax | hmax
    · have hr' := (splitquoted_spec hr.stub hmax le_rfl).of_eq_ok hok'
      have hlen : ((splitQuoting.words .blank text).take 1).length = 1 := by
        rw [List.length_take]
        omega
      have hint : sizeToInt 1 = (1 : ℕ) := sizeToInt_eq_iff.2 (by decide)
      have hone := hr'.ret
      rw [words_stub, hlen, hint, hret] at hone
      exact Int.ofNat_inj.1 hone
    · rw [splitquoted_of_gt _ _ hmax] at hok'
      obtain rfl := Except.ok.inj hok'
      cases hret
  -- a single call with room for two arguments stores two
  obtain ⟨r', hok', hstores⟩ := hsingle 2 (.malloc 2) (by omega) (by decide) le_rfl
  have hr' := (splitquoted_spec hinput (show 2 < 2 ^ 31 by decide) le_rfl).of_eq_ok hok'
  have htwo := (hr'.stores.cell_isSome 1).2 (by rw [List.length_take]; omega)
  have hlt := (hstores.cell_isSome 1).1 htwo
  omega

/-- **Counting the arguments before they are extracted.** It is sound for a text if and only if the
text has at most one word. -/
theorem splitquoted_counts_iff (hinput : input.Str 0 text) :
    CountsSoundly input ↔ splitQuoting.AtMostOne text := by
  rw [← length_words_le_one_iff]
  exact ⟨le_one_of_counts hinput, counts_of_le_one hinput⟩

end

theorem splitquoted_counts_iff_blank :
    CountsSoundly (stringBuffer [' ', 'a', ' ']) ↔ splitQuoting.AtMostOne [' ', 'a', ' '] :=
  splitquoted_counts_iff ⟨holds_stringBuffer _, by decide⟩

/-- Counting the words of `a b` ends the text behind the first. -/
theorem not_countsSoundly_of_two : ¬ CountsSoundly (stringBuffer ['a', ' ', 'b']) := by
  intro h
  have hle := le_one_of_counts ⟨holds_stringBuffer ['a', ' ', 'b'], by decide⟩ h
  exact absurd hle (by decide)

end LibSrsBsns
