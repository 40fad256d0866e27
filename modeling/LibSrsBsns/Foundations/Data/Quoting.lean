import Mathlib.Data.List.Basic
import Mathlib.Data.List.Chain
import Mathlib.Data.List.TakeWhile

/-!
# Texts with quoted words

A text is cut into words by its blanks, which are part of a word where they are quoted. A word that is
not quoted ends at a quote, too, which begins the next one. `words` are the words of the rest of a
text, for a scan that has come to it in a `Mode`, and `stub` is the text up to the end of the first
word. Reading undoes quoting: the words of a text that is put together from words, each with quotes
around it if needed, are these words (`words_render`).
-/

namespace LibSrsBsns

/-- The characters that separate words and those that quote them. -/
structure Quoting (α : Type) where
  blank : α → Bool
  quote : α → Bool
  quote_of_blank : ∀ c, blank c = true → quote c = false

namespace Quoting

theorem blank_of_quote {α : Type} {g : Quoting α} {c : α} (h : g.quote c = true) :
    g.blank c = false := by
  by_contra hb
  rw [g.quote_of_blank c (by simpa using hb)] at h
  cases h

/-- Where a scan of a text is: between words, in a word without quotes, or in a word in quotes. -/
inductive Mode (α : Type)
  | blank
  | bare
  | quoted (q : α)

variable {α : Type}

section Scan

variable [DecidableEq α] (g : Quoting α)

/-- The mode behind a character. -/
def next : Mode α → α → Mode α
  | .blank, c => if g.quote c then .quoted c else if g.blank c then .blank else .bare
  | .bare, c => if g.quote c then .quoted c else if g.blank c then .blank else .bare
  | .quoted q, c => if c = q then .blank else .quoted q

/-- The character ends the word that the scan is in. -/
def ends : Mode α → α → Bool
  | .blank, _ => false
  | .bare, c => g.quote c || g.blank c
  | .quoted q, c => c = q

/-- A word begins with the character. -/
def starts : Mode α → α → Bool
  | .blank, c => !g.blank c
  | .bare, c => g.quote c
  | .quoted _, _ => false

/-- The rest of the text up to the character that ends the word that the scan is in, or else the
first word. -/
def stub (m : Mode α) : List α → List α
  | [] => []
  | c :: cs => if g.ends m c then [] else c :: stub (g.next m c) cs

/-- The words that begin in the rest of the text. -/
def words (m : Mode α) : List α → List (List α)
  | [] => []
  | c :: cs =>
    let word := if g.quote c then g.stub (g.next m c) cs else c :: g.stub (g.next m c) cs
    if g.starts m c then word :: words (g.next m c) cs else words (g.next m c) cs

end Scan

/-- The character is part of words without quotes. -/
def Plain (g : Quoting α) (c : α) : Prop := g.quote c = false ∧ g.blank c = false

instance (g : Quoting α) (c : α) : Decidable (g.Plain c) :=
  inferInstanceAs (Decidable (g.quote c = false ∧ g.blank c = false))

/-- What ends a word without quotes: the end of the text, a blank or a quote. -/
def Boundary (g : Quoting α) (cs : List α) : Prop :=
  ∀ c ∈ cs.head?, g.quote c = true ∨ g.blank c = true

section

variable [DecidableEq α] {g : Quoting α} {m : Mode α} {c q : α} {cs ws : List α}

@[simp] theorem stub_nil : g.stub m [] = [] := rfl

@[simp] theorem words_nil : g.words m [] = [] := rfl

/-! ### One character -/

theorem stub_of_ends (h : g.ends m c = true) : g.stub m (c :: cs) = [] := by rw [stub, if_pos h]

theorem stub_of_not_ends (h : g.ends m c = false) :
    g.stub m (c :: cs) = c :: g.stub (g.next m c) cs := by
  rw [stub, if_neg (by simp [h])]

theorem words_of_not_starts (h : g.starts m c = false) :
    g.words m (c :: cs) = g.words (g.next m c) cs := by
  rw [words]
  simp only [h, Bool.false_eq_true, if_false]

theorem words_blank_plain (h : g.Plain c) :
    g.words .blank (c :: cs) = (c :: g.stub .bare cs) :: g.words .bare cs := by
  simp [words, starts, next, h.1, h.2]

theorem words_blank_quote (h : g.quote q = true) :
    g.words .blank (q :: cs) = g.stub (.quoted q) cs :: g.words (.quoted q) cs := by
  simp [words, starts, next, h, blank_of_quote h]

/-! ### Parts of words -/

/-- Blanks between words are skipped. -/
theorem words_blanks (h : ∀ c ∈ ws, g.blank c = true) (cs : List α) :
    g.words .blank (ws ++ cs) = g.words .blank cs := by
  induction ws with
  | nil => rfl
  | cons c ws ih =>
    have hc := h c List.mem_cons_self
    have hnext : g.next .blank c = .blank := by simp [next, hc, g.quote_of_blank c hc]
    rw [List.cons_append, words_of_not_starts (by simp [starts, hc]), hnext]
    exact ih fun d hd => h d (List.mem_cons_of_mem c hd)

/-- Plain characters continue a word without quotes. -/
theorem bare_plain (h : ∀ c ∈ ws, g.Plain c) (cs : List α) :
    g.stub .bare (ws ++ cs) = ws ++ g.stub .bare cs ∧
      g.words .bare (ws ++ cs) = g.words .bare cs := by
  induction ws with
  | nil => exact ⟨rfl, rfl⟩
  | cons c ws ih =>
    obtain ⟨hq, hb⟩ := h c List.mem_cons_self
    obtain ⟨hstub, hwords⟩ := ih fun d hd => h d (List.mem_cons_of_mem c hd)
    have hnext : g.next .bare c = .bare := by simp [next, hq, hb]
    rw [List.cons_append, stub_of_not_ends (by simp [ends, hq, hb]),
      words_of_not_starts (m := .bare) hq, hnext, hstub, hwords]
    exact ⟨rfl, rfl⟩

theorem bare_boundary (h : g.Boundary cs) :
    g.stub .bare cs = [] ∧ g.words .bare cs = g.words .blank cs := by
  cases cs with
  | nil => exact ⟨rfl, rfl⟩
  | cons c cs =>
    refine ⟨stub_of_ends (by simpa [ends] using h c rfl), ?_⟩
    rcases h c rfl with hq | hb
    · simp [words, starts, next, hq, blank_of_quote hq]
    · simp [words, starts, next, hb, g.quote_of_blank c hb]

/-- A word without quotes. -/
theorem words_bare (hne : ws ≠ []) (hws : ∀ c ∈ ws, g.Plain c) (hcs : g.Boundary cs) :
    g.words .blank (ws ++ cs) = ws :: g.words .blank cs := by
  obtain ⟨c, ws, rfl⟩ := List.exists_cons_of_ne_nil hne
  obtain ⟨hstub, hwords⟩ := bare_plain (fun d hd => hws d (List.mem_cons_of_mem c hd)) cs
  obtain ⟨hend, hrest⟩ := bare_boundary hcs
  rw [List.cons_append, words_blank_plain (hws c List.mem_cons_self), hstub, hwords, hend, hrest,
    List.append_nil]

/-- Other characters than the quote continue a word in quotes. -/
theorem quoted_inside (h : q ∉ ws) (cs : List α) :
    g.stub (.quoted q) (ws ++ cs) = ws ++ g.stub (.quoted q) cs ∧
      g.words (.quoted q) (ws ++ cs) = g.words (.quoted q) cs := by
  induction ws with
  | nil => exact ⟨rfl, rfl⟩
  | cons c ws ih =>
    rw [List.mem_cons, not_or] at h
    obtain ⟨hstub, hwords⟩ := ih h.2
    have hc : c ≠ q := Ne.symm h.1
    have hnext : g.next (.quoted q) c = .quoted q := if_neg hc
    rw [List.cons_append, stub_of_not_ends (by simp [ends, hc]), words_of_not_starts rfl, hnext,
      hstub, hwords]
    exact ⟨rfl, rfl⟩

theorem quoted_end (g : Quoting α) (q : α) (cs : List α) :
    g.stub (.quoted q) (q :: cs) = [] ∧ g.words (.quoted q) (q :: cs) = g.words .blank cs := by
  have hnext : g.next (.quoted q) q = .blank := if_pos rfl
  rw [words_of_not_starts rfl, hnext]
  exact ⟨stub_of_ends (by simp [ends]), rfl⟩

/-- A word in quotes. -/
theorem words_quoted (hq : g.quote q = true) (hws : q ∉ ws) :
    g.words .blank (q :: (ws ++ q :: cs)) = ws :: g.words .blank cs := by
  obtain ⟨hstub, hwords⟩ := quoted_inside (g := g) hws (q :: cs)
  obtain ⟨hend, hrest⟩ := quoted_end g q cs
  rw [words_blank_quote hq, hstub, hwords, hend, hrest, List.append_nil]

end

/-! ## Writing words -/

/-- A word as it is written: without quotes or between two of them, with the blanks behind it. -/
structure Piece (g : Quoting α) where
  word : List α
  mark : Option α
  sep : List α
  bare : mark = none → word ≠ [] ∧ ∀ c ∈ word, g.Plain c
  quoted : ∀ q ∈ mark, g.quote q = true ∧ q ∉ word
  blank : ∀ c ∈ sep, g.blank c = true

namespace Piece

variable {g : Quoting α}

/-- The text of the word itself. -/
def body (p : Piece g) : List α :=
  match p.mark with
  | none => p.word
  | some q => q :: (p.word ++ [q])

def text (p : Piece g) : List α := p.body ++ p.sep

/-- Behind the first piece the second one can follow: there is a blank between them or a quote. -/
def Separate (p p' : Piece g) : Prop := p.sep ≠ [] ∨ p.mark.isSome ∨ p'.mark.isSome

instance (p p' : Piece g) : Decidable (p.Separate p') :=
  inferInstanceAs (Decidable (p.sep ≠ [] ∨ p.mark.isSome ∨ p'.mark.isSome))

end Piece

/-- The text of the pieces, with blanks in front of it. -/
def render {g : Quoting α} (lead : List α) (ps : List (Piece g)) : List α :=
  lead ++ ps.flatMap Piece.text

section

variable {g : Quoting α} {p : Piece g} {ps : List (Piece g)} {cs lead : List α}

theorem Piece.boundary_of_mark (h : p.mark.isSome) : g.Boundary (p.text ++ cs) := by
  obtain ⟨q, hq⟩ := Option.isSome_iff_exists.1 h
  intro c hc
  simp only [Piece.text, Piece.body, hq, List.cons_append, List.head?_cons, Option.mem_some_iff] at hc
  exact .inl (hc ▸ (p.quoted q hq).1)

/-- Without quotes, a piece is followed by a boundary. -/
theorem Piece.boundary (h : (p :: ps).IsChain Piece.Separate) (hmark : p.mark = none) :
    g.Boundary (p.sep ++ ps.flatMap Piece.text) := by
  cases hsep : p.sep with
  | cons c sep =>
    intro d hd
    obtain rfl : c = d := by simpa using hd
    exact .inr (p.blank c (by simp [hsep]))
  | nil =>
    cases ps with
    | nil => exact fun c hc => (by cases hc)
    | cons p' ps =>
      rw [List.isChain_cons_cons] at h
      have hquoted : p'.mark.isSome := by simpa [Piece.Separate, hsep, hmark] using h.1
      exact p'.boundary_of_mark hquoted

variable [DecidableEq α]

/-- A piece is read as its word. -/
theorem words_piece (h : (p :: ps).IsChain Piece.Separate) :
    g.words .blank (p.text ++ ps.flatMap Piece.text) =
      p.word :: g.words .blank (ps.flatMap Piece.text) := by
  rw [Piece.text, List.append_assoc, Piece.body]
  cases hmark : p.mark with
  | none =>
    obtain ⟨hne, hplain⟩ := p.bare hmark
    rw [words_bare hne hplain (Piece.boundary h hmark), words_blanks p.blank]
  | some q =>
    obtain ⟨hq, hword⟩ := p.quoted q hmark
    rw [List.cons_append, List.append_assoc, List.singleton_append, words_quoted hq hword,
      words_blanks p.blank]

/-- **Reading undoes quoting.** The words of a text that is put together from pieces are theirs. -/
theorem words_render (hlead : ∀ c ∈ lead, g.blank c = true) (h : ps.IsChain Piece.Separate) :
    g.words .blank (render lead ps) = ps.map Piece.word := by
  rw [render, words_blanks hlead]
  induction ps with
  | nil => rfl
  | cons p ps ih =>
    rw [List.flatMap_cons, words_piece h, ih h.tail, List.map_cons]

end

/-! ## Texts with one word -/

/-- The text has at most one word, without quotes, in quotes, or behind a quote that is not closed. -/
inductive AtMostOne (g : Quoting α) : List α → Prop
  | bare {lead word trail : List α} (hlead : ∀ c ∈ lead, g.blank c = true)
      (hword : ∀ c ∈ word, g.Plain c) (htrail : ∀ c ∈ trail, g.blank c = true) :
      AtMostOne g (lead ++ (word ++ trail))
  | quoted {lead word trail : List α} {q : α} (hlead : ∀ c ∈ lead, g.blank c = true)
      (hq : g.quote q = true) (hword : q ∉ word) (htrail : ∀ c ∈ trail, g.blank c = true) :
      AtMostOne g (lead ++ q :: (word ++ q :: trail))
  | unclosed {lead word : List α} {q : α} (hlead : ∀ c ∈ lead, g.blank c = true)
      (hq : g.quote q = true) (hword : q ∉ word) : AtMostOne g (lead ++ q :: word)

section

variable [DecidableEq α] {g : Quoting α} {m : Mode α} {cs ws : List α}

/-- Nothing but blanks has no words. -/
theorem words_eq_nil_iff : g.words .blank cs = [] ↔ ∀ c ∈ cs, g.blank c = true := by
  constructor
  · intro h
    induction cs with
    | nil => exact fun c hc => (by cases hc)
    | cons c cs ih =>
      cases hq : g.quote c with
      | true =>
        rw [words_blank_quote hq] at h
        cases h
      | false =>
        cases hb : g.blank c with
        | false =>
          rw [words_blank_plain ⟨hq, hb⟩] at h
          cases h
        | true =>
          have hblank : ∀ d ∈ [c], g.blank d = true := by simpa using hb
          rw [← List.singleton_append, words_blanks hblank] at h
          exact List.forall_mem_cons.2 ⟨hb, ih h⟩
  · intro h
    have hwords := words_blanks (g := g) h []
    rwa [List.append_nil, words_nil] at hwords

/-- The stub of a word is that word. -/
theorem stub_stub (h : m ≠ .blank) (cs : List α) :
    g.stub m (g.stub m cs) = g.stub m cs ∧ g.words m (g.stub m cs) = [] := by
  induction cs with
  | nil => exact ⟨rfl, rfl⟩
  | cons c cs ih =>
    cases hends : g.ends m c with
    | true =>
      rw [stub_of_ends hends]
      exact ⟨rfl, rfl⟩
    | false =>
      have hsame : g.next m c = m ∧ g.starts m c = false := by
        cases m with
        | blank => exact absurd rfl h
        | bare =>
          rw [ends, Bool.or_eq_false_iff] at hends
          simp [next, starts, hends]
        | quoted q => exact ⟨if_neg (by simpa [ends] using hends), rfl⟩
      rw [stub_of_not_ends hends, hsame.1, stub_of_not_ends hends, words_of_not_starts hsame.2,
        hsame.1, ih.1, ih.2]
      exact ⟨rfl, rfl⟩

/-- The stub of a text has its first word only. -/
theorem words_stub (cs : List α) :
    g.words .blank (g.stub .blank cs) = (g.words .blank cs).take 1 := by
  induction cs with
  | nil => rfl
  | cons c cs ih =>
    rw [stub_of_not_ends rfl]
    cases hq : g.quote c with
    | true =>
      have hnext : g.next .blank c = .quoted c := if_pos hq
      obtain ⟨hstub, hwords⟩ := stub_stub (g := g) (m := .quoted c) (by simp) cs
      rw [hnext, words_blank_quote hq, words_blank_quote hq, hstub, hwords]
      rfl
    | false =>
      cases hb : g.blank c with
      | false =>
        have hnext : g.next .blank c = .bare := by simp [next, hq, hb]
        obtain ⟨hstub, hwords⟩ := stub_stub (g := g) (m := .bare) (by simp) cs
        rw [hnext, words_blank_plain ⟨hq, hb⟩, words_blank_plain ⟨hq, hb⟩, hstub, hwords]
        rfl
      | true =>
        have hnext : g.next .blank c = .blank := by simp [next, hq, hb]
        have hstarts : g.starts .blank c = false := by simp [starts, hb]
        rw [words_of_not_starts hstarts, words_of_not_starts hstarts, hnext, ih]

/-- A text with at most one word has no other. -/
theorem AtMostOne.length_words_le (h : g.AtMostOne cs) : (g.words .blank cs).length ≤ 1 := by
  cases h with
  | @bare lead word trail hlead hword htrail =>
    rw [words_blanks hlead]
    have hboundary : g.Boundary trail := fun c hc => .inr (htrail c (List.mem_of_mem_head? hc))
    by_cases hne : word = []
    · rw [hne, List.nil_append, words_eq_nil_iff.2 htrail]
      exact Nat.zero_le 1
    · rw [words_bare hne hword hboundary, words_eq_nil_iff.2 htrail]
      exact le_rfl
  | quoted hlead hq hword htrail =>
    rw [words_blanks hlead, words_quoted hq hword, words_eq_nil_iff.2 htrail]
    exact le_rfl
  | @unclosed lead word q hlead hq hword =>
    have hwords := (quoted_inside (g := g) hword []).2
    rw [List.append_nil, words_nil] at hwords
    rw [words_blanks hlead, words_blank_quote hq, hwords]
    exact le_rfl

/-- One word in front leaves no other. -/
theorem blank_of_length_le {word : List α} (hwords : g.words .blank cs = word :: g.words .blank ws)
    (h : (g.words .blank cs).length ≤ 1) : ∀ c ∈ ws, g.blank c = true := by
  rw [hwords, List.length_cons] at h
  exact words_eq_nil_iff.1 (List.eq_nil_of_length_eq_zero (by omega))

/-- **Texts with at most one word.** -/
theorem length_words_le_one_iff : (g.words .blank cs).length ≤ 1 ↔ g.AtMostOne cs := by
  refine ⟨fun h => ?_, AtMostOne.length_words_le⟩
  have hlead : ∀ c ∈ cs.takeWhile g.blank, g.blank c = true := fun c hc => List.mem_takeWhile_imp hc
  have hcut : cs.takeWhile g.blank ++ cs.dropWhile g.blank = cs := List.takeWhile_append_dropWhile
  rw [← hcut, words_blanks hlead] at h
  rw [← hcut]
  cases hrest : cs.dropWhile g.blank with
  | nil =>
    have hnone : g.AtMostOne (cs.takeWhile g.blank ++ ([] ++ [])) :=
      .bare hlead (by simp) (by simp)
    exact hnone
  | cons c rest =>
    have hb : g.blank c = false := by
      have hne : cs.dropWhile g.blank ≠ [] := by simp [hrest]
      have hhead := List.head_dropWhile_not g.blank hne
      simpa [hrest] using hhead
    rw [hrest] at h
    cases hq : g.quote c with
    | true =>
      by_cases hclosed : c ∈ rest
      · obtain ⟨word, trail, rfl, hword⟩ := List.eq_append_cons_of_mem hclosed
        exact .quoted hlead hq hword (blank_of_length_le (words_quoted hq hword) h)
      · exact .unclosed hlead hq hclosed
    | false =>
      -- the word goes up to the first character that is not plain
      let plain : α → Bool := fun d => !(g.quote d || g.blank d)
      have hplain (d : α) : plain d = true ↔ g.Plain d := by simp [plain, Plain]
      have hword : ∀ d ∈ (c :: rest).takeWhile plain, g.Plain d :=
        fun d hd => (hplain d).1 (List.mem_takeWhile_imp hd)
      have hne : (c :: rest).takeWhile plain ≠ [] := by
        rw [List.takeWhile_cons, if_pos ((hplain c).2 ⟨hq, hb⟩)]
        exact List.cons_ne_nil c _
      have hboundary : g.Boundary ((c :: rest).dropWhile plain) := by
        intro d hd
        have hnot := List.head?_dropWhile_not plain (c :: rest)
        rw [Option.mem_def.1 hd] at hnot
        simpa [plain, or_iff_not_imp_left] using hnot
      have hcut' : (c :: rest).takeWhile plain ++ (c :: rest).dropWhile plain = c :: rest :=
        List.takeWhile_append_dropWhile
      have hwords := words_bare hne hword hboundary
      rw [hcut'] at hwords
      have hone := AtMostOne.bare hlead hword (blank_of_length_le hwords h)
      rwa [hcut'] at hone

end

end Quoting

end LibSrsBsns
