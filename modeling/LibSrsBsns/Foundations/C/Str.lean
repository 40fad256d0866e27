import LibSrsBsns.Foundations.C.Buffer
import Mathlib.Data.List.TakeWhile

/-!
# Strings in arrays

A string is an array of characters up to the first null character. `b.Str i cs` says that the string
that starts at the index `i` of the array `b` has the characters `cs`; the functions of the C library
on strings are specified by it. A text is the list of the characters of a string. `before c` and
`behind c` are the parts of a text on either side of the first `c`.
-/

namespace LibSrsBsns.C

/-- The character that ends a string. -/
def nul : Char := Char.ofNat 0

/-! ## Texts -/

/-- The text before the first `c`: all of it, if there is none. -/
def before (c : Char) (cs : List Char) : List Char := cs.takeWhile (· != c)

/-- The text behind the first `c`: nothing, if there is none. -/
def behind (c : Char) (cs : List Char) : List Char := (cs.dropWhile (· != c)).tail

section Texts

variable {c : Char} {cs xs : List Char}

theorem before_cons_of_ne {x : Char} (h : x ≠ c) : before c (x :: cs) = x :: before c cs := by
  rw [before, List.takeWhile_cons, if_pos (by simpa using h)]
  rfl

theorem behind_cons_of_ne {x : Char} (h : x ≠ c) : behind c (x :: cs) = behind c cs := by
  rw [behind, List.dropWhile_cons, if_pos (by simpa using h)]
  rfl

@[simp] theorem before_cons_self : before c (c :: cs) = [] := by simp [before]

@[simp] theorem behind_cons_self : behind c (c :: cs) = cs := by simp [behind]

theorem before_append (h : c ∉ xs) : before c (xs ++ cs) = xs ++ before c cs := by
  induction xs with
  | nil => rfl
  | cons x xs ih =>
    rw [List.mem_cons, not_or] at h
    rw [List.cons_append, before_cons_of_ne (Ne.symm h.1), ih h.2, List.cons_append]

theorem behind_append (h : c ∉ xs) : behind c (xs ++ cs) = behind c cs := by
  induction xs with
  | nil => rfl
  | cons x xs ih =>
    rw [List.mem_cons, not_or] at h
    rw [List.cons_append, behind_cons_of_ne (Ne.symm h.1), ih h.2]

theorem before_of_notMem (h : c ∉ cs) : before c cs = cs := by
  have happ : before c (cs ++ []) = cs ++ before c [] := before_append h
  simpa [before] using happ

theorem behind_of_notMem (h : c ∉ cs) : behind c cs = [] := by
  have happ : behind c (cs ++ []) = behind c [] := behind_append h
  simpa [behind] using happ

/-- A text with a `c` is what is before the first one, that `c`, and what is behind it. -/
theorem before_append_behind (h : c ∈ cs) : before c cs ++ c :: behind c cs = cs := by
  induction cs with
  | nil => cases h
  | cons x cs ih =>
    by_cases hx : x = c
    · rw [hx, before_cons_self, behind_cons_self, List.nil_append]
    · rw [before_cons_of_ne hx, behind_cons_of_ne hx, List.cons_append,
        ih ((List.mem_cons.1 h).resolve_left (Ne.symm hx))]

theorem before_concat (c : Char) (xs : List Char) : before c (xs ++ [c]) = before c xs := by
  induction xs with
  | nil => exact before_cons_self
  | cons x xs ih =>
    by_cases hx : x = c
    · rw [hx, List.cons_append, before_cons_self, before_cons_self]
    · rw [List.cons_append, before_cons_of_ne hx, before_cons_of_ne hx, ih]

theorem notMem_before (c : Char) (cs : List Char) : c ∉ before c cs := by
  intro hmem
  exact absurd (List.mem_takeWhile_imp hmem) (by simp)

theorem behind_take_cons_self {n : ℕ} : behind c ((c :: cs).take n) = cs.take (n - 1) := by
  cases n with
  | zero => rfl
  | succ n => rw [List.take_succ_cons, behind_cons_self, Nat.add_sub_cancel]

end Texts

namespace Buffer

/-! ## Functions of the C library -/

/-- The first index from an index on with the character `c` or with the end of the string. -/
def scanLoop (b : Buffer Char) (c : Char) : ℕ → ℕ → Exec ℕ :=
  loop fun j => do
    let x ← b.read j
    if x = c ∨ x = nul then .ok (.inr j) else .ok (.inl (j + 1))

def scan (b : Buffer Char) (c : Char) (i : ℕ) : Exec ℕ := b.scanLoop c (b.size + 1) i

/-- `strlen` of the string at index `i`. -/
def strlen (b : Buffer Char) (i : ℕ) : Exec ℕ := do
  let j ← b.scan nul i
  .ok (j - i)

/-- `strchr` on the string at index `i`. -/
def strchr (b : Buffer Char) (i : ℕ) (c : Char) : Exec (Option ℕ) := do
  let j ← b.scan c i
  let x ← b.read j
  .ok (if x = c then some j else none)

/-- The text of the string at index `i`. -/
def text (b : Buffer Char) (i : ℕ) : Exec (List Char) := do
  let n ← b.strlen i
  b.copyOut i n

/-- `strncpy` of the text `src` to the start of the array: `n` characters are written, null characters
where the text has no more. -/
def strncpy (b : Buffer Char) (src : List Char) (n : ℕ) : Exec (Buffer Char) :=
  forRange (fun i b => b.write i (src.getD i nul)) 0 n b

/-! ## Strings -/

/-- The string at index `i` has the characters `cs`. -/
structure Str (b : Buffer Char) (i : ℕ) (cs : List Char) : Prop where
  holds : b.Holds i (cs ++ [nul])
  nul_notMem : nul ∉ cs

variable {b : Buffer Char} {c : Char} {cs xs ys : List Char} {i n : ℕ}

theorem Str.holds_text (h : b.Str i cs) : b.Holds i cs := (holds_append.1 h.holds).1

/-- What is stored with a null character behind it is a string up to its first null character. -/
theorem str_before (h : b.Holds i (xs ++ [nul])) : b.Str i (before nul xs) := by
  have hsplit := before_append_behind (show nul ∈ xs ++ [nul] by simp)
  rw [← hsplit, List.append_cons, holds_append, before_concat] at h
  exact ⟨h.1, notMem_before nul xs⟩

theorem Str.lt_size (h : b.Str i cs) : i + cs.length < b.size := by
  have hle := h.holds.le
  rw [List.length_append, List.length_singleton] at hle
  omega

theorem Str.head (h : b.Str i (c :: cs)) : b.read i = .ok c :=
  h.holds.read (i := 0) (Nat.succ_pos _)

theorem Str.tail (h : b.Str i (c :: cs)) : b.Str (i + 1) cs :=
  ⟨(holds_cons.1 h.holds).2, fun hmem => h.nul_notMem (List.mem_cons_of_mem c hmem)⟩

theorem Str.read_end (h : b.Str i cs) : b.read (i + cs.length) = .ok nul := by
  simpa using h.holds.read (i := cs.length) (by simp)

theorem Str.read (h : b.Str i (xs ++ c :: ys)) : b.read (i + xs.length) = .ok c := by
  simpa using h.holds_text.read (i := xs.length) (by simp)

/-- The end of a string, from one of its characters on. -/
theorem Str.suffix (h : b.Str i (xs ++ ys)) : b.Str (i + xs.length) ys := by
  refine ⟨?_, fun hmem => h.nul_notMem (List.mem_append_right xs hmem)⟩
  have hholds := h.holds
  rw [List.append_assoc, holds_append] at hholds
  exact hholds.2

/-- The string behind one of the characters. -/
theorem Str.drop (h : b.Str i (xs ++ c :: ys)) : b.Str (i + xs.length + 1) ys := h.suffix.tail

theorem scanLoop_spec (c : Char) (h : b.Str i cs) (hn : cs.length < n) :
    b.scanLoop c n i = .ok (i + (before c cs).length) := by
  induction cs generalizing i n with
  | nil =>
    obtain ⟨n, rfl⟩ : ∃ k, n = k + 1 := ⟨n - 1, by omega⟩
    have hend : b.read i = .ok nul := h.read_end
    rw [scanLoop, loop_inr (b := i) (by rw [hend, ok_bind, if_pos (.inr rfl)])]
    rfl
  | cons x cs ih =>
    obtain ⟨n, rfl⟩ : ∃ k, n = k + 1 := ⟨n - 1, by omega⟩
    have hx : b.read i = .ok x := h.head
    have hnul : x ≠ nul := fun he => h.nul_notMem (he ▸ List.mem_cons_self)
    by_cases hc : x = c
    · rw [scanLoop, loop_inr (b := i) (by rw [hx, ok_bind, if_pos (.inl hc)]), hc, before_cons_self]
      rfl
    · rw [scanLoop, loop_inl (t := i + 1) (by rw [hx, ok_bind, if_neg (not_or.2 ⟨hc, hnul⟩)]),
        ← scanLoop, ih h.tail (by simpa using hn), before_cons_of_ne hc, List.length_cons,
        Nat.add_right_comm, Nat.add_assoc]

theorem scan_spec (h : b.Str i cs) (c : Char) : b.scan c i = .ok (i + (before c cs).length) := by
  have hlt := h.lt_size
  exact scanLoop_spec c h (by omega)

/-- `strlen` returns the length of the text. -/
theorem strlen_spec (h : b.Str i cs) : b.strlen i = .ok cs.length := by
  rw [strlen, scan_spec h, ok_bind, before_of_notMem h.nul_notMem, Nat.add_sub_cancel_left]

theorem text_spec (h : b.Str i cs) : b.text i = .ok cs := by
  rw [text, strlen_spec h, ok_bind, h.holds_text.copyOut]

theorem Str.unique (h : b.Str i xs) (h' : b.Str i ys) : xs = ys :=
  Except.ok.inj ((text_spec h).symm.trans (text_spec h'))

/-- `strchr` finds the first `c`. -/
theorem strchr_of_mem (h : b.Str i (xs ++ c :: ys)) (hc : c ∉ xs) :
    b.strchr i c = .ok (some (i + xs.length)) := by
  rw [strchr, scan_spec h, ok_bind, before_append hc, before_cons_self, List.append_nil, h.read,
    ok_bind, if_pos rfl]

theorem strchr_of_notMem (h : b.Str i cs) (hc : c ∉ cs) (hne : c ≠ nul) :
    b.strchr i c = .ok none := by
  rw [strchr, scan_spec h, ok_bind, before_of_notMem hc, h.read_end, ok_bind, if_neg hne.symm]

/-- Ending a string at one of its characters leaves the text before it, and the one behind it as a
string of its own. -/
theorem Str.cut (h : b.Str i (xs ++ c :: ys)) : Returns (b.write (i + xs.length) nul) fun b' =>
    b.Filled (i + xs.length) [nul] b' ∧ b'.Str i xs ∧ b'.Str (i + xs.length + 1) ys := by
  have hlt := h.lt_size
  have hmem := h.nul_notMem
  rw [List.mem_append, List.mem_cons, not_or, not_or] at hmem
  rw [List.length_append, List.length_cons] at hlt
  obtain ⟨b', hok, -, hb'⟩ := h.holds.write (i := xs.length) (by simp) nul
  have hset : (xs ++ c :: ys ++ [nul]).set xs.length nul = xs ++ [nul] ++ (ys ++ [nul]) := by simp
  rw [hset, holds_append, List.length_append, List.length_singleton, ← Nat.add_assoc] at hb'
  have hfilled := (write_spec nul (by omega)).of_eq_ok hok
  exact ⟨b', hok, hfilled, ⟨hb'.1, hmem.1⟩, ⟨hb'.2, hmem.2.2⟩⟩

/-- A string is not affected by what happens behind it. -/
theorem Str.congr {b' : Buffer Char} (h : b.Str i cs) (hsize : b'.size = b.size)
    (hcell : ∀ j ≤ i + cs.length, b'.cell j = b.cell j) : b'.Str i cs := by
  refine ⟨h.holds.congr hsize fun j _ hj => hcell j ?_, h.nul_notMem⟩
  rw [List.length_append, List.length_singleton] at hj
  omega

/-- A null character makes an empty string. -/
theorem str_nil (h : i < b.size) : Returns (b.write i nul) (Str · i []) := by
  apply (write_spec nul h).mono
  intro b' hb'
  exact ⟨hb'.holds, List.not_mem_nil⟩

theorem strncpy_spec (src : List Char) (hn : n ≤ b.size) : Returns (b.strncpy src n) fun b' =>
    b'.size = b.size ∧ ∀ i < n, b'.cell i = some (src.getD i nul) := by
  refine (Returns.forRange (fun k (b' : Buffer Char) =>
    b'.size = b.size ∧ ∀ i < k, b'.cell i = some (src.getD i nul)) (fun k b₁ _ hk hb₁ => ?_)
    ⟨rfl, fun i hi => absurd hi (Nat.not_lt_zero i)⟩).mono fun b' hb' => by rwa [Nat.zero_add] at hb'
  apply (write_spec (src.getD k nul) (by omega)).mono
  intro b₂ hb₂
  refine ⟨hb₂.size.trans hb₁.1, fun i hi => ?_⟩
  by_cases hik : i = k
  · exact hik ▸ hb₂.cell_self
  · exact (hb₂.cell_of_ne hik).trans (hb₁.2 i (by omega))

end Buffer

/-! ## Numbers -/

/-- `isspace`. -/
def isSpace (c : Char) : Bool := c = ' ' ∨ 9 ≤ c.toNat ∧ c.toNat ≤ 13

/-- `strtoul` to the base 10, where `unsigned long` has 64 bits. -/
def strtoul (cs : List Char) : ℕ :=
  let cs := cs.dropWhile isSpace
  let negative := cs.head? = some '-'
  let cs := if negative ∨ cs.head? = some '+' then cs.tail else cs
  let v := Nat.ofDigitChars 10 (cs.takeWhile Char.isDigit) 0
  if 2 ^ 64 ≤ v then 2 ^ 64 - 1 else if negative then sizeSub 0 v else v

/-- `strtol` to the base 10, where `long` has 64 bits. -/
def strtol (cs : List Char) : ℤ :=
  let cs := cs.dropWhile isSpace
  let negative := cs.head? = some '-'
  let cs := if negative ∨ cs.head? = some '+' then cs.tail else cs
  let v := Nat.ofDigitChars 10 (cs.takeWhile Char.isDigit) 0
  if negative then max (-v) (-2 ^ 63) else min v (2 ^ 63 - 1)

/-- A text of digits is read from its start to its end. -/
theorem read_digits {ds : List Char} (hds : ∀ c ∈ ds, c.isDigit) :
    ds.dropWhile isSpace = ds ∧ ds.head? ≠ some '-' ∧ ds.head? ≠ some '+' ∧
      ds.takeWhile Char.isDigit = ds := by
  refine ⟨?_, fun hhead => ?_, fun hhead => ?_, List.takeWhile_eq_self_iff.2 hds⟩
  · cases ds with
    | nil => rfl
    | cons d ds =>
      have hd : d.isDigit := hds d List.mem_cons_self
      have hle : 48 ≤ d.toNat := by
        simp only [Char.isDigit, Bool.and_eq_true, decide_eq_true_eq] at hd
        exact hd.1
      have hblank : d ≠ ' ' := by
        rintro rfl
        cases hd
      have hspace : isSpace d = false := by
        simp only [isSpace, hblank, false_or, decide_eq_false_iff_not]
        omega
      rw [List.dropWhile_cons, if_neg (by simp [hspace])]
  · cases hds '-' (List.mem_of_mem_head? hhead)
  · cases hds '+' (List.mem_of_mem_head? hhead)

/-- `strtoul` reads a number that is written in decimal. -/
theorem strtoul_toDigits {n : ℕ} (hn : n < 2 ^ 64) : strtoul (Nat.toDigits 10 n) = n := by
  have hdigit (c : Char) (hc : c ∈ Nat.toDigits 10 n) : c.isDigit :=
    Nat.isDigit_of_mem_toDigits (by decide) le_rfl hc
  obtain ⟨hdrop, hminus, hplus, htake⟩ := read_digits hdigit
  simp only [strtoul, hdrop, hminus, hplus, or_self, if_false, htake, Nat.ofDigitChars_ten_toDigits]
  exact if_neg (by omega)

/-- `strtol` reads the digits of a number. -/
theorem strtol_of_digits {ds : List Char} (hds : ∀ c ∈ ds, c.isDigit)
    (hlt : Nat.ofDigitChars 10 ds 0 < 2 ^ 63) : strtol ds = Nat.ofDigitChars 10 ds 0 := by
  obtain ⟨hdrop, hminus, hplus, htake⟩ := read_digits hds
  simp only [strtol, hdrop, hminus, hplus, or_self, if_false, htake]
  exact Int.min_eq_left (by omega)

end LibSrsBsns.C
