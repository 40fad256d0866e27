import LibSrsBsns.Log.Model
import LibSrsBsns.Foundations.Data.Settings

/-!
# The configuration of the log

What the value of `LIBSRSBSNS_DEBUG` denotes: a default level, and levels for single files. A token of
it is a number, a name with a number, or malformed (`LogWord`); `bsnslog_init` cuts the tokens out of
the text one by one (`logLoop_spec`) and uses each as it is meant (`LogLoop.useToken_spec`).
-/

namespace LibSrsBsns

open C Settings

/-! ## Tokens -/

/-- A decimal number that an `int` can hold. -/
structure Numeral where
  digits : List Char
  ne_nil : digits ≠ []
  isDigit : ∀ c ∈ digits, c.isDigit
  lt : Nat.ofDigitChars 10 digits 0 < 2 ^ 31

def Numeral.value (n : Numeral) : ℕ := Nat.ofDigitChars 10 n.digits 0

/-- Some character is not a digit: any in a text without `=`, or one behind the first `=`. -/
def Malformed (text : List Char) : Prop :=
  '=' ∉ text ∧ (∃ c ∈ text, c.isDigit = false) ∨
    '=' ∈ text ∧ ∃ c ∈ behind '=' text, c.isDigit = false

/-- A token by what it is meant for. -/
inductive LogWord
  | level (n : Numeral)
  | assign (name : List Char) (n : Numeral) (h : '=' ∉ name)
  | malformed (text : List Char) (h : Malformed text)

namespace LogWord

def text : LogWord → List Char
  | level n => n.digits
  | assign name n _ => name ++ '=' :: n.digits
  | malformed text _ => text

/-- The level that the token sets, and for which file: the default level, for none. -/
def setting : LogWord → Option (Option (List Char) × ℤ)
  | level n => some (none, n.value)
  | assign name n _ => some (some name, n.value)
  | malformed _ _ => none

end LogWord

/-- A token that fits into the arrays of `bsnslog_init`, without white space. -/
structure LogToken where
  word : LogWord
  short : word.text.length < 64
  black : ∀ c ∈ word.text, isSpace c = false

def LogToken.text (t : LogToken) : List Char := t.word.text

/-- The settings of tokens that each have spaces behind them. -/
def settings (ts : List (LogToken × ℕ)) : List (Option (List Char) × ℤ) :=
  ts.filterMap fun t => t.1.word.setting

/-- The last number without a name. -/
def defaultLevel (ts : List (LogToken × ℕ)) : ℤ := (latest (settings ts) none).getD logErr

/-- The last number for the name of the file. -/
def fileLevel (ts : List (LogToken × ℕ)) (file : List Char) : ℤ :=
  (latest (settings ts) (some file)).getD (defaultLevel ts)

theorem isdigitstr_eq_false {p : List Char} : isdigitstr p = false ↔ ∃ c ∈ p, c.isDigit = false := by
  simp [isdigitstr]

namespace Numeral

variable (n : Numeral)

theorem isdigitstr : LibSrsBsns.isdigitstr n.digits = true := List.all_eq_true.2 n.isDigit

theorem read : longToInt (strtol n.digits) = n.value := by
  have hlt := n.lt
  rw [strtol_of_digits n.isDigit (by omega)]
  exact sizeToInt_eq_iff.2 hlt

theorem notMem {c : Char} (hc : c.isDigit = false) : c ∉ n.digits := by
  intro hmem
  rw [n.isDigit c hmem] at hc
  cases hc

end Numeral

/-! ## The use of a token -/

namespace LogLoop

variable {l : LogLoop} {ss : List (Option (List Char) × ℤ)}

/-- The levels are the ones of the settings. -/
structure Reads (l : LogLoop) (ss : List (Option (List Char) × ℤ)) : Prop where
  lvl : l.lvl = (latest ss none).getD logErr
  lvlmap : l.lvlmap.Binds fun file => latest ss (some file)

theorem useToken_of_notMem {text : List Char} (htok : l.tok.Str 0 text) (heq : '=' ∉ text)
    (mem : LogMem) : l.useToken mem =
      .ok (if isdigitstr text then { l with lvl := longToInt (strtol text) } else l) := by
  rw [useToken, Buffer.strchr_of_notMem htok heq (by decide), ok_bind]
  simp only [Buffer.text_spec htok, ok_bind]
  split <;> rfl

/-- The three lengths that `bsnslog_init` computes are right for every token that fits. -/
theorem useToken_of_mem {name val : List Char} (htok : l.tok.Str 0 (name ++ '=' :: val))
    (hname : '=' ∉ name) (hshort : (name ++ '=' :: val).length < 64) (mem : LogMem) :
    l.useToken mem =
      if !isdigitstr val then .ok l
      else if !mem.level l.sp then .ok l
      else (do
        let lvlmap ← smapPut l.lvlmap (some name) (some (longToInt (strtol val))) (mem.key l.sp)
          (mem.val l.sp)
        .ok { l with lvlmap }) := by
  have hlen : name.length + val.length + 1 < 64 := by
    rw [List.length_append, List.length_cons] at hshort
    omega
  have heq : l.tok.strchr 0 '=' = .ok (some name.length) := by
    rw [Buffer.strchr_of_mem htok hname, Nat.zero_add]
  have hval : l.tok.Str (name.length + 1) val := by
    have hdrop := htok.drop
    rwa [Nat.zero_add] at hdrop
  have hvlen : l.tok.strlen name.length = .ok (val.length + 1) := by
    have hsuffix := htok.suffix
    rw [Nat.zero_add] at hsuffix
    rw [Buffer.strlen_spec hsuffix, List.length_cons]
  obtain ⟨nam, hnam, -, hnamStr⟩ := strNcpy_prefix (List.prefix_append name ('=' :: val))
    (show name.length + 1 ≤ (Buffer.malloc 64).size by rw [Buffer.size_malloc]; omega) htok.nul_notMem
  obtain ⟨val', hval', -, hvalStr⟩ := strNcpy_prefix (List.prefix_rfl (l := val))
    (show val.length + 1 ≤ (Buffer.malloc 64).size by rw [Buffer.size_malloc]; omega) hval.nul_notMem
  rw [useToken, heq, ok_bind]
  simp only [if_neg (show ¬ name.length + 1 > 64 by omega), hvlen, ok_bind,
    if_neg (show ¬ val.length + 1 > 64 by omega), Buffer.text_spec htok, hnam,
    Buffer.text_spec hval, hval', Buffer.text_spec hvalStr, Buffer.text_spec hnamStr]

theorem Reads.setLvl (h : l.Reads ss) (v : ℤ) :
    Reads { l with lvl := v } (ss ++ [(none, v)]) := by
  constructor
  · rw [latest_concat, Function.update_self, Option.getD_some]
  · convert h.lvlmap using 2 with file
    rw [latest_concat, Function.update_of_ne (Option.some_ne_none file)]

theorem Reads.put (h : l.Reads ss) (name : List Char) (v : ℤ) :
    Returns (smapPut l.lvlmap (some name) (some v) true true) fun lvlmap =>
      Reads { l with lvlmap } (ss ++ [(some name, v)]) := by
  apply (h.lvlmap.put name v).mono
  intro lvlmap hmap
  constructor
  · rw [latest_concat, Function.update_of_ne (Option.some_ne_none name).symm]
    exact h.lvl
  · convert hmap using 2 with file
    rw [latest_concat]
    by_cases hfile : file = name
    · rw [hfile, Function.update_self, Function.update_self]
    · rw [Function.update_of_ne hfile, Function.update_of_ne (by simpa using hfile)]

/-- A token is used as it is meant. -/
theorem useToken_spec {w : LogWord} (hshort : w.text.length < 64) (htok : l.tok.Str 0 w.text)
    (h : l.Reads ss) : Returns (l.useToken .ample) fun l' =>
      l'.sp = l.sp ∧ l'.tok = l.tok ∧ l'.Reads (ss ++ w.setting.toList) := by
  cases w with
  | level n =>
    change l.tok.Str 0 n.digits at htok
    rw [useToken_of_notMem htok (n.notMem rfl), if_pos n.isdigitstr, n.read]
    exact .ok ⟨rfl, rfl, h.setLvl n.value⟩
  | assign name n hname =>
    rw [useToken_of_mem htok hname hshort, n.isdigitstr, n.read]
    apply (h.put name n.value).bind
    intro lvlmap hmap
    exact .ok ⟨rfl, rfl, hmap⟩
  | malformed text hbad =>
    rw [LogWord.setting, Option.toList_none, List.append_nil]
    change l.tok.Str 0 text at htok
    rcases hbad with ⟨heq, hdigit⟩ | ⟨heq, hdigit⟩
    · rw [useToken_of_notMem htok heq, isdigitstr_eq_false.2 hdigit]
      exact .ok ⟨rfl, rfl, h⟩
    · have hsplit := before_append_behind heq
      change text.length < 64 at hshort
      rw [← hsplit] at htok hshort
      rw [useToken_of_mem htok (notMem_before '=' text) hshort, isdigitstr_eq_false.2 hdigit]
      exact .ok ⟨rfl, rfl, h⟩

end LogLoop

/-! ## The loop over the tokens -/

section

variable {v : Buffer Char} {sp : ℕ}

theorem skipSpaceLoop_spec {k n : ℕ} {cs : List Char} (hstr : v.Str sp (List.replicate k ' ' ++ cs))
    (hcs : ∀ c ∈ cs.head?, isSpace c = false) (hn : k < n) :
    skipSpaceLoop v n sp = .ok (sp + k) := by
  obtain ⟨n, rfl⟩ : ∃ m, n = m + 1 := ⟨n - 1, by omega⟩
  induction k generalizing sp n with
  | zero =>
    rw [skipSpaceLoop]
    apply loop_inr
    cases cs with
    | nil =>
      have hend : v.read sp = .ok nul := hstr.read_end
      rw [hend, ok_bind, if_neg (by decide)]
      rfl
    | cons c cs =>
      have hhead : v.read sp = .ok c := hstr.head
      rw [hhead, ok_bind, if_neg (by simp [hcs c rfl])]
      rfl
  | succ k ih =>
    obtain ⟨n, rfl⟩ : ∃ m, n = m + 1 := ⟨n - 1, by omega⟩
    rw [List.replicate_succ, List.cons_append] at hstr
    have hhead : v.read sp = .ok ' ' := hstr.head
    rw [skipSpaceLoop, loop_inl (t := sp + 1) (by rw [hhead, ok_bind, if_pos (by decide)]),
      ← skipSpaceLoop, ih hstr.tail n (by omega), Nat.add_assoc, Nat.add_comm 1 k]

theorem skipSpace_spec {k : ℕ} {cs : List Char} (hstr : v.Str sp (List.replicate k ' ' ++ cs))
    (hcs : ∀ c ∈ cs.head?, isSpace c = false) : skipSpace v sp = .ok (sp + k) := by
  have hlt := hstr.lt_size
  rw [List.length_append, List.length_replicate] at hlt
  exact skipSpaceLoop_spec hstr hcs (by omega)

/-- The end of a token is where a space or the end of the text is. -/
theorem tokenEnd_spec {w cs : List Char} (hstr : v.Str sp (w ++ cs)) (hw : ' ' ∉ w)
    (hcs : cs = [] ∨ ∃ rest, cs = ' ' :: rest) : tokenEnd v sp = .ok (sp + w.length) := by
  rcases hcs with rfl | ⟨rest, rfl⟩
  · rw [List.append_nil] at hstr
    rw [tokenEnd, Buffer.strchr_of_notMem hstr hw (by decide), ok_bind]
    simp only [Buffer.strlen_spec hstr, ok_bind]
  · rw [tokenEnd, Buffer.strchr_of_mem hstr hw, ok_bind]

theorem LogToken.text_ne_nil (t : LogToken) : t.text ≠ [] := by
  obtain ⟨word, _, _⟩ := t
  cases word with
  | level n => exact n.ne_nil
  | assign name n hname => exact List.append_ne_nil_of_right_ne_nil name (List.cons_ne_nil _ _)
  | malformed text hbad =>
    rintro rfl
    rcases hbad with ⟨-, c, hc, -⟩ | ⟨hmem, -⟩
    · cases hc
    · cases hmem

theorem LogToken.space_notMem (t : LogToken) : ' ' ∉ t.text := by
  intro hmem
  exact absurd (t.black ' ' hmem) (by decide)

theorem settings_concat (ts : List (LogToken × ℕ)) (t : LogToken) (gap : ℕ) :
    settings (ts ++ [(t, gap)]) = settings ts ++ t.word.setting.toList := by
  rw [settings, List.filterMap_append]
  cases h : t.word.setting <;> simp [settings, h]

/-- A token behind spaces is found from its first character to its end. -/
theorem LogToken.find_spec (t : LogToken) {lead : ℕ} {cs : List Char}
    (hstr : v.Str sp (List.replicate lead ' ' ++ (t.text ++ cs)))
    (hcs : cs = [] ∨ ∃ rest, cs = ' ' :: rest) :
    skipSpace v sp = .ok (sp + lead) ∧ v.Str (sp + lead) (t.text ++ cs) ∧
      (∃ c, v.read (sp + lead) = .ok c ∧ c ≠ nul) ∧
      tokenEnd v (sp + lead) = .ok (sp + lead + t.text.length) := by
  obtain ⟨c, text, htext⟩ := List.exists_cons_of_ne_nil t.text_ne_nil
  have hmem : c ∈ t.text := by simp [htext]
  have hblack : isSpace c = false := t.black c hmem
  have htok := hstr.suffix
  rw [List.length_replicate] at htok
  refine ⟨skipSpace_spec hstr (by simpa [htext] using hblack), htok, ⟨c, ?_, ?_⟩,
    tokenEnd_spec htok t.space_notMem hcs⟩
  · rw [htext] at htok
    exact htok.head
  · rintro rfl
    exact htok.nul_notMem (List.mem_append_left _ hmem)

end

/-- Some of the tokens have been used, and the others make up the text that is left. -/
def LogLoop.At (v : Buffer Char) (ts : List (LogToken × ℕ)) (l : LogLoop) : Prop :=
  ∃ done lead rest, ts = done ++ rest ∧ Apart rest ∧
    v.Str l.sp (render ' ' LogToken.text lead rest) ∧ l.tok.size = 64 ∧ l.Reads (settings done)

/-- The loop uses the tokens of the text one after the other. -/
theorem logLoop_spec {v : Buffer Char} {ts : List (LogToken × ℕ)} {l : LogLoop} {n : ℕ}
    (hl : l.At v ts) (hn : v.size - l.sp < n) :
    Returns (logLoop .ample v n l) (·.Reads (settings ts)) := by
  refine Returns.loop (LogLoop.At v ts) (fun l => v.size - l.sp) _ ?_ hl hn
  rintro l ⟨done, lead, rest, rfl, hapart, hstr, hsize, hreads⟩
  cases rest with
  | nil =>
    rw [render, ← List.append_nil (List.replicate lead ' ')] at hstr
    have hend : v.read (l.sp + lead) = .ok nul := by simpa using hstr.read_end
    rw [skipSpace_spec hstr (by simp), ok_bind, hend, ok_bind, if_pos rfl, List.append_nil]
    exact .ok ⟨hreads.lvl, hreads.lvlmap⟩
  | cons t rest =>
    obtain ⟨t, gap⟩ := t
    rw [render] at hstr
    obtain ⟨hskip, htok, ⟨c, hhead, hc⟩, hend⟩ :=
      t.find_spec hstr (hapart.behind.imp And.left id)
    have hshort : t.text.length < 64 := t.short
    obtain ⟨tok, hcopy, htsize, htstr⟩ := strNcpy_prefix (List.prefix_append t.text _)
      (show t.text.length + 1 ≤ l.tok.size by omega) htok.nul_notMem
    have hlen : l.sp + lead + t.text.length - (l.sp + lead) + 1 = t.text.length + 1 := by omega
    rw [hskip, ok_bind, hhead, ok_bind, if_neg hc, hend, ok_bind, hlen,
      if_neg (show ¬ t.text.length + 1 > 64 by omega), Buffer.text_spec htok, ok_bind, hcopy, ok_bind]
    have huse := LogLoop.useToken_spec (l := { l with sp := l.sp + lead + t.text.length, tok })
      hshort htstr ⟨hreads.lvl, hreads.lvlmap⟩
    apply huse.bind
    intro l' ⟨hsp, htok', hreads'⟩
    have hrest := htok.suffix
    rw [← settings_concat _ t gap] at hreads'
    rw [hsp]
    rcases hapart.behind with ⟨htail, rfl⟩ | ⟨tail, htail⟩
    · rw [htail] at hrest
      have hnul : v.read (l.sp + lead + t.text.length) = .ok nul := hrest.read_end
      rw [hnul, ok_bind, if_pos rfl]
      exact .ok hreads'
    · have hspace : v.read (l.sp + lead + t.text.length) = .ok ' ' := by
        rw [htail] at hrest
        exact hrest.head
      rw [hspace, ok_bind, if_neg (by decide)]
      refine .ok ⟨⟨done ++ [(t, gap)], gap, rest, by simp, hapart.tail, ?_, ?_, hreads'⟩, ?_⟩
      · rw [hsp]
        exact hrest
      · rw [htok']
        exact htsize.trans hsize
      · have hlt := hrest.lt_size
        have hpos := List.length_pos_of_ne_nil t.text_ne_nil
        show v.size - l'.sp < v.size - l.sp
        rw [hsp]
        show v.size - (l.sp + lead + t.text.length) < v.size - l.sp
        omega

/-! ## The thresholds -/

theorem defaultLevel_nonneg (ts : List (LogToken × ℕ)) : 0 ≤ defaultLevel ts := by
  unfold defaultLevel
  cases h : latest (settings ts) none with
  | none => decide
  | some v =>
    obtain ⟨t, -, ht⟩ := List.mem_filterMap.1 (mem_of_latest h)
    cases hword : t.1.word with
    | level n =>
      rw [hword] at ht
      obtain rfl : (n.value : ℤ) = v := congrArg Prod.snd (Option.some.inj ht)
      exact Int.natCast_nonneg _
    | assign name n hname =>
      rw [hword] at ht
      cases ht
    | malformed text hbad =>
      rw [hword] at ht
      cases ht

namespace Bsnslog

/-- The log has the levels that the tokens denote: they are the thresholds, and a message above the
one of its file is not written. -/
structure Configured (s : Bsnslog) (ts : List (LogToken × ℕ)) : Prop where
  lvl : s.sLvl = defaultLevel ts
  thr : ∀ file, s.thr file = .ok (fileLevel ts file)
  log : ∀ env mem lvl file, bsnslogLog env mem s lvl file =
    .ok (if lvl > fileLevel ts file then none
      else some (if s.sStderr then .stderr else .syslog), s)

variable {s : Bsnslog} {ts : List (LogToken × ℕ)} {lvlmap : Smap ℤ}

theorem configured (hlvl : s.sLvl = defaultLevel ts) (hmap : s.sLvlmap = some lvlmap)
    (hbinds : lvlmap.Binds fun file => latest (settings ts) (some file)) : s.Configured ts := by
  have hthr (file : List Char) : s.thr file = .ok (fileLevel ts file) := by
    simp only [Bsnslog.thr, hmap, hbinds.get, ok_bind, hlvl]
    rfl
  refine ⟨hlvl, hthr, fun env mem lvl file => ?_⟩
  have hinit : s.sLvl ≠ -1 := by
    have := defaultLevel_nonneg ts
    omega
  rw [bsnslogLog, if_neg hinit, ok_bind]
  simp only [hthr, ok_bind]
  split <;> rfl

end Bsnslog

section

variable (s : Bsnslog) (b : Bool)

@[simp] theorem bsnslogSetfancy_sLvl : (bsnslogSetfancy s b).sLvl = s.sLvl := by
  unfold bsnslogSetfancy
  split <;> rfl

@[simp] theorem bsnslogSetfancy_sLvlmap : (bsnslogSetfancy s b).sLvlmap = s.sLvlmap := by
  unfold bsnslogSetfancy
  split <;> rfl

end

theorem bsnslogInit_configured {env : LogEnv} {v : Buffer Char} (henv : env.debug = some v) {lead : ℕ}
    {ts : List (LogToken × ℕ)} (hstr : v.Str 0 (render ' ' LogToken.text lead ts)) (hapart : Apart ts)
    (s : Bsnslog) : Returns (bsnslogInit env .ample s) (·.Configured ts) := by
  obtain ⟨lvlmap, hmap, hempty⟩ := Smap.init_spec (V := ℤ) (show 1 ≤ 16 by decide)
  have hstart : LogLoop.At v ts ⟨0, .malloc 64, logErr, lvlmap⟩ :=
    ⟨[], lead, ts, rfl, hapart, hstr, rfl, rfl, hempty⟩
  obtain ⟨l, hloop, hreads⟩ := logLoop_spec (n := v.size + 1) hstart (Nat.lt_succ_self v.size)
  have hmem : (!LogMem.ample.map) = false := rfl
  simp only [bsnslogInit, hmem, Bool.false_eq_true, if_false, hmap, ok_bind, henv, hloop]
  have hset (s' : Bsnslog) (b : Bool) (hlvl : s'.sLvl = l.lvl) (hlvlmap : s'.sLvlmap = some l.lvlmap) :
      (bsnslogSetfancy s' b).Configured ts := by
    apply Bsnslog.configured _ _ hreads.lvlmap
    · rw [bsnslogSetfancy_sLvl, hlvl, hreads.lvl]
      rfl
    · rw [bsnslogSetfancy_sLvlmap, hlvlmap]
  split
  all_goals
    apply Returns.ok
    apply hset
    · split <;> rfl
    · split <;> rfl

/-- **The log reads its configuration as it is meant.** For every text of tokens with spaces between
them, `bsnslog_init` makes the last plain number the default threshold and the last number with the
name of a file the threshold of that file; a malformed token changes nothing. A log that has not been
set up is set up before its first message. -/
theorem bsnslog_init_denotes {env : LogEnv} {v : Buffer Char} (henv : env.debug = some v) {lead : ℕ}
    {ts : List (LogToken × ℕ)} (hstr : v.Str 0 (render ' ' LogToken.text lead ts)) (hapart : Apart ts)
    (s : Bsnslog) : Returns (bsnslogInit env .ample s) fun s' => s'.Configured ts ∧
      (s.sLvl = -1 → ∀ lvl file,
        bsnslogLog env .ample s lvl file = bsnslogLog env .ample s' lvl file) := by
  obtain ⟨s', hinit, hconf⟩ := bsnslogInit_configured henv hstr hapart s
  refine ⟨s', hinit, hconf, fun hs lvl file => ?_⟩
  have hnonneg := defaultLevel_nonneg ts
  rw [bsnslogLog, if_pos hs, hinit, ok_bind, bsnslogLog,
    if_neg (show s'.sLvl ≠ -1 by rw [hconf.lvl]; omega), ok_bind]

/-- The token `a=5`. -/
def assignFive : LogToken where
  word := .assign ['a']
    ⟨['5'], List.cons_ne_nil _ _, List.forall_mem_singleton.2 rfl, by decide⟩ (by decide)
  short := by decide
  black := List.forall_mem_cons.2 ⟨rfl, List.forall_mem_cons.2 ⟨rfl, List.forall_mem_singleton.2 rfl⟩⟩

/-- The malformed token `x`. -/
def malformedX : LogToken where
  word := .malformed ['x'] (.inl ⟨by decide, 'x', List.mem_singleton_self _, rfl⟩)
  short := by decide
  black := List.forall_mem_singleton.2 rfl

/-- The environment with the text ` a=5  x`. -/
def fiveEnv : LogEnv where
  debug := some (stringBuffer (render ' ' LogToken.text 1 [(assignFive, 2), (malformedX, 0)]))
  target := none
  fancy := none

theorem bsnslog_init_denotes_five : Returns (bsnslogInit fiveEnv .ample .start) fun s' =>
    s'.Configured [(assignFive, 2), (malformedX, 0)] :=
  (bsnslog_init_denotes rfl ⟨holds_stringBuffer _, by decide⟩
    (List.isChain_pair.2 (show 0 < 2 by decide)) .start).mono fun _ h => h.1

end LibSrsBsns
