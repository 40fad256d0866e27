import Mathlib.Tactic.Common
import Mathlib.Algebra.Order.Ring.Int

/-!
# Executions of C code

A call of a C function is modelled by a value of `Exec α`: the value returned, or the `Fault` by
which the execution leaves what the language defines (or leaves the process). `Returns x P` is the
total correctness judgement: the execution `x` ends without a fault and its value satisfies `P`.
The rules below are the ones proofs use: sequencing (`Returns.bind`), consequence
(`Returns.mono`), and the rule for loops with an invariant and a variant (`Returns.loop`). Where an
execution may fault, `Ends x P E` says how it can end.
-/

namespace LibSrsBsns.C

variable {α β σ : Type}

/-- The ways in which an execution leaves the defined behaviour of a C program. -/
inductive Fault
  /-- A null pointer is dereferenced. -/
  | nullDeref
  /-- Memory that has been freed is used. -/
  | dangling
  /-- An array is indexed outside its bounds. -/
  | outOfBounds
  /-- An object is read that was never written. -/
  | indeterminate
  /-- A signed shift leaves the range of its type. -/
  | badShift
  /-- A number is divided by zero. -/
  | divByZero
  /-- The process calls `exit`. -/
  | exit (status : ℕ)
  /-- A loop used up all the turns its model grants it. -/
  | spin
  deriving DecidableEq, Repr

/-- An execution: the value returned or the fault that ended it. -/
abbrev Exec (α : Type) := Except Fault α

/-- The execution `x` returns, with a value that satisfies `P`. -/
def Returns (x : Exec α) (P : α → Prop) : Prop := ∃ a, x = .ok a ∧ P a

@[simp] theorem pure_eq_ok (a : α) : (pure a : Exec α) = .ok a := rfl

@[simp] theorem ok_bind (a : α) (f : α → Exec β) : (Except.ok a >>= f) = f a := rfl

@[simp] theorem error_bind (e : Fault) (f : α → Exec β) :
    ((Except.error e : Exec α) >>= f) = .error e := rfl

theorem bind_eq_ok {x : Exec α} {f : α → Exec β} {b : β} :
    (x >>= f) = .ok b ↔ ∃ a, x = .ok a ∧ f a = .ok b := by
  cases x <;> simp

/-- Two executions that go on alike, up to what is made of the value in the end. -/
theorem map_bind_congr {γ : Type} {x : Exec α} {f : α → Exec β} {g : α → Exec γ} {k : β → γ}
    (h : ∀ a, (f a).map k = g a) : (x >>= f).map k = x >>= g := by
  cases x with
  | ok a => exact h a
  | error e => rfl

@[simp] theorem returns_ok {a : α} {P : α → Prop} : Returns (.ok a) P ↔ P a := by
  simp [Returns]

@[simp] theorem not_returns_error {e : Fault} {P : α → Prop} : ¬ Returns (.error e) P := by
  simp [Returns]

namespace Returns

theorem ok {a : α} {P : α → Prop} (h : P a) : Returns (.ok a) P := ⟨a, rfl, h⟩

theorem mono {x : Exec α} {P Q : α → Prop} (hx : Returns x P) (h : ∀ a, P a → Q a) :
    Returns x Q := by
  obtain ⟨a, rfl, ha⟩ := hx
  exact ⟨a, rfl, h a ha⟩

theorem bind {x : Exec α} {P : α → Prop} {f : α → Exec β} {Q : β → Prop} (hx : Returns x P)
    (hf : ∀ a, P a → Returns (f a) Q) : Returns (x >>= f) Q := by
  obtain ⟨a, rfl, ha⟩ := hx
  exact hf a ha

/-- The value of an execution that returns satisfies what it is known to return. -/
theorem of_eq_ok {x : Exec α} {P : α → Prop} (hx : Returns x P) {a : α} (h : x = .ok a) : P a := by
  obtain ⟨a', h', ha⟩ := hx
  obtain rfl := Except.ok.inj (h.symm.trans h')
  exact ha

theorem and {x : Exec α} {P Q : α → Prop} (hP : Returns x P) (hQ : Returns x Q) :
    Returns x fun a => P a ∧ Q a := by
  obtain ⟨a, rfl, ha⟩ := hP
  exact ⟨a, rfl, ha, hQ.of_eq_ok rfl⟩

theorem ite {c : Prop} [Decidable c] {x y : Exec α} {P : α → Prop} (hx : c → Returns x P)
    (hy : ¬ c → Returns y P) : Returns (if c then x else y) P := by
  split
  case isTrue h => exact hx h
  case isFalse h => exact hy h

end Returns

/-- The execution `x` returns with a value that satisfies `P`, or ends with a fault that satisfies
`E`. -/
def Ends (x : Exec α) (P : α → Prop) (E : Fault → Prop) : Prop :=
  match x with
  | .ok a => P a
  | .error e => E e

namespace Ends

variable {P : α → Prop} {E : Fault → Prop} {x : Exec α}

theorem trivial (x : Exec α) : Ends x (fun _ => True) fun _ => True := by
  cases x <;> exact True.intro

theorem mono {Q : α → Prop} (hx : Ends x P E) (h : ∀ a, P a → Q a) : Ends x Q E := by
  cases x with
  | ok a => exact h a hx
  | error e => exact hx

theorem bind {f : α → Exec β} {Q : β → Prop} (hx : Ends x P E)
    (hf : ∀ a, P a → Ends (f a) Q E) : Ends (x >>= f) Q E := by
  cases x with
  | ok a => exact hf a hx
  | error e => exact hx

theorem fault_mono {F : Fault → Prop} (hx : Ends x P E) (h : ∀ e, E e → F e) : Ends x P F := by
  cases x with
  | ok a => exact hx
  | error e => exact h e hx

theorem and {Q : α → Prop} {F : Fault → Prop} (hP : Ends x P E) (hQ : Ends x Q F) :
    Ends x (fun a => P a ∧ Q a) fun e => E e ∧ F e := by
  cases x with
  | ok a => exact ⟨hP, hQ⟩
  | error e => exact ⟨hP, hQ⟩

theorem ite {c : Prop} [Decidable c] {y : Exec α} (hx : c → Ends x P E) (hy : ¬ c → Ends y P E) :
    Ends (if c then x else y) P E := by
  split
  case isTrue h => exact hx h
  case isFalse h => exact hy h

end Ends

theorem Returns.ends {x : Exec α} {P : α → Prop} (hx : Returns x P) (E : Fault → Prop) :
    Ends x P E := by
  obtain ⟨a, rfl, ha⟩ := hx
  exact ha

/-- An execution that can end with no fault returns. -/
theorem Ends.returns {x : Exec α} {P : α → Prop} {E : Fault → Prop} (hx : Ends x P E)
    (hE : ∀ e, ¬ E e) : Returns x P := by
  cases x with
  | ok a => exact .ok hx
  | error e => exact absurd hx (hE e)

/-! ## Loops -/

/-- At most `n` turns of the loop with the given body. The body either goes round again with a new
state (`.inl`) or leaves the loop with a result (`.inr`). -/
def loop (body : σ → Exec (σ ⊕ β)) : ℕ → σ → Exec β
  | 0, _ => .error .spin
  | n + 1, s => do
    match ← body s with
    | .inl s' => loop body n s'
    | .inr b => .ok b

theorem loop_inl {body : σ → Exec (σ ⊕ β)} {s t : σ} (h : body s = .ok (.inl t)) (n : ℕ) :
    loop body (n + 1) s = loop body n t := by
  rw [loop, h]; rfl

theorem loop_inr {body : σ → Exec (σ ⊕ β)} {s : σ} {b : β} (h : body s = .ok (.inr b)) (n : ℕ) :
    loop body (n + 1) s = .ok b := by
  rw [loop, h]; rfl

/-- **The rule for loops.** Along with the state goes a ghost state that the program does not have.
The body keeps the invariant `I` of the two and decreases the variant `v` on every turn it goes
round, and establishes `Q` when it leaves: then the loop returns with `Q`, unless the body faults. -/
theorem Ends.loop {γ : Type} {body : σ → Exec (σ ⊕ β)} (I : γ → σ → Prop) (v : γ → ℕ) (Q : β → Prop)
    (E : Fault → Prop)
    (hbody : ∀ g s, I g s → Ends (body s) (fun
      | .inl s' => ∃ g', I g' s' ∧ v g' < v g
      | .inr b => Q b) E)
    {n : ℕ} {g : γ} {s : σ} (hI : I g s) (hn : v g < n) : Ends (C.loop body n s) Q E := by
  induction n generalizing g s with
  | zero => omega
  | succ n ih =>
    rw [C.loop]
    apply (hbody g s hI).bind
    intro r hr
    cases r with
    | inl s' =>
      obtain ⟨g', hI', hlt⟩ := hr
      exact ih hI' (by omega)
    | inr b => exact hr

/-- The rule for loops that cannot fault, with a ghost state. -/
theorem Returns.loop_ghost {γ : Type} {body : σ → Exec (σ ⊕ β)} (I : γ → σ → Prop) (v : γ → ℕ)
    (Q : β → Prop)
    (hbody : ∀ g s, I g s → Returns (body s) fun
      | .inl s' => ∃ g', I g' s' ∧ v g' < v g
      | .inr b => Q b)
    {n : ℕ} {g : γ} {s : σ} (hI : I g s) (hn : v g < n) : Returns (C.loop body n s) Q :=
  (Ends.loop I v Q (fun _ => False) (fun g s h => (hbody g s h).ends _) hI hn).returns fun _ => id

/-- The rule for loops whose invariant and variant are about the state alone. -/
theorem Returns.loop {body : σ → Exec (σ ⊕ β)} (I : σ → Prop) (v : σ → ℕ) (Q : β → Prop)
    (hbody : ∀ s, I s → Returns (body s) fun
      | .inl s' => I s' ∧ v s' < v s
      | .inr b => Q b)
    {n : ℕ} {s : σ} (hI : I s) (hn : v s < n) : Returns (C.loop body n s) Q := by
  apply Returns.loop_ghost (fun g s => g = s ∧ I s) v Q _ ⟨rfl, hI⟩ hn
  rintro g s ⟨rfl, hI⟩
  apply (hbody g hI).mono
  rintro (s' | b) h
  · exact ⟨s', ⟨rfl, h.1⟩, h.2⟩
  · exact h

/-- The rule for a loop that is left, if it is, with what its turns keep. -/
theorem Ends.loop_partial {body : σ → Exec (σ ⊕ β)} (I : σ → Prop) (Q : β → Prop)
    (hbody : ∀ s, I s → Ends (body s) (fun
      | .inl s' => I s'
      | .inr b => Q b) fun _ => True)
    {n : ℕ} {s : σ} (hI : I s) : Ends (C.loop body n s) Q fun _ => True := by
  induction n generalizing s with
  | zero => trivial
  | succ n ih =>
    rw [C.loop]
    apply (hbody s hI).bind
    intro r hr
    cases r with
    | inl s' => exact ih hr
    | inr b => exact hr

/-- The first `n` turns of a loop that may have more: the state it is in after them, or the result it
was left with. -/
def loopFor (body : σ → Exec (σ ⊕ β)) : ℕ → σ → Exec (σ ⊕ β)
  | 0, s => .ok (.inl s)
  | n + 1, s => do
    match ← body s with
    | .inl s' => loopFor body n s'
    | .inr b => .ok (.inr b)

/-- The rule for the first turns of a loop. -/
theorem Returns.loopFor {body : σ → Exec (σ ⊕ β)} (I : σ → Prop) (Q : β → Prop)
    (hbody : ∀ s, I s → Returns (body s) (Sum.elim I Q)) (n : ℕ) {s : σ} (hI : I s) :
    Returns (C.loopFor body n s) (Sum.elim I Q) := by
  induction n generalizing s with
  | zero => exact .ok hI
  | succ n ih =>
    rw [C.loopFor]
    apply (hbody s hI).bind
    intro r hr
    cases r with
    | inl s' => exact ih hr
    | inr b => exact .ok hr

/-- The same rule, for an invariant that knows how many turns there were. -/
theorem Returns.loopFor_turns {body : σ → Exec (σ ⊕ β)} (I : ℕ → σ → Prop) (Q : β → Prop) {a n : ℕ}
    (hbody : ∀ i s, i < a + n → I i s → Returns (body s) (Sum.elim (I (i + 1)) Q)) {s : σ}
    (hI : I a s) : Returns (C.loopFor body n s) (Sum.elim (I (a + n)) Q) := by
  induction n generalizing a s with
  | zero => exact .ok hI
  | succ n ih =>
    rw [C.loopFor]
    apply (hbody a s (by omega) hI).bind
    intro r hr
    cases r with
    | inl s' =>
      rw [show a + (n + 1) = a + 1 + n by omega]
      exact ih (fun i s hi => hbody i s (by omega)) hr
    | inr b => exact .ok hr

/-- A loop that has been left stays left. -/
theorem loopFor_mono {body : σ → Exec (σ ⊕ β)} {n m : ℕ} (hnm : n ≤ m) {s : σ} {b : β}
    (h : loopFor body n s = .ok (.inr b)) : loopFor body m s = .ok (.inr b) := by
  induction n generalizing m s with
  | zero => cases h
  | succ n ih =>
    obtain ⟨m, rfl⟩ : ∃ k, m = k + 1 := ⟨m - 1, by omega⟩
    rw [loopFor] at h ⊢
    obtain ⟨r, hr, h⟩ := bind_eq_ok.1 h
    rw [hr, ok_bind]
    cases r with
    | inl s' => exact ih (by omega) h
    | inr b' => exact h

/-- The loop `for (i = a; n turns; i++)`, which carries a state. -/
def forRange (body : ℕ → σ → Exec σ) : ℕ → ℕ → σ → Exec σ
  | _, 0, s => .ok s
  | i, n + 1, s => do
    let s ← body i s
    forRange body (i + 1) n s

/-- **The rule for counting loops**: every turn takes the invariant from its index to the next,
unless it faults. -/
theorem Ends.forRange {body : ℕ → σ → Exec σ} (I : ℕ → σ → Prop) (E : Fault → Prop) {a n : ℕ}
    (hbody : ∀ i s, a ≤ i → i < a + n → I i s → Ends (body i s) (I (i + 1)) E) {s : σ}
    (hI : I a s) : Ends (C.forRange body a n s) (I (a + n)) E := by
  induction n generalizing a s with
  | zero => exact hI
  | succ n ih =>
    apply (hbody a s le_rfl (by omega) hI).bind
    intro s' hs'
    rw [show a + (n + 1) = a + 1 + n by omega]
    exact ih (fun i s hi hn hs => hbody i s (by omega) (by omega) hs) hs'

/-- The rule for counting loops that cannot fault. -/
theorem Returns.forRange {body : ℕ → σ → Exec σ} (I : ℕ → σ → Prop) {a n : ℕ}
    (hbody : ∀ i s, a ≤ i → i < a + n → I i s → Returns (body i s) (I (i + 1))) {s : σ}
    (hI : I a s) : Returns (C.forRange body a n s) (I (a + n)) :=
  (Ends.forRange I (fun _ => False) (fun i s hi hn hs => (hbody i s hi hn hs).ends _) hI).returns
    fun _ => id

end LibSrsBsns.C
