import LibSrsBsns.Foundations.C.Exec

/-!
# Runs of calls and their refinement

A module of a C library is a state with operations on it. `runs step s is` performs the calls `is`
one after the other from the state `s` and collects what they return. Two specifications of such a
module are used: a function `f` of abstract states, whose run is `runSpec f`, and a relation `A`
where the specification leaves a choice, whose runs are `Trace A`. A relation between concrete and
abstract states that every single call keeps is kept by every run (`Returns.runs` and
`Returns.runs_trace`, and `Ends.runs_trace` where calls may end with a fault).
-/

namespace LibSrsBsns.C

variable {σ τ ι ω : Type}

/-- The calls `is` in order, from the state `s`: the values returned and the state reached. -/
def runs (step : σ → ι → Exec (ω × σ)) : σ → List ι → Exec (List ω × σ)
  | s, [] => .ok ([], s)
  | s, i :: is => do
    let r ← step s i
    let rs ← runs step r.2 is
    .ok (r.1 :: rs.1, rs.2)

/-- The calls `is` in order, on an abstract state. -/
def runSpec (f : τ → ι → ω × τ) : τ → List ι → List ω × τ
  | t, [] => ([], t)
  | t, i :: is => ((f t i).1 :: (runSpec f (f t i).2 is).1, (runSpec f (f t i).2 is).2)

/-- Every one of the calls `is` meets its precondition in the abstract state it finds. -/
def Admissible (f : τ → ι → ω × τ) (pre : τ → ι → Prop) : τ → List ι → Prop
  | _, [] => True
  | t, i :: is => pre t i ∧ Admissible f pre (f t i).2 is

/-- Every state of the run of the calls `is` from the state `s` satisfies `P`, as far as calls
return; a call that does not return ends with a fault that satisfies `E`. -/
def Throughout (step : σ → ι → Exec (ω × σ)) (E : Fault → Prop) (P : σ → Prop) : σ → List ι → Prop
  | s, [] => P s
  | s, i :: is => P s ∧ Ends (step s i) (fun r => Throughout step E P r.2 is) E

/-- Every call of the run meets `pre` in the state it finds, as far as calls return. -/
def Meets (step : σ → ι → Exec (ω × σ)) (pre : σ → ι → Prop) : σ → List ι → Prop
  | _, [] => True
  | s, i :: is => pre s i ∧ Ends (step s i) (fun r => Meets step pre r.2 is) fun _ => True

/-- The run comes to a call that meets `P` in the state it finds: the calls before it return. -/
def RunsInto (step : σ → ι → Exec (ω × σ)) (P : σ → ι → Prop) (s : σ) (is : List ι) : Prop :=
  ∃ js i ks os s', is = js ++ i :: ks ∧ runs step s js = .ok (os, s') ∧ P s' i

/-- `Trace A t is os t'`: from `t`, the calls `is` can return `os` and reach `t'`, where a single
call does what `A` allows. -/
inductive Trace (A : τ → ι → ω → τ → Prop) : τ → List ι → List ω → τ → Prop
  | nil (t : τ) : Trace A t [] [] t
  | cons {t t' t'' : τ} {i : ι} {o : ω} {is : List ι} {os : List ω} :
      A t i o t' → Trace A t' is os t'' → Trace A t (i :: is) (o :: os) t''

@[simp] theorem runs_nil (step : σ → ι → Exec (ω × σ)) (s : σ) : runs step s [] = .ok ([], s) := rfl

@[simp] theorem runSpec_nil (f : τ → ι → ω × τ) (t : τ) : runSpec f t [] = ([], t) := rfl

theorem runSpec_cons (f : τ → ι → ω × τ) (t : τ) (i : ι) (is : List ι) :
    runSpec f t (i :: is) =
      ((f t i).1 :: (runSpec f (f t i).2 is).1, (runSpec f (f t i).2 is).2) := rfl

/-- The state after one call more. -/
theorem runSpec_concat_snd (f : τ → ι → ω × τ) (t : τ) (is : List ι) (i : ι) :
    (runSpec f t (is ++ [i])).2 = (f (runSpec f t is).2 i).2 := by
  induction is generalizing t with
  | nil => rfl
  | cons j is ih => simpa [runSpec_cons] using ih (f t j).2

theorem admissible_of_forall (f : τ → ι → ω × τ) {legal : ι → Prop} {is : List ι}
    (h : ∀ i ∈ is, legal i) (t : τ) : Admissible f (fun _ => legal) t is := by
  induction is generalizing t with
  | nil => trivial
  | cons i is ih => exact ⟨h i (by simp), ih (fun j hj => h j (by simp [hj])) _⟩

theorem admissible_append {f : τ → ι → ω × τ} {pre : τ → ι → Prop} {t : τ}
    {is js : List ι} (h : Admissible f pre t (is ++ js)) :
    Admissible f pre t is ∧ Admissible f pre (runSpec f t is).2 js := by
  induction is generalizing t with
  | nil => exact ⟨trivial, h⟩
  | cons i is ih =>
    obtain ⟨h₁, h₂⟩ := ih h.2
    exact ⟨⟨h.1, h₁⟩, h₂⟩

theorem runs_cons_eq_ok {step : σ → ι → Exec (ω × σ)} {s s' : σ} {i : ι} {is : List ι}
    {os : List ω} (h : runs step s (i :: is) = .ok (os, s')) :
    ∃ o s₁ os', step s i = .ok (o, s₁) ∧ runs step s₁ is = .ok (os', s') ∧ os = o :: os' := by
  obtain ⟨⟨o, s₁⟩, h₁, h⟩ := bind_eq_ok.1 h
  obtain ⟨⟨os', s₂⟩, h₂, h⟩ := bind_eq_ok.1 h
  obtain ⟨rfl, rfl⟩ := Prod.mk.inj (Except.ok.inj h)
  exact ⟨o, s₁, os', h₁, h₂, rfl⟩

theorem runs_cons_error {step : σ → ι → Exec (ω × σ)} {s : σ} {i : ι} {e : Fault}
    (h : step s i = .error e) (is : List ι) : runs step s (i :: is) = .error e := by
  rw [runs, h, error_bind]

/-- What a run returns whose first call returns `o`. -/
theorem runs_cons_fst {step : σ → ι → Exec (ω × σ)} {s s' : σ} {i : ι} {o : ω}
    (h : step s i = .ok (o, s')) (is : List ι) : (runs step s (i :: is)).map Prod.fst =
      ((runs step s' is).map Prod.fst).map (o :: ·) := by
  rw [runs, h, ok_bind]
  cases runs step s' is with
  | error e => rfl
  | ok rs => rfl

/-- Runs of calls that only pass their arguments and results on. -/
theorem runs_map {σ' ι' ω' : Type} {step : σ → ι → Exec (ω × σ)} {step' : σ' → ι' → Exec (ω' × σ')}
    (f : σ → σ') (g : ι' → ι) (k : ω → ω')
    (hstep : ∀ s i, step' (f s) i = (step s (g i)).map fun r => (k r.1, f r.2)) (s : σ)
    (is : List ι') :
    runs step' (f s) is = (runs step s (is.map g)).map fun r => (r.1.map k, f r.2) := by
  induction is generalizing s with
  | nil => rfl
  | cons i is ih =>
    rw [List.map_cons, runs, runs, hstep]
    cases step s (g i) with
    | error e => rfl
    | ok r =>
      simp only [Except.map, ok_bind, ih]
      cases runs step r.2 (is.map g) <;> rfl

/-- **The invariant rule**: what every call that returns keeps, every run that returns keeps. -/
theorem runs_invariant {step : σ → ι → Exec (ω × σ)} (I : σ → Prop)
    (hstep : ∀ s i o s', I s → step s i = .ok (o, s') → I s') {s s' : σ} {is : List ι}
    {os : List ω} (hs : I s) (h : runs step s is = .ok (os, s')) : I s' := by
  induction is generalizing s os with
  | nil =>
    obtain ⟨-, rfl⟩ := Prod.mk.inj (Except.ok.inj h)
    exact hs
  | cons i is ih =>
    obtain ⟨o, s₁, os', hi, his, -⟩ := runs_cons_eq_ok h
    exact ih (hstep s i o s₁ hs hi) his

theorem Throughout.head {step : σ → ι → Exec (ω × σ)} {E : Fault → Prop} {P : σ → Prop} {s : σ}
    {is : List ι} (h : Throughout step E P s is) : P s := by
  cases is with
  | nil => exact h
  | cons i is => exact h.1

/-- The state that a run reaches is one of those along it. -/
theorem Throughout.of_runs {step : σ → ι → Exec (ω × σ)} {E : Fault → Prop} {P : σ → Prop}
    {s s' : σ} {is : List ι} {os : List ω} (h : Throughout step E P s is)
    (hr : runs step s is = .ok (os, s')) : P s' := by
  induction is generalizing s os with
  | nil =>
    obtain ⟨-, rfl⟩ := Prod.mk.inj (Except.ok.inj hr)
    exact h
  | cons i is ih =>
    obtain ⟨o, s₁, os', hi, his, -⟩ := runs_cons_eq_ok hr
    have hrest := h.2
    rw [hi] at hrest
    exact ih hrest his

/-- A run ends in one of the states along it, or with one of the faults that are allowed. -/
theorem Throughout.ends {step : σ → ι → Exec (ω × σ)} {E : Fault → Prop} {P : σ → Prop} {s : σ}
    {is : List ι} (h : Throughout step E P s is) : Ends (runs step s is) (fun r => P r.2) E := by
  induction is generalizing s with
  | nil => exact h
  | cons i is ih =>
    apply h.2.bind
    intro r hr
    apply (ih hr).bind
    intro rs hrs
    exact hrs

/-- Where no fault is allowed, the run returns. -/
theorem Throughout.returns {step : σ → ι → Exec (ω × σ)} {P : σ → Prop} {s : σ} {is : List ι}
    (h : Throughout step (fun _ => False) P s is) : Returns (runs step s is) fun r => P r.2 :=
  h.ends.returns fun _ => id

theorem meets_of_forall {step : σ → ι → Exec (ω × σ)} {pre : σ → ι → Prop} (h : ∀ s i, pre s i)
    (s : σ) (is : List ι) : Meets step pre s is := by
  induction is generalizing s with
  | nil => trivial
  | cons i is ih =>
    refine ⟨h s i, ?_⟩
    cases step s i with
    | error e => trivial
    | ok r => exact ih r.2

/-- What the last call of a run meets. -/
theorem Meets.last {step : σ → ι → Exec (ω × σ)} {pre : σ → ι → Prop} {s s' : σ} (is : List ι)
    {i : ι} {os : List ω} (h : Meets step pre s (is ++ [i])) (hr : runs step s is = .ok (os, s')) :
    pre s' i := by
  induction is generalizing s os with
  | nil =>
    obtain ⟨-, rfl⟩ := Prod.mk.inj (Except.ok.inj hr)
    exact h.1
  | cons j is ih =>
    obtain ⟨o, s₁, os', hj, his, -⟩ := runs_cons_eq_ok hr
    have hrest := h.2
    rw [hj] at hrest
    exact ih hrest his

/-- **The invariant rule for the states of a run**: what every call that meets `pre` keeps, as far as
it returns, all states of a run whose calls meet `pre` satisfy. -/
theorem Throughout.of_meets {step : σ → ι → Exec (ω × σ)} {E : Fault → Prop} {P : σ → Prop}
    {pre : σ → ι → Prop} (I : σ → Prop) (hP : ∀ s, I s → P s)
    (hstep : ∀ s i, I s → pre s i → Ends (step s i) (fun r => I r.2) E) {s : σ} (hs : I s)
    {is : List ι} (h : Meets step pre s is) : Throughout step E P s is := by
  induction is generalizing s with
  | nil => exact hP s hs
  | cons i is ih =>
    obtain ⟨hi, his⟩ := h
    have hends := hstep s i hs hi
    refine ⟨hP s hs, ?_⟩
    cases hx : step s i with
    | error e => rwa [hx] at hends
    | ok r =>
      rw [hx] at hends his
      exact ih hends his

/-- A run returns whose calls meet what makes them return. -/
theorem Meets.returns {step : σ → ι → Exec (ω × σ)} {pre : σ → ι → Prop}
    (hstep : ∀ s i, pre s i → Returns (step s i) fun _ => True) {s : σ} {is : List ι}
    (h : Meets step pre s is) : Returns (runs step s is) fun _ => True := by
  have hall : Throughout step (fun _ => False) (fun _ => True) s is :=
    .of_meets (fun _ => True) (fun _ => id) (fun s i _ hi => (hstep s i hi).ends _) trivial h
  exact hall.returns

/-- The calls of a run meet what follows, in the states of the invariant, from what they meet. -/
theorem Meets.imp {step : σ → ι → Exec (ω × σ)} {pre post : σ → ι → Prop} (I : σ → Prop)
    (hstep : ∀ s i, I s → pre s i → post s i ∧ Ends (step s i) (fun r => I r.2) fun _ => True)
    {s : σ} (hs : I s) {is : List ι} (h : Meets step pre s is) : Meets step post s is := by
  induction is generalizing s with
  | nil => trivial
  | cons i is ih =>
    obtain ⟨hi, his⟩ := h
    obtain ⟨hpost, hends⟩ := hstep s i hs hi
    refine ⟨hpost, ?_⟩
    cases hx : step s i with
    | error e => trivial
    | ok r =>
      rw [hx] at hends his
      exact ih hends his

/-- The invariant rule where every call is legal. -/
theorem Throughout.of_invariant {step : σ → ι → Exec (ω × σ)} {E : Fault → Prop} {P : σ → Prop}
    (I : σ → Prop) (hP : ∀ s, I s → P s)
    (hstep : ∀ s i, I s → Ends (step s i) (fun r => I r.2) E) {s : σ} (hs : I s) (is : List ι) :
    Throughout step E P s is :=
  .of_meets I hP (fun s i hI (_ : True) => hstep s i hI) hs (meets_of_forall (fun _ _ => trivial) s is)

/-- **The rule for a property with an exact condition.** In the states that satisfy the invariant
`I` and the property `P`, a legal call that meets `pre`, and no other, reaches a state that satisfies
`P` or ends with a fault that `E` allows. Then a run of legal calls keeps `P` throughout if and only
if each of them meets `pre`. -/
theorem throughout_iff_meets_of_legal {step : σ → ι → Exec (ω × σ)} {E : Fault → Prop} {P : σ → Prop}
    {legal pre : σ → ι → Prop} (I : σ → Prop)
    (hstep : ∀ s i, legal s i → I s → P s →
      Ends (step s i) (fun r => I r.2 ∧ (P r.2 ↔ pre s i)) fun e => E e ↔ pre s i)
    {s : σ} (hI : I s) (hP : P s) {is : List ι} (hlegal : Meets step legal s is) :
    Throughout step E P s is ↔ Meets step pre s is := by
  induction is generalizing s with
  | nil => exact iff_of_true hP trivial
  | cons i is ih =>
    obtain ⟨hi, his⟩ := hlegal
    have hs := hstep s i hi hI hP
    unfold Throughout Meets
    cases hx : step s i with
    | error e =>
      rw [hx] at hs
      exact ⟨fun h => ⟨hs.1 h.2, trivial⟩, fun h => ⟨hP, hs.2 h.1⟩⟩
    | ok r =>
      rw [hx] at hs his
      obtain ⟨hI', hiff⟩ := hs
      constructor
      · intro ⟨_, h⟩
        exact ⟨hiff.1 h.head, (ih hI' h.head his).1 h⟩
      · intro ⟨hpre, h⟩
        exact ⟨hP, (ih hI' (hiff.2 hpre) his).2 h⟩

/-- The rule where every call is legal. -/
theorem throughout_iff_meets {step : σ → ι → Exec (ω × σ)} {E : Fault → Prop} {P : σ → Prop}
    {pre : σ → ι → Prop} (I : σ → Prop)
    (hstep : ∀ s i, I s → P s →
      Ends (step s i) (fun r => I r.2 ∧ (P r.2 ↔ pre s i)) fun e => E e ↔ pre s i)
    {s : σ} (hI : I s) (hP : P s) (is : List ι) :
    Throughout step E P s is ↔ Meets step pre s is :=
  throughout_iff_meets_of_legal I (fun s i (_ : True) => hstep s i) hI hP
    (meets_of_forall (fun _ _ => trivial) s is)

/-- Where a relational specification leaves no choice, its runs are those of the function. -/
theorem Trace.eq_runSpec {f : τ → ι → ω × τ} {t t' : τ} {is : List ι} {os : List ω}
    (h : Trace (fun t i o t' => o = (f t i).1 ∧ t' = (f t i).2) t is os t') :
    os = (runSpec f t is).1 ∧ t' = (runSpec f t is).2 := by
  induction h with
  | nil t => exact ⟨rfl, rfl⟩
  | cons hA _ ih =>
    obtain ⟨rfl, rfl⟩ := hA
    obtain ⟨rfl, rfl⟩ := ih
    exact ⟨rfl, rfl⟩

theorem RunsInto.head {step : σ → ι → Exec (ω × σ)} {P : σ → ι → Prop} {s : σ} {i : ι} (h : P s i)
    (is : List ι) : RunsInto step P s (i :: is) :=
  ⟨[], i, is, [], s, rfl, rfl, h⟩

theorem RunsInto.cons {step : σ → ι → Exec (ω × σ)} {P : σ → ι → Prop} {s : σ} {i : ι} {r : ω × σ}
    {is : List ι} (hi : step s i = .ok r) (h : RunsInto step P r.2 is) :
    RunsInto step P s (i :: is) := by
  obtain ⟨js, j, ks, os, s', rfl, hrun, hP⟩ := h
  refine ⟨i :: js, j, ks, r.1 :: os, s', rfl, ?_, hP⟩
  rw [runs, hi, ok_bind, hrun, ok_bind]

/-- **Where a run ends.** If calls keep `I`, and end with a fault only where they meet `P`, a run ends
with a fault only in a call that meets `P`. -/
theorem Ends.runs_into {step : σ → ι → Exec (ω × σ)} {I : σ → Prop} {E : Fault → Prop}
    {P : σ → ι → Prop}
    (hstep : ∀ s i, I s → Ends (step s i) (fun r => I r.2) fun e => E e ∧ P s i) {s : σ} (hs : I s)
    (is : List ι) :
    Ends (runs step s is) (fun r => I r.2) fun e => E e ∧ RunsInto step P s is := by
  induction is generalizing s with
  | nil => exact hs
  | cons i is ih =>
    have hi := hstep s i hs
    rw [runs]
    cases hx : step s i with
    | error e =>
      rw [hx] at hi
      exact ⟨hi.1, .head hi.2 is⟩
    | ok r =>
      rw [hx] at hi
      exact ((ih hi).fault_mono fun e he => ⟨he.1, he.2.cons hx⟩).bind fun rs hrs => hrs

/-- Two ways to perform the calls that return the same in the states of `I`, and keep it, make the same
runs. -/
theorem runs_agree {step step' : σ → ι → Exec (ω × σ)} (I : σ → Prop) (legal : ι → Prop)
    (hstep : ∀ s i, legal i → I s → Returns (step s i) fun r => step' s i = .ok r ∧ I r.2) {s : σ}
    (hs : I s) {is : List ι} (hl : ∀ i ∈ is, legal i) :
    Returns (runs step s is) fun r => runs step' s is = .ok r := by
  induction is generalizing s with
  | nil => exact .ok rfl
  | cons i is ih =>
    apply (hstep s i (hl i List.mem_cons_self) hs).bind
    rintro r ⟨hi, hr⟩
    apply (ih hr fun j hj => hl j (List.mem_cons_of_mem i hj)).bind
    intro rs hrs
    rw [runs, hi, ok_bind, hrs]
    exact .ok rfl

/-- **Refinement where calls may fault.** If every legal call from related states returns what `A`
allows and reaches related states, or ends with a fault that `E` allows, so does every run. -/
theorem Ends.runs_trace {step : σ → ι → Exec (ω × σ)} (A : τ → ι → ω → τ → Prop) (R : σ → τ → Prop)
    (E : ι → Fault → Prop) (legal : ι → Prop)
    (hstep : ∀ s t i, legal i → R s t →
      Ends (step s i) (fun r => ∃ t', A t i r.1 t' ∧ R r.2 t') (E i))
    {s : σ} {t : τ} (hR : R s t) {is : List ι} (hl : ∀ i ∈ is, legal i) :
    Ends (runs step s is) (fun r => ∃ t', Trace A t is r.1 t' ∧ R r.2 t')
      (fun e => ∃ i ∈ is, E i e) := by
  induction is generalizing s t with
  | nil => exact ⟨t, .nil t, hR⟩
  | cons i is ih =>
    apply ((hstep s t i (hl i (by simp)) hR).fault_mono fun e he => ⟨i, by simp, he⟩).bind
    rintro r ⟨t₁, hA, hR₁⟩
    have hrest := ih hR₁ fun j hj => hl j (by simp [hj])
    apply (hrest.fault_mono fun e ⟨j, hj, he⟩ => ⟨j, by simp [hj], he⟩).bind
    rintro rs ⟨t₂, hT, hR₂⟩
    exact ⟨t₂, .cons hA hT, hR₂⟩

/-- **Refinement of a functional specification where calls may fault.** Every call that meets its
precondition in a related state does what the specification says, or faults as `E` allows in that
state; so does every run of such calls. -/
theorem Ends.runs_of_admissible {step : σ → ι → Exec (ω × σ)} (f : τ → ι → ω × τ)
    (pre : τ → ι → Prop) (R : σ → τ → Prop) (E : τ → ι → Fault → Prop)
    (hstep : ∀ s t i, pre t i → R s t →
      Ends (step s i) (fun r => r.1 = (f t i).1 ∧ R r.2 (f t i).2) (E t i))
    {s : σ} {t : τ} (hR : R s t) {is : List ι} (hpre : Admissible f pre t is) :
    Ends (runs step s is) (fun r => r.1 = (runSpec f t is).1 ∧ R r.2 (runSpec f t is).2)
      fun e => ∃ js i ks, is = js ++ i :: ks ∧ E (runSpec f t js).2 i e := by
  induction is generalizing s t with
  | nil => exact ⟨rfl, hR⟩
  | cons i is ih =>
    apply ((hstep s t i hpre.1 hR).fault_mono fun e he => ⟨[], i, is, rfl, he⟩).bind
    intro r ⟨hout, hR₁⟩
    apply ((ih hR₁ hpre.2).fault_mono fun e ⟨js, j, ks, hsplit, he⟩ =>
      ⟨i :: js, j, ks, congrArg (i :: ·) hsplit, he⟩).bind
    intro rs ⟨houts, hR₂⟩
    exact ⟨by rw [runSpec_cons, hout, houts], hR₂⟩

namespace Returns

/-- **Refinement of a relational specification.** If every legal call from related states returns
what `A` allows and reaches related states, so does every run of legal calls. -/
theorem runs_trace {step : σ → ι → Exec (ω × σ)} (A : τ → ι → ω → τ → Prop) (R : σ → τ → Prop)
    (legal : ι → Prop)
    (hstep : ∀ s t i, legal i → R s t → Returns (step s i) fun r => ∃ t', A t i r.1 t' ∧ R r.2 t')
    {s : σ} {t : τ} (hR : R s t) {is : List ι} (hl : ∀ i ∈ is, legal i) :
    Returns (runs step s is) fun r => ∃ t', Trace A t is r.1 t' ∧ R r.2 t' := by
  induction is generalizing s t with
  | nil => exact ok ⟨t, .nil t, hR⟩
  | cons i is ih =>
    refine (hstep s t i (hl i (by simp)) hR).bind fun r hr => ?_
    obtain ⟨t₁, hA, hR₁⟩ := hr
    refine (ih hR₁ fun j hj => hl j (by simp [hj])).bind fun rs hrs => ?_
    obtain ⟨t₂, hT, hR₂⟩ := hrs
    exact ok ⟨t₂, .cons hA hT, hR₂⟩

/-- **The rule for a state that the calls determine**: along with the concrete state goes an abstract
one, which every call takes on by `next`, and in which it meets its precondition. -/
theorem runs_foldl {step : σ → ι → Exec (ω × σ)} (next : τ → ι → τ) (pre : τ → ι → Prop)
    (R : σ → τ → Prop)
    (hstep : ∀ s t i, pre t i → R s t → Returns (step s i) fun r => R r.2 (next t i))
    {s : σ} {t : τ} (hR : R s t) {is : List ι}
    (hpre : Admissible (fun t i => ((), next t i)) pre t is) :
    Returns (C.runs step s is) fun r => R r.2 (is.foldl next t) := by
  induction is generalizing s t with
  | nil => exact ok hR
  | cons i is ih =>
    apply (hstep s t i hpre.1 hR).bind
    intro r hr
    apply (ih hr hpre.2).bind
    intro rs hrs
    exact ok hrs

/-- **Refinement of a functional specification**, for runs whose calls meet their preconditions. -/
theorem runs_of_admissible {step : σ → ι → Exec (ω × σ)} (f : τ → ι → ω × τ) (pre : τ → ι → Prop)
    (R : σ → τ → Prop)
    (hstep : ∀ s t i, pre t i → R s t → Returns (step s i) fun r => r.1 = (f t i).1 ∧ R r.2 (f t i).2)
    {s : σ} {t : τ} (hR : R s t) {is : List ι} (hpre : Admissible f pre t is) :
    Returns (C.runs step s is) fun r =>
      r.1 = (runSpec f t is).1 ∧ R r.2 (runSpec f t is).2 := by
  have hends := Ends.runs_of_admissible f pre R (fun _ _ _ => False)
    (fun s t i hi h => (hstep s t i hi h).ends _) hR hpre
  apply hends.returns
  rintro e ⟨js, i, ks, -, h⟩
  exact h

/-- **Refinement of a functional specification.** -/
theorem runs {step : σ → ι → Exec (ω × σ)} (f : τ → ι → ω × τ) (R : σ → τ → Prop)
    (legal : ι → Prop)
    (hstep : ∀ s t i, legal i → R s t → Returns (step s i) fun r => r.1 = (f t i).1 ∧ R r.2 (f t i).2)
    {s : σ} {t : τ} (hR : R s t) {is : List ι} (hl : ∀ i ∈ is, legal i) :
    Returns (C.runs step s is) fun r =>
      r.1 = (runSpec f t is).1 ∧ R r.2 (runSpec f t is).2 :=
  runs_of_admissible f (fun _ => legal) R hstep hR (admissible_of_forall f hl t)

end Returns

end LibSrsBsns.C
