import LibSrsBsns.PtrList.Sequence
import LibSrsBsns.Foundations.C.Runs

/-!
# Calls on a pointer list

A run of calls that change a pointer list does to the sequence it represents what `sequenceSpec`
says (`ptrlistStep_refines`). In the list it leaves, every query is answered as on the sequence, and
a walk along the list, by `ptrlist_first` and `ptrlist_next`, meets the elements in order
(`PtrList.Lists.answers`). Together this is `ptrlist_refines_sequence`.
-/

namespace LibSrsBsns

open C

variable {α : Type}

/-- The calls that change a list. In an insertion, `ok` says whether `malloc` finds room. -/
inductive PtrlistOp (α : Type)
  | insert (i : ℤ) (data : Option α) (ok : Bool)
  | replace (i : ℕ) (data : Option α)
  | remove (i : ℕ)
  | clear

/-- A call that changes the list, and whether it says it did. -/
def ptrlistStep (l : PtrList α) : PtrlistOp α → Exec (Option Bool × PtrList α)
  | .insert i data ok => do
    let (b, l) ← ptrlistInsert l i data ok
    .ok (some b, l)
  | .replace i data => do
    let (b, l) ← ptrlistReplace l i data
    .ok (some b, l)
  | .remove i => do
    let (b, l) ← ptrlistRemove l i
    .ok (some b, l)
  | .clear => do
    let l ← ptrlistClear l
    .ok (none, l)

/-- A call that changes a sequence. -/
def sequenceSpec (xs : List α) : PtrlistOp α → Option Bool × List α
  | .insert i (some x) true => (some true, PtrList.insertAt xs i x)
  | .insert _ _ _ => (some false, xs)
  | .replace i (some x) => (some (i < xs.length), xs.set i x)
  | .replace _ none => (some false, xs)
  | .remove i => (some (i < xs.length), xs.eraseIdx i)
  | .clear => (none, [])

/-- One call on a list does what it does on the sequence. -/
theorem ptrlistStep_refines {l : PtrList α} {xs : List α} (op : PtrlistOp α) (h : l.Lists xs) :
    Returns (ptrlistStep l op) fun r =>
      r.1 = (sequenceSpec xs op).1 ∧ r.2.Lists (sequenceSpec xs op).2 := by
  cases op with
  | insert i data ok =>
    cases data with
    | none => exact .ok ⟨rfl, h⟩
    | some x =>
      cases ok with
      | false => exact .ok ⟨rfl, h⟩
      | true =>
        apply (PtrList.insert_spec h i x).bind
        intro r ⟨hout, hr⟩
        exact .ok ⟨congrArg some hout, hr⟩
  | replace i data =>
    cases data with
    | none =>
      simp only [ptrlistStep, PtrList.replace_none, ok_bind]
      exact .ok ⟨rfl, h⟩
    | some x =>
      apply (PtrList.replace_spec h i x).bind
      intro r ⟨hout, hr⟩
      exact .ok ⟨congrArg some hout, hr⟩
  | remove i =>
    apply (PtrList.remove_spec h i).bind
    intro r ⟨hout, hr⟩
    exact .ok ⟨congrArg some hout, hr⟩
  | clear =>
    apply (PtrList.clear_spec h).bind
    intro l' hl'
    exact .ok ⟨rfl, hl'⟩

/-! ## Calls that move the cursor -/

/-- All calls but the queries. -/
inductive PtrlistCall (α : Type)
  | op (op : PtrlistOp α)
  | first
  | next

/-- What a call returns. -/
inductive PtrlistOut (α : Type)
  | changed (b : Option Bool)
  | data (x : Option α)
  deriving DecidableEq

def ptrlistCall (l : PtrList α) : PtrlistCall α → Exec (PtrlistOut α × PtrList α)
  | .op op => do
    let (b, l) ← ptrlistStep l op
    .ok (.changed b, l)
  | .first => do
    let (x, l) ← ptrlistFirst l
    .ok (.data x, l)
  | .next => do
    let (x, l) ← ptrlistNext l
    .ok (.data x, l)

namespace PtrList

variable {l : PtrList α} {ns : List (ℕ × α)} {xs : List α}

/-- The calls of `ptrlist_next` from a node on. -/
theorem Nodes.walk_next {pre post : List (ℕ × α)} {a : ℕ} {x : α}
    (h : l.Nodes (pre ++ (a, x) :: post)) (hiter : l.iter = some a) :
    Returns (runs ptrlistCall l (List.replicate (post.length + 1) .next)) fun r =>
      r.1 = (post.map fun n => .data (some n.2)) ++ [.data none] := by
  induction post generalizing l pre a x with
  | nil =>
    simp only [List.length_nil, List.replicate_succ, runs, ptrlistCall, h.next_nil hiter]
    exact .ok rfl
  | cons n post ih =>
    have hnodes : Nodes { l with iter := some n.1 } ((pre ++ [(a, x)]) ++ n :: post) :=
      ⟨by simpa using h.seg, by simpa using h.nodup⟩
    have hrest := ih hnodes rfl
    rw [List.length_cons, List.replicate_succ, runs]
    simp only [ptrlistCall, h.next_cons hiter, ok_bind]
    apply hrest.bind
    intro r hr
    exact .ok (by rw [hr]; rfl)

/-- A walk along the list meets the elements in order, and then null. -/
theorem Lists.walk (h : l.Lists xs) :
    Returns (runs ptrlistCall l (.first :: List.replicate xs.length .next)) fun r =>
      r.1 = (xs.map fun x => .data (some x)) ++ [.data none] := by
  obtain ⟨ns, hns, rfl⟩ := h
  cases ns with
  | nil =>
    simp only [List.map_nil, List.length_nil, List.replicate_zero, runs, ptrlistCall, hns.first_nil]
    exact .ok rfl
  | cons n ns =>
    have hnodes : Nodes { l with iter := some n.1 } ([] ++ n :: ns) := hns.of_iter _
    have hrest := hnodes.walk_next rfl
    simp only [List.map_cons, List.length_cons, List.length_map, runs, ptrlistCall, hns.first_cons,
      ok_bind]
    apply hrest.bind
    intro r hr
    exact .ok (by rw [hr, List.map_map]; rfl)

/-- The list `l` answers every query as the sequence `xs` does. -/
structure Answers [DecidableEq α] (l : PtrList α) (xs : List α) : Prop where
  count : ptrlistCount l = .ok xs.length
  get : ∀ i, ptrlistGet l i = .ok xs[i]?
  findraw : ∀ data, ptrlistFindraw l data = .ok (indexOr (xs.findIdx? (some · = data)))
  findeqfn : ∀ (β : Type) (eqfn : α → β → Bool) (needle : β),
    ptrlistFindeqfn l eqfn needle = .ok (indexOr (xs.findIdx? (eqfn · needle)))
  walk : Returns (runs ptrlistCall l (.first :: List.replicate xs.length .next)) fun r =>
    r.1 = (xs.map fun x => .data (some x)) ++ [.data none]

theorem Lists.answers [DecidableEq α] (h : l.Lists xs) : l.Answers xs where
  count := count_spec h
  get := get_spec h
  findraw data := findfn_spec h (some · = data)
  findeqfn _ eqfn needle := findfn_spec h (eqfn · needle)
  walk := h.walk

end PtrList

/-- **The pointer list is a sequence.** Every run of calls that change a list, from a fresh one,
returns what it returns on a sequence, and leaves a list that answers as the sequence does. -/
theorem ptrlist_refines_sequence [DecidableEq α] (ops : List (PtrlistOp α)) :
    Returns (runs ptrlistStep (ptrlistInit : PtrList α) ops) fun r =>
      r.1 = (runSpec sequenceSpec [] ops).1 ∧ r.2.Answers (runSpec sequenceSpec [] ops).2 := by
  apply (Returns.runs sequenceSpec PtrList.Lists (fun _ => True)
    (fun l xs op _ h => ptrlistStep_refines op h) PtrList.lists_init (by simp)).mono
  intro r ⟨houts, hr⟩
  exact ⟨houts, hr.answers⟩

end LibSrsBsns
