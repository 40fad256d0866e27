import LibSrsBsns.Bintree.SortedMap
import LibSrsBsns.Bintree.Removal

/-!
# Which calls on a binary tree are defined

`bintree_balance`, `bintree_first` and `bintree_next` can be called in any state, and dereference the
root, the cursor and the array of elements without a look at whether they are there.
`bintree_walks_defined` says which calls of a run are defined: balancing a tree that is not empty and
counts its nodes, starting a traversal of a tree that is not empty, and going on from a cursor that is
at a node of the tree.
-/

namespace LibSrsBsns

open C BinaryTree

variable {α : Type} {cmpfn : α → α → ℤ}

/-- The calls on a tree. -/
inductive BintreeCall (α : Type)
  | op (op : BintreeOp α)
  | balance
  | first (travtype : ℤ)
  | next

/-- What a call returns. -/
inductive BintreeAnswer (α : Type)
  | op (o : BintreeOut)
  | data (x : Option α)

def bintreeCall (cmpfn : α → α → ℤ) (t : Bintree α) :
    BintreeCall α → Exec (BintreeAnswer α × Bintree α)
  | .op op => do
    let (o, t) ← bintreeStep cmpfn t op
    .ok (.op o, t)
  | .balance => do
    let t ← bintreeBalance cmpfn t
    .ok (.op .unit, t)
  | .first travtype => do
    let (x, t) ← bintreeFirst t travtype
    .ok (.data x, t)
  | .next => do
    let (x, t) ← bintreeNext t
    .ok (.data x, t)

/-- The orders in which a tree can be traversed. -/
def travtypes : List ℤ := [travPreorder, travInorder, travPostorder]

namespace Bintree

/-- The call is defined in the state `t`: `bintree_balance`, `bintree_first` and `bintree_next` return,
an empty tree stays empty and has no first element, and a cursor at its end stays there. -/
def Defined (cmpfn : α → α → ℤ) (t : Bintree α) : BintreeCall α → Prop
  | .op _ => True
  | .balance => Returns (bintreeBalance cmpfn t) fun t' => t.root = none → t'.root = none
  | .first travtype => Returns (bintreeFirst t travtype) fun s => t.root = none → s.1 = none
  | .next => Returns (bintreeNext t) fun s => t.iter = none → s.1 = none ∧ s.2.iter = none

/-- The call finds what it needs, where `At` says at which nodes the cursor may be. -/
def Provided (At : Bintree α → ℕ → Prop) (t : Bintree α) : BintreeCall α → Prop
  | .op _ => True
  | .balance => t.root ≠ none ∧ t.CountsNodes
  | .first travtype => travtype ∈ travtypes → t.root ≠ none
  | .next => ∃ trav, t.travtype = some trav ∧ (trav ∈ travtypes → ∃ a, t.iter = some a ∧ At t a)

variable {t : Bintree α} {T : BinaryTree (BtCell α)}

/-- `count` is at least the number of nodes. -/
def Counted (t : Bintree α) : Prop :=
  ∃ T c, t.Linked T ∧ bintreeCount t = .ok c ∧ T.numNodes ≤ c

theorem counted_init : (bintreeInit : Bintree α).Counted := ⟨_, 0, linked_init, rfl, le_rfl⟩

theorem Counted.congr {t' : Bintree α} (h : t.Counted) (hm : t'.mem = t.mem) (hr : t'.root = t.root)
    (hc : t'.count = t.count) : t'.Counted := by
  obtain ⟨T, c, hl, hcount, hle⟩ := h
  refine ⟨T, c, hl.congr hm hr, ?_, hle⟩
  rw [← hcount, bintreeCount, bintreeCount, readCount, readCount, hr, hc]

/-! ## Balancing -/

/-- Inserting keeps `count` as large as the number of nodes. -/
theorem Counted.insert (cmpfn : α → α → ℤ) (h : t.Counted) (x : α) :
    Returns (bintreeInsert cmpfn t (some x) true) fun s => s.2.Counted := by
  obtain ⟨T, c, hl, hcount, hle⟩ := h
  have hstep : Returns (bintreeStep cmpfn t (.insert x true)) fun s => s.2.Counted := by
    apply ((step_counts cmpfn hl hcount hle (.insert x true)).mono _).returns
    · rintro e ⟨-, hno⟩
      cases hno
    · intro s ⟨T', c', hl', hcount', hle', _⟩
      exact ⟨T', c', hl', hcount', hle'⟩
  obtain ⟨s, hs, hcs⟩ := hstep
  obtain ⟨r, hr, hr'⟩ := bind_eq_ok.1 hs
  obtain rfl := Except.ok.inj hr'
  exact ⟨r, hr, hcs⟩

/-- `bintree_rbalance` returns if it has elements to insert. -/
theorem rbalance_spec (cmpfn : α → α → ℤ) {k start stop : ℕ} {src : Buffer α} (h : t.Counted)
    (hle : start ≤ stop) (hk : stop - start < k)
    (hsrc : ∀ i, start ≤ i → i ≤ stop → ∃ x, src.read i = .ok x) :
    Returns (bintreeRbalance cmpfn k t src start stop) Counted := by
  induction k generalizing t start stop with
  | zero => omega
  | succ k ih =>
    obtain ⟨x, hx⟩ := hsrc ((start + stop) / 2) (by omega) (by omega)
    rw [bintreeRbalance, hx, ok_bind]
    apply (h.insert cmpfn x).bind
    intro s hs
    have hleft : Returns (if start < (start + stop) / 2
        then bintreeRbalance cmpfn k s.2 src start ((start + stop) / 2 - 1) else .ok s.2) Counted := by
      apply Returns.ite
      · intro hlt
        exact ih hs (by omega) (by omega) fun i hi hi' => hsrc i hi (by omega)
      · intro _
        exact .ok hs
    apply hleft.bind
    intro t' ht'
    apply Returns.ite
    · intro hlt
      exact ih ht' (by omega) (by omega) fun i hi hi' => hsrc i (by omega) hi'
    · intro _
      exact .ok ht'

/-- `bintree_rbalance` reads every element of its range. -/
theorem read_of_rbalance {k start stop : ℕ} {src : Buffer α} {t' : Bintree α}
    (h : bintreeRbalance cmpfn k t src start stop = .ok t') {i : ℕ} (hi : start ≤ i)
    (hi' : i ≤ stop) : ∃ x, src.read i = .ok x := by
  induction k generalizing t start stop t' with
  | zero => cases h
  | succ k ih =>
    rw [bintreeRbalance] at h
    obtain ⟨x, hx, h⟩ := bind_eq_ok.1 h
    obtain ⟨s, -, h⟩ := bind_eq_ok.1 h
    obtain ⟨t₁, h₁, h₂⟩ := bind_eq_ok.1 h
    rcases Nat.lt_trichotomy i ((start + stop) / 2) with hlt | rfl | hgt
    · rw [if_pos (by omega)] at h₁
      exact ih h₁ hi (by omega)
    · exact ⟨x, hx⟩
    · rw [if_pos (by omega)] at h₂
      exact ih h₂ (by omega) hi'

/-- What was never written cannot be read. -/
theorem not_read_of_cell {src : Buffer α} {i : ℕ} (h : src.cell i = none) (x : α) :
    src.read i ≠ .ok x := by
  rw [Buffer.read, Buffer.load]
  split <;> simp [h]

/-- There is no tree to balance. -/
theorem not_balance_empty (h : t.root = none) (t' : Bintree α) : bintreeBalance cmpfn t ≠ .ok t' := by
  intro hb
  obtain ⟨n, -, hb⟩ := bind_eq_ok.1 hb
  simp only [bintreeCollect, h, ok_bind, Bool.not_true, Bool.false_eq_true, if_false] at hb
  obtain ⟨t₁, -, hb⟩ := bind_eq_ok.1 hb
  rw [bintreeRbalance] at hb
  obtain ⟨x, hx, -⟩ := bind_eq_ok.1 hb
  exact not_read_of_cell rfl x hx

/-- `bintree_balance` of a tree that is not empty and counts its nodes inserts its elements again, into
the empty tree. -/
theorem balance_of_rbalance {P : Bintree α → Prop} (h : t.Linked T) (hT : T ≠ .nil)
    (hcount : bintreeCount t = .ok T.numNodes)
    (hins : ∀ t' arr, t'.Linked .nil → bintreeCount t' = .ok 0 → arr.Holds 0 (elems T) →
      Returns (bintreeRbalance cmpfn (T.numNodes + 1) t' arr 0 (T.numNodes - 1)) P) :
    Returns (bintreeBalance cmpfn t) P := by
  have hroot : t.root ≠ none := by rwa [h.root, Ne, ptr_eq_none]
  have hpos : T.numNodes ≠ 0 := numNodes_eq_zero.not.2 hT
  rw [bintreeBalance, readCount_of_root hroot, hcount, ok_bind]
  have hcollect : Returns (bintreeCollect t (.malloc T.numNodes) travInorder) _ :=
    h.collect_elems (by rw [length_elems]; rfl)
  apply hcollect.bind
  rintro ⟨ok, arr⟩ ⟨rfl, harr⟩
  apply (clear_spec h).bind
  intro t' ⟨hl', hcount'⟩
  have hsub : sizeSub T.numNodes 1 = T.numNodes - 1 := if_pos (Nat.pos_of_ne_zero hpos)
  rw [hsub]
  exact hins t' arr hl' hcount' harr.holds

/-- `bintree_balance` returns if the tree is not empty and counts its nodes. -/
theorem balance_spec (cmpfn : α → α → ℤ) (hroot : t.root ≠ none) (h : t.CountsNodes) :
    Returns (bintreeBalance cmpfn t) Counted := by
  obtain ⟨T, hl, hcount⟩ := h
  have hT : T ≠ .nil := by rwa [hl.root, Ne, ptr_eq_none] at hroot
  have hpos : T.numNodes ≠ 0 := numNodes_eq_zero.not.2 hT
  apply balance_of_rbalance hl hT hcount
  intro t' arr hl' hcount' harr
  apply rbalance_spec cmpfn ⟨_, 0, hl', hcount', le_rfl⟩ (Nat.zero_le _) (by omega)
  intro i _ hi
  have hread := harr.read (i := i) (by rw [length_elems]; omega)
  rw [Nat.zero_add] at hread
  exact ⟨_, hread⟩

/-- `bintree_balance` returns only if the tree counts its nodes. -/
theorem Counted.countsNodes_of_balance {t' : Bintree α} (h : t.Counted) (hroot : t.root ≠ none)
    (hb : bintreeBalance cmpfn t = .ok t') : t.CountsNodes := by
  obtain ⟨T, c, hl, hcount, hle⟩ := h
  rcases Nat.lt_or_eq_of_le hle with hlt | rfl
  · rw [bintreeBalance, readCount_of_root hroot, hcount, ok_bind] at hb
    have hret : Returns (bintreeCollect t (.malloc c) travInorder) _ :=
      hl.collect_elems (by rw [length_elems]; exact hle)
    obtain ⟨⟨ok, arr⟩, hcollect, rfl, harr⟩ := hret
    simp only [hcollect, ok_bind, Bool.not_true, Bool.false_eq_true, if_false] at hb
    obtain ⟨t₁, -, hb⟩ := bind_eq_ok.1 hb
    have hsub : sizeSub c 1 = c - 1 := if_pos (by omega)
    rw [hsub] at hb
    obtain ⟨x, hx⟩ := read_of_rbalance hb (i := c - 1) (Nat.zero_le _) le_rfl
    refine absurd hx (not_read_of_cell ?_ x)
    exact harr.frame _ (.inr (by rw [length_elems]; omega))
  · exact ⟨T, hl, hcount⟩

/-! ## The iteration -/

/-- A step of the iteration changes nothing but the cursor. -/
def MovesCursor (t : Bintree α) (s : Option α × Bintree α) : Prop := ∃ iter, s.2 = { t with iter }

/-- What comes before does not matter, as long as what follows only moves the cursor. -/
theorem ends_bind {β : Type} {x : Exec β} {f : β → Exec (Option α × Bintree α)}
    (hf : ∀ b, Ends (f b) t.MovesCursor fun _ => True) :
    Ends (x >>= f) t.MovesCursor fun _ => True := by
  cases x with
  | ok b => exact hf b
  | error e => trivial

theorem stop_moves (t : Bintree α) (a : ℕ) : Ends (t.stop a) t.MovesCursor fun _ => True :=
  ends_bind fun _ => ⟨_, rfl⟩

theorem done_moves (t : Bintree α) : Ends t.done t.MovesCursor fun _ => True := ⟨none, rfl⟩

theorem nextPreorder_moves (t : Bintree α) : Ends t.nextPreorder t.MovesCursor fun _ => True := by
  apply ends_bind
  intro a
  apply ends_bind
  intro v
  split
  · exact stop_moves t _
  · exact stop_moves t _
  · apply ends_bind
    rintro (_ | b)
    · exact done_moves t
    · exact stop_moves t b

theorem nextInorder_moves (t : Bintree α) : Ends t.nextInorder t.MovesCursor fun _ => True := by
  apply ends_bind
  intro a
  apply ends_bind
  intro v
  apply ends_bind
  intro _
  split
  · exact ends_bind (stop_moves t)
  · exact done_moves t
  · apply ends_bind
    intro ⟨b, left⟩
    apply ends_bind
    intro w
    split
    · exact done_moves t
    · exact stop_moves t b

theorem nextPostorder_moves (t : Bintree α) : Ends t.nextPostorder t.MovesCursor fun _ => True := by
  apply ends_bind
  intro a
  apply ends_bind
  intro v
  apply ends_bind
  intro left
  split
  · exact done_moves t
  · apply ends_bind
    intro w
    split
    · exact ends_bind (stop_moves t)
    · exact stop_moves t _

theorem next_moves (t : Bintree α) : Ends (bintreeNext t) t.MovesCursor fun _ => True := by
  unfold bintreeNext
  cases t.travtype with
  | none => trivial
  | some trav =>
    simp only
    split_ifs
    · exact nextPreorder_moves t
    · exact nextInorder_moves t
    · exact nextPostorder_moves t
    · exact ⟨t.iter, rfl⟩

/-- What a step of the iteration yields is a move of the cursor. -/
theorem Yields.moves {rest : List (Frame (BtCell α)) → BinaryTree (BtCell α) →
    BinaryTree (BtCell α) → List (BtCell α)} {ns : List (BtCell α)} {s : Option α × Bintree α}
    (h : Yields rest t T ns s) : t.MovesCursor s := by
  obtain ⟨-, rfl⟩ | ⟨D, n, l, r, -, -, rfl⟩ := h
  · exact ⟨none, rfl⟩
  · exact ⟨some n.1, rfl⟩

theorem Counted.moves {s : Option α × Bintree α} (h : t.Counted) (hs : t.MovesCursor s) :
    s.2.Counted := by
  obtain ⟨iter, hs⟩ := hs
  rw [hs]
  exact h.congr rfl rfl rfl

/-- `bintree_first` where the tree is not empty, or the traversal is none of the three. -/
theorem Counted.first (h : t.Counted) {trav : ℤ} (htrav : trav ∈ travtypes → t.root ≠ none) :
    Returns (bintreeFirst t trav) fun s => (t.root = none → s.1 = none) ∧ s.2.Counted := by
  have h' : Counted { t with travtype := some trav } := h.congr rfl rfl rfl
  by_cases hmem : trav ∈ travtypes
  · obtain ⟨T, -, hl, -⟩ := h
    have hroot := htrav hmem
    have hT : T ≠ .nil := by rwa [hl.root, Ne, ptr_eq_none] at hroot
    apply (first_spec hmem hl hT).mono
    intro s hs
    exact ⟨fun hnone => absurd hnone hroot, h'.moves hs.moves⟩
  · simp only [travtypes, List.mem_cons, List.not_mem_nil, or_false, not_or] at hmem
    simp only [bintreeFirst, hmem, if_false]
    exact .ok ⟨fun _ => rfl, h.congr rfl rfl rfl⟩

/-- `bintree_first` faults where there is no root. -/
theorem not_first_empty (h : t.root = none) {trav : ℤ} (htrav : trav ∈ travtypes)
    (s : Option α × Bintree α) : bintreeFirst t trav ≠ .ok s := by
  simp only [travtypes, List.mem_cons, List.not_mem_nil, or_false] at htrav
  rcases htrav with rfl | rfl | rfl <;>
    simp [bintreeFirst, firstPreorder, firstInorder, firstPostorder, travPreorder, travInorder,
      travPostorder, h, deref]

/-- `bintree_next` from a cursor at a node of the tree. -/
theorem Counted.next (h : t.Counted)
    (hnext : t.Provided (fun t => InTree t.mem t.root) .next) :
    Returns (bintreeNext t) fun s => (t.iter = none → s.1 = none ∧ s.2.iter = none) ∧
      s.2.Counted := by
  obtain ⟨trav, htrav, hcursor⟩ := hnext
  by_cases hmem : trav ∈ travtypes
  · obtain ⟨a, ha, hin⟩ := hcursor hmem
    obtain ⟨T, -, hl, -⟩ := id h
    obtain ⟨C, n, l, r, rfl, rfl⟩ := hl.exists_place hin
    apply (next_spec hmem hl htrav ha).mono
    intro s hs
    refine ⟨fun hnone => ?_, h.moves hs.moves⟩
    rw [hnone] at ha
    cases ha
  · simp only [travtypes, List.mem_cons, List.not_mem_nil, or_false, not_or] at hmem
    simp only [bintreeNext, htrav, hmem, if_false]
    exact .ok ⟨fun hnone => ⟨rfl, hnone⟩, h⟩

/-- What begins with a look at the node under a pointer ends only where there is such a node. -/
theorem exists_cell_of_load {β : Type} {p : Ptr} {m : Memory (BtNode α)}
    {f : ℕ → BtNode α → Exec β} {s : β}
    (h : (do let a ← deref p; let v ← m.load a; f a v) = .ok s) :
    ∃ a, p = some a ∧ ∃ v, m.cell a = some v := by
  obtain ⟨a, ha, h⟩ := bind_eq_ok.1 h
  obtain ⟨v, hv, -⟩ := bind_eq_ok.1 h
  exact ⟨a, deref_eq_ok.1 ha, v, Memory.load_eq_ok.1 hv⟩

/-- Every walker looks at the node under the cursor. -/
theorem provided_of_next {s : Option α × Bintree α} (h : bintreeNext t = .ok s) :
    t.Provided (fun t a => ∃ v, t.mem.cell a = some v) .next := by
  cases htrav : t.travtype with
  | none =>
    rw [bintreeNext, htrav] at h
    cases h
  | some trav =>
    refine ⟨trav, htrav, fun hmem => ?_⟩
    simp only [travtypes, List.mem_cons, List.not_mem_nil, or_false] at hmem
    rw [bintreeNext, htrav] at h
    rcases hmem with rfl | rfl | rfl
    · exact exists_cell_of_load h
    · exact exists_cell_of_load h
    · exact exists_cell_of_load h

/-! ## Runs -/

/-- A call that finds what it needs is defined. -/
theorem Counted.defined (cmpfn : α → α → ℤ) (h : t.Counted) {call : BintreeCall α}
    (hcall : t.Provided (fun t => InTree t.mem t.root) call) : t.Defined cmpfn call := by
  cases call with
  | op op => trivial
  | balance => exact (balance_spec cmpfn hcall.1 hcall.2).mono fun _ _ hroot => absurd hroot hcall.1
  | first trav => exact (h.first hcall).mono fun _ hs => hs.1
  | next => exact (h.next hcall).mono fun _ hs => hs.1

/-- A call that is defined has found what it needs, up to where in memory the cursor is. -/
theorem Counted.provided (h : t.Counted) {call : BintreeCall α} (hcall : t.Defined cmpfn call) :
    t.Provided (fun t a => ∃ v, t.mem.cell a = some v) call := by
  cases call with
  | op op => trivial
  | balance =>
    obtain ⟨t', hb, -⟩ := hcall
    have hroot : t.root ≠ none := fun hroot => not_balance_empty hroot t' hb
    exact ⟨hroot, h.countsNodes_of_balance hroot hb⟩
  | first trav =>
    obtain ⟨s, hs, -⟩ := hcall
    exact fun hmem hroot => not_first_empty hroot hmem s hs
  | next =>
    obtain ⟨s, hs, -⟩ := hcall
    exact provided_of_next hs

/-- A call that is defined keeps `count` as large as the number of nodes. -/
theorem Counted.step (h : t.Counted) {call : BintreeCall α} (hcall : t.Defined cmpfn call) :
    Ends (bintreeCall cmpfn t call) (fun s => s.2.Counted) fun _ => True := by
  have hprov := h.provided hcall
  cases call with
  | op op =>
    obtain ⟨T, c, hl, hcount, hle⟩ := h
    apply ((step_counts cmpfn hl hcount hle op).fault_mono fun _ _ => trivial).bind
    intro s ⟨T', c', hl', hcount', hle', _⟩
    exact ⟨T', c', hl', hcount', hle'⟩
  | balance =>
    apply ((balance_spec cmpfn hprov.1 hprov.2).ends _).bind
    intro t' ht'
    exact ht'
  | first trav =>
    apply ((h.first hprov).ends _).bind
    intro s hs
    exact hs.2
  | next =>
    apply (next_moves t).bind
    intro s hs
    exact h.moves hs

end Bintree

/-- **Which calls on a tree are defined.** In a run whose calls find what they need, every call is
defined: `bintree_balance` finds a tree that is not empty and whose `count` is the number of its
nodes, `bintree_first` a tree that is not empty, and `bintree_next` a traversal that was started and a
cursor at a node of the tree. Conversely, in a run whose calls are defined they find all this, where
of the node under the cursor it is only known that it has not been freed. -/
theorem bintree_walks_defined (cmpfn : α → α → ℤ) (calls : List (BintreeCall α)) :
    (Meets (bintreeCall cmpfn) (Bintree.Provided fun t => Bintree.InTree t.mem t.root) bintreeInit
        calls →
      Meets (bintreeCall cmpfn) (Bintree.Defined cmpfn) bintreeInit calls) ∧
    (Meets (bintreeCall cmpfn) (Bintree.Defined cmpfn) bintreeInit calls →
      Meets (bintreeCall cmpfn) (Bintree.Provided fun t a => ∃ v, t.mem.cell a = some v) bintreeInit
        calls) := by
  constructor
  · apply Meets.imp Bintree.Counted _ Bintree.counted_init
    intro t call h hcall
    exact ⟨h.defined cmpfn hcall, h.step (h.defined cmpfn hcall)⟩
  · apply Meets.imp Bintree.Counted _ Bintree.counted_init
    intro t call h hcall
    exact ⟨h.provided hcall, h.step hcall⟩

/-- Two elements are inserted, and the tree is balanced and walked. -/
theorem bintree_walks_defined_balanced :
    Meets (bintreeCall fun a b : ℤ => a - b) (Bintree.Defined fun a b => a - b) bintreeInit
      [.op (.insert 2 true), .op (.insert 1 true), .balance, .first travInorder, .next] := by
  have hcounts : Throughout (bintreeStep fun a b : ℤ => a - b) (· = .nullDeref) Bintree.CountsNodes
      bintreeInit [.insert 2 true, .insert 1 true] :=
    Bintree.throughout_countsNodes _ ⟨nofun, nofun, trivial⟩
  apply (bintree_walks_defined _ _).1
  exact ⟨trivial, trivial, ⟨nofun, hcounts.of_runs rfl⟩, fun _ => nofun,
    ⟨travInorder, rfl, fun _ => ⟨_, rfl, .here rfl⟩⟩, trivial⟩

/-- An empty tree has no root to start from and none to balance, also after its last element has been
removed, and after the end of an iteration there is no node to go on from. -/
theorem not_defined_of_absent :
    ¬ Meets (bintreeCall fun a b : ℤ => a - b) (Bintree.Defined fun a b => a - b) bintreeInit
        [.first travInorder] ∧
      ¬ Meets (bintreeCall fun a b : ℤ => a - b) (Bintree.Defined fun a b => a - b) bintreeInit
        [.op (.insert 1 true), .op (.remove 1), .balance] ∧
      ¬ Meets (bintreeCall fun a b : ℤ => a - b) (Bintree.Defined fun a b => a - b) bintreeInit
        [.op (.insert 1 true), .first travInorder, .next, .next] := by
  refine ⟨?_, ?_, ?_⟩
  · intro h
    obtain ⟨s, hs, -⟩ := h.last [] rfl
    cases hs
  · intro h
    obtain ⟨t, ht, -⟩ := h.last [BintreeCall.op (.insert 1 true), .op (.remove 1)] rfl
    exact Bintree.not_balance_empty rfl t ht
  · intro h
    obtain ⟨s, hs, -⟩ := h.last [BintreeCall.op (.insert 1 true), .first travInorder, .next] rfl
    cases hs

end LibSrsBsns
