import LibSrsBsns.Bintree.Calls
import LibSrsBsns.Foundations.C.Live

/-!
# What a binary tree leaks

A node that has been allocated and is neither in the tree nor freed cannot be freed any more, since
only the tree leads to its nodes. Inserting allocates one node and removing frees one, so the number
of live nodes keeps up with the tree exactly as long as no removal loses a subtree
(`bintree_leaks_iff`). Clearing and balancing free the nodes of the tree and no other.
-/

namespace LibSrsBsns

open C BinaryTree

variable {α : Type} {cmpfn : α → α → ℤ}

/-- `bintree_dispose`: what is left in the memory of the nodes. -/
def bintreeDispose (t : Bintree α) : Exec (Memory (BtNode α)) := do
  let t ← bintreeClear t
  .ok t.mem

namespace Bintree

variable {t : Bintree α} {T l r : BinaryTree (BtCell α)} {C : List (Frame (BtCell α))}
  {n : BtCell α} {p : Ptr} {m : Memory (BtNode α)} {cs : List (ℕ × BtNode α)}

/-- Every live node is in the tree. -/
def NoLeak (t : Bintree α) : Prop := ∀ a v, t.mem.cell a = some v → InTree t.mem t.root a

/-- The call removes an element without losing a subtree, if it removes one. -/
def LosesNothing (cmpfn : α → α → ℤ) (t : Bintree α) (call : BintreeCall α) : Prop :=
  ∀ x, call = .op (.remove x) → t.KeepsSubtrees cmpfn x

/-- The nodes that can be reached are those at the addresses of the tree. -/
theorem Linked.inTree_iff (h : t.Linked T) {a : ℕ} :
    InTree t.mem t.root a ↔ a ∈ (Bintree.cells none T).map Prod.fst := by
  rw [h.root, Bintree.inTree_iff h.cells, map_fst_cells, List.mem_map]

/-- Nothing has leaked if and only if there are as many live nodes as the tree has. -/
theorem Linked.noLeak_iff (h : t.Linked T) : t.NoLeak ↔ t.mem.numLive = T.numNodes := by
  rw [← length_cells none T, ← h.cells.covers_iff]
  exact forall₃_congr fun a v _ => h.inTree_iff

/-! ## The number of live nodes -/

/-- The tree `t'` has `k` live nodes more than `t` had, and the iteration is where it was. -/
structure Grows (t : Bintree α) (k : ℕ) (t' : Bintree α) : Prop where
  numLive : t'.mem.numLive = t.mem.numLive + k
  iter : t'.iter = t.iter
  travtype : t'.travtype = t.travtype

theorem Grows.refl (t : Bintree α) : t.Grows 0 t := ⟨rfl, rfl, rfl⟩

/-- Assigning to fields of nodes. -/
theorem Grows.store {t' : Bintree α} {k : ℕ} (h : t.Grows k t') (a : ℕ) (v : BtNode α) :
    Ends (t'.mem.store a v) (fun mem => t.Grows k { t' with mem }) fun _ => True :=
  (t'.mem.store_numLive a v).mono fun _ hm => ⟨hm.trans h.numLive, h.iter, h.travtype⟩

theorem Grows.modify {t' : Bintree α} {k : ℕ} (h : t.Grows k t') (a : ℕ) (f : BtNode α → BtNode α) :
    Ends (t'.mem.modify a f) (fun mem => t.Grows k { t' with mem }) fun _ => True :=
  (Ends.trivial (t'.mem.load a)).bind fun v _ => h.store a (f v)

theorem addLeaf_grows (t : Bintree α) (a : ℕ) (left : Bool) (x : α) (ok : Bool) :
    Ends (t.addLeaf a left x ok) (fun r => t.Grows 1 r.2) fun _ => True := by
  unfold addLeaf
  cases ok with
  | false => trivial
  | true =>
    have halloc : t.Grows 1 { t with mem := t.mem.put t.mem.brk ⟨x, none, none, some a⟩ } :=
      ⟨t.mem.numLive_alloc _, rfl, rfl⟩
    apply (halloc.modify a _).bind
    intro m hm
    apply (Ends.trivial t.readCount).bind
    intro c _
    exact ⟨hm.numLive, rfl, rfl⟩

/-- Inserting allocates one node at most. -/
theorem insert_grows (cmpfn : α → α → ℤ) (t : Bintree α) (x : α) (ok : Bool) :
    Ends (bintreeInsert cmpfn t (some x) ok) (fun r => ∃ k ≤ 1, t.Grows k r.2) fun _ => True := by
  unfold bintreeInsert
  cases t.root with
  | none =>
    cases ok with
    | false => trivial
    | true => exact ⟨1, le_rfl, t.mem.numLive_alloc _, rfl, rfl⟩
  | some a =>
    have hsame : ∃ k ≤ 1, t.Grows k t := ⟨0, Nat.zero_le _, .refl t⟩
    have hloop : Ends (t.insertLoop cmpfn x ok (t.mem.brk + 1) (some a))
        (fun r => ∃ k ≤ 1, t.Grows k r.2) fun _ => True := by
      apply Ends.loop_partial (fun _ => True) _ _ trivial
      rintro (_ | a) -
      · exact hsame
      · apply (Ends.trivial (t.mem.load a)).bind
        intro v _
        dsimp only
        split
        · cases v.left with
          | none => exact (t.addLeaf_grows a true x ok).bind fun _ hr => ⟨1, le_rfl, hr⟩
          | some b => trivial
        · split
          · cases v.right with
            | none => exact (t.addLeaf_grows a false x ok).bind fun _ hr => ⟨1, le_rfl, hr⟩
            | some b => trivial
          · exact hsame
    apply hloop.bind
    rintro ⟨q, t'⟩ ⟨k, hk, ht'⟩
    cases q with
    | none => exact ⟨k, hk, ht'⟩
    | some b => exact (ht'.modify b _).bind fun m hm => ⟨k, hk, hm⟩

theorem Grows.relink {t' : Bintree α} {k : ℕ} (h : t.Grows k t') (v : BtNode α) (left : Bool)
    (child : Ptr) : Ends (Bintree.relink t' v left child) (t.Grows k) fun _ => True := by
  unfold Bintree.relink
  cases v.parent with
  | none => exact ⟨h.numLive, h.iter, h.travtype⟩
  | some p => exact (h.modify p _).bind fun m hm => hm

theorem Grows.unlinkMax {t' : Bintree α} {k : ℕ} (h : t.Grows k t') (a : ℕ) (v : BtNode α) :
    Ends (Bintree.unlinkMax t'.mem a v) (fun mem => t.Grows k { t' with mem }) fun _ => True := by
  apply (Ends.trivial (deref v.parent)).bind
  intro p _
  apply (Ends.trivial (t'.mem.load p)).bind
  intro w _
  split_ifs
  · exact h.store _ _
  · exact h.store _ _
  · trivial

/-- The links are changed, and no node is freed yet. -/
theorem detach_grows (t : Bintree α) (a : ℕ) :
    Ends (t.detach a) (fun s => t.Grows 0 s.2) fun _ => True := by
  apply (Ends.trivial (t.mem.load a)).bind
  intro v _
  apply (Ends.trivial (isLeft t.mem a v)).bind
  intro left _
  have hsame := Grows.refl t
  have hchild (child : ℕ) : Ends (do
      let t ← relink t v left (some child)
      let mem ← t.mem.modify child fun w => { w with parent := v.parent }
      .ok (a, ({ t with mem } : Bintree α))) (fun s => t.Grows 0 s.2) fun _ => True := by
    apply (hsame.relink v left _).bind
    intro t' ht'
    exact (ht'.modify child _).bind fun m hm => hm
  cases v.left with
  | none =>
    cases v.right with
    | none =>
      apply (hsame.store a _).bind
      intro m hm
      exact (hm.relink _ _ _).bind fun t' ht' => ht'
    | some r => exact hchild r
  | some l =>
    cases v.right with
    | none => exact hchild l
    | some r =>
      apply (Ends.trivial (maxLoop t.mem (t.mem.brk + 1) l)).bind
      intro b _
      apply (Ends.trivial (t.mem.load b)).bind
      intro w _
      apply (hsame.store b _).bind
      intro m hm
      apply (hm.modify a _).bind
      intro m' hm'
      exact (hm'.unlinkMax b w).bind fun m'' hm'' => hm''

/-- Removing an element frees one node, and leaves the iteration where it was. -/
theorem remove_grows (cmpfn : α → α → ℤ) (t : Bintree α) (x : α) :
    Ends (bintreeRemove cmpfn t x) (fun s => s.1 = true →
      s.2.mem.numLive + 1 = t.mem.numLive ∧ s.2.iter = t.iter ∧ s.2.travtype = t.travtype)
      fun _ => True := by
  apply (Ends.trivial (bintreeNodefind cmpfn t x)).bind
  rintro (_ | a) _
  · exact nofun
  · apply (t.detach_grows a).bind
    intro ⟨b, t'⟩ ht'
    apply (t'.mem.free_numLive b).bind
    intro m hm
    apply (Ends.trivial t'.readCount).bind
    intro c _ _
    exact ⟨hm.trans ht'.numLive, ht'.iter, ht'.travtype⟩

/-- `bintree_rclear` frees the nodes of the tree, one by one, and no others. -/
theorem rclear_numLive {k : ℕ} (h : m.Owns (cells p T ++ cs)) (hk : T.numNodes ≤ k) :
    Ends (bintreeRclear k m (ptr T)) (fun m' => m'.numLive + T.numNodes = m.numLive)
      fun _ => True := by
  induction T generalizing k m p cs with
  | nil => cases k <;> exact rfl
  | node n l r ihl ihr =>
    obtain ⟨k, rfl⟩ : ∃ k', k = k' + 1 := ⟨k - 1, by simp only [numNodes] at hk; omega⟩
    simp only [numNodes] at hk ⊢
    have hl : m.Owns (cells (some n.1) l ++ ((n.1, ⟨n.2, ptr l, ptr r, p⟩) ::
        (cells (some n.1) r ++ cs))) := by
      apply h.perm
      rw [cells, List.cons_append, List.append_assoc]
      exact List.perm_middle.symm
    simp only [ptr_node, bintreeRclear, Memory.load_of_cell h.head, ok_bind]
    obtain ⟨m₁, hm₁, h₁⟩ := rclear_spec hl (k := k) (by omega)
    have hnum₁ := ihl hl (k := k) (by omega)
    rw [hm₁] at hnum₁ ⊢
    simp only [ok_bind, Memory.load_of_cell h₁.head]
    apply (ihr (h₁.perm List.perm_middle.symm) (by omega)).bind
    intro m₂ hnum₂
    apply (m₂.free_numLive n.1).mono
    intro m₃ hnum₃
    have hnum₁ : m₁.numLive + l.numNodes = m.numLive := hnum₁
    omega

/-- `bintree_clear` frees the nodes of the tree and leaves the other cells alone. -/
theorem Linked.clear_cells (h : t.Linked T) (hcs : t.mem.Owns (Bintree.cells none T ++ cs)) :
    Returns (bintreeClear t) fun t' => t'.mem.Owns cs ∧
      t'.mem.numLive + T.numNodes = t.mem.numLive := by
  have hle := h.numNodes_le
  obtain ⟨m, hm, hown⟩ := rclear_spec hcs hle
  have hnum := rclear_numLive hcs hle
  rw [hm] at hnum
  rw [bintreeClear, h.root, hm, ok_bind]
  exact .ok ⟨hown, hnum⟩

/-! ## Calls -/

theorem Counted.ends_op (h : t.Counted) (cmpfn : α → α → ℤ) (op : BintreeOp α) :
    Ends (bintreeStep cmpfn t op) (fun s => s.2.Counted) fun _ => True := by
  obtain ⟨T, c, hl, hcount, hle⟩ := h
  apply ((step_counts cmpfn hl hcount hle op).fault_mono fun _ _ => trivial).mono
  intro s ⟨T', c', hl', hcount', hle', _⟩
  exact ⟨T', c', hl', hcount', hle'⟩

theorem NoLeak.insert (h : t.Counted) (hn : t.NoLeak) (cmpfn : α → α → ℤ) (x : α) (ok : Bool) :
    Ends (bintreeInsert cmpfn t (some x) ok) (fun s => s.2.Counted ∧ s.2.NoLeak)
      fun _ => True := by
  have hcounted := h.ends_op cmpfn (.insert x ok)
  obtain ⟨T, c, hl, hcount, -⟩ := h
  have hlive := hl.noLeak_iff.1 hn
  have hspec : Ends (bintreeInsert cmpfn t (some x) ok) _ _ := insert_spec hl hcount x ok
  have hgrows := insert_grows cmpfn t x ok
  rw [bintreeStep] at hcounted
  cases hx : bintreeInsert cmpfn t (some x) ok with
  | error e => trivial
  | ok s =>
    rw [hx] at hcounted hspec hgrows
    refine ⟨hcounted, ?_⟩
    obtain ⟨-, C, -, ⟨n, l, r, rfl, -, hs⟩ | ⟨rfl, a, hl', -⟩⟩ := hspec
    · have hput : s.2.mem.numLive = t.mem.numLive := by
        rw [hs]
        exact Memory.numLive_put hl.cell _
      rw [hs] at hput ⊢
      rw [(hl.replace x).2.noLeak_iff, hput, hlive]
      simp only [numNodes_plug, numNodes]
    · have hle := hl'.cells.length_le_numLive
      rw [hl'.noLeak_iff]
      obtain ⟨k, hk, hgrows⟩ := hgrows
      have hnum := hgrows.numLive
      simp only [length_cells, numNodes_plug, numNodes] at hlive hle ⊢
      omega

/-- Removing an element leaks the subtree that it loses. -/
theorem NoLeak.remove (h : t.Counted) (hn : t.NoLeak) (cmpfn : α → α → ℤ) (x : α) :
    Returns (bintreeRemove cmpfn t x) fun s => s.2.NoLeak ↔ t.KeepsSubtrees cmpfn x := by
  obtain ⟨T, c, hl, hcount, -⟩ := h
  have hlive := hl.noLeak_iff.1 hn
  have hret : Returns (bintreeRemove cmpfn t x) _ := remove_spec hl hcount x
  obtain ⟨s, hs, C, hp, hcase⟩ := hret
  have hnum := remove_grows cmpfn t x
  rw [hs] at hnum
  have hkeeps : t.KeepsSubtrees cmpfn x ↔ orphaned (subtreeAt cmpfn x T) = .nil :=
    ⟨fun hk => hk T hl, fun hk T' h' => hl.unique h' ▸ hk⟩
  rw [hkeeps, ← numNodes_eq_zero]
  refine ⟨s, hs, ?_⟩
  rcases hcase with ⟨rfl, rfl⟩ | ⟨n, l, r, T', rfl, hx, hrem, htrue, hl', -⟩
  · rw [subtreeAt_plug hp]
    exact iff_of_true hn rfl
  · have hnodes := hrem.numNodes
    have hfreed : s.2.mem.numLive + 1 = t.mem.numLive := (hnum htrue).1
    rw [subtreeAt_found hp hx, hl'.noLeak_iff]
    omega

theorem NoLeak.clear (h : t.Counted) (hn : t.NoLeak) :
    Returns (bintreeClear t) fun t' => t'.Counted ∧ t'.NoLeak := by
  obtain ⟨T, c, hl, -, -⟩ := h
  have hown : t.mem.Owns (cells none T ++ []) := by
    rw [List.append_nil]
    exact hl.cells
  apply ((clear_spec hl).and (hl.clear_cells hown)).mono
  rintro t' ⟨⟨hl', hcount'⟩, -, hnum⟩
  refine ⟨⟨_, 0, hl', hcount', le_rfl⟩, hl'.noLeak_iff.2 ?_⟩
  have hlive := hl.noLeak_iff.1 hn
  rw [numNodes]
  omega

/-- What insertions keep, `bintree_rbalance` keeps as far as it returns. -/
theorem rbalance_keeps {I : Bintree α → Prop} (hinsert : ∀ t x, I t →
      Ends (bintreeInsert cmpfn t (some x) true) (fun s => I s.2) fun _ => True)
    {k start stop : ℕ} {src : Buffer α} (h : I t) :
    Ends (bintreeRbalance cmpfn k t src start stop) I fun _ => True := by
  induction k generalizing t start stop with
  | zero => trivial
  | succ k ih =>
    rw [bintreeRbalance]
    apply (Ends.trivial (src.read ((start + stop) / 2))).bind
    intro x _
    apply (hinsert t x h).bind
    intro s hs
    apply Ends.bind (P := I)
    · split
      · exact ih hs
      · exact hs
    · intro t' ht'
      split
      · exact ih ht'
      · exact ht'

/-- What clearing and insertions keep, `bintree_balance` keeps as far as it returns. -/
theorem balance_keeps {I : Bintree α → Prop} (hinsert : ∀ t x, I t →
      Ends (bintreeInsert cmpfn t (some x) true) (fun s => I s.2) fun _ => True)
    (hclear : Returns (bintreeClear t) I) (h : I t) :
    Ends (bintreeBalance cmpfn t) I fun _ => True := by
  apply (Ends.trivial t.readCount).bind
  intro c _
  apply (Ends.trivial (bintreeCollect t (.malloc c) travInorder)).bind
  rintro ⟨ok, arr⟩ -
  cases ok with
  | false => exact h
  | true =>
    apply (hclear.ends _).bind
    intro t' ht'
    exact rbalance_keeps hinsert ht'

/-- `bintree_first` changes only what belongs to the iteration. -/
theorem first_keeps (t : Bintree α) (trav : ℤ) : Ends (bintreeFirst t trav)
    (fun s => s.2.mem = t.mem ∧ s.2.root = t.root ∧ s.2.count = t.count) fun _ => True := by
  have hmoves : Ends (bintreeFirst t trav)
      (Bintree.MovesCursor { t with travtype := some trav, iter := none }) fun _ => True := by
    simp only [bintreeFirst]
    split_ifs
    · exact ends_bind (stop_moves _)
    · exact ends_bind fun _ => ends_bind (stop_moves _)
    · exact ends_bind fun _ => ends_bind (stop_moves _)
    · exact ⟨none, rfl⟩
  apply hmoves.mono
  rintro s ⟨iter, hs⟩
  rw [hs]
  exact ⟨rfl, rfl, rfl⟩

theorem NoLeak.congr {t' : Bintree α} (hm : t'.mem = t.mem) (hr : t'.root = t.root) :
    t'.NoLeak ↔ t.NoLeak := by
  rw [NoLeak, NoLeak, hm, hr]

/-- In every state that calls lead to, `count` is at least the number of nodes. -/
theorem Counted.ends_call (h : t.Counted) (cmpfn : α → α → ℤ) (call : BintreeCall α) :
    Ends (bintreeCall cmpfn t call) (fun s => s.2.Counted) fun _ => True := by
  cases call with
  | op op => exact (h.ends_op cmpfn op).bind fun s hs => hs
  | balance =>
    have hclear : Returns (bintreeClear t) Counted := by
      obtain ⟨T, c, hl, -, -⟩ := h
      exact (clear_spec hl).mono fun t' ht' => ⟨_, 0, ht'.1, ht'.2, le_rfl⟩
    exact (balance_keeps (fun t x ht => (ht.insert cmpfn x).ends _) hclear h).bind fun t' ht' => ht'
  | first trav =>
    exact (first_keeps t trav).bind fun s ⟨hm, hr, hc⟩ => h.congr hm hr hc
  | next => exact (next_moves t).bind fun s hs => h.moves hs

/-- A call leaks nothing if and only if it loses no subtree. -/
theorem NoLeak.ends_call (h : t.Counted) (hn : t.NoLeak) (cmpfn : α → α → ℤ)
    (call : BintreeCall α) : Ends (bintreeCall cmpfn t call)
      (fun s => s.2.NoLeak ↔ t.LosesNothing cmpfn call)
      fun _ => True ↔ t.LosesNothing cmpfn call := by
  have hother (hcall : ∀ x, call ≠ .op (.remove x)) : t.LosesNothing cmpfn call :=
    fun x hx => absurd hx (hcall x)
  have hkeep {x : Exec (BintreeAnswer α × Bintree α)} (hcall : ∀ x, call ≠ .op (.remove x))
      (hx : Ends x (fun s => s.2.NoLeak) fun _ => True) :
      Ends x (fun s => s.2.NoLeak ↔ t.LosesNothing cmpfn call)
        fun _ => True ↔ t.LosesNothing cmpfn call :=
    (hx.mono fun s hs => iff_of_true hs (hother hcall)).fault_mono
      fun _ _ => iff_of_true trivial (hother hcall)
  cases call with
  | op op =>
    cases op with
    | insert x ok =>
      apply hkeep nofun
      apply Ends.bind (P := fun s : BintreeOut × Bintree α => s.2.NoLeak)
      · exact (NoLeak.insert h hn cmpfn x ok).bind fun s hs => hs.2
      · exact fun s hs => hs
    | remove x =>
      have hloses : t.LosesNothing cmpfn (.op (.remove x)) ↔ t.KeepsSubtrees cmpfn x :=
        ⟨fun hk => hk x rfl, fun hk y hy => by cases hy; exact hk⟩
      rw [hloses]
      apply Ends.bind (P := fun s => s.2.NoLeak ↔ t.KeepsSubtrees cmpfn x)
      · exact ((NoLeak.remove h hn cmpfn x).ends _).bind fun s hs => hs
      · exact fun s hs => hs
    | clear =>
      apply hkeep nofun
      apply Ends.bind (P := fun s : BintreeOut × Bintree α => s.2.NoLeak)
      · exact ((NoLeak.clear h hn).ends _).bind fun t' ht' => ht'.2
      · exact fun s hs => hs
  | balance =>
    apply hkeep nofun
    have hbal : Ends (bintreeBalance cmpfn t) (fun t => t.Counted ∧ t.NoLeak) _ :=
      balance_keeps (fun t x ht => NoLeak.insert ht.1 ht.2 cmpfn x true) (NoLeak.clear h hn) ⟨h, hn⟩
    exact hbal.bind fun t' ht' => ht'.2
  | first trav =>
    apply hkeep nofun
    exact (first_keeps t trav).bind fun s ⟨hm, hr, _⟩ => (NoLeak.congr hm hr).2 hn
  | next =>
    apply hkeep nofun
    exact (next_moves t).bind fun s ⟨iter, hs⟩ =>
      (NoLeak.congr (congrArg Bintree.mem hs) (congrArg Bintree.root hs)).2 hn

/-- `bintree_dispose` frees the nodes of the tree, and leaves those that are not in it. -/
theorem Counted.dispose (h : t.Counted) : Returns (bintreeDispose t) fun m => ∀ a,
    (∃ v, m.cell a = some v) ↔ (∃ v, t.mem.cell a = some v) ∧ ¬ InTree t.mem t.root a := by
  obtain ⟨T, c, hl, -, -⟩ := h
  obtain ⟨cs, hown, hnum⟩ := hl.cells.exists_rest
  apply (hl.clear_cells hown).bind
  intro t' ⟨hown', hnum'⟩
  refine .ok fun a => ?_
  rw [List.length_append, length_cells] at hnum
  -- what is left is exactly the rest
  have hleft : (∃ v, t'.mem.cell a = some v) ↔ a ∈ cs.map Prod.fst := by
    constructor
    · rintro ⟨v, hv⟩
      exact hown'.covers_iff.2 (by omega) a v hv
    · intro ha
      obtain ⟨c, hc, rfl⟩ := List.mem_map.1 ha
      exact ⟨c.2, hown'.cell c hc⟩
  have hall : (∃ v, t.mem.cell a = some v) ↔
      a ∈ (cells none T).map Prod.fst ∨ a ∈ cs.map Prod.fst := by
    rw [← List.mem_append, ← List.map_append]
    constructor
    · rintro ⟨v, hv⟩
      exact hown.covers_iff.2 (by rw [List.length_append, length_cells, hnum]) a v hv
    · intro ha
      obtain ⟨c, hc, rfl⟩ := List.mem_map.1 ha
      exact ⟨c.2, hown.cell c hc⟩
  have hdisj : a ∈ cs.map Prod.fst → a ∉ (cells none T).map Prod.fst := by
    intro ha ha'
    have hnodup := hown.nodup
    rw [List.map_append] at hnodup
    exact (List.nodup_append.1 hnodup).2.2 a ha' a ha rfl
  rw [hleft, hall, hl.inTree_iff]
  tauto

end Bintree

/-- **What a binary tree leaks.** In a run of calls, whatever `malloc` does and whichever of the calls
fault, every live node is in the tree in every state if and only if no `bintree_remove` loses a
subtree. Whatever the run lost, `bintree_dispose` then returns and leaves exactly the live nodes that
are not in the tree. -/
theorem bintree_leaks_iff (cmpfn : α → α → ℤ) (calls : List (BintreeCall α)) :
    (Throughout (bintreeCall cmpfn) (fun _ => True) Bintree.NoLeak bintreeInit calls ↔
      Meets (bintreeCall cmpfn) (Bintree.LosesNothing cmpfn) bintreeInit calls) ∧
    ∀ os (t : Bintree α), runs (bintreeCall cmpfn) bintreeInit calls = .ok (os, t) →
      Returns (bintreeDispose t) fun m => ∀ a, (∃ v, m.cell a = some v) ↔
        (∃ v, t.mem.cell a = some v) ∧ ¬ Bintree.InTree t.mem t.root a := by
  constructor
  · apply throughout_iff_meets Bintree.Counted _ Bintree.counted_init nofun
    intro t call h hn
    have hcounted := h.ends_call cmpfn call
    have hleak := Bintree.NoLeak.ends_call h hn cmpfn call
    cases hx : bintreeCall cmpfn t call with
    | error e =>
      rw [hx] at hleak
      exact hleak
    | ok s =>
      rw [hx] at hcounted hleak
      exact ⟨hcounted, hleak⟩
  · intro os t hrun
    have h := runs_invariant Bintree.Counted (fun t call o t' h hstep => ?_) Bintree.counted_init hrun
    · exact h.dispose
    · have hcounted := h.ends_call cmpfn call
      rwa [hstep] at hcounted

end LibSrsBsns
