import LibSrsBsns.Bintree.Shape

/-!
# Changes of a binary tree

`bintree_insert` and `bintree_nodefind` go down the same path (`Bintree.Path`), to a node with an
equal element or to a null pointer. What `bintree_insert`, `bintree_remove` and `bintree_clear` do
to the tree is stated at the place the path leads to: `Bintree.insert_spec`, `Bintree.Removed` with
`Bintree.remove_spec`, and `Bintree.clear_spec`. None of this depends on the comparison function
being an order.
-/

namespace LibSrsBsns

open C BinaryTree

variable {α : Type} {cmpfn : α → α → ℤ}

namespace Bintree

variable {t : Bintree α} {T S l r : BinaryTree (BtCell α)} {C : List (Frame (BtCell α))}
  {f : Frame (BtCell α)} {n : BtCell α} {p : Ptr} {m : Memory (BtNode α)}
  {cs : List (ℕ × BtNode α)} {x : α} {c : ℕ}

/-! ## Searching -/

/-- The comparisons with `x` on the way to the hole have led there. -/
def Path (cmpfn : α → α → ℤ) (x : α) (C : List (Frame (BtCell α))) : Prop :=
  ∀ f ∈ C, match f with
    | .left n _ => cmpfn x n.2 < 0
    | .right n _ => cmpfn x n.2 > 0

theorem path_nil : Path cmpfn x [] := by simp [Path]

theorem Path.left (h : Path cmpfn x C) (hx : cmpfn x n.2 < 0) : Path cmpfn x (.left n r :: C) :=
  List.forall_mem_cons.2 ⟨hx, h⟩

theorem Path.right (h : Path cmpfn x C) (hx : cmpfn x n.2 > 0) : Path cmpfn x (.right n l :: C) :=
  List.forall_mem_cons.2 ⟨hx, h⟩

/-- `bintree_nodefind` goes down the path of `x`. -/
theorem nodefind_spec (h : t.Linked T) (x : α) : Returns (bintreeNodefind cmpfn t x) fun p =>
    ∃ C, Path cmpfn x C ∧ match p with
      | none => T = plug C .nil
      | some a => ∃ n l r, T = plug C (.node n l r) ∧ n.1 = a ∧ cmpfn x n.2 = 0 := by
  have hle := h.numNodes_le
  apply Returns.loop_ghost
    (fun (g : List (Frame (BtCell α)) × BinaryTree (BtCell α)) (p : Ptr) =>
      T = plug g.1 g.2 ∧ ptr g.2 = p ∧ Path cmpfn x g.1)
    (fun g => g.2.numNodes) _ _ (g := ([], T)) ⟨rfl, h.root.symm, path_nil⟩
    (Nat.lt_succ_of_le hle)
  rintro ⟨C, S⟩ p ⟨rfl, rfl, hp⟩
  cases S with
  | nil => exact .ok ⟨C, hp, rfl⟩
  | node n l r =>
    simp only [ptr_node, h.load, ok_bind]
    split
    case isTrue hlt =>
      refine .ok ⟨(.left n r :: C, l), ⟨rfl, rfl, hp.left hlt⟩, ?_⟩
      simp only [numNodes]
      omega
    case isFalse hlt =>
      split
      case isTrue hgt =>
        refine .ok ⟨(.right n l :: C, r), ⟨rfl, rfl, hp.right hgt⟩, ?_⟩
        simp only [numNodes]
        omega
      case isFalse hgt => exact .ok ⟨C, hp, n, l, r, rfl, rfl, by omega⟩

/-! ## Writing -/

/-- Another element in a node. -/
theorem Linked.replace (h : t.Linked (plug C (.node n l r))) (x : α) :
    t.mem.modify n.1 (fun v => { v with data := x }) =
        .ok (t.mem.put n.1 ⟨x, ptr l, ptr r, parentPtr C⟩) ∧
      Linked { t with mem := t.mem.put n.1 ⟨x, ptr l, ptr r, parentPtr C⟩ }
        (plug C (.node (n.1, x) l r)) := by
  refine ⟨Memory.modify_of_cell h.focus.head _, linked_plug ?_ (h.focus.put _)⟩
  rw [h.root, ptr_plug]
  rfl

/-- Another pointer in the hole. -/
theorem modify_hole (h : m.Owns (frameCells (f :: C) p ++ cs)) (q : Ptr) :
    ∃ m', m.modify f.value.1 (fun w => if f.isLeft then { w with left := q }
        else { w with right := q }) = .ok m' ∧ m'.Owns (frameCells (f :: C) q ++ cs) := by
  cases f with
  | left n r => exact ⟨_, Memory.modify_of_cell h.head _, h.put _⟩
  | right n l => exact ⟨_, Memory.modify_of_cell h.head _, h.put _⟩

theorem parentPtr_cons : parentPtr (f :: C) = some f.value.1 := by
  cases f <;> rfl

theorem rootPtr_cons (q : Ptr) : rootPtr (f :: C) p = rootPtr (f :: C) q := by
  cases f <;> rfl

theorem readCount_of_root (hr : t.root ≠ none) : t.readCount = bintreeCount t := by
  unfold bintreeCount
  split
  case h_1 h => exact absurd h hr
  case h_2 => rfl

theorem bintreeCount_nil (h : t.Linked .nil) : bintreeCount t = .ok 0 := by
  rw [bintreeCount, h.root]
  rfl

theorem bintreeCount_of_count (hr : t.root ≠ none) (hc : t.count = some c) :
    bintreeCount t = .ok c := by
  rw [← readCount_of_root hr, readCount, hc]

/-- `malloc` of a leaf in an empty hole. -/
theorem addLeaf_spec (h : t.Linked (plug (f :: C) .nil)) (hc : bintreeCount t = .ok c) (x : α)
    (ok : Bool) : Ends (addLeaf t f.value.1 f.isLeft x ok)
      (fun r => ∃ a, r.1 = some a ∧ r.2.Linked (plug (f :: C) (.node (a, x) .nil .nil)) ∧
        bintreeCount r.2 = .ok (c + 1)) (fun e => e = .nullDeref ∧ ok = false) := by
  have hroot : t.root ≠ none := by
    rw [h.root, Ne, ptr_eq_none]
    cases f <;> exact plug_node_ne_nil
  unfold addLeaf
  cases ok with
  | false => exact ⟨rfl, rfl⟩
  | true =>
    have hnew := h.focus.alloc ⟨x, none, none, some f.value.1⟩
    rw [cells_nil, List.nil_append] at hnew
    obtain ⟨m', hm', hown⟩ := modify_hole (hnew.perm (List.perm_append_singleton _ _).symm)
      (some t.mem.brk)
    simp only [Memory.alloc, Bool.not_true, Bool.false_eq_true, if_false, hm', ok_bind,
      readCount_of_root hroot, hc]
    refine ⟨t.mem.brk, rfl, linked_plug ?_ ?_, bintreeCount_of_count hroot rfl⟩
    · rw [rootPtr_cons (ptr .nil), ← ptr_plug]
      exact h.root
    · rw [parentPtr_cons]
      exact hown.perm (List.perm_append_singleton _ _)

/-! ## Inserting -/

/-- What the loop of `bintree_insert` does: it finds a node with an equal element, or adds a leaf. -/
theorem insertLoop_spec (h : t.Linked T) (hT : T ≠ .nil) (hc : bintreeCount t = .ok c) (x : α)
    (ok : Bool) : Ends (insertLoop cmpfn t x ok (t.mem.brk + 1) t.root)
      (fun r => ∃ C, Path cmpfn x C ∧
        ((∃ n l r', T = plug C (.node n l r') ∧ cmpfn x n.2 = 0 ∧ r = (some n.1, t)) ∨
          (T = plug C .nil ∧ ∃ a, r.1 = some a ∧ r.2.Linked (plug C (.node (a, x) .nil .nil)) ∧
            bintreeCount r.2 = .ok (c + 1))))
      (fun e => e = .nullDeref ∧ ok = false ∧ ∃ C, Path cmpfn x C ∧ T = plug C .nil) := by
  have hle := h.numNodes_le
  apply Ends.loop
    (fun (g : List (Frame (BtCell α)) × BinaryTree (BtCell α)) (p : Ptr) =>
      T = plug g.1 g.2 ∧ ptr g.2 = p ∧ g.2 ≠ .nil ∧ Path cmpfn x g.1)
    (fun g => g.2.numNodes) _ _ _ (g := ([], T)) ⟨rfl, h.root.symm, hT, path_nil⟩
    (Nat.lt_succ_of_le hle)
  rintro ⟨C, S⟩ p ⟨rfl, rfl, hne, hp⟩
  cases S with
  | nil => exact absurd rfl hne
  | node n l r =>
    simp only [ptr_node, h.load, ok_bind]
    split
    case isTrue hlt =>
      cases l with
      | nil =>
        have hleaf := addLeaf_spec (f := .left n r) h hc x ok
        apply (hleaf.fault_mono fun e he => ⟨he.1, he.2, _, hp.left hlt, rfl⟩).bind
        intro s hs
        exact ⟨.left n r :: C, hp.left hlt, .inr ⟨rfl, hs⟩⟩
      | node n' l₁ l₂ =>
        refine ⟨(.left n r :: C, .node n' l₁ l₂), ⟨rfl, rfl, by simp, hp.left hlt⟩, ?_⟩
        simp only [numNodes]
        omega
    case isFalse hlt =>
      split
      case isTrue hgt =>
        cases r with
        | nil =>
          have hleaf := addLeaf_spec (f := .right n l) h hc x ok
          apply (hleaf.fault_mono fun e he => ⟨he.1, he.2, _, hp.right hgt, rfl⟩).bind
          intro s hs
          exact ⟨.right n l :: C, hp.right hgt, .inr ⟨rfl, hs⟩⟩
        | node n' r₁ r₂ =>
          refine ⟨(.right n l :: C, .node n' r₁ r₂), ⟨rfl, rfl, by simp, hp.right hgt⟩, ?_⟩
          simp only [numNodes]
          omega
      case isFalse hgt => exact ⟨C, hp, .inl ⟨n, l, r, rfl, by omega, rfl⟩⟩

/-- **`bintree_insert`** replaces an equal element, and nothing else, or adds a leaf at the end of the
path. It faults only if `malloc` fails where a leaf is to be added. -/
theorem insert_spec (h : t.Linked T) (hc : bintreeCount t = .ok c) (x : α) (ok : Bool) :
    Ends (bintreeInsert cmpfn t (some x) ok)
      (fun r => r.1 = true ∧ ∃ C, Path cmpfn x C ∧
        ((∃ n l r', T = plug C (.node n l r') ∧ cmpfn x n.2 = 0 ∧
            r.2 = { t with mem := t.mem.put n.1 ⟨x, ptr l, ptr r', parentPtr C⟩ }) ∨
          (T = plug C .nil ∧ ∃ a, r.2.Linked (plug C (.node (a, x) .nil .nil)) ∧
            bintreeCount r.2 = .ok (c + 1))))
      (fun e => e = .nullDeref ∧ ok = false ∧ ∃ C, Path cmpfn x C ∧ T = plug C .nil) := by
  cases T with
  | nil =>
    have hroot : t.root = none := h.root
    rw [bintreeCount_nil h] at hc
    obtain rfl := Except.ok.inj hc
    simp only [bintreeInsert, hroot]
    cases ok with
    | false => exact ⟨rfl, rfl, [], path_nil, rfl⟩
    | true =>
      have hnew := h.cells.alloc ⟨x, none, none, none⟩
      exact ⟨rfl, [], path_nil, .inr ⟨rfl, t.mem.brk, ⟨rfl, hnew⟩, rfl⟩⟩
  | node n l r =>
    obtain ⟨mem, count, root, iter, travtype⟩ := t
    obtain rfl : root = some n.1 := h.root
    apply (insertLoop_spec h (by simp) hc x ok).bind
    rintro ⟨q, t'⟩ ⟨C, hp, ⟨n', l', r', hT, heq, hr⟩ | ⟨hT, a, rfl, hl, hc'⟩⟩
    · obtain ⟨rfl, rfl⟩ := Prod.mk.inj hr
      rw [hT] at h
      simp only [(h.replace x).1, ok_bind]
      exact ⟨rfl, C, hp, .inl ⟨n', l', r', hT, heq, rfl⟩⟩
    · -- the new leaf already has its element
      simp only [(hl.replace x).1, ok_bind]
      refine ⟨rfl, C, hp, .inr ⟨hT, a, (hl.replace x).2, ?_⟩⟩
      exact hc'

/-! ## Removing -/

/-- Whether the hole is a left child; it is not at the root. -/
def holeLeft : List (Frame (BtCell α)) → Bool
  | [] => false
  | f :: _ => f.isLeft

theorem isLeft_spec (h : t.Linked (plug C (.node n l r))) :
    isLeft t.mem n.1 ⟨n.2, ptr l, ptr r, parentPtr C⟩ = .ok (holeLeft C) := by
  cases C with
  | nil => rfl
  | cons f C =>
    cases f with
    | left n' r' =>
      simp only [isLeft, parentPtr, h.load_left, ok_bind]
      simp [holeLeft, Frame.isLeft]
    | right n' l' =>
      have hne : ptr l' ≠ some n.1 := h.ptr_left_ne
      simp only [isLeft, parentPtr, h.load_right, ok_bind]
      simp [holeLeft, Frame.isLeft, hne]

theorem relink_spec {v : BtNode α} (hv : v.parent = parentPtr C) (hr : t.root = rootPtr C p)
    (h : t.mem.Owns (frameCells C p ++ cs)) (q : Ptr) :
    ∃ t', relink t v (holeLeft C) q = .ok t' ∧ t'.root = rootPtr C q ∧
      t'.mem.Owns (frameCells C q ++ cs) ∧ t'.count = t.count := by
  unfold relink
  rw [hv]
  cases C with
  | nil => exact ⟨_, rfl, rfl, h, rfl⟩
  | cons f C =>
    obtain ⟨m', hm', hown⟩ := modify_hole h q
    rw [parentPtr_cons, show holeLeft (f :: C) = f.isLeft from rfl]
    simp only [hm', ok_bind]
    exact ⟨_, rfl, hr.trans (rootPtr_cons q), hown, rfl⟩

/-- The loop for `maxnode` goes to the right as far as it can. -/
theorem maxLoop_spec {a : ℕ} (h : t.Linked (plug C l)) (ha : ptr l = some a) :
    Returns (maxLoop t.mem (t.mem.brk + 1) a) fun b =>
      ∃ D n l', l = plug D (.node n l' .nil) ∧ afterIn D = [] ∧ n.1 = b := by
  apply h.walk (fun D S => ∃ E, D = E ++ C ∧ l = plug E S ∧ afterIn E = []) (fun _ S => S.numNodes) _ _
    ha ⟨[], rfl, rfl, rfl⟩ h.numNodes_lt_turns
  rintro _ n l' r' hT h ⟨E, rfl, hl, hE⟩
  simp only [h.load, ok_bind]
  cases r' with
  | nil => exact .ok ⟨E, n, l', hl, hE, rfl⟩
  | node n' r₁ r₂ =>
    refine .ok ⟨.right n l' :: (E ++ C), .node n' r₁ r₂, hT, rfl, ⟨.right n l' :: E, rfl, hl, hE⟩, ?_⟩
    simp only [numNodes]
    omega

/-- `maxnode` is one of its parent's children, so that it is unlinked. -/
theorem unlinkMax_spec {v : BtNode α} (h : t.Linked (plug (f :: C) (.node n l r)))
    (hv : v.parent = some f.value.1) : ∃ m', unlinkMax t.mem n.1 v = .ok m' ∧
      m'.Owns ((n.1, ⟨n.2, ptr l, ptr r, some f.value.1⟩) ::
        (frameCells (f :: C) none ++ (cells (some n.1) l ++ cells (some n.1) r))) := by
  have hown : t.mem.Owns (frameCells (f :: C) (some n.1) ++
      ((n.1, ⟨n.2, ptr l, ptr r, some f.value.1⟩) ::
        (cells (some n.1) l ++ cells (some n.1) r))) := by
    rw [← parentPtr_cons (f := f) (C := C)]
    exact h.focus.perm List.perm_append_comm
  unfold unlinkMax
  rw [hv]
  cases f with
  | left n' r' =>
    have hput : (t.mem.put n'.1 ⟨n'.2, none, ptr r', parentPtr C⟩).Owns
        (frameCells (.left n' r' :: C) none ++ ((n.1, ⟨n.2, ptr l, ptr r, some n'.1⟩) ::
          (cells (some n.1) l ++ cells (some n.1) r))) := hown.put _
    refine ⟨_, ?_, hput.perm List.perm_middle⟩
    simp only [Frame.value, deref_some, h.load_left, ok_bind, ptr_node, if_true]
    exact Memory.store_of_cell hown.head
  | right n' l' =>
    have hne : ptr l' ≠ some n.1 := h.ptr_left_ne
    have hput : (t.mem.put n'.1 ⟨n'.2, ptr l', none, parentPtr C⟩).Owns
        (frameCells (.right n' l' :: C) none ++ ((n.1, ⟨n.2, ptr l, ptr r, some n'.1⟩) ::
          (cells (some n.1) l ++ cells (some n.1) r))) := hown.put _
    refine ⟨_, ?_, hput.perm List.perm_middle⟩
    simp only [Frame.value, deref_some, h.load_right, ok_bind, ptr_node, if_neg hne, if_true]
    exact Memory.store_of_cell hown.head

/-- What is left when the node `n` at the place `C` is removed. A node with two children gets the
element of the largest node on its left, which goes together with what is below it. -/
inductive Removed (C : List (Frame (BtCell α))) (n : BtCell α) :
    BinaryTree (BtCell α) → BinaryTree (BtCell α) → BinaryTree (BtCell α) → Prop
  | noLeft (r : BinaryTree (BtCell α)) : Removed C n .nil r (plug C r)
  | noRight (l : BinaryTree (BtCell α)) : Removed C n l .nil (plug C l)
  | both {D : List (Frame (BtCell α))} {b : BtCell α} {l r : BinaryTree (BtCell α)}
      (hD : afterIn D = []) (hr : r ≠ .nil) :
      Removed C n (plug D (.node b l .nil)) r (plug (D ++ .left (n.1, b.2) r :: C) .nil)

/-- A node with one child is replaced by it. -/
theorem detach_child {v : BtNode α} (h : t.Linked (plug C (.node n l r)))
    (hv : v.parent = parentPtr C) {S : BinaryTree (BtCell α)} {b : ℕ} (hb : ptr S = some b)
    (hS : (cells (some n.1) l ++ cells (some n.1) r) = cells (some n.1) S) :
    Returns (do
      let t ← relink t v (holeLeft C) (some b)
      let mem ← t.mem.modify b fun w => { w with parent := v.parent }
      .ok (n.1, ({ t with mem } : Bintree α))) fun s =>
        ∃ v, s.2.root = ptr (plug C S) ∧ s.2.mem.Owns ((s.1, v) :: cells none (plug C S)) ∧
          s.2.count = t.count := by
  have hroot : t.root = rootPtr C (some n.1) := by
    rw [h.root, ptr_plug]
    rfl
  have hown : t.mem.Owns (frameCells C (some n.1) ++
      ((n.1, ⟨n.2, ptr l, ptr r, parentPtr C⟩) :: cells (some n.1) S)) := by
    rw [← hS]
    exact h.focus.perm List.perm_append_comm
  obtain ⟨t', ht', hroot', hown', hcount⟩ := relink_spec hv hroot hown (some b)
  cases S with
  | nil => cases hb
  | node c S₁ S₂ =>
    obtain rfl : c.1 = b := Option.some.inj hb
    have hown₂ : t'.mem.Owns ((c.1, ⟨c.2, ptr S₁, ptr S₂, some n.1⟩) ::
        ((n.1, ⟨n.2, ptr l, ptr r, parentPtr C⟩) ::
          ((cells (some c.1) S₁ ++ cells (some c.1) S₂) ++ frameCells C (some c.1)))) :=
      hown'.perm (List.perm_append_comm.trans (.swap _ _ _))
    simp only [ht', ok_bind, Memory.modify_of_cell hown₂.head, hv]
    have hput : (t'.mem.put c.1 ⟨c.2, ptr S₁, ptr S₂, parentPtr C⟩).Owns
        ((n.1, ⟨n.2, ptr l, ptr r, parentPtr C⟩) ::
          (cells (parentPtr C) (.node c S₁ S₂) ++ frameCells C (some c.1))) :=
      (hown₂.put _).perm (.swap _ _ _)
    exact .ok ⟨_, hroot'.trans (ptr_plug (T := .node c S₁ S₂)).symm,
      hput.perm (cells_plug.symm.cons _), hcount⟩

/-- A node without children is taken out. -/
theorem detach_leaf (h : t.Linked (plug C (.node n .nil .nil))) (hroot : t.root = rootPtr C (some n.1)) :
    Returns (detach t n.1) fun s => ∃ v, s.2.root = ptr (plug C .nil) ∧
      s.2.mem.Owns ((s.1, v) :: cells none (plug C .nil)) ∧ s.2.count = t.count := by
  have hstore := Memory.store_of_cell (v := ⟨n.2, none, none, parentPtr C⟩) h.focus.head
  have hput : (t.mem.put n.1 ⟨n.2, none, none, parentPtr C⟩).Owns
      ([(n.1, ⟨n.2, none, none, parentPtr C⟩)] ++ frameCells C (some n.1)) := h.focus.put _
  have hown := hput.perm List.perm_append_comm
  simp only [detach, h.load, isLeft_spec h, ok_bind]
  simp only [ptr_nil, hstore, ok_bind]
  obtain ⟨t', ht', hroot', hown', hcount⟩ :=
    relink_spec (t := { t with mem := t.mem.put n.1 ⟨n.2, none, none, parentPtr C⟩ })
      (v := ⟨n.2, none, none, parentPtr C⟩) rfl hroot hown none
  rw [ht', ok_bind]
  have hout : t'.mem.Owns ((n.1, ⟨n.2, none, none, parentPtr C⟩) ::
      (cells (parentPtr C) .nil ++ frameCells C none)) := hown'.perm List.perm_append_comm
  exact .ok ⟨_, hroot'.trans (ptr_plug (T := .nil)).symm, hout.perm (cells_plug.symm.cons _), hcount⟩

/-- Of a node with two children the element goes, and the maximum on the left takes its place. -/
theorem detach_both {b c : BtCell α} {l₁ l₂ r₁ r₂ : BinaryTree (BtCell α)}
    (h : t.Linked (plug C (.node n (.node b l₁ l₂) (.node c r₁ r₂)))) :
    Returns (detach t n.1) fun s => ∃ v T', Removed C n (.node b l₁ l₂) (.node c r₁ r₂) T' ∧
      s.2.root = ptr T' ∧ s.2.mem.Owns ((s.1, v) :: cells none T') ∧ s.2.count = t.count := by
  simp only [detach, h.load, isLeft_spec h, ok_bind]
  have hmax := maxLoop_spec (C := .left n (.node c r₁ r₂) :: C) (l := .node b l₁ l₂) h rfl
  apply hmax.bind
  rintro _ ⟨D, z, lz, hl, hD, rfl⟩
  generalize BinaryTree.node b l₁ l₂ = l at *
  generalize hr : BinaryTree.node c r₁ r₂ = r at *
  subst hl
  -- the element of `n` goes to `z`, then that of `z` to `n`
  have hz : t.Linked (plug (D ++ .left n r :: C) (.node z lz .nil)) := by
    rw [plug_append]
    exact h
  have hstore := Memory.store_of_cell
    (v := ⟨n.2, ptr lz, ptr (α := α) .nil, parentPtr (D ++ .left n r :: C)⟩) hz.focus.head
  have hz' := (hz.replace n.2).2
  rw [plug_append] at hz'
  have hn : Linked _ (plug C (.node n (plug D (.node (z.1, n.2) lz .nil)) r)) := hz'
  have hn' := hn.replace z.2
  have hplug : plug C (.node (n.1, z.2) (plug D (.node (z.1, n.2) lz .nil)) r) =
      plug (D ++ .left (n.1, z.2) r :: C) (.node (z.1, n.2) lz .nil) := by
    rw [plug_append]
    rfl
  have hlast := hn'.2
  rw [hplug] at hlast
  simp only [hz.load, ok_bind, hstore, hn'.1]
  -- the innermost frame around `z` is one of `D` or that of `n`
  obtain ⟨f, E, hE, hpar⟩ : ∃ f E, D ++ .left (n.1, z.2) r :: C = f :: E ∧
      parentPtr (D ++ .left n r :: C) = some f.value.1 := by
    cases D with
    | nil => exact ⟨_, _, rfl, rfl⟩
    | cons f D => exact ⟨_, _, rfl, parentPtr_cons⟩
  rw [hE] at hlast
  obtain ⟨m', hm', hown⟩ := unlinkMax_spec
    (v := ⟨z.2, ptr lz, ptr (α := α) .nil, parentPtr (D ++ .left n r :: C)⟩) hlast hpar
  rw [hm', ok_bind]
  have hsub : m'.Owns ((z.1, ⟨n.2, ptr lz, none, some f.value.1⟩) ::
      (cells (parentPtr (f :: E)) .nil ++ frameCells (f :: E) none)) :=
    hown.sublist ((List.sublist_append_left _ _).cons_cons _)
  have hout := hsub.perm (cells_plug.symm.cons _)
  rw [← hE] at hout
  refine .ok ⟨_, _, .both hD (hr ▸ by simp), ?_, hout, rfl⟩
  rw [hE, ptr_plug]
  exact (hlast.root.trans ptr_plug).trans (rootPtr_cons _)

/-- The node found is taken out of the tree. -/
theorem detach_spec (h : t.Linked (plug C (.node n l r))) : Returns (detach t n.1) fun s =>
    ∃ v T', Removed C n l r T' ∧ s.2.root = ptr T' ∧ s.2.mem.Owns ((s.1, v) :: cells none T') ∧
      s.2.count = t.count := by
  cases l with
  | nil =>
    cases r with
    | nil =>
      have hroot : t.root = rootPtr C (some n.1) := h.root.trans ptr_plug
      apply (detach_leaf h hroot).mono
      intro s ⟨v, hs⟩
      exact ⟨v, _, .noLeft .nil, hs⟩
    | node c r₁ r₂ =>
      simp only [detach, h.load, isLeft_spec h, ok_bind]
      apply (detach_child (S := .node c r₁ r₂) h rfl rfl rfl).mono
      intro s ⟨v, hs⟩
      exact ⟨v, _, .noLeft _, hs⟩
  | node b l₁ l₂ =>
    cases r with
    | nil =>
      simp only [detach, h.load, isLeft_spec h, ok_bind]
      apply (detach_child (S := .node b l₁ l₂) h rfl rfl (List.append_nil _)).mono
      intro s ⟨v, hs⟩
      exact ⟨v, _, .noRight _, hs⟩
    | node c r₁ r₂ => exact detach_both h

/-- **`bintree_remove`** removes the node that the path leads to, if there is one. -/
theorem remove_spec (h : t.Linked T) (hc : bintreeCount t = .ok c) (x : α) :
    Returns (bintreeRemove cmpfn t x) fun s => ∃ C, Path cmpfn x C ∧
      ((T = plug C .nil ∧ s = (false, t)) ∨
        ∃ n l r T', T = plug C (.node n l r) ∧ cmpfn x n.2 = 0 ∧ Removed C n l r T' ∧
          s.1 = true ∧ s.2.Linked T' ∧ s.2.count = some (c - 1)) := by
  apply (nodefind_spec h x).bind
  rintro (_ | a) ⟨C, hp, hfound⟩
  · exact .ok ⟨C, hp, .inl ⟨hfound, rfl⟩⟩
  · obtain ⟨n, l, r, rfl, rfl, heq⟩ := hfound
    have hroot : t.root ≠ none := by
      rw [h.root, Ne, ptr_eq_none]
      exact plug_node_ne_nil
    rw [← readCount_of_root hroot] at hc
    apply (detach_spec h).bind
    rintro ⟨a, t'⟩ ⟨v, T', hrem, hroot', hown, hcount⟩
    have hc' : t'.readCount = .ok c := by
      rw [← hc, readCount, readCount, hcount]
    simp only [Memory.free_of_cell hown.head, ok_bind]
    have hread : Bintree.readCount t' = .ok c := hc'
    rw [hread, ok_bind]
    exact .ok ⟨C, hp, .inr ⟨n, l, r, T', rfl, heq, hrem, rfl, ⟨hroot', hown.erase⟩, rfl⟩⟩

/-! ## Clearing -/

theorem rclear_spec {k : ℕ} (h : m.Owns (cells p T ++ cs)) (hk : T.numNodes ≤ k) :
    Returns (bintreeRclear k m (ptr T)) fun m' => m'.Owns cs := by
  induction T generalizing k m p cs with
  | nil =>
    cases k <;> exact .ok h
  | node n l r ihl ihr =>
    obtain ⟨k, rfl⟩ : ∃ k', k = k' + 1 := ⟨k - 1, by simp only [numNodes] at hk; omega⟩
    simp only [numNodes] at hk
    have hload := Memory.load_of_cell h.head
    simp only [ptr_node, bintreeRclear, hload, ok_bind]
    have hl : m.Owns (cells (some n.1) l ++ ((n.1, ⟨n.2, ptr l, ptr r, p⟩) ::
        (cells (some n.1) r ++ cs))) := by
      apply h.perm
      rw [cells, List.cons_append, List.append_assoc]
      exact List.perm_middle.symm
    apply (ihl hl (by omega)).bind
    intro m₁ h₁
    simp only [Memory.load_of_cell h₁.head, ok_bind]
    apply (ihr (h₁.perm List.perm_middle.symm) (by omega)).bind
    intro m₂ h₂
    rw [Memory.free_of_cell h₂.head]
    exact .ok h₂.erase

/-- `bintree_clear` leaves the empty tree. -/
theorem clear_spec (h : t.Linked T) :
    Returns (bintreeClear t) fun t' => t'.Linked .nil ∧ bintreeCount t' = .ok 0 := by
  have hle := h.numNodes_le
  have hown : t.mem.Owns (cells none T ++ []) := by
    rw [List.append_nil]
    exact h.cells
  rw [bintreeClear, h.root]
  apply (rclear_spec hown hle).bind
  intro m' hm'
  exact .ok ⟨⟨rfl, hm'⟩, rfl⟩

end Bintree

/-! ## Runs -/

/-- The calls that change a tree; `ok` says whether `malloc` succeeds. -/
inductive BintreeOp (α : Type)
  | insert (data : α) (ok : Bool)
  | remove (data : α)
  | clear

/-- The call is an insertion without memory for it. -/
def BintreeOp.NoMemory : BintreeOp α → Prop
  | .insert _ ok => ok = false
  | _ => False

/-- What a call returns, if it returns something. -/
inductive BintreeOut
  | unit
  | bool (b : Bool)
  deriving DecidableEq

/-- A call on the tree. -/
def bintreeStep (cmpfn : α → α → ℤ) (t : Bintree α) : BintreeOp α → Exec (BintreeOut × Bintree α)
  | .insert data ok => do
    let (b, t) ← bintreeInsert cmpfn t (some data) ok
    .ok (.bool b, t)
  | .remove data => do
    let (b, t) ← bintreeRemove cmpfn t data
    .ok (.bool b, t)
  | .clear => do
    let t ← bintreeClear t
    .ok (.unit, t)

namespace Bintree

variable {t : Bintree α} {T : BinaryTree (BtCell α)}

/-- The nodes of `t` form a tree, each with the pointers to its children and to its parent. -/
def Consistent (t : Bintree α) : Prop := ∃ T, t.Linked T

theorem exists_bintreeCount {c : ℕ} (hc : t.count = some c) : ∃ c, bintreeCount t = .ok c := by
  unfold bintreeCount
  split
  · exact ⟨0, rfl⟩
  · exact ⟨c, by rw [readCount, hc]⟩

/-- What every call does to the tree in memory. It depends on nothing but the links. -/
theorem step_linked (cmpfn : α → α → ℤ) (h : t.Linked T) (hc : ∃ c, bintreeCount t = .ok c) (op : BintreeOp α) :
    Ends (bintreeStep cmpfn t op)
      (fun s => ∃ T', s.2.Linked T' ∧ ∃ c, bintreeCount s.2 = .ok c)
      (fun e => e = .nullDeref ∧ op.NoMemory) := by
  obtain ⟨c, hc⟩ := hc
  cases op with
  | insert x ok =>
    apply ((insert_spec h hc x ok).fault_mono fun e he => ⟨he.1, he.2.1⟩).bind
    rintro ⟨b, t'⟩ ⟨-, C, -, ⟨n, l, r, rfl, -, rfl⟩ | ⟨rfl, a, hl, hc'⟩⟩
    · exact ⟨_, (h.replace x).2, c, hc⟩
    · exact ⟨_, hl, _, hc'⟩
  | remove x =>
    apply ((remove_spec h hc x).ends _).bind
    rintro ⟨b, t'⟩ ⟨C, -, ⟨-, hr⟩ | ⟨n, l, r, T', rfl, -, -, -, hl, hc'⟩⟩
    · obtain ⟨-, rfl⟩ := Prod.mk.inj hr
      exact ⟨T, h, c, hc⟩
    · exact ⟨T', hl, exists_bintreeCount hc'⟩
  | clear =>
    apply ((clear_spec h).ends _).bind
    rintro t' ⟨hl, hc'⟩
    exact ⟨_, hl, 0, hc'⟩

/-- Every state that calls lead to is consistent. -/
theorem consistent_of_runs {ops : List (BintreeOp α)} {os : List BintreeOut}
    (h : runs (bintreeStep cmpfn) bintreeInit ops = .ok (os, t)) : t.Consistent := by
  have hrun := Ends.runs_trace (fun _ _ _ _ => True)
    (fun (t : Bintree α) (_ : Unit) => ∃ T, t.Linked T ∧ ∃ c, bintreeCount t = .ok c)
    (fun op e => e = .nullDeref ∧ op.NoMemory) (fun _ => True)
    (fun t _ op _ ⟨T, hl, hc⟩ => (step_linked cmpfn hl hc op).mono fun _ hs =>
      ⟨(), trivial, hs⟩)
    (t := ()) ⟨_, linked_init, 0, rfl⟩ (fun _ _ => trivial : ∀ op ∈ ops, True)
  rw [h] at hrun
  obtain ⟨-, -, T, hl, -⟩ := hrun
  exact ⟨T, hl⟩

end Bintree

end LibSrsBsns
