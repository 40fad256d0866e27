import LibSrsBsns.Bintree.Model
import LibSrsBsns.Foundations.C.Runs
import LibSrsBsns.Foundations.Data.TreeZipper

/-!
# The shape of a binary tree in memory

The nodes of a tree are described by a binary tree of addresses and elements: `Bintree.cells` lists
the contents that the memory has at these addresses, with the pointers to children and parents that
belong there, and `t.Linked T` says that it has them. At a place of the tree the cells are those
below the hole and those of the frames (`cells_plug`), of which only the innermost points into the
hole. So every operation is followed by a loop to the place where it changes the tree, and a change
of the few cells there.
-/

namespace LibSrsBsns

open C BinaryTree

variable {α : Type}

/-- A node of a tree: its address and its element. -/
abbrev BtCell (α : Type) := ℕ × α

namespace Bintree

/-- The pointer to a tree. -/
def ptr : BinaryTree (BtCell α) → Ptr
  | .nil => none
  | .node n _ _ => some n.1

/-- The contents of the nodes of a tree below the given parent. -/
def cells : Ptr → BinaryTree (BtCell α) → List (ℕ × BtNode α)
  | _, .nil => []
  | par, .node n l r =>
    (n.1, ⟨n.2, ptr l, ptr r, par⟩) :: (cells (some n.1) l ++ cells (some n.1) r)

/-- The parent of the hole. -/
def parentPtr : List (Frame (BtCell α)) → Ptr
  | [] => none
  | .left n _ :: _ => some n.1
  | .right n _ :: _ => some n.1

/-- The pointer to a tree with the pointer `p` in its hole. -/
def rootPtr : List (Frame (BtCell α)) → Ptr → Ptr
  | [], p => p
  | .left n _ :: C, _ => rootPtr C (some n.1)
  | .right n _ :: C, _ => rootPtr C (some n.1)

/-- The contents of the nodes around the hole, where `p` is the pointer in the hole. -/
def frameCells : List (Frame (BtCell α)) → Ptr → List (ℕ × BtNode α)
  | [], _ => []
  | .left n r :: C, p =>
    (n.1, ⟨n.2, p, ptr r, parentPtr C⟩) :: (cells (some n.1) r ++ frameCells C (some n.1))
  | .right n l :: C, p =>
    (n.1, ⟨n.2, ptr l, p, parentPtr C⟩) :: (cells (some n.1) l ++ frameCells C (some n.1))

variable {t : Bintree α} {T l r : BinaryTree (BtCell α)} {C : List (Frame (BtCell α))}
  {n : BtCell α} {p : Ptr} {m : Memory (BtNode α)}

@[simp] theorem ptr_nil : ptr (.nil : BinaryTree (BtCell α)) = none := rfl

@[simp] theorem ptr_node : ptr (.node n l r) = some n.1 := rfl

theorem ptr_eq_none : ptr T = none ↔ T = .nil := by
  cases T <;> simp [ptr]

@[simp] theorem cells_nil : cells p (.nil : BinaryTree (BtCell α)) = [] := rfl

theorem ptr_plug : ptr (plug C T) = rootPtr C (ptr T) := by
  induction C generalizing T with
  | nil => rfl
  | cons f C ih => cases f <;> exact ih

theorem length_cells (p : Ptr) (T : BinaryTree (BtCell α)) : (cells p T).length = T.numNodes := by
  induction T generalizing p with
  | nil => rfl
  | node n l r ihl ihr => simp [cells, ihl, ihr]

/-- The nodes of a tree live at the addresses of its nodes. -/
theorem map_fst_cells (p : Ptr) (T : BinaryTree (BtCell α)) :
    (cells p T).map Prod.fst = T.preorder.map Prod.fst := by
  induction T generalizing p with
  | nil => rfl
  | node n l r ihl ihr => simp [cells, ihl, ihr]

/-- The cells of a tree are those around a hole and those below it. -/
theorem cells_plug :
    (cells none (plug C T)).Perm (cells (parentPtr C) T ++ frameCells C (ptr T)) := by
  induction C generalizing T with
  | nil => simp [plug, frameCells, parentPtr]
  | cons f C ih =>
    cases f with
    | left n r =>
      apply ih.trans
      simp only [cells, frameCells, parentPtr, ptr_node, List.cons_append, List.append_assoc]
      exact List.perm_middle.symm
    | right n l =>
      apply ih.trans
      simp only [cells, frameCells, parentPtr, ptr_node, List.cons_append, List.append_assoc]
      apply List.Perm.trans _ List.perm_middle.symm
      apply List.Perm.cons
      rw [← List.append_assoc, ← List.append_assoc]
      exact List.perm_append_comm.append_right _

/-- The nodes of `t` are those of the tree `T`, linked to their children and parents. -/
structure Linked (t : Bintree α) (T : BinaryTree (BtCell α)) : Prop where
  root : t.root = ptr T
  cells : t.mem.Owns (cells none T)

/-- The cells of a tree at one of its places. -/
theorem Linked.focus (h : t.Linked (plug C T)) :
    t.mem.Owns (Bintree.cells (parentPtr C) T ++ frameCells C (ptr T)) := h.cells.perm cells_plug

theorem linked_plug (hr : t.root = rootPtr C (ptr T))
    (hc : t.mem.Owns (Bintree.cells (parentPtr C) T ++ frameCells C (ptr T))) :
    t.Linked (plug C T) :=
  ⟨hr.trans ptr_plug.symm, hc.perm cells_plug.symm⟩

/-- The contents of a node, and the cells of its children. -/
theorem owns_children (h : m.Owns (cells p (.node n l r))) :
    m.load n.1 = .ok ⟨n.2, ptr l, ptr r, p⟩ ∧ m.Owns (cells (some n.1) l) ∧
      m.Owns (cells (some n.1) r) :=
  ⟨Memory.load_of_cell h.head, h.tail.sublist (List.sublist_append_left _ _),
    h.tail.sublist (List.sublist_append_right _ _)⟩

theorem Linked.numNodes_le (h : t.Linked T) : T.numNodes ≤ t.mem.brk :=
  length_cells none T ▸ h.cells.length_le

/-- The contents of a node. -/
theorem Linked.load (h : t.Linked (plug C (.node n l r))) :
    t.mem.load n.1 = .ok ⟨n.2, ptr l, ptr r, parentPtr C⟩ :=
  Memory.load_of_cell (h.focus.cell _ (List.mem_cons_self ..))

/-- The contents of the parent of a left child. -/
theorem Linked.load_left (h : t.Linked (plug (.left n r :: C) T)) :
    t.mem.load n.1 = .ok ⟨n.2, ptr T, ptr r, parentPtr C⟩ :=
  Linked.load h

/-- The contents of the parent of a right child. -/
theorem Linked.load_right (h : t.Linked (plug (.right n l :: C) T)) :
    t.mem.load n.1 = .ok ⟨n.2, ptr l, ptr T, parentPtr C⟩ :=
  Linked.load h

theorem linked_init : (bintreeInit : Bintree α).Linked .nil := ⟨rfl, .nil _⟩

/-- The nodes of a linked tree, without regard to its other fields. -/
theorem Linked.congr {t' : Bintree α} (h : t.Linked T) (hm : t'.mem = t.mem)
    (hr : t'.root = t.root) : t'.Linked T :=
  ⟨hr.trans h.root, hm ▸ h.cells⟩

/-- The two children of a node are different. -/
theorem Linked.ptr_left_ne_right (h : t.Linked (plug C (.node n l r))) {a : ℕ}
    (hl : ptr l = some a) : ptr r ≠ some a := by
  intro hr
  cases l with
  | nil => cases hl
  | node b l₁ l₂ =>
    cases r with
    | nil => cases hr
    | node c r₁ r₂ =>
      obtain rfl := Option.some.inj hl
      have hcb : c.1 = b.1 := Option.some.inj hr
      have hown : t.mem.Owns ((b.1, ⟨b.2, ptr l₁, ptr l₂, some n.1⟩) ::
          (((Bintree.cells (some b.1) l₁ ++ Bintree.cells (some b.1) l₂) ++
            Bintree.cells (some n.1) (.node c r₁ r₂)) ++ frameCells C (some n.1))) := h.focus.tail
      exact hown.ne_of_mem (c := (c.1, ⟨c.2, ptr r₁, ptr r₂, some n.1⟩))
        (by simp [Bintree.cells]) hcb

/-- A right child is not the left child of its parent. -/
theorem Linked.ptr_left_ne {k : BtCell α} {l₁ r₁ : BinaryTree (BtCell α)}
    (h : t.Linked (plug (.right k l :: C) (.node n l₁ r₁))) :
    ptr l ≠ some n.1 := by
  intro hl
  have h' : t.Linked (plug C (.node k l (.node n l₁ r₁))) := h
  exact h'.ptr_left_ne_right hl rfl

/-- A left child is not the right child of its parent. -/
theorem Linked.ptr_right_ne {k : BtCell α} {l₁ r₁ : BinaryTree (BtCell α)}
    (h : t.Linked (plug (.left k r :: C) (.node n l₁ r₁))) :
    ptr r ≠ some n.1 := by
  have h' : t.Linked (plug C (.node k (.node n l₁ r₁) r)) := h
  exact h'.ptr_left_ne_right rfl

/-! ## Going from node to node -/

theorem Linked.numNodes_lt_turns (h : t.Linked (plug C T)) : T.numNodes < t.mem.brk + 1 := by
  have hle := h.numNodes_le
  have hsize : C.length + T.numNodes ≤ (plug C T).numNodes := length_le_numNodes_plug
  omega

theorem Linked.length_lt_turns (h : t.Linked (plug C T)) : C.length < t.mem.brk + 1 := by
  have hle := h.numNodes_le
  have hsize : C.length + T.numNodes ≤ (plug C T).numNodes := length_le_numNodes_plug
  omega

/-- **The rule for loops that go from node to node.** The invariant and the variant are about the place
at which the loop is. -/
theorem Linked.walk {β : Type} {body : ℕ → Exec (ℕ ⊕ β)} {a k : ℕ} (h : t.Linked (plug C T))
    (I : List (Frame (BtCell α)) → BinaryTree (BtCell α) → Prop)
    (v : List (Frame (BtCell α)) → BinaryTree (BtCell α) → ℕ) (Q : β → Prop)
    (hbody : ∀ D n l r, plug C T = plug D (.node n l r) → t.Linked (plug D (.node n l r)) →
      I D (.node n l r) → Returns (body n.1) fun
        | .inl b => ∃ D' S, plug C T = plug D' S ∧ ptr S = some b ∧ I D' S ∧
            v D' S < v D (.node n l r)
        | .inr b => Q b)
    (ha : ptr T = some a) (hI : I C T) (hk : v C T < k) : Returns (loop body k a) Q := by
  apply Returns.loop_ghost
    (fun (g : List (Frame (BtCell α)) × BinaryTree (BtCell α)) (a : ℕ) =>
      plug C T = plug g.1 g.2 ∧ ptr g.2 = some a ∧ I g.1 g.2)
    (fun g => v g.1 g.2) Q _ (g := (C, T)) ⟨rfl, ha, hI⟩ hk
  rintro ⟨D, S⟩ a ⟨hT, ha, hI⟩
  cases S with
  | nil => cases ha
  | node n l r =>
    obtain rfl : n.1 = a := Option.some.inj ha
    apply (hbody D n l r hT (hT ▸ h) hI).mono
    rintro (b | b) hb
    · obtain ⟨D', S, hS, hb, hI', hlt⟩ := hb
      exact ⟨(D', S), ⟨hS, hb, hI'⟩, hlt⟩
    · exact hb

end Bintree

end LibSrsBsns
