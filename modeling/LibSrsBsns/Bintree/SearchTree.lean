import LibSrsBsns.Bintree.Update
import LibSrsBsns.Foundations.Data.SortedList

/-!
# The binary tree is a search tree

A tree is a strict search tree when its elements, in order, are strictly sorted (`Bintree.elems`).
The path of an element then leads between the smaller and the greater ones (`Path.between`), which is
why inserting keeps the elements sorted; removing only leaves some out. In the memory this is the
property `Bintree.WellFormed` of the nodes that can be reached from the root.
-/

namespace LibSrsBsns

open C BinaryTree

variable {α : Type} {cmpfn : α → α → ℤ}

namespace Bintree

variable {t : Bintree α} {T S l r : BinaryTree (BtCell α)} {C : List (Frame (BtCell α))}
  {n : BtCell α} {x : α}

/-- The elements of a tree, in order. -/
def elems (T : BinaryTree (BtCell α)) : List α := T.inorder.map Prod.snd

/-- The elements before a hole. -/
def elemsBefore (C : List (Frame (BtCell α))) : List α := (beforeIn C).map Prod.snd

/-- The elements after a hole. -/
def elemsAfter (C : List (Frame (BtCell α))) : List α := (afterIn C).map Prod.snd

@[simp] theorem elems_nil : elems (.nil : BinaryTree (BtCell α)) = [] := rfl

@[simp] theorem elems_node : elems (.node n l r) = elems l ++ n.2 :: elems r := by
  simp [elems]

@[simp] theorem elems_plug :
    elems (plug C T) = elemsBefore C ++ (elems T ++ elemsAfter C) := by
  simp [elems, elemsBefore, elemsAfter, inorder_plug]

theorem elems_plug_node : elems (plug C (.node n l r)) =
    (elemsBefore C ++ elems l) ++ n.2 :: (elems r ++ elemsAfter C) := by
  simp

theorem length_elems (T : BinaryTree (BtCell α)) : (elems T).length = T.numNodes := by
  rw [elems, List.length_map, length_inorder]

theorem numNodes_plug (C : List (Frame (BtCell α))) (T : BinaryTree (BtCell α)) :
    (plug C T).numNodes = (elemsBefore C).length + (T.numNodes + (elemsAfter C).length) := by
  simp only [← length_elems, elems_plug, List.length_append]

/-- **The path of `x` leads between the smaller elements and the greater ones.** -/
theorem Path.between (hc : IsCmpFn cmpfn) (hp : Path cmpfn x C)
    (hs : SortedBy cmpfn (elems (plug C T))) :
    (∀ y ∈ elemsBefore C, cmpfn y x < 0) ∧ ∀ y ∈ elemsAfter C, cmpfn x y < 0 := by
  induction C generalizing T with
  | nil => simp [elemsBefore, elemsAfter, beforeIn, afterIn]
  | cons f C ih =>
    obtain ⟨hf, hp'⟩ := List.forall_mem_cons.1 hp
    cases f with
    | left m r =>
      have hx : cmpfn x m.2 < 0 := hf
      obtain ⟨hbefore, hafter⟩ := ih (T := .node m T r) hp' hs
      have hr : ∀ y ∈ elems r, cmpfn m.2 y < 0 := by
        have hs' : SortedBy cmpfn (elems (plug C (.node m T r))) := hs
        rw [elems_plug, elems_node, List.append_assoc, List.cons_append] at hs'
        have hm := (sortedBy_cons.1 (sortedBy_append.1 (sortedBy_append.1 hs').2.1).2.1).1
        exact fun y hy => hm y (by simp [hy])
      refine ⟨hbefore, fun y hy => ?_⟩
      have hy' : y ∈ m.2 :: (elems r ++ elemsAfter C) := by
        simpa [elemsAfter, afterIn, elems] using hy
      rcases List.mem_cons.1 hy' with rfl | hy'
      · exact hx
      · rcases List.mem_append.1 hy' with hy' | hy'
        · exact hc.lt_trans hx (hr y hy')
        · exact hafter y hy'
    | right m l =>
      have hx : cmpfn m.2 x < 0 := (hc.flip _ _).2 hf
      obtain ⟨hbefore, hafter⟩ := ih (T := .node m l T) hp' hs
      have hl : ∀ y ∈ elems l, cmpfn y m.2 < 0 := by
        have hs' : SortedBy cmpfn (elems (plug C (.node m l T))) := hs
        rw [elems_plug, elems_node, List.append_assoc, List.cons_append] at hs'
        have hm := (sortedBy_append.1 (sortedBy_append.1 hs').2.1).2.2
        exact fun y hy => hm y hy m.2 (by simp)
      refine ⟨fun y hy => ?_, hafter⟩
      have hy' : y ∈ elemsBefore C ++ (elems l ++ [m.2]) := by
        simpa [elemsBefore, beforeIn, elems] using hy
      rcases List.mem_append.1 hy' with hy' | hy'
      · exact hbefore y hy'
      · rcases List.mem_append.1 hy' with hy' | hy'
        · exact hc.lt_trans (hl y hy') hx
        · obtain rfl := List.mem_singleton.1 hy'
          exact hx

/-- Removing a node leaves out elements. -/
theorem Removed.sublist {T' : BinaryTree (BtCell α)} (h : Removed C n l r T') :
    (elems T').Sublist (elems (plug C (.node n l r))) := by
  cases h with
  | noLeft =>
    simp only [elems_plug, elems_node, elems_nil, List.nil_append]
    apply List.Sublist.append_left
    exact (List.sublist_cons_self _ _).append_right _
  | noRight =>
    simp only [elems_plug, elems_node, elems_nil]
    apply List.Sublist.append_left
    exact (List.sublist_append_left _ _).append_right _
  | @both D b lb r hD hr =>
    have hD' : elemsAfter D = [] := by rw [elemsAfter, hD, List.map_nil]
    rw [plug_append]
    show (elems (plug C (.node (n.1, b.2) (plug D .nil) r))).Sublist _
    simp only [elems_plug, elems_node, elems_nil, hD', List.append_nil]
    apply List.Sublist.append_left
    apply List.Sublist.append_right
    simp only [List.append_assoc, List.cons_append, List.nil_append]
    apply List.Sublist.append_left
    apply List.Sublist.trans _ (List.sublist_append_right _ _)
    exact (List.sublist_cons_self _ _).cons_cons _

/-- Every call keeps the elements sorted. -/
theorem step_sorted (hc : IsCmpFn cmpfn) (h : t.Linked T) (hs : SortedBy cmpfn (elems T))
    (hcount : ∃ c, bintreeCount t = .ok c) (op : BintreeOp α) :
    Ends (bintreeStep cmpfn t op)
      (fun s => ∃ T', s.2.Linked T' ∧ SortedBy cmpfn (elems T') ∧ ∃ c, bintreeCount s.2 = .ok c)
      (fun e => e = .nullDeref ∧ op.NoMemory) := by
  obtain ⟨c, hcount⟩ := hcount
  cases op with
  | insert x ok =>
    apply ((insert_spec h hcount x ok).fault_mono fun e he => ⟨he.1, he.2.1⟩).bind
    rintro ⟨b, t'⟩ ⟨-, C, hp, ⟨n, l, r, rfl, hx, rfl⟩ | ⟨rfl, a, hl, hc'⟩⟩
    · refine ⟨_, (h.replace x).2, ?_, c, hcount⟩
      rw [elems_plug_node] at hs ⊢
      exact hs.replace hc hx
    · obtain ⟨hbefore, hafter⟩ := hp.between hc hs
      refine ⟨_, hl, ?_, _, hc'⟩
      simp only [elems_plug, elems_node, elems_nil, List.nil_append, List.cons_append] at hs ⊢
      exact hs.insert hc hbefore hafter
  | remove x =>
    apply ((remove_spec h hcount x).ends _).bind
    rintro ⟨b, t'⟩ ⟨C, -, ⟨-, hr⟩ | ⟨n, l, r, T', rfl, -, hrem, -, hl, hc'⟩⟩
    · obtain ⟨-, rfl⟩ := Prod.mk.inj hr
      exact ⟨T, h, hs, c, hcount⟩
    · exact ⟨T', hl, hs.sublist hrem.sublist, exists_bintreeCount hc'⟩
  | clear =>
    apply ((clear_spec h).ends _).bind
    rintro t' ⟨hl, hc'⟩
    exact ⟨_, hl, .nil, 0, hc'⟩

/-! ## In the memory -/

/-- The node at the address `a` can be reached from the pointer `p` by pointers to children. -/
inductive InTree (m : Memory (BtNode α)) : Ptr → ℕ → Prop
  | here {a : ℕ} {v : BtNode α} : m.cell a = some v → InTree m (some a) a
  | left {a b : ℕ} {v : BtNode α} : m.cell a = some v → InTree m v.left b → InTree m (some a) b
  | right {a b : ℕ} {v : BtNode α} : m.cell a = some v → InTree m v.right b → InTree m (some a) b

/-- The nodes of `t` form a strict search tree with consistent pointers to parents. -/
structure WellFormed (cmpfn : α → α → ℤ) (t : Bintree α) : Prop where
  /-- The root has no parent. -/
  root : ∀ a, t.root = some a → ∃ v, t.mem.cell a = some v ∧ v.parent = none
  /-- The children of a node are nodes whose parent it is. -/
  child : ∀ a v, InTree t.mem t.root a → t.mem.cell a = some v →
    ∀ b, v.left = some b ∨ v.right = some b → ∃ w, t.mem.cell b = some w ∧ w.parent = some a
  /-- A node that is not the root has a parent, one of whose children it is. -/
  parent : ∀ b w, InTree t.mem t.root b → t.mem.cell b = some w → t.root ≠ some b →
    ∃ a v, InTree t.mem t.root a ∧ t.mem.cell a = some v ∧ w.parent = some a ∧
      Xor (v.left = some b) (v.right = some b)
  /-- What is on the left of a node is smaller. -/
  left : ∀ a v, InTree t.mem t.root a → t.mem.cell a = some v →
    ∀ b w, InTree t.mem v.left b → t.mem.cell b = some w → cmpfn w.data v.data < 0
  /-- What is on the right of a node is greater. -/
  right : ∀ a v, InTree t.mem t.root a → t.mem.cell a = some v →
    ∀ b w, InTree t.mem v.right b → t.mem.cell b = some w → 0 < cmpfn w.data v.data

variable {m : Memory (BtNode α)} {p : Ptr} {a b : ℕ}

theorem cells_sublist_left : (cells (some n.1) l).Sublist (cells p (.node n l r)) :=
  (List.sublist_append_left _ _).cons _

theorem cells_sublist_right : (cells (some n.1) r).Sublist (cells p (.node n l r)) :=
  (List.sublist_append_right _ _).cons _

/-- The nodes that can be reached are those of the tree. -/
theorem inTree_iff (h : m.Owns (cells p T)) :
    InTree m (ptr T) b ↔ ∃ n ∈ T.preorder, n.1 = b := by
  induction T generalizing p with
  | nil =>
    constructor
    · intro hb
      cases hb
    · rintro ⟨n, hn, -⟩
      cases hn
  | node n l r ihl ihr =>
    have hcell : m.cell n.1 = some ⟨n.2, ptr l, ptr r, p⟩ := h.head
    have hl := ihl (h.sublist cells_sublist_left)
    have hr := ihr (h.sublist cells_sublist_right)
    constructor
    · intro hb
      generalize hp : ptr (.node n l r) = q at hb
      cases hb with
      | here hv =>
        obtain rfl := Option.some.inj hp
        exact ⟨n, by simp, rfl⟩
      | left hv hb =>
        obtain rfl := Option.some.inj hp
        obtain rfl := Option.some.inj (hcell.symm.trans hv)
        obtain ⟨k, hk, rfl⟩ := hl.1 hb
        exact ⟨k, by simp [hk], rfl⟩
      | right hv hb =>
        obtain rfl := Option.some.inj hp
        obtain rfl := Option.some.inj (hcell.symm.trans hv)
        obtain ⟨k, hk, rfl⟩ := hr.1 hb
        exact ⟨k, by simp [hk], rfl⟩
    · rintro ⟨k, hk, rfl⟩
      rw [preorder_node, List.mem_cons, List.mem_append] at hk
      rcases hk with rfl | hk | hk
      · exact .here hcell
      · exact .left hcell (hl.2 ⟨k, hk, rfl⟩)
      · exact .right hcell (hr.2 ⟨k, hk, rfl⟩)

/-- A node that can be reached is at some place of the tree. -/
theorem Linked.exists_place (h : t.Linked T) (hb : InTree t.mem t.root b) :
    ∃ C n l r, T = plug C (.node n l r) ∧ n.1 = b := by
  rw [h.root, inTree_iff h.cells] at hb
  obtain ⟨n, hn, rfl⟩ := hb
  obtain ⟨C, l, r, rfl⟩ := exists_plug_of_mem hn
  exact ⟨C, n, l, r, rfl, rfl⟩

theorem Linked.cell (h : t.Linked (plug C (.node n l r))) :
    t.mem.cell n.1 = some ⟨n.2, ptr l, ptr r, parentPtr C⟩ := h.focus.head

/-- The node at the root of a subtree can be reached. -/
theorem Linked.inTree (h : t.Linked (plug C (.node n l r))) : InTree t.mem t.root n.1 := by
  rw [h.root, inTree_iff h.cells]
  refine ⟨n, ?_, rfl⟩
  apply (inorder_perm _).mem_iff.1
  rw [inorder_plug]
  simp

/-- The elements of the nodes that can be reached in a subtree. -/
theorem Linked.mem_elems (h : t.Linked (plug C T)) (hb : InTree t.mem (ptr T) b) {w : BtNode α}
    (hw : t.mem.cell b = some w) : w.data ∈ elems T := by
  have hown := h.focus.sublist (List.sublist_append_left _ _)
  obtain ⟨n, hn, rfl⟩ := (inTree_iff hown).1 hb
  obtain ⟨D, l, r, rfl⟩ := exists_plug_of_mem hn
  rw [← plug_append] at h
  obtain rfl := Option.some.inj (h.cell.symm.trans hw)
  simp

/-- The node at the root of a subtree points to the node that the subtree hangs from. -/
theorem Linked.parent_of_ptr (h : t.Linked (plug C T)) (hb : ptr T = some b) :
    ∃ w, t.mem.cell b = some w ∧ w.parent = parentPtr C := by
  cases T with
  | nil => cases hb
  | node n l r =>
    obtain rfl : n.1 = b := Option.some.inj hb
    exact ⟨_, h.cell, rfl⟩

theorem wellFormed (hc : IsCmpFn cmpfn) (h : t.Linked T) (hs : SortedBy cmpfn (elems T)) :
    WellFormed cmpfn t := by
  constructor
  case root =>
    intro a ha
    exact Linked.parent_of_ptr (C := []) h (h.root.symm.trans ha)
  case child =>
    intro a v ha hv b hb
    obtain ⟨C, n, l, r, rfl, rfl⟩ := h.exists_place ha
    obtain rfl := Option.some.inj (h.cell.symm.trans hv)
    rcases hb with hb | hb
    · exact Linked.parent_of_ptr (C := .left n r :: C) h hb
    · exact Linked.parent_of_ptr (C := .right n l :: C) h hb
  case parent =>
    intro b w hb hw hroot
    obtain ⟨C, n, l, r, rfl, rfl⟩ := h.exists_place hb
    obtain rfl := Option.some.inj (h.cell.symm.trans hw)
    cases C with
    | nil => exact absurd h.root hroot
    | cons f C =>
      cases f with
      | left k r' =>
        have hk : t.Linked (plug C (.node k (.node n l r) r')) := h
        exact ⟨k.1, _, hk.inTree, hk.cell, rfl, .inl ⟨rfl, h.ptr_right_ne⟩⟩
      | right k l' =>
        have hk : t.Linked (plug C (.node k l' (.node n l r))) := h
        exact ⟨k.1, _, hk.inTree, hk.cell, rfl, .inr ⟨rfl, h.ptr_left_ne⟩⟩
  case left =>
    intro a v ha hv b w hb hw
    obtain ⟨C, n, l, r, rfl, rfl⟩ := h.exists_place ha
    obtain rfl := Option.some.inj (h.cell.symm.trans hv)
    have hmem := Linked.mem_elems (C := .left n r :: C) h hb hw
    rw [elems_plug, elems_node] at hs
    have hlt := (sortedBy_append.1 (sortedBy_append.1 (sortedBy_append.1 hs).2.1).1).2.2
    exact hlt _ hmem _ (by simp)
  case right =>
    intro a v ha hv b w hb hw
    obtain ⟨C, n, l, r, rfl, rfl⟩ := h.exists_place ha
    obtain rfl := Option.some.inj (h.cell.symm.trans hv)
    have hmem := Linked.mem_elems (C := .right n l :: C) h hb hw
    rw [elems_plug, elems_node] at hs
    have hlt := (sortedBy_append.1 (sortedBy_append.1 (sortedBy_append.1 hs).2.1).1).2.1
    exact (hc.flip _ _).1 ((sortedBy_cons.1 hlt).1 _ hmem)

end Bintree

/-- **The binary tree stays a search tree.** A run of calls ends with a fault only where `malloc` has
failed, and then by a null pointer. In every state a run reaches, the tree is a well-formed strict
search tree, and `bintree_remove` returns: the process does not exit. -/
theorem bintree_stays_search_tree (hc : IsCmpFn cmpfn) (ops : List (BintreeOp α)) :
    Ends (runs (bintreeStep cmpfn) bintreeInit ops)
      (fun s => Bintree.WellFormed cmpfn s.2 ∧
        ∀ x, Returns (bintreeRemove cmpfn s.2 x) fun u => Bintree.WellFormed cmpfn u.2)
      (fun e => ∃ op ∈ ops, e = .nullDeref ∧ op.NoMemory) := by
  have hrun := Ends.runs_trace (fun _ _ _ _ => True)
    (fun (t : Bintree α) (_ : Unit) => ∃ T, t.Linked T ∧ SortedBy cmpfn (Bintree.elems T) ∧
      ∃ c, bintreeCount t = .ok c)
    (fun op e => e = .nullDeref ∧ op.NoMemory) (fun _ => True)
    (fun t _ op _ ⟨T, hl, hs, hcount⟩ => (Bintree.step_sorted hc hl hs hcount op).mono
      fun _ hs => ⟨(), trivial, hs⟩)
    (t := ()) ⟨_, Bintree.linked_init, .nil, 0, rfl⟩ (fun _ _ => trivial : ∀ op ∈ ops, True)
  apply hrun.mono
  rintro ⟨os, t⟩ ⟨-, -, T, hl, hs, c, hcount⟩
  refine ⟨Bintree.wellFormed hc hl hs, fun x => ?_⟩
  apply (Bintree.remove_spec hl hcount x).mono
  rintro ⟨b, t'⟩ ⟨C, -, ⟨-, hr⟩ | ⟨n, l, r, T', rfl, -, hrem, -, hl', -⟩⟩
  · obtain ⟨-, rfl⟩ := Prod.mk.inj hr
    exact Bintree.wellFormed hc hl hs
  · exact Bintree.wellFormed hc hl' (hs.sublist hrem.sublist)

/-- Integers; the last insertion has no memory, and the one before it needs none. -/
theorem bintree_stays_search_tree_int :
    Ends (runs (bintreeStep fun a b : ℤ => a - b) bintreeInit
        [.insert 2 true, .insert 1 true, .insert 3 true, .remove 2, .insert 3 false, .insert 5 false])
      (fun s => Bintree.WellFormed (fun a b => a - b) s.2 ∧
        ∀ x, Returns (bintreeRemove (fun a b => a - b) s.2 x) fun u =>
          Bintree.WellFormed (fun a b => a - b) u.2)
      (fun e => e = .nullDeref) :=
  (bintree_stays_search_tree ⟨by omega, by omega⟩ _).fault_mono fun _ ⟨_, _, he, _⟩ => he

end LibSrsBsns
