import LibSrsBsns.Bintree.Update

/-!
# The traversals of a binary tree

The iterative traversals hold no stack: they find their way by the pointers to the parents. At a
place of the tree, the elements that come after the current one are given by the frames around it
(`afterPre`, `afterIn`, `afterPost`), and each walker is shown to go to the first of them
(`Bintree.nextPreorder_spec`, `Bintree.nextInorder_spec`, `Bintree.nextPostorder_spec`). The
recursive traversals write the elements in the same order (`Bintree.collect_spec`).
-/

namespace LibSrsBsns

open C BinaryTree

variable {α : Type}

namespace Bintree

variable {t : Bintree α} {T S l r : BinaryTree (BtCell α)} {C : List (Frame (BtCell α))}
  {n : BtCell α} {a : ℕ}

/-! ## The loops of the walkers -/

section Loops

/-- Going to the left leads to the first element in order. -/
theorem leftLoop_spec (h : t.Linked (plug C S)) (ha : ptr S = some a) :
    Returns (leftLoop t.mem (t.mem.brk + 1) a) fun b => ∃ D n r,
      plug C S = plug D (.node n .nil r) ∧ n.1 = b ∧
        S.inorder ++ afterIn C = n :: (r.inorder ++ afterIn D) := by
  apply h.walk (fun D S' => S.inorder ++ afterIn C = S'.inorder ++ afterIn D)
    (fun _ S' => S'.numNodes) _ _ ha rfl h.numNodes_lt_turns
  intro D n l r hT h hord
  simp only [h.load, ok_bind]
  cases l with
  | nil => exact .ok ⟨D, n, r, hT, rfl, hord⟩
  | node n' l₁ l₂ =>
    refine .ok ⟨.left n r :: D, .node n' l₁ l₂, hT, rfl, ?_, ?_⟩
    · rw [hord, inorder_node, List.append_assoc]
      rfl
    · simp only [numNodes]
      omega

/-- Going to a leaf leads to the first element in post-order. -/
theorem leafLoop_spec (h : t.Linked (plug C S)) (ha : ptr S = some a) :
    Returns (leafLoop t.mem (t.mem.brk + 1) a) fun b => ∃ D n,
      plug C S = plug D (.node n .nil .nil) ∧ n.1 = b ∧
        S.postorder ++ afterPost C = n :: afterPost D := by
  apply h.walk (fun D S' => S.postorder ++ afterPost C = S'.postorder ++ afterPost D)
    (fun _ S' => S'.numNodes) _ _ ha rfl h.numNodes_lt_turns
  intro D n l r hT h hord
  simp only [h.load, ok_bind]
  cases l with
  | node n' l₁ l₂ =>
    refine .ok ⟨.left n r :: D, .node n' l₁ l₂, hT, rfl, ?_, ?_⟩
    · rw [hord, postorder_node]
      simp [afterPost]
    · simp only [numNodes]
      omega
  | nil =>
    cases r with
    | nil => exact .ok ⟨D, n, hT, rfl, hord⟩
    | node n' r₁ r₂ =>
      refine .ok ⟨.right n .nil :: D, .node n' r₁ r₂, hT, rfl, ?_, ?_⟩
      · rw [hord, postorder_node]
        simp [afterPost]
      · simp only [numNodes]
        omega

/-- Going up from right children changes nothing of what comes after in pre-order, and ends at the
root or at a left child. -/
theorem climbLoop_spec (h : t.Linked (plug C S)) (ha : ptr S = some a) :
    Returns (climbLoop t.mem (t.mem.brk + 1) a) fun b => ∃ D S', plug C S = plug D S' ∧
      ptr S' = some b ∧ afterPre C = afterPre D ∧ D.length ≤ C.length ∧
        (D = [] ∨ ∃ n r E, D = .left n r :: E) := by
  apply h.walk (fun D _ => afterPre C = afterPre D ∧ D.length ≤ C.length) (fun D _ => D.length) _ _
    ha ⟨rfl, le_rfl⟩ h.length_lt_turns
  intro D n l r hT h ⟨hord, hlen⟩
  simp only [h.load, ok_bind]
  cases D with
  | nil => exact .ok ⟨[], _, hT, rfl, hord, hlen, .inl rfl⟩
  | cons f D =>
    rw [List.length_cons] at hlen
    cases f with
    | left m r' =>
      have hne : ptr r' ≠ some n.1 := h.ptr_right_ne
      simp only [parentPtr, h.load_left, ok_bind, if_neg hne]
      exact .ok ⟨_, _, hT, rfl, hord, hlen, .inr ⟨m, r', D, rfl⟩⟩
    | right m l' =>
      simp only [parentPtr, h.load_right, ok_bind, ptr_node, if_true]
      have hlen' : D.length ≤ C.length := by omega
      refine .ok ⟨D, .node m l' (.node n l r), hT, rfl, ⟨hord, hlen'⟩, ?_⟩
      simp

/-- The next node after a leaf in pre-order is a right child further up. -/
theorem upLoop_spec (h : t.Linked (plug C S)) (ha : ptr S = some a) :
    Returns (upLoop t.mem (t.mem.brk + 1) a) fun
      | none => afterPre C = []
      | some b => ∃ D n l r, plug C S = plug D (.node n l r) ∧ n.1 = b ∧
          afterPre C = n :: (l.preorder ++ (r.preorder ++ afterPre D)) := by
  apply h.walk (fun D _ => afterPre C = afterPre D) (fun D _ => D.length) _ _ ha rfl
    h.length_lt_turns
  intro D n l r hT h hord
  apply (climbLoop_spec h rfl).bind
  rintro b ⟨E, S', hT', hb, hord', hlen, hE⟩
  rw [hT'] at h
  cases S' with
  | nil => cases hb
  | node n' l' r' =>
    obtain rfl : n'.1 = b := Option.some.inj hb
    simp only [h.load, ok_bind]
    rcases hE with rfl | ⟨m, r'', E, rfl⟩
    · exact .ok (hord.trans hord')
    · simp only [parentPtr, h.load_left, ok_bind]
      cases r'' with
      | nil => exact .ok ⟨E, .node m (.node n' l' r') .nil, hT.trans hT', rfl, hord.trans hord', hlen⟩
      | node c r₁ r₂ =>
        refine .ok ⟨.right m (.node n' l' r') :: E, c, r₁, r₂, hT.trans hT', rfl, ?_⟩
        rw [hord, hord']
        simp [afterPre]

/-- The next node in order after one without a right child is the first further up that it is on the
left of. -/
theorem fromLeftLoop_spec (h : t.Linked (plug C S)) (ha : ptr S = some a) (hC : C ≠ []) :
    Returns (fromLeftLoop t.mem (t.mem.brk + 1) a) fun s =>
      (s.2 = true ∧ ∃ D n l r, plug C S = plug D (.node n l r) ∧ n.1 = s.1 ∧
        afterIn C = n :: (r.inorder ++ afterIn D)) ∨
      (s.2 = false ∧ afterIn C = [] ∧ ∃ n l r, plug C S = .node n l r ∧ n.1 = s.1) := by
  apply h.walk (fun D _ => afterIn C = afterIn D ∧ D ≠ []) (fun D _ => D.length) _ _ ha ⟨rfl, hC⟩
    h.length_lt_turns
  intro D n l r hT h ⟨hord, hD⟩
  cases D with
  | nil => exact absurd rfl hD
  | cons f D =>
    cases f with
    | left m r' =>
      simp only [h.load, parentPtr, deref_some, h.load_left, ok_bind, ptr_node, ne_eq,
        not_true_eq_false, false_and, if_false]
      exact .ok (.inl ⟨by simp, D, m, _, r', hT, rfl, hord⟩)
    | right m l' =>
      have hne : ptr l' ≠ some n.1 := h.ptr_left_ne
      simp only [h.load, parentPtr, deref_some, h.load_right, ok_bind]
      cases D with
      | nil =>
        simp only [ne_eq, not_true_eq_false, and_false, if_false]
        exact .ok (.inr ⟨by simp [hne], hord, m, _, _, hT, rfl⟩)
      | cons f D =>
        rw [if_pos ⟨hne, by cases f <;> simp⟩]
        refine .ok ⟨f :: D, .node m l' (.node n l r), hT, rfl, ⟨hord, by simp⟩, ?_⟩
        simp

end Loops

/-! ## The walkers -/

/-- What a step of the iteration does when the nodes `ns` remain: it goes to the first of them, from
where `rest` remains, or ends. -/
def Yields (rest : List (Frame (BtCell α)) → BinaryTree (BtCell α) → BinaryTree (BtCell α) →
    List (BtCell α)) (t : Bintree α) (T : BinaryTree (BtCell α)) (ns : List (BtCell α))
    (s : Option α × Bintree α) : Prop :=
  (ns = [] ∧ s = (none, { t with iter := none })) ∨
    ∃ D n l r, T = plug D (.node n l r) ∧ ns = n :: rest D l r ∧
      s = (some n.2, { t with iter := some n.1 })

/-- What remains in pre-order. -/
def restPre (C : List (Frame (BtCell α))) (l r : BinaryTree (BtCell α)) : List (BtCell α) :=
  l.preorder ++ (r.preorder ++ afterPre C)

/-- What remains in order. -/
def restIn (C : List (Frame (BtCell α))) (_l r : BinaryTree (BtCell α)) : List (BtCell α) :=
  r.inorder ++ afterIn C

/-- What remains in post-order. -/
def restPost (C : List (Frame (BtCell α))) (_l _r : BinaryTree (BtCell α)) : List (BtCell α) :=
  afterPost C

theorem stop_spec (h : t.Linked (plug C (.node n l r))) :
    t.stop n.1 = .ok (some n.2, { t with iter := some n.1 }) := by
  rw [stop, h.load, ok_bind]

theorem firstPreorder_spec (h : t.Linked T) (hT : T ≠ .nil) :
    Returns (firstPreorder t) (Yields restPre t T T.preorder) := by
  cases T with
  | nil => exact absurd rfl hT
  | node n l r =>
    obtain ⟨mem, count, root, iter, travtype⟩ := t
    obtain rfl : root = some n.1 := h.root
    simp only [firstPreorder, deref_some, ok_bind, stop_spec (C := []) h]
    refine .ok (.inr ⟨[], n, l, r, rfl, ?_, rfl⟩)
    simp [restPre, afterPre]

theorem firstInorder_spec (h : t.Linked T) (hT : T ≠ .nil) :
    Returns (firstInorder t) (Yields restIn t T T.inorder) := by
  obtain ⟨a, ha⟩ := Option.ne_none_iff_exists'.1 (ptr_eq_none.not.2 hT)
  simp only [firstInorder, h.root, ha, deref_some, ok_bind]
  apply (leftLoop_spec (C := []) h ha).bind
  rintro b ⟨D, n, r, hD, rfl, hord⟩
  rw [plug_nil] at hD
  rw [hD] at h
  rw [stop_spec h]
  refine .ok (.inr ⟨D, n, .nil, r, hD, ?_, rfl⟩)
  simpa [afterIn, restIn] using hord

theorem firstPostorder_spec (h : t.Linked T) (hT : T ≠ .nil) :
    Returns (firstPostorder t) (Yields restPost t T T.postorder) := by
  obtain ⟨a, ha⟩ := Option.ne_none_iff_exists'.1 (ptr_eq_none.not.2 hT)
  simp only [firstPostorder, h.root, ha, deref_some, ok_bind]
  apply (leafLoop_spec (C := []) h ha).bind
  rintro b ⟨D, n, hD, rfl, hord⟩
  rw [plug_nil] at hD
  rw [hD] at h
  rw [stop_spec h]
  refine .ok (.inr ⟨D, n, .nil, .nil, hD, ?_, rfl⟩)
  simpa [afterPost, restPost] using hord

theorem nextPreorder_spec (h : t.Linked (plug C (.node n l r))) (hi : t.iter = some n.1) :
    Returns (nextPreorder t) (Yields restPre t (plug C (.node n l r)) (restPre C l r)) := by
  simp only [nextPreorder, hi, deref_some, h.load, ok_bind]
  cases l with
  | node m l₁ l₂ =>
    have h' : t.Linked (plug (.left n r :: C) (.node m l₁ l₂)) := h
    simp only [ptr_node, stop_spec h']
    refine .ok (.inr ⟨.left n r :: C, m, l₁, l₂, rfl, ?_, rfl⟩)
    simp [restPre, afterPre]
  | nil =>
    cases r with
    | node m r₁ r₂ =>
      have h' : t.Linked (plug (.right n .nil :: C) (.node m r₁ r₂)) := h
      simp only [ptr_nil, ptr_node, stop_spec h']
      refine .ok (.inr ⟨.right n .nil :: C, m, r₁, r₂, rfl, ?_, rfl⟩)
      simp [restPre, afterPre]
    | nil =>
      simp only [ptr_nil]
      apply (upLoop_spec h rfl).bind
      rintro (_ | b) hb
      · exact .ok (.inl ⟨hb, rfl⟩)
      · obtain ⟨D, m, l, r, hD, rfl, hord⟩ := hb
        rw [hD] at h ⊢
        simp only [stop_spec h]
        exact .ok (.inr ⟨D, m, l, r, rfl, hord, rfl⟩)

theorem nextInorder_spec (h : t.Linked (plug C (.node n l r))) (hi : t.iter = some n.1) :
    Returns (nextInorder t) (Yields restIn t (plug C (.node n l r)) (restIn C l r)) := by
  simp only [nextInorder, hi, deref_some, h.load, isLeft_spec h, ok_bind]
  cases r with
  | node m r₁ r₂ =>
    simp only [ptr_node]
    apply (leftLoop_spec (C := .right n l :: C) (S := .node m r₁ r₂) h rfl).bind
    rintro b ⟨D, m', r', hD, rfl, hord⟩
    have hD' : plug C (.node n l (.node m r₁ r₂)) = plug D (.node m' .nil r') := hD
    rw [hD'] at h ⊢
    rw [stop_spec h]
    exact .ok (.inr ⟨D, m', .nil, r', rfl, hord, rfl⟩)
  | nil =>
    simp only [ptr_nil]
    cases C with
    | nil => exact .ok (.inl ⟨rfl, rfl⟩)
    | cons f C =>
      simp only [parentPtr_cons]
      apply (fromLeftLoop_spec h rfl (by simp)).bind
      rintro ⟨b, left⟩ (⟨rfl, D, m, l', r', hD, rfl, hord⟩ | ⟨rfl, hord, m, l', r', hD, rfl⟩)
      · rw [hD] at h ⊢
        simp only [h.load, ok_bind, Bool.not_true, Bool.false_eq_true, and_false, if_false,
          stop_spec h]
        exact .ok (.inr ⟨D, m, l', r', rfl, hord, rfl⟩)
      · rw [hD] at h ⊢
        have hload := Linked.load (C := []) h
        simp only [hload, ok_bind, parentPtr, Bool.not_false, and_self, if_true]
        exact .ok (.inl ⟨hord, rfl⟩)

theorem nextPostorder_spec (h : t.Linked (plug C (.node n l r))) (hi : t.iter = some n.1) :
    Returns (nextPostorder t) (Yields restPost t (plug C (.node n l r)) (restPost C l r)) := by
  simp only [nextPostorder, hi, deref_some, h.load, isLeft_spec h, ok_bind]
  cases C with
  | nil => exact .ok (.inl ⟨rfl, rfl⟩)
  | cons f C =>
    cases f with
    | right m l' =>
      have h' : t.Linked (plug C (.node m l' (.node n l r))) := h
      simp only [parentPtr, h.load_right, ok_bind, holeLeft, Frame.isLeft, stop_spec h']
      exact .ok (.inr ⟨C, m, _, _, rfl, rfl, rfl⟩)
    | left m r' =>
      have h' : t.Linked (plug C (.node m (.node n l r) r')) := h
      simp only [parentPtr, h.load_left, ok_bind, holeLeft, Frame.isLeft]
      cases r' with
      | nil =>
        simp only [ptr_nil, stop_spec h']
        exact .ok (.inr ⟨C, m, _, _, rfl, rfl, rfl⟩)
      | node c r₁ r₂ =>
        simp only [ptr_node]
        apply (leafLoop_spec (C := .right m (.node n l r) :: C) (S := .node c r₁ r₂) h rfl).bind
        rintro b ⟨D, c', hD, rfl, hord⟩
        have hD' : plug (.left m (.node c r₁ r₂) :: C) (.node n l r) =
            plug D (.node c' .nil .nil) := hD
        rw [hD'] at h ⊢
        rw [stop_spec h]
        exact .ok (.inr ⟨D, c', .nil, .nil, rfl, hord, rfl⟩)

/-! ## The recursive traversals -/

section Recursive

variable {m : Memory (BtNode α)} {p : Ptr} {k i : ℕ} {dest : Buffer α}

theorem rtravPreorder_spec (h : m.Owns (cells p T)) (hk : T.numNodes ≤ k)
    (hi : i + T.numNodes ≤ dest.size) : Returns (rtravPreorder m k (ptr T) (dest, i)) fun s =>
      s.2 = i + T.numNodes ∧ dest.Filled i (T.preorder.map Prod.snd) s.1 := by
  induction T generalizing p k i dest with
  | nil =>
    cases k <;> exact .ok ⟨rfl, Buffer.filled_nil hi⟩
  | node n l r ihl ihr =>
    simp only [numNodes] at hk hi
    obtain ⟨k, rfl⟩ : ∃ k', k = k' + 1 := ⟨k - 1, by omega⟩
    obtain ⟨hload, hl, hr⟩ := owns_children h
    simp only [ptr_node, rtravPreorder, hload, ok_bind]
    apply (Buffer.write_spec n.2 (by omega : i < dest.size)).bind
    intro d₀ h₀
    have hs₀ := h₀.size
    apply (ihl hl (by omega) (by omega : i + 1 + l.numNodes ≤ d₀.size)).bind
    rintro ⟨d₁, j⟩ ⟨rfl, h₁⟩
    have hs₁ : d₁.size = d₀.size := h₁.size
    apply (ihr hr (by omega) (by omega : i + 1 + l.numNodes + r.numNodes ≤ d₁.size)).mono
    rintro ⟨d₂, j⟩ ⟨rfl, h₂⟩
    refine ⟨by simp only [numNodes]; omega, ?_⟩
    have h₀₁ := h₀.append h₁
    rw [preorder_node, List.map_cons, List.map_append, ← List.cons_append]
    apply h₀₁.append
    convert h₂ using 1
    simp only [List.length_append, List.length_singleton, List.length_map, length_preorder]
    omega

theorem rtravInorder_spec (h : m.Owns (cells p T)) (hk : T.numNodes ≤ k)
    (hi : i + T.numNodes ≤ dest.size) : Returns (rtravInorder m k (ptr T) (dest, i)) fun s =>
      s.2 = i + T.numNodes ∧ dest.Filled i (T.inorder.map Prod.snd) s.1 := by
  induction T generalizing p k i dest with
  | nil =>
    cases k <;> exact .ok ⟨rfl, Buffer.filled_nil hi⟩
  | node n l r ihl ihr =>
    simp only [numNodes] at hk hi
    obtain ⟨k, rfl⟩ : ∃ k', k = k' + 1 := ⟨k - 1, by omega⟩
    obtain ⟨hload, hl, hr⟩ := owns_children h
    simp only [ptr_node, rtravInorder, hload, ok_bind]
    apply (ihl hl (by omega) (by omega : i + l.numNodes ≤ dest.size)).bind
    rintro ⟨d₀, j⟩ ⟨rfl, h₀⟩
    have hs₀ : d₀.size = dest.size := h₀.size
    apply (Buffer.write_spec n.2 (by omega : i + l.numNodes < d₀.size)).bind
    intro d₁ h₁
    have hs₁ := h₁.size
    apply (ihr hr (by omega) (by omega : i + l.numNodes + 1 + r.numNodes ≤ d₁.size)).mono
    rintro ⟨d₂, j⟩ ⟨rfl, h₂⟩
    refine ⟨by simp only [numNodes]; omega, ?_⟩
    rw [inorder_node, List.map_append, List.map_cons]
    apply h₀.append
    rw [List.length_map, length_inorder]
    exact h₁.append h₂

theorem rtravPostorder_spec (h : m.Owns (cells p T)) (hk : T.numNodes ≤ k)
    (hi : i + T.numNodes ≤ dest.size) : Returns (rtravPostorder m k (ptr T) (dest, i)) fun s =>
      s.2 = i + T.numNodes ∧ dest.Filled i (T.postorder.map Prod.snd) s.1 := by
  induction T generalizing p k i dest with
  | nil =>
    cases k <;> exact .ok ⟨rfl, Buffer.filled_nil hi⟩
  | node n l r ihl ihr =>
    simp only [numNodes] at hk hi
    obtain ⟨k, rfl⟩ : ∃ k', k = k' + 1 := ⟨k - 1, by omega⟩
    obtain ⟨hload, hl, hr⟩ := owns_children h
    simp only [ptr_node, rtravPostorder, hload, ok_bind]
    apply (ihl hl (by omega) (by omega : i + l.numNodes ≤ dest.size)).bind
    rintro ⟨d₀, j⟩ ⟨rfl, h₀⟩
    have hs₀ : d₀.size = dest.size := h₀.size
    apply (ihr hr (by omega) (by omega : i + l.numNodes + r.numNodes ≤ d₀.size)).bind
    rintro ⟨d₁, j⟩ ⟨rfl, h₁⟩
    have hs₁ : d₁.size = d₀.size := h₁.size
    apply (Buffer.write_spec n.2 (by omega : i + l.numNodes + r.numNodes < d₁.size)).bind
    intro d₂ h₂
    refine .ok ⟨by simp only [numNodes]; omega, ?_⟩
    rw [postorder_node, List.map_append, List.map_append]
    apply h₀.append
    rw [List.length_map, length_postorder]
    apply h₁.append
    rw [List.length_map, length_postorder]
    exact h₂

end Recursive

/-- The values of a tree in the order of a traversal. -/
def order (trav : ℤ) : BinaryTree (BtCell α) → List (BtCell α) :=
  if trav = travPreorder then preorder else if trav = travInorder then inorder else postorder

theorem length_order (trav : ℤ) (T : BinaryTree (BtCell α)) :
    (order trav T).length = T.numNodes := by
  unfold order
  split_ifs
  · exact length_preorder T
  · exact length_inorder T
  · exact length_postorder T

variable {trav : ℤ} (htrav : trav ∈ [travPreorder, travInorder, travPostorder])
include htrav

/-- `bintree_collect` writes the elements in the order of the traversal. -/
theorem collect_spec (h : t.Linked T) (hT : T ≠ .nil) {dest : Buffer α}
    (hd : T.numNodes ≤ dest.size) : Returns (bintreeCollect t dest trav) fun s =>
      s.1 = true ∧ dest.Filled 0 ((order trav T).map Prod.snd) s.2 := by
  have hle := h.numNodes_le
  obtain ⟨a, ha⟩ := Option.ne_none_iff_exists'.1 (ptr_eq_none.not.2 hT)
  have hi : 0 + T.numNodes ≤ dest.size := by omega
  have hpre := rtravPreorder_spec h.cells hle hi
  have hin := rtravInorder_spec h.cells hle hi
  have hpost := rtravPostorder_spec h.cells hle hi
  rw [ha] at hpre hin hpost
  simp only [bintreeCollect, h.root, ha]
  simp only [List.mem_cons, List.not_mem_nil, or_false] at htrav
  rcases htrav with rfl | rfl | rfl
  · exact hpre.bind fun s hs => .ok ⟨rfl, hs.2⟩
  · exact hin.bind fun s hs => .ok ⟨rfl, hs.2⟩
  · exact hpost.bind fun s hs => .ok ⟨rfl, hs.2⟩

/-! ## The iteration -/

/-- What remains of a traversal. -/
def rest (trav : ℤ) : List (Frame (BtCell α)) → BinaryTree (BtCell α) → BinaryTree (BtCell α) →
    List (BtCell α) :=
  if trav = travPreorder then restPre else if trav = travInorder then restIn else restPost

/-- `bintree_first` goes to the first element of the traversal. -/
theorem first_spec (h : t.Linked T) (hT : T ≠ .nil) : Returns (bintreeFirst t trav)
    (Yields (rest trav) { t with travtype := some trav } T (order trav T)) := by
  have h' : Linked { t with travtype := some trav, iter := none } T := h.congr rfl rfl
  simp only [List.mem_cons, List.not_mem_nil, or_false] at htrav
  rcases htrav with rfl | rfl | rfl
  · exact firstPreorder_spec h' hT
  · exact firstInorder_spec h' hT
  · exact firstPostorder_spec h' hT

/-- `bintree_next` goes to the next element of the traversal. -/
theorem next_spec (h : t.Linked (plug C (.node n l r))) (ht : t.travtype = some trav)
    (hi : t.iter = some n.1) : Returns (bintreeNext t)
      (Yields (rest trav) t (plug C (.node n l r)) (rest trav C l r)) := by
  simp only [bintreeNext, ht]
  simp only [List.mem_cons, List.not_mem_nil, or_false] at htrav
  rcases htrav with rfl | rfl | rfl
  · exact nextPreorder_spec h hi
  · exact nextInorder_spec h hi
  · exact nextPostorder_spec h hi

end Bintree

/-- The calls of an iteration. -/
inductive IterOp
  | first (travtype : ℤ)
  | next

/-- A call of an iteration over the tree. -/
def iterStep (t : Bintree α) : IterOp → Exec (Option α × Bintree α)
  | .first travtype => bintreeFirst t travtype
  | .next => bintreeNext t

namespace Bintree

/-- What the steps after the first return. -/
theorem runs_next {trav : ℤ} (htrav : trav ∈ [travPreorder, travInorder, travPostorder])
    {t : Bintree α} {T : BinaryTree (BtCell α)} (h : t.Linked T) (ht : t.travtype = some trav)
    {ns : List (BtCell α)} {s : Option α × Bintree α} (hs : Yields (rest trav) t T ns s)
    (hne : ns ≠ []) : Returns (runs iterStep s.2 (List.replicate ns.length .next)) fun u =>
      s.1 :: u.1 = ns.map (fun n => some n.2) ++ [none] := by
  induction ns generalizing t s with
  | nil => exact absurd rfl hne
  | cons n ns ih =>
    obtain ⟨hnil, -⟩ | ⟨D, m, l, r, rfl, hns, rfl⟩ := hs
    · cases hnil
    obtain ⟨rfl, rfl⟩ := List.cons.inj hns
    have h' : Linked { t with iter := some n.1 } (plug D (.node n l r)) := h.congr rfl rfl
    rw [List.length_cons, List.replicate_succ, runs]
    apply (next_spec htrav h' ht rfl).bind
    intro s hs
    by_cases hnil : rest trav D l r = []
    · obtain ⟨-, rfl⟩ | ⟨D', m, l', r', -, hcons, -⟩ := hs
      · rw [hnil]
        exact .ok rfl
      · rw [hnil] at hcons
        cases hcons
    · apply (ih h' ht hs hnil).bind
      intro u hu
      exact .ok (by rw [List.map_cons, List.cons_append, ← hu])

end Bintree

/-- **The iterative traversal yields what the recursive one writes.** For a tree that is not empty and
whose links are consistent, `bintree_collect` writes a sequence `xs` and nothing else to an array
with room for it, and `bintree_first` and then `bintree_next` return the elements of `xs` one by one
and a null pointer right after the last. The trees that inserting, removing and clearing lead to are
consistent. -/
theorem bintree_iter_eq_collect (cmpfn : α → α → ℤ) :
    (∀ t : Bintree α, t.Consistent → t.root ≠ none →
      ∀ trav ∈ [travPreorder, travInorder, travPostorder], ∃ xs : List α, xs ≠ [] ∧
        (∀ dest : Buffer α, xs.length ≤ dest.size → Returns (bintreeCollect t dest trav) fun s =>
          s.1 = true ∧ dest.Filled 0 xs s.2) ∧
        Returns (runs iterStep t (.first trav :: List.replicate xs.length .next)) fun s =>
          s.1 = xs.map some ++ [none]) ∧
    ∀ ops os (t : Bintree α), runs (bintreeStep cmpfn) bintreeInit ops = .ok (os, t) →
      t.Consistent := by
  refine ⟨?_, fun ops os t h => Bintree.consistent_of_runs h⟩
  rintro t ⟨T, h⟩ hroot trav htrav
  have hT : T ≠ .nil := by
    rw [h.root] at hroot
    exact Bintree.ptr_eq_none.not.1 hroot
  have hne : Bintree.order trav T ≠ [] := by
    apply List.ne_nil_of_length_pos
    rw [Bintree.length_order]
    cases T with
    | nil => exact absurd rfl hT
    | node n l r => exact Nat.succ_pos _
  refine ⟨(Bintree.order trav T).map Prod.snd, by simpa using hne, ?_, ?_⟩
  · intro dest hd
    rw [List.length_map, Bintree.length_order] at hd
    exact Bintree.collect_spec htrav h hT hd
  · rw [List.length_map, runs]
    apply (Bintree.first_spec htrav h hT).bind
    intro s hs
    have h' : Bintree.Linked { t with travtype := some trav } T := h.congr rfl rfl
    apply (Bintree.runs_next htrav h' rfl hs hne).bind
    intro u hu
    refine .ok (hu.trans ?_)
    rw [List.map_map]
    rfl

/-- A tree of three integers, in order. -/
theorem bintree_iter_eq_collect_int :
    ∃ (os : List BintreeOut) (t : Bintree ℤ), runs (bintreeStep fun a b => a - b) bintreeInit
        [.insert 2 true, .insert 1 true, .insert 3 true] = .ok (os, t) ∧
      ∃ xs : List ℤ, xs ≠ [] ∧
        (∀ dest : Buffer ℤ, xs.length ≤ dest.size →
          Returns (bintreeCollect t dest travInorder) fun s => s.1 = true ∧ dest.Filled 0 xs s.2) ∧
        Returns (runs iterStep t (.first travInorder :: List.replicate xs.length .next)) fun s =>
          s.1 = xs.map some ++ [none] := by
  have hrun : runs (bintreeStep fun a b : ℤ => a - b) bintreeInit
      [.insert 2 true, .insert 1 true, .insert 3 true] = .ok (_, _) := rfl
  obtain ⟨hiter, hruns⟩ := bintree_iter_eq_collect fun a b : ℤ => a - b
  exact ⟨_, _, hrun, hiter _ (hruns _ _ _ hrun) (by decide) _ (by decide)⟩

end LibSrsBsns
