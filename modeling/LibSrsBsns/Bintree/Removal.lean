import LibSrsBsns.Bintree.SearchTree

/-!
# What removing an element leaves

When the node that `bintree_remove` finds has two children, the largest node on its left is freed
together with the pointer to its left child. So the subtree there is lost (`Bintree.orphaned`), while
`count` drops by one. `bintree_remove_exact_iff` says that this is the only way in which removing
fails to take out exactly one element.
-/

namespace LibSrsBsns

open C BinaryTree

variable {α : Type} {cmpfn : α → α → ℤ}

namespace Bintree

variable {t : Bintree α} {T T' S l r : BinaryTree (BtCell α)} {C D : List (Frame (BtCell α))}
  {n b : BtCell α} {x : α} {p : Ptr} {m : Memory (BtNode α)}

/-- The subtree at the element that is equal to `x`. -/
def subtreeAt (cmpfn : α → α → ℤ) (x : α) : BinaryTree (BtCell α) → BinaryTree (BtCell α)
  | .nil => .nil
  | .node n l r =>
    if cmpfn x n.2 < 0 then subtreeAt cmpfn x l
    else if cmpfn x n.2 > 0 then subtreeAt cmpfn x r
    else .node n l r

/-- What is on the left of the last node in order. -/
def lastLeft : BinaryTree (BtCell α) → BinaryTree (BtCell α)
  | .nil => .nil
  | .node _ l .nil => l
  | .node _ _ (.node n l r) => lastLeft (.node n l r)

/-- The nodes that are lost when the root of the tree is removed. -/
def orphaned : BinaryTree (BtCell α) → BinaryTree (BtCell α)
  | .node _ l (.node _ _ _) => lastLeft l
  | _ => .nil

/-- Removing the element equal to `x` loses no subtree. -/
def KeepsSubtrees (cmpfn : α → α → ℤ) (t : Bintree α) (x : α) : Prop :=
  ∀ T, t.Linked T → orphaned (subtreeAt cmpfn x T) = .nil

/-- `count` is the number of nodes. -/
def CountsNodes (t : Bintree α) : Prop := ∃ T, t.Linked T ∧ bintreeCount t = .ok T.numNodes

/-- `bintree_remove` takes out the element equal to `x` and counts it off, if there is one, and else
changes nothing. -/
def RemovesExactly (cmpfn : α → α → ℤ) (t : Bintree α) (x : α) : Prop :=
  ∃ T, t.Linked T ∧ Returns (bintreeRemove cmpfn t x) fun s =>
    (∀ ys y zs, elems T = ys ++ y :: zs → cmpfn x y = 0 → s.1 = true ∧ ∃ T', s.2.Linked T' ∧
      elems T' = ys ++ zs ∧ bintreeCount s.2 = .ok T'.numNodes ∧
      bintreeCount t = .ok (T'.numNodes + 1)) ∧
    ((∀ y ∈ elems T, cmpfn x y ≠ 0) → s = (false, t))

theorem subtreeAt_plug (hp : Path cmpfn x C) :
    subtreeAt cmpfn x (plug C S) = subtreeAt cmpfn x S := by
  induction C generalizing S with
  | nil => rfl
  | cons f C ih =>
    obtain ⟨hf, hp'⟩ := List.forall_mem_cons.1 hp
    cases f with
    | left n r =>
      have hx : cmpfn x n.2 < 0 := hf
      rw [plug, ih hp', subtreeAt, if_pos hx]
    | right n l =>
      have hx : cmpfn x n.2 > 0 := hf
      rw [plug, ih hp', subtreeAt, if_neg (by omega), if_pos hx]

/-- The search for `x` leads to the subtree at the element equal to it. -/
theorem subtreeAt_found (hp : Path cmpfn x C) (hx : cmpfn x n.2 = 0) :
    subtreeAt cmpfn x (plug C (.node n l r)) = .node n l r := by
  rw [subtreeAt_plug hp, subtreeAt, if_neg (by omega), if_neg (by omega)]

theorem lastLeft_plug (hD : afterIn D = []) : lastLeft (plug D (.node b l .nil)) = l := by
  have key (S : BinaryTree (BtCell α)) (hS : S ≠ .nil) : lastLeft (plug D S) = lastLeft S := by
    induction D generalizing S with
    | nil => rfl
    | cons f D ih =>
      cases f with
      | left n r => cases hD
      | right n l' =>
        rw [plug, ih hD _ (by simp)]
        cases S with
        | nil => exact absurd rfl hS
        | node c l r => rw [lastLeft]
  rw [key _ (by simp), lastLeft]

/-- Memory determines the tree that its nodes form. -/
theorem tree_unique (h : m.Owns (cells p T)) (h' : m.Owns (cells p T')) (hp : ptr T = ptr T') :
    T = T' := by
  induction T generalizing T' p with
  | nil => exact (ptr_eq_none.1 hp.symm).symm
  | node n l r ihl ihr =>
    cases T' with
    | nil => cases hp
    | node n' l' r' =>
      obtain ⟨a, x⟩ := n
      obtain ⟨a', x'⟩ := n'
      obtain rfl : a = a' := Option.some.inj hp
      have hcell := h.head.symm.trans h'.head
      simp only [Option.some.injEq, BtNode.mk.injEq] at hcell
      obtain ⟨rfl, hl, hr, -⟩ := hcell
      obtain ⟨-, hL, hR⟩ := owns_children h
      obtain ⟨-, hL', hR'⟩ := owns_children h'
      rw [ihl hL hL' hl, ihr hR hR' hr]

theorem Linked.unique (h : t.Linked T) (h' : t.Linked T') : T = T' :=
  tree_unique h.cells h'.cells (h.root.symm.trans h'.root)

theorem numNodes_eq_zero : T.numNodes = 0 ↔ T = .nil := by
  cases T <;> simp [BinaryTree.numNodes]

/-- What removing leaves, and what it loses. -/
theorem Removed.elems_of_kept (h : Removed C n l r T') (ho : orphaned (.node n l r) = .nil) :
    elems T' = (elemsBefore C ++ elems l) ++ (elems r ++ elemsAfter C) := by
  cases h with
  | noLeft => simp
  | noRight => simp
  | @both D b lb r hD hr =>
    obtain ⟨c, r₁, r₂, rfl⟩ : ∃ c r₁ r₂, r = .node c r₁ r₂ := by
      cases r with
      | nil => exact absurd rfl hr
      | node c r₁ r₂ => exact ⟨c, r₁, r₂, rfl⟩
    have hD' : elemsAfter D = [] := by rw [elemsAfter, hD, List.map_nil]
    obtain rfl : lb = .nil := by rwa [orphaned, lastLeft_plug hD] at ho
    rw [plug_append]
    show elems (plug C (.node (n.1, b.2) (plug D .nil) _)) = _
    simp [hD']

theorem Removed.numNodes (h : Removed C n l r T') :
    T'.numNodes + (orphaned (.node n l r)).numNodes + 1 = (plug C (.node n l r)).numNodes := by
  cases h with
  | noLeft =>
    rw [numNodes_plug, numNodes_plug]
    cases r <;> simp only [orphaned, lastLeft, BinaryTree.numNodes] <;> omega
  | noRight =>
    rw [numNodes_plug, numNodes_plug]
    simp only [orphaned, BinaryTree.numNodes]
    omega
  | @both D b lb r hD hr =>
    cases r with
    | nil => exact absurd rfl hr
    | node c r₁ r₂ =>
      rw [orphaned, lastLeft_plug hD, plug_append]
      show (plug C (.node (n.1, b.2) (plug D .nil) (.node c r₁ r₂))).numNodes + _ + 1 = _
      simp only [numNodes_plug, BinaryTree.numNodes]
      omega

theorem Linked.bintreeCount_eq (h : t.Linked T) (hc : t.count = some T.numNodes) :
    bintreeCount t = .ok T.numNodes := by
  cases T with
  | nil => exact bintreeCount_nil h
  | node n l r =>
    apply bintreeCount_of_count _ hc
    rw [h.root]
    simp

/-- **`bintree_remove` takes out exactly one element** if and only if it loses no subtree. -/
theorem Linked.removesExactly_iff (hc : IsCmpFn cmpfn) (h : t.Linked T)
    (hs : SortedBy cmpfn (elems T)) (hcount : bintreeCount t = .ok T.numNodes) (x : α) :
    RemovesExactly cmpfn t x ↔ KeepsSubtrees cmpfn t x := by
  have hkeeps : KeepsSubtrees cmpfn t x ↔ orphaned (subtreeAt cmpfn x T) = .nil :=
    ⟨fun hk => hk T h, fun hk T' h' => h.unique h' ▸ hk⟩
  rw [hkeeps]
  have hret : Returns (bintreeRemove cmpfn t x) _ := remove_spec h hcount x
  obtain ⟨⟨b, t'⟩, hrun, C, hp, ⟨rfl, hr⟩ | ⟨n, l, r, T', rfl, hx, hrem, rfl, hl, hc'⟩⟩ := hret
  · -- there is no element equal to `x`
    obtain ⟨rfl, rfl⟩ := Prod.mk.inj hr
    obtain ⟨hbefore, hafter⟩ := hp.between hc hs
    have hnone := findEq_eq_none.1 (findEq_eq_none_of_between hc hbefore hafter)
    simp only [elems_plug, elems_nil, List.nil_append] at hs
    rw [subtreeAt_plug hp]
    refine iff_of_true ⟨_, h, _, hrun, fun ys y zs he hy => ?_, fun _ => rfl⟩ rfl
    simp only [elems_plug, elems_nil, List.nil_append] at he
    exact absurd hy (hnone y (by simp [he]))
  · rw [subtreeAt_found hp hx]
    have hnum := hrem.numNodes
    constructor
    · rintro ⟨T₁, h₁, hret⟩
      obtain rfl := h.unique h₁
      obtain ⟨-, T₂, h₂, -, -, hcount'⟩ := (hret.of_eq_ok hrun).1 _ _ _ elems_plug_node hx
      obtain rfl := hl.unique h₂
      rw [hcount] at hcount'
      have hnodes := Except.ok.inj hcount'
      exact numNodes_eq_zero.1 (by omega)
    · intro ho
      have hnum' : T'.numNodes + 1 = (plug C (.node n l r)).numNodes := by simpa [ho] using hnum
      rw [← hnum', Nat.add_sub_cancel] at hc'
      have hel := hrem.elems_of_kept ho
      refine ⟨_, h, _, hrun, fun ys y zs he hy => ?_, fun hne => ?_⟩
      · rw [elems_plug_node] at he hs
        have hny : cmpfn n.2 y = 0 := (hc.eq_congr_left hx).1 hy
        obtain ⟨rfl, rfl⟩ := hs.split_unique hc he hny
        exact ⟨rfl, T', hl, hel, hl.bintreeCount_eq hc', by rw [hcount, hnum']⟩
      · exact absurd hx (hne n.2 (by simp))

/-- The call removes an element without losing a subtree, if it removes one. -/
def KeepsSubtreesIn (cmpfn : α → α → ℤ) (t : Bintree α) (op : BintreeOp α) : Prop :=
  ∀ x, op = .remove x → t.KeepsSubtrees cmpfn x

/-- No call makes `count` smaller than the number of nodes, and if they are equal, only the loss of a
subtree makes them different. -/
theorem step_counts (cmpfn : α → α → ℤ) {c : ℕ} (h : t.Linked T) (hc : bintreeCount t = .ok c)
    (hle : T.numNodes ≤ c) (op : BintreeOp α) : Ends (bintreeStep cmpfn t op)
      (fun s => ∃ T' c', s.2.Linked T' ∧ bintreeCount s.2 = .ok c' ∧ T'.numNodes ≤ c' ∧
        (T.numNodes = c → t.KeepsSubtreesIn cmpfn op → T'.numNodes = c'))
      (fun e => e = .nullDeref ∧ op.NoMemory) := by
  cases op with
  | insert x ok =>
    apply ((insert_spec h hc x ok).fault_mono fun e he => ⟨he.1, he.2.1⟩).bind
    rintro ⟨b, t'⟩ ⟨-, C, -, ⟨n, l, r, rfl, -, rfl⟩ | ⟨rfl, a, hl, hc'⟩⟩
    · have hnum : (plug C (.node (n.1, x) l r)).numNodes = (plug C (.node n l r)).numNodes := by
        simp only [numNodes_plug, BinaryTree.numNodes]
      exact ⟨_, c, (h.replace x).2, hc, hnum ▸ hle, fun heq _ => hnum ▸ heq⟩
    · have hnum : (plug C (.node (a, x) .nil .nil)).numNodes = (plug C .nil).numNodes + 1 := by
        simp only [numNodes_plug, BinaryTree.numNodes]
        omega
      exact ⟨_, c + 1, hl, hc', by omega, fun heq _ => by omega⟩
  | remove x =>
    apply ((remove_spec h hc x).ends _).bind
    rintro ⟨b, t'⟩ ⟨C, hp, ⟨-, hr⟩ | ⟨n, l, r, T', rfl, hx, hrem, -, hl, hc'⟩⟩
    · obtain ⟨-, rfl⟩ := Prod.mk.inj hr
      exact ⟨T, c, h, hc, hle, fun heq _ => heq⟩
    · have hnum := hrem.numNodes
      by_cases hT' : T' = .nil
      · subst hT'
        exact ⟨_, 0, hl, bintreeCount_nil hl, le_rfl, fun _ _ => rfl⟩
      · have hroot : t'.root ≠ none := by rwa [hl.root, Ne, ptr_eq_none]
        refine ⟨T', c - 1, hl, bintreeCount_of_count hroot hc', by omega, fun heq hkeep => ?_⟩
        have ho := hkeep x rfl _ h
        rw [subtreeAt_found hp hx] at ho
        rw [ho, BinaryTree.numNodes] at hnum
        omega
  | clear =>
    apply ((clear_spec h).ends _).bind
    intro t' ⟨hl, hc'⟩
    exact ⟨_, 0, hl, hc', le_rfl, fun _ _ => rfl⟩

theorem countsNodes_init : (bintreeInit : Bintree α).CountsNodes := ⟨_, linked_init, rfl⟩

/-- A run leads to a search tree. -/
theorem sorted_of_runs (hc : IsCmpFn cmpfn) {ops : List (BintreeOp α)} {os : List BintreeOut}
    (h : runs (bintreeStep cmpfn) bintreeInit ops = .ok (os, t)) :
    ∃ T, t.Linked T ∧ SortedBy cmpfn (elems T) ∧ ∃ c, bintreeCount t = .ok c := by
  apply runs_invariant (fun t : Bintree α => ∃ T, t.Linked T ∧ SortedBy cmpfn (elems T) ∧
    ∃ c, bintreeCount t = .ok c) _ ⟨_, linked_init, .nil, 0, rfl⟩ h
  intro t op o t' ⟨T, hl, hs, hcount⟩ hstep
  have hends := step_sorted hc hl hs hcount op
  rwa [hstep] at hends

/-- A run none of whose removals loses a subtree keeps the count. -/
theorem throughout_countsNodes (cmpfn : α → α → ℤ) {ops : List (BintreeOp α)}
    (hops : Meets (bintreeStep cmpfn) (KeepsSubtreesIn cmpfn) bintreeInit ops) :
    Throughout (bintreeStep cmpfn) (· = .nullDeref) CountsNodes bintreeInit ops := by
  apply Throughout.of_meets CountsNodes (fun _ h => h) _ countsNodes_init hops
  intro t op ⟨T, h, hcount⟩ hkeep
  apply ((step_counts cmpfn h hcount le_rfl op).fault_mono fun _ he => he.1).mono
  intro s ⟨T', c', h', hcount', _, hexact⟩
  exact ⟨T', h', by rw [hcount', hexact rfl hkeep]⟩

end Bintree

/-- **When removing is exact.** In every state that calls lead to in which `count` is the number of
nodes, `bintree_remove` takes out exactly the element equal to `x`, and counts it off, if and only if
this loses no subtree: unless the element is at a node with two children whose predecessor in order
has a left child. In a run none of whose removals loses a subtree, `count` is the number of nodes in
every state. -/
theorem bintree_remove_exact_iff (hc : IsCmpFn cmpfn) :
    (∀ ops os (t : Bintree α), runs (bintreeStep cmpfn) bintreeInit ops = .ok (os, t) →
      t.CountsNodes → ∀ x, t.RemovesExactly cmpfn x ↔ t.KeepsSubtrees cmpfn x) ∧
    ∀ ops, Meets (bintreeStep cmpfn) (Bintree.KeepsSubtreesIn cmpfn) bintreeInit ops →
      Throughout (bintreeStep cmpfn) (· = .nullDeref) Bintree.CountsNodes bintreeInit ops := by
  constructor
  · intro ops os t hrun ⟨T, h, hcount⟩ x
    obtain ⟨T', h', hs, -⟩ := Bintree.sorted_of_runs hc hrun
    obtain rfl := h.unique h'
    exact h.removesExactly_iff hc hs hcount x
  · intro ops hops
    exact Bintree.throughout_countsNodes cmpfn hops

/-- Integers, where removing the root loses nothing. -/
theorem bintree_remove_exact_iff_int :
    ∃ (os : List BintreeOut) (t : Bintree ℤ), runs (bintreeStep fun a b => a - b) bintreeInit
        [.insert 5 true, .insert 3 true, .insert 8 true] = .ok (os, t) ∧
      t.RemovesExactly (fun a b => a - b) 5 := by
  have hrun : runs (bintreeStep fun a b : ℤ => a - b) bintreeInit
      [.insert 5 true, .insert 3 true, .insert 8 true] = .ok (_, _) := rfl
  have hc : IsCmpFn fun a b : ℤ => a - b := ⟨by omega, by omega⟩
  obtain ⟨hexact, hcounts⟩ := bintree_remove_exact_iff hc
  have hops : Meets (bintreeStep fun a b : ℤ => a - b) (Bintree.KeepsSubtreesIn fun a b => a - b)
      bintreeInit [.insert 5 true, .insert 3 true, .insert 8 true] :=
    ⟨nofun, nofun, nofun, trivial⟩
  refine ⟨_, _, hrun, (hexact _ _ _ hrun ((hcounts _ hops).of_runs hrun) 5).2 fun T h => ?_⟩
  have hT : T = .node (0, 5) (.node (1, 3) .nil .nil) (.node (2, 8) .nil .nil) := by
    refine h.unique ⟨rfl, ?_, by decide⟩
    simp only [Bintree.cells, List.nil_append, List.cons_append, List.forall_mem_cons]
    exact ⟨rfl, rfl, rfl, by simp⟩
  rw [hT]
  rfl

/-- The predecessor of the root has a left child, which is lost. -/
theorem not_removesExactly_of_child :
    ∃ (os : List BintreeOut) (t : Bintree ℤ), runs (bintreeStep fun a b => a - b) bintreeInit
        [.insert 5 true, .insert 3 true, .insert 2 true, .insert 8 true] = .ok (os, t) ∧
      t.CountsNodes ∧ ¬ t.RemovesExactly (fun a b => a - b) 5 := by
  obtain ⟨os, t, hrun, hcount, hT⟩ : ∃ os t, runs (bintreeStep fun a b : ℤ => a - b) bintreeInit
      [.insert 5 true, .insert 3 true, .insert 2 true, .insert 8 true] = .ok (os, t) ∧
      bintreeCount t = .ok 4 ∧ t.Linked (.node (0, 5) (.node (1, 3) (.node (2, 2) .nil .nil) .nil)
        (.node (3, 8) .nil .nil)) := by
    refine ⟨_, _, rfl, rfl, rfl, ?_, by decide⟩
    simp only [Bintree.cells, List.nil_append, List.cons_append, List.forall_mem_cons]
    exact ⟨rfl, rfl, rfl, rfl, by simp⟩
  refine ⟨os, t, hrun, ⟨_, hT, hcount⟩, fun hr => ?_⟩
  have hc : IsCmpFn fun a b : ℤ => a - b := ⟨by omega, by omega⟩
  cases (hT.removesExactly_iff hc (by decide) hcount 5).1 hr _ hT

end LibSrsBsns
