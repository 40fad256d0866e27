import LibSrsBsns.Bintree.Calls
import Mathlib.Data.Nat.Log

/-!
# Balancing a binary tree

`bintree_balance` inserts the elements of a sorted array again, the middle one first and then those
on its left and those on its right. All elements of a part go down the same path, to a hole of the
tree, so that the part becomes the subtree there (`Bintree.rbalance_subtree`): its height is the
number of binary digits of its size, the least that there is for so many nodes.
-/

namespace LibSrsBsns

open C BinaryTree

variable {α : Type} {cmpfn : α → α → ℤ}

namespace Bintree

variable {t : Bintree α} {T S l r : BinaryTree (BtCell α)} {C D : List (Frame (BtCell α))}
  {n : BtCell α} {p : Ptr} {m : Memory (BtNode α)} {x : α} {xs : List α} {c : ℕ}

/-! ## Height -/

theorem max_depth (k d i j : ℕ) :
    max (max k (d + i)) (d + j) = max k (d + (max i j + 1) - 1) := by
  rw [Nat.max_assoc, Nat.add_max_add_left, ← Nat.add_assoc, Nat.add_sub_cancel]

/-- `discoverheight` finds the number of nodes on the longest path down. -/
theorem discoverheight_spec {k a depth maxdepth : ℕ} (h : m.Owns (cells p T)) (ha : ptr T = some a)
    (hk : T.numNodes ≤ k) : Returns (discoverheight m k a depth maxdepth) fun d =>
      d = max maxdepth (depth + T.height - 1) := by
  induction T generalizing k a p depth maxdepth with
  | nil => cases ha
  | node n l r ihl ihr =>
    obtain rfl : n.1 = a := Option.some.inj ha
    obtain ⟨k, rfl⟩ : ∃ k', k = k' + 1 := ⟨k - 1, by simp only [numNodes] at hk; omega⟩
    simp only [numNodes] at hk
    obtain ⟨hload, hl, hr⟩ := owns_children h
    have hmax : (if depth > maxdepth then depth else maxdepth) = max maxdepth depth := by
      rw [max_def]
      split <;> split <;> omega
    simp only [discoverheight, hload, ok_bind, hmax]
    apply Returns.bind (P := fun d => d = max maxdepth (depth + l.height))
    · cases l with
      | nil => exact .ok rfl
      | node b l₁ l₂ =>
        apply (ihl hl rfl (by omega)).mono
        rintro d rfl
        rw [Nat.max_assoc, Nat.add_right_comm, Nat.add_sub_cancel,
          Nat.max_eq_right (Nat.le_add_right depth _)]
    · rintro d rfl
      rw [height, ← max_depth]
      cases r with
      | nil => exact .ok (by simp [height])
      | node b r₁ r₂ =>
        apply (ihr hr rfl (by omega)).mono
        rintro d rfl
        rw [Nat.add_right_comm, Nat.add_sub_cancel]

/-- **`bintree_height`** is the number of nodes on the longest path from the root to a leaf. -/
theorem Linked.bintreeHeight (h : t.Linked T) : bintreeHeight t = .ok T.height := by
  have hle := h.numNodes_le
  rw [LibSrsBsns.bintreeHeight, h.root]
  cases T with
  | nil => rfl
  | node n l r =>
    have hret : Returns (discoverheight t.mem t.mem.brk n.1 1 1) _ :=
      discoverheight_spec h.cells rfl hle
    obtain ⟨d, hd, rfl⟩ := hret
    simp only [ptr_node, hd, height]
    congr 1
    omega

theorem size_half {k : ℕ} (hk : 0 < k) : Nat.size k = (k / 2).size + 1 := by
  apply le_antisymm
  · rw [Nat.size_le, Nat.pow_succ]
    have := Nat.lt_size_self (k / 2)
    omega
  · rw [Nat.succ_le_iff, Nat.lt_size]
    rcases Nat.eq_zero_or_pos (k / 2).size with h | h
    · rw [h]
      omega
    · have hlt : (k / 2).size - 1 < (k / 2).size := by omega
      rw [Nat.lt_size] at hlt
      have := Nat.two_pow_pred_mul_two h
      omega

theorem size_eq_log {k : ℕ} (hk : 0 < k) : Nat.size k = Nat.log 2 k + 1 := by
  apply le_antisymm
  · exact Nat.size_le.2 (Nat.lt_pow_succ_log_self (by omega) k)
  · exact Nat.lt_size.2 (Nat.pow_log_le_self 2 (by omega))

/-! ## The path to a hole -/

theorem path_append : Path cmpfn x (C ++ D) ↔ Path cmpfn x C ∧ Path cmpfn x D := List.forall_mem_append

theorem Path.root_unique {f g : Frame (BtCell α)} (hf : Path cmpfn x [f]) (hg : Path cmpfn x [g])
    (h : plug [f] S = plug [g] T) : f = g ∧ S = T := by
  have hf := hf f (by simp)
  have hg := hg g (by simp)
  cases f with
  | left n r =>
    cases g with
    | left n' r' =>
      obtain ⟨rfl, rfl, rfl⟩ := BinaryTree.node.inj h
      exact ⟨rfl, rfl⟩
    | right n' l' =>
      obtain ⟨rfl, -, -⟩ := BinaryTree.node.inj h
      exact absurd hg (Int.not_lt.2 hf.le)
  | right n l =>
    cases g with
    | left n' r' =>
      obtain ⟨rfl, -, -⟩ := BinaryTree.node.inj h
      exact absurd hf (Int.not_lt.2 hg.le)
    | right n' l' =>
      obtain ⟨rfl, rfl, rfl⟩ := BinaryTree.node.inj h
      exact ⟨rfl, rfl⟩

theorem Path.root_ne {f : Frame (BtCell α)} (hf : Path cmpfn x [f])
    (hS : ∀ n l r, plug [f] S = .node n l r → cmpfn x n.2 = 0) : False := by
  have hf := hf f (by simp)
  cases f with
  | left n r => exact hf.ne (hS n S r rfl)
  | right n l => exact hf.ne' (hS n l S rfl)

/-- The path of `x` leads to one place: a hole, if it is one that `x` can be led to. -/
theorem Path.unique (hp : Path cmpfn x C) (hp' : Path cmpfn x D) (h : plug C .nil = plug D S)
    (hS : ∀ n l r, S = .node n l r → cmpfn x n.2 = 0) : C = D ∧ S = .nil := by
  induction C using List.reverseRecOn generalizing D with
  | nil =>
    cases S with
    | nil =>
      cases D with
      | nil => exact ⟨rfl, rfl⟩
      | cons f D => cases f <;> exact absurd h.symm plug_node_ne_nil
    | node n l r => exact absurd h.symm plug_node_ne_nil
  | append_singleton C f ih =>
    obtain ⟨hC, hf⟩ := path_append.1 hp
    rw [plug_append] at h
    rcases List.eq_nil_or_concat' D with rfl | ⟨D, g, rfl⟩
    · -- the search would have ended at the root
      exact (hf.root_ne fun n l r hn => hS n l r (h.symm.trans hn)).elim
    · obtain ⟨hD, hg⟩ := path_append.1 hp'
      rw [plug_append] at h
      obtain ⟨rfl, hin⟩ := hf.root_unique hg h
      obtain ⟨rfl, hnil⟩ := ih hC hD hin
      exact ⟨rfl, hnil⟩

/-- An element that is led to a hole becomes a leaf there. -/
theorem insert_hole (h : t.Linked (plug C .nil)) (hc : bintreeCount t = .ok c)
    (hp : Path cmpfn x C) : Returns (bintreeInsert cmpfn t (some x) true) fun s =>
      ∃ a, s.2.Linked (plug C (.node (a, x) .nil .nil)) ∧ bintreeCount s.2 = .ok (c + 1) := by
  apply ((insert_spec h hc x true).mono _).returns
  · rintro e ⟨-, hno, -⟩
    cases hno
  · rintro s ⟨-, D, hD, ⟨n, l, r, hplug, heq, -⟩ | ⟨hplug, hleaf⟩⟩
    · obtain ⟨-, hnil⟩ := hp.unique hD hplug fun _ _ _ hn => by cases hn; exact heq
      cases hnil
    · obtain ⟨rfl, -⟩ := hp.unique hD hplug nofun
      exact hleaf

/-! ## Balancing -/

/-- The subtree at the hole of `C` has the elements `xs` and the least height, where the tree had `c`
nodes without them. -/
def Grafted (C : List (Frame (BtCell α))) (xs : List α) (c : ℕ) (t : Bintree α) : Prop :=
  ∃ S, t.Linked (plug C S) ∧ elems S = xs ∧ S.height = xs.length.size ∧
    bintreeCount t = .ok (c + xs.length)

theorem grafted_nil (h : t.Linked (plug C .nil)) (hc : bintreeCount t = .ok c) : Grafted C [] c t :=
  ⟨.nil, h, rfl, rfl, hc⟩

/-- Two halves and the element between them: the right half may be larger by one. -/
theorem Grafted.node {ys : List α} (h : Grafted (.right n l :: C) ys (c + 1 + (elems l).length) t)
    (hl : l.height = (elems l).length.size) (hle : (elems l).length ≤ ys.length)
    (hge : ys.length ≤ (elems l).length + 1) : Grafted C (elems l ++ n.2 :: ys) c t := by
  obtain ⟨S, hlinked, rfl, hheight, hc⟩ := h
  refine ⟨.node n l S, hlinked, elems_node, ?_, ?_⟩
  · have hmono : (elems l).length.size ≤ (elems S).length.size := Nat.size_le_size hle
    have hhalf : (elems S).length = ((elems l).length + ((elems S).length + 1)) / 2 := by omega
    rw [height, hl, hheight, max_eq_right hmono, List.length_append, List.length_cons,
      size_half (k := (elems l).length + ((elems S).length + 1)) (by omega), ← hhalf]
  · rw [hc, List.length_append, List.length_cons]
    congr 1
    omega

/-- The middle element of a part of an array, with those on its left and those on its right. -/
theorem exists_middle {start stop : ℕ} (hle : start ≤ stop) (hlen : start + xs.length = stop + 1) :
    ∃ l x r, xs = l ++ x :: r ∧ start + l.length = (start + stop) / 2 := by
  have hmid : (start + stop) / 2 - start < xs.length := by omega
  refine ⟨xs.take ((start + stop) / 2 - start), xs[(start + stop) / 2 - start],
    xs.drop ((start + stop) / 2 - start + 1), ?_, ?_⟩
  · rw [List.getElem_cons_drop, List.take_append_drop]
  · rw [List.length_take]
    omega

/-- **`bintree_rbalance` of a part of a sorted array** whose elements are all led to the same hole
makes it the subtree there, of the least height. -/
theorem rbalance_subtree (hcmp : IsCmpFn cmpfn) {k start stop : ℕ} {src : Buffer α}
    (h : t.Linked (plug C .nil)) (hc : bintreeCount t = .ok c) (hs : SortedBy cmpfn xs)
    (hp : ∀ x ∈ xs, Path cmpfn x C) (hsrc : src.Holds start xs) (hle : start ≤ stop)
    (hlen : start + xs.length = stop + 1) (hk : xs.length ≤ k) :
    Returns (bintreeRbalance cmpfn k t src start stop) (Grafted C xs c) := by
  induction k generalizing t C c xs start stop with
  | zero => omega
  | succ k ih =>
    obtain ⟨l, x, r, rfl, hl⟩ := exists_middle hle hlen
    rw [List.length_append, List.length_cons] at hlen hk
    obtain ⟨hsrcl, hsrcx⟩ := Buffer.holds_append.1 hsrc
    obtain ⟨⟨hlt, hcell⟩, hsrcr⟩ := Buffer.holds_cons.1 hsrcx
    obtain ⟨hsl, hsr, hlr⟩ := sortedBy_append.1 hs
    obtain ⟨hxr, hsr⟩ := sortedBy_cons.1 hsr
    have hread : src.read ((start + stop) / 2) = .ok x := by
      rw [← hl]
      exact Buffer.read_of_cell hlt hcell
    rw [bintreeRbalance, hread, ok_bind]
    apply (insert_hole h hc (hp x (by simp))).bind
    rintro ⟨b, t₁⟩ ⟨a, h₁, hc₁⟩
    -- the left half goes to the left of the new leaf, and then the right half to its right
    apply Returns.bind (P := Grafted (.left (a, x) .nil :: C) l (c + 1))
    · apply Returns.ite
      · intro hlt
        apply ih (C := .left (a, x) .nil :: C) h₁ hc₁ hsl _ hsrcl (by omega) (by omega) (by omega)
        intro y hy
        exact (hp y (by simp [hy])).left (hlr y hy x (by simp))
      · intro hge
        obtain rfl : l = [] := List.length_eq_zero_iff.1 (by omega)
        exact .ok (grafted_nil h₁ hc₁)
    · rintro t₂ ⟨S₁, h₂, rfl, hheight, hc₂⟩
      apply Returns.mono (P := Grafted (.right (a, x) S₁ :: C) r (c + 1 + (elems S₁).length))
      · apply Returns.ite
        · intro hgt
          rw [hl] at hsrcr
          apply ih (C := .right (a, x) S₁ :: C) h₂ hc₂ hsr _ hsrcr (by omega) (by omega) (by omega)
          intro y hy
          exact (hp y (by simp [hy])).right ((hcmp.flip _ _).1 (hxr y hy))
        · intro hge
          obtain rfl : r = [] := List.length_eq_zero_iff.1 (by omega)
          exact .ok (grafted_nil h₂ hc₂)
      · intro t₃ h₃
        exact h₃.node hheight (by omega) (by omega)

/-- **`bintree_balance`** keeps the elements and their number, and leaves a tree of the least height. -/
theorem balance_height (hcmp : IsCmpFn cmpfn) (h : t.Linked T) (hT : T ≠ .nil)
    (hs : SortedBy cmpfn (elems T)) (hcount : bintreeCount t = .ok T.numNodes) :
    Returns (bintreeBalance cmpfn t) fun t' => ∃ T', t'.Linked T' ∧ elems T' = elems T ∧
      T'.height = T.numNodes.size ∧ bintreeCount t' = .ok T.numNodes := by
  have hpos : T.numNodes ≠ 0 := numNodes_eq_zero.not.2 hT
  apply balance_of_rbalance h hT hcount
  intro t' arr hl' hcount' harr
  have hlen := length_elems T
  apply (rbalance_subtree hcmp (C := []) hl' hcount' hs (fun x _ => path_nil) harr (Nat.zero_le _)
    (by omega) (by omega)).mono
  intro t'' ⟨S, hS, helems, hheight, hcount''⟩
  rw [hlen] at hheight hcount''
  rw [Nat.zero_add] at hcount''
  exact ⟨S, hS, helems, hheight, hcount''⟩

/-- A run without removals leads to a search tree that counts its nodes. -/
theorem maps_of_runs (hcmp : IsCmpFn cmpfn) {ops : List (BintreeOp α)} {os : List BintreeOut}
    (hops : ∀ op ∈ ops, ∀ x, op ≠ .remove x)
    (h : runs (bintreeStep cmpfn) bintreeInit ops = .ok (os, t)) : ∃ xs, t.Maps cmpfn xs := by
  have hrun := Ends.runs_trace (fun xs op _ xs' => xs' = (insertedSpec xs op).2)
    (Bintree.Maps cmpfn) (fun _ _ => True) (fun op => ∀ x, op ≠ .remove x)
    (fun t xs op hop hm => ((step_maps hcmp hm hop).mono fun s hs => ⟨_, rfl, hs.2⟩).fault_mono
      fun _ _ => trivial)
    ⟨_, linked_init, .nil, rfl, fun _ => rfl⟩ hops
  rw [h] at hrun
  obtain ⟨xs, -, hm⟩ := hrun
  exact ⟨xs, hm⟩

end Bintree

/-- **Balancing gives the least height.** Every tree reached by insertions and clearings is a search
tree whose `count` is the number of its nodes, and if it is not empty `bintree_balance` returns. After
it the elements in order and the count are the same, `bintree_height` is `⌊log₂ n⌋ + 1` for `n`
elements, which is the number of nodes on the longest path from the root to a leaf, and no tree with
as many nodes is lower. -/
theorem bintree_balance_minimal_height (hc : IsCmpFn cmpfn) {ops : List (BintreeOp α)}
    {os : List BintreeOut} {t : Bintree α} (hops : ∀ op ∈ ops, ∀ x, op ≠ .remove x)
    (h : runs (bintreeStep cmpfn) bintreeInit ops = .ok (os, t)) (hroot : t.root ≠ none) :
    ∃ T, t.Linked T ∧ SortedBy cmpfn (Bintree.elems T) ∧ bintreeCount t = .ok T.numNodes ∧
      Returns (bintreeBalance cmpfn t) fun t' => ∃ T', t'.Linked T' ∧
        Bintree.elems T' = Bintree.elems T ∧ bintreeCount t' = .ok T.numNodes ∧
        bintreeHeight t' = .ok (Nat.log 2 T.numNodes + 1) ∧ bintreeHeight t' = .ok T'.height ∧
        ∀ S : BinaryTree (BtCell α), S.numNodes = T.numNodes → T'.height ≤ S.height := by
  obtain ⟨xs, T, hl, hs, hcount, -⟩ := Bintree.maps_of_runs hc hops h
  have hT : T ≠ .nil := by rwa [hl.root, Ne, Bintree.ptr_eq_none] at hroot
  have hpos : T.numNodes ≠ 0 := Bintree.numNodes_eq_zero.not.2 hT
  refine ⟨T, hl, hs, hcount, (Bintree.balance_height hc hl hT hs hcount).mono ?_⟩
  intro t' ⟨T', hl', helems, hheight, hcount'⟩
  refine ⟨T', hl', helems, hcount', ?_, hl'.bintreeHeight, fun S hS => ?_⟩
  · rw [hl'.bintreeHeight, hheight, Bintree.size_eq_log (Nat.pos_of_ne_zero hpos)]
  · rw [hheight, ← hS]
    exact S.size_numNodes_le_height

/-- Five integers inserted in order make a chain; balanced, it has three levels. -/
theorem bintree_balance_minimal_height_chain :
    ∃ (os : List BintreeOut) (t : Bintree ℤ), runs (bintreeStep fun a b : ℤ => a - b) bintreeInit
        [.insert 1 true, .insert 2 true, .insert 3 true, .insert 4 true, .insert 5 true] =
          .ok (os, t) ∧
      bintreeHeight t = .ok 5 ∧ Returns (bintreeBalance (fun a b => a - b) t) fun t' =>
        bintreeHeight t' = .ok 3 := by
  have hc : IsCmpFn fun a b : ℤ => a - b := ⟨by omega, by omega⟩
  have hrun : runs (bintreeStep fun a b : ℤ => a - b) bintreeInit
      [.insert 1 true, .insert 2 true, .insert 3 true, .insert 4 true, .insert 5 true] =
        .ok (_, _) := rfl
  obtain ⟨T, -, -, hcount, hbal⟩ := bintree_balance_minimal_height hc (by simp) hrun nofun
  refine ⟨_, _, hrun, rfl, hbal.mono ?_⟩
  have hn : T.numNodes = 5 := (Except.ok.inj hcount).symm
  rintro t' ⟨T', -, -, -, hheight, -⟩
  rw [hheight, hn]
  rfl

end LibSrsBsns
