import Mathlib.Data.Tree.Basic
import Mathlib.Data.List.Perm.Basic
import Mathlib.Data.Nat.Size
import Mathlib.Algebra.Order.Ring.Int
import Mathlib.Tactic.Common

/-!
# Binary trees with a hole

A place in a binary tree is a list of frames, the steps from the hole up to the root, and the tree
below the hole. `BinaryTree.plug` puts the two together again. For the pre-order, in-order and
post-order of a tree the functions `afterPre`, `afterIn` and `afterPost` say which values come
after those below the hole, in terms of the frames alone.
-/

namespace BinaryTree

variable {α β : Type} {x y : α} {l r t : BinaryTree α}

def preorder : BinaryTree α → List α
  | nil => []
  | node x l r => x :: (l.preorder ++ r.preorder)

def inorder : BinaryTree α → List α
  | nil => []
  | node x l r => l.inorder ++ x :: r.inorder

def postorder : BinaryTree α → List α
  | nil => []
  | node x l r => l.postorder ++ (r.postorder ++ [x])

@[simp] theorem preorder_nil : (nil : BinaryTree α).preorder = [] := rfl

@[simp] theorem inorder_nil : (nil : BinaryTree α).inorder = [] := rfl

@[simp] theorem postorder_nil : (nil : BinaryTree α).postorder = [] := rfl

@[simp] theorem preorder_node : (node x l r).preorder = x :: (l.preorder ++ r.preorder) := rfl

@[simp] theorem inorder_node : (node x l r).inorder = l.inorder ++ x :: r.inorder := rfl

@[simp] theorem postorder_node :
    (node x l r).postorder = l.postorder ++ (r.postorder ++ [x]) := rfl

theorem inorder_perm (t : BinaryTree α) : t.inorder.Perm t.preorder := by
  induction t with
  | nil => exact .refl _
  | node x l r ihl ihr => exact List.perm_middle.trans ((ihl.append ihr).cons x)

theorem postorder_perm (t : BinaryTree α) : t.postorder.Perm t.preorder := by
  induction t with
  | nil => exact .refl _
  | node x l r ihl ihr =>
    rw [postorder_node, ← List.append_assoc]
    exact (List.perm_append_singleton x _).trans ((ihl.append ihr).cons x)

theorem length_preorder (t : BinaryTree α) : t.preorder.length = t.numNodes := by
  induction t with
  | nil => rfl
  | node x l r ihl ihr => simp [ihl, ihr]

theorem length_inorder (t : BinaryTree α) : t.inorder.length = t.numNodes :=
  t.inorder_perm.length_eq.trans t.length_preorder

theorem length_postorder (t : BinaryTree α) : t.postorder.length = t.numNodes :=
  t.postorder_perm.length_eq.trans t.length_preorder

/-! ## Contexts -/

/-- A step from a node to one of its children: the value of the node and its other child. -/
inductive Frame (α : Type)
  | left (x : α) (r : BinaryTree α)
  | right (x : α) (l : BinaryTree α)

/-- The value of the node a step starts from. -/
def Frame.value : Frame α → α
  | left x _ => x
  | right x _ => x

/-- Whether the hole is a left child. -/
def Frame.isLeft : Frame α → Bool
  | left _ _ => true
  | right _ _ => false

/-- The tree with `t` in the hole. -/
def plug : List (Frame α) → BinaryTree α → BinaryTree α
  | [], t => t
  | .left x r :: C, t => plug C (node x t r)
  | .right x l :: C, t => plug C (node x l t)

/-- The values that come before those below the hole, in order. -/
def beforeIn : List (Frame α) → List α
  | [] => []
  | .left _ _ :: C => beforeIn C
  | .right x l :: C => beforeIn C ++ (l.inorder ++ [x])

/-- The values that come after those below the hole, in order. -/
def afterIn : List (Frame α) → List α
  | [] => []
  | .left x r :: C => x :: (r.inorder ++ afterIn C)
  | .right _ _ :: C => afterIn C

/-- The values that come after those below the hole, in pre-order. -/
def afterPre : List (Frame α) → List α
  | [] => []
  | .left _ r :: C => r.preorder ++ afterPre C
  | .right _ _ :: C => afterPre C

/-- The values that come after those below the hole, in post-order. -/
def afterPost : List (Frame α) → List α
  | [] => []
  | .left x r :: C => r.postorder ++ x :: afterPost C
  | .right x _ :: C => x :: afterPost C

variable {C D : List (Frame α)}

@[simp] theorem plug_nil : plug [] t = t := rfl

theorem plug_append : plug (D ++ C) t = plug C (plug D t) := by
  induction D generalizing t with
  | nil => rfl
  | cons f D ih => cases f <;> exact ih

theorem plug_node_ne_nil : plug C (node x l r) ≠ nil := by
  induction C generalizing x l r with
  | nil => simp
  | cons f C ih => cases f <;> exact ih

theorem inorder_plug : (plug C t).inorder = beforeIn C ++ (t.inorder ++ afterIn C) := by
  induction C generalizing t with
  | nil => simp [beforeIn, afterIn]
  | cons f C ih => cases f <;> simp [plug, beforeIn, afterIn, ih]

/-- Every value is at some place of the tree. -/
theorem exists_plug_of_mem (h : x ∈ t.preorder) : ∃ C l r, t = plug C (node x l r) := by
  induction t with
  | nil => simp at h
  | node y l r ihl ihr =>
    rw [preorder_node, List.mem_cons, List.mem_append] at h
    rcases h with rfl | h | h
    · exact ⟨[], l, r, rfl⟩
    · obtain ⟨C, l', r', rfl⟩ := ihl h
      exact ⟨C ++ [.left y r], l', r', by rw [plug_append]; rfl⟩
    · obtain ⟨C, l', r', rfl⟩ := ihr h
      exact ⟨C ++ [.right y l], l', r', by rw [plug_append]; rfl⟩

theorem length_le_numNodes_plug : C.length + t.numNodes ≤ (plug C t).numNodes := by
  induction C generalizing t with
  | nil => simp
  | cons f C ih =>
    rw [List.length_cons]
    cases f with
    | left x r =>
      have := ih (t := node x t r)
      simp only [plug, numNodes] at this ⊢
      omega
    | right x l =>
      have := ih (t := node x l t)
      simp only [plug, numNodes] at this ⊢
      omega

/-! ## Height -/

theorem numNodes_lt_two_pow_height (t : BinaryTree α) : t.numNodes < 2 ^ t.height := by
  induction t with
  | nil => simp
  | node x l r ihl ihr =>
    have hl : 2 ^ l.height ≤ 2 ^ max l.height r.height :=
      Nat.pow_le_pow_right (by omega) (Nat.le_max_left _ _)
    have hr : 2 ^ r.height ≤ 2 ^ max l.height r.height :=
      Nat.pow_le_pow_right (by omega) (Nat.le_max_right _ _)
    rw [numNodes, height, Nat.pow_succ]
    omega

/-- No tree with as many nodes has a smaller height. -/
theorem size_numNodes_le_height (t : BinaryTree α) : t.numNodes.size ≤ t.height :=
  Nat.size_le.2 t.numNodes_lt_two_pow_height

end BinaryTree
