import LibSrsBsns.Foundations.C.Buffer

/-!
# The heap

The model of `heap.c`. The field `cmpfn` of `struct heap` is the parameter of the functions that
use it, and the outcome of `realloc` is the argument `ok` of the functions that call it.
-/

namespace LibSrsBsns

open C

variable {α : Type}

/-- `struct heap`. -/
structure Heap (α : Type) where
  tree : Buffer α
  treesz : ℕ
  count : ℕ
  next : ℕ

namespace Heap

/-- `PARENT`. -/
def parent (node : ℕ) : ℕ := (node - 1) / 2

/-- `LEFT`. -/
def left (node : ℕ) : ℕ := 2 * node + 1

/-- `RIGHT`. -/
def right (node : ℕ) : ℕ := 2 * node + 2

end Heap

def heapClear (h : Heap α) : Heap α := { h with next := 0, count := 0 }

def heapInit : Heap α := heapClear ⟨.malloc 32, 32, 0, 0⟩

def heapCount (h : Heap α) : ℕ := h.count

/-- `heap_resize`; `ok` says whether `realloc` succeeds. -/
def heapResize (h : Heap α) (newsz : ℕ) (ok : Bool) : Bool × Heap α :=
  let newsz := if newsz = 0 then 1 else newsz
  if newsz < heapCount h then (false, h)
  else if !ok then (false, h)
  else (true, { h with tree := h.tree.realloc newsz, treesz := newsz })

namespace Heap

/-- `swap`. -/
def swap (tree : Buffer α) (n1 n2 : ℕ) : Exec (Buffer α) := do
  let tmp ← tree.read n1
  let x ← tree.read n2
  let tree ← tree.write n1 x
  tree.write n2 tmp

variable (cmpfn : α → α → ℤ)

/-- The loop of `upheap`. -/
def upLoop : ℕ → Buffer α × ℕ → Exec (Buffer α) :=
  loop fun (tree, node) => do
    let x ← tree.read node
    let y ← tree.read (parent node)
    if cmpfn x y < 0 then do
      let tree ← swap tree node (parent node)
      if parent node = 0 then .ok (.inr tree) else .ok (.inl (tree, parent node))
    else .ok (.inr tree)

/-- `upheap`. -/
def upheap (h : Heap α) (node : ℕ) : Exec (Heap α) :=
  if node = 0 then .ok h else do
    let tree ← upLoop cmpfn (node + 1) (h.tree, node)
    .ok { h with tree }

/-- The comparison of the nodes `n1` and `n2` in `downheap`. -/
def less (tree : Buffer α) (n1 n2 : ℕ) : Exec Bool := do
  let x ← tree.read n1
  let y ← tree.read n2
  .ok (cmpfn x y < 0)

/-- The child of `node` that `downheap` exchanges with it, if there is one to exchange. -/
def badChild (tree : Buffer α) (next node : ℕ) : Exec (Option ℕ) := do
  let badleft ← less cmpfn tree (left node) node
  let badright ← if right node < next then less cmpfn tree (right node) node else .ok false
  if badleft && badright then do
    let lt ← less cmpfn tree (left node) (right node)
    .ok (some (if lt then left node else right node))
  else if badleft || badright then .ok (some (if badleft then left node else right node))
  else .ok none

/-- The loop of `downheap`. -/
def downLoop (next : ℕ) : ℕ → Buffer α × ℕ → Exec (Buffer α) :=
  loop fun (tree, node) =>
    if left node < next then do
      match ← badChild cmpfn tree next node with
      | some n => do
        let tree ← swap tree node n
        .ok (.inl (tree, n))
      | none => .ok (.inr tree)
    else .ok (.inr tree)

/-- `downheap`. -/
def downheap (h : Heap α) : Exec (Heap α) := do
  let tree ← downLoop cmpfn h.next (h.next + 1) (h.tree, 0)
  .ok { h with tree }

/-- The growth in `heap_insert`, which looks at no result. -/
def grow (h : Heap α) (ok : Bool) : Heap α :=
  if h.next ≥ h.treesz then (heapResize h (h.treesz * 2) ok).2 else h

end Heap

variable (cmpfn : α → α → ℤ)

/-- `heap_insert`; `elem` is `none` for a null pointer. -/
def heapInsert (h : Heap α) (elem : Option α) (ok : Bool) : Exec (Heap α) :=
  match elem with
  | none => .ok h
  | some elem => do
    let h := h.grow ok
    let tree ← h.tree.write h.next elem
    Heap.upheap cmpfn { h with tree, count := h.count + 1, next := h.next + 1 } h.next

def heapRemove (h : Heap α) : Exec (Option α × Heap α) :=
  if h.count = 0 then .ok (none, h) else do
    let res ← h.tree.read 0
    let last ← h.tree.read (h.next - 1)
    let tree ← h.tree.write 0 last
    let h ← Heap.downheap cmpfn { h with tree, next := h.next - 1, count := h.count - 1 }
    .ok (some res, h)

end LibSrsBsns
