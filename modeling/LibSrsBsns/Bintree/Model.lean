import LibSrsBsns.Foundations.C.Buffer
import LibSrsBsns.Foundations.C.Memory

/-!
# The binary tree

The model of `bintree.c`. The field `cmpfn` of `struct bintree` is the parameter of the functions
that use it. The fields `count` and `travtype` are `none` until they are written, which
`bintree_init` does not do. The argument `ok` of `bintree_insert` says whether `malloc` succeeds.
A loop over the nodes has a turn for every address handed out, and one more.
-/

namespace LibSrsBsns

open C

variable {α : Type}

/-- `struct bt_node`. -/
structure BtNode (α : Type) where
  data : α
  left : Ptr
  right : Ptr
  parent : Ptr

/-- `struct bintree`, with the memory of its nodes. -/
structure Bintree (α : Type) where
  mem : Memory (BtNode α)
  count : Option ℕ
  root : Ptr
  iter : Ptr
  travtype : Option ℤ

/-- `TRAV_PREORDER`. -/
def travPreorder : ℤ := 0

/-- `TRAV_INORDER`. -/
def travInorder : ℤ := 1

/-- `TRAV_POSTORDER`. -/
def travPostorder : ℤ := 2

def bintreeInit : Bintree α := ⟨.empty, none, none, none, none⟩

/-- Reading the field `count`. -/
def Bintree.readCount (t : Bintree α) : Exec ℕ :=
  match t.count with
  | some c => .ok c
  | none => .error .indeterminate

def bintreeCount (t : Bintree α) : Exec ℕ :=
  match t.root with
  | none => .ok 0
  | some _ => t.readCount

/-- `bintree_rclear`, to the given depth. -/
def bintreeRclear : ℕ → Memory (BtNode α) → Ptr → Exec (Memory (BtNode α))
  | _, m, none => .ok m
  | 0, _, some _ => .error .spin
  | k + 1, m, some n => do
    let v ← m.load n
    let m ← bintreeRclear k m v.left
    let v ← m.load n
    let m ← bintreeRclear k m v.right
    m.free n

def bintreeClear (t : Bintree α) : Exec (Bintree α) := do
  let mem ← bintreeRclear t.mem.brk t.mem t.root
  .ok { t with mem, count := some 0, root := none }

/-- `discoverheight`, to the given depth: `*maxdepth` after. -/
def discoverheight (m : Memory (BtNode α)) : ℕ → ℕ → ℕ → ℕ → Exec ℕ
  | 0, _, _, _ => .error .spin
  | k + 1, n, depth, maxdepth => do
    let maxdepth := if depth > maxdepth then depth else maxdepth
    let v ← m.load n
    let maxdepth ← (match v.left with
      | some l => discoverheight m k l (depth + 1) maxdepth
      | none => .ok maxdepth)
    match v.right with
    | some r => discoverheight m k r (depth + 1) maxdepth
    | none => .ok maxdepth

def bintreeHeight (t : Bintree α) : Exec ℕ :=
  match t.root with
  | none => .ok 0
  | some n => discoverheight t.mem t.mem.brk n 1 1

namespace Bintree

/-- `malloc` of a leaf below `n`, on the left or on the right, in `bintree_insert`, with the
assignment of its data after the loop. Without memory the null pointer stored in the field of `n` is
dereferenced. -/
def addLeaf (t : Bintree α) (n : ℕ) (left : Bool) (data : α) (ok : Bool) :
    Exec (Ptr × Bintree α) :=
  if !ok then .error .nullDeref else do
    let (a, mem) := t.mem.alloc ⟨data, none, none, some n⟩
    let mem ← mem.modify n fun v => if left then { v with left := some a } else { v with right := some a }
    let c ← t.readCount
    .ok (some a, { t with mem, count := some (c + 1) })

variable (cmpfn : α → α → ℤ)

/-- The loop of `bintree_insert`: the node that gets the data. -/
def insertLoop (t : Bintree α) (data : α) (ok : Bool) : ℕ → Ptr → Exec (Ptr × Bintree α) :=
  loop fun
    | none => .ok (.inr (none, t))
    | some n => do
      let v ← t.mem.load n
      let res := cmpfn data v.data
      if res < 0 then
        match v.left with
        | some l => .ok (.inl (some l))
        | none => do
          let r ← t.addLeaf n true data ok
          .ok (.inr r)
      else if res > 0 then
        match v.right with
        | some r => .ok (.inl (some r))
        | none => do
          let r ← t.addLeaf n false data ok
          .ok (.inr r)
      else .ok (.inr (some n, t))

end Bintree

variable (cmpfn : α → α → ℤ)

/-- `bintree_insert`; `data` is `none` for a null pointer. -/
def bintreeInsert (t : Bintree α) (data : Option α) (ok : Bool) : Exec (Bool × Bintree α) :=
  match data, t.root with
  | none, _ => .ok (false, t)
  | some data, none =>
    if !ok then .error .nullDeref else
      let (a, mem) := t.mem.alloc ⟨data, none, none, none⟩
      .ok (true, { t with mem, root := some a, count := some 1 })
  | some data, some n => do
    match ← t.insertLoop cmpfn data ok (t.mem.brk + 1) (some n) with
    | (none, t) => .ok (false, t)
    | (some n, t) => do
      let mem ← t.mem.modify n fun v => { v with data }
      .ok (true, { t with mem })

/-- `bintree_nodefind`. -/
def bintreeNodefind (t : Bintree α) (data : α) : Exec Ptr :=
  loop (fun
    | none => .ok (.inr none)
    | some n => do
      let v ← t.mem.load n
      if cmpfn data v.data < 0 then .ok (.inl v.left)
      else if cmpfn data v.data > 0 then .ok (.inl v.right)
      else .ok (.inr (some n))) (t.mem.brk + 1) t.root

def bintreeFind (t : Bintree α) (data : α) : Exec (Option α) := do
  match ← bintreeNodefind cmpfn t data with
  | none => .ok none
  | some n => do
    let v ← t.mem.load n
    .ok (some v.data)

namespace Bintree

/-- The local `left`: whether the node `n`, with the contents `v`, is its parent's left child. -/
def isLeft (m : Memory (BtNode α)) (n : ℕ) (v : BtNode α) : Exec Bool :=
  match v.parent with
  | none => .ok false
  | some p => do
    let w ← m.load p
    .ok (w.left = some n)

/-- The assignment, in `bintree_remove`, of `child` to the pointer that leads to a node with the
contents `v`. -/
def relink (t : Bintree α) (v : BtNode α) (left : Bool) (child : Ptr) : Exec (Bintree α) :=
  match v.parent with
  | none => .ok { t with root := child }
  | some p => do
    let mem ← t.mem.modify p fun w =>
      if left then { w with left := child } else { w with right := child }
    .ok { t with mem }

/-- The loop of `bintree_remove` that looks for `maxnode`. -/
def maxLoop (m : Memory (BtNode α)) : ℕ → ℕ → Exec ℕ :=
  loop fun n => do
    let v ← m.load n
    match v.right with
    | some r => .ok (.inl r)
    | none => .ok (.inr n)

/-- The unlinking of `maxnode`, with the contents `v`, from its parent in `bintree_remove`. -/
def unlinkMax (m : Memory (BtNode α)) (maxnode : ℕ) (v : BtNode α) : Exec (Memory (BtNode α)) := do
  let p ← deref v.parent
  let w ← m.load p
  if w.left = some maxnode then m.store p { w with left := none }
  else if w.right = some maxnode then m.store p { w with right := none }
  else .error (.exit 2)

/-- The cases of `bintree_remove` for the node `n`: the node to free, and the tree without it. -/
def detach (t : Bintree α) (n : ℕ) : Exec (ℕ × Bintree α) := do
  let v ← t.mem.load n
  let left ← isLeft t.mem n v
  match v.left, v.right with
  | none, none => do
    let mem ← t.mem.store n { v with left := none, right := none }
    let t ← relink { t with mem } v left none
    .ok (n, t)
  | none, some child | some child, none => do
    let t ← relink t v left (some child)
    let mem ← t.mem.modify child fun w => { w with parent := v.parent }
    .ok (n, { t with mem })
  | some l, some _ => do
    let maxnode ← maxLoop t.mem (t.mem.brk + 1) l
    let w ← t.mem.load maxnode
    let mem ← t.mem.store maxnode { w with data := v.data }
    let mem ← mem.modify n fun v => { v with data := w.data }
    let mem ← unlinkMax mem maxnode w
    .ok (maxnode, { t with mem })

end Bintree

def bintreeRemove (t : Bintree α) (data : α) : Exec (Bool × Bintree α) := do
  match ← bintreeNodefind cmpfn t data with
  | none => .ok (false, t)
  | some n => do
    let (n, t) ← t.detach n
    let mem ← t.mem.free n
    let c ← t.readCount
    .ok (true, { t with mem, count := some (c - 1) })

/-! ## Iteration -/

namespace Bintree

/-- The end of a step of the iteration at the node `a`. -/
def stop (t : Bintree α) (a : ℕ) : Exec (Option α × Bintree α) := do
  let v ← t.mem.load a
  .ok (some v.data, { t with iter := some a })

/-- The end of the iteration. -/
def done (t : Bintree α) : Exec (Option α × Bintree α) := .ok (none, { t with iter := none })

/-- The loops that go to the left while they can. -/
def leftLoop (m : Memory (BtNode α)) : ℕ → ℕ → Exec ℕ :=
  loop fun a => do
    let v ← m.load a
    match v.left with
    | some l => .ok (.inl l)
    | none => .ok (.inr a)

/-- The loops that go to a leaf, to the left where they can. -/
def leafLoop (m : Memory (BtNode α)) : ℕ → ℕ → Exec ℕ :=
  loop fun a => do
    let v ← m.load a
    match v.left, v.right with
    | some l, _ => .ok (.inl l)
    | none, some r => .ok (.inl r)
    | none, none => .ok (.inr a)

/-- `first_preorder`. -/
def firstPreorder (t : Bintree α) : Exec (Option α × Bintree α) := do
  let a ← deref t.root
  t.stop a

/-- `first_inorder`. -/
def firstInorder (t : Bintree α) : Exec (Option α × Bintree α) := do
  let a ← deref t.root
  let a ← leftLoop t.mem (t.mem.brk + 1) a
  t.stop a

/-- `first_postorder`. -/
def firstPostorder (t : Bintree α) : Exec (Option α × Bintree α) := do
  let a ← deref t.root
  let a ← leafLoop t.mem (t.mem.brk + 1) a
  t.stop a

/-- The inner loop of `next_preorder`: up while we're a right child. -/
def climbLoop (m : Memory (BtNode α)) : ℕ → ℕ → Exec ℕ :=
  loop fun a => do
    let v ← m.load a
    match v.parent with
    | none => .ok (.inr a)
    | some p => do
      let w ← m.load p
      if w.right = some a then .ok (.inl p) else .ok (.inr a)

/-- The outer loop of `next_preorder`: the next node after a leaf. Its second test for the root
comes after the first and cannot succeed. -/
def upLoop (m : Memory (BtNode α)) : ℕ → ℕ → Exec Ptr :=
  loop fun a => do
    let a ← climbLoop m (m.brk + 1) a
    let v ← m.load a
    match v.parent with
    | none => .ok (.inr none)
    | some p => do
      let w ← m.load p
      match w.right with
      | none => .ok (.inl p)
      | some r => .ok (.inr (some r))

/-- `next_preorder`. -/
def nextPreorder (t : Bintree α) : Exec (Option α × Bintree α) := do
  let a ← deref t.iter
  let v ← t.mem.load a
  match v.left, v.right with
  | some l, _ => t.stop l
  | none, some r => t.stop r
  | none, none => do
    match ← upLoop t.mem (t.mem.brk + 1) a with
    | none => t.done
    | some b => t.stop b

/-- The loop of `next_inorder` that goes up until it arrives from the left; it returns the node and
the local `left`. -/
def fromLeftLoop (m : Memory (BtNode α)) : ℕ → ℕ → Exec (ℕ × Bool) :=
  loop fun prev => do
    let v ← m.load prev
    let a ← deref v.parent
    let w ← m.load a
    if w.left ≠ some prev ∧ w.parent ≠ none then .ok (.inl a) else .ok (.inr (a, w.left = some prev))

/-- `next_inorder`. -/
def nextInorder (t : Bintree α) : Exec (Option α × Bintree α) := do
  let a ← deref t.iter
  let v ← t.mem.load a
  let _ ← isLeft t.mem a v
  match v.right, v.parent with
  | some r, _ => do
    let b ← leftLoop t.mem (t.mem.brk + 1) r
    t.stop b
  | none, none => t.done
  | none, some _ => do
    let (b, left) ← fromLeftLoop t.mem (t.mem.brk + 1) a
    let w ← t.mem.load b
    if w.parent = none ∧ !left then t.done else t.stop b

/-- `next_postorder`. -/
def nextPostorder (t : Bintree α) : Exec (Option α × Bintree α) := do
  let a ← deref t.iter
  let v ← t.mem.load a
  let left ← isLeft t.mem a v
  match v.parent with
  | none => t.done
  | some p => do
    let w ← t.mem.load p
    match left, w.right with
    | true, some r => do
      let b ← leafLoop t.mem (t.mem.brk + 1) r
      t.stop b
    | _, _ => t.stop p

end Bintree

def bintreeFirst (t : Bintree α) (travtype : ℤ) : Exec (Option α × Bintree α) :=
  let t := { t with travtype := some travtype, iter := none }
  if travtype = travPreorder then t.firstPreorder
  else if travtype = travInorder then t.firstInorder
  else if travtype = travPostorder then t.firstPostorder
  else .ok (none, t)

def bintreeNext (t : Bintree α) : Exec (Option α × Bintree α) :=
  match t.travtype with
  | none => .error .indeterminate
  | some travtype =>
    if travtype = travPreorder then t.nextPreorder
    else if travtype = travInorder then t.nextInorder
    else if travtype = travPostorder then t.nextPostorder
    else .ok (none, t)

/-! ## Recursive traversal -/

section Recursive

variable (m : Memory (BtNode α))

/-- `rtrav_preorder`, to the given depth: the array and the index after. -/
def rtravPreorder : ℕ → Ptr → Buffer α × ℕ → Exec (Buffer α × ℕ)
  | _, none, s => .ok s
  | 0, some _, _ => .error .spin
  | k + 1, some n, (dest, i) => do
    let v ← m.load n
    let dest ← dest.write i v.data
    let s ← rtravPreorder k v.left (dest, i + 1)
    rtravPreorder k v.right s

/-- `rtrav_inorder`. -/
def rtravInorder : ℕ → Ptr → Buffer α × ℕ → Exec (Buffer α × ℕ)
  | _, none, s => .ok s
  | 0, some _, _ => .error .spin
  | k + 1, some n, s => do
    let v ← m.load n
    let (dest, i) ← rtravInorder k v.left s
    let dest ← dest.write i v.data
    rtravInorder k v.right (dest, i + 1)

/-- `rtrav_postorder`. -/
def rtravPostorder : ℕ → Ptr → Buffer α × ℕ → Exec (Buffer α × ℕ)
  | _, none, s => .ok s
  | 0, some _, _ => .error .spin
  | k + 1, some n, s => do
    let v ← m.load n
    let s ← rtravPostorder k v.left s
    let (dest, i) ← rtravPostorder k v.right s
    let dest ← dest.write i v.data
    .ok (dest, i + 1)

end Recursive

/-- `bintree_collect`: whether it succeeds, and the array after. -/
def bintreeCollect (t : Bintree α) (dest : Buffer α) (travmode : ℤ) : Exec (Bool × Buffer α) :=
  match t.root with
  | none => .ok (true, dest)
  | some n =>
    if travmode = travPreorder then do
      let r ← rtravPreorder t.mem t.mem.brk (some n) (dest, 0)
      .ok (true, r.1)
    else if travmode = travInorder then do
      let r ← rtravInorder t.mem t.mem.brk (some n) (dest, 0)
      .ok (true, r.1)
    else if travmode = travPostorder then do
      let r ← rtravPostorder t.mem t.mem.brk (some n) (dest, 0)
      .ok (true, r.1)
    else .ok (false, dest)

/-! ## Balancing -/

/-- `bintree_rbalance`, to the given depth, when `malloc` finds room. -/
def bintreeRbalance (cmpfn : α → α → ℤ) :
    ℕ → Bintree α → Buffer α → ℕ → ℕ → Exec (Bintree α)
  | 0, _, _, _, _ => .error .spin
  | k + 1, t, src, start, stop => do
    let mid := (start + stop) / 2
    let data ← src.read mid
    let (_, t) ← bintreeInsert cmpfn t (some data) true
    let t ← (if start < mid then bintreeRbalance cmpfn k t src start (mid - 1) else .ok t)
    if stop > mid then bintreeRbalance cmpfn k t src (mid + 1) stop else .ok t

/-- `bintree_balance`, when `malloc` finds room. -/
def bintreeBalance (cmpfn : α → α → ℤ) (t : Bintree α) : Exec (Bintree α) := do
  let n ← t.readCount
  let (ok, arr) ← bintreeCollect t (.malloc n) travInorder
  if !ok then .ok t
  else do
    let t ← bintreeClear t
    bintreeRbalance cmpfn (n + 1) t arr 0 (sizeSub n 1)

end LibSrsBsns
