import LibSrsBsns.Foundations.C.Memory

/-!
# The pointer list

The model of `ptrlist.c`: a singly linked list of nodes in allocated memory, with the cursor of the
built-in iteration. `void *` data is `Option α`, with `none` for the null pointer; a node holds an
`α`, since no function stores a null pointer in the list. An index of type `ssize_t` is an `ℤ`, one
of type `size_t` an `ℕ`.
-/

namespace LibSrsBsns

open C

variable {α β : Type}

/-- `struct pl_node`. -/
structure PlNode (α : Type) where
  data : α
  next : Ptr

/-- `struct ptrlist`, with the memory its nodes live in. -/
structure PtrList (α : Type) where
  mem : Memory (PlNode α)
  head : Ptr
  iter : Ptr

/-- The test `!l` that the functions on a list start with: on a null pointer in place of a list
they return false. -/
def PtrList.orNull (l : Option (PtrList α)) (f : PtrList α → Exec (Bool × PtrList α)) :
    Exec (Bool × Option (PtrList α)) :=
  match l with
  | none => .ok (false, none)
  | some l => do
    let (b, l) ← f l
    .ok (b, some l)

def ptrlistInit : PtrList α := ⟨.empty, none, none⟩

/-- The turns granted to a loop along the list: one for every node there can be, and the exit. -/
def PtrList.turns (l : PtrList α) : ℕ := l.mem.brk + 1

/-- The loop of `ptrlist_count`, at the node `n` with the count `c` so far. -/
def PtrList.countLoop (mem : Memory (PlNode α)) : ℕ → ℕ × ℕ → Exec ℕ :=
  loop fun (n, c) => do
    match (← mem.load n).next with
    | some n => .ok (.inl (n, c + 1))
    | none => .ok (.inr c)

def ptrlistCount (l : PtrList α) : Exec ℕ :=
  match l.head with
  | none => .ok 0
  | some n => PtrList.countLoop l.mem l.turns (n, 1)

/-- The loop of `ptrlist_clear`, which frees every node from `n` on. -/
def PtrList.clearLoop : ℕ → Memory (PlNode α) × Ptr → Exec (Memory (PlNode α)) :=
  loop fun (mem, n) =>
    match n with
    | none => .ok (.inr mem)
    | some n => do
      let tmp := (← mem.load n).next
      let mem ← mem.free n
      .ok (.inl (mem, tmp))

def ptrlistClear (l : PtrList α) : Exec (PtrList α) := do
  let mem ← PtrList.clearLoop l.turns (l.mem, l.head)
  .ok { l with mem, head := none }

def ptrlistDispose (l : PtrList α) : Exec Unit := do
  let _ ← ptrlistClear l
  .ok ()

/-- The loop `while (n->next && i)` that `ptrlist_insert`, `ptrlist_replace`, `ptrlist_remove` and
`ptrlist_get` start with: the index left, the node before the last one looked at, and that node. -/
def PtrList.seek (mem : Memory (PlNode α)) : ℕ → ℤ × Ptr × ℕ → Exec (ℤ × Ptr × ℕ) :=
  loop fun (i, prev, n) => do
    match (← mem.load n).next with
    | some n' => if i ≠ 0 then .ok (.inl (i - 1, some n, n')) else .ok (.inr (i, prev, n))
    | none => .ok (.inr (i, prev, n))

/-- `ptrlist_insert`; `ok` says whether `malloc` finds room for the new node. -/
def ptrlistInsert (l : PtrList α) (i : ℤ) (data : Option α) (ok : Bool) :
    Exec (Bool × PtrList α) :=
  match data with
  | none => .ok (false, l)
  | some data =>
    if !ok then .ok (false, l) else
      let (newnode, mem) := l.mem.alloc ⟨data, none⟩
      match l.head with
      -- special case: list is empty
      | none => .ok (true, { l with mem, head := some newnode })
      | some n => do
        let (i, prev, n) ← PtrList.seek mem l.turns (i, none, n)
        if i ≠ 0 then
          let mem ← mem.modify n ({ · with next := some newnode })
          .ok (true, { l with mem })
        else
          let mem ← mem.modify newnode ({ · with next := some n })
          match prev with
          | some prev =>
            let mem ← mem.modify prev ({ · with next := some newnode })
            .ok (true, { l with mem })
          | none => .ok (true, { l with mem, head := some newnode })

def ptrlistReplace (l : PtrList α) (i : ℕ) (data : Option α) : Exec (Bool × PtrList α) :=
  match l.head, data with
  | some n, some data => do
    let (i, _, n) ← PtrList.seek l.mem l.turns (i, none, n)
    if i > 0 then .ok (false, l) else
      let mem ← l.mem.modify n ({ · with data })
      .ok (true, { l with mem })
  | _, _ => .ok (false, l)

def ptrlistRemove (l : PtrList α) (i : ℕ) : Exec (Bool × PtrList α) :=
  match l.head with
  | none => .ok (false, l)
  | some n => do
    let (i, prev, n) ← PtrList.seek l.mem l.turns (i, none, n)
    if i > 0 then .ok (false, l) else
      let next := (← l.mem.load n).next
      match prev with
      | none =>
        let mem ← l.mem.free n
        .ok (true, { l with mem, head := next })
      | some prev =>
        let mem ← l.mem.modify prev ({ · with next })
        let mem ← mem.free n
        .ok (true, { l with mem })

def ptrlistGet (l : PtrList α) (i : ℕ) : Exec (Option α) :=
  match l.head with
  | none => .ok none
  | some n => do
    let (i, _, n) ← PtrList.seek l.mem l.turns (i, none, n)
    if i > 0 then .ok none else
      .ok (some (← l.mem.load n).data)

/-- The search loop of the `ptrlist_find` functions, on nodes from `n` on, with the count `c` so
far. -/
def PtrList.findLoop (mem : Memory (PlNode α)) (fndfn : α → Bool) : ℕ → Ptr × ℤ → Exec ℤ :=
  loop fun (n, c) =>
    match n with
    | none => .ok (.inr (-1))
    | some n => do
      let node ← mem.load n
      if fndfn node.data then .ok (.inr c) else .ok (.inl (node.next, c + 1))

def ptrlistFindraw [DecidableEq α] (l : PtrList α) (data : Option α) : Exec ℤ :=
  PtrList.findLoop l.mem (some · = data) l.turns (l.head, 0)

def ptrlistFindfn (l : PtrList α) (fndfn : α → Bool) : Exec ℤ :=
  PtrList.findLoop l.mem fndfn l.turns (l.head, 0)

def ptrlistFindeqfn (l : PtrList α) (eqfn : α → β → Bool) (needle : β) : Exec ℤ :=
  PtrList.findLoop l.mem (eqfn · needle) l.turns (l.head, 0)

def ptrlistFirst (l : PtrList α) : Exec (Option α × PtrList α) :=
  match l.head with
  | none => .ok (none, l)
  | some n => do
    let l := { l with iter := some n }
    .ok (some (← l.mem.load n).data, l)

def ptrlistNext (l : PtrList α) : Exec (Option α × PtrList α) :=
  match l.iter with
  | none => .ok (none, l)
  | some n => do
    match (← l.mem.load n).next with
    | none => .ok (none, l)
    | some n =>
      let l := { l with iter := some n }
      .ok (some (← l.mem.load n).data, l)

end LibSrsBsns
