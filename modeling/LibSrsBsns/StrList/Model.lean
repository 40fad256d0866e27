import LibSrsBsns.PtrList.Model

/-!
# The string list

The model of `strlist.c`: a pointer list whose data are strings, in memory of their own. A string is
the list of its bytes before the null character, and a pointer to one the address of its copy in
that memory.
-/

namespace LibSrsBsns

open C

/-- `slist_t`, with the memory that the copies of strings live in. -/
structure StrList where
  strs : Memory (List UInt8)
  list : PtrList ℕ

/-- `str_dup`; `ok` says whether `malloc` finds room for the copy. -/
def strDup (strs : Memory (List UInt8)) (s : List UInt8) (ok : Bool) : Ptr × Memory (List UInt8) :=
  if ok then (some (strs.alloc s).1, (strs.alloc s).2) else (none, strs)

/-- A `size_t` that is passed on as an `ssize_t`. -/
def ssizeOfSize (i : ℕ) : ℤ := (i : ℤ).bmod (2 ^ 64)

def slistInit : StrList := ⟨.empty, ptrlistInit⟩

def slistFirst (l : StrList) : Exec (Ptr × StrList) := do
  let (d, list) ← ptrlistFirst l.list
  .ok (d, { l with list })

def slistNext (l : StrList) : Exec (Ptr × StrList) := do
  let (d, list) ← ptrlistNext l.list
  .ok (d, { l with list })

/-- The loop of `slist_clear`, where `d` is the string to be freed next. -/
def StrList.clearLoop : ℕ → Ptr × StrList → Exec StrList :=
  loop fun (d, l) => do
    let strs ← l.strs.freePtr d
    let (d, l) ← slistNext { l with strs }
    match d with
    | some d => .ok (.inl (some d, l))
    | none => .ok (.inr l)

def slistClear (l : StrList) : Exec StrList := do
  let (d, l) ← slistFirst l
  let l ← StrList.clearLoop l.list.turns (d, l)
  let list ← ptrlistClear l.list
  .ok { l with list }

/-- `slist_insert`; `dup` and `node` say whether there is room for the copy and for the node. -/
def slistInsert (l : StrList) (i : ℕ) (data : Option (List UInt8)) (dup node : Bool) :
    Exec (Bool × StrList) :=
  match data with
  | none => .ok (false, l)
  | some data => do
    let (d, strs) := strDup l.strs data dup
    let (b, list) ← ptrlistInsert l.list (ssizeOfSize i) d node
    .ok (b, ⟨strs, list⟩)

/-- `slist_replace`; `dup` says whether there is room for the copy. -/
def slistReplace (l : StrList) (i : ℕ) (data : Option (List UInt8)) (dup : Bool) :
    Exec (Bool × StrList) :=
  match data with
  | none => .ok (false, l)
  | some data => do
    let d ← ptrlistGet l.list i
    let strs ← l.strs.freePtr d
    let (d, strs) := strDup strs data dup
    let (b, list) ← ptrlistReplace l.list i d
    .ok (b, ⟨strs, list⟩)

def slistRemove (l : StrList) (i : ℕ) : Exec (Bool × StrList) := do
  let d ← ptrlistGet l.list i
  let strs ← l.strs.freePtr d
  let (b, list) ← ptrlistRemove l.list i
  .ok (b, ⟨strs, list⟩)

/-- `slist_dispose` frees the list: what is left is the memory of the strings. -/
def slistDispose (l : StrList) : Exec (Memory (List UInt8)) := do
  ptrlistDispose l.list
  .ok l.strs

def slistCount (l : StrList) : Exec ℕ := ptrlistCount l.list

def slistGet (l : StrList) (i : ℕ) : Exec Ptr := ptrlistGet l.list i

/-- `streq`: `strcmp` finds no difference. -/
def StrList.streq (s1 s2 : List UInt8) : Bool := s1 == s2

/-- The loop of `slist_findeq`, from the index `i` on. -/
def StrList.findeqLoop (l : StrList) (needle : List UInt8) (cnt : ℕ) : ℕ → ℕ → Exec ℤ :=
  loop fun i =>
    if i < cnt then do
      let c ← deref (← slistGet l i)
      let c ← l.strs.load c
      if streq c needle then .ok (.inr i) else .ok (.inl (i + 1))
    else .ok (.inr (-1))

def slistFindeq (l : StrList) (needle : List UInt8) : Exec ℤ := do
  let cnt ← slistCount l
  StrList.findeqLoop l needle cnt (cnt + 1) 0

end LibSrsBsns
