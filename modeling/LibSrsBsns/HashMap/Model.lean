import LibSrsBsns.PtrList.Model
import LibSrsBsns.Foundations.C.Buffer

/-!
# The hash map

The model of `hashmap.c`: two arrays of buckets, each bucket of keys a pointer list and each bucket
of values another one, where the value of a key has the index that the key has. A bucket is null
until it is first used. The three functions given to `hmap_init` are the fields of `HmapFns`; the
key and the value are not null, except where `hmap_put` tests for it.
-/

namespace LibSrsBsns

open C

variable {K V α : Type}

/-- The functions of the user that the map calls. `keydupfn` may fail to make its copy. -/
structure HmapFns (K : Type) where
  hfn : K → ℕ
  efn : K → K → Bool
  keydupfn : K → Option K

/-- `struct hmap`. The two indices of the iteration are set by `hmap_first` and not read while
`iterating` is false. -/
structure Hmap (K V : Type) where
  keybucket : Buffer (Option (PtrList K))
  valbucket : Buffer (Option (PtrList V))
  bucketsz : ℕ
  count : ℕ
  iterating : Bool
  buckiter : ℕ
  listiter : ℕ

namespace Hmap

/-- An array of `n` null buckets. -/
def initBuckets (n : ℕ) : Exec (Buffer (Option (PtrList α))) :=
  forRange (fun i b => b.write i none) 0 n (.malloc n)

/-- Dispose of the bucket at index `i`, if it is there, and reset it to null. -/
def clearBucket (i : ℕ) (b : Buffer (Option (PtrList α))) : Exec (Buffer (Option (PtrList α))) := do
  match ← b.read i with
  | none => .ok b
  | some l =>
    ptrlistDispose l
    b.write i none

/-- The lists of a bucket for `hmap_put`: both are created if there is no list of keys. -/
def orInit : Option (PtrList K) → Option (PtrList V) → PtrList K × Option (PtrList V)
  | none, _ => (ptrlistInit, some ptrlistInit)
  | some kl, vl => (kl, vl)

end Hmap

/-- `hmap_init`, when `malloc` finds room. -/
def hmapInit (bucketsz : ℕ) : Exec (Hmap K V) := do
  let keybucket ← Hmap.initBuckets bucketsz
  let valbucket ← Hmap.initBuckets bucketsz
  .ok { keybucket, valbucket, bucketsz, count := 0, iterating := false, buckiter := 0, listiter := 0 }

def hmapClear (h : Hmap K V) : Exec (Hmap K V) := do
  let (keybucket, valbucket) ← forRange (fun i (kb, vb) => do
    let kb ← Hmap.clearBucket i kb
    let vb ← Hmap.clearBucket i vb
    .ok (kb, vb)) 0 h.bucketsz (h.keybucket, h.valbucket)
  .ok { h with keybucket, valbucket, count := 0 }

variable (F : HmapFns K)

/-- `hmap_put`; `kok` and `vok` say whether `malloc` finds room for the list node of the key and
for that of the value. -/
def hmapPut (h : Hmap K V) (key : Option K) (elem : Option V) (kok vok : Bool) :
    Exec (Hmap K V) :=
  match key, elem with
  | some key, some elem => do
    let ind ← sizeMod (F.hfn key) h.bucketsz
    let kl ← h.keybucket.read ind
    let vl ← h.valbucket.read ind
    let (kl, vl) := Hmap.orInit kl vl
    let i ← ptrlistFindeqfn kl F.efn key
    if i = -1 then
      let (_, kl) ← ptrlistInsert kl 0 (F.keydupfn key) kok
      let (_, vl) ← PtrList.orNull vl (ptrlistInsert · 0 (some elem) vok)
      let keybucket ← h.keybucket.write ind (some kl)
      let valbucket ← h.valbucket.write ind vl
      .ok { h with keybucket, valbucket, count := h.count + 1 }
    else
      let (_, vl) ← PtrList.orNull vl (ptrlistReplace · i.toNat (some elem))
      let keybucket ← h.keybucket.write ind (some kl)
      let valbucket ← h.valbucket.write ind vl
      .ok { h with keybucket, valbucket }
  | _, _ => .ok h

def hmapGet (h : Hmap K V) (key : K) : Exec (Option V) := do
  let ind ← sizeMod (F.hfn key) h.bucketsz
  match ← h.keybucket.read ind with
  | none => .ok none
  | some kl =>
    let vl ← h.valbucket.read ind
    let i ← ptrlistFindeqfn kl F.efn key
    if i = -1 then .ok none else
      match vl with
      | none => .ok none
      | some vl => ptrlistGet vl i.toNat

def hmapDel (h : Hmap K V) (key : K) : Exec (Bool × Hmap K V) := do
  let ind ← sizeMod (F.hfn key) h.bucketsz
  match ← h.keybucket.read ind with
  | none => .ok (false, h)
  | some kl =>
    let vl ← h.valbucket.read ind
    let i ← ptrlistFindeqfn kl F.efn key
    if i = -1 then .ok (false, h) else
      -- the copy of the key, which is freed
      let _ ← ptrlistGet kl i.toNat
      let (_, kl) ← ptrlistRemove kl i.toNat
      let (_, vl) ← PtrList.orNull vl (ptrlistRemove · i.toNat)
      let keybucket ← h.keybucket.write ind (some kl)
      let valbucket ← h.valbucket.write ind vl
      .ok (true, { h with keybucket, valbucket, count := h.count - 1 })

def hmapCount (h : Hmap K V) : ℕ := h.count

/-- `ptrlist_get` on a bucket, which may be null. -/
def Hmap.bucketGet (l : Option (PtrList α)) (i : ℕ) : Exec (Option α) :=
  match l with
  | none => .ok none
  | some l => ptrlistGet l i

/-- The loop of `hmap_first` and `hmap_next` that goes from the bucket `i` to the next one that is
not empty, or to the end. -/
def Hmap.skip (h : Hmap K V) : ℕ → ℕ → Exec ℕ :=
  loop fun i =>
    if i < h.bucketsz then do
      match ← h.keybucket.read i with
      | none => .ok (.inl (i + 1))
      | some l => if (← ptrlistCount l) = 0 then .ok (.inl (i + 1)) else .ok (.inr i)
    else .ok (.inr i)

/-- What `hmap_first` and `hmap_next` return, and what they store in `*key` and `*val`. -/
abbrev HmapIter (K V : Type) := Bool × Option (Option K × Option V)

def hmapFirst (h : Hmap K V) : Exec (HmapIter K V × Hmap K V) := do
  let buckiter ← h.skip (h.bucketsz + 1) 0
  let h := { h with buckiter }
  if h.buckiter = h.bucketsz then .ok ((false, some (none, none)), { h with iterating := false })
  else do
    let k ← Hmap.bucketGet (← h.keybucket.read h.buckiter) 0
    let v ← Hmap.bucketGet (← h.valbucket.read h.buckiter) 0
    .ok ((true, some (k, v)), { h with listiter := 1, iterating := true })

/-- The end of `hmap_next`, where the key has been found. -/
def Hmap.nextPair (h : Hmap K V) (k : Option K) : Exec (HmapIter K V × Hmap K V) := do
  let v ← Hmap.bucketGet (← h.valbucket.read h.buckiter) h.listiter
  .ok ((true, some (k, v)), { h with listiter := h.listiter + 1 })

def hmapNext (h : Hmap K V) : Exec (HmapIter K V × Hmap K V) :=
  if !h.iterating then .ok ((false, none), h)
  else do
    let k ← Hmap.bucketGet (← h.keybucket.read h.buckiter) h.listiter
    match k with
    | some k => h.nextPair (some k)
    | none => do
      let buckiter ← h.skip (h.bucketsz + 1) (h.buckiter + 1)
      let h := { h with buckiter, listiter := 0 }
      if h.buckiter = h.bucketsz then .ok ((false, some (none, none)), { h with iterating := false })
      else do
        let k ← Hmap.bucketGet (← h.keybucket.read h.buckiter) h.listiter
        h.nextPair k

end LibSrsBsns
