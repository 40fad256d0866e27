import LibSrsBsns.HashMap.Refinement

/-!
# The string map

The model of `strmap.c`: a hash map whose keys are strings, each given by its text. The hash function
depends on the number of buckets. A string map is a finite map on texts (`Smap.Binds`), since the
comparison of keys is equality and copies are equal to what they are made of.
-/

namespace LibSrsBsns

open C

variable {V : Type}

/-- `streq`: `strcmp` finds no difference. -/
def streq (s1 s2 : List Char) : Bool := s1 == s2

/-- `strkeydup`, when `malloc` finds room. -/
def strkeydup (s : List Char) : Option (List Char) := some s

/-- A character as a `uint8_t`. -/
def toUint8 (c : Char) : BitVec 8 := BitVec.ofNat 8 c.toNat

/-- `strhash_small`: every other byte is shifted, from the first one on. -/
def strhashSmall (s : List Char) : ℕ :=
  let turn := fun (r : BitVec 8 × Bool) (c : Char) =>
    let shift := !r.2
    let cur := if shift then toUint8 c <<< 3 else toUint8 c
    (r.1 ^^^ cur, shift)
  let (res, _) := s.foldl turn (0xaa, false)
  res.toNat

/-- The loop of `strhash_mid` and `strhash_large`, which put every `n` bytes together. -/
def strhashWords (n : ℕ) (res : BitVec (8 * n)) (s : List Char) : ℕ :=
  let turn := fun (r : BitVec (8 * n) × BitVec (8 * n) × ℕ) (c : Char) =>
    let cur := r.2.1 ||| (toUint8 c).setWidth (8 * n) <<< (r.2.2 * 8)
    if r.2.2 + 1 = n then (r.1 ^^^ cur, 0, 0) else (r.1, cur, r.2.2 + 1)
  let (res, cur, step) := s.foldl turn (res, 0, 0)
  (if step ≠ 0 then res ^^^ cur else res).toNat

def strhashMid : List Char → ℕ := strhashWords 2 0xaaaa

def strhashLarge : List Char → ℕ := strhashWords 4 0xaaaaaaaa

/-- A `smap_t`: the hash map and the functions that it was given. -/
structure Smap (V : Type) where
  fns : HmapFns (List Char)
  map : Hmap (List Char) V

/-- `smap_init`, when `malloc` finds room. -/
def smapInit (bucketsz : ℕ) : Exec (Smap V) := do
  let fn := if bucketsz ≤ 256 then strhashSmall else
    if bucketsz ≤ 65536 then strhashMid else strhashLarge
  let map ← hmapInit bucketsz
  .ok ⟨⟨fn, streq, strkeydup⟩, map⟩

/-- `smap_put`; `kok` and `vok` say whether `malloc` finds room for the list nodes. -/
def smapPut (h : Smap V) (key : Option (List Char)) (elem : Option V) (kok vok : Bool) :
    Exec (Smap V) := do
  let map ← hmapPut h.fns h.map key elem kok vok
  .ok { h with map }

def smapGet (h : Smap V) (key : List Char) : Exec (Option V) := hmapGet h.fns h.map key

def smapClear (h : Smap V) : Exec (Smap V) := do
  let map ← hmapClear h.map
  .ok { h with map }

def smapDel (h : Smap V) (key : List Char) : Exec (Bool × Smap V) := do
  let (b, map) ← hmapDel h.fns h.map key
  .ok (b, { h with map })

def smapCount (h : Smap V) : ℕ := hmapCount h.map

/-- What `smap_first` and `smap_next` return, and what they store in `*key` and in `*val`. -/
structure SmapIter (V : Type) where
  b : Bool
  key : Option (Option (List Char))
  val : Option (Option V)

/-- The end of `smap_first` and `smap_next`: the key is stored only if there is one. -/
def SmapIter.ofHmap (r : HmapIter (List Char) V) : SmapIter V :=
  ⟨r.1, if r.1 then r.2.map Prod.fst else none, r.2.map Prod.snd⟩

def smapFirst (h : Smap V) : Exec (SmapIter V × Smap V) := do
  let (r, map) ← hmapFirst h.map
  .ok (.ofHmap r, { h with map })

def smapNext (h : Smap V) : Exec (SmapIter V × Smap V) := do
  let (r, map) ← hmapNext h.map
  .ok (.ofHmap r, { h with map })

/-! ## Finite maps on texts -/

namespace Smap

variable {h : Smap V} {m : List Char → Option V}

/-- The string map binds the texts as `m` does. -/
def Binds (h : Smap V) (m : List Char → Option V) : Prop :=
  ∃ hF : h.fns.Lawful, h.fns.efn = streq ∧
    ∃ cm : ClassMap hF.equiv.setoid V, h.map.Represents hF cm ∧ ∀ k, cm (Quotient.mk _ k) = m k

theorem lawful (hfn : List Char → ℕ) : (⟨hfn, streq, strkeydup⟩ : HmapFns (List Char)).Lawful where
  equiv := ⟨by simp [streq], by simp [streq], by simp [streq]⟩
  hash := by
    intro k l hkl
    rw [eq_of_beq hkl]
  dup k := ⟨k, rfl, by simp [streq]⟩

theorem init_spec {n : ℕ} (hn : 1 ≤ n) :
    Returns (smapInit n : Exec (Smap V)) (Binds · fun _ => none) := by
  apply (Hmap.init_spec (lawful _) hn).bind
  intro map hmap
  exact .ok ⟨lawful _, rfl, _, hmap, fun _ => rfl⟩

theorem Binds.get (hm : h.Binds m) (key : List Char) : smapGet h key = .ok (m key) := by
  obtain ⟨hF, -, cm, hrep, hcm⟩ := hm
  rw [smapGet, Hmap.get_spec hrep, hcm]

theorem Binds.put (hm : h.Binds m) (key : List Char) (elem : V) :
    Returns (smapPut h (some key) (some elem) true true)
      (Binds · (Function.update m key (some elem))) := by
  obtain ⟨hF, hefn, cm, hrep, hcm⟩ := hm
  apply (Hmap.put_spec hrep key elem).bind
  intro map hmap
  refine .ok ⟨hF, hefn, _, hmap, fun k => ?_⟩
  rw [ClassMap.put_mk, hcm, hefn]
  by_cases hk : k = key
  · rw [hk, Function.update_self, if_pos (by simp [streq])]
  · rw [Function.update_of_ne hk, if_neg (by simpa [streq] using Ne.symm hk)]

end Smap

end LibSrsBsns
