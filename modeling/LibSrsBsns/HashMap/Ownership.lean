import LibSrsBsns.HashMap.FailedPut
import LibSrsBsns.Foundations.C.Live

/-!
# Who owns the copies of keys

`hmap_put` has a new key copied and keeps the copy; `hmap_del` frees it, and `hmap_clear` and
`hmap_dispose` do not. Whatever allocations fail, the keys in the buckets are live copies, each at an
address of its own, so that no function of the user is ever given a key that has been freed and none
is freed twice. But a copy whose list node finds no room, and the copies in a map that is cleared, are
lost: `hmap_owns_keys_iff` says that this is all that leaks.
-/

namespace LibSrsBsns

open C AssocList

variable {K V α : Type}

/-- A copy of a key, with its address. Nothing writes to a copy while it is in a map. -/
abbrev KeyCopy (K : Type) := ℕ × K

/-- The functions of the user on copies; they look at the key alone. -/
def HmapFns.onCopies (F : HmapFns K) : HmapFns (KeyCopy K) where
  hfn k := F.hfn k.2
  efn k l := F.efn k.2 l.2
  keydupfn _ := none

/-- A hash map, with the memory that the copies of its keys live in. -/
structure KeyedMap (K V : Type) where
  copies : Memory K
  map : Hmap (KeyCopy K) V

/-- The call of `keydupfn` in `hmap_put`, which returns the copy `keydup`. -/
def copyKey (copies : Memory K) (keydup : Option K) : Option (KeyCopy K) × Memory K :=
  match keydup with
  | none => (none, copies)
  | some k => (some ((copies.alloc k).1, k), (copies.alloc k).2)

variable (F : HmapFns K)

def keyedInit (bucketsz : ℕ) : Exec (KeyedMap K V) := do
  let map ← hmapInit bucketsz
  .ok ⟨.empty, map⟩

/-- `hmap_put` of a key of which `keydupfn` returns the copy `keydup`; `kok` and `vok` say whether
there is room for the list nodes. -/
def keyedPut (s : KeyedMap K V) (key : K) (elem : V) (keydup : Option K) (kok vok : Bool) :
    Exec (KeyedMap K V) := do
  let ind ← sizeMod (F.hfn key) s.map.bucketsz
  let kl ← s.map.keybucket.read ind
  let vl ← s.map.valbucket.read ind
  let (kl, vl) := Hmap.orInit kl vl
  let i ← ptrlistFindeqfn kl (fun k key => F.efn k.2 key) key
  if i = -1 then
    let (copy, copies) := copyKey s.copies keydup
    let (_, kl) ← ptrlistInsert kl 0 copy kok
    let (_, vl) ← PtrList.orNull vl (ptrlistInsert · 0 (some elem) vok)
    let keybucket ← s.map.keybucket.write ind (some kl)
    let valbucket ← s.map.valbucket.write ind vl
    .ok ⟨copies, { s.map with keybucket, valbucket, count := s.map.count + 1 }⟩
  else
    let (_, vl) ← PtrList.orNull vl (ptrlistReplace · i.toNat (some elem))
    let keybucket ← s.map.keybucket.write ind (some kl)
    let valbucket ← s.map.valbucket.write ind vl
    .ok { s with map := { s.map with keybucket, valbucket } }

/-- `hmap_get`. -/
def keyedGet (s : KeyedMap K V) (key : K) : Exec (Option V) := hmapGet F.onCopies s.map (0, key)

/-- `hmap_del`, which frees the copy of the key. -/
def keyedDel (s : KeyedMap K V) (key : K) : Exec (Bool × KeyedMap K V) := do
  let ind ← sizeMod (F.hfn key) s.map.bucketsz
  match ← s.map.keybucket.read ind with
  | none => .ok (false, s)
  | some kl =>
    let vl ← s.map.valbucket.read ind
    let i ← ptrlistFindeqfn kl (fun k key => F.efn k.2 key) key
    if i = -1 then .ok (false, s) else
      let copy ← ptrlistGet kl i.toNat
      let copies ← s.copies.freePtr (copy.map Prod.fst)
      let (_, kl) ← ptrlistRemove kl i.toNat
      let (_, vl) ← PtrList.orNull vl (ptrlistRemove · i.toNat)
      let keybucket ← s.map.keybucket.write ind (some kl)
      let valbucket ← s.map.valbucket.write ind vl
      .ok (true, ⟨copies, { s.map with keybucket, valbucket, count := s.map.count - 1 }⟩)

def keyedClear (s : KeyedMap K V) : Exec (KeyedMap K V) := do
  let map ← hmapClear s.map
  .ok { s with map }

/-- `hmap_dispose`: the copies that are left. -/
def keyedDispose (s : KeyedMap K V) : Exec (Memory K) := do
  let s ← keyedClear s
  .ok s.copies

/-- A call, with what becomes of its allocations. -/
def keyedTry (s : KeyedMap K V) (t : HmapTry K V) : Exec (MapOut V × KeyedMap K V) :=
  match t.op with
  | .put key elem => do
    let s ← keyedPut F s key elem t.keydup t.kok t.vok
    .ok (.unit, s)
  | .get key => do
    let v ← keyedGet F s key
    .ok (.value v, s)
  | .del key => do
    let (b, s) ← keyedDel F s key
    .ok (.bool b, s)
  | .clear => do
    let s ← keyedClear s
    .ok (.unit, s)
  | .count => .ok (.size (hmapCount s.map), s)

variable {F : HmapFns K}

namespace KeyedMap

/-! ## The map that the copies belong to -/

/-- The call on the map of copies that is made in `s`. The address of a key that is looked for does not
matter. -/
def onCopies (s : KeyedMap K V) (t : HmapTry K V) : HmapTry (KeyCopy K) V where
  op := match t.op with
    | .put key elem => .put (0, key) elem
    | .get key => .get (0, key)
    | .del key => .del (0, key)
    | .clear => .clear
    | .count => .count
  keydup := (copyKey s.copies t.keydup).1
  kok := t.kok
  vok := t.vok

/-- `hmap_put` does to the map what it does without regard to where the copy lives. -/
theorem put_map (s : KeyedMap K V) (key : K) (elem : V) (keydup : Option K) (kok vok : Bool) :
    (keyedPut F s key elem keydup kok vok).map KeyedMap.map =
      hmapTryPut F.onCopies s.map (0, key) elem (copyKey s.copies keydup).1 kok vok := by
  apply map_bind_congr
  intro ind
  apply map_bind_congr
  intro kc
  apply map_bind_congr
  intro vc
  apply map_bind_congr
  intro i
  split
  · apply map_bind_congr
    intro kr
    apply map_bind_congr
    intro vr
    apply map_bind_congr
    intro keybucket
    apply map_bind_congr
    intro valbucket
    rfl
  · apply map_bind_congr
    intro vr
    apply map_bind_congr
    intro keybucket
    apply map_bind_congr
    intro valbucket
    rfl

variable {s : KeyedMap K V} {ks : ℕ → List (KeyCopy K)} {vs : ℕ → List V} {n i : ℕ}

/-- The keys of all buckets. -/
def keysIn (ks : ℕ → List α) (n : ℕ) : List α := (List.range n).flatMap ks

/-- The keys in the buckets are live copies, each at an address of its own. -/
def Holds (s : KeyedMap K V) (ks : ℕ → List (KeyCopy K)) : Prop :=
  (∃ vs, s.map.Columns ks vs) ∧ s.copies.Owns (keysIn ks s.map.bucketsz)

/-- The live copies are those in the buckets. -/
def OwnsKeys (s : KeyedMap K V) : Prop :=
  ∃ ks, s.Holds ks ∧ s.copies.numLive = (keysIn ks s.map.bucketsz).length

/-- The call loses no copy: it does not fail to find room for the list node of a copy, and does not
clear a map that has keys. -/
def KeepsKeys (F : HmapFns K) (s : KeyedMap K V) (t : HmapTry K V) : Prop :=
  match t.op with
  | .put key _ => s.map.Absent F.onCopies (0, key) → t.keydup ≠ none → t.kok = true
  | .clear => ∀ i < s.map.bucketsz, ∀ ks, Hmap.BucketLists s.map.keybucket i ks → ks = []
  | _ => True

theorem keysIn_nil (n : ℕ) : keysIn (fun _ => ([] : List α)) n = [] :=
  List.flatMap_eq_nil_iff.2 fun _ _ => rfl

/-- The keys of all buckets are those of one bucket and others. -/
theorem exists_others (ks : ℕ → List α) (hi : i < n) :
    ∃ others, ∀ xs, (keysIn (Function.update ks i xs) n).Perm (xs ++ others) := by
  refine ⟨((List.range n).erase i).flatMap ks, fun xs => ?_⟩
  have hrange : (List.range n).Perm (i :: (List.range n).erase i) :=
    List.perm_cons_erase (List.mem_range.2 hi)
  apply (hrange.flatMap_right _).trans
  rw [List.flatMap_cons, Function.update_self]
  apply List.Perm.append_left
  have hothers : ((List.range n).erase i).flatMap (Function.update ks i xs) =
      ((List.range n).erase i).flatMap ks := by
    apply List.flatMap_congr
    intro j hj
    rw [Function.update_of_ne (List.nodup_range.mem_erase_iff.1 hj).1]
  rw [hothers]

/-- What becomes of the copies in a call from `s`, with the keys `ks`, that reaches `s'`: the live ones
are still those in the buckets and those lost before, and the ones lost by the call, of which there
are none if and only if `keeps` holds. -/
def Loses (s : KeyedMap K V) (ks : ℕ → List (KeyCopy K)) (keeps : Prop) (s' : KeyedMap K V) : Prop :=
  ∃ ks' lost, s'.Holds ks' ∧ s'.copies.numLive + (keysIn ks s.map.bucketsz).length =
    s.copies.numLive + (keysIn ks' s'.map.bucketsz).length + lost ∧ (lost = 0 ↔ keeps)

/-- The keys of a map are determined. -/
theorem Holds.keysIn_unique {ks' : ℕ → List (KeyCopy K)} (h : s.Holds ks) (h' : s.Holds ks') :
    keysIn ks s.map.bucketsz = keysIn ks' s.map.bucketsz := by
  obtain ⟨⟨vs, hc⟩, -⟩ := h
  obtain ⟨⟨vs', hc'⟩, -⟩ := h'
  apply List.flatMap_congr
  intro i hi
  have hi := List.mem_range.1 hi
  exact (hc.keys hi).unique (hc'.keys hi)

theorem Holds.loses_refl (h : s.Holds ks) {keeps : Prop} (hkeeps : keeps) : s.Loses ks keeps s :=
  ⟨ks, 0, h, rfl, iff_of_true rfl hkeeps⟩

theorem absent_iff (hc : s.map.Columns ks vs) (key : K) : s.map.Absent F.onCopies (0, key) ↔
    (ks (F.hfn key % s.map.bucketsz)).findIdx? (fun k => F.efn k.2 key) = none := by
  have hi := hc.index_lt F.onCopies (0, key)
  rw [List.findIdx?_eq_none_iff]
  constructor
  · intro hnew k hk
    exact hnew _ (hc.keys hi) k hk
  · intro hnone ks' hks' k hk
    rw [hks'.unique (hc.keys hi)] at hk
    exact hnone k hk

/-- `keydupfn` makes a copy, or does not; `ptrlist_insert` takes it, or does not. -/
theorem Holds.copyKey (h : s.Holds ks) (hi : i < s.map.bucketsz) (keydup : Option K) (kok : Bool) :
    ∃ copy copies, LibSrsBsns.copyKey s.copies keydup = (copy, copies) ∧
      copies.Owns (keysIn (Function.update ks i (taken copy kok ++ ks i)) s.map.bucketsz) ∧
      ∃ lost, copies.numLive + (keysIn ks s.map.bucketsz).length = s.copies.numLive +
          (keysIn (Function.update ks i (taken copy kok ++ ks i)) s.map.bucketsz).length + lost ∧
        (lost = 0 ↔ keydup ≠ none → kok = true) := by
  obtain ⟨-, hown⟩ := h
  cases keydup with
  | none =>
    refine ⟨none, s.copies, rfl, ?_⟩
    have htaken : taken (none : Option (KeyCopy K)) kok = [] := (taken_eq_nil _ _).2 (.inl rfl)
    rw [htaken, List.nil_append, Function.update_eq_self]
    exact ⟨hown, 0, rfl, by simp⟩
  | some k =>
    refine ⟨some (s.copies.brk, k), s.copies.put s.copies.brk k, rfl, ?_⟩
    have halloc := hown.alloc k
    have hnum := s.copies.numLive_alloc k
    cases kok with
    | false =>
      rw [(taken_eq_nil _ _).2 (.inr rfl), List.nil_append, Function.update_eq_self]
      exact ⟨halloc.tail, 1, by omega, by simp⟩
    | true =>
      obtain ⟨others, hothers⟩ := exists_others ks hi
      have hsame := hothers (ks i)
      rw [Function.update_eq_self] at hsame
      have hp : ((s.copies.brk, k) :: keysIn ks s.map.bucketsz).Perm (keysIn (Function.update ks i
          (taken (some (s.copies.brk, k)) true ++ ks i)) s.map.bucketsz) :=
        (hsame.cons _).trans (hothers ((s.copies.brk, k) :: ks i)).symm
      refine ⟨halloc.perm hp, 0, ?_, by simp⟩
      rw [← hp.length_eq, List.length_cons]
      omega

/-- `hmap_put` of a key, whatever fails: a copy that is made and not taken is lost. -/
theorem Holds.put (h : s.Holds ks) (key : K) (elem : V) (keydup : Option K) (kok vok : Bool) :
    Returns (keyedPut F s key elem keydup kok vok)
      (s.Loses ks (s.KeepsKeys F ⟨.put key elem, keydup, kok, vok⟩)) := by
  obtain ⟨⟨vs, hc⟩, hown⟩ := id h
  have hi := hc.index_lt F.onCopies (0, key)
  have hi : F.hfn key % s.map.bucketsz < s.map.bucketsz := hi
  obtain ⟨kc, vc, kl, vl, hkc, hvc, hlists, hkl, hvl⟩ := hc.orInit hi
  have hf := PtrList.findeqfn_spec hkl (fun k key => F.efn k.2 key) key
  have habsent := absent_iff (F := F) hc key
  simp only [keyedPut, sizeMod_of_pos hc.pos, Buffer.read_of_cell (hc.keysize ▸ hi) hkc,
    Buffer.read_of_cell (hc.valsize ▸ hi) hvc, ok_bind, hlists, hf]
  cases hj : (ks (F.hfn key % s.map.bucketsz)).findIdx? (fun k => F.efn k.2 key) with
  | none =>
    obtain ⟨copy, copies, hcopy, hown', lost, hnum, hlost⟩ := h.copyKey hi keydup kok
    obtain ⟨⟨b, kl'⟩, hkl', hkls⟩ := PtrList.insert_front hkl copy kok
    obtain ⟨⟨b', vl'⟩, hvl', hvls⟩ := PtrList.insert_front hvl (some elem) vok
    obtain ⟨kb, vb, hkb, hvb, hc'⟩ := hc.write hi hkls hvls
    simp only [ok_bind, if_true, hcopy, hkl', PtrList.orNull, hvl', hkb, hvb]
    refine .ok ⟨_, lost, ⟨⟨_, hc' _⟩, hown'⟩, hnum, hlost.trans ?_⟩
    exact ⟨fun hkeeps _ => hkeeps, fun hkeeps => hkeeps (habsent.2 hj)⟩
  | some j =>
    have hneg : ¬ (j : ℤ) = -1 := by omega
    obtain ⟨⟨b, vl'⟩, hvl', -, hvls⟩ := PtrList.replace_spec hvl j elem
    obtain ⟨kb, vb, hkb, hvb, hc'⟩ := hc.write hi hkl hvls
    rw [Function.update_eq_self] at hc'
    simp only [ok_bind, hneg, if_false, PtrList.orNull, Int.toNat_natCast, hvl', hkb, hvb]
    refine .ok ⟨ks, 0, ⟨⟨_, hc' _⟩, hown⟩, rfl, iff_of_true rfl fun hnew => ?_⟩
    rw [habsent.1 hnew] at hj
    cases hj

/-- `hmap_del` frees the copy that it takes out, which is live, and does to the map what it does without
regard to that. -/
theorem Holds.del (h : s.Holds ks) (key : K) :
    Returns (keyedDel F s key) fun r => s.Loses ks True r.2 ∧
      hmapDel F.onCopies s.map (0, key) = .ok (r.1, r.2.map) := by
  obtain ⟨⟨vs, hc⟩, hown⟩ := id h
  have hi : F.hfn key % s.map.bucketsz < s.map.bucketsz := hc.index_lt F.onCopies (0, key)
  have hk : F.hfn key % s.map.bucketsz < s.map.keybucket.size := hc.keysize ▸ hi
  have hv : F.hfn key % s.map.bucketsz < s.map.valbucket.size := hc.valsize ▸ hi
  rcases hc.bucket _ hi with ⟨hkc, -, hks, -⟩ | ⟨kl, vl, hkc, hvc, hkl, hvl⟩
  · simp only [keyedDel, hmapDel, HmapFns.onCopies, sizeMod_of_pos hc.pos, Buffer.read_of_cell hk hkc,
      ok_bind]
    exact .ok ⟨h.loses_refl trivial, rfl⟩
  have hf := PtrList.findeqfn_spec hkl (fun k key => F.efn k.2 key) key
  have hf' : ptrlistFindeqfn kl (fun k l => F.efn k.2 l.2) ((0, key) : KeyCopy K) =
      ptrlistFindeqfn kl (fun k key => F.efn k.2 key) key := rfl
  simp only [keyedDel, hmapDel, HmapFns.onCopies, sizeMod_of_pos hc.pos, Buffer.read_of_cell hk hkc,
    Buffer.read_of_cell hv hvc, ok_bind, hf', hf]
  cases hj : (ks (F.hfn key % s.map.bucketsz)).findIdx? (fun k => F.efn k.2 key) with
  | none => exact .ok ⟨h.loses_refl trivial, rfl⟩
  | some j =>
    have hneg : ¬ (j : ℤ) = -1 := by omega
    obtain ⟨hlt, -⟩ := List.findIdx?_eq_some_iff_getElem.1 hj
    obtain ⟨⟨b, kl'⟩, hkl', -, hkls⟩ := PtrList.remove_spec hkl j
    obtain ⟨⟨b', vl'⟩, hvl', -, hvls⟩ := PtrList.remove_spec hvl j
    obtain ⟨kb, vb, hkb, hvb, hc'⟩ := hc.write hi hkls hvls
    -- the keys are the one that goes and the others
    obtain ⟨others, hothers⟩ := exists_others ks hi
    have hsame := hothers (ks (F.hfn key % s.map.bucketsz))
    rw [Function.update_eq_self] at hsame
    have hp := (hsame.trans ((List.getElem_cons_eraseIdx_perm hlt).symm.append_right others)).trans
      ((hothers _).symm.cons _)
    simp only [ok_bind, hneg, if_false, Int.toNat_natCast, PtrList.get_spec hkl,
      List.getElem?_eq_getElem hlt, Option.map_some, Memory.freePtr, hkl', PtrList.orNull, hvl', hkb,
      hvb]
    generalize (ks (F.hfn key % s.map.bucketsz))[j] = copy at hp ⊢
    obtain ⟨a, k⟩ := copy
    have hown' := hown.perm hp
    have hnum := Memory.numLive_erase hown'.head
    rw [Memory.free_of_cell hown'.head, ok_bind]
    refine .ok ⟨⟨_, 0, ⟨⟨_, hc' _⟩, hown'.erase⟩, ?_, iff_of_true rfl trivial⟩, rfl⟩
    have hlen := hp.length_eq
    rw [List.length_cons] at hlen
    simp only
    omega

/-- `hmap_clear` loses the keys of the map. -/
theorem Holds.clear (h : s.Holds ks) : Returns (keyedClear s) fun s' =>
    s.Loses ks (∀ i < s.map.bucketsz, ∀ ks, Hmap.BucketLists s.map.keybucket i ks → ks = []) s' ∧
      s'.copies = s.copies := by
  obtain ⟨⟨vs, hc⟩, hown⟩ := h
  apply hc.clear.bind
  intro map ⟨hc', _⟩
  refine .ok ⟨⟨_, (keysIn ks s.map.bucketsz).length, ⟨⟨_, hc'⟩, ?_⟩, ?_, ?_⟩, rfl⟩
  · rw [keysIn_nil]
    exact .nil _
  · rw [keysIn_nil, List.length_nil, Nat.add_zero]
  · rw [List.length_eq_zero_iff, keysIn, List.flatMap_eq_nil_iff]
    constructor
    · intro hnil i hi ks' hks'
      rw [hks'.unique (hc.keys hi)]
      exact hnil i (List.mem_range.2 hi)
    · intro hall i hi
      have hi := List.mem_range.1 hi
      exact hall i hi _ (hc.keys hi)

/-- **One call**, whatever fails: it returns what the map of copies does, every key in the map stays a
live copy, and what it loses is known. -/
theorem Holds.step (h : s.Holds ks) (t : HmapTry K V) :
    Returns (keyedTry F s t) fun r => s.Loses ks (s.KeepsKeys F t) r.2 ∧
      hmapTry F.onCopies s.map (s.onCopies t) = .ok (r.1, r.2.map) := by
  obtain ⟨op, keydup, kok, vok⟩ := t
  cases op with
  | put key elem =>
    have hmap := put_map (F := F) s key elem keydup kok vok
    obtain ⟨s', hs', hloses⟩ := h.put key elem keydup kok vok
    rw [hs'] at hmap
    simp only [keyedTry, hs', ok_bind, hmapTry, onCopies, ← hmap]
    exact .ok ⟨hloses, rfl⟩
  | get key =>
    obtain ⟨⟨vs, hc⟩, -⟩ := id h
    simp only [keyedTry, keyedGet, hmapTry, onCopies, hmapStep, hc.get, ok_bind]
    exact .ok ⟨h.loses_refl trivial, rfl⟩
  | del key =>
    obtain ⟨r, hr, hloses, hmap⟩ := h.del (F := F) key
    simp only [keyedTry, hr, hmapTry, onCopies, hmapStep, hmap, ok_bind]
    exact .ok ⟨hloses, rfl⟩
  | clear =>
    obtain ⟨s', hs', hloses, -⟩ := h.clear
    obtain ⟨map, hmap, hret⟩ := bind_eq_ok.1 hs'
    obtain rfl := Except.ok.inj hret
    simp only [keyedTry, hs', hmapTry, onCopies, hmapStep, hmap, ok_bind]
    exact .ok ⟨hloses, rfl⟩
  | count => exact .ok ⟨h.loses_refl trivial, rfl⟩

theorem init_spec {bucketsz : ℕ} (hsz : 1 ≤ bucketsz) :
    Returns (keyedInit bucketsz : Exec (KeyedMap K V)) fun s =>
      s.Holds (fun _ => []) ∧ s.copies = .empty := by
  apply (Hmap.Columns.init hsz).bind
  intro map ⟨hc, _⟩
  refine .ok ⟨⟨⟨_, hc⟩, ?_⟩, rfl⟩
  rw [keysIn_nil]
  exact .nil _

end KeyedMap

/-- **Who owns the copies of keys.** In every run of calls on a map with a bucket, whatever allocations
fail: each call returns, so that no copy is freed twice, with what it returns and makes of the map if
the copies are taken for the keys, and the keys in the buckets are live copies, each at an address of
its own. They are all the live copies throughout if and only if no copy fails to find room for its list
node and no map is cleared that has keys. `hmap_dispose` leaves the copies that there are. -/
theorem hmap_owns_keys_iff {bucketsz : ℕ} (hsz : 1 ≤ bucketsz) (ts : List (HmapTry K V)) :
    Returns (keyedInit bucketsz : Exec (KeyedMap K V)) fun s₀ =>
      Throughout (keyedTry F) (fun _ => False)
          (fun s => (∃ ks, s.Holds ks) ∧ keyedDispose s = .ok s.copies ∧
            ∀ t, Returns (keyedTry F s t) fun r =>
              hmapTry F.onCopies s.map (s.onCopies t) = .ok (r.1, r.2.map)) s₀ ts ∧
        (Throughout (keyedTry F) (fun _ => False) KeyedMap.OwnsKeys s₀ ts ↔
          Meets (keyedTry F) (KeyedMap.KeepsKeys F) s₀ ts) := by
  apply (KeyedMap.init_spec hsz).mono
  intro s₀ ⟨h₀, hempty⟩
  constructor
  · apply Throughout.of_invariant (fun s : KeyedMap K V => ∃ ks, s.Holds ks)
    · intro s ⟨ks, h⟩
      obtain ⟨s', hs', -, hcopies⟩ := h.clear
      rw [keyedDispose, hs', ok_bind, hcopies]
      exact ⟨⟨ks, h⟩, rfl, fun t => (h.step t).mono fun r hr => hr.2⟩
    · intro s t ⟨ks, h⟩
      exact ((h.step t).mono fun r ⟨⟨ks', _, h', _⟩, _⟩ => ⟨ks', h'⟩).ends _
    · exact ⟨_, h₀⟩
  · apply throughout_iff_meets (fun s : KeyedMap K V => ∃ ks, s.Holds ks) _ ⟨_, h₀⟩
    · refine ⟨_, h₀, ?_⟩
      rw [hempty, KeyedMap.keysIn_nil]
      rfl
    · rintro s t - ⟨ks, h, hnum⟩
      apply ((h.step t).mono _).ends
      intro r ⟨⟨ks', lost, h', hlost, hkeeps⟩, _⟩
      refine ⟨⟨ks', h'⟩, ⟨fun ⟨ks'', h'', hnum'⟩ => hkeeps.1 ?_, fun hk => ⟨ks', h', ?_⟩⟩⟩
      · have hle := h'.2.length_le_numLive
        rw [h''.keysIn_unique h'] at hnum'
        omega
      · have := hkeeps.2 hk
        omega

/-- Two keys are put into a map and one is taken out. -/
theorem hmap_owns_keys_iff_deleted :
    Returns (keyedInit 2 : Exec (KeyedMap ℕ ℕ)) fun s₀ =>
      Throughout (keyedTry ⟨fun k => k, (· == ·), some⟩) (fun _ => False) KeyedMap.OwnsKeys s₀
        [⟨.put 1 10, some 1, true, true⟩, ⟨.put 3 30, some 3, true, true⟩,
          ⟨.del 1, none, false, false⟩] := by
  have howns := hmap_owns_keys_iff (F := ⟨fun k => k, (· == ·), some⟩) (show 1 ≤ 2 by decide)
    ([⟨.put 1 10, some 1, true, true⟩, ⟨.put 3 30, some 3, true, true⟩,
      ⟨.del 1, none, false, false⟩] : List (HmapTry ℕ ℕ))
  apply howns.mono
  intro s₀ ⟨_, hiff⟩
  refine hiff.2 ⟨fun _ _ => rfl, (Ends.trivial _).mono fun r _ => ⟨fun _ _ => rfl, ?_⟩⟩
  exact (Ends.trivial _).mono fun r _ => ⟨trivial, Ends.trivial _⟩

end LibSrsBsns
