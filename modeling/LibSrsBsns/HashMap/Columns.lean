import LibSrsBsns.HashMap.Model
import LibSrsBsns.PtrList.Sequence

/-!
# The two columns of a hash map

A bucket of a hash map is a list of keys and a list of values. Nothing ties the one to the other but
that the functions of the map treat both alike, and `hmap_put` does not look at whether a key was
copied or a list node was found. `Hmap.Columns` therefore takes the keys and the values of the
buckets each for itself, and says what the operations do to them whatever becomes of allocations.
-/

namespace LibSrsBsns

open C

variable {K V α : Type}

/-- What `ptrlist_insert` takes of the element `x`, where `ok` says whether there is room for a
node. -/
def taken (x : Option α) (ok : Bool) : List α := if ok then x.toList else []

theorem taken_eq_nil (x : Option α) (ok : Bool) : taken x ok = [] ↔ x = none ∨ ok = false := by
  cases ok <;> simp [taken]

/-- `ptrlist_insert` at the front, which may fail. -/
theorem PtrList.insert_front {l : PtrList α} {xs : List α} (h : l.Lists xs) (x : Option α)
    (ok : Bool) : Returns (ptrlistInsert l 0 x ok) fun r => r.2.Lists (taken x ok ++ xs) := by
  cases x with
  | none => exact .ok (by cases ok <;> exact h)
  | some x =>
    cases ok with
    | false => exact .ok h
    | true =>
      apply (insert_spec h 0 x).mono
      intro r ⟨_, hr⟩
      rw [insertAt_zero] at hr
      exact hr

namespace Hmap

/-- The bucket at index `i` of an array is null or a list; its elements are `xs`. -/
def BucketLists (b : Buffer (Option (PtrList α))) (i : ℕ) (xs : List α) : Prop :=
  b.cell i = some none ∧ xs = [] ∨ ∃ l, b.cell i = some (some l) ∧ l.Lists xs

/-- `h'` has the buckets that `h` has, and the same cursor. -/
structure SameCursor (h h' : Hmap K V) : Prop where
  bucketsz : h'.bucketsz = h.bucketsz
  iterating : h'.iterating = h.iterating
  buckiter : h'.buckiter = h.buckiter
  listiter : h'.listiter = h.listiter

/-- The keys and the values of all buckets. The two lists of a bucket are there both or neither. -/
structure Columns (h : Hmap K V) (ks : ℕ → List K) (vs : ℕ → List V) : Prop where
  pos : 0 < h.bucketsz
  keysize : h.keybucket.size = h.bucketsz
  valsize : h.valbucket.size = h.bucketsz
  bucket : ∀ i < h.bucketsz,
    h.keybucket.cell i = some none ∧ h.valbucket.cell i = some none ∧ ks i = [] ∧ vs i = [] ∨
      ∃ kl vl, h.keybucket.cell i = some (some kl) ∧ h.valbucket.cell i = some (some vl) ∧
        kl.Lists (ks i) ∧ vl.Lists (vs i)

theorem initBuckets_spec (n : ℕ) : Returns (initBuckets n : Exec (Buffer (Option (PtrList α))))
    fun b => b.size = n ∧ ∀ i < n, b.cell i = some none := by
  refine (Returns.forRange (fun i (b : Buffer (Option (PtrList α))) =>
    b.size = n ∧ ∀ j < i, b.cell j = some none) (fun i b _ hi hb => ?_) ⟨rfl, by simp⟩).mono
      fun b hb => by simpa using hb
  refine (Buffer.write_spec none (by omega)).mono fun b' hb' =>
    ⟨hb'.size.trans hb.1, fun j hj => ?_⟩
  by_cases hji : j = i
  · exact hji ▸ hb'.cell_self
  · exact (hb'.cell_of_ne hji).trans (hb.2 j (by omega))

theorem clearBucket_spec {i : ℕ} {b : Buffer (Option (PtrList α))} {xs : List α} (hi : i < b.size)
    (hb : BucketLists b i xs) : Returns (clearBucket i b) fun b' =>
      b'.size = b.size ∧ b'.cell i = some none ∧ ∀ j, j ≠ i → b'.cell j = b.cell j := by
  rcases hb with ⟨hc, -⟩ | ⟨l, hc, hl⟩
  · rw [clearBucket, Buffer.read_of_cell hi hc, ok_bind]
    exact .ok ⟨rfl, hc, fun j _ => rfl⟩
  · obtain ⟨l', hl', -⟩ := PtrList.clear_spec hl
    rw [clearBucket, Buffer.read_of_cell hi hc, ok_bind]
    simp only [ptrlistDispose, hl', ok_bind]
    exact (Buffer.write_spec none hi).mono fun b' hb' =>
      ⟨hb'.size, hb'.cell_self, fun _ hj => hb'.cell_of_ne hj⟩

namespace Columns

variable {h : Hmap K V} {ks : ℕ → List K} {vs : ℕ → List V} {i : ℕ}

theorem keys (hc : h.Columns ks vs) (hi : i < h.bucketsz) : BucketLists h.keybucket i (ks i) := by
  rcases hc.bucket i hi with ⟨hk, -, hks, -⟩ | ⟨kl, vl, hk, -, hl, -⟩
  · exact .inl ⟨hk, hks⟩
  · exact .inr ⟨kl, hk, hl⟩

theorem vals (hc : h.Columns ks vs) (hi : i < h.bucketsz) : BucketLists h.valbucket i (vs i) := by
  rcases hc.bucket i hi with ⟨-, hv, -, hvs⟩ | ⟨kl, vl, -, hv, -, hl⟩
  · exact .inl ⟨hv, hvs⟩
  · exact .inr ⟨vl, hv, hl⟩

theorem index_lt (hc : h.Columns ks vs) (F : HmapFns K) (k : K) :
    F.hfn k % h.bucketsz < h.bucketsz :=
  Nat.mod_lt _ hc.pos

/-- Writing both lists of a bucket. -/
theorem write (hc : h.Columns ks vs) (hi : i < h.bucketsz) {kl : PtrList K} {vl : PtrList V}
    {ks' : List K} {vs' : List V} (hk : kl.Lists ks') (hv : vl.Lists vs') :
    ∃ keybucket valbucket, h.keybucket.write i (some kl) = .ok keybucket ∧
      h.valbucket.write i (some vl) = .ok valbucket ∧
      ∀ count, Columns { h with keybucket, valbucket, count } (Function.update ks i ks')
        (Function.update vs i vs') := by
  refine ⟨_, _, Buffer.write_of_lt _ (hc.keysize ▸ hi), Buffer.write_of_lt _ (hc.valsize ▸ hi),
    fun count => ⟨hc.pos, hc.keysize, hc.valsize, fun j hj => ?_⟩⟩
  by_cases hji : j = i
  · exact .inr ⟨kl, vl, by simp [hji], by simp [hji], by simpa [hji] using hk,
      by simpa [hji] using hv⟩
  · simpa [Function.update_of_ne hji] using hc.bucket j hj

/-- The two lists of a bucket for `hmap_put`, which creates them if the bucket was never used. -/
theorem orInit (hc : h.Columns ks vs) (hi : i < h.bucketsz) : ∃ kc vc kl vl,
    h.keybucket.cell i = some kc ∧ h.valbucket.cell i = some vc ∧ Hmap.orInit kc vc = (kl, some vl) ∧
      kl.Lists (ks i) ∧ vl.Lists (vs i) := by
  rcases hc.bucket i hi with ⟨hkc, hvc, hks, hvs⟩ | ⟨kl, vl, hkc, hvc, hkl, hvl⟩
  · rw [hks, hvs]
    exact ⟨_, _, _, _, hkc, hvc, rfl, PtrList.lists_init, PtrList.lists_init⟩
  · exact ⟨_, _, _, _, hkc, hvc, rfl, hkl, hvl⟩

/-- `hmap_get` returns the value that has the index of the key. -/
theorem get (hc : h.Columns ks vs) (F : HmapFns K) (key : K) : hmapGet F h key =
    .ok (((ks (F.hfn key % h.bucketsz)).findIdx? (F.efn · key)).bind fun j =>
      (vs (F.hfn key % h.bucketsz))[j]?) := by
  have hi := hc.index_lt F key
  have hk : F.hfn key % h.bucketsz < h.keybucket.size := hc.keysize ▸ hi
  have hv : F.hfn key % h.bucketsz < h.valbucket.size := hc.valsize ▸ hi
  rw [hmapGet, sizeMod_of_pos hc.pos, ok_bind]
  rcases hc.bucket _ hi with ⟨hkc, -, hks, -⟩ | ⟨kl, vl, hkc, hvc, hkl, hvl⟩
  · simp [Buffer.read_of_cell hk hkc, hks]
  · have hf := PtrList.findeqfn_spec hkl F.efn key
    cases hj : (ks (F.hfn key % h.bucketsz)).findIdx? (F.efn · key) with
    | none =>
      rw [hj] at hf
      simp [Buffer.read_of_cell hk hkc, Buffer.read_of_cell hv hvc, hf]
    | some j =>
      have hneg : ¬ (j : ℤ) = -1 := by omega
      rw [hj] at hf
      simp [Buffer.read_of_cell hk hkc, Buffer.read_of_cell hv hvc, hf, hneg, PtrList.get_spec hvl]

/-- `hmap_put` changes the bucket of the key only. A new key is counted, and put in front as far as it
was copied and there was room for it; so is its value, as far as there was room for that. -/
theorem put (hc : h.Columns ks vs) (F : HmapFns K) (key : K) (elem : V) (kok vok : Bool) :
    Returns (hmapPut F h (some key) (some elem) kok vok) fun h' => SameCursor h h' ∧
      match (ks (F.hfn key % h.bucketsz)).findIdx? (F.efn · key) with
      | none => h'.count = h.count + 1 ∧ h'.Columns
          (Function.update ks (F.hfn key % h.bucketsz)
            (taken (F.keydupfn key) kok ++ ks (F.hfn key % h.bucketsz)))
          (Function.update vs (F.hfn key % h.bucketsz)
            (taken (some elem) vok ++ vs (F.hfn key % h.bucketsz)))
      | some j => h'.count = h.count ∧ h'.Columns ks
          (Function.update vs (F.hfn key % h.bucketsz)
            ((vs (F.hfn key % h.bucketsz)).set j elem)) := by
  have hi := hc.index_lt F key
  obtain ⟨kc, vc, kl, vl, hkc, hvc, hlists, hkl, hvl⟩ := hc.orInit hi
  have hf := PtrList.findeqfn_spec hkl F.efn key
  simp only [hmapPut, sizeMod_of_pos hc.pos, Buffer.read_of_cell (hc.keysize ▸ hi) hkc,
    Buffer.read_of_cell (hc.valsize ▸ hi) hvc, ok_bind, hlists, hf]
  cases hj : (ks (F.hfn key % h.bucketsz)).findIdx? (F.efn · key) with
  | none =>
    obtain ⟨⟨b, kl'⟩, hkl', hkls⟩ := PtrList.insert_front hkl (F.keydupfn key) kok
    obtain ⟨⟨b', vl'⟩, hvl', hvls⟩ := PtrList.insert_front hvl (some elem) vok
    obtain ⟨kb, vb, hkb, hvb, hc'⟩ := hc.write hi hkls hvls
    simp only [ok_bind, if_true, hkl', PtrList.orNull, hvl', hkb, hvb]
    exact .ok ⟨⟨rfl, rfl, rfl, rfl⟩, rfl, hc' _⟩
  | some j =>
    have hneg : ¬ (j : ℤ) = -1 := by omega
    obtain ⟨⟨b, vl'⟩, hvl', -, hvls⟩ := PtrList.replace_spec hvl j elem
    obtain ⟨kb, vb, hkb, hvb, hc'⟩ := hc.write hi hkl hvls
    rw [Function.update_eq_self] at hc'
    simp only [ok_bind, hneg, if_false, PtrList.orNull, Int.toNat_natCast, hvl', hkb, hvb]
    exact .ok ⟨⟨rfl, rfl, rfl, rfl⟩, rfl, hc' _⟩

/-- `hmap_del` changes the bucket of the key only: the key goes, if it is there, and the value that has
its index. -/
theorem del (hc : h.Columns ks vs) (F : HmapFns K) (key : K) : Returns (hmapDel F h key) fun r =>
    SameCursor h r.2 ∧
      match (ks (F.hfn key % h.bucketsz)).findIdx? (F.efn · key) with
      | none => r = (false, h)
      | some j => r.1 = true ∧ r.2.count = h.count - 1 ∧ r.2.Columns
          (Function.update ks (F.hfn key % h.bucketsz) ((ks (F.hfn key % h.bucketsz)).eraseIdx j))
          (Function.update vs (F.hfn key % h.bucketsz)
            ((vs (F.hfn key % h.bucketsz)).eraseIdx j)) := by
  have hi := hc.index_lt F key
  have hk : F.hfn key % h.bucketsz < h.keybucket.size := hc.keysize ▸ hi
  have hv : F.hfn key % h.bucketsz < h.valbucket.size := hc.valsize ▸ hi
  rcases hc.bucket _ hi with ⟨hkc, -, hks, -⟩ | ⟨kl, vl, hkc, hvc, hkl, hvl⟩
  · simp only [hmapDel, sizeMod_of_pos hc.pos, Buffer.read_of_cell hk hkc, ok_bind, hks]
    exact .ok ⟨⟨rfl, rfl, rfl, rfl⟩, rfl⟩
  have hf := PtrList.findeqfn_spec hkl F.efn key
  simp only [hmapDel, sizeMod_of_pos hc.pos, Buffer.read_of_cell hk hkc,
    Buffer.read_of_cell hv hvc, ok_bind, hf]
  cases hj : (ks (F.hfn key % h.bucketsz)).findIdx? (F.efn · key) with
  | none => exact .ok ⟨⟨rfl, rfl, rfl, rfl⟩, rfl⟩
  | some j =>
    have hneg : ¬ (j : ℤ) = -1 := by omega
    obtain ⟨⟨b, kl'⟩, hkl', -, hkls⟩ := PtrList.remove_spec hkl j
    obtain ⟨⟨b', vl'⟩, hvl', -, hvls⟩ := PtrList.remove_spec hvl j
    obtain ⟨kb, vb, hkb, hvb, hc'⟩ := hc.write hi hkls hvls
    simp only [ok_bind, hneg, if_false, Int.toNat_natCast, PtrList.get_spec hkl, hkl',
      PtrList.orNull, hvl', hkb, hvb]
    exact .ok ⟨⟨rfl, rfl, rfl, rfl⟩, rfl, rfl, hc' _⟩

/-- A fresh map has empty columns. -/
theorem init {n : ℕ} (hn : 1 ≤ n) : Returns (hmapInit n : Exec (Hmap K V)) fun h =>
    h.Columns (fun _ => []) (fun _ => []) ∧ h.count = 0 ∧ h.iterating = false := by
  apply (initBuckets_spec n).bind
  intro kb ⟨hksize, hk⟩
  apply (initBuckets_spec n).bind
  intro vb ⟨hvsize, hv⟩
  exact .ok ⟨⟨hn, hksize, hvsize, fun i hi => .inl ⟨hk i hi, hv i hi, rfl, rfl⟩⟩, rfl, rfl⟩

/-- `hmap_clear` empties all buckets. -/
theorem clear (hc : h.Columns ks vs) : Returns (hmapClear h) fun h' =>
    h'.Columns (fun _ => []) (fun _ => []) ∧ SameCursor h h' ∧ h'.count = 0 := by
  refine (Returns.forRange (fun i (b : Buffer (Option (PtrList K)) × Buffer (Option (PtrList V))) =>
    (b.1.size = h.bucketsz ∧ b.2.size = h.bucketsz) ∧
    (∀ j < i, b.1.cell j = some none ∧ b.2.cell j = some none) ∧
    ∀ j, i ≤ j → b.1.cell j = h.keybucket.cell j ∧ b.2.cell j = h.valbucket.cell j)
    (fun i b _ hi hb => ?_) ⟨⟨hc.keysize, hc.valsize⟩, by simp, by simp⟩).bind fun b hb => ?_
  · have hbi := hb.2.2 i le_rfl
    have hkeys : BucketLists b.1 i (ks i) := by
      simpa only [BucketLists, hbi.1] using hc.keys (by omega)
    have hvals : BucketLists b.2 i (vs i) := by
      simpa only [BucketLists, hbi.2] using hc.vals (by omega)
    refine (clearBucket_spec (by omega) hkeys).bind fun kb hkb => ?_
    refine (clearBucket_spec (by omega) hvals).bind fun vb hvb => ?_
    refine .ok ⟨⟨hkb.1.trans hb.1.1, hvb.1.trans hb.1.2⟩, fun j hj => ?_, fun j hj => ?_⟩
    · by_cases hji : j = i
      · exact hji ▸ ⟨hkb.2.1, hvb.2.1⟩
      · rw [hkb.2.2 j hji, hvb.2.2 j hji]
        exact hb.2.1 j (by omega)
    · rw [hkb.2.2 j (by omega), hvb.2.2 j (by omega)]
      exact hb.2.2 j (by omega)
  · rw [Nat.zero_add] at hb
    refine .ok ⟨⟨hc.pos, hb.1.1, hb.1.2, fun i hi => ?_⟩, ⟨rfl, rfl, rfl, rfl⟩, rfl⟩
    exact .inl ⟨(hb.2.1 i hi).1, (hb.2.1 i hi).2, rfl, rfl⟩

end Columns

end Hmap

end LibSrsBsns
