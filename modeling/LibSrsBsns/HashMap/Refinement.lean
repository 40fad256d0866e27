import LibSrsBsns.HashMap.Columns
import LibSrsBsns.Foundations.Data.AssocList
import LibSrsBsns.Foundations.C.Runs

/-!
# The hash map is a finite map

`Hmap.Holds F h es` relates a hash map to the entries `es i` of its buckets: the list of keys and
the list of values of a bucket are the two projections of its entries, which is what keeps them
aligned. Together the buckets represent a map on the classes of the comparison of keys
(`Hmap.Represents`), and every operation does to it what its name says.
-/

namespace LibSrsBsns

open C AssocList

variable {K V α : Type}

/-- What the user promises about the functions given to the map: `efn` is an equivalence, `hfn`
respects it, and a copy of a key is made and is equal to the key. -/
structure HmapFns.Lawful (F : HmapFns K) : Prop where
  equiv : IsEquivFn F.efn
  hash : ∀ {k l}, F.efn k l → F.hfn k = F.hfn l
  dup : ∀ k, ∃ k', F.keydupfn k = some k' ∧ F.efn k' k

theorem HmapFns.Lawful.isSome_dup {F : HmapFns K} (hF : F.Lawful) (k : K) :
    (F.keydupfn k).isSome := by
  obtain ⟨k', hk', -⟩ := hF.dup k
  rw [hk', Option.isSome_some]

namespace Hmap

/-- The entries of the bucket at index `i`. Its two lists are there both or neither. -/
def Bucket (h : Hmap K V) (i : ℕ) (es : List (K × V)) : Prop :=
  h.keybucket.cell i = some none ∧ h.valbucket.cell i = some none ∧ es = [] ∨
    ∃ kl vl, h.keybucket.cell i = some (some kl) ∧ h.valbucket.cell i = some (some vl) ∧
      kl.Lists (es.map Prod.fst) ∧ vl.Lists (es.map Prod.snd)

/-- The entries of all buckets. -/
structure Entries (h : Hmap K V) (es : ℕ → List (K × V)) : Prop where
  pos : 0 < h.bucketsz
  keysize : h.keybucket.size = h.bucketsz
  valsize : h.valbucket.size = h.bucketsz
  bucket : ∀ i < h.bucketsz, h.Bucket i (es i)

/-- The entries of all buckets: each key is in the bucket of its hash, and no two are equal. -/
structure Holds (F : HmapFns K) (h : Hmap K V) (es : ℕ → List (K × V)) : Prop extends
    h.Entries es where
  hash : ∀ i < h.bucketsz, ∀ e ∈ es i, F.hfn e.1 % h.bucketsz = i
  distinct : ∀ i < h.bucketsz, Distinct F.efn (es i)

variable {F : HmapFns K} {h : Hmap K V} {es : ℕ → List (K × V)} {i : ℕ}

/-- The keys of the entries are one column of the map, and their values the other. -/
theorem entries_iff :
    h.Entries es ↔ h.Columns (List.map Prod.fst ∘ es) (List.map Prod.snd ∘ es) := by
  constructor
  · rintro ⟨hpos, hkeysize, hvalsize, hbucket⟩
    refine ⟨hpos, hkeysize, hvalsize, fun i hi => ?_⟩
    rcases hbucket i hi with ⟨hk, hv, hes⟩ | hlists
    · exact .inl ⟨hk, hv, by simp [hes], by simp [hes]⟩
    · exact .inr hlists
  · rintro ⟨hpos, hkeysize, hvalsize, hbucket⟩
    refine ⟨hpos, hkeysize, hvalsize, fun i hi => ?_⟩
    rcases hbucket i hi with ⟨hk, hv, hes, -⟩ | hlists
    · exact .inl ⟨hk, hv, List.map_eq_nil_iff.1 hes⟩
    · exact .inr hlists

theorem Entries.columns (hh : h.Entries es) :
    h.Columns (List.map Prod.fst ∘ es) (List.map Prod.snd ∘ es) := entries_iff.1 hh

theorem Entries.keys (hh : h.Entries es) (hi : i < h.bucketsz) :
    BucketLists h.keybucket i ((es i).map Prod.fst) := hh.columns.keys hi

theorem Entries.vals (hh : h.Entries es) (hi : i < h.bucketsz) :
    BucketLists h.valbucket i ((es i).map Prod.snd) := hh.columns.vals hi

theorem Entries.index_lt (hh : h.Entries es) (F : HmapFns K) (k : K) :
    F.hfn k % h.bucketsz < h.bucketsz := hh.columns.index_lt F k

/-- Other entries in one bucket are other keys and other values in it. -/
theorem entries_update {es' : List (K × V)} : h.Entries (Function.update es i es') ↔
    h.Columns (Function.update (List.map Prod.fst ∘ es) i (es'.map Prod.fst))
      (Function.update (List.map Prod.snd ∘ es) i (es'.map Prod.snd)) := by
  rw [entries_iff, Function.comp_update, Function.comp_update]

/-- A change of one bucket keeps what is known of the keys, if the bucket itself keeps it. -/
theorem Holds.update (hh : Holds F h es) {h' : Hmap K V} (hs : SameCursor h h') {es' : List (K × V)}
    (hh' : h'.Entries (Function.update es i es'))
    (hhash : ∀ e ∈ es', F.hfn e.1 % h.bucketsz = i) (hd : Distinct F.efn es') :
    Holds F h' (Function.update es i es') := by
  refine ⟨hh', ?_, ?_⟩
  · intro j hj
    rw [hs.bucketsz] at hj ⊢
    by_cases hji : j = i
    · simpa [hji] using hhash
    · simpa [Function.update_of_ne hji] using hh.hash j hj
  · intro j hj
    rw [hs.bucketsz] at hj
    by_cases hji : j = i
    · simpa [hji] using hd
    · simpa [Function.update_of_ne hji] using hh.distinct j hj

/-- `hmap_get` looks the key up in its bucket. -/
theorem Entries.get (hh : h.Entries es) (F : HmapFns K) (key : K) :
    hmapGet F h key = .ok (lookup F.efn (es (F.hfn key % h.bucketsz)) key) := by
  rw [hh.columns.get, Function.comp_apply, Function.comp_apply]
  rcases lookup_cases F.efn (es (F.hfn key % h.bucketsz)) key with
    ⟨hnone, hidx⟩ | ⟨pre, e, post, he, -, hlook, hidx⟩
  · rw [hnone, hidx, Option.bind_none]
  · rw [hlook, hidx, Option.bind_some, he]
    simp

/-- `hmap_put` changes the bucket of the key only: a copy of the key goes to the front with the
value, or the value of the key that is there changes. -/
theorem Entries.put (hh : h.Entries es) {key key' : K} (hdup : F.keydupfn key = some key')
    (elem : V) : Returns (hmapPut F h (some key) (some elem) true true) fun h' =>
      SameCursor h h' ∧ ∃ es', h'.Entries (Function.update es (F.hfn key % h.bucketsz) es') ∧
        (lookup F.efn (es (F.hfn key % h.bucketsz)) key = none ∧
            es' = (key', elem) :: es (F.hfn key % h.bucketsz) ∧ h'.count = h.count + 1 ∨
          lookup F.efn (es (F.hfn key % h.bucketsz)) key ≠ none ∧
            ∃ pre e post, es (F.hfn key % h.bucketsz) = pre ++ e :: post ∧ F.efn e.1 key ∧
              es' = pre ++ (e.1, elem) :: post ∧ h'.count = h.count) := by
  apply (hh.columns.put F key elem true true).mono
  intro h' ⟨hs, hcase⟩
  refine ⟨hs, ?_⟩
  rcases lookup_cases F.efn (es (F.hfn key % h.bucketsz)) key with
    ⟨hnone, hidx⟩ | ⟨pre, e, post, he, hek, hlook, hidx⟩
  · simp only [Function.comp_apply, hidx, hdup] at hcase
    exact ⟨(key', elem) :: es _, entries_update.2 hcase.2, .inl ⟨hnone, rfl, hcase.1⟩⟩
  · simp only [Function.comp_apply, hidx] at hcase
    refine ⟨_, entries_update.2 ?_, .inr ⟨by simp [hlook], pre, e, post, he, hek, rfl, hcase.1⟩⟩
    have hkeys : Function.update (List.map Prod.fst ∘ es) (F.hfn key % h.bucketsz)
        ((pre ++ (e.1, elem) :: post).map Prod.fst) = List.map Prod.fst ∘ es := by
      rw [Function.update_eq_self_iff, Function.comp_apply, he]
      simp
    rw [hkeys]
    simpa [he] using hcase.2

/-- `hmap_del` changes the bucket of the key only: the entry of the key goes, if there is one. -/
theorem Entries.del (hh : h.Entries es) (key : K) : Returns (hmapDel F h key) fun r =>
    SameCursor h r.2 ∧
      (lookup F.efn (es (F.hfn key % h.bucketsz)) key = none ∧ r = (false, h) ∨
        lookup F.efn (es (F.hfn key % h.bucketsz)) key ≠ none ∧ r.1 = true ∧
          r.2.count = h.count - 1 ∧
          ∃ pre e post, es (F.hfn key % h.bucketsz) = pre ++ e :: post ∧ F.efn e.1 key ∧
            r.2.Entries (Function.update es (F.hfn key % h.bucketsz) (pre ++ post))) := by
  apply (hh.columns.del F key).mono
  intro r ⟨hs, hcase⟩
  refine ⟨hs, ?_⟩
  rcases lookup_cases F.efn (es (F.hfn key % h.bucketsz)) key with
    ⟨hnone, hidx⟩ | ⟨pre, e, post, he, hek, hlook, hidx⟩
  · simp only [Function.comp_apply, hidx] at hcase
    exact .inl ⟨hnone, hcase⟩
  · simp only [Function.comp_apply, hidx] at hcase
    obtain ⟨htrue, hcount, hcols⟩ := hcase
    refine .inr ⟨by simp [hlook], htrue, hcount, pre, e, post, he, hek, entries_update.2 ?_⟩
    simpa [he, List.eraseIdx_append_of_length_le] using hcols

/-! ## The abstract map -/

/-- The hash map represents the map `m` on classes of keys. -/
def Represents (hF : F.Lawful) (h : Hmap K V) (m : ClassMap hF.equiv.setoid V) : Prop :=
  (∃ es, Holds F h es ∧
    ∀ k, m (Quotient.mk _ k) = lookup F.efn (es (F.hfn k % h.bucketsz)) k) ∧
  m.bound.Finite ∧ h.count = m.count

variable {hF : F.Lawful} {m m' : ClassMap hF.equiv.setoid V}

/-- A change of the bucket of `key` that affects the keys equal to it affects the map at their
class only. -/
theorem lookup_update (hF : F.Lawful) (n : ℕ) {key : K} {es' : List (K × V)} {r : Option V}
    (hes : ∀ k, lookup F.efn es' k =
      if F.efn key k then r else lookup F.efn (es (F.hfn key % n)) k) (k : K) :
    lookup F.efn (Function.update es (F.hfn key % n) es' (F.hfn k % n)) k =
      if F.efn key k then r else lookup F.efn (es (F.hfn k % n)) k := by
  by_cases hi : F.hfn k % n = F.hfn key % n
  · rw [hi, Function.update_self, hes]
  · rw [Function.update_of_ne hi, if_neg]
    exact fun hk => hi (by rw [hF.hash hk])

/-- A fresh map has no entries and is not iterated over. -/
theorem entries_init {n : ℕ} (hn : 1 ≤ n) : Returns (hmapInit n : Exec (Hmap K V)) fun h =>
    h.Entries (fun _ => []) ∧ h.count = 0 ∧ h.iterating = false :=
  (Columns.init hn).mono fun _ hh => ⟨entries_iff.2 hh.1, hh.2⟩

/-- A map without entries is empty. -/
theorem Entries.represents_empty (hF : F.Lawful) (hh : h.Entries fun _ => []) (hcount : h.count = 0) :
    Represents hF h fun _ => none :=
  ⟨⟨fun _ => [], ⟨hh, by simp, by simp [Distinct]⟩, fun _ => rfl⟩, by simp, by simp [hcount]⟩

theorem init_spec (hF : F.Lawful) {n : ℕ} (hn : 1 ≤ n) :
    Returns (hmapInit n : Exec (Hmap K V)) (Represents hF · fun _ => none) :=
  (entries_init hn).mono fun _ hh => hh.1.represents_empty hF hh.2.1

theorem Entries.clear (hh : h.Entries es) : Returns (hmapClear h) fun h' =>
    h'.Entries (fun _ => []) ∧ SameCursor h h' ∧ h'.count = 0 :=
  hh.columns.clear.mono fun _ hh' => ⟨entries_iff.2 hh'.1, hh'.2⟩

theorem clear_spec (hm : Represents hF h m) :
    Returns (hmapClear h) (Represents hF · fun _ => none) := by
  obtain ⟨⟨es, hh, -⟩, -⟩ := hm
  apply hh.toEntries.clear.mono
  intro h' ⟨hh', _, hcount⟩
  exact hh'.represents_empty hF hcount

theorem get_spec (hm : Represents hF h m) (key : K) :
    hmapGet F h key = .ok (m (Quotient.mk _ key)) := by
  obtain ⟨⟨es, hh, hes⟩, -⟩ := hm
  rw [hes, hh.toEntries.get]

/-- `hmap_put` binds the key to the value. -/
theorem put_spec (hm : Represents hF h m) (key : K) (elem : V) :
    Returns (hmapPut F h (some key) (some elem) true true)
      (Represents hF · (m.put key elem)) := by
  obtain ⟨⟨es, hh, hes⟩, hfin, hcount⟩ := hm
  have hi := hh.index_lt F key
  have hhash := hh.hash _ hi
  have hd := hh.distinct _ hi
  obtain ⟨key', hdup, hkey'⟩ := hF.dup key
  apply (hh.toEntries.put hdup elem).mono
  intro h' ⟨hs, es', hh', hcase⟩
  have hfin' : (m.put key elem).bound.Finite := by
    rw [ClassMap.bound_put]
    exact hfin.insert _
  -- what the new bucket must satisfy for the map to be the one with the key bound
  have hrep (hhash' : ∀ e ∈ es', F.hfn e.1 % h.bucketsz = F.hfn key % h.bucketsz)
      (hd' : Distinct F.efn es')
      (hlook : ∀ k, lookup F.efn es' k =
        if F.efn key k then some elem else lookup F.efn (es (F.hfn key % h.bucketsz)) k)
      (hcount' : h'.count = (m.put key elem).count) : Represents hF h' (m.put key elem) := by
    refine ⟨⟨_, hh.update hs hh' hhash' hd', fun k => ?_⟩, hfin', hcount'⟩
    rw [ClassMap.put_mk, hes, hs.bucketsz]
    exact (lookup_update hF _ hlook k).symm
  rcases hcase with ⟨hnone, rfl, hcount'⟩ | ⟨hsome, pre, e, post, he, hek, rfl, hcount'⟩
  · apply hrep
    · simpa [hF.hash hkey'] using hhash
    · refine List.pairwise_cons.2 ⟨fun e he => ?_, hd⟩
      rw [hF.equiv.congr_left hkey', hF.equiv.comm]
      exact lookup_eq_none.1 hnone e he
    · exact fun k => lookup_cons_of_eq (e := (key', elem)) hF.equiv hkey'
    · rw [hcount', ClassMap.count_put_of_unbound _ _ hfin (by rw [hes, hnone]), ← hcount]
  · rw [he] at hhash hd
    apply hrep
    · simpa [or_imp, forall_and] using hhash
    · simpa [Distinct, List.pairwise_append] using hd
    · rw [he]
      exact fun k => lookup_set hF.equiv hd hek
    · rw [hcount', ClassMap.count_put_of_bound _ _ (by rwa [hes]), hcount]

theorem del_spec (hm : Represents hF h m) (key : K) :
    Returns (hmapDel F h key) fun r =>
      r.1 = (m (Quotient.mk _ key)).isSome ∧ Represents hF r.2 (m.del key) := by
  have hm' := hm
  obtain ⟨⟨es, hh, hes⟩, hfin, hcount⟩ := hm
  have hi := hh.index_lt F key
  have hhash := hh.hash _ hi
  have hd := hh.distinct _ hi
  apply (hh.toEntries.del key).mono
  rintro ⟨b, h'⟩ ⟨hs, ⟨hnone, hr⟩ | ⟨hsome, rfl, hcount', pre, e, post, he, hek, hh'⟩⟩
  · obtain ⟨rfl, rfl⟩ := Prod.mk.inj hr
    rw [ClassMap.del_of_unbound _ (by rw [hes, hnone]), hes, hnone]
    exact ⟨rfl, hm'⟩
  · rw [he] at hhash hd
    have hsub : (pre ++ post).Sublist (pre ++ e :: post) := by simp
    have hbound : m (Quotient.mk _ key) ≠ none := by rwa [hes]
    refine ⟨(Option.isSome_iff_ne_none.2 hbound).symm, ⟨_, hh.update hs hh'
      (fun e' he' => hhash e' (hsub.subset he')) (hd.sublist hsub), fun k => ?_⟩, ?_, ?_⟩
    · rw [ClassMap.del_mk, hes, hs.bucketsz]
      refine (lookup_update hF _ (fun k => ?_) k).symm
      rw [he]
      exact lookup_erase hF.equiv hd hek
    · rw [ClassMap.bound_del]
      exact hfin.sdiff
    · rw [hcount', ClassMap.count_del_of_bound _ hbound, ← hcount]

/-- **Keys and values are aligned**: the two lists of a bucket have the same length, the value with
the index of a key is the one bound to it, and no two keys of the map are equal. -/
def Aligned (F : HmapFns K) (h : Hmap K V) : Prop :=
  ∃ (ks : ℕ → List K) (vs : ℕ → List V),
    (∀ i < h.bucketsz, BucketLists h.keybucket i (ks i) ∧ BucketLists h.valbucket i (vs i) ∧
      (ks i).length = (vs i).length ∧
      ∀ j (hj : j < (ks i).length), hmapGet F h (ks i)[j] = .ok (vs i)[j]?) ∧
    ∀ i < h.bucketsz, ∀ i' < h.bucketsz, ∀ j (hj : j < (ks i).length) j'
      (hj' : j' < (ks i').length), F.efn (ks i)[j] (ks i')[j'] → i = i' ∧ j = j'

theorem Represents.aligned (hm : Represents hF h m) : h.Aligned F := by
  obtain ⟨⟨es, hh, hes⟩, -⟩ := id hm
  refine ⟨fun i => (es i).map Prod.fst, fun i => (es i).map Prod.snd, fun i hi =>
    ⟨hh.keys hi, hh.vals hi, by simp, fun j hj => ?_⟩, ?_⟩
  · rw [List.length_map] at hj
    have hhash := hh.hash i hi _ (List.getElem_mem hj)
    rw [get_spec hm, hes]
    simp [hhash, lookup_getElem hF.equiv (hh.distinct i hi) hj, hj]
  · intro i hi i' hi' j hj j' hj' he
    rw [List.length_map] at hj hj'
    simp only [List.getElem_map] at he
    have hii : i = i' := by
      rw [← hh.hash i hi _ (List.getElem_mem hj), ← hh.hash i' hi' _ (List.getElem_mem hj'),
        hF.hash he]
    subst hii
    have hd := List.pairwise_iff_getElem.1 (hh.distinct i hi)
    refine ⟨rfl, ?_⟩
    rcases Nat.lt_trichotomy j j' with hlt | heq | hgt
    · simp [hd j j' hj hj' hlt] at he
    · exact heq
    · rw [hF.equiv.comm] at he
      simp [hd j' j hj' hj hgt] at he

end Hmap

/-! ## Runs -/

/-- The calls on a map. -/
inductive MapOp (K V : Type)
  | put (key : K) (elem : V)
  | get (key : K)
  | del (key : K)
  | clear
  | count

/-- What a call returns. -/
inductive MapOut (V : Type)
  | unit
  | value (v : Option V)
  | bool (b : Bool)
  | size (n : ℕ)

/-- A call on the hash map, with allocations succeeding. -/
def hmapStep (F : HmapFns K) (h : Hmap K V) : MapOp K V → Exec (MapOut V × Hmap K V)
  | .put key elem => do
    let h ← hmapPut F h (some key) (some elem) true true
    .ok (.unit, h)
  | .get key => do
    let v ← hmapGet F h key
    .ok (.value v, h)
  | .del key => do
    let (b, h) ← hmapDel F h key
    .ok (.bool b, h)
  | .clear => do
    let h ← hmapClear h
    .ok (.unit, h)
  | .count => .ok (.size (hmapCount h), h)

/-- A call on a finite map on the classes of keys. -/
noncomputable def mapSpec {F : HmapFns K} (hF : F.Lawful) (m : ClassMap hF.equiv.setoid V) :
    MapOp K V → MapOut V × ClassMap hF.equiv.setoid V
  | .put key elem => (.unit, m.put key elem)
  | .get key => (.value (m (Quotient.mk _ key)), m)
  | .del key => (.bool (m (Quotient.mk _ key)).isSome, m.del key)
  | .clear => (.unit, fun _ => none)
  | .count => (.size m.count, m)

/-- The call changes what is bound to `key`. -/
def MapOp.Touches (efn : K → K → Bool) (key : K) : MapOp K V → Prop
  | .put k _ => efn k key
  | .del k => efn k key
  | .clear => True
  | _ => False

/-- `elem` was bound to a key equal to `key` by a call after which no call changed that. -/
def LatestPut (efn : K → K → Bool) (ops : List (MapOp K V)) (key : K) (elem : V) : Prop :=
  ∃ pre k post, ops = pre ++ .put k elem :: post ∧ efn k key ∧
    ∀ op ∈ post, ¬ op.Touches efn key

theorem latestPut_concat {efn : K → K → Bool} {ops : List (MapOp K V)} {op : MapOp K V} {key : K}
    {elem : V} : LatestPut efn (ops ++ [op]) key elem ↔
      (∃ k, op = .put k elem ∧ efn k key) ∨ (LatestPut efn ops key elem ∧ ¬ op.Touches efn key) := by
  constructor
  · rintro ⟨pre, k, post, he, hk, hpost⟩
    rcases List.eq_nil_or_concat' post with rfl | ⟨post, op', rfl⟩
    · obtain ⟨-, h⟩ := List.append_inj' he rfl
      exact .inl ⟨k, by simpa using h, hk⟩
    · rw [← List.cons_append, ← List.append_assoc] at he
      obtain ⟨rfl, h⟩ := List.append_inj' he rfl
      obtain rfl : op = op' := by simpa using h
      exact .inr ⟨⟨pre, k, post, rfl, hk, fun op' h => hpost op' (by simp [h])⟩,
        hpost op (by simp)⟩
  · rintro (⟨k, rfl, hk⟩ | ⟨⟨pre, k, post, rfl, hk, hpost⟩, hop⟩)
    · exact ⟨ops, k, [], rfl, hk, by simp⟩
    · refine ⟨pre, k, post ++ [op], by simp, hk, fun op' h => ?_⟩
      rcases List.mem_append.1 h with h | h
      · exact hpost op' h
      · rwa [List.mem_singleton.1 h]

variable {F : HmapFns K}

/-- The map reached by a run binds a key to the value of its latest `put`. -/
theorem runSpec_mapSpec (hF : F.Lawful) (ops : List (MapOp K V)) (key : K) (elem : V) :
    (runSpec (mapSpec hF) (fun _ => none) ops).2 (Quotient.mk _ key) = some elem ↔
      LatestPut F.efn ops key elem := by
  induction ops using List.reverseRecOn with
  | nil => simp [LatestPut]
  | append_singleton ops op ih =>
    rw [runSpec_concat_snd, latestPut_concat, ← ih]
    cases op with
    | put k v =>
      simp only [mapSpec, ClassMap.put_mk]
      by_cases hk : F.efn k key <;> simp [MapOp.Touches, hk]
    | del k =>
      simp only [mapSpec, ClassMap.del_mk]
      by_cases hk : F.efn k key <;> simp [MapOp.Touches, hk]
    | get | clear | count => simp [mapSpec, MapOp.Touches]

/-- One call on a hash map does what it does on the map it represents. -/
theorem hmapStep_refines (hF : F.Lawful) (h : Hmap K V) (m : ClassMap hF.equiv.setoid V)
    (op : MapOp K V) (hm : h.Represents hF m) :
    Returns (hmapStep F h op) fun r =>
      r.1 = (mapSpec hF m op).1 ∧ r.2.Represents hF (mapSpec hF m op).2 := by
  cases op with
  | put key elem => exact (Hmap.put_spec hm key elem).bind fun h' hh' => .ok ⟨rfl, hh'⟩
  | get key =>
    simp only [hmapStep, Hmap.get_spec hm, ok_bind]
    exact .ok ⟨rfl, hm⟩
  | del key => exact (Hmap.del_spec hm key).bind fun r hr => .ok ⟨congrArg MapOut.bool hr.1, hr.2⟩
  | clear => exact (Hmap.clear_spec hm).bind fun h' hh' => .ok ⟨rfl, hh'⟩
  | count => exact .ok ⟨congrArg MapOut.size hm.2.2, hm⟩

/-- **The hash map is a finite map.** Every run of calls on a fresh hash map returns what it returns
on the empty map on classes of keys. In the state reached, `hmap_get` returns the value of the
latest `put` of an equal key, and keys and values are aligned. -/
theorem hmap_refines_map (hF : F.Lawful) {bucketsz : ℕ} (hsz : 1 ≤ bucketsz)
    (ops : List (MapOp K V)) :
    Returns (do let h ← hmapInit bucketsz; runs (hmapStep F) h ops) fun r =>
      r.1 = (runSpec (mapSpec hF) (fun _ => none) ops).1 ∧
      (∀ key, ∃ v, hmapGet F r.2 key = .ok v ∧
        ∀ elem, v = some elem ↔ LatestPut F.efn ops key elem) ∧
      r.2.Aligned F := by
  refine (Hmap.init_spec hF hsz).bind fun h hh => ?_
  refine (Returns.runs (mapSpec hF) (Hmap.Represents hF) (fun _ => True)
    (fun h m op _ hm => hmapStep_refines hF h m op hm) hh (by simp)).mono fun r hr => ?_
  exact ⟨hr.1, fun key => ⟨_, Hmap.get_spec hr.2 key, runSpec_mapSpec hF ops key⟩, hr.2.aligned⟩

/-- Keys that all collide, in a map with three buckets. -/
theorem hmap_refines_map_collisions :
    Returns (do
      let h ← hmapInit 3
      runs (hmapStep ⟨fun _ => 7, (· == ·), some⟩) h [.put 1 10, .put 2 20, .del 1, .put 2 30])
      fun r => r.2.Aligned (⟨fun _ => 7, (· == ·), some⟩ : HmapFns ℕ) := by
  have hF : (⟨fun _ => 7, (· == ·), some⟩ : HmapFns ℕ).Lawful :=
    ⟨⟨by simp, by simp, by simp⟩, fun _ => rfl, by simp⟩
  exact (hmap_refines_map (V := ℕ) hF (by decide) _).mono fun r hr => hr.2.2

end LibSrsBsns
