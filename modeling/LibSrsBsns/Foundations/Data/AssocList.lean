import Mathlib.Data.List.Basic
import Mathlib.Data.Set.Card

/-!
# Finite maps on the classes of an equivalence

A comparison `efn : K → K → Bool` of keys that is an equivalence (`IsEquivFn`) makes a map on its
classes: `ClassMap`. Association lists whose keys are pairwise different represent such maps by
`lookup`, and the three changes of a list that a bucket of a hash table goes through (a new pair in
front, another value for a pair, a pair less) change the map at one class only.
-/

namespace LibSrsBsns

variable {K V : Type}

/-- The Boolean comparison `efn` is an equivalence relation. -/
structure IsEquivFn (efn : K → K → Bool) : Prop where
  refl : ∀ k, efn k k
  symm : ∀ {k l}, efn k l → efn l k
  trans : ∀ {k l m}, efn k l → efn l m → efn k m

namespace IsEquivFn

variable {efn : K → K → Bool} {k l m : K}

/-- The equivalence as a setoid. -/
def setoid (h : IsEquivFn efn) : Setoid K where
  r k l := efn k l
  iseqv := ⟨h.refl, h.symm, h.trans⟩

theorem mk_eq_mk (h : IsEquivFn efn) :
    (Quotient.mk h.setoid k = Quotient.mk h.setoid l) ↔ efn k l :=
  Quotient.eq (r := h.setoid)

theorem comm (h : IsEquivFn efn) : efn k l = efn l k := by
  rw [Bool.eq_iff_iff]
  exact ⟨h.symm, h.symm⟩

theorem congr_left (h : IsEquivFn efn) (hkl : efn k l) : efn k m = efn l m := by
  rw [Bool.eq_iff_iff]
  exact ⟨h.trans (h.symm hkl), h.trans hkl⟩

theorem congr_right (h : IsEquivFn efn) (hkl : efn k l) : efn m k = efn m l := by
  rw [h.comm, h.congr_left hkl, h.comm]

end IsEquivFn

/-! ## Association lists -/

namespace AssocList

variable {efn : K → K → Bool} {es pre post : List (K × V)} {e : K × V} {k l : K} {v : V}

/-- The value of the first key equal to `k`. -/
def lookup (efn : K → K → Bool) (es : List (K × V)) (k : K) : Option V :=
  (es.find? fun e => efn e.1 k).map Prod.snd

/-- No two of the keys are equal. -/
def Distinct (efn : K → K → Bool) (es : List (K × V)) : Prop :=
  es.Pairwise fun e e' => efn e.1 e'.1 = false

@[simp] theorem lookup_nil : lookup efn ([] : List (K × V)) k = none := rfl

theorem lookup_cons : lookup efn (e :: es) k = if efn e.1 k then some e.2 else lookup efn es k := by
  unfold lookup
  rw [List.find?_cons]
  cases efn e.1 k <;> rfl

theorem lookup_append (h : ∀ e ∈ pre, efn e.1 k = false) :
    lookup efn (pre ++ es) k = lookup efn es k := by
  induction pre with
  | nil => rfl
  | cons e pre ih =>
    rw [List.cons_append, lookup_cons, if_neg (by simp [h e]), ih fun e' he' => h e' (by simp [he'])]

theorem lookup_eq_none : lookup efn es k = none ↔ ∀ e ∈ es, efn e.1 k = false := by
  simp [lookup]

/-- The index of a key splits the list at the pair with that key. -/
theorem exists_split {i : ℕ} (h : (es.map Prod.fst).findIdx? (efn · k) = some i) :
    ∃ pre e post, es = pre ++ e :: post ∧ pre.length = i ∧ efn e.1 k ∧
      ∀ e' ∈ pre, efn e'.1 k = false := by
  rw [List.findIdx?_eq_some_iff_getElem] at h
  obtain ⟨hi, hp, hlt⟩ := h
  rw [List.length_map] at hi
  refine ⟨es.take i, es[i], es.drop (i + 1), by simp, by simp; omega, by simpa using hp, ?_⟩
  intro e' he'
  obtain ⟨j, hj, rfl⟩ := List.mem_iff_getElem.1 he'
  simpa using hlt j (by simp at hj; omega)

/-- Looking a key up and finding its index. -/
theorem lookup_cases (efn : K → K → Bool) (es : List (K × V)) (k : K) :
    lookup efn es k = none ∧ (es.map Prod.fst).findIdx? (efn · k) = none ∨
      ∃ pre e post, es = pre ++ e :: post ∧ efn e.1 k ∧ lookup efn es k = some e.2 ∧
        (es.map Prod.fst).findIdx? (efn · k) = some pre.length := by
  cases hi : (es.map Prod.fst).findIdx? (efn · k) with
  | none => exact .inl ⟨by simpa [lookup_eq_none] using hi, rfl⟩
  | some i =>
    obtain ⟨pre, e, post, rfl, rfl, hek, hpre⟩ := exists_split hi
    exact .inr ⟨pre, e, post, rfl, hek, by rw [lookup_append hpre, lookup_cons, if_pos hek], rfl⟩

/-- A pair whose key is not equal to `k` does not matter. -/
theorem lookup_of_ne (hk : efn e.1 k = false) :
    lookup efn (pre ++ e :: post) k = lookup efn (pre ++ post) k := by
  induction pre with
  | nil => simp [lookup_cons, hk]
  | cons e' pre ih => simp only [List.cons_append, lookup_cons, ih]

variable (h : IsEquivFn efn)
include h

/-- In a list of distinct keys, the keys around an occurrence of `k` are different from it. -/
theorem Distinct.split (hd : Distinct efn (pre ++ e :: post)) (hk : efn e.1 k) :
    (∀ e' ∈ pre, efn e'.1 k = false) ∧ ∀ e' ∈ post, efn e'.1 k = false := by
  rw [Distinct, List.pairwise_append, List.pairwise_cons] at hd
  refine ⟨fun e' he' => ?_, fun e' he' => ?_⟩
  · rw [← h.congr_right hk]
    exact hd.2.2 e' he' e (by simp)
  · rw [← h.congr_right hk, h.comm]
    exact hd.2.1.1 e' he'

theorem lookup_split (hd : Distinct efn (pre ++ e :: post)) (hk : efn e.1 k) :
    lookup efn (pre ++ e :: post) k = some e.2 := by
  rw [lookup_append (hd.split h hk).1, lookup_cons, if_pos hk]

theorem lookup_getElem (hd : Distinct efn es) {j : ℕ} (hj : j < es.length) :
    lookup efn es es[j].1 = some es[j].2 := by
  have hsplit : lookup efn (es.take j ++ es[j] :: es.drop (j + 1)) es[j].1 = some es[j].2 :=
    lookup_split h (by simpa using hd) (h.refl _)
  simpa using hsplit

/-- What is found is a pair of the list. -/
theorem lookup_eq_some (hd : Distinct efn es) :
    lookup efn es k = some v ↔ ∃ e ∈ es, efn e.1 k ∧ e.2 = v := by
  constructor
  · intro hl
    obtain ⟨e, he, rfl⟩ := Option.map_eq_some_iff.1 hl
    have hk := List.find?_some (p := fun e : K × V => efn e.1 k) he
    exact ⟨e, List.mem_of_find?_eq_some he, hk, rfl⟩
  · rintro ⟨e, he, hk, rfl⟩
    obtain ⟨pre, post, rfl⟩ := List.append_of_mem he
    exact lookup_split h hd hk

/-! ### The changes of a list -/

/-- A new pair in front, with a key equal to `k`. -/
theorem lookup_cons_of_eq (hk : efn e.1 k) :
    lookup efn (e :: es) l = if efn k l then some e.2 else lookup efn es l := by
  rw [lookup_cons, h.congr_left hk]

/-- Another value for the pair with a key equal to `k`. -/
theorem lookup_set (hd : Distinct efn (pre ++ e :: post)) (hk : efn e.1 k) :
    lookup efn (pre ++ (e.1, v) :: post) l =
      if efn k l then some v else lookup efn (pre ++ e :: post) l := by
  split
  case isTrue hl =>
    have hel : efn e.1 l := h.trans hk hl
    rw [lookup_append (hd.split h hel).1, lookup_cons, if_pos hel]
  case isFalse hl =>
    have hel : efn e.1 l = false := by rw [h.congr_left hk]; simpa using hl
    rw [lookup_of_ne hel, lookup_of_ne (e := (e.1, v)) hel]

/-- The pair with a key equal to `k` is taken out. -/
theorem lookup_erase (hd : Distinct efn (pre ++ e :: post)) (hk : efn e.1 k) :
    lookup efn (pre ++ post) l = if efn k l then none else lookup efn (pre ++ e :: post) l := by
  split
  case isTrue hl =>
    have hs := hd.split h (h.trans hk hl)
    exact lookup_eq_none.2 fun e' he' => (List.mem_append.1 he').elim (hs.1 e') (hs.2 e')
  case isFalse hl =>
    rw [lookup_of_ne (e := e) (by rw [h.congr_left hk]; simpa using hl)]

end AssocList

/-! ## Maps on classes -/

/-- A map that gives equal keys the same value. -/
abbrev ClassMap (s : Setoid K) (V : Type) := Quotient s → Option V

namespace ClassMap

variable {efn : K → K → Bool} {h : IsEquivFn efn} (m : ClassMap h.setoid V) (k l : K) (v : V)

open Classical in
/-- Bind the class of `k` to `v`. -/
noncomputable def put : ClassMap h.setoid V :=
  fun c => if c = Quotient.mk _ k then some v else m c

open Classical in
/-- Unbind the class of `k`. -/
noncomputable def del : ClassMap h.setoid V := fun c => if c = Quotient.mk _ k then none else m c

/-- The classes that are bound. -/
def bound : Set (Quotient h.setoid) := {c | m c ≠ none}

/-- The number of classes that are bound. -/
noncomputable def count : ℕ := m.bound.ncard

theorem put_mk : m.put k v (Quotient.mk _ l) = if efn k l then some v else m (Quotient.mk _ l) := by
  simp only [put, h.mk_eq_mk, h.comm (k := l)]

theorem del_mk : m.del k (Quotient.mk _ l) = if efn k l then none else m (Quotient.mk _ l) := by
  simp only [del, h.mk_eq_mk, h.comm (k := l)]

theorem bound_put : (m.put k v).bound = insert (Quotient.mk _ k) m.bound := by
  ext c
  by_cases hc : c = Quotient.mk _ k
  · simp [bound, put, hc]
  · simp [bound, put, hc]

theorem bound_del : (m.del k).bound = m.bound \ {Quotient.mk _ k} := by
  ext c
  by_cases hc : c = Quotient.mk _ k
  · simp [bound, del, hc]
  · simp [bound, del, hc]

variable {m}

theorem count_put_of_unbound (hf : m.bound.Finite) (hk : m (Quotient.mk _ k) = none) :
    (m.put k v).count = m.count + 1 := by
  rw [count, bound_put, Set.ncard_insert_of_notMem (by simpa [bound] using hk) hf, count]

theorem count_put_of_bound (hk : m (Quotient.mk _ k) ≠ none) : (m.put k v).count = m.count := by
  rw [count, bound_put, Set.insert_eq_of_mem hk, count]

theorem count_del_of_bound (hk : m (Quotient.mk _ k) ≠ none) :
    (m.del k).count = m.count - 1 := by
  rw [count, bound_del, Set.ncard_sdiff_singleton_of_mem hk, count]

theorem del_of_unbound (hk : m (Quotient.mk _ k) = none) : m.del k = m := by
  funext c
  by_cases hc : c = Quotient.mk _ k
  · simp [del, hc, hk]
  · simp [del, hc]

/-- The pairs of a list are counted, if the map has one for every class that is bound. -/
theorem count_eq_length {es : List (K × V)} (hd : AssocList.Distinct efn es)
    (hes : ∀ k, m (Quotient.mk _ k) ≠ none ↔ ∃ e ∈ es, efn e.1 k) : m.count = es.length := by
  classical
  have hnodup : (es.map fun e => Quotient.mk h.setoid e.1).Nodup := by
    refine List.pairwise_map.2 (hd.imp fun {e e'} hne heq => ?_)
    rw [h.mk_eq_mk, hne] at heq
    cases heq
  have hbound : m.bound = (es.map fun e => Quotient.mk h.setoid e.1).toFinset := by
    ext c
    obtain ⟨k, rfl⟩ := Quotient.exists_rep c
    simp only [bound, Set.mem_ofPred_eq, hes, List.coe_toFinset, List.mem_map, h.mk_eq_mk]
  rw [count, hbound, Set.ncard_coe_finset, List.toFinset_card_of_nodup hnodup, List.length_map]

@[simp] theorem bound_none : bound (fun _ => none : ClassMap h.setoid V) = ∅ := by
  simp [bound]

@[simp] theorem count_none : count (fun _ => none : ClassMap h.setoid V) = 0 := by
  simp [count]

end ClassMap

end LibSrsBsns
