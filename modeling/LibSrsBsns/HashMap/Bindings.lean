import LibSrsBsns.HashMap.Iteration

/-!
# The iteration of a map that does not change

From `hmap_first` on the iteration passes the entries of all buckets (`Entries.walk`). No two of their
keys are equal, and each bound key is among them, so a map that is left alone meanwhile returns each
of its bindings once, and `false` after as many calls as it has bindings (`hmap_iteration_complete`).
-/

namespace LibSrsBsns

open C AssocList

variable {K V : Type}

namespace Hmap

variable {F : HmapFns K} {h : Hmap K V} {es : ℕ → List (K × V)}

/-- The bindings of the map, in the order of the buckets and in each of them in the order of its
lists. -/
structure Bindings (F : HmapFns K) (h : Hmap K V) (bs : List (K × V)) : Prop where
  distinct : Distinct F.efn bs
  bound : ∀ k v, hmapGet F h k = .ok (some v) ↔ ∃ b ∈ bs, F.efn b.1 k ∧ b.2 = v
  count : hmapCount h = bs.length

/-- `hmap_first` and then `hmap_next` return the bindings one by one, and after that `false` as often
as they are asked. -/
def IteratesOnce (F : HmapFns K) (h : Hmap K V) : Prop :=
  ∃ bs, h.Bindings F bs ∧ ∀ n, Returns
    (runs (hmapCall F) h (.first :: List.replicate (hmapCount h + n) .next)) fun r =>
      Yields bs (n + 1) r.1

theorem mem_rest_zero {n : ℕ} {e : K × V} : e ∈ rest es n 0 ↔ ∃ i < n, e ∈ es i := by
  refine ⟨mem_rest, fun ⟨i, hi, he⟩ => List.mem_flatMap.2 ⟨i, ?_, he⟩⟩
  rw [List.mem_range'_1]
  omega

/-- No two keys of the map are equal, also in different buckets. -/
theorem Holds.distinct_rest (hF : F.Lawful) (hh : Holds F h es) :
    Distinct F.efn (rest es h.bucketsz 0) := by
  have hlt {i : ℕ} (hi : i ∈ List.range' 0 (h.bucketsz - 0)) : i < h.bucketsz := by
    rw [List.mem_range'_1] at hi
    omega
  refine List.pairwise_flatMap.2 ⟨fun i hi => hh.distinct i (hlt hi), ?_⟩
  refine List.Pairwise.imp_of_mem (fun {i j} hi hj hij e he e' he' => ?_) List.pairwise_lt_range'
  by_contra hne
  have hhash := hF.hash (Bool.eq_true_of_not_eq_false hne)
  have hi := hh.hash i (hlt hi) e he
  have hj := hh.hash j (hlt hj) e' he'
  rw [hhash, hj] at hi
  omega

/-- A key is bound to the value of the entry whose key is equal to it, in whichever bucket. -/
theorem Holds.bound_iff (hF : F.Lawful) (hh : Holds F h es) (k : K) (v : V) :
    lookup F.efn (es (F.hfn k % h.bucketsz)) k = some v ↔
      ∃ e ∈ rest es h.bucketsz 0, F.efn e.1 k ∧ e.2 = v := by
  have hi := hh.index_lt F k
  rw [lookup_eq_some hF.equiv (hh.distinct _ hi)]
  constructor
  · rintro ⟨e, he, hk⟩
    exact ⟨e, mem_rest_zero.2 ⟨_, hi, he⟩, hk⟩
  · rintro ⟨e, he, hk, rfl⟩
    obtain ⟨j, hj, he⟩ := mem_rest_zero.1 he
    have hhash := hh.hash j hj e he
    rw [hF.hash hk] at hhash
    exact ⟨e, hhash ▸ he, hk, rfl⟩

theorem Represents.bindings {hF : F.Lawful} {m : ClassMap hF.equiv.setoid V}
    (hm : Represents hF h m) : ∃ es, h.Entries es ∧ h.Bindings F (rest es h.bucketsz 0) := by
  obtain ⟨⟨es, hh, hes⟩, hfin, hcount⟩ := hm
  have hd := hh.distinct_rest hF
  refine ⟨es, hh.toEntries, hd, fun k v => ?_, ?_⟩
  · rw [hh.toEntries.get, Except.ok.injEq, hh.bound_iff hF]
  · refine hcount.trans (ClassMap.count_eq_length hd fun k => ?_)
    rw [hes, Option.ne_none_iff_exists']
    constructor
    · rintro ⟨v, hv⟩
      obtain ⟨e, he, hk, -⟩ := (hh.bound_iff hF k v).1 hv
      exact ⟨e, he, hk⟩
    · rintro ⟨e, he, hk⟩
      exact ⟨e.2, (hh.bound_iff hF k e.2).2 ⟨e, he, hk, rfl⟩⟩

/-- `hmap_first` starts the walk through the entries. -/
theorem Entries.walk_first (F : HmapFns K) {bs : List (K × V)} (hh : h.Entries es)
    (hbs : rest es h.bucketsz 0 = bs) (n : ℕ) : Returns
      (runs (hmapCall F) h (.first :: List.replicate (bs.length + n) .next)) fun r =>
        Yields bs (n + 1) r.1 := by
  obtain ⟨⟨⟨b, o⟩, h'⟩, hr, hadv⟩ := hh.first
  rw [hbs] at hadv
  have hh' := hadv.entries hh
  simp only [runs, hmapCall, hr, ok_bind]
  cases bs with
  | nil =>
    obtain rfl : b = false := hadv.head
    apply (hh'.walk F hadv.lt hadv.tail n).bind
    intro r hr
    exact .ok (hr.succ o)
  | cons e bs =>
    obtain rfl : b = true := hadv.head
    obtain rfl : o = some (some e.1, some e.2) := hadv.data e rfl
    rw [List.length_cons, Nat.add_assoc, Nat.add_comm 1]
    apply (hh'.walk F hadv.lt hadv.tail (n + 1)).bind
    intro r hr
    exact .ok (hr.cons e)

theorem Represents.iteratesOnce {hF : F.Lawful} {m : ClassMap hF.equiv.setoid V}
    (hm : Represents hF h m) : h.IteratesOnce F := by
  obtain ⟨es, hh, hbs⟩ := hm.bindings
  refine ⟨_, hbs, fun n => ?_⟩
  rw [hbs.count]
  exact hh.walk_first F rfl n

/-- A map without buckets has no bindings. -/
theorem iteratesOnce_no_buckets (F : HmapFns K) {h : Hmap K V} (hinit : hmapInit 0 = .ok h) :
    h.IteratesOnce F := by
  obtain rfl := Except.ok.inj hinit
  refine ⟨[], ⟨.nil, fun k v => ⟨nofun, nofun⟩, rfl⟩, fun n => ?_⟩
  rw [hmapCount, Nat.zero_add, runs]
  apply (yields_of_not_iterating F rfl n).bind
  intro r hr
  exact .ok (hr.succ _)

end Hmap

/-- **The iteration of a hash map is complete.** In every state of every run on a fresh map: as long
as the map is left alone, `hmap_first` and the calls of `hmap_next` that follow return each binding
once, the key with its value, `hmap_count` of them in all, and from then on `false`. -/
theorem hmap_iteration_complete {F : HmapFns K} (hF : F.Lawful) (bucketsz : ℕ)
    (calls : List (HmapCall K V)) : Returns (hmapInit bucketsz : Exec (Hmap K V)) fun h =>
      Throughout (hmapCall F) (fun e => bucketsz = 0 ∧ e = .divByZero) (Hmap.IteratesOnce F) h
        calls := by
  apply hmapCall_throughout (hF.isSome_dup) fun h hinit => Hmap.iteratesOnce_no_buckets F hinit
  intro h hl
  obtain ⟨m, hm⟩ := hl.represents hF
  exact hm.iteratesOnce

/-- Two keys in one bucket, one in another, and buckets that were never used or are empty again. -/
theorem hmap_iteration_complete_mutated : Returns (hmapInit 5 : Exec (Hmap ℕ ℕ)) fun h =>
    Throughout (hmapCall ⟨(· % 5), (· == ·), some⟩) (fun e => 5 = 0 ∧ e = .divByZero)
      (Hmap.IteratesOnce ⟨(· % 5), (· == ·), some⟩) h
      [.op (.put 1 10), .op (.put 6 60), .op (.put 2 20), .op (.put 3 30), .op (.del 2)] := by
  have hF : (⟨(· % 5), (· == ·), some⟩ : HmapFns ℕ).Lawful :=
    ⟨⟨by simp, by simp, by simp⟩, by simp, by simp⟩
  exact hmap_iteration_complete hF 5 _

end LibSrsBsns
