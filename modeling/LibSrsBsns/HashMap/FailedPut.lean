import LibSrsBsns.HashMap.Refinement

/-!
# When `hmap_put` fails

`hmap_put` inserts a copy of a new key into one list of its bucket and the value into another, and
counts the key, whether or not the copy was made and the two insertions succeeded. A put that fails
is therefore always counted, and if one of the insertions takes place without the other, the keys and
the values of the bucket are no longer aligned (`hmap_put_failure_is_counted`).
-/

namespace LibSrsBsns

open C AssocList

variable {K V α : Type}

/-- `hmap_put` of a key of which `keydupfn` returns the copy `keydup`. -/
def hmapTryPut (F : HmapFns K) (h : Hmap K V) (key : K) (elem : V) (keydup : Option K)
    (kok vok : Bool) : Exec (Hmap K V) :=
  hmapPut { F with keydupfn := fun _ => keydup } h (some key) (some elem) kok vok

/-- A call on a map with what becomes of its allocations: the copy that `keydupfn` returns, and
whether there is room for the list node of the key and for that of the value. -/
structure HmapTry (K V : Type) where
  op : MapOp K V
  keydup : Option K
  kok : Bool
  vok : Bool

def hmapTry (F : HmapFns K) (h : Hmap K V) (t : HmapTry K V) : Exec (MapOut V × Hmap K V) :=
  match t.op with
  | .put key elem => do
    let h ← hmapTryPut F h key elem t.keydup t.kok t.vok
    .ok (.unit, h)
  | op => hmapStep F h op

namespace Hmap

/-- No key of the map is equal to `key`. -/
def Absent (F : HmapFns K) (h : Hmap K V) (key : K) : Prop :=
  ∀ ks, BucketLists h.keybucket (F.hfn key % h.bucketsz) ks → ∀ k ∈ ks, F.efn k key = false

/-- The map `h'` is what `h` was. -/
structure LeftAlone (F : HmapFns K) (h h' : Hmap K V) : Prop where
  get : ∀ key, hmapGet F h' key = hmapGet F h key
  count : hmapCount h' = hmapCount h
  aligned : h.Aligned F → h'.Aligned F

variable {F : HmapFns K} {h h' : Hmap K V} {ks : ℕ → List K} {vs : ℕ → List V} {i : ℕ}

theorem BucketLists.unique {b : Buffer (Option (PtrList α))} {xs ys : List α}
    (hx : BucketLists b i xs) (hy : BucketLists b i ys) : xs = ys := by
  rcases hx with ⟨hc, rfl⟩ | ⟨l, hc, hl⟩
  · rcases hy with ⟨-, rfl⟩ | ⟨l', hc', -⟩
    · rfl
    · rw [hc] at hc'
      cases hc'
  · rcases hy with ⟨hc', -⟩ | ⟨l', hc', hl'⟩
    · rw [hc] at hc'
      cases hc'
    · rw [hc] at hc'
      obtain rfl := Option.some.inj (Option.some.inj hc')
      exact hl.unique hl'

/-- Every call keeps the two lists of a bucket, whatever fails. -/
theorem Columns.hmapTry (hc : h.Columns ks vs) (F : HmapFns K) (t : HmapTry K V) :
    Returns (hmapTry F h t) fun r => ∃ ks vs, r.2.Columns ks vs := by
  obtain ⟨op, keydup, kok, vok⟩ := t
  cases op with
  | put key elem =>
    apply (hc.put { F with keydupfn := fun _ => keydup } key elem kok vok).bind
    intro h' htry
    obtain ⟨_, hcase⟩ := htry
    split at hcase
    case h_1 => exact .ok ⟨_, _, hcase.2⟩
    case h_2 => exact .ok ⟨_, _, hcase.2⟩
  | get key =>
    simp only [LibSrsBsns.hmapTry, hmapStep, hc.get, ok_bind]
    exact .ok ⟨ks, vs, hc⟩
  | del key =>
    apply (hc.del F key).bind
    intro r hr
    obtain ⟨_, hcase⟩ := hr
    split at hcase
    case h_1 =>
      rw [hcase]
      exact .ok ⟨ks, vs, hc⟩
    case h_2 => exact .ok ⟨_, _, hcase.2.2⟩
  | clear =>
    apply hc.clear.bind
    intro h' hclear
    obtain ⟨hc', _⟩ := hclear
    exact .ok ⟨_, _, hc'⟩
  | count => exact .ok ⟨ks, vs, hc⟩

/-- The columns after `hmap_put` of a new key. -/
theorem Columns.tryPut (hc : h.Columns ks vs) {key : K} (hnew : h.Absent F key) (elem : V)
    (keydup : Option K) (kok vok : Bool) : Returns (hmapTryPut F h key elem keydup kok vok) fun h' =>
      h'.bucketsz = h.bucketsz ∧ hmapCount h' = hmapCount h + 1 ∧ h'.Columns
        (Function.update ks (F.hfn key % h.bucketsz) (taken keydup kok ++ ks (F.hfn key % h.bucketsz)))
        (Function.update vs (F.hfn key % h.bucketsz)
          (taken (some elem) vok ++ vs (F.hfn key % h.bucketsz))) := by
  have hnone : (ks (F.hfn key % h.bucketsz)).findIdx? (F.efn · key) = none :=
    List.findIdx?_eq_none_iff.2 (hnew _ (hc.keys (hc.index_lt F key)))
  apply (hc.put { F with keydupfn := fun _ => keydup } key elem kok vok).mono
  intro h' ⟨hs, hcase⟩
  simp only [hnone] at hcase
  exact ⟨hs.bucketsz, hcase⟩

/-- Aligned columns have the same length. -/
theorem Columns.length_eq (hc : h.Columns ks vs) (ha : h.Aligned F) (hi : i < h.bucketsz) :
    (ks i).length = (vs i).length := by
  obtain ⟨ks', vs', hlists, -⟩ := ha
  obtain ⟨hk, hv, hlen, -⟩ := hlists i hi
  rw [(hc.keys hi).unique hk, (hc.vals hi).unique hv, hlen]

/-- A map with the same columns. -/
theorem Columns.leftAlone (hc : h.Columns ks vs) (hc' : h'.Columns ks vs)
    (hsz : h'.bucketsz = h.bucketsz) (F : HmapFns K) :
    (∀ key, hmapGet F h' key = hmapGet F h key) ∧ (h.Aligned F → h'.Aligned F) := by
  have hget (key : K) : hmapGet F h' key = hmapGet F h key := by
    rw [hc.get, hc'.get, hsz]
  refine ⟨hget, ?_⟩
  rintro ⟨ks', vs', hlists, hinj⟩
  refine ⟨ks', vs', fun i hi => ?_, hsz ▸ hinj⟩
  rw [hsz] at hi
  obtain ⟨hk, hv, hlen, hvals⟩ := hlists i hi
  have hi' : i < h'.bucketsz := hsz ▸ hi
  refine ⟨?_, ?_, hlen, fun j hj => (hget _).trans (hvals j hj)⟩
  · rw [← (hc.keys hi).unique hk]
    exact hc'.keys hi'
  · rw [← (hc.vals hi).unique hv]
    exact hc'.vals hi'

/-- What `hmap_put` of a new key does to the map where something fails, and `nothing` says whether
nothing was inserted at all: the key is counted, and unless nothing was inserted the map does not stay
aligned. -/
structure Miscounts (F : HmapFns K) (h : Hmap K V) (nothing : Prop) (h' : Hmap K V) : Prop where
  count : hmapCount h' = hmapCount h + 1
  get : nothing → ∀ key, hmapGet F h' key = hmapGet F h key
  aligned : h.Aligned F → (h'.Aligned F ↔ nothing)

theorem Columns.miscounts (hc : h.Columns ks vs) {key : K} (hnew : h.Absent F key) (elem : V)
    {keydup : Option K} {kok vok : Bool} (hfail : keydup = none ∨ kok = false ∨ vok = false) :
    Returns (hmapTryPut F h key elem keydup kok vok)
      (h.Miscounts F ((keydup = none ∨ kok = false) ∧ vok = false)) := by
  apply (hc.tryPut hnew elem keydup kok vok).mono
  intro h' ⟨hsz, hcount, hc'⟩
  have hsame (hnothing : (keydup = none ∨ kok = false) ∧ vok = false) :
      (∀ key, hmapGet F h' key = hmapGet F h key) ∧ (h.Aligned F → h'.Aligned F) := by
    rw [(taken_eq_nil keydup kok).2 hnothing.1, (taken_eq_nil _ vok).2 (.inr hnothing.2),
      List.nil_append, List.nil_append, Function.update_eq_self, Function.update_eq_self] at hc'
    exact hc.leftAlone hc' hsz F
  refine ⟨hcount, fun hnothing => (hsame hnothing).1, fun ha => ⟨fun ha' => ?_, fun hnothing =>
    (hsame hnothing).2 ha⟩⟩
  -- both lists of the bucket have grown by as much
  have hi := hc.index_lt F key
  have hlen := hc.length_eq ha hi
  have hi' : F.hfn key % h.bucketsz < h'.bucketsz := lt_of_lt_of_eq hi hsz.symm
  have hlen' := hc'.length_eq ha' hi'
  rw [Function.update_self, Function.update_self, List.length_append, List.length_append, hlen,
    Nat.add_right_cancel_iff] at hlen'
  cases vok with
  | false => exact ⟨(taken_eq_nil keydup kok).1 (List.length_eq_zero_iff.1 hlen'), rfl⟩
  | true =>
    have hk : keydup = none ∨ kok = false := by simpa using hfail
    rw [(taken_eq_nil keydup kok).2 hk] at hlen'
    cases hlen'

/-- A map without buckets has no place for a key. -/
theorem hmapTry_no_buckets (F : HmapFns K) {h : Hmap K V} (hinit : hmapInit 0 = .ok h)
    (t : HmapTry K V) : Ends (hmapTry F h t) (fun r => r.2 = h) (· = .divByZero) := by
  obtain rfl := Except.ok.inj hinit
  obtain ⟨op, _, _, _⟩ := t
  cases op <;> exact rfl

end Hmap

variable {F : HmapFns K} {h₀ h : Hmap K V} {ts : List (HmapTry K V)} {outs : List (MapOut V)}

/-- **A put that fails is counted.** Whatever failed before: after `hmap_put` of a new key during which
the copy of the key or the allocation of a list node fails, the map is never what it was before, since
`hmap_count` is one more. Only if neither of the two nodes was inserted does `hmap_get` return what it
returned before and do the lists of the bucket remain aligned. -/
theorem hmap_put_failure_is_counted {bucketsz : ℕ} (hinit : hmapInit bucketsz = .ok h₀)
    (hruns : runs (hmapTry F) h₀ ts = .ok (outs, h)) {key : K} (hnew : h.Absent F key) (elem : V)
    {keydup : Option K} {kok vok : Bool} (hfail : keydup = none ∨ kok = false ∨ vok = false) :
    ¬ Returns (hmapTryPut F h key elem keydup kok vok) (h.LeftAlone F) ∧
      (1 ≤ bucketsz → Returns (hmapTryPut F h key elem keydup kok vok)
        (h.Miscounts F ((keydup = none ∨ kok = false) ∧ vok = false))) := by
  rcases Nat.eq_zero_or_pos bucketsz with rfl | hsz
  · refine ⟨?_, by omega⟩
    have hh : hmapInit 0 = .ok h := by
      apply runs_invariant (fun h => hmapInit 0 = .ok h) ?_ hinit hruns
      intro h t o h' hh hstep
      have hends := Hmap.hmapTry_no_buckets F hh t
      rw [hstep] at hends
      obtain rfl : h' = h := hends
      exact hh
    obtain rfl := Except.ok.inj hh
    rintro ⟨h', hput, -⟩
    cases hput
  · have hcols : ∃ ks vs, h.Columns ks vs := by
      apply runs_invariant (fun h => ∃ ks vs, h.Columns ks vs) ?_ ?_ hruns
      · intro h t o h' ⟨ks, vs, hc⟩ hstep
        exact (hc.hmapTry F t).of_eq_ok hstep
      · exact ⟨_, _, ((Hmap.Columns.init hsz).of_eq_ok hinit).1⟩
    obtain ⟨ks, vs, hc⟩ := hcols
    have hput := hc.miscounts hnew elem hfail
    refine ⟨?_, fun _ => hput⟩
    rintro ⟨h', hok, hleft⟩
    have hcount := (hput.of_eq_ok hok).count
    rw [hleft.count] at hcount
    omega

/-- The first key goes to the only bucket. The copy of the second fails, and the first key has the
value of the second. -/
theorem not_leftAlone_of_failed_copy :
    ∃ h₀ h h' : Hmap ℕ ℕ, hmapInit 1 = .ok h₀ ∧
      runs (hmapTry ⟨fun _ => 0, (· == ·), some⟩) h₀ [⟨.put 1 10, some 1, true, true⟩] =
        .ok ([.unit], h) ∧
      hmapTryPut ⟨fun _ => 0, (· == ·), some⟩ h 2 20 none true true = .ok h' ∧
      hmapGet ⟨fun _ => 0, (· == ·), some⟩ h 1 = .ok (some 10) ∧
      hmapGet ⟨fun _ => 0, (· == ·), some⟩ h' 1 = .ok (some 20) ∧
      ¬ h.LeftAlone ⟨fun _ => 0, (· == ·), some⟩ h' := by
  refine ⟨_, _, _, rfl, rfl, rfl, rfl, rfl, fun hleft => ?_⟩
  cases hleft.count

/-- The first put into a fresh map, where the key cannot be copied. -/
theorem hmap_put_failure_is_counted_fresh : ∃ h : Hmap ℕ ℕ, hmapInit 1 = .ok h ∧
    ¬ Returns (hmapTryPut ⟨fun _ => 0, (· == ·), some⟩ h 2 20 none true true)
      (h.LeftAlone ⟨fun _ => 0, (· == ·), some⟩) := by
  obtain ⟨h, hinit, hc, -⟩ : Returns (hmapInit 1 : Exec (Hmap ℕ ℕ)) _ := Hmap.Columns.init le_rfl
  have hnew : h.Absent ⟨fun _ => 0, (· == ·), some⟩ 2 := by
    intro ks hks k hk
    rw [hks.unique (hc.keys (hc.index_lt _ 2))] at hk
    cases hk
  exact ⟨h, hinit, (hmap_put_failure_is_counted hinit (runs_nil _ _) hnew 20 (.inl rfl)).1⟩

end LibSrsBsns
