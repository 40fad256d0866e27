import LibSrsBsns.StrMap.Model
import LibSrsBsns.HashMap.Bindings

/-!
# The string map as a finite map on texts

Whatever the number of buckets, and with it the hash function, a string map returns what a finite map
on texts does, and an iteration returns each binding of that map once (`smap_refines_map`). The hash
map below it is one on the classes of `streq`, which are the texts themselves.
-/

namespace LibSrsBsns

open C

variable {V : Type}

/-- A call on a string map, with allocations succeeding. -/
def smapStep (h : Smap V) : MapOp (List Char) V → Exec (MapOut V × Smap V)
  | .put key elem => do
    let h ← smapPut h (some key) (some elem) true true
    .ok (.unit, h)
  | .get key => do
    let v ← smapGet h key
    .ok (.value v, h)
  | .del key => do
    let (b, h) ← smapDel h key
    .ok (.bool b, h)
  | .clear => do
    let h ← smapClear h
    .ok (.unit, h)
  | .count => .ok (.size (smapCount h), h)

/-- A step of the iteration: `smap_first` or `smap_next`. -/
def smapWalk (h : Smap V) (first : Bool) : Exec (SmapIter V × Smap V) :=
  if first then smapFirst h else smapNext h

/-- A call on a finite map on texts. -/
noncomputable def textMapSpec (m : List Char → Option V) :
    MapOp (List Char) V → MapOut V × (List Char → Option V)
  | .put key elem => (.unit, Function.update m key (some elem))
  | .get key => (.value (m key), m)
  | .del key => (.bool (m key).isSome, Function.update m key none)
  | .clear => (.unit, fun _ => none)
  | .count => (.size {k | m k ≠ none}.ncard, m)

/-- The iteration of the map returns the bindings `bs` and then, as often as it is asked, `false`
without a key. -/
def Smap.IteratesAs (h : Smap V) (bs : List (List Char × V)) : Prop :=
  ∀ n, Returns (runs smapWalk h (true :: List.replicate (bs.length + n) false)) fun r =>
    ∃ os : List (Option (Option V)), os.length = n + 1 ∧
      r.1 = bs.map (fun e => ⟨true, some (some e.1), some (some e.2)⟩) ++ os.map (⟨false, none, ·⟩)

namespace Smap

variable {h : Smap V} {m : List Char → Option V}

theorem streq_iff (k l : List Char) : streq k l = true ↔ k = l := beq_iff_eq

theorem Binds.del (hm : h.Binds m) (key : List Char) : Returns (smapDel h key) fun r =>
    r.1 = (m key).isSome ∧ r.2.Binds (Function.update m key none) := by
  obtain ⟨hF, hefn, cm, hrep, hcm⟩ := hm
  apply (Hmap.del_spec hrep key).bind
  rintro ⟨b, map⟩ ⟨hb, hmap⟩
  refine .ok ⟨by rw [← hcm]; exact hb, hF, hefn, _, hmap, fun k => ?_⟩
  rw [ClassMap.del_mk, hcm, hefn]
  by_cases hk : k = key
  · rw [hk, Function.update_self, if_pos ((streq_iff _ _).2 rfl)]
  · rw [Function.update_of_ne hk, if_neg (mt (streq_iff _ _).1 (Ne.symm hk))]

theorem Binds.clear (hm : h.Binds m) : Returns (smapClear h) (Binds · fun _ => none) := by
  obtain ⟨hF, hefn, cm, hrep, -⟩ := hm
  apply (Hmap.clear_spec hrep).bind
  intro map hmap
  exact .ok ⟨hF, hefn, _, hmap, fun _ => rfl⟩

/-- As many texts are bound as classes of texts. -/
theorem Binds.count (hm : h.Binds m) : smapCount h = {k | m k ≠ none}.ncard := by
  obtain ⟨hF, hefn, cm, hrep, hcm⟩ := hm
  have hinj : Function.Injective (Quotient.mk hF.equiv.setoid) := by
    intro k l hkl
    rw [hF.equiv.mk_eq_mk, hefn] at hkl
    exact (streq_iff k l).1 hkl
  have himage : Quotient.mk hF.equiv.setoid '' {k | m k ≠ none} = cm.bound := by
    ext c
    obtain ⟨k, rfl⟩ := Quotient.exists_rep c
    rw [hinj.mem_set_image]
    simp only [ClassMap.bound, Set.mem_ofPred_eq, hcm]
  rw [← Set.ncard_image_of_injective _ hinj, himage]
  exact hrep.2.2

/-- One call on a string map. -/
theorem step_refines (op : MapOp (List Char) V) (hm : h.Binds m) :
    Returns (smapStep h op) fun r =>
      r.1 = (textMapSpec m op).1 ∧ r.2.Binds (textMapSpec m op).2 := by
  cases op with
  | put key elem =>
    apply (hm.put key elem).bind
    intro h' hh'
    exact .ok ⟨rfl, hh'⟩
  | get key =>
    simp only [smapStep, hm.get, ok_bind]
    exact .ok ⟨rfl, hm⟩
  | del key =>
    apply (hm.del key).bind
    rintro ⟨b, h'⟩ ⟨hb, hh'⟩
    exact .ok ⟨congrArg MapOut.bool hb, hh'⟩
  | clear =>
    apply hm.clear.bind
    intro h' hh'
    exact .ok ⟨rfl, hh'⟩
  | count => exact .ok ⟨congrArg MapOut.size hm.count, hm⟩

/-! ## The iteration -/

/-- What a step of the iteration of the hash map is for the string map. -/
def walkOut : HmapOut (List Char) V → SmapIter V
  | .iter r => .ofHmap r
  | .op _ => ⟨false, none, none⟩

/-- The call of the hash map behind a step of the iteration. -/
def walkCall (first : Bool) : HmapCall (List Char) V := if first then .first else .next

/-- The steps of the iteration are those of the hash map. -/
theorem runs_walk (h : Smap V) (calls : List Bool) : runs smapWalk h calls =
    (runs (hmapCall h.fns) h.map (calls.map walkCall)).map
      fun r => (r.1.map walkOut, ⟨h.fns, r.2⟩) := by
  refine runs_map (fun map : Hmap (List Char) V => (⟨h.fns, map⟩ : Smap V)) walkCall walkOut ?_
    h.map calls
  intro map first
  cases first with
  | true =>
    simp only [smapWalk, smapFirst, hmapCall, walkCall, if_true]
    cases hmapFirst map <;> rfl
  | false =>
    simp only [smapWalk, smapNext, hmapCall, walkCall, Bool.false_eq_true, if_false]
    cases hmapNext map <;> rfl

/-- The iteration of a string map returns the bindings of the finite map. -/
theorem Binds.iterates (hm : h.Binds m) : ∃ bs : List (List Char × V),
    (bs.map Prod.fst).Nodup ∧ (∀ k v, (k, v) ∈ bs ↔ m k = some v) ∧ h.IteratesAs bs := by
  have hget := hm.get
  obtain ⟨hF, hefn, cm, hrep, -⟩ := hm
  obtain ⟨bs, hbs, hiter⟩ := hrep.iteratesOnce
  refine ⟨bs, ?_, fun k v => ?_, fun n => ?_⟩
  · refine List.pairwise_map.2 (hbs.distinct.imp fun {e e'} hne heq => ?_)
    rw [hefn, heq, (streq_iff _ _).2 rfl] at hne
    cases hne
  · have hbound := hbs.bound k v
    rw [show hmapGet h.fns h.map k = .ok (m k) from hget k, Except.ok.injEq, hefn] at hbound
    rw [hbound]
    constructor
    · intro hmem
      exact ⟨(k, v), hmem, (streq_iff k k).2 rfl, rfl⟩
    · rintro ⟨⟨l, w⟩, hmem, hl, rfl⟩
      obtain rfl := (streq_iff l k).1 hl
      exact hmem
  · obtain ⟨r, hr, os, hlen, hout⟩ := hiter n
    rw [hbs.count] at hr
    have hcalls : (true :: List.replicate (bs.length + n) false).map walkCall =
        (.first :: List.replicate (bs.length + n) .next : List (HmapCall (List Char) V)) := by
      rw [List.map_cons, List.map_replicate]
      rfl
    rw [runs_walk, hcalls, hr]
    refine .ok ⟨os.map fun o => o.map Prod.snd, by rw [List.length_map, hlen], ?_⟩
    simp only [hout, List.map_append, List.map_map]
    rfl

end Smap

/-- **A string map is a finite map on texts.** With any number of buckets, a run of calls returns what
it does on the empty finite map, and an iteration from the state reached returns each binding of the
map reached once, the text with its value, and from then on `false`. -/
theorem smap_refines_map {bucketsz : ℕ} (hsz : 1 ≤ bucketsz) (ops : List (MapOp (List Char) V)) :
    Returns (do let h ← smapInit bucketsz; runs smapStep h ops) fun r =>
      r.1 = (runSpec textMapSpec (fun _ => none) ops).1 ∧
        ∃ bs : List (List Char × V), (bs.map Prod.fst).Nodup ∧
          (∀ k v, (k, v) ∈ bs ↔ (runSpec textMapSpec (fun _ => none) ops).2 k = some v) ∧
          r.2.IteratesAs bs := by
  apply (Smap.init_spec hsz).bind
  intro h hh
  apply (Returns.runs textMapSpec Smap.Binds (fun _ => True)
    (fun h m op _ hm => Smap.step_refines op hm) hh (by simp)).mono
  intro r ⟨hout, hbinds⟩
  exact ⟨hout, hbinds.iterates⟩

/-- A text that is bound, bound again and unbound, in a map with one bucket. -/
theorem smap_refines_map_one : Returns (do
    let h ← smapInit 1
    runs smapStep h [.put ['a'] 1, .put ['b'] 2, .put ['a'] 3, .del ['b'], .get ['a']]) fun r =>
      ∃ bs : List (List Char × ℕ), (bs.map Prod.fst).Nodup ∧ (['a'], 3) ∈ bs ∧
        r.2.IteratesAs bs := by
  apply (smap_refines_map (V := ℕ) (le_refl 1) _).mono
  rintro r ⟨-, bs, hnodup, hmem, hiter⟩
  exact ⟨bs, hnodup, (hmem _ _).2 rfl, hiter⟩

end LibSrsBsns
