import LibSrsBsns.HashMap.Refinement

/-!
# The iteration of a hash map

The cursor of a hash map is a pair of indices that `hmap_put`, `hmap_del` and `hmap_clear` do not
look at. What lies ahead of it is therefore read off the buckets as they are now (`Hmap.ahead`):
`hmap_next` returns the first of these entries and leaves the others ahead
(`Entries.next`), whatever happened to the map since the last call. That makes the iteration sound
in every state a run can reach (`hmap_iteration_sound`).
-/

namespace LibSrsBsns

open C AssocList

variable {K V α : Type}

/-- The calls on a map with those of the iteration. -/
inductive HmapCall (K V : Type)
  | op (op : MapOp K V)
  | first
  | next

/-- What a call returns. -/
inductive HmapOut (K V : Type)
  | op (o : MapOut V)
  | iter (r : HmapIter K V)

def hmapCall (F : HmapFns K) (h : Hmap K V) : HmapCall K V → Exec (HmapOut K V × Hmap K V)
  | .op op => do
    let (o, h) ← hmapStep F h op
    .ok (.op o, h)
  | .first => do
    let (r, h) ← hmapFirst h
    .ok (.iter r, h)
  | .next => do
    let (r, h) ← hmapNext h
    .ok (.iter r, h)

namespace Hmap

/-- The entries of the buckets from the index `i` on. -/
def rest (es : ℕ → List (K × V)) (n i : ℕ) : List (K × V) := (List.range' i (n - i)).flatMap es

/-- The entries that lie ahead of the cursor. -/
def ahead (h : Hmap K V) (es : ℕ → List (K × V)) : List (K × V) :=
  if h.iterating then (es h.buckiter).drop h.listiter ++ rest es h.bucketsz (h.buckiter + 1) else []

/-- `hmap_first` and `hmap_next` where the entries `todo` lie ahead: the first of them is returned
and the others lie ahead of the cursor, or there is none and the iteration has ended. -/
structure Advances (h : Hmap K V) (es : ℕ → List (K × V)) (todo : List (K × V))
    (r : HmapIter K V × Hmap K V) : Prop where
  buckets : ∃ iterating buckiter listiter, r.2 = { h with iterating, buckiter, listiter }
  lt : r.2.iterating → r.2.buckiter < r.2.bucketsz
  iterating : r.2.iterating = r.1.1
  head : r.1.1 = todo.head?.isSome
  data : ∀ e, todo.head? = some e → r.1.2 = some (some e.1, some e.2)
  tail : r.2.ahead es = todo.tail

variable {F : HmapFns K} {h : Hmap K V} {es : ℕ → List (K × V)} {i : ℕ}

@[simp] theorem rest_self (es : ℕ → List (K × V)) (n : ℕ) : rest es n n = [] := by
  simp [rest]

theorem rest_of_lt {n : ℕ} (hi : i < n) : rest es n i = es i ++ rest es n (i + 1) := by
  obtain ⟨k, rfl⟩ : ∃ k, n = i + (k + 1) := ⟨n - i - 1, by omega⟩
  have hk : i + (k + 1) - (i + 1) = k := by omega
  rw [rest, rest, Nat.add_sub_cancel_left, hk, List.range'_succ, List.flatMap_cons]

theorem mem_rest {n : ℕ} {e : K × V} (he : e ∈ rest es n i) : ∃ j < n, e ∈ es j := by
  obtain ⟨j, hj, he⟩ := List.mem_flatMap.1 he
  rw [List.mem_range'_1] at hj
  exact ⟨j, by omega, he⟩

/-- What lies ahead of the cursor are entries of the map. -/
theorem mem_ahead (hlt : h.iterating → h.buckiter < h.bucketsz) {e : K × V} (he : e ∈ h.ahead es) :
    ∃ i < h.bucketsz, e ∈ es i := by
  unfold ahead at he
  split at he
  case isTrue hit =>
    rcases List.mem_append.1 he with he | he
    · exact ⟨_, hlt hit, List.mem_of_mem_drop he⟩
    · exact mem_rest he
  case isFalse => cases he

/-- An element of a bucket, which is null if it was never used. -/
theorem BucketLists.get {b : Buffer (Option (PtrList α))} {xs : List α} (hb : BucketLists b i xs)
    (hi : i < b.size) (j : ℕ) : ∃ l, b.read i = .ok l ∧ bucketGet l j = .ok xs[j]? := by
  rcases hb with ⟨hc, rfl⟩ | ⟨l, hc, hl⟩
  · exact ⟨none, Buffer.read_of_cell hi hc, rfl⟩
  · exact ⟨some l, Buffer.read_of_cell hi hc, PtrList.get_spec hl j⟩

/-- The loop over empty buckets passes no entry. -/
theorem Entries.skip (hh : h.Entries es) (hi : i ≤ h.bucketsz) :
    Returns (h.skip (h.bucketsz + 1) i) fun j => j ≤ h.bucketsz ∧
      rest es h.bucketsz j = rest es h.bucketsz i ∧ (j ≠ h.bucketsz → es j ≠ []) := by
  have hstep (j : ℕ) (hj : j < h.bucketsz) (hnil : es j = [])
      (hrest : rest es h.bucketsz j = rest es h.bucketsz i) :
      rest es h.bucketsz (j + 1) = rest es h.bucketsz i := by
    rw [← hrest, rest_of_lt hj, hnil, List.nil_append]
  apply Returns.loop (fun j => j ≤ h.bucketsz ∧ rest es h.bucketsz j = rest es h.bucketsz i)
    (fun j => h.bucketsz - j) _ _ ⟨hi, rfl⟩ (by omega)
  intro j ⟨hj, hrest⟩
  by_cases hlt : j < h.bucketsz
  · rw [if_pos hlt]
    have hsize : j < h.keybucket.size := hh.keysize ▸ hlt
    rcases hh.keys hlt with ⟨hc, hnil⟩ | ⟨l, hc, hl⟩
    · rw [Buffer.read_of_cell hsize hc, ok_bind]
      exact .ok ⟨⟨hlt, hstep j hlt (List.map_eq_nil_iff.1 hnil) hrest⟩, by omega⟩
    · simp only [Buffer.read_of_cell hsize hc, ok_bind, PtrList.count_spec hl, List.length_map]
      apply Returns.ite
      · intro h0
        exact .ok ⟨⟨hlt, hstep j hlt (List.length_eq_zero_iff.1 h0) hrest⟩, by omega⟩
      · intro h0
        exact .ok ⟨hj, hrest, fun _ hnil => h0 (by rw [hnil]; rfl)⟩
  · rw [if_neg hlt]
    exact .ok ⟨hj, hrest, fun hne => absurd (Nat.le_antisymm hj (Nat.le_of_not_lt hlt)) hne⟩

/-- The pair at the cursor, where there is one. -/
theorem Entries.pair (hh : h.Entries es) (hi : h.buckiter < h.bucketsz) (j : ℕ) :
    ∃ kl vl, h.keybucket.read h.buckiter = .ok kl ∧ h.valbucket.read h.buckiter = .ok vl ∧
      bucketGet kl j = .ok ((es h.buckiter)[j]?.map Prod.fst) ∧
      bucketGet vl j = .ok ((es h.buckiter)[j]?.map Prod.snd) := by
  obtain ⟨kl, hkl, hk⟩ := (hh.keys hi).get (hh.keysize ▸ hi) j
  obtain ⟨vl, hvl, hv⟩ := (hh.vals hi).get (hh.valsize ▸ hi) j
  exact ⟨kl, vl, hkl, hvl, by rw [hk, List.getElem?_map], by rw [hv, List.getElem?_map]⟩

/-- `hmap_first` returns the first entry of the map. -/
theorem Entries.first (hh : h.Entries es) :
    Returns (hmapFirst h) (h.Advances es (rest es h.bucketsz 0)) := by
  unfold hmapFirst
  apply (hh.skip (Nat.zero_le _)).bind
  intro b ⟨hb, hrest, hne⟩
  simp only
  rw [← hrest]
  by_cases hend : b = h.bucketsz
  · rw [if_pos hend, hend, rest_self]
    exact .ok ⟨⟨_, _, _, rfl⟩, by simp, rfl, rfl, by simp, by simp [ahead]⟩
  · have hlt : b < h.bucketsz := by omega
    have hh' : Entries { h with buckiter := b } es := ⟨hh.pos, hh.keysize, hh.valsize, hh.bucket⟩
    obtain ⟨kl, vl, hkl, hvl, hk, hv⟩ := hh'.pair hlt 0
    obtain ⟨e, t, he⟩ := List.exists_cons_of_ne_nil (hne hend)
    rw [if_neg hend, rest_of_lt hlt, he]
    simp only [hkl, hvl, hk, hv, he, ok_bind]
    exact .ok ⟨⟨_, _, _, rfl⟩, fun _ => hlt, rfl, rfl, by simp, by simp [ahead, he]⟩

/-- The end of `hmap_next`, with the cursor at the entry `e`. -/
theorem Entries.nextPair (hh : h.Entries es) (hi : h.buckiter < h.bucketsz) {e : K × V}
    (he : (es h.buckiter)[h.listiter]? = some e) :
    h.nextPair (some e.1) =
      .ok ((true, some (some e.1, some e.2)), { h with listiter := h.listiter + 1 }) := by
  obtain ⟨-, vl, -, hvl, -, hv⟩ := hh.pair hi h.listiter
  simp only [Hmap.nextPair, hvl, hv, he, ok_bind, Option.map_some]

/-- `hmap_next` returns the first entry ahead of the cursor, wherever the cursor is. -/
theorem Entries.next (hh : h.Entries es) (hlt : h.iterating → h.buckiter < h.bucketsz) :
    Returns (hmapNext h) (h.Advances es (h.ahead es)) := by
  unfold hmapNext
  cases hit : h.iterating with
  | false => exact .ok ⟨⟨_, _, _, rfl⟩, hlt, hit, by simp [ahead, hit], by simp [ahead, hit],
      by simp [ahead, hit]⟩
  | true =>
    have hi := hlt hit
    obtain ⟨kl, -, hkl, -, hk, -⟩ := hh.pair hi h.listiter
    simp only [Bool.not_true, Bool.false_eq_true, if_false, hkl, hk, ok_bind]
    cases he : (es h.buckiter)[h.listiter]? with
    | some e =>
      obtain ⟨hj, hej⟩ := List.getElem?_eq_some_iff.1 he
      have hahead : h.ahead es =
          e :: ((es h.buckiter).drop (h.listiter + 1) ++ rest es h.bucketsz (h.buckiter + 1)) := by
        rw [ahead, if_pos hit, List.drop_eq_getElem_cons hj, hej, List.cons_append]
      rw [hahead]
      simp only [Option.map_some, hh.nextPair hi he]
      exact .ok ⟨⟨_, _, _, rfl⟩, hlt, hit, rfl, by simp, by simp [ahead, hit]⟩
    | none =>
      -- the bucket of the cursor has no entry any more: on to the next one that is not empty
      have hnil : (es h.buckiter).drop h.listiter = [] :=
        List.drop_eq_nil_iff.2 (List.getElem?_eq_none_iff.1 he)
      have hahead : h.ahead es = rest es h.bucketsz (h.buckiter + 1) := by simp [ahead, hit, hnil]
      rw [hahead]
      simp only [Option.map_none]
      apply (hh.skip hi).bind
      intro b ⟨hb, hrest, hne⟩
      rw [← hrest]
      by_cases hend : b = h.bucketsz
      · rw [if_pos hend, hend, rest_self]
        exact .ok ⟨⟨_, _, _, rfl⟩, by simp, rfl, rfl, by simp, by simp [ahead]⟩
      · have hblt : b < h.bucketsz := by omega
        have hh' : Entries { h with iterating := true, buckiter := b, listiter := 0 } es :=
          ⟨hh.pos, hh.keysize, hh.valsize, hh.bucket⟩
        obtain ⟨kl, -, hkl, -, hk, -⟩ := hh'.pair hblt 0
        obtain ⟨e, t, he⟩ := List.exists_cons_of_ne_nil (hne hend)
        have he0 : (es b)[0]? = some e := by rw [he]; rfl
        rw [if_neg hend, rest_of_lt hblt, he]
        simp only [hkl, hk, he0, ok_bind, Option.map_some]
        rw [hh'.nextPair hblt he0]
        exact .ok ⟨⟨_, _, _, rfl⟩, fun _ => hblt, rfl, by simp, by simp, by simp [ahead, he]⟩

/-- A step of the iteration changes no bucket. -/
theorem Advances.entries {todo : List (K × V)} {r : HmapIter K V × Hmap K V} (hh : h.Entries es)
    (hr : h.Advances es todo r) : r.2.Entries es := by
  obtain ⟨⟨_, _, _, hbuckets⟩, -⟩ := hr
  rw [hbuckets]
  exact ⟨hh.pos, hh.keysize, hh.valsize, hh.bucket⟩

/-- The calls of an iteration return the entries `todo` one by one, and then `false` as often as `n`
says. -/
def Yields (todo : List (K × V)) (n : ℕ) (outs : List (HmapOut K V)) : Prop :=
  ∃ os : List (Option (Option K × Option V)), os.length = n ∧
    outs = todo.map (fun e => .iter (true, some (some e.1, some e.2))) ++
      os.map fun o => .iter (false, o)

theorem Yields.cons {todo : List (K × V)} {n : ℕ} {outs : List (HmapOut K V)}
    (hy : Yields todo n outs) (e : K × V) :
    Yields (e :: todo) n (.iter (true, some (some e.1, some e.2)) :: outs) := by
  obtain ⟨os, hlen, rfl⟩ := hy
  exact ⟨os, hlen, rfl⟩

theorem Yields.succ {n : ℕ} {outs : List (HmapOut K V)} (hy : Yields ([] : List (K × V)) n outs)
    (o : Option (Option K × Option V)) :
    Yields ([] : List (K × V)) (n + 1) (.iter (false, o) :: outs) := by
  obtain ⟨os, hlen, rfl⟩ := hy
  exact ⟨o :: os, by rw [List.length_cons, hlen], rfl⟩

/-- Once it has returned `false`, `hmap_next` keeps doing so. -/
theorem yields_of_not_iterating (F : HmapFns K) (hit : h.iterating = false) (n : ℕ) :
    Returns (runs (hmapCall F) h (List.replicate n .next)) fun r =>
      Yields ([] : List (K × V)) n r.1 := by
  have hnext : hmapCall F h .next = .ok (.iter (false, none), h) := by
    rw [hmapCall, hmapNext, hit]
    rfl
  induction n with
  | zero => exact .ok ⟨[], rfl, rfl⟩
  | succ n ih =>
    rw [List.replicate_succ, runs, hnext, ok_bind]
    apply ih.bind
    intro r hr
    exact .ok (hr.succ none)

/-- Without other calls in between, `hmap_next` returns the entries ahead of the cursor, and from then
on `false`. -/
theorem Entries.walk (F : HmapFns K) {todo : List (K × V)} (hh : h.Entries es)
    (hlt : h.iterating → h.buckiter < h.bucketsz) (htodo : h.ahead es = todo) (n : ℕ) :
    Returns (runs (hmapCall F) h (List.replicate (todo.length + n) .next)) fun r =>
      Yields todo n r.1 := by
  induction todo generalizing h with
  | nil =>
    rw [List.length_nil, Nat.zero_add]
    cases n with
    | zero => exact .ok ⟨[], rfl, rfl⟩
    | succ n =>
      obtain ⟨⟨⟨b, o⟩, h'⟩, hr, hadv⟩ := hh.next hlt
      obtain rfl : b = false := by simpa [htodo] using hadv.head
      rw [List.replicate_succ, runs]
      simp only [hmapCall, hr, ok_bind]
      apply (yields_of_not_iterating F hadv.iterating n).bind
      intro r hr
      exact .ok (hr.succ o)
  | cons e todo ih =>
    obtain ⟨⟨⟨b, o⟩, h'⟩, hr, hadv⟩ := hh.next hlt
    obtain rfl : b = true := by simpa [htodo] using hadv.head
    obtain rfl : o = some (some e.1, some e.2) := hadv.data e (by rw [htodo]; rfl)
    have htail : h'.ahead es = todo := by simpa [htodo] using hadv.tail
    rw [List.length_cons, Nat.add_right_comm, List.replicate_succ, runs]
    simp only [hmapCall, hr, ok_bind]
    apply (ih (hadv.entries hh) hadv.lt htail).bind
    intro r hr
    exact .ok (hr.cons e)

/-- The value `v` is the one of the key `k` in the map: the two have the same place in a bucket, and
`hmap_get` finds `v` if the functions of the map keep their promises. -/
def Binds (F : HmapFns K) (h : Hmap K V) (k : K) (v : V) : Prop :=
  (∃ es, h.Entries es ∧ ∃ i < h.bucketsz, (k, v) ∈ es i) ∧
    (F.Lawful → hmapGet F h k = .ok (some v))

/-- The iteration of a map is sound: its cursor is in range, both of its calls return a binding of the
map if they return `true`, and calls of `hmap_next` alone come to return `false`. -/
structure IterSound (F : HmapFns K) (h : Hmap K V) : Prop where
  lt : h.iterating → h.buckiter < h.bucketsz
  first : Returns (hmapFirst h) fun r =>
    r.1.1 = true → ∃ k v, r.1.2 = some (some k, some v) ∧ h.Binds F k v
  next : Returns (hmapNext h) fun r =>
    r.1.1 = true → ∃ k v, r.1.2 = some (some k, some v) ∧ h.Binds F k v
  ends : ∃ n, Returns (runs (hmapCall F) h (List.replicate n .next)) fun r =>
    ∃ o, r.1.getLast? = some (.iter (false, o))

/-- What every call keeps: there are entries, they represent a map if the functions of the user keep
their promises, and the cursor is in range. -/
structure Live (F : HmapFns K) (h : Hmap K V) : Prop where
  entries : ∃ es, h.Entries es
  represents : ∀ hF : F.Lawful, ∃ m, h.Represents hF m
  lt : h.iterating → h.buckiter < h.bucketsz

theorem Represents.get_entry {hF : F.Lawful} {m : ClassMap hF.equiv.setoid V}
    (hm : Represents hF h m) : ∃ es, h.Entries es ∧
      ∀ i < h.bucketsz, ∀ e ∈ es i, hmapGet F h e.1 = .ok (some e.2) := by
  obtain ⟨⟨es, hh, hes⟩, -⟩ := id hm
  refine ⟨es, hh.toEntries, fun i hi e he => ?_⟩
  obtain ⟨j, hj, rfl⟩ := List.mem_iff_getElem.1 he
  rw [get_spec hm, hes, hh.hash i hi _ he, lookup_getElem hF.equiv (hh.distinct i hi) hj]

theorem Live.exists_binds (hl : h.Live F) : ∃ es, h.Entries es ∧
    ∀ i < h.bucketsz, ∀ e ∈ es i, h.Binds F e.1 e.2 := by
  by_cases hF : F.Lawful
  · obtain ⟨m, hm⟩ := hl.represents hF
    obtain ⟨es, hh, hget⟩ := hm.get_entry
    exact ⟨es, hh, fun i hi e he => ⟨⟨es, hh, i, hi, he⟩, fun _ => hget i hi e he⟩⟩
  · obtain ⟨es, hh⟩ := hl.entries
    exact ⟨es, hh, fun i hi e he => ⟨⟨es, hh, i, hi, he⟩, fun h' => absurd h' hF⟩⟩

/-- A step of the iteration returns a binding of the map if it returns `true`. -/
theorem Advances.binds {todo : List (K × V)} {r : HmapIter K V × Hmap K V}
    (hr : h.Advances es todo r) (htodo : ∀ e ∈ todo, h.Binds F e.1 e.2) (htrue : r.1.1 = true) :
    ∃ k v, r.1.2 = some (some k, some v) ∧ h.Binds F k v := by
  rw [hr.head] at htrue
  obtain ⟨e, he⟩ := Option.isSome_iff_exists.1 htrue
  exact ⟨e.1, e.2, hr.data e he, htodo e (List.mem_of_mem_head? he)⟩

theorem Live.iterSound (hl : h.Live F) : h.IterSound F := by
  obtain ⟨es, hh, hbinds⟩ := hl.exists_binds
  refine ⟨hl.lt, ?_, ?_, ?_⟩
  · apply hh.first.mono
    intro r hr
    apply hr.binds
    intro e he
    obtain ⟨i, hi, he⟩ := mem_rest he
    exact hbinds i hi e he
  · apply (hh.next hl.lt).mono
    intro r hr
    apply hr.binds
    intro e he
    obtain ⟨i, hi, he⟩ := mem_ahead hl.lt he
    exact hbinds i hi e he
  · refine ⟨_, (hh.walk F hl.lt rfl 1).mono ?_⟩
    intro r ⟨os, hlen, hr⟩
    obtain ⟨o, rfl⟩ := List.length_eq_one_iff.1 hlen
    exact ⟨o, by rw [hr, List.map_singleton, List.getLast?_concat]⟩

/-- A step of the iteration leaves the map as it is. -/
theorem Live.advance (hl : h.Live F) {todo : List (K × V)} {r : HmapIter K V × Hmap K V}
    (hr : h.Advances es todo r) : r.2.Live F := by
  obtain ⟨⟨_, _, _, hbuckets⟩, hlt, -⟩ := hr
  rw [hbuckets] at hlt ⊢
  obtain ⟨⟨es', hh⟩, hrep, -⟩ := hl
  refine ⟨⟨es', hh.pos, hh.keysize, hh.valsize, hh.bucket⟩, fun hF => ?_, hlt⟩
  obtain ⟨m, ⟨es, hh, hes⟩, hcount⟩ := hrep hF
  exact ⟨m, ⟨es, ⟨⟨hh.pos, hh.keysize, hh.valsize, hh.bucket⟩, hh.hash, hh.distinct⟩, hes⟩, hcount⟩

end Hmap

variable {F : HmapFns K} {h : Hmap K V}

/-- A call that changes the map leaves the cursor where it is. -/
theorem hmapStep_entries (hdup : ∀ key, (F.keydupfn key).isSome) (op : MapOp K V)
    (hh : ∃ es, h.Entries es) : Returns (hmapStep F h op) fun r =>
      (∃ es, r.2.Entries es) ∧ Hmap.SameCursor h r.2 := by
  obtain ⟨es, hh⟩ := hh
  cases op with
  | put key elem =>
    obtain ⟨key', hkey'⟩ := Option.isSome_iff_exists.1 (hdup key)
    apply (hh.put hkey' elem).bind
    intro h' hput
    obtain ⟨hs, _, hh', _⟩ := hput
    exact .ok ⟨⟨_, hh'⟩, hs⟩
  | get key =>
    simp only [hmapStep, hh.get, ok_bind]
    exact .ok ⟨⟨es, hh⟩, ⟨rfl, rfl, rfl, rfl⟩⟩
  | del key =>
    apply (hh.del key).bind
    rintro ⟨b, h'⟩ ⟨hs, ⟨-, hr⟩ | ⟨-, -, -, _, _, _, -, -, hh'⟩⟩
    · obtain ⟨rfl, rfl⟩ := Prod.mk.inj hr
      exact .ok ⟨⟨es, hh⟩, hs⟩
    · exact .ok ⟨⟨_, hh'⟩, hs⟩
  | clear =>
    apply hh.clear.bind
    intro h' hclear
    obtain ⟨hh', hs, _⟩ := hclear
    exact .ok ⟨⟨_, hh'⟩, hs⟩
  | count => exact .ok ⟨⟨es, hh⟩, ⟨rfl, rfl, rfl, rfl⟩⟩

/-- Every call keeps what the soundness of the iteration needs. -/
theorem hmapCall_live (hdup : ∀ key, (F.keydupfn key).isSome) (call : HmapCall K V)
    (hl : h.Live F) : Returns (hmapCall F h call) fun r => r.2.Live F := by
  cases call with
  | op op =>
    obtain ⟨r, hr, hh', hs⟩ := hmapStep_entries hdup op hl.entries
    simp only [hmapCall, hr, ok_bind]
    refine .ok ⟨hh', fun hF => ?_, ?_⟩
    · obtain ⟨m, hm⟩ := hl.represents hF
      exact ⟨_, ((hmapStep_refines hF h m op hm).of_eq_ok hr).2⟩
    · rw [hs.iterating, hs.buckiter, hs.bucketsz]
      exact hl.lt
  | first =>
    obtain ⟨es, hh⟩ := hl.entries
    apply hh.first.bind
    intro r hr
    exact .ok (hl.advance hr)
  | next =>
    obtain ⟨es, hh⟩ := hl.entries
    apply (hh.next hl.lt).bind
    intro r hr
    exact .ok (hl.advance hr)

/-- A map without buckets: the calls that look for the bucket of a key divide by zero, and the others
leave the map as it is. -/
theorem hmapCall_no_buckets (F : HmapFns K) {h : Hmap K V} (hinit : hmapInit 0 = .ok h)
    (call : HmapCall K V) : Ends (hmapCall F h call) (fun r => r.2 = h) (· = .divByZero) := by
  obtain rfl := Except.ok.inj hinit
  cases call with
  | op op => cases op <;> exact rfl
  | first => exact rfl
  | next => exact rfl

theorem Hmap.iterSound_no_buckets (F : HmapFns K) {h : Hmap K V} (hinit : hmapInit 0 = .ok h) :
    h.IterSound F := by
  obtain rfl := Except.ok.inj hinit
  refine ⟨nofun, ⟨_, rfl, nofun⟩, ⟨_, rfl, nofun⟩, 1, ⟨_, rfl, none, rfl⟩⟩

/-- What holds of a map without buckets and follows from `Hmap.Live` holds in every state of every
run. -/
theorem hmapCall_throughout {P : Hmap K V → Prop} (hdup : ∀ key, (F.keydupfn key).isSome)
    (hinit : ∀ h, hmapInit 0 = .ok h → P h) (hlive : ∀ h, h.Live F → P h) (bucketsz : ℕ)
    (calls : List (HmapCall K V)) : Returns (hmapInit bucketsz : Exec (Hmap K V)) fun h =>
      Throughout (hmapCall F) (fun e => bucketsz = 0 ∧ e = .divByZero) P h calls := by
  rcases Nat.eq_zero_or_pos bucketsz with rfl | hsz
  · refine .ok ?_
    apply Throughout.of_invariant (fun h => hmapInit 0 = .ok h) hinit _ rfl
    intro h call hh
    apply ((hmapCall_no_buckets F hh call).fault_mono fun e he => ⟨rfl, he⟩).mono
    intro r hr
    rw [hr]
    exact hh
  · apply (Hmap.entries_init hsz).mono
    intro h ⟨hh, hcount, hit⟩
    apply Throughout.of_invariant (Hmap.Live F) hlive
    · intro h call hl
      exact (hmapCall_live hdup call hl).ends _
    · exact ⟨⟨_, hh⟩, fun hF => ⟨_, hh.represents_empty hF hcount⟩, by simp [hit]⟩

/-- **The iteration of a hash map is sound**, whatever calls come between its steps: in every state of
every run on a fresh map the cursor is in range, `hmap_first` and `hmap_next` return bindings of the
map as it is then, and calls of `hmap_next` alone come to an end. All calls return, except that those
for a key divide by zero if there are no buckets. -/
theorem hmap_iteration_sound (hdup : ∀ key, (F.keydupfn key).isSome) (bucketsz : ℕ)
    (calls : List (HmapCall K V)) : Returns (hmapInit bucketsz : Exec (Hmap K V)) fun h =>
      Throughout (hmapCall F) (fun e => bucketsz = 0 ∧ e = .divByZero) (Hmap.IterSound F) h calls :=
  hmapCall_throughout hdup (fun _ hinit => Hmap.iterSound_no_buckets F hinit)
    (fun _ hl => hl.iterSound) bucketsz calls

/-- The entry under the cursor goes, and then the whole map. -/
theorem hmap_iteration_sound_mutated : Returns (hmapInit 2 : Exec (Hmap ℕ ℕ)) fun h =>
    Throughout (hmapCall ⟨(· % 2), (· == ·), some⟩) (fun e => 2 = 0 ∧ e = .divByZero)
      (Hmap.IterSound ⟨(· % 2), (· == ·), some⟩) h
      [.op (.put 1 10), .op (.put 3 30), .first, .op (.del 3), .next, .op .clear, .next] :=
  hmap_iteration_sound (by simp) 2 _

end LibSrsBsns
