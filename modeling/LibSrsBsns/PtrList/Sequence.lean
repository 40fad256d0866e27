import LibSrsBsns.PtrList.Model
import Mathlib.Data.List.Perm.Subperm
import Mathlib.Data.List.Nodup

/-!
# A pointer list is a sequence

`PtrList.Seg m p ns q` says that the nodes `ns`, given with their addresses, are linked one after
the other from the pointer `p` to the pointer `q`. A list `l` represents the sequence `xs`,
`l.Lists xs`, when its nodes, at distinct addresses, are linked from its head to null and hold `xs`.
The loop that looks for an index stops at a split of the nodes (`PtrList.seek_spec`), from which
every operation is shown to do to the sequence what its name says.
-/

namespace LibSrsBsns

open C

variable {α β : Type}

namespace PtrList

/-! ## Linked segments -/

/-- The nodes `ns` are linked from `p` to `q`. -/
def Seg (m : Memory (PlNode α)) : Ptr → List (ℕ × α) → Ptr → Prop
  | p, [], q => p = q
  | p, (a, x) :: ns, q => p = some a ∧ ∃ r, m.cell a = some ⟨x, r⟩ ∧ Seg m r ns q

/-- The address of the last of the nodes, or `p` if there are none. -/
def lastPtr (p : Ptr) (ns : List (ℕ × α)) : Ptr := (ns.map fun n => some n.1).getLastD p

variable {m m' : Memory (PlNode α)} {p q : Ptr} {a : ℕ} {x : α} {ns ns' : List (ℕ × α)}

@[simp] theorem seg_nil : Seg m p [] q ↔ p = q := Iff.rfl

theorem seg_cons : Seg m p ((a, x) :: ns) q ↔
    p = some a ∧ ∃ r, m.cell a = some ⟨x, r⟩ ∧ Seg m r ns q := Iff.rfl

theorem seg_append : Seg m p (ns ++ ns') q ↔ ∃ r, Seg m p ns r ∧ Seg m r ns' q := by
  induction ns generalizing p with
  | nil => simp
  | cons n ns ih =>
    obtain ⟨a, x⟩ := n
    simp only [List.cons_append, seg_cons, ih]
    constructor
    · rintro ⟨rfl, r, hr, s, h₁, h₂⟩
      exact ⟨s, ⟨rfl, r, hr, h₁⟩, h₂⟩
    · rintro ⟨s, ⟨rfl, r, hr, h₁⟩, h₂⟩
      exact ⟨rfl, r, hr, s, h₁, h₂⟩

theorem Seg.congr (h : Seg m p ns q) (hm : ∀ n ∈ ns, m'.cell n.1 = m.cell n.1) :
    Seg m' p ns q := by
  induction ns generalizing p with
  | nil => exact h
  | cons n ns ih =>
    obtain ⟨rfl, r, hr, h⟩ := h
    exact ⟨rfl, r, (hm n (by simp)).trans hr, ih h fun n' hn' => hm n' (by simp [hn'])⟩

theorem Seg.exists_cell (h : Seg m p ns q) {n : ℕ × α} (hn : n ∈ ns) :
    ∃ r, m.cell n.1 = some ⟨n.2, r⟩ := by
  induction ns generalizing p with
  | nil => simp at hn
  | cons n' ns ih =>
    obtain ⟨rfl, r, hr, h⟩ := h
    rcases List.mem_cons.1 hn with rfl | hn
    · exact ⟨r, hr⟩
    · exact ih h hn

/-- A write to an address that none of the nodes has leaves them linked. -/
theorem Seg.put (h : Seg m p ns q) {v : PlNode α} (ha : a ∉ ns.map Prod.fst) :
    Seg (m.put a v) p ns q :=
  h.congr fun _ hn => Memory.put_cell_of_ne fun e => ha (e ▸ List.mem_map_of_mem hn)

theorem Seg.erase (h : Seg m p ns q) (ha : a ∉ ns.map Prod.fst) : Seg (m.erase a) p ns q :=
  h.congr fun _ hn => Memory.erase_cell_of_ne fun e => ha (e ▸ List.mem_map_of_mem hn)

theorem Seg.brk_notMem (h : Seg m p ns q) : m.brk ∉ ns.map Prod.fst := by
  intro hb
  obtain ⟨n, hn, e⟩ := List.mem_map.1 hb
  obtain ⟨r, hr⟩ := h.exists_cell hn
  simp [e, m.cell_brk] at hr

/-- Nodes at distinct addresses are no more than the addresses handed out. -/
theorem Seg.length_le (h : Seg m p ns q) (hd : (ns.map Prod.fst).Nodup) : ns.length ≤ m.brk := by
  have hsub : ns.map Prod.fst ⊆ List.range m.brk := by
    intro a ha
    obtain ⟨n, hn, rfl⟩ := List.mem_map.1 ha
    obtain ⟨r, hr⟩ := h.exists_cell hn
    exact List.mem_range.2 (Memory.lt_brk hr)
  simpa using (hd.subperm hsub).length_le

/-- The last node of a segment points to where the segment ends. -/
theorem seg_concat : Seg m p (ns ++ [(a, x)]) q ↔
    Seg m p ns (some a) ∧ m.cell a = some ⟨x, q⟩ := by
  rw [seg_append]
  constructor
  · rintro ⟨r, h, rfl, s, hs, rfl⟩
    exact ⟨h, hs⟩
  · rintro ⟨h, hs⟩
    exact ⟨some a, h, rfl, q, hs, rfl⟩

/-! ## The loop that looks for an index -/

/-- **Where the loop for index `i` stops**: at a node of the list that splits it in `pre` and
`post`. All indices before have been passed; the loop either used up the index or is at the last
node. -/
theorem seek_spec {i : ℤ} (hs : Seg m (some a) ((a, x) :: ns) none) {k : ℕ} (hk : ns.length < k) :
    ∃ pre b y post, (a, x) :: ns = pre ++ (b, y) :: post ∧
      seek m k (i, p, a) = .ok (i - pre.length, lastPtr p pre, b) ∧
      (∀ j < pre.length, i ≠ j) ∧ (i = pre.length ∨ post = []) := by
  induction ns generalizing i p a x k with
  | nil =>
    obtain ⟨k, rfl⟩ : ∃ k', k = k' + 1 := ⟨k - 1, by omega⟩
    obtain ⟨-, r, hr, rfl⟩ := hs
    refine ⟨[], a, x, [], rfl, ?_, by simp, .inr rfl⟩
    rw [seek, loop_inr (b := (i, p, a)) (by simp [Memory.load_of_cell hr])]
    simp [lastPtr]
  | cons n ns ih =>
    obtain ⟨k, rfl⟩ : ∃ k', k = k' + 1 := ⟨k - 1, by omega⟩
    obtain ⟨-, r, hr, hs⟩ := hs
    obtain ⟨rfl, -⟩ := id hs
    by_cases hi : i = 0
    · refine ⟨[], a, x, n :: ns, rfl, ?_, by simp, .inl (by simp [hi])⟩
      rw [seek, loop_inr (b := (i, p, a)) (by simp [Memory.load_of_cell hr, hi])]
      simp [lastPtr]
    · obtain ⟨pre, b, y, post, he, hk', hne, hor⟩ := ih (i := i - 1) (p := some a) (x := n.2) hs
        (k := k) (by simpa using hk)
      refine ⟨(a, x) :: pre, b, y, post, by rw [he]; rfl, ?_, ?_, ?_⟩
      · rw [seek, loop_inl (t := (i - 1, some a, n.1)) (by simp [Memory.load_of_cell hr, hi]),
          ← seek, hk']
        simp only [lastPtr, List.map_cons, List.getLastD_cons, List.length_cons]
        congr 2
        omega
      · intro j hj
        rcases j with _ | j
        · exact_mod_cast hi
        · have := hne j (by simpa using hj)
          push_cast
          omega
      · simp only [List.length_cons]
        push_cast
        rcases hor with h | h
        · exact .inl (by omega)
        · exact .inr h

/-- The nodes of the list `l`, in order, with their addresses. -/
structure Nodes (l : PtrList α) (ns : List (ℕ × α)) : Prop where
  seg : Seg l.mem l.head ns none
  nodup : (ns.map Prod.fst).Nodup

/-- The turns granted to a loop suffice for all nodes. -/
theorem Nodes.length_lt_turns {l : PtrList α} (h : l.Nodes ns) : ns.length < l.turns :=
  Nat.lt_succ_of_le (h.seg.length_le h.nodup)

/-- The cursor is not part of what is listed. -/
theorem Nodes.of_iter {l : PtrList α} (h : l.Nodes ns) (iter : Ptr) : Nodes { l with iter } ns :=
  ⟨h.seg, h.nodup⟩

/-- The list `l` represents the sequence `xs`. -/
def Lists (l : PtrList α) (xs : List α) : Prop := ∃ ns, l.Nodes ns ∧ ns.map Prod.snd = xs

/-- The sequence `xs` after `x` has been inserted: at the index `i`, or at the end if `i` is
negative or past it. -/
def insertAt (xs : List α) (i : ℤ) (x : α) : List α :=
  if i < 0 then xs ++ [x] else xs.insertIdx (min i.toNat xs.length) x

theorem insertAt_eq_append {xs : List α} {i : ℤ} (x : α) (h : ∀ j < xs.length, i ≠ j) :
    insertAt xs i x = xs ++ [x] := by
  unfold insertAt
  split
  · rfl
  · have : min i.toNat xs.length = xs.length := by
      rcases lt_or_ge i.toNat xs.length with hlt | hge
      · exact absurd (Int.toNat_of_nonneg (by omega)).symm (h _ hlt)
      · omega
    rw [this, List.insertIdx_length_self]

theorem insertAt_append {xs ys : List α} {i : ℤ} (x : α) (h : i = xs.length) :
    insertAt (xs ++ ys) i x = xs ++ x :: ys := by
  rw [insertAt, if_neg (by omega), show min i.toNat (xs ++ ys).length = xs.length by
    rw [List.length_append]; omega]
  clear h
  induction xs with
  | nil => simp
  | cons y xs ih => simpa using ih

theorem insertAt_zero (xs : List α) (x : α) : insertAt xs 0 x = x :: xs := by
  simp [insertAt]

variable {l : PtrList α} {xs : List α}

theorem lists_init : (ptrlistInit : PtrList α).Lists [] := ⟨[], ⟨rfl, by simp⟩, rfl⟩

/-- Memory determines what is linked from a pointer on. -/
theorem Seg.unique (h : Seg m p ns none) (h' : Seg m p ns' none) : ns = ns' := by
  induction ns generalizing p ns' with
  | nil =>
    obtain rfl : p = none := h
    cases ns' with
    | nil => rfl
    | cons n ns' => cases h'.1
  | cons n ns ih =>
    obtain ⟨a, x⟩ := n
    obtain ⟨rfl, r, hr, h⟩ := h
    cases ns' with
    | nil => cases h'
    | cons n' ns' =>
      obtain ⟨a', x'⟩ := n'
      obtain ⟨ha, r', hr', h'⟩ := h'
      obtain rfl := Option.some.inj ha
      obtain ⟨rfl, rfl⟩ := PlNode.mk.inj (Option.some.inj (hr.symm.trans hr'))
      rw [ih h h']

theorem Nodes.unique (h : l.Nodes ns) (h' : l.Nodes ns') : ns = ns' := h.seg.unique h'.seg

theorem Lists.unique {xs xs' : List α} (h : l.Lists xs) (h' : l.Lists xs') : xs = xs' := by
  obtain ⟨ns, hns, rfl⟩ := h
  obtain ⟨ns', hns', rfl⟩ := h'
  rw [hns.unique hns']

theorem Nodes.nil_iff (h : l.Nodes ns) : l.head = none ↔ ns = [] := by
  cases ns with
  | nil => simpa using h.seg
  | cons n ns => simp [h.seg.1]

/-- The loop for an index, on the memory of a list. -/
theorem Nodes.seek (h : l.Nodes ns) (ha : l.head = some a) (i : ℤ) :
    ∃ pre b y post, ns = pre ++ (b, y) :: post ∧
      PtrList.seek l.mem l.turns (i, none, a) = .ok (i - pre.length, lastPtr none pre, b) ∧
      (∀ j < pre.length, i ≠ j) ∧ (i = pre.length ∨ post = []) := by
  cases ns with
  | nil => simp [h.nil_iff.2 rfl] at ha
  | cons n ns =>
    obtain rfl : a = n.1 := Option.some.inj (ha.symm.trans h.seg.1)
    exact seek_spec (ha ▸ h.seg) (Nat.lt_of_succ_lt h.length_lt_turns)

theorem nodup_insert {pre : List (ℕ × α)} (hd : ((pre ++ ns).map Prod.fst).Nodup)
    (ha : a ∉ (pre ++ ns).map Prod.fst) : ((pre ++ (a, x) :: ns).map Prod.fst).Nodup :=
  (List.perm_middle.map Prod.fst).nodup_iff.2 (List.nodup_cons.2 ⟨ha, hd⟩)

/-- What distinct addresses say at a split of the nodes. -/
theorem notMem_of_nodup {pre post : List (ℕ × α)}
    (hd : ((pre ++ (a, x) :: post).map Prod.fst).Nodup) :
    a ∉ pre.map Prod.fst ∧ a ∉ post.map Prod.fst ∧ ((pre ++ post).map Prod.fst).Nodup := by
  have h := List.nodup_cons.1 ((List.perm_middle.map Prod.fst).nodup_iff.1 hd)
  rw [List.map_append, List.mem_append, not_or] at h
  exact ⟨h.1.1, h.1.2, by simpa using h.2⟩

@[simp] theorem lastPtr_nil : lastPtr p ([] : List (ℕ × α)) = p := rfl

@[simp] theorem lastPtr_concat : lastPtr p (ns ++ [(a, x)]) = some a := by
  simp [lastPtr]

/-! ## The operations -/

/-- After a node has been linked in before the split point, `prev` being the node there. -/
theorem Seg.relink {pre post : List (ℕ × α)} {b : ℕ} {y : α} {r : Ptr}
    (h : Seg m p (pre ++ [(b, y)]) q) (hd : ((pre ++ [(b, y)]).map Prod.fst).Nodup)
    (hpost : Seg m r post none) (hb : b ∉ post.map Prod.fst) :
    Seg (m.put b ⟨y, r⟩) p (pre ++ (b, y) :: post) none := by
  have hpre : b ∉ pre.map Prod.fst := fun hin => by
    rw [List.map_append, List.nodup_append] at hd
    exact hd.2.2 b hin b (by simp) rfl
  rw [seg_append]
  exact ⟨some b, (seg_concat.1 h).1.put hpre, rfl, r, by simp, hpost.put hb⟩

/-- Of the nodes of `m'`, those that are not among `ns'` were in `m`, and not among `ns`. -/
def Confined (m : Memory (PlNode α)) (ns : List (ℕ × α)) (m' : Memory (PlNode α))
    (ns' : List (ℕ × α)) : Prop :=
  ∀ a, (∃ v, m'.cell a = some v) → a ∉ ns'.map Prod.fst →
    (∃ v, m.cell a = some v) ∧ a ∉ ns.map Prod.fst

theorem Confined.refl (m : Memory (PlNode α)) (ns : List (ℕ × α)) : Confined m ns m ns :=
  fun _ hcell ha => ⟨hcell, ha⟩

/-- A node more among those that are listed. -/
theorem Confined.insert {pre post : List (ℕ × α)} (h : Confined m ns m' (pre ++ post)) (a : ℕ)
    (x : α) (v : PlNode α) : Confined m ns (m'.put a v) (pre ++ (a, x) :: post) := by
  intro b ⟨w, hw⟩ hb
  simp only [List.map_append, List.map_cons, List.mem_append, List.mem_cons, not_or] at hb
  rw [Memory.put_cell_of_ne hb.2.1] at hw
  exact h b ⟨w, hw⟩ (by simpa using ⟨fun x hx => hb.1 (List.mem_map_of_mem hx),
    fun x hx => hb.2.2 (List.mem_map_of_mem hx)⟩)

/-- A listed node is written. -/
theorem Confined.put (h : Confined m ns m' ns') (ha : a ∈ ns'.map Prod.fst) (v : PlNode α) :
    Confined m ns (m'.put a v) ns' := by
  intro b ⟨w, hw⟩ hb
  have hba : b ≠ a := by
    rintro rfl
    exact hb ha
  rw [Memory.put_cell_of_ne hba] at hw
  exact h b ⟨w, hw⟩ hb

/-- A listed node is freed. -/
theorem Confined.erase {pre post : List (ℕ × α)} (h : Confined m ns m' (pre ++ (a, x) :: post)) :
    Confined m ns (m'.erase a) (pre ++ post) := by
  intro b ⟨w, hw⟩ hb
  by_cases hba : b = a
  · simp [hba] at hw
  · rw [Memory.erase_cell_of_ne hba] at hw
    rw [List.map_append, List.mem_append, not_or] at hb
    exact h b ⟨w, hw⟩ (by
      rw [List.map_append, List.map_cons, List.mem_append, List.mem_cons, not_or, not_or]
      exact ⟨hb.1, hba, hb.2⟩)

/-- What a function that returned `r` has made of the list `l` with the nodes `ns`: the nodes are
now `ns'`, and it has allocated no others and not moved the cursor. -/
structure Relinks (l : PtrList α) (ns : List (ℕ × α)) (l' : PtrList α) (ns' : List (ℕ × α)) :
    Prop where
  nodes : l'.Nodes ns'
  iter : l'.iter = l.iter
  confined : Confined l.mem ns l'.mem ns'

theorem Nodes.relinks (h : l.Nodes ns) : Relinks l ns l ns := ⟨h, rfl, .refl _ _⟩

/-- The nodes `ns` are those of the list `l`, and all there are in its memory. -/
structure Owned (l : PtrList α) (ns : List (ℕ × α)) : Prop where
  nodes : l.Nodes ns
  inUse : l.mem.InUse (ns.map Prod.fst)

theorem Owned.of_iter (h : l.Owned ns) (iter : Ptr) : Owned { l with iter } ns :=
  ⟨h.nodes.of_iter iter, h.inUse⟩

theorem Owned.relinks {l' : PtrList α} (h : l.Owned ns) (hr : Relinks l ns l' ns') :
    l'.Owned ns' := by
  refine ⟨hr.nodes, hr.nodes.nodup, fun a => ⟨fun ha => ?_, fun hcell => ?_⟩⟩
  · obtain ⟨n, hn, rfl⟩ := List.mem_map.1 ha
    obtain ⟨r, hr⟩ := hr.nodes.seg.exists_cell hn
    exact ⟨_, hr⟩
  · by_contra ha
    obtain ⟨hold, hns⟩ := hr.confined a hcell ha
    exact hns ((h.inUse.mem_iff a).2 hold)

theorem owned_init : (ptrlistInit : PtrList α).Owned [] := ⟨⟨rfl, by simp⟩, .empty⟩

theorem Nodes.insert_nil (h : l.Nodes []) (i : ℤ) (x : α) :
    Returns (ptrlistInsert l i (some x) true) fun r => r.1 = true ∧
      Relinks l [] r.2 [(l.mem.brk, x)] := by
  have hhead : l.head = none := h.nil_iff.2 rfl
  have hconf : Confined l.mem [] l.mem ([] ++ []) := .refl l.mem []
  simp only [ptrlistInsert, hhead, Memory.alloc, Bool.not_true, Bool.false_eq_true, if_false]
  exact .ok ⟨rfl, ⟨⟨rfl, none, by simp, rfl⟩, by simp⟩, rfl, hconf.insert _ x _⟩

section InsertAt

variable {pre post : List (ℕ × α)} {b : ℕ} {y : α}

/-- The loop has stopped at the node `b` with the index used up: the new node goes before `b`. -/
theorem Nodes.insert_before (h : l.Nodes (pre ++ (b, y) :: post)) (x : α) (hhead : l.head = some a)
    (hk : PtrList.seek (l.mem.put l.mem.brk ⟨x, none⟩) l.turns (pre.length, none, a) =
      .ok (0, lastPtr none pre, b)) :
    Returns (ptrlistInsert l pre.length (some x) true) fun r => r.1 = true ∧
      Relinks l (pre ++ (b, y) :: post) r.2 (pre ++ (l.mem.brk, x) :: (b, y) :: post) := by
  obtain ⟨hseg, hd⟩ := h
  have hnew := hseg.brk_notMem
  set new := l.mem.brk with hn
  obtain ⟨s, hpre, hs⟩ := seg_append.1 hseg
  obtain rfl : s = some b := hs.1
  have hnew' := hnew
  rw [List.map_append, List.mem_append, not_or] at hnew'
  set m₂ := (l.mem.put new ⟨x, none⟩).put new ⟨x, some b⟩ with hm₂
  have hrest : Seg m₂ (some new) ((new, x) :: (b, y) :: post) none :=
    ⟨rfl, some b, by simp [hm₂], (hs.put hnew'.2).put hnew'.2⟩
  have hconf : Confined l.mem (pre ++ (b, y) :: post) m₂ (pre ++ (new, x) :: (b, y) :: post) :=
    ((Confined.refl l.mem (pre ++ (b, y) :: post)).insert new x ⟨x, none⟩).put (by simp) ⟨x, some b⟩
  simp only [ptrlistInsert, hhead, Memory.alloc, ← hn, hk, Bool.not_true, Bool.false_eq_true,
    if_false, ok_bind, ne_eq, not_true]
  rw [Memory.modify_of_cell (v := ⟨x, none⟩) (by simp), ok_bind, ← hm₂]
  rcases List.eq_nil_or_concat' pre with rfl | ⟨pre, ⟨c, w⟩, rfl⟩
  · exact .ok ⟨rfl, ⟨hrest, List.nodup_cons.2 ⟨hnew, hd⟩⟩, rfl, hconf⟩
  · have hcn : c ≠ new := fun e => hnew'.1 (by simp [e])
    have hc : m₂.cell c = some ⟨w, some b⟩ := by
      rw [hm₂, Memory.put_cell_of_ne hcn, Memory.put_cell_of_ne hcn]
      exact (seg_concat.1 hpre).2
    have hcd := hd
    rw [List.append_assoc] at hcd
    have hcpost := (notMem_of_nodup hcd).2.1
    rw [lastPtr_concat]
    simp only [Memory.modify_of_cell hc, ok_bind]
    refine .ok ⟨rfl, ⟨?_, nodup_insert hd hnew⟩, rfl, hconf.put (by simp) _⟩
    have hlinked := ((hpre.put hnew'.1).put hnew'.1).relink (hd.sublist (by simp)) hrest
      (by simpa [hcn] using hcpost)
    simpa [hhead] using hlinked

/-- The loop has stopped at the last node `b` with some of the index left: the new node goes last. -/
theorem Nodes.insert_after (h : l.Nodes (pre ++ [(b, y)])) {i : ℤ} (x : α) (hhead : l.head = some a)
    (hk : PtrList.seek (l.mem.put l.mem.brk ⟨x, none⟩) l.turns (i, none, a) =
      .ok (i - pre.length, lastPtr none pre, b)) (hi : i ≠ pre.length) :
    Returns (ptrlistInsert l i (some x) true) fun r => r.1 = true ∧
      Relinks l (pre ++ [(b, y)]) r.2 (pre ++ [(b, y)] ++ [(l.mem.brk, x)]) := by
  obtain ⟨hseg, hd⟩ := h
  have hnew := hseg.brk_notMem
  have hseg₁ := hseg.put (v := ⟨x, none⟩) hnew
  set new := l.mem.brk with hn
  have hb : (l.mem.put new ⟨x, none⟩).cell b = some ⟨y, none⟩ := (seg_concat.1 hseg₁).2
  have hbn : b ≠ new := fun e => hnew (by simp [e])
  have hconf : Confined l.mem (pre ++ [(b, y)]) l.mem (pre ++ [(b, y)] ++ []) := by
    simpa using Confined.refl l.mem (pre ++ [(b, y)])
  simp only [ptrlistInsert, hhead, Memory.alloc, ← hn, hk, Bool.not_true, Bool.false_eq_true,
    if_false, ok_bind]
  rw [if_pos (by omega), Memory.modify_of_cell hb, ok_bind]
  refine .ok ⟨rfl, ⟨?_, nodup_insert (by simpa using hd) (by simpa using hnew)⟩, rfl,
    (hconf.insert new x ⟨x, none⟩).put (by simp) ⟨y, some new⟩⟩
  have hlast : Seg (l.mem.put new ⟨x, none⟩) (some new) [(new, x)] none := ⟨rfl, none, by simp, rfl⟩
  have hlinked := hseg₁.relink hd hlast (by simpa using hbn)
  simpa [hhead] using hlinked

end InsertAt

/-- `ptrlist_insert` puts a new node where `insertAt` puts the element. -/
theorem Nodes.insert (h : l.Nodes ns) (i : ℤ) (x : α) :
    Returns (ptrlistInsert l i (some x) true) fun r => r.1 = true ∧
      ∃ pre post, ns = pre ++ post ∧ Relinks l ns r.2 (pre ++ (l.mem.brk, x) :: post) ∧
        (pre ++ (l.mem.brk, x) :: post).map Prod.snd = insertAt (ns.map Prod.snd) i x := by
  rcases ns with _ | ⟨⟨a, y⟩, ns⟩
  · apply (h.insert_nil i x).mono
    intro r ⟨hr, hlinks⟩
    exact ⟨hr, [], [], rfl, hlinks, by simp [insertAt]⟩
  have hhead : l.head = some a := h.seg.1
  have hseg₁ : Seg (l.mem.put l.mem.brk ⟨x, none⟩) (some a) ((a, y) :: ns) none :=
    hhead ▸ h.seg.put h.seg.brk_notMem
  obtain ⟨pre, b, z, post, he, hk, hne, hor⟩ := seek_spec (i := i) (p := none) (k := l.turns)
    hseg₁ (Nat.lt_of_succ_lt h.length_lt_turns)
  rw [he] at h ⊢
  by_cases hi : i = pre.length
  · rw [hi, Int.sub_self] at hk
    rw [hi]
    apply (h.insert_before x hhead hk).mono
    intro r ⟨hr, hlinks⟩
    refine ⟨hr, pre, (b, z) :: post, rfl, hlinks, ?_⟩
    rw [List.map_append, List.map_append, insertAt_append x (by simp)]
    rfl
  · obtain rfl : post = [] := hor.resolve_left hi
    apply (h.insert_after x hhead hk hi).mono
    intro r ⟨hr, hlinks⟩
    refine ⟨hr, pre ++ [(b, z)], [], by simp, hlinks, ?_⟩
    rw [insertAt_eq_append]
    · simp
    · intro j hj
      rcases Nat.lt_or_ge j pre.length with hlt | hge
      · exact hne j hlt
      · rw [show j = pre.length by simp at hj; omega]
        exact hi

/-- Null is not put in a list. -/
theorem replace_none (l : PtrList α) (i : ℕ) : ptrlistReplace l i none = .ok (false, l) := by
  unfold ptrlistReplace
  cases l.head <;> rfl

/-- The loop for an index of type `size_t`: it stops at the node with that index, if there is
one. -/
theorem Nodes.seek_lt (h : l.Nodes ns) (ha : l.head = some a) {i : ℕ} (hi : i < ns.length) :
    ∃ pre b y post, ns = pre ++ (b, y) :: post ∧ pre.length = i ∧
      PtrList.seek l.mem l.turns (i, none, a) = .ok (0, lastPtr none pre, b) := by
  obtain ⟨pre, b, y, post, rfl, hk, hne, hor⟩ := h.seek ha i
  have hpre : pre.length = i := by
    rcases hor with h | rfl
    · omega
    · by_contra hc
      have := hne i
      simp only [List.length_append, List.length_cons, List.length_nil] at hi
      exact this (by omega) rfl
  exact ⟨pre, b, y, post, rfl, hpre, by rw [hk, hpre]; simp⟩

/-- The loop for an index past the end leaves a positive index. -/
theorem Nodes.seek_ge (h : l.Nodes ns) (ha : l.head = some a) {i : ℕ} (hi : ns.length ≤ i) :
    ∃ j q b, 0 < j ∧ PtrList.seek l.mem l.turns (i, none, a) = .ok (j, q, b) := by
  obtain ⟨pre, b, y, post, rfl, hk, hne, hor⟩ := h.seek ha i
  rw [List.length_append, List.length_cons] at hi
  exact ⟨_, _, _, by omega, hk⟩

/-- `ptrlist_get` returns the element with the index, or null past the end. -/
theorem get_spec (h : l.Lists xs) (i : ℕ) : ptrlistGet l i = .ok xs[i]? := by
  obtain ⟨ns, hns, rfl⟩ := h
  unfold ptrlistGet
  split
  case h_1 hhead => simp [hns.nil_iff.1 hhead]
  case h_2 a hhead =>
    rcases Nat.lt_or_ge i ns.length with hlt | hge
    · obtain ⟨pre, b, y, post, rfl, rfl, hk⟩ := hns.seek_lt hhead hlt
      obtain ⟨s, -, rfl, r, hb, -⟩ := seg_append.1 hns.seg
      simp [hk, Memory.load_of_cell hb]
    · obtain ⟨j, q, b, hj, hk⟩ := hns.seek_ge hhead hge
      rw [List.getElem?_eq_none (by simpa using hge), hk]
      simp [hj]

/-- `ptrlist_replace` changes the element of the node with the index, or nothing past the end. -/
theorem Nodes.replace (h : l.Nodes ns) (i : ℕ) (x : α) :
    Returns (ptrlistReplace l i (some x)) fun r => r.1 = decide (i < ns.length) ∧
      ∃ ns', Relinks l ns r.2 ns' ∧ ns'.map Prod.fst = ns.map Prod.fst ∧
        ns'.map Prod.snd = (ns.map Prod.snd).set i x := by
  unfold ptrlistReplace
  split
  case h_2 hhead =>
    have hnil : ns = [] := h.nil_iff.1 (by
      cases hh : l.head with
      | none => rfl
      | some a => exact (hhead a x hh rfl).elim)
    subst hnil
    exact .ok ⟨by simp, [], h.relinks, rfl, rfl⟩
  case h_1 a x' hhead hx =>
    obtain rfl := Option.some.inj hx
    rcases Nat.lt_or_ge i ns.length with hlt | hge
    · obtain ⟨pre, b, y, post, rfl, rfl, hk⟩ := h.seek_lt hhead hlt
      obtain ⟨s, hpre, rfl, r, hb, hpost⟩ := seg_append.1 h.seg
      obtain ⟨hbpre, hbpost, -⟩ := notMem_of_nodup h.nodup
      simp only [hk, ok_bind, Memory.modify_of_cell hb, gt_iff_lt]
      refine .ok ⟨by simp, pre ++ (b, x) :: post, ⟨⟨?_, by simpa using h.nodup⟩, rfl, ?_⟩, by simp,
        by simp⟩
      · exact seg_append.2 ⟨some b, hpre.put hbpre, rfl, r, by simp, hpost.put hbpost⟩
      · have hconf := (Confined.refl l.mem (pre ++ (b, y) :: post)).put (a := b) (by simp) ⟨x, r⟩
        intro c hcell hc
        exact hconf c hcell (by simpa using hc)
    · obtain ⟨j, q, b, hj, hk⟩ := h.seek_ge hhead hge
      simp only [hk, ok_bind, gt_iff_lt, if_pos hj]
      refine .ok ⟨by simpa using hge, ns, h.relinks, rfl, ?_⟩
      rw [List.set_eq_of_length_le (by simpa using hge)]

/-- `ptrlist_remove` unlinks and frees the node with the index, or nothing past the end. -/
theorem Nodes.remove (h : l.Nodes ns) (i : ℕ) :
    Returns (ptrlistRemove l i) fun r =>
      r.1 = decide (i < ns.length) ∧ Relinks l ns r.2 (ns.eraseIdx i) := by
  unfold ptrlistRemove
  split
  case h_1 hhead =>
    obtain rfl := h.nil_iff.1 hhead
    exact .ok ⟨by simp, h.relinks⟩
  case h_2 a hhead =>
    rcases Nat.lt_or_ge i ns.length with hlt | hge
    · obtain ⟨pre, b, y, post, rfl, rfl, hk⟩ := h.seek_lt hhead hlt
      obtain ⟨s, hpre, rfl, r, hb, hpost⟩ := seg_append.1 h.seg
      obtain ⟨hbpre, hbpost, hnd⟩ := notMem_of_nodup h.nodup
      have herase : (pre ++ (b, y) :: post).eraseIdx pre.length = pre ++ post := by
        simp [List.eraseIdx_append_of_length_le]
      have hconf := Confined.refl l.mem (pre ++ (b, y) :: post)
      simp only [hk, ok_bind, Memory.load_of_cell hb, gt_iff_lt, herase]
      rcases List.eq_nil_or_concat' pre with rfl | ⟨pre, ⟨c, w⟩, rfl⟩
      · simp only [lastPtr_nil, Memory.free_of_cell hb, ok_bind]
        exact .ok ⟨by simp, ⟨hpost.erase hbpost, hnd⟩, rfl, hconf.erase⟩
      · obtain ⟨hpre', hc⟩ := seg_concat.1 hpre
        have hbc : b ≠ c := fun e => hbpre (by simp [e])
        have hb' : (l.mem.put c ⟨w, r⟩).cell b = some ⟨y, r⟩ := by
          rw [Memory.put_cell_of_ne hbc, hb]
        simp only [lastPtr_concat, Memory.modify_of_cell hc, ok_bind, Memory.free_of_cell hb']
        refine .ok ⟨by simp, ⟨?_, hnd⟩, rfl, (hconf.put (by simp) _).erase⟩
        have hcpost := (notMem_of_nodup (x := w) (by simpa using hnd)).2.1
        have hb_notMem : b ∉ (pre ++ (c, w) :: post).map Prod.fst := by
          rw [List.append_cons, List.map_append, List.mem_append, not_or]
          exact ⟨hbpre, hbpost⟩
        simpa using (hpre.relink (hnd.sublist (by simp)) hpost hcpost).erase hb_notMem
    · obtain ⟨j, q, b, hj, hk⟩ := h.seek_ge hhead hge
      simp only [hk, ok_bind, gt_iff_lt, if_pos hj]
      rw [List.eraseIdx_of_length_le hge]
      exact .ok ⟨by simpa using hge, h.relinks⟩

/-- `ptrlist_insert` puts the element where `insertAt` does. -/
theorem insert_spec (h : l.Lists xs) (i : ℤ) (x : α) :
    Returns (ptrlistInsert l i (some x) true) fun r =>
      r.1 = true ∧ r.2.Lists (insertAt xs i x) := by
  obtain ⟨ns, hns, rfl⟩ := h
  apply (hns.insert i x).mono
  rintro r ⟨htrue, pre, post, -, hr, hxs⟩
  exact ⟨htrue, _, hr.nodes, hxs⟩

/-- `ptrlist_replace` changes the element with the index, or nothing past the end. -/
theorem replace_spec (h : l.Lists xs) (i : ℕ) (x : α) :
    Returns (ptrlistReplace l i (some x)) fun r =>
      r.1 = decide (i < xs.length) ∧ r.2.Lists (xs.set i x) := by
  obtain ⟨ns, hns, rfl⟩ := h
  apply (hns.replace i x).mono
  rintro r ⟨hout, ns', hr, -, hxs⟩
  exact ⟨by simpa using hout, ns', hr.nodes, hxs⟩

/-- `ptrlist_remove` deletes the element with the index, or nothing past the end. -/
theorem remove_spec (h : l.Lists xs) (i : ℕ) :
    Returns (ptrlistRemove l i) fun r =>
      r.1 = decide (i < xs.length) ∧ r.2.Lists (xs.eraseIdx i) := by
  obtain ⟨ns, hns, rfl⟩ := h
  apply (hns.remove i).mono
  intro r ⟨hout, hr⟩
  exact ⟨by simpa using hout, _, hr.nodes, by rw [List.eraseIdx_map]⟩

theorem findLoop_spec {f : α → Bool} {c k : ℕ} (h : Seg m p ns none) (hk : ns.length < k) :
    findLoop m f k (p, c) = .ok
      (match (ns.map Prod.snd).findIdx? f with
        | some i => (c + i : ℕ)
        | none => -1) := by
  induction ns generalizing p c k with
  | nil =>
    obtain ⟨k, rfl⟩ : ∃ k', k = k' + 1 := ⟨k - 1, by omega⟩
    obtain rfl : p = none := h
    rw [findLoop, loop_inr (b := -1) rfl]
    rfl
  | cons n ns ih =>
    obtain ⟨k, rfl⟩ : ∃ k', k = k' + 1 := ⟨k - 1, by omega⟩
    obtain ⟨rfl, r, hr, h⟩ := h
    rw [List.map_cons, List.findIdx?_cons]
    by_cases hf : f n.2
    · rw [findLoop, loop_inr (b := (c : ℤ)) (by simp [Memory.load_of_cell hr, hf])]
      simp [hf]
    · rw [findLoop, loop_inl (t := (r, (c : ℤ) + 1)) (by simp [Memory.load_of_cell hr, hf]), ← findLoop]
      rw [show ((c : ℤ) + 1) = ((c + 1 : ℕ) : ℤ) by simp, ih h (by simpa using hk), if_neg hf]
      cases (ns.map Prod.snd).findIdx? f with
      | none => rfl
      | some i => simp [Nat.add_assoc, Nat.add_comm 1 i]

/-- An index that was found, or `-1`. -/
def indexOr : Option ℕ → ℤ
  | some i => i
  | none => -1

/-- `ptrlist_findfn` returns the least matching index, or `-1`. -/
theorem findfn_spec (h : l.Lists xs) (fndfn : α → Bool) :
    ptrlistFindfn l fndfn = .ok (indexOr (xs.findIdx? fndfn)) := by
  obtain ⟨ns, hns, rfl⟩ := h
  have hloop := findLoop_spec (f := fndfn) (c := 0) hns.seg hns.length_lt_turns
  refine hloop.trans ?_
  cases (ns.map Prod.snd).findIdx? fndfn with
  | none => rfl
  | some i => simp [indexOr]

/-- `ptrlist_findeqfn` returns the least matching index, or `-1`. -/
theorem findeqfn_spec (h : l.Lists xs) (eqfn : α → β → Bool) (needle : β) :
    ptrlistFindeqfn l eqfn needle = .ok
      (match xs.findIdx? (eqfn · needle) with
        | some i => (i : ℤ)
        | none => -1) := by
  have hfn := findfn_spec h (eqfn · needle)
  rw [ptrlistFindeqfn, ← ptrlistFindfn, hfn]
  cases xs.findIdx? (eqfn · needle) <;> rfl

theorem countLoop_spec {c k : ℕ} (h : Seg m (some a) ((a, x) :: ns) none) (hk : ns.length < k) :
    countLoop m k (a, c) = .ok (c + ns.length) := by
  induction ns generalizing a x c k with
  | nil =>
    obtain ⟨k, rfl⟩ : ∃ k', k = k' + 1 := ⟨k - 1, by omega⟩
    obtain ⟨-, r, hr, rfl⟩ := h
    rw [countLoop, loop_inr (b := c) (by simp [Memory.load_of_cell hr])]
    rfl
  | cons n ns ih =>
    obtain ⟨k, rfl⟩ : ∃ k', k = k' + 1 := ⟨k - 1, by omega⟩
    obtain ⟨-, r, hr, hs⟩ := h
    obtain ⟨rfl, -⟩ := id hs
    rw [countLoop, loop_inl (t := (n.1, c + 1)) (by simp [Memory.load_of_cell hr]), ← countLoop,
      ih hs (by simpa using hk), List.length_cons, Nat.add_right_comm, Nat.add_assoc]

/-- `ptrlist_count` returns the length. -/
theorem count_spec (h : l.Lists xs) : ptrlistCount l = .ok xs.length := by
  obtain ⟨ns, hns, rfl⟩ := h
  have hturns := hns.length_lt_turns
  unfold ptrlistCount
  cases ns with
  | nil => rw [hns.nil_iff.2 rfl]; rfl
  | cons n ns =>
    have hseg := hns.seg
    rw [hns.seg.1] at hseg ⊢
    simp only
    rw [countLoop_spec hseg (Nat.lt_of_succ_lt hturns), List.length_map, List.length_cons,
      Nat.add_comm]

theorem clearLoop_spec {k : ℕ} (h : Seg m p ns none) (hd : (ns.map Prod.fst).Nodup)
    (hk : ns.length < k) : Returns (clearLoop k (m, p)) (Confined m ns · []) := by
  induction ns generalizing m p k with
  | nil =>
    obtain ⟨k, rfl⟩ : ∃ k', k = k' + 1 := ⟨k - 1, by omega⟩
    obtain rfl : p = none := h
    exact ⟨m, loop_inr rfl k, .refl m []⟩
  | cons n ns ih =>
    obtain ⟨k, rfl⟩ : ∃ k', k = k' + 1 := ⟨k - 1, by omega⟩
    obtain ⟨rfl, r, hr, h⟩ := h
    obtain ⟨hn, hd⟩ := List.nodup_cons.1 hd
    rw [clearLoop, loop_inl (t := (m.erase n.1, r))
      (by simp [Memory.load_of_cell hr, Memory.free_of_cell hr]), ← clearLoop]
    apply (ih (h.erase hn) hd (by simpa using hk)).mono
    intro m' hm' a hcell ha
    obtain ⟨⟨v, hv⟩, hans⟩ := hm' a hcell ha
    have hconf : Confined m (n :: ns) m ([] ++ n :: ns) := .refl m (n :: ns)
    exact hconf.erase a ⟨v, hv⟩ hans

/-- `ptrlist_clear` frees all nodes. -/
theorem Nodes.clear (h : l.Nodes ns) : Returns (ptrlistClear l) (Relinks l ns · []) := by
  apply (clearLoop_spec h.seg h.nodup h.length_lt_turns).bind
  intro mem hmem
  exact .ok ⟨⟨rfl, by simp⟩, rfl, hmem⟩

/-- `ptrlist_clear` leaves the empty list. -/
theorem clear_spec (h : l.Lists xs) : Returns (ptrlistClear l) fun l' => l'.Lists [] := by
  obtain ⟨ns, hns, rfl⟩ := h
  exact hns.clear.mono fun l' hl' => ⟨[], hl'.nodes, rfl⟩

/-! ## The cursor -/

/-- `ptrlist_first` moves the cursor to the first node, if there is one. -/
theorem Nodes.first_cons (h : l.Nodes ((a, x) :: ns)) :
    ptrlistFirst l = .ok (some x, { l with iter := some a }) := by
  obtain ⟨hhead, r, hr, -⟩ := h.seg
  simp [ptrlistFirst, hhead, Memory.load_of_cell hr]

theorem Nodes.first_nil (h : l.Nodes []) : ptrlistFirst l = .ok (none, l) := by
  rw [ptrlistFirst, h.nil_iff.2 rfl]

/-- `ptrlist_next` moves the cursor to the node behind it, if there is one. -/
theorem Nodes.next_cons {pre post : List (ℕ × α)} {b : ℕ} {y : α}
    (h : l.Nodes (pre ++ (a, x) :: (b, y) :: post)) (hiter : l.iter = some a) :
    ptrlistNext l = .ok (some y, { l with iter := some b }) := by
  obtain ⟨_, -, rfl, r, hr, rfl, s, hs, -⟩ := seg_append.1 h.seg
  simp [ptrlistNext, hiter, Memory.load_of_cell hr, Memory.load_of_cell hs]

theorem Nodes.next_nil {pre : List (ℕ × α)} (h : l.Nodes (pre ++ [(a, x)]))
    (hiter : l.iter = some a) : ptrlistNext l = .ok (none, l) := by
  obtain ⟨-, hcell⟩ := seg_concat.1 h.seg
  simp [ptrlistNext, hiter, Memory.load_of_cell hcell]

end PtrList

end LibSrsBsns
