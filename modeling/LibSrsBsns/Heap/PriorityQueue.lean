import LibSrsBsns.Heap.Model
import LibSrsBsns.Foundations.C.Runs
import LibSrsBsns.Foundations.Data.Comparator
import LibSrsBsns.Foundations.Data.HeapOrder
import Mathlib.Data.Multiset.Basic

/-!
# The heap is a priority queue

The elements of a heap are the first `next` cells of its array, in heap order
(`Heap.Stores`, `HeapOrder.Ordered`). The loops of `upheap` and `downheap` exchange neighbours until
the order is restored (`Heap.upheap_spec`, `Heap.downheap_spec`), so that the heap holds the same
elements after them. As a multiset these are what a priority queue holds (`PqSpec`).
-/

namespace LibSrsBsns

open C HeapOrder

variable {α : Type} {cmpfn : α → α → ℤ}

namespace Heap

variable {tree : Buffer α} {xs ys : List α} {h : Heap α} {n : ℕ}

/-- The elements of the heap `h` are those of the list `xs`, in the order of the array. -/
structure Stores (h : Heap α) (xs : List α) : Prop where
  size : h.tree.size = h.treesz
  pos : 0 < h.treesz
  count : h.count = xs.length
  next : h.next = xs.length
  holds : h.tree.Holds 0 xs

theorem read_of_holds (ht : tree.Holds 0 xs) (hn : n < xs.length) :
    tree.read n = .ok xs[n] := by
  have := ht.read hn
  rwa [Nat.zero_add] at this

theorem swap_spec (ht : tree.Holds 0 xs) {n1 n2 : ℕ} (h1 : n1 < xs.length) (h2 : n2 < xs.length) :
    Returns (swap tree n1 n2) fun tree' =>
      tree'.size = tree.size ∧ tree'.Holds 0 (swapAt xs h1 h2) := by
  have hw := ht.write h1 xs[n2]
  rw [Nat.zero_add] at hw
  simp only [swap, read_of_holds ht h1, read_of_holds ht h2, ok_bind]
  apply hw.bind
  intro t ht'
  have hw' := ht'.2.write (i := n2) (by simpa using h2) xs[n1]
  rw [Nat.zero_add] at hw'
  apply hw'.mono
  intro t' hts
  exact ⟨hts.1.trans ht'.1, hts.2⟩

/-- Comparing two nodes of the array. -/
theorem leAt_iff {i j : ℕ} (hi : i < xs.length) (hj : j < xs.length) :
    LeAt (CmpLe cmpfn) xs i j ↔ cmpfn xs[i] xs[j] ≤ 0 := by
  simp [LeAt, List.getElem?_eq_getElem hi, List.getElem?_eq_getElem hj, CmpLe]

/-- The rule for sifting up: what holds of the elements and the node, and is kept when the node is
exchanged with its parent. -/
theorem upheap_rule (I : List α → ℕ → Prop) {Q : List α → Prop} (hs : h.Stores xs)
    (hn : n < xs.length) (hI : I xs n)
    (hswap : ∀ ys node (hnode : node < ys.length) (hpar : parent node < ys.length), 0 < node →
      I ys node → cmpfn ys[node] ys[parent node] < 0 → I (swapAt ys hnode hpar) (parent node))
    (hroot : ∀ ys, I ys 0 → Q ys)
    (hstop : ∀ ys node (hnode : node < ys.length) (hpar : parent node < ys.length),
      I ys node → ¬ cmpfn ys[node] ys[parent node] < 0 → Q ys) :
    Returns (upheap cmpfn h n) fun h' => ∃ ys, ys.Perm xs ∧ h'.Stores ys ∧ Q ys := by
  unfold upheap
  split
  case isTrue h0 => exact .ok ⟨xs, .refl _, hs, hroot xs (h0 ▸ hI)⟩
  case isFalse h0 =>
    have hloop : Returns (upLoop cmpfn (n + 1) (h.tree, n)) fun tree =>
        tree.size = h.treesz ∧ ∃ ys, ys.Perm xs ∧ tree.Holds 0 ys ∧ Q ys := by
      apply Returns.loop (fun s => s.1.size = h.treesz ∧ 0 < s.2 ∧ s.2 < xs.length ∧
        ∃ ys, ys.Perm xs ∧ s.1.Holds 0 ys ∧ I ys s.2) (fun s => s.2) _ _
        ⟨hs.size, Nat.pos_of_ne_zero h0, hn, xs, .refl _, hs.holds, hI⟩ (Nat.lt_succ_self n)
      rintro ⟨t, node⟩ ⟨hts, hpos, hlt, ys, hp, hty, hIy⟩
      have hlen := hp.length_eq
      have hnode : node < ys.length := by omega
      have hpar : parent node < ys.length := by unfold parent; omega
      simp only [read_of_holds hty hnode, read_of_holds hty hpar, ok_bind]
      split
      case isTrue hcmp =>
        apply (swap_spec hty hnode hpar).bind
        intro t' ht'
        have hperm := (swapAt_perm hnode hpar).trans hp
        have hI' := hswap ys node hnode hpar hpos hIy hcmp
        split
        case isTrue hp0 => exact .ok ⟨ht'.1.trans hts, _, hperm, ht'.2, hroot _ (hp0 ▸ hI')⟩
        case isFalse hp0 =>
          have hpos' : 0 < parent node := Nat.pos_of_ne_zero hp0
          refine .ok ⟨⟨ht'.1.trans hts, hpos', hlen ▸ hpar, _, hperm, ht'.2, hI'⟩, ?_⟩
          show (node - 1) / 2 < node
          omega
      case isFalse hcmp => exact .ok ⟨hts, ys, hp, hty, hstop ys node hnode hpar hIy hcmp⟩
    apply hloop.bind
    intro tree ⟨hts, ys, hp, hty, hQ⟩
    have hlen := hp.length_eq
    exact .ok ⟨ys, hp, ⟨hts, hs.pos, hlen ▸ hs.count, hlen ▸ hs.next, hty⟩, hQ⟩

/-- **Sifting up** restores the order above a node. -/
theorem upheap_spec (hc : IsCmpFn cmpfn) (hs : h.Stores xs) (ho : Above (CmpLe cmpfn) xs n)
    (hn : n < xs.length) : Returns (upheap cmpfn h n) fun h' =>
      ∃ ys, ys.Perm xs ∧ h'.Stores ys ∧ Ordered (CmpLe cmpfn) ys := by
  have := hc.isPreorder
  apply upheap_rule (Above (CmpLe cmpfn)) hs hn ho
  · intro ys node hnode hpar hpos hoy hcmp
    exact hoy.swap hnode hpos hpar ((leAt_iff hnode hpar).2 hcmp.le)
  · intro ys hoy
    exact hoy.of_root rfl
  · intro ys node hnode hpar hoy hcmp
    exact hoy.finish ((leAt_iff hpar hnode).2 (hc.not_lt.1 hcmp))

theorem less_spec (ht : tree.Holds 0 xs) {i j : ℕ} (hi : i < xs.length) (hj : j < xs.length) :
    less cmpfn tree i j = .ok (decide (cmpfn xs[i] xs[j] < 0)) := by
  simp [less, read_of_holds ht hi, read_of_holds ht hj]

theorem leAt_of_lt {i j : ℕ} (hi : i < xs.length) (hj : j < xs.length) (h : cmpfn xs[i] xs[j] < 0) :
    LeAt (CmpLe cmpfn) xs i j :=
  (leAt_iff hi hj).2 h.le

theorem leAt_of_not_lt (hc : IsCmpFn cmpfn) {i j : ℕ} (hi : i < xs.length) (hj : j < xs.length)
    (h : ¬ cmpfn xs[i] xs[j] < 0) : LeAt (CmpLe cmpfn) xs j i :=
  (leAt_iff hj hi).2 (hc.not_lt.1 h)

theorem eq_left_or_right {i : ℕ} (hi : 0 < i) (hp : parent i = n) : i = left n ∨ i = right n := by
  unfold parent at hp
  unfold left right
  omega

/-- The child `j` of `n` is before `n` and before its sibling. -/
structure Exchangeable (cmpfn : α → α → ℤ) (xs : List α) (n j : ℕ) : Prop where
  child : j = left n ∨ j = right n
  lt : j < xs.length
  le : LeAt (CmpLe cmpfn) xs j n
  sibling : ∀ i, 0 < i → parent i = n → i ≠ j → LeAt (CmpLe cmpfn) xs j i

theorem exchangeable_left (hl : left n < xs.length) (hle : LeAt (CmpLe cmpfn) xs (left n) n)
    (hr : LeAt (CmpLe cmpfn) xs (left n) (right n)) : Exchangeable cmpfn xs n (left n) :=
  ⟨.inl rfl, hl, hle, fun _ hi hp hne => (eq_left_or_right hi hp).resolve_left hne ▸ hr⟩

theorem exchangeable_right (hr : right n < xs.length) (hle : LeAt (CmpLe cmpfn) xs (right n) n)
    (hl : LeAt (CmpLe cmpfn) xs (right n) (left n)) : Exchangeable cmpfn xs n (right n) :=
  ⟨.inr rfl, hr, hle, fun _ hi hp hne => (eq_left_or_right hi hp).resolve_right hne ▸ hl⟩

/-- What the comparisons of `downheap` find: a child to exchange, or nothing, and then the node is
before its children. -/
theorem badChild_spec (hc : IsCmpFn cmpfn) (ht : tree.Holds 0 xs) (hn : n < xs.length)
    (hl : left n < xs.length) :
    Returns (badChild cmpfn tree xs.length n) fun
      | none => LeAt (CmpLe cmpfn) xs n (left n) ∧ LeAt (CmpLe cmpfn) xs n (right n)
      | some j => Exchangeable cmpfn xs n j := by
  have := hc.isPreorder
  by_cases hr : right n < xs.length
  case neg =>
    have hrx (i : ℕ) : LeAt (CmpLe cmpfn) xs i (right n) := .of_length_le (by omega)
    simp only [badChild, less_spec ht hl hn, ok_bind, if_neg hr]
    by_cases hbl : cmpfn xs[left n] xs[n] < 0
    · simp only [hbl, decide_true, Bool.and_false, Bool.or_false, if_true, Bool.false_eq_true,
        if_false]
      exact .ok (exchangeable_left hl (leAt_of_lt hl hn hbl) (hrx _))
    · simp only [hbl, decide_false, Bool.and_false, Bool.or_false, Bool.false_eq_true, if_false]
      exact .ok ⟨leAt_of_not_lt hc hl hn hbl, hrx n⟩
  case pos =>
    simp only [badChild, less_spec ht hl hn, less_spec ht hr hn, less_spec ht hl hr, ok_bind,
      if_pos hr]
    by_cases hbl : cmpfn xs[left n] xs[n] < 0 <;> by_cases hbr : cmpfn xs[right n] xs[n] < 0
    · -- both children are before the node: the smaller one is taken
      simp only [hbl, hbr, decide_true, Bool.and_self, if_true]
      by_cases hlr : cmpfn xs[left n] xs[right n] < 0
      · simp only [hlr, decide_true, if_true]
        exact .ok (exchangeable_left hl (leAt_of_lt hl hn hbl) (leAt_of_lt hl hr hlr))
      · simp only [hlr, decide_false, Bool.false_eq_true, if_false]
        exact .ok (exchangeable_right hr (leAt_of_lt hr hn hbr) (leAt_of_not_lt hc hl hr hlr))
    · simp only [hbl, hbr, decide_true, decide_false, Bool.and_false, Bool.or_false,
        Bool.false_eq_true, if_true, if_false]
      have hle := leAt_of_lt hl hn hbl
      exact .ok (exchangeable_left hl hle (hle.trans (leAt_of_not_lt hc hr hn hbr) hn))
    · simp only [hbl, hbr, decide_true, decide_false, Bool.and_true, Bool.or_true,
        Bool.false_eq_true, if_true, if_false]
      have hle := leAt_of_lt hr hn hbr
      exact .ok (exchangeable_right hr hle (hle.trans (leAt_of_not_lt hc hl hn hbl) hn))
    · simp only [hbl, hbr, decide_false, Bool.and_self, Bool.or_self, Bool.false_eq_true,
        if_false]
      exact .ok ⟨leAt_of_not_lt hc hl hn hbl, leAt_of_not_lt hc hr hn hbr⟩

/-- The rule for sifting down: what holds of the elements and the node, and is kept when the node is
exchanged with a child. -/
theorem downheap_rule (I : List α → ℕ → Prop) {Q : List α → Prop} (hs : h.Stores xs) (hI : I xs 0)
    (hturn : ∀ (tree : Buffer α) ys node, tree.Holds 0 ys → (hnode : node < ys.length) →
      left node < ys.length → I ys node → Returns (badChild cmpfn tree ys.length node) fun c =>
        (c = none → Q ys) ∧
        ∀ j ∈ c, node < j ∧ ∃ hj : j < ys.length, I (swapAt ys hnode hj) j)
    (hleaf : ∀ ys node, ys.length ≤ left node → I ys node → Q ys) :
    Returns (downheap cmpfn h) fun h' => ∃ ys, ys.Perm xs ∧ h'.Stores ys ∧ Q ys := by
  have hloop : Returns (downLoop cmpfn h.next (h.next + 1) (h.tree, 0)) fun tree =>
      tree.size = h.treesz ∧ ∃ ys, ys.Perm xs ∧ tree.Holds 0 ys ∧ Q ys := by
    apply Returns.loop (fun s => s.1.size = h.treesz ∧
      ∃ ys, ys.Perm xs ∧ s.1.Holds 0 ys ∧ I ys s.2) (fun s => h.next - s.2) _ _
      ⟨hs.size, xs, .refl _, hs.holds, hI⟩ (by simp)
    rintro ⟨t, node⟩ ⟨hts, ys, hp, hty, hIy⟩
    rw [hs.next, ← hp.length_eq]
    simp only
    split
    case isTrue hl =>
      have hnode : node < ys.length := by unfold left at hl; omega
      apply (hturn t ys node hty hnode hl hIy).bind
      intro c ⟨hnone, hsome⟩
      cases c with
      | none => exact .ok ⟨hts, ys, hp, hty, hnone rfl⟩
      | some j =>
        obtain ⟨hnj, hj, hI'⟩ := hsome j rfl
        apply (swap_spec hty hnode hj).bind
        intro t' ht'
        refine .ok ⟨⟨ht'.1.trans hts, _, (swapAt_perm hnode hj).trans hp, ht'.2, hI'⟩, ?_⟩
        show ys.length - j < ys.length - node
        omega
    case isFalse hl => exact .ok ⟨hts, ys, hp, hty, hleaf ys node (not_lt.1 hl) hIy⟩
  apply hloop.bind
  intro tree ⟨hts, ys, hp, hty, hQ⟩
  have hlen := hp.length_eq
  exact .ok ⟨ys, hp, ⟨hts, hs.pos, hlen ▸ hs.count, hlen ▸ hs.next, hty⟩, hQ⟩

/-- **Sifting down** restores the order below the root. -/
theorem downheap_spec (hc : IsCmpFn cmpfn) (hs : h.Stores xs) (ho : Below (CmpLe cmpfn) xs 0) :
    Returns (downheap cmpfn h) fun h' =>
      ∃ ys, ys.Perm xs ∧ h'.Stores ys ∧ Ordered (CmpLe cmpfn) ys := by
  have := hc.isPreorder
  apply downheap_rule (Below (CmpLe cmpfn)) hs ho
  · intro tree ys node hty hnode hl hoy
    apply (badChild_spec hc hty hnode hl).mono
    rintro (_ | j) hcd
    · exact ⟨fun _ => hoy.finish hcd.1 hcd.2, fun j hj => (by cases hj)⟩
    · obtain ⟨hj, hjl, hlt, hsib⟩ := hcd
      unfold left right at hj
      have hjn : (j - 1) / 2 = node := by omega
      refine ⟨fun hnone => (by cases hnone), fun i hi => ?_⟩
      obtain rfl := Option.some.inj hi
      exact ⟨by omega, hjl, hoy.swap hnode hjl (by omega) hjn hlt hsib⟩
  · intro ys node hle hoy
    unfold left at hle
    exact hoy.finish (.of_length_le (by omega)) (.of_length_le (by omega))

/-! ## The operations -/

theorem stores_clear (hs : h.Stores xs) : (heapClear h).Stores [] :=
  ⟨hs.size, hs.pos, rfl, rfl, Buffer.holds_nil.2 (Nat.zero_le _)⟩

theorem stores_init : (heapInit : Heap α).Stores [] :=
  ⟨rfl, Nat.succ_pos 31, rfl, rfl, Buffer.holds_nil.2 (Nat.zero_le _)⟩

theorem heapResize_spec (hs : h.Stores xs) (hn : xs.length ≤ n) (hpos : 0 < n) :
    ∃ h', heapResize h n true = (true, h') ∧ h'.Stores xs ∧ h'.treesz = n := by
  have hcount : ¬ n < heapCount h := by
    have := hs.count
    unfold heapCount
    omega
  rw [heapResize, if_neg (Nat.ne_of_gt hpos), if_neg hcount, if_neg (by simp)]
  exact ⟨_, rfl, ⟨rfl, hpos, hs.count, hs.next, hs.holds.realloc (by omega)⟩, rfl⟩

/-- After the growth there is room for one element more. -/
theorem grow_spec (hs : h.Stores xs) :
    (h.grow true).Stores xs ∧ (h.grow true).next < (h.grow true).treesz := by
  have hnext := hs.next
  have hpos := hs.pos
  have hle := hs.holds.le
  have hsize := hs.size
  unfold grow
  split
  case isTrue hge =>
    obtain ⟨h', hr, hs', hsz⟩ := heapResize_spec hs (n := h.treesz * 2) (by omega) (by omega)
    have hnext' := hs'.next
    rw [hr]
    refine ⟨hs', ?_⟩
    show h'.next < h'.treesz
    omega
  case isFalse hlt => exact ⟨hs, by omega⟩

/-- Inserting: with room for it, the element is stored behind the others and sifted up. -/
theorem insert_bind {x : α} {ok : Bool} {P : Heap α → Prop} (hs : (h.grow ok).Stores xs)
    (hroom : (h.grow ok).next < (h.grow ok).treesz)
    (hup : ∀ h', h'.Stores (xs ++ [x]) → Returns (upheap cmpfn h' xs.length) P) :
    Returns (heapInsert cmpfn h (some x) ok) P := by
  have hsize := hs.size
  have hnext := hs.next
  apply (Buffer.write_spec x (by omega : (h.grow ok).next < (h.grow ok).tree.size)).bind
  intro tree ht
  have hend : (h.grow ok).next = 0 + xs.length := by rw [Nat.zero_add, hnext]
  have hold : tree.Holds 0 (xs ++ [x]) := hs.holds.extend (hend ▸ ht)
  have hst : Stores { h.grow ok with
      tree, count := (h.grow ok).count + 1, next := (h.grow ok).next + 1 } (xs ++ [x]) := by
    refine ⟨ht.size.trans hsize, hs.pos, ?_, ?_, hold⟩
    · simpa using hs.count
    · simpa using hnext
  rw [hnext] at hst ⊢
  exact hup _ hst

theorem insert_spec (hc : IsCmpFn cmpfn) (hs : h.Stores xs) (ho : Ordered (CmpLe cmpfn) xs)
    (x : α) : Returns (heapInsert cmpfn h (some x) true) fun h' =>
      ∃ ys, ys.Perm (x :: xs) ∧ h'.Stores ys ∧ Ordered (CmpLe cmpfn) ys := by
  obtain ⟨hs', hroom⟩ := grow_spec hs
  apply insert_bind hs' hroom
  intro h' hst
  apply (upheap_spec hc hst (ho.concat x) (by simp)).mono
  rintro h'' ⟨ys, hp, hsy, hoy⟩
  exact ⟨ys, hp.trans (List.perm_append_singleton x xs), hsy, hoy⟩

theorem remove_nil (hs : h.Stores []) : heapRemove cmpfn h = .ok (none, h) := by
  rw [heapRemove, if_pos (show h.count = 0 from hs.count)]

/-- The last element in the place of the first. -/
theorem set_zero_perm {x y : α} (h : x :: xs = ys ++ [y]) : (ys.set 0 y).Perm xs := by
  cases ys with
  | nil =>
    obtain ⟨-, rfl⟩ := List.cons.inj h
    exact .refl _
  | cons z zs =>
    obtain ⟨rfl, rfl⟩ := List.cons.inj h
    exact (List.perm_append_singleton y zs).symm

/-- Removing: the root is returned, and the last element takes its place and is sifted down. -/
theorem remove_bind {x y : α} {P : Heap α → Prop} (hs : h.Stores (x :: xs))
    (hxy : x :: xs = ys ++ [y])
    (hdown : ∀ h', h'.Stores (ys.set 0 y) → Returns (downheap cmpfn h') P) :
    Returns (heapRemove cmpfn h) fun r => r.1 = some x ∧ P r.2 := by
  have hlen : xs.length = ys.length := by
    have := congrArg List.length hxy
    simpa using this
  have hcount := hs.count
  have hnext := hs.next
  rw [List.length_cons] at hcount hnext
  have hx : h.tree.read 0 = .ok x := read_of_holds hs.holds (Nat.succ_pos _)
  have hy : h.tree.read (h.next - 1) = .ok y := by
    have hs' := hs.holds
    rw [hxy] at hs'
    rw [hnext, Nat.add_sub_cancel, hlen, read_of_holds hs' (by simp)]
    simp
  simp only [heapRemove, if_neg (by omega : ¬ h.count = 0), hx, hy, ok_bind]
  have hw := hs.holds.write (i := 0) (Nat.succ_pos _) y
  rw [Nat.zero_add] at hw
  apply hw.bind
  intro tree ht
  have hset : (x :: xs).set 0 y = ys.set 0 y ++ [y] := by
    rw [hxy]
    cases ys <;> rfl
  have hst : Stores { h with tree, next := h.next - 1, count := h.count - 1 } (ys.set 0 y) := by
    refine ⟨ht.1.trans hs.size, hs.pos, ?_, ?_, ?_⟩
    · rw [List.length_set]
      show h.count - 1 = _
      omega
    · rw [List.length_set]
      show h.next - 1 = _
      omega
    · rw [hset] at ht
      exact (Buffer.holds_append.1 ht.2).1
  apply (hdown _ hst).bind
  intro h' hP
  exact .ok ⟨rfl, hP⟩

/-- `heap_remove` returns the root, which is before every element, and deletes it. -/
theorem remove_spec (hc : IsCmpFn cmpfn) {x : α} (hs : h.Stores (x :: xs))
    (ho : Ordered (CmpLe cmpfn) (x :: xs)) : Returns (heapRemove cmpfn h) fun r =>
      r.1 = some x ∧ (∀ y ∈ xs, cmpfn x y ≤ 0) ∧
        ∃ ys, ys.Perm xs ∧ r.2.Stores ys ∧ Ordered (CmpLe cmpfn) ys := by
  have := hc.isPreorder
  have hmin : ∀ y ∈ xs, cmpfn x y ≤ 0 := by
    intro y hy
    obtain ⟨i, hi⟩ := List.mem_iff_getElem?.1 hy
    exact ho.root (i + 1) x y rfl hi
  obtain ⟨ys, y, hxy⟩ : ∃ ys y, x :: xs = ys ++ [y] :=
    (List.eq_nil_or_concat' (x :: xs)).resolve_left (by simp)
  have ho' : Ordered (CmpLe cmpfn) (ys ++ [y]) := hxy ▸ ho
  apply (remove_bind hs hxy fun h' hst => downheap_spec hc hst (ho'.replace_root y)).mono
  rintro r ⟨hx, zs, hp, hsz, hoz⟩
  exact ⟨hx, hmin, zs, hp.trans (set_zero_perm hxy), hsz, hoz⟩

end Heap

/-! ## Runs -/

/-- The calls on a heap. -/
inductive HeapOp (α : Type)
  | insert (elem : α)
  | remove
  | clear
  | count

/-- What a call returns. -/
inductive HeapOut (α : Type)
  | unit
  | elem (x : Option α)
  | size (n : ℕ)

/-- A call on the heap, with allocations succeeding. -/
def heapStep (cmpfn : α → α → ℤ) (h : Heap α) : HeapOp α → Exec (HeapOut α × Heap α)
  | .insert elem => do
    let h ← heapInsert cmpfn h (some elem) true
    .ok (.unit, h)
  | .remove => do
    let (x, h) ← heapRemove cmpfn h
    .ok (.elem x, h)
  | .clear => .ok (.unit, heapClear h)
  | .count => .ok (.size (heapCount h), h)

/-- A call on a priority queue, which holds a multiset: removing takes out an element that is before
every other, if there is an element. -/
inductive PqSpec (cmpfn : α → α → ℤ) : Multiset α → HeapOp α → HeapOut α → Multiset α → Prop
  | insert (s : Multiset α) (x : α) : PqSpec cmpfn s (.insert x) .unit (x ::ₘ s)
  | removeNone : PqSpec cmpfn 0 .remove (.elem none) 0
  | removeSome {s : Multiset α} {x : α} (h : ∀ y ∈ s, cmpfn x y ≤ 0) :
      PqSpec cmpfn (x ::ₘ s) .remove (.elem (some x)) s
  | clear (s : Multiset α) : PqSpec cmpfn s .clear .unit 0
  | count (s : Multiset α) : PqSpec cmpfn s .count (.size s.card) s

namespace Heap

/-- The heap `h` holds the multiset `s`, in heap order. -/
def Queues (cmpfn : α → α → ℤ) (h : Heap α) (s : Multiset α) : Prop :=
  ∃ xs : List α, h.Stores xs ∧ Ordered (CmpLe cmpfn) xs ∧ (xs : Multiset α) = s

/-- One call on a heap does what it does on the priority queue. -/
theorem step_refines (hc : IsCmpFn cmpfn) (h : Heap α) (s : Multiset α) (op : HeapOp α)
    (hs : h.Queues cmpfn s) :
    Returns (heapStep cmpfn h op) fun r => ∃ s', PqSpec cmpfn s op r.1 s' ∧ r.2.Queues cmpfn s' := by
  obtain ⟨xs, hst, ho, rfl⟩ := hs
  cases op with
  | insert x =>
    apply (insert_spec hc hst ho x).bind
    rintro h' ⟨ys, hp, hsy, hoy⟩
    exact .ok ⟨_, .insert _ x, ys, hsy, hoy, Multiset.coe_eq_coe.2 hp⟩
  | remove =>
    cases xs with
    | nil =>
      rw [heapStep, remove_nil hst]
      exact .ok ⟨0, .removeNone, [], hst, ho, rfl⟩
    | cons x xs =>
      apply (remove_spec hc hst ho).bind
      rintro ⟨_, h'⟩ ⟨rfl, hmin, ys, hp, hsy, hoy⟩
      have hA : PqSpec cmpfn (x ::ₘ (xs : Multiset α)) .remove (.elem (some x)) xs :=
        .removeSome (by simpa using hmin)
      exact .ok ⟨_, hA, ys, hsy, hoy, Multiset.coe_eq_coe.2 hp⟩
  | clear => exact .ok ⟨0, .clear _, [], stores_clear hst, ordered_nil, rfl⟩
  | count =>
    have hcount : heapCount h = (xs : Multiset α).card := hst.count
    rw [heapStep, hcount]
    exact .ok ⟨_, .count _, xs, hst, ho, rfl⟩

theorem Queues.count_eq {s : Multiset α} (hs : h.Queues cmpfn s) : heapCount h = s.card := by
  obtain ⟨xs, hst, -, rfl⟩ := hs
  exact hst.count

/-- Removing as many elements as there are takes them out in order. -/
theorem trace_drain {s s' : Multiset α} {os : List (HeapOut α)} (hn : s.card = n)
    (ht : Trace (PqSpec cmpfn) s (List.replicate n .remove) os s') :
    s' = 0 ∧ ∃ xs : List α, os = xs.map (fun x => .elem (some x)) ∧
      xs.Pairwise (CmpLe cmpfn) ∧ (xs : Multiset α) = s := by
  induction n generalizing s os with
  | zero =>
    cases ht
    obtain rfl := Multiset.card_eq_zero.1 hn
    exact ⟨rfl, [], rfl, .nil, rfl⟩
  | succ n ih =>
    cases ht with
    | cons hA hT =>
      cases hA with
      | removeNone => simp at hn
      | @removeSome s x hmin =>
        obtain ⟨hs', xs, rfl, hsort, rfl⟩ := ih (by simpa using hn) hT
        exact ⟨hs', x :: xs, rfl, .cons hmin hsort, rfl⟩

end Heap

/-- **The heap is a priority queue.** Every run of calls returns what a priority queue allows. In
the state it reaches, the first `next` cells of the array hold the elements of the queue, `count` of
them, none before its parent; and removing that many elements returns all of them in order. -/
theorem heap_refines_priority_queue (hc : IsCmpFn cmpfn) (ops : List (HeapOp α)) :
    Returns (runs (heapStep cmpfn) heapInit ops) fun r =>
      ∃ s, Trace (PqSpec cmpfn) 0 ops r.1 s ∧
        (∃ xs : List α, r.2.tree.Holds 0 xs ∧ xs.length = r.2.next ∧ r.2.count = r.2.next ∧
          (xs : Multiset α) = s) ∧
        (∀ i, 0 < i → i < r.2.next → ∃ x y, r.2.tree.read (Heap.parent i) = .ok x ∧
          r.2.tree.read i = .ok y ∧ cmpfn x y ≤ 0) ∧
        Returns (runs (heapStep cmpfn) r.2 (List.replicate r.2.count .remove)) fun d =>
          d.2.count = 0 ∧ ∃ xs : List α, d.1 = xs.map (fun x => .elem (some x)) ∧
            xs.Pairwise (fun x y => cmpfn x y ≤ 0) ∧ (xs : Multiset α) = s := by
  have hrun {h : Heap α} {s : Multiset α} (hs : h.Queues cmpfn s) (ops : List (HeapOp α)) :=
    Returns.runs_trace (PqSpec cmpfn) (Heap.Queues cmpfn) (fun _ => True)
      (fun h s op _ hs => Heap.step_refines hc h s op hs) hs
      (fun _ _ => trivial : ∀ op ∈ ops, True)
  have hinit : (heapInit : Heap α).Queues cmpfn 0 := ⟨[], Heap.stores_init, ordered_nil, rfl⟩
  apply (hrun hinit ops).mono
  rintro ⟨os, h⟩ ⟨s, htrace, hq⟩
  refine ⟨s, htrace, ?_, ?_, ?_⟩
  · obtain ⟨xs, hst, -, hxs⟩ := hq
    exact ⟨xs, hst.holds, hst.next.symm, hst.count.trans hst.next.symm, hxs⟩
  · obtain ⟨xs, hst, ho, -⟩ := hq
    intro i hpos hi
    have hi' : i < xs.length := hst.next ▸ hi
    have hp : Heap.parent i < xs.length := by
      unfold Heap.parent
      omega
    exact ⟨_, _, Heap.read_of_holds hst.holds hp, Heap.read_of_holds hst.holds hi',
      (Heap.leAt_iff hp hi').1 (ho i hpos)⟩
  · have hcount : h.count = s.card := hq.count_eq
    apply (hrun hq _).mono
    rintro ⟨os', d⟩ ⟨s', hdrain, hq'⟩
    obtain ⟨rfl, hxs⟩ := Heap.trace_drain hcount.symm hdrain
    exact ⟨hq'.count_eq, hxs⟩

/-- Integers, with equal ones among them. -/
theorem heap_refines_priority_queue_int :
    Returns (runs (heapStep fun a b : ℤ => a - b) heapInit
        [.insert 3, .insert 1, .insert 3, .remove, .insert 2])
      fun r => ∃ s, Trace (PqSpec fun a b : ℤ => a - b) 0
        [.insert 3, .insert 1, .insert 3, .remove, .insert 2] r.1 s :=
  (heap_refines_priority_queue ⟨by omega, by omega⟩ _).mono fun _ ⟨s, hs⟩ => ⟨s, hs.1⟩

end LibSrsBsns
