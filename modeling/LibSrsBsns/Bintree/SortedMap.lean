import LibSrsBsns.Bintree.SearchTree
import LibSrsBsns.Bintree.Traverse

/-!
# The binary tree is a sorted map

As long as elements are only inserted, a tree holds of every class of equal elements the one inserted
last. With the elements inserted since the tree was last cleared, the latest first, as the abstract
state (`insertedSpec`), finding an element in the tree is finding the first equal one in this list
(`Bintree.Maps`).
-/

namespace LibSrsBsns

open C BinaryTree

variable {α : Type} {cmpfn : α → α → ℤ}

/-- The elements inserted since the last clearing, the latest first. -/
def insertedSpec (xs : List α) : BintreeOp α → BintreeOut × List α
  | .insert data _ => (.bool true, data :: xs)
  | .remove _ => (.bool false, xs)
  | .clear => (.unit, [])

namespace Bintree

variable {t : Bintree α} {T l r : BinaryTree (BtCell α)} {C : List (Frame (BtCell α))}
  {n : BtCell α} {x : α} {xs : List α}

/-- The tree `t` holds of the elements `xs` the first of each class. -/
def Maps (cmpfn : α → α → ℤ) (t : Bintree α) (xs : List α) : Prop :=
  ∃ T, t.Linked T ∧ SortedBy cmpfn (elems T) ∧ bintreeCount t = .ok T.numNodes ∧
    ∀ x, findEq cmpfn x (elems T) = findEq cmpfn x xs

theorem find_spec (hc : IsCmpFn cmpfn) (h : t.Linked T) (hs : SortedBy cmpfn (elems T)) (x : α) :
    bintreeFind cmpfn t x = .ok (findEq cmpfn x (elems T)) := by
  have hnode : Returns (bintreeNodefind cmpfn t x) _ := nodefind_spec h x
  obtain ⟨p, hp, C, hpath, hfound⟩ := hnode
  rw [bintreeFind, hp, ok_bind]
  cases p with
  | none =>
    have hT : T = plug C .nil := hfound
    rw [hT] at hs ⊢
    obtain ⟨hbefore, hafter⟩ := hpath.between hc hs
    rw [elems_plug, elems_nil, List.nil_append, findEq_eq_none_of_between hc hbefore hafter]
  | some a =>
    obtain ⟨n, l, r, rfl, rfl, hx⟩ := hfound
    rw [elems_plug_node] at hs ⊢
    simp only [h.load, ok_bind]
    rw [hs.findEq_eq_some hc hx]

/-- Inserting and clearing do to the tree what they do to the list of the elements inserted. -/
theorem step_maps (hc : IsCmpFn cmpfn) (hm : t.Maps cmpfn xs) {op : BintreeOp α}
    (hop : ∀ x, op ≠ .remove x) : Ends (bintreeStep cmpfn t op)
      (fun s => s.1 = (insertedSpec xs op).1 ∧ s.2.Maps cmpfn (insertedSpec xs op).2)
      (fun e => e = .nullDeref ∧ op.NoMemory) := by
  obtain ⟨T, h, hs, hcount, hfind⟩ := hm
  cases op with
  | insert x ok =>
    apply ((insert_spec h hcount x ok).fault_mono fun e he => ⟨he.1, he.2.1⟩).bind
    rintro ⟨b, t'⟩ ⟨hb, C, hp, ⟨n, l, r, rfl, hx, rfl⟩ | ⟨rfl, a, hl, hcount'⟩⟩
    · obtain rfl : b = true := hb
      have hlt : ∀ y ∈ elemsBefore C ++ elems l, cmpfn y x < 0 := by
        rw [elems_plug_node] at hs
        intro y hy
        exact (hc.lt_congr_right hx).2 ((sortedBy_append.1 hs).2.2 y hy n.2 (by simp))
      refine ⟨rfl, _, (h.replace x).2, ?_, ?_, fun z => ?_⟩
      · rw [elems_plug_node] at hs ⊢
        exact hs.replace hc hx
      · have hnum : (plug C (.node (n.1, x) l r)).numNodes = (plug C (.node n l r)).numNodes := by
          simp only [numNodes_plug, numNodes]
        rw [hnum]
        exact hcount
      · have hz := hfind z
        rw [elems_plug_node] at hz ⊢
        rw [findEq_replace hc hlt hx, hz]
        exact findEq_cons.symm
    · obtain rfl : b = true := hb
      obtain ⟨hbefore, hafter⟩ := hp.between hc hs
      refine ⟨rfl, _, hl, ?_, ?_, fun z => ?_⟩
      · simp only [elems_plug, elems_node, elems_nil, List.nil_append, List.cons_append] at hs ⊢
        exact hs.insert hc hbefore hafter
      · have hnum : (plug C (.node (a, x) .nil .nil)).numNodes = (plug C .nil).numNodes + 1 := by
          simp only [numNodes_plug, numNodes]
          omega
        rw [hnum]
        exact hcount'
      · have hz := hfind z
        simp only [elems_plug, elems_node, elems_nil, List.nil_append, List.cons_append] at hz ⊢
        rw [findEq_insert hc hbefore, hz]
        exact findEq_cons.symm
  | remove x => exact absurd rfl (hop x)
  | clear =>
    apply ((clear_spec h).ends _).bind
    rintro t' ⟨hl, hcount'⟩
    exact ⟨rfl, _, hl, .nil, hcount', fun x => rfl⟩

theorem Linked.collect_elems (h : t.Linked T) {dest : Buffer α}
    (hd : (elems T).length ≤ dest.size) : Returns (bintreeCollect t dest travInorder) fun s =>
      s.1 = true ∧ dest.Filled 0 (elems T) s.2 := by
  cases T with
  | nil =>
    simp only [bintreeCollect, h.root, ptr_nil]
    exact .ok ⟨rfl, Buffer.filled_nil (Nat.zero_le _)⟩
  | node n l r =>
    rw [length_elems] at hd
    exact collect_spec (by decide) h (by simp) hd

/-- Inserting an element that is equal to one in the tree overwrites that one and nothing else. -/
theorem reinsert (hc : IsCmpFn cmpfn) (h : t.Linked T) (hs : SortedBy cmpfn (elems T))
    (hcount : bintreeCount t = .ok T.numNodes) (x : α) (ok : Bool) {y : α}
    (hy : findEq cmpfn x (elems T) = some y) :
    ∃ a v, InTree t.mem t.root a ∧ t.mem.cell a = some v ∧ v.data = y ∧
      bintreeInsert cmpfn t (some x) ok =
        .ok (true, { t with mem := t.mem.put a { v with data := x } }) := by
  have hnone {C : List (Frame (BtCell α))} (hp : Path cmpfn x C) (hT : T = plug C .nil) : False := by
    rw [hT] at hs hy
    obtain ⟨hbefore, hafter⟩ := hp.between hc hs
    rw [elems_plug, elems_nil, List.nil_append, findEq_eq_none_of_between hc hbefore hafter] at hy
    cases hy
  obtain ⟨⟨b, t'⟩, hins, hb, C, hp, hcase⟩ := (insert_spec h hcount x ok).returns
    fun e ⟨_, _, C, hp, hT⟩ => hnone hp hT
  obtain rfl : b = true := hb
  rcases hcase with ⟨n, l, r, rfl, hx, rfl⟩ | ⟨hT, -⟩
  · rw [elems_plug_node] at hs hy
    rw [hs.findEq_eq_some hc hx] at hy
    exact ⟨n.1, _, h.inTree, h.cell, Option.some.inj hy, hins⟩
  · exact (hnone hp hT).elim

end Bintree

/-- **The binary tree is a sorted map keyed by equality.** A run of insertions and clearings ends with
a fault only where `malloc` has failed. In every state it reaches, with `xs` the elements inserted
since the last clearing, the latest first: `bintree_find` finds the first of them that is equal;
`bintree_collect` in order writes a strictly sorted list `es` of exactly these elements; its length is
the number of classes and is what `bintree_count` returns; and inserting an element that is equal to
one of the tree overwrites that one, and changes nothing else in memory. -/
theorem bintree_refines_sorted_map (hc : IsCmpFn cmpfn) (ops : List (BintreeOp α))
    (hops : ∀ op ∈ ops, ∀ x, op ≠ .remove x) :
    Ends (runs (bintreeStep cmpfn) bintreeInit ops)
      (fun s => s.1 = (runSpec insertedSpec [] ops).1 ∧
        ∃ xs es : List α, xs = (runSpec insertedSpec [] ops).2 ∧
          (∀ x, bintreeFind cmpfn s.2 x = .ok (xs.find? fun y => cmpfn x y = 0)) ∧
          (∀ dest : Buffer α, es.length ≤ dest.size →
            Returns (bintreeCollect s.2 dest travInorder) fun u =>
              u.1 = true ∧ dest.Filled 0 es u.2) ∧
          es.Pairwise (fun x y => cmpfn x y < 0) ∧
          (∀ y, y ∈ es ↔ (xs.find? fun z => cmpfn y z = 0) = some y) ∧
          bintreeCount s.2 = .ok es.length ∧
          es.length = {c | ∃ x ∈ xs, Quotient.mk hc.setoid x = c}.ncard ∧
          ∀ x y ok, (xs.find? fun z => cmpfn x z = 0) = some y →
            ∃ a v, Bintree.InTree s.2.mem s.2.root a ∧ s.2.mem.cell a = some v ∧ v.data = y ∧
              bintreeInsert cmpfn s.2 (some x) ok =
                .ok (true, { s.2 with mem := s.2.mem.put a { v with data := x } }))
      (fun e => ∃ op ∈ ops, e = .nullDeref ∧ op.NoMemory) := by
  have hrun := Ends.runs_trace
    (fun xs op o xs' => o = (insertedSpec xs op).1 ∧ xs' = (insertedSpec xs op).2)
    (Bintree.Maps cmpfn) (fun op e => e = .nullDeref ∧ op.NoMemory) (fun op => ∀ x, op ≠ .remove x)
    (fun t xs op hop hm => (Bintree.step_maps hc hm hop).mono fun s hs => ⟨_, ⟨hs.1, rfl⟩, hs.2⟩)
    ⟨_, Bintree.linked_init, .nil, rfl, fun _ => rfl⟩ hops
  apply hrun.mono
  rintro ⟨os, t⟩ ⟨xs, htrace, T, h, hs, hcount, hfind⟩
  obtain ⟨hos, hxs⟩ := htrace.eq_runSpec
  refine ⟨hos, xs, Bintree.elems T, hxs, ?_, fun dest hd => h.collect_elems hd, hs, fun y => ?_, ?_,
    hs.length_eq hc hfind, ?_⟩
  · intro x
    rw [Bintree.find_spec hc h hs, hfind]
    rfl
  · rw [hs.mem_iff hc, hfind]
    rfl
  · rw [Bintree.length_elems]
    exact hcount
  · intro x y ok hy
    exact Bintree.reinsert hc h hs hcount x ok ((hfind x).trans hy)

/-- Integers that are equal if they differ by their sign; a tree that has been cleared. -/
theorem bintree_refines_sorted_map_abs :
    Ends (runs (bintreeStep fun a b : ℤ => |a| - |b|) bintreeInit
        [.insert 4 true, .clear, .insert 2 true, .insert 1 true, .insert (-2) true])
      (fun s => s.1 = [.bool true, .unit, .bool true, .bool true, .bool true] ∧
        bintreeFind (fun a b : ℤ => |a| - |b|) s.2 2 = .ok (some (-2)))
      (fun e => e = .nullDeref) := by
  have hc : IsCmpFn fun a b : ℤ => |a| - |b| := ⟨by omega, by omega⟩
  have hrun := bintree_refines_sorted_map hc
    [.insert 4 true, .clear, .insert 2 true, .insert 1 true, .insert (-2) true] (by simp)
  apply (hrun.fault_mono fun _ ⟨_, _, he, _⟩ => he).mono
  rintro s ⟨hos, xs, es, rfl, hfind, -⟩
  exact ⟨hos, hfind 2⟩

end LibSrsBsns
