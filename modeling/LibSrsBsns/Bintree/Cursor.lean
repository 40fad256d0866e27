import LibSrsBsns.Bintree.Balance
import LibSrsBsns.Bintree.Leaks
import LibSrsBsns.Foundations.Data.SortedCursor

/-!
# Going through a binary tree while it changes

The cursor of the iteration is at a node of the tree, and `bintree_next` finds its way on by the links
that the tree has when it is called. So the tree may change in between: as long as the node under the
cursor is not freed, the iteration in order goes on with the least element greater than the one at
the cursor. With the sorted list of the elements and the element at the cursor as the abstract state
(`sortedSpec`), this holds along with all that the other calls do (`bintree_refines_sorted_list`).
-/

namespace LibSrsBsns

open C BinaryTree

variable {α : Type} {cmpfn : α → α → ℤ}

/-- What the calls do to a sorted list and the element that its cursor is at, if there is one. -/
def sortedSpec (cmpfn : α → α → ℤ) (s : List α × Option α) :
    BintreeCall α → BintreeAnswer α × (List α × Option α)
  | .op (.insert x _) => (.op (.bool true), (insertEq cmpfn x s.1, s.2))
  | .op (.remove x) =>
    (.op (.bool (findEq cmpfn x s.1).isSome), (eraseEq cmpfn x s.1,
      s.2.bind fun y => if cmpfn x y = 0 then lastBefore cmpfn y s.1 else some y))
  | .op .clear => (.op .unit, ([], none))
  | .balance => (.op .unit, (s.1, none))
  | .first _ => (.data s.1.head?, (s.1, s.1.head?))
  | .next =>
    let y := s.2.bind fun x => nextAfter cmpfn x s.1
    (.data y, (s.1, y))

/-- When the calls may be made: the tree is not empty where it is balanced or gone through, which is
done in order, and there is a cursor to go on from. -/
def SortedPre (s : List α × Option α) : BintreeCall α → Prop
  | .op _ => True
  | .balance => s.1 ≠ []
  | .first travtype => travtype = travInorder ∧ s.1 ≠ []
  | .next => s.2 ≠ none

namespace Bintree

variable {t : Bintree α} {T T' l r : BinaryTree (BtCell α)} {C D : List (Frame (BtCell α))}
  {n : BtCell α} {x : α} {s : List α × Option α}

/-- The node that `bintree_remove` frees when it removes the root of the tree. -/
def freed : BinaryTree (BtCell α) → Ptr
  | .nil => none
  | .node n .nil _ => some n.1
  | .node n _ .nil => some n.1
  | .node _ (.node a l r) (.node _ _ _) => (BinaryTree.node a l r).inorder.getLast?.map Prod.fst

/-- A removal loses no subtree and does not free the node under the cursor. -/
def SparesCursor (cmpfn : α → α → ℤ) (t : Bintree α) (call : BintreeCall α) : Prop :=
  ∀ x, call = .op (.remove x) → ∀ T, t.Linked T → orphaned (subtreeAt cmpfn x T) = .nil ∧
    (t.iter = none ∨ t.iter ≠ freed (subtreeAt cmpfn x T))

/-- The cursor is at a node of the tree with an element equal to `y`, in a traversal in order. -/
def At (cmpfn : α → α → ℤ) (t : Bintree α) (T : BinaryTree (BtCell α)) (y : α) : Prop :=
  t.travtype = some travInorder ∧ ∃ n ∈ T.inorder, t.iter = some n.1 ∧ cmpfn y n.2 = 0

/-- The elements of the tree are the sorted list, and its cursor, as far as it matters, is there. -/
structure Sorts (cmpfn : α → α → ℤ) (t : Bintree α) (s : List α × Option α) : Prop where
  sorted : SortedBy cmpfn s.1
  tree : ∃ T, t.Linked T ∧ elems T = s.1 ∧ bintreeCount t = .ok T.numNodes ∧
    ∀ y, s.2 = some y → t.At cmpfn T y

/-! ## What removing does to the nodes in order -/

theorem inorder_plug_node : (plug C (.node n l r)).inorder =
    (beforeIn C ++ l.inorder) ++ n :: (r.inorder ++ afterIn C) := by
  simp [inorder_plug]

/-- Without a loss, either the node goes, or the one before it goes and leaves its element to it. -/
theorem Removed.inorder_of_kept (h : Removed C n l r T') (ho : orphaned (.node n l r) = .nil) :
    (T'.inorder = (beforeIn C ++ l.inorder) ++ (r.inorder ++ afterIn C) ∧
        freed (.node n l r) = some n.1) ∨
      ∃ ns b, beforeIn C ++ l.inorder = ns ++ [b] ∧ freed (.node n l r) = some b.1 ∧
        T'.inorder = ns ++ (n.1, b.2) :: (r.inorder ++ afterIn C) := by
  cases h with
  | noLeft => exact .inl ⟨by simp [inorder_plug], rfl⟩
  | noRight => exact .inl ⟨by simp [inorder_plug], by cases l <;> rfl⟩
  | @both D b lb r hD hr =>
    obtain ⟨c, r₁, r₂, rfl⟩ : ∃ c r₁ r₂, r = .node c r₁ r₂ := by
      cases r with
      | nil => exact absurd rfl hr
      | node c r₁ r₂ => exact ⟨c, r₁, r₂, rfl⟩
    obtain rfl : lb = .nil := by rwa [orphaned, lastLeft_plug hD] at ho
    have hleft : (plug D (.node b .nil .nil)).inorder = beforeIn D ++ [b] := by
      simp [inorder_plug, hD]
    refine .inr ⟨beforeIn C ++ beforeIn D, b, by rw [hleft, List.append_assoc], ?_, ?_⟩
    · obtain ⟨c', l₁, l₂, hl⟩ : ∃ c' l₁ l₂, plug D (.node b .nil .nil) = .node c' l₁ l₂ := by
        cases hp : plug D (.node b .nil .nil) with
        | nil => exact absurd hp plug_node_ne_nil
        | node c' l₁ l₂ => exact ⟨c', l₁, l₂, rfl⟩
      rw [hl, freed, ← hl, hleft, List.getLast?_concat]
      rfl
    · rw [plug_append]
      show (plug C (.node (n.1, b.2) (plug D .nil) _)).inorder = _
      simp [inorder_plug, hD]

/-! ## The calls -/

theorem Sorts.init (cmpfn : α → α → ℤ) : (bintreeInit : Bintree α).Sorts cmpfn ([], none) :=
  ⟨.nil, .nil, linked_init, rfl, rfl, nofun⟩

/-- Inserting an element leaves the cursor where it is. -/
theorem Sorts.insert (hc : IsCmpFn cmpfn) (h : t.Sorts cmpfn s) (x : α) (ok : Bool) :
    Ends (bintreeInsert cmpfn t (some x) ok)
      (fun r => r.1 = true ∧ r.2.Sorts cmpfn (insertEq cmpfn x s.1, s.2))
      (fun e => e = .nullDeref ∧ ok = false) := by
  obtain ⟨es, cur⟩ := s
  obtain ⟨hs, T, hl, rfl, hcount, hcur⟩ := h
  dsimp only at hs hcur ⊢
  have hspec : Ends (bintreeInsert cmpfn t (some x) ok) _ _ := insert_spec hl hcount x ok
  have hgrows := insert_grows cmpfn t x ok
  cases hrun : bintreeInsert cmpfn t (some x) ok with
  | error e =>
    rw [hrun] at hspec
    exact ⟨hspec.1, hspec.2.1⟩
  | ok r =>
    rw [hrun] at hspec hgrows
    obtain ⟨b, t'⟩ := r
    obtain ⟨k, -, hgrows⟩ := hgrows
    obtain ⟨rfl, C, hp, ⟨n, l, r, rfl, hx, rfl⟩ | ⟨rfl, a, hl', hcount'⟩⟩ := hspec
    · have hs' := hs
      rw [elems_plug_node] at hs'
      have hins : insertEq cmpfn x (elems (plug C (.node n l r))) =
          elems (plug C (.node (n.1, x) l r)) := by
        rw [elems_plug_node, elems_plug_node, insertEq_replace hc (hs'.around hc hx).1 hx]
      have hnum : (plug C (.node (n.1, x) l r)).numNodes = (plug C (.node n l r)).numNodes := by
        simp only [numNodes_plug, numNodes]
      refine ⟨rfl, ?_, _, (hl.replace x).2, hins.symm, by rw [hnum]; exact hcount, ?_⟩
      · rw [hins, elems_plug_node]
        exact hs'.replace hc hx
      · intro y hy
        obtain ⟨htrav, m, hm, hiter, hym⟩ := hcur y hy
        refine ⟨htrav, ?_⟩
        rw [inorder_plug_node, List.mem_append, List.mem_cons] at hm
        rw [inorder_plug_node]
        rcases hm with hm | rfl | hm
        · exact ⟨m, List.mem_append_left _ hm, hiter, hym⟩
        · exact ⟨(m.1, x), List.mem_append_cons_self, hiter, hc.eq_trans hym (hc.eq_comm.1 hx)⟩
        · exact ⟨m, List.mem_append_right _ (List.mem_cons_of_mem _ hm), hiter, hym⟩
    · obtain ⟨hbefore, hafter⟩ := hp.between hc hs
      have hs' := hs
      simp only [elems_plug, elems_nil, List.nil_append] at hs'
      have hins : insertEq cmpfn x (elems (plug C .nil)) =
          elems (plug C (.node (a, x) .nil .nil)) := by
        simp only [elems_plug, elems_node, elems_nil, List.nil_append, List.cons_append]
        exact insertEq_between hc hbefore hafter
      have hnum : (plug C (.node (a, x) .nil .nil)).numNodes = (plug C .nil).numNodes + 1 := by
        simp only [numNodes_plug, numNodes]
        omega
      refine ⟨rfl, ?_, _, hl', hins.symm, by rw [hnum]; exact hcount', ?_⟩
      · rw [hins]
        simp only [elems_plug, elems_node, elems_nil, List.nil_append, List.cons_append]
        exact hs'.insert hc hbefore hafter
      · intro y hy
        obtain ⟨htrav, m, hm, hiter, hym⟩ := hcur y hy
        refine ⟨hgrows.travtype.trans htrav, m, ?_, hgrows.iter.trans hiter, hym⟩
        simp only [inorder_plug, inorder_nil, List.nil_append, List.mem_append] at hm
        simp only [inorder_plug, inorder_node, inorder_nil, List.nil_append, List.mem_append,
          List.mem_cons]
        tauto

theorem At.ne_of_absent (hc : IsCmpFn cmpfn) {x y : α} (h : t.At cmpfn T y)
    (hne : ∀ z ∈ elems T, cmpfn x z ≠ 0) : cmpfn x y ≠ 0 := by
  obtain ⟨-, n, hn, -, hy⟩ := h
  exact fun hxy => hne n.2 (List.mem_map_of_mem hn) (hc.eq_trans hxy hy)

/-- Where the cursor is after a removal that spares it: at its node, which is still in the tree, with
the element that it had or, if that was removed, the one before. -/
theorem Removed.cursor (hc : IsCmpFn cmpfn) (h : Removed C n l r T')
    (ho : orphaned (.node n l r) = .nil) (hs : SortedBy cmpfn (elems (plug C (.node n l r))))
    {x y : α} (hx : cmpfn x n.2 = 0) {m : BtCell α} (hm : m ∈ (plug C (.node n l r)).inorder)
    (hfreed : some m.1 ≠ freed (.node n l r)) (hy : cmpfn y m.2 = 0) :
    (cmpfn x y ≠ 0 ∧ m ∈ T'.inorder) ∨ cmpfn x y = 0 ∧
      ∃ z, lastBefore cmpfn y (elems (plug C (.node n l r))) = some z ∧ (m.1, z) ∈ T'.inorder := by
  have hs' := hs
  rw [elems_plug_node] at hs'
  obtain ⟨hbefore, hafter⟩ := hs'.around hc hx
  have hne (hm : m ∈ beforeIn C ++ l.inorder ∨ m ∈ r.inorder ++ afterIn C) : cmpfn x y ≠ 0 := by
    intro hxy
    have hxm := hc.eq_trans hxy hy
    rcases hm with hm | hm
    · have hlt := hbefore m.2 (by
        rw [elemsBefore, elems, ← List.map_append]
        exact List.mem_map_of_mem hm)
      have := hc.eq_comm.1 hxm
      omega
    · have hlt := hafter m.2 (by
        rw [elemsAfter, elems, ← List.map_append]
        exact List.mem_map_of_mem hm)
      omega
  rw [inorder_plug_node, List.mem_append, List.mem_cons] at hm
  obtain ⟨hT', hfreed'⟩ | ⟨ns, b, hns, hfreed', hT'⟩ := h.inorder_of_kept ho
  · rw [hfreed'] at hfreed
    rcases hm with hm | rfl | hm
    · exact .inl ⟨hne (.inl hm), hT' ▸ List.mem_append_left _ hm⟩
    · exact absurd rfl hfreed
    · exact .inl ⟨hne (.inr hm), hT' ▸ List.mem_append_right _ hm⟩
  · rw [hfreed'] at hfreed
    rcases hm with hm | rfl | hm
    · refine .inl ⟨hne (.inl hm), hT' ▸ List.mem_append_left _ ?_⟩
      rw [hns, List.mem_append, List.mem_singleton] at hm
      exact hm.resolve_right fun hmb => hfreed (by rw [hmb])
    · have hym := hc.eq_trans hx (hc.eq_comm.1 hy)
      refine .inr ⟨hym, b.2, ?_, hT' ▸ List.mem_append_cons_self⟩
      rw [elems_plug_node, lastBefore_split hc hs' hy, elemsBefore, elems, ← List.map_append, hns]
      simp
    · exact .inl ⟨hne (.inr hm), hT' ▸ List.mem_append_right _ (List.mem_cons_of_mem _ hm)⟩

/-- Removing an element takes it out of the list. The cursor stays at its node, which has the element
before, if it was at the one removed. -/
theorem Sorts.remove (hc : IsCmpFn cmpfn) (h : t.Sorts cmpfn s) (x : α)
    (hspares : t.SparesCursor cmpfn (.op (.remove x))) : Returns (bintreeRemove cmpfn t x) fun r =>
      r.1 = (findEq cmpfn x s.1).isSome ∧ r.2.Sorts cmpfn (eraseEq cmpfn x s.1,
        s.2.bind fun y => if cmpfn x y = 0 then lastBefore cmpfn y s.1 else some y) := by
  obtain ⟨es, cur⟩ := s
  obtain ⟨hs, T, hl, rfl, hcount, hcur⟩ := h
  dsimp only at hs hcur ⊢
  have hret : Returns (bintreeRemove cmpfn t x) _ := remove_spec hl hcount x
  have hgrows := remove_grows cmpfn t x
  obtain ⟨⟨b, t'⟩, hrun, C, hp, ⟨rfl, hr⟩ | ⟨n, l, r, T', rfl, hx, hrem, rfl, hl', hcount'⟩⟩ := hret
  · -- there is no element equal to `x`
    obtain ⟨rfl, rfl⟩ := Prod.mk.inj hr
    obtain ⟨hbefore, hafter⟩ := hp.between hc hs
    have hfind := findEq_eq_none_of_between hc hbefore hafter
    have helems : elems (plug C .nil) = elemsBefore C ++ elemsAfter C := by simp
    rw [← helems] at hfind
    have hne := findEq_eq_none.1 hfind
    refine ⟨_, hrun, by rw [hfind]; rfl, ?_⟩
    refine ⟨?_, _, hl, ?_, hcount, ?_⟩
    · rwa [eraseEq_of_ne hne]
    · rw [eraseEq_of_ne hne]
    · intro y hcur'
      obtain ⟨y₀, rfl, hy⟩ := Option.bind_eq_some_iff.1 hcur'
      rw [if_neg ((hcur y₀ rfl).ne_of_absent hc hne)] at hy
      exact hcur y (hy ▸ rfl)
  · obtain ⟨ho, hiter⟩ := hspares x rfl _ hl
    rw [subtreeAt_found hp hx] at ho hiter
    rw [hrun] at hgrows
    obtain ⟨-, hiter', htrav'⟩ := hgrows rfl
    have hnum := hrem.numNodes
    rw [ho, numNodes, Nat.add_zero] at hnum
    rw [← hnum, Nat.add_sub_cancel] at hcount'
    have hs' := hs
    rw [elems_plug_node] at hs'
    have herase : eraseEq cmpfn x (elems (plug C (.node n l r))) = elems T' := by
      rw [elems_plug_node, eraseEq_split hc hs' hx, hrem.elems_of_kept ho]
    refine ⟨_, hrun, ?_, ?_, T', hl', herase.symm, hl'.bintreeCount_eq hcount', ?_⟩
    · rw [elems_plug_node, hs'.findEq_eq_some hc hx]
      rfl
    · rw [herase]
      exact hs.sublist hrem.sublist
    · intro y hcur'
      obtain ⟨y₀, rfl, hy⟩ := Option.bind_eq_some_iff.1 hcur'
      obtain ⟨htrav, m, hm, hm', hym⟩ := hcur y₀ rfl
      refine ⟨htrav'.trans htrav, ?_⟩
      rw [hm'] at hiter
      have hfreed : some m.1 ≠ freed (.node n l r) := hiter.resolve_left (by simp)
      rw [← hiter'] at hm'
      obtain ⟨hxy, hmem⟩ | ⟨hxy, z, hz, hmem⟩ := hrem.cursor hc ho hs hx hm hfreed hym
      · rw [if_neg hxy] at hy
        obtain rfl := Option.some.inj hy
        exact ⟨m, hmem, hm', hym⟩
      · rw [if_pos hxy, hz] at hy
        obtain rfl := Option.some.inj hy
        exact ⟨_, hmem, hm', hc.self _⟩

theorem Sorts.clear (h : t.Sorts cmpfn s) :
    Returns (bintreeClear t) fun t' => t'.Sorts cmpfn ([], none) := by
  obtain ⟨-, T, hl, -⟩ := h
  exact (clear_spec hl).mono fun t' ht' => ⟨.nil, _, ht'.1, rfl, ht'.2, nofun⟩

/-- Balancing keeps the elements, but not the nodes, so that the cursor is lost. -/
theorem Sorts.balance (hc : IsCmpFn cmpfn) (h : t.Sorts cmpfn s) (hne : s.1 ≠ []) :
    Returns (bintreeBalance cmpfn t) fun t' => t'.Sorts cmpfn (s.1, none) := by
  obtain ⟨hs, T, hl, hes, hcount, -⟩ := h
  have hT : T ≠ .nil := by
    rintro rfl
    exact hne hes.symm
  rw [← hes] at hs
  apply (balance_height hc hl hT hs hcount).mono
  rintro t' ⟨T', hl', helems, -, hcount'⟩
  refine ⟨hes ▸ hs, T', hl', helems.trans hes, ?_, nofun⟩
  rw [hcount', ← length_elems, ← length_elems, helems]

theorem sorts_of_yields (h : t.Linked T) (hs : SortedBy cmpfn (elems T)) (hc : IsCmpFn cmpfn)
    (hcount : bintreeCount t = .ok T.numNodes) (htrav : t.travtype = some travInorder)
    {ns : List (BtCell α)} {r : Option α × Bintree α} (hr : Yields restIn t T ns r) :
    r.1 = (ns.map Prod.snd).head? ∧ r.2.Sorts cmpfn (elems T, (ns.map Prod.snd).head?) := by
  obtain ⟨rfl, rfl⟩ | ⟨D, n, l, r, rfl, rfl, rfl⟩ := hr
  · exact ⟨rfl, hs, T, h.congr rfl rfl, rfl, hcount, nofun⟩
  · refine ⟨rfl, hs, _, h.congr rfl rfl, rfl, hcount, fun y hy => ?_⟩
    obtain rfl := Option.some.inj hy
    refine ⟨htrav, n, ?_, rfl, hc.self _⟩
    rw [inorder_plug_node]
    exact List.mem_append_cons_self

theorem Sorts.first (hc : IsCmpFn cmpfn) (h : t.Sorts cmpfn s) (hne : s.1 ≠ []) :
    Returns (bintreeFirst t travInorder) fun r =>
      r.1 = s.1.head? ∧ r.2.Sorts cmpfn (s.1, s.1.head?) := by
  obtain ⟨hs, T, hl, hes, hcount, -⟩ := h
  have hT : T ≠ .nil := by
    rintro rfl
    exact hne hes.symm
  rw [← hes] at hs ⊢
  apply (first_spec (by decide) hl hT).mono
  intro r hr
  exact sorts_of_yields (t := { t with travtype := some travInorder }) (hl.congr rfl rfl) hs hc hcount
    rfl hr

theorem Sorts.next (hc : IsCmpFn cmpfn) {x : α} (h : t.Sorts cmpfn s) (hx : s.2 = some x) :
    Returns (bintreeNext t) fun r =>
      r.1 = nextAfter cmpfn x s.1 ∧ r.2.Sorts cmpfn (s.1, nextAfter cmpfn x s.1) := by
  obtain ⟨hs, T, hl, hes, hcount, hcur⟩ := h
  obtain ⟨htrav, n, hn, hiter, hxn⟩ := hcur x hx
  obtain ⟨C, l, r, rfl⟩ := exists_plug_of_mem (T.inorder_perm.mem_iff.1 hn)
  rw [← hes] at hs ⊢
  have hs' := hs
  rw [elems_plug_node] at hs'
  have hnext : nextAfter cmpfn x (elems (plug C (.node n l r))) =
      ((restIn C l r).map Prod.snd).head? := by
    rw [elems_plug_node, nextAfter_split hc hs' hxn, restIn, List.map_append]
    rfl
  rw [hnext]
  apply (next_spec (by decide) hl htrav hiter).mono
  intro r hr
  exact sorts_of_yields hl hs hc hcount htrav hr

/-- **One call** does to the tree what it does to the sorted list. -/
theorem Sorts.call (hc : IsCmpFn cmpfn) (h : t.Sorts cmpfn s) {call : BintreeCall α}
    (hpre : SortedPre s call) (hspares : t.SparesCursor cmpfn call) :
    Ends (bintreeCall cmpfn t call)
      (fun r => r.1 = (sortedSpec cmpfn s call).1 ∧ r.2.Sorts cmpfn (sortedSpec cmpfn s call).2)
      (fun e => e = .nullDeref ∧ ∃ op, call = .op op ∧ op.NoMemory) := by
  cases call with
  | op op =>
    cases op with
    | insert x ok =>
      apply Ends.bind (P := fun r : BintreeOut × Bintree α => r.1 = .bool true ∧
        r.2.Sorts cmpfn (insertEq cmpfn x s.1, s.2))
      · apply ((h.insert hc x ok).fault_mono fun e he => ⟨he.1, _, rfl, he.2⟩).bind
        intro r hr
        exact ⟨by rw [hr.1], hr.2⟩
      · exact fun r hr => ⟨by rw [hr.1]; rfl, hr.2⟩
    | remove x =>
      apply Ends.bind (P := fun r : BintreeOut × Bintree α =>
        r.1 = .bool (findEq cmpfn x s.1).isSome ∧ r.2.Sorts cmpfn (eraseEq cmpfn x s.1,
          s.2.bind fun y => if cmpfn x y = 0 then lastBefore cmpfn y s.1 else some y))
      · apply ((h.remove hc x hspares).ends _).bind
        intro r hr
        exact ⟨by rw [hr.1], hr.2⟩
      · exact fun r hr => ⟨by rw [hr.1]; rfl, hr.2⟩
    | clear =>
      apply Ends.bind (P := fun r : BintreeOut × Bintree α => r.1 = .unit ∧
        r.2.Sorts cmpfn ([], none))
      · exact (h.clear.ends _).bind fun t' ht' => ⟨rfl, ht'⟩
      · exact fun r hr => ⟨by rw [hr.1]; rfl, hr.2⟩
  | balance => exact ((h.balance hc hpre).ends _).bind fun t' ht' => ⟨rfl, ht'⟩
  | first trav =>
    obtain ⟨rfl, hne⟩ := hpre
    apply ((h.first hc hne).ends _).bind
    intro r hr
    exact ⟨congrArg BintreeAnswer.data hr.1, hr.2⟩
  | next =>
    obtain ⟨x, hx⟩ := Option.ne_none_iff_exists'.1 hpre
    have hy : (s.2.bind fun x => nextAfter cmpfn x s.1) = nextAfter cmpfn x s.1 := by
      rw [hx, Option.bind_some]
    simp only [sortedSpec, hy]
    apply ((h.next hc hx).ends _).bind
    intro r hr
    exact ⟨congrArg BintreeAnswer.data hr.1, hr.2⟩

/-- The tree answers every query as the sorted list does. -/
structure AnswersSorted (cmpfn : α → α → ℤ) (t : Bintree α) (es : List α) : Prop where
  sorted : SortedBy cmpfn es
  count : bintreeCount t = .ok es.length
  find : ∀ x, bintreeFind cmpfn t x = .ok (findEq cmpfn x es)
  collect : ∀ dest : Buffer α, es.length ≤ dest.size →
    Returns (bintreeCollect t dest travInorder) fun u => u.1 = true ∧ dest.Filled 0 es u.2
  height : Returns (bintreeHeight t) fun h => Nat.size es.length ≤ h ∧ h ≤ es.length

theorem Sorts.answers (hc : IsCmpFn cmpfn) (h : t.Sorts cmpfn s) : t.AnswersSorted cmpfn s.1 := by
  obtain ⟨hs, T, hl, hes, hcount, -⟩ := h
  rw [← hes] at hs ⊢
  have hlen := length_elems T
  refine ⟨hs, hlen ▸ hcount, find_spec hc hl hs, fun dest hd => hl.collect_elems hd, ?_⟩
  rw [hl.bintreeHeight, hlen]
  exact .ok ⟨T.size_numNodes_le_height, T.height_le_numNodes⟩

end Bintree

end LibSrsBsns
