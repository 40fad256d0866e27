import LibSrsBsns.Heap.PriorityQueue

/-!
# Growth of the heap that fails

`heap_insert` does not look at the result of `heap_resize`. Runs of `heap_insert` and `heap_remove`
in which `realloc` may fail keep the elements inside the array as long as no insertion needs growth
that fails (`heap_failed_growth_iff`), whatever the comparison function returns; the insertion that
does writes behind the end of the array.
-/

namespace LibSrsBsns

open C HeapOrder

variable {α : Type} {cmpfn : α → α → ℤ}

/-- The calls on a heap whose growth may fail: `ok` says whether `realloc` succeeds. -/
inductive HeapCall (α : Type)
  | insert (elem : Option α) (ok : Bool)
  | remove

/-- A call on the heap, which may find no memory. -/
def heapCall (cmpfn : α → α → ℤ) (h : Heap α) : HeapCall α → Exec (Option α × Heap α)
  | .insert elem ok => do
    let h ← heapInsert cmpfn h elem ok
    .ok (none, h)
  | .remove => heapRemove cmpfn h

namespace Heap

variable {tree : Buffer α} {xs : List α} {h : Heap α} {n : ℕ}

/-- The call is an insertion that needs growth, and the growth fails. -/
def GrowthFails (h : Heap α) : HeapCall α → Prop
  | .insert (some _) ok => ok = false ∧ h.treesz ≤ h.next
  | _ => False

/-- The heap `h'` has the elements of `h`, in the same places. -/
structure SameElements (h h' : Heap α) : Prop where
  count : h'.count = h.count
  next : h'.next = h.next
  cell : ∀ i < h.next, h'.tree.cell i = h.tree.cell i

/-- The call accesses the array inside its bounds only, leaves no more elements than the array has
cells, and changes no element where growth fails. -/
def Withstands (cmpfn : α → α → ℤ) (h : Heap α) (call : HeapCall α) : Prop :=
  Returns (heapCall cmpfn h call) fun r =>
    r.2.tree.size = r.2.treesz ∧ r.2.next ≤ r.2.treesz ∧
      (h.GrowthFails call → h.SameElements r.2)

/-! ## Sifting without an order -/

/-- Sifting up moves elements, whatever the comparisons say. -/
theorem upheap_stores (hs : h.Stores xs) (hn : n < xs.length) :
    Returns (upheap cmpfn h n) fun h' => ∃ ys, h'.Stores ys := by
  apply (upheap_rule (fun _ _ => True) (Q := fun _ => True) hs hn trivial
    (fun _ _ _ _ _ _ _ => trivial) (fun _ _ => trivial) fun _ _ _ _ _ _ => trivial).mono
  intro h' ⟨ys, _, hst, _⟩
  exact ⟨ys, hst⟩

/-- A child that `downheap` exchanges is a node of the heap behind its parent. -/
theorem badChild_child (ht : tree.Holds 0 xs) (hl : left n < xs.length) :
    Returns (badChild cmpfn tree xs.length n) fun c => ∀ j ∈ c, n < j ∧ j < xs.length := by
  have hn : n < xs.length := by unfold left at hl; omega
  have hleft : n < left n ∧ left n < xs.length := ⟨by unfold left; omega, hl⟩
  have hright (hr : right n < xs.length) : n < right n ∧ right n < xs.length :=
    ⟨by unfold right; omega, hr⟩
  by_cases hr : right n < xs.length
  · simp only [badChild, less_spec ht hl hn, less_spec ht hr hn, less_spec ht hl hr, ok_bind,
      if_pos hr]
    split
    case isTrue => exact .ok (by simp only [Option.mem_some_iff]; grind)
    case isFalse =>
      split
      case isTrue => exact .ok (by simp only [Option.mem_some_iff]; grind)
      case isFalse => exact .ok (by simp)
  · simp only [badChild, less_spec ht hl hn, ok_bind, if_neg hr, Bool.and_false, Bool.or_false,
      Bool.false_eq_true, if_false]
    split
    case isTrue => exact .ok (by simp only [Option.mem_some_iff]; grind)
    case isFalse => exact .ok (by simp)

/-- Sifting down moves elements, whatever the comparisons say. -/
theorem downheap_stores (hs : h.Stores xs) :
    Returns (downheap cmpfn h) fun h' => ∃ ys, h'.Stores ys := by
  have hrule : Returns (downheap cmpfn h) fun h' => ∃ ys, ys.Perm xs ∧ h'.Stores ys ∧ True := by
    apply downheap_rule (fun _ _ => True) hs trivial _ fun _ _ _ _ => trivial
    intro tree ys node hty hnode hl _
    apply (badChild_child hty hl).mono
    intro c hc
    exact ⟨fun _ => trivial, fun j hj => ⟨(hc j hj).1, (hc j hj).2, trivial⟩⟩
  apply hrule.mono
  intro h' ⟨ys, _, hst, _⟩
  exact ⟨ys, hst⟩

/-! ## The calls -/

theorem Stores.next_le (hs : h.Stores xs) : h.next ≤ h.treesz := by
  have hle := hs.holds.le
  have hnext := hs.next
  have hsize := hs.size
  omega

/-- Where growth is not needed or succeeds, there is room for one element more. -/
theorem grow_room (hs : h.Stores xs) {ok : Bool} (hok : ¬ (ok = false ∧ h.treesz ≤ h.next)) :
    (h.grow ok).Stores xs ∧ (h.grow ok).next < (h.grow ok).treesz := by
  cases ok with
  | true => exact grow_spec hs
  | false =>
    have hlt : ¬ h.next ≥ h.treesz := fun hge => hok ⟨rfl, hge⟩
    rw [grow, if_neg hlt]
    exact ⟨hs, Nat.lt_of_not_le hlt⟩

/-- A call whose growth does not fail returns with the elements inside the array. -/
theorem heapCall_stores (hs : h.Stores xs) {call : HeapCall α} (hok : ¬ h.GrowthFails call) :
    Returns (heapCall cmpfn h call) fun r => ∃ ys, r.2.Stores ys := by
  cases call with
  | insert elem ok =>
    cases elem with
    | none => exact .ok ⟨xs, hs⟩
    | some x =>
      obtain ⟨hs', hroom⟩ := grow_room hs hok
      have hup (h' : Heap α) (hst : h'.Stores (xs ++ [x])) :
          Returns (upheap cmpfn h' xs.length) fun h'' => ∃ ys, h''.Stores ys :=
        upheap_stores hst (by simp)
      apply (insert_bind hs' hroom hup).bind
      intro h' hst
      exact .ok hst
  | remove =>
    cases xs with
    | nil =>
      rw [heapCall, remove_nil hs]
      exact .ok ⟨[], hs⟩
    | cons x xs =>
      obtain ⟨ys, y, hxy⟩ : ∃ ys y, x :: xs = ys ++ [y] :=
        (List.eq_nil_or_concat' (x :: xs)).resolve_left (by simp)
      apply (remove_bind hs hxy fun h' hst => downheap_stores hst).mono
      intro r ⟨_, hst⟩
      exact hst

theorem heapResize_false (h : Heap α) (newsz : ℕ) : heapResize h newsz false = (false, h) := by
  simp [heapResize]

/-- An insertion whose growth fails writes behind the end of the array. -/
theorem heapCall_error (hs : h.Stores xs) {call : HeapCall α} (hfail : h.GrowthFails call) :
    heapCall cmpfn h call = .error .outOfBounds := by
  match call, hfail with
  | .insert (some x) _, ⟨rfl, hge⟩ =>
    have hgrow : h.grow false = h := by rw [grow, if_pos hge, heapResize_false]
    have hbound : ¬ h.next < h.tree.size := by
      have hsize := hs.size
      omega
    simp only [heapCall, heapInsert, hgrow, Buffer.write, Buffer.store, if_neg hbound, error_bind]

theorem withstands_iff (hs : h.Stores xs) (call : HeapCall α) :
    Withstands cmpfn h call ↔ ¬ h.GrowthFails call := by
  constructor
  · intro hw hfail
    rw [Withstands, heapCall_error hs hfail] at hw
    exact not_returns_error hw
  · intro hok
    apply (heapCall_stores hs hok).mono
    intro r ⟨ys, hst⟩
    exact ⟨hst.size, hst.next_le, fun hfail => absurd hfail hok⟩

end Heap

/-- **Failed growth.** In a run of `heap_insert` and `heap_remove` on a fresh heap, every call
accesses the array inside its bounds, leaves at most as many elements as the array has cells, and
changes no element if it needs growth that fails, if and only if no call needs growth that fails. -/
theorem heap_failed_growth_iff (cmpfn : α → α → ℤ) (calls : List (HeapCall α)) :
    Meets (heapCall cmpfn) (Heap.Withstands cmpfn) heapInit calls ↔
      Meets (heapCall cmpfn) (fun h call => ¬ h.GrowthFails call) heapInit calls := by
  have hinit : ∃ xs, (heapInit : Heap α).Stores xs := ⟨[], Heap.stores_init⟩
  constructor
  · apply Meets.imp (fun h => ∃ xs, h.Stores xs) _ hinit
    intro h call ⟨xs, hs⟩ hw
    have hok := (Heap.withstands_iff hs call).1 hw
    exact ⟨hok, (Heap.heapCall_stores hs hok).ends _⟩
  · apply Meets.imp (fun h => ∃ xs, h.Stores xs) _ hinit
    intro h call ⟨xs, hs⟩ hok
    exact ⟨(Heap.withstands_iff hs call).2 hok, (Heap.heapCall_stores hs hok).ends _⟩

/-- The insertion behind a full array of 32 cells, when there is no memory. -/
theorem not_withstands_of_full :
    ¬ Meets (heapCall fun a b : ℤ => a - b) (Heap.Withstands fun a b => a - b) heapInit
      (List.replicate 32 (.insert (some 7) true) ++ [.insert (some 7) false]) := by
  intro hw
  have hreturns := hw.returns fun h call hcall => hcall.mono fun _ _ => trivial
  have herror : (runs (heapCall fun a b : ℤ => a - b) heapInit
      (List.replicate 32 (.insert (some 7) true) ++ [.insert (some 7) false])).map (fun _ => ()) =
        .error .outOfBounds := by decide +kernel
  obtain ⟨r, hr, -⟩ := hreturns
  rw [hr] at herror
  cases herror

end LibSrsBsns
