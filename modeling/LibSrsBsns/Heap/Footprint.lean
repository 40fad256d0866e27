import LibSrsBsns.Heap.FailedGrowth
import LibSrsBsns.Foundations.C.Footprint

/-!
# The memory of the heap

Only an insertion into a full array changes its size, to twice as much. What a heap allocates is
therefore in proportion to the most elements that it ever holds (`heap_footprint`), whatever the
comparison function returns.
-/

namespace LibSrsBsns

open C

variable {α : Type} {cmpfn : α → α → ℤ}

namespace Heap

variable {h : Heap α} {xs : List α}

theorem upheap_treesz (h : Heap α) (node : ℕ) : Ends (upheap cmpfn h node)
    (fun h' => h'.treesz = h.treesz ∧ h'.count = h.count) fun _ => True := by
  unfold upheap
  split
  case isTrue => exact ⟨rfl, rfl⟩
  case isFalse =>
    apply (Ends.trivial (upLoop cmpfn _ _)).bind
    intro tree _
    exact ⟨rfl, rfl⟩

theorem downheap_treesz (h : Heap α) : Ends (downheap cmpfn h)
    (fun h' => h'.treesz = h.treesz) fun _ => True := by
  unfold downheap
  apply (Ends.trivial (downLoop cmpfn _ _ _)).bind
  intro tree _
  exact rfl

/-- The growth of an insertion doubles the array, where it does anything. -/
theorem grow_treesz (hs : h.Stores xs) (ok : Bool) : (h.grow ok).count = h.count ∧
    ((h.grow ok).treesz = h.treesz ∨ h.count = h.treesz ∧ (h.grow ok).treesz = h.treesz * 2) := by
  have hle := hs.next_le
  have hcount := hs.count
  have hnext := hs.next
  have hpos := hs.pos
  unfold grow
  split
  case isTrue hfull =>
    cases ok with
    | true =>
      obtain ⟨h', hres, hs', hsz⟩ := heapResize_spec hs (n := h.treesz * 2) (by omega) (by omega)
      rw [hres]
      exact ⟨hs'.count.trans hcount.symm, .inr ⟨by omega, hsz⟩⟩
    | false =>
      rw [heapResize_false]
      exact ⟨rfl, .inl rfl⟩
  case isFalse => exact ⟨rfl, .inl rfl⟩

/-- An insertion that doubles the array leaves it at least half full. -/
theorem insert_frugal (hs : h.Stores xs) (x : α) (ok : Bool) :
    Ends (heapInsert cmpfn h (some x) ok) (fun h' => Frugal 2 count treesz h h') fun _ => True := by
  obtain ⟨hcount, hgrow⟩ := grow_treesz hs ok
  have hinsert : Ends (heapInsert cmpfn h (some x) ok)
      (fun h' => h'.treesz = (h.grow ok).treesz ∧ h'.count = h.count + 1) fun _ => True := by
    apply (Ends.trivial ((h.grow ok).tree.write _ x)).bind
    intro tree _
    apply (upheap_treesz _ _).mono
    intro h' ⟨hsz, hcount'⟩
    exact ⟨hsz, hcount'.trans (congrArg (· + 1) hcount)⟩
  apply hinsert.mono
  intro h' ⟨hsz, hcount'⟩
  rcases hgrow with hsame | ⟨hfull, hdouble⟩
  · exact .inl (hsz.trans hsame)
  · exact .inr ⟨by omega, by omega⟩

/-- A removal keeps the array. -/
theorem remove_treesz (h : Heap α) :
    Ends (heapRemove cmpfn h) (fun r => r.2.treesz = h.treesz) fun _ => True := by
  unfold heapRemove
  split
  case isTrue => exact rfl
  case isFalse =>
    apply (Ends.trivial (h.tree.read 0)).bind
    intro res _
    apply (Ends.trivial (h.tree.read (h.next - 1))).bind
    intro last _
    apply (Ends.trivial (h.tree.write 0 last)).bind
    intro tree _
    apply (downheap_treesz _).bind
    intro h' hsz
    exact hsz

/-- Every call on a heap is frugal, as far as it returns. -/
theorem heapCall_frugal (hs : h.Stores xs) (call : HeapCall α) :
    Ends (heapCall cmpfn h call)
      (fun r => (∃ ys, r.2.Stores ys) ∧ Frugal 2 heapCount treesz h r.2)
      fun e => e = .outOfBounds ∧ h.GrowthFails call := by
  by_cases hfail : h.GrowthFails call
  · rw [heapCall_error hs hfail]
    exact ⟨rfl, hfail⟩
  have hfrugal : Ends (heapCall cmpfn h call) (fun r => Frugal 2 heapCount treesz h r.2)
      fun _ => True := by
    cases call with
    | insert elem ok =>
      cases elem with
      | none => exact .inl rfl
      | some x =>
        apply (insert_frugal hs x ok).bind
        intro h' hf
        exact hf
    | remove => exact (remove_treesz h).mono fun r hsz => .inl hsz
  obtain ⟨r, hcall, hstores⟩ : Returns (heapCall cmpfn h call) _ := heapCall_stores hs hfail
  rw [hcall] at hfrugal ⊢
  exact ⟨hstores, hfrugal⟩

end Heap

/-- **The memory of a heap.** After every run of insertions and removals on a fresh heap, its array has
at most twice as many slots as the heap ever held elements, or the 32 that it was made with; and all
growth together has moved fewer elements than the array has slots. A run that does not return has come
to an insertion into a full array whose growth fails, and written behind the end of the array. -/
theorem heap_footprint (cmpfn : α → α → ℤ) (calls : List (HeapCall α)) :
    Ends (runs (heapCall cmpfn) heapInit calls)
      (fun r => r.2.treesz ≤ max 32 (2 * peak (heapCall cmpfn) heapCount heapInit calls) ∧
        moves (heapCall cmpfn) heapCount Heap.treesz heapInit calls < r.2.treesz)
      fun e => e = .outOfBounds ∧ RunsInto (heapCall cmpfn) Heap.GrowthFails heapInit calls := by
  have hinit : ∃ xs, (heapInit : Heap α).Stores xs := ⟨[], Heap.stores_init⟩
  have hstep (h : Heap α) (call : HeapCall α) (hs : ∃ xs, h.Stores xs) :
      Ends (heapCall cmpfn h call)
        (fun r => (∃ ys, r.2.Stores ys) ∧ Frugal 2 heapCount Heap.treesz h r.2)
        fun e => e = .outOfBounds ∧ h.GrowthFails call := by
    obtain ⟨xs, hs⟩ := hs
    exact Heap.heapCall_frugal hs call
  have hfoot := Ends.footprint _ (fun h call hs => (hstep h call hs).fault_mono fun _ _ => trivial)
    hinit calls
  have hends := Ends.runs_into (fun h call hs => (hstep h call hs).mono fun _ hr => hr.1) hinit calls
  apply ((hfoot.and hends).fault_mono fun e he => he.2).mono
  rintro r ⟨⟨hle, hmoves⟩, -⟩
  have hcap : (heapInit : Heap α).treesz = 32 := rfl
  exact ⟨hle, by omega⟩

end LibSrsBsns
