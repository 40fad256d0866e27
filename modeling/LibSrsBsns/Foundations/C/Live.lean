import LibSrsBsns.Foundations.C.Memory

/-!
# How many nodes are live

`m.numLive` counts the nodes that have been allocated and not been freed. Assignments keep it,
`malloc` and `free` change it by one. Cells that a structure owns are live, so a structure leaks
nothing as long as the number of its cells keeps up with this count (`Memory.Owns.covers_iff`).
-/

namespace LibSrsBsns.C.Memory

variable {β : Type} {m m' : Memory β} {a : ℕ} {v w : β} {as : List ℕ} {cs : List (ℕ × β)}

/-- The addresses that nodes live at. -/
def live (m : Memory β) : List ℕ := (List.range m.brk).filter fun a => (m.cell a).isSome

/-- The number of nodes that live in the memory. -/
def numLive (m : Memory β) : ℕ := m.live.length

theorem inUse_live (m : Memory β) : m.InUse m.live := by
  refine ⟨List.nodup_range.filter _, fun a => ?_⟩
  rw [live, List.mem_filter, List.mem_range, Option.isSome_iff_exists]
  exact and_iff_right_of_imp fun ⟨v, hv⟩ => lt_brk hv

/-- However the live nodes are listed, there are as many. -/
theorem InUse.length_eq (h : m.InUse as) : as.length = m.numLive := by
  have hlive := m.inUse_live
  apply List.Perm.length_eq
  rw [List.perm_ext_iff_of_nodup h.nodup hlive.nodup]
  intro a
  rw [h.mem_iff, hlive.mem_iff]

theorem numLive_put (h : m.cell a = some w) (v : β) : (m.put a v).numLive = m.numLive := by
  have hin : (m.put a v).InUse m.live := by
    refine ⟨m.inUse_live.nodup, fun b => ?_⟩
    rw [m.inUse_live.mem_iff]
    by_cases hba : b = a
    · simp [hba, h]
    · rw [put_cell_of_ne hba]
  exact hin.length_eq.symm

theorem numLive_alloc (m : Memory β) (v : β) : (m.put m.brk v).numLive = m.numLive + 1 :=
  (m.inUse_live.alloc v).length_eq.symm

theorem numLive_erase (h : m.cell a = some v) : (m.erase a).numLive + 1 = m.numLive := by
  have ha : a ∈ m.live := (m.inUse_live.mem_iff a).2 ⟨v, h⟩
  have hin := (m.inUse_live.perm (List.perm_cons_erase ha)).erase
  rw [← hin.length_eq, List.length_erase_of_mem ha]
  exact Nat.sub_add_cancel (List.length_pos_of_mem ha)

/-! ## What the operations do to the number -/

theorem store_numLive (m : Memory β) (a : ℕ) (v : β) :
    Ends (m.store a v) (fun m' => m'.numLive = m.numLive) fun _ => True := by
  cases hx : m.cell a with
  | none =>
    rw [store, load, hx]
    trivial
  | some w =>
    rw [store_of_cell hx]
    exact numLive_put hx v

theorem free_numLive (m : Memory β) (a : ℕ) :
    Ends (m.free a) (fun m' => m'.numLive + 1 = m.numLive) fun _ => True := by
  cases hx : m.cell a with
  | none =>
    rw [free, load, hx]
    trivial
  | some w =>
    rw [free_of_cell hx]
    exact numLive_erase hx

/-! ## Cells and live nodes -/

theorem Owns.cons (h : m.Owns cs) (hv : m.cell a = some v) (ha : a ∉ cs.map Prod.fst) :
    m.Owns ((a, v) :: cs) :=
  ⟨List.forall_mem_cons.2 ⟨hv, h.cell⟩, List.nodup_cons.2 ⟨ha, h.nodup⟩⟩

theorem Owns.length_le_numLive (h : m.Owns cs) : cs.length ≤ m.numLive := by
  have hsub : cs.map Prod.fst ⊆ m.live := by
    intro a ha
    obtain ⟨c, hc, rfl⟩ := List.mem_map.1 ha
    exact (m.inUse_live.mem_iff _).2 ⟨c.2, h.cell c hc⟩
  rw [← List.length_map (f := Prod.fst)]
  exact (h.nodup.subperm hsub).length_le

/-- Every live node is one of the cells if and only if there are as many. -/
theorem Owns.covers_iff (h : m.Owns cs) :
    (∀ a v, m.cell a = some v → a ∈ cs.map Prod.fst) ↔ m.numLive = cs.length := by
  constructor
  · intro hall
    have hin : m.InUse (cs.map Prod.fst) := by
      refine ⟨h.nodup, fun a => ⟨fun ha => ?_, fun ⟨v, hv⟩ => hall a v hv⟩⟩
      obtain ⟨c, hc, rfl⟩ := List.mem_map.1 ha
      exact ⟨c.2, h.cell c hc⟩
    rw [← hin.length_eq, List.length_map]
  · intro hnum a v hv
    by_contra hnot
    have hle := (h.cons hv hnot).length_le_numLive
    rw [List.length_cons] at hle
    omega

/-- The cells together with all other nodes that are live. -/
theorem Owns.exists_rest (h : m.Owns cs) :
    ∃ ds, m.Owns (cs ++ ds) ∧ m.numLive = (cs ++ ds).length := by
  obtain ⟨n, hn⟩ : ∃ n, m.numLive = cs.length + n := Nat.exists_eq_add_of_le h.length_le_numLive
  induction n generalizing cs with
  | zero => exact ⟨[], by simpa using h, by simpa using hn⟩
  | succ n ih =>
    obtain ⟨a, v, hv, hnot⟩ : ∃ a v, m.cell a = some v ∧ a ∉ cs.map Prod.fst := by
      by_contra hall
      push Not at hall
      have := h.covers_iff.1 hall
      omega
    have hown := (h.cons hv hnot).perm (List.perm_append_singleton _ _).symm
    obtain ⟨ds, hds, hnum⟩ := ih hown (by simp; omega)
    exact ⟨(a, v) :: ds, by simpa using hds, by simpa using hnum⟩

end LibSrsBsns.C.Memory
