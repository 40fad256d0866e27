import LibSrsBsns.Foundations.C.Exec
import Mathlib.Data.List.Perm.Subperm
import Mathlib.Data.List.Nodup

/-!
# Memory for the nodes of a linked structure

A `Memory β` holds the nodes, of type `β`, that a linked structure allocates. An address is a
number; addresses below `brk` have been handed out by `alloc`, and an address is never handed out
twice, so that every use of a node that has been freed is a fault. That no node lives at an address
not yet handed out is part of the type. The assertion `m.Owns cs` lists cells at distinct addresses,
and has a rule for each operation that changes the memory; `m.InUse as` lists all addresses that
nodes live at.
-/

namespace LibSrsBsns.C

/-- A pointer: an address or null. -/
abbrev Ptr := Option ℕ

/-- The address a pointer that is dereferenced must have. -/
def deref : Ptr → Exec ℕ
  | some a => .ok a
  | none => .error .nullDeref

@[simp] theorem deref_some (a : ℕ) : deref (some a) = .ok a := rfl

theorem deref_eq_ok {p : Ptr} {a : ℕ} : deref p = .ok a ↔ p = some a := by
  cases p <;> simp [deref]

/-- The nodes allocated and not yet freed. -/
@[ext] structure Memory (β : Type) where
  brk : ℕ
  cell : ℕ → Option β
  fresh : ∀ a, brk ≤ a → cell a = none

namespace Memory

variable {β : Type} {m : Memory β} {a b : ℕ} {v w : β}

/-- The memory before the first allocation. -/
def empty : Memory β := ⟨0, fun _ => none, fun _ _ => rfl⟩

/-- The memory with the node `v` at the address `a`. -/
def put (m : Memory β) (a : ℕ) (v : β) : Memory β where
  brk := max m.brk (a + 1)
  cell := Function.update m.cell a (some v)
  fresh b hb := by
    rw [Function.update_of_ne (by omega)]
    exact m.fresh b (by omega)

/-- The memory without the node at the address `a`. -/
def erase (m : Memory β) (a : ℕ) : Memory β where
  brk := m.brk
  cell := Function.update m.cell a none
  fresh b hb := by
    by_cases hab : b = a
    · simp [hab]
    · rw [Function.update_of_ne hab]
      exact m.fresh b hb

/-- `malloc` of a node with the contents `v`: its address, and the memory after it. -/
def alloc (m : Memory β) (v : β) : ℕ × Memory β := (m.brk, m.put m.brk v)

/-- The node at the address `a`. -/
def load (m : Memory β) (a : ℕ) : Exec β :=
  match m.cell a with
  | some v => .ok v
  | none => .error .dangling

/-- Overwrite the node at the address `a`. -/
def store (m : Memory β) (a : ℕ) (v : β) : Exec (Memory β) := do
  let _ ← m.load a
  .ok (m.put a v)

/-- Assign to fields of the node at the address `a`. -/
def modify (m : Memory β) (a : ℕ) (f : β → β) : Exec (Memory β) := do
  let v ← m.load a
  m.store a (f v)

/-- `free` of the node at the address `a`. -/
def free (m : Memory β) (a : ℕ) : Exec (Memory β) := do
  let _ ← m.load a
  .ok (m.erase a)

/-- `free` of a pointer, which may be null. -/
def freePtr (m : Memory β) : Ptr → Exec (Memory β)
  | none => .ok m
  | some a => m.free a

@[simp] theorem put_cell_self : (m.put a v).cell a = some v := by simp [put]

@[simp] theorem put_cell_of_ne (h : b ≠ a) : (m.put a v).cell b = m.cell b := by
  simp [put, h]

@[simp] theorem erase_cell_self : (m.erase a).cell a = none := by simp [erase]

@[simp] theorem erase_cell_of_ne (h : b ≠ a) : (m.erase a).cell b = m.cell b := by
  simp [erase, h]

@[simp] theorem erase_brk : (m.erase a).brk = m.brk := rfl

/-- A node lives below the break. -/
theorem lt_brk (h : m.cell a = some v) : a < m.brk := by
  by_contra hlt
  simp [m.fresh a (by omega)] at h

theorem cell_brk (m : Memory β) : m.cell m.brk = none := m.fresh _ le_rfl

/-- Writing a node leaves a node at every address that had one. -/
theorem exists_put_cell (h : ∃ w, m.cell b = some w) (a : ℕ) (v : β) :
    ∃ w, (m.put a v).cell b = some w := by
  by_cases hba : b = a
  · exact ⟨v, by rw [hba, put_cell_self]⟩
  · simpa [hba] using h

theorem put_brk (h : m.cell a = some w) : (m.put a v).brk = m.brk :=
  max_eq_left (lt_brk h)

/-- Overwriting a node by itself changes nothing. -/
theorem put_self (h : m.cell a = some v) : m.put a v = m := by
  apply Memory.ext
  · exact put_brk h
  · funext b
    by_cases hba : b = a
    · rw [hba, put_cell_self, h]
    · exact put_cell_of_ne hba

theorem load_of_cell (h : m.cell a = some v) : m.load a = .ok v := by rw [load, h]

theorem load_eq_ok : m.load a = .ok v ↔ m.cell a = some v := by
  unfold load
  split <;> simp [*]

theorem store_of_cell (h : m.cell a = some w) : m.store a v = .ok (m.put a v) := by
  rw [store, load_of_cell h, ok_bind]

theorem modify_of_cell (h : m.cell a = some v) (f : β → β) :
    m.modify a f = .ok (m.put a (f v)) := by
  rw [modify, load_of_cell h, ok_bind, store_of_cell h]

theorem free_of_cell (h : m.cell a = some v) : m.free a = .ok (m.erase a) := by
  rw [free, load_of_cell h, ok_bind]

/-! ## Cells at distinct addresses -/

/-- The memory contains the cells `cs`, whose addresses are distinct. -/
structure Owns (m : Memory β) (cs : List (ℕ × β)) : Prop where
  cell : ∀ c ∈ cs, m.cell c.1 = some c.2
  nodup : (cs.map Prod.fst).Nodup

namespace Owns

variable {cs ds : List (ℕ × β)}

theorem nil (m : Memory β) : m.Owns [] := ⟨by simp, by simp⟩

theorem head (h : m.Owns ((a, v) :: cs)) : m.cell a = some v := h.cell (a, v) (by simp)

theorem perm (h : m.Owns cs) (hp : cs.Perm ds) : m.Owns ds :=
  ⟨fun c hc => h.cell c (hp.mem_iff.2 hc), (hp.map Prod.fst).nodup_iff.1 h.nodup⟩

theorem sublist (h : m.Owns cs) (hs : ds.Sublist cs) : m.Owns ds :=
  ⟨fun c hc => h.cell c (hs.subset hc), h.nodup.sublist (hs.map Prod.fst)⟩

theorem notMem (h : m.Owns ((a, v) :: cs)) : a ∉ cs.map Prod.fst := (List.nodup_cons.1 h.nodup).1

theorem tail (h : m.Owns ((a, v) :: cs)) : m.Owns cs := h.sublist (List.sublist_cons_self _ _)

theorem ne_of_mem {c : ℕ × β} (h : m.Owns ((a, v) :: cs)) (hc : c ∈ cs) : c.1 ≠ a := by
  intro e
  exact h.notMem (e ▸ List.mem_map_of_mem hc)

/-- Overwriting one of the cells. -/
theorem put (h : m.Owns ((a, v) :: cs)) (w : β) : (m.put a w).Owns ((a, w) :: cs) := by
  refine ⟨fun c hc => ?_, h.nodup⟩
  rcases List.mem_cons.1 hc with rfl | hc
  · exact put_cell_self
  · rw [put_cell_of_ne (h.ne_of_mem hc)]
    exact h.tail.cell c hc

/-- A cell more, from `malloc`. -/
theorem alloc (h : m.Owns cs) (v : β) : (m.put m.brk v).Owns ((m.brk, v) :: cs) := by
  have hne : m.brk ∉ cs.map Prod.fst := by
    intro hb
    obtain ⟨c, hc, e⟩ := List.mem_map.1 hb
    have hcell := h.cell c hc
    rw [e, m.cell_brk] at hcell
    cases hcell
  refine ⟨fun c hc => ?_, List.nodup_cons.2 ⟨hne, h.nodup⟩⟩
  rcases List.mem_cons.1 hc with rfl | hc
  · exact put_cell_self
  · have hcne : c.1 ≠ m.brk := fun e => hne (e ▸ List.mem_map_of_mem (f := Prod.fst) hc)
    rw [put_cell_of_ne hcne]
    exact h.cell c hc

/-- A cell less, by `free`. -/
theorem erase (h : m.Owns ((a, v) :: cs)) : (m.erase a).Owns cs := by
  refine ⟨fun c hc => ?_, h.tail.nodup⟩
  rw [erase_cell_of_ne (h.ne_of_mem hc)]
  exact h.tail.cell c hc

/-- There are no more cells than addresses handed out. -/
theorem length_le (h : m.Owns cs) : cs.length ≤ m.brk := by
  have hsub : cs.map Prod.fst ⊆ List.range m.brk := by
    intro a ha
    obtain ⟨c, hc, rfl⟩ := List.mem_map.1 ha
    exact List.mem_range.2 (lt_brk (h.cell c hc))
  simpa using (h.nodup.subperm hsub).length_le

end Owns

/-! ## The addresses in use -/

/-- The addresses `as`, each listed once, are those that nodes live at. -/
structure InUse (m : Memory β) (as : List ℕ) : Prop where
  nodup : as.Nodup
  mem_iff : ∀ a, a ∈ as ↔ ∃ v, m.cell a = some v

namespace InUse

variable {as as' : List ℕ}

theorem empty : (Memory.empty : Memory β).InUse [] := ⟨by simp, by simp [Memory.empty]⟩

theorem perm (h : m.InUse as) (hp : as.Perm as') : m.InUse as' :=
  ⟨hp.nodup_iff.1 h.nodup, fun a => by rw [← hp.mem_iff, h.mem_iff]⟩

theorem brk_notMem (h : m.InUse as) : m.brk ∉ as := by
  intro hb
  obtain ⟨v, hv⟩ := (h.mem_iff _).1 hb
  rw [m.cell_brk] at hv
  cases hv

theorem alloc (h : m.InUse as) (v : β) : (m.put m.brk v).InUse (m.brk :: as) := by
  refine ⟨List.nodup_cons.2 ⟨h.brk_notMem, h.nodup⟩, fun a => ?_⟩
  by_cases hab : a = m.brk
  · simp [hab]
  · rw [put_cell_of_ne hab, ← h.mem_iff, List.mem_cons, or_iff_right hab]

theorem erase (h : m.InUse (a :: as)) : (m.erase a).InUse as := by
  obtain ⟨ha, hd⟩ := List.nodup_cons.1 h.nodup
  refine ⟨hd, fun b => ?_⟩
  by_cases hba : b = a
  · simp [hba, ha]
  · rw [erase_cell_of_ne hba, ← h.mem_iff, List.mem_cons, or_iff_right hba]

theorem free (h : m.InUse (a :: as)) : m.free a = .ok (m.erase a) := by
  obtain ⟨v, hv⟩ := (h.mem_iff a).1 (by simp)
  exact free_of_cell hv

/-- A node more that is not listed. -/
theorem not_alloc (h : m.InUse as) (v : β) : ¬ (m.put m.brk v).InUse as := by
  intro h'
  exact h.brk_notMem ((h'.mem_iff _).2 ⟨v, put_cell_self⟩)

end InUse

/-- A node that is listed has been freed. -/
theorem not_inUse_erase {as : List ℕ} (ha : a ∈ as) : ¬ (m.erase a).InUse as := by
  intro h
  obtain ⟨v, hv⟩ := (h.mem_iff a).1 ha
  rw [erase_cell_self] at hv
  cases hv

end Memory

end LibSrsBsns.C
