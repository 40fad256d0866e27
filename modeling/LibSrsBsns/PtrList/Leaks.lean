import LibSrsBsns.PtrList.Cursor
import LibSrsBsns.Foundations.C.Live

/-!
# The nodes of a pointer list

Every function on a pointer list frees the nodes it unlinks and links the node it allocates, so that
the nodes that live in memory are those of the list (`PtrList.Owned`), whichever calls are made and
whether `malloc` finds room or not.
-/

namespace LibSrsBsns

open C

variable {α : Type}

namespace PtrList

variable {l : PtrList α} {ns : List (ℕ × α)}

/-- The number of nodes that live in memory is the length of the list, and `ptrlist_clear` frees all of
them. -/
theorem Owned.leaks_nothing (h : l.Owned ns) : ptrlistCount l = .ok l.mem.numLive ∧
    Returns (ptrlistClear l) fun l' => l'.mem.numLive = 0 := by
  have hcount : ptrlistCount l = .ok (ns.map Prod.snd).length := count_spec ⟨ns, h.nodes, rfl⟩
  have hlive := h.inUse.length_eq
  rw [List.length_map] at hlive hcount
  refine ⟨hcount.trans (congrArg _ hlive), h.nodes.clear.mono fun l' hl' => ?_⟩
  exact (h.relinks hl').inUse.length_eq.symm

theorem Owned.step (h : l.Owned ns) (op : PtrlistOp α) :
    Returns (ptrlistStep l op) fun r => ∃ ns', r.2.Owned ns' := by
  cases op with
  | insert i data ok =>
    cases data with
    | none => exact .ok ⟨ns, h⟩
    | some x =>
      cases ok with
      | false => exact .ok ⟨ns, h⟩
      | true =>
        apply (h.nodes.insert i x).bind
        rintro r ⟨_, pre, post, _, hlinks, _⟩
        exact .ok ⟨_, h.relinks hlinks⟩
  | replace i data =>
    cases data with
    | none =>
      simp only [ptrlistStep, replace_none, ok_bind]
      exact .ok ⟨ns, h⟩
    | some x =>
      apply (h.nodes.replace i x).bind
      rintro r ⟨_, ns', hlinks, _⟩
      exact .ok ⟨ns', h.relinks hlinks⟩
  | remove i =>
    apply (h.nodes.remove i).bind
    rintro r ⟨_, hlinks⟩
    exact .ok ⟨_, h.relinks hlinks⟩
  | clear =>
    apply h.nodes.clear.bind
    intro l' hlinks
    exact .ok ⟨[], h.relinks hlinks⟩

/-- The call is `ptrlist_next`, and the node under the cursor has been freed. -/
def NextOfFreed (l : PtrList α) (call : PtrlistCall α) : Prop :=
  call = .next ∧ ∃ a, l.iter = some a ∧ l.mem.cell a = none

/-- Every call keeps the nodes of the list its own, as far as it returns: only `ptrlist_next` may not,
from a node that has been freed. -/
theorem Owned.call (h : l.Owned ns) (call : PtrlistCall α) :
    Ends (ptrlistCall l call) (fun r => ∃ ns', r.2.Owned ns')
      fun e => e = .dangling ∧ l.NextOfFreed call := by
  cases call with
  | op op =>
    apply Returns.ends
    apply (h.step op).bind
    intro r hr
    exact .ok hr
  | first =>
    cases ns with
    | nil =>
      simp only [ptrlistCall, h.nodes.first_nil]
      exact ⟨[], h⟩
    | cons n ns =>
      simp only [ptrlistCall, h.nodes.first_cons]
      exact ⟨n :: ns, h.of_iter _⟩
  | next =>
    by_cases hiter : ∀ a, l.iter = some a → a ∈ ns.map Prod.fst
    · apply Returns.ends
      apply (h.nodes.next hiter).bind
      rintro ⟨x, _⟩ ⟨⟨iter, rfl, -⟩, -⟩
      exact .ok ⟨ns, h.of_iter iter⟩
    · push Not at hiter
      obtain ⟨a, ha, hnot⟩ := hiter
      simp only [ptrlistCall, h.next_dangling ha hnot]
      exact ⟨rfl, rfl, a, ha, h.cell_eq_none hnot⟩

end PtrList

/-- **A pointer list leaks nothing.** After every run of calls on a list, in any order and whether
`malloc` finds room or not, the nodes that live in memory are as many as the list has elements, and
`ptrlist_clear`, with which `ptrlist_dispose` starts, frees all of them. A run ends early only where
`ptrlist_next` is called from a node that has been freed. -/
theorem ptrlist_leaks_nothing (calls : List (PtrlistCall α)) :
    Ends (runs ptrlistCall (ptrlistInit : PtrList α) calls)
      (fun r => ptrlistCount r.2 = .ok r.2.mem.numLive ∧
        Returns (ptrlistClear r.2) fun l => l.mem.numLive = 0)
      fun e => e = .dangling ∧ RunsInto ptrlistCall PtrList.NextOfFreed ptrlistInit calls := by
  have hrun : Ends (runs ptrlistCall (ptrlistInit : PtrList α) calls)
      (fun r => ∃ ns, r.2.Owned ns)
      fun e => e = .dangling ∧ RunsInto ptrlistCall PtrList.NextOfFreed ptrlistInit calls :=
    Ends.runs_into (I := fun l : PtrList α => ∃ ns, l.Owned ns) (fun l call ⟨_, h⟩ => h.call call)
      ⟨[], PtrList.owned_init⟩ calls
  apply hrun.mono
  rintro r ⟨ns, h⟩
  exact h.leaks_nothing

end LibSrsBsns
