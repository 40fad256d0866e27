import LibSrsBsns.StrList.Model
import LibSrsBsns.PtrList.Cursor
import Mathlib.Data.List.Perm.Basic

/-!
# Who owns the strings

A string list copies the strings it is given and frees a copy when it leaves the list.
`StrList.OwnsExactly` says that the copies alive are those in the list, once each. The functions
free a string, and copy one, before they know whether the change of the list will take place, and
`slist_clear` goes by the cursor; `slist_owns_exactly_iff` says which runs of calls keep the
ownership exact nevertheless.
-/

namespace LibSrsBsns

open C

/-- The calls on a string list; `dup` and `node` say whether `malloc` finds room for the copy of the
string and for the node. -/
inductive SlistOp
  | insert (i : ℕ) (data : Option (List UInt8)) (dup node : Bool)
  | replace (i : ℕ) (data : Option (List UInt8)) (dup : Bool)
  | remove (i : ℕ)
  | clear
  | first
  | next

inductive SlistOut
  | unit
  | bool (b : Bool)
  | str (d : Ptr)
  deriving DecidableEq

def slistStep (l : StrList) : SlistOp → Exec (SlistOut × StrList)
  | .insert i data dup node => do
    let (b, l) ← slistInsert l i data dup node
    .ok (.bool b, l)
  | .replace i data dup => do
    let (b, l) ← slistReplace l i data dup
    .ok (.bool b, l)
  | .remove i => do
    let (b, l) ← slistRemove l i
    .ok (.bool b, l)
  | .clear => do
    let l ← slistClear l
    .ok (.unit, l)
  | .first => do
    let (d, l) ← slistFirst l
    .ok (.str d, l)
  | .next => do
    let (d, l) ← slistNext l
    .ok (.str d, l)

namespace StrList

variable {l : StrList} {ns : List (ℕ × ℕ)} {as : List ℕ}

/-- The strings allocated and not yet freed are those in the list, each held once. -/
def OwnsExactly (l : StrList) : Prop := ∃ as, l.list.Lists as ∧ l.strs.InUse as

/-- The ownership stays exact in the call, which returns. -/
def KeepsOwnership (l : StrList) : SlistOp → Prop
  | .insert _ data dup node => data ≠ none → dup = true → node = true
  | .replace i data dup => data ≠ none → ∀ n, ptrlistCount l.list = .ok n → (dup = true ↔ i < n)
  | .clear => l.list.head = none → l.list.iter = none
  | .next => ∀ a, l.list.iter = some a → l.list.Linked a
  | _ => True

theorem ownsExactly_iff (h : l.list.Lists as) : l.OwnsExactly ↔ l.strs.InUse as := by
  constructor
  · intro ⟨as', h', hin⟩
    rwa [h.unique h']
  · intro hin
    exact ⟨as, h, hin⟩

theorem step_of_owned {P : Prop} (hns : l.list.Owned ns)
    (hiff : l.strs.InUse (ns.map Prod.snd) ↔ P) :
    (∃ ns, l.list.Owned ns) ∧ (l.OwnsExactly ↔ P) :=
  ⟨⟨ns, hns⟩, (ownsExactly_iff ⟨ns, hns.nodes, rfl⟩).trans hiff⟩

/-- From a string of the list on, the loop of `slist_clear` frees those that there are. -/
theorem clearLoop_spec {pre post : List (ℕ × ℕ)} {a d k : ℕ}
    (h : l.list.Nodes (pre ++ (a, d) :: post)) (hiter : l.list.iter = some a)
    (hin : l.strs.InUse (d :: post.map Prod.snd)) (hk : post.length < k) :
    Returns (clearLoop k (some d, l)) fun r =>
      r.strs.InUse [] ∧ ∃ iter, r.list = { l.list with iter } := by
  induction post generalizing l pre a d k with
  | nil =>
    obtain ⟨k, rfl⟩ : ∃ k', k = k' + 1 := ⟨k - 1, by omega⟩
    rw [clearLoop, loop_inr (b := { l with strs := l.strs.erase d })
      (by simp [Memory.freePtr, hin.free, slistNext, h.next_nil hiter])]
    exact .ok ⟨hin.erase, l.list.iter, rfl⟩
  | cons n post ih =>
    obtain ⟨k, rfl⟩ : ∃ k', k = k' + 1 := ⟨k - 1, by omega⟩
    rw [clearLoop, loop_inl
      (t := (some n.2, { strs := l.strs.erase d, list := { l.list with iter := some n.1 } }))
      (by simp [Memory.freePtr, hin.free, slistNext, h.next_cons hiter]), ← clearLoop]
    have hnodes : PtrList.Nodes { l.list with iter := some n.1 } ((pre ++ [(a, d)]) ++ n :: post) :=
      ⟨by simpa using h.seg, by simpa using h.nodup⟩
    exact ih hnodes rfl hin.erase (by simpa using hk)

theorem clear_ends (hns : l.list.Owned ns) (hin : l.strs.InUse (ns.map Prod.snd)) :
    Ends (slistClear l) (fun r => r.list.Owned [] ∧ r.strs.InUse [] ∧ l.KeepsOwnership .clear)
      fun _ => ¬ l.KeepsOwnership .clear := by
  cases ns with
  | nil =>
    have hhead : l.list.head = none := hns.nodes.nil_iff.2 rfl
    simp only [slistClear, slistFirst, hns.nodes.first_nil, ok_bind]
    cases hiter : l.list.iter with
    | none =>
      have hloop : clearLoop l.list.turns (none, l) = .ok l :=
        loop_inr (by simp [Memory.freePtr, slistNext, ptrlistNext, hiter]) _
      rw [hloop, ok_bind]
      apply (hns.nodes.clear.ends _).bind
      intro list hlist
      exact ⟨hns.relinks hlist, hin, fun _ => hiter⟩
    | some a =>
      have hloop : clearLoop l.list.turns (none, l) = .error .dangling := by
        rw [clearLoop, PtrList.turns, loop]
        simp [Memory.freePtr, slistNext, hns.next_dangling hiter]
      rw [hloop]
      intro hkeep
      have := hkeep hhead
      rw [hiter] at this
      cases this
  | cons n ns =>
    have hhead : l.list.head = some n.1 := hns.nodes.seg.1
    have hturns := hns.nodes.length_lt_turns
    have hns' : PtrList.Nodes { l.list with iter := some n.1 } ([] ++ n :: ns) := hns.nodes.of_iter _
    simp only [slistClear, slistFirst, hns.nodes.first_cons, ok_bind]
    apply ((clearLoop_spec (l := ⟨l.strs, { l.list with iter := some n.1 }⟩) hns' rfl hin
      (Nat.lt_of_succ_lt hturns)).ends _).bind
    rintro ⟨strs, _⟩ ⟨hin', iter, rfl⟩
    have hown := hns.of_iter iter
    apply (hown.nodes.clear.ends _).bind
    intro list hlist
    exact ⟨hown.relinks hlist, hin', fun h => by simp [hhead] at h⟩

/-- `slist_insert` leaks the copy it has made if there is no room for the node. -/
theorem insert_ends (hns : l.list.Owned ns) (hin : l.strs.InUse (ns.map Prod.snd)) (i : ℕ)
    (data : Option (List UInt8)) (dup node : Bool) :
    Returns (slistInsert l i data dup node) fun r => (∃ ns, r.2.list.Owned ns) ∧
      (r.2.OwnsExactly ↔ l.KeepsOwnership (.insert i data dup node)) := by
  have hsame := ownsExactly_iff ⟨ns, hns.nodes, rfl⟩
  cases data with
  | none => exact .ok (step_of_owned hns (iff_of_true hin (by simp [KeepsOwnership])))
  | some s =>
    cases dup with
    | false => exact .ok (step_of_owned hns (iff_of_true hin (by simp [KeepsOwnership])))
    | true =>
      cases node with
      | false =>
        refine .ok (step_of_owned (l := ⟨_, l.list⟩) hns (iff_of_false (hin.not_alloc s) ?_))
        simp [KeepsOwnership]
      | true =>
        obtain ⟨⟨b, list⟩, hr, -, pre, post, rfl, hlinks, -⟩ :=
          hns.nodes.insert (ssizeOfSize i) l.strs.brk
        simp only [slistInsert, strDup, if_true, Memory.alloc, hr, ok_bind]
        refine .ok (step_of_owned (l := ⟨_, list⟩) (hns.relinks hlinks) (iff_of_true ?_ ?_))
        · apply (hin.alloc s).perm
          simp only [List.map_append, List.map_cons]
          exact List.perm_middle.symm
        · simp [KeepsOwnership]

/-- `slist_replace` of a string of the list frees it, and leaves it in the list if there is no room
for the copy of the new one. -/
theorem replace_inside (hns : l.list.Owned ns) (hin : l.strs.InUse (ns.map Prod.snd)) {i : ℕ}
    (hlt : i < (ns.map Prod.snd).length) (s : List UInt8) (dup : Bool) :
    Returns (slistReplace l i (some s) dup) fun r => (∃ ns, r.2.list.Owned ns) ∧
      (r.2.OwnsExactly ↔ dup = true) := by
  have hlists : l.list.Lists (ns.map Prod.snd) := ⟨ns, hns.nodes, rfl⟩
  have hin' := hin.perm (List.getElem_cons_eraseIdx_perm hlt).symm
  simp only [slistReplace, PtrList.get_spec hlists, ok_bind]
  rw [List.getElem?_eq_getElem hlt]
  simp only [Memory.freePtr, hin'.free, ok_bind]
  cases dup with
  | false =>
    simp only [strDup, Bool.false_eq_true, if_false, PtrList.replace_none l.list i, ok_bind]
    refine .ok (step_of_owned (l := ⟨_, l.list⟩) hns (iff_of_false ?_ (by simp)))
    exact Memory.not_inUse_erase (List.getElem_mem hlt)
  | true =>
    simp only [strDup, if_true, Memory.alloc]
    obtain ⟨⟨b, list⟩, hr, -, ns', hlinks, -, hsnd⟩ := hns.nodes.replace i l.strs.brk
    rw [Memory.erase_brk, hr]
    refine .ok (step_of_owned (l := ⟨_, list⟩) (hns.relinks hlinks) (iff_of_true ?_ trivial))
    rw [hsnd]
    exact (hin'.erase.alloc s).perm (List.set_perm_cons_eraseIdx hlt _).symm

/-- `slist_replace` behind the end of the list leaks the copy of the new string, if there is room for
it. -/
theorem replace_outside (hns : l.list.Owned ns) (hin : l.strs.InUse (ns.map Prod.snd)) {i : ℕ}
    (hge : (ns.map Prod.snd).length ≤ i) (s : List UInt8) (dup : Bool) :
    Returns (slistReplace l i (some s) dup) fun r => (∃ ns, r.2.list.Owned ns) ∧
      (r.2.OwnsExactly ↔ dup = false) := by
  have hlists : l.list.Lists (ns.map Prod.snd) := ⟨ns, hns.nodes, rfl⟩
  simp only [slistReplace, PtrList.get_spec hlists, ok_bind]
  rw [List.getElem?_eq_none hge]
  cases dup with
  | false =>
    simp only [Memory.freePtr, ok_bind, strDup, Bool.false_eq_true, if_false,
      PtrList.replace_none l.list i]
    exact .ok (step_of_owned hns (iff_of_true hin trivial))
  | true =>
    obtain ⟨⟨b, list⟩, hr, -, ns', hlinks, -, hsnd⟩ := hns.nodes.replace i l.strs.brk
    simp only [Memory.freePtr, ok_bind, strDup, if_true, Memory.alloc, hr]
    refine .ok (step_of_owned (l := ⟨_, list⟩) (hns.relinks hlinks) (iff_of_false ?_ (by simp)))
    rw [hsnd, List.set_eq_of_length_le hge]
    exact hin.not_alloc s

/-- `slist_replace` keeps the ownership exact if it finds room for the copy exactly where there is a
string to replace. -/
theorem replace_ends (hns : l.list.Owned ns) (hin : l.strs.InUse (ns.map Prod.snd)) (i : ℕ)
    (data : Option (List UInt8)) (dup : Bool) :
    Returns (slistReplace l i data dup) fun r => (∃ ns, r.2.list.Owned ns) ∧
      (r.2.OwnsExactly ↔ l.KeepsOwnership (.replace i data dup)) := by
  have hlists : l.list.Lists (ns.map Prod.snd) := ⟨ns, hns.nodes, rfl⟩
  cases data with
  | none => exact .ok (step_of_owned hns (iff_of_true hin (by simp [KeepsOwnership])))
  | some s =>
    simp only [KeepsOwnership, PtrList.count_spec hlists, Except.ok.injEq, forall_eq', ne_eq,
      reduceCtorEq, not_false_eq_true, forall_const]
    rcases Nat.lt_or_ge i (ns.map Prod.snd).length with hlt | hge
    · apply (replace_inside hns hin hlt s dup).mono
      intro r ⟨hr, howns⟩
      exact ⟨hr, howns.trans (iff_true_right hlt).symm⟩
    · apply (replace_outside hns hin hge s dup).mono
      intro r ⟨hr, howns⟩
      have hnot : ¬ i < (ns.map Prod.snd).length := not_lt.2 hge
      exact ⟨hr, by rw [howns, iff_false_right hnot, Bool.not_eq_true]⟩

theorem remove_ends (hns : l.list.Owned ns) (hin : l.strs.InUse (ns.map Prod.snd)) (i : ℕ) :
    Returns (slistRemove l i) fun r => (∃ ns, r.2.list.Owned ns) ∧ r.2.OwnsExactly := by
  have hget := PtrList.get_spec ⟨ns, hns.nodes, rfl⟩ i
  obtain ⟨⟨b, list⟩, hr, -, hlinks⟩ := hns.nodes.remove i
  have howned := hns.relinks hlinks
  simp only [slistRemove, hget, hr, ok_bind]
  rcases Nat.lt_or_ge i (ns.map Prod.snd).length with hlt | hge
  · have hin' := hin.perm (List.getElem_cons_eraseIdx_perm hlt).symm
    rw [List.getElem?_eq_getElem hlt]
    simp only [Memory.freePtr, hin'.free, ok_bind]
    refine .ok ⟨⟨_, howned⟩, (ownsExactly_iff ⟨_, howned.nodes, rfl⟩).2 ?_⟩
    rw [← List.eraseIdx_map]
    exact hin'.erase
  · rw [List.getElem?_eq_none hge]
    simp only [Memory.freePtr, ok_bind]
    refine .ok ⟨⟨_, howned⟩, (ownsExactly_iff ⟨_, howned.nodes, rfl⟩).2 ?_⟩
    rwa [← List.eraseIdx_map, List.eraseIdx_of_length_le hge]

theorem owned_of_iter (iter : Ptr) (hns : l.list.Owned ns)
    (hin : l.strs.InUse (ns.map Prod.snd)) :
    (∃ ns, PtrList.Owned { l.list with iter } ns) ∧
      OwnsExactly { l with list := { l.list with iter } } := by
  have hns' := hns.of_iter iter
  exact ⟨⟨ns, hns'⟩, _, ⟨ns, hns'.nodes, rfl⟩, hin⟩

/-- **One call**: it returns with an exact ownership if it keeps it, and else faults or loses it. -/
theorem slistStep_ends (hns : l.list.Owned ns) (hin : l.strs.InUse (ns.map Prod.snd)) (op : SlistOp) :
    Ends (slistStep l op)
      (fun r => (∃ ns, r.2.list.Owned ns) ∧ (r.2.OwnsExactly ↔ l.KeepsOwnership op))
      fun _ => False ↔ l.KeepsOwnership op := by
  cases op with
  | insert i data dup node =>
    apply ((insert_ends hns hin i data dup node).ends _).bind
    intro r hr
    exact hr
  | replace i data dup =>
    apply ((replace_ends hns hin i data dup).ends _).bind
    intro r hr
    exact hr
  | remove i =>
    apply ((remove_ends hns hin i).ends _).bind
    intro r ⟨hr, howns⟩
    exact ⟨hr, iff_of_true howns trivial⟩
  | clear =>
    apply ((clear_ends hns hin).fault_mono fun _ hkeep => iff_of_false id hkeep).bind
    intro r ⟨hr, hin', hkeep⟩
    exact ⟨⟨_, hr⟩, iff_of_true ⟨_, ⟨[], hr.nodes, rfl⟩, hin'⟩ hkeep⟩
  | first =>
    cases ns with
    | nil =>
      simp only [slistStep, slistFirst, hns.nodes.first_nil]
      exact ⟨⟨_, hns⟩, iff_of_true ⟨_, ⟨_, hns.nodes, rfl⟩, hin⟩ trivial⟩
    | cons n ns =>
      simp only [slistStep, slistFirst, hns.nodes.first_cons]
      obtain ⟨hns', howns⟩ := owned_of_iter (some n.1) hns hin
      exact ⟨hns', iff_of_true howns trivial⟩
  | next =>
    have hkeep : l.KeepsOwnership .next ↔ ∀ a, l.list.iter = some a → a ∈ ns.map Prod.fst :=
      forall₂_congr fun a _ => hns.nodes.linked_iff
    simp only [slistStep, slistNext]
    by_cases hiter : ∀ a, l.list.iter = some a → a ∈ ns.map Prod.fst
    · obtain ⟨⟨d, _⟩, hr, ⟨iter, rfl, -⟩, -⟩ := hns.nodes.next hiter
      obtain ⟨hns', howns⟩ := owned_of_iter iter hns hin
      rw [hr]
      exact ⟨hns', iff_of_true howns (hkeep.2 hiter)⟩
    · obtain ⟨a, ha, hmem⟩ : ∃ a, l.list.iter = some a ∧ a ∉ ns.map Prod.fst := by
        simpa using hiter
      rw [hns.next_dangling ha hmem]
      exact iff_of_false id (mt hkeep.1 hiter)

end StrList

/-- **Which runs keep the ownership of strings exact.** Every call of a run returns and leaves the
copies alive to be those in the list, once each, if and only if no insertion finds room for the copy
but not for the node, every replacement finds room for the copy exactly if the index is one of the
list, no empty list is cleared with a cursor in it, and `slist_next` never finds the cursor at a node
that is not in the list. -/
theorem slist_owns_exactly_iff (ops : List SlistOp) :
    Throughout slistStep (fun _ => False) StrList.OwnsExactly slistInit ops ↔
      Meets slistStep StrList.KeepsOwnership slistInit ops := by
  have hinit : slistInit.list.Owned [] := PtrList.owned_init
  apply throughout_iff_meets (fun l => ∃ ns, l.list.Owned ns) _ ⟨[], hinit⟩
  · exact ⟨[], ⟨[], hinit.nodes, rfl⟩, .empty⟩
  · intro l op ⟨ns, hns⟩ howns
    exact StrList.slistStep_ends hns ((StrList.ownsExactly_iff ⟨ns, hns.nodes, rfl⟩).1 howns) op

/-- `slist_replace` past the end leaks its copy, and a second `slist_clear` follows the cursor to a
node that the first one has freed. -/
theorem not_ownsExactly_of_slip :
    ¬ Throughout slistStep (fun _ => False) StrList.OwnsExactly slistInit
        [.replace 0 (some [97]) true] ∧
      ¬ Throughout slistStep (fun _ => False) StrList.OwnsExactly slistInit
        [.insert 0 (some [97]) true true, .clear, .clear] := by
  constructor
  · rintro ⟨-, as, hlists, hin⟩
    have hnil : as = [] := hlists.unique PtrList.lists_init
    have hmem : 0 ∈ as := (hin.mem_iff 0).2 ⟨[97], rfl⟩
    rw [hnil] at hmem
    cases hmem
  · intro h
    obtain ⟨r, hr, -⟩ := h.returns
    have hfault : runs slistStep slistInit [.insert 0 (some [97]) true true, .clear, .clear] =
        .error .dangling := rfl
    rw [hfault] at hr
    cases hr

end LibSrsBsns
