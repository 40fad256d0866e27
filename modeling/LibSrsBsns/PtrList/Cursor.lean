import LibSrsBsns.PtrList.Calls

/-!
# The cursor of a pointer list

The iteration of a pointer list has its cursor in the list itself. `ptrlist_remove` and
`ptrlist_clear` free nodes without a look at it, so it can be left at a node that is no longer
there. `ptrlist_cursor_sound_iff` says which runs of calls leave it sound: those in which the node
under the cursor is never removed and the list is never cleared with a cursor in it.
-/

namespace LibSrsBsns

open C

variable {α : Type}

namespace PtrList

variable {m : Memory (PlNode α)} {p : Ptr} {l l' : PtrList α} {ns ns' : List (ℕ × α)} {a : ℕ} {x : α}

/-- Of distinct values, all but the one at the index remain when an index is erased. -/
theorem mem_eraseIdx_iff {as : List ℕ} (hd : as.Nodup) (ha : a ∈ as) (i : ℕ) :
    a ∈ as.eraseIdx i ↔ ¬ as[i]? = some a := by
  obtain ⟨k, hk⟩ := List.getElem?_of_mem ha
  rw [List.mem_eraseIdx_iff_getElem?]
  constructor
  · intro ⟨j, hji, hj⟩ hi
    have hlt : j < as.length := (List.getElem?_eq_some_iff.1 hj).1
    exact hji ((List.getElem?_inj hlt hd).1 (hj.trans hi.symm))
  · intro hi
    exact ⟨k, fun e => hi (e ▸ hk), hk⟩

def Linked (l : PtrList α) (a : ℕ) : Prop := ∃ ns, l.Nodes ns ∧ a ∈ ns.map Prod.fst

/-- The node at the address `a` is the one with index `i`. -/
def NodeAt (l : PtrList α) (i a : ℕ) : Prop := ∃ ns, l.Nodes ns ∧ (ns.map Prod.fst)[i]? = some a

/-- The cursor is null or at a node of the list, and `ptrlist_next` returns null or an element. -/
structure CursorSound (l : PtrList α) : Prop where
  linked : ∀ a, l.iter = some a → l.Linked a
  next : Returns (ptrlistNext l) fun r => ∀ x, r.1 = some x → ∃ xs, l.Lists xs ∧ x ∈ xs

/-- The cursor stays sound in the call. -/
def KeepsCursor (l : PtrList α) : PtrlistCall α → Prop
  | .op (.remove i) => ∀ a, l.iter = some a → ¬ l.NodeAt i a
  | .op .clear => l.iter = none
  | _ => True

theorem Nodes.linked_iff (h : l.Nodes ns) : l.Linked a ↔ a ∈ ns.map Prod.fst := by
  constructor
  · intro ⟨ns', h', ha⟩
    rwa [h.unique h']
  · intro ha
    exact ⟨ns, h, ha⟩

theorem Nodes.nodeAt_iff (h : l.Nodes ns) {i : ℕ} :
    l.NodeAt i a ↔ (ns.map Prod.fst)[i]? = some a := by
  constructor
  · intro ⟨ns', h', ha⟩
    rwa [h.unique h']
  · intro ha
    exact ⟨ns, h, ha⟩

theorem Nodes.next (h : l.Nodes ns) (hiter : ∀ a, l.iter = some a → a ∈ ns.map Prod.fst) :
    Returns (ptrlistNext l) fun r =>
      (∃ iter, r.2 = { l with iter } ∧ ∀ a, iter = some a → a ∈ ns.map Prod.fst) ∧
        ∀ x, r.1 = some x → x ∈ ns.map Prod.snd := by
  cases hi : l.iter with
  | none =>
    rw [ptrlistNext, hi]
    exact .ok ⟨⟨none, by rw [← hi], by simp⟩, by simp⟩
  | some a =>
    obtain ⟨⟨a, x⟩, hmem, rfl⟩ := List.mem_map.1 (hiter a hi)
    obtain ⟨pre, post, rfl⟩ := List.append_of_mem hmem
    cases post with
    | nil =>
      rw [h.next_nil hi]
      exact .ok ⟨⟨l.iter, rfl, hiter⟩, by simp⟩
    | cons n post =>
      rw [h.next_cons hi]
      exact .ok ⟨⟨_, rfl, by simp⟩, by simp⟩

/-- No node lives at an address that is not one of the list. -/
theorem Owned.cell_eq_none (h : l.Owned ns) (ha : a ∉ ns.map Prod.fst) : l.mem.cell a = none := by
  by_contra hne
  exact ha ((h.inUse.mem_iff a).2 (Option.ne_none_iff_exists'.1 hne))

theorem Owned.next_dangling (h : l.Owned ns) (hiter : l.iter = some a)
    (ha : a ∉ ns.map Prod.fst) : ptrlistNext l = .error .dangling := by
  simp [ptrlistNext, hiter, Memory.load, h.cell_eq_none ha]

/-- A cursor is sound if it is null or at a node of the list. -/
theorem Nodes.cursorSound_iff (h : l.Nodes ns) :
    l.CursorSound ↔ ∀ a, l.iter = some a → a ∈ ns.map Prod.fst := by
  constructor
  · intro hs a ha
    exact h.linked_iff.1 (hs.linked a ha)
  · intro hiter
    refine ⟨fun a ha => h.linked_iff.2 (hiter a ha), (h.next hiter).mono ?_⟩
    intro r ⟨_, hx⟩ x hxr
    exact ⟨_, ⟨ns, h, rfl⟩, hx x hxr⟩

/-- After a change of the list the cursor is where it was. -/
theorem Relinks.cursorSound_iff (h : Relinks l ns l' ns') :
    l'.CursorSound ↔ ∀ a, l.iter = some a → a ∈ ns'.map Prod.fst := by
  rw [h.nodes.cursorSound_iff, h.iter]

end PtrList

/-- A call that changes the list leaves the cursor sound exactly if it keeps it so. -/
theorem ptrlistStep_cursorSound {l : PtrList α} {ns : List (ℕ × α)} (hns : l.Nodes ns)
    (hs : l.CursorSound) (op : PtrlistOp α) : Returns (ptrlistStep l op) fun r =>
      (∃ ns, r.2.Nodes ns) ∧ (r.2.CursorSound ↔ l.KeepsCursor (.op op)) := by
  have hiter := hns.cursorSound_iff.1 hs
  have hsame : (∃ ns, l.Nodes ns) ∧ (l.CursorSound ↔ True) := ⟨⟨ns, hns⟩, iff_of_true hs trivial⟩
  cases op with
  | insert i data ok =>
    cases data with
    | none => exact .ok hsame
    | some x =>
      cases ok with
      | false => exact .ok hsame
      | true =>
        apply (hns.insert i x).bind
        intro r hr
        obtain ⟨_, pre, post, he, hlinks, _⟩ := hr
        refine .ok ⟨⟨_, hlinks.nodes⟩, hlinks.cursorSound_iff.trans (iff_of_true ?_ trivial)⟩
        intro a ha
        have hmem := hiter a ha
        rw [he] at hmem
        simp only [List.map_append, List.map_cons, List.mem_append, List.mem_cons] at hmem ⊢
        exact hmem.imp_right .inr
  | replace i data =>
    cases data with
    | none =>
      simp only [ptrlistStep, PtrList.replace_none, ok_bind]
      exact .ok hsame
    | some x =>
      apply (hns.replace i x).bind
      intro r hr
      obtain ⟨_, ns', hlinks, hfst, _⟩ := hr
      exact .ok ⟨⟨_, hlinks.nodes⟩,
        hlinks.cursorSound_iff.trans (iff_of_true (hfst ▸ hiter) trivial)⟩
  | remove i =>
    apply (hns.remove i).bind
    intro r hr
    obtain ⟨_, hlinks⟩ := hr
    refine .ok ⟨⟨_, hlinks.nodes⟩, hlinks.cursorSound_iff.trans (forall₂_congr fun a ha => ?_)⟩
    rw [hns.nodeAt_iff, ← List.eraseIdx_map]
    exact PtrList.mem_eraseIdx_iff hns.nodup (hiter a ha) i
  | clear =>
    apply hns.clear.bind
    intro l' hlinks
    refine .ok ⟨⟨_, hlinks.nodes⟩, hlinks.cursorSound_iff.trans ?_⟩
    simp [PtrList.KeepsCursor, Option.eq_none_iff_forall_ne_some]

theorem ptrlistCall_cursorSound {l : PtrList α} (call : PtrlistCall α) (h : ∃ ns, l.Nodes ns)
    (hs : l.CursorSound) : Returns (ptrlistCall l call) fun r =>
      (∃ ns, r.2.Nodes ns) ∧ (r.2.CursorSound ↔ l.KeepsCursor call) := by
  obtain ⟨ns, hns⟩ := h
  cases call with
  | op op =>
    apply (ptrlistStep_cursorSound hns hs op).bind
    intro r hr
    exact .ok hr
  | first =>
    cases ns with
    | nil =>
      simp only [ptrlistCall, hns.first_nil]
      exact .ok ⟨⟨[], hns⟩, iff_of_true hs trivial⟩
    | cons n ns =>
      simp only [ptrlistCall, hns.first_cons]
      have hns' := hns.of_iter (some n.1)
      refine .ok ⟨⟨_, hns'⟩, hns'.cursorSound_iff.trans (iff_of_true ?_ trivial)⟩
      simp
  | next =>
    apply (hns.next (hns.cursorSound_iff.1 hs)).bind
    rintro ⟨x, _⟩ ⟨⟨iter, rfl, hiter⟩, -⟩
    have hns' := hns.of_iter iter
    exact .ok ⟨⟨_, hns'⟩, hns'.cursorSound_iff.trans (iff_of_true hiter trivial)⟩

/-- **Which runs keep the cursor sound.** Every call of a run returns and leaves the cursor null or
at a node of the list, from where `ptrlist_next` returns null or an element, if and only if no
`ptrlist_remove` removes the node under the cursor and no `ptrlist_clear` finds a cursor that is not
null. -/
theorem ptrlist_cursor_sound_iff (calls : List (PtrlistCall α)) :
    Throughout ptrlistCall (fun _ => False) PtrList.CursorSound ptrlistInit calls ↔
      Meets ptrlistCall PtrList.KeepsCursor ptrlistInit calls := by
  have hinit : (ptrlistInit : PtrList α).Nodes [] := ⟨rfl, by simp⟩
  apply throughout_iff_meets (fun l => ∃ ns, l.Nodes ns) _ ⟨_, hinit⟩
  · exact hinit.cursorSound_iff.2 (by simp [ptrlistInit])
  · intro l call h hs
    exact (ptrlistCall_cursorSound call h hs).ends _

/-- The node under the cursor is removed, and `ptrlist_next` looks at it. -/
theorem not_cursorSound_of_removed :
    ¬ Throughout ptrlistCall (fun _ => False) PtrList.CursorSound (ptrlistInit : PtrList ℕ)
      [.op (.insert 0 (some 5) true), .first, .op (.remove 0), .next] := by
  intro h
  obtain ⟨r, hr, -⟩ := h.returns
  have hfault : runs ptrlistCall (ptrlistInit : PtrList ℕ)
      [.op (.insert 0 (some 5) true), .first, .op (.remove 0), .next] = .error .dangling := rfl
  rw [hfault] at hr
  cases hr

end LibSrsBsns
