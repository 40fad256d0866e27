import LibSrsBsns.StrList.Ownership
import LibSrsBsns.Foundations.C.Live
import Mathlib.Data.List.Lemmas

/-!
# The string list as a sequence of texts

A string list is a sequence of texts with a cursor, whatever memory its strings live in, and along
with it goes the number of copies that are leaked (`Texts`). `slist_refines_texts` says that a run of
calls returns what it does on this sequence, as long as no call uses a string or a node that has been
freed (`Texts.Legal`), and how many strings are alive when the list is disposed of: `slist_dispose`
frees none of them.
-/

namespace LibSrsBsns

open C

/-- The calls on a string list, with those that only look. -/
inductive SlistCall
  | op (op : SlistOp)
  | count
  | get (i : ℕ)
  | findeq (needle : List UInt8)

/-- What a call returns, where a pointer is the text that it points to. -/
inductive SlistAnswer
  | unit
  | bool (b : Bool)
  | text (s : Option (List UInt8))
  | num (n : ℤ)
  deriving DecidableEq

namespace StrList

/-- The text at a pointer. -/
def textAt (l : StrList) : Ptr → Exec (Option (List UInt8))
  | none => .ok none
  | some d => do
    let s ← l.strs.load d
    .ok (some s)

/-- What a call returns, with a pointer followed. -/
def answer (l : StrList) : SlistOut → Exec SlistAnswer
  | .unit => .ok .unit
  | .bool b => .ok (.bool b)
  | .str d => do
    let s ← l.textAt d
    .ok (.text s)

end StrList

def slistCall (l : StrList) : SlistCall → Exec (SlistAnswer × StrList)
  | .op op => do
    let (out, l) ← slistStep l op
    let a ← l.answer out
    .ok (a, l)
  | .count => do
    let n ← slistCount l
    .ok (.num n, l)
  | .get i => do
    let s ← l.textAt (← slistGet l i)
    .ok (.text s, l)
  | .findeq needle => do
    let i ← slistFindeq l needle
    .ok (.num i, l)

/-! ## Sequences of texts -/

/-- The cursor of a list: null, at the node with an index, or at a node that has been freed. -/
inductive ListCursor
  | null
  | node (k : ℕ)
  | lost
  deriving DecidableEq

namespace ListCursor

/-- The cursor after a node more at the index `p`. -/
def insert (p : ℕ) : ListCursor → ListCursor
  | node k => node (if p ≤ k then k + 1 else k)
  | c => c

/-- The cursor after a node less at the index `i`. -/
def erase (i : ℕ) : ListCursor → ListCursor
  | node k => if k = i then lost else node (if i < k then k - 1 else k)
  | c => c

end ListCursor

/-- A sequence of texts with a cursor, and the number of copies that are in no list any more. -/
structure Texts where
  texts : List (List UInt8)
  cur : ListCursor
  leaked : ℕ

/-- The index at which a list of `n` elements gets a new one: `i`, or the end if `i` is negative or
past it. -/
def insertPos (n : ℕ) (i : ℤ) : ℕ := if i < 0 then n else min i.toNat n

namespace Texts

def start : Texts := ⟨[], .null, 0⟩

/-- A call that changes the sequence or moves the cursor. -/
def step (t : Texts) : SlistOp → SlistAnswer × Texts
  | .insert _ none _ _ => (.bool false, t)
  | .insert i (some s) dup node =>
    if !dup then (.bool false, t)
    else if !node then (.bool false, { t with leaked := t.leaked + 1 })
    else
      let p := insertPos t.texts.length (ssizeOfSize i)
      (.bool true, { t with texts := t.texts.insertIdx p s, cur := t.cur.insert p })
  | .replace _ none _ => (.bool false, t)
  | .replace i (some s) dup =>
    if i < t.texts.length then (.bool true, { t with texts := t.texts.set i s })
    else (.bool false, { t with leaked := t.leaked + if dup then 1 else 0 })
  | .remove i =>
    if i < t.texts.length then
      (.bool true, { t with texts := t.texts.eraseIdx i, cur := t.cur.erase i })
    else (.bool false, t)
  | .clear => (.unit, { t with texts := [], cur := if t.texts = [] then t.cur else .lost })
  | .first =>
    match t.texts with
    | [] => (.text none, t)
    | s :: _ => (.text (some s), { t with cur := .node 0 })
  | .next =>
    match t.cur with
    | .node k =>
      if k + 1 < t.texts.length then (.text t.texts[k + 1]?, { t with cur := .node (k + 1) })
      else (.text none, t)
    | _ => (.text none, t)

/-- Any call. -/
def call (t : Texts) : SlistCall → SlistAnswer × Texts
  | .op op => t.step op
  | .count => (.num t.texts.length, t)
  | .get i => (.text t.texts[i]?, t)
  | .findeq needle => (.num (PtrList.indexOr (t.texts.findIdx? (· == needle))), t)

/-- The call frees no string that stays in the list, and does not go by a cursor at a node that has
been freed. -/
def Legal (t : Texts) : SlistCall → Prop
  | .op (.replace i (some _) dup) => i < t.texts.length → dup = true
  | .op .clear => t.texts = [] → t.cur = .null
  | .op .next => t.cur ≠ .lost
  | _ => True

end Texts

/-! ## Where an element goes -/

namespace PtrList

variable {α : Type} {pre post xs : List α} {i : ℤ} {x : α}

theorem insertAt_eq_insertIdx (xs : List α) (i : ℤ) (x : α) :
    insertAt xs i x = xs.insertIdx (insertPos xs.length i) x := by
  unfold insertAt insertPos
  split
  · exact List.insertIdx_length_self.symm
  · rfl

theorem insertPos_le (n : ℕ) (i : ℤ) : insertPos n i ≤ n := by
  unfold insertPos
  split <;> omega

theorem insertIdx_length_append (pre post : List α) (x : α) :
    (pre ++ post).insertIdx pre.length x = pre ++ x :: post := by
  induction pre with
  | nil => rfl
  | cons y pre ih =>
    rw [List.cons_append, List.length_cons, List.insertIdx_succ_cons, ih, List.cons_append]

/-- `ptrlist_insert` of an element that is not in the list puts the new node at the index where the
element goes. -/
theorem Nodes.insertIdx {l : PtrList α} {ns : List (ℕ × α)} (h : l.Nodes ns) (i : ℤ)
    (hx : x ∉ ns.map Prod.snd) : Returns (ptrlistInsert l i (some x) true) fun r => r.1 = true ∧
      Relinks l ns r.2 (ns.insertIdx (insertPos ns.length i) (l.mem.brk, x)) := by
  apply (h.insert i x).mono
  rintro r ⟨htrue, pre, post, rfl, hlinks, hsnd⟩
  have hlen : (pre ++ post).length = ((pre ++ post).map Prod.snd).length := (List.length_map _).symm
  rw [← insertIdx_length_append, List.map_insertIdx, insertAt_eq_insertIdx] at hsnd
  have hpos : pre.length = insertPos (pre ++ post).length i := by
    rw [hlen]
    refine List.injOn_insertIdx_index_of_notMem _ x hx ?_ (insertPos_le _ i) hsnd
    simp
  rw [← hpos, insertIdx_length_append]
  exact ⟨htrue, hlinks⟩

end PtrList

/-! ## Cursors -/

/-- The cursor of a list with its nodes at the addresses `as`. -/
def ListCursor.Points (iter : Ptr) (as : List ℕ) : ListCursor → Prop
  | null => iter = none
  | node k => ∃ a, iter = some a ∧ as[k]? = some a
  | lost => True

namespace ListCursor

variable {c : ListCursor} {iter : Ptr} {as : List ℕ} {p i : ℕ}

theorem Points.insert (h : c.Points iter as) (p b : ℕ) : (c.insert p).Points iter (as.insertIdx p b) := by
  cases c with
  | null => exact h
  | lost => trivial
  | node k =>
    obtain ⟨a, ha, hk⟩ := h
    refine ⟨a, ha, ?_⟩
    split
    · rw [List.getElem?_insertIdx_of_gt (by omega)]
      exact hk
    · rw [List.getElem?_insertIdx_of_lt (by omega)]
      exact hk

theorem Points.erase (h : c.Points iter as) (i : ℕ) : (c.erase i).Points iter (as.eraseIdx i) := by
  cases c with
  | null => exact h
  | lost => trivial
  | node k =>
    obtain ⟨a, ha, hk⟩ := h
    rw [ListCursor.erase]
    split
    · trivial
    · refine ⟨a, ha, ?_⟩
      split
      · rw [List.getElem?_eraseIdx_of_ge (by omega), Nat.sub_add_cancel (by omega)]
        exact hk
      · rw [List.getElem?_eraseIdx_of_lt (by omega)]
        exact hk

end ListCursor

/-! ## What a list spells -/

namespace StrList

variable {l : StrList} {ns : List (ℕ × ℕ)} {cs : List (ℕ × List UInt8)} {t : Texts}

/-- The list has the nodes `ns`, which point to the strings `cs`: the texts of the sequence. The other
strings that are alive are those that are leaked. -/
structure Spells (l : StrList) (ns : List (ℕ × ℕ)) (cs : List (ℕ × List UInt8)) (t : Texts) :
    Prop where
  owned : l.list.Owned ns
  addrs : ns.map Prod.snd = cs.map Prod.fst
  owns : l.strs.Owns cs
  texts : cs.map Prod.snd = t.texts
  live : l.strs.numLive = cs.length + t.leaked
  cur : t.cur.Points l.list.iter (ns.map Prod.fst)

namespace Spells

variable (h : l.Spells ns cs t)
include h

theorem lists : l.list.Lists (cs.map Prod.fst) := ⟨ns, h.owned.nodes, h.addrs⟩

theorem length_eq : cs.length = t.texts.length := by rw [← h.texts, List.length_map]

theorem length_nodes : ns.length = t.texts.length := by
  have hlen := congrArg List.length h.addrs
  rw [List.length_map, List.length_map] at hlen
  exact hlen.trans h.length_eq

theorem textAt_of_mem {c : ℕ × List UInt8} (hc : c ∈ cs) : l.textAt (some c.1) = .ok (some c.2) := by
  rw [textAt, Memory.load_of_cell (h.owns.cell c hc), ok_bind]

theorem get (i : ℕ) : slistGet l i = .ok (cs.map Prod.fst)[i]? := PtrList.get_spec h.lists i

theorem count : slistCount l = .ok t.texts.length := by
  rw [slistCount, PtrList.count_spec h.lists, List.length_map, h.length_eq]

/-- `slist_findeq` goes through the texts in order. -/
theorem findeq (needle : List UInt8) :
    slistFindeq l needle = .ok (PtrList.indexOr (t.texts.findIdx? (· == needle))) := by
  have hloop : Returns (findeqLoop l needle t.texts.length (t.texts.length + 1) 0) fun i =>
      i = PtrList.indexOr (t.texts.findIdx? (· == needle)) := by
    apply Returns.loop (fun i => ∀ j, (hj : j < t.texts.length) → j < i → t.texts[j] ≠ needle)
      (fun i => t.texts.length - i) _ ?_ (fun j _ hj => absurd hj (Nat.not_lt_zero j)) (by omega)
    intro i hbefore
    split
    case isTrue hlt =>
      have hc : i < cs.length := h.length_eq ▸ hlt
      have htext : cs[i].2 = t.texts[i] := by simp only [← h.texts, List.getElem_map]
      have hload := Memory.load_of_cell (h.owns.cell cs[i] (List.getElem_mem hc))
      simp only [h.get, ok_bind, List.getElem?_map, List.getElem?_eq_getElem hc, Option.map_some,
        deref_some, hload, htext]
      split
      case isTrue heq =>
        have hfound : t.texts.findIdx? (· == needle) = some i :=
          List.findIdx?_eq_some_iff_getElem.2 ⟨hlt, heq, fun j hj => by
            simpa using hbefore j (hj.trans hlt) hj⟩
        rw [hfound]
        exact .ok rfl
      case isFalse hne =>
        refine .ok ⟨fun j hj hji => ?_, by omega⟩
        rcases Nat.lt_succ_iff_lt_or_eq.1 hji with hlt' | rfl
        · exact hbefore j hj hlt'
        · simpa [streq] using hne
    case isFalse hge =>
      have hnone : t.texts.findIdx? (· == needle) = none := by
        rw [List.findIdx?_eq_none_iff]
        intro s hs
        obtain ⟨j, hj, rfl⟩ := List.mem_iff_getElem.1 hs
        simpa using hbefore j hj (by omega)
      rw [hnone]
      exact .ok rfl
  obtain ⟨i, hi, rfl⟩ := hloop
  rw [slistFindeq, h.count, ok_bind, hi]

omit h in
/-- The call answers what it returns, with a pointer followed. -/
theorem call_of_step {op : SlistOp} {P : SlistAnswer × StrList → Prop}
    (hstep : Returns (slistStep l op) fun r => Returns (r.2.answer r.1) fun a => P (a, r.2)) :
    Returns (slistCall l (.op op)) P := by
  apply hstep.bind
  rintro ⟨out, l'⟩ ha
  apply Returns.bind ha
  intro a hP
  exact .ok hP

/-- The call returns what the texts answer, and spells the texts that follow. -/
def Does (l : StrList) (c : SlistCall) (r : SlistAnswer × Texts) : Prop :=
  Returns (slistCall l c) fun r' => r'.1 = r.1 ∧ ∃ ns cs, r'.2.Spells ns cs r.2

theorem insert_new (i : ℕ) (s : List UInt8) :
    Does l (.op (.insert i (some s) true true)) (t.step (.insert i (some s) true true)) := by
  have hnew := h.owns.alloc s
  have hfresh : l.strs.brk ∉ ns.map Prod.snd := by
    rw [h.addrs]
    exact hnew.notMem
  have hstep : t.step (.insert i (some s) true true) = (.bool true, { t with
      texts := t.texts.insertIdx (insertPos t.texts.length (ssizeOfSize i)) s
      cur := t.cur.insert (insertPos t.texts.length (ssizeOfSize i)) }) := rfl
  obtain ⟨⟨b, list⟩, hr, hb, hlinks⟩ := h.owned.nodes.insertIdx (ssizeOfSize i) hfresh
  obtain rfl : b = true := hb
  rw [h.length_nodes] at hlinks
  have hp : insertPos t.texts.length (ssizeOfSize i) ≤ cs.length := by
    rw [h.length_eq]
    exact PtrList.insertPos_le _ _
  rw [hstep]
  generalize insertPos t.texts.length (ssizeOfSize i) = p at hlinks hp
  apply call_of_step
  simp only [slistStep, slistInsert, strDup, if_true, Memory.alloc, hr, ok_bind]
  refine .ok (.ok ⟨rfl, _, cs.insertIdx p (l.strs.brk, s), h.owned.relinks hlinks, ?_, ?_, ?_, ?_, ?_⟩)
  · rw [List.map_insertIdx, List.map_insertIdx, h.addrs]
  · exact hnew.perm (List.perm_insertIdx _ _ hp).symm
  · rw [List.map_insertIdx, h.texts]
  · show (l.strs.put l.strs.brk s).numLive = _ + t.leaked
    rw [Memory.numLive_alloc, h.live, List.length_insertIdx_of_le_length hp]
    omega
  · rw [List.map_insertIdx]
    show ListCursor.Points list.iter _ _
    rw [hlinks.iter]
    exact h.cur.insert p _

/-- A copy that is made and not put in the list is leaked. -/
theorem leak (s : List UInt8) :
    Spells ⟨l.strs.put l.strs.brk s, l.list⟩ ns cs { t with leaked := t.leaked + 1 } where
  owned := h.owned
  addrs := h.addrs
  owns := (h.owns.alloc s).tail
  texts := h.texts
  live := by
    show (l.strs.put l.strs.brk s).numLive = cs.length + (t.leaked + 1)
    rw [Memory.numLive_alloc, h.live, Nat.add_assoc]
  cur := h.cur

theorem insert (i : ℕ) (data : Option (List UInt8)) (dup node : Bool) :
    Does l (.op (.insert i data dup node)) (t.step (.insert i data dup node)) := by
  cases data with
  | none => exact .ok ⟨rfl, ns, cs, h⟩
  | some s =>
    cases dup with
    | false => exact .ok ⟨rfl, ns, cs, h⟩
    | true =>
      cases node with
      | false => exact .ok ⟨rfl, ns, cs, h.leak s⟩
      | true => exact h.insert_new i s

/-- `slist_replace` frees a text of the list, and puts a new one in its place. -/
theorem replace_inside {i : ℕ} (hi : i < t.texts.length) (s : List UInt8) :
    Does l (.op (.replace i (some s) true)) (t.step (.replace i (some s) true)) := by
  have hc : i < cs.length := h.length_eq.symm ▸ hi
  have hcell := h.owns.cell cs[i] (List.getElem_mem hc)
  have hrest := (h.owns.perm (List.getElem_cons_eraseIdx_perm hc).symm).erase
  have hlive := Memory.numLive_erase hcell
  have hget := h.get i
  rw [List.getElem?_map, List.getElem?_eq_getElem hc, Option.map_some] at hget
  obtain ⟨⟨b, list⟩, hr, hb, ns', hlinks, hfst, hsnd⟩ := h.owned.nodes.replace i l.strs.brk
  have hstep : slistStep l (.replace i (some s) true) =
      .ok (.bool b, ⟨(l.strs.erase cs[i].1).put l.strs.brk s, list⟩) := by
    simp only [slistStep, slistReplace, show ptrlistGet l.list i = .ok _ from hget, ok_bind,
      Memory.freePtr, Memory.free_of_cell hcell, strDup, if_true, Memory.alloc, Memory.erase_brk, hr]
  have hlt : i < ns.length := h.length_nodes.symm ▸ hi
  obtain rfl : b = true := hb.trans (decide_eq_true hlt)
  apply call_of_step
  rw [hstep, returns_ok, Texts.step, if_pos hi]
  have hnew := hrest.alloc s
  rw [Memory.erase_brk] at hnew
  refine .ok ⟨rfl, ns', cs.set i (l.strs.brk, s), h.owned.relinks hlinks, ?_, ?_, ?_, ?_, ?_⟩
  · rw [hsnd, h.addrs, List.map_set]
  · exact hnew.perm (List.set_perm_cons_eraseIdx hc _).symm
  · rw [List.map_set, h.texts]
  · have halloc := Memory.numLive_alloc (l.strs.erase cs[i].1) s
    rw [Memory.erase_brk] at halloc
    show ((l.strs.erase cs[i].1).put l.strs.brk s).numLive = _ + t.leaked
    rw [List.length_set, halloc, hlive, h.live]
  · show ListCursor.Points list.iter _ t.cur
    rw [hlinks.iter, hfst]
    exact h.cur

/-- Behind the end it leaks the copy of the new text. -/
theorem replace_outside {i : ℕ} (hi : ¬ i < t.texts.length) (s : List UInt8) (dup : Bool) :
    Does l (.op (.replace i (some s) dup)) (t.step (.replace i (some s) dup)) := by
  have hc : cs.length ≤ i := h.length_eq.symm ▸ not_lt.1 hi
  have hget := h.get i
  rw [List.getElem?_map, List.getElem?_eq_none hc, Option.map_none] at hget
  have hnone : ptrlistReplace l.list i none = .ok (false, l.list) := PtrList.replace_none l.list i
  apply call_of_step
  rw [Texts.step, if_neg hi]
  cases dup with
  | false =>
    simp only [slistStep, slistReplace, show ptrlistGet l.list i = .ok _ from hget, ok_bind,
      Memory.freePtr, strDup, if_false, Bool.false_eq_true, hnone]
    exact .ok (.ok ⟨rfl, ns, cs, h⟩)
  | true =>
    obtain ⟨⟨b, list⟩, hr, hb, ns', hlinks, hfst, hsnd⟩ := h.owned.nodes.replace i l.strs.brk
    simp only [slistStep, slistReplace, show ptrlistGet l.list i = .ok _ from hget, ok_bind,
      Memory.freePtr, strDup, if_true, Memory.alloc, hr]
    have hlen : ns.length ≤ i := h.length_nodes.symm ▸ not_lt.1 hi
    obtain rfl : b = false := hb.trans (decide_eq_false (not_lt.2 hlen))
    have hleak := h.leak s
    refine .ok (.ok ⟨rfl, ns', cs, h.owned.relinks hlinks, ?_, hleak.owns, h.texts, hleak.live, ?_⟩)
    · rw [hsnd, List.set_eq_of_length_le (by simpa using hlen), h.addrs]
    · show ListCursor.Points list.iter _ t.cur
      rw [hlinks.iter, hfst]
      exact h.cur

theorem replace {i : ℕ} {data : Option (List UInt8)} {dup : Bool}
    (hlegal : t.Legal (.op (.replace i data dup))) :
    Does l (.op (.replace i data dup)) (t.step (.replace i data dup)) := by
  cases data with
  | none => exact .ok ⟨rfl, ns, cs, h⟩
  | some s =>
    by_cases hi : i < t.texts.length
    · obtain rfl : dup = true := hlegal hi
      exact h.replace_inside hi s
    · exact h.replace_outside hi s dup

theorem remove (i : ℕ) : Does l (.op (.remove i)) (t.step (.remove i)) := by
  have hget := h.get i
  obtain ⟨⟨b, list⟩, hr, hb, hlinks⟩ := h.owned.nodes.remove i
  apply call_of_step
  by_cases hi : i < t.texts.length
  · have hc : i < cs.length := h.length_eq.symm ▸ hi
    have hlt : i < ns.length := h.length_nodes.symm ▸ hi
    have hcell := h.owns.cell cs[i] (List.getElem_mem hc)
    rw [List.getElem?_map, List.getElem?_eq_getElem hc, Option.map_some] at hget
    simp only [slistStep, slistRemove, show ptrlistGet l.list i = .ok _ from hget, ok_bind,
      Memory.freePtr, Memory.free_of_cell hcell, hr]
    rw [Texts.step, if_pos hi]
    obtain rfl : b = true := hb.trans (decide_eq_true hlt)
    refine .ok (.ok ⟨rfl, _, cs.eraseIdx i, h.owned.relinks hlinks, ?_, ?_, ?_, ?_, ?_⟩)
    · rw [← List.eraseIdx_map, ← List.eraseIdx_map, h.addrs]
    · exact (h.owns.perm (List.getElem_cons_eraseIdx_perm hc).symm).erase
    · rw [← List.eraseIdx_map, h.texts]
    · have hlive := Memory.numLive_erase hcell
      have hnum := h.live
      show (l.strs.erase cs[i].1).numLive = _ + t.leaked
      rw [List.length_eraseIdx_of_lt hc]
      omega
    · rw [← List.eraseIdx_map]
      show ListCursor.Points list.iter _ _
      rw [hlinks.iter]
      exact h.cur.erase i
  · have hc : cs.length ≤ i := h.length_eq.symm ▸ not_lt.1 hi
    have hlen : ns.length ≤ i := h.length_nodes.symm ▸ not_lt.1 hi
    rw [List.getElem?_map, List.getElem?_eq_none hc, Option.map_none] at hget
    simp only [slistStep, slistRemove, show ptrlistGet l.list i = .ok _ from hget, ok_bind,
      Memory.freePtr, hr]
    rw [Texts.step, if_neg hi]
    rw [List.eraseIdx_of_length_le hlen] at hlinks
    obtain rfl : b = false := hb.trans (decide_eq_false (not_lt.2 hlen))
    refine .ok (.ok ⟨rfl, ns, cs, h.owned.relinks hlinks, h.addrs, h.owns, h.texts, h.live, ?_⟩)
    show ListCursor.Points list.iter _ t.cur
    rw [hlinks.iter]
    exact h.cur

end Spells

/-- From a string of the list on, the loop of `slist_clear` frees those that there are. -/
theorem clearLoop_frees {pre post : List (ℕ × ℕ)} {a d k : ℕ} {s : List UInt8}
    (h : l.list.Nodes (pre ++ (a, d) :: post)) (hiter : l.list.iter = some a)
    (hown : l.strs.Owns ((d, s) :: cs)) (haddrs : post.map Prod.snd = cs.map Prod.fst)
    (hk : post.length < k) :
    Returns (clearLoop k (some d, l)) fun r => r.strs.numLive + (cs.length + 1) = l.strs.numLive ∧
      ∃ iter, r.list = { l.list with iter } := by
  have hfree := Memory.free_of_cell hown.head
  have hlive := Memory.numLive_erase hown.head
  induction post generalizing l pre a d k s cs with
  | nil =>
    obtain ⟨k, rfl⟩ : ∃ k', k = k' + 1 := ⟨k - 1, by omega⟩
    obtain rfl : cs = [] := List.map_eq_nil_iff.1 haddrs.symm
    rw [clearLoop, loop_inr (b := { l with strs := l.strs.erase d })
      (by simp [Memory.freePtr, hfree, slistNext, h.next_nil hiter])]
    exact .ok ⟨hlive, l.list.iter, rfl⟩
  | cons n post ih =>
    obtain ⟨k, rfl⟩ : ∃ k', k = k' + 1 := ⟨k - 1, by omega⟩
    obtain ⟨c, cs, rfl⟩ : ∃ c cs', cs = c :: cs' :=
      List.exists_cons_of_ne_nil (by rintro rfl; cases haddrs)
    obtain ⟨hn, haddrs⟩ := List.cons.inj haddrs
    rw [clearLoop, loop_inl
      (t := (some n.2, { strs := l.strs.erase d, list := { l.list with iter := some n.1 } }))
      (by simp [Memory.freePtr, hfree, slistNext, h.next_cons hiter]), ← clearLoop]
    have hnodes : PtrList.Nodes { l.list with iter := some n.1 } ((pre ++ [(a, d)]) ++ n :: post) :=
      ⟨by simpa using h.seg, by simpa using h.nodup⟩
    have hown' : (l.strs.erase d).Owns ((n.2, c.2) :: cs) := by
      rw [hn]
      exact hown.erase
    apply (ih (l := ⟨l.strs.erase d, { l.list with iter := some n.1 }⟩) hnodes rfl hown' haddrs
      (by simpa using hk) (Memory.free_of_cell hown'.head) (Memory.numLive_erase hown'.head)).mono
    rintro r ⟨hnum, hlist⟩
    refine ⟨?_, hlist⟩
    rw [List.length_cons]
    dsimp only at hnum
    omega

namespace Spells

variable (h : l.Spells ns cs t)
include h

theorem clear (hlegal : t.Legal (.op .clear)) : Does l (.op .clear) (t.step .clear) := by
  have hlen := h.length_eq
  apply call_of_step
  cases ns with
  | nil =>
    obtain rfl : cs = [] := List.map_eq_nil_iff.1 h.addrs.symm
    have htexts : t.texts = [] := h.texts.symm
    have hcur : t.cur = .null := hlegal htexts
    have hiter : l.list.iter = none := by
      have hpoints := h.cur
      rwa [hcur] at hpoints
    have hloop : clearLoop l.list.turns (none, l) = .ok l :=
      loop_inr (by simp [Memory.freePtr, slistNext, ptrlistNext, hiter]) _
    obtain ⟨list, hr, hlinks⟩ := h.owned.nodes.clear
    simp only [slistStep, slistClear, slistFirst, h.owned.nodes.first_nil, ok_bind, hloop, hr,
      Texts.step, htexts, if_true]
    refine .ok (.ok ⟨rfl, [], [], h.owned.relinks hlinks, rfl, h.owns, rfl, h.live, ?_⟩)
    show ListCursor.Points list.iter _ t.cur
    rw [hlinks.iter]
    exact h.cur
  | cons n ns =>
    obtain ⟨c, cs, rfl⟩ : ∃ c cs', cs = c :: cs' :=
      List.exists_cons_of_ne_nil (by rintro rfl; cases h.addrs)
    obtain ⟨hn, haddrs⟩ := List.cons.inj h.addrs
    have htexts : t.texts ≠ [] := by
      rw [← h.texts]
      exact List.cons_ne_nil _ _
    have hown : l.strs.Owns ((n.2, c.2) :: cs) := by
      rw [hn]
      exact h.owns
    have hnodes : PtrList.Nodes { l.list with iter := some n.1 } ([] ++ n :: ns) :=
      h.owned.nodes.of_iter _
    have hturns := h.owned.nodes.length_lt_turns
    obtain ⟨⟨strs, _⟩, hloop, hnum, iter, rfl⟩ := clearLoop_frees
      (l := ⟨l.strs, { l.list with iter := some n.1 }⟩) hnodes rfl hown haddrs (Nat.lt_of_succ_lt hturns)
    have hown' := h.owned.of_iter iter
    obtain ⟨list, hr, hlinks⟩ := hown'.nodes.clear
    have hstep : slistStep l .clear = .ok (.unit, ⟨strs, list⟩) := by
      have hfrees : clearLoop l.list.turns (some n.2, ⟨l.strs, ⟨l.list.mem, l.list.head, some n.1⟩⟩) =
        .ok ⟨strs, ⟨l.list.mem, l.list.head, iter⟩⟩ := hloop
      simp only [slistStep, slistClear, slistFirst, h.owned.nodes.first_cons, ok_bind]
      rw [show PtrList.turns ⟨l.list.mem, l.list.head, some n.1⟩ = l.list.turns from rfl, hfrees]
      simp only [ok_bind, hr]
    rw [hstep, returns_ok, Texts.step, if_neg htexts]
    refine .ok ⟨rfl, [], [], hown'.relinks hlinks, rfl, .nil _, rfl, ?_, trivial⟩
    have hlive := h.live
    show strs.numLive = 0 + t.leaked
    dsimp only at hnum
    rw [List.length_cons] at hlive
    omega

/-- Moving the cursor. -/
theorem of_iter {iter : Ptr} {cur : ListCursor} (hcur : cur.Points iter (ns.map Prod.fst)) :
    Spells ⟨l.strs, { l.list with iter }⟩ ns cs { t with cur } :=
  ⟨h.owned.of_iter iter, h.addrs, h.owns, h.texts, h.live, hcur⟩

theorem first : Does l (.op .first) (t.step .first) := by
  apply call_of_step
  cases ns with
  | nil =>
    obtain rfl : cs = [] := List.map_eq_nil_iff.1 h.addrs.symm
    have htexts : t.texts = [] := h.texts.symm
    have hstep : t.step .first = (.text none, t) := by rw [Texts.step, htexts]
    simp only [slistStep, slistFirst, h.owned.nodes.first_nil, ok_bind, hstep]
    exact .ok (.ok ⟨rfl, [], [], h⟩)
  | cons n ns =>
    obtain ⟨c, cs, rfl⟩ : ∃ c cs', cs = c :: cs' :=
      List.exists_cons_of_ne_nil (by rintro rfl; cases h.addrs)
    obtain ⟨hn, -⟩ := List.cons.inj h.addrs
    have hstep : t.step .first = (.text (some c.2), { t with cur := .node 0 }) := by
      rw [Texts.step, ← h.texts]
      rfl
    have hcur : ListCursor.Points (some n.1) ((n :: ns).map Prod.fst) (.node 0) := ⟨n.1, rfl, rfl⟩
    have hmoved := h.of_iter hcur
    simp only [slistStep, slistFirst, h.owned.nodes.first_cons, ok_bind, hstep, hn, returns_ok, answer,
      hmoved.textAt_of_mem List.mem_cons_self]
    exact ⟨trivial, _, _, hmoved⟩

theorem next (hlegal : t.Legal (.op .next)) : Does l (.op .next) (t.step .next) := by
  have hcur := h.cur
  apply call_of_step
  cases hc : t.cur with
  | lost => exact absurd hc hlegal
  | null =>
    rw [hc] at hcur
    have hnull : l.list.iter = none := hcur
    have hstep : t.step .next = (.text none, t) := by rw [Texts.step, hc]
    simp only [slistStep, slistNext, ptrlistNext, hnull, ok_bind, hstep]
    exact .ok (.ok ⟨rfl, _, _, h⟩)
  | node k =>
    rw [hc] at hcur
    obtain ⟨a, ha, hk⟩ := hcur
    rw [List.getElem?_map] at hk
    obtain ⟨n, hn, rfl⟩ := Option.map_eq_some_iff.1 hk
    obtain ⟨hlt, rfl⟩ := List.getElem?_eq_some_iff.1 hn
    have hsplit : ns = ns.take k ++ ns[k] :: ns.drop (k + 1) := by
      rw [List.getElem_cons_drop, List.take_append_drop]
    have hnodes := h.owned.nodes
    rw [hsplit] at hnodes
    by_cases hnext : k + 1 < t.texts.length
    · have hlt' : k + 1 < ns.length := h.length_nodes.symm ▸ hnext
      have hcs : k + 1 < cs.length := h.length_eq.symm ▸ hnext
      rw [List.drop_eq_getElem_cons hlt'] at hnodes
      have haddr : ns[k + 1].2 = cs[k + 1].1 := by
        have hget := congrArg (·[k + 1]?) h.addrs
        simpa [List.getElem?_eq_getElem hlt', List.getElem?_eq_getElem hcs] using hget
      have hstep : t.step .next = (.text (some cs[k + 1].2), { t with cur := .node (k + 1) }) := by
        simp only [Texts.step, hc, if_pos hnext]
        rw [← h.texts, List.getElem?_map, List.getElem?_eq_getElem hcs, Option.map_some]
      obtain ⟨⟨b, d⟩, hb⟩ : ∃ n, ns[k + 1] = n := ⟨_, rfl⟩
      rw [hb] at hnodes haddr
      have hcur' : ListCursor.Points (some b) (ns.map Prod.fst) (.node (k + 1)) :=
        ⟨b, rfl, by rw [List.getElem?_map, List.getElem?_eq_getElem hlt', hb, Option.map_some]⟩
      have hmoved := h.of_iter hcur'
      have htext := hmoved.textAt_of_mem (List.getElem_mem hcs)
      rw [← haddr] at htext
      simp only [slistStep, slistNext, hnodes.next_cons ha, ok_bind, hstep, returns_ok, answer, htext]
      exact ⟨trivial, _, _, hmoved⟩
    · have hge : ns.length ≤ k + 1 := h.length_nodes.symm ▸ not_lt.1 hnext
      rw [List.drop_eq_nil_of_le hge] at hnodes
      have hstep : t.step .next = (.text none, t) := by
        simp only [Texts.step, hc, if_neg hnext]
      simp only [slistStep, slistNext, hnodes.next_nil ha, ok_bind, hstep]
      exact .ok (.ok ⟨rfl, _, _, h⟩)

theorem dispose : Returns (slistDispose l) fun strs =>
    strs.numLive = t.texts.length + t.leaked := by
  obtain ⟨list, hr, -⟩ := h.owned.nodes.clear
  simp only [slistDispose, ptrlistDispose, hr, ok_bind]
  exact .ok (by rw [h.live, h.length_eq])

end Spells

end StrList

end LibSrsBsns
