import LibSrsBsns.Graph.Model
import LibSrsBsns.Dynarr.Contents
import Mathlib.Algebra.BigOperators.Group.Finset.Basic
import Mathlib.Algebra.Order.BigOperators.Group.Finset

/-!
# Adjacency lists

The abstract graph is a multigraph: a number of nodes and a list of arcs, each live until it is
dropped (`Multigraph`). A graph represents it if, at each node, the array `out` lists the live arcs
that leave the node and the array `in` those that enter it, each once (`Incident`). `link_node` and
`drop_edge` change one array of each kind; what happens to a list of either kind is the same, and is
stated for the end `f` of the arcs that it goes by.
-/

namespace LibSrsBsns

open C

/-! ## Lists of edges -/

/-- The edges in an array, which may not have been made yet. -/
def edgesOf (a : Option (Dynarr ℕ)) : List ℕ :=
  match a with
  | none => []
  | some d => d.toList.reduceOption

/-- The edges in the array `out` of a node. -/
def Graph.outs (g : Graph) (n : ℕ) : List ℕ :=
  match g.nodes.cell n with
  | none => []
  | some node => edgesOf node.out

/-- The edges in the array `in` of a node. -/
def Graph.ins (g : Graph) (n : ℕ) : List ℕ :=
  match g.nodes.cell n with
  | none => []
  | some node => edgesOf node.in_

theorem Graph.outs_of_cell {g : Graph} {n : ℕ} {node : Node} (h : g.nodes.cell n = some node) :
    g.outs n = edgesOf node.out := by
  rw [outs, h]

theorem Graph.ins_of_cell {g : Graph} {n : ℕ} {node : Node} (h : g.nodes.cell n = some node) :
    g.ins n = edgesOf node.in_ := by
  rw [ins, h]

/-- The array `in` of a node does not change with the array `out` of a node. -/
theorem Graph.ins_of_put_out {g : Graph} {u v : ℕ} {nu nv : Node} {out : Option (Dynarr ℕ)}
    (hu : g.nodes.cell u = some nu) (hv : (g.nodes.put u { nu with out }).cell v = some nv) :
    ∃ node, g.nodes.cell v = some node ∧ node.in_ = nv.in_ := by
  by_cases hvu : v = u
  · subst hvu
    rw [Memory.put_cell_self] at hv
    obtain rfl := Option.some.inj hv
    exact ⟨nu, hu, rfl⟩
  · rw [Memory.put_cell_of_ne hvu] at hv
    exact ⟨nv, hv, rfl⟩

/-- The array contains the edges `es`. -/
def AdjList (a : Option (Dynarr ℕ)) (es : List ℕ) : Prop :=
  match a with
  | none => es = []
  | some d => d.Lists (es.map some)

variable {a : Option (Dynarr ℕ)} {es : List ℕ} {e n : ℕ}

theorem AdjList.edgesOf_eq (h : AdjList a es) : edgesOf a = es := by
  cases a with
  | none => exact Eq.symm h
  | some d =>
    have hlist : d.Lists (es.map some) := h
    rw [edgesOf, hlist.toList_eq]
    change (es.map some).filterMap id = es
    simp [List.filterMap_map]

/-- Moving the last element of a list to the place `i` and cutting the list there deletes the
element at `i`. -/
theorem take_set_last_perm {α : Type} {xs : List α} {i : ℕ} (hi : i < xs.length) :
    ((xs.set i (xs[xs.length - 1])).take (xs.length - 1)).Perm (xs.eraseIdx i) := by
  obtain ⟨ys, z, rfl⟩ : ∃ ys z, xs = ys ++ [z] :=
    (List.eq_nil_or_concat' xs).resolve_left fun h => by simp [h] at hi
  simp only [List.length_append, List.length_singleton, Nat.add_sub_cancel,
    List.getElem_concat_length]
  by_cases hlt : i < ys.length
  · rw [List.set_append_left _ _ hlt, List.take_left' (by simp),
      List.eraseIdx_append_of_lt_length hlt]
    exact (List.set_perm_cons_eraseIdx hlt z).trans (List.perm_append_singleton z _).symm
  · obtain rfl : i = ys.length := by simp at hi; omega
    simp [List.eraseIdx_append_of_length_le]

theorem addEdge_spec (h : AdjList a es) (e : ℕ) :
    Ends (addEdge Buffer.ample a e) (fun a' => a' ≠ none ∧ AdjList a' (es ++ [e]))
      fun err => err = .badShift ∧ 2 ^ 30 ≤ es.length := by
  cases a with
  | none =>
    obtain rfl : es = [] := h
    apply Returns.ends
    apply (Dynarr.init_spec 1).bind
    intro d hd
    apply (Dynarr.put_spec hd (by simp) (some e) Buffer.ample).bind
    intro d' hd'
    exact .ok ⟨by simp, hd'⟩
  | some d =>
    have hlist : d.Lists (es.map some) := h
    have hlen : es.length = (es.map some).length := (List.length_map ..).symm
    rw [hlen]
    apply (Dynarr.push_spec hlist (some e)).bind
    intro r hr
    exact ⟨by simp, by simpa [AdjList] using hr.2⟩

theorem delEdge_spec (h : AdjList a es) (ha : a ≠ none) (e : ℕ) :
    Returns (delEdge Buffer.ample a e) fun a' =>
      a' ≠ none ∧ ∃ es', AdjList a' es' ∧ es'.Perm (es.erase e) := by
  cases a with
  | none => exact absurd rfl ha
  | some d =>
    have hlist : d.Lists (es.map some) := h
    apply (Dynarr.findLoop_spec hlist (fun x => x = some e) _ (k := d.nused + 1)
      (by rw [hlist.used]; omega)).bind
    rintro r (⟨rfl, hnone⟩ | ⟨i, hi, rfl, hfound⟩)
    · have hnotMem : e ∉ es := fun he => by simpa using hnone (some e) (List.mem_map_of_mem he)
      exact .ok ⟨by simp, es, hlist, by rw [List.erase_of_not_mem hnotMem]⟩
    · rw [if_neg (by omega)]
      have hlast : (es.map some).length - 1 < (es.map some).length := by omega
      have hcount : dynarrCount d - 1 = (es.map some).length - 1 := by rw [dynarrCount, hlist.used]
      simp only [Int.toNat_natCast, hcount, Dynarr.get_spec hlist hlast, ok_bind]
      apply (Dynarr.put_spec hlist hi _ _).bind
      intro d₁ h₁
      apply (Dynarr.truncate_spec h₁ (by rw [List.length_set]; omega)).bind
      intro d₂ h₂
      rw [List.length_map] at hi
      have hes : es[i] = e := by simpa using hfound
      refine .ok ⟨by simp, (es.set i es[es.length - 1]).take (es.length - 1), ?_, ?_⟩
      · simpa [AdjList, List.map_take, List.map_set] using h₂
      · have hperm := (List.getElem_cons_eraseIdx_perm hi).trans
          (List.perm_cons_erase (hes ▸ List.getElem_mem hi))
        rw [hes] at hperm
        exact (take_set_last_perm hi).trans hperm.cons_inv

/-! ## The abstract graph -/

/-- A directed edge, until it is dropped a live one. -/
structure Arc where
  src : ℕ
  dst : ℕ
  live : Bool
  deriving DecidableEq

/-- A directed multigraph with the nodes below `order`. Arcs are identified by their places. -/
structure Multigraph where
  order : ℕ
  arcs : List Arc
  deriving DecidableEq

namespace Multigraph

def link (M : Multigraph) (u v : ℕ) : Multigraph := { M with arcs := M.arcs ++ [⟨u, v, true⟩] }

def drop (M : Multigraph) (e : ℕ) : Multigraph :=
  { M with arcs := M.arcs.modify e ({ · with live := false }) }

/-- The live arcs. -/
def live (M : Multigraph) : Finset ℕ := {e ∈ Finset.range M.arcs.length | M.arcs[e]?.any (·.live)}

/-- The arcs end at nodes. -/
def Closed (M : Multigraph) : Prop := ∀ arc ∈ M.arcs, arc.src < M.order ∧ arc.dst < M.order

/-- Dropping an arc leaves the ends of all arcs as they are. -/
theorem arc_of_drop (M : Multigraph) {e e' : ℕ} {arc : Arc} (h : (M.drop e).arcs[e']? = some arc) :
    ∃ arc₀, M.arcs[e']? = some arc₀ ∧ arc₀.src = arc.src ∧ arc₀.dst = arc.dst := by
  rw [drop, List.getElem?_modify, Option.map_eq_map, Option.map_eq_some_iff] at h
  obtain ⟨arc₀, harc₀, rfl⟩ := h
  refine ⟨arc₀, harc₀, ?_⟩
  split <;> exact ⟨rfl, rfl⟩

end Multigraph

/-- The arc `e` is live, and `n` is the end `f` of it. -/
def LiveAt (arcs : List Arc) (f : Arc → ℕ) (n e : ℕ) : Prop :=
  ∃ arc, arcs[e]? = some arc ∧ arc.live = true ∧ f arc = n

/-- The array `a` at the node `n` lists, once each, the live arcs whose end `f` is `n`. It has been
made if there ever was one. -/
structure Incident (arcs : List Arc) (f : Arc → ℕ) (n : ℕ) (a : Option (Dynarr ℕ)) : Prop where
  made : (∃ arc ∈ arcs, f arc = n) → a ≠ none
  list : AdjList a (edgesOf a)
  nodup : (edgesOf a).Nodup
  mem : ∀ e, e ∈ edgesOf a ↔ LiveAt arcs f n e

namespace Incident

variable {arcs arcs' : List Arc} {f : Arc → ℕ} {arc : Arc}

/-- A new node has no arcs. -/
theorem of_none (h : ∀ arc ∈ arcs, f arc ≠ n) : Incident arcs f n none := by
  refine ⟨fun ⟨arc, harc, hn⟩ => absurd hn (h arc harc), rfl, List.nodup_nil, fun e => ?_⟩
  refine ⟨fun he => by simp [edgesOf] at he, ?_⟩
  rintro ⟨arc, harc, -, hn⟩
  exact absurd hn (h arc (List.mem_of_getElem? harc))

/-- Arcs elsewhere do not matter. -/
theorem congr (h : Incident arcs f n a) (hmade : (∃ arc ∈ arcs', f arc = n) → ∃ arc ∈ arcs, f arc = n)
    (hlive : ∀ e, LiveAt arcs' f n e ↔ LiveAt arcs f n e) : Incident arcs' f n a :=
  ⟨fun hn => h.made (hmade hn), h.list, h.nodup, fun e => (h.mem e).trans (hlive e).symm⟩

theorem liveAt_concat (arcs : List Arc) (f : Arc → ℕ) (n : ℕ) (arc : Arc) (e : ℕ) :
    LiveAt (arcs ++ [arc]) f n e ↔
      LiveAt arcs f n e ∨ e = arcs.length ∧ arc.live = true ∧ f arc = n := by
  simp only [LiveAt, List.getElem?_append, List.getElem?_singleton]
  grind

/-- `add_edge` at the end of a new arc. -/
theorem add (h : Incident arcs f n a) (arc : Arc) (hlive : arc.live = true) (hn : f arc = n) :
    Ends (addEdge Buffer.ample a arcs.length) (Incident (arcs ++ [arc]) f n)
      fun err => err = .badShift ∧ 2 ^ 30 ≤ (edgesOf a).length := by
  apply (addEdge_spec h.list arcs.length).mono
  intro a' ⟨hmade, hlist⟩
  have hnew : arcs.length ∉ edgesOf a := by
    intro he
    obtain ⟨arc, harc, -⟩ := (h.mem _).1 he
    simp at harc
  have hedges := hlist.edgesOf_eq
  refine ⟨fun _ => hmade, hedges ▸ hlist, ?_, fun e => ?_⟩
  · rw [hedges]
    exact List.nodup_append.2 ⟨h.nodup, by simp, by grind⟩
  · rw [hedges, List.mem_append, List.mem_singleton, h.mem, liveAt_concat]
    simp [hlive, hn]

/-- The list is the same at the nodes that are not the end of a new arc. -/
theorem add_of_ne (h : Incident arcs f n a) (hn : f arc ≠ n) : Incident (arcs ++ [arc]) f n a := by
  apply h.congr
  · rintro ⟨arc', harc', hn'⟩
    rcases List.mem_append.1 harc' with harc' | harc'
    · exact ⟨arc', harc', hn'⟩
    · obtain rfl := List.mem_singleton.1 harc'
      exact absurd hn' hn
  · intro e
    rw [liveAt_concat]
    simp [hn]

theorem liveAt_drop (arcs : List Arc) (f : Arc → ℕ) (n e e' : ℕ) :
    LiveAt (arcs.modify e ({ · with live := false })) f n e' ↔
      LiveAt arcs f n e' ∧ e' ≠ e := by
  simp only [LiveAt, List.getElem?_modify]
  by_cases he : e = e'
  · subst he
    simp only [if_pos, Option.map_eq_map, Option.map_eq_some_iff, ne_eq, not_true, and_false, iff_false]
    rintro ⟨arc, ⟨arc', -, rfl⟩, h, -⟩
    cases h
  · simp [he, Ne.symm he]

/-- `del_edge` at an end of a dropped arc, whether or not it was live. -/
theorem del (h : Incident arcs f n a) (he : arcs[e]? = some arc) (hn : f arc = n) :
    Returns (delEdge Buffer.ample a e) (Incident (arcs.modify e ({ · with live := false })) f n) := by
  have hmade : a ≠ none := h.made ⟨arc, List.mem_of_getElem? he, hn⟩
  apply (delEdge_spec h.list hmade e).mono
  intro a' ⟨hmade', es', hlist, hperm⟩
  have hedges := hlist.edgesOf_eq
  refine ⟨fun _ => hmade', hedges ▸ hlist, ?_, fun e' => ?_⟩
  · rw [hedges, hperm.nodup_iff]
    exact h.nodup.erase e
  · rw [hedges, hperm.mem_iff, h.nodup.mem_erase_iff, h.mem, liveAt_drop, and_comm]

/-- The list is the same at the nodes that are not the end of a dropped arc. -/
theorem del_of_ne (h : Incident arcs f n a) (hf : ∀ arc, f { arc with live := false } = f arc)
    (he : arcs[e]? = some arc) (hn : f arc ≠ n) :
    Incident (arcs.modify e ({ · with live := false })) f n a := by
  apply h.congr
  · rintro ⟨arc', harc', hn'⟩
    obtain ⟨i, hi⟩ := List.mem_iff_getElem?.1 harc'
    rw [List.getElem?_modify, Option.map_eq_map, Option.map_eq_some_iff] at hi
    obtain ⟨arc₀, harc₀, rfl⟩ := hi
    refine ⟨arc₀, List.mem_of_getElem? harc₀, ?_⟩
    split at hn'
    case isTrue => exact (hf arc₀).symm.trans hn'
    case isFalse => exact hn'
  · intro e'
    rw [liveAt_drop]
    refine ⟨And.left, fun hl => ⟨hl, ?_⟩⟩
    rintro rfl
    obtain ⟨arc', harc', -, hn'⟩ := hl
    obtain rfl := Option.some.inj (he.symm.trans harc')
    exact hn hn'

end Incident

/-! ## Representation -/

/-- At every node, the array `get` lists the live arcs by their end `f`. -/
def Lists (nodes : Memory Node) (get : Node → Option (Dynarr ℕ)) (arcs : List Arc) (f : Arc → ℕ) :
    Prop :=
  ∀ n node, nodes.cell n = some node → Incident arcs f n (get node)

/-- The graph `g` represents the multigraph `M`. -/
structure Graph.Represents (g : Graph) (M : Multigraph) : Prop where
  closed : M.Closed
  order : g.nodes.brk = M.order
  node : ∀ n < M.order, ∃ node, g.nodes.cell n = some node
  size : g.edges.brk = M.arcs.length
  edge : ∀ e arc, M.arcs[e]? = some arc → ∃ tag, g.edges.cell e = some ⟨arc.src, arc.dst, tag⟩
  out : Lists g.nodes Node.out M.arcs Arc.src
  in_ : Lists g.nodes Node.in_ M.arcs Arc.dst

section

variable {nodes : Memory Node} {get : Node → Option (Dynarr ℕ)} {arcs arcs' : List Arc}
  {f : Arc → ℕ} {node : Node}

/-- A node is overwritten, and the lists of the others stay right. -/
theorem Lists.put (h : Lists nodes get arcs f) (node : Node) (hn : Incident arcs' f n (get node))
    (hother : ∀ m a, m ≠ n → Incident arcs f m a → Incident arcs' f m a) :
    Lists (nodes.put n node) get arcs' f := by
  intro m node' hm
  by_cases hmn : m = n
  · subst hmn
    rw [Memory.put_cell_self] at hm
    exact Option.some.inj hm ▸ hn
  · rw [Memory.put_cell_of_ne hmn] at hm
    exact hother m _ hmn (h m node' hm)

/-- A node is overwritten, but not its list. -/
theorem Lists.put_frame (h : Lists nodes get arcs f) (node' : Node) (hn : nodes.cell n = some node)
    (hget : get node' = get node) : Lists (nodes.put n node') get arcs f :=
  h.put node' (hget ▸ h n node hn) fun _ _ _ ha => ha

end

namespace Graph.Represents

variable {g : Graph} {M : Multigraph} {u v : ℕ}

theorem empty : Graph.empty.Represents ⟨0, []⟩ := by
  refine ⟨by simp [Multigraph.Closed], rfl, by simp, rfl, by simp, ?_, ?_⟩ <;>
    exact fun n node hn => by cases hn

theorem alloc (h : g.Represents M) :
    (allocNode g).1 = M.order ∧ (allocNode g).2.Represents { M with order := M.order + 1 } := by
  have hclosed := h.closed
  refine ⟨h.order, fun arc harc => ?_, ?_, fun n hn => ?_, h.size, h.edge, ?_, ?_⟩
  · obtain ⟨hsrc, hdst⟩ := hclosed arc harc
    exact ⟨Nat.lt_succ_of_lt hsrc, Nat.lt_succ_of_lt hdst⟩
  · show max g.nodes.brk (g.nodes.brk + 1) = M.order + 1
    rw [h.order]
    omega
  · show ∃ node, (g.nodes.put g.nodes.brk _).cell n = some node
    by_cases hb : n = g.nodes.brk
    · rw [hb, Memory.put_cell_self]
      exact ⟨_, rfl⟩
    · have hlt : n < M.order + 1 := hn
      rw [h.order] at hb
      exact Memory.exists_put_cell (h.node n (by omega)) ..
  · refine h.out.put _ (Incident.of_none fun arc harc => ?_) fun _ _ _ ha => ha
    exact h.order ▸ (hclosed arc harc).1.ne
  · refine h.in_.put _ (Incident.of_none fun arc harc => ?_) fun _ _ _ ha => ha
    exact h.order ▸ (hclosed arc harc).2.ne

/-- `link_node` between two nodes, which may be the same. -/
theorem link (h : g.Represents M) (hu : u < M.order) (hv : v < M.order) :
    Ends (linkNode Buffer.ample g u v)
      (fun r => r.1 = M.arcs.length ∧ r.2.Represents (M.link u v))
      fun e => e = .badShift ∧ (2 ^ 30 ≤ (g.outs u).length ∨ 2 ^ 30 ≤ (g.ins v).length) := by
  obtain ⟨nu, hnu⟩ := h.node u hu
  have houtFault (e : Fault) (he : e = .badShift ∧ 2 ^ 30 ≤ (edgesOf nu.out).length) :
      e = .badShift ∧ (2 ^ 30 ≤ (g.outs u).length ∨ 2 ^ 30 ≤ (g.ins v).length) := by
    rw [← Graph.outs_of_cell hnu] at he
    exact ⟨he.1, .inl he.2⟩
  simp only [linkNode, mkedge, Memory.alloc, Memory.load_of_cell hnu, ok_bind, h.size]
  apply (((h.out u nu hnu).add ⟨u, v, true⟩ rfl rfl).fault_mono houtFault).bind
  intro out hout
  rw [Memory.store_of_cell hnu, ok_bind]
  have houts := h.out.put { nu with out } hout fun m a hm ha => ha.add_of_ne (Ne.symm hm)
  have hins := h.in_.put_frame { nu with out } hnu rfl
  obtain ⟨nv, hnv⟩ := Memory.exists_put_cell (h.node v hv) u { nu with out }
  have hinFault (e : Fault) (he : e = .badShift ∧ 2 ^ 30 ≤ (edgesOf nv.in_).length) :
      e = .badShift ∧ (2 ^ 30 ≤ (g.outs u).length ∨ 2 ^ 30 ≤ (g.ins v).length) := by
    obtain ⟨node, hnode, hin⟩ := Graph.ins_of_put_out hnu hnv
    rw [← hin, ← Graph.ins_of_cell hnode] at he
    exact ⟨he.1, .inr he.2⟩
  rw [Memory.load_of_cell hnv, ok_bind]
  apply (((hins v nv hnv).add ⟨u, v, true⟩ rfl rfl).fault_mono hinFault).bind
  intro in_ hin
  rw [Memory.store_of_cell hnv]
  refine ⟨rfl, fun arc harc => ?_, ?_, fun n hn => ?_, ?_, fun e arc he => ?_, ?_, ?_⟩
  · rcases List.mem_append.1 harc with harc | harc
    · exact h.closed arc harc
    · obtain rfl := List.mem_singleton.1 harc
      exact ⟨hu, hv⟩
  · exact (Memory.put_brk hnv).trans ((Memory.put_brk hnu).trans h.order)
  · exact Memory.exists_put_cell (Memory.exists_put_cell (h.node n hn) ..) ..
  · show max g.edges.brk (M.arcs.length + 1) = (M.arcs ++ [_]).length
    rw [h.size, List.length_append, List.length_singleton]
    omega
  · show ∃ tag, (g.edges.put M.arcs.length _).cell e = _
    rw [Multigraph.link, List.getElem?_append] at he
    split at he
    case isTrue hlt =>
      rw [Memory.put_cell_of_ne hlt.ne]
      exact h.edge e arc he
    case isFalse hge =>
      obtain ⟨h0, rfl⟩ : e - M.arcs.length = 0 ∧ _ = arc := by
        simpa [List.getElem?_singleton] using he
      obtain rfl : e = M.arcs.length := by omega
      exact ⟨0, Memory.put_cell_self⟩
  · exact houts.put_frame _ hnv rfl
  · exact hins.put _ hin fun m a hm ha => ha.add_of_ne (Ne.symm hm)

/-- `drop_edge` of an edge, which may have been dropped before. -/
theorem drop (h : g.Represents M) {e : ℕ} (he : e < M.arcs.length) :
    Returns (dropEdge Buffer.ample g e) (Represents · (M.drop e)) := by
  obtain ⟨arc, harc⟩ : ∃ arc, M.arcs[e]? = some arc := ⟨_, List.getElem?_eq_getElem he⟩
  obtain ⟨tag, hedge⟩ := h.edge e arc harc
  obtain ⟨hu, hv⟩ := h.closed arc (List.mem_of_getElem? harc)
  obtain ⟨nu, hnu⟩ := h.node arc.src hu
  simp only [dropEdge, Memory.load_of_cell hedge, Memory.load_of_cell hnu, ok_bind]
  apply ((h.out arc.src nu hnu).del harc rfl).bind
  intro out hout
  rw [Memory.store_of_cell hnu, ok_bind]
  have houts := h.out.put { nu with out } hout fun m a hm ha =>
    ha.del_of_ne (fun _ => rfl) harc (Ne.symm hm)
  have hins := h.in_.put_frame { nu with out } hnu rfl
  obtain ⟨nv, hnv⟩ := Memory.exists_put_cell (h.node arc.dst hv) arc.src { nu with out }
  rw [Memory.load_of_cell hnv, ok_bind]
  apply ((hins arc.dst nv hnv).del harc rfl).bind
  intro in_ hin
  rw [Memory.store_of_cell hnv]
  refine .ok ⟨fun arc' harc' => ?_, ?_, fun n hn => ?_, ?_, fun e' arc' he' => ?_, ?_, ?_⟩
  · obtain ⟨e', he'⟩ := List.mem_iff_getElem?.1 harc'
    obtain ⟨arc₀, harc₀, hsrc, hdst⟩ := M.arc_of_drop he'
    exact hsrc ▸ hdst ▸ h.closed arc₀ (List.mem_of_getElem? harc₀)
  · exact (Memory.put_brk hnv).trans ((Memory.put_brk hnu).trans h.order)
  · exact Memory.exists_put_cell (Memory.exists_put_cell (h.node n hn) ..) ..
  · exact h.size.trans (List.length_modify ..).symm
  · obtain ⟨arc₀, harc₀, hsrc, hdst⟩ := M.arc_of_drop he'
    exact hsrc ▸ hdst ▸ h.edge e' arc₀ harc₀
  · exact houts.put_frame _ hnv rfl
  · exact hins.put _ hin fun m a hm ha => ha.del_of_ne (fun _ => rfl) harc (Ne.symm hm)

/-! ## Degrees -/

/-- The edges that leave `n` are the live arcs from `n`. -/
theorem outs_spec (h : g.Represents M) (n : ℕ) :
    (g.outs n).Nodup ∧ ∀ e, e ∈ g.outs n ↔ LiveAt M.arcs Arc.src n e := by
  unfold Graph.outs
  cases hn : g.nodes.cell n with
  | some node => exact ⟨(h.out n node hn).nodup, (h.out n node hn).mem⟩
  | none =>
    refine ⟨List.nodup_nil, fun e => ⟨fun he => absurd he List.not_mem_nil, ?_⟩⟩
    rintro ⟨arc, harc, -, rfl⟩
    obtain ⟨node, hnode⟩ := h.node _ (h.closed arc (List.mem_of_getElem? harc)).1
    rw [hn] at hnode
    cases hnode

/-- The edges that enter `n` are the live arcs to `n`. -/
theorem ins_spec (h : g.Represents M) (n : ℕ) :
    (g.ins n).Nodup ∧ ∀ e, e ∈ g.ins n ↔ LiveAt M.arcs Arc.dst n e := by
  unfold Graph.ins
  cases hn : g.nodes.cell n with
  | some node => exact ⟨(h.in_ n node hn).nodup, (h.in_ n node hn).mem⟩
  | none =>
    refine ⟨List.nodup_nil, fun e => ⟨fun he => absurd he List.not_mem_nil, ?_⟩⟩
    rintro ⟨arc, harc, -, rfl⟩
    obtain ⟨node, hnode⟩ := h.node _ (h.closed arc (List.mem_of_getElem? harc)).2
    rw [hn] at hnode
    cases hnode

end Graph.Represents

theorem AdjList.count {d : Dynarr ℕ} (h : AdjList (some d) es) : dynarrCount d = es.length := by
  have hlist : d.Lists (es.map some) := h
  exact hlist.used.trans (List.length_map ..)

namespace Graph.Represents

variable {g : Graph} {M : Multigraph}

theorem fanOut (h : g.Represents M) (hn : n < M.order) :
    fanOut g n = .ok (g.outs n).length := by
  obtain ⟨node, hnode⟩ := h.node n hn
  have hlist := (h.out n node hnode).list
  simp only [LibSrsBsns.fanOut, Graph.outs, hnode, Memory.load_of_cell hnode, ok_bind]
  cases hout : node.out with
  | none => rfl
  | some d => exact congrArg _ (hout ▸ hlist).count

theorem fanIn (h : g.Represents M) (hn : n < M.order) : fanIn g n = .ok (g.ins n).length := by
  obtain ⟨node, hnode⟩ := h.node n hn
  have hlist := (h.in_ n node hnode).list
  simp only [LibSrsBsns.fanIn, Graph.ins, hnode, Memory.load_of_cell hnode, ok_bind]
  cases hin : node.in_ with
  | none => rfl
  | some d => exact congrArg _ (hin ▸ hlist).count

end Graph.Represents

namespace Multigraph

variable {M : Multigraph}

theorem mem_live : e ∈ M.live ↔ ∃ arc, M.arcs[e]? = some arc ∧ arc.live = true := by
  simp only [live, Finset.mem_filter, Finset.mem_range, Option.any_eq_true]
  refine ⟨And.right, fun h => ⟨?_, h⟩⟩
  obtain ⟨arc, harc, -⟩ := h
  exact (List.getElem?_eq_some_iff.1 harc).1

/-- The live arcs whose end `f` is `n`. -/
def liveAt (M : Multigraph) (f : Arc → ℕ) (n : ℕ) : Finset ℕ :=
  {e ∈ M.live | M.arcs[e]?.map f = some n}

/-- How many live arcs have the end `f` at `n`. -/
def degree (M : Multigraph) (f : Arc → ℕ) (n : ℕ) : ℕ := (M.liveAt f n).card

theorem mem_liveAt {f : Arc → ℕ} : e ∈ M.liveAt f n ↔ LiveAt M.arcs f n e := by
  rw [liveAt, Finset.mem_filter, mem_live]
  constructor
  · rintro ⟨⟨arc, harc, hlive⟩, hn⟩
    rw [harc] at hn
    exact ⟨arc, harc, hlive, Option.some.inj hn⟩
  · rintro ⟨arc, harc, hlive, rfl⟩
    exact ⟨⟨arc, harc, hlive⟩, by rw [harc, Option.map_some]⟩

/-- A list of the live arcs with the end `f` at `n` is as long as there are such arcs. -/
theorem length_eq_degree {f : Arc → ℕ} (h : es.Nodup ∧ ∀ e, e ∈ es ↔ LiveAt M.arcs f n e) :
    es.length = M.degree f n := by
  rw [degree, ← List.toFinset_card_of_nodup h.1]
  congr 1
  ext e
  rw [List.mem_toFinset, h.2, mem_liveAt]

/-- The lists of the live arcs by one of their ends are as long together as there are live arcs. -/
theorem sum_length_eq_card_live (f : Arc → ℕ) (hf : ∀ arc ∈ M.arcs, f arc < M.order)
    (es : ℕ → List ℕ) (hes : ∀ n, (es n).Nodup ∧ ∀ e, e ∈ es n ↔ LiveAt M.arcs f n e) :
    ∑ n ∈ Finset.range M.order, (es n).length = M.live.card := by
  let endOf (e : ℕ) : ℕ := (M.arcs[e]?.map f).getD 0
  have hmaps : ∀ e ∈ M.live, endOf e ∈ Finset.range M.order := by
    intro e he
    obtain ⟨arc, harc, -⟩ := mem_live.1 he
    simpa [endOf, harc] using hf arc (List.mem_of_getElem? harc)
  rw [Finset.card_eq_sum_card_fiberwise hmaps]
  refine Finset.sum_congr rfl fun n _ => ?_
  rw [length_eq_degree (hes n), degree, liveAt]
  congr 1
  refine Finset.filter_congr fun e he => ?_
  obtain ⟨arc, harc, -⟩ := mem_live.1 he
  simp [endOf, harc]

end Multigraph

end LibSrsBsns
