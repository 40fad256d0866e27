import LibSrsBsns.Foundations.Data.StackSearch
import LibSrsBsns.Graph.Visits

/-!
# In which order the work list is visited

The work list of `trav_bfs` is a stack. With a fresh tag the traversal is a search with a stack, in
which the nodes next to a node are those that its edges lead to, the last edge first
(`traverse_bfs_spec`): so every node and every edge within reach is visited once, and the nodes are
visited in the order of the first simple paths to them.
-/

namespace LibSrsBsns

open C StackSearch

namespace Graph

variable (g : Graph)

/-- The nodes that the edges of `n` lead to, the last edge first. -/
def targets (n : ℕ) : List ℕ := ((g.outs n).map g.target).reverse

/-- The calls of callbacks at a visit of the node `n`. -/
def callsAt (n : ℕ) : List Visit := .node n :: (g.outs n).map .edge

theorem reach_iff {start n : ℕ} : g.Reach start n ↔ ∃ ks xs, Path g.targets start ks xs n := by
  constructor
  · intro hn
    induction hn with
    | refl => exact ⟨[], [start], .nil⟩
    | tail _ hstep ih =>
      obtain ⟨ks, xs, hp⟩ := ih
      obtain ⟨e, he, rfl⟩ := hstep
      have hmem : g.target e ∈ g.targets _ := List.mem_reverse.2 (List.mem_map_of_mem he)
      obtain ⟨k, hk⟩ := List.mem_iff_getElem?.1 hmem
      exact ⟨_, _, hp.snoc hk⟩
  · rintro ⟨ks, xs, hp⟩
    induction hp with
    | nil => exact .refl
    | snoc _ hk ih =>
      obtain ⟨e, he, rfl⟩ := List.mem_map.1 (List.mem_reverse.1 (List.mem_of_getElem? hk))
      exact ih.tail ⟨e, he, rfl⟩

end Graph

variable {M : Multigraph} {tag start n e i : ℕ} {g₀ g g' : Graph} {vs es work : List ℕ} {t : Trav}
  {st : Stack ℕ}

namespace Graph.Represents

theorem lt_of_reach (h : g.Represents M) (hstart : start < M.order) (hn : g.Reach start n) :
    n < M.order := by
  induction hn with
  | refl => exact hstart
  | tail _ hstep ih =>
    obtain ⟨e, he, rfl⟩ := hstep
    obtain ⟨_, _, _, _, _, hlt⟩ := h.edge_of_mem he
    exact hlt

/-- An edge leaves one node. -/
theorem outs_disjoint (h : g.Represents M) {m : ℕ} (hm : e ∈ g.outs m) (hn : e ∈ g.outs n) :
    m = n := by
  obtain ⟨arc, harc, -, rfl⟩ := ((h.outs_spec m).2 e).1 hm
  obtain ⟨arc', harc', -, rfl⟩ := ((h.outs_spec n).2 e).1 hn
  rw [Option.some.inj (harc.symm.trans harc')]

end Graph.Represents

/-- Of what can be reached from `start`, the nodes `vs` and the edges `es` are marked. -/
structure Marked (tag start : ℕ) (g₀ g : Graph) (vs es : List ℕ) : Prop where
  retag : Retag tag g₀ g
  node : ∀ n, g₀.Reach start n → (g.nodeTag n = tag ↔ n ∈ vs)
  edge : ∀ e, g₀.Within start (.edge e) → (g.edgeTag e = tag ↔ e ∈ es)

namespace Marked

theorem init (hfresh : g.Fresh start tag) : Marked tag start g g [] [] where
  retag := .refl g
  node n hn := iff_of_false (hfresh n hn).1 List.not_mem_nil
  edge e he := by
    obtain ⟨n, hn, he⟩ := he
    exact iff_of_false ((hfresh n hn).2 e he) List.not_mem_nil

theorem markNode (h : Marked tag start g₀ g vs es) (hr : Retag tag g g') (hn : g'.nodeTag n = tag)
    (hother : ∀ m, m ≠ n → g'.nodeTag m = g.nodeTag m) (hedges : g'.edges = g.edges) :
    Marked tag start g₀ g' (vs ++ [n]) es where
  retag := h.retag.trans hr
  node m hm := by
    rw [List.mem_append, List.mem_singleton, ← h.node m hm]
    by_cases hmn : m = n
    · rw [hmn]
      exact iff_of_true hn (.inr rfl)
    · rw [hother m hmn, or_iff_left hmn]
  edge e he := by
    rw [← h.edge e he, Graph.edgeTag_congr hedges]

theorem markEdge (h : Marked tag start g₀ g vs es) (hr : Retag tag g g') (he : g'.edgeTag e = tag)
    (hother : ∀ e', e' ≠ e → g'.edgeTag e' = g.edgeTag e') (hnodes : g'.nodes = g.nodes) :
    Marked tag start g₀ g' vs (es ++ [e]) where
  retag := h.retag.trans hr
  node m hm := by
    rw [← h.node m hm, Graph.nodeTag_congr hnodes]
  edge e' he' := by
    rw [List.mem_append, List.mem_singleton, ← h.edge e' he']
    by_cases hee : e' = e
    · rw [hee]
      exact iff_of_true he (.inr rfl)
    · rw [hother e' hee, or_iff_left hee]

end Marked

/-! ## The loops -/

/-- One turn of the inner loop of `trav_bfs`, at an edge that is not marked. -/
theorem bfsEdge_marks (h₀ : g₀.Represents M) (hstart : start < M.order) (hn : g₀.Reach start n)
    (hi : i < (g₀.outs n).length) (h : Marked tag start g₀ t.graph vs es)
    (hnew : (g₀.outs n)[i] ∉ es) (hst : st.Lists work) :
    Returns (bfsEdge Buffer.ample tag n i (t, st)) fun s =>
      Marked tag start g₀ s.1.graph vs (es ++ [(g₀.outs n)[i]]) ∧
        s.1.log = t.log ++ [.edge (g₀.outs n)[i]] ∧
        s.2.Lists ([g₀.target (g₀.outs n)[i]].filter (· ∉ vs) ++ work) := by
  have ht := h.retag.represents h₀
  have houts := h.retag.outs n
  have hi' : i < (t.graph.outs n).length := by rwa [houts]
  simp only [bfsEdge, ht.outEdge_spec (h₀.lt_of_reach hstart hn) hi', ok_bind, houts]
  have hmem := List.getElem_mem hi
  generalize (g₀.outs n)[i] = e at hnew hmem
  obtain ⟨edge, hedge, hto, htag, -, hdst⟩ := ht.edge_of_mem (houts ▸ hmem)
  have hunmarked : t.graph.edgeTag e ≠ tag := (h.edge e ⟨n, hn, hmem⟩).not.2 hnew
  rw [Memory.load_of_cell hedge, ok_bind, htag, if_pos hunmarked]
  apply (ht.tagEdge_spec (houts ▸ hmem) tag).bind
  intro g₁ h₁
  obtain ⟨hr, hmark, hother, hnodes⟩ := h₁
  rw [h.retag.target] at hto hdst
  obtain ⟨node, hnode⟩ := ht.node _ hdst
  have hnodeTag : t.graph.nodeTag (g₀.target e) = node.travtag := Graph.nodeTag_of_cell hnode
  have htarget := h.node (g₀.target e) (hn.tail ⟨e, hmem, rfl⟩)
  rw [hto, hnodes, Memory.load_of_cell hnode, ok_bind]
  rw [hnodeTag] at htarget
  have hmarked := h.markEdge hr hmark hother hnodes
  refine .ite (fun hpush => ?_) fun hpush => ?_
  · apply (Stack.push_spec hst (g₀.target e)).bind
    intro st' hst'
    refine .ok ⟨hmarked, rfl, ?_⟩
    rw [List.filter_cons_of_pos (by simpa using htarget.not.1 hpush)]
    exact hst'
  · refine .ok ⟨hmarked, rfl, ?_⟩
    rw [List.filter_cons_of_neg (by simpa using htarget.1 (not_not.1 hpush))]
    exact hst

/-- The outer loop of `trav_bfs` is at a state of the search from `start`. -/
def Searching (tag start : ℕ) (g₀ : Graph) (s : Trav × Stack ℕ) : Prop :=
  ∃ vs work, Search g₀.targets start vs work ∧ s.2.Lists work ∧
    Marked tag start g₀ s.1.graph vs (vs.flatMap g₀.outs) ∧ s.1.log = vs.flatMap g₀.callsAt

/-- The visit of a node: the inner loop of `trav_bfs`. -/
theorem visit_marks (h₀ : g₀.Represents M) (hstart : start < M.order) (hn : g₀.Reach start n)
    (hnew : n ∉ vs) (h : Marked tag start g₀ g (vs ++ [n]) (vs.flatMap g₀.outs))
    (hst : st.Lists work) (l : List Visit) :
    Returns (forRange (bfsEdge Buffer.ample tag n) 0 (g₀.outs n).length (⟨g, l⟩, st)) fun s =>
      Marked tag start g₀ s.1.graph (vs ++ [n]) ((vs ++ [n]).flatMap g₀.outs) ∧
        s.1.log = l ++ (g₀.outs n).map .edge ∧
        s.2.Lists ((g₀.targets n).filter (· ∉ vs ++ [n]) ++ work) := by
  -- after `i` turns the first `i` edges are marked, and the nodes that they lead to pushed
  apply (Returns.forRange (fun i (s : Trav × Stack ℕ) =>
    Marked tag start g₀ s.1.graph (vs ++ [n]) (vs.flatMap g₀.outs ++ (g₀.outs n).take i) ∧
      s.1.log = l ++ ((g₀.outs n).take i).map .edge ∧
      s.2.Lists ((((g₀.outs n).take i).map g₀.target).reverse.filter (· ∉ vs ++ [n]) ++ work))
    ?_ ⟨by simpa using h, by simp, by simpa using hst⟩).mono
  · intro s ⟨hm, hlog, hst'⟩
    rw [Nat.zero_add, List.take_length] at hm hlog hst'
    rw [List.flatMap_append, List.flatMap_singleton]
    exact ⟨hm, hlog, hst'⟩
  · rintro i ⟨t, st'⟩ _ hi ⟨hm, (hlog : t.log = _), hst'⟩
    have hi' : i < (g₀.outs n).length := by omega
    have hedge : (g₀.outs n)[i] ∉ vs.flatMap g₀.outs ++ (g₀.outs n).take i := by
      rw [List.mem_append, not_or, List.mem_flatMap]
      constructor
      · rintro ⟨m, hmv, he⟩
        exact hnew (h₀.outs_disjoint he (List.getElem_mem hi') ▸ hmv)
      · intro he
        have hdrop := List.disjoint_take_drop (h₀.outs_spec n).1 (le_refl i) he
        rw [List.drop_eq_getElem_cons hi'] at hdrop
        exact hdrop (List.mem_cons_self ..)
    apply (bfsEdge_marks h₀ hstart hn hi' hm hedge hst').mono
    intro s ⟨hm', hlog', hst''⟩
    rw [List.take_succ_eq_append_getElem hi']
    refine ⟨by rwa [← List.append_assoc], ?_, ?_⟩
    · rw [hlog', hlog, List.map_append, List.append_assoc]
      rfl
    · rw [List.map_append, List.reverse_append, List.filter_append, List.append_assoc]
      exact hst''

/-- `trav_bfs` goes from state to state of the search. -/
theorem bfsLoop_searches (h₀ : g₀.Represents M) (hstart : start < M.order) {k : ℕ}
    (h : Searching tag start g₀ (t, st)) : Ends (bfsLoop Buffer.ample tag k (t, st))
      (fun t' => ∃ vs, Search g₀.targets start vs [] ∧ t'.log = vs.flatMap g₀.callsAt)
      fun _ => True := by
  refine Ends.loop_partial (Searching tag start g₀) _ ?_ h
  rintro ⟨t, st⟩ ⟨vs, work, hs, (hst : st.Lists work), (hm : Marked tag start g₀ t.graph _ _),
    (hlog : t.log = _)⟩
  apply ((Stack.pop_spec hst).ends _).bind
  rintro ⟨x, st₁⟩ ⟨rfl, (hst₁ : st₁.Lists work.tail)⟩
  cases work with
  | nil => exact ⟨vs, hs, hlog⟩
  | cons n work =>
    have hn : g₀.Reach start n := g₀.reach_iff.2 (hs.reach (.inr (by simp)))
    have ht := hm.retag.represents h₀
    have hlt := h₀.lt_of_reach hstart hn
    obtain ⟨node, hnode⟩ := ht.node n hlt
    have htag : t.graph.nodeTag n = node.travtag := Graph.nodeTag_of_cell hnode
    have hvisited := hm.node n hn
    rw [htag] at hvisited
    simp only [List.head?_cons, Memory.load_of_cell hnode, ok_bind]
    split
    case isTrue hmarked => exact ⟨vs, work, hs.skip (hvisited.1 hmarked), hst₁, hm, hlog⟩
    case isFalse hunmarked =>
      have hnew : n ∉ vs := hvisited.not.1 hunmarked
      apply ((ht.tagNode_spec hlt tag).ends _).bind
      intro g₁ ⟨hr, hmark, hother, hedges⟩
      have h₁ := hr.represents ht
      have houts : g₁.outs n = g₀.outs n := (hr.outs n).trans (hm.retag.outs n)
      rw [h₁.fanOut hlt, ok_bind, houts]
      have hm₁ := hm.markNode hr hmark hother hedges
      apply ((visit_marks h₀ hstart hn hnew hm₁ hst₁ _).ends _).bind
      intro s ⟨hm', hlog', hst'⟩
      refine ⟨vs ++ [n], _, hs.visit hnew, hst', hm', ?_⟩
      rw [hlog', hlog, List.flatMap_append, List.flatMap_singleton, List.append_assoc]
      rfl

/-- **A breadth-first traversal with a fresh tag** is a search with a stack. -/
theorem traverse_bfs_spec (h : g.Represents M) (hn : n < M.order) {rands : List ℕ}
    (htag : pickTag (g.nodeTag n) rands = .ok tag) (hfresh : g.Fresh n tag) :
    Returns (traverse Buffer.ample g n 0 rands) fun t =>
      ∃ vs, Search g.targets n vs [] ∧ t.log = vs.flatMap g.callsAt := by
  obtain ⟨t, ht, -⟩ := traverse_sweeps h hn (.inl rfl) htag
  obtain ⟨node, hnode⟩ := h.node n hn
  have hpick : pickTag node.travtag rands = .ok tag := Graph.nodeTag_of_cell hnode ▸ htag
  have hends : Ends (traverse Buffer.ample g n 0 rands) (fun t =>
      ∃ vs, Search g.targets n vs [] ∧ t.log = vs.flatMap g.callsAt) fun _ => True := by
    simp only [traverse, travBfs, Memory.load_of_cell hnode, hpick, ok_bind]
    apply ((Stack.push_spec (Stack.lists_init 16) n).ends _).bind
    intro st hst
    exact bfsLoop_searches h hn ⟨[], [n], .init, hst, .init hfresh, rfl⟩
  rw [ht] at hends
  exact ⟨t, ht, hends⟩

/-! ## What is called, and in which order -/

theorem mem_calls (hs : Search g.targets start vs []) (x : Visit) :
    x ∈ vs.flatMap g.callsAt ↔ g.Within start x := by
  simp only [List.mem_flatMap, Graph.callsAt, List.mem_cons, List.mem_map]
  cases x with
  | node n => simpa [Graph.Within, g.reach_iff] using hs.mem_iff
  | edge e => simp [Graph.Within, g.reach_iff, hs.mem_iff]

theorem nodup_calls (h : g.Represents M) (hs : Search g.targets start vs []) :
    (vs.flatMap g.callsAt).Nodup := by
  refine List.nodup_flatMap.2 ⟨fun n _ => ?_, hs.nodup.imp ?_⟩
  · refine List.nodup_cons.2 ⟨by simp, ?_⟩
    exact (h.outs_spec n).1.map fun _ _ => Visit.edge.inj
  · intro m n hmn x hm hn
    simp only [Graph.callsAt, List.mem_cons, List.mem_map] at hm hn
    rcases hm with rfl | ⟨e, he, rfl⟩
    · exact hmn (by simpa using hn)
    · exact hmn (h.outs_disjoint he (by simpa using hn))

/-- The calls for the edges of a node come after the one for the node. -/
theorem source_before (h : g.Represents M) (vs : List ℕ) {l₁ l₂ : List Visit}
    (hl : vs.flatMap g.callsAt = l₁ ++ .edge e :: l₂) (he : e ∈ g.outs n) : .node n ∈ l₁ := by
  induction vs generalizing l₁ with
  | nil => simp at hl
  | cons m vs ih =>
    rw [List.flatMap_cons] at hl
    rcases List.append_eq_append_iff.1 hl with ⟨as, rfl, hrest⟩ | ⟨bs, hm, hrest⟩
    · exact List.mem_append_right _ (ih hrest)
    · cases bs with
      | nil =>
        have hnil : .node n ∈ ([] : List Visit) := ih hrest.symm
        exact absurd hnil List.not_mem_nil
      | cons x bs =>
        obtain ⟨rfl, -⟩ := List.cons.inj hrest
        cases l₁ with
        | nil => cases (List.cons.inj hm).1
        | cons y l₁ =>
          obtain ⟨rfl, hedges⟩ := List.cons.inj hm
          have hmem : .edge e ∈ (g.outs m).map Visit.edge := by simp [hedges]
          have hem : e ∈ g.outs m := by simpa using hmem
          rw [h.outs_disjoint he hem]
          exact List.mem_cons_self ..

/-- **A breadth-first traversal calls back once.** In every graph that calls lead to, a traversal of
type `TRAV_BFS` whose tag nothing within reach carries returns. It calls `nf` once for each node and
`ef` once for each edge that can be reached, neither for anything else, and `ef` for an edge only
after `nf` for the node that it leaves. -/
theorem trav_bfs_visits_once {ops : List GraphOp} {os : List GraphOut} (hops : ValidHistory ops)
    (hrun : runs graphStep Graph.empty ops = .ok (os, g)) (hstart : start < (built ops).order)
    {rands : List ℕ} (htag : pickTag (g.nodeTag start) rands = .ok tag)
    (hfresh : g.Fresh start tag) :
    Returns (traverse Buffer.ample g start 0 rands) fun t => g.VisitsOnce start t.log ∧
      ∀ l₁ e l₂ n, t.log = l₁ ++ .edge e :: l₂ → e ∈ g.outs n → .node n ∈ l₁ := by
  have hends := runs_represents hops
  rw [hrun] at hends
  obtain ⟨-, h⟩ := hends
  apply (traverse_bfs_spec h hstart htag hfresh).mono
  rintro t ⟨vs, hs, hlog⟩
  rw [hlog]
  refine ⟨fun x => ⟨fun hx => ?_, (mem_calls hs x).not.2⟩, fun l₁ e l₂ n => source_before h vs⟩
  exact List.count_eq_one_of_mem (nodup_calls h hs) ((mem_calls hs x).2 hx)

/-- A loop, two parallel edges and a cycle. -/
theorem trav_bfs_visits_once_cycle :
    ∃ (os : List GraphOut) (g : Graph), runs graphStep Graph.empty
        [.alloc, .alloc, .link 0 0, .link 0 1, .link 0 1, .link 1 0] = .ok (os, g) ∧
      Returns (traverse Buffer.ample g 0 0 [0, 7]) fun t => g.VisitsOnce 0 t.log := by
  have hrun : runs graphStep Graph.empty
      [.alloc, .alloc, .link 0 0, .link 0 1, .link 0 1, .link 1 0] = .ok (_, _) := rfl
  have hstart : 0 < (built [.alloc, .alloc, .link 0 0, .link 0 1, .link 0 1, .link 1 0]).order := by
    decide
  have htag : pickTag 0 [0, 7] = .ok 7 := rfl
  refine ⟨_, _, hrun, (trav_bfs_visits_once ?_ hrun hstart htag ?_).mono fun t ht => ht.1⟩
  · simp [ValidHistory, Admissible, Multigraph.spec, Multigraph.Pre, Multigraph.empty,
      Multigraph.link]
  · apply Graph.fresh_of_untagged _ _ (by decide)
    · rintro (_ | _ | n) <;> rfl
    · rintro (_ | _ | _ | _ | e) <;> rfl

/-- The nodes that `nf` is called for, in order. -/
def nodeCalls (l : List Visit) : List ℕ :=
  l.filterMap fun
    | .node n => some n
    | .edge _ => none

theorem nodeCalls_calls (g : Graph) (vs : List ℕ) : nodeCalls (vs.flatMap g.callsAt) = vs := by
  induction vs with
  | nil => rfl
  | cons n vs ih =>
    have hedges : nodeCalls ((g.outs n).map .edge) = [] := by
      rw [nodeCalls, List.filterMap_map, List.filterMap_eq_nil_iff]
      exact fun e _ => rfl
    rw [List.flatMap_cons, Graph.callsAt, nodeCalls, List.cons_append, List.filterMap_cons,
      List.filterMap_append, ← nodeCalls, ← nodeCalls, hedges, ih]
    rfl

/-- The number of edges on a shortest path. -/
noncomputable def Graph.dist (g : Graph) (start n : ℕ) : ℕ := StackSearch.dist g.targets start n

/-- **When a breadth-first traversal goes breadth first.** In every graph that calls lead to, a
traversal of type `TRAV_BFS` whose tag nothing within reach carries calls `nf` for nodes ever
farther from the start node if and only if nodes are ever farther in the order of the first simple
paths to them, where paths are compared by the first edges that differ, and of the edges of a node
the last comes first. This is the order of a search in depth. -/
theorem trav_bfs_breadth_first_iff {ops : List GraphOp} {os : List GraphOut}
    (hops : ValidHistory ops) (hrun : runs graphStep Graph.empty ops = .ok (os, g))
    (hstart : start < (built ops).order) {rands : List ℕ}
    (htag : pickTag (g.nodeTag start) rands = .ok tag) (hfresh : g.Fresh start tag) :
    Returns (traverse Buffer.ample g start 0 rands) (fun t =>
        (nodeCalls t.log).Pairwise fun u v => g.dist start u ≤ g.dist start v) ↔
      ∀ u v ks ls, FirstPath g.targets start u ks → FirstPath g.targets start v ls → ks < ls →
        g.dist start u ≤ g.dist start v := by
  have hends := runs_represents hops
  rw [hrun] at hends
  obtain ⟨t, ht, vs, hs, hlog⟩ := traverse_bfs_spec hends.2 hstart htag hfresh
  rw [ht, returns_ok, hlog, nodeCalls_calls]
  exact hs.pairwise_iff _

/-- The paths from a node that leads to one other. -/
theorem pair_paths {next : ℕ → List ℕ} (h0 : next 0 = [1]) (h1 : next 1 = []) {ks xs : List ℕ}
    {x : ℕ} (h : Path next 0 ks xs x) : (ks = [] ∧ x = 0) ∨ (ks = [0] ∧ x = 1) := by
  induction h with
  | nil => exact .inl ⟨rfl, rfl⟩
  | snoc h hk ih =>
    rcases ih with ⟨rfl, rfl⟩ | ⟨rfl, rfl⟩
    · rw [h0, List.getElem?_singleton] at hk
      split at hk
      case isTrue hzero => exact .inr ⟨by rw [hzero]; rfl, (Option.some.inj hk).symm⟩
      case isFalse => cases hk
    · rw [h1] at hk
      cases hk

/-- A node and one that it leads to. -/
theorem trav_bfs_breadth_first_pair :
    ∃ (os : List GraphOut) (g : Graph), runs graphStep Graph.empty [.alloc, .alloc, .link 0 1] =
        .ok (os, g) ∧
      Returns (traverse Buffer.ample g 0 0 [7]) fun t =>
        (nodeCalls t.log).Pairwise fun u v => g.dist 0 u ≤ g.dist 0 v := by
  have hrun : runs graphStep Graph.empty [.alloc, .alloc, .link 0 1] = .ok (_, _) := rfl
  have hstart : 0 < (built [.alloc, .alloc, .link 0 1]).order := by decide
  have htag : pickTag 0 [7] = .ok 7 := rfl
  refine ⟨_, _, hrun, (trav_bfs_breadth_first_iff ?_ hrun hstart htag ?_).2 ?_⟩
  · simp [ValidHistory, Admissible, Multigraph.spec, Multigraph.Pre, Multigraph.empty]
  · apply Graph.fresh_of_untagged _ _ (by decide)
    · rintro (_ | _ | n) <;> rfl
    · rintro (_ | e) <;> rfl
  · rintro u v ks ls ⟨⟨xs, hu, -⟩, -⟩ ⟨⟨ys, hv, -⟩, -⟩ hlt
    rcases pair_paths rfl rfl hu with ⟨rfl, rfl⟩ | ⟨rfl, rfl⟩
    · exact (dist_le .nil).trans (Nat.zero_le _)
    · rcases pair_paths rfl rfl hv with ⟨rfl, rfl⟩ | ⟨rfl, rfl⟩
      · exact absurd hlt (List.not_lt_nil _)
      · exact le_rfl

theorem branch_dist {next : ℕ → List ℕ} (h0 : next 0 = [2, 1]) (h2 : next 2 = [3]) :
    StackSearch.dist next 0 1 < StackSearch.dist next 0 3 := by
  have h01 : Path next 0 ([] ++ [1]) ([0] ++ [1]) 1 := .snoc .nil (by rw [h0]; rfl)
  have h02 : Path next 0 ([] ++ [0]) ([0] ++ [2]) 2 := .snoc .nil (by rw [h0]; rfl)
  have h03 : Path next 0 ([] ++ [0] ++ [0]) ([0] ++ [2] ++ [3]) 3 := .snoc h02 (by rw [h2]; rfl)
  refine (dist_le h01).trans_lt (le_dist h03 fun ls ys h => ?_)
  cases h with
  | snoc h hk =>
    cases h with
    | nil =>
      -- no edge leads from 0 to 3
      have hmem := List.mem_of_getElem? hk
      rw [h0] at hmem
      simp at hmem
    | snoc h hk => simp

/-- The node 3 is two edges away from the node 0 but visited before the node 1, which is next to it:
the work list is a stack. -/
theorem not_breadth_first_of_branch :
    ValidHistory [.alloc, .alloc, .alloc, .alloc, .link 0 1, .link 0 2, .link 2 3] ∧
      ∃ (os : List GraphOut) (g : Graph), runs graphStep Graph.empty
          [.alloc, .alloc, .alloc, .alloc, .link 0 1, .link 0 2, .link 2 3] = .ok (os, g) ∧
        g.Fresh 0 7 ∧
        Returns (traverse Buffer.ample g 0 0 [7]) (fun t => nodeCalls t.log = [0, 2, 3, 1]) ∧
        ¬ Returns (traverse Buffer.ample g 0 0 [7]) fun t =>
          (nodeCalls t.log).Pairwise fun u v => g.dist 0 u ≤ g.dist 0 v := by
  have hrun : runs graphStep Graph.empty
      [.alloc, .alloc, .alloc, .alloc, .link 0 1, .link 0 2, .link 2 3] = .ok (_, _) := rfl
  refine ⟨?_, _, _, hrun, ?_, ⟨_, rfl, rfl⟩, ?_⟩
  · simp [ValidHistory, Admissible, Multigraph.spec, Multigraph.Pre, Multigraph.empty,
      Multigraph.link]
  · apply Graph.fresh_of_untagged _ _ (by decide)
    · rintro (_ | _ | _ | _ | n) <;> rfl
    · rintro (_ | _ | _ | e) <;> rfl
  · rintro ⟨t, ht, hpair⟩
    obtain rfl := Except.ok.inj ht
    have hpair' : [0, 2, 3, 1].Pairwise _ := hpair
    have hle := List.rel_of_pairwise_cons hpair'.tail.tail (List.mem_singleton.2 rfl)
    exact (branch_dist rfl rfl).not_ge hle

end LibSrsBsns
