import LibSrsBsns.Graph.Consistency

/-!
# Finding and unlinking edges

`find_edge` goes through the array `out` of a node without a look at whether it has been made, and
`unlink_node` drops what `find_edge` returns without a look at whether there is an edge. Where the
array has been made, `find_edge` finds an edge if there is one (`findEdge_spec`); its cursor is all
that it changes. `graph_edges_found_iff` says when the two calls are defined.
-/

namespace LibSrsBsns

open C

/-- The edge `e` leads from `u` to `v` and is in the lists of both. -/
def Graph.LiveEdge (g : Graph) (u v e : ℕ) : Prop :=
  e ∈ g.outs u ∧ e ∈ g.ins v ∧ ∃ tag, g.edges.cell e = some ⟨u, v, tag⟩

variable {g g' : Graph} {M : Multigraph} {u v e i : ℕ} {es : List ℕ} {d : Dynarr ℕ}
  {a : Option (Dynarr ℕ)}

/-! ## The cursor -/

theorem AdjList.moveIter (h : AdjList (some d) es) (iter : Option ℕ) :
    AdjList (some { d with iter }) es := by
  have hlist : d.Lists (es.map some) := h
  exact ⟨hlist.used, hlist.size, hlist.holds⟩

theorem Incident.moveIter {arcs : List Arc} {f : Arc → ℕ} {n : ℕ}
    (h : Incident arcs f n (some d)) (iter : Option ℕ) :
    Incident arcs f n (some { d with iter }) :=
  ⟨fun _ => by simp, h.list.moveIter iter, h.nodup, h.mem⟩

namespace Graph.Represents

/-- The edges from `u` to `v` are the live arcs. -/
theorem liveEdge_iff (h : g.Represents M) :
    g.LiveEdge u v e ↔ M.arcs[e]? = some ⟨u, v, true⟩ := by
  constructor
  · rintro ⟨hout, hin, -⟩
    obtain ⟨arc, harc, hlive, rfl⟩ := ((h.outs_spec u).2 e).1 hout
    obtain ⟨arc', harc', -, rfl⟩ := ((h.ins_spec v).2 e).1 hin
    rw [harc, ← hlive, ← Option.some.inj (harc.symm.trans harc')]
  · intro harc
    exact ⟨((h.outs_spec u).2 e).2 ⟨_, harc, rfl, rfl⟩, ((h.ins_spec v).2 e).2 ⟨_, harc, rfl, rfl⟩,
      h.edge e _ harc⟩

theorem liveEdge_of_mem (h : g.Represents M) (he : e ∈ g.outs u) : g.LiveEdge u (g.target e) e := by
  obtain ⟨⟨src, dst, live⟩, harc, rfl, rfl⟩ := ((h.outs_spec u).2 e).1 he
  obtain ⟨tag, hedge⟩ := h.edge e _ harc
  rw [h.liveEdge_iff, harc]
  simp [target, hedge]

theorem moveIter (h : g.Represents M) {node : Node} (hn : g.nodes.cell u = some node)
    (hout : node.out = some d) (iter : Option ℕ) :
    Represents { g with nodes := g.nodes.put u { node with out := some { d with iter } } } M := by
  have hinc := h.out u node hn
  rw [hout] at hinc
  refine ⟨h.closed, (Memory.put_brk hn).trans h.order, fun n hn => ?_, h.size, h.edge, ?_, ?_⟩
  · exact Memory.exists_put_cell (h.node n hn) ..
  · exact h.out.put _ (hinc.moveIter iter) fun _ _ _ ha => ha
  · exact h.in_.put_frame _ hn rfl

end Graph.Represents

/-! ## Finding -/

theorem findEdgeLoop_spec {edges : Memory Edge} (hd : d.Lists (es.map some))
    (hes : ∀ e ∈ es, ∃ edge, edges.cell e = some edge) (v : ℕ) : Returns (do
      let r ← dynarrFirst d Buffer.indeterminate
      findEdgeLoop edges v (dynarrCount d + 1) r) fun s =>
        (∃ iter, s.2 = { d with iter }) ∧ match s.1 with
          | none => ∀ e ∈ es, ∀ edge, edges.cell e = some edge → edge.to_ ≠ v
          | some e => e ∈ es ∧ ∃ edge, edges.cell e = some edge ∧ edge.to_ = v := by
  obtain ⟨k, hk, hnext⟩ := Dynarr.next_spec hd 0 Buffer.indeterminate
  have hfirst : dynarrFirst d Buffer.indeterminate = .ok (_, _) := hk
  rw [hfirst, ok_bind]
  -- before the turn `i` the edge at `i` has been stored, if there is one
  refine Returns.loop_ghost (fun i (s : Option (Option ℕ) × Dynarr ℕ) => s.1 = (es.map some)[i]? ∧
      (∃ k, s.2 = { d with iter := some k } ∧ (i < (es.map some).length → k = i + 1)) ∧
      ∀ e ∈ es.take i, ∀ edge, edges.cell e = some edge → edge.to_ ≠ v)
    (fun i => es.length - i) _ ?_ ⟨rfl, ⟨k, rfl, hnext⟩, by simp⟩
    (by rw [dynarrCount, hd.used, List.length_map]; omega)
  rintro i ⟨x, d'⟩ ⟨(rfl : x = _), ⟨k, (rfl : d' = _), hk⟩, hbefore⟩
  by_cases hi : i < es.length
  · have hi' : i < (es.map some).length := by rwa [List.length_map]
    obtain ⟨edge, hedge⟩ := hes _ (List.getElem_mem hi)
    obtain rfl := hk hi'
    rw [List.getElem?_eq_getElem hi', List.getElem_map]
    simp only [deref_some, Memory.load_of_cell hedge, ok_bind]
    refine .ite (fun hto => .ok ⟨⟨_, rfl⟩, List.getElem_mem hi, edge, hedge, hto⟩) fun hto => ?_
    obtain ⟨k, hk, hnext⟩ := Dynarr.next_spec hd (i + 1) Buffer.indeterminate
    rw [hk, ok_bind]
    refine .ok ⟨i + 1, ⟨rfl, ⟨k, rfl, hnext⟩, fun e he => ?_⟩, by omega⟩
    rw [List.take_succ_eq_append_getElem hi, List.mem_append, List.mem_singleton] at he
    rcases he with he | rfl
    · exact hbefore e he
    · intro edge' hedge'
      rwa [← Option.some.inj (hedge.symm.trans hedge')]
  · rw [List.getElem?_eq_none (by rw [List.length_map]; omega)]
    rw [List.take_of_length_le (by omega)] at hbefore
    exact .ok ⟨⟨_, rfl⟩, hbefore⟩

/-- **`find_edge`** where the array has been made: an edge from `u` to `v`, if there is one. -/
theorem findEdge_spec (h : g.Represents M) {node : Node} (hn : g.nodes.cell u = some node)
    (hout : node.out ≠ none) (v : ℕ) : Returns (findEdge g u v) fun r => r.2.Represents M ∧
      match r.1 with
      | none => ∀ e, ¬ g.LiveEdge u v e
      | some e => g.LiveEdge u v e := by
  obtain ⟨d, hd⟩ := Option.ne_none_iff_exists'.1 hout
  have hlist := (h.out u node hn).list
  have houts : g.outs u = edgesOf node.out := by simp [Graph.outs, hn]
  rw [← houts, hd] at hlist
  have hload (e : ℕ) (he : e ∈ g.outs u) :
      ∃ edge, g.edges.cell e = some edge ∧ edge.to_ = g.target e := by
    obtain ⟨edge, hedge, hto, -⟩ := h.edge_of_mem he
    exact ⟨edge, hedge, hto⟩
  obtain ⟨⟨x, d'⟩, hs, ⟨iter, rfl⟩, hfound⟩ :=
    findEdgeLoop_spec hlist (fun e he => (hload e he).imp fun _ h => h.1) v
  obtain ⟨r, hr, hloop⟩ := bind_eq_ok.1 hs
  simp only [findEdge, Memory.load_of_cell hn, hd, ok_bind, hr, hloop, Memory.store_of_cell hn]
  refine .ok ⟨h.moveIter hn hd iter, ?_⟩
  cases x with
  | none =>
    rintro e ⟨he, -, tag, hedge⟩
    exact hfound e he _ hedge rfl
  | some e =>
    obtain ⟨he, edge, hedge, hto⟩ := hfound
    obtain ⟨edge', hedge', hto'⟩ := hload e he
    rw [← hto, Option.some.inj (hedge.symm.trans hedge'), hto']
    exact h.liveEdge_of_mem he

theorem findEdge_unmade {node : Node} (hn : g.nodes.cell u = some node) (hout : node.out = none)
    (v : ℕ) : findEdge g u v = .error .nullDeref := by
  rw [findEdge, Memory.load_of_cell hn, ok_bind, hout]

/-! ## Unlinking -/

namespace Graph.Represents

theorem made_of_liveEdge (h : g.Represents M) (he : g.LiveEdge u v e) {node : Node}
    (hn : g.nodes.cell u = some node) : node.out ≠ none :=
  (h.out u node hn).made ⟨_, List.mem_of_getElem? (h.liveEdge_iff.1 he), rfl⟩

theorem unlink (h : g.Represents M) (he : g.LiveEdge u v e) :
    Returns (unlinkNode Buffer.ample g u v) fun g' =>
      ∃ e, g.LiveEdge u v e ∧ g'.Represents (M.drop e) := by
  have harc := h.liveEdge_iff.1 he
  obtain ⟨node, hn⟩ := h.node u (h.closed _ (List.mem_of_getElem? harc)).1
  apply (findEdge_spec h hn (h.made_of_liveEdge he hn) v).bind
  rintro ⟨x, g₁⟩ ⟨h₁, hfound⟩
  cases x with
  | none => exact absurd he (hfound e)
  | some e' =>
    have harc' := h.liveEdge_iff.1 hfound
    apply (h₁.drop (List.getElem?_eq_some_iff.1 harc').1).mono
    intro g' h'
    exact ⟨e', hfound, h'⟩

/-- `unlink_node` of nodes that no edge joins dereferences the null pointer that `find_edge` returns,
if it comes so far. -/
theorem not_unlink (h : g.Represents M) (hu : u < M.order) (hnone : ∀ e, ¬ g.LiveEdge u v e) :
    unlinkNode Buffer.ample g u v = .error .nullDeref := by
  obtain ⟨node, hn⟩ := h.node u hu
  by_cases hout : node.out = none
  · rw [unlinkNode, findEdge_unmade hn hout, error_bind]
  · obtain ⟨⟨x, g₁⟩, hfind, -, hfound⟩ := findEdge_spec h hn hout v
    cases x with
    | none => rw [unlinkNode, hfind]; rfl
    | some e => exact absurd hfound (hnone e)

end Graph.Represents

/-! ## Runs -/

/-- The calls on a graph, with those that find and unlink edges. -/
inductive EdgeCall
  | op (op : GraphOp)
  | find (from_ to_ : ℕ)
  | unlink (from_ to_ : ℕ)

/-- What a call returns. -/
inductive EdgeAnswer
  | op (o : GraphOut)
  | found (e : Ptr)

/-- A call on the graph, with allocations succeeding. -/
def edgeCall (g : Graph) : EdgeCall → Exec (EdgeAnswer × Graph)
  | .op op => do
    let (o, g) ← graphStep g op
    .ok (.op o, g)
  | .find from_ to_ => do
    let (e, g) ← findEdge g from_ to_
    .ok (.found e, g)
  | .unlink from_ to_ => do
    let g ← unlinkNode Buffer.ample g from_ to_
    .ok (.op .unit, g)

/-- The call is about nodes and edges that have been allocated. -/
def Graph.Allocated (g : Graph) : EdgeCall → Prop
  | .op .alloc => True
  | .op (.link from_ to_) => from_ < g.nodes.brk ∧ to_ < g.nodes.brk
  | .op (.drop e) => e < g.edges.brk
  | .op (.traverse n _ _) => n < g.nodes.brk
  | .find from_ to_ => from_ < g.nodes.brk ∧ to_ < g.nodes.brk
  | .unlink from_ to_ => from_ < g.nodes.brk ∧ to_ < g.nodes.brk

theorem edgeCall_represents (h : g.Represents M) {call : EdgeCall} (hcall : g.Allocated call) :
    Ends (edgeCall g call) (fun r => ∃ M', r.2.Represents M') fun _ => True := by
  cases call with
  | op op =>
    have hpre : M.Pre op := by
      cases op with
      | alloc => trivial
      | drop e => exact lt_of_lt_of_eq hcall h.size
      | link from_ to_ => exact ⟨h.order ▸ hcall.1, h.order ▸ hcall.2⟩
      | traverse n travtype rands => exact lt_of_lt_of_eq hcall h.order
    apply ((graphStep_represents g M op hpre h).fault_mono fun _ _ => trivial).bind
    intro r ⟨_, hr⟩
    exact ⟨_, hr⟩
  | find from_ to_ =>
    obtain ⟨node, hn⟩ := h.node from_ (h.order ▸ hcall.1)
    by_cases hout : node.out = none
    · rw [edgeCall, findEdge_unmade hn hout, error_bind]
      trivial
    · apply ((findEdge_spec h hn hout to_).ends _).bind
      intro r ⟨hr, _⟩
      exact ⟨M, hr⟩
  | unlink from_ to_ =>
    by_cases hlive : ∃ e, g.LiveEdge from_ to_ e
    · obtain ⟨e, he⟩ := hlive
      apply ((h.unlink he).ends _).bind
      intro g' ⟨e', _, h'⟩
      exact ⟨_, h'⟩
    · rw [edgeCall, h.not_unlink (h.order ▸ hcall.1) (not_exists.1 hlive), error_bind]
      trivial

theorem exists_represents {calls : List EdgeCall} {os : List EdgeAnswer}
    (hcalls : Meets edgeCall Graph.Allocated Graph.empty calls)
    (hrun : runs edgeCall Graph.empty calls = .ok (os, g)) : ∃ M, g.Represents M := by
  have hthrough := Throughout.of_meets (E := fun _ => True) (fun g : Graph => ∃ M, g.Represents M)
    (fun _ => id) (fun g call ⟨M, h⟩ hcall => edgeCall_represents h hcall)
    ⟨_, Graph.Represents.empty⟩ hcalls
  exact hthrough.of_runs hrun

/-- `find_edge` returns an edge from `u` to `v` if there is one, and else the null pointer. -/
def Graph.Finds (g : Graph) (u v : ℕ) : Prop :=
  Returns (findEdge g u v) fun r => ((∃ e, g.LiveEdge u v e) → ∃ e, r.1 = some e ∧ g.LiveEdge u v e) ∧
    ((∀ e, ¬ g.LiveEdge u v e) → r.1 = none)

/-- `unlink_node` takes one edge from `u` to `v` from the lists if there is one, and else leaves the
graph as it is. -/
def Graph.Unlinks (g : Graph) (u v : ℕ) : Prop :=
  Returns (unlinkNode Buffer.ample g u v) fun g' =>
    ((∃ e, g.LiveEdge u v e) → ∃ e, g.LiveEdge u v e ∧ g.Without e g') ∧
    ((∀ e, ¬ g.LiveEdge u v e) → g' = g)

/-- The array `out` of the node `u` has been made. -/
def Graph.Made (g : Graph) (u : ℕ) : Prop := ∃ node, g.nodes.cell u = some node ∧ node.out ≠ none

/-- **When edges are found and unlinked.** In every graph that calls lead to, for all nodes `u`
and `v`, `find_edge` finds an edge from `u` to `v`, or says that there is none, if and only if the
array of the edges that leave `u` has been made, and `unlink_node` takes an edge from `u` to `v` out
of the lists of both, or changes nothing, if and only if there is such an edge. -/
theorem graph_edges_found_iff {calls : List EdgeCall} {os : List EdgeAnswer}
    (hcalls : Meets edgeCall Graph.Allocated Graph.empty calls)
    (hrun : runs edgeCall Graph.empty calls = .ok (os, g)) (hu : u < g.nodes.brk) :
    (g.Finds u v ↔ g.Made u) ∧ (g.Unlinks u v ↔ ∃ e, g.LiveEdge u v e) := by
  obtain ⟨M, h⟩ := exists_represents hcalls hrun
  rw [h.order] at hu
  obtain ⟨node, hn⟩ := h.node u hu
  refine ⟨⟨fun hfinds => ⟨node, hn, fun hout => ?_⟩, fun ⟨node', hn', hout⟩ => ?_⟩,
    fun hunlinks => ?_, fun ⟨e, he⟩ => ?_⟩
  · rw [Graph.Finds, findEdge_unmade hn hout] at hfinds
    exact not_returns_error hfinds
  · apply (findEdge_spec h hn' hout v).mono
    rintro ⟨x, g'⟩ ⟨-, hfound⟩
    cases x with
    | none => exact ⟨fun ⟨e, he⟩ => absurd he (hfound e), fun _ => rfl⟩
    | some e => exact ⟨fun _ => ⟨e, rfl, hfound⟩, fun hnone => absurd hfound (hnone e)⟩
  · by_contra hnone
    rw [Graph.Unlinks, h.not_unlink hu (not_exists.1 hnone)] at hunlinks
    exact not_returns_error hunlinks
  · apply (h.unlink he).mono
    intro g' ⟨e', he', h'⟩
    refine ⟨fun _ => ⟨e', he', fun n e'' => ?_⟩, fun hnone => absurd he (hnone e)⟩
    rw [(h'.outs_spec n).2, (h'.ins_spec n).2, (h.outs_spec n).2, (h.ins_spec n).2]
    exact ⟨Incident.liveAt_drop .., Incident.liveAt_drop ..⟩

/-- Two nodes that an edge joins. -/
theorem graph_edges_found_pair :
    ∃ (os : List EdgeAnswer) (g : Graph), runs edgeCall Graph.empty
        [.op .alloc, .op .alloc, .op (.link 0 1)] = .ok (os, g) ∧ g.Finds 0 1 ∧ g.Unlinks 0 1 := by
  have hrun : runs edgeCall Graph.empty [.op .alloc, .op .alloc, .op (.link 0 1)] = .ok (_, _) := rfl
  have hcalls : Meets edgeCall Graph.Allocated Graph.empty
      [.op .alloc, .op .alloc, .op (.link 0 1)] := ⟨trivial, trivial, ⟨by decide, by decide⟩, trivial⟩
  have hiff := graph_edges_found_iff (u := 0) (v := 1) hcalls hrun (by decide)
  exact ⟨_, _, hrun, hiff.1.2 ⟨_, rfl, by simp⟩,
    hiff.2.2 ⟨0, List.mem_singleton.2 rfl, List.mem_singleton.2 rfl, 0, rfl⟩⟩

/-- No edge has ever left the node 0; or one has, and is unlinked twice. -/
theorem not_finds_of_unmade :
    (∃ (os : List EdgeAnswer) (g : Graph), runs edgeCall Graph.empty [.op .alloc, .op .alloc] =
        .ok (os, g) ∧ ¬ g.Finds 0 1) ∧
      ∃ (os : List EdgeAnswer) (g : Graph), runs edgeCall Graph.empty
          [.op .alloc, .op .alloc, .op (.link 0 1), .unlink 0 1] = .ok (os, g) ∧
        g.Finds 0 1 ∧ ¬ g.Unlinks 0 1 := by
  constructor
  · refine ⟨_, _, rfl, ?_⟩
    rintro ⟨r, hr, -⟩
    cases hr
  · obtain ⟨os, g, hrun, houts, ⟨g', hfind⟩, hunlink⟩ : ∃ os g, runs edgeCall Graph.empty
        [.op .alloc, .op .alloc, .op (.link 0 1), .unlink 0 1] = .ok (os, g) ∧ g.outs 0 = [] ∧
        (∃ g', findEdge g 0 1 = .ok (none, g')) ∧
        unlinkNode Buffer.ample g 0 1 = .error .nullDeref :=
      ⟨_, _, rfl, rfl, ⟨_, rfl⟩, rfl⟩
    refine ⟨os, g, hrun, ⟨_, hfind, fun ⟨e, he, _⟩ => ?_, fun _ => rfl⟩, ?_⟩
    · rw [houts] at he
      cases he
    · rw [Graph.Unlinks, hunlink]
      exact not_returns_error

end LibSrsBsns
