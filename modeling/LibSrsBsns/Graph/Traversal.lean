import LibSrsBsns.Graph.Adjacency
import LibSrsBsns.Deque.Sequence
import Mathlib.Logic.Relation

/-!
# Traversals of a graph

A traversal only ever changes tags, to its own tag (`Retag`). Whatever the tags it finds, it ends,
since it marks a node or an edge that is not marked in each step that makes more work. Every node
that it marks has all its outgoing edges marked in the end, and every edge that it marks the node
that it leads to (`Sweeps`). So a traversal visits all that can be reached from its start node if
nothing there carries its tag from before (`Sweeps.visits`).
-/

namespace LibSrsBsns

open C

/-! ## Tags -/

namespace Graph

variable (g : Graph)

/-- The tag of a node. -/
def nodeTag (n : ℕ) : ℕ :=
  match g.nodes.cell n with
  | some node => node.travtag
  | none => 0

/-- The tag of an edge. -/
def edgeTag (e : ℕ) : ℕ :=
  match g.edges.cell e with
  | some edge => edge.travtag
  | none => 0

/-- The node that an edge leads to. -/
def target (e : ℕ) : ℕ :=
  match g.edges.cell e with
  | some edge => edge.to_
  | none => 0

/-- An edge leads from `u` to `v`. -/
def Step (u v : ℕ) : Prop := ∃ e ∈ g.outs u, g.target e = v

/-- The node `v` can be reached from `u`. -/
def Reach : ℕ → ℕ → Prop := Relation.ReflTransGen g.Step

variable {g}

theorem nodeTag_of_cell {n : ℕ} {node : Node} (h : g.nodes.cell n = some node) :
    g.nodeTag n = node.travtag := by
  rw [nodeTag, h]

theorem nodeTag_congr {g' : Graph} (h : g'.nodes = g.nodes) : g'.nodeTag = g.nodeTag := by
  funext n
  rw [nodeTag, nodeTag, h]

theorem edgeTag_congr {g' : Graph} (h : g'.edges = g.edges) : g'.edgeTag = g.edgeTag := by
  funext e
  rw [edgeTag, edgeTag, h]

end Graph

/-- The graph `g'` is `g` with some of the tags changed to `tag`. -/
structure Retag (tag : ℕ) (g g' : Graph) : Prop where
  nodesBrk : g'.nodes.brk = g.nodes.brk
  edgesBrk : g'.edges.brk = g.edges.brk
  node : ∀ n, g'.nodes.cell n = g.nodes.cell n ∨
    ∃ node, g.nodes.cell n = some node ∧ g'.nodes.cell n = some { node with travtag := tag }
  edge : ∀ e, g'.edges.cell e = g.edges.cell e ∨
    ∃ edge, g.edges.cell e = some edge ∧ g'.edges.cell e = some { edge with travtag := tag }

namespace Retag

variable {tag : ℕ} {g g' g'' : Graph} {n e : ℕ}

theorem refl (g : Graph) : Retag tag g g := ⟨rfl, rfl, fun _ => .inl rfl, fun _ => .inl rfl⟩

theorem trans (h : Retag tag g g') (h' : Retag tag g' g'') : Retag tag g g'' := by
  refine ⟨h'.nodesBrk.trans h.nodesBrk, h'.edgesBrk.trans h.edgesBrk, fun n => ?_, fun e => ?_⟩
  · rcases h'.node n with hn' | ⟨node', hn', hset'⟩ <;> rcases h.node n with hn | ⟨node, hn, hset⟩
    · exact .inl (hn'.trans hn)
    · exact .inr ⟨node, hn, hn'.trans hset⟩
    · exact .inr ⟨node', hn ▸ hn', hset'⟩
    · obtain rfl := Option.some.inj (hset.symm.trans hn')
      exact .inr ⟨node, hn, hset'⟩
  · rcases h'.edge e with he' | ⟨edge', he', hset'⟩ <;> rcases h.edge e with he | ⟨edge, he, hset⟩
    · exact .inl (he'.trans he)
    · exact .inr ⟨edge, he, he'.trans hset⟩
    · exact .inr ⟨edge', he ▸ he', hset'⟩
    · obtain rfl := Option.some.inj (hset.symm.trans he')
      exact .inr ⟨edge, he, hset'⟩

theorem outs (h : Retag tag g g') (n : ℕ) : g'.outs n = g.outs n := by
  unfold Graph.outs
  rcases h.node n with hn | ⟨node, hn, hset⟩
  · rw [hn]
  · rw [hn, hset]

theorem target (h : Retag tag g g') (e : ℕ) : g'.target e = g.target e := by
  unfold Graph.target
  rcases h.edge e with he | ⟨edge, he, hset⟩
  · rw [he]
  · rw [he, hset]

theorem nodeTag_eq (h : Retag tag g g') (n : ℕ) :
    g'.nodeTag n = g.nodeTag n ∨ g'.nodeTag n = tag := by
  unfold Graph.nodeTag
  rcases h.node n with hn | ⟨node, hn, hset⟩
  · rw [hn]
    exact .inl rfl
  · rw [hset]
    exact .inr rfl

theorem edgeTag_eq (h : Retag tag g g') (e : ℕ) :
    g'.edgeTag e = g.edgeTag e ∨ g'.edgeTag e = tag := by
  unfold Graph.edgeTag
  rcases h.edge e with he | ⟨edge, he, hset⟩
  · rw [he]
    exact .inl rfl
  · rw [hset]
    exact .inr rfl

/-- A node that has the tag keeps it. -/
theorem nodeTag (h : Retag tag g g') (hn : g.nodeTag n = tag) : g'.nodeTag n = tag :=
  (h.nodeTag_eq n).elim (·.trans hn) id

/-- An edge that has the tag keeps it. -/
theorem edgeTag (h : Retag tag g g') (he : g.edgeTag e = tag) : g'.edgeTag e = tag :=
  (h.edgeTag_eq e).elim (·.trans he) id

/-- What is represented does not depend on tags. -/
theorem represents {M : Multigraph} (h : Retag tag g g') (hg : g.Represents M) :
    g'.Represents M := by
  refine ⟨hg.closed, h.nodesBrk.trans hg.order, fun n hn => ?_, h.edgesBrk.trans hg.size,
    fun e arc he => ?_, fun n node' hn => ?_, fun n node' hn => ?_⟩
  · obtain ⟨node, hnode⟩ := hg.node n hn
    rcases h.node n with hn' | ⟨node', -, hset⟩
    · exact ⟨node, hn'.trans hnode⟩
    · exact ⟨_, hset⟩
  · obtain ⟨old, hedge⟩ := hg.edge e arc he
    rcases h.edge e with he' | ⟨edge', he', hset⟩
    · exact ⟨old, he'.trans hedge⟩
    · obtain rfl := Option.some.inj (hedge.symm.trans he')
      exact ⟨tag, hset⟩
  · rcases h.node n with hn' | ⟨node, hnode, hset⟩
    · exact hg.out n node' (hn' ▸ hn)
    · obtain rfl := Option.some.inj (hset.symm.trans hn)
      exact hg.out n node hnode
  · rcases h.node n with hn' | ⟨node, hnode, hset⟩
    · exact hg.in_ n node' (hn' ▸ hn)
    · obtain rfl := Option.some.inj (hset.symm.trans hn)
      exact hg.in_ n node hnode

end Retag

/-- How many of the first `k` do not have the tag. -/
def unmarked (k : ℕ) (f : ℕ → ℕ) (tag : ℕ) : ℕ := ((Finset.range k).filter (f · ≠ tag)).card

section

variable {k a tag : ℕ} {f f' : ℕ → ℕ}

theorem unmarked_le_self (k : ℕ) (f : ℕ → ℕ) (tag : ℕ) : unmarked k f tag ≤ k := by
  simpa [unmarked] using Finset.card_filter_le (Finset.range k) (f · ≠ tag)

theorem unmarked_le (h : ∀ a, f a = tag → f' a = tag) : unmarked k f' tag ≤ unmarked k f tag :=
  Finset.card_le_card (Finset.monotone_filter_right _ fun a _ ha => mt (h a) ha)

theorem unmarked_lt (h : ∀ a, f a = tag → f' a = tag) (ha : a < k) (hf : f a ≠ tag)
    (hf' : f' a = tag) : unmarked k f' tag < unmarked k f tag := by
  refine Finset.card_lt_card ⟨Finset.monotone_filter_right _ fun a _ ha => mt (h a) ha, ?_⟩
  intro hsub
  have hmem := hsub (Finset.mem_filter.2 ⟨Finset.mem_range.2 ha, hf⟩)
  exact (Finset.mem_filter.1 hmem).2 hf'

end

/-! ## Single steps -/

namespace Graph.Represents

variable {g : Graph} {M : Multigraph} {n e tag : ℕ}

/-- An edge in a list leads to a node. -/
theorem edge_of_mem (h : g.Represents M) (he : e ∈ g.outs n) :
    ∃ edge, g.edges.cell e = some edge ∧ edge.to_ = g.target e ∧ edge.travtag = g.edgeTag e ∧
      e < g.edges.brk ∧ g.target e < M.order := by
  obtain ⟨arc, harc, -, -⟩ := ((h.outs_spec n).2 e).1 he
  obtain ⟨old, hedge⟩ := h.edge e arc harc
  have hdst := (h.closed arc (List.mem_of_getElem? harc)).2
  refine ⟨_, hedge, ?_, ?_, Memory.lt_brk hedge, ?_⟩ <;> simp [target, edgeTag, hedge, hdst]

theorem tagNode_spec (h : g.Represents M) (hn : n < M.order) (tag : ℕ) :
    Returns (g.tagNode n tag) fun g' => Retag tag g g' ∧ g'.nodeTag n = tag ∧
      (∀ m, m ≠ n → g'.nodeTag m = g.nodeTag m) ∧ g'.edges = g.edges := by
  obtain ⟨node, hnode⟩ := h.node n hn
  rw [tagNode, Memory.modify_of_cell hnode, ok_bind]
  refine .ok ⟨⟨Memory.put_brk hnode, rfl, fun m => ?_, fun _ => .inl rfl⟩, ?_, fun m hm => ?_, rfl⟩
  · by_cases hm : m = n
    · subst hm
      exact .inr ⟨node, hnode, Memory.put_cell_self⟩
    · exact .inl (Memory.put_cell_of_ne hm)
  · simp [nodeTag]
  · simp [nodeTag, hm]

theorem tagEdge_spec (h : g.Represents M) (he : e ∈ g.outs n) (tag : ℕ) :
    Returns (g.tagEdge e tag) fun g' => Retag tag g g' ∧ g'.edgeTag e = tag ∧
      (∀ e', e' ≠ e → g'.edgeTag e' = g.edgeTag e') ∧ g'.nodes = g.nodes := by
  obtain ⟨edge, hedge, -⟩ := h.edge_of_mem he
  rw [tagEdge, Memory.modify_of_cell hedge, ok_bind]
  refine .ok ⟨⟨rfl, Memory.put_brk hedge, fun _ => .inl rfl, fun e' => ?_⟩, ?_, fun e' he' => ?_, rfl⟩
  · by_cases he' : e' = e
    · subst he'
      exact .inr ⟨edge, hedge, Memory.put_cell_self⟩
    · exact .inl (Memory.put_cell_of_ne he')
  · simp [edgeTag]
  · simp [edgeTag, he']

/-- The edge at an index of the array `out`. -/
theorem outEdge_spec (h : g.Represents M) (hn : n < M.order) {i : ℕ} (hi : i < (g.outs n).length) :
    g.outEdge Buffer.ample n i = .ok ((g.outs n)[i], g) := by
  obtain ⟨node, hnode⟩ := h.node n hn
  have hlist := (h.out n node hnode).list
  have houts : g.outs n = edgesOf node.out := by simp [outs, hnode]
  simp only [houts] at hi ⊢
  obtain ⟨in_, out, travtag⟩ := node
  cases out with
  | none => simp [edgesOf] at hi
  | some d =>
    have hd : d.Lists ((edgesOf (some d)).map some) := hlist
    simp only [outEdge, Memory.load_of_cell hnode, ok_bind]
    rw [Dynarr.get_spec hd (by simpa using hi), ok_bind, Memory.store_of_cell hnode,
      Memory.put_self hnode]
    simp

end Graph.Represents

/-! ## What a traversal sweeps -/

/-- Of the nodes that were marked on the way from `g` to `g'` all outgoing edges are marked, and of
the edges that were marked the nodes that they lead to. -/
structure Closes (tag : ℕ) (g g' : Graph) : Prop where
  node : ∀ n, g.nodeTag n ≠ tag → g'.nodeTag n = tag → ∀ e ∈ g.outs n, g'.edgeTag e = tag
  edge : ∀ e, g.edgeTag e ≠ tag → g'.edgeTag e = tag → g'.nodeTag (g.target e) = tag

/-- The traversal that takes `g` to `g'` has marked its start node and all that it had to visit. -/
structure Sweeps (tag start : ℕ) (g g' : Graph) : Prop where
  retag : Retag tag g g'
  start : g'.nodeTag start = tag
  closes : Closes tag g g'

/-- Nothing that can be reached from `start` carries the tag. -/
def Graph.Fresh (g : Graph) (start tag : ℕ) : Prop :=
  ∀ n, g.Reach start n → g.nodeTag n ≠ tag ∧ ∀ e ∈ g.outs n, g.edgeTag e ≠ tag

/-- Everything that can be reached from `start` carries the tag afterwards. -/
def Graph.Visited (g : Graph) (start tag : ℕ) (g' : Graph) : Prop :=
  ∀ n, g.Reach start n → g'.nodeTag n = tag ∧ ∀ e ∈ g.outs n, g'.edgeTag e = tag

/-- With a fresh tag, a traversal visits everything that can be reached. -/
theorem Sweeps.visits {tag start : ℕ} {g g' : Graph} (h : Sweeps tag start g g')
    (hfresh : g.Fresh start tag) : g.Visited start tag g' := by
  have hnode : ∀ n, g.Reach start n → g'.nodeTag n = tag := by
    intro n hn
    induction hn with
    | refl => exact h.start
    | tail hm hstep ih =>
      obtain ⟨e, he, rfl⟩ := hstep
      have hmarked := h.closes.node _ (hfresh _ hm).1 ih e he
      exact h.closes.edge e ((hfresh _ hm).2 e he) hmarked
  intro n hn
  exact ⟨hnode n hn, h.closes.node n (hfresh n hn).1 (hnode n hn)⟩

namespace Closes

variable {tag : ℕ} {g g' g'' : Graph}

theorem refl (g : Graph) : Closes tag g g :=
  ⟨fun _ h h' => absurd h' h, fun _ h h' => absurd h' h⟩

theorem trans (h : Closes tag g g') (hr : Retag tag g g') (h' : Closes tag g' g'')
    (hr' : Retag tag g' g'') : Closes tag g g'' := by
  constructor
  · intro n hn hn'' e he
    by_cases hn' : g'.nodeTag n = tag
    · exact hr'.edgeTag (h.node n hn hn' e he)
    · exact h'.node n hn' hn'' e (hr.outs n ▸ he)
  · intro e he he''
    by_cases he' : g'.edgeTag e = tag
    · exact hr'.nodeTag (h.edge e he he')
    · exact hr.target e ▸ h'.edge e he' he''

end Closes

/-! ## Depth first -/

section

variable {M : Multigraph} {tag : ℕ}

theorem meetEdge_spec {t : Trav} {n e : ℕ} (h : t.graph.Represents M) (he : e ∈ t.graph.outs n) :
    Returns (t.meetEdge e tag) fun t' => Retag tag t.graph t'.graph ∧ t'.graph.edgeTag e = tag ∧
      (∀ e', e' ≠ e → t'.graph.edgeTag e' = t.graph.edgeTag e') ∧ t'.graph.nodes = t.graph.nodes := by
  obtain ⟨edge, hedge, -, htag, -⟩ := h.edge_of_mem he
  rw [Trav.meetEdge, Memory.load_of_cell hedge, ok_bind, htag]
  refine .ite (fun _ => ?_) fun hmarked => .ok ⟨.refl _, by simpa using hmarked, fun _ _ => rfl, rfl⟩
  apply (h.tagEdge_spec he tag).bind
  intro g' hg'
  exact .ok hg'

/-- One turn of the loop of `trav_dfs_r`, where the calls that it makes sweep what they have to. -/
theorem dfsEdge_spec {descend : ℕ → Trav → Exec Trav} {k : ℕ}
    (hdescend : ∀ m t, t.graph.Represents M → m < M.order →
      unmarked M.order t.graph.nodeTag tag < k →
        Returns (descend m t) fun t' => Sweeps tag m t.graph t'.graph)
    {t : Trav} {n i : ℕ} (h : t.graph.Represents M) (hn : n < M.order)
    (hi : i < (t.graph.outs n).length) (hk : unmarked M.order t.graph.nodeTag tag < k) :
    Returns (dfsEdge Buffer.ample tag n descend i t) fun t' =>
      Retag tag t.graph t'.graph ∧ Closes tag t.graph t'.graph ∧
        t'.graph.edgeTag (t.graph.outs n)[i] = tag := by
  have hmem := List.getElem_mem hi
  rw [dfsEdge, h.outEdge_spec hn hi, ok_bind]
  generalize (t.graph.outs n)[i] = e at hmem
  apply (meetEdge_spec (t := ⟨t.graph, t.log⟩) h hmem).bind
  intro t₁ ⟨hr, hmark, hother, hnodes⟩
  have h₁ := hr.represents h
  have htags : t₁.graph.nodeTag = t.graph.nodeTag := Graph.nodeTag_congr hnodes
  obtain ⟨edge, hedge, hto, -, -, hdst⟩ := h₁.edge_of_mem (hr.outs n ▸ hmem)
  rw [Memory.load_of_cell hedge, ok_bind, hto]
  apply (hdescend _ ⟨t₁.graph, t₁.log ++ [Visit.node n]⟩ h₁ hdst (by rwa [htags])).mono
  intro t₂ hsweeps
  have hr₂ := hsweeps.retag
  refine ⟨hr.trans hr₂, ⟨fun m hm hm' e' he' => ?_, fun e' he' he'' => ?_⟩, hr₂.edgeTag hmark⟩
  · exact hsweeps.closes.node m (by rwa [htags]) hm' e' (hr.outs m ▸ he')
  · -- the edge `e` is marked here, the others further down
    rw [← hr.target e']
    by_cases hee : e' = e
    · exact hee ▸ hsweeps.start
    · exact hsweeps.closes.edge e' (hother e' hee ▸ he') he''

/-- `trav_dfs_r` ends if there are fewer nodes to mark than the recursion may be deep. -/
theorem travDfsR_spec (depth n : ℕ) (t : Trav) (h : t.graph.Represents M) (hn : n < M.order)
    (hdepth : unmarked M.order t.graph.nodeTag tag < depth) :
    Returns (travDfsR Buffer.ample tag depth n t) fun t' => Sweeps tag n t.graph t'.graph := by
  induction depth generalizing n t with
  | zero => omega
  | succ depth ih =>
    obtain ⟨node, hnode⟩ := h.node n hn
    have htag : t.graph.nodeTag n = node.travtag := Graph.nodeTag_of_cell hnode
    rw [travDfsR, Memory.load_of_cell hnode, ok_bind]
    refine .ite (fun hmarked => .ok ⟨.refl _, htag.trans hmarked, .refl _⟩) fun hunmarked => ?_
    apply (h.tagNode_spec hn tag).bind
    intro g₁ ⟨hr₁, hstart, hother, hedges⟩
    have h₁ := hr₁.represents h
    have hlt : unmarked M.order g₁.nodeTag tag < unmarked M.order t.graph.nodeTag tag :=
      unmarked_lt (fun _ => hr₁.nodeTag) hn (htag ▸ hunmarked) hstart
    rw [h₁.fanOut hn, ok_bind]
    -- after `i` turns the first `i` edges of `n` are marked
    apply (Returns.forRange (fun i t' => Retag tag g₁ t'.graph ∧ Closes tag g₁ t'.graph ∧
      ∀ e ∈ (g₁.outs n).take i, t'.graph.edgeTag e = tag) ?_ ⟨.refl _, .refl _, by simp⟩).mono
    · intro t' ⟨hr, hc, hmarked⟩
      rw [Nat.zero_add, List.take_length] at hmarked
      have htags : g₁.edgeTag = t.graph.edgeTag := Graph.edgeTag_congr hedges
      refine ⟨hr₁.trans hr, hr.nodeTag hstart, fun m hm hm' e he => ?_, fun e he he' => ?_⟩
      · rw [← hr₁.outs m] at he
        by_cases hmn : m = n
        · exact hmarked e (hmn ▸ he)
        · exact hc.node m (hother m hmn ▸ hm) hm' e he
      · exact hr₁.target e ▸ hc.edge e (htags ▸ he) he'
    · intro i t' _ hi ⟨hr, hc, hmarked⟩
      have ht' := hr.represents h₁
      have houts := hr.outs n
      have hi' : i < (g₁.outs n).length := by omega
      have hle : unmarked M.order t'.graph.nodeTag tag ≤ unmarked M.order g₁.nodeTag tag :=
        unmarked_le fun _ => hr.nodeTag
      apply (dfsEdge_spec ih ht' hn (by rwa [houts]) (by omega)).mono
      intro t'' ⟨hr', hc', hmark⟩
      refine ⟨hr.trans hr', hc.trans hr hc' hr', fun e he => ?_⟩
      rw [List.take_succ_eq_append_getElem hi', List.mem_append, List.mem_singleton] at he
      rcases he with he | rfl
      · exact hr'.edgeTag (hmarked e he)
      · simpa only [houts] using hmark

/-! ## By a work list -/

/-- The traversal by a work list has got from `g₀` to `g`. The nodes of the list `work` are to be
visited, and the edges of the list `pend` to be looked at. -/
structure Sweeping (M : Multigraph) (tag start : ℕ) (g₀ g : Graph) (work pend : List ℕ) : Prop where
  retag : Retag tag g₀ g
  valid : ∀ n ∈ work, n < M.order
  start : g.nodeTag start = tag ∨ start ∈ work
  node : ∀ n, g₀.nodeTag n ≠ tag → g.nodeTag n = tag → ∀ e ∈ g₀.outs n,
    g.edgeTag e = tag ∨ e ∈ pend
  edge : ∀ e, g₀.edgeTag e ≠ tag → g.edgeTag e = tag →
    g.nodeTag (g₀.target e) = tag ∨ g₀.target e ∈ work

namespace Sweeping

variable {start n e : ℕ} {g₀ g g' : Graph} {work work' pend : List ℕ}

theorem init (g : Graph) (hstart : start < M.order) : Sweeping M tag start g g [start] [] where
  retag := .refl g
  valid := by simpa using hstart
  start := .inr (by simp)
  node _ h h' := absurd h' h
  edge _ h h' := absurd h' h

/-- With nothing left to do, the traversal is finished. -/
theorem sweeps (h : Sweeping M tag start g₀ g [] []) : Sweeps tag start g₀ g where
  retag := h.retag
  start := h.start.resolve_right (by simp)
  closes := ⟨fun n hn hn' e he => (h.node n hn hn' e he).resolve_right (by simp),
    fun e he he' => (h.edge e he he').resolve_right (by simp)⟩

/-- A node of the work list is marked already. -/
theorem skip (h : Sweeping M tag start g₀ g (n :: work) []) (hn : g.nodeTag n = tag) :
    Sweeping M tag start g₀ g work [] where
  retag := h.retag
  valid m hm := h.valid m (List.mem_cons_of_mem _ hm)
  start := by
    rcases h.start with hs | hs
    · exact .inl hs
    · rcases List.mem_cons.1 hs with rfl | hs
      · exact .inl hn
      · exact .inr hs
  node := h.node
  edge e he he' := by
    rcases h.edge e he he' with ht | ht
    · exact .inl ht
    · rcases List.mem_cons.1 ht with ht | ht
      · exact .inl (ht ▸ hn)
      · exact .inr ht

/-- A node of the work list is marked, and its edges are to be looked at. -/
theorem visit (h : Sweeping M tag start g₀ g (n :: work) []) (hr : Retag tag g g')
    (hn : g'.nodeTag n = tag) (hother : ∀ m, m ≠ n → g'.nodeTag m = g.nodeTag m)
    (hedges : g'.edges = g.edges) : Sweeping M tag start g₀ g' work (g₀.outs n) := by
  have htags : g'.edgeTag = g.edgeTag := Graph.edgeTag_congr hedges
  have hmarked : ∀ m, g.nodeTag m = tag ∨ m ∈ n :: work → g'.nodeTag m = tag ∨ m ∈ work := by
    intro m hm
    rcases hm with hm | hm
    · exact .inl (hr.nodeTag hm)
    · rcases List.mem_cons.1 hm with rfl | hm
      · exact .inl hn
      · exact .inr hm
  refine ⟨h.retag.trans hr, fun m hm => h.valid m (List.mem_cons_of_mem _ hm), hmarked _ h.start,
    fun m hm hm' e he => ?_, fun e he he' => hmarked _ (h.edge e he (htags ▸ he'))⟩
  by_cases hmn : m = n
  · exact .inr (hmn ▸ he)
  · rw [htags]
    exact .inl ((h.node m hm (hother m hmn ▸ hm') e he).resolve_right (by simp))

/-- An edge that is marked already is looked at. -/
theorem pass (h : Sweeping M tag start g₀ g work (e :: pend)) (he : g.edgeTag e = tag) :
    Sweeping M tag start g₀ g work pend where
  retag := h.retag
  valid := h.valid
  start := h.start
  node m hm hm' e' he' := by
    rcases h.node m hm hm' e' he' with ht | ht
    · exact .inl ht
    · rcases List.mem_cons.1 ht with rfl | ht
      · exact .inl he
      · exact .inr ht
  edge := h.edge

/-- An edge is marked, and the node that it leads to is marked or on the work list. -/
theorem mark (h : Sweeping M tag start g₀ g work (e :: pend)) (hr : Retag tag g g')
    (he : g'.edgeTag e = tag) (hother : ∀ e', e' ≠ e → g'.edgeTag e' = g.edgeTag e')
    (hnodes : g'.nodes = g.nodes) (hsub : work ⊆ work') (hvalid : ∀ n ∈ work', n < M.order)
    (htarget : g.nodeTag (g₀.target e) = tag ∨ g₀.target e ∈ work') :
    Sweeping M tag start g₀ g' work' pend := by
  have htags : g'.nodeTag = g.nodeTag := Graph.nodeTag_congr hnodes
  refine ⟨h.retag.trans hr, hvalid, ?_, fun m hm hm' e' he' => ?_, fun e' he' he'' => ?_⟩
  · rw [htags]
    exact h.start.imp_right (hsub ·)
  · rw [htags] at hm'
    rcases h.node m hm hm' e' he' with ht | ht
    · exact .inl (hr.edgeTag ht)
    · rcases List.mem_cons.1 ht with rfl | ht
      · exact .inl he
      · exact .inr ht
  · rw [htags]
    by_cases hee : e' = e
    · exact hee ▸ htarget
    · exact (h.edge e' he' (hother e' hee ▸ he'')).imp_right (hsub ·)

end Sweeping

/-- The work that is left: the nodes of the work list, and the edges that can add to it. -/
def toDo (g : Graph) (tag : ℕ) (work : List ℕ) : ℕ :=
  work.length + unmarked g.edges.brk g.edgeTag tag

/-- One turn of the inner loop of `trav_bfs`. -/
theorem bfsEdge_spec {start n i : ℕ} {g₀ : Graph} {t : Trav} {st : Stack ℕ} {work : List ℕ}
    (h₀ : g₀.Represents M) (hn : n < M.order) (hi : i < (g₀.outs n).length) (hst : st.Lists work)
    (h : Sweeping M tag start g₀ t.graph work ((g₀.outs n).drop i)) :
    Returns (bfsEdge Buffer.ample tag n i (t, st)) fun s => ∃ work', s.2.Lists work' ∧
      Sweeping M tag start g₀ s.1.graph work' ((g₀.outs n).drop (i + 1)) ∧
        toDo s.1.graph tag work' ≤ toDo t.graph tag work := by
  have ht := h.retag.represents h₀
  have houts := h.retag.outs n
  have hi' : i < (t.graph.outs n).length := by rwa [houts]
  simp only [bfsEdge, ht.outEdge_spec hn hi', ok_bind, houts]
  rw [List.drop_eq_getElem_cons hi] at h
  have hmem := List.getElem_mem hi
  generalize (g₀.outs n)[i] = e at h hmem
  obtain ⟨edge, hedge, hto, htag, hlt, hdst⟩ := ht.edge_of_mem (houts ▸ hmem)
  rw [Memory.load_of_cell hedge, ok_bind, htag]
  refine .ite (fun hunmarked => ?_) fun hmarked =>
    .ok ⟨work, hst, h.pass (by simpa using hmarked), le_rfl⟩
  apply (ht.tagEdge_spec (houts ▸ hmem) tag).bind
  intro g₁ ⟨hr, hmark, hother, hnodes⟩
  have hless : unmarked g₁.edges.brk g₁.edgeTag tag <
      unmarked t.graph.edges.brk t.graph.edgeTag tag := by
    rw [hr.edgesBrk]
    exact unmarked_lt (fun _ => hr.edgeTag) hlt hunmarked hmark
  rw [h.retag.target] at hto hdst
  obtain ⟨node, hnode⟩ := ht.node _ hdst
  have hnodeTag : t.graph.nodeTag (g₀.target e) = node.travtag := Graph.nodeTag_of_cell hnode
  rw [hto, hnodes, Memory.load_of_cell hnode, ok_bind]
  refine .ite (fun _ => ?_) fun hvisited => ?_
  · apply (Stack.push_spec hst (g₀.target e)).bind
    intro st' hst'
    refine .ok ⟨_, hst', h.mark hr hmark hother hnodes (List.subset_cons_self _ _) ?_ (.inr (by simp)), ?_⟩
    · intro m hm
      rcases List.mem_cons.1 hm with rfl | hm
      · exact hdst
      · exact h.valid m hm
    · simp only [toDo, List.length_cons]
      omega
  · refine .ok ⟨work, hst, h.mark hr hmark hother hnodes (List.Subset.refl _) h.valid (.inl ?_), ?_⟩
    · simpa [hnodeTag] using hvisited
    · simp only [toDo]
      omega

/-- `trav_bfs` ends, since a node that is visited leaves the work list for good, and only an edge
that is marked adds to it. -/
theorem bfsLoop_spec {start k : ℕ} {g₀ : Graph} {t : Trav} {st : Stack ℕ} {work : List ℕ}
    (h₀ : g₀.Represents M) (hst : st.Lists work) (h : Sweeping M tag start g₀ t.graph work [])
    (hk : toDo t.graph tag work < k) :
    Returns (bfsLoop Buffer.ample tag k (t, st)) fun t' => Sweeps tag start g₀ t'.graph := by
  refine Returns.loop_ghost (fun m (s : Trav × Stack ℕ) => ∃ work, s.2.Lists work ∧
    Sweeping M tag start g₀ s.1.graph work [] ∧ m = toDo s.1.graph tag work) id _ ?_
    ⟨work, hst, h, rfl⟩ hk
  rintro m ⟨t, st⟩ ⟨work, (hst : st.Lists work), (h : Sweeping M tag start g₀ t.graph work []), rfl⟩
  apply (Stack.pop_spec hst).bind
  rintro ⟨x, st₁⟩ ⟨rfl, (hst₁ : st₁.Lists work.tail)⟩
  cases work with
  | nil => exact .ok h.sweeps
  | cons n work =>
    have ht := h.retag.represents h₀
    have hn := h.valid n (by simp)
    obtain ⟨node, hnode⟩ := ht.node n hn
    have htag : t.graph.nodeTag n = node.travtag := Graph.nodeTag_of_cell hnode
    simp only [List.head?_cons, Memory.load_of_cell hnode, ok_bind]
    refine .ite (fun hmarked => .ok ⟨_, ⟨work, hst₁, h.skip (htag.trans hmarked), rfl⟩, ?_⟩)
      fun hunmarked => ?_
    · simp only [toDo, List.length_cons, id]
      omega
    apply (ht.tagNode_spec hn tag).bind
    intro g₁ ⟨hr, hmark, hother, hedges⟩
    have h₁ := hr.represents ht
    have houts : g₁.outs n = g₀.outs n := (hr.outs n).trans (h.retag.outs n)
    have hvisit := h.visit hr hmark hother hedges
    have htoDo : toDo g₁ tag work < toDo t.graph tag (n :: work) := by
      have htags : g₁.edgeTag = t.graph.edgeTag := Graph.edgeTag_congr hedges
      simp only [toDo, hedges, htags, List.length_cons]
      omega
    rw [h₁.fanOut hn, ok_bind, houts]
    apply (Returns.forRange (fun i (s : Trav × Stack ℕ) => ∃ work', s.2.Lists work' ∧
      Sweeping M tag start g₀ s.1.graph work' ((g₀.outs n).drop i) ∧
        toDo s.1.graph tag work' ≤ toDo g₁ tag work) ?step ?start).bind
    · intro s ⟨work', hst', h', hle⟩
      rw [Nat.zero_add, List.drop_length] at h'
      exact .ok ⟨_, ⟨work', hst', h', rfl⟩, by simp only [id]; omega⟩
    case start => exact ⟨work, hst₁, hvisit, le_rfl⟩
    case step =>
      rintro i ⟨t', st'⟩ _ hi ⟨work', hst', h', hle⟩
      apply (bfsEdge_spec h₀ hn (by omega) hst' h').mono
      intro s ⟨work'', hst'', h'', hle'⟩
      exact ⟨work'', hst'', h'', hle'.trans hle⟩

end

end LibSrsBsns
