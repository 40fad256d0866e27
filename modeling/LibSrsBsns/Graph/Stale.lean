import LibSrsBsns.Graph.Visits

/-!
# Where a traversal comes to, whatever tags are left

A traversal may pick a tag that an earlier one has left behind. It returns nevertheless, and comes to
the nodes that lead from the start node along nodes without this tag; by the work list, along edges
without it, too (`Graph.Comes`). Those get the tag, with the edges that leave them, and these are what
the callbacks are called for (`traverse_comes`).
-/

namespace LibSrsBsns

open C

namespace Graph

variable (g : Graph)

/-- A traversal that has picked `tag` goes on from `u` to `v`, which does not carry it. By the work
list, it does so only along an edge that does not carry it either. -/
def Passes (tag : ℕ) (travtype : ℤ) (u v : ℕ) : Prop :=
  g.nodeTag v ≠ tag ∧ ∃ e ∈ g.outs u, g.target e = v ∧ (travtype = 0 → g.edgeTag e ≠ tag)

/-- The traversal from `start` comes to the node. -/
def Comes (tag : ℕ) (travtype : ℤ) (start : ℕ) : ℕ → Prop :=
  Relation.ReflTransGen (g.Passes tag travtype) start

/-- The traversal from `start` finds a node or an edge that does not carry its tag. -/
def Discovers (tag : ℕ) (travtype : ℤ) (start : ℕ) : Visit → Prop
  | .node n => g.Comes tag travtype start n
  | .edge e => g.edgeTag e ≠ tag ∧ ∃ n, g.Comes tag travtype start n ∧ e ∈ g.outs n

/-- The traversal `t` has changed tags only, of what it finds and of nothing else, and has called
the callbacks for just that: `ef` once for an edge, and `nf` once for a node by the work list, and
depth first as often as edges leave it. -/
structure Traversed (tag : ℕ) (travtype : ℤ) (start : ℕ) (t : Trav) : Prop where
  retag : Retag tag g t.graph
  marks : ∀ x, t.graph.tagOf x = tag ↔ g.tagOf x = tag ∨ g.Discovers tag travtype start x
  calls : ∀ x, g.Discovers tag travtype start x →
    t.log.count x = if travtype = 1 then g.dfsCalls x else 1
  others : ∀ x, ¬ g.Discovers tag travtype start x → x ∉ t.log

end Graph

variable {M : Multigraph} {tag start n m e i : ℕ} {travtype : ℤ} {g g' g₁ g₂ : Graph} {x : Visit}
  {t t' : Trav} {st : Stack ℕ} {work : List ℕ} {w : Visit → ℕ} {l : List Visit}

theorem Graph.Comes.reach (h : g.Comes tag travtype start n) : g.Reach start n := by
  have hstep : g.Passes tag travtype ≤ g.Step := by
    rintro u v ⟨-, e, he, hv, -⟩
    exact ⟨e, he, hv⟩
  exact Relation.ReflTransGen.mono hstep _ _ h

/-- What is found from a node that the traversal comes to, when more is marked, is found. -/
theorem Graph.Discovers.of_retag (hr : Retag tag g g') (hm : g.Comes tag travtype start m)
    (h : g'.Discovers tag travtype m x) : g.Discovers tag travtype start x := by
  have hstep : g'.Passes tag travtype ≤ g.Passes tag travtype := by
    rintro u v ⟨hv, e, he, htarget, hedge⟩
    exact ⟨fun hmarked => hv (hr.nodeTag hmarked), e, hr.outs u ▸ he,
      (hr.target e).symm.trans htarget, fun htype hmarked => hedge htype (hr.edgeTag hmarked)⟩
  have hcomes : ∀ n, g'.Comes tag travtype m n → g.Comes tag travtype start n := fun n hn =>
    hm.trans (Relation.ReflTransGen.mono hstep _ _ hn)
  cases x with
  | node n => exact hcomes n h
  | edge e =>
    obtain ⟨he, n, hn, hmem⟩ := h
    exact ⟨fun hmarked => he (hr.edgeTag hmarked), n, hcomes n hn, hr.outs n ▸ hmem⟩

/-- What is found is marked, if all is that the nodes that were marked lead to. -/
theorem Graph.traversed_of_logs (hr : Retag tag g t.graph) (hstart : g.nodeTag start ≠ tag)
    (hstart' : t.graph.nodeTag start = tag)
    (hsound : ∀ x, g.tagOf x ≠ tag → t.graph.tagOf x = tag → g.Discovers tag travtype start x)
    (hedges : ∀ u, g.nodeTag u ≠ tag → t.graph.nodeTag u = tag → ∀ e ∈ g.outs u,
      t.graph.edgeTag e = tag)
    (hnodes : ∀ u v, g.nodeTag u ≠ tag → t.graph.nodeTag u = tag → g.Passes tag travtype u v →
      t.graph.nodeTag v = tag)
    (hlogs : Logs w tag start g t.graph t.log)
    (hw : ∀ x, w x = if travtype = 1 then g.dfsCalls x else 1) :
    g.Traversed tag travtype start t := by
  have hcomes : ∀ n, g.Comes tag travtype start n → g.nodeTag n ≠ tag ∧ t.graph.nodeTag n = tag := by
    intro n hn
    induction hn with
    | refl => exact ⟨hstart, hstart'⟩
    | tail _ hstep ih => exact ⟨hstep.1, hnodes _ _ ih.1 ih.2 hstep⟩
  have hfinds : ∀ x, g.Discovers tag travtype start x ↔ g.tagOf x ≠ tag ∧ t.graph.tagOf x = tag := by
    refine fun x => ⟨fun hx => ?_, fun hx => hsound x hx.1 hx.2⟩
    cases x with
    | node n => exact hcomes n hx
    | edge e =>
      obtain ⟨he, n, hn, hmem⟩ := hx
      exact ⟨he, hedges n (hcomes n hn).1 (hcomes n hn).2 e hmem⟩
  refine ⟨hr, fun x => ?_, fun x hx => ?_, fun x hx => ?_⟩
  · rw [hfinds]
    constructor
    · intro hmarked
      by_cases hx : g.tagOf x = tag
      · exact .inl hx
      · exact .inr ⟨hx, hmarked⟩
    · rintro (hx | hx)
      · exact hr.tagOf hx
      · exact hx.2
  · rw [hlogs.count, if_pos ((hfinds x).1 hx), hw]
  · rw [← List.count_eq_zero, hlogs.count, if_neg ((hfinds x).not.1 hx)]

/-! ## Depth first -/

/-- The call of `trav_dfs_r` for `n` that takes `g` to `g'` has marked nothing but what is found from
there, and all that the nodes that it has marked lead to. -/
structure DfsFinds (tag n : ℕ) (g g' : Graph) : Prop where
  retag : Retag tag g g'
  start : g'.nodeTag n = tag
  sound : ∀ x, g.tagOf x ≠ tag → g'.tagOf x = tag → g.nodeTag n ≠ tag ∧ g.Discovers tag 1 n x
  targets : ∀ u, g.nodeTag u ≠ tag → g'.nodeTag u = tag → ∀ e ∈ g.outs u,
    g'.nodeTag (g.target e) = tag

/-- The call for `n` has looked at `i` edges. -/
structure DfsFinding (tag n i : ℕ) (g g' : Graph) : Prop where
  retag : Retag tag g g'
  start : g'.nodeTag n = tag
  sound : ∀ x, g.tagOf x ≠ tag → g'.tagOf x = tag → g.Discovers tag 1 n x
  here : ∀ e ∈ (g.outs n).take i, g'.nodeTag (g.target e) = tag
  targets : ∀ u, u ≠ n → g.nodeTag u ≠ tag → g'.nodeTag u = tag → ∀ e ∈ g.outs u,
    g'.nodeTag (g.target e) = tag

theorem DfsFinding.look (h : DfsFinding tag n i g g') (hi : i < (g.outs n).length)
    (hr : Retag tag g' g₁) (hother : ∀ e, e ≠ (g.outs n)[i] → g₁.edgeTag e = g'.edgeTag e)
    (hnodes : g₁.nodes = g'.nodes) (hcall : DfsFinds tag (g.target (g.outs n)[i]) g₁ g₂) :
    DfsFinding tag n (i + 1) g g₂ := by
  have hmem := List.getElem_mem hi
  have htake := List.take_succ_eq_append_getElem hi
  generalize (g.outs n)[i] = e at hother hcall hmem htake
  have hr₁ := h.retag.trans hr
  have htags : g₁.nodeTag = g'.nodeTag := Graph.nodeTag_congr hnodes
  have hlater : ∀ k, g'.nodeTag k = tag → g₂.nodeTag k = tag := fun _ hk =>
    hcall.retag.nodeTag (hr.nodeTag hk)
  refine ⟨hr₁.trans hcall.retag, hlater n h.start, fun x hx hx' => ?_, fun e' he' => ?_,
    fun u hun hu hu' e' he' => ?_⟩
  · by_cases hx₁ : g₁.tagOf x = tag
    · by_cases hx₀ : g'.tagOf x = tag
      · exact h.sound x hx hx₀
      · -- before the call, only the edge itself is marked
        cases x with
        | node k => exact absurd ((congrFun htags k).symm.trans hx₁) hx₀
        | edge e' =>
          obtain rfl : e' = e := by_contra fun hne => hx₀ ((hother e' hne).symm.trans hx₁)
          exact ⟨hx, n, .refl, hmem⟩
    · obtain ⟨hnew, hfinds⟩ := hcall.sound x hx₁ hx'
      have hstep : g.Passes tag 1 n (g.target e) :=
        ⟨fun hm => hnew (hr₁.nodeTag hm), e, hmem, rfl, fun htype => absurd htype one_ne_zero⟩
      exact hfinds.of_retag hr₁ (.single hstep)
  · rw [htake, List.mem_append, List.mem_singleton] at he'
    rcases he' with he' | rfl
    · exact hlater _ (h.here e' he')
    · exact hcall.start
  · by_cases hu₁ : g₁.nodeTag u = tag
    · exact hlater _ (h.targets u hun hu (htags ▸ hu₁) e' he')
    · exact hr₁.target e' ▸ hcall.targets u hu₁ hu' e' (hr₁.outs u ▸ he')

theorem dfsEdge_finds {descend : ℕ → Trav → Exec Trav}
    (hdescend : ∀ m t, t.graph.Represents M → m < M.order →
      Ends (descend m t) (fun t' => DfsFinds tag m t.graph t'.graph) fun _ => True)
    (hg : g.Represents M) (hn : n < M.order) (hi : i < (g.outs n).length)
    (h : DfsFinding tag n i g t.graph) :
    Ends (dfsEdge Buffer.ample tag n descend i t) (fun t' => DfsFinding tag n (i + 1) g t'.graph)
      fun _ => True := by
  have ht := h.retag.represents hg
  have hi' : i < (t.graph.outs n).length := by rwa [h.retag.outs]
  have hmem : (g.outs n)[i] ∈ t.graph.outs n := by
    rw [h.retag.outs]
    exact List.getElem_mem hi
  rw [dfsEdge, ht.outEdge_spec hn hi', ok_bind]
  simp only [h.retag.outs]
  apply ((meetEdge_spec (t := ⟨t.graph, t.log⟩) ht hmem).ends _).bind
  intro t₁ h₁
  obtain ⟨hr, -, hother, hnodes⟩ := h₁
  have h₁ := hr.represents ht
  obtain ⟨edge, hload, hto, -, -, hdst⟩ := h₁.edge_of_mem (hr.outs n ▸ hmem)
  rw [Memory.load_of_cell hload, ok_bind, hto]
  apply (hdescend _ ⟨t₁.graph, t₁.log ++ [Visit.node n]⟩ h₁ hdst).mono
  intro t₂ h₂
  rw [(h.retag.trans hr).target] at h₂
  exact h.look hi hr hother hnodes h₂

/-- **`trav_dfs_r`** finds what leads from its node along nodes without the tag. -/
theorem travDfsR_finds (depth n : ℕ) (t : Trav) (h : t.graph.Represents M) (hn : n < M.order) :
    Ends (travDfsR Buffer.ample tag depth n t) (fun t' => DfsFinds tag n t.graph t'.graph)
      fun _ => True := by
  induction depth generalizing n t with
  | zero => trivial
  | succ depth ih =>
    obtain ⟨node, hnode⟩ := h.node n hn
    have htag : t.graph.nodeTag n = node.travtag := Graph.nodeTag_of_cell hnode
    rw [travDfsR, Memory.load_of_cell hnode, ok_bind]
    split
    case isTrue hmarked =>
      exact ⟨.refl _, htag.trans hmarked, fun _ hx hx' => absurd hx' hx,
        fun _ hu hu' => absurd hu' hu⟩
    case isFalse hunmarked =>
      have hnew : t.graph.nodeTag n ≠ tag := htag ▸ hunmarked
      apply ((h.tagNode_spec hn tag).ends _).bind
      intro g₁ h₁
      obtain ⟨hr₁, hmark, hother, hedges⟩ := h₁
      have hlen : (g₁.outs n).length = (t.graph.outs n).length := by rw [hr₁.outs]
      have hstart : DfsFinding tag n 0 t.graph g₁ := by
        refine ⟨hr₁, hmark, fun x hx hx' => ?_, by simp, fun u hun hu hu' => ?_⟩
        · cases x with
          | node k =>
            obtain rfl : k = n := by_contra fun hne => hx ((hother k hne).symm.trans hx')
            exact .refl
          | edge e => exact absurd ((congrFun (Graph.edgeTag_congr hedges) e).symm.trans hx') hx
        · exact absurd ((hother u hun).symm.trans hu') hu
      rw [(hr₁.represents h).fanOut hn, ok_bind, hlen]
      apply (Ends.forRange (fun i t' => DfsFinding tag n i t.graph t'.graph) (fun _ => True) ?_
        hstart).mono
      · intro t' h'
        rw [Nat.zero_add] at h'
        refine ⟨h'.retag, h'.start, fun x hx hx' => ⟨hnew, h'.sound x hx hx'⟩, fun u hu hu' e he => ?_⟩
        by_cases hun : u = n
        · subst hun
          exact h'.here e (by rwa [List.take_length])
        · exact h'.targets u hun hu hu' e he
      · intro i t' _ hi h'
        exact dfsEdge_finds ih h hn (by omega) h'

/-! ## By the work list -/

/-- The traversal by the work list has marked nothing but what is found from `start`, and called for
just that. It has come to the nodes of the work list. -/
structure BfsFinding (M : Multigraph) (tag start : ℕ) (g : Graph) (t : Trav) (work : List ℕ) :
    Prop where
  retag : Retag tag g t.graph
  valid : ∀ n ∈ work, n < M.order
  comes : ∀ n ∈ work, g.Comes tag 0 start n
  sound : ∀ x, g.tagOf x ≠ tag → t.graph.tagOf x = tag → g.Discovers tag 0 start x
  logs : Logs (fun _ => 1) tag start g t.graph t.log

namespace BfsFinding

theorem mark (h : BfsFinding M tag start g t work) (hr : Retag tag t.graph g')
    (hx : t.graph.tagOf x ≠ tag) (hx' : g'.tagOf x = tag)
    (hother : ∀ y, y ≠ x → g'.tagOf y = t.graph.tagOf y) (hn : g.Comes tag 0 start n)
    (hwithin : t.graph.Within n x) (hfinds : g.tagOf x ≠ tag → g.Discovers tag 0 start x) :
    BfsFinding M tag start g ⟨g', t.log ++ [x]⟩ work where
  retag := h.retag.trans hr
  valid := h.valid
  comes := h.comes
  sound y hy hy' := by
    by_cases hyx : y = x
    · exact hyx ▸ hfinds (hyx ▸ hy)
    · exact h.sound y hy ((hother y hyx).symm.trans hy')
  logs := h.logs.trans h.retag (.single (w := fun _ => 1) hx hx' hother hwithin) hr hn.reach

theorem push (h : BfsFinding M tag start g t work) (hn : n < M.order)
    (hcomes : g.Comes tag 0 start n) : BfsFinding M tag start g t (n :: work) where
  retag := h.retag
  valid := List.forall_mem_cons.2 ⟨hn, h.valid⟩
  comes := List.forall_mem_cons.2 ⟨hcomes, h.comes⟩
  sound := h.sound
  logs := h.logs

end BfsFinding

theorem bfsEdge_finds (hg : g.Represents M) (hn : n < M.order) (hcomes : g.Comes tag 0 start n)
    (hi : i < (g.outs n).length) (hst : st.Lists work) (h : BfsFinding M tag start g t work) :
    Returns (bfsEdge Buffer.ample tag n i (t, st)) fun s => ∃ work', s.2.Lists work' ∧
      BfsFinding M tag start g s.1 work' := by
  have ht := h.retag.represents hg
  have hi' : i < (t.graph.outs n).length := by rwa [h.retag.outs]
  have hmem := List.getElem_mem hi
  simp only [bfsEdge, ht.outEdge_spec hn hi', ok_bind, h.retag.outs]
  generalize (g.outs n)[i] = e at hmem
  have hmem' : e ∈ t.graph.outs n := h.retag.outs n ▸ hmem
  obtain ⟨edge, hedge, hto, htag, -, hdst⟩ := ht.edge_of_mem hmem'
  rw [Memory.load_of_cell hedge, ok_bind, htag]
  refine .ite (fun hunmarked => ?_) fun _ => .ok ⟨work, hst, h⟩
  apply (ht.tagEdge_spec hmem' tag).bind
  intro g₁ h₁
  obtain ⟨hr, hmark, hother, hnodes⟩ := h₁
  have hnew : g.edgeTag e ≠ tag := fun hmarked => hunmarked (h.retag.edgeTag hmarked)
  have hmarked : BfsFinding M tag start g ⟨g₁, t.log ++ [.edge e]⟩ work := by
    apply h.mark (x := .edge e) hr hunmarked hmark _ hcomes ⟨n, .refl, hmem'⟩
      fun _ => ⟨hnew, n, hcomes, hmem⟩
    rintro (m | e') hne
    · exact congrFun (Graph.nodeTag_congr hnodes) m
    · exact hother e' fun heq => hne (congrArg _ heq)
  obtain ⟨node, hnode⟩ := ht.node _ hdst
  rw [hto, hnodes, Memory.load_of_cell hnode, ok_bind, ← Graph.nodeTag_of_cell hnode]
  refine .ite (fun hpush => ?_) fun _ => .ok ⟨work, hst, hmarked⟩
  apply (Stack.push_spec hst (t.graph.target e)).bind
  intro st' hst'
  -- the edge did not carry the tag, nor does the node that it leads to
  have hstep : g.Passes tag 0 n (t.graph.target e) :=
    ⟨fun hm => hpush (h.retag.nodeTag hm), e, hmem, (h.retag.target e).symm, fun _ => hnew⟩
  exact .ok ⟨_, hst', hmarked.push hdst (hcomes.tail hstep)⟩

/-- **`trav_bfs`** finds what leads from its start node along nodes and edges without the tag. -/
theorem bfsLoop_finds (hg : g.Represents M) {k : ℕ} (hst : st.Lists work)
    (h : BfsFinding M tag start g t work) :
    Ends (bfsLoop Buffer.ample tag k (t, st)) (fun t' => BfsFinding M tag start g t' [])
      fun _ => True := by
  refine Ends.loop_partial (fun s : Trav × Stack ℕ => ∃ work, s.2.Lists work ∧
    BfsFinding M tag start g s.1 work) _ ?_ ⟨work, hst, h⟩
  rintro ⟨t, st⟩ ⟨work, (hst : st.Lists work), (h : BfsFinding M tag start g t work)⟩
  apply ((Stack.pop_spec hst).ends _).bind
  rintro ⟨x, st₁⟩ ⟨rfl, (hst₁ : st₁.Lists work.tail)⟩
  cases work with
  | nil => exact h
  | cons n work =>
    have hpop : BfsFinding M tag start g t work :=
      ⟨h.retag, fun m hm => h.valid m (List.mem_cons_of_mem _ hm),
        fun m hm => h.comes m (List.mem_cons_of_mem _ hm), h.sound, h.logs⟩
    have ht := h.retag.represents hg
    have hn := h.valid n (List.mem_cons_self ..)
    have hcomes := h.comes n (List.mem_cons_self ..)
    obtain ⟨node, hnode⟩ := ht.node n hn
    simp only [List.head?_cons, Memory.load_of_cell hnode, ok_bind, ← Graph.nodeTag_of_cell hnode]
    split
    case isTrue => exact ⟨work, hst₁, hpop⟩
    case isFalse hunmarked =>
      apply ((ht.tagNode_spec hn tag).ends _).bind
      intro g₁ h₁
      obtain ⟨hr, hmark, hother, hedges⟩ := h₁
      have hlen : (g₁.outs n).length = (g.outs n).length := by rw [hr.outs, h.retag.outs]
      have hvisit : BfsFinding M tag start g ⟨g₁, t.log ++ [.node n]⟩ work := by
        apply hpop.mark (x := .node n) hr hunmarked hmark _ hcomes .refl fun _ => hcomes
        rintro (m | e) hne
        · exact hother m fun heq => hne (congrArg _ heq)
        · exact congrFun (Graph.edgeTag_congr hedges) e
      rw [(hr.represents ht).fanOut hn, ok_bind, hlen]
      apply (Ends.forRange (fun _ (s : Trav × Stack ℕ) => ∃ work', s.2.Lists work' ∧
        BfsFinding M tag start g s.1 work') (fun _ => True) ?_ ⟨work, hst₁, hvisit⟩).bind
      · exact fun s hs => hs
      · rintro i ⟨t', st'⟩ _ hi ⟨work', hst', h'⟩
        exact (bfsEdge_finds hg hn hcomes (by omega) hst' h').ends _

/-! ## Both -/

theorem traverse_traversed (h : g.Represents M) (hn : n < M.order) {rands : List ℕ}
    (htype : travtype = 0 ∨ travtype = 1) (htag : pickTag (g.nodeTag n) rands = .ok tag) :
    Returns (traverse Buffer.ample g n travtype rands) (g.Traversed tag travtype n) := by
  obtain ⟨t, ht, hsweeps⟩ := traverse_sweeps h hn htype htag
  obtain ⟨node, hnode⟩ := h.node n hn
  have hpick : pickTag node.travtag rands = .ok tag := Graph.nodeTag_of_cell hnode ▸ htag
  have hstart : g.nodeTag n ≠ tag := by
    have hspec := pickTag_spec (g.nodeTag n) rands
    rw [htag] at hspec
    exact hspec.1.symm
  refine ⟨t, ht, ?_⟩
  rcases htype with rfl | rfl
  · have hends : Ends (traverse Buffer.ample g n 0 rands)
        (fun t => BfsFinding M tag n g t []) fun _ => True := by
      simp only [traverse, travBfs, Memory.load_of_cell hnode, hpick, ok_bind]
      apply ((Stack.push_spec (Stack.lists_init 16) n).ends _).bind
      intro st hst
      exact bfsLoop_finds h hst ⟨.refl g, by simpa using hn, by simpa using .refl,
        fun _ hx hx' => absurd hx' hx, .refl fun _ => rfl⟩
    rw [ht] at hends
    refine Graph.traversed_of_logs hsweeps.retag hstart hsweeps.start hends.sound
      hsweeps.closes.node ?_ hends.logs fun _ => rfl
    rintro u v hu hu' ⟨-, e, he, rfl, hedge⟩
    exact hsweeps.closes.edge e (hedge rfl) (hsweeps.closes.node u hu hu' e he)
  · have hrun : traverse Buffer.ample g n 1 rands =
        travDfsR Buffer.ample tag (g.nodes.brk + 1) n ⟨g, []⟩ := by
      simp only [traverse, travDfs, Memory.load_of_cell hnode, hpick, ok_bind, if_true]
    have hfinds : Ends _ (fun t : Trav => DfsFinds tag n g t.graph) fun _ => True :=
      travDfsR_finds (g.nodes.brk + 1) n ⟨g, []⟩ h hn
    have hlogs : Ends _ (DfsLogs tag n ⟨g, []⟩) fun _ => True :=
      travDfsR_logs (g.nodes.brk + 1) n ⟨g, []⟩ h hn
    rw [← hrun, ht] at hfinds hlogs
    obtain ⟨-, l, hlog, hlogs⟩ := hlogs
    rw [List.nil_append] at hlog
    refine Graph.traversed_of_logs hsweeps.retag hstart hsweeps.start
      (fun x hx hx' => (hfinds.sound x hx hx').2) hsweeps.closes.node ?_ (hlog ▸ hlogs) fun _ => rfl
    rintro u v hu hu' ⟨-, e, he, rfl, -⟩
    exact hfinds.targets u hu hu' e he

/-- **Where a traversal comes to.** In every run, every traversal of either type whose `rand` gives a
tag returns, whatever tags the traversals before it have left. It changes nothing but tags. It marks
the nodes that lead from its start node along nodes without its tag (and, by the work list, along
edges without it) and the edges without the tag that leave those, and it calls the callbacks for what
it marks and for nothing else. -/
theorem traverse_comes (ops : List GraphOp) (hops : ValidHistory ops) :
    AtTraversals ops fun g start travtype rands =>
      ∀ tag, pickTag (g.nodeTag start) rands = .ok tag → travtype = 0 ∨ travtype = 1 →
        Returns (traverse Buffer.ample g start travtype rands) (g.Traversed tag travtype start) := by
  rintro js n travtype rands ks os g rfl hrun tag htag htype
  obtain ⟨hjs, hrest⟩ := admissible_append hops
  have hends := runs_represents hjs
  rw [hrun] at hends
  exact traverse_traversed hends.2 hrest.1 htype htag

/-- The second traversal picks the tag that the first has left at the node 1, and calls back for
neither that node nor the node 3 behind it. -/
theorem traverse_comes_no_further :
    ∃ (os : List GraphOut) (g : Graph), runs graphStep Graph.empty
        [.alloc, .alloc, .link 0 1, .traverse 0 1 [5], .alloc, .alloc, .link 2 1, .link 1 3] =
          .ok (os, g) ∧
      Returns (traverse Buffer.ample g 2 1 [5]) fun t => .node 1 ∉ t.log ∧ .node 3 ∉ t.log := by
  refine ⟨_, _, rfl, (traverse_comes [.alloc, .alloc, .link 0 1, .traverse 0 1 [5], .alloc, .alloc,
    .link 2 1, .link 1 3, .traverse 2 1 [5]] ?_ [.alloc, .alloc, .link 0 1, .traverse 0 1 [5], .alloc,
    .alloc, .link 2 1, .link 1 3] 2 1 [5] [] _ _ rfl rfl 5 rfl (.inr rfl)).mono fun t ht => ?_⟩
  · simp [ValidHistory, Admissible, Multigraph.spec, Multigraph.Pre, Multigraph.empty,
      Multigraph.link]
  · have hnone : ∀ n, n ≠ 2 → Visit.node n ∉ t.log := by
      refine fun n hn => ht.others (.node n) fun hcomes => ?_
      rcases Relation.ReflTransGen.cases_head hcomes with rfl | ⟨m, ⟨hm, e, he, rfl, -⟩, -⟩
      · exact hn rfl
      · -- the only edge of the node 2 leads to the node 1
        obtain rfl := List.mem_singleton.1 he
        exact hm rfl
    exact ⟨hnone 1 (by decide), hnone 3 (by decide)⟩

end LibSrsBsns
