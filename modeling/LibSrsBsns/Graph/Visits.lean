import LibSrsBsns.Graph.History

/-!
# What a depth-first traversal calls

Between two graphs, the calls of a traversal are counted by what it has marked in between (`Logs`):
so many calls for each node and each edge that has got the tag, and none for anything else. Depth
first, an edge is passed to `ef` once, but a node is passed to `nf` in the loop over its edges, once
for each of them (`travDfsR_logs`).
-/

namespace LibSrsBsns

open C

namespace Graph

variable (g : Graph)

/-- The tag of what a callback is called for. -/
def tagOf : Visit → ℕ
  | .node n => g.nodeTag n
  | .edge e => g.edgeTag e

/-- What a callback is called for can be reached from `start`. -/
def Within (start : ℕ) : Visit → Prop
  | .node n => g.Reach start n
  | .edge e => ∃ n, g.Reach start n ∧ e ∈ g.outs n

/-- How often a depth-first traversal calls a callback. -/
def dfsCalls : Visit → ℕ
  | .node n => (g.outs n).length
  | .edge _ => 1

end Graph

/-- The list `l` has `w x` calls for each `x` that was marked on the way from `g` to `g'`, and no
others. All that was marked can be reached from `start`. -/
structure Logs (w : Visit → ℕ) (tag start : ℕ) (g g' : Graph) (l : List Visit) : Prop where
  within : ∀ x, g.tagOf x ≠ tag → g'.tagOf x = tag → g.Within start x
  count : ∀ x, l.count x = if g.tagOf x ≠ tag ∧ g'.tagOf x = tag then w x else 0

variable {w w' : Visit → ℕ} {tag start m n : ℕ} {g g' g'' : Graph} {l l' : List Visit} {x : Visit}
  {M : Multigraph}

namespace Retag

theorem reach (h : Retag tag g g') : g'.Reach = g.Reach := by
  have hstep : g'.Step = g.Step := by
    funext u v
    simp only [Graph.Step, h.outs, h.target]
  rw [Graph.Reach, Graph.Reach, hstep]

theorem within (h : Retag tag g g') : g'.Within start x ↔ g.Within start x := by
  cases x <;> simp only [Graph.Within, h.reach, h.outs]

theorem dfsCalls (h : Retag tag g g') : g'.dfsCalls = g.dfsCalls := by
  funext x
  cases x <;> simp only [Graph.dfsCalls, h.outs]

theorem tagOf (h : Retag tag g g') (hx : g.tagOf x = tag) : g'.tagOf x = tag := by
  cases x with
  | node n => exact h.nodeTag hx
  | edge e => exact h.edgeTag hx

end Retag

namespace Logs

theorem refl (h : ∀ x, g'.tagOf x = g.tagOf x) : Logs w tag start g g' [] := by
  refine ⟨fun x hx hx' => absurd ((h x).symm.trans hx') hx, fun x => ?_⟩
  rw [h, if_neg fun hx => hx.1 hx.2, List.count_nil]

theorem single (hx : g.tagOf x ≠ tag) (hx' : g'.tagOf x = tag)
    (hother : ∀ y, y ≠ x → g'.tagOf y = g.tagOf y) (hwithin : g.Within start x) :
    Logs w tag start g g' (List.replicate (w x) x) := by
  refine ⟨fun y hy hy' => ?_, fun y => ?_⟩
  · by_cases hyx : y = x
    · exact hyx ▸ hwithin
    · exact absurd ((hother y hyx).symm.trans hy') hy
  · by_cases hyx : y = x
    · rw [hyx, List.count_replicate_self, if_pos ⟨hx, hx'⟩]
    · rw [hother y hyx, if_neg fun hy => hy.1 hy.2, List.count_eq_zero]
      exact fun hy => hyx (List.eq_of_mem_replicate hy)

theorem trans (h : Logs w tag start g g' l) (hr : Retag tag g g') (h' : Logs w tag m g' g'' l')
    (hr' : Retag tag g' g'') (hm : g.Reach start m) : Logs w tag start g g'' (l ++ l') := by
  constructor
  · intro x hx hx''
    by_cases hx' : g'.tagOf x = tag
    · exact h.within x hx hx'
    · have hwithin := hr.within.1 (h'.within x hx' hx'')
      cases x with
      | node n => exact hm.trans hwithin
      | edge e =>
        obtain ⟨n, hn, he⟩ := hwithin
        exact ⟨n, hm.trans hn, he⟩
  · intro x
    rw [List.count_append, h.count, h'.count]
    by_cases hx : g.tagOf x = tag
    · simp [hx, hr.tagOf hx]
    · by_cases hx' : g'.tagOf x = tag
      · simp [hx, hx', hr'.tagOf hx']
      · simp [hx, hx']

/-- Only the numbers for what was marked matter. -/
theorem congr (h : Logs w tag start g g' l)
    (hw : ∀ x, g.tagOf x ≠ tag → g'.tagOf x = tag → w x = w' x) : Logs w' tag start g g' l := by
  refine ⟨h.within, fun x => ?_⟩
  rw [h.count]
  split
  case isTrue hx => exact hw x hx.1 hx.2
  case isFalse => rfl

theorem again (h : Logs w tag start g g' l) (hx : g.tagOf x ≠ tag) (hx' : g'.tagOf x = tag) :
    Logs (Function.update w x (w x + 1)) tag start g g' (l ++ [x]) := by
  refine ⟨h.within, fun y => ?_⟩
  rw [List.count_append, h.count]
  by_cases hyx : y = x
  · subst hyx
    rw [if_pos ⟨hx, hx'⟩, if_pos ⟨hx, hx'⟩, Function.update_self, List.count_singleton_self]
  · have hnone : [x].count y = 0 := List.count_eq_zero.2 (by simpa using hyx)
    rw [Function.update_of_ne hyx, hnone, Nat.add_zero]

end Logs

/-! ## Depth first -/

/-- What a call of `trav_dfs_r` for the node `n` does. -/
def DfsLogs (tag n : ℕ) (t t' : Trav) : Prop :=
  Retag tag t.graph t'.graph ∧
    ∃ l, t'.log = t.log ++ l ∧ Logs t.graph.dfsCalls tag n t.graph t'.graph l

theorem meetEdge_logs {t : Trav} {e : ℕ} (h : t.graph.Represents M) (he : e ∈ t.graph.outs n)
    (hn : t.graph.Reach start n) {w : Visit → ℕ} (hw : w (.edge e) = 1) :
    Ends (t.meetEdge e tag) (fun t' => Retag tag t.graph t'.graph ∧
      ∃ l, t'.log = t.log ++ l ∧ Logs w tag start t.graph t'.graph l) fun _ => True := by
  obtain ⟨edge, hedge, -, htag, -⟩ := h.edge_of_mem he
  rw [Trav.meetEdge, Memory.load_of_cell hedge, ok_bind, htag]
  split
  case isFalse => exact ⟨.refl _, [], (List.append_nil _).symm, .refl fun _ => rfl⟩
  case isTrue hunmarked =>
    apply ((h.tagEdge_spec he tag).ends _).bind
    intro g' h'
    obtain ⟨hr, hmark, hother, hnodes⟩ := h'
    have hlogs : Logs w tag start t.graph g' (List.replicate (w (.edge e)) (.edge e)) := by
      apply Logs.single (x := .edge e) hunmarked hmark _ ⟨n, hn, he⟩
      rintro (m | e') hne
      · simp [Graph.tagOf, Graph.nodeTag_congr hnodes]
      · exact hother e' fun heq => hne (congrArg _ heq)
    rw [hw] at hlogs
    exact ⟨hr, _, rfl, hlogs⟩

theorem dfsEdge_logs {descend : ℕ → Trav → Exec Trav} {i : ℕ} {t t' : Trav}
    (hdescend : ∀ m t, t.graph.Represents M → m < M.order →
      Ends (descend m t) (DfsLogs tag m t) fun _ => True)
    (h : t.graph.Represents M) (hn : n < M.order) (hi : i < (t.graph.outs n).length)
    (hnew : t.graph.nodeTag n ≠ tag) (hr : Retag tag t.graph t'.graph)
    (hmark : t'.graph.nodeTag n = tag) (hlog : t'.log = t.log ++ l)
    (hlogs : Logs (Function.update t.graph.dfsCalls (.node n) i) tag n t.graph t'.graph l) :
    Ends (dfsEdge Buffer.ample tag n descend i t') (fun t'' => Retag tag t.graph t''.graph ∧
      t''.graph.nodeTag n = tag ∧ ∃ l, t''.log = t.log ++ l ∧
        Logs (Function.update t.graph.dfsCalls (.node n) (i + 1)) tag n t.graph t''.graph l)
      fun _ => True := by
  have h' := hr.represents h
  have hi' : i < (t'.graph.outs n).length := by rwa [hr.outs]
  have hmem := List.getElem_mem hi'
  rw [dfsEdge, h'.outEdge_spec hn hi', ok_bind]
  generalize (t'.graph.outs n)[i] = e at hmem
  have hedge : Function.update t.graph.dfsCalls (.node n) i (.edge e) = 1 :=
    Function.update_of_ne (by simp) _ _
  apply (meetEdge_logs (t := ⟨t'.graph, t'.log⟩) h' hmem .refl hedge).bind
  intro t₁ h₁
  obtain ⟨hr₁, l₁, hlog₁, hlogs₁⟩ := h₁
  have h₁ := hr₁.represents h'
  obtain ⟨edge, hload, hto, -, -, hdst⟩ := h₁.edge_of_mem (hr₁.outs n ▸ hmem)
  rw [Memory.load_of_cell hload, ok_bind, hto]
  apply (hdescend _ ⟨t₁.graph, t₁.log ++ [Visit.node n]⟩ h₁ hdst).mono
  intro t₂ h₂
  obtain ⟨hr₂, l₂, hlog₂, hlogs₂⟩ := h₂
  -- `nf` is called once more for `n`, and not by the call below
  have hmark₁ : t₁.graph.nodeTag n = tag := hr₁.nodeTag hmark
  have hcalled := (hlogs.trans hr hlogs₁ hr₁ .refl).again (x := .node n) hnew hmark₁
  rw [Function.update_self, Function.update_idem] at hcalled
  have hstep : t.graph.Step n (t₁.graph.target e) :=
    ⟨e, hr.outs n ▸ hmem, (hr₁.target e).trans (hr.target e) |>.symm⟩
  have hbelow : Logs (Function.update t.graph.dfsCalls (.node n) (i + 1)) tag (t₁.graph.target e)
      t₁.graph t₂.graph l₂ := by
    apply hlogs₂.congr
    intro x hx _
    have hxn : x ≠ .node n := by
      rintro rfl
      exact hx hmark₁
    rw [Function.update_of_ne hxn, (hr.trans hr₁).dfsCalls]
  refine ⟨(hr.trans hr₁).trans hr₂, hr₂.nodeTag hmark₁, (l ++ l₁ ++ [.node n]) ++ l₂, ?_,
    hcalled.trans (hr.trans hr₁) hbelow hr₂ (.single hstep)⟩
  have hlog₁' : t₁.log = t'.log ++ l₁ := hlog₁
  have hlog₂' : t₂.log = t₁.log ++ [.node n] ++ l₂ := hlog₂
  rw [hlog₂', hlog₁', hlog]
  simp only [List.append_assoc]

/-- **`trav_dfs_r`** passes each edge that it marks to `ef` once, and each node that it marks to `nf`
as often as edges leave it. -/
theorem travDfsR_logs (depth n : ℕ) (t : Trav) (h : t.graph.Represents M) (hn : n < M.order) :
    Ends (travDfsR Buffer.ample tag depth n t) (DfsLogs tag n t) fun _ => True := by
  induction depth generalizing n t with
  | zero => trivial
  | succ depth ih =>
    obtain ⟨node, hnode⟩ := h.node n hn
    have htag : t.graph.nodeTag n = node.travtag := Graph.nodeTag_of_cell hnode
    rw [travDfsR, Memory.load_of_cell hnode, ok_bind]
    split
    case isTrue => exact ⟨.refl _, [], (List.append_nil _).symm, .refl fun _ => rfl⟩
    case isFalse hunmarked =>
      have hnew : t.graph.nodeTag n ≠ tag := htag ▸ hunmarked
      apply ((h.tagNode_spec hn tag).ends _).bind
      intro g₁ h₁
      obtain ⟨hr₁, hmark, hother, hedges⟩ := h₁
      have h₁ := hr₁.represents h
      have hstart : Logs (Function.update t.graph.dfsCalls (.node n) 0) tag n t.graph g₁ [] := by
        have hlogs : Logs (Function.update t.graph.dfsCalls (.node n) 0) tag n t.graph g₁
            (List.replicate _ (.node n)) := Logs.single hnew hmark ?_ .refl
        · rwa [Function.update_self] at hlogs
        · rintro (m | e) hne
          · exact hother m fun heq => hne (congrArg _ heq)
          · simp [Graph.tagOf, Graph.edgeTag_congr hedges]
      rw [h₁.fanOut hn, ok_bind]
      -- after `i` turns `nf` has been called `i` times for `n`
      apply (Ends.forRange (fun i t' => Retag tag t.graph t'.graph ∧ t'.graph.nodeTag n = tag ∧
        ∃ l, t'.log = t.log ++ l ∧ Logs (Function.update t.graph.dfsCalls (.node n) i) tag n t.graph
          t'.graph l) (fun _ => True) ?_ ⟨hr₁, hmark, [], (List.append_nil _).symm, hstart⟩).mono
      · intro t' h'
        obtain ⟨hr, _, l, hlog, hlogs⟩ := h'
        have hlen : 0 + (g₁.outs n).length = t.graph.dfsCalls (.node n) := by
          rw [Nat.zero_add, hr₁.outs]
          rfl
        rw [hlen, Function.update_eq_self] at hlogs
        exact ⟨hr, l, hlog, hlogs⟩
      · intro i t' _ hi h'
        obtain ⟨hr, hmark', l, hlog, hlogs⟩ := h'
        have hi' : i < (t.graph.outs n).length := by
          rw [← hr₁.outs]
          omega
        exact dfsEdge_logs ih h hn hi' hnew hr hmark' hlog hlogs

/-- With a fresh tag, the callbacks are called so often for all that can be reached. -/
theorem Logs.of_fresh (h : Logs w tag start g g' l) (hfresh : g.Fresh start tag)
    (hvisited : g.Visited start tag g') (x : Visit) :
    (g.Within start x → l.count x = w x) ∧ (¬ g.Within start x → x ∉ l) := by
  constructor
  · intro hx
    rw [h.count, if_pos]
    cases x with
    | node n => exact ⟨(hfresh n hx).1, (hvisited n hx).1⟩
    | edge e =>
      obtain ⟨n, hn, he⟩ := hx
      exact ⟨(hfresh n hn).2 e he, (hvisited n hn).2 e he⟩
  · intro hx
    rw [← List.count_eq_zero, h.count, if_neg]
    exact fun hmarked => hx (h.within x hmarked.1 hmarked.2)

/-- The callbacks are called once for each node and each edge that can be reached, and for nothing
else. -/
def Graph.VisitsOnce (g : Graph) (start : ℕ) (l : List Visit) : Prop :=
  ∀ x, (g.Within start x → l.count x = 1) ∧ (¬ g.Within start x → x ∉ l)

theorem traverse_dfs_spec (h : g.Represents M) (hn : n < M.order) {rands : List ℕ}
    (htag : pickTag (g.nodeTag n) rands = .ok tag) (hfresh : g.Fresh n tag) :
    Returns (traverse Buffer.ample g n 1 rands) fun t =>
      ∀ x, (g.Within n x → t.log.count x = g.dfsCalls x) ∧ (¬ g.Within n x → x ∉ t.log) := by
  obtain ⟨t, ht, hsweeps⟩ := traverse_sweeps h hn (.inr rfl) htag
  obtain ⟨node, hnode⟩ := h.node n hn
  have hpick : pickTag node.travtag rands = .ok tag := Graph.nodeTag_of_cell hnode ▸ htag
  refine ⟨t, ht, fun x => ?_⟩
  have hlogs : Ends (travDfsR Buffer.ample tag (g.nodes.brk + 1) n ⟨g, []⟩) (DfsLogs tag n ⟨g, []⟩) _ :=
    travDfsR_logs (g.nodes.brk + 1) n ⟨g, []⟩ h hn
  have hrun : traverse Buffer.ample g n 1 rands =
      travDfsR Buffer.ample tag (g.nodes.brk + 1) n ⟨g, []⟩ := by
    simp only [traverse, travDfs, Memory.load_of_cell hnode, hpick, ok_bind, if_true]
  rw [← hrun, ht] at hlogs
  obtain ⟨-, l, hlog, hlogs⟩ := hlogs
  rw [hlog]
  exact hlogs.of_fresh hfresh (hsweeps.visits hfresh) x

/-- **How often a depth-first traversal calls back.** In every graph that calls lead to, a traversal
of type `TRAV_DFS` whose tag nothing within reach carries returns. It calls `ef` once for each edge
that can be reached, `nf` for each node that can be reached as often as edges leave it, and neither
for anything else. So each is called exactly once for what can be reached if and only if one edge
leaves each node that can be reached. -/
theorem trav_dfs_visits_once_iff {ops : List GraphOp} {os : List GraphOut} (hops : ValidHistory ops)
    (hrun : runs graphStep Graph.empty ops = .ok (os, g)) (hstart : start < (built ops).order)
    {rands : List ℕ} (htag : pickTag (g.nodeTag start) rands = .ok tag)
    (hfresh : g.Fresh start tag) :
    (Returns (traverse Buffer.ample g start 1 rands) fun t =>
      ∀ x, (g.Within start x → t.log.count x = g.dfsCalls x) ∧ (¬ g.Within start x → x ∉ t.log)) ∧
    (Returns (traverse Buffer.ample g start 1 rands) (fun t => g.VisitsOnce start t.log) ↔
      ∀ n, g.Reach start n → (g.outs n).length = 1) := by
  have hends := runs_represents hops
  rw [hrun] at hends
  have hspec := traverse_dfs_spec hends.2 hstart htag hfresh
  refine ⟨hspec, ?_, fun hout => hspec.mono fun t ht x => ⟨fun hx => ?_, (ht x).2⟩⟩
  · rintro ⟨t, ht, honce⟩ n hn
    have hcount := (hspec.of_eq_ok ht (.node n)).1 hn
    exact hcount.symm.trans ((honce (.node n)).1 hn)
  · rw [(ht x).1 hx]
    cases x with
    | node n => exact hout n hx
    | edge e => rfl

theorem Graph.fresh_of_untagged (hnode : ∀ n, g.nodeTag n = 0) (hedge : ∀ e, g.edgeTag e = 0)
    (htag : tag ≠ 0) : g.Fresh start tag := by
  intro n _
  rw [hnode]
  exact ⟨htag.symm, fun e _ => hedge e ▸ htag.symm⟩

/-- A node with a loop: one call for the node and one for the edge. -/
theorem trav_dfs_visits_once_loop :
    ∃ (os : List GraphOut) (g : Graph), runs graphStep Graph.empty [.alloc, .link 0 0] = .ok (os, g) ∧
      Returns (traverse Buffer.ample g 0 1 [7]) fun t => g.VisitsOnce 0 t.log := by
  have hrun : runs graphStep Graph.empty [.alloc, .link 0 0] = .ok (_, _) := rfl
  have hstart : 0 < (built [.alloc, .link 0 0]).order := by decide
  have htag : pickTag 0 [7] = .ok 7 := rfl
  refine ⟨_, _, hrun, (trav_dfs_visits_once_iff ?_ hrun hstart htag ?_).2.2 ?_⟩
  · simp [ValidHistory, Admissible, Multigraph.spec, Multigraph.Pre, Multigraph.empty]
  · apply Graph.fresh_of_untagged _ _ (by decide)
    · rintro (_ | n) <;> rfl
    · rintro (_ | e) <;> rfl
  · intro n hn
    suffices hzero : n = 0 by
      rw [hzero]
      rfl
    induction hn with
    | refl => rfl
    | tail _ hstep ih =>
      obtain ⟨e, he, rfl⟩ := hstep
      rw [ih] at he
      obtain rfl : e = 0 := List.mem_singleton.1 he
      rfl

/-- Two edges leave the node 0, which is passed to `nf` twice, and none leaves the nodes that they
lead to, which are never passed to `nf`. -/
theorem not_visitsOnce_of_fork :
    ValidHistory [.alloc, .alloc, .alloc, .link 0 1, .link 0 2] ∧
      ∃ (os : List GraphOut) (g : Graph), runs graphStep Graph.empty
          [.alloc, .alloc, .alloc, .link 0 1, .link 0 2] = .ok (os, g) ∧ g.Fresh 0 7 ∧
        Returns (traverse Buffer.ample g 0 1 [7]) (fun t => t.log.count (.node 0) = 2 ∧
          g.Reach 0 1 ∧ .node 1 ∉ t.log) ∧
        ¬ Returns (traverse Buffer.ample g 0 1 [7]) fun t => g.VisitsOnce 0 t.log := by
  have hrun : runs graphStep Graph.empty [.alloc, .alloc, .alloc, .link 0 1, .link 0 2] =
      .ok (_, _) := rfl
  refine ⟨?_, _, _, hrun, ?_, ?_, ?_⟩
  · simp [ValidHistory, Admissible, Multigraph.spec, Multigraph.Pre, Multigraph.empty,
      Multigraph.link]
  · apply Graph.fresh_of_untagged _ _ (by decide)
    · rintro (_ | _ | _ | n) <;> rfl
    · rintro (_ | _ | e) <;> rfl
  · exact ⟨_, rfl, by decide, .single ⟨0, by decide, rfl⟩, by decide⟩
  · rintro ⟨t, ht, honce⟩
    obtain rfl := Except.ok.inj ht
    have hcount := (honce (.node 0)).1 .refl
    revert hcount
    decide

end LibSrsBsns
