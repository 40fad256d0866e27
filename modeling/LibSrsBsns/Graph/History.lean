import LibSrsBsns.Graph.Traversal
import LibSrsBsns.Foundations.C.Runs

/-!
# Histories of a graph

A graph is built and traversed by calls in any order, and represents the multigraph that was built as
long as they return (`runs_represents`). The tags that traversals leave behind do not bother a later
traversal exactly where all that it can reach carries no tag, or the one tag that its do-over loop
avoids (`traverse_fresh_iff_settled`).
-/

namespace LibSrsBsns

open C

/-- The calls on a graph. Nodes and edges are named by what the calls that made them returned. -/
inductive GraphOp
  | alloc
  | link (from_ to_ : ℕ)
  | drop (e : ℕ)
  | traverse (n : ℕ) (travtype : ℤ) (rands : List ℕ)

/-- What a call returns. -/
inductive GraphOut
  | unit
  | node (n : ℕ)
  | edge (e : ℕ)
  deriving DecidableEq

/-- A call on the graph, with allocations succeeding. -/
def graphStep (g : Graph) : GraphOp → Exec (GraphOut × Graph)
  | .alloc => .ok (.node (allocNode g).1, (allocNode g).2)
  | .link from_ to_ => do
    let (e, g) ← linkNode Buffer.ample g from_ to_
    .ok (.edge e, g)
  | .drop e => do
    let g ← dropEdge Buffer.ample g e
    .ok (.unit, g)
  | .traverse n travtype rands => do
    let t ← traverse Buffer.ample g n travtype rands
    .ok (.unit, t.graph)

namespace Multigraph

/-- A call on a multigraph. -/
def spec (M : Multigraph) : GraphOp → GraphOut × Multigraph
  | .alloc => (.node M.order, { M with order := M.order + 1 })
  | .link from_ to_ => (.edge M.arcs.length, M.link from_ to_)
  | .drop e => (.unit, M.drop e)
  | .traverse .. => (.unit, M)

/-- The call is about nodes and edges that there are. -/
def Pre (M : Multigraph) : GraphOp → Prop
  | .alloc => True
  | .link from_ to_ => from_ < M.order ∧ to_ < M.order
  | .drop e => e < M.arcs.length
  | .traverse n _ _ => n < M.order

/-- The arrays at the ends of a new edge have room for it within `2 ^ 30` entries. -/
def HasRoom (M : Multigraph) : GraphOp → Prop
  | .link from_ to_ => M.degree Arc.src from_ < 2 ^ 30 ∧ M.degree Arc.dst to_ < 2 ^ 30
  | _ => True

/-- How a call can fail: the array of a node does not grow to more than `2 ^ 30` entries, and the
do-over loop of a traversal may still be at it when the values of `rand` are used up. -/
def MayFault (M : Multigraph) : GraphOp → Fault → Prop
  | .link from_ to_, e => e = .badShift ∧ ¬ M.HasRoom (.link from_ to_)
  | .traverse _ _ _, e => e = .spin
  | _, _ => False

end Multigraph

/-! ## One call -/

section

variable {g : Graph} {M : Multigraph} {n tag : ℕ}

theorem pickTag_spec (travtag : ℕ) (rands : List ℕ) :
    Ends (pickTag travtag rands) (fun tag => tag ≠ travtag ∧ tag ≠ 0) (· = .spin) := by
  induction rands with
  | nil => rfl
  | cons tag rands ih =>
    rw [pickTag]
    split
    case isTrue => exact ih
    case isFalse h => exact not_or.1 h

theorem traverse_sweeps (h : g.Represents M) (hn : n < M.order) {travtype : ℤ} {rands : List ℕ}
    (htype : travtype = 0 ∨ travtype = 1) (htag : pickTag (g.nodeTag n) rands = .ok tag) :
    Returns (traverse Buffer.ample g n travtype rands) fun t => Sweeps tag n g t.graph := by
  obtain ⟨node, hnode⟩ := h.node n hn
  have hpick : pickTag node.travtag rands = .ok tag := Graph.nodeTag_of_cell hnode ▸ htag
  rcases htype with rfl | rfl
  · simp only [traverse, travBfs, Memory.load_of_cell hnode, hpick, ok_bind]
    apply (Stack.push_spec (Stack.lists_init 16) n).bind
    intro st hst
    have hle := unmarked_le_self g.edges.brk g.edgeTag tag
    exact bfsLoop_spec h hst (.init g hn) (by simp only [toDo, List.length_singleton]; omega)
  · simp only [traverse, travDfs, Memory.load_of_cell hnode, hpick, ok_bind]
    have hle := unmarked_le_self M.order g.nodeTag tag
    have hdepth : unmarked M.order g.nodeTag tag < g.nodes.brk + 1 := by
      rw [h.order]
      omega
    exact travDfsR_spec _ n ⟨g, []⟩ h hn hdepth

theorem traverse_represents (h : g.Represents M) (hn : n < M.order) (travtype : ℤ)
    (rands : List ℕ) :
    Ends (traverse Buffer.ample g n travtype rands) (·.graph.Represents M) (· = .spin) := by
  by_cases htype : travtype = 0 ∨ travtype = 1
  · cases htag : pickTag (g.nodeTag n) rands with
    | ok tag =>
      apply Returns.ends
      exact (traverse_sweeps h hn htype htag).mono fun t ht => ht.retag.represents h
    | error e =>
      have hspin := pickTag_spec (g.nodeTag n) rands
      rw [htag] at hspin
      obtain ⟨node, hnode⟩ := h.node n hn
      have hpick : pickTag node.travtag rands = .error e := Graph.nodeTag_of_cell hnode ▸ htag
      have herror : traverse Buffer.ample g n travtype rands = .error e := by
        rcases htype with rfl | rfl <;>
          simp only [traverse, travBfs, travDfs, Memory.load_of_cell hnode, hpick, ok_bind,
            error_bind] <;> rfl
      rw [herror]
      exact hspin
  · rw [not_or] at htype
    rw [traverse, if_neg htype.2, if_neg htype.1]
    exact h

theorem Graph.Represents.length_outs (h : g.Represents M) (n : ℕ) :
    (g.outs n).length = M.degree Arc.src n :=
  Multigraph.length_eq_degree (h.outs_spec n)

theorem Graph.Represents.length_ins (h : g.Represents M) (n : ℕ) :
    (g.ins n).length = M.degree Arc.dst n :=
  Multigraph.length_eq_degree (h.ins_spec n)

/-- One call on a graph does what it does on the multigraph. -/
theorem graphStep_represents (g : Graph) (M : Multigraph) (op : GraphOp) (hop : M.Pre op)
    (h : g.Represents M) : Ends (graphStep g op)
      (fun r => r.1 = (M.spec op).1 ∧ r.2.Represents (M.spec op).2) (M.MayFault op) := by
  cases op with
  | alloc =>
    obtain ⟨hn, hg⟩ := h.alloc
    exact ⟨congrArg _ hn, hg⟩
  | link from_ to_ =>
    have hfull (e : Fault) (he : e = .badShift ∧
        (2 ^ 30 ≤ (g.outs from_).length ∨ 2 ^ 30 ≤ (g.ins to_).length)) :
        M.MayFault (.link from_ to_) e := by
      rw [h.length_outs, h.length_ins] at he
      exact ⟨he.1, fun hroom => by have := hroom.1; have := hroom.2; omega⟩
    apply ((h.link hop.1 hop.2).fault_mono hfull).bind
    intro r ⟨he, hg⟩
    exact ⟨congrArg _ he, hg⟩
  | drop e =>
    apply Returns.ends
    apply (h.drop hop).bind
    intro g' hg
    exact .ok ⟨rfl, hg⟩
  | traverse n travtype rands =>
    apply (traverse_represents h hop travtype rands).bind
    intro t ht
    exact ⟨rfl, ht⟩

end

/-! ## Runs -/

/-- A multigraph without nodes. -/
def Multigraph.empty : Multigraph := ⟨0, []⟩

/-- A run of calls about nodes and edges that there are. -/
def ValidHistory (ops : List GraphOp) : Prop :=
  Admissible Multigraph.spec Multigraph.Pre .empty ops

/-- The multigraph that a run builds. -/
def built (ops : List GraphOp) : Multigraph := (runSpec Multigraph.spec .empty ops).2

theorem runs_represents {ops : List GraphOp} (hops : ValidHistory ops) :
    Ends (runs graphStep Graph.empty ops)
      (fun r => r.1 = (runSpec Multigraph.spec .empty ops).1 ∧ r.2.Represents (built ops))
      fun e => ∃ js op ks, ops = js ++ op :: ks ∧ (built js).MayFault op e :=
  Ends.runs_of_admissible Multigraph.spec Multigraph.Pre Graph.Represents Multigraph.MayFault
    graphStep_represents Graph.Represents.empty hops

/-! ## Fresh tags -/

/-- Every node and every edge that can be reached from `start` carries no tag, or the tag of
`start`. -/
def Graph.Settled (g : Graph) (start : ℕ) : Prop :=
  ∀ n, g.Reach start n → (g.nodeTag n = 0 ∨ g.nodeTag n = g.nodeTag start) ∧
    ∀ e ∈ g.outs n, g.edgeTag e = 0 ∨ g.edgeTag e = g.nodeTag start

/-- The tag that the traversal picks is carried by nothing that can be reached from `start`, and the
traversal visits all of that. -/
def Graph.FreshTraversal (g : Graph) (start : ℕ) (travtype : ℤ) (rands : List ℕ) : Prop :=
  ∀ tag, pickTag (g.nodeTag start) rands = .ok tag → g.Fresh start tag ∧
    (travtype = 0 ∨ travtype = 1 →
      Returns (traverse Buffer.ample g start travtype rands) fun t => g.Visited start tag t.graph)

/-- What `P` says of a graph and a traversal of it holds at every traversal of a run. -/
def AtTraversals (ops : List GraphOp) (P : Graph → ℕ → ℤ → List ℕ → Prop) : Prop :=
  ∀ js n travtype rands ks os g, ops = js ++ .traverse n travtype rands :: ks →
    runs graphStep Graph.empty js = .ok (os, g) → P g n travtype rands

theorem Graph.Settled.fresh {g : Graph} {start tag : ℕ} (h : g.Settled start)
    (htag : tag ≠ g.nodeTag start ∧ tag ≠ 0) : g.Fresh start tag := by
  intro n hn
  obtain ⟨hnode, hedges⟩ := h n hn
  refine ⟨fun heq => ?_, fun e he heq => ?_⟩
  · rcases hnode with h0 | h0 <;> omega
  · rcases hedges e he with h0 | h0 <;> omega

theorem Graph.settled_of_fresh {g : Graph} {start : ℕ}
    (h : ∀ tag, pickTag (g.nodeTag start) [tag] = .ok tag → g.Fresh start tag) :
    g.Settled start := by
  have hpick : ∀ tag, ¬ (tag = 0 ∨ tag = g.nodeTag start) →
      pickTag (g.nodeTag start) [tag] = .ok tag := by
    intro tag hne
    rw [pickTag, if_neg (by tauto)]
  intro n hn
  refine ⟨by_contra fun hne => ?_, fun e he => by_contra fun hne => ?_⟩
  · exact (h _ (hpick _ hne) n hn).1 rfl
  · exact (h _ (hpick _ hne) n hn).2 e he rfl

/-- **When the tags of traversals are fresh.** At every traversal of every run, the graph is settled
from the start node if and only if a traversal of either type that starts there picks, whatever
values `rand` returns, a tag that nothing within reach carries, and visits all that is within reach.
So in a run whose traversals all find settled graphs, every traversal does. -/
theorem traverse_fresh_iff_settled (ops : List GraphOp) (hops : ValidHistory ops) :
    (AtTraversals ops fun g n _ _ =>
      (g.Settled n ↔ ∀ travtype rands, g.FreshTraversal n travtype rands)) ∧
    (AtTraversals ops (fun g n _ _ => g.Settled n) → AtTraversals ops Graph.FreshTraversal) := by
  have hiff : AtTraversals ops fun g n _ _ =>
      (g.Settled n ↔ ∀ travtype rands, g.FreshTraversal n travtype rands) := by
    rintro js n travtype rands ks os g rfl hrun
    obtain ⟨hjs, hrest⟩ := admissible_append hops
    have hends := runs_represents hjs
    rw [hrun] at hends
    obtain ⟨-, h⟩ := hends
    have hn : n < (built js).order := hrest.1
    constructor
    · intro hsettled travtype rands tag htag
      have hpick := pickTag_spec (g.nodeTag n) rands
      rw [htag] at hpick
      have hfresh := hsettled.fresh hpick
      exact ⟨hfresh, fun htype => (traverse_sweeps h hn htype htag).mono fun t ht => ht.visits hfresh⟩
    · intro hfresh
      exact Graph.settled_of_fresh fun tag htag => (hfresh 0 [tag] tag htag).1
  refine ⟨hiff, fun hsettled js n travtype rands ks os g hsplit hrun => ?_⟩
  exact (hiff js n travtype rands ks os g hsplit hrun).1
    (hsettled js n travtype rands ks os g hsplit hrun) travtype rands

/-- A graph of two nodes that is traversed twice from one of them. -/
theorem traverse_fresh_twice :
    AtTraversals [.alloc, .alloc, .link 0 1, .traverse 0 1 [0, 5], .traverse 0 0 [5, 0, 6]]
      Graph.FreshTraversal := by
  refine (traverse_fresh_iff_settled _ ?_).2 ?_
  · simp [ValidHistory, Admissible, Multigraph.spec, Multigraph.Pre, Multigraph.empty,
      Multigraph.link]
  · intro js n travtype rands ks os g hsplit hrun m _
    suffices htags : ∀ a, (g.nodeTag a = 0 ∨ g.nodeTag a = g.nodeTag n) ∧
        (g.edgeTag a = 0 ∨ g.edgeTag a = g.nodeTag n) from
      ⟨(htags m).1, fun e _ => (htags e).2⟩
    -- the traversals are the fourth and the fifth call
    rcases js with _ | ⟨_, _ | ⟨_, _ | ⟨_, _ | ⟨_, _ | ⟨_, js⟩⟩⟩⟩⟩ <;> simp at hsplit
    · obtain ⟨rfl, rfl, rfl, ⟨rfl, rfl, rfl⟩, rfl⟩ := hsplit
      obtain ⟨-, rfl⟩ := Prod.mk.inj (Except.ok.inj (hrun.symm.trans rfl))
      rintro (_ | _ | a) <;> exact ⟨.inl rfl, .inl rfl⟩
    · obtain ⟨rfl, rfl, rfl, rfl, ⟨rfl, rfl, rfl⟩, rfl⟩ := hsplit
      obtain ⟨-, rfl⟩ := Prod.mk.inj (Except.ok.inj (hrun.symm.trans rfl))
      rintro (_ | _ | a)
      · exact ⟨.inr rfl, .inr rfl⟩
      · exact ⟨.inr rfl, .inl rfl⟩
      · exact ⟨.inl rfl, .inl rfl⟩

/-- A traversal from the node 2 picks the tag that one from the node 0 left on the node 1, and so
does not come to the node 3, which is behind that. -/
theorem not_fresh_of_stale_tag :
    ValidHistory [.alloc, .alloc, .link 0 1, .traverse 0 1 [5], .alloc, .alloc, .link 2 1, .link 1 3,
        .traverse 2 1 [5]] ∧
      ¬ AtTraversals [.alloc, .alloc, .link 0 1, .traverse 0 1 [5], .alloc, .alloc, .link 2 1,
        .link 1 3, .traverse 2 1 [5]] Graph.FreshTraversal := by
  constructor
  · simp [ValidHistory, Admissible, Multigraph.spec, Multigraph.Pre, Multigraph.empty,
      Multigraph.link]
  · intro h
    have hlast := h [.alloc, .alloc, .link 0 1, .traverse 0 1 [5], .alloc, .alloc, .link 2 1,
      .link 1 3] 2 1 [5] [] _ _ rfl rfl 5 rfl
    exact (hlast.1 1 (.single ⟨1, List.mem_singleton.2 rfl, rfl⟩)).1 rfl

end LibSrsBsns
