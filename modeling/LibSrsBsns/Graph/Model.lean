import LibSrsBsns.Deque.Model
import LibSrsBsns.Dynarr.Model
import LibSrsBsns.Foundations.C.Memory

/-!
# The graph

The model of `graph.c`. Nodes and edges live in memories of their own and are never freed. The
values that `rand` returns during a traversal are an argument of it, and the calls it makes to the
callbacks `nf` and `ef`, which do not change the graph, are recorded in order. The fields `from`, `to`
and `in` of the source are `from_`, `to_` and `in_`.
-/

namespace LibSrsBsns

open C

/-- `struct edge`. -/
structure Edge where
  from_ : ℕ
  to_ : ℕ
  travtag : ℕ

/-- `struct node`. -/
structure Node where
  in_ : Option (Dynarr ℕ)
  out : Option (Dynarr ℕ)
  travtag : ℕ

/-- The nodes and the edges that have been allocated. -/
structure Graph where
  nodes : Memory Node
  edges : Memory Edge

def Graph.empty : Graph := ⟨.empty, .empty⟩

def allocNode (g : Graph) : ℕ × Graph :=
  let (n, nodes) := g.nodes.alloc ⟨none, none, 0⟩
  (n, { g with nodes })

def fanOut (g : Graph) (n : ℕ) : Exec ℕ := do
  match (← g.nodes.load n).out with
  | none => .ok 0
  | some d => .ok (dynarrCount d)

def fanIn (g : Graph) (n : ℕ) : Exec ℕ := do
  match (← g.nodes.load n).in_ with
  | none => .ok 0
  | some d => .ok (dynarrCount d)

variable (mem : ℕ → Bool)

/-- `add_edge`, which makes the array at the first edge. -/
def addEdge (a : Option (Dynarr ℕ)) (e : ℕ) : Exec (Option (Dynarr ℕ)) :=
  match a with
  | none => do
    let d ← dynarrInit 1 true
    let d ← dynarrPut d 0 (some e) mem
    .ok (some d)
  | some d => do
    let (_, d) ← dynarrPush d (some e) mem
    .ok (some d)

/-- `del_edge`, which moves the last edge to the place of the one that it deletes. -/
def delEdge (a : Option (Dynarr ℕ)) (e : ℕ) : Exec (Option (Dynarr ℕ)) :=
  match a with
  | none => .error .nullDeref
  | some d => do
    let r ← dynarrFindraw d (some e) Buffer.indeterminate
    if r < 0 then .ok (some d)
    else do
      let i := r.toNat
      let last := dynarrCount d - 1
      let (x, d) ← dynarrGet d last mem Buffer.indeterminate
      let d ← dynarrPut d i x mem
      let d ← dynarrTruncate d last
      .ok (some d)

def mkedge (g : Graph) (from_ to_ : ℕ) : ℕ × Graph :=
  let (e, edges) := g.edges.alloc ⟨from_, to_, 0⟩
  (e, { g with edges })

def linkNode (g : Graph) (from_ to_ : ℕ) : Exec (ℕ × Graph) := do
  let (e, g) := mkedge g from_ to_
  let n ← g.nodes.load from_
  let out ← addEdge mem n.out e
  let nodes ← g.nodes.store from_ { n with out }
  let n ← nodes.load to_
  let in_ ← addEdge mem n.in_ e
  let nodes ← nodes.store to_ { n with in_ }
  .ok (e, { g with nodes })

def dropEdge (g : Graph) (e : ℕ) : Exec Graph := do
  let edge ← g.edges.load e
  let n ← g.nodes.load edge.from_
  let out ← delEdge mem n.out e
  let nodes ← g.nodes.store edge.from_ { n with out }
  let n ← nodes.load edge.to_
  let in_ ← delEdge mem n.in_ e
  let nodes ← nodes.store edge.to_ { n with in_ }
  .ok { g with nodes }

/-- The loop of `find_edge`, where `r` is what `dynarr_first` or `dynarr_next` has stored: the edge
found, and the array after. -/
def findEdgeLoop (edges : Memory Edge) (to_ : ℕ) :
    ℕ → Option (Option ℕ) × Dynarr ℕ → Exec (Ptr × Dynarr ℕ) :=
  loop fun
    | (none, d) => .ok (.inr (none, d))
    | (some x, d) => do
      let e ← deref x
      let edge ← edges.load e
      if edge.to_ = to_ then .ok (.inr (some e, d))
      else do
        let r ← dynarrNext d Buffer.indeterminate
        .ok (.inl r)

def findEdge (g : Graph) (from_ to_ : ℕ) : Exec (Ptr × Graph) := do
  let node ← g.nodes.load from_
  match node.out with
  | none => .error .nullDeref
  | some d => do
    let r ← dynarrFirst d Buffer.indeterminate
    let (e, d) ← findEdgeLoop g.edges to_ (dynarrCount d + 1) r
    let nodes ← g.nodes.store from_ { node with out := some d }
    .ok (e, { g with nodes })

def unlinkNode (g : Graph) (from_ to_ : ℕ) : Exec Graph := do
  let (e, g) ← findEdge g from_ to_
  let e ← deref e
  dropEdge mem g e

/-! ## Traversals -/

/-- A call of a callback: of `nf` for a node, or of `ef` for an edge. -/
inductive Visit
  | node (n : ℕ)
  | edge (e : ℕ)
  deriving DecidableEq

/-- The graph during a traversal, and the calls of callbacks so far. -/
structure Trav where
  graph : Graph
  log : List Visit

/-- The do-over loop of `trav_dfs` and `trav_bfs`, for a start node with the tag `travtag`. -/
def pickTag (travtag : ℕ) : List ℕ → Exec ℕ
  | [] => .error .spin
  | tag :: rands => if tag = travtag ∨ tag = 0 then pickTag travtag rands else .ok tag

/-- `n->travtag = tag`. -/
def Graph.tagNode (g : Graph) (n tag : ℕ) : Exec Graph := do
  let nodes ← g.nodes.modify n ({ · with travtag := tag })
  .ok { g with nodes }

/-- `e->travtag = tag`. -/
def Graph.tagEdge (g : Graph) (e tag : ℕ) : Exec Graph := do
  let edges ← g.edges.modify e ({ · with travtag := tag })
  .ok { g with edges }

/-- `dynarr_get(n->out, i)`, for an edge that is dereferenced. -/
def Graph.outEdge (g : Graph) (n i : ℕ) : Exec (ℕ × Graph) := do
  let node ← g.nodes.load n
  match node.out with
  | none => .error .nullDeref
  | some d => do
    let (x, d) ← dynarrGet d i mem Buffer.indeterminate
    let nodes ← g.nodes.store n { node with out := some d }
    let e ← deref x
    .ok (e, { g with nodes })

/-- The part of the loop of `trav_dfs_r` that marks the edge `e`, unless it is marked. -/
def Trav.meetEdge (t : Trav) (e tag : ℕ) : Exec Trav := do
  let edge ← t.graph.edges.load e
  if edge.travtag ≠ tag then do
    let g ← t.graph.tagEdge e tag
    .ok ⟨g, t.log ++ [.edge e]⟩
  else .ok t

/-- The body of the loop of `trav_dfs_r`, which goes on with `descend`. -/
def dfsEdge (tag n : ℕ) (descend : ℕ → Trav → Exec Trav) (i : ℕ) (t : Trav) : Exec Trav := do
  let (e, g) ← t.graph.outEdge mem n i
  let t ← Trav.meetEdge ⟨g, t.log⟩ e tag
  let edge ← t.graph.edges.load e
  descend edge.to_ ⟨t.graph, t.log ++ [.node n]⟩

/-- `trav_dfs_r`, with a bound for the depth of the recursion. -/
def travDfsR (tag : ℕ) : ℕ → ℕ → Trav → Exec Trav
  | 0, _, _ => .error .spin
  | depth + 1, n, t => do
    let node ← t.graph.nodes.load n
    if node.travtag = tag then .ok t
    else do
      let g ← t.graph.tagNode n tag
      let ec ← fanOut g n
      forRange (dfsEdge mem tag n (travDfsR tag depth)) 0 ec ⟨g, t.log⟩

def travDfs (g : Graph) (start : ℕ) (rands : List ℕ) : Exec Trav := do
  let n ← g.nodes.load start
  let tag ← pickTag n.travtag rands
  travDfsR mem tag (g.nodes.brk + 1) start ⟨g, []⟩

/-- The body of the inner loop of `trav_bfs`, at the edge with the index `i` of the node `n`. -/
def bfsEdge (tag n i : ℕ) (s : Trav × Stack ℕ) : Exec (Trav × Stack ℕ) := do
  let (t, st) := s
  let (e, g) ← t.graph.outEdge mem n i
  let edge ← g.edges.load e
  if edge.travtag ≠ tag then do
    let g ← g.tagEdge e tag
    let t : Trav := ⟨g, t.log ++ [.edge e]⟩
    let target ← g.nodes.load edge.to_
    if target.travtag ≠ tag then do
      let st ← stackPush st (some edge.to_) mem
      .ok (t, st)
    else .ok (t, st)
  else .ok (⟨g, t.log⟩, st)

/-- The outer loop of `trav_bfs`. -/
def bfsLoop (tag : ℕ) : ℕ → Trav × Stack ℕ → Exec Trav :=
  loop fun (t, st) => do
    let (x, st) ← stackPop st
    match x with
    | none => .ok (.inr t)
    | some n => do
      let node ← t.graph.nodes.load n
      if node.travtag = tag then .ok (.inl (t, st))
      else do
        let g ← t.graph.tagNode n tag
        let ec ← fanOut g n
        let s ← forRange (bfsEdge mem tag n) 0 ec (⟨g, t.log ++ [.node n]⟩, st)
        .ok (.inl s)

def travBfs (g : Graph) (start : ℕ) (rands : List ℕ) : Exec Trav := do
  let n ← g.nodes.load start
  let tag ← pickTag n.travtag rands
  let st ← stackPush (stackInit 16) (some start) mem
  bfsLoop mem tag (g.edges.brk + 2) (⟨g, []⟩, st)

/-- `traverse`; for a type that is neither `TRAV_BFS` nor `TRAV_DFS` it only complains. -/
def traverse (g : Graph) (n : ℕ) (travtype : ℤ) (rands : List ℕ) : Exec Trav :=
  if travtype = 1 then travDfs mem g n rands
  else if travtype = 0 then travBfs mem g n rands
  else .ok ⟨g, []⟩

end LibSrsBsns
