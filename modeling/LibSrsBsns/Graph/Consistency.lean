import LibSrsBsns.Graph.History

/-!
# When the adjacency lists stay consistent

`link_node` appends to one array of each kind, and these grow by doubling, as far as the shift of an
`int` can express it: an array comes to `2 ^ 30` slots and to no more (`Capped`), so that a node can
have `2 ^ 30` edges of either kind, and the next one is not defined. `graph_adjacency_iff` says that
this is all that can go wrong while a graph is built.
-/

namespace LibSrsBsns

open C

/-! ## The size of arrays -/

section

variable {d : Dynarr ℕ} {a : Option (Dynarr ℕ)} {es : List ℕ} {e n u v : ℕ}

/-- The array has at most `2 ^ 30` slots. -/
def Capped (a : Option (Dynarr ℕ)) : Prop := ∀ d ∈ a, d.nelem ≤ 2 ^ 30

theorem capped_some : Capped (some d) ↔ d.nelem ≤ 2 ^ 30 :=
  ⟨fun h => h d rfl, fun h _ hd => Option.some.inj hd ▸ h⟩

theorem dynarrResize_nelem (d : Dynarr ℕ) (newsz : ℕ) (mem : ℕ → Bool) :
    Ends (dynarrResize d newsz mem) (fun r => r.2.nelem = d.nelem ∨ r.2.nelem = newsz)
      fun _ => True := by
  unfold dynarrResize
  refine .ite (fun _ => .inl rfl) fun _ => ?_
  apply (Ends.trivial _).bind
  intro newloc _
  cases d.nulling with
  | false => exact .inr rfl
  | true =>
    apply (Ends.trivial _).bind
    intro newloc _
    exact .inr rfl

/-- The shift expresses no more than `2 ^ 30`. -/
theorem provideIndex_capped (h : d.nelem ≤ 2 ^ 30) (index : ℕ) (mem : ℕ → Bool) :
    Ends (provideIndex d index mem) (·.nelem ≤ 2 ^ 30) fun _ => True := by
  unfold provideIndex shiftOne
  refine .ite (fun _ => ?_) fun _ => h
  generalize (if index = 0 then 0 else Nat.log2 index + 1) = k
  by_cases hk : k < 31
  · rw [if_pos hk, ok_bind]
    apply (dynarrResize_nelem d (2 ^ k) mem).bind
    rintro ⟨ok, d'⟩ hd'
    have hpow : 2 ^ k ≤ 2 ^ 30 := Nat.pow_le_pow_right (by decide) (by omega)
    exact .ite (fun _ => trivial) fun _ => hd'.elim (fun heq => heq.trans_le h)
      fun heq => heq.trans_le hpow
  · rw [if_neg hk]
    trivial

theorem dynarrPush_capped (h : d.nelem ≤ 2 ^ 30) (x : Option ℕ) (mem : ℕ → Bool) :
    Ends (dynarrPush d x mem) (·.2.nelem ≤ 2 ^ 30) fun _ => True := by
  apply (provideIndex_capped h d.nused mem).bind
  intro d' hd'
  apply (Ends.trivial _).bind
  intro data _
  exact hd'

theorem dynarrPut_capped (h : d.nelem ≤ 2 ^ 30) (index : ℕ) (x : Option ℕ) (mem : ℕ → Bool) :
    Ends (dynarrPut d index x mem) (·.nelem ≤ 2 ^ 30) fun _ => True := by
  apply (provideIndex_capped h index mem).bind
  intro d' hd'
  apply (Ends.trivial _).bind
  intro data _
  exact hd'

theorem dynarrGet_capped (h : d.nelem ≤ 2 ^ 30) (index : ℕ) (mem : ℕ → Bool)
    (unset : ℕ → Exec (Option ℕ)) :
    Ends (dynarrGet d index mem unset) (·.2.nelem ≤ 2 ^ 30) fun _ => True := by
  apply (provideIndex_capped h index mem).bind
  intro d' hd'
  apply (Ends.trivial _).bind
  intro x _
  exact hd'

theorem dynarrTruncate_capped (h : d.nelem ≤ 2 ^ 30) (fromindex : ℕ) :
    Ends (dynarrTruncate d fromindex) (·.nelem ≤ 2 ^ 30) fun _ => True := by
  unfold dynarrTruncate
  cases d.nulling with
  | false => exact h
  | true =>
    apply (Ends.trivial _).bind
    intro data _
    exact h

theorem addEdge_capped (h : Capped a) (e : ℕ) (mem : ℕ → Bool) :
    Ends (addEdge mem a e) Capped fun _ => True := by
  cases a with
  | none =>
    obtain ⟨d, hd, hnelem⟩ : Returns (dynarrInit 1 true : Exec (Dynarr ℕ)) (·.nelem = 1) :=
      ⟨_, rfl, rfl⟩
    simp only [addEdge, hd, ok_bind]
    apply (dynarrPut_capped (by omega) 0 (some e) mem).bind
    intro d' hd'
    exact capped_some.2 hd'
  | some d =>
    apply (dynarrPush_capped (capped_some.1 h) (some e) mem).bind
    intro r hr
    exact capped_some.2 hr

theorem delEdge_capped (h : Capped a) (e : ℕ) (mem : ℕ → Bool) :
    Ends (delEdge mem a e) Capped fun _ => True := by
  cases a with
  | none => trivial
  | some d =>
    apply (Ends.trivial _).bind
    intro r _
    refine .ite (fun _ => h) fun _ => ?_
    apply (dynarrGet_capped (capped_some.1 h) _ mem _).bind
    rintro ⟨x, d₁⟩ h₁
    apply (dynarrPut_capped h₁ _ x mem).bind
    intro d₂ h₂
    apply (dynarrTruncate_capped h₂ _).bind
    intro d₃ h₃
    exact capped_some.2 h₃

/-- An array with `2 ^ 30` edges in it takes no more. -/
theorem addEdge_of_full (h : AdjList a es) (hcap : Capped a) (hfull : 2 ^ 30 ≤ es.length) (e : ℕ)
    (mem : ℕ → Bool) : addEdge mem a e = .error .badShift := by
  cases a with
  | none =>
    obtain rfl : es = [] := h
    exact absurd hfull (by decide)
  | some d =>
    have hlist : d.Lists (es.map some) := h
    have hused : d.nused = es.length := by rw [hlist.used, List.length_map]
    have hnelem := capped_some.1 hcap
    rw [addEdge, dynarrPush, provideIndex_of_ge (by omega) (by omega), error_bind, error_bind]

end

/-! ## The size of the arrays of a graph -/

/-- All arrays of the graph have at most `2 ^ 30` slots. -/
def Graph.Capped (g : Graph) : Prop :=
  ∀ n node, g.nodes.cell n = some node → LibSrsBsns.Capped node.out ∧ LibSrsBsns.Capped node.in_

namespace Graph.Capped

variable {g : Graph} {n u v : ℕ} {node : Node}

theorem empty : Graph.empty.Capped := by
  intro n node hn
  cases hn

theorem put (h : g.Capped) (node : Node)
    (hnode : LibSrsBsns.Capped node.out ∧ LibSrsBsns.Capped node.in_) (edges : Memory Edge) :
    Capped ⟨g.nodes.put n node, edges⟩ := by
  intro m node' hm
  have hm : (g.nodes.put n node).cell m = some node' := hm
  by_cases hmn : m = n
  · rw [hmn, Memory.put_cell_self] at hm
    exact Option.some.inj hm ▸ hnode
  · rw [Memory.put_cell_of_ne hmn] at hm
    exact h m node' hm

theorem load (h : g.Capped) (n : ℕ) : Ends (g.nodes.load n)
    (fun node => LibSrsBsns.Capped node.out ∧ LibSrsBsns.Capped node.in_) fun _ => True := by
  cases hload : g.nodes.load n with
  | ok node => exact h n node (Memory.load_eq_ok.1 hload)
  | error e => trivial

theorem store (h : g.Capped) (n : ℕ) (node : Node)
    (hnode : LibSrsBsns.Capped node.out ∧ LibSrsBsns.Capped node.in_) (edges : Memory Edge) :
    Ends (g.nodes.store n node) (fun nodes => Capped ⟨nodes, edges⟩) fun _ => True := by
  apply (Ends.trivial _).bind
  intro _ _
  exact h.put node hnode edges

theorem alloc (h : g.Capped) : (allocNode g).2.Capped := by
  have hnone : LibSrsBsns.Capped none := by
    intro d hd
    cases hd
  exact h.put ⟨none, none, 0⟩ ⟨hnone, hnone⟩ g.edges

theorem link (h : g.Capped) (u v : ℕ) (mem : ℕ → Bool) :
    Ends (linkNode mem g u v) (·.2.Capped) fun _ => True := by
  apply (h.load u).bind
  intro nu hnu
  apply (addEdge_capped hnu.1 _ mem).bind
  intro out hout
  apply (h.store u { nu with out } ⟨hout, hnu.2⟩ (mkedge g u v).2.edges).bind
  intro nodes hnodes
  apply (hnodes.load v).bind
  intro nv hnv
  apply (addEdge_capped hnv.2 _ mem).bind
  intro in_ hin
  apply (hnodes.store v { nv with in_ } ⟨hnv.1, hin⟩ (mkedge g u v).2.edges).bind
  intro nodes' hnodes'
  exact hnodes'

theorem drop (h : g.Capped) (e : ℕ) (mem : ℕ → Bool) :
    Ends (dropEdge mem g e) Graph.Capped fun _ => True := by
  apply (Ends.trivial _).bind
  intro edge _
  apply (h.load edge.from_).bind
  intro nu hnu
  apply (delEdge_capped hnu.1 _ mem).bind
  intro out hout
  apply (h.store edge.from_ { nu with out } ⟨hout, hnu.2⟩ g.edges).bind
  intro nodes hnodes
  apply (hnodes.load edge.to_).bind
  intro nv hnv
  apply (delEdge_capped hnv.2 _ mem).bind
  intro in_ hin
  apply (hnodes.store edge.to_ { nv with in_ } ⟨hnv.1, hin⟩ g.edges).bind
  intro nodes' hnodes'
  exact hnodes'

end Graph.Capped

/-- Where the list of an end is full, `link_node` shifts too far. -/
theorem Graph.Represents.link_of_full {g : Graph} {M : Multigraph} {u v : ℕ} (h : g.Represents M)
    (hcap : g.Capped) (hu : u < M.order) (hv : v < M.order)
    (hfull : 2 ^ 30 ≤ (g.outs u).length ∨ 2 ^ 30 ≤ (g.ins v).length) :
    ¬ Returns (linkNode Buffer.ample g u v) fun _ => True := by
  obtain ⟨nu, hnu⟩ := h.node u hu
  have hout := (h.out u nu hnu).list
  simp only [linkNode, mkedge, Memory.alloc, Memory.load_of_cell hnu, ok_bind]
  rintro ⟨r, hr, -⟩
  obtain ⟨out, haddOut, hr⟩ := bind_eq_ok.1 hr
  rw [Memory.store_of_cell hnu, ok_bind] at hr
  obtain ⟨nv, hnv⟩ := Memory.exists_put_cell (h.node v hv) u { nu with out }
  rw [Memory.load_of_cell hnv, ok_bind] at hr
  obtain ⟨in_, haddIn, -⟩ := bind_eq_ok.1 hr
  rcases hfull with hfull | hfull
  · rw [Graph.outs_of_cell hnu] at hfull
    rw [addEdge_of_full hout (hcap u nu hnu).1 hfull] at haddOut
    cases haddOut
  · obtain ⟨node, hnode, hin⟩ := Graph.ins_of_put_out hnu hnv
    rw [Graph.ins_of_cell hnode, hin] at hfull
    rw [addEdge_of_full (hin ▸ (h.in_ v node hnode).list) (hin ▸ (hcap v node hnode).2) hfull] at haddIn
    cases haddIn

/-! ## Runs that build a graph -/

/-- The call is one of those that build a graph. -/
def GraphOp.Builds : GraphOp → Prop
  | .traverse .. => False
  | _ => True

/-- In every call of the run that links two nodes, the lists of both have room. -/
def Roomy (ops : List GraphOp) : Prop :=
  Admissible Multigraph.spec Multigraph.HasRoom .empty ops

/-- The adjacency lists of `g` agree with `M`: each edge has the ends of its arc, the lists of a node
hold the live arcs that leave and enter it once each, and all lists of one kind are as long together
as there are live arcs. -/
structure Graph.Consistent (g : Graph) (M : Multigraph) : Prop where
  edge : ∀ e arc, M.arcs[e]? = some arc → ∃ tag, g.edges.cell e = some ⟨arc.src, arc.dst, tag⟩
  outs : ∀ n, (g.outs n).Nodup ∧ ∀ e, e ∈ g.outs n ↔ LiveAt M.arcs Arc.src n e
  ins : ∀ n, (g.ins n).Nodup ∧ ∀ e, e ∈ g.ins n ↔ LiveAt M.arcs Arc.dst n e
  fanOut : ∀ n < M.order, fanOut g n = .ok (g.outs n).length
  fanIn : ∀ n < M.order, fanIn g n = .ok (g.ins n).length
  sum_fanOut : ∑ n ∈ Finset.range M.order, (g.outs n).length = M.live.card
  sum_fanIn : ∑ n ∈ Finset.range M.order, (g.ins n).length = M.live.card

theorem Graph.Represents.consistent {g : Graph} {M : Multigraph} (h : g.Represents M) :
    g.Consistent M where
  edge := h.edge
  outs := h.outs_spec
  ins := h.ins_spec
  fanOut _ := h.fanOut
  fanIn _ := h.fanIn
  sum_fanOut := M.sum_length_eq_card_live Arc.src (fun arc harc => (h.closed arc harc).1) _ h.outs_spec
  sum_fanIn := M.sum_length_eq_card_live Arc.dst (fun arc harc => (h.closed arc harc).2) _ h.ins_spec

/-- The graph `g'` is `g` without the edge `e` in its lists. -/
def Graph.Without (g : Graph) (e : ℕ) (g' : Graph) : Prop :=
  ∀ n e', (e' ∈ g'.outs n ↔ e' ∈ g.outs n ∧ e' ≠ e) ∧ (e' ∈ g'.ins n ↔ e' ∈ g.ins n ∧ e' ≠ e)

/-- The adjacency lists of `g` agree with `M`, and `drop_edge` takes its edge from them and no other. -/
structure Graph.Keeps (g : Graph) (M : Multigraph) : Prop where
  consistent : g.Consistent M
  drop : ∀ e < M.arcs.length, Returns (dropEdge Buffer.ample g e) (g.Without e)

theorem Graph.Represents.keeps {g : Graph} {M : Multigraph} (h : g.Represents M) : g.Keeps M := by
  refine ⟨h.consistent, fun e he => (h.drop he).mono fun g' h' n e' => ?_⟩
  rw [(h'.outs_spec n).2, (h'.ins_spec n).2, (h.outs_spec n).2, (h.ins_spec n).2]
  exact ⟨Incident.liveAt_drop .., Incident.liveAt_drop ..⟩

variable {ops : List GraphOp} {M : Multigraph} {u v : ℕ}

/-- The calls of a run that returns have had room. -/
theorem roomy_of_returns {g : Graph} (h : g.Represents M) (hcap : g.Capped)
    (hbuild : ∀ op ∈ ops, op.Builds) (hops : Admissible Multigraph.spec Multigraph.Pre M ops)
    (hret : Returns (runs graphStep g ops) fun _ => True) :
    Admissible Multigraph.spec Multigraph.HasRoom M ops := by
  induction ops generalizing g M with
  | nil => trivial
  | cons op ops ih =>
    obtain ⟨⟨os, g'⟩, hrun, -⟩ := hret
    obtain ⟨o, g₁, os', hstep, hrest, -⟩ := runs_cons_eq_ok hrun
    have hends := graphStep_represents g M op hops.1 h
    rw [hstep] at hends
    have hbuild' : ∀ op ∈ ops, op.Builds := fun op hop => hbuild op (List.mem_cons_of_mem _ hop)
    have hnext (hcap₁ : g₁.Capped) :=
      ih hends.2 hcap₁ hbuild' hops.2 ⟨(os', g'), hrest, trivial⟩
    cases op with
    | alloc =>
      obtain ⟨-, rfl⟩ := Prod.mk.inj (Except.ok.inj hstep)
      exact ⟨trivial, hnext hcap.alloc⟩
    | link u v =>
      obtain ⟨⟨e, g₂⟩, hlink, heq⟩ := bind_eq_ok.1 hstep
      obtain ⟨-, rfl⟩ := Prod.mk.inj (Except.ok.inj heq)
      have hcap₁ := hcap.link u v Buffer.ample
      rw [hlink] at hcap₁
      refine ⟨?_, hnext hcap₁⟩
      by_contra hnot
      refine h.link_of_full hcap hops.1.1 hops.1.2 ?_ ⟨_, hlink, trivial⟩
      rw [h.length_outs, h.length_ins]
      exact (not_and_or.1 hnot).imp not_lt.1 not_lt.1
    | drop e =>
      obtain ⟨g₂, hdrop, heq⟩ := bind_eq_ok.1 hstep
      obtain ⟨-, rfl⟩ := Prod.mk.inj (Except.ok.inj heq)
      have hcap₁ := hcap.drop e Buffer.ample
      rw [hdrop] at hcap₁
      exact ⟨trivial, hnext hcap₁⟩
    | traverse => exact (hbuild _ List.mem_cons_self).elim

/-- With room for all edges, a run can only end in a traversal. -/
theorem not_mayFault_of_roomy (hbuild : ∀ op ∈ ops, op.Builds) (hroom : Roomy ops) (e : Fault) :
    ¬ ∃ js op ks, ops = js ++ op :: ks ∧ (built js).MayFault op e := by
  rintro ⟨js, op, ks, rfl, hfault⟩
  have hop := (admissible_append hroom).2.1
  cases op with
  | link u v => exact hfault.2 hop
  | traverse n travtype rands => exact hbuild (.traverse n travtype rands) (by simp)
  | _ => exact hfault

/-- **When adjacency lists stay consistent.** Every run of calls that build a graph returns and leaves
the adjacency lists in agreement with the multigraph that was built, and `drop_edge` taking its edge
from the lists and no other, if and only if no list of a node has to take more than `2 ^ 30` edges. -/
theorem graph_adjacency_iff (hbuild : ∀ op ∈ ops, op.Builds) (hops : ValidHistory ops) :
    (Returns (runs graphStep Graph.empty ops) fun r =>
      r.1 = (runSpec Multigraph.spec .empty ops).1 ∧ r.2.Keeps (built ops)) ↔ Roomy ops := by
  constructor
  · intro hret
    exact roomy_of_returns Graph.Represents.empty .empty hbuild hops (hret.mono fun _ _ => trivial)
  · intro hroom
    apply ((runs_represents hops).returns (not_mayFault_of_roomy hbuild hroom)).mono
    intro r ⟨hout, h⟩
    exact ⟨hout, h.keeps⟩

theorem Multigraph.degree_le (M : Multigraph) (f : Arc → ℕ) (n : ℕ) : M.degree f n ≤ M.arcs.length := by
  have hle : M.degree f n ≤ (Finset.range M.arcs.length).card :=
    Finset.card_le_card ((Finset.filter_subset ..).trans (Finset.filter_subset ..))
  rwa [Finset.card_range] at hle

/-- A run of at most `2 ^ 30` calls has room. -/
theorem roomy_of_length_le (hlen : M.arcs.length + ops.length ≤ 2 ^ 30) :
    Admissible Multigraph.spec Multigraph.HasRoom M ops := by
  induction ops generalizing M with
  | nil => trivial
  | cons op ops ih =>
    rw [List.length_cons] at hlen
    cases op with
    | link u v =>
      have hsrc := M.degree_le Arc.src u
      have hdst := M.degree_le Arc.dst v
      refine ⟨⟨by omega, by omega⟩, ih ?_⟩
      show (M.arcs ++ [_]).length + ops.length ≤ 2 ^ 30
      rw [List.length_append, List.length_singleton]
      omega
    | drop e =>
      refine ⟨trivial, ih ?_⟩
      show (M.arcs.modify e _).length + ops.length ≤ 2 ^ 30
      rw [List.length_modify]
      omega
    | _ => exact ⟨trivial, ih (show M.arcs.length + ops.length ≤ 2 ^ 30 by omega)⟩

/-- A self loop and two parallel edges, of which one is dropped twice. -/
theorem graph_adjacency_loop :
    Returns (runs graphStep Graph.empty
        [.alloc, .alloc, .link 0 0, .link 0 1, .link 0 1, .drop 1, .drop 1]) fun r =>
      (r.2.outs 0).Nodup ∧ 2 ∈ r.2.outs 0 ∧ 1 ∉ r.2.outs 0 ∧
        (r.2.outs 0).length + (r.2.outs 1).length = 2 := by
  have hvalid : ValidHistory [.alloc, .alloc, .link 0 0, .link 0 1, .link 0 1, .drop 1, .drop 1] := by
    simp [ValidHistory, Admissible, Multigraph.spec, Multigraph.Pre, Multigraph.empty,
      Multigraph.link, Multigraph.drop]
  apply ((graph_adjacency_iff (by simp [GraphOp.Builds]) hvalid).2
    (roomy_of_length_le (by decide))).mono
  rintro r ⟨-, hcons, -⟩
  refine ⟨(hcons.outs 0).1, ((hcons.outs 0).2 2).2 ⟨⟨0, 1, true⟩, rfl, rfl, rfl⟩, fun h => ?_, ?_⟩
  · obtain ⟨arc, harc, hlive, -⟩ := ((hcons.outs 0).2 1).1 h
    obtain rfl : (⟨0, 1, false⟩ : Arc) = arc := Option.some.inj harc
    cases hlive
  · have hsum := hcons.sum_fanOut
    rw [show (built _).order = 2 from rfl, Finset.sum_range_succ, Finset.sum_range_one] at hsum
    exact hsum.trans (by decide)

/-! ## A node with too many edges -/

theorem Multigraph.degree_link_src (M : Multigraph) (u v : ℕ) :
    (M.link u v).degree Arc.src u = M.degree Arc.src u + 1 := by
  have hnew : M.arcs.length ∉ M.liveAt Arc.src u := by
    rw [mem_liveAt]
    rintro ⟨arc, harc, -⟩
    simp at harc
  rw [degree, degree, ← Finset.card_insert_of_notMem hnew]
  congr 1
  ext e
  rw [Finset.mem_insert, mem_liveAt, mem_liveAt, link, Incident.liveAt_concat, or_comm]
  simp

/-- Edges from one node to another can be linked as often as there is room. -/
theorem degree_lt_of_roomy {k : ℕ} (h : Admissible Multigraph.spec Multigraph.HasRoom M
    (List.replicate (k + 1) (.link u v))) : M.degree Arc.src u + k < 2 ^ 30 := by
  induction k generalizing M with
  | zero => exact h.1.1
  | succ k ih =>
    have hrest : (M.link u v).degree Arc.src u + k < 2 ^ 30 := ih h.2
    rw [M.degree_link_src] at hrest
    omega

theorem admissible_replicate_link (hu : u < M.order) (hv : v < M.order) (k : ℕ) :
    Admissible Multigraph.spec Multigraph.Pre M (List.replicate k (.link u v)) := by
  induction k generalizing M with
  | zero => trivial
  | succ k ih => exact ⟨⟨hu, hv⟩, ih hu hv⟩

/-- Two nodes, and more than `2 ^ 30` edges from the first to the second. -/
def manyLinks : List GraphOp := .alloc :: .alloc :: List.replicate (2 ^ 30 + 1) (.link 0 1)

theorem not_keeps_of_manyLinks : (∀ op ∈ manyLinks, op.Builds) ∧ ValidHistory manyLinks ∧
    ¬ Returns (runs graphStep Graph.empty manyLinks) fun r =>
      r.1 = (runSpec Multigraph.spec .empty manyLinks).1 ∧ r.2.Keeps (built manyLinks) := by
  have hbuild : ∀ op ∈ manyLinks, op.Builds := by
    intro op hop
    simp only [manyLinks, List.mem_cons, List.mem_replicate] at hop
    rcases hop with rfl | rfl | ⟨-, rfl⟩ <;> trivial
  have hlinks : Admissible Multigraph.spec Multigraph.Pre ⟨2, []⟩
      (List.replicate (2 ^ 30 + 1) (.link 0 1)) := admissible_replicate_link (by decide) (by decide) _
  have hvalid : ValidHistory manyLinks := ⟨trivial, trivial, hlinks⟩
  refine ⟨hbuild, hvalid, fun hret => ?_⟩
  have hroom : Roomy manyLinks :=
    roomy_of_returns Graph.Represents.empty .empty hbuild hvalid (hret.mono fun _ _ => trivial)
  have hlt := degree_lt_of_roomy hroom.2.2
  omega

end LibSrsBsns
