import Mathlib.Data.List.Induction
import Mathlib.Data.List.Lex
import Mathlib.Data.List.Nodup
import Mathlib.Order.Bounds.Basic
import Mathlib.Order.Lattice.Nat

/-!
# Searching with a stack

A search takes nodes from a stack. A node that has not been visited is visited, and the nodes next to
it that have not been visited are pushed, the first of them on top. In the end everything that can be
reached has been visited once (`Search.mem_iff`, `Search.nodup`).

A path is given by the choices made on the way, the places of its nodes among those next to the node
before. The search visits nodes in the lexicographic order of the first simple paths to them
(`Search.pairwise_iff`): every place on the stack has a path, the paths ascend from the nodes visited
to the bottom of the stack, and no simple path to a node that has not been visited comes before all
paths on the stack (`Routes`).
-/

namespace LibSrsBsns.StackSearch

variable {α : Type}

/-! ## Paths -/

section

variable (next : α → List α)

/-- The choices `ks` lead from `s` to `x`, through the nodes `xs`. -/
inductive Path (s : α) : List ℕ → List α → α → Prop
  | nil : Path s [] [s] s
  | snoc {ks : List ℕ} {xs : List α} {x y : α} {k : ℕ} (h : Path s ks xs x)
      (hk : (next x)[k]? = some y) : Path s (ks ++ [k]) (xs ++ [y]) y

/-- The choices `ks` lead from `s` to `x`, through no node twice. -/
def Simple (s x : α) (ks : List ℕ) : Prop := ∃ xs, Path next s ks xs x ∧ xs.Nodup

/-- The choices `ks` are the first that lead from `s` to `x` through no node twice. -/
def FirstPath (s x : α) (ks : List ℕ) : Prop := IsLeast {ks | Simple next s x ks} ks

end

variable {next : α → List α} {s x y : α} {ks ls : List ℕ} {xs ys : List α} {k : ℕ}

namespace Path

/-- The end is the last of the nodes. -/
theorem exists_concat (h : Path next s ks xs x) : ∃ ys, xs = ys ++ [x] := by
  cases h with
  | nil => exact ⟨[], rfl⟩
  | snoc h hk => exact ⟨_, rfl⟩

theorem end_mem (h : Path next s ks xs x) : x ∈ xs := by
  obtain ⟨ys, rfl⟩ := h.exists_concat
  simp

/-- The choices determine where a path leads. -/
theorem unique (h : Path next s ks xs x) (h' : Path next s ks ys y) : xs = ys ∧ x = y := by
  induction h generalizing ys y with
  | nil =>
    generalize hks : ([] : List ℕ) = ks at h'
    cases h' with
    | nil => exact ⟨rfl, rfl⟩
    | snoc h' hk => simp at hks
  | @snoc ks xs x z k h hk ih =>
    generalize hks : ks ++ [k] = ls at h'
    cases h' with
    | nil => simp at hks
    | snoc h' hk' =>
      obtain ⟨rfl, hkk⟩ := List.append_inj' hks rfl
      obtain rfl := List.singleton_inj.1 hkk
      obtain ⟨rfl, rfl⟩ := ih h'
      obtain rfl := Option.some.inj (hk.symm.trans hk')
      exact ⟨rfl, rfl⟩

/-- The first part of a path. -/
theorem split (h : Path next s (ks ++ ls) xs x) :
    ∃ ys zs y, xs = ys ++ zs ∧ Path next s ks ys y ∧ zs.length = ls.length := by
  induction ls using List.reverseRecOn generalizing xs x with
  | nil => exact ⟨xs, [], x, by simp, by simpa using h, rfl⟩
  | append_singleton ls l ih =>
    rw [← List.append_assoc] at h
    generalize hks : ks ++ ls ++ [l] = ms at h
    cases h with
    | nil => simp at hks
    | snoc h hk =>
      obtain ⟨rfl, -⟩ := List.append_inj' hks rfl
      obtain ⟨ys, zs, y, rfl, hy, hlen⟩ := ih h
      exact ⟨ys, _, y, List.append_assoc .., hy, by simp [hlen]⟩

/-- A simple path leads to its end only once. -/
theorem not_prefix (h : Path next s ks xs x) (hxs : xs.Nodup) (h' : Path next s ls ys x)
    (hne : ls ≠ ks) : ¬ ls <+: ks := by
  rintro ⟨ms, rfl⟩
  obtain ⟨ys', zs, y, rfl, hy, hlen⟩ := h.split
  obtain ⟨rfl, rfl⟩ := hy.unique h'
  have hzs : zs ≠ [] := by
    rintro rfl
    obtain rfl : ms = [] := List.length_eq_zero_iff.1 hlen.symm
    exact hne (List.append_nil _).symm
  obtain ⟨ws, hws⟩ := h.exists_concat
  obtain ⟨zs, z, rfl⟩ := (List.eq_nil_or_concat' zs).resolve_left hzs
  rw [← List.append_assoc] at hws
  obtain rfl := List.singleton_inj.1 (List.append_inj' hws rfl).2
  exact List.disjoint_of_nodup_append hxs hy.end_mem (by simp)

end Path

/-! ## Lists in lexicographic order -/

theorem lt_snoc (ks : List ℕ) (k : ℕ) : ks < ks ++ [k] := by
  induction ks with
  | nil => exact List.nil_lt_cons _ _
  | cons l ks ih => exact List.cons_lt_cons_self.2 ih

theorem snoc_lt_snoc {k l : ℕ} (h : k < l) : ks ++ [k] < ks ++ [l] := by
  induction ks with
  | nil => exact List.cons_lt_cons_iff.2 (.inl h)
  | cons m ks ih => exact List.cons_lt_cons_self.2 ih

/-- Lists that differ at some place are in the same order however they go on. -/
theorem append_lt_append (h : ks < ls) (hne : ¬ ks <+: ls) (ks' ls' : List ℕ) :
    ks ++ ks' < ls ++ ls' := by
  induction ks generalizing ls with
  | nil => exact absurd List.nil_prefix hne
  | cons k ks ih =>
    cases ls with
    | nil => exact absurd h (List.not_lt_nil _)
    | cons l ls =>
      rcases List.cons_lt_cons_iff.1 h with hkl | ⟨rfl, hlt⟩
      · exact List.cons_lt_cons_iff.2 (.inl hkl)
      · exact List.cons_lt_cons_self.2 (ih hlt fun hp => hne (List.cons_prefix_cons.2 ⟨rfl, hp⟩))

/-! ## The search -/

section

variable (next)

/-- The states of a search from `s`: the nodes visited, in order, and the stack. -/
inductive Search [DecidableEq α] (s : α) : List α → List α → Prop
  | init : Search s [] [s]
  | skip {vs st : List α} {x : α} (h : Search s vs (x :: st)) (hx : x ∈ vs) : Search s vs st
  | visit {vs st : List α} {x : α} (h : Search s vs (x :: st)) (hx : x ∉ vs) :
      Search s (vs ++ [x]) ((next x).filter (· ∉ vs ++ [x]) ++ st)

/-- The nodes visited and the places on the stack, each with a path to it. -/
structure Routes (s : α) (V W : List (List ℕ × α)) : Prop where
  least : ∀ p ∈ V, FirstPath next s p.2 p.1
  trail : ∀ p ∈ V, ∃ xs, Path next s p.1 xs p.2 ∧ xs.Nodup ∧ xs ⊆ V.map Prod.snd
  fringe : ∀ q ∈ W, (V = [] ∧ q = ([], s)) ∨
    ∃ p ∈ V, ∃ k, q.1 = p.1 ++ [k] ∧ (next p.2)[k]? = some q.2
  sorted : (V ++ W).Pairwise fun p q => p.1 < q.1
  start : s ∈ V.map Prod.snd ∨ ([], s) ∈ W
  covers : ∀ p ∈ V, ∀ k y, (next p.2)[k]? = some y → y ∈ V.map Prod.snd ∨ (p.1 ++ [k], y) ∈ W

/-- The places that visiting `x` by the path `ks` pushes. -/
def pushes [DecidableEq α] (vs : List α) (ks : List ℕ) (x : α) : List (List ℕ × α) :=
  ((next x).zipIdx.filter fun q => q.1 ∉ vs).map fun q => (ks ++ [q.2], q.1)

end

namespace Routes

variable {V W : List (List ℕ × α)}

theorem init (next : α → List α) (s : α) : Routes next s [] [([], s)] where
  least p hp := absurd hp List.not_mem_nil
  trail p hp := absurd hp List.not_mem_nil
  fringe q hq := .inl ⟨rfl, List.mem_singleton.1 hq⟩
  sorted := by simp
  start := .inr (by simp)
  covers p hp := absurd hp List.not_mem_nil

/-- No simple path to a node that has not been visited comes before all paths on the stack. -/
theorem frontier (h : Routes next s V W) (hp : Path next s ks xs x) (hxs : xs.Nodup) :
    x ∈ V.map Prod.snd ∨ ∃ q ∈ W, q.1 ≤ ks := by
  induction hp with
  | nil => exact h.start.imp_right fun hs => ⟨_, hs, le_rfl⟩
  | @snoc ks xs x y k hp hk ih =>
    have hxs' : xs.Nodup := (List.nodup_append.1 hxs).1
    rcases ih hxs' with hx | ⟨q, hq, hle⟩
    · obtain ⟨p, hpV, rfl⟩ := List.mem_map.1 hx
      refine (h.covers p hpV k y hk).imp_right fun hW => ⟨_, hW, ?_⟩
      -- the first path to `x` goes on as this one does
      rcases ((h.least p hpV).2 ⟨xs, hp, hxs'⟩).lt_or_eq with hlt | heq
      · obtain ⟨ys, hys, -⟩ := h.trail p hpV
        exact (append_lt_append hlt (hp.not_prefix hxs' hys hlt.ne) _ _).le
      · rw [heq]
    · exact .inr ⟨q, hq, hle.trans (lt_snoc ks k).le⟩

/-- A node on the stack that has been visited is taken from it. -/
theorem skip {q : List ℕ × α} (h : Routes next s V (q :: W)) (hq : q.2 ∈ V.map Prod.snd) :
    Routes next s V W where
  least := h.least
  trail := h.trail
  fringe r hr := h.fringe r (List.mem_cons_of_mem _ hr)
  sorted := h.sorted.sublist (List.Sublist.append_left (List.sublist_cons_self _ _) _)
  start := by
    rcases h.start with hs | hs
    · exact .inl hs
    · rcases List.mem_cons.1 hs with rfl | hs
      · exact .inl hq
      · exact .inr hs
  covers p hp k y hk := by
    rcases h.covers p hp k y hk with hy | hy
    · exact .inl hy
    · rcases List.mem_cons.1 hy with rfl | hy
      · exact .inl hq
      · exact .inr hy

/-- The first place on the stack is a simple path, if its node has not been visited. -/
theorem simple {q : List ℕ × α} (h : Routes next s V (q :: W)) (hq : q.2 ∉ V.map Prod.snd) :
    ∃ xs, Path next s q.1 xs q.2 ∧ xs.Nodup ∧ xs ⊆ V.map Prod.snd ++ [q.2] := by
  rcases h.fringe q (by simp) with ⟨rfl, rfl⟩ | ⟨p, hp, k, hk, hnext⟩
  · exact ⟨[s], .nil, by simp, by simp⟩
  · obtain ⟨xs, hxs, hnodup, hsub⟩ := h.trail p hp
    refine ⟨xs ++ [q.2], hk ▸ hxs.snoc hnext, ?_, ?_⟩
    · exact List.nodup_append.2 ⟨hnodup, by simp, fun x hx y hy hxy =>
        hq (List.mem_singleton.1 hy ▸ hxy ▸ hsub hx)⟩
    · exact List.append_subset.2 ⟨fun x hx => List.mem_append_left _ (hsub hx), by simp⟩

/-- The path of a node that has not been visited does not go on to another place on the stack. -/
theorem not_prefix_fringe {q r : List ℕ × α} (h : Routes next s V (q :: W))
    (hq : q.2 ∉ V.map Prod.snd) (hr : r ∈ W) : ¬ q.1 <+: r.1 := by
  have hlt : q.1 < r.1 := (List.pairwise_append.1 h.sorted).2.1 |> List.rel_of_pairwise_cons <| hr
  obtain ⟨xs, hxs, -, -⟩ := h.simple hq
  rcases h.fringe r (List.mem_cons_of_mem _ hr) with ⟨-, rfl⟩ | ⟨p, hp, k, hk, -⟩
  · exact absurd hlt (List.not_lt_nil _)
  · rw [hk] at hlt ⊢
    intro hpre
    rcases List.prefix_concat_iff.1 hpre with heq | ⟨ms, hms⟩
    · exact hlt.ne heq
    · -- the path to `p` would go through `q`
      obtain ⟨ys, hys, -, hsub⟩ := h.trail p hp
      rw [← hms] at hys
      obtain ⟨ys', zs, y, rfl, hy, -⟩ := hys.split
      obtain ⟨rfl, rfl⟩ := hy.unique hxs
      exact hq (hsub (List.mem_append_left _ hy.end_mem))

/-- The first place on the stack has the least simple path to its node. -/
theorem firstPath_head {q : List ℕ × α} (h : Routes next s V (q :: W))
    (hq : q.2 ∉ V.map Prod.snd) : FirstPath next s q.2 q.1 := by
  obtain ⟨xs, hxs, hnodup, -⟩ := h.simple hq
  have hqlt := (List.pairwise_cons.1 (List.pairwise_append.1 h.sorted).2.1).1
  refine ⟨⟨xs, hxs, hnodup⟩, fun ks ⟨ys, hys, hys'⟩ => ?_⟩
  obtain ⟨r, hr, hle⟩ := (h.frontier hys hys').resolve_left hq
  rcases List.mem_cons.1 hr with rfl | hr
  · exact hle
  · exact (hqlt r hr).le.trans hle

variable [DecidableEq α]

theorem map_pushes (next : α → List α) (vs : List α) (ks : List ℕ) (x : α) :
    (pushes next vs ks x).map Prod.snd = (next x).filter (· ∉ vs) := by
  have hfst : (next x).zipIdx.map Prod.fst = next x := List.zipIdx_map_fst 0 (next x)
  conv_rhs => rw [← hfst, List.filter_map]
  simp [pushes, Function.comp_def]

theorem mem_pushes {vs : List α} {r : List ℕ × α} :
    r ∈ pushes next vs ks x ↔ ∃ k, r.1 = ks ++ [k] ∧ (next x)[k]? = some r.2 ∧ r.2 ∉ vs := by
  simp only [pushes, List.mem_map, List.mem_filter, List.mem_zipIdx_iff_getElem?, decide_eq_true_eq]
  constructor
  · rintro ⟨⟨y, k⟩, ⟨hk, hy⟩, rfl⟩
    exact ⟨k, rfl, hk, hy⟩
  · rintro ⟨k, hr, hk, hy⟩
    exact ⟨(r.2, k), ⟨hk, hy⟩, by rw [← hr]⟩

theorem pairwise_pushes (next : α → List α) (vs : List α) (ks : List ℕ) (x : α) :
    (pushes next vs ks x).Pairwise fun p q => p.1 < q.1 := by
  have hidx : (next x).zipIdx.Pairwise fun p q => p.2 < q.2 := by
    rw [← List.pairwise_map (f := Prod.snd) (R := (· < ·)), List.zipIdx_map_snd]
    exact List.pairwise_lt_range'
  exact List.pairwise_map.2 ((hidx.filter _).imp fun h => snoc_lt_snoc h)

/-- The routes that are pushed when `q` is visited come behind those of the nodes visited and before
those on the stack. -/
theorem sorted_visit {q : List ℕ × α} (h : Routes next s V (q :: W)) (hq : q.2 ∉ V.map Prod.snd)
    (vs : List α) :
    (V ++ [q] ++ (pushes next vs q.1 q.2 ++ W)).Pairwise fun p r => p.1 < r.1 := by
  obtain ⟨hV, hqW, hVW⟩ := List.pairwise_append.1 h.sorted
  obtain ⟨hqlt, hW⟩ := List.pairwise_cons.1 hqW
  have hpush {r : List ℕ × α} (hr : r ∈ pushes next vs q.1 q.2) : ∃ k, r.1 = q.1 ++ [k] :=
    (mem_pushes.1 hr).imp fun _ hk => hk.1
  refine List.pairwise_append.2 ⟨?_, ?_, fun p hp r hr => ?_⟩
  · exact List.pairwise_append.2 ⟨hV, by simp, fun p hp r hr =>
      hVW p hp r (List.mem_cons.2 (.inl (List.mem_singleton.1 hr)))⟩
  · refine List.pairwise_append.2 ⟨pairwise_pushes .., hW, fun p hp r hr => ?_⟩
    obtain ⟨k, hk⟩ := hpush hp
    have hlt := append_lt_append (hqlt r hr) (h.not_prefix_fringe hq hr) [k] []
    rwa [hk, ← List.append_nil r.1]
  · have hle : p.1 ≤ q.1 := by
      rcases List.mem_append.1 hp with hp | hp
      · exact (hVW p hp q (by simp)).le
      · exact (List.mem_singleton.1 hp) ▸ le_rfl
    rcases List.mem_append.1 hr with hr | hr
    · obtain ⟨k, hk⟩ := hpush hr
      exact hk ▸ hle.trans_lt (lt_snoc q.1 k)
    · exact hle.trans_lt (hqlt r hr)

/-- A node on the stack that has not been visited is visited. -/
theorem visit {q : List ℕ × α} (h : Routes next s V (q :: W)) (hq : q.2 ∉ V.map Prod.snd) :
    Routes next s (V ++ [q]) (pushes next ((V ++ [q]).map Prod.snd) q.1 q.2 ++ W) := by
  have hsub : V.map Prod.snd ⊆ (V ++ [q]).map Prod.snd := by simp
  obtain ⟨xs, hxs, hnodup, htrail⟩ := h.simple hq
  constructor
  case least =>
    intro p hp
    rcases List.mem_append.1 hp with hp | hp
    · exact h.least p hp
    · exact List.mem_singleton.1 hp ▸ h.firstPath_head hq
  case trail =>
    intro p hp
    rcases List.mem_append.1 hp with hp | hp
    · obtain ⟨ys, hys, hys', hys''⟩ := h.trail p hp
      exact ⟨ys, hys, hys', fun y hy => hsub (hys'' hy)⟩
    · obtain rfl := List.mem_singleton.1 hp
      exact ⟨xs, hxs, hnodup, by simpa using htrail⟩
  case fringe =>
    intro r hr
    right
    rcases List.mem_append.1 hr with hr | hr
    · obtain ⟨k, hk, hnext, -⟩ := mem_pushes.1 hr
      exact ⟨q, by simp, k, hk, hnext⟩
    · have hqlt := (List.pairwise_cons.1 (List.pairwise_append.1 h.sorted).2.1).1
      rcases h.fringe r (List.mem_cons_of_mem _ hr) with ⟨-, rfl⟩ | ⟨p, hp, hk⟩
      · exact absurd (hqlt _ hr) (List.not_lt_nil _)
      · exact ⟨p, List.mem_append_left _ hp, hk⟩
  case sorted => exact h.sorted_visit hq _
  case start =>
    rcases h.start with hs | hs
    · exact .inl (hsub hs)
    · rcases List.mem_cons.1 hs with rfl | hs
      · exact .inl (by simp)
      · exact .inr (List.mem_append_right _ hs)
  case covers =>
    intro p hp k y hk
    by_cases hy : y ∈ (V ++ [q]).map Prod.snd
    · exact .inl hy
    · right
      rcases List.mem_append.1 hp with hp | hp
      · have hold := (h.covers p hp k y hk).resolve_left fun hold => hy (hsub hold)
        rcases List.mem_cons.1 hold with rfl | hold
        · exact absurd (by simp) hy
        · exact List.mem_append_right _ hold
      · obtain rfl := List.mem_singleton.1 hp
        exact List.mem_append_left _ (mem_pushes.2 ⟨k, rfl, hk, hy⟩)

end Routes

/-! ## What is visited, and in which order -/

namespace Search

variable [DecidableEq α] {vs st : List α}

theorem routes (h : Search next s vs st) :
    ∃ V W, vs = V.map Prod.snd ∧ st = W.map Prod.snd ∧ Routes next s V W := by
  induction h with
  | init => exact ⟨[], [([], s)], rfl, rfl, .init next s⟩
  | skip h hx ih =>
    obtain ⟨V, W, rfl, hW, hr⟩ := ih
    cases W with
    | nil => cases hW
    | cons q W =>
      obtain ⟨rfl, rfl⟩ := List.cons.inj hW
      exact ⟨V, W, rfl, rfl, hr.skip hx⟩
  | visit h hx ih =>
    obtain ⟨V, W, rfl, hW, hr⟩ := ih
    cases W with
    | nil => cases hW
    | cons q W =>
      obtain ⟨rfl, rfl⟩ := List.cons.inj hW
      refine ⟨V ++ [q], _, by simp, ?_, hr.visit hx⟩
      rw [List.map_append, Routes.map_pushes, List.map_append]
      rfl

/-- Nothing is visited twice. -/
theorem nodup (h : Search next s vs st) : vs.Nodup := by
  induction h with
  | init => exact List.nodup_nil
  | skip h hx ih => exact ih
  | visit h hx ih =>
    refine List.nodup_append.2 ⟨ih, by simp, fun y hy z hz => ?_⟩
    obtain rfl := List.mem_singleton.1 hz
    exact ne_of_mem_of_not_mem hy hx

/-- What is visited or on the stack can be reached. -/
theorem reach (h : Search next s vs st) (hx : x ∈ vs ∨ x ∈ st) : ∃ ks xs, Path next s ks xs x := by
  induction h generalizing x with
  | init =>
    obtain rfl : x = s := by simpa using hx
    exact ⟨[], [x], .nil⟩
  | skip h hy ih => exact ih (hx.imp_right (List.mem_cons_of_mem _))
  | @visit vs st y h hy ih =>
    rw [List.mem_append, List.mem_singleton, List.mem_append, List.mem_filter] at hx
    rcases hx with (hx | rfl) | (⟨hx, -⟩ | hx)
    · exact ih (.inl hx)
    · exact ih (.inr (by simp))
    · obtain ⟨ks, xs, hp⟩ := ih (x := y) (.inr (by simp))
      obtain ⟨k, hk⟩ := List.mem_iff_getElem?.1 hx
      exact ⟨_, _, hp.snoc hk⟩
    · exact ih (.inr (List.mem_cons_of_mem _ hx))

/-- In the end, all that can be reached has been visited, and nothing else. -/
theorem mem_iff (h : Search next s vs []) : x ∈ vs ↔ ∃ ks xs, Path next s ks xs x := by
  refine ⟨fun hx => h.reach (.inl hx), fun ⟨ks, xs, hp⟩ => ?_⟩
  obtain ⟨V, W, rfl, hW, hr⟩ := h.routes
  obtain rfl := List.map_eq_nil_iff.1 hW.symm
  induction hp with
  | nil => exact hr.start.resolve_right List.not_mem_nil
  | snoc hp hk ih =>
    obtain ⟨p, hpV, rfl⟩ := List.mem_map.1 (ih ⟨_, _, hp⟩)
    exact (hr.covers p hpV _ _ hk).resolve_right List.not_mem_nil

/-- **The order of the visits** is that of the first paths: what holds of the nodes visited, in order,
is what holds of all nodes to which the first paths are in this order. -/
theorem pairwise_iff (h : Search next s vs []) (R : α → α → Prop) : vs.Pairwise R ↔
    ∀ x y ks ls, FirstPath next s x ks → FirstPath next s y ls → ks < ls → R x y := by
  obtain ⟨V, W, hvs, hW, hr⟩ := h.routes
  have hmem {x : α} {ks : List ℕ} (hx : FirstPath next s x ks) : (ks, x) ∈ V := by
    obtain ⟨xs, hp, -⟩ := hx.1
    have hxV := h.mem_iff.2 ⟨ks, xs, hp⟩
    rw [hvs] at hxV
    obtain ⟨p, hpV, rfl⟩ := List.mem_map.1 hxV
    rwa [hx.unique (hr.least p hpV)]
  have hV := (List.pairwise_append.1 hr.sorted).1
  rw [hvs, List.pairwise_map]
  constructor
  · intro hR x y ks ls hx hy hlt
    obtain ⟨i, hi, hix⟩ := List.getElem_of_mem (hmem hx)
    obtain ⟨j, hj, hjy⟩ := List.getElem_of_mem (hmem hy)
    rcases Nat.lt_trichotomy i j with hij | rfl | hij
    · have := List.pairwise_iff_getElem.1 hR i j hi hj hij
      rwa [hix, hjy] at this
    · rw [hix] at hjy
      exact absurd (congrArg Prod.fst hjy) hlt.ne
    · have := List.pairwise_iff_getElem.1 hV j i hj hi hij
      rw [hix, hjy] at this
      exact absurd hlt this.not_gt
  · intro hfirst
    exact hV.imp_of_mem fun hp hq hlt => hfirst _ _ _ _ (hr.least _ hp) (hr.least _ hq) hlt

end Search

/-- The least number of steps from `s` to `x`. -/
noncomputable def dist (next : α → List α) (s x : α) : ℕ :=
  sInf {d | ∃ ks xs, Path next s ks xs x ∧ ks.length = d}

theorem dist_le (h : Path next s ks xs x) : dist next s x ≤ ks.length :=
  Nat.sInf_le ⟨ks, xs, h, rfl⟩

theorem le_dist (h : Path next s ks xs x) {d : ℕ}
    (hd : ∀ ls ys, Path next s ls ys x → d ≤ ls.length) : d ≤ dist next s x := by
  have hne : {d | ∃ ks xs, Path next s ks xs x ∧ ks.length = d}.Nonempty := ⟨_, ks, xs, h, rfl⟩
  obtain ⟨ls, ys, hp, hlen⟩ := Nat.sInf_mem hne
  exact (hd ls ys hp).trans_eq hlen

end LibSrsBsns.StackSearch
