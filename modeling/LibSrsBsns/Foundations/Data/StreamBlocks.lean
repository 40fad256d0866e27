import Mathlib.Data.Stream.Init

/-!
# Streams that arrive in blocks

A stream may be handed over in blocks, each with at least one element. `concat` is the stream whose
elements are those of the blocks in order, and `concat_eq_append` its equation: the first block, and
then the stream of the others. A stream has at most one first position with a given property
(`FirstAt`), which can be looked for one element at a time.
-/

namespace LibSrsBsns

variable {α : Type}

/-! ## Blocks -/

theorem le_length_flatMap_range {blocks : ℕ → List α} (h : ∀ n, blocks n ≠ []) (n : ℕ) :
    n ≤ ((List.range n).flatMap blocks).length := by
  induction n with
  | zero => exact Nat.zero_le _
  | succ n ih =>
    have hpos := List.length_pos_iff.2 (h n)
    rw [List.range_succ, List.flatMap_append, List.length_append, List.flatMap_singleton]
    omega

/-- The elements of the blocks in order. -/
def concat (blocks : ℕ → List α) (h : ∀ n, blocks n ≠ []) : Stream' α := fun n =>
  ((List.range (n + 1)).flatMap blocks).get ⟨n, le_length_flatMap_range h (n + 1)⟩

variable {blocks : ℕ → List α} {h : ∀ n, blocks n ≠ []}

theorem flatMap_range_prefix_of_le (blocks : ℕ → List α) {m n : ℕ} (hmn : m ≤ n) :
    (List.range m).flatMap blocks <+: (List.range n).flatMap blocks := by
  obtain ⟨k, rfl⟩ := Nat.exists_eq_add_of_le hmn
  rw [List.range_add, List.flatMap_append]
  exact List.prefix_append _ _

/-- Any number of blocks is what the stream begins with. -/
theorem get_concat {n k : ℕ} (hn : n < ((List.range k).flatMap blocks).length) :
    (concat blocks h).get n = ((List.range k).flatMap blocks)[n] := by
  rcases Nat.le_total k (n + 1) with hk | hk
  · exact ((flatMap_range_prefix_of_le blocks hk).getElem hn).symm
  · exact (flatMap_range_prefix_of_le blocks hk).getElem (le_length_flatMap_range h (n + 1))

theorem flatMap_range_succ (blocks : ℕ → List α) (n : ℕ) : (List.range (n + 1)).flatMap blocks =
    blocks 0 ++ (List.range n).flatMap fun i => blocks (i + 1) := by
  rw [List.range_succ_eq_map, List.flatMap_cons, List.flatMap_map]

/-- The first block comes first. -/
theorem concat_eq_append :
    concat blocks h = blocks 0 ++ₛ concat (fun n => blocks (n + 1)) fun n => h (n + 1) := by
  ext n
  have hlen := le_length_flatMap_range h (n + 1)
  rw [get_concat hlen, List.getElem_of_eq (flatMap_range_succ blocks n)]
  rw [flatMap_range_succ, List.length_append] at hlen
  rcases Nat.lt_or_ge n (blocks 0).length with hn | hn
  · rw [List.getElem_append_left hn, Stream'.get_append_left _ _ _ hn]
  · obtain ⟨m, rfl⟩ := Nat.exists_eq_add_of_le hn
    have hm : m < ((List.range ((blocks 0).length + m)).flatMap fun i => blocks (i + 1)).length := by
      omega
    rw [List.getElem_append_right hn, Stream'.get_append_right, get_concat hm]
    simp only [Nat.add_sub_cancel_left]

theorem concat_congr {blocks' : ℕ → List α} {h' : ∀ n, blocks' n ≠ []}
    (hblocks : ∀ n, blocks n = blocks' n) : concat blocks h = concat blocks' h' := by
  obtain rfl := funext hblocks
  rfl

/-! ## First positions -/

/-- `n` is the first position of the stream with the property `p`. -/
structure FirstAt (p : α → Prop) (σ : Stream' α) (n : ℕ) : Prop where
  holds : p (σ.get n)
  before : ∀ i < n, ¬ p (σ.get i)

namespace FirstAt

variable {p : α → Prop} {σ : Stream' α} {a : α} {m n : ℕ}

theorem unique (hm : FirstAt p σ m) (hn : FirstAt p σ n) : m = n := by
  rcases Nat.lt_trichotomy m n with hlt | heq | hgt
  · exact absurd hm.holds (hn.before m hlt)
  · exact heq
  · exact absurd hn.holds (hm.before n hgt)

theorem zero (ha : p a) : FirstAt p (.cons a σ) 0 := ⟨ha, fun i hi => absurd hi (Nat.not_lt_zero i)⟩

/-- The first position of the rest, where the first element does not have the property. -/
theorem succ_iff (ha : ¬ p a) : FirstAt p (.cons a σ) (n + 1) ↔ FirstAt p σ n := by
  constructor
  · rintro ⟨hn, hbefore⟩
    exact ⟨hn, fun i hi => hbefore (i + 1) (by omega)⟩
  · rintro ⟨hn, hbefore⟩
    refine ⟨hn, fun i hi => ?_⟩
    cases i with
    | zero => exact ha
    | succ i => exact hbefore i (by omega)

end FirstAt

end LibSrsBsns
