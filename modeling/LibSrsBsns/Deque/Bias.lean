import LibSrsBsns.Deque.Sequence

/-!
# The sides on which a resize of the deque leaves room

`deque_resize` shares the free slots out by the pushes that either end has had so far. Its bias is
positive if the front has had more of them (`Deque.bias_of_front`), and it moves the elements by
that towards the front, so the room goes to the other side. The resize gives the side with more
pushes its share only where the rounding hides the bias (`deque_room_follows_iff`).
-/

namespace LibSrsBsns

open C

variable {α : Type} {d d' : Deque α} {xs : List α}

namespace Deque

/-- The slots that are free after a resize. -/
def freeSlots (d : Deque α) (newsz : ℕ) : ℕ := max newsz 1 - dequeCount d

/-- The side that has had more pushes has at least as much room after the resize to `d'`, up to one
slot. -/
structure RoomFollows (d d' : Deque α) : Prop where
  front : d.pbcnt < d.pfcnt → d'.back ≤ d'.nelem - d'.front + 1
  back : d.pfcnt < d.pbcnt → d'.nelem - d'.front ≤ d'.back + 1

/-- The bias is hidden by the rounding: there is next to nothing to share out, or, if it is towards
the front, half of the free slots times the bias is less than one slot, or two for an odd number. -/
structure BiasHidden (d : Deque α) (newsz : ℕ) : Prop where
  front : d.pbcnt < d.pfcnt →
    9 * (d.freeSlots newsz / 2) < 10 * (d.freeSlots newsz % 2 + 1) ∨
      2 * (d.pfcnt - d.pbcnt) * (d.freeSlots newsz / 2) < (d.freeSlots newsz % 2 + 1) * d.nelem
  back : d.pfcnt < d.pbcnt → d.freeSlots newsz ≤ 1

/-! ## The bias -/

theorem bias_of_front (hpos : 0 < d.nelem) (h : d.pbcnt < d.pfcnt) :
    0 < d.bias ∧ d.bias = min (2 * ((d.pfcnt - d.pbcnt : ℕ) : ℚ) / d.nelem) (9 / 10) := by
  have hnelem : (0 : ℚ) < d.nelem := by exact_mod_cast hpos
  have hdiff : (0 : ℚ) < (d.pfcnt - d.pbcnt : ℕ) := by exact_mod_cast Nat.sub_pos_of_lt h
  have hratio : 0 < 2 * ((d.pfcnt - d.pbcnt : ℕ) : ℚ) / d.nelem := by positivity
  have hbias : d.bias = min (2 * ((d.pfcnt - d.pbcnt : ℕ) : ℚ) / d.nelem) (9 / 10) := by
    simp only [bias, ← Nat.cast_sub h.le]
    split_ifs with hhigh hlow
    · exact (min_eq_right hhigh.le).symm
    · linarith
    · exact (min_eq_left (not_lt.1 hhigh)).symm
  exact ⟨hbias ▸ lt_min hratio (by norm_num), hbias⟩

theorem bias_of_back (hpos : 0 < d.nelem) (h : d.pfcnt < d.pbcnt) : d.bias < 0 := by
  have hnelem : (0 : ℚ) < d.nelem := by exact_mod_cast hpos
  have hcounts : (d.pfcnt : ℚ) < d.pbcnt := by exact_mod_cast h
  have hratio : 2 * ((d.pfcnt : ℚ) - d.pbcnt) / d.nelem < 0 :=
    div_neg_of_neg_of_pos (by linarith) hnelem
  simp only [bias]
  split_ifs <;> linarith

/-- How far `k` slots are moved by a bias towards the front. -/
theorem bias_mul_lt_iff (hpos : 0 < d.nelem) (h : d.pbcnt < d.pfcnt) (k r : ℕ) :
    d.bias * k < r ↔ 9 * k < 10 * r ∨ 2 * (d.pfcnt - d.pbcnt) * k < r * d.nelem := by
  have hnelem : (0 : ℚ) < d.nelem := by exact_mod_cast hpos
  rw [(bias_of_front hpos h).2, min_mul_of_nonneg _ _ (Nat.cast_nonneg k), min_lt_iff,
    div_mul_eq_mul_div, div_lt_iff₀ hnelem, div_mul_eq_mul_div, div_lt_iff₀ (by norm_num), or_comm,
    mul_comm (r : ℚ) 10]
  norm_cast

/-! ## The place of the elements -/

/-- A bias towards the front moves the elements from the middle towards the front. -/
theorem newback_le_iff (hbias : 0 ≤ d.bias) (newsz r : ℕ) :
    d.newback (max newsz 1) ≤ d.freeSlots newsz / 2 + r ↔
      d.bias * (d.freeSlots newsz / 2 : ℕ) < (r + 1 : ℕ) := by
  change ⌊((d.freeSlots newsz / 2 : ℕ) : ℚ) + d.bias * (d.freeSlots newsz / 2 : ℕ)⌋₊ ≤ _ ↔ _
  rw [← Nat.lt_succ_iff, Nat.floor_lt (by positivity)]
  push_cast
  constructor <;> intro h <;> linarith

/-- A bias towards the back moves them towards the back. -/
theorem newback_lt (hbias : d.bias < 0) {newsz : ℕ} (hfree : 2 ≤ d.freeSlots newsz) :
    d.newback (max newsz 1) < d.freeSlots newsz / 2 := by
  have hpos : (0 : ℚ) < (d.freeSlots newsz / 2 : ℕ) := by
    exact_mod_cast (show 0 < d.freeSlots newsz / 2 by omega)
  have hmoved := mul_neg_of_neg_of_pos hbias hpos
  change ⌊((d.freeSlots newsz / 2 : ℕ) : ℚ) + d.bias * (d.freeSlots newsz / 2 : ℕ)⌋₊ < _
  exact (Nat.floor_lt' (by omega)).2 (by linarith)

/-- What a successful resize leaves on either side. -/
theorem resize_free (h : d.Lists xs) {newsz : ℕ} {mem : ℕ → Bool}
    (hres : dequeResize d newsz mem = .ok (true, d')) :
    d'.back = d.newback (max newsz 1) ∧ d'.back + (d'.nelem - d'.front) = d.freeSlots newsz := by
  obtain ⟨hlists, hnelem, hback⟩ := (resize_spec h newsz mem).of_eq_ok hres
  have hplace : d'.back + xs.length ≤ d'.nelem := hlists.le
  have hfront : d'.front = d'.back + xs.length := hlists.front
  have hsize : d'.nelem = max newsz 1 := hnelem
  refine ⟨hback, ?_⟩
  rw [freeSlots, h.count]
  omega

theorem room_front_iff (h : d.Lists xs) {newsz : ℕ} {mem : ℕ → Bool}
    (hres : dequeResize d newsz mem = .ok (true, d')) (hlt : d.pbcnt < d.pfcnt) :
    d'.back ≤ d'.nelem - d'.front + 1 ↔
      9 * (d.freeSlots newsz / 2) < 10 * (d.freeSlots newsz % 2 + 1) ∨
        2 * (d.pfcnt - d.pbcnt) * (d.freeSlots newsz / 2) <
          (d.freeSlots newsz % 2 + 1) * d.nelem := by
  obtain ⟨hback, hfree⟩ := resize_free h hres
  rw [← bias_mul_lt_iff h.pos hlt, ← newback_le_iff (bias_of_front h.pos hlt).1.le, ← hback]
  omega

theorem room_back_iff (h : d.Lists xs) {newsz : ℕ} {mem : ℕ → Bool}
    (hres : dequeResize d newsz mem = .ok (true, d')) (hlt : d.pfcnt < d.pbcnt) :
    d'.nelem - d'.front ≤ d'.back + 1 ↔ d.freeSlots newsz ≤ 1 := by
  obtain ⟨hback, hfree⟩ := resize_free h hres
  constructor
  · intro hroom
    by_contra hmany
    have hmoved := newback_lt (bias_of_back h.pos hlt) (Nat.lt_of_not_le hmany)
    rw [← hback] at hmoved
    omega
  · omega

end Deque

/-- **Room does not follow the pushes.** After a successful resize the side that has had more pushes
has as much room as the other, up to one slot, only if the rounding hides the bias. -/
theorem deque_room_follows_iff (h : d.Lists xs) {newsz : ℕ} {mem : ℕ → Bool}
    (hres : dequeResize d newsz mem = .ok (true, d')) :
    d.RoomFollows d' ↔ d.BiasHidden newsz := by
  constructor
  · intro hroom
    exact ⟨fun hlt => (Deque.room_front_iff h hres hlt).1 (hroom.front hlt),
      fun hlt => (Deque.room_back_iff h hres hlt).1 (hroom.back hlt)⟩
  · intro hhidden
    exact ⟨fun hlt => (Deque.room_front_iff h hres hlt).2 (hhidden.front hlt),
      fun hlt => (Deque.room_back_iff h hres hlt).2 (hhidden.back hlt)⟩

/-- Two elements pushed at the front of a fresh deque for four. -/
def twoAtFront : Deque ℕ :=
  ⟨4, ⟨4, Function.update (Function.update (fun _ => none) 2 (some 1)) 3 (some 2)⟩, 2, 4, none, 2, 0⟩

theorem lists_twoAtFront : twoAtFront.Lists [1, 2] := by
  refine ⟨by decide, rfl, rfl, by decide, fun i hi => ?_⟩
  have hcases : i = 0 ∨ i = 1 := by
    have : i < 2 := hi
    omega
  rcases hcases with rfl | rfl <;> rfl

/-- The resize that a third push at the front asks for. -/
theorem resize_twoAtFront : ∃ d', dequeResize twoAtFront 8 Buffer.ample = .ok (true, d') := by
  obtain ⟨⟨ok, d'⟩, hres, -, hok⟩ := Deque.resize_spec lists_twoAtFront 8 Buffer.ample
  cases ok with
  | true => exact ⟨d', hres⟩
  | false => exact absurd hok (by simp)

theorem deque_room_follows_iff_front : ∃ d', dequeResize twoAtFront 8 Buffer.ample = .ok (true, d') ∧
    (twoAtFront.RoomFollows d' ↔ twoAtFront.BiasHidden 8) := by
  obtain ⟨d', hres⟩ := resize_twoAtFront
  exact ⟨d', hres, deque_room_follows_iff lists_twoAtFront hres⟩

/-- After two pushes at the front, the resize that the third one asks for leaves one free slot at the
front and five at the back. -/
theorem not_roomFollows_of_front :
    (runs dequeStep (dequeInit 4) [.pushfront (some 1), .pushfront (some 2)]).map Prod.snd =
        .ok twoAtFront ∧
      ∃ d', dequeResize twoAtFront 8 Buffer.ample = .ok (true, d') ∧ ¬ twoAtFront.RoomFollows d' := by
  obtain ⟨d', hres⟩ := resize_twoAtFront
  refine ⟨rfl, d', hres, fun hroom => ?_⟩
  have hfront := (Deque.room_front_iff lists_twoAtFront hres (by decide)).1 (hroom.front (by decide))
  exact absurd hfront (by decide)

end LibSrsBsns
