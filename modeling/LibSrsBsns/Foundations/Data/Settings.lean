import Mathlib.Data.List.Chain
import Mathlib.Logic.Function.Basic

/-!
# Texts of settings

A text of settings is made of words with separators in between (`Settings.render`). A setting binds a
key to a value, and what settings in a row say of a key is the last value that they bind it to
(`Settings.latest`).
-/

namespace LibSrsBsns.Settings

variable {χ T K V : Type}

/-! ## Words and separators -/

/-- The text of words, each with the number of separators behind it, after `lead` separators. -/
def render (sep : χ) (text : T → List χ) : ℕ → List (T × ℕ) → List χ
  | lead, [] => List.replicate lead sep
  | lead, (t, gap) :: ts => List.replicate lead sep ++ (text t ++ render sep text gap ts)

/-- There are separators behind every word but the last. -/
def Apart (ts : List (T × ℕ)) : Prop := ts.IsChain fun t _ => 0 < t.2

variable {sep : χ} {text : T → List χ} {t : T} {gap : ℕ} {ts : List (T × ℕ)}

theorem Apart.tail (h : Apart ((t, gap) :: ts)) : Apart ts := List.IsChain.tail h

/-- Behind a word is a separator or the end of the text. -/
theorem Apart.behind (h : Apart ((t, gap) :: ts)) :
    render sep text gap ts = [] ∧ ts = [] ∨ ∃ rest, render sep text gap ts = sep :: rest := by
  cases gap with
  | zero =>
    cases ts with
    | nil => exact .inl ⟨rfl, rfl⟩
    | cons u us => exact absurd (List.isChain_cons_cons.1 h).1 (Nat.lt_irrefl 0)
  | succ gap =>
    cases ts with
    | nil => exact .inr ⟨_, rfl⟩
    | cons u us => exact .inr ⟨_, rfl⟩

/-! ## The value of a key -/

variable [DecidableEq K]

/-- The last value that one of the settings binds the key to. -/
def latest (ss : List (K × V)) (k : K) : Option V :=
  ((ss.filter fun s => s.1 = k).map Prod.snd).getLast?

theorem latest_concat (ss : List (K × V)) (k : K) (v : V) :
    latest (ss ++ [(k, v)]) = Function.update (latest ss) k (some v) := by
  funext l
  by_cases hl : l = k
  · subst hl
    simp [latest]
  · rw [Function.update_of_ne hl]
    simp [latest, Ne.symm hl]

/-- It is one of the values. -/
theorem mem_of_latest {ss : List (K × V)} {k : K} {v : V} (h : latest ss k = some v) :
    (k, v) ∈ ss := by
  obtain ⟨⟨k', v'⟩, hmem, rfl⟩ := List.mem_map.1 (List.mem_of_getLast? h)
  rw [List.mem_filter, decide_eq_true_eq] at hmem
  exact hmem.2 ▸ hmem.1

end LibSrsBsns.Settings
