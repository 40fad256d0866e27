import LibSrsBsns.Foundations.C.Str

/-!
# Copies of strings

The model of `strNcpy` of `misc.c`, which copies as much of a string as there is room for, and of
`isdigitstr`, which says whether a string has digits only.
-/

namespace LibSrsBsns

open C

/-- The text of the list, as a string in a block of its own. -/
def stringBuffer (text : List Char) : Buffer Char :=
  ⟨text.length + 1, fun i => (text ++ [nul])[i]?⟩

theorem holds_stringBuffer (text : List Char) : (stringBuffer text).Holds 0 (text ++ [nul]) := by
  refine ⟨by simp [stringBuffer], fun i hi => ?_⟩
  rw [Nat.zero_add]
  exact List.getElem?_eq_getElem hi

def strNcpy (dst : Buffer Char) (src : List Char) (len : ℕ) : Exec (Buffer Char) := do
  let dst ← dst.strncpy src len
  dst.write (sizeSub len 1) nul

def isdigitstr (p : List Char) : Bool := p.all Char.isDigit

/-- What `strNcpy` copies is a string, without what there is no room for. -/
theorem strNcpy_spec {dst : Buffer Char} {src : List Char} {len : ℕ} (hlen : 1 ≤ len)
    (hroom : len ≤ dst.size) (hsrc : nul ∉ src) : Returns (strNcpy dst src len) fun dst' =>
      dst'.size = dst.size ∧ dst'.Str 0 (src.take (len - 1)) := by
  apply (Buffer.strncpy_spec src hroom).bind
  intro b ⟨hsize, hcell⟩
  rw [sizeSub, if_pos hlen]
  apply (Buffer.write_spec nul (by omega)).mono
  intro b' hb'
  have hcells (i : ℕ) (hi : i < len) :
      b'.cell i = some (if i = len - 1 then nul else src.getD i nul) := by
    by_cases hend : i = len - 1
    · rw [if_pos hend, hend, hb'.cell_self]
    · rw [if_neg hend, hb'.cell_of_ne hend, hcell i hi]
  have hle : (src.take (len - 1)).length ≤ len - 1 := List.length_take_le _ _
  refine ⟨hb'.size.trans hsize, ⟨?_, fun i hi => ?_⟩, fun hmem => hsrc (List.mem_of_mem_take hmem)⟩
  · rw [List.length_append, List.length_singleton, hb'.size]
    omega
  · rw [List.length_append, List.length_singleton] at hi
    rw [Nat.zero_add, hcells i (by omega), Option.some.injEq]
    rcases Nat.lt_or_ge i (src.take (len - 1)).length with hlt | hge
    · have hi' : i < src.length := by
        rw [List.length_take] at hlt
        omega
      rw [List.getElem_append_left hlt, List.getElem_take, if_neg (by omega),
        List.getD_eq_getElem?_getD, List.getElem?_eq_getElem hi', Option.getD_some]
    · -- the text ends where there is no room for more of it, or where the source does
      have hend : i = len - 1 ∨ src.length ≤ i := by
        rw [List.length_take] at hi hge
        omega
      have hnul : (if i = len - 1 then nul else src.getD i nul) = nul := by
        rcases hend with heq | hsrc
        · rw [if_pos heq]
        · rw [List.getD_eq_getElem?_getD, List.getElem?_eq_none hsrc, Option.getD_none, ite_self]
      rw [hnul, List.getElem_append_right hge, List.getElem_singleton]

/-- The first part of a text is copied with a length of one more. -/
theorem strNcpy_prefix {dst : Buffer Char} {src xs : List Char} (hpre : xs <+: src)
    (hroom : xs.length + 1 ≤ dst.size) (hsrc : nul ∉ src) :
    Returns (strNcpy dst src (xs.length + 1)) fun dst' => dst'.size = dst.size ∧ dst'.Str 0 xs := by
  apply (strNcpy_spec (Nat.succ_pos _) hroom hsrc).mono
  intro dst' ⟨hsize, hstr⟩
  rw [Nat.succ_sub_one, ← List.prefix_iff_eq_take.1 hpre] at hstr
  exact ⟨hsize, hstr⟩

end LibSrsBsns
