import LibSrsBsns.Misc.Strings

/-!
# Appending to strings

The model of `strNcat` of `misc.c`. A string that is copied with `strNcpy` and appended to with
`strNcat` any number of times is the concatenation as far as there is room for it
(`strNcat_concatenates`).
-/

namespace LibSrsBsns

open C

/-- The loop of `strNcat`: what `dest` is after it, and where `ptr` points to. -/
def catLoop : ℕ → List Char → Buffer Char → ℕ → Exec (Buffer Char × ℕ)
  | 0, _, dest, ptr => .ok (dest, ptr)
  | _ + 1, [], dest, ptr => .ok (dest, ptr)
  | rem + 1, c :: src, dest, ptr => do
    let dest ← dest.write ptr c
    catLoop rem src dest (ptr + 1)

def strNcat (dest : Buffer Char) (src : List Char) (destsz : ℕ) : Exec (Buffer Char) := do
  let len ← dest.strlen 0
  if len + 1 ≥ destsz then .ok dest
  else do
    let (dest, ptr) ← catLoop (destsz - (len + 1)) src dest len
    dest.write ptr nul

variable {dest : Buffer Char} {text src : List Char} {destsz : ℕ}

theorem catLoop_spec {rem ptr : ℕ} (hroom : ptr + rem ≤ dest.size) (src : List Char) :
    Returns (catLoop rem src dest ptr) fun r =>
      dest.Filled ptr (src.take rem) r.1 ∧ r.2 = ptr + (src.take rem).length := by
  induction rem generalizing src dest ptr with
  | zero => exact .ok ⟨Buffer.filled_nil hroom, rfl⟩
  | succ rem ih =>
    cases src with
    | nil => exact .ok ⟨Buffer.filled_nil (by omega), rfl⟩
    | cons c src =>
      rw [catLoop]
      apply (Buffer.write_spec c (by omega)).bind
      intro dest' hwrite
      have hroom' : ptr + 1 + rem ≤ dest'.size := by
        rw [hwrite.size]
        omega
      apply (ih hroom' src).mono
      rintro ⟨dest'', ptr'⟩ ⟨hfill, hptr⟩
      refine ⟨hwrite.append hfill, ?_⟩
      rw [hptr, List.take_succ_cons, List.length_cons]
      omega

/-- What is appended to a text. -/
def appended (destsz : ℕ) (text src : List Char) : List Char :=
  text ++ src.take (destsz - (text.length + 1))

/-- `strNcat` appends what there is room for. -/
theorem strNcat_spec (hdest : dest.Str 0 text) (hroom : destsz ≤ dest.size) (hsrc : nul ∉ src) :
    Returns (strNcat dest src destsz) fun dest' =>
      dest'.size = dest.size ∧ dest'.Str 0 (appended destsz text src) := by
  rw [strNcat, Buffer.strlen_spec hdest, ok_bind]
  refine .ite (fun hfull => .ok ⟨rfl, ?_⟩) fun hrest => ?_
  · have hnone : destsz - (text.length + 1) = 0 := by omega
    rwa [appended, hnone, List.take_zero, List.append_nil]
  · apply (catLoop_spec (by omega) src).bind
    rintro ⟨dest', ptr⟩ ⟨hfill, hptr⟩
    have hlen : (src.take (destsz - (text.length + 1))).length ≤ destsz - (text.length + 1) :=
      List.length_take_le _ _
    dsimp only at hfill hptr ⊢
    have hlt : ptr < dest'.size := by
      rw [hptr, hfill.size]
      omega
    rw [hptr] at hlt ⊢
    apply (Buffer.write_spec nul hlt).mono
    intro dest'' hwrite
    have hall := hfill.append hwrite
    refine ⟨hall.size, ?_, ?_⟩
    · rw [appended, List.append_assoc]
      refine hdest.holds_text.extend ?_
      rw [Nat.zero_add]
      exact hall
    · rw [appended, List.mem_append, not_or]
      exact ⟨hdest.nul_notMem, fun hmem => hsrc (List.mem_of_mem_take hmem)⟩

/-- The text is cut where there is no room for more, whether once in the end or at every step. -/
theorem appended_take (destsz : ℕ) (text src : List Char) :
    appended destsz (text.take (destsz - 1)) src = (text ++ src).take (destsz - 1) := by
  rw [appended, List.take_append, List.length_take]
  rcases Nat.le_total text.length (destsz - 1) with hle | hge
  · rw [Nat.min_eq_right hle, Nat.sub_sub, Nat.add_comm 1]
  · have hleft : destsz - (min (destsz - 1) text.length + 1) = 0 := by omega
    have hright : destsz - 1 - text.length = 0 := by omega
    rw [hleft, hright]

theorem foldlM_strNcat {srcs : List (List Char)} (hdest : dest.Str 0 (text.take (destsz - 1)))
    (hroom : destsz ≤ dest.size) (hsrcs : ∀ src ∈ srcs, nul ∉ src) :
    Returns (srcs.foldlM (strNcat · · destsz) dest) fun dest' =>
      dest'.size = dest.size ∧ dest'.Str 0 ((text ++ srcs.flatten).take (destsz - 1)) := by
  induction srcs generalizing dest text with
  | nil => exact .ok ⟨rfl, by simpa using hdest⟩
  | cons src srcs ih =>
    rw [List.foldlM_cons]
    apply (strNcat_spec hdest hroom (hsrcs src List.mem_cons_self)).bind
    intro dest' ⟨hsize, hstr⟩
    rw [appended_take] at hstr
    apply (ih hstr (hsize ▸ hroom) fun src' h => hsrcs src' (List.mem_cons_of_mem src h)).mono
    intro dest'' ⟨hsize', hstr'⟩
    rw [List.append_assoc] at hstr'
    exact ⟨hsize'.trans hsize, hstr'⟩

/-- **Strings put together.** For all texts, a string that is copied with `strNcpy` and appended to
with `strNcat`, text by text and always for an array of the same size, is the concatenation of the
texts as far as there is room for it; the array is never left. -/
theorem strNcat_concatenates (hsz : 1 ≤ destsz) (hroom : destsz ≤ dest.size) (hsrc : nul ∉ src)
    {srcs : List (List Char)} (hsrcs : ∀ src ∈ srcs, nul ∉ src) :
    Returns (do
      let dest ← strNcpy dest src destsz
      srcs.foldlM (strNcat · · destsz) dest) fun dest' =>
        dest'.size = dest.size ∧ dest'.Str 0 ((src ++ srcs.flatten).take (destsz - 1)) := by
  apply (strNcpy_spec hsz hroom hsrc).bind
  intro dest' ⟨hsize, hstr⟩
  apply (foldlM_strNcat hstr (hsize ▸ hroom) hsrcs).mono
  intro dest'' ⟨hsize', hstr'⟩
  exact ⟨hsize'.trans hsize, hstr'⟩

/-- An address and a port in an array that is too short for both. -/
theorem strNcat_concatenates_short :
    Returns (do
      let dest ← strNcpy (.malloc 8) ['1', '.', '2', '.', '3', '.', '4'] 8
      [[':', '8', '0'], ['!']].foldlM (strNcat · · 8) dest) fun dest =>
        dest.Str 0 ['1', '.', '2', '.', '3', '.', '4'] := by
  have hsize : 8 ≤ (Buffer.malloc 8 : Buffer Char).size := le_rfl
  exact (strNcat_concatenates (by decide) hsize (by decide) (by decide)).mono fun _ h => h.2

end LibSrsBsns
