import LittlePenguin.Debugfs
import LittlePenguin.MiscDevice

/-!
# The arrays on the stack

Both files that compare a write with the student login copy it into an array on
the stack, of a hundred bytes. They refuse what does not fit with its NUL, and
what goes over the array later on stops at the NUL. `id` so stays inside of the
array whatever is written. The misc device also looks at the byte in front of the
NUL, which is inside of the array exactly if there is something in front of it
(`withinScratch_iff`).
-/

namespace LittlePenguin

open Lib MiscDevice Debugfs

variable (K : Kernel) {data : CArray 100} {user : Bytes}

/-- A copy from the user leaves as many bytes as have been asked for. -/
theorem length_copyFromUser (f : Fault) (src : Bytes) :
    (K.copyFromUser f src).1.length = src.length := by
  have := f.passed_le src.length
  simp only [K.copyFromUser_eq, List.length_append, List.length_take, List.length_replicate]
  omega

/-- With a NUL in the array, whatever goes over the string stays inside. -/
theorem string_le {i : ℕ} (hi : i < 100) (hnul : data.cells[i]? = some 0) :
    strlen data.cells + 1 ≤ 100 ∧ ∀ text, compared data.cells text ≤ 100 := by
  have hlen := strlen_le_of_getElem? hnul
  refine ⟨by omega, fun text => (compared_le data.cells text).trans (by omega)⟩

/-- Copied in with a NUL behind it, what fits is inside. -/
theorem inside_terminated (h : data.Inside) (hlen : user.length < 100) (f : Fault) :
    ((data.copyIn 0 (K.copyFromUser f user).1).store user.length 0).Inside ∧
      ((data.copyIn 0 (K.copyFromUser f user).1).store user.length 0).cells[user.length]? =
        some 0 := by
  constructor
  · rw [CArray.inside_store_iff]
    exact ⟨hlen, h.copyIn (by rw [length_copyFromUser]; exact hlen.le)⟩
  · rw [CArray.cells_store, List.getElem?_set_self]
    rwa [CArray.length_cells]

/-! ## The file `id` -/

/-- A write of `id` stays inside of its array. -/
theorem inside_idWrite (h : data.Inside) (f : Fault) (user : Bytes) :
    (idWrite K f data user).data.Inside := by
  rcases Nat.lt_or_ge user.length 100 with hlen | hlen
  · obtain ⟨hinside, hnul⟩ := inside_terminated K h hlen f
    obtain ⟨hstrlen, hcompared⟩ := string_le hlen hnul
    simp only [idWrite, if_neg (Nat.not_le.2 hlen)]
    split_ifs with hleft
    · exact h.copyIn (by rw [length_copyFromUser]; exact hlen.le)
    · exact (hinside.scan hstrlen).scan (hcompared _)
    · exact ((hinside.scan hstrlen).scan (hcompared _)).scan hstrlen
  · simp only [idWrite, if_pos hlen]
    exact h

/-! ## The misc device -/

/-- The array after the byte at the index `last` has been looked at, and a newline
    there replaced. -/
def strip (data : CArray 100) (last : ℕ) : CArray 100 :=
  if data.get last = 10 then (data.load last).store last 0 else data.load last

theorem inside_strip_iff (data : CArray 100) (last : ℕ) :
    (strip data last).Inside ↔ last < 100 ∧ data.Inside := by
  rw [strip]
  split_ifs
  · rw [CArray.inside_store_iff, CArray.inside_load_iff, and_self_left]
  · exact CArray.inside_load_iff data last

/-- The NUL is still there. -/
theorem getElem?_strip {i : ℕ} (hnul : data.cells[i]? = some 0) (last : ℕ) :
    (strip data last).cells[i]? = some 0 := by
  rw [strip]
  split_ifs
  · rw [CArray.cells_store, CArray.cells_load, List.getElem?_set, hnul]
    split_ifs with hlast hlt
    · rfl
    · exact absurd (List.getElem?_eq_some_iff.1 hnul).1 (hlast ▸ hlt)
    · rfl
  · exact hnul

/-- What a write that is copied in does to the array. -/
theorem data_fortytwoWrite {env : WriteEnv} {offp : ℤ} (hlen : user.length < 100)
    (hf : (K.copyFromUser env.copyIn user).2 = 0) :
    let terminated := (env.data.copyIn 0 (K.copyFromUser env.copyIn user).1).store user.length 0
    let stripped := strip terminated (sizeT (user.length - 1))
    (fortytwoWrite K env user offp).data =
      (stripped.scan (strlen stripped.cells + 1)).scan
        (compared stripped.cells (literal "estruckm")) := by
  simp only [fortytwoWrite, if_neg (Nat.not_le.2 hlen), hf, ne_eq, not_true_eq_false, if_false]
  exact (apply_ite WriteCall.data _ _ _).trans (ite_self _)

/-- The byte in front of the NUL is inside of the array if there is something there. -/
theorem sizeT_pred_lt_iff {count : ℕ} (h : count < 100) :
    sizeT ((count : ℤ) - 1) < 100 ↔ 0 < count := by
  rw [sizeT]
  omega

/-- A write to the misc device stays inside of its array exactly if it passes something. -/
theorem inside_fortytwoWrite_iff {env : WriteEnv} (h : env.data.Inside) (user : Bytes) (offp : ℤ) :
    (fortytwoWrite K env user offp).data.Inside ↔ user ≠ [] := by
  rw [← List.length_pos_iff]
  rcases Nat.lt_or_ge user.length 100 with hlen | hlen
  · obtain ⟨hinside, hnul⟩ := inside_terminated K h hlen env.copyIn
    by_cases hf : (K.copyFromUser env.copyIn user).2 = 0
    · have hdata := @data_fortytwoWrite K user env offp hlen hf
      obtain ⟨hstrlen, hcompared⟩ := string_le hlen
        (getElem?_strip hnul (sizeT (user.length - 1)))
      rw [hdata, ← sizeT_pred_lt_iff hlen]
      constructor
      · intro hscan
        exact ((inside_strip_iff _ _).1 hscan.of_scan.of_scan).1
      · intro hlast
        exact (((inside_strip_iff _ _).2 ⟨hlast, hinside⟩).scan hstrlen).scan (hcompared _)
    · -- With nothing to copy, the copy would not have failed.
      have hpos : 0 < user.length := by
        rw [K.copyFromUser_eq] at hf
        exact Nat.lt_of_lt_of_le (Nat.pos_of_ne_zero hf) (Nat.sub_le _ _)
      refine iff_of_true ?_ hpos
      simp only [fortytwoWrite, if_neg (Nat.not_le.2 hlen), if_pos hf]
      exact h.copyIn (by rw [length_copyFromUser]; exact hlen.le)
  · refine iff_of_true ?_ (Nat.lt_of_lt_of_le (by decide) hlen)
    simp only [fortytwoWrite, if_pos hlen]
    exact h

/-- A write of `user` stays inside of the arrays, to whichever of the two files it is. -/
def WithinScratch (env : WriteEnv) (f : Fault) (data : CArray 100) (user : Bytes) (offp : ℤ) :
    Prop :=
  (fortytwoWrite K env user offp).data.Inside ∧ (idWrite K f data user).data.Inside

/-- Whatever is written, and wherever its copy faults, all accesses are inside of
    the arrays exactly if at least one byte is written. -/
theorem withinScratch_iff (env : WriteEnv) (f : Fault) (data : CArray 100) (user : Bytes)
    (offp : ℤ) (henv : env.data.Inside) (hdata : data.Inside) :
    WithinScratch K env f data user offp ↔ user ≠ [] := by
  rw [WithinScratch, inside_fortytwoWrite_iff K henv, and_iff_left (inside_idWrite K hdata f user)]

theorem withinScratch_newline :
    WithinScratch .reference .plain .never (CArray.zeroed 100) (ascii "\n") 0 :=
  (withinScratch_iff .reference .plain .never (CArray.zeroed 100) (ascii "\n") 0
    CArray.inside_zeroed CArray.inside_zeroed).2 (by decide)

/-- A write of no bytes looks at the byte in front of the array. -/
theorem empty_not_withinScratch :
    ¬∀ (env : WriteEnv) (f : Fault) (data : CArray 100) (user : Bytes) (offp : ℤ),
      env.data.Inside → data.Inside → WithinScratch .reference env f data user offp := by
  intro hall
  have h := hall .plain .never (CArray.zeroed 100) [] 0 CArray.inside_zeroed CArray.inside_zeroed
  exact absurd rfl ((inside_fortytwoWrite_iff .reference CArray.inside_zeroed [] 0).1 h.1)

end LittlePenguin
