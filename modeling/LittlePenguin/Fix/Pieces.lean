import LittlePenguin.Fix.Bounds

/-!
# What a write of the reverse device acknowledges

`myfd_write` adds one to what its copy returns, be it the number of bytes stored
or an error code. So no call tells how many bytes it has stored, and none hands
on the error of its copy: the calls of a run are faithful exactly if there are
none (`faithful_iff`).
-/

namespace LittlePenguin.Fix

open Lib

variable (K : Kernel)

/-- What the copy returns is an error code, or no more than it has been given. -/
theorem write_result_bounds (f : Fault) (available : ℕ) (pos : ℤ) (src : Bytes) :
    -EINVAL ≤ (K.simpleWriteToBuffer f available pos src).result ∧
      (K.simpleWriteToBuffer f available pos src).result ≤ src.length := by
  have hinval : EINVAL = 22 := rfl
  rcases lt_or_ge pos 0 with hneg | hneg
  · rw [K.write_negative _ _ _ _ hneg]
    exact ⟨le_rfl, neg_EINVAL_lt.le.trans (Int.natCast_nonneg _)⟩
  by_cases hend : (available : ℤ) ≤ pos ∨ src = []
  · rw [K.write_nothing _ _ _ _ hneg hend]
    exact ⟨neg_EINVAL_lt.le, Int.natCast_nonneg _⟩
  · obtain ⟨hend, hne⟩ := not_or.1 hend
    have hfault : EFAULT = 14 := rfl
    have hk := f.passed_le (min src.length (available - pos.toNat))
    rw [K.write_some _ _ _ _ hneg (Int.not_le.1 hend) hne]
    dsimp only
    split_ifs <;> omega

/-- A write returns one more than its copy. -/
theorem result_myfdWrite (f : Fault) (str : CArray PAGE_SIZE) {user : Bytes}
    (h : user.length + 1 < 2 ^ 63) (offs : ℤ) :
    (myfdWrite K f str user offs).result =
      (K.simpleWriteToBuffer f user.length offs user).result + 1 := by
  obtain ⟨hge, hle⟩ := write_result_bounds K f user.length offs user
  have hinval : EINVAL = 22 := rfl
  exact ssizeT_sizeT (by omega) (by omega)

/-- In the state `d`, a call returns the number of bytes its copy stores, or the
    error code of the copy, which then has stored nothing. -/
def Acknowledges (d : Dev) (c : WriteReq) : Prop :=
  let r := K.simpleWriteToBuffer c.fault c.user.length (d.offs c.file) c.user
  ((device K).step d c).2 = r.result ∧
    (0 ≤ r.result ∧ r.result ≤ c.user.length ∨ r.result < 0 ∧ r.bytes = [])

/-- The calls write a string in pieces: each of them is acknowledged, and if none
    fails, the string is in the page in the end, with a NUL behind it. -/
structure Faithful (calls : List WriteReq) : Prop where
  acknowledges : ∀ before c after, calls = before ++ c :: after →
    Acknowledges K ((device K).state Dev.init before) c
  holds : (∀ r ∈ (device K).outputs Dev.init calls, 0 ≤ r) →
    calls.flatMap WriteReq.user ++ [0] <+: ((device K).state Dev.init calls).str.cells

theorem not_acknowledges (d : Dev) {c : WriteReq} (h : c.user.length + 1 < 2 ^ 63) :
    ¬Acknowledges K d c := by
  rintro ⟨hresult, _⟩
  have hstep : ((device K).step d c).2 = _ := result_myfdWrite K c.fault d.str h _
  rw [hstep] at hresult
  omega

/-- Of a string without a NUL, shorter than the page by more than a byte, written
    to a zeroed page through one open file, no piece is acknowledged. -/
theorem faithful_iff (calls : List WriteReq) (file : ℕ) (_hfile : ∀ c ∈ calls, c.file = file)
    (_hnul : 0 ∉ calls.flatMap WriteReq.user)
    (hlen : (calls.flatMap WriteReq.user).length < PAGE_SIZE - 1) :
    Faithful K calls ↔ calls = [] := by
  constructor
  · intro h
    cases calls with
    | nil => rfl
    | cons c calls =>
      have hc : c.user.length ≤ (List.flatMap WriteReq.user (c :: calls)).length := by
        rw [List.flatMap_cons, List.length_append]
        exact Nat.le_add_right _ _
      have hpage : PAGE_SIZE = 4096 := rfl
      exact absurd (h.acknowledges [] c calls rfl) (not_acknowledges K _ (by omega))
  · rintro rfl
    refine ⟨fun before c after h => ?_, fun _ => ?_⟩
    · exact absurd h.symm (List.append_ne_nil_of_right_ne_nil _ (List.cons_ne_nil _ _))
    · exact List.cons_prefix_cons.2 ⟨rfl, List.nil_prefix⟩

/-- A write of the single byte `a`. -/
def writeA : WriteReq := ⟨0, .never, ascii "a", by decide⟩

/-- Without a call, there is nothing to acknowledge, but with this one there is. -/
theorem faithful_nil_writeA : Faithful .reference [] ∧ ¬Faithful .reference [writeA] := by
  refine ⟨(faithful_iff .reference [] 0 (fun _ h => absurd h List.not_mem_nil) List.not_mem_nil
    (by decide)).2 rfl, ?_⟩
  rw [faithful_iff .reference [writeA] 0 (by simp [writeA]) (by decide) (by decide)]
  exact List.cons_ne_nil _ _

/-- The single byte is acknowledged as two. -/
theorem not_faithful_a :
    ((device .reference).step Dev.init writeA).2 = 2 ∧
      ¬∀ (calls : List WriteReq) (file : ℕ), (∀ c ∈ calls, c.file = file) →
        0 ∉ calls.flatMap WriteReq.user →
        (calls.flatMap WriteReq.user).length < PAGE_SIZE - 1 → Faithful .reference calls := by
  refine ⟨by decide, fun hall => ?_⟩
  have h := hall [writeA] 0 (by simp [writeA]) (by decide) (by decide)
  exact not_acknowledges .reference Dev.init (by decide) (h.acknowledges [] writeA [] rfl)

end LittlePenguin.Fix
