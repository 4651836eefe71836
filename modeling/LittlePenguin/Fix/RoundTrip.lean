import LittlePenguin.Fix

/-!
# The reverse device gives back what was written

A string written to the device in one piece, at the beginning of the page, is
to be read back reversed. What decides it is the byte standing right behind the
string in the page, left there by an earlier write: `myfd_write` places its NUL
one byte further, so that this byte becomes part of the string, unless it is NUL
itself (`roundTrip_iff_of_reachable`).
-/

namespace LittlePenguin.Fix

open Lib

variable (K : Kernel)

/-- The contents of the page after runs of accepted writes, each from a fresh
    open and shorter than the page by more than a byte. -/
inductive Reachable : CArray PAGE_SIZE → Prop
  | zeroed : Reachable (CArray.zeroed PAGE_SIZE)
  | write {str : CArray PAGE_SIZE} (f : Fault) (user : Bytes) : Reachable str →
      user.length < PAGE_SIZE - 1 → 0 ≤ (myfdWrite K f str user 0).result →
      Reachable (myfdWrite K f str user 0).str

/-- The device as a reader finds it: the page, and what `kmalloc` will hand
    out, call after call. -/
structure Opened where
  str : CArray PAGE_SIZE
  heap : ℕ → CArray (2 * PAGE_SIZE)

/-- A call of `myfd_read` without a fault. -/
def readStep (d : Opened) (size : ℕ) (offs : ℤ) : Reply × Opened :=
  let c := myfdRead K .never (d.heap 0) d.str size offs
  (c.reply, { str := c.str, heap := fun k => d.heap (k + 1) })

/-- Written to the page in one piece, `w` is read back reversed. -/
def RoundTrip (str : CArray PAGE_SIZE) (w : Bytes) : Prop :=
  ∀ heap, DrainsTo (readStep K) { str := (myfdWrite K .never str w 0).str, heap } w.reverse

/-- Reads serve the reversed string of the page, which they leave as it is. -/
theorem serves_reverse {cells : Bytes} (h : strlen cells < PAGE_SIZE) :
    Serves (readStep K) (fun d => d.str.cells = cells) (cstr cells).reverse where
  reply := by
    rintro d size offs rfl hoffs
    exact myfdRead_reply K h (d.heap 0) size hoffs
  keep := by
    rintro d size offs rfl _
    obtain ⟨tmp, heq, _⟩ := myfdRead_eq K h .never (d.heap 0) size offs
    simp only [readStep, heq, CArray.cells_scan]

/-- Whatever the page holds, `w` makes the round trip exactly if the byte that
    will stand behind it is NUL. -/
theorem roundTrip_iff (str : CArray PAGE_SIZE) {w : Bytes} (hw : w.length < PAGE_SIZE - 1)
    (hnul : 0 ∉ w) : RoundTrip K str w ↔ str.get w.length = 0 := by
  have hlen : w.length + 1 < PAGE_SIZE := by omega
  have hcstr := cstr_myfdWrite K str w hlen hnul
  have hstrlen : strlen (myfdWrite K .never str w 0).str.cells < PAGE_SIZE := by
    rw [strlen, hcstr, List.length_append]
    split_ifs
    · exact Nat.lt_of_succ_lt hlen
    · exact hlen
  have hserves := serves_reverse K hstrlen
  have hiff : RoundTrip K str w ↔
      w.reverse = (cstr (myfdWrite K .never str w 0).str.cells).reverse := by
    refine ⟨fun h => ?_, fun h heap => (hserves.drainsTo_iff rfl _).2 h⟩
    exact (hserves.drainsTo_iff rfl _).1 (h fun _ => CArray.zeroed _)
  rw [hiff, List.reverse_inj, hcstr, List.self_eq_append_right]
  split_ifs with h0 <;> simp [h0]

/-- Over every content earlier writes have left, a string is read back reversed
    exactly if the byte behind it is NUL when it is written. -/
theorem roundTrip_iff_of_reachable (str : CArray PAGE_SIZE) (_hstr : Reachable K str) (w : Bytes)
    (hw : w.length < PAGE_SIZE - 1) (hnul : 0 ∉ w) :
    RoundTrip K str w ↔ str.get w.length = 0 :=
  roundTrip_iff K str hw hnul

/-- The page after the string `abc` has been written to it. -/
def afterAbc : CArray PAGE_SIZE :=
  (myfdWrite .reference .never (CArray.zeroed PAGE_SIZE) [97, 98, 99] 0).str

theorem reachable_afterAbc : Reachable .reference afterAbc :=
  .write .never [97, 98, 99] .zeroed (by decide) (by decide)

theorem get_afterAbc : afterAbc.get 1 = 98 ∧ afterAbc.get 3 = 0 := by
  have hcells : afterAbc.cells = _ := cells_myfdWrite .reference (CArray.zeroed PAGE_SIZE)
    [97, 98, 99] (by decide)
  rw [CArray.get, CArray.get, hcells]
  exact ⟨rfl, rfl⟩

/-- Over `abc`, the string `xyz` of the same length makes the round trip. -/
theorem roundTrip_over_abc : RoundTrip .reference afterAbc [120, 121, 122] :=
  (roundTrip_iff_of_reachable .reference afterAbc reachable_afterAbc [120, 121, 122] (by decide)
    (by decide)).2 get_afterAbc.2

/-- Over `abc`, the string `x` is read back as `bx`. -/
theorem not_roundTrip_over_abc :
    ¬∀ str, Reachable .reference str → ∀ w : Bytes, w.length < PAGE_SIZE - 1 → 0 ∉ w →
      RoundTrip .reference str w := by
  intro hall
  have h := hall afterAbc reachable_afterAbc [120] (by decide) (by decide)
  rw [roundTrip_iff .reference afterAbc (by decide) (by decide)] at h
  exact absurd (get_afterAbc.1.symm.trans h) (by decide)

end LittlePenguin.Fix
