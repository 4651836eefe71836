import LittlePenguin.Kernel

/-!
# The reverse device

The device of `ex08/fix.c` keeps what is written to it in a static page,
`str`, and gives it back reversed. The page holds a string: a read takes what
stands before the first NUL (`strlen`), and copies it backwards into a buffer
of two pages it has allocated; a write copies in what the user passes and stores
a NUL behind it, at the index `size + 1`.

* `myfdRead_reply`: a read serves the reversed string of the page.
* `cstr_myfdWrite`: after a write at the beginning, the page holds what was
  written and the byte that stood behind it before, if that is not NUL.
-/

namespace LittlePenguin.Fix

open Lib

/-- What a call of `myfd_read` answers, and what it leaves in the arrays. -/
structure ReadCall where
  reply : Reply
  str : CArray PAGE_SIZE
  tmp : CArray (2 * PAGE_SIZE)

/-- What a call of `myfd_write` answers, and what it leaves behind. -/
structure WriteCall where
  result : ℤ
  str : CArray PAGE_SIZE
  offs : ℤ

/-- The loop of `myfd_read`, with its two counters: `t` goes down in `str`, `i`
    goes up in `tmp`. -/
def myfdRead.loop (t : ℤ) (i : ℕ) (str : CArray PAGE_SIZE) (tmp : CArray (2 * PAGE_SIZE)) :
    ℕ × CArray PAGE_SIZE × CArray (2 * PAGE_SIZE) :=
  if 0 ≤ t then
    myfdRead.loop (t - 1) (i + 1) (str.load t.toNat) (tmp.store i (str.get t.toNat))
  else (i, str, tmp)
termination_by (t + 1).toNat

variable (K : Kernel)

/-- A read of `size` bytes; `heap` is what `kmalloc` hands out. -/
def myfdRead (f : Fault) (heap : CArray (2 * PAGE_SIZE)) (str : CArray PAGE_SIZE) (size : ℕ)
    (offs : ℤ) : ReadCall :=
  let t := ssizeT (sizeT (strlen str.cells - 1))
  let str := str.scan (strlen str.cells + 1)
  let (i, str, tmp) := myfdRead.loop t 0 str heap
  let tmp := tmp.store i 0
  { reply := K.simpleReadFromBuffer f size offs tmp.cells i, str, tmp }

/-- A write of the bytes `user`. The copy is bounded by their number, which is
    also the index the NUL is placed by. -/
def myfdWrite (f : Fault) (str : CArray PAGE_SIZE) (user : Bytes) (offs : ℤ) : WriteCall :=
  let size := user.length
  let r := K.simpleWriteToBuffer f size offs user
  let str := str.copyIn offs.toNat r.bytes
  let res := sizeT (r.result + 1)
  let str := str.store (sizeT (size + 1)) 0
  { result := ssizeT res, str, offs := r.pos }

/-- A page that holds the string `abc`. -/
def pageAbc : CArray PAGE_SIZE := (((CArray.zeroed PAGE_SIZE).store 0 97).store 1 98).store 2 99

theorem cstr_pageAbc : cstr pageAbc.cells = ascii "abc" := by decide

theorem strlen_pageAbc : strlen pageAbc.cells < PAGE_SIZE := by decide

/-! ## Reading -/

/-- Started at the index `k - 1`, the loop copies the first `k` bytes backwards. -/
theorem myfdRead.loop_eq {k : ℕ} {t : ℤ} (ht : t = k - 1) {i : ℕ} (str : CArray PAGE_SIZE)
    (tmp : CArray (2 * PAGE_SIZE)) (hk : k ≤ PAGE_SIZE) (hi : i + k ≤ 2 * PAGE_SIZE) :
    ∃ tmp' : CArray (2 * PAGE_SIZE), myfdRead.loop t i str tmp = (i + k, str.scan k, tmp') ∧
      tmp'.cells = overlay tmp.cells i (str.cells.take k).reverse ∧
      tmp'.stores = (List.range' i k).reverse ++ tmp.stores := by
  induction k generalizing t i str tmp with
  | zero =>
    rw [myfdRead.loop, if_neg (by omega)]
    refine ⟨tmp, rfl, ?_, rfl⟩
    rw [List.take_zero, List.reverse_nil, overlay_nil]
  | succ k ih =>
    obtain rfl : t = k := by omega
    have hlen : k < str.cells.length := by rw [str.length_cells]; omega
    obtain ⟨tmp', hloop, hcells, hstores⟩ :=
      ih (i := i + 1) rfl (str.load k) (tmp.store i (str.get k)) (by omega) (by omega)
    rw [myfdRead.loop, if_pos (by omega), Int.toNat_natCast, hloop]
    refine ⟨tmp', ?_, ?_, ?_⟩
    · rw [CArray.scan, CArray.scan, List.range_succ, List.append_assoc, Nat.add_right_comm]
      rfl
    · rw [hcells, List.take_succ_eq_append_getElem hlen, List.reverse_append,
        List.reverse_singleton, CArray.get_of_lt hlen]
      refine overlay_set ?_ _ _
      rw [tmp.length_cells]
      omega
    · rw [hstores, List.range'_succ, List.reverse_cons, List.append_assoc]
      rfl

/-- Started at the last byte of the string, or in front of `str` if there is none,
    the loop reverses the string into the front of `tmp`. -/
theorem myfdRead.loop_string {str : CArray PAGE_SIZE} (h : strlen str.cells < PAGE_SIZE)
    (heap : CArray (2 * PAGE_SIZE)) :
    ∃ tmp : CArray (2 * PAGE_SIZE),
      myfdRead.loop (ssizeT (sizeT (strlen str.cells - 1))) 0 (str.scan (strlen str.cells + 1))
          heap =
        (strlen str.cells, (str.scan (strlen str.cells + 1)).scan (strlen str.cells), tmp) ∧
      tmp.cells = (cstr str.cells).reverse ++ heap.cells.drop (strlen str.cells) ∧
      tmp.stores = (List.range' 0 (strlen str.cells)).reverse ++ heap.stores := by
  have hpage : PAGE_SIZE = 4096 := rfl
  have ht : ssizeT (sizeT (strlen str.cells - 1)) = strlen str.cells - 1 :=
    ssizeT_sizeT (by omega) (by omega)
  obtain ⟨tmp, hloop, hcells, hstores⟩ :=
    myfdRead.loop_eq ht (i := 0) (str.scan (strlen str.cells + 1)) heap h.le (by omega)
  rw [Nat.zero_add] at hloop
  refine ⟨tmp, hloop, ?_, hstores⟩
  have hlen : (cstr str.cells).reverse.length = strlen str.cells := List.length_reverse
  have hfits : (cstr str.cells).reverse.length ≤ heap.cells.length := by
    rw [hlen, heap.length_cells]
    omega
  rw [hcells, CArray.cells_scan, take_strlen, overlay_zero hfits, hlen]

/-- A read hands out the reversed string from `tmp`. It loads the string with
    its NUL, and stores the reversed one with a NUL of its own. -/
theorem myfdRead_eq {str : CArray PAGE_SIZE} (h : strlen str.cells < PAGE_SIZE) (f : Fault)
    (heap : CArray (2 * PAGE_SIZE)) (size : ℕ) (offs : ℤ) :
    ∃ tmp : CArray (2 * PAGE_SIZE),
      myfdRead K f heap str size offs =
        { reply := K.simpleReadFromBuffer f size offs tmp.cells (strlen str.cells)
          str := (str.scan (strlen str.cells + 1)).scan (strlen str.cells)
          tmp } ∧
      tmp.cells.take (strlen str.cells) = (cstr str.cells).reverse ∧
      tmp.cells[strlen str.cells]? = some 0 ∧
      tmp.stores =
        strlen str.cells :: (List.range' 0 (strlen str.cells)).reverse ++ heap.stores := by
  have hpage : PAGE_SIZE = 4096 := rfl
  obtain ⟨tmp, hloop, hcells, hstores⟩ := myfdRead.loop_string h heap
  refine ⟨tmp.store (strlen str.cells) 0, ?_, ?_, ?_, ?_⟩
  · simp only [myfdRead, hloop]
  · have hlen : (cstr str.cells).reverse.length = strlen str.cells := List.length_reverse
    rw [CArray.cells_store, List.take_set_of_le le_rfl, hcells, List.take_left' hlen]
  · rw [CArray.cells_store, List.getElem?_set_self]
    rw [tmp.length_cells]
    omega
  · rw [CArray.stores_store, hstores, List.cons_append]

/-- Without a fault, a read serves a slice of the reversed string. -/
theorem myfdRead_reply {str : CArray PAGE_SIZE} (h : strlen str.cells < PAGE_SIZE)
    (heap : CArray (2 * PAGE_SIZE)) (size : ℕ) {offs : ℤ} (hoffs : 0 ≤ offs) :
    (myfdRead K .never heap str size offs).reply =
      Reply.ofSlice (cstr str.cells).reverse offs size := by
  have hpage : PAGE_SIZE = 4096 := rfl
  obtain ⟨tmp, heq, htake, _⟩ := myfdRead_eq K h .never heap size offs
  rw [heq, K.read_never hoffs (by rw [tmp.length_cells]; omega), htake]

/-! ## Writing -/

/-- Without a fault, a write at the beginning lays the bytes over the page,
    and a NUL one byte behind them. -/
theorem cells_myfdWrite (str : CArray PAGE_SIZE) (user : Bytes) (h : user.length + 1 < PAGE_SIZE) :
    (myfdWrite K .never str user 0).str.cells =
      user ++ (str.cells.drop user.length).set 1 0 := by
  have hpage : PAGE_SIZE = 4096 := rfl
  have hbytes : (K.simpleWriteToBuffer .never user.length 0 user).bytes = user := by
    rw [K.write_never le_rfl]
    simp
  have hidx : sizeT ((user.length : ℤ) + 1) = user.length + 1 :=
    sizeT_of_lt (n := user.length + 1) (by omega)
  simp only [myfdWrite, CArray.cells_store, CArray.cells_copyIn, hbytes, hidx, Int.toNat_zero]
  rw [overlay_zero (by rw [str.length_cells]; omega), List.set_append_right _ _ (by omega)]
  congr 2
  omega

/-- After a write at the beginning, the page holds the string written, and the
    byte that stood behind it. -/
theorem cstr_myfdWrite (str : CArray PAGE_SIZE) (user : Bytes) (h : user.length + 1 < PAGE_SIZE)
    (hnul : 0 ∉ user) :
    cstr (myfdWrite K .never str user 0).str.cells =
      user ++ if str.get user.length = 0 then [] else [str.get user.length] := by
  have hlen : user.length + 1 < str.cells.length := by rwa [str.length_cells]
  rw [cells_myfdWrite K str user h, cstr_append hnul, CArray.get_of_lt (Nat.lt_of_succ_lt hlen),
    List.drop_eq_getElem_cons (Nat.lt_of_succ_lt hlen), List.drop_eq_getElem_cons hlen]
  split_ifs with h0
  · rw [h0, List.set_cons_succ, cstr_zero]
  · rw [List.set_cons_succ, List.set_cons_zero, cstr_cons_of_ne h0, cstr_zero]

end LittlePenguin.Fix
