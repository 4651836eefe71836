import LittlePenguin.Fix

/-!
# Reading the reverse device

`myfd_read` goes down in `str` with one counter, signed and begun one below the
length of the string, and up in its buffer with another one. However long the
string is, and if there is none, the loop comes to its end in front of `str`,
having left the string reversed in the buffer, and `str` as it was. What is
handed out is the slice of the reversed string at the position of the file
(`myfdRead_reverses`).
-/

namespace LittlePenguin.Fix

open Lib

variable (K : Kernel)

/-- The loop of `myfd_read` as a read runs it, after `strlen` has gone over the string. -/
def copyLoop (heap : CArray (2 * PAGE_SIZE)) (str : CArray PAGE_SIZE) :
    ℕ × CArray PAGE_SIZE × CArray (2 * PAGE_SIZE) :=
  myfdRead.loop (ssizeT (sizeT (strlen str.cells - 1))) 0 (str.scan (strlen str.cells + 1)) heap

/-- A read hands out what the loop has left in the buffer, with a NUL behind it. -/
theorem myfdRead_eq_copyLoop (f : Fault) (heap : CArray (2 * PAGE_SIZE)) (str : CArray PAGE_SIZE)
    (size : ℕ) (offs : ℤ) : myfdRead K f heap str size offs =
      let (i, str, tmp) := copyLoop heap str
      let tmp := tmp.store i 0
      { reply := K.simpleReadFromBuffer f size offs tmp.cells i, str, tmp } := rfl

/-- A read reverses the string of `str` into its buffer, and disturbs nothing. -/
structure Reverses (f : Fault) (heap : CArray (2 * PAGE_SIZE)) (str : CArray PAGE_SIZE) (size : ℕ)
    (offs : ℤ) : Prop where
  /-- The loop has gone round once for each byte of the string. -/
  iterations : (copyLoop heap str).1 = strlen str.cells
  /-- It has loaded each of them, and nothing else. -/
  loads : (copyLoop heap str).2.1.loads =
    List.range (strlen str.cells) ++ (str.scan (strlen str.cells + 1)).loads
  /-- All that is stored is as many bytes, and the NUL behind them. -/
  stores : (myfdRead K f heap str size offs).tmp.stores =
    (List.range (strlen str.cells + 1)).reverse ++ heap.stores
  get : ∀ i < strlen str.cells,
    (myfdRead K f heap str size offs).tmp.get i = str.get (strlen str.cells - 1 - i)
  nul : (myfdRead K f heap str size offs).tmp.get (strlen str.cells) = 0
  unchanged : (myfdRead K f heap str size offs).str.cells = str.cells ∧
    (myfdRead K f heap str size offs).str.stores = str.stores
  /-- What gets through of the slice is delivered; none is at a negative position. -/
  bytes : (myfdRead K f heap str size offs).reply.bytes =
    if offs < 0 then []
    else
      let bs := slice (cstr str.cells).reverse offs.toNat size
      bs.take (f.passed bs.length)

/-- Reversed, the bytes before the NUL stand the other way round. -/
theorem getElem?_of_take_eq_reverse {cells cells' : Bytes}
    (h : cells'.take (strlen cells) = (cstr cells).reverse) {i : ℕ} (hi : i < strlen cells) :
    cells'[i]? = cells[strlen cells - 1 - i]? := by
  have hlast : strlen cells - 1 - i < strlen cells := by omega
  calc cells'[i]?
      = (cells'.take (strlen cells))[i]? := (List.getElem?_take_of_lt hi).symm
    _ = (cstr cells)[strlen cells - 1 - i]? := by rw [h, List.getElem?_reverse hi]; rfl
    _ = cells[strlen cells - 1 - i]? := by rw [← take_strlen, List.getElem?_take_of_lt hlast]

/-- With a NUL in the page, every read reverses the string in front of it. -/
theorem myfdRead_reverses (f : Fault) (heap : CArray (2 * PAGE_SIZE)) (str : CArray PAGE_SIZE)
    (size : ℕ) (offs : ℤ) (h : strlen str.cells < PAGE_SIZE) :
    Reverses K f heap str size offs := by
  have hpage : PAGE_SIZE = 4096 := rfl
  obtain ⟨tmp, heq, htake, hnul, hstores⟩ := myfdRead_eq K h f heap size offs
  obtain ⟨_, hloop, _⟩ := myfdRead.loop_string h heap
  have hlen := tmp.length_cells
  constructor
  · rw [copyLoop, hloop]
  · rw [copyLoop, hloop]
    rfl
  · rw [heq, hstores, List.range_succ, List.reverse_append, List.range_eq_range']
    rfl
  · intro i hi
    have hcells := getElem?_of_take_eq_reverse htake hi
    have hlast : strlen str.cells - 1 - i < str.cells.length := by
      rw [str.length_cells]
      omega
    have hfirst : i < tmp.cells.length := by omega
    rw [List.getElem?_eq_getElem hlast, List.getElem?_eq_getElem hfirst] at hcells
    rw [heq]
    change tmp.get i = _
    rw [CArray.get_of_lt hfirst, CArray.get_of_lt hlast]
    exact Option.some.inj hcells
  · rw [heq, CArray.get, List.getD_eq_getElem?_getD, hnul]
    rfl
  · rw [heq]
    exact ⟨rfl, rfl⟩
  · rw [heq, ← htake]
    exact K.read_bytes f size offs (by omega)

/-- Of the three letters reversed, the last two are delivered. -/
theorem myfdRead_reverses_pageAbc :
    Reverses .reference .never (CArray.zeroed _) pageAbc 10 1 ∧
      (myfdRead .reference .never (CArray.zeroed _) pageAbc 10 1).reply.bytes = ascii "ba" := by
  have h := myfdRead_reverses .reference .never (CArray.zeroed _) pageAbc 10 1 strlen_pageAbc
  refine ⟨h, h.bytes.trans ?_⟩
  rw [cstr_pageAbc]
  decide

end LittlePenguin.Fix
