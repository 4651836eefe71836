import LittlePenguin.Lib.Reader
import Mathlib.Algebra.Group.Int.Defs
import Mathlib.Algebra.Group.Nat.Defs

/-!
# The kernel around the modules

What the modules use of the kernel: the sizes of its integer types, its error
codes, and the routines that copy between kernel and user memory.

A user copy may fault half-way. Where it does is up to the caller's memory, and
an input of the model (`Fault`). The routines themselves are not part of the
repository. They are a parameter (`Kernel`): any functions that do what the
routines are documented to do, which the fields of the structure state.
`Kernel.reference` is such a kernel.
-/

namespace LittlePenguin

open Lib

/-- The error code of a faulting user copy. -/
def EFAULT : ℤ := 14

/-- The error code of an invalid argument. -/
def EINVAL : ℤ := 22

/-- A result with an error code is negative. -/
theorem neg_EFAULT_lt : -EFAULT < 0 := by decide

theorem neg_EINVAL_lt : -EINVAL < 0 := by decide

/-- The size of a page, in bytes. -/
def PAGE_SIZE : ℕ := 4096

/-- A number as a `size_t`. -/
def sizeT (x : ℤ) : ℕ := (x % 2 ^ 64).toNat

/-- A `size_t` as an `ssize_t`. -/
def ssizeT (n : ℕ) : ℤ := if n < 2 ^ 63 then n else n - 2 ^ 64

theorem sizeT_of_lt {n : ℕ} (h : n < 2 ^ 64) : sizeT n = n := by
  rw [sizeT]
  omega

/-- A small number passes through `size_t` unchanged, a negative one too. -/
theorem ssizeT_sizeT {x : ℤ} (h₁ : -2 ^ 63 ≤ x) (h₂ : x < 2 ^ 63) : ssizeT (sizeT x) = x := by
  rw [ssizeT, sizeT]
  split_ifs <;> omega

/-! ## User copies -/

/-- Where a user copy faults. -/
inductive Fault
  /-- Nowhere. -/
  | never
  /-- After `k` bytes, if there are more. -/
  | after (k : ℕ)
  deriving DecidableEq

/-- How many of `n` bytes get through. -/
def Fault.passed : Fault → ℕ → ℕ
  | never, n => n
  | after k, n => min k n

theorem Fault.passed_le (f : Fault) (n : ℕ) : f.passed n ≤ n := by
  cases f with
  | never => exact Nat.le_refl n
  | after k => exact Nat.min_le_right k n

@[simp] theorem Fault.passed_never (n : ℕ) : Fault.never.passed n = n := rfl

/-- A kernel: routines that do what those of this name are documented to do. -/
structure Kernel where
  /-- `copy_from_user`, from the user bytes `src`: what it leaves at the
      destination, and the number of bytes it could not copy. -/
  copyFromUser : Fault → (src : Bytes) → Bytes × ℕ
  /-- `copy_to_user`, from the kernel bytes `src`: what reaches user memory,
      and the number of bytes that do not. -/
  copyToUser : Fault → (src : Bytes) → Bytes × ℕ
  /-- `simple_read_from_buffer`, from the first `available` bytes of the buffer `src`. -/
  simpleReadFromBuffer : Fault → (count : ℕ) → (pos : ℤ) → (src : Bytes) →
    (available : ℕ) → Reply
  /-- `simple_write_to_buffer`, from the user bytes `src` to a buffer of
      `available` bytes; the bytes of the answer are what it stores from the
      position `pos` of the buffer on. -/
  simpleWriteToBuffer : Fault → (available : ℕ) → (pos : ℤ) → (src : Bytes) → Reply
  /-- What could not be copied from user memory is zero-filled. -/
  copyFromUser_eq : ∀ (f : Fault) (src : Bytes), copyFromUser f src =
    (src.take (f.passed src.length) ++ List.replicate (src.length - f.passed src.length) 0,
      src.length - f.passed src.length)
  copyToUser_eq : ∀ (f : Fault) (src : Bytes), copyToUser f src =
    (src.take (f.passed src.length), src.length - f.passed src.length)
  read_negative : ∀ (f : Fault) (count : ℕ) (pos : ℤ) (src : Bytes) (available : ℕ), pos < 0 →
    simpleReadFromBuffer f count pos src available = ⟨-EINVAL, [], pos⟩
  /-- At the end of the buffer, or with nothing asked for, nothing is read. -/
  read_nothing : ∀ (f : Fault) (count : ℕ) (pos : ℤ) (src : Bytes) (available : ℕ), 0 ≤ pos →
    (available : ℤ) ≤ pos ∨ count = 0 →
    simpleReadFromBuffer f count pos src available = ⟨0, [], pos⟩
  /-- Otherwise the bytes that get through are read, and it is an error if there are none. -/
  read_some : ∀ (f : Fault) (count : ℕ) (pos : ℤ) (src : Bytes) (available : ℕ), 0 ≤ pos →
    pos < (available : ℤ) → 0 < count → available ≤ src.length →
    let k := f.passed (min count (available - pos.toNat))
    simpleReadFromBuffer f count pos src available =
      ⟨if k = 0 then -EFAULT else k, slice src pos.toNat k, pos + k⟩
  write_negative : ∀ (f : Fault) (available : ℕ) (pos : ℤ) (src : Bytes), pos < 0 →
    simpleWriteToBuffer f available pos src = ⟨-EINVAL, [], pos⟩
  write_nothing : ∀ (f : Fault) (available : ℕ) (pos : ℤ) (src : Bytes), 0 ≤ pos →
    (available : ℤ) ≤ pos ∨ src = [] →
    simpleWriteToBuffer f available pos src = ⟨0, [], pos⟩
  /-- A write is a user copy of what fits, and it is an error if nothing gets through. -/
  write_some : ∀ (f : Fault) (available : ℕ) (pos : ℤ) (src : Bytes), 0 ≤ pos →
    pos < (available : ℤ) → src ≠ [] →
    let n := min src.length (available - pos.toNat)
    let k := f.passed n
    simpleWriteToBuffer f available pos src =
      ⟨if k = 0 then -EFAULT else k, src.take k ++ List.replicate (n - k) 0, pos + k⟩

namespace Kernel

/-- The kernel that does just what is documented. -/
def reference : Kernel where
  copyFromUser f src :=
    (src.take (f.passed src.length) ++ List.replicate (src.length - f.passed src.length) 0,
      src.length - f.passed src.length)
  copyToUser f src := (src.take (f.passed src.length), src.length - f.passed src.length)
  simpleReadFromBuffer f count pos src available :=
    if pos < 0 then ⟨-EINVAL, [], pos⟩
    else if (available : ℤ) ≤ pos ∨ count = 0 then ⟨0, [], pos⟩
    else
      let k := f.passed (min count (available - pos.toNat))
      ⟨if k = 0 then -EFAULT else k, slice src pos.toNat k, pos + k⟩
  simpleWriteToBuffer f available pos src :=
    if pos < 0 then ⟨-EINVAL, [], pos⟩
    else if (available : ℤ) ≤ pos ∨ src = [] then ⟨0, [], pos⟩
    else
      let n := min src.length (available - pos.toNat)
      let k := f.passed n
      ⟨if k = 0 then -EFAULT else k, src.take k ++ List.replicate (n - k) 0, pos + k⟩
  copyFromUser_eq _ _ := rfl
  copyToUser_eq _ _ := rfl
  read_negative _ _ _ _ _ h := if_pos h
  read_nothing _ _ _ _ _ h h' := by rw [if_neg (Int.not_lt.2 h), if_pos h']
  read_some _ _ _ _ _ h h₁ h₂ _ := by
    rw [if_neg (Int.not_lt.2 h), if_neg (not_or.2 ⟨Int.not_le.2 h₁, h₂.ne'⟩)]
  write_negative _ _ _ _ h := if_pos h
  write_nothing _ _ _ _ h h' := by rw [if_neg (Int.not_lt.2 h), if_pos h']
  write_some _ _ _ _ h h₁ h₂ := by
    rw [if_neg (Int.not_lt.2 h), if_neg (not_or.2 ⟨Int.not_le.2 h₁, h₂⟩)]

variable (K : Kernel)

/-- Without a fault, user bytes arrive as they are. -/
theorem copyFromUser_never (src : Bytes) : K.copyFromUser .never src = (src, 0) := by
  simp [K.copyFromUser_eq]

/-- What is read is what gets through of the slice of the buffer at the position,
    which is an error if there is something, but nothing gets through. -/
theorem read_eq (f : Fault) (count : ℕ) {pos : ℤ} {src : Bytes} {available : ℕ} (hpos : 0 ≤ pos)
    (h : available ≤ src.length) :
    let served := slice (src.take available) pos.toNat count
    let k := f.passed served.length
    K.simpleReadFromBuffer f count pos src available =
      ⟨if served ≠ [] ∧ k = 0 then -EFAULT else k, served.take k, pos + k⟩ := by
  intro served k
  have hlen : served.length = min count (available - pos.toNat) := by
    rw [length_slice, List.length_take, Nat.min_eq_left h]
  by_cases hend : (available : ℤ) ≤ pos ∨ count = 0
  · have hnil : served = [] := List.eq_nil_of_length_eq_zero (by omega)
    have hk : k = 0 := Nat.le_zero.1 ((f.passed_le served.length).trans_eq (by rw [hnil]; rfl))
    rw [K.read_nothing _ _ _ _ _ hpos hend, if_neg fun hboth => hboth.1 hnil, hnil, hk,
      List.take_nil, Int.natCast_zero, Int.add_zero]
  · have hne : served ≠ [] := List.length_pos_iff.1 (by omega)
    have hle : k ≤ served.length := f.passed_le served.length
    have hbytes : served.take k = slice src pos.toNat k :=
      calc served.take k
          = (slice src pos.toNat (min count (available - pos.toNat))).take k :=
            congrArg (List.take k) (slice_take ..)
        _ = slice src pos.toNat k := by
            rw [slice, List.take_take, Nat.min_eq_left (hle.trans_eq hlen), slice]
    rw [K.read_some _ _ _ _ _ hpos (by omega) (by omega) h, ← hlen, hbytes]
    simp only [hne, ne_eq, not_false_eq_true, true_and, k]

/-- Without a fault, the bytes before the end of the buffer are read. -/
theorem read_never {count : ℕ} {pos : ℤ} {src : Bytes} {available : ℕ} (hpos : 0 ≤ pos)
    (h : available ≤ src.length) :
    K.simpleReadFromBuffer .never count pos src available =
      Reply.ofSlice (src.take available) pos count := by
  rw [K.read_eq _ _ hpos h, Reply.ofSlice]
  simp

/-- What gets through of the bytes before the end of the buffer is read, and nothing
    at a negative position. -/
theorem read_bytes (f : Fault) (count : ℕ) (pos : ℤ) {src : Bytes} {available : ℕ}
    (h : available ≤ src.length) :
    (K.simpleReadFromBuffer f count pos src available).bytes =
      if pos < 0 then []
      else
        let bs := slice (src.take available) pos.toNat count
        bs.take (f.passed bs.length) := by
  split_ifs with hpos
  · rw [K.read_negative _ _ _ _ _ hpos]
  · rw [K.read_eq _ _ (Int.not_lt.1 hpos) h]

/-- A read returns its full count only if so many bytes are there, which it then delivers. -/
theorem read_count {f : Fault} {count : ℕ} {pos : ℤ} {src : Bytes} {available : ℕ}
    (h : available ≤ src.length) (hpos : 0 < count)
    (hcount : (K.simpleReadFromBuffer f count pos src available).result = count) :
    pos.toNat + count ≤ available ∧
      (K.simpleReadFromBuffer f count pos src available).bytes = slice src pos.toNat count := by
  have hfault := neg_EFAULT_lt
  have hinval := neg_EINVAL_lt
  rcases lt_or_ge pos 0 with hneg | hneg
  · rw [K.read_negative _ _ _ _ _ hneg] at hcount
    exact absurd hcount (by dsimp only; omega)
  · rw [K.read_eq _ _ hneg h] at hcount ⊢
    dsimp only at hcount ⊢
    have hle := f.passed_le (slice (src.take available) pos.toNat count).length
    have hlen := length_slice (src.take available) pos.toNat count
    rw [List.length_take, Nat.min_eq_left h] at hlen
    split_ifs at hcount with hk
    · omega
    · rw [Int.natCast_inj.1 hcount, List.take_of_length_le (by omega), slice_take,
        Nat.min_eq_left (by omega)]
      exact ⟨by omega, rfl⟩

/-- A read that fails has read nothing. -/
theorem read_of_neg {f : Fault} {count : ℕ} {pos : ℤ} {src : Bytes} {available : ℕ}
    (h : available ≤ src.length)
    (hneg : (K.simpleReadFromBuffer f count pos src available).result < 0) :
    (K.simpleReadFromBuffer f count pos src available).bytes = [] ∧
      (K.simpleReadFromBuffer f count pos src available).pos = pos := by
  rcases lt_or_ge pos 0 with hpos | hpos
  · rw [K.read_negative _ _ _ _ _ hpos]
    exact ⟨rfl, rfl⟩
  · rw [K.read_eq _ _ hpos h] at hneg ⊢
    dsimp only at hneg ⊢
    split_ifs at hneg with hk
    · rw [hk.2]
      exact ⟨rfl, Int.add_zero pos⟩
    · exact absurd hneg (Int.not_lt.2 (Int.natCast_nonneg _))

/-- Nothing is read but the bytes before the end of the buffer. -/
theorem read_congr (f : Fault) (count : ℕ) (pos : ℤ) {src src' : Bytes} {available : ℕ}
    (h : available ≤ src.length) (h' : available ≤ src'.length)
    (heq : src.take available = src'.take available) :
    K.simpleReadFromBuffer f count pos src available =
      K.simpleReadFromBuffer f count pos src' available := by
  rcases lt_or_ge pos 0 with hneg | hneg
  · rw [K.read_negative _ _ _ _ _ hneg, K.read_negative _ _ _ _ _ hneg]
  · rw [K.read_eq _ _ hneg h, K.read_eq _ _ hneg h', heq]

/-- However much gets through, a read goes on with what is in the buffer. -/
theorem read_continues {f : Fault} {count : ℕ} {pos : ℤ} {src : Bytes} {available : ℕ}
    (hpos : 0 ≤ pos) (h : available ≤ src.length) :
    (K.simpleReadFromBuffer f count pos src available).Continues (src.take available) pos := by
  rw [K.read_eq _ _ hpos h]
  generalize hs : slice (src.take available) pos.toNat count = served
  have hle := f.passed_le served.length
  generalize f.passed served.length = k at hle
  have hcounted : Reply.counted
      ⟨if served ≠ [] ∧ k = 0 then -EFAULT else k, served.take k, pos + k⟩ = served.take k := by
    rw [Reply.counted]
    split_ifs with hk
    · rw [hk.2, List.take_zero, List.take_nil]
    · rw [Int.toNat_natCast, List.take_take, Nat.min_self]
  constructor
  · rw [hcounted, ← hs]
    exact (List.take_prefix _ _).trans (List.take_prefix _ _)
  · intro hresult
    dsimp only at hresult ⊢
    split_ifs at hresult ⊢ with hk
    · exact absurd hresult (Int.not_le.2 neg_EFAULT_lt)
    · rw [List.length_take, Nat.min_eq_left hle]
  · rw [hcounted, List.length_take, Nat.min_eq_left hle]
  · intro hend
    have hnil : served = [] := by
      rw [← hs, slice, List.drop_of_length_le (by omega), List.take_nil]
    rw [hnil] at hle
    rw [if_neg fun hboth => hboth.1 hnil, Nat.le_zero.1 hle]
    rfl

/-- Without a fault, the bytes that fit into the buffer are stored. -/
theorem write_never {available : ℕ} {pos : ℤ} {src : Bytes} (hpos : 0 ≤ pos) :
    let n := min src.length (available - pos.toNat)
    K.simpleWriteToBuffer .never available pos src = ⟨n, src.take n, pos + n⟩ := by
  intro n
  by_cases hend : (available : ℤ) ≤ pos ∨ src = []
  · have hzero : n = 0 := by
      rcases hend with hend | rfl
      · simp only [n]
        omega
      · exact Nat.zero_min _
    rw [K.write_nothing _ _ _ _ hpos hend, hzero]
    simp
  · obtain ⟨hend, hne⟩ := not_or.1 hend
    have hlen := List.length_pos_iff.2 hne
    rw [K.write_some _ _ _ _ hpos (by omega) hne]
    simp only [n, Fault.passed_never, Nat.sub_self, List.replicate_zero, List.append_nil,
      Reply.mk.injEq, and_true]
    exact if_neg (by omega)

end Kernel

end LittlePenguin
