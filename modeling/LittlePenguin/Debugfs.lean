import LittlePenguin.Kernel

/-!
# The debugfs files

Two of the files of `ex07/debugfs.c`. Like the misc device, `id` compares a
write with the student login, but it returns the number of bytes either way.
`foo` keeps what is written to it: the bytes in a static page, their number in a
variable of its own. A write copies into the page first and sets the number
then; a read takes the number first and copies from the page then.

* `idWrite_result`: what a write of `id` returns without a fault;
* `fooWrite_eq_publish_copy`, `fooRead_eq_deliver`: the two halves that a write
  and a read of `foo` consist of.
-/

namespace LittlePenguin.Debugfs

open Lib

variable (K : Kernel)

/-! ## The file `id` -/

/-- Where a read of `id` copies from, if it comes to that: the offset in the
    line, and the number of bytes. -/
def idReadSource (count : ℕ) (offp : ℤ) : Option (ℕ × ℕ) :=
  let len := strlen (literal "estruckm\n")
  -- Compared with a `size_t`, the position is one, too.
  if len ≤ sizeT offp then none
  else
    let remaining := sizeT (len - offp)
    some (sizeT offp, min count remaining)

/-- A read of `count` bytes of `id`. Unlike the other reads it copies by itself:
    what does not get through in full is an error, and leaves the position. -/
def idRead (f : Fault) (count : ℕ) (offp : ℤ) : Reply :=
  let id := literal "estruckm\n"
  match idReadSource count offp with
  | none => { result := 0, bytes := [], pos := offp }
  | some (start, toCopy) =>
    let (bytes, left) := K.copyToUser f (slice id start toCopy)
    if left ≠ 0 then { result := -EFAULT, bytes, pos := offp }
    else { result := ssizeT toCopy, bytes, pos := offp + toCopy }

theorem strlen_id : strlen (literal "estruckm\n") = 9 := by decide

/-- In the login line or at its end, a read of `id` takes a slice of the line, and
    fails if any byte of it does not get through. -/
theorem idRead_eq (f : Fault) (count : ℕ) {offp : ℤ} (hoffp : 0 ≤ offp) (hle : offp ≤ 9) :
    let bs := slice (ascii "estruckm\n") offp.toNat count
    idRead K f count offp =
      if f.passed bs.length < bs.length then
        { result := -EFAULT, bytes := bs.take (f.passed bs.length), pos := offp }
      else { result := bs.length, bytes := bs, pos := offp + bs.length } := by
  have hpos : sizeT offp = offp.toNat := by
    rw [sizeT]
    omega
  have hremaining : sizeT ((9 : ℕ) - offp) = 9 - offp.toNat := by
    rw [sizeT]
    omega
  have h9 : (ascii "estruckm\n").length = 9 := by decide
  have hslice : slice (literal "estruckm\n") offp.toNat (min count (9 - offp.toNat)) =
      slice (ascii "estruckm\n") offp.toNat count := by
    have htake : ascii "estruckm\n" = (literal "estruckm\n").take 9 := by decide
    rw [htake, slice_take]
  intro bs
  have hlen : bs.length = min count (9 - offp.toNat) := by rw [length_slice, h9]
  change _ = bs at hslice
  clear_value bs
  have hpassed := f.passed_le bs.length
  have hsource : idReadSource count offp =
      if 9 ≤ offp.toNat then none else some (offp.toNat, min count (9 - offp.toNat)) := by
    simp only [idReadSource, strlen_id, hpos, hremaining]
  by_cases hend : 9 ≤ offp.toNat
  · have hnil : bs = [] := List.eq_nil_of_length_eq_zero (by omega)
    simp only [idRead, hsource, if_pos hend]
    rw [hnil]
    simp
  simp only [idRead, hsource, if_neg hend, K.copyToUser_eq, hslice]
  rw [← hlen]
  by_cases hfault : f.passed bs.length < bs.length
  · rw [if_pos hfault, if_pos (by omega)]
  · have hresult : ssizeT bs.length = bs.length := if_pos (by omega)
    rw [if_neg hfault, if_neg (by omega), hresult, List.take_of_length_le (Nat.not_lt.1 hfault)]

/-- A read of `id` goes on with the login line, wherever it faults. -/
theorem idRead_continues (f : Fault) (count : ℕ) {offp : ℤ} (hoffp : 0 ≤ offp) (hle : offp ≤ 9) :
    (idRead K f count offp).Continues (ascii "estruckm\n") offp := by
  rw [idRead_eq K f count hoffp hle]
  split_ifs with hfault
  · refine ⟨List.nil_prefix, fun hresult => absurd hresult (Int.not_le.2 neg_EFAULT_lt),
      (Int.add_zero offp).symm, fun hend => ?_⟩
    -- At the end of the line, there is nothing that could fault.
    have hnil : slice (ascii "estruckm\n") offp.toNat count = [] := by
      rw [slice, List.drop_eq_nil_of_le (by omega), List.take_nil]
    rw [hnil] at hfault
    exact absurd hfault (Nat.not_lt_zero _)
  · have hcounted : ∀ bs : Bytes, (⟨bs.length, bs, offp + bs.length⟩ : Reply).counted = bs :=
      fun bs => List.take_of_length_le (Int.toNat_natCast _).ge
    refine ⟨?_, fun _ => rfl, ?_, fun hend => ?_⟩
    · rw [hcounted]
      exact List.take_prefix _ _
    · rw [hcounted]
    · rw [length_slice]
      dsimp only
      omega

/-- What a call of `id_write` answers, and what it leaves in the array. -/
structure IdWriteCall where
  result : ℤ
  data : CArray 100

/-- A write of the bytes `user`; `data` is the array as the stack left it. -/
def idWrite (f : Fault) (data : CArray 100) (user : Bytes) : IdWriteCall :=
  let count := user.length
  if 100 ≤ count then { result := -EINVAL, data }
  else
    let (bytes, left) := K.copyFromUser f user
    let data := data.copyIn 0 bytes
    if left ≠ 0 then { result := -EFAULT, data }
    else
      let data := data.store count 0
      -- Every `printk` goes over the string, and the NUL at its end.
      let data := data.scan (strlen data.cells + 1)
      let data := data.scan (compared data.cells (literal "estruckm"))
      -- A string that does not match is logged, and acknowledged all the same.
      if strcmp data.cells (literal "estruckm") ≠ 0 then { result := ssizeT count, data }
      else
        let data := data.scan (strlen data.cells + 1)
        { result := ssizeT count, data }

/-- Without a fault, whatever fits into the array is acknowledged. -/
theorem idWrite_result (data : CArray 100) (user : Bytes) :
    (idWrite K .never data user).result =
      if user.length < 100 then (user.length : ℤ) else -EINVAL := by
  rcases Nat.lt_or_ge user.length 100 with hlen | hlen
  · have hcount : ssizeT user.length = user.length := if_pos (hlen.trans (by decide))
    simp only [idWrite, if_neg (Nat.not_le.2 hlen), K.copyFromUser_never, ne_eq, not_true_eq_false,
      if_false, hcount, if_pos hlen]
    split_ifs <;> rfl
  · simp only [idWrite, if_pos hlen, if_neg (Nat.not_lt.2 hlen)]

/-! ## The file `foo` -/

/-- The static variables of `foo`. -/
structure Foo where
  fooData : CArray PAGE_SIZE
  fooSize : ℕ

/-- As the module is loaded, they are zero. -/
def Foo.init : Foo := ⟨CArray.zeroed PAGE_SIZE, 0⟩

/-- What is stored. -/
def Foo.stored (s : Foo) : Bytes := s.fooData.cells.take s.fooSize

/-- A read of `count` bytes. -/
def fooRead (f : Fault) (s : Foo) (count : ℕ) (offp : ℤ) : Reply :=
  K.simpleReadFromBuffer f count offp s.fooData.cells s.fooSize

/-- A write of the bytes `user`: the result, and what it leaves behind. -/
def fooWrite (f : Fault) (s : Foo) (user : Bytes) : ℤ × Foo :=
  let count := user.length
  if PAGE_SIZE < count then (-EINVAL, s)
  else
    let (bytes, left) := K.copyFromUser f user
    let s := { s with fooData := s.fooData.copyIn 0 bytes }
    if left ≠ 0 then (-EFAULT, s)
    else (ssizeT count, { s with fooSize := count })

/-- What does not fit into the page is refused. -/
theorem fooWrite_of_length_gt {f : Fault} {s : Foo} {user : Bytes} (h : PAGE_SIZE < user.length) :
    fooWrite K f s user = (-EINVAL, s) := if_pos h

/-- The size never exceeds the page. -/
theorem fooSize_fooWrite_le (f : Fault) {s : Foo} (h : s.fooSize ≤ PAGE_SIZE) (user : Bytes) :
    (fooWrite K f s user).2.fooSize ≤ PAGE_SIZE := by
  simp only [fooWrite]
  split_ifs with hlen hleft
  · exact h
  · exact h
  · exact Nat.not_lt.1 hlen

/-- The first half of an accepted write: the bytes are copied into the page. -/
def Foo.copy (s : Foo) (user : Bytes) : Foo :=
  { s with fooData := s.fooData.copyIn 0 (K.copyFromUser .never user).1 }

/-- The second half: their number is set. -/
def Foo.publish (s : Foo) (count : ℕ) : Foo := { s with fooSize := count }

/-- Without a fault, an accepted write is its two halves. -/
theorem fooWrite_eq_publish_copy (s : Foo) {user : Bytes} (h : user.length ≤ PAGE_SIZE) :
    fooWrite K .never s user = ((user.length : ℤ), (s.copy K user).publish user.length) := by
  have hcount : ssizeT user.length = user.length := if_pos (lt_of_le_of_lt h (by decide))
  simp only [fooWrite, if_neg (Nat.not_lt.2 h), K.copyFromUser_never, ne_eq, not_true_eq_false,
    if_false, hcount, Foo.copy, Foo.publish]

variable {s : Foo} {user : Bytes}

@[simp] theorem Foo.fooSize_publish (count : ℕ) : (s.publish count).fooSize = count := rfl

@[simp] theorem Foo.fooData_publish (count : ℕ) : (s.publish count).fooData = s.fooData := rfl

/-- The bytes copied are in front of what is left of the page. -/
theorem Foo.cells_copy (h : user.length ≤ PAGE_SIZE) :
    (s.copy K user).fooData.cells = user ++ s.fooData.cells.drop user.length := by
  rw [Foo.copy, K.copyFromUser_never]
  exact overlay_zero (h.trans (Nat.le_of_eq s.fooData.length_cells.symm))

/-- A read of `count` bytes that has taken the size, copying from the page. -/
def Foo.deliver (s : Foo) (size count : ℕ) (offp : ℤ) : Reply :=
  K.simpleReadFromBuffer .never count offp s.fooData.cells size

/-- Without a fault, a read takes the size and then copies. -/
theorem fooRead_eq_deliver (s : Foo) (count : ℕ) (offp : ℤ) :
    fooRead K .never s count offp = s.deliver K s.fooSize count offp := rfl

/-- What is copied is a slice of as much of the page as the size tells. -/
theorem Foo.deliver_eq {size : ℕ} (h : size ≤ PAGE_SIZE) (count : ℕ) {offp : ℤ}
    (hoffp : 0 ≤ offp) :
    s.deliver K size count offp = Reply.ofSlice (s.fooData.cells.take size) offp count :=
  K.read_never hoffp (h.trans (Nat.le_of_eq s.fooData.length_cells.symm))

end LittlePenguin.Debugfs
