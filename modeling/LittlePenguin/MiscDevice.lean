import LittlePenguin.Kernel

/-!
# The misc device

The device of `ex05/misc_device.c`, `/dev/fortytwo`. A read serves a line with
the student login. A write copies what the user passes into an array on the
stack, ends it with a NUL in place of its last newline, and compares the string
with the login. If they match, the write answers by reading from a text of its
own into the buffer it has been passed.

* `fortytwoWrite_evaluated`: a write of at least one byte that is copied in
  compares what has been written, less a newline at its end, up to its first NUL.
* `holds_trimmed_iff`: for which bytes that is the login (`Login`).
-/

namespace LittlePenguin.MiscDevice

open Lib

/-- What a write finds: the array `data` as the stack left it, and where the
    copy from the user and the one of the answer fault. -/
structure WriteEnv where
  data : CArray 100
  copyIn : Fault
  copyOut : Fault

/-- Nothing faults, and the stack is clean. -/
def WriteEnv.plain : WriteEnv := ⟨CArray.zeroed 100, .never, .never⟩

/-- What a call of `fortytwo_write` answers, and what it leaves in the buffer of
    the caller and as the position. -/
structure Answer where
  result : ℤ
  user : Bytes
  offp : ℤ
  deriving DecidableEq

/-- A call of `fortytwo_write`, with what it leaves in the array. -/
structure WriteCall extends Answer where
  data : CArray 100

variable (K : Kernel)

/-- A read of `count` bytes. -/
def miscRead (f : Fault) (count : ℕ) (offp : ℤ) : Reply :=
  let id := literal "estruckm\n"
  let len := strlen id
  K.simpleReadFromBuffer f count offp id len

/-- A write of the bytes `user`. -/
def fortytwoWrite (env : WriteEnv) (user : Bytes) (offp : ℤ) : WriteCall :=
  let count := user.length
  let data := env.data
  let successString := literal "write was successful"
  let len := strlen successString
  if 100 ≤ count then { result := -EINVAL, user, offp, data }
  else
    let (bytes, left) := K.copyFromUser env.copyIn user
    let data := data.copyIn 0 bytes
    if left ≠ 0 then { result := -EFAULT, user, offp, data }
    else
      let data := data.store count 0
      -- With nothing to write, this is the index before the array, as a `size_t`.
      let last := sizeT (count - 1)
      let data := if data.get last = 10 then (data.load last).store last 0 else data.load last
      -- `printk` goes over the string, and the NUL at its end.
      let data := data.scan (strlen data.cells + 1)
      let data := data.scan (compared data.cells (literal "estruckm"))
      if strcmp data.cells (literal "estruckm") ≠ 0 then { result := -EINVAL, user, offp, data }
      else
        -- The buffer is the one the bytes have been copied from.
        let r := K.simpleReadFromBuffer env.copyOut count offp successString len
        { result := r.result, user := r.bytes ++ user.drop r.bytes.length, offp := r.pos, data }

/-- Without a fault, a read serves a slice of the line. -/
theorem miscRead_never (count : ℕ) {offp : ℤ} (hoffp : 0 ≤ offp) :
    miscRead K .never count offp = Reply.ofSlice (ascii "estruckm\n") offp count :=
  K.read_never hoffp (by decide)

/-! ## The string compared -/

/-- The login a write is compared with. -/
def login : Bytes := ascii "estruckm"

/-- The text a matching write is answered with. -/
def success : Bytes := ascii "write was successful"

/-- What has been written, less a newline at its end. -/
def trimmed (user : Bytes) : Bytes := if user.getLast? = some 10 then user.dropLast else user

/-- The bytes that match: the login, with a newline or not, or with a NUL and
    whatever is behind it. -/
def Login (user : Bytes) : Prop := user = login ∨ user = login ++ [10] ∨ login ++ [0] <+: user

instance (user : Bytes) : Decidable (Login user) :=
  inferInstanceAs (Decidable (_ ∨ _ ∨ _))

theorem zero_notMem_login : 0 ∉ login := by decide

theorem cstr_literal_login : cstr (literal "estruckm") = login := by decide

theorem strlen_success : strlen (literal "write was successful") = 20 := by decide

theorem take_success : (literal "write was successful").take 20 = success := by decide

/-- What is compared is the login exactly if the bytes written match. -/
theorem holds_trimmed_iff (user : Bytes) : cstr (trimmed user) = login ↔ Login user := by
  rw [cstr_eq_iff zero_notMem_login, trimmed, Login]
  split_ifs with hnl
  · obtain ⟨w, rfl⟩ : ∃ w, user = w ++ [10] := ⟨_, (List.dropLast_append_getLast? 10 hnl).symm⟩
    have hlogin : w ++ [10] ≠ login := fun h => by
      have := congrArg List.getLast? h
      rw [List.getLast?_concat] at this
      exact absurd this (by decide)
    rw [List.dropLast_concat, List.prefix_concat_iff]
    constructor
    · rintro (rfl | h)
      · exact .inr (.inl rfl)
      · exact .inr (.inr (.inr h))
    · rintro (h | h | h | h)
      · exact absurd h hlogin
      · exact .inl (List.append_cancel_right h)
      · exact absurd (List.append_inj_right' h rfl) (by decide)
      · exact .inr h
  · constructor
    · rintro (h | h)
      · exact .inl h
      · exact .inr (.inr h)
    · rintro (h | rfl | h)
      · exact .inl h
      · exact absurd List.getLast?_concat hnl
      · exact .inr h

/-- A match has the login in it. -/
theorem Login.length_le {user : Bytes} (h : Login user) : 8 ≤ user.length := by
  rcases h with rfl | rfl | h
  · decide
  · decide
  · exact le_trans (by decide) h.length_le

theorem Login.ne_nil {user : Bytes} (h : Login user) : user ≠ [] := by
  rintro rfl
  exact absurd h.length_le (by decide)

/-! ## Writing -/

variable {K} {env : WriteEnv} {user : Bytes} {offp : ℤ}

/-- What does not fit into the array is refused. -/
theorem fortytwoWrite_of_length_ge (h : 100 ≤ user.length) :
    (fortytwoWrite K env user offp).toAnswer = ⟨-EINVAL, user, offp⟩ := by
  simp only [fortytwoWrite, if_pos h]

/-- A write that is not copied in whole fails. -/
theorem fortytwoWrite_of_fault (hlen : user.length < 100)
    (hf : env.copyIn.passed user.length < user.length) :
    (fortytwoWrite K env user offp).toAnswer = ⟨-EFAULT, user, offp⟩ := by
  have hleft : user.length - env.copyIn.passed user.length ≠ 0 := by omega
  simp only [fortytwoWrite, if_neg (Nat.not_le.2 hlen), K.copyFromUser_eq, if_pos hleft]

/-- With the newline at the end of the bytes replaced, if there is one, the
    array holds what is compared. -/
theorem cstr_strip (hne : user ≠ []) (hlen : user.length < 100) {data : CArray 100} {rest : Bytes}
    (hcells : data.cells = user ++ 0 :: rest) :
    let last := sizeT (user.length - 1)
    cstr (if data.get last = 10 then (data.load last).store last 0 else data.load last).cells =
      cstr (trimmed user) := by
  -- The array ends in what has been written, its last byte `c` and the NUL.
  obtain ⟨w, c, rfl⟩ : ∃ w c, user = w ++ [c] :=
    ⟨_, _, (List.dropLast_append_getLast hne).symm⟩
  rw [List.length_append, List.length_singleton] at hlen
  have hlast : sizeT (((w ++ [c]).length : ℕ) - 1) = w.length := by
    rw [List.length_append, List.length_singleton, Int.natCast_succ, Int.add_sub_cancel]
    exact sizeT_of_lt (by omega)
  have hget : data.get w.length = c := by
    rw [CArray.get, hcells]
    simp
  intro last
  rw [show last = w.length from hlast, hget, trimmed, List.getLast?_concat]
  by_cases hc : c = 10
  · subst hc
    rw [if_pos rfl, if_pos rfl, CArray.cells_store, CArray.cells_load, hcells, List.dropLast_concat,
      List.append_assoc, List.set_append_right _ _ le_rfl, Nat.sub_self, List.singleton_append,
      List.set_cons_zero, cstr_append_zero]
  · rw [if_neg hc, if_neg (by simpa using hc), CArray.cells_load, hcells, cstr_append_zero]

/-- A write that is copied in compares what has been written. If it is the
    login, the success text is read into the buffer of the caller. -/
theorem fortytwoWrite_evaluated (hne : user ≠ []) (hlen : user.length < 100)
    (hf : env.copyIn.passed user.length = user.length) :
    (fortytwoWrite K env user offp).toAnswer =
      if Login user then
        let r := K.simpleReadFromBuffer env.copyOut user.length offp
          (literal "write was successful") 20
        ⟨r.result, r.bytes ++ user.drop r.bytes.length, r.pos⟩
      else ⟨-EINVAL, user, offp⟩ := by
  have hcopy : K.copyFromUser env.copyIn user = (user, 0) := by
    rw [K.copyFromUser_eq, hf, Nat.sub_self, List.take_length, List.replicate_zero,
      List.append_nil]
  have hcells : ((env.data.copyIn 0 user).store user.length 0).cells =
      user ++ 0 :: env.data.cells.drop (user.length + 1) := by
    have hdrop : user.length < env.data.cells.length := by rwa [env.data.length_cells]
    rw [CArray.cells_store, CArray.cells_copyIn, overlay_zero hdrop.le,
      List.drop_eq_getElem_cons hdrop, List.set_append_right _ _ le_rfl, Nat.sub_self,
      List.set_cons_zero]
  have hstrip := cstr_strip hne hlen hcells
  simp only [fortytwoWrite, if_neg (Nat.not_le.2 hlen), hcopy, ne_eq, not_true_eq_false, if_false,
    CArray.cells_scan, strcmp_eq_zero_iff, cstr_literal_login, hstrip, holds_trimmed_iff,
    strlen_success]
  split_ifs <;> rfl

end LittlePenguin.MiscDevice
