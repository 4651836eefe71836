import LittlePenguin.MiscDevice
import LittlePenguin.Lib.Machine

/-!
# Writes to the misc device

What `/dev/fortytwo` makes of a write, alone and in a run of calls on an open
file.

* The writes answered without an error are those of the login, with a newline
  or not, and those of the login with a NUL and anything behind it, which a
  comparison of strings cannot tell from it (`recognised_iff`).
* As its answer is read, through the position of the file, into the very
  buffer it has been passed, no write of the login is harmless: it never both
  returns its full count and leaves the buffer alone (`not_harmless`).
-/

namespace LittlePenguin.MiscDevice

open Lib

variable (K : Kernel)

/-! ## Which writes are accepted -/

/-- The result of a write without a fault. -/
theorem result_fortytwoWrite (data : CArray 100) {user : Bytes} (hne : user ≠ []) {offp : ℤ}
    (hoffp : 0 ≤ offp) :
    (fortytwoWrite K ⟨data, .never, .never⟩ user offp).result =
      if user.length < 100 ∧ Login user then ((min user.length (20 - offp.toNat) : ℕ) : ℤ)
      else -EINVAL := by
  rcases Nat.lt_or_ge user.length 100 with hlen | hlen
  · have h := @fortytwoWrite_evaluated K ⟨data, .never, .never⟩ user offp hne hlen rfl
    rw [h, K.read_never hoffp (by decide), take_success]
    by_cases hl : Login user
    · rw [if_pos hl, if_pos ⟨hlen, hl⟩]
      exact Reply.ofSlice_result success offp user.length
    · rw [if_neg hl, if_neg fun h => hl h.2]
  · rw [fortytwoWrite_of_length_ge hlen, if_neg fun h => absurd h.1 (Nat.not_lt.2 hlen)]

/-- The write of `user` is answered without an error if it is the login, with a
    newline or not, and as an invalid argument otherwise. -/
def Recognised (data : CArray 100) (user : Bytes) (offp : ℤ) : Prop :=
  let result := (fortytwoWrite K ⟨data, .never, .never⟩ user offp).result
  (0 ≤ result ↔ user = login ∨ user = login ++ [10]) ∧
    (¬(user = login ∨ user = login ++ [10]) → result = -EINVAL)

/-- A write is recognised for what it is, unless it fits into the array and
    goes on with a NUL after the login. -/
theorem recognised_iff (data : CArray 100) (user : Bytes) (hne : user ≠ []) (offp : ℤ)
    (hoffp : 0 ≤ offp) :
    Recognised K data user offp ↔ ¬(user.length < 100 ∧ login ++ [0] <+: user) := by
  have hlogin : user = login ∨ user = login ++ [10] →
      user.length < 100 ∧ Login user ∧ ¬login ++ [0] <+: user := by
    rintro (rfl | rfl) <;> decide
  rw [Recognised, result_fortytwoWrite K data hne hoffp]
  constructor
  · rintro ⟨hiff, _⟩ ⟨hlen, hp⟩
    rw [if_pos ⟨hlen, .inr (.inr hp)⟩] at hiff
    exact (hlogin (hiff.1 (Int.natCast_nonneg _))).2.2 hp
  · intro hp
    by_cases h : user = login ∨ user = login ++ [10]
    · obtain ⟨hlen, hl, _⟩ := hlogin h
      rw [if_pos ⟨hlen, hl⟩]
      exact ⟨iff_of_true (Int.natCast_nonneg _) h, fun hn => absurd h hn⟩
    · have hl : ¬(user.length < 100 ∧ Login user) := by
        rintro ⟨hlen, hl | hl | hl⟩
        · exact h (.inl hl)
        · exact h (.inr hl)
        · exact hp ⟨hlen, hl⟩
      rw [if_neg hl]
      exact ⟨iff_of_false (Int.not_le.2 neg_EINVAL_lt) h, fun _ => rfl⟩

theorem recognised_login : Recognised .reference (CArray.zeroed 100) login 0 :=
  (recognised_iff .reference (CArray.zeroed 100) login (by decide) 0 le_rfl).2 (by decide)

/-- The login with a NUL behind it is accepted. -/
theorem login_nul_not_recognised :
    ¬∀ data user, user ≠ [] → ∀ offp, 0 ≤ offp → Recognised .reference data user offp := by
  intro hall
  have h := hall (CArray.zeroed 100) (login ++ [0]) (by decide) 0 le_rfl
  rw [Recognised, result_fortytwoWrite .reference _ (by decide) le_rfl] at h
  exact absurd h (by decide)

/-! ## What they do besides -/

/-- A call on an open file. -/
inductive Call
  | read (f : Fault) (count : ℕ)
  | write (env : WriteEnv) (user : Bytes)

/-- What a call hands back: the result, with the bytes a read delivers, or the
    buffer of the caller as a write leaves it. -/
inductive Out
  | read (result : ℤ) (bytes : Bytes)
  | write (result : ℤ) (user : Bytes)

/-- An open file, of which there is nothing but its position. -/
def file : Machine ℤ Call Out where
  step offp c :=
    match c with
    | .read f count =>
      let r := miscRead K f count offp
      (r.pos, .read r.result r.bytes)
    | .write env user =>
      let w := fortytwoWrite K env user offp
      (w.offp, .write w.result w.user)

/-- What a read returns, of a write the result only. -/
def Out.returned : Out → ℤ × Bytes
  | read result bytes => (result, bytes)
  | write result _ => (result, [])

/-- The write returns its full count, leaves the buffer of its caller as it
    was, and no later call returns anything else because of it. -/
structure Harmless (offp : ℤ) (env : WriteEnv) (user : Bytes) : Prop where
  count : (fortytwoWrite K env user offp).result = user.length
  buffer : (fortytwoWrite K env user offp).user = user
  later : ∀ calls,
    ((file K).outputs (fortytwoWrite K env user offp).offp calls).map Out.returned =
      ((file K).outputs offp calls).map Out.returned

/-- The login does not occur in the success text. -/
theorem slice_success_ne_login : ∀ pos ≤ 12,
    slice (literal "write was successful") pos 8 ≠ login := by decide

/-- The bytes that match begin with the login. -/
theorem Login.take_eq {user : Bytes} (h : Login user) : user.take 8 = login := by
  rcases h with rfl | rfl | ⟨rest, rfl⟩
  · decide
  · decide
  · rw [List.append_assoc]
    exact List.take_left' rfl

/-- To return the full count of a match, its answer has to be copied over it. -/
theorem user_ne_of_count {offp : ℤ} {env : WriteEnv} {user : Bytes} (h : Login user)
    (hcount : (fortytwoWrite K env user offp).result = user.length) :
    (fortytwoWrite K env user offp).user ≠ user := by
  have hlen8 := h.length_le
  have hnonneg : 0 ≤ (fortytwoWrite K env user offp).result := by omega
  rcases Nat.lt_or_ge user.length 100 with hlen | hlen
  · rcases (env.copyIn.passed_le user.length).lt_or_eq with hf | hf
    · rw [fortytwoWrite_of_fault hlen hf] at hnonneg
      exact absurd hnonneg (Int.not_le.2 neg_EFAULT_lt)
    · -- The answer is as long as what has been written, and replaces it.
      have heval := @fortytwoWrite_evaluated K env user offp h.ne_nil hlen hf
      rw [if_pos h] at heval
      rw [heval] at hcount ⊢
      dsimp only at hcount ⊢
      obtain ⟨hfits, hbytes⟩ := K.read_count (by decide) (by omega) hcount
      have hlong : (slice (literal "write was successful") offp.toNat user.length).length =
          user.length := by
        have hliteral : (literal "write was successful").length = 21 := by decide
        rw [length_slice, hliteral]
        omega
      rw [hbytes, hlong, List.drop_length, List.append_nil]
      intro heq
      refine slice_success_ne_login offp.toNat (by omega) ?_
      rw [← h.take_eq, ← heq, slice, slice, List.take_take, Nat.min_eq_left hlen8]
  · rw [fortytwoWrite_of_length_ge hlen] at hnonneg
    exact absurd hnonneg (Int.not_le.2 neg_EINVAL_lt)

/-- Whatever has been done with the file before, no match is harmless. -/
theorem not_harmless (calls : List Call) (env : WriteEnv) (user : Bytes) (h : Login user) :
    ¬Harmless K ((file K).state 0 calls) env user :=
  fun hh => user_ne_of_count K h hh.count hh.buffer

theorem not_harmless_login :
    ¬Harmless .reference ((file .reference).state 0 [.read .never 3])
      .plain login :=
  not_harmless .reference [.read .never 3] .plain login (by decide)

/-- Written to a file just opened, the login is overwritten with the first
    bytes of the success text, and the line is no longer read from its beginning. -/
theorem login_overwritten :
    (fortytwoWrite .reference .plain login 0).toAnswer =
        ⟨8, ascii "write wa", 8⟩ ∧
      ((file .reference).outputs 8 [.read .never 9]).map Out.returned = [(1, ascii "\n")] ∧
      ((file .reference).outputs 0 [.read .never 9]).map Out.returned = [(9, ascii "estruckm\n")] ∧
      ¬∀ calls env user, Login user →
        Harmless .reference ((file .reference).state 0 calls) env user := by
  have hwrite : (fortytwoWrite .reference .plain login 0).toAnswer =
      ⟨8, ascii "write wa", 8⟩ := by
    rw [fortytwoWrite_evaluated (by decide) (by decide) rfl, WriteEnv.plain,
      Kernel.read_never _ le_rfl (by decide)]
    decide
  refine ⟨hwrite, by decide, by decide, fun hall => ?_⟩
  have hbuffer := (hall [] .plain login (by decide)).buffer
  rw [Machine.state_nil, hwrite] at hbuffer
  exact absurd hbuffer (by decide)

end LittlePenguin.MiscDevice
