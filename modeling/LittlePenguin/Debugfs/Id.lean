import LittlePenguin.Debugfs
import LittlePenguin.MiscDevice.Writes

/-!
# The login in debugfs

The file `id` is to behave exactly as the misc device. Read without a fault, the
two do not differ, although `id` copies by itself, and compares a signed offset
with an unsigned length (`idRead_agrees`).

Written to a file just opened, from user memory that does not fault, the two
refuse what is too long for their arrays alike. For anything shorter they agree
only if it matches, and is no longer than the text the misc device answers with
(`agrees_iff`): the misc device refuses what does not match, which `id`
acknowledges, and returns the length of its answer at most, where `id` returns
the full count.
-/

namespace LittlePenguin.Debugfs

open Lib MiscDevice

variable (K : Kernel)

/-! ## Reading -/

/-- A read of `id` copies from the line at the offset, and from nowhere else: a
    negative offset is too large to be one. -/
theorem idReadSource_le {count : ℕ} {offp : ℤ} (hmin : -2 ^ 63 ≤ offp) (hmax : offp < 2 ^ 63)
    {start toCopy : ℕ} (h : idReadSource count offp = some (start, toCopy)) :
    (start : ℤ) = offp ∧ start + toCopy ≤ strlen (literal "estruckm\n") := by
  rw [idReadSource, strlen_id] at h
  split_ifs at h with hend
  obtain ⟨rfl, rfl⟩ := Prod.mk.inj (Option.some.inj h)
  rw [strlen_id]
  simp only [sizeT] at hend ⊢
  omega

/-- Without a fault, a read of `id` serves a slice of the line. -/
theorem idRead_never (count : ℕ) {offp : ℤ} (hoffp : 0 ≤ offp) (hmax : offp < 2 ^ 63) :
    idRead K .never count offp = Reply.ofSlice (ascii "estruckm\n") offp count := by
  rcases Int.lt_or_le 9 offp with hend | hle
  · have hsource : idReadSource count offp = none := by
      rw [idReadSource, strlen_id, if_pos]
      rw [sizeT]
      omega
    have hnil : slice (ascii "estruckm\n") offp.toNat count = [] := by
      have h9 : (ascii "estruckm\n").length = 9 := by decide
      exact List.eq_nil_of_length_eq_zero (by rw [length_slice, h9]; omega)
    simp only [idRead, hsource]
    rw [Reply.ofSlice, hnil]
    simp
  · rw [idRead_eq K .never count hoffp hle, Fault.passed_never, if_neg (Nat.lt_irrefl _)]
    rfl

/-- Read without a fault at any offset that is not negative, `id` and the misc
    device give the same reply. At any offset, what `id` copies lies in the line. -/
theorem idRead_agrees (count : ℕ) (offp : ℤ) (hmin : -2 ^ 63 ≤ offp) (hmax : offp < 2 ^ 63) :
    (0 ≤ offp → idRead K .never count offp = miscRead K .never count offp) ∧
      ∀ start toCopy, idReadSource count offp = some (start, toCopy) →
        (start : ℤ) = offp ∧ start + toCopy ≤ strlen (literal "estruckm\n") := by
  refine ⟨fun hoffp => ?_, fun start toCopy h => idReadSource_le hmin hmax h⟩
  rw [idRead_never K count hoffp hmax, miscRead_never K count hoffp]

/-- At an offset in the line. -/
theorem idRead_agrees_three :
    idRead .reference .never 4 3 = miscRead .reference .never 4 3 ∧
      idReadSource 4 3 = some (3, 4) :=
  ⟨(idRead_agrees .reference 4 3 (by decide) (by decide)).1 (by decide), by decide⟩

/-! ## Writing -/

/-- The write of `user` has the same result on `id` as on the misc device: the
    full count, or `-EINVAL`. -/
def Agrees (data data' : CArray 100) (user : Bytes) : Prop :=
  (idWrite K .never data user).result =
      (fortytwoWrite K ⟨data', .never, .never⟩ user 0).result ∧
    ((idWrite K .never data user).result = user.length ∨
      (idWrite K .never data user).result = -EINVAL)

/-- The two files agree on what is too long, and on matches no longer than the
    success text. -/
theorem agrees_iff (data data' : CArray 100) (user : Bytes) (hne : user ≠ []) :
    Agrees K data data' user ↔ 100 ≤ user.length ∨ Login user ∧ user.length ≤ 20 := by
  rw [Agrees, idWrite_result, result_fortytwoWrite K data' hne le_rfl, Int.toNat_zero, Nat.sub_zero]
  rcases Nat.lt_or_ge user.length 100 with hlen | hlen
  · rw [if_pos hlen, or_iff_right (Nat.not_le.2 hlen)]
    by_cases hl : Login user
    · rw [if_pos ⟨hlen, hl⟩, and_iff_left (.inl rfl), and_iff_right hl, Int.natCast_inj]
      exact ⟨fun h => h ▸ Nat.min_le_right _ _, fun h => (Nat.min_eq_left h).symm⟩
    · rw [if_neg fun h => hl h.2]
      refine iff_of_false (fun h => ?_) fun h => hl h.1
      exact absurd (h.1 ▸ neg_EINVAL_lt) (Int.not_lt.2 (Int.natCast_nonneg _))
  · rw [if_neg (Nat.not_lt.2 hlen), if_neg fun h => Nat.not_lt.2 hlen h.1]
    exact iff_of_true ⟨rfl, .inr rfl⟩ (.inl hlen)

theorem agrees_login : Agrees .reference (CArray.zeroed 100) (CArray.zeroed 100) login :=
  (agrees_iff .reference (CArray.zeroed 100) (CArray.zeroed 100) login (by decide)).2 (by decide)

/-- On `hello`, which does not match, the two files differ. -/
theorem hello_not_agrees :
    (idWrite .reference .never (CArray.zeroed 100) (ascii "hello")).result = 5 ∧
      (fortytwoWrite .reference .plain (ascii "hello") 0).result = -22 ∧
      ¬∀ data data' user, user ≠ [] → Agrees .reference data data' user := by
  have hid : (idWrite .reference .never (CArray.zeroed 100) (ascii "hello")).result = 5 := by
    rw [idWrite_result]
    decide
  have hmisc : (fortytwoWrite .reference .plain (ascii "hello") 0).result = -22 :=
    (result_fortytwoWrite .reference (CArray.zeroed 100) (by decide) le_rfl).trans (by decide)
  refine ⟨hid, hmisc, fun hall => ?_⟩
  have h := (hall (CArray.zeroed 100) (CArray.zeroed 100) (ascii "hello") (by decide)).1
  exact absurd (hid.symm.trans (h.trans hmisc)) (by decide)

end LittlePenguin.Debugfs
