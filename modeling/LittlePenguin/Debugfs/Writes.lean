import LittlePenguin.Debugfs.Register

/-!
# Writes of `foo` that fail, or come in pieces

A write of `foo` copies into the page in front of it, wherever the file is, and
sets the size when the copy has succeeded. Two things follow that one would not
expect of a file.

* A write that faults has already laid its bytes over the stored ones, and
  zeros for those that did not get through. It goes unnoticed exactly if these
  are the bytes stored there anyway (`unnoticed_iff`).
* Of a string written in pieces, only the last piece is kept. The whole string
  is read back exactly if there is nothing in the other ones (`kept_iff`).
-/

namespace LittlePenguin.Debugfs

open Lib

variable (K : Kernel) {s t : Foo} {f : Fault} {user : Bytes}

/-! ## Writes that fail -/

/-- What a copy of the bytes `user` leaves in the page, wherever it faults. -/
def leftBy (f : Fault) (user : Bytes) : Bytes :=
  user.take (f.passed user.length) ++ List.replicate (user.length - f.passed user.length) 0

theorem length_leftBy (f : Fault) (user : Bytes) : (leftBy f user).length = user.length := by
  have := f.passed_le user.length
  simp only [leftBy, List.length_append, List.length_take, List.length_replicate]
  omega

/-- A write that faults leaves its bytes in the page, and the size as it was. -/
theorem fooWrite_of_fault (h : user.length ≤ PAGE_SIZE)
    (hf : f.passed user.length < user.length) :
    fooWrite K f s user = (-EFAULT, { s with fooData := s.fooData.copyIn 0 (leftBy f user) }) := by
  have hleft : user.length - f.passed user.length ≠ 0 := by omega
  simp only [fooWrite, if_neg (Nat.not_lt.2 h), K.copyFromUser_eq, if_pos hleft, leftBy]

/-- A write that does not fault does not fail unless it is refused. -/
theorem fooWrite_of_passed (s : Foo) (hf : f.passed user.length = user.length) :
    fooWrite K f s user = fooWrite K .never s user := by
  simp only [fooWrite, K.copyFromUser_eq, hf, Fault.passed_never]

/-- The two states have the same bytes stored. -/
structure Alike (s t : Foo) : Prop where
  size : s.fooSize = t.fooSize
  stored : s.stored = t.stored
  fits : s.fooSize ≤ PAGE_SIZE

/-- The first bytes of two pages that were alike are alike after the same copy. -/
theorem Alike.copyIn (h : Alike s t) {bs : Bytes} (hlen : bs.length ≤ PAGE_SIZE) :
    Alike { s with fooData := s.fooData.copyIn 0 bs } { t with fooData := t.fooData.copyIn 0 bs } :=
  ⟨h.size, by
    have hstored := h.stored
    simp only [Foo.stored, CArray.cells_copyIn] at hstored ⊢
    rw [take_overlay_zero (by rwa [s.fooData.length_cells]),
      take_overlay_zero (by rwa [t.fooData.length_cells]), hstored, h.size], h.fits⟩

/-- States with the same bytes stored cannot be told apart by any call. -/
theorem alike_simulates : (foo K).Simulates (foo K) (fun _ => True) Alike where
  output {s t c} h _ := by
    cases c with
    | read f count offp =>
      have hstored := h.stored
      rw [Foo.stored, Foo.stored, h.size] at hstored
      refine congrArg FooOut.read ?_
      rw [fooRead, fooRead, h.size]
      refine K.read_congr f count offp ?_ ?_ hstored
      · rw [s.fooData.length_cells, ← h.size]
        exact h.fits
      · rw [t.fooData.length_cells, ← h.size]
        exact h.fits
    | write f user =>
      -- What a write returns does not depend on what is stored.
      refine congrArg FooOut.write ?_
      simp only [fooWrite]
      split_ifs <;> rfl
  state {s t c} h _ := by
    cases c with
    | read f count offp => exact h
    | write f user =>
      rcases Nat.lt_or_ge PAGE_SIZE user.length with hlen | hlen
      · rwa [foo_write_refused K s hlen, foo_write_refused K t hlen]
      · by_cases hf : f.passed user.length = user.length
        · have hholds : ∀ r : Foo, Holds ((foo K).step r (.write f user)).1 user := by
            intro r
            simp only [foo, fooWrite_of_passed K r hf, fooWrite_eq_publish_copy K r hlen]
            exact holds_publish_copy K r hlen
          have hs := hholds s
          have ht := hholds t
          exact ⟨hs.size.trans ht.size.symm, hs.value.trans ht.value.symm, hs.size ▸ hs.fits⟩
        · have hlt : f.passed user.length < user.length :=
            lt_of_le_of_ne (f.passed_le user.length) hf
          simp only [foo, fooWrite_of_fault K hlen hlt]
          exact h.copyIn (by rwa [length_leftBy])

/-- No later call can tell that the write has been made. -/
def Unnoticed (s : Foo) (f : Fault) (user : Bytes) : Prop :=
  ∀ later, (foo K).outputs (fooWrite K f s user).2 later = (foo K).outputs s later

/-- States that answer all calls alike have the same bytes stored, if their
    sizes are the same. -/
theorem stored_eq_of_outputs (hs : s.fooSize ≤ PAGE_SIZE) (hsize : s.fooSize = t.fooSize)
    (h : ∀ calls, (foo K).outputs s calls = (foo K).outputs t calls) : s.stored = t.stored := by
  have hread : ∀ r : Foo, r.fooSize ≤ PAGE_SIZE →
      fooRead K .never r r.fooSize 0 = Reply.ofSlice r.stored 0 r.fooSize :=
    fun r hr => K.read_never le_rfl (hr.trans r.fooData.length_cells.ge)
  have hout := h [.read .never s.fooSize 0]
  simp only [foo, Machine.outputs_cons, Machine.outputs_nil, List.cons.injEq, FooOut.read.injEq,
    and_true] at hout
  rw [hread s hs, hsize, hread t (hsize ▸ hs)] at hout
  have hbytes : slice s.stored 0 t.fooSize = slice t.stored 0 t.fooSize := congrArg Reply.bytes hout
  have hslice : ∀ r : Foo, slice r.stored 0 r.fooSize = r.stored := by
    intro r
    rw [slice, List.drop_zero, Foo.stored, List.take_take, Nat.min_self]
  rwa [hslice t, ← hsize, hslice s] at hbytes

/-- What a write that fails leaves goes unnoticed if it is nothing, or the bytes
    in front of the size are those stored there. -/
theorem unnoticed_iff_of_le (hfits : s.fooSize ≤ PAGE_SIZE) (hneg : (fooWrite K f s user).1 < 0) :
    Unnoticed K s f user ↔
      PAGE_SIZE < user.length ∨ (leftBy f user).take s.fooSize = s.stored.take user.length := by
  rcases Nat.lt_or_ge PAGE_SIZE user.length with hlen | hlen
  · refine iff_of_true (fun later => ?_) (.inl hlen)
    rw [fooWrite_of_length_gt K hlen]
  · rw [or_iff_right (Nat.not_lt.2 hlen)]
    -- An accepted write would have returned its count.
    have hf : f.passed user.length < user.length := by
      refine lt_of_le_of_ne (f.passed_le user.length) fun hf => ?_
      rw [fooWrite_of_passed K _ hf, fooWrite_eq_publish_copy K _ hlen] at hneg
      exact absurd hneg (Int.not_lt.2 (Int.natCast_nonneg _))
    have hstored : (fooWrite K f s user).2.stored = s.stored ↔
        (leftBy f user).take s.fooSize = s.stored.take user.length := by
      rw [fooWrite_of_fault K hlen hf, ← length_leftBy f user]
      refine take_overlay_zero_iff ?_ s.fooSize
      rwa [length_leftBy, s.fooData.length_cells]
    have hsize : (fooWrite K f s user).2.fooSize = s.fooSize := by
      rw [fooWrite_of_fault K hlen hf]
    rw [← hstored]
    constructor
    · intro h
      exact stored_eq_of_outputs K (hsize ▸ hfits) hsize h
    · intro h later
      have halike : Alike (fooWrite K f s user).2 s := ⟨hsize, h, hsize ▸ hfits⟩
      exact (alike_simulates K).outputs_eq halike fun _ _ => trivial

/-- A write that fails, whatever calls have been made before, goes unnoticed
    exactly if it is refused as too long, or the bytes it leaves in front of the
    size are those stored there. -/
theorem unnoticed_iff (earlier : List FooCall) (f : Fault) (user : Bytes)
    (hneg : (fooWrite K f ((foo K).state Foo.init earlier) user).1 < 0) :
    let s := (foo K).state Foo.init earlier
    Unnoticed K s f user ↔
      PAGE_SIZE < user.length ∨ (leftBy f user).take s.fooSize = s.stored.take user.length :=
  unnoticed_iff_of_le K (fooSize_state_le K earlier) hneg

/-- After an accepted write, its bytes are held. -/
theorem holds_write (h : user.length ≤ PAGE_SIZE) :
    Holds ((foo K).state Foo.init [.write .never user]) user := by
  have hadmissible : ∀ c ∈ [.write .never user], FooCall.Admissible c := by
    simp [FooCall.Admissible]
  have hstate : register.state [] [.write .never user] = user := by
    rw [Machine.state_cons, register_write h, Machine.state_nil]
  have hholds := (foo_simulates K).related holds_init hadmissible
  rwa [hstate] at hholds

/-- Over an `a`, a NUL and a `c`, a write of `az` that faults after its first byte
    goes unnoticed. -/
theorem unnoticed_over_a_nul_c :
    Unnoticed .reference ((foo .reference).state Foo.init [.write .never [97, 0, 99]]) (.after 1)
      (ascii "az") := by
  have hholds : Holds _ [97, 0, 99] := holds_write .reference (by decide)
  refine (unnoticed_iff .reference [.write .never [97, 0, 99]] (.after 1) (ascii "az") ?_).2
    (.inr ?_)
  · rw [fooWrite_of_fault _ (by decide) (by decide)]
    exact neg_EFAULT_lt
  · rw [hholds.size, Foo.stored, hholds.value]
    decide

/-- After `abc` has been written, a write of `x` that faults at once is noticed:
    it leaves a zero in place of the `a`. -/
theorem not_unnoticed_over_abc :
    ¬∀ (earlier : List FooCall) (f : Fault) (user : Bytes),
      (fooWrite .reference f ((foo .reference).state Foo.init earlier) user).1 < 0 →
        Unnoticed .reference ((foo .reference).state Foo.init earlier) f user := by
  intro hall
  have hholds : Holds _ (ascii "abc") := holds_write .reference (by decide)
  have hneg : (fooWrite .reference (.after 0)
      ((foo .reference).state Foo.init [.write .never (ascii "abc")]) (ascii "x")).1 < 0 := by
    rw [fooWrite_of_fault _ (by decide) (by decide)]
    exact neg_EFAULT_lt
  have hunnoticed := hall _ _ _ hneg
  rw [unnoticed_iff_of_le _ (hholds.size ▸ hholds.fits) hneg, hholds.size, Foo.stored,
    hholds.value] at hunnoticed
  exact absurd hunnoticed (by decide)

/-! ## Writes in pieces -/

/-- A read of a file that is open, without a fault. -/
def fooReader (s : Foo) (count : ℕ) (offp : ℤ) : Reply × Foo := (fooRead K .never s count offp, s)

/-- Holding a value, the file serves it. -/
theorem Holds.serves {last : Bytes} (h : Holds s last) :
    Serves (fooReader K) (fun t => t = s) last where
  reply ht hp := by
    rw [ht]
    exact h.fooRead K _ hp
  keep ht _ := ht

/-- Whatever is stored is held. -/
theorem holds_stored (h : s.fooSize ≤ PAGE_SIZE) : Holds s s.stored where
  size := by rw [Foo.stored, List.length_take_of_le (h.trans s.fooData.length_cells.ge)]
  value := rfl
  fits := by
    rw [Foo.stored, List.length_take_of_le (h.trans s.fooData.length_cells.ge)]
    exact h

/-- The calls that write a string in pieces. -/
def writes (pieces : List Bytes) : List FooCall := pieces.map (.write .never)

/-- Written in pieces, the string is acknowledged piece by piece, and read back whole. -/
def Kept (s : Foo) (pieces : List Bytes) : Prop :=
  (foo K).outputs s (writes pieces) = pieces.map (fun piece => .write piece.length) ∧
    DrainsTo (fooReader K) ((foo K).state s (writes pieces)) pieces.flatten

theorem register_writes {last : Bytes} {pieces : List Bytes}
    (h : ∀ piece ∈ pieces, piece.length ≤ PAGE_SIZE) :
    register.state last (writes pieces) = pieces.getLastD last ∧
      register.outputs last (writes pieces) = pieces.map fun piece => .write piece.length := by
  induction pieces generalizing last with
  | nil => exact ⟨rfl, rfl⟩
  | cons piece pieces ih =>
    obtain ⟨hstate, hout⟩ := @ih piece fun p hp => h p (List.mem_cons_of_mem _ hp)
    have hpiece := h piece List.mem_cons_self
    constructor
    · rw [writes, List.map_cons, Machine.state_cons, register_write hpiece, List.getLastD_cons]
      exact hstate
    · rw [writes, List.map_cons, Machine.outputs_cons, register_write hpiece, List.map_cons]
      exact congrArg _ hout

/-- The last of some strings is all of them together exactly if there is nothing
    in the other ones. -/
theorem flatten_eq_getLastD_iff (pieces : List Bytes) (last : Bytes) :
    pieces.flatten = pieces.getLastD last ↔
      if pieces = [] then last = [] else ∀ piece ∈ pieces.dropLast, piece = [] := by
  rcases List.eq_nil_or_concat' pieces with rfl | ⟨others, piece, rfl⟩
  · rw [if_pos rfl]
    exact eq_comm
  · rw [if_neg (List.append_ne_nil_of_right_ne_nil _ (List.cons_ne_nil _ _)), List.getLastD_concat,
      List.dropLast_concat, List.flatten_append, List.flatten_singleton, List.append_left_eq_self,
      List.flatten_eq_nil_iff]

/-- Of a string of at most a page written in pieces, the last piece is kept. -/
theorem kept_iff_of_le (hs : s.fooSize ≤ PAGE_SIZE) {pieces : List Bytes}
    (h : pieces.flatten.length ≤ PAGE_SIZE) :
    Kept K s pieces ↔
      if pieces = [] then s.stored = [] else ∀ piece ∈ pieces.dropLast, piece = [] := by
  have hfits : ∀ piece ∈ pieces, piece.length ≤ PAGE_SIZE := fun piece hp =>
    (List.sublist_flatten_of_mem hp).length_le.trans h
  have hadmissible : ∀ c ∈ writes pieces, c.Admissible := by
    intro c hc
    obtain ⟨piece, _, rfl⟩ := List.mem_map.1 hc
    exact rfl
  obtain ⟨hstate, hout⟩ := @register_writes s.stored pieces hfits
  have hholds := (foo_simulates K).related (holds_stored hs) hadmissible
  rw [hstate] at hholds
  rw [Kept, (foo_simulates K).outputs_eq (holds_stored hs) hadmissible, hout, eq_self, true_and,
    (hholds.serves K).drainsTo_iff rfl, flatten_eq_getLastD_iff]

/-- Whatever calls have been made before, a string of at most a page written in
    pieces is kept exactly if all the pieces but the last one are empty, or if
    there is no piece and nothing is stored. -/
theorem kept_iff (earlier : List FooCall) (pieces : List Bytes)
    (h : pieces.flatten.length ≤ PAGE_SIZE) :
    let s := (foo K).state Foo.init earlier
    Kept K s pieces ↔
      if pieces = [] then s.stored = [] else ∀ piece ∈ pieces.dropLast, piece = [] :=
  kept_iff_of_le K (fooSize_state_le K earlier) h

/-- Over what has been stored before, a string is kept whose first piece is empty. -/
theorem kept_nil_ab :
    Kept .reference ((foo .reference).state Foo.init [.write .never (ascii "xyz")])
      [[], ascii "ab"] :=
  (kept_iff .reference [.write .never (ascii "xyz")] [[], ascii "ab"] (by decide)).2 (by decide)

/-- Of `ab` written byte by byte, only the `b` is read back. -/
theorem not_kept_a_b :
    ¬∀ (earlier : List FooCall) (pieces : List Bytes), pieces.flatten.length ≤ PAGE_SIZE →
      Kept .reference ((foo .reference).state Foo.init earlier) pieces := by
  intro hall
  have hkept := hall [] [ascii "a", ascii "b"] (by decide)
  rw [kept_iff_of_le _ (Nat.zero_le _) (by decide)] at hkept
  exact absurd hkept (by decide)

end LittlePenguin.Debugfs
