import LittlePenguin.Debugfs
import LittlePenguin.Lib.Machine
import Mathlib.Logic.Function.Basic

/-!
# Racing on `foo`

The module takes no lock. Between the two halves of a write or of a read,
others may go on: the steps of any number of writers and readers interleave in
any order (`race`). Who gets how far, and which sizes are set and taken, only
depends on the lengths of the buffers (`sameShape_after`).

A read from the beginning with room for a page is meant to deliver the whole
buffer of an accepted write. An order of steps guarantees this, whatever is in
buffers of these lengths, exactly if every such read copies when the page begins
with a buffer of just the size it has taken (`readsWhole_iff`).
-/

namespace LittlePenguin.Debugfs

open Lib

variable (K : Kernel)

/-- The buffer of a write that is accepted. -/
abbrev Accepted := {user : Bytes // user.length ≤ PAGE_SIZE}

/-- A step of a writer `w` or of a reader `r`. -/
inductive RaceStep
  | copy (w : ℕ)
  | publish (w : ℕ)
  | sample (r : ℕ)
  | deliver (r count : ℕ) (offp : ℤ)

/-- The file, and the calls that are half done: the number a writer has still
    to set, the size a reader has taken. -/
structure Race where
  foo : Foo
  /-- The number of buffers copied so far. -/
  copies : ℕ
  writing : ℕ → Option ℕ
  reading : ℕ → Option ℕ

/-- Nobody has begun. -/
def Race.init : Race := ⟨Foo.init, 0, fun _ => none, fun _ => none⟩

/-- The race of writes with the buffers `buf`, in the order they are copied. A
    step of somebody who is not there yet does nothing. -/
def race (buf : ℕ → Accepted) : Machine Race RaceStep (Option Reply) where
  step s e :=
    match e with
    | .copy w =>
      match s.writing w with
      | none =>
        let user := (buf s.copies).1
        ({ s with foo := s.foo.copy K user, copies := s.copies + 1,
                  writing := Function.update s.writing w (some user.length) }, none)
      | some _ => (s, none)
    | .publish w =>
      match s.writing w with
      | some count =>
        ({ s with foo := s.foo.publish count, writing := Function.update s.writing w none }, none)
      | none => (s, none)
    | .sample r =>
      match s.reading r with
      | none => ({ s with reading := Function.update s.reading r (some s.foo.fooSize) }, none)
      | some _ => (s, none)
    | .deliver r count offp =>
      match s.reading r with
      | some size =>
        ({ s with reading := Function.update s.reading r none },
          some (s.foo.deliver K size count offp))
      | none => (s, none)

/-- Where a run of steps leads. -/
def Race.after (buf : ℕ → Accepted) (steps : List RaceStep) : Race := (race K buf).state .init steps

/-! ## Calls on their own -/

/-- A writer that is not interrupted does what a call does. -/
theorem foo_copy_publish (buf : ℕ → Accepted) {s : Race} {w : ℕ} (h : s.writing w = none) :
    ((race K buf).state s [.copy w, .publish w]).foo =
      (fooWrite K .never s.foo (buf s.copies).1).2 := by
  rw [fooWrite_eq_publish_copy K s.foo (buf s.copies).2]
  simp [race, h]

/-- A reader that is not interrupted answers what a call does. -/
theorem outputs_sample_deliver (buf : ℕ → Accepted) {s : Race} {r : ℕ} (h : s.reading r = none)
    (count : ℕ) (offp : ℤ) :
    (race K buf).outputs s [.sample r, .deliver r count offp] =
      [none, some (fooRead K .never s.foo count offp)] := by
  rw [fooRead_eq_deliver]
  simp [race, h]

/-! ## What is in the page -/

/-- The page after the first `j` buffers have been copied. -/
def contents (buf : ℕ → Accepted) : ℕ → Bytes
  | 0 => List.replicate PAGE_SIZE 0
  | j + 1 => (buf j).1 ++ (contents buf j).drop (buf j).1.length

/-- The length of the last buffer that is not empty, of the first `j` ones. -/
def lastLength (buf : ℕ → Accepted) : ℕ → ℕ
  | 0 => 0
  | j + 1 => if (buf j).1.length = 0 then lastLength buf j else (buf j).1.length

/-- The buffers have the same lengths. -/
def SameLengths (buf buf' : ℕ → Accepted) : Prop := ∀ i, (buf' i).1.length = (buf i).1.length

/-- The page begins with the last buffer that is not empty; which one that is
    only depends on the lengths. -/
theorem exists_front (buf : ℕ → Accepted) (j : ℕ) :
    (∀ i < j, (buf i).1.length = 0) ∨
      ∃ k < j, 0 < (buf k).1.length ∧ (buf k).1.length = lastLength buf j ∧
        ∀ buf', SameLengths buf buf' → (buf' k).1 <+: contents buf' j := by
  induction j with
  | zero => exact .inl fun i hi => absurd hi (Nat.not_lt_zero i)
  | succ j ih =>
    by_cases hj : (buf j).1.length = 0
    · rw [lastLength, if_pos hj]
      rcases ih with ih | ⟨k, hk, hpos, hlast, hfront⟩
      · refine .inl fun i hi => ?_
        rcases Nat.lt_succ_iff_lt_or_eq.1 hi with hi | rfl
        · exact ih i hi
        · exact hj
      · refine .inr ⟨k, Nat.lt_succ_of_lt hk, hpos, hlast, fun buf' hlen => ?_⟩
        rw [contents, hlen, hj, List.length_eq_zero_iff.1 ((hlen j).trans hj)]
        exact hfront buf' hlen
    · rw [lastLength, if_neg hj]
      exact .inr ⟨j, Nat.lt_succ_self j, Nat.pos_of_ne_zero hj, rfl,
        fun buf' _ => List.prefix_append _ _⟩

/-- A size that has been set: none, or the length of a buffer. -/
def Size (buf : ℕ → Accepted) (j n : ℕ) : Prop := n = 0 ∨ ∃ i < j, (buf i).1.length = n

theorem Size.succ {buf : ℕ → Accepted} {j n : ℕ} (h : Size buf j n) : Size buf (j + 1) n :=
  h.imp_right fun ⟨i, hi, hn⟩ => ⟨i, Nat.lt_succ_of_lt hi, hn⟩

theorem Size.le {buf : ℕ → Accepted} {j n : ℕ} (h : Size buf j n) : n ≤ PAGE_SIZE := by
  rcases h with rfl | ⟨i, _, rfl⟩
  · exact Nat.zero_le _
  · exact (buf i).2

theorem Size.eq_zero {buf : ℕ → Accepted} {j n : ℕ} (h : Size buf j n)
    (hnone : ∀ i < j, (buf i).1.length = 0) : n = 0 := by
  rcases h with h | ⟨i, hi, h⟩
  · exact h
  · rw [← h, hnone i hi]

/-- The page holds what has been copied, and all sizes around are sizes of buffers copied. -/
structure Traced (buf : ℕ → Accepted) (s : Race) : Prop where
  page : s.foo.fooData.cells = contents buf s.copies
  size : Size buf s.copies s.foo.fooSize
  writing : ∀ w, ∀ n ∈ s.writing w, Size buf s.copies n
  reading : ∀ r, ∀ n ∈ s.reading r, Size buf s.copies n

/-- With one of them changed, all numbers remain sizes. -/
theorem size_update {buf : ℕ → Accepted} {j : ℕ} {f : ℕ → Option ℕ} {a : ℕ} {v : Option ℕ}
    (hv : ∀ n ∈ v, Size buf j n) (hf : ∀ b, ∀ n ∈ f b, Size buf j n) :
    ∀ b, ∀ n ∈ Function.update f a v b, Size buf j n :=
  (Function.forall_update_iff f fun _ o => ∀ n ∈ o, Size buf j n).2 ⟨hv, fun b _ => hf b⟩

theorem traced_step (buf : ℕ → Accepted) (s : Race) (e : RaceStep) (h : Traced buf s) :
    Traced buf ((race K buf).step s e).1 := by
  have hnone : ∀ n ∈ (none : Option ℕ), Size buf s.copies n := fun n hn => absurd hn (by simp)
  cases e with
  | copy w =>
    cases hw : s.writing w with
    | some _ => simpa only [race, hw] using h
    | none =>
      simp only [race, hw]
      refine ⟨?_, h.size.succ, size_update ?_ fun w' n hn => (h.writing w' n hn).succ,
        fun r n hn => (h.reading r n hn).succ⟩
      · rw [Foo.cells_copy K (buf s.copies).2, h.page, contents]
      · rintro n ⟨⟩
        exact .inr ⟨s.copies, Nat.lt_succ_self _, rfl⟩
  | publish w =>
    cases hw : s.writing w with
    | none => simpa only [race, hw] using h
    | some count =>
      simp only [race, hw]
      exact ⟨h.page, h.writing w count hw, size_update hnone h.writing, h.reading⟩
  | sample r =>
    cases hr : s.reading r with
    | some _ => simpa only [race, hr] using h
    | none =>
      simp only [race, hr]
      refine ⟨h.page, h.size, h.writing, size_update ?_ h.reading⟩
      rintro n ⟨⟩
      exact h.size
  | deliver r count offp =>
    cases hr : s.reading r with
    | none => simpa only [race, hr] using h
    | some size =>
      simp only [race, hr]
      exact ⟨h.page, h.size, h.writing, size_update hnone h.reading⟩

theorem traced_after (buf : ℕ → Accepted) (steps : List RaceStep) :
    Traced buf (Race.after K buf steps) :=
  Machine.invariant (fun s e (_ : True) => traced_step K buf s e) (fun _ _ => trivial)
    ⟨rfl, .inl rfl, by simp [Race.init], by simp [Race.init]⟩

/-- The states agree on everything but the bytes of the page. -/
structure SameShape (s t : Race) : Prop where
  size : s.foo.fooSize = t.foo.fooSize
  copies : s.copies = t.copies
  writing : s.writing = t.writing
  reading : s.reading = t.reading

/-- Buffers of the same lengths lead to states of the same shape. -/
theorem sameShape_after {buf buf' : ℕ → Accepted} (hlen : SameLengths buf buf')
    (steps : List RaceStep) : SameShape (Race.after K buf steps) (Race.after K buf' steps) := by
  -- No step looks at a byte: it is taken or not by what the shape tells.
  refine Machine.related (fun s t e (_ : True) h => ?_) (fun _ _ => trivial)
    ⟨rfl, rfl, rfl, rfl⟩
  obtain ⟨hsize, hcopies, hwriting, hreading⟩ := h
  cases e with
  | copy w =>
    simp only [race, ← hwriting]
    cases s.writing w with
    | some _ => exact ⟨hsize, hcopies, hwriting, hreading⟩
    | none => exact ⟨hsize, by rw [hcopies], by rw [hcopies, hlen], hreading⟩
  | publish w =>
    simp only [race, ← hwriting]
    cases s.writing w with
    | none => exact ⟨hsize, hcopies, hwriting, hreading⟩
    | some count => exact ⟨rfl, hcopies, rfl, hreading⟩
  | sample r =>
    simp only [race, ← hreading]
    cases s.reading r with
    | some _ => exact ⟨hsize, hcopies, hwriting, hreading⟩
    | none => exact ⟨hsize, hcopies, hwriting, by rw [hsize]⟩
  | deliver r count offp =>
    simp only [race, ← hreading]
    cases s.reading r with
    | none => exact ⟨hsize, hcopies, hwriting, hreading⟩
    | some size => exact ⟨hsize, hcopies, hwriting, rfl⟩

/-! ## Reads of the whole file -/

/-- Every read from the beginning with room for a page delivers the whole buffer of a
    write copied before, or nothing. -/
def ReadsWhole (buf : ℕ → Accepted) (steps : List RaceStep) : Prop :=
  ∀ before r count reply, before ++ [.deliver r count 0] <+: steps → PAGE_SIZE ≤ count →
    ((race K buf).step (Race.after K buf before) (.deliver r count 0)).2 = some reply →
    ∃ b : Bytes, (b = [] ∨ ∃ i < (Race.after K buf before).copies, b = (buf i).1) ∧
      reply = ⟨b.length, b, b.length⟩

/-- Every such read copies when the page begins with a buffer of just the size
    it has taken, if it has not taken the size zero. -/
def SizesMatch (buf : ℕ → Accepted) (steps : List RaceStep) : Prop :=
  ∀ before r count size, before ++ [.deliver r count 0] <+: steps → PAGE_SIZE ≤ count →
    (Race.after K buf before).reading r = some size →
    size = 0 ∨ size = lastLength buf (Race.after K buf before).copies

/-- What a read of the whole file delivers that has taken the size `n`. -/
theorem deliver_whole {buf : ℕ → Accepted} {s : Race} (h : Traced buf s) {r n : ℕ}
    (hr : s.reading r = some n) {count : ℕ} (hcount : PAGE_SIZE ≤ count) :
    ((contents buf s.copies).take n).length = n ∧
      ((race K buf).step s (.deliver r count 0)).2 =
        some ⟨n, (contents buf s.copies).take n, n⟩ := by
  have hn := (h.reading r n hr).le
  have hlen : ((contents buf s.copies).take n).length = n := by
    rw [List.length_take, ← h.page, s.foo.fooData.length_cells, Nat.min_eq_left hn]
  refine ⟨hlen, ?_⟩
  have hslice : slice ((contents buf s.copies).take n) 0 count =
      (contents buf s.copies).take n := by
    rw [slice, List.drop_zero]
    exact List.take_of_length_le (hlen.le.trans (hn.trans hcount))
  simp only [race, hr, Foo.deliver_eq K hn count le_rfl, h.page, Reply.ofSlice, Int.toNat_zero,
    hslice, hlen, Int.zero_add]

/-- The buffers filled with ones, but the one numbered `k` with twos. -/
def marked (buf : ℕ → Accepted) (k i : ℕ) : Accepted :=
  ⟨List.replicate (buf i).1.length (if i = k then 2 else 1), by
    rw [List.length_replicate]
    exact (buf i).2⟩

theorem sameLengths_marked (buf : ℕ → Accepted) (k : ℕ) : SameLengths buf (marked buf k) :=
  fun _ => List.length_replicate

theorem marked_self (buf : ℕ → Accepted) (k : ℕ) :
    (marked buf k k).1 = List.replicate (buf k).1.length 2 := by simp [marked]

theorem eq_of_two_mem_marked {buf : ℕ → Accepted} {k i : ℕ} (h : 2 ∈ (marked buf k i).1) :
    i = k := by
  by_contra hik
  have h21 := List.eq_of_mem_replicate h
  rw [if_neg hik] at h21
  exact absurd h21 (by decide)

/-- What begins with the marked buffer has the mark in it. -/
theorem two_mem_take {buf : ℕ → Accepted} {k n : ℕ} {c : Bytes} (hk : 0 < (buf k).1.length)
    (hn : n ≠ 0) (hfront : (marked buf k k).1 <+: c) : 2 ∈ c.take n := by
  obtain ⟨m, hm⟩ := Nat.exists_eq_add_one_of_ne_zero (Nat.ne_of_gt hk)
  obtain ⟨n, rfl⟩ := Nat.exists_eq_add_one_of_ne_zero hn
  obtain ⟨rest, rfl⟩ := hfront
  rw [marked_self, hm, List.replicate_succ, List.cons_append, List.take_succ_cons]
  exact List.mem_cons_self

/-- Where the size does not match, a read mixes the marked buffer with something else. -/
theorem sizesMatch_of_readsWhole {buf : ℕ → Accepted} {steps : List RaceStep}
    (h : ∀ buf', SameLengths buf buf' → ReadsWhole K buf' steps) : SizesMatch K buf steps := by
  intro before r count n hp hcount hr
  by_contra hne
  obtain ⟨hn0, hnlast⟩ := not_or.1 hne
  obtain hnone | ⟨k, -, hpos, hlast, hfront⟩ := exists_front buf (Race.after K buf before).copies
  · exact hn0 (((traced_after K buf before).reading r n hr).eq_zero hnone)
  · have hlen := sameLengths_marked buf k
    have hshape := sameShape_after K hlen before
    obtain ⟨htake, hreply⟩ := deliver_whole K (traced_after K (marked buf k) before)
      (hshape.reading ▸ hr) hcount
    obtain ⟨b, hb, heq⟩ := h _ hlen before r count _ hp hcount hreply
    obtain rfl : _ = b := (Reply.mk.inj heq).2.1
    have hmark := two_mem_take hpos hn0 (hfront _ hlen)
    rw [hshape.copies] at hmark
    rcases hb with hb | ⟨i, -, hb⟩
    · rw [hb] at hmark
      exact absurd hmark List.not_mem_nil
    · rw [hb] at hmark htake
      obtain rfl := eq_of_two_mem_marked hmark
      exact hnlast (htake.symm.trans ((hlen i).trans hlast))

/-- Where the size matches, the buffer the page begins with is delivered. -/
theorem readsWhole_of_sizesMatch {buf : ℕ → Accepted} {steps : List RaceStep}
    (h : SizesMatch K buf steps) {buf' : ℕ → Accepted} (hlen : SameLengths buf buf') :
    ReadsWhole K buf' steps := by
  intro before r count reply hp hcount hreply
  have hshape := sameShape_after K hlen before
  have htraced := traced_after K buf' before
  cases hr : (Race.after K buf' before).reading r with
  | none =>
    simp only [race, hr] at hreply
    exact absurd hreply (Option.some_ne_none reply).symm
  | some n =>
    obtain ⟨htake, hdeliver⟩ := deliver_whole K htraced hr hcount
    rw [hdeliver, Option.some.injEq] at hreply
    refine ⟨(contents buf' (Race.after K buf' before).copies).take n, ?_, by rw [← hreply, htake]⟩
    rcases h before r count n hp hcount (hshape.reading ▸ hr) with hn | hn
    · exact .inl (by rw [hn, List.take_zero])
    -- The size is the length of the buffer in front, if any has been copied.
    · obtain hnone | ⟨k, hk, _, hlast, hfront⟩ := exists_front buf (Race.after K buf before).copies
      · have hsize := htraced.reading r n hr
        rw [← hshape.copies] at hsize
        rw [hsize.eq_zero fun i hi => (hlen i).trans (hnone i hi)]
        exact .inl List.take_zero
      · refine .inr ⟨k, hshape.copies ▸ hk, ?_⟩
        rw [hn, ← hlast, ← hlen, ← hshape.copies]
        exact (List.prefix_iff_eq_take.1 (hfront buf' hlen)).symm

/-- A run of steps has all reads of the whole file deliver whole buffers,
    whatever is in buffers of these lengths, exactly if their sizes match. -/
theorem readsWhole_iff (buf : ℕ → Accepted) (steps : List RaceStep) :
    (∀ buf', SameLengths buf buf' → ReadsWhole K buf' steps) ↔ SizesMatch K buf steps :=
  ⟨sizesMatch_of_readsWhole K, fun h _ hlen => readsWhole_of_sizesMatch K h hlen⟩

/-- The buffers `aaa` and `bb`, and empty ones. -/
def aaaThenBb : ℕ → Accepted
  | 0 => ⟨ascii "aaa", by decide⟩
  | 1 => ⟨ascii "bb", by decide⟩
  | _ => ⟨[], Nat.zero_le _⟩

/-- Between the halves of the write of `bb` over `aaa`, a read delivers `bba`. -/
theorem mixed_read :
    (race .reference aaaThenBb).outputs Race.init
        [.copy 0, .publish 0, .copy 1, .sample 0, .deliver 0 4096 0] =
      [none, none, none, none, some ⟨3, ascii "bba", 3⟩] ∧
      ¬∀ buf steps, ReadsWhole .reference buf steps := by
  have hreply : ((race .reference aaaThenBb).step
      (Race.after .reference aaaThenBb [.copy 0, .publish 0, .copy 1, .sample 0])
      (.deliver 0 4096 0)).2 = some ⟨3, ascii "bba", 3⟩ :=
    (deliver_whole .reference (traced_after .reference aaaThenBb _) rfl (by decide)).2
  refine ⟨congrArg (fun o => [none, none, none, none, o]) hreply, fun hall => ?_⟩
  obtain ⟨b, hb, heq⟩ := hall aaaThenBb _ _ 0 4096 _ (List.prefix_refl _) (by decide) hreply
  obtain rfl : _ = b := (Reply.mk.inj heq).2.1
  rcases hb with hb | ⟨i, -, hb⟩
  · exact absurd hb (by decide)
  · match i with
    | 0 => exact absurd hb (by decide)
    | 1 => exact absurd hb (by decide)
    | _ + 2 => exact List.cons_ne_nil _ _ hb

end LittlePenguin.Debugfs
