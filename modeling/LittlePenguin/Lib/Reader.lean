import LittlePenguin.Lib.Bytes
import LittlePenguin.Lib.Machine
import Mathlib.Data.List.Range
import Mathlib.Data.Int.Order.Basic

/-!
# Reading a file in pieces

A read handler answers a request for a number of bytes at a position with a
result, some bytes and the next position (`Reply`). It may change the state of
its device. Reading it to the end (`Drains`) is to call it with one size after
the other, each time at the position the last call left, until a call gives the
result `0`; what has been read is what the calls delivered, in order.

A handler serves a content (`Serves`) if every reply is a slice of it. Read to
the end, with whatever sizes, it delivers that content and nothing else
(`Serves.drainsTo_iff`).

A request may also fail, or be answered in part. What then counts of a reply are
as many of its bytes as the result tells (`Reply.counted`): all of them, or none
if it is an error. A reader has got a prefix of the content, however its requests
have been answered, if every reply goes on with the content where the position
is (`Follows.growingPrefix`).
-/

namespace Lib

/-- The answer to a read request. -/
structure Reply where
  /-- The number of bytes read, or a negative error code. -/
  result : ℤ
  /-- The bytes delivered. -/
  bytes : Bytes
  /-- The position left behind. -/
  pos : ℤ
  deriving DecidableEq

/-- The answer to a request of `count` bytes at `pos` from a file with content `c`. -/
def Reply.ofSlice (c : Bytes) (pos : ℤ) (count : ℕ) : Reply where
  result := (slice c pos.toNat count).length
  bytes := slice c pos.toNat count
  pos := pos + (slice c pos.toNat count).length

theorem Reply.ofSlice_result (c : Bytes) (p : ℤ) (n : ℕ) :
    (Reply.ofSlice c p n).result = ((min n (c.length - p.toNat) : ℕ) : ℤ) := by
  rw [Reply.ofSlice, length_slice]

theorem Reply.ofSlice_pos {p : ℤ} (hp : 0 ≤ p) (c : Bytes) (n : ℕ) :
    0 ≤ (Reply.ofSlice c p n).pos ∧
      (Reply.ofSlice c p n).pos.toNat = p.toNat + (slice c p.toNat n).length := by
  simp only [Reply.ofSlice]
  omega

variable {σ : Type*} (read : σ → ℕ → ℤ → Reply × σ)

/-- Reading from the position `p` with the sizes `ns`, the last call is the
    first one with the result `0`, and `bs` has been delivered. -/
inductive Drains : σ → ℤ → List ℕ → Bytes → Prop
  | eof {s : σ} {p : ℤ} {n : ℕ} : (read s n p).1.result = 0 → Drains s p [n] []
  | more {s : σ} {p : ℤ} {n : ℕ} {ns : List ℕ} {bs : Bytes} : 0 < (read s n p).1.result →
      Drains (read s n p).2 (read s n p).1.pos ns bs →
      Drains s p (n :: ns) ((read s n p).1.bytes ++ bs)

variable {read} in
/-- A call with the reply `r`, and what is read after it. -/
theorem Drains.cons {s t : σ} {p : ℤ} {n : ℕ} {ns : List ℕ} {r : Reply} {bs : Bytes}
    (h : read s n p = (r, t)) (hr : 0 < r.result) (hd : Drains read t r.pos ns bs) :
    Drains read s p (n :: ns) (r.bytes ++ bs) := by
  have hmore := @Drains.more σ read s p n ns bs
  rw [h] at hmore
  exact hmore hr hd

variable {read} in
/-- There is a last call. -/
theorem Drains.ne_nil {s : σ} {p : ℤ} {ns : List ℕ} {bs : Bytes} (h : Drains read s p ns bs) :
    ns ≠ [] := by
  cases h with
  | eof => exact List.cons_ne_nil _ _
  | more => exact List.cons_ne_nil _ _

/-- Read from the beginning to the end, with any positive sizes, the file delivers `bs`. -/
def DrainsTo (s : σ) (bs : Bytes) : Prop :=
  ∀ sizes : ℕ → ℕ, (∀ k, 0 < sizes k) → ∃ m, Drains read s 0 ((List.range m).map sizes) bs

/-- In the states satisfying `I`, which reading does not leave, every reply is
    a slice of `c`. -/
structure Serves (I : σ → Prop) (c : Bytes) : Prop where
  reply : ∀ {s n p}, I s → 0 ≤ p → (read s n p).1 = Reply.ofSlice c p n
  keep : ∀ {s n p}, I s → 0 ≤ p → I (read s n p).2

namespace Serves

variable {read} {I : σ → Prop} {c : Bytes} (h : Serves read I c) {s : σ} {p : ℤ}

include h

/-- A file read to the end has delivered its content from the position on. -/
theorem eq_drop_of_drains {ns : List ℕ} {bs : Bytes} (hd : Drains read s p ns bs)
    (hpos : ∀ n ∈ ns, 0 < n) (hs : I s) (hp : 0 ≤ p) : bs = c.drop p.toNat := by
  induction hd with
  | @eof s p n hr =>
    rw [h.reply hs hp, Reply.ofSlice_result] at hr
    have hn := hpos n List.mem_cons_self
    exact (List.drop_eq_nil_of_le (by omega)).symm
  | @more s p n ns bs _ _ ih =>
    have hkeep := h.keep (n := n) hs hp
    obtain ⟨hp', hnat⟩ := Reply.ofSlice_pos hp c n
    rw [h.reply hs hp] at ih ⊢
    rw [ih (fun n hn => hpos n (List.mem_cons_of_mem _ hn)) hkeep hp', hnat]
    exact slice_append_drop c p.toNat n

/-- Read with positive sizes, a file comes to its end. -/
theorem exists_drains {sizes : ℕ → ℕ} (hpos : ∀ k, 0 < sizes k) (hs : I s) (hp : 0 ≤ p) :
    ∃ m, Drains read s p ((List.range m).map sizes) (c.drop p.toNat) := by
  -- Every call before the last one delivers a byte of what is left of the content.
  induction hl : c.length - p.toNat using Nat.strong_induction_on generalizing s p sizes with
  | _ l ih =>
    have hreply : (read s (sizes 0) p).1 = Reply.ofSlice c p (sizes 0) := h.reply hs hp
    have hlen := length_slice c p.toNat (sizes 0)
    have h0 := hpos 0
    rcases Nat.eq_zero_or_pos l with hz | hlt
    · refine ⟨1, ?_⟩
      rw [List.drop_eq_nil_of_le (by omega)]
      refine .eof ?_
      rw [hreply, Reply.ofSlice_result]
      omega
    · obtain ⟨hp', hnat⟩ := Reply.ofSlice_pos hp c (sizes 0)
      obtain ⟨m, hm⟩ := ih (l - (slice c p.toNat (sizes 0)).length) (by omega)
        (fun k => hpos (k + 1)) (h.keep (n := sizes 0) hs hp) hp' (by omega)
      have hbytes : (read s (sizes 0) p).1.bytes = slice c p.toNat (sizes 0) := by
        rw [hreply]
        rfl
      refine ⟨m + 1, ?_⟩
      rw [List.range_succ_eq_map, List.map_cons, List.map_map,
        ← slice_append_drop c p.toNat (sizes 0), ← hnat, ← hbytes]
      refine .more ?_ (by rwa [hreply])
      rw [hreply, Reply.ofSlice_result]
      omega

/-- Read to the end, a file delivers its content and nothing else. -/
theorem drainsTo_iff (hs : I s) (bs : Bytes) : DrainsTo read s bs ↔ bs = c := by
  constructor
  · intro hd
    obtain ⟨m, hm⟩ := hd (fun _ => 1) fun _ => Nat.one_pos
    refine h.eq_drop_of_drains hm (fun n hn => ?_) hs le_rfl
    obtain ⟨_, _, rfl⟩ := List.mem_map.1 hn
    exact Nat.one_pos
  · rintro rfl sizes hpos
    exact h.exists_drains hpos hs le_rfl

end Serves

/-! ## Requests that may fail -/

/-- The bytes a reply counts: none if the result is an error. -/
def Reply.counted (r : Reply) : Bytes := r.bytes.take r.result.toNat

theorem Reply.counted_of_neg {r : Reply} (h : r.result < 0) : r.counted = [] := by
  rw [Reply.counted, Int.toNat_of_nonpos h.le, List.take_zero]

/-- A reply to a request at the position `p` goes on with the content `c` there. -/
structure Reply.Continues (r : Reply) (c : Bytes) (p : ℤ) : Prop where
  counted : r.counted <+: c.drop p.toNat
  /-- Unless it is an error, the result is the number of bytes delivered. -/
  answered : 0 ≤ r.result → r.result = r.bytes.length
  pos : r.pos = p + r.counted.length
  /-- Behind the content, the result is `0`. -/
  ended : (c.length : ℤ) ≤ p → r.result = 0

/-- Unless it is an error, the position advances by the result. -/
theorem Reply.Continues.pos_of_nonneg {r : Reply} {c : Bytes} {p : ℤ} (h : r.Continues c p)
    (hr : 0 ≤ r.result) : r.pos = p + r.result := by
  have hcounted : r.counted = r.bytes := by
    rw [Reply.counted, h.answered hr, Int.toNat_natCast, List.take_length]
  rw [h.pos, hcounted, ← h.answered hr]

variable {ι : Type*}

/-- An open file, at a position, as a machine: its calls are the requests for a
    number of bytes, in the circumstances `ι`. -/
def openFile (read : σ → ι → ℕ → ℤ → Reply × σ) : Machine (σ × ℤ) (ι × ℕ) Reply where
  step s c :=
    let (r, t) := read s.1 c.1 c.2 s.2
    ((t, r.pos), r)

/-- What has been read with some calls, starting in the state `s` at the position `p`. -/
def received (read : σ → ι → ℕ → ℤ → Reply × σ) (s : σ × ℤ) (calls : List (ι × ℕ)) : Bytes :=
  ((openFile read).outputs s calls).flatMap Reply.counted

/-- However the file is read from the beginning in the state `s`, its position
    tells how much of the content `c` has been received, and at the end of the
    content it stays at its end. -/
structure GrowingPrefix (read : σ → ι → ℕ → ℤ → Reply × σ) (s : σ) (c : Bytes) : Prop where
  received : ∀ calls, let p := ((openFile read).state (s, 0) calls).2
    0 ≤ p ∧ p ≤ c.length ∧ Lib.received read (s, 0) calls = c.take p.toNat
  /-- A call that does not fail returns the number of bytes it has delivered, and
      advances the position by it. -/
  answered : ∀ calls call, let t := (openFile read).state (s, 0) calls
    let r := ((openFile read).step t call).2
    0 ≤ r.result → r.result = r.bytes.length ∧ ((openFile read).step t call).1.2 = t.2 + r.result
  /-- A call that fails leaves the position unchanged. -/
  failed : ∀ calls call, let t := (openFile read).state (s, 0) calls
    ((openFile read).step t call).2.result < 0 → ((openFile read).step t call).1.2 = t.2
  ended : ∀ calls, let t := (openFile read).state (s, 0) calls
    (c.length : ℤ) ≤ t.2 → ∀ later, ∀ r ∈ (openFile read).outputs t later, r.result = 0

/-- In the states satisfying `I`, which reading does not leave, every reply
    goes on with `c`. -/
structure Follows (read : σ → ι → ℕ → ℤ → Reply × σ) (I : σ → Prop) (c : Bytes) : Prop where
  reply : ∀ {s f n p}, I s → 0 ≤ p → p ≤ (c.length : ℤ) → (read s f n p).1.Continues c p
  keep : ∀ {s f n p}, I s → 0 ≤ p → p ≤ (c.length : ℤ) → I (read s f n p).2

namespace Follows

variable {read : σ → ι → ℕ → ℤ → Reply × σ} {I : σ → Prop} {c : Bytes} (h : Follows read I c)
  {s : σ} {p : ℤ}

include h

/-- After a reply, the position is still in the content or at its end. -/
theorem pos_le (f : ι) (n : ℕ) (hs : I s) (hp : 0 ≤ p) (hle : p ≤ c.length) :
    0 ≤ (read s f n p).1.pos ∧ (read s f n p).1.pos ≤ c.length := by
  have hreply : (read s f n p).1.Continues c p := h.reply hs hp hle
  have hpos := hreply.pos
  have hlen := hreply.counted.length_le
  rw [List.length_drop] at hlen
  omega

/-- From the position `p` on, what is received is a prefix of the content there. -/
theorem received_prefix_drop (hs : I s) (hp : 0 ≤ p) (hle : p ≤ c.length)
    (calls : List (ι × ℕ)) :
    received read (s, p) calls <+: c.drop p.toNat ∧
      ((openFile read).state (s, p) calls).2 = p + (received read (s, p) calls).length ∧
      I ((openFile read).state (s, p) calls).1 := by
  induction calls generalizing s p with
  | nil => exact ⟨List.nil_prefix, (Int.add_zero p).symm, hs⟩
  | cons call calls ih =>
    obtain ⟨⟨rest, hrest⟩, _, hpos, _⟩ := h.reply (f := call.1) (n := call.2) hs hp hle
    obtain ⟨hp', hle'⟩ := h.pos_le call.1 call.2 hs hp hle
    obtain ⟨⟨rest', hrest'⟩, hpos', hI⟩ := ih (h.keep hs hp hle) hp' hle'
    have hreceived : received read (s, p) (call :: calls) =
        (read s call.1 call.2 p).1.counted ++
          received read ((read s call.1 call.2 p).2, (read s call.1 call.2 p).1.pos) calls :=
      List.flatMap_cons
    refine ⟨⟨rest', ?_⟩, ?_, hI⟩
    · -- What is left behind the first reply is what the later ones are taken from.
      have hnat : (read s call.1 call.2 p).1.pos.toNat =
          p.toNat + (read s call.1 call.2 p).1.counted.length := by omega
      rw [hnat, ← List.drop_drop, ← hrest, List.drop_left] at hrest'
      rw [hreceived, List.append_assoc, hrest', hrest]
    · rw [hreceived, List.length_append, Machine.state_cons]
      refine hpos'.trans ?_
      rw [hpos, Int.natCast_add, Int.add_assoc]

/-- At the end of the content, every result is `0`. -/
theorem outputs_ended (hs : I s) (hp : 0 ≤ p) (hend : p = c.length) (calls : List (ι × ℕ)) :
    ∀ r ∈ (openFile read).outputs (s, p) calls, r.result = 0 := by
  induction calls generalizing s p with
  | nil => exact fun _ hr => absurd hr List.not_mem_nil
  | cons call calls ih =>
    have hreply : (read s call.1 call.2 p).1.Continues c p := h.reply hs hp hend.le
    have hpos := hreply.pos
    obtain ⟨hp', hle'⟩ := h.pos_le call.1 call.2 hs hp hend.le
    intro r hr
    rcases List.mem_cons.1 hr with rfl | hr
    · exact hreply.ended hend.ge
    · exact ih (h.keep hs hp hend.le) hp' (by omega) r hr

/-- A file whose every reply goes on with the content delivers a growing prefix of it. -/
theorem growingPrefix (hs : I s) : GrowingPrefix read s c := by
  have hstate : ∀ calls, let t := (openFile read).state (s, 0) calls
      I t.1 ∧ 0 ≤ t.2 ∧ t.2 ≤ c.length ∧ received read (s, 0) calls = c.take t.2.toNat := by
    intro calls t
    obtain ⟨hp, hpos, hI⟩ := h.received_prefix_drop hs le_rfl (Int.natCast_nonneg _) calls
    rw [Int.toNat_zero, List.drop_zero] at hp
    rw [Int.zero_add] at hpos
    have hlen := hp.length_le
    refine ⟨hI, ?_, ?_, ?_⟩
    · rw [hpos]
      exact Int.natCast_nonneg _
    · rw [hpos]
      exact Int.ofNat_le.2 hlen
    · rw [hpos, Int.toNat_natCast]
      exact List.prefix_iff_eq_take.1 hp
  refine ⟨fun calls => (hstate calls).2, fun calls call => ?_, fun calls call => ?_,
    fun calls => ?_⟩
  · obtain ⟨hI, hp, hle, _⟩ := hstate calls
    intro t r hr
    have hreply : r.Continues c t.2 := h.reply hI hp hle
    exact ⟨hreply.answered hr, hreply.pos_of_nonneg hr⟩
  · obtain ⟨hI, hp, hle, _⟩ := hstate calls
    intro t ht
    have hreply : ((openFile read).step t call).2.Continues c t.2 := h.reply hI hp hle
    refine hreply.pos.trans ?_
    rw [Reply.counted_of_neg ht]
    exact Int.add_zero t.2
  · obtain ⟨hI, hp, hle, _⟩ := hstate calls
    intro t hend later
    exact h.outputs_ended hI hp (le_antisymm hle hend) later

end Follows

end Lib
