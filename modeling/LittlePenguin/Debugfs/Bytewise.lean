import LittlePenguin.Debugfs
import LittlePenguin.Lib.Machine
import Mathlib.Logic.Function.Basic

/-!
# Copying `foo` byte by byte

Without a lock, not even the copies of the module are atomic. Here every call
copies its bytes one at a time, and any number of calls go on at the same time
(`Copying.step`); a fault turns the copy of a write into one of zeroes, and ends
a read. A call that nobody interrupts does what it does as a whole
(`write_alone`, `write_alone_fault`, `read_alone`).

The contents of the page may be torn then. Still, whatever the order of the
steps, nothing outside of the page is accessed, and no byte is read at a
position that no write has put there, but for the zeroes of faults and of the
beginning (`foo_safe`).
-/

namespace LittlePenguin.Debugfs

open Lib

variable (K : Kernel)

/-- How far a call has got. -/
inductive Progress
  /-- It has not begun. -/
  | idle
  /-- A write has copied `i` bytes. -/
  | copying (user : Bytes) (i : ℕ)
  /-- The copy of a write has faulted, and is zero-filled up to `i`. -/
  | zeroing (user : Bytes) (i : ℕ)
  /-- A read is to copy `n` bytes from the position `pos` on, and has copied `i`. -/
  | reading (pos n i : ℕ)
  /-- It has returned. -/
  | done (result : ℤ)

/-- A step of the call numbered `c`. -/
inductive CopyStep
  | write (c : ℕ) (user : Bytes)
  | read (c count : ℕ) (offp : ℤ)
  | next (c : ℕ)
  | fault (c : ℕ)

/-- The file, and the calls on it. -/
structure Copying where
  foo : Foo
  calls : ℕ → Progress
  /-- The buffers of the writes begun that are accepted. -/
  started : List Bytes
  /-- The bytes delivered, with their positions. -/
  delivered : List (ℕ × UInt8)

namespace Copying

/-- Nobody has begun. -/
def init : Copying := ⟨Foo.init, fun _ => .idle, [], []⟩

variable (s : Copying)

/-- A call has got to `p`. -/
def goTo (c : ℕ) (p : Progress) : Copying := { s with calls := Function.update s.calls c p }

/-- A write has begun with the bytes `user`. -/
def start (user : Bytes) : Copying := { s with started := user :: s.started }

/-- A byte is stored to the page. -/
def store (i : ℕ) (b : UInt8) : Copying :=
  { s with foo := { s.foo with fooData := s.foo.fooData.store i b } }

/-- The size is set. -/
def publish (count : ℕ) : Copying := { s with foo := s.foo.publish count }

/-- The byte at the position `p` is loaded from the page and delivered. -/
def deliver (p : ℕ) : Copying where
  foo := { s.foo with fooData := s.foo.fooData.load p }
  calls := s.calls
  started := s.started
  delivered := s.delivered ++ [(p, s.foo.fooData.get p)]

/-- A step of a call. What it is not in a position to do does nothing. -/
def step : CopyStep → Copying
  | .write c user =>
    match s.calls c with
    | .idle =>
      if PAGE_SIZE < user.length then s.goTo c (.done (-EINVAL))
      else (s.start user).goTo c (.copying user 0)
    | _ => s
  | .read c count offp =>
    match s.calls c with
    | .idle =>
      let available := s.foo.fooSize
      if offp < 0 then s.goTo c (.done (-EINVAL))
      else if (available : ℤ) ≤ offp ∨ count = 0 then s.goTo c (.done 0)
      else s.goTo c (.reading offp.toNat (min count (available - offp.toNat)) 0)
    | _ => s
  | .next c =>
    match s.calls c with
    | .copying user i =>
      match user[i]? with
      | some b => (s.store i b).goTo c (.copying user (i + 1))
      | none => (s.publish user.length).goTo c (.done user.length)
    | .zeroing user i =>
      if i < user.length then (s.store i 0).goTo c (.zeroing user (i + 1))
      else s.goTo c (.done (-EFAULT))
    | .reading pos n i =>
      if i < n then (s.deliver (pos + i)).goTo c (.reading pos n (i + 1))
      else s.goTo c (.done n)
    | _ => s
  | .fault c =>
    match s.calls c with
    | .copying user i => if i < user.length then s.goTo c (.zeroing user i) else s
    | .reading _ n i => if i < n then s.goTo c (.done (if i = 0 then -EFAULT else i)) else s
    | _ => s

end Copying

/-- The calls taking their steps in some order. -/
def copying : Machine Copying CopyStep Unit where
  step s e := (s.step e, ())

/-! ## Safety -/

/-- A byte that may be at the position `p`: zero, or the byte of a write there. -/
def FromWrite (started : List Bytes) (p : ℕ) (b : UInt8) : Prop :=
  b = 0 ∨ ∃ user ∈ started, user[p]? = some b

theorem FromWrite.cons {started : List Bytes} {p : ℕ} {b : UInt8} (h : FromWrite started p b)
    (user : Bytes) : FromWrite (user :: started) p b :=
  h.imp_right fun ⟨u, hu, hb⟩ => ⟨u, List.mem_cons_of_mem _ hu, hb⟩

/-- A call writes what has been begun to be written, to the page, and reads from the page. -/
def Progress.Sound (started : List Bytes) : Progress → Prop
  | copying user _ => user ∈ started ∧ user.length ≤ PAGE_SIZE
  | zeroing user _ => user.length ≤ PAGE_SIZE
  | reading pos n _ => pos + n ≤ PAGE_SIZE
  | _ => True

theorem Progress.Sound.cons {started : List Bytes} {p : Progress} (h : p.Sound started)
    (user : Bytes) : p.Sound (user :: started) := by
  cases p with
  | copying => exact ⟨List.mem_cons_of_mem _ h.1, h.2⟩
  | _ => exact h

/-- The page has only been accessed inside of its bounds, and what is in it and
    what has been delivered is from writes. -/
structure Safe (s : Copying) : Prop where
  size : s.foo.fooSize ≤ PAGE_SIZE
  loads : ∀ i ∈ s.foo.fooData.loads, i < PAGE_SIZE
  stores : ∀ i ∈ s.foo.fooData.stores, i < PAGE_SIZE
  page : ∀ p b, s.foo.fooData.cells[p]? = some b → FromWrite s.started p b
  delivered : ∀ p b, (p, b) ∈ s.delivered → FromWrite s.started p b
  calls : ∀ c, (s.calls c).Sound s.started

namespace Safe

theorem init : Safe Copying.init where
  size := Nat.zero_le _
  loads := fun _ hi => absurd hi List.not_mem_nil
  stores := fun _ hi => absurd hi List.not_mem_nil
  page _ _ hb := .inl (List.eq_of_mem_replicate (List.mem_of_getElem? hb))
  delivered := fun _ _ hd => absurd hd List.not_mem_nil
  calls := fun _ => trivial

variable {s : Copying} (h : Safe s)

include h

theorem goTo {c : ℕ} {p : Progress} (hp : p.Sound s.started) : Safe (s.goTo c p) :=
  { h with
    calls := (Function.forall_update_iff s.calls fun _ q => q.Sound s.started).2
      ⟨hp, fun d _ => h.calls d⟩ }

theorem start (user : Bytes) : Safe (s.start user) :=
  { h with
    page := fun p b hb => (h.page p b hb).cons user
    delivered := fun p b hd => (h.delivered p b hd).cons user
    calls := fun c => (h.calls c).cons user }

theorem store {i : ℕ} (hi : i < PAGE_SIZE) {b : UInt8} (hb : FromWrite s.started i b) :
    Safe (s.store i b) :=
  { h with
    stores := fun j hj => (List.mem_cons.1 hj).elim (fun hji => hji ▸ hi) (h.stores j)
    page := fun p d hd => by
      rw [Copying.store, CArray.cells_store, List.getElem?_set] at hd
      split_ifs at hd with hip
      · obtain rfl := hip
        obtain rfl := Option.some.inj hd
        exact hb
      · exact h.page p d hd }

theorem publish {count : ℕ} (hcount : count ≤ PAGE_SIZE) : Safe (s.publish count) :=
  { h with size := hcount }

theorem deliver {p : ℕ} (hp : p < PAGE_SIZE) : Safe (s.deliver p) :=
  { h with
    loads := fun i hi => (List.mem_cons.1 hi).elim (fun hip => hip ▸ hp) (h.loads i)
    delivered := fun q b hd => by
      rcases List.mem_append.1 hd with hd | hd
      · exact h.delivered q b hd
      · obtain ⟨rfl, rfl⟩ := Prod.mk.inj (List.mem_singleton.1 hd)
        have hlt : q < s.foo.fooData.cells.length := by rwa [s.foo.fooData.length_cells]
        exact h.page q _ (by rw [CArray.get_of_lt hlt, List.getElem?_eq_getElem hlt]) }

/-- No step of any call is unsafe. -/
theorem step (e : CopyStep) : Safe (s.step e) := by
  cases e with
  | write c user =>
    simp only [Copying.step]
    cases hc : s.calls c with
    | idle =>
      dsimp only
      split_ifs with hlen
      · exact h.goTo trivial
      · exact (h.start user).goTo ⟨List.mem_cons_self, Nat.le_of_not_lt hlen⟩
    | _ => exact h
  | read c count offp =>
    simp only [Copying.step]
    cases hc : s.calls c with
    | idle =>
      dsimp only
      split_ifs with hneg hend
      · exact h.goTo trivial
      · exact h.goTo trivial
      · -- The size taken bounds what this read will access, whatever is set meanwhile.
        have hsize := h.size
        refine h.goTo ?_
        change offp.toNat + min count (s.foo.fooSize - offp.toNat) ≤ PAGE_SIZE
        omega
    | _ => exact h
  | next c =>
    have hsound := h.calls c
    simp only [Copying.step]
    cases hc : s.calls c with
    | copying user i =>
      rw [hc] at hsound
      obtain ⟨hmem, hlen⟩ := hsound
      dsimp only
      cases hb : user[i]? with
      | some b =>
        -- The byte stored is the one the write has at this index.
        have hi : i < user.length := (List.getElem?_eq_some_iff.1 hb).1
        exact (h.store (hi.trans_le hlen) (.inr ⟨user, hmem, hb⟩)).goTo ⟨hmem, hlen⟩
      | none => exact (h.publish hlen).goTo trivial
    | zeroing user i =>
      rw [hc] at hsound
      dsimp only
      split_ifs with hi
      · exact (h.store (hi.trans_le hsound) (.inl rfl)).goTo hsound
      · exact h.goTo trivial
    | reading pos n i =>
      rw [hc] at hsound
      dsimp only
      split_ifs with hi
      · exact (h.deliver (lt_of_lt_of_le (Nat.add_lt_add_left hi pos) hsound)).goTo hsound
      · exact h.goTo trivial
    | _ => exact h
  | fault c =>
    have hsound := h.calls c
    simp only [Copying.step]
    cases hc : s.calls c with
    | copying user i =>
      rw [hc] at hsound
      dsimp only
      split_ifs
      · exact h.goTo hsound.2
      · exact h
    | reading pos n i =>
      by_cases hi : i < n
      · simp only [if_pos hi]
        exact h.goTo trivial
      · simp only [if_neg hi]
        exact h
    | _ => exact h

end Safe

/-- In whatever order any calls take their steps and wherever they fault, the
    size is at most a page, the page is accessed inside of its bounds, and what
    is delivered for a position is zero or the byte there of a write begun before. -/
theorem foo_safe (steps : List CopyStep) :
    let s := copying.state Copying.init steps
    s.foo.fooSize ≤ PAGE_SIZE ∧
      (∀ i, i ∈ s.foo.fooData.loads ∨ i ∈ s.foo.fooData.stores → i < PAGE_SIZE) ∧
      ∀ p b, (p, b) ∈ s.delivered → b = 0 ∨ ∃ user ∈ s.started, user[p]? = some b := by
  have h : Safe (copying.state Copying.init steps) :=
    Machine.invariant (fun _ e (_ : True) hs => hs.step e) (fun _ _ => trivial) Safe.init
  exact ⟨h.size, fun i hi => hi.elim (h.loads i) (h.stores i), h.delivered⟩

/-! ## Calls on their own -/

theorem state_cons (s : Copying) (e : CopyStep) (steps : List CopyStep) :
    copying.state s (e :: steps) = copying.state (s.step e) steps := rfl

/-- A call that has returned takes no more steps. -/
theorem state_next_done {s : Copying} {c : ℕ} {result : ℤ} (hc : s.calls c = .done result)
    (m : ℕ) : copying.state s (List.replicate m (.next c)) = s := by
  induction m with
  | zero => rfl
  | succ m ih =>
    have hstep : s.step (.next c) = s := by simp only [Copying.step, hc]
    rw [List.replicate_succ, state_cons, hstep, ih]

/-- A call that goes through `f`, storing one of the bytes `bs` at each of its
    steps, lays a slice of them over the page. -/
theorem state_next_store {c : ℕ} (f : ℕ → Progress) (bs : Bytes) (hbs : bs.length ≤ PAGE_SIZE)
    (hstep : ∀ s : Copying, ∀ i b, s.calls c = f i → bs[i]? = some b →
      s.step (.next c) = (s.store i b).goTo c (f (i + 1)))
    {s : Copying} {i m : ℕ} (hc : s.calls c = f i) (hm : i + m ≤ bs.length) :
    let t := copying.state s (List.replicate m (.next c))
    t.foo.fooData.cells = overlay s.foo.fooData.cells i (slice bs i m) ∧
      t.foo.fooSize = s.foo.fooSize ∧ t.calls c = f (i + m) := by
  induction m generalizing s i with
  | zero =>
    refine ⟨?_, rfl, hc⟩
    rw [slice, List.take_zero, overlay_nil]
    rfl
  | succ m ih =>
    have hi : i < bs.length := by omega
    have hb := List.getElem?_eq_getElem hi
    obtain ⟨hcells, hsize, hcall⟩ := ih (s := (s.store i bs[i]).goTo c (f (i + 1))) (i := i + 1)
      (Function.update_self ..) (by omega)
    rw [List.replicate_succ, state_cons, hstep s i bs[i] hc hb]
    refine ⟨?_, hsize, ?_⟩
    · rw [hcells, slice_succ hb]
      refine overlay_set ?_ _ _
      rw [s.foo.fooData.length_cells]
      omega
    · rw [hcall]
      congr 1
      omega

theorem step_copying {s : Copying} {c i : ℕ} {user : Bytes} {b : UInt8}
    (hc : s.calls c = .copying user i) (hb : user[i]? = some b) :
    s.step (.next c) = (s.store i b).goTo c (.copying user (i + 1)) := by
  simp only [Copying.step, hc, hb]

theorem step_zeroing {s : Copying} {c i : ℕ} {user : Bytes} (hc : s.calls c = .zeroing user i)
    (hi : i < user.length) :
    s.step (.next c) = (s.store i 0).goTo c (.zeroing user (i + 1)) := by
  simp only [Copying.step, hc, if_pos hi]

/-- The rest of a copy that faults stores zeroes, as if they had been passed. -/
theorem state_next_zeroing {s : Copying} {c i m : ℕ} {user : Bytes}
    (hlen : user.length ≤ PAGE_SIZE) (hc : s.calls c = .zeroing user i)
    (hm : i + m ≤ user.length) :
    let t := copying.state s (List.replicate m (.next c))
    t.foo.fooData.cells = overlay s.foo.fooData.cells i (List.replicate m 0) ∧
      t.foo.fooSize = s.foo.fooSize ∧ t.calls c = .zeroing user (i + m) := by
  have hzero : ∀ u : Copying, ∀ i b, u.calls c = .zeroing user i →
      (List.replicate user.length (0 : UInt8))[i]? = some b →
      u.step (.next c) = (u.store i b).goTo c (.zeroing user (i + 1)) := by
    intro u i b hu hb
    obtain ⟨hi, hb⟩ := List.getElem?_eq_some_iff.1 hb
    rw [List.length_replicate] at hi
    rw [List.getElem_replicate] at hb
    rw [← hb, step_zeroing hu hi]
  have hslice : slice (List.replicate user.length (0 : UInt8)) i m = List.replicate m 0 := by
    rw [slice, List.drop_replicate, List.take_replicate, Nat.min_eq_left (by omega)]
  have hstore := state_next_store (.zeroing user) (List.replicate user.length 0)
    (by rwa [List.length_replicate]) hzero hc (m := m) (by rwa [List.length_replicate])
  rwa [hslice] at hstore

theorem step_write {s : Copying} {c : ℕ} (hc : s.calls c = .idle) {user : Bytes}
    (hlen : user.length ≤ PAGE_SIZE) :
    s.step (.write c user) = (s.start user).goTo c (.copying user 0) := by
  simp only [Copying.step, hc, if_neg (Nat.not_lt.2 hlen)]

/-- A write that is not interrupted does what a call does. -/
theorem write_alone {s : Copying} {c : ℕ} (hc : s.calls c = .idle) (user : Bytes) :
    let t := copying.state s (.write c user :: List.replicate (user.length + 1) (.next c))
    let w := fooWrite K .never s.foo user
    t.foo.fooData.cells = w.2.fooData.cells ∧ t.foo.fooSize = w.2.fooSize ∧
      t.calls c = .done w.1 := by
  rcases Nat.lt_or_ge PAGE_SIZE user.length with hlen | hlen
  · have hstep : s.step (.write c user) = s.goTo c (.done (-EINVAL)) := by
      simp only [Copying.step, hc, if_pos hlen]
    rw [fooWrite_of_length_gt K hlen, state_cons, hstep,
      @state_next_done _ c (-EINVAL) (Function.update_self ..)]
    exact ⟨rfl, rfl, Function.update_self ..⟩
  · obtain ⟨hcells, -, hcall⟩ := state_next_store (.copying user) user hlen
      (fun _ _ _ => step_copying) (s := (s.start user).goTo c (.copying user 0)) (i := 0)
      (m := user.length) (Function.update_self ..) (Nat.le_of_eq (Nat.zero_add _))
    rw [fooWrite_eq_publish_copy K s.foo hlen, state_cons, step_write hc hlen,
      List.replicate_succ', Machine.state_append, state_cons]
    have hend : user[0 + user.length]? = none := by simp
    simp only [Copying.step, hcall, hend]
    refine ⟨hcells.trans ?_, rfl, Function.update_self ..⟩
    rw [Foo.fooData_publish, Foo.copy, K.copyFromUser_never, slice, List.drop_zero,
      List.take_length]
    rfl

/-- Nor does one that faults after `k` bytes. -/
theorem write_alone_fault {s : Copying} {c : ℕ} (hc : s.calls c = .idle) {user : Bytes}
    (hlen : user.length ≤ PAGE_SIZE) {k : ℕ} (hk : k < user.length) :
    let t := copying.state s (.write c user :: (List.replicate k (.next c) ++
      .fault c :: List.replicate (user.length - k + 1) (.next c)))
    let w := fooWrite K (.after k) s.foo user
    t.foo.fooData.cells = w.2.fooData.cells ∧ t.foo.fooSize = w.2.fooSize ∧
      t.calls c = .done w.1 := by
  have hpassed : (Fault.after k).passed user.length = k := Nat.min_eq_left hk.le
  have hleft : user.length - k ≠ 0 := by omega
  obtain ⟨hcells, hsize, hcall⟩ := state_next_store (.copying user) user hlen
    (fun _ _ _ => step_copying) (s := (s.start user).goTo c (.copying user 0)) (i := 0) (m := k)
    (Function.update_self ..) (by omega)
  rw [state_cons, step_write hc hlen, Machine.state_append, state_cons]
  generalize copying.state ((s.start user).goTo c (.copying user 0))
    (List.replicate k (.next c)) = t at hcells hsize hcall ⊢
  have hfault : t.step (.fault c) = t.goTo c (.zeroing user k) := by
    rw [Nat.zero_add] at hcall
    simp only [Copying.step, hcall, if_pos hk]
  obtain ⟨hzeroes, hsize', hcall'⟩ := state_next_zeroing (s := t.goTo c (.zeroing user k))
    (m := user.length - k) hlen (Function.update_self ..) (by omega)
  rw [hfault, List.replicate_succ', Machine.state_append, state_cons]
  have hend : ¬k + (user.length - k) < user.length := by omega
  simp only [Copying.step, hcall', if_neg hend]
  simp only [fooWrite, if_neg (Nat.not_lt.2 hlen), K.copyFromUser_eq, hpassed, if_pos hleft]
  refine ⟨hzeroes.trans ?_, hsize'.trans hsize, Function.update_self ..⟩
  have htake : (user.take k).length = k := List.length_take_of_le hk.le
  have hfits : 0 + (user.take k).length ≤ s.foo.fooData.cells.length := by
    rw [htake, s.foo.fooData.length_cells]
    omega
  have hoverlay := overlay_overlay hfits (List.replicate (user.length - k) 0)
  rw [Nat.zero_add, htake] at hoverlay
  change overlay t.foo.fooData.cells k _ = _
  rw [hcells, slice, List.drop_zero]
  exact hoverlay

/-- A read delivers the bytes of the page one after the other. -/
theorem state_next_reading {s : Copying} {c pos n i m : ℕ} (hc : s.calls c = .reading pos n i)
    (hm : i + m ≤ n) :
    let t := copying.state s (List.replicate m (.next c))
    t.delivered = s.delivered ++
        (List.range' (pos + i) m).map (fun p => (p, s.foo.fooData.get p)) ∧
      t.calls c = .reading pos n (i + m) := by
  induction m generalizing s i with
  | zero => exact ⟨(List.append_nil _).symm, hc⟩
  | succ m ih =>
    have hstep : s.step (.next c) = (s.deliver (pos + i)).goTo c (.reading pos n (i + 1)) := by
      simp only [Copying.step, hc, if_pos (show i < n by omega)]
    obtain ⟨hdelivered, hcall⟩ := ih (s := (s.deliver (pos + i)).goTo c (.reading pos n (i + 1)))
      (i := i + 1) (Function.update_self ..) (by omega)
    rw [List.replicate_succ, state_cons, hstep]
    refine ⟨hdelivered.trans ?_, ?_⟩
    · rw [List.range'_succ, List.map_cons, List.append_cons]
      rfl
    · rw [hcall]
      congr 1
      omega

/-- Without a fault, a read delivers the bytes of the page that are below the size. -/
theorem fooRead_slice {s : Foo} (hsize : s.fooSize ≤ PAGE_SIZE) (count : ℕ) {offp : ℤ}
    (hoffp : 0 ≤ offp) :
    let r := fooRead K .never s count offp
    r.bytes = slice s.fooData.cells offp.toNat r.bytes.length ∧
      r.bytes.length = min count (s.fooSize - offp.toNat) ∧ r.result = r.bytes.length := by
  intro r
  have hr : r = Reply.ofSlice (s.fooData.cells.take s.fooSize) offp count :=
    Foo.deliver_eq K hsize count hoffp
  have hbytes : r.bytes = slice s.fooData.cells offp.toNat
      (min count (s.fooSize - offp.toNat)) := by
    rw [hr, Reply.ofSlice, slice_take]
  have hlen : r.bytes.length = min count (s.fooSize - offp.toNat) := by
    rw [hbytes, length_slice, s.fooData.length_cells]
    omega
  refine ⟨?_, hlen, ?_⟩
  · rw [hlen, ← hbytes]
  · rw [hr, Reply.ofSlice]

/-- A read that is not interrupted delivers what a call does. -/
theorem read_alone {s : Copying} {c : ℕ} (hc : s.calls c = .idle)
    (hsize : s.foo.fooSize ≤ PAGE_SIZE) (count : ℕ) {offp : ℤ} (hoffp : 0 ≤ offp) :
    let r := fooRead K .never s.foo count offp
    let t := copying.state s
      (.read c count offp :: List.replicate (r.bytes.length + 1) (.next c))
    t.delivered = s.delivered ++ (List.range' offp.toNat r.bytes.length).zip r.bytes ∧
      t.calls c = .done r.result := by
  intro r t
  obtain ⟨hbytes, hlen, hresult⟩ : r.bytes = slice s.foo.fooData.cells offp.toNat r.bytes.length ∧
    r.bytes.length = min count (s.foo.fooSize - offp.toNat) ∧ r.result = r.bytes.length :=
      fooRead_slice K hsize count hoffp
  by_cases hend : (s.foo.fooSize : ℤ) ≤ offp ∨ count = 0
  · have hstep : s.step (.read c count offp) = s.goTo c (.done 0) := by
      simp only [Copying.step, hc, if_neg (Int.not_lt.2 hoffp), if_pos hend]
    have hnil : r.bytes = [] := List.eq_nil_of_length_eq_zero (by omega)
    have ht : t = s.goTo c (.done 0) := by
      simp only [t]
      rw [state_cons, hstep, @state_next_done _ c 0 (Function.update_self ..)]
    rw [ht, hresult, hnil]
    exact ⟨(List.append_nil _).symm, Function.update_self ..⟩
  · have hstep : s.step (.read c count offp) = s.goTo c
        (.reading offp.toNat r.bytes.length 0) := by
      simp only [Copying.step, hc, if_neg (Int.not_lt.2 hoffp), if_neg hend, hlen]
    obtain ⟨hdelivered, hcall⟩ := state_next_reading (m := r.bytes.length)
      (s := s.goTo c (.reading offp.toNat r.bytes.length 0)) (Function.update_self ..)
      (Nat.le_of_eq (Nat.zero_add _))
    have hlast : ¬0 + r.bytes.length < r.bytes.length := by omega
    have hmap : (List.range' offp.toNat r.bytes.length).map s.foo.fooData.get = r.bytes := by
      rw [CArray.map_get_range' (by have := s.foo.fooData.length_cells; omega), ← hbytes]
    simp only [t]
    rw [state_cons, hstep, List.replicate_succ', Machine.state_append, state_cons]
    simp only [Copying.step, hcall, if_neg hlast]
    refine ⟨hdelivered.trans ?_, ?_⟩
    · rw [Nat.add_zero, List.map_prod_left_eq_zip]
      change _ ++ List.zip _ ((List.range' offp.toNat r.bytes.length).map s.foo.fooData.get) = _
      rw [hmap]
      rfl
    · rw [hresult]
      exact Function.update_self ..

end LittlePenguin.Debugfs
