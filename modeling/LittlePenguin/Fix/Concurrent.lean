import LittlePenguin.Fix
import LittlePenguin.Lib.Machine
import Mathlib.Logic.Function.Basic

/-!
# Calls of the reverse device at the same time

Nothing keeps the calls of the device apart. They share the page `str`, and also
`tmp`: every read lets this pointer, which is not a local variable, point to the
buffer that it has allocated, and finds it again through it for every byte that
it stores, and for the bytes that it hands out. Buffers are never freed. If there
is no memory, `kmalloc` returns NULL, which no read looks at.

Here any number of calls go on at the same time, each accessing memory once in
a step (`Calls.step`). A write that leaves room for one byte more than it writes
and a NUL stays inside of the page whatever the others do, and none of them puts
anything else than a NUL to the end of the page. So no access of a read is out of
bounds either, though its buffer may not be its own, unless there has been no
memory for some read. What is delivered has been written, or is a NUL, or is what
a buffer happened to hold as it was allocated (`calls_safe`).
-/

namespace LittlePenguin.Fix

open Lib

/-- The arguments of a read, and the buffer it has allocated, or NULL. -/
structure ReadArgs where
  size : ℕ
  offs : ℤ
  tmp2 : Option ℕ

/-- How far a read has got. -/
inductive ReadStage
  /-- It is to let `tmp` point to its buffer. -/
  | assigning
  /-- In `strlen`, it has gone over `k` bytes of `str`. -/
  | measuring (k : ℕ)
  /-- It is at the head of its loop. -/
  | looping (t : ℤ) (i : ℕ)
  /-- It has loaded the byte `b` of `str`. -/
  | loaded (t : ℤ) (i : ℕ) (b : UInt8)
  /-- It has found the buffer to store it to. -/
  | aimed (t : ℤ) (i : ℕ) (b : UInt8) (buf : ℕ)
  /-- It has found the buffer to store the NUL to. -/
  | ending (i buf : ℕ)
  /-- It is to hand out `i` bytes. -/
  | passing (i : ℕ)
  /-- Of `n` bytes of a buffer, `k` have been delivered. -/
  | delivering (buf n k : ℕ)
  | returned (result : ℤ)

/-- How far a write has got. -/
inductive WriteStage
  /-- `k` bytes have been copied. -/
  | copying (k : ℕ)
  /-- The copy has faulted after `passed` bytes, and is zero-filled up to `k`. -/
  | zeroing (k passed : ℕ)
  /-- It is to store its NUL, `simple_write_to_buffer` having returned `r`. -/
  | terminating (r : ℤ)
  | returned (result : ℤ)

/-- How far a call has got. -/
inductive Progress
  | idle
  | reading (a : ReadArgs) (stage : ReadStage)
  | writing (user : Bytes) (offs : ℤ) (stage : WriteStage)
  /-- It has used `tmp` while that pointed nowhere. -/
  | oops

/-- A step of the call numbered `c`. -/
inductive CallStep
  | read (c size : ℕ) (offs : ℤ)
  /-- A read for which there is no memory. -/
  | starved (c size : ℕ) (offs : ℤ)
  | write (c : ℕ) (user : Bytes) (offs : ℤ)
  | next (c : ℕ)
  | fault (c : ℕ)

/-- The memory of the device, and the calls. -/
structure Calls where
  str : CArray PAGE_SIZE
  tmp : Option ℕ
  /-- The buffers by their addresses, which are handed out one after the other. -/
  buffers : ℕ → CArray (2 * PAGE_SIZE)
  allocated : ℕ
  /-- How often `kmalloc` has returned NULL. -/
  denied : ℕ
  calls : ℕ → Progress
  /-- The bytes of the writes begun. -/
  started : List Bytes
  /-- The bytes delivered, with the calls they are delivered to and their positions. -/
  delivered : List (ℕ × ℕ × UInt8)

namespace Calls

/-- Nobody has begun; `heap` is what `kmalloc` will hand out. -/
def init (str : CArray PAGE_SIZE) (heap : ℕ → CArray (2 * PAGE_SIZE)) : Calls where
  str := str
  tmp := none
  buffers := heap
  allocated := 0
  denied := 0
  calls := fun _ => .idle
  started := []
  delivered := []

variable (s : Calls)

/-- A call has got to `p`. -/
def goTo (c : ℕ) (p : Progress) : Calls := { s with calls := Function.update s.calls c p }

/-- A write has begun with the bytes `user`. -/
def start (user : Bytes) : Calls := { s with started := user :: s.started }

/-- A buffer has been handed out. -/
def allocate : Calls := { s with allocated := s.allocated + 1 }

/-- There has been no memory for a buffer. -/
def deny : Calls := { s with denied := s.denied + 1 }

/-- `tmp` is let point to what `kmalloc` has returned. -/
def assign (tmp2 : Option ℕ) : Calls := { s with tmp := tmp2 }

/-- A byte of `str` is loaded. -/
def loadStr (i : ℕ) : Calls := { s with str := s.str.load i }

/-- A byte is stored to `str`. -/
def storeStr (i : ℕ) (b : UInt8) : Calls := { s with str := s.str.store i b }

/-- A byte is stored to a buffer. -/
def storeBuf (buf i : ℕ) (b : UInt8) : Calls :=
  { s with buffers := Function.update s.buffers buf ((s.buffers buf).store i b) }

/-- The byte of a buffer at the position `p` is delivered to the call `c`. -/
def deliver (c buf p : ℕ) : Calls :=
  { s with
    buffers := Function.update s.buffers buf ((s.buffers buf).load p)
    delivered := s.delivered ++ [(c, p, (s.buffers buf).get p)] }

/-- A call that goes on with the buffer `tmp` points to. -/
def findTmp (c : ℕ) (goOn : ℕ → Progress) : Calls :=
  s.goTo c (s.tmp.elim .oops goOn)

/-- The next step of a read. -/
def readNext (c : ℕ) (a : ReadArgs) : ReadStage → Calls
  | .assigning => (s.assign a.tmp2).goTo c (.reading a (.measuring 0))
  | .measuring k =>
    if s.str.get k = 0 then
      (s.loadStr k).goTo c (.reading a (.looping (ssizeT (sizeT (k - 1))) 0))
    else (s.loadStr k).goTo c (.reading a (.measuring (k + 1)))
  | .looping t i =>
    if 0 ≤ t then (s.loadStr t.toNat).goTo c (.reading a (.loaded t i (s.str.get t.toNat)))
    else s.findTmp c fun buf => .reading a (.ending i buf)
  | .loaded t i b => s.findTmp c fun buf => .reading a (.aimed t i b buf)
  | .aimed t i b buf => (s.storeBuf buf i b).goTo c (.reading a (.looping (t - 1) (i + 1)))
  | .ending i buf => (s.storeBuf buf i 0).goTo c (.reading a (.passing i))
  | .passing i =>
    -- From here on, it is `simple_read_from_buffer` that runs.
    if a.offs < 0 then s.goTo c (.reading a (.returned (-EINVAL)))
    else if (i : ℤ) ≤ a.offs ∨ a.size = 0 then s.goTo c (.reading a (.returned 0))
    else s.findTmp c fun buf =>
      .reading a (.delivering buf (min a.size (i - a.offs.toNat)) 0)
  | .delivering buf n k =>
    if k < n then
      (s.deliver c buf (a.offs.toNat + k)).goTo c (.reading a (.delivering buf n (k + 1)))
    else s.goTo c (.reading a (.returned n))
  | .returned _ => s

/-- The next step of a write. -/
def writeNext (c : ℕ) (user : Bytes) (offs : ℤ) : WriteStage → Calls
  | .copying k =>
    if k < user.length - offs.toNat then
      (s.storeStr (offs.toNat + k) (user.getD k 0)).goTo c (.writing user offs (.copying (k + 1)))
    else s.goTo c (.writing user offs (.terminating k))
  | .zeroing k passed =>
    if k < user.length - offs.toNat then
      (s.storeStr (offs.toNat + k) 0).goTo c (.writing user offs (.zeroing (k + 1) passed))
    else s.goTo c (.writing user offs (.terminating (if passed = 0 then -EFAULT else passed)))
  | .terminating r =>
    (s.storeStr (sizeT (user.length + 1)) 0).goTo c
      (.writing user offs (.returned (ssizeT (sizeT (r + 1)))))
  | .returned _ => s

/-- A step of a call. What it is not in a position to do does nothing. -/
def step : CallStep → Calls
  | .read c size offs =>
    match s.calls c with
    | .idle => s.allocate.goTo c (.reading ⟨size, offs, some s.allocated⟩ .assigning)
    | _ => s
  | .starved c size offs =>
    match s.calls c with
    | .idle => s.deny.goTo c (.reading ⟨size, offs, none⟩ .assigning)
    | _ => s
  | .write c user offs =>
    match s.calls c with
    | .idle =>
      if offs < 0 then (s.start user).goTo c (.writing user offs (.terminating (-EINVAL)))
      else if (user.length : ℤ) ≤ offs then
        (s.start user).goTo c (.writing user offs (.terminating 0))
      else (s.start user).goTo c (.writing user offs (.copying 0))
    | _ => s
  | .next c =>
    match s.calls c with
    | .reading a stage => s.readNext c a stage
    | .writing user offs stage => s.writeNext c user offs stage
    | _ => s
  | .fault c =>
    match s.calls c with
    | .reading a (.delivering _ n k) =>
      if k < n then s.goTo c (.reading a (.returned (if k = 0 then -EFAULT else k))) else s
    | .writing user offs (.copying k) =>
      if k < user.length - offs.toNat then s.goTo c (.writing user offs (.zeroing k k)) else s
    | _ => s

end Calls

/-- The calls taking their steps in some order. -/
def calls : Machine Calls CallStep Unit where
  step s e := (s.step e, ())

/-! ## Safety -/

/-- A byte that may be in the page: zero, or a byte of a write. -/
def Written (started : List Bytes) (b : UInt8) : Prop := b = 0 ∨ ∃ user ∈ started, b ∈ user

theorem Written.cons {started : List Bytes} {b : UInt8} (h : Written started b) (user : Bytes) :
    Written (user :: started) b :=
  h.imp_right fun ⟨u, hu, hb⟩ => ⟨u, List.mem_cons_of_mem _ hu, hb⟩

section Safety

/-- The counters of a read are inside of the arrays, and its buffer has been handed
    out. It has one if there has been memory for all of them. -/
def ReadStage.Sound (started : List Bytes) (allocated denied : ℕ) (tmp : Option ℕ)
    (a : ReadArgs) : ReadStage → Prop
  | assigning => (denied = 0 → a.tmp2 ≠ none) ∧ ∀ buf ∈ a.tmp2, buf < allocated
  | measuring k => (denied = 0 → tmp ≠ none) ∧ k < PAGE_SIZE
  | looping t i => (denied = 0 → tmp ≠ none) ∧ -1 ≤ t ∧ t + i + 1 < PAGE_SIZE
  | loaded t i b => (denied = 0 → tmp ≠ none) ∧ 0 ≤ t ∧ t + i + 1 < PAGE_SIZE ∧ Written started b
  | aimed t i b buf => (denied = 0 → tmp ≠ none) ∧ 0 ≤ t ∧ t + i + 1 < PAGE_SIZE ∧
      Written started b ∧ buf < allocated
  | ending i buf => (denied = 0 → tmp ≠ none) ∧ i < PAGE_SIZE ∧ buf < allocated
  | passing i => (denied = 0 → tmp ≠ none) ∧ i < PAGE_SIZE
  | delivering buf n _ => a.offs.toNat + n < PAGE_SIZE ∧ buf < allocated
  | returned _ => True

/-- A call does not leave the arrays, and a write leaves room. -/
def Progress.Sound (started : List Bytes) (allocated denied : ℕ) (tmp : Option ℕ) :
    Progress → Prop
  | idle => True
  | reading a stage => stage.Sound started allocated denied tmp a
  | writing user _ _ => user ∈ started ∧ user.length + 1 < PAGE_SIZE
  | oops => 0 < denied

variable {started started' : List Bytes} {allocated allocated' denied denied' : ℕ}
  {tmp tmp' : Option ℕ}

theorem ReadStage.Sound.mono {a : ReadArgs} {stage : ReadStage} (hstarted : started ⊆ started')
    (halloc : allocated ≤ allocated') (hdenied : denied' = 0 → denied = 0)
    (htmp : (denied = 0 → tmp ≠ none) → denied' = 0 → tmp' ≠ none)
    (h : stage.Sound started allocated denied tmp a) :
    stage.Sound started' allocated' denied' tmp' a := by
  have hwritten : ∀ b, Written started b → Written started' b := fun b hb =>
    hb.imp_right fun ⟨u, hu, hmem⟩ => ⟨u, hstarted hu, hmem⟩
  cases stage with
  | assigning =>
    exact ⟨fun hzero => h.1 (hdenied hzero), fun buf hbuf => (h.2 buf hbuf).trans_le halloc⟩
  | measuring k => exact h.imp_left htmp
  | looping t i => exact h.imp_left htmp
  | loaded t i b => exact ⟨htmp h.1, h.2.1, h.2.2.1, hwritten b h.2.2.2⟩
  | aimed t i b buf =>
    exact ⟨htmp h.1, h.2.1, h.2.2.1, hwritten b h.2.2.2.1, h.2.2.2.2.trans_le halloc⟩
  | ending i buf => exact ⟨htmp h.1, h.2.1, h.2.2.trans_le halloc⟩
  | passing i => exact h.imp_left htmp
  | delivering buf n k => exact h.imp_right fun hbuf => hbuf.trans_le halloc
  | returned result => trivial

theorem Progress.Sound.mono {p : Progress} (hstarted : started ⊆ started')
    (halloc : allocated ≤ allocated') (hdenied : denied' = 0 → denied = 0)
    (htmp : (denied = 0 → tmp ≠ none) → denied' = 0 → tmp' ≠ none)
    (h : p.Sound started allocated denied tmp) : p.Sound started' allocated' denied' tmp' := by
  cases p with
  | idle => trivial
  | reading a stage => exact ReadStage.Sound.mono hstarted halloc hdenied htmp h
  | writing user offs stage => exact h.imp_left fun hu => hstarted hu
  | oops => exact Nat.pos_of_ne_zero fun hzero => Nat.ne_of_gt h (hdenied hzero)

variable (heap : ℕ → CArray (2 * PAGE_SIZE))

/-- What may be at the position `p` of a buffer: a byte written, or one that a
    buffer held there as it was handed out. -/
def Held (started : List Bytes) (allocated p : ℕ) (b : UInt8) : Prop :=
  Written started b ∨ ∃ buf < allocated, (heap buf).cells[p]? = some b

variable {heap} in
theorem Held.cons {p : ℕ} {b : UInt8} (h : Held heap started allocated p b) (user : Bytes) :
    Held heap (user :: started) allocated p b := h.imp_left fun hw => hw.cons user

variable {heap} in
theorem Held.succ {p : ℕ} {b : UInt8} (h : Held heap started allocated p b) :
    Held heap started (allocated + 1) p b :=
  h.imp_right fun ⟨buf, hbuf, hb⟩ => ⟨buf, Nat.lt_succ_of_lt hbuf, hb⟩

/-- The arrays have only been accessed inside of their bounds, and no buffer before
    it has been handed out. The page ends with a NUL, and what is in the arrays
    and what has been delivered has been written or was there before. -/
structure Safe (s : Calls) : Prop where
  str : s.str.Inside
  nul : s.str.cells[PAGE_SIZE - 1]? = some 0
  page : ∀ (p : ℕ) b, s.str.cells[p]? = some b → Written s.started b
  buffers : ∀ buf, (s.buffers buf).Inside
  untouched : ∀ buf, s.allocated ≤ buf → s.buffers buf = heap buf
  held : ∀ buf < s.allocated, ∀ (p : ℕ) b, (s.buffers buf).cells[p]? = some b →
    Held heap s.started s.allocated p b
  delivered : ∀ c p b, (c, p, b) ∈ s.delivered → Held heap s.started s.allocated p b
  tmp : ∀ buf ∈ s.tmp, buf < s.allocated
  calls : ∀ c, (s.calls c).Sound s.started s.allocated s.denied s.tmp

namespace Safe

variable {heap} {s : Calls} (h : Safe heap s)

theorem init {str : CArray PAGE_SIZE} (hstr : str.Inside)
    (hpage : str.cells = List.replicate PAGE_SIZE 0) (hheap : ∀ buf, (heap buf).Inside) :
    Safe heap (.init str heap) where
  str := hstr
  nul := by
    simp only [Calls.init]
    rw [hpage, List.getElem?_replicate_of_lt (by decide)]
  page p b hb := by
    simp only [Calls.init] at hb
    rw [hpage] at hb
    exact .inl (List.eq_of_mem_replicate (List.mem_of_getElem? hb))
  buffers := hheap
  untouched _ _ := rfl
  held _ hbuf := absurd hbuf (Nat.not_lt_zero _)
  delivered _ _ _ hd := absurd hd List.not_mem_nil
  tmp _ hbuf := absurd hbuf.symm (Option.some_ne_none _)
  calls _ := trivial

include h

theorem goTo {c : ℕ} {p : Progress} (hp : p.Sound s.started s.allocated s.denied s.tmp) :
    Safe heap (s.goTo c p) :=
  { h with
    calls := (Function.forall_update_iff s.calls fun _ q =>
      q.Sound s.started s.allocated s.denied s.tmp).2 ⟨hp, fun d _ => h.calls d⟩ }

theorem start (user : Bytes) : Safe heap (s.start user) :=
  { h with
    page := fun p b hb => (h.page p b hb).cons user
    held := fun buf hbuf p b hb => (h.held buf hbuf p b hb).cons user
    delivered := fun c p b hd => (h.delivered c p b hd).cons user
    calls := fun c => (h.calls c).mono (List.subset_cons_self user s.started) le_rfl id id }

/-- A buffer is handed out with what it holds. -/
theorem allocate : Safe heap s.allocate :=
  { h with
    untouched := fun buf hbuf => h.untouched buf (Nat.le_of_succ_le hbuf)
    held := fun buf hbuf p b hb => by
      rcases Nat.lt_succ_iff_lt_or_eq.1 hbuf with hlt | rfl
      · exact (h.held buf hlt p b hb).succ
      · exact .inr ⟨s.allocated, hbuf, by rwa [← h.untouched s.allocated le_rfl]⟩
    delivered := fun c p b hd => (h.delivered c p b hd).succ
    tmp := fun buf hbuf => Nat.lt_succ_of_lt (h.tmp buf hbuf)
    calls := fun c => (h.calls c).mono (List.Subset.refl _) (Nat.le_succ _) id id }

theorem deny : Safe heap s.deny :=
  { h with
    calls := fun c => (h.calls c).mono (List.Subset.refl _) le_rfl
      (fun hzero => absurd hzero (Nat.succ_ne_zero _))
      fun _ hzero => absurd hzero (Nat.succ_ne_zero _) }

theorem assign {tmp2 : Option ℕ} (hnone : s.denied = 0 → tmp2 ≠ none)
    (hbuf : ∀ buf ∈ tmp2, buf < s.allocated) : Safe heap (s.assign tmp2) :=
  { h with
    tmp := hbuf
    calls := fun c => (h.calls c).mono (List.Subset.refl _) le_rfl id fun _ => hnone }

theorem loadStr {i : ℕ} (hi : i < PAGE_SIZE) : Safe heap (s.loadStr i) :=
  { h with str := (CArray.inside_load_iff s.str i).2 ⟨hi, h.str⟩ }

/-- Nothing but a NUL may be stored to the end of the page. -/
theorem storeStr {i : ℕ} (hi : i < PAGE_SIZE) {b : UInt8} (hb : Written s.started b)
    (hlast : i = PAGE_SIZE - 1 → b = 0) : Safe heap (s.storeStr i b) :=
  { h with
    str := (CArray.inside_store_iff s.str i b).2 ⟨hi, h.str⟩
    nul := by
      simp only [Calls.storeStr, CArray.cells_store]
      rw [List.getElem?_set]
      split_ifs with heq hlt
      · rw [hlast heq]
      · exact absurd (heq ▸ hi) (by rwa [s.str.length_cells, heq] at hlt)
      · exact h.nul
    page := fun p d hd => by
      simp only [Calls.storeStr, CArray.cells_store] at hd
      rw [List.getElem?_set] at hd
      split_ifs at hd with hip
      · exact Option.some.inj hd ▸ hb
      · exact h.page p d hd }

/-- A buffer that has been handed out may be accessed, if what it holds then may be there. -/
theorem updateBuf {buf : ℕ} (hbuf : buf < s.allocated) {a : CArray (2 * PAGE_SIZE)}
    (ha : a.Inside)
    (hheld : ∀ (p : ℕ) b, a.cells[p]? = some b → Held heap s.started s.allocated p b) :
    Safe heap { s with buffers := Function.update s.buffers buf a } :=
  { h with
    buffers := (Function.forall_update_iff s.buffers fun _ a => a.Inside).2
      ⟨ha, fun other _ => h.buffers other⟩
    untouched := fun other hother =>
      (Function.update_of_ne (Nat.ne_of_gt (hbuf.trans_le hother)) ..).trans
        (h.untouched other hother)
    held := (Function.forall_update_iff s.buffers fun other a => other < s.allocated →
        ∀ (p : ℕ) b, a.cells[p]? = some b → Held heap s.started s.allocated p b).2
      ⟨fun _ => hheld, fun other _ => h.held other⟩ }

theorem storeBuf {buf i : ℕ} (hbuf : buf < s.allocated) (hi : i < 2 * PAGE_SIZE) {b : UInt8}
    (hb : Written s.started b) : Safe heap (s.storeBuf buf i b) := by
  refine h.updateBuf hbuf ((CArray.inside_store_iff _ i b).2 ⟨hi, h.buffers buf⟩) ?_
  intro p d hd
  rw [CArray.cells_store, List.getElem?_set] at hd
  split_ifs at hd with hip
  · exact .inl (Option.some.inj hd ▸ hb)
  · exact h.held buf hbuf p d hd

theorem deliver {c buf p : ℕ} (hbuf : buf < s.allocated) (hp : p < 2 * PAGE_SIZE) :
    Safe heap (s.deliver c buf p) := by
  have hload := h.updateBuf hbuf ((CArray.inside_load_iff _ p).2 ⟨hp, h.buffers buf⟩)
    (h.held buf hbuf)
  refine { hload with delivered := fun d q b hd => ?_ }
  rcases List.mem_append.1 hd with hd | hd
  · exact h.delivered d q b hd
  · obtain ⟨rfl, rfl, rfl⟩ : d = c ∧ q = p ∧ b = (s.buffers buf).get p := by
      simpa using List.mem_singleton.1 hd
    have hlt : q < (s.buffers buf).cells.length := by rwa [CArray.length_cells]
    exact h.held buf hbuf q _ (by rw [CArray.get_of_lt hlt, List.getElem?_eq_getElem hlt])

/-- Where `tmp` points to a buffer, a call goes on with it. -/
theorem findTmp {c : ℕ} {goOn : ℕ → Progress} (htmp : s.denied = 0 → s.tmp ≠ none)
    (hgoOn : ∀ buf < s.allocated, (goOn buf).Sound s.started s.allocated s.denied s.tmp) :
    Safe heap (s.findTmp c goOn) := by
  rw [Calls.findTmp]
  cases hbuf : s.tmp with
  | none => exact h.goTo (Nat.pos_of_ne_zero fun hzero => htmp hzero hbuf)
  | some buf => exact h.goTo (hgoOn buf (h.tmp buf hbuf))

/-- The byte at an index of the page has been written. -/
theorem written_get {i : ℕ} (hi : i < PAGE_SIZE) : Written s.started (s.str.get i) := by
  have hlt : i < s.str.cells.length := by rwa [s.str.length_cells]
  exact h.page i _ (by rw [CArray.get_of_lt hlt, List.getElem?_eq_getElem hlt])

/-- A byte other than NUL is not at the end of the page. -/
theorem lt_of_get_ne {k : ℕ} (hk : k < PAGE_SIZE) (hne : s.str.get k ≠ 0) : k + 1 < PAGE_SIZE := by
  by_contra hlast
  obtain rfl : k = PAGE_SIZE - 1 := by omega
  rw [CArray.get, List.getD_eq_getElem?_getD, h.nul] at hne
  exact hne rfl

/-- No step of a read is unsafe. -/
theorem readNext (c : ℕ) {a : ReadArgs} {stage : ReadStage}
    (hs : stage.Sound s.started s.allocated s.denied s.tmp a) :
    Safe heap (s.readNext c a stage) := by
  have hpage : PAGE_SIZE = 4096 := rfl
  cases stage with
  | assigning => exact (h.assign hs.1 hs.2).goTo ⟨hs.1, by decide⟩
  | measuring k =>
    obtain ⟨htmp, hk⟩ := hs
    simp only [Calls.readNext]
    split_ifs with hnul
    · have ht : ssizeT (sizeT (k - 1)) = k - 1 := ssizeT_sizeT (by omega) (by omega)
      rw [ht]
      exact (h.loadStr hk).goTo ⟨htmp, by omega, by omega⟩
    · exact (h.loadStr hk).goTo ⟨htmp, h.lt_of_get_ne hk hnul⟩
  | looping t i =>
    obtain ⟨htmp, hlow, hhigh⟩ := hs
    simp only [Calls.readNext]
    split_ifs with ht
    · have hlt : t.toNat < PAGE_SIZE := by omega
      exact (h.loadStr hlt).goTo ⟨htmp, ht, hhigh, h.written_get hlt⟩
    · exact h.findTmp htmp fun buf hbuf => ⟨htmp, by omega, hbuf⟩
  | loaded t i b =>
    obtain ⟨htmp, hlow, hhigh, hb⟩ := hs
    exact h.findTmp htmp fun buf hbuf => ⟨htmp, hlow, hhigh, hb, hbuf⟩
  | aimed t i b buf =>
    obtain ⟨htmp, hlow, hhigh, hb, hbuf⟩ := hs
    exact (h.storeBuf hbuf (by omega) hb).goTo ⟨htmp, by omega, by omega⟩
  | ending i buf =>
    obtain ⟨htmp, hi, hbuf⟩ := hs
    exact (h.storeBuf hbuf (by omega) (.inl rfl)).goTo ⟨htmp, hi⟩
  | passing i =>
    obtain ⟨htmp, hi⟩ := hs
    simp only [Calls.readNext]
    split_ifs with hneg hend
    · exact h.goTo trivial
    · exact h.goTo trivial
    · refine h.findTmp htmp fun buf hbuf => ⟨?_, hbuf⟩
      omega
  | delivering buf n k =>
    obtain ⟨hn, hbuf⟩ := hs
    simp only [Calls.readNext]
    split_ifs with hk
    · exact (h.deliver hbuf (by omega)).goTo ⟨hn, hbuf⟩
    · exact h.goTo trivial
  | returned result => exact h

/-- Nor is one of a write that leaves room. -/
theorem writeNext (c : ℕ) {user : Bytes} (offs : ℤ) {stage : WriteStage}
    (hs : user ∈ s.started ∧ user.length + 1 < PAGE_SIZE) :
    Safe heap (s.writeNext c user offs stage) := by
  have hpage : PAGE_SIZE = 4096 := rfl
  have hroom := hs.2
  cases stage with
  | copying k =>
    simp only [Calls.writeNext]
    split_ifs with hk
    · have hlt : k < user.length := by omega
      have hb : Written s.started (user.getD k 0) := by
        rw [List.getD_eq_getElem?_getD, List.getElem?_eq_getElem hlt]
        exact .inr ⟨user, hs.1, List.getElem_mem hlt⟩
      exact (h.storeStr (by omega) hb fun hlast => by omega).goTo hs
    · exact h.goTo hs
  | zeroing k passed =>
    simp only [Calls.writeNext]
    split_ifs with hk
    · exact (h.storeStr (by omega) (.inl rfl) fun _ => rfl).goTo hs
    · exact h.goTo hs
    · exact h.goTo hs
  | terminating r =>
    have hidx : sizeT (user.length + 1) = user.length + 1 :=
      sizeT_of_lt (n := user.length + 1) (by omega)
    simp only [Calls.writeNext, hidx]
    exact (h.storeStr hroom (.inl rfl) fun _ => rfl).goTo hs
  | returned result => exact h

/-- No step of any call is unsafe, if a write that begins leaves room. -/
theorem step (e : CallStep)
    (hroom : ∀ c user offs, e = .write c user offs → user.length + 1 < PAGE_SIZE) :
    Safe heap (s.step e) := by
  cases e with
  | read c size offs =>
    simp only [Calls.step]
    cases hc : s.calls c with
    | idle =>
      refine h.allocate.goTo ⟨fun _ => Option.some_ne_none _, ?_⟩
      rintro buf ⟨⟩
      exact Nat.lt_succ_self s.allocated
    | _ => exact h
  | starved c size offs =>
    simp only [Calls.step]
    cases hc : s.calls c with
    | idle =>
      exact h.deny.goTo ⟨fun hzero => absurd hzero (Nat.succ_ne_zero _),
        fun _ hbuf => absurd hbuf.symm (Option.some_ne_none _)⟩
    | _ => exact h
  | write c user offs =>
    have hsound : user ∈ (s.start user).started ∧ user.length + 1 < PAGE_SIZE :=
      ⟨List.mem_cons_self, hroom c user offs rfl⟩
    simp only [Calls.step]
    cases hc : s.calls c with
    | idle =>
      dsimp only
      split_ifs with hneg hend
      · exact (h.start user).goTo hsound
      · exact (h.start user).goTo hsound
      · exact (h.start user).goTo hsound
    | _ => exact h
  | next c =>
    have hsound := h.calls c
    simp only [Calls.step]
    cases hc : s.calls c with
    | reading a stage =>
      rw [hc] at hsound
      exact h.readNext c hsound
    | writing user offs stage =>
      rw [hc] at hsound
      exact h.writeNext c offs hsound
    | _ => exact h
  | fault c =>
    have hsound := h.calls c
    simp only [Calls.step]
    cases hc : s.calls c with
    | reading a stage =>
      cases stage with
      | delivering buf n k =>
        dsimp only
        split_ifs
        · exact h.goTo trivial
        · exact h.goTo trivial
        · exact h
      | _ => exact h
    | writing user offs stage =>
      rw [hc] at hsound
      cases stage with
      | copying k =>
        dsimp only
        split_ifs
        · exact h.goTo hsound
        · exact h
      | _ => exact h
    | _ => exact h

end Safe

end Safety

/-- In whatever order any calls take their steps and wherever they fault, as long
    as every write leaves room for one byte more than it writes and a NUL: no
    access is out of bounds or to a buffer that has not been handed out, `tmp` is
    not used as NULL unless there has been no memory for some read, the page ends
    with a NUL, and every byte delivered for a position is zero, a byte of a
    write begun before, or what a buffer held at that position as it was handed
    out. -/
theorem calls_safe (heap : ℕ → CArray (2 * PAGE_SIZE)) (hheap : ∀ buf, (heap buf).Inside)
    (steps : List CallStep)
    (hroom : ∀ c user offs, .write c user offs ∈ steps → user.length + 1 < PAGE_SIZE) :
    let s := calls.state (.init (CArray.zeroed PAGE_SIZE) heap) steps
    (s.str.Inside ∧ ∀ buf, (s.buffers buf).Inside) ∧
      (∀ buf, s.allocated ≤ buf → s.buffers buf = heap buf) ∧
      (∀ c, s.calls c = .oops → 0 < s.denied) ∧
      s.str.cells[PAGE_SIZE - 1]? = some 0 ∧
      ∀ c p b, (c, p, b) ∈ s.delivered →
        b = 0 ∨ (∃ user ∈ s.started, b ∈ user) ∨
          ∃ buf < s.allocated, (heap buf).cells[p]? = some b := by
  have hinit : Safe heap (.init (CArray.zeroed PAGE_SIZE) heap) :=
    .init CArray.inside_zeroed rfl hheap
  have hok : ∀ e ∈ steps, ∀ c user offs, e = .write c user offs → user.length + 1 < PAGE_SIZE := by
    rintro _ he c user offs rfl
    exact hroom c user offs he
  have h : Safe heap (calls.state (.init (CArray.zeroed PAGE_SIZE) heap) steps) :=
    Machine.invariant (fun _ e he hs => hs.step e he) hok hinit
  refine ⟨⟨h.str, h.buffers⟩, h.untouched, fun c hc => ?_, h.nul, fun c p b hd => ?_⟩
  · have hsound := h.calls c
    rw [hc] at hsound
    exact hsound
  · exact or_assoc.1 (h.delivered c p b hd)

/-- While `ab` is written, a read begins, which delivers it reversed when the
    write is over. For another read, there is no memory. -/
def writtenAndRead : List CallStep :=
  [.write 0 [97, 98] 0, .next 0, .read 1 10 0, .next 1, .next 1, .next 0, .next 0, .next 0] ++
    List.replicate 13 (.next 1) ++ [.starved 2 10 0] ++ List.replicate 6 (.next 2)

theorem calls_safe_writtenAndRead :
    let s := calls.state (.init (CArray.zeroed PAGE_SIZE) fun _ => CArray.zeroed _) writtenAndRead
    (s.str.Inside ∧ ∀ buf, (s.buffers buf).Inside) ∧
      (∀ buf, 1 ≤ buf → s.buffers buf = CArray.zeroed _) ∧
      s.calls 2 = .oops ∧ 0 < s.denied ∧
      s.str.cells[PAGE_SIZE - 1]? = some 0 ∧
      ((98 : UInt8) = 0 ∨ (∃ user ∈ [[97, 98]], (98 : UInt8) ∈ user) ∨
        ∃ buf < 1, (CArray.zeroed (2 * PAGE_SIZE)).cells[0]? = some 98) := by
  have hroom : ∀ c user offs, .write c user offs ∈ writtenAndRead →
      user.length + 1 < PAGE_SIZE := by
    intro c user offs hmem
    simp only [writtenAndRead, List.mem_append, List.mem_cons, List.mem_replicate,
      CallStep.write.injEq, reduceCtorEq, List.not_mem_nil, or_false, and_false] at hmem
    rw [hmem.2.1]
    decide
  obtain ⟨hinside, huntouched, hoops, hnul, hdelivered⟩ :=
    calls_safe (fun _ => CArray.zeroed _) (fun _ => CArray.inside_zeroed) writtenAndRead hroom
  exact ⟨hinside, huntouched, rfl, hoops 2 rfl, hnul, hdelivered 1 0 98 List.mem_cons_self⟩

/-! ## Writes on their own -/

variable (K : Kernel)

theorem state_cons (s : Calls) (e : CallStep) (steps : List CallStep) :
    calls.state s (e :: steps) = calls.state (s.step e) steps := rfl

/-- A call that goes through `f`, storing one of the bytes `bs` at each of its
    steps, lays the first ones of them over the page. -/
theorem state_next_store {c : ℕ} (f : ℕ → Progress) (bs : Bytes) (pos : ℕ)
    (hfit : pos + bs.length ≤ PAGE_SIZE)
    (hstep : ∀ s : Calls, ∀ i b, s.calls c = f i → bs[i]? = some b →
      s.step (.next c) = (s.storeStr (pos + i) b).goTo c (f (i + 1)))
    {s : Calls} {i m : ℕ} (hc : s.calls c = f i) (hm : i + m ≤ bs.length) :
    let t := calls.state s (List.replicate m (.next c))
    t.str.cells = overlay s.str.cells (pos + i) (slice bs i m) ∧ t.calls c = f (i + m) := by
  induction m generalizing s i with
  | zero =>
    refine ⟨?_, hc⟩
    rw [slice, List.take_zero, overlay_nil]
    rfl
  | succ m ih =>
    have hi : i < bs.length := by omega
    have hb := List.getElem?_eq_getElem hi
    obtain ⟨hcells, hcall⟩ := ih (s := (s.storeStr (pos + i) bs[i]).goTo c (f (i + 1))) (i := i + 1)
      (Function.update_self ..) (by omega)
    rw [List.replicate_succ, state_cons, hstep s i bs[i] hc hb]
    refine ⟨?_, ?_⟩
    · rw [hcells, slice_succ hb]
      refine overlay_set ?_ _ _
      rw [s.str.length_cells]
      omega
    · rw [hcall]
      congr 1
      omega

theorem step_copying {s : Calls} {c i : ℕ} {user : Bytes} {offs : ℤ} {b : UInt8}
    (hc : s.calls c = .writing user offs (.copying i))
    (hb : (user.take (user.length - offs.toNat))[i]? = some b) :
    s.step (.next c) =
      (s.storeStr (offs.toNat + i) b).goTo c (.writing user offs (.copying (i + 1))) := by
  have hi : i < user.length - offs.toNat := by
    have hlt := (List.getElem?_eq_some_iff.1 hb).1
    rw [List.length_take] at hlt
    omega
  rw [List.getElem?_take_of_lt hi] at hb
  have hget : user.getD i 0 = b := by rw [List.getD_eq_getElem?_getD, hb]; rfl
  simp only [Calls.step, hc, Calls.writeNext, if_pos hi, hget]

/-- At the end of its copy, a write stores its NUL. -/
theorem state_terminating {s : Calls} {c : ℕ} {user : Bytes} {offs r : ℤ}
    (hc : s.calls c = .writing user offs (.terminating r)) :
    let t := s.step (.next c)
    t.str.cells = s.str.cells.set (sizeT (user.length + 1)) 0 ∧
      t.calls c = .writing user offs (.returned (ssizeT (sizeT (r + 1)))) := by
  simp only [Calls.step, hc, Calls.writeNext]
  exact ⟨rfl, Function.update_self ..⟩

/-- A write that is not interrupted does what a call does. -/
theorem write_alone {s : Calls} {c : ℕ} (hc : s.calls c = .idle) {user : Bytes}
    (hroom : user.length + 1 < PAGE_SIZE) {offs : ℤ} (hoffs : 0 ≤ offs) :
    let n := user.length - offs.toNat
    let t := calls.state s (.write c user offs :: List.replicate (n + 2) (.next c))
    let w := myfdWrite K .never s.str user offs
    t.str.cells = w.str.cells ∧ t.calls c = .writing user offs (.returned w.result) := by
  intro n t w
  have hn : min user.length (user.length - offs.toNat) = n := Nat.min_eq_right (Nat.sub_le _ _)
  have hw : w.str.cells =
      (overlay s.str.cells offs.toNat (user.take n)).set (sizeT (user.length + 1)) 0 ∧
      w.result = ssizeT (sizeT (n + 1)) := by
    simp only [w, myfdWrite, K.write_never hoffs, hn]
    exact ⟨rfl, trivial⟩
  have htwo : ∀ u : Calls, calls.state u (List.replicate 2 (.next c)) =
      (u.step (.next c)).step (.next c) := fun _ => rfl
  rw [hw.1, hw.2]
  by_cases hend : (user.length : ℤ) ≤ offs
  · -- There is nothing to copy.
    have hzero : n = 0 := by simp only [n]; omega
    have hstep : s.step (.write c user offs) =
        (s.start user).goTo c (.writing user offs (.terminating 0)) := by
      simp only [Calls.step, hc, if_neg (Int.not_lt.2 hoffs), if_pos hend]
    obtain ⟨hcells, hcall⟩ := state_terminating (s := (s.start user).goTo c _) (c := c)
      (Function.update_self ..)
    have ht : t = ((s.start user).goTo c (.writing user offs (.terminating 0))).step (.next c) := by
      simp only [t, hzero]
      rw [state_cons, hstep, Nat.zero_add, htwo]
      generalize Calls.step ((s.start user).goTo c _) _ = u at hcall
      simp only [Calls.step, hcall, Calls.writeNext]
    rw [ht, hzero, List.take_zero, overlay_nil]
    exact ⟨hcells, hcall⟩
  · have hstep : s.step (.write c user offs) =
        (s.start user).goTo c (.writing user offs (.copying 0)) := by
      simp only [Calls.step, hc, if_neg (Int.not_lt.2 hoffs), if_neg hend]
    have hlen : (user.take n).length = n := by rw [List.length_take]; omega
    obtain ⟨hcells, hcall⟩ := state_next_store (fun i => .writing user offs (.copying i))
      (user.take n) offs.toNat (by omega) (fun _ _ _ => step_copying)
      (s := (s.start user).goTo c (.writing user offs (.copying 0))) (i := 0) (m := n)
      (Function.update_self ..) (by omega)
    generalize hu : calls.state ((s.start user).goTo c (.writing user offs (.copying 0)))
      (List.replicate n (.next c)) = u at hcells hcall
    have hlast : u.step (.next c) = u.goTo c (.writing user offs (.terminating n)) := by
      rw [Nat.zero_add] at hcall
      simp only [Calls.step, hcall, Calls.writeNext]
      rw [if_neg (by simp only [n]; omega)]
    obtain ⟨hset, hdone⟩ := state_terminating (s := u.goTo c (.writing user offs (.terminating n)))
      (c := c) (Function.update_self ..)
    have ht : t = (u.goTo c (.writing user offs (.terminating n))).step (.next c) := by
      simp only [t]
      rw [state_cons, hstep, List.replicate_add, Machine.state_append, hu, htwo, hlast]
    rw [ht]
    refine ⟨hset.trans ?_, hdone⟩
    rw [Nat.add_zero, slice, List.drop_zero, List.take_take, Nat.min_self] at hcells
    exact congrArg (fun cells => cells.set (sizeT (user.length + 1)) 0) hcells

end LittlePenguin.Fix
