import LittlePenguin.Debugfs.Bytewise
import LittlePenguin.Debugfs.Writes

/-!
# Calls of `foo` while writes are exclusive

The module leaves it to its users that no call goes on while `foo` is written
to. If they see to that, while reads may overlap as they like, then the copies
made byte by byte cannot be told from calls made as a whole: in the order in
which they return, the calls are answered as they are one after the other
(`exclusive_outputs_eq`), wherever they fault.

For this, the calls are watched (`Watched`): what they have asked for, what they
have been delivered, and what they have returned.
-/

namespace LittlePenguin.Debugfs

open Lib

/-- A write has begun, and not returned. -/
def Progress.Writing : Progress → Prop
  | copying _ _ => True
  | zeroing _ _ => True
  | _ => False

/-- A call has begun, and not returned. -/
def Progress.Active : Progress → Prop
  | idle => False
  | done _ => False
  | _ => True

/-- A write only begins while no call goes on, and a read only while no write does. -/
def Exclusive (s : Copying) : CopyStep → Prop
  | .write _ _ => ∀ d, ¬(s.calls d).Active
  | .read _ _ _ => ∀ d, ¬(s.calls d).Writing
  | _ => True

/-- The file and the calls on it, which are watched. -/
structure Watched where
  file : Copying
  /-- What a call has asked for, and where it has faulted. -/
  asked : ℕ → FooCall
  /-- The bytes delivered to a read. -/
  got : ℕ → Bytes
  /-- The calls that have returned, with their answers, the first one first. -/
  history : List (FooCall × FooOut)

namespace Watched

/-- Nobody has begun. -/
def init : Watched := ⟨Copying.init, fun _ => .read .never 0 0, fun _ => [], []⟩

variable (w : Watched)

/-- The file has taken a step. -/
def move (e : CopyStep) : Watched := { w with file := w.file.step e }

/-- A call has asked for `q`. -/
def ask (c : ℕ) (q : FooCall) : Watched := { w with asked := Function.update w.asked c q }

/-- A byte has been delivered to a call. -/
def hand (c : ℕ) (b : UInt8) : Watched :=
  { w with got := Function.update w.got c (w.got c ++ [b]) }

/-- What a call has been answered that has returned `result`. -/
def answer (c : ℕ) (result : ℤ) : FooOut :=
  match w.asked c with
  | .write _ _ => .write result
  | .read _ _ offp => .read ⟨result, w.got c, offp + (w.got c).length⟩

/-- If a call has returned, this is noted. -/
def note (c : ℕ) : Watched :=
  match w.file.calls c with
  | .done result => { w with history := w.history ++ [(w.asked c, w.answer c result)] }
  | _ => w

/-- A step of a call, watched. -/
def step (e : CopyStep) : Watched :=
  match e with
  | .write c user =>
    match w.file.calls c with
    | .idle => ((w.move e).ask c (.write .never user)).note c
    | _ => w
  | .read c count offp =>
    match w.file.calls c with
    | .idle => ((w.move e).ask c (.read .never count offp)).note c
    | _ => w
  | .next c =>
    match w.file.calls c with
    | .copying _ _ => (w.move e).note c
    | .zeroing _ _ => (w.move e).note c
    | .reading pos n i =>
      if i < n then (w.move e).hand c (w.file.foo.fooData.get (pos + i)) else (w.move e).note c
    | _ => w
  | .fault c =>
    match w.file.calls c with
    | .copying user i =>
      if i < user.length then (w.move e).ask c (.write (.after i) user) else w
    | .reading _ n i =>
      match w.asked c with
      | .read _ count offp =>
        if i < n then ((w.move e).ask c (.read (.after i) count offp)).note c else w
      | _ => (w.move e).note c
    | _ => w

end Watched

/-- The calls, watched. -/
def watched : Machine Watched CopyStep Unit where
  step w e := (w.step e, ())

@[simp] theorem Watched.file_move (w : Watched) (e : CopyStep) :
    (w.move e).file = w.file.step e := rfl

@[simp] theorem Watched.file_ask (w : Watched) (c : ℕ) (q : FooCall) :
    (w.ask c q).file = w.file := rfl

@[simp] theorem Watched.file_note (w : Watched) (c : ℕ) : (w.note c).file = w.file := by
  rw [Watched.note]
  split <;> rfl

/-- Watching does not change what the file does. -/
theorem file_step (w : Watched) (e : CopyStep) : (w.step e).file = w.file.step e := by
  cases e with
  | write c user =>
    simp only [Watched.step]
    cases hc : w.file.calls c <;> simp [Copying.step, hc]
  | read c count offp =>
    simp only [Watched.step]
    cases hc : w.file.calls c <;> simp [Copying.step, hc]
  | next c =>
    simp only [Watched.step]
    cases hc : w.file.calls c with
    | reading pos n i =>
      dsimp only
      split_ifs
      · rfl
      · simp
    | _ => simp [Copying.step, hc]
  | fault c =>
    simp only [Watched.step]
    cases hc : w.file.calls c with
    | copying user i =>
      dsimp only
      split_ifs with hi
      · rfl
      · simp only [Copying.step, hc, if_neg hi]
    | reading pos n i =>
      dsimp only
      split
      · split_ifs with hi
        · simp
        · simp only [Copying.step, hc, if_neg hi]
      · rw [Watched.file_note, Watched.file_move]
    | _ => simp [Copying.step, hc]

theorem file_state (w : Watched) (steps : List CopyStep) :
    (watched.state w steps).file = copying.state w.file steps := by
  induction steps generalizing w with
  | nil => rfl
  | cons e steps ih =>
    rw [Machine.state_cons, Machine.state_cons, ih]
    exact congrArg (copying.state · steps) (file_step w e)

/-! ## One call after the other -/

/-- How a call in progress stands to the file `t`, in which no call is in progress:
    with the page `cells`, a write has laid over a part of what it leaves, and a
    read has got a part of what it delivers. -/
def Progress.Agrees (t : Foo) (cells : Bytes) (asked : FooCall) (got : Bytes) : Progress → Prop
  | idle => got = []
  | copying user i => asked = .write .never user ∧ user.length ≤ PAGE_SIZE ∧
      cells = overlay t.fooData.cells 0 (user.take i)
  | zeroing user i => ∃ k, asked = .write (.after k) user ∧ user.length ≤ PAGE_SIZE ∧
      k < user.length ∧ k ≤ i ∧ cells = overlay t.fooData.cells 0 ((leftBy (.after k) user).take i)
  | reading pos n i => ∃ count offp, asked = .read .never count offp ∧ 0 ≤ offp ∧
      ¬((t.fooSize : ℤ) ≤ offp ∨ count = 0) ∧ pos = offp.toNat ∧
      n = min count (t.fooSize - pos) ∧ i ≤ n ∧ got = slice t.fooData.cells pos i
  | done _ => True

/-- The file stands to the calls in progress as `t` does without them. -/
structure InProgress (t : Foo) (w : Watched) : Prop where
  size : w.file.foo.fooSize = t.fooSize
  fits : t.fooSize ≤ PAGE_SIZE
  cells : (∀ c, ¬(w.file.calls c).Writing) → w.file.foo.fooData.cells = t.fooData.cells
  alone : ∀ c, (w.file.calls c).Writing → ∀ d, d ≠ c → ¬(w.file.calls d).Active
  calls : ∀ c, (w.file.calls c).Agrees t w.file.foo.fooData.cells (w.asked c) (w.got c)

theorem Progress.Writing.active {p : Progress} (h : p.Writing) : p.Active := by
  cases p with
  | copying => trivial
  | zeroing => trivial
  | _ => exact h.elim

/-- A call that is not in progress agrees with any file. -/
theorem Progress.Agrees.of_not_active {p : Progress} (hp : ¬p.Active) {t t' : Foo}
    {cells cells' got : Bytes} {asked : FooCall} (h : p.Agrees t cells asked got) :
    p.Agrees t' cells' asked got := by
  cases p with
  | idle => exact h
  | done => trivial
  | _ => exact absurd trivial hp

namespace InProgress

theorem init : InProgress Foo.init Watched.init where
  size := rfl
  fits := Nat.zero_le _
  cells _ := rfl
  alone _ h := h.elim
  calls _ := rfl

variable {t t' : Foo} {w w' : Watched} {c : ℕ} {p : Progress}

/-- How a call agrees that has got to `p`. -/
theorem of_call (h : InProgress t w) (hc : w.file.calls c = p) :
    p.Agrees t w.file.foo.fooData.cells (w.asked c) (w.got c) := hc ▸ h.calls c

/-- While a write is in progress, it is the only call. -/
theorem alone_of_call (h : InProgress t w) (hc : w.file.calls c = p) (hp : p.Writing) :
    ∀ d, d ≠ c → ¬(w.file.calls d).Active := h.alone c (hc ▸ hp)

/-- While a call reads, no write is in progress. -/
theorem not_writing (h : InProgress t w) (hc : w.file.calls c = p) (hp : p.Active)
    (hnot : ¬p.Writing) (d : ℕ) : ¬(w.file.calls d).Writing := by
  intro hd
  by_cases hdc : c = d
  · subst hdc
    exact hnot (hc ▸ hd)
  · exact h.alone d hd c hdc (hc ▸ hp)

/-- While no other call is in progress, all that counts is how the call agrees. -/
theorem only (h : InProgress t w) (hidle : ∀ d, d ≠ c → ¬(w.file.calls d).Active)
    (hcalls : w'.file.calls = Function.update w.file.calls c p)
    (hasked : ∀ d, d ≠ c → w'.asked d = w.asked d) (hgot : ∀ d, d ≠ c → w'.got d = w.got d)
    (hsize : w'.file.foo.fooSize = t'.fooSize) (hfits : t'.fooSize ≤ PAGE_SIZE)
    (hcells : ¬p.Writing → w'.file.foo.fooData.cells = t'.fooData.cells)
    (hp : p.Agrees t' w'.file.foo.fooData.cells (w'.asked c) (w'.got c)) : InProgress t' w' where
  size := hsize
  fits := hfits
  cells hnone := hcells fun hw => hnone c (by rwa [hcalls, Function.update_self])
  alone d hd e he := by
    have hdc : d = c := by
      by_contra hdc
      rw [hcalls, Function.update_of_ne hdc] at hd
      exact hidle d hdc hd.active
    subst hdc
    rw [hcalls, Function.update_of_ne he]
    exact hidle e he
  calls d := by
    by_cases hdc : d = c
    · subst hdc
      rwa [hcalls, Function.update_self]
    · rw [hcalls, Function.update_of_ne hdc, hasked d hdc, hgot d hdc]
      exact (h.calls d).of_not_active (hidle d hdc)

/-- While no write is in progress, the calls that read agree each on their own. -/
theorem reads (h : InProgress t w) (hnone : ∀ d, ¬(w.file.calls d).Writing) (hp : ¬p.Writing)
    (hcalls : w'.file.calls = Function.update w.file.calls c p)
    (hasked : ∀ d, d ≠ c → w'.asked d = w.asked d) (hgot : ∀ d, d ≠ c → w'.got d = w.got d)
    (hsize : w'.file.foo.fooSize = w.file.foo.fooSize)
    (hcells : w'.file.foo.fooData.cells = w.file.foo.fooData.cells)
    (hagrees : p.Agrees t w'.file.foo.fooData.cells (w'.asked c) (w'.got c)) : InProgress t w' where
  size := hsize.trans h.size
  fits := h.fits
  cells _ := hcells.trans (h.cells hnone)
  alone d hd := by
    by_cases hdc : d = c
    · subst hdc
      rw [hcalls, Function.update_self] at hd
      exact absurd hd hp
    · rw [hcalls, Function.update_of_ne hdc] at hd
      exact absurd hd (hnone d)
  calls d := by
    by_cases hdc : d = c
    · subst hdc
      rwa [hcalls, Function.update_self]
    · rw [hcalls, Function.update_of_ne hdc, hasked d hdc, hgot d hdc, hcells]
      exact h.calls d

end InProgress

variable (K : Kernel)

/-- The file after the calls that have returned, one after the other. -/
def Watched.returned (w : Watched) : Foo := (foo K).state Foo.init (w.history.map Prod.fst)

/-- The calls that have returned have been answered as they are one after the
    other, and those in progress agree with the file after these. -/
structure Linear (w : Watched) : Prop where
  outputs : (foo K).outputs Foo.init (w.history.map Prod.fst) = w.history.map Prod.snd
  agrees : InProgress (w.returned K) w

namespace Linear

theorem init : Linear K Watched.init := ⟨rfl, InProgress.init⟩

variable {K} {w w' : Watched} {c : ℕ}

/-- No call returns. -/
theorem goes (h : Linear K w) (hhistory : w'.history = w.history)
    (hagrees : InProgress (w.returned K) w') : Linear K w' where
  outputs := by rw [hhistory, h.outputs]
  agrees := by rwa [Watched.returned, hhistory]

/-- A call returns, as it does in the file that the calls before it have left. -/
theorem returns (h : Linear K w) (hhistory : w'.history = w.history) {result : ℤ}
    (hc : w'.file.calls c = .done result)
    (hanswer : ((foo K).step (w.returned K) (w'.asked c)).2 = w'.answer c result)
    (hagrees : InProgress ((foo K).step (w.returned K) (w'.asked c)).1 w') :
    Linear K (w'.note c) := by
  have hnote : w'.note c =
      { w' with history := w.history ++ [(w'.asked c, w'.answer c result)] } := by
    simp only [Watched.note, hc, hhistory]
  rw [hnote]
  constructor
  · rw [List.map_append, List.map_append, Machine.outputs_append, h.outputs, ← hanswer]
    rfl
  · rw [Watched.returned, List.map_append, Machine.state_append]
    exact ⟨hagrees.size, hagrees.fits, hagrees.cells, hagrees.alone, hagrees.calls⟩

end Linear

/-- Nothing is noted of a call that has not returned. -/
theorem Watched.note_of_ne {w : Watched} {c : ℕ} {p : Progress} (hc : w.file.calls c = p)
    (hp : ∀ result, p ≠ .done result) : w.note c = w := by
  rw [Watched.note]
  split
  · exact absurd (hc.symm.trans ‹_›) (hp _)
  · rfl

/-- What a read delivers that takes the size `n`, and `k` bytes of the page. -/
theorem fooRead_eq_slice {t : Foo} (hfits : t.fooSize ≤ PAGE_SIZE) (f : Fault) {count : ℕ}
    {offp : ℤ} (hoffp : 0 ≤ offp) (hend : ¬((t.fooSize : ℤ) ≤ offp ∨ count = 0)) :
    let k := f.passed (min count (t.fooSize - offp.toNat))
    fooRead K f t count offp =
      ⟨if k = 0 then -EFAULT else k, slice t.fooData.cells offp.toNat k, offp + k⟩ := by
  obtain ⟨hsize, hcount⟩ := not_or.1 hend
  refine K.read_some f count offp t.fooData.cells t.fooSize hoffp (by omega) (by omega) ?_
  rwa [t.fooData.length_cells]

/-! ## The steps of a write -/

namespace Linear

variable {K} {w : Watched} {c i : ℕ} {user : Bytes}

theorem write_refused (h : Linear K w) (hc : w.file.calls c = .idle)
    (hlen : PAGE_SIZE < user.length) (hidle : ∀ d, ¬(w.file.calls d).Active) :
    Linear K (w.step (.write c user)) := by
  have hstep : w.file.step (.write c user) = w.file.goTo c (.done (-EINVAL)) := by
    simp only [Copying.step, hc, if_pos hlen]
  have hwrite : fooWrite K .never (w.returned K) user = (-EINVAL, w.returned K) :=
    fooWrite_of_length_gt K hlen
  simp only [Watched.step, hc, Watched.move, hstep]
  refine h.returns rfl (Function.update_self ..) ?_ ?_
  · simp only [Watched.answer, Watched.ask, Function.update_self, foo, hwrite]
  · simp only [Watched.ask, Function.update_self, foo, hwrite]
    exact h.agrees.only (fun d _ => hidle d) rfl (fun d hd => Function.update_of_ne hd ..)
      (fun _ _ => rfl) h.agrees.size h.agrees.fits
      (fun _ => h.agrees.cells fun d hd => hidle d hd.active) trivial

theorem write_begins (h : Linear K w) (hc : w.file.calls c = .idle)
    (hlen : user.length ≤ PAGE_SIZE) (hidle : ∀ d, ¬(w.file.calls d).Active) :
    Linear K (w.step (.write c user)) := by
  simp only [Watched.step, hc, Watched.move, step_write hc hlen]
  rw [Watched.note_of_ne (Function.update_self ..) (fun _ => Progress.noConfusion)]
  refine h.goes rfl (h.agrees.only (fun d _ => hidle d) rfl
    (fun d hd => Function.update_of_ne hd ..) (fun _ _ => rfl) h.agrees.size h.agrees.fits
    (fun hp => absurd trivial hp) ⟨Function.update_self .., hlen, ?_⟩)
  rw [List.take_zero, overlay_nil]
  exact h.agrees.cells fun d hd => hidle d hd.active

/-- A write copies the next byte. -/
theorem write_copies (h : Linear K w) (hc : w.file.calls c = .copying user i) {b : UInt8}
    (hb : user[i]? = some b) : Linear K (w.step (.next c)) := by
  obtain ⟨hasked, hlen, hcells⟩ := h.agrees.of_call hc
  have hfits : user.length ≤ (w.returned K).fooData.cells.length := by
    rwa [CArray.length_cells]
  simp only [Watched.step, hc, Watched.move, step_copying hc hb]
  rw [Watched.note_of_ne (Function.update_self ..) (fun _ => Progress.noConfusion)]
  refine h.goes rfl (h.agrees.only (h.agrees.alone_of_call hc trivial) rfl (fun _ _ => rfl)
    (fun _ _ => rfl) h.agrees.size h.agrees.fits (fun hp => absurd trivial hp)
    ⟨hasked, hlen, ?_⟩)
  exact (congrArg (List.set · i b) hcells).trans (set_overlay_take hfits hb)

/-- A write has copied all bytes, and returns. -/
theorem write_returns (h : Linear K w) (hc : w.file.calls c = .copying user i)
    (hend : user.length ≤ i) : Linear K (w.step (.next c)) := by
  obtain ⟨hasked, hlen, hcells⟩ := h.agrees.of_call hc
  have hstep : w.file.step (.next c) =
      (w.file.publish user.length).goTo c (.done user.length) := by
    simp only [Copying.step, hc, List.getElem?_eq_none hend]
  have hwrite := fooWrite_eq_publish_copy K (w.returned K) hlen
  simp only [Watched.step, hc, Watched.move, hstep]
  refine h.returns rfl (Function.update_self ..) ?_ ?_
  · simp only [Watched.answer, hasked, foo, hwrite]
  · simp only [hasked, foo, hwrite]
    refine h.agrees.only (h.agrees.alone_of_call hc trivial) rfl (fun _ _ => rfl)
      (fun _ _ => rfl) rfl hlen (fun _ => ?_) trivial
    rw [Foo.fooData_publish, Foo.copy, K.copyFromUser_never]
    rw [List.take_of_length_le hend] at hcells
    exact hcells

/-- The copy of a write faults. -/
theorem write_faults (h : Linear K w) (hc : w.file.calls c = .copying user i)
    (hi : i < user.length) : Linear K (w.step (.fault c)) := by
  -- From now on, it counts as a call that faults after `i` bytes, which it has copied so far.
  obtain ⟨-, hlen, hcells⟩ := h.agrees.of_call hc
  have hstep : w.file.step (.fault c) = w.file.goTo c (.zeroing user i) := by
    simp only [Copying.step, hc, if_pos hi]
  have hpassed : (Fault.after i).passed user.length = i := Nat.min_eq_left hi.le
  have htake : (leftBy (.after i) user).take i = user.take i := by
    rw [leftBy, hpassed, List.take_left' (List.length_take_of_le hi.le)]
  simp only [Watched.step, hc, if_pos hi, Watched.move, hstep]
  exact h.goes rfl (h.agrees.only (h.agrees.alone_of_call hc trivial) rfl
    (fun d hd => Function.update_of_ne hd ..) (fun _ _ => rfl) h.agrees.size h.agrees.fits
    (fun hp => absurd trivial hp)
    ⟨i, Function.update_self .., hlen, hi, le_rfl, hcells.trans (by rw [htake])⟩)

/-- Behind the bytes that got through, there are zeroes. -/
theorem getElem?_leftBy {k : ℕ} (hk : k < user.length) (hki : k ≤ i) (hi : i < user.length) :
    (leftBy (.after k) user)[i]? = some 0 := by
  have hpassed : (Fault.after k).passed user.length = k := Nat.min_eq_left hk.le
  have htake : (user.take k).length = k := List.length_take_of_le hk.le
  rw [leftBy, hpassed, List.getElem?_append_right (by omega), htake, List.getElem?_replicate,
    if_pos (by omega)]

/-- A write zeroes the next byte. -/
theorem write_zeroes (h : Linear K w) (hc : w.file.calls c = .zeroing user i)
    (hi : i < user.length) : Linear K (w.step (.next c)) := by
  obtain ⟨k, hasked, hlen, hk, hki, hcells⟩ := h.agrees.of_call hc
  have hfits : (leftBy (.after k) user).length ≤ (w.returned K).fooData.cells.length := by
    rwa [length_leftBy, CArray.length_cells]
  simp only [Watched.step, hc, Watched.move, step_zeroing hc hi]
  rw [Watched.note_of_ne (Function.update_self ..) (fun _ => Progress.noConfusion)]
  refine h.goes rfl (h.agrees.only (h.agrees.alone_of_call hc trivial) rfl (fun _ _ => rfl)
    (fun _ _ => rfl) h.agrees.size h.agrees.fits (fun hp => absurd trivial hp)
    ⟨k, hasked, hlen, hk, hki.trans (Nat.le_succ i), ?_⟩)
  exact (congrArg (List.set · i 0) hcells).trans
    (set_overlay_take hfits (getElem?_leftBy hk hki hi))

/-- A write has zeroed the rest, and fails. -/
theorem write_fails (h : Linear K w) (hc : w.file.calls c = .zeroing user i)
    (hend : user.length ≤ i) : Linear K (w.step (.next c)) := by
  obtain ⟨k, hasked, hlen, hk, -, hcells⟩ := h.agrees.of_call hc
  have hstep : w.file.step (.next c) = w.file.goTo c (.done (-EFAULT)) := by
    simp only [Copying.step, hc, if_neg (Nat.not_lt.2 hend)]
  have hpassed : (Fault.after k).passed user.length < user.length := by
    rwa [Fault.passed, Nat.min_eq_left hk.le]
  have hwrite := fooWrite_of_fault K (s := w.returned K) hlen hpassed
  simp only [Watched.step, hc, Watched.move, hstep]
  refine h.returns rfl (Function.update_self ..) ?_ ?_
  · simp only [Watched.answer, hasked, foo, hwrite]
  · simp only [hasked, foo, hwrite]
    refine h.agrees.only (h.agrees.alone_of_call hc trivial) rfl (fun _ _ => rfl)
      (fun _ _ => rfl) h.agrees.size h.agrees.fits (fun _ => ?_) trivial
    rw [List.take_of_length_le (by rwa [length_leftBy])] at hcells
    exact hcells

/-! ## The steps of a read -/

variable {count pos n : ℕ} {offp : ℤ}

/-- A read returns at once, with nothing. -/
theorem read_refused (h : Linear K w) (hc : w.file.calls c = .idle)
    (hnone : ∀ d, ¬(w.file.calls d).Writing) {result : ℤ}
    (hstep : w.file.step (.read c count offp) = w.file.goTo c (.done result))
    (hread : fooRead K .never (w.returned K) count offp = ⟨result, [], offp⟩) :
    Linear K (w.step (.read c count offp)) := by
  have hgot : w.got c = [] := h.agrees.of_call hc
  simp only [Watched.step, hc, Watched.move, hstep]
  refine h.returns rfl (Function.update_self ..) ?_ ?_
  · simp only [Watched.answer, Watched.ask, Function.update_self, foo, hread, hgot,
      List.length_nil, Int.natCast_zero, Int.add_zero]
  · simp only [Watched.ask, Function.update_self, foo]
    exact h.agrees.reads hnone id rfl (fun d hd => Function.update_of_ne hd ..) (fun _ _ => rfl)
      rfl rfl trivial

/-- A read begins. -/
theorem read_begins (h : Linear K w) (hc : w.file.calls c = .idle)
    (hnone : ∀ d, ¬(w.file.calls d).Writing) (hoffp : 0 ≤ offp)
    (hend : ¬((w.file.foo.fooSize : ℤ) ≤ offp ∨ count = 0)) :
    Linear K (w.step (.read c count offp)) := by
  have hgot : w.got c = [] := h.agrees.of_call hc
  have hstep : w.file.step (.read c count offp) = w.file.goTo c
      (.reading offp.toNat (min count (w.file.foo.fooSize - offp.toNat)) 0) := by
    simp only [Copying.step, hc, if_neg (Int.not_lt.2 hoffp), if_neg hend]
  simp only [Watched.step, hc, Watched.move, hstep]
  rw [Watched.note_of_ne (Function.update_self ..) (fun _ => Progress.noConfusion)]
  rw [h.agrees.size] at hend
  refine h.goes rfl (h.agrees.reads hnone id rfl (fun d hd => Function.update_of_ne hd ..)
    (fun _ _ => rfl) rfl rfl
    ⟨count, offp, Function.update_self .., hoffp, hend, rfl, ?_, Nat.zero_le _, hgot⟩)
  rw [h.agrees.size]

/-- A read takes the next byte. -/
theorem read_takes (h : Linear K w) (hc : w.file.calls c = .reading pos n i) (hi : i < n) :
    Linear K (w.step (.next c)) := by
  obtain ⟨count, offp, hasked, hoffp, hend, hpos, hn, -, hgot⟩ := h.agrees.of_call hc
  have hnone := h.agrees.not_writing hc trivial id
  have hcells := h.agrees.cells hnone
  have hfits := h.agrees.fits
  have hstep : w.file.step (.next c) =
      (w.file.deliver (pos + i)).goTo c (.reading pos n (i + 1)) := by
    simp only [Copying.step, hc, if_pos hi]
  simp only [Watched.step, hc, if_pos hi, Watched.move, hstep]
  refine h.goes rfl (h.agrees.reads hnone id rfl (fun _ _ => rfl)
    (fun d hd => Function.update_of_ne hd ..) rfl rfl
    ⟨count, offp, hasked, hoffp, hend, hpos, hn, hi, ?_⟩)
  rw [← hcells] at hgot ⊢
  simp only [Watched.hand, Function.update_self]
  rw [hgot, CArray.slice_append_get _ (by omega)]

/-- A read that ends with `i` bytes answers what a call that faults there does. -/
theorem answer_read (h : Linear K w) (hc : w.file.calls c = .reading pos n i) (f : Fault)
    (hf : f.passed n = i) :
    ∃ count offp, w.asked c = .read .never count offp ∧
      fooRead K f (w.returned K) count offp =
        ⟨if i = 0 then -EFAULT else i, w.got c, offp + (w.got c).length⟩ := by
  obtain ⟨count, offp, hasked, hoffp, hend, rfl, hn, hi, hgot⟩ := h.agrees.of_call hc
  have hfits := h.agrees.fits
  have hlen : (w.got c).length = i := by
    rw [hgot, length_slice, CArray.length_cells]
    omega
  refine ⟨count, offp, hasked, ?_⟩
  rw [fooRead_eq_slice K hfits f hoffp hend, ← hn, hf, hlen, hgot]

/-- A read has got all bytes, and returns. -/
theorem read_returns (h : Linear K w) (hc : w.file.calls c = .reading pos n i) (hi : ¬i < n) :
    Linear K (w.step (.next c)) := by
  have hnone := h.agrees.not_writing hc trivial id
  obtain ⟨_, _, _, _, hend, rfl, hn, hin, -⟩ := h.agrees.of_call hc
  obtain rfl : i = n := by omega
  -- A read that has begun has something to deliver, so `0` is not an error here.
  obtain ⟨count, offp, hasked, hread⟩ := h.answer_read hc .never rfl
  have hstep : w.file.step (.next c) = w.file.goTo c (.done i) := by
    simp only [Copying.step, hc, if_neg hi]
  rw [if_neg (by omega)] at hread
  simp only [Watched.step, hc, if_neg hi, Watched.move, hstep]
  refine h.returns rfl (Function.update_self ..) ?_ ?_
  · simp only [Watched.answer, hasked, foo, hread]
  · simp only [hasked, foo]
    exact h.agrees.reads hnone id rfl (fun _ _ => rfl) (fun _ _ => rfl) rfl rfl trivial

/-- A read faults, and returns with what it has got. -/
theorem read_faults (h : Linear K w) (hc : w.file.calls c = .reading pos n i) (hi : i < n) :
    Linear K (w.step (.fault c)) := by
  have hnone := h.agrees.not_writing hc trivial id
  obtain ⟨count, offp, hasked, hread⟩ := h.answer_read hc (.after i) (Nat.min_eq_left hi.le)
  have hstep : w.file.step (.fault c) =
      w.file.goTo c (.done (if i = 0 then -EFAULT else i)) := by
    simp only [Copying.step, hc, if_pos hi]
  simp only [Watched.step, hc, hasked, if_pos hi, Watched.move, hstep]
  refine h.returns rfl (Function.update_self ..) ?_ ?_
  · simp only [Watched.answer, Watched.ask, Function.update_self, foo, hread]
  · simp only [Watched.ask, Function.update_self, foo]
    exact h.agrees.reads hnone id rfl (fun d hd => Function.update_of_ne hd ..) (fun _ _ => rfl)
      rfl rfl trivial

/-- Every step keeps it, if writes are exclusive. -/
theorem step (h : Linear K w) (e : CopyStep) (hex : Exclusive w.file e) : Linear K (w.step e) := by
  cases e with
  | write c user =>
    cases hc : w.file.calls c with
    | idle =>
      rcases Nat.lt_or_ge PAGE_SIZE user.length with hlen | hlen
      · exact h.write_refused hc hlen hex
      · exact h.write_begins hc hlen hex
    | _ => simpa only [Watched.step, hc] using h
  | read c count offp =>
    cases hc : w.file.calls c with
    | idle =>
      by_cases hneg : offp < 0
      · exact h.read_refused hc hex (by simp only [Copying.step, hc, if_pos hneg])
          (K.read_negative _ _ _ _ _ hneg)
      by_cases hend : (w.file.foo.fooSize : ℤ) ≤ offp ∨ count = 0
      · have hstep : w.file.step (.read c count offp) = w.file.goTo c (.done 0) := by
          simp only [Copying.step, hc, if_neg hneg, if_pos hend]
        rw [h.agrees.size] at hend
        exact h.read_refused hc hex hstep
          (K.read_nothing _ _ _ _ _ (Int.not_lt.1 hneg) hend)
      · exact h.read_begins hc hex (Int.not_lt.1 hneg) hend
    | _ => simpa only [Watched.step, hc] using h
  | next c =>
    cases hc : w.file.calls c with
    | copying user i =>
      rcases Nat.lt_or_ge i user.length with hi | hi
      · exact h.write_copies hc (List.getElem?_eq_getElem hi)
      · exact h.write_returns hc hi
    | zeroing user i =>
      rcases Nat.lt_or_ge i user.length with hi | hi
      · exact h.write_zeroes hc hi
      · exact h.write_fails hc hi
    | reading pos n i =>
      by_cases hi : i < n
      · exact h.read_takes hc hi
      · exact h.read_returns hc hi
    | _ => simpa only [Watched.step, hc] using h
  | fault c =>
    cases hc : w.file.calls c with
    | copying user i =>
      by_cases hi : i < user.length
      · exact h.write_faults hc hi
      · simpa only [Watched.step, hc, if_neg hi] using h
    | reading pos n i =>
      by_cases hi : i < n
      · exact h.read_faults hc hi
      · -- With nothing left to copy, nothing can fault.
        obtain ⟨count, offp, hasked, -⟩ := h.agrees.of_call hc
        simpa only [Watched.step, hc, hasked, if_neg hi] using h
    | _ => simpa only [Watched.step, hc] using h

end Linear

/-! ## The history -/

/-- The call that takes a step. -/
def CopyStep.call : CopyStep → ℕ
  | write c _ => c
  | read c _ _ => c
  | next c => c
  | fault c => c

/-- If the call has returned, it is in the history. -/
def Noted (w : Watched) (c : ℕ) : Prop :=
  ∀ result, w.file.calls c = .done result → (w.asked c, w.answer c result) ∈ w.history

/-- Of the other calls, nothing changes but that more is in the history. -/
structure Aside (w w' : Watched) (d : ℕ) : Prop where
  calls : w'.file.calls d = w.file.calls d
  asked : w'.asked d = w.asked d
  got : w'.got d = w.got d
  history : w.history ⊆ w'.history

theorem Noted.aside {w w' : Watched} {d : ℕ} (h : Noted w d) (ha : Aside w w' d) :
    Noted w' d := by
  intro result hd
  have hmem := h result (ha.calls ▸ hd)
  rw [Watched.answer, ha.asked, ha.got]
  exact ha.history hmem

/-- A step is one of a single call. -/
theorem calls_step_of_ne (s : Copying) {e : CopyStep} {d : ℕ} (hd : d ≠ e.call) :
    (s.step e).calls d = s.calls d := by
  have hgoTo : ∀ (t : Copying) p, t.calls = s.calls → (t.goTo e.call p).calls d = s.calls d :=
    fun t p ht => (Function.update_of_ne hd ..).trans (congrFun ht d)
  cases e
  all_goals
    simp only [Copying.step]
    repeat' split
    all_goals first | rfl | exact hgoTo _ _ rfl

section

variable {w w' : Watched} {c d : ℕ}

theorem Aside.refl (w : Watched) (d : ℕ) : Aside w w d := ⟨rfl, rfl, rfl, List.Subset.refl _⟩

theorem Aside.move {e : CopyStep} (hd : d ≠ e.call) : Aside w (w.move e) d :=
  ⟨calls_step_of_ne _ hd, rfl, rfl, List.Subset.refl _⟩

theorem Aside.ask (h : Aside w w' d) (hd : d ≠ c) (q : FooCall) : Aside w (w'.ask c q) d :=
  ⟨h.calls, (Function.update_of_ne hd ..).trans h.asked, h.got, h.history⟩

theorem Aside.hand (h : Aside w w' d) (hd : d ≠ c) (b : UInt8) : Aside w (w'.hand c b) d :=
  ⟨h.calls, h.asked, (Function.update_of_ne hd ..).trans h.got, h.history⟩

theorem Aside.note (h : Aside w w' d) (c : ℕ) : Aside w (w'.note c) d := by
  rw [Watched.note]
  split
  · exact ⟨h.calls, h.asked, h.got, List.subset_append_of_subset_left _ h.history⟩
  · exact h

/-- A step of one call lets the others aside. -/
theorem Aside.step (w : Watched) {e : CopyStep} (hd : d ≠ e.call) : Aside w (w.step e) d := by
  have hmove : Aside w (w.move e) d := Aside.move hd
  cases e with
  | write c user =>
    simp only [Watched.step]
    split
    · exact (hmove.ask hd _).note c
    · exact Aside.refl w d
  | read c count offp =>
    simp only [Watched.step]
    split
    · exact (hmove.ask hd _).note c
    · exact Aside.refl w d
  | next c =>
    simp only [Watched.step]
    split
    · exact hmove.note c
    · exact hmove.note c
    · split_ifs
      · exact hmove.hand hd _
      · exact hmove.note c
    · exact Aside.refl w d
  | fault c =>
    simp only [Watched.step]
    split
    · split_ifs
      · exact hmove.ask hd _
      · exact Aside.refl w d
    · split
      · split_ifs
        · exact (hmove.ask hd _).note c
        · exact Aside.refl w d
      · exact hmove.note c
    · exact Aside.refl w d

end

/-- Noting a call that has returned puts it in the history. -/
theorem noted_note (w : Watched) (c : ℕ) : Noted (w.note c) c := by
  intro result hc
  rw [Watched.file_note] at hc
  simp only [Watched.note, hc]
  exact List.mem_append_right _ List.mem_cons_self

theorem noted_of_ne {w : Watched} {c : ℕ} {p : Progress} (hc : w.file.calls c = p)
    (hp : ∀ result, p ≠ .done result) : Noted w c :=
  fun result hdone => absurd (hc.symm.trans hdone) (hp result)

/-- A call that returns is noted. -/
theorem Noted.step {w : Watched} (h : ∀ d, Noted w d) (e : CopyStep) (d : ℕ) :
    Noted (w.step e) d := by
  by_cases hd : d = e.call
  · subst hd
    cases e with
    | write c user =>
      simp only [Watched.step]
      split
      · exact noted_note _ c
      · exact h c
    | read c count offp =>
      simp only [Watched.step]
      split
      · exact noted_note _ c
      · exact h c
    | next c =>
      simp only [Watched.step]
      split
      · exact noted_note _ c
      · exact noted_note _ c
      · rename_i pos n i hc
        split_ifs with hi
        · have hcall : (w.file.step (.next c)).calls c = .reading pos n (i + 1) := by
            simp only [Copying.step, hc, if_pos hi]
            exact Function.update_self ..
          exact noted_of_ne hcall fun _ => Progress.noConfusion
        · exact noted_note _ c
      · exact h c
    | fault c =>
      simp only [Watched.step]
      split
      · rename_i user i hc
        split_ifs with hi
        · have hcall : (w.file.step (.fault c)).calls c = .zeroing user i := by
            simp only [Copying.step, hc, if_pos hi]
            exact Function.update_self ..
          exact noted_of_ne hcall fun _ => Progress.noConfusion
        · exact h c
      · split
        · split_ifs
          · exact noted_note _ c
          · exact h c
        · exact noted_note _ c
      · exact h c
  · exact (h d).aside (Aside.step w hd)

/-- What the calls have got is what the file has delivered, told apart by the calls. -/
def Watched.GotDelivered (w : Watched) : Prop :=
  ∃ log : List (ℕ × ℕ × UInt8), log.map Prod.snd = w.file.delivered ∧
    ∀ c, w.got c = (log.filter (·.1 = c)).map (·.2.2)

@[simp] theorem Watched.got_note (w : Watched) (c : ℕ) : (w.note c).got = w.got := by
  rw [Watched.note]
  split <;> rfl

/-- Only a read that takes a byte is delivered something, which it gets. -/
theorem got_step (w : Watched) (e : CopyStep) :
    ∃ new : List (ℕ × UInt8), (w.step e).file.delivered = w.file.delivered ++ new ∧
      ∀ c, (w.step e).got c = w.got c ++ if c = e.call then new.map Prod.snd else [] := by
  have hnothing : (w.file.step e).delivered = w.file.delivered → (w.step e).got = w.got →
      ∃ new : List (ℕ × UInt8), (w.step e).file.delivered = w.file.delivered ++ new ∧
        ∀ c, (w.step e).got c = w.got c ++ if c = e.call then new.map Prod.snd else [] := by
    intro hdelivered hgot
    refine ⟨[], ?_, fun c => ?_⟩
    · rw [file_step, hdelivered, List.append_nil]
    · rw [hgot, List.map_nil, ite_self, List.append_nil]
  cases e with
  | write c user =>
    refine hnothing ?_ ?_
    · simp only [Copying.step]
      repeat' split
      all_goals rfl
    · simp only [Watched.step]
      split
      · exact Watched.got_note _ c
      · rfl
  | read c count offp =>
    refine hnothing ?_ ?_
    · simp only [Copying.step]
      repeat' split
      all_goals rfl
    · simp only [Watched.step]
      split
      · exact Watched.got_note _ c
      · rfl
  | next c =>
    cases hc : w.file.calls c with
    | reading pos n i =>
      by_cases hi : i < n
      · refine ⟨[(pos + i, w.file.foo.fooData.get (pos + i))], ?_, fun d => ?_⟩
        · rw [file_step]
          simp only [Copying.step, hc, if_pos hi]
          rfl
        · simp only [Watched.step, hc, if_pos hi]
          by_cases hd : d = (CopyStep.next c).call
          · rw [if_pos hd, hd]
            exact Function.update_self ..
          · rw [if_neg hd, List.append_nil]
            exact Function.update_of_ne hd ..
      · refine hnothing ?_ ?_
        · simp only [Copying.step, hc, if_neg hi]
          rfl
        · simp only [Watched.step, hc, if_neg hi]
          exact Watched.got_note _ c
    | copying user i =>
      refine hnothing ?_ ?_
      · simp only [Copying.step, hc]
        split <;> rfl
      · simp only [Watched.step, hc]
        exact Watched.got_note _ c
    | zeroing user i =>
      refine hnothing ?_ ?_
      · simp only [Copying.step, hc]
        split <;> rfl
      · simp only [Watched.step, hc]
        exact Watched.got_note _ c
    | _ => exact hnothing (by simp only [Copying.step, hc]) (by simp only [Watched.step, hc])
  | fault c =>
    refine hnothing ?_ ?_
    · simp only [Copying.step]
      repeat' split
      all_goals rfl
    · simp only [Watched.step]
      repeat' split
      all_goals first | rfl | exact Watched.got_note _ c

/-- With every step, what is delivered goes to the call that takes it. -/
theorem Watched.GotDelivered.step {w : Watched} (h : w.GotDelivered) (e : CopyStep) :
    (w.step e).GotDelivered := by
  obtain ⟨log, hdelivered, hgot⟩ := h
  obtain ⟨new, hnew, hstep⟩ := got_step w e
  refine ⟨log ++ new.map (e.call, ·), ?_, fun c => ?_⟩
  · rw [List.map_append, hdelivered, hnew, List.map_map]
    exact congrArg _ (List.map_id new)
  · rw [hstep, hgot, List.filter_append, List.map_append]
    refine congrArg _ ?_
    by_cases hc : c = e.call
    · have hall : (new.map (e.call, ·)).filter (·.1 = c) = new.map (e.call, ·) := by
        refine List.filter_eq_self.2 fun r hr => ?_
        obtain ⟨_, _, rfl⟩ := List.mem_map.1 hr
        exact decide_eq_true hc.symm
      rw [if_pos hc, hall, List.map_map]
      rfl
    · have hnone : (new.map (e.call, ·)).filter (·.1 = c) = [] := by
        refine List.filter_eq_nil_iff.2 fun r hr heq => ?_
        obtain ⟨_, _, rfl⟩ := List.mem_map.1 hr
        exact hc (of_decide_eq_true heq).symm
      rw [if_neg hc, hnone]
      rfl

/-- Writes that are exclusive in the file are so in the watched file. -/
theorem along_watched {w : Watched} {steps : List CopyStep}
    (h : copying.Along Exclusive w.file steps) :
    watched.Along (fun u e => Exclusive u.file e) w steps := by
  induction steps generalizing w with
  | nil => trivial
  | cons e steps ih =>
    refine ⟨h.1, ih ?_⟩
    have hfile : (watched.step w e).1.file = w.file.step e := file_step w e
    rw [hfile]
    exact h.2

/-- While writes are exclusive, calls that copy byte by byte, interrupted by
    reads and by faults anywhere, are answered as they are one after the other in
    the order in which they return; and with no write in progress, the file is as
    these calls leave it. What the calls have got is what has been delivered. -/
theorem exclusive_outputs_eq (steps : List CopyStep)
    (h : copying.Along Exclusive Copying.init steps) :
    let w := watched.state Watched.init steps
    let t := (foo K).state Foo.init (w.history.map Prod.fst)
    w.file = copying.state Copying.init steps ∧
      (∀ c result, w.file.calls c = .done result →
        (w.asked c, w.answer c result) ∈ w.history) ∧
      (foo K).outputs Foo.init (w.history.map Prod.fst) = w.history.map Prod.snd ∧
      ((∀ c, ¬(w.file.calls c).Writing) →
        w.file.foo.fooSize = t.fooSize ∧ w.file.foo.fooData.cells = t.fooData.cells) ∧
      w.GotDelivered := by
  intro w t
  have hlinear : Linear K w :=
    (along_watched (w := Watched.init) h).invariant (fun _ e hex hl => hl.step e hex)
      (Linear.init K)
  have hnoted : ∀ c, Noted w c :=
    Machine.invariant (P := fun u : Watched => ∀ c, Noted u c)
      (fun _ e (_ : True) hn => Noted.step hn e) (fun _ _ => trivial)
      (fun c => noted_of_ne (c := c) rfl fun _ => Progress.noConfusion)
  have hgot : w.GotDelivered :=
    Machine.invariant (P := Watched.GotDelivered) (fun _ e (_ : True) hg => hg.step e)
      (fun _ _ => trivial) ⟨[], rfl, fun _ => rfl⟩
  exact ⟨file_state Watched.init steps, hnoted, hlinear.outputs,
    fun hnone => ⟨hlinear.agrees.size, hlinear.agrees.cells hnone⟩, hgot⟩

/-- A write of `ab`, and two reads of it at the same time, one of which faults
    after the first byte. -/
def twoReads : List CopyStep :=
  [.write 0 (ascii "ab"), .next 0, .next 0, .next 0, .read 1 9 0, .read 2 9 0, .next 2, .next 1,
    .next 1, .fault 2, .next 1]

theorem along_twoReads : copying.Along Exclusive Copying.init twoReads := by
  have hone : ∀ d, ¬((copying.state Copying.init (twoReads.take 4)).calls d).Writing
    | 0 => id
    | _ + 1 => id
  have htwo : ∀ d, ¬((copying.state Copying.init (twoReads.take 5)).calls d).Writing
    | 0 => id
    | 1 => id
    | _ + 2 => id
  exact ⟨fun _ => id, trivial, trivial, trivial, hone, htwo, trivial, trivial, trivial, trivial,
    trivial, trivial⟩

theorem exclusive_outputs_eq_twoReads :
    (watched.state Watched.init twoReads).history.map Prod.snd =
        [.write 2, .read ⟨1, ascii "a", 1⟩, .read ⟨2, ascii "ab", 2⟩] ∧
      (foo .reference).outputs Foo.init
          ((watched.state Watched.init twoReads).history.map Prod.fst) =
        [.write 2, .read ⟨1, ascii "a", 1⟩, .read ⟨2, ascii "ab", 2⟩] :=
  ⟨rfl, (exclusive_outputs_eq .reference twoReads along_twoReads).2.2.1⟩

end LittlePenguin.Debugfs
