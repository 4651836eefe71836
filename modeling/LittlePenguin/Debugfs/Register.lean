import LittlePenguin.Debugfs
import LittlePenguin.Lib.Machine

/-!
# A register of at most a page

What the file `foo` is for: it holds the value written last. That is a machine
with just this value as its state (`register`). The module keeps the value as a
number of bytes at the beginning of a page, on which older and longer values
have left their traces; called one whole call at a time, it answers like the
register (`foo_simulates`, `foo_outputs_eq`), and so a read serves the value
written last, and nothing else (`foo_last_write_wins`).
-/

namespace LittlePenguin.Debugfs

open Lib

variable (K : Kernel)

/-- A call on `foo`, by whichever open file, at the offset that file is at. -/
inductive FooCall
  | write (f : Fault) (user : Bytes)
  | read (f : Fault) (count : ℕ) (offp : ℤ)

/-- No copy faults, and the offset is none before the beginning. -/
def FooCall.Admissible : FooCall → Prop
  | write f _ => f = .never
  | read f _ offp => f = .never ∧ 0 ≤ offp

/-- What a call hands back. -/
inductive FooOut
  | write (result : ℤ)
  | read (reply : Reply)

/-- The file as the module implements it. -/
def foo : Machine Foo FooCall FooOut where
  step s c :=
    match c with
    | .write f user => ((fooWrite K f s user).2, .write (fooWrite K f s user).1)
    | .read f count offp => (s, .read (fooRead K f s count offp))

/-- After any calls, with whatever faults, the size does not exceed the page. -/
theorem fooSize_state_le (calls : List FooCall) :
    ((foo K).state Foo.init calls).fooSize ≤ PAGE_SIZE := by
  refine Machine.invariant (P := fun s : Foo => s.fooSize ≤ PAGE_SIZE) (fun s c (_ : True) h => ?_)
    (fun _ _ => trivial) (Nat.zero_le _)
  cases c with
  | write f user => exact fooSize_fooWrite_le K f h user
  | read f count offp => exact h

/-- The buffer of a write that is accepted. -/
def FooCall.accepted : FooCall → Option Bytes
  | write _ user => if user.length ≤ PAGE_SIZE then some user else none
  | read _ _ _ => none

/-- The value a run leaves: the buffer of its last accepted write, if any. -/
def lastWrite (calls : List FooCall) : Bytes := (calls.filterMap FooCall.accepted).getLastD []

/-- The file as it is meant: a register. -/
def register : Machine Bytes FooCall FooOut where
  step last c :=
    match c with
    | .write _ user =>
      if user.length ≤ PAGE_SIZE then (user, .write user.length) else (last, .write (-EINVAL))
    | .read _ count offp => (last, .read (Reply.ofSlice last offp count))

variable {last : Bytes} {f : Fault} {user : Bytes}

theorem register_write (h : user.length ≤ PAGE_SIZE) :
    register.step last (.write f user) = (user, .write user.length) := if_pos h

theorem register_write_refused (h : PAGE_SIZE < user.length) :
    register.step last (.write f user) = (last, .write (-EINVAL)) := if_neg (Nat.not_le.2 h)

/-- The register holds the value of the last accepted write. -/
theorem register_state (calls : List FooCall) :
    register.state last calls = (calls.filterMap FooCall.accepted).getLastD last := by
  induction calls generalizing last with
  | nil => rfl
  | cons c calls ih =>
    rw [Machine.state_cons, ih]
    cases c with
    | read f count offp => rfl
    | write f user =>
      rcases Nat.lt_or_ge PAGE_SIZE user.length with h | h
      · have hreject : FooCall.accepted (.write f user) = none := if_neg (Nat.not_le.2 h)
        rw [List.filterMap_cons_none hreject, register_write_refused h]
      · have haccept : FooCall.accepted (.write f user) = some user := if_pos h
        rw [List.filterMap_cons_some haccept, List.getLastD_cons, register_write h]

/-! ## The module as a register -/

/-- The page begins with the value, and the size is its length. -/
structure Holds (s : Foo) (last : Bytes) : Prop where
  size : s.fooSize = last.length
  value : s.fooData.cells.take s.fooSize = last
  fits : last.length ≤ PAGE_SIZE

theorem holds_init : Holds Foo.init [] := ⟨rfl, rfl, Nat.zero_le _⟩

/-- Holding a value, the module serves slices of it. -/
theorem Holds.fooRead {s : Foo} (h : Holds s last) (count : ℕ) {offp : ℤ}
    (hoffp : 0 ≤ offp) : fooRead K .never s count offp = Reply.ofSlice last offp count := by
  rw [fooRead_eq_deliver, Foo.deliver_eq K (h.size ▸ h.fits) count hoffp, h.value]

/-- After an accepted write, the module holds its buffer. -/
theorem holds_publish_copy (s : Foo) (h : user.length ≤ PAGE_SIZE) :
    Holds ((s.copy K user).publish user.length) user where
  size := rfl
  value := by
    rw [Foo.fooSize_publish, Foo.fooData_publish, Foo.cells_copy K h]
    exact List.take_left' rfl
  fits := h

theorem foo_write (s : Foo) (h : user.length ≤ PAGE_SIZE) :
    (foo K).step s (.write .never user) =
      ((s.copy K user).publish user.length, .write user.length) := by
  simp only [foo, fooWrite_eq_publish_copy K s h]

theorem foo_write_refused (s : Foo) (h : PAGE_SIZE < user.length) :
    (foo K).step s (.write f user) = (s, .write (-EINVAL)) := by
  simp only [foo, fooWrite_of_length_gt K h]

/-- Call by call, the module answers like the register. -/
theorem foo_simulates : (foo K).Simulates register FooCall.Admissible Holds where
  output {s last c} h hc := by
    cases c with
    | read f count offp =>
      obtain ⟨rfl, hoffp⟩ := hc
      exact congrArg FooOut.read (h.fooRead K count hoffp)
    | write f user =>
      obtain rfl : f = .never := hc
      rcases Nat.lt_or_ge PAGE_SIZE user.length with hlen | hlen
      · rw [register_write_refused hlen, foo_write_refused K s hlen]
      · rw [register_write hlen, foo_write K s hlen]
  state {s last c} h hc := by
    cases c with
    | read f count offp => exact h
    | write f user =>
      obtain rfl : f = .never := hc
      rcases Nat.lt_or_ge PAGE_SIZE user.length with hlen | hlen
      · rw [register_write_refused hlen, foo_write_refused K s hlen]
        exact h
      · rw [register_write hlen, foo_write K s hlen]
        exact holds_publish_copy K s hlen

/-- No run of calls can tell the module from the register. -/
theorem foo_outputs_eq {calls : List FooCall} (hok : ∀ c ∈ calls, c.Admissible) :
    (foo K).outputs Foo.init calls = register.outputs [] calls :=
  (foo_simulates K).outputs_eq holds_init hok

/-- After any run of calls, a read serves a slice of the value written last, and
    a write that does not fit is refused and changes no later output. -/
theorem foo_last_write_wins (calls : List FooCall) (hok : ∀ c ∈ calls, c.Admissible) :
    (∀ count offp, 0 ≤ offp →
        fooRead K .never ((foo K).state Foo.init calls) count offp =
          Reply.ofSlice (lastWrite calls) offp count) ∧
      ∀ user, PAGE_SIZE < user.length →
        ((foo K).step ((foo K).state Foo.init calls) (.write .never user)).2 = .write (-EINVAL) ∧
          ∀ later, (foo K).outputs ((foo K).state Foo.init (calls ++ [.write .never user])) later =
            (foo K).outputs ((foo K).state Foo.init calls) later := by
  have hholds : Holds ((foo K).state Foo.init calls) (lastWrite calls) := by
    have h := (foo_simulates K).related holds_init hok
    rwa [register_state] at h
  refine ⟨fun count offp hoffp => hholds.fooRead K count hoffp, fun user hlen => ?_⟩
  refine ⟨by rw [foo_write_refused K _ hlen], fun later => ?_⟩
  rw [Machine.state_append, Machine.state_cons, foo_write_refused K _ hlen, Machine.state_nil]

/-- Nothing of `abc` shows up behind `x`. -/
theorem foo_shrinks :
    fooRead .reference .never ((foo .reference).state Foo.init
      [.write .never (ascii "abc"), .write .never (ascii "x")]) 4096 0 = ⟨1, ascii "x", 1⟩ :=
  (foo_last_write_wins .reference [.write .never (ascii "abc"), .write .never (ascii "x")]
    (by simp [FooCall.Admissible])).1 4096 0 le_rfl

end LittlePenguin.Debugfs
