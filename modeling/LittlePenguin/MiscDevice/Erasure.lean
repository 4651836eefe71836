import LittlePenguin.MiscDevice.Writes
import Mathlib.Logic.Function.Basic

/-!
# Writes to the misc device that fail

A write that fails has left the position of its file and the buffer of its
caller alone, whether it is too long, is not copied in, does not match, or its
answer cannot be copied out. So it can be erased from any run of calls on any
open files, and no other call can tell (`failed_writes_erased`).
-/

namespace LittlePenguin.MiscDevice

open Lib

variable (K : Kernel)

/-- The device with all its open files, of which there are the positions. With
    the output of a call goes the position it leaves. -/
def device : Machine (ℕ → ℤ) (ℕ × Call) (Out × ℤ) where
  step offs c :=
    let (offp, out) := (file K).step (offs c.1) c.2
    (Function.update offs c.1 offp, out, offp)

/-- A write that returns an error. -/
def Out.failed : Out → Bool
  | .read _ _ => false
  | .write result _ => result < 0

/-- A write passes at least one byte. -/
def Call.NonEmpty : Call → Prop
  | .read _ _ => True
  | .write _ user => user ≠ []

variable {K} {env : WriteEnv} {user : Bytes} {offp : ℤ}

/-- A write that fails changes nothing. -/
theorem fortytwoWrite_of_neg (hne : user ≠ [])
    (hneg : (fortytwoWrite K env user offp).result < 0) :
    (fortytwoWrite K env user offp).user = user ∧ (fortytwoWrite K env user offp).offp = offp := by
  rcases Nat.lt_or_ge user.length 100 with hlen | hlen
  · rcases (env.copyIn.passed_le user.length).lt_or_eq with hf | hf
    · rw [fortytwoWrite_of_fault hlen hf]
      exact ⟨rfl, rfl⟩
    · have heval := @fortytwoWrite_evaluated K env user offp hne hlen hf
      split_ifs at heval with hl
      · rw [heval] at hneg ⊢
        obtain ⟨hbytes, hpos⟩ := K.read_of_neg (by decide) hneg
        dsimp only
        rw [hbytes, hpos]
        exact ⟨rfl, rfl⟩
      · rw [heval]
        exact ⟨rfl, rfl⟩
  · rw [fortytwoWrite_of_length_ge hlen]
    exact ⟨rfl, rfl⟩

/-- A write that fails leaves all positions as they were. -/
theorem device_idle (offs : ℕ → ℤ) {c : ℕ × Call} (hc : c.2.NonEmpty)
    (h : ((device K).step offs c).2.1.failed = true) : ((device K).step offs c).1 = offs := by
  obtain ⟨f, call⟩ := c
  cases call with
  | read fault count => exact absurd h Bool.false_ne_true
  | write env user =>
    have hneg : (fortytwoWrite K env user (offs f)).result < 0 := of_decide_eq_true h
    have hoffp := (fortytwoWrite_of_neg hc hneg).2
    exact (congrArg (Function.update offs f) hoffp).trans (Function.update_eq_self f offs)

variable (K)

/-- From any run of calls on any open files, the writes that fail can be erased:
    all the other calls return, deliver and leave what they did before. And each
    write erased has left the buffer of its caller unchanged. -/
theorem failed_writes_erased (offs : ℕ → ℤ) (calls : List (ℕ × Call))
    (hne : ∀ c ∈ calls, c.2.NonEmpty) :
    let run := (device K).trace offs calls
    let remaining := run.filter fun e => !e.2.1.failed
    (device K).trace offs (remaining.map Prod.fst) = remaining ∧
      (device K).state offs (remaining.map Prod.fst) = (device K).state offs calls ∧
      ∀ e ∈ run, ∀ env user result left, e.1.2 = .write env user → e.2.1 = .write result left →
        result < 0 → left = user := by
  intro run remaining
  obtain ⟨htrace, hstate⟩ := Machine.trace_filter (m := device K)
    (p := fun e => !e.2.1.failed) (s := offs)
    (fun s c hc hkeep => device_idle s hc (by simpa using hkeep)) hne
  refine ⟨htrace, hstate, ?_⟩
  refine Machine.forall_mem_trace (fun s c hc env user result left hcall hout hneg => ?_) hne
  obtain ⟨f, call⟩ := c
  obtain rfl : call = .write env user := hcall
  obtain ⟨rfl, rfl⟩ := Out.write.inj hout
  exact (fortytwoWrite_of_neg hc hneg).1

/-- From two reads with a write of `x` between them, the write is erased. -/
theorem failed_writes_erased_x :
    (device .reference).state (fun _ => 0) [(0, .read .never 3), (0, .read .never 3)] =
      (device .reference).state (fun _ => 0)
        [(0, .read .never 3), (0, .write .plain (ascii "x")), (0, .read .never 3)] :=
  (failed_writes_erased .reference (fun _ => 0)
    [(0, .read .never 3), (0, .write .plain (ascii "x")), (0, .read .never 3)]
    (by simp [Call.NonEmpty, ascii])).2.1

end LittlePenguin.MiscDevice
