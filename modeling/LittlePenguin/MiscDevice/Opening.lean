import LittlePenguin.Kernel
import LittlePenguin.Lib.Machine
import Mathlib.Data.Finset.Basic
import Mathlib.Data.Finset.Range
import Mathlib.Logic.Function.Basic

/-!
# Opening the misc device

Every time `/dev/fortytwo` is opened, `fill_data` prints a string to the global
array `msg`, takes its length with `strlen`, and sets the globals `len` and
`size` from it. Nothing keeps two calls from doing so at the same time.

Here any number of calls take their steps in any order, storing and loading the
array byte by byte. As they all print the same string, none can take back what
another one has printed: the array, which has just the room for the string, is
accessed inside of its bounds, and as soon as any call has returned, the globals
are what `fill_data` is to set them to, and stay so (`fill_data_consistent`).
-/

namespace LittlePenguin.MiscDevice

open Lib

/-- A `size_t` as an `int`. -/
def toInt (n : ℕ) : ℤ := Int.bmod n (2 ^ 32)

/-- The string that `fill_data` prints. -/
def hello : Bytes := literal "hello\n"

/-- How far a call of `misc_open` has got. -/
inductive Filling
  /-- It has not begun. -/
  | idle
  /-- `sprintf` has yet to store the bytes at these positions. -/
  | printing (left : Finset ℕ)
  /-- `strlen` has got to the position `i`. -/
  | measuring (i : ℕ)
  /-- The length is set. -/
  | sizing
  /-- It has returned. -/
  | done

/-- The globals of the module, and the calls. -/
structure Globals where
  msg : CArray 7
  len : ℤ
  size : ℕ
  calls : ℕ → Filling

/-- A step of the call numbered `c`. -/
inductive FillStep
  | begin (c : ℕ)
  /-- The byte at a position is stored, in whichever order `sprintf` stores them. -/
  | print (c i : ℕ)
  | next (c : ℕ)

namespace Globals

/-- As the module is loaded, they are zero. -/
def init : Globals := ⟨CArray.zeroed 7, 0, 0, fun _ => .idle⟩

variable (s : Globals)

/-- A call has got to `p`. -/
def goTo (c : ℕ) (p : Filling) : Globals := { s with calls := Function.update s.calls c p }

/-- A step of a call. What it is not in a position to do does nothing. -/
def step : FillStep → Globals
  | .begin c =>
    match s.calls c with
    | .idle => s.goTo c (.printing (Finset.range hello.length))
    | _ => s
  | .print c i =>
    match s.calls c with
    | .printing left =>
      if i ∈ left then
        { s with msg := s.msg.store i (hello.getD i 0) }.goTo c (.printing (left.erase i))
      else s
    | _ => s
  | .next c =>
    match s.calls c with
    | .printing left => if left = ∅ then s.goTo c (.measuring 0) else s
    | .measuring i =>
      let t := { s with msg := s.msg.load i }
      if s.msg.get i = 0 then { t with len := toInt i }.goTo c .sizing
      else t.goTo c (.measuring (i + 1))
    | .sizing => { s with size := sizeT s.len }.goTo c .done
    | _ => s

end Globals

/-- The calls taking their steps in some order. -/
def filling : Machine Globals FillStep Unit where
  step s e := (s.step e, ())

/-- The bytes of the string are in the array but for those at the positions `left`. -/
def Printed (left : Finset ℕ) (cells : Bytes) : Prop :=
  ∀ i < hello.length, i ∉ left → cells[i]? = hello[i]?

/-- What a call can rely on that has got so far. -/
def Filling.Sound (s : Globals) : Filling → Prop
  | idle => True
  | printing left => left ⊆ Finset.range hello.length ∧ Printed left s.msg.cells
  | measuring i => i < hello.length ∧ Printed ∅ s.msg.cells
  | sizing => Printed ∅ s.msg.cells ∧ s.len = 6
  | done => Printed ∅ s.msg.cells ∧ s.len = 6 ∧ s.size = 6

/-- The array has only been accessed inside of its bounds, and what the calls rely on holds. -/
structure Filled (s : Globals) : Prop where
  inside : s.msg.Inside
  calls : ∀ c, (s.calls c).Sound s

theorem length_hello : hello.length = 7 := by decide

/-- All of the string is in the array. -/
theorem Printed.eq_hello {a : CArray 7} (h : Printed ∅ a.cells) : a.cells = hello := by
  refine List.ext_getElem? fun i => ?_
  rcases Nat.lt_or_ge i hello.length with hi | hi
  · exact h i hi (Finset.notMem_empty i)
  · rw [List.getElem?_eq_none hi, List.getElem?_eq_none (by rwa [a.length_cells, ← length_hello])]

/-- Storing a byte of the string takes nothing of it back. -/
theorem Printed.store {left left' : Finset ℕ} {a : CArray 7} (h : Printed left a.cells) {j : ℕ}
    (hj : j < hello.length) (hleft : left ⊆ insert j left') :
    Printed left' (a.store j (hello.getD j 0)).cells := by
  intro i hi hmem
  by_cases hij : j = i
  · subst hij
    have hlen : j < a.cells.length := by rwa [a.length_cells, ← length_hello]
    rw [CArray.cells_store, List.getElem?_set_self hlen, List.getD_eq_getElem?_getD,
      List.getElem?_eq_getElem hj, Option.getD_some]
  · rw [CArray.cells_store, List.getElem?_set_ne hij]
    refine h i hi fun hil => ?_
    rcases Finset.mem_insert.1 (hleft hil) with rfl | hil'
    · exact hij rfl
    · exact hmem hil'

/-- So the other calls can still rely on what they could. -/
theorem Filling.Sound.store {p : Filling} {s : Globals} (h : p.Sound s) {j : ℕ}
    (hj : j < hello.length) :
    p.Sound { s with msg := s.msg.store j (hello.getD j 0) } := by
  cases p with
  | idle => trivial
  | printing left => exact ⟨h.1, h.2.store hj (Finset.subset_insert j left)⟩
  | measuring i => exact ⟨h.1, h.2.store hj (Finset.subset_insert j ∅)⟩
  | sizing => exact ⟨h.1.store hj (Finset.subset_insert j ∅), h.2⟩
  | done => exact ⟨h.1.store hj (Finset.subset_insert j ∅), h.2⟩

theorem Filling.Sound.setLen {p : Filling} {s : Globals} (h : p.Sound s) :
    p.Sound { s with len := 6 } := by
  cases p with
  | idle => trivial
  | sizing => exact ⟨h.1, rfl⟩
  | done => exact ⟨h.1, rfl, h.2.2⟩
  | _ => exact h

theorem Filling.Sound.setSize {p : Filling} {s : Globals} (h : p.Sound s) :
    p.Sound { s with size := 6 } := by
  cases p with
  | idle => trivial
  | done => exact ⟨h.1, h.2.1, rfl⟩
  | _ => exact h

/-- `strlen` finds the NUL at the end of the string, and none before. -/
theorem Printed.get_eq_zero_iff {a : CArray 7} (h : Printed ∅ a.cells) {i : ℕ}
    (hi : i < hello.length) : a.get i = 0 ↔ i = 6 := by
  have hbytes : ∀ j, (hj : j < hello.length) → (hello[j] = 0 ↔ j = 6) := by decide
  have hlt : i < a.cells.length := by rwa [h.eq_hello]
  have hget : a.get i = hello[i] :=
    (CArray.get_of_lt hlt).trans (List.getElem_of_eq h.eq_hello hlt)
  rw [hget]
  exact hbytes i hi

namespace Filled

variable {s : Globals} (h : Filled s)

include h

/-- A call gets further. -/
theorem goTo {c : ℕ} {p : Filling} (hp : p.Sound s) : Filled (s.goTo c p) where
  inside := h.inside
  calls := (Function.forall_update_iff s.calls fun _ q => q.Sound s).2 ⟨hp, fun d _ => h.calls d⟩

/-- A byte of the string is stored. -/
theorem store {j : ℕ} (hj : j < hello.length) :
    Filled { s with msg := s.msg.store j (hello.getD j 0) } where
  inside := (CArray.inside_store_iff ..).2 ⟨length_hello ▸ hj, h.inside⟩
  calls c := (h.calls c).store hj

/-- A byte is loaded. -/
theorem load {i : ℕ} (hi : i < hello.length) : Filled { s with msg := s.msg.load i } where
  inside := (CArray.inside_load_iff ..).2 ⟨length_hello ▸ hi, h.inside⟩
  calls := h.calls

theorem setLen : Filled { s with len := 6 } := ⟨h.inside, fun c => (h.calls c).setLen⟩

theorem setSize : Filled { s with size := 6 } := ⟨h.inside, fun c => (h.calls c).setSize⟩

/-- A call that has got to `p` can rely on this. -/
theorem sound {c : ℕ} {p : Filling} (hc : s.calls c = p) : p.Sound s := hc ▸ h.calls c

/-- Every step keeps it. -/
theorem step (e : FillStep) : Filled (s.step e) := by
  cases e with
  | begin c =>
    simp only [Globals.step]
    cases hc : s.calls c with
    | idle =>
      exact h.goTo ⟨Finset.Subset.refl _, fun i hi hni => absurd (Finset.mem_range.2 hi) hni⟩
    | _ => exact h
  | print c i =>
    simp only [Globals.step]
    cases hc : s.calls c with
    | printing left =>
      obtain ⟨hrange, hprinted⟩ := h.sound hc
      dsimp only
      split_ifs with hi
      · have hlt := Finset.mem_range.1 (hrange hi)
        refine (h.store hlt).goTo ⟨(Finset.erase_subset i left).trans hrange, ?_⟩
        exact hprinted.store hlt (Finset.insert_erase hi).ge
      · exact h
    | _ => exact h
  | next c =>
    simp only [Globals.step]
    cases hc : s.calls c with
    | printing left =>
      obtain ⟨-, hprinted⟩ := h.sound hc
      dsimp only
      split_ifs with hleft
      · exact h.goTo ⟨by decide, hleft ▸ hprinted⟩
      · exact h
    | measuring i =>
      obtain ⟨hi, hprinted⟩ := h.sound hc
      have hzero := hprinted.get_eq_zero_iff hi
      dsimp only
      split_ifs with hnul
      · -- The length is what every call sets.
        obtain rfl := hzero.1 hnul
        exact (h.load hi).setLen.goTo ⟨hprinted, rfl⟩
      · have hne : i ≠ 6 := fun hi6 => hnul (hzero.2 hi6)
        rw [length_hello] at hi
        exact (h.load (by rwa [length_hello])).goTo ⟨by rw [length_hello]; omega, hprinted⟩
    | sizing =>
      obtain ⟨hprinted, hlen⟩ := h.sound hc
      have hsize : sizeT s.len = 6 := by rw [hlen]; decide
      dsimp only
      rw [hsize]
      exact h.setSize.goTo (p := .done) ⟨hprinted, hlen, rfl⟩
    | _ => exact h

end Filled

/-- Whatever the order in which any number of calls take their steps, the array
    is only accessed inside of its bounds; and once a call has returned, it holds
    the string, and the length and the size are those of the string. -/
theorem fill_data_consistent (steps : List FillStep) :
    let s := filling.state Globals.init steps
    s.msg.Inside ∧
      ∀ c, s.calls c = .done →
        s.msg.cells = hello ∧ s.len = strlen hello ∧ s.size = strlen hello := by
  intro s
  have h : Filled s :=
    Machine.invariant (P := Filled) (fun _ e (_ : True) hs => hs.step e) (fun _ _ => trivial)
      ⟨CArray.inside_zeroed, fun _ => trivial⟩
  refine ⟨h.inside, fun c hc => ?_⟩
  obtain ⟨hprinted, hlen, hsize⟩ := h.sound hc
  exact ⟨hprinted.eq_hello, hlen, hsize⟩

end LittlePenguin.MiscDevice
