import Mathlib.Data.Multiset.AddSub
import Mathlib.Logic.Function.Basic

/-!
# Objects with counted references

A heap of objects each of which is freed with the last counted reference to it
(`RefCount`): an object is there as long as its count is positive. The heap knows
the counts only, not who holds the references. If it represents the references
that are held (`RefCount.Represents`), which each routine keeps up when it is
called for a reference taken or given back, then the objects that are there are
those to which a reference is held (`RefCount.Represents.object_iff`).
-/

namespace Lib

/-- A heap of objects in `α` at the pointers in `κ`. -/
structure RefCount (κ α : Type*) where
  object : κ → Option α
  /-- The number of references counted. -/
  count : κ → ℕ
  alive : ∀ k, object k ≠ none ↔ 0 < count k

namespace RefCount

variable {κ α : Type*} [DecidableEq κ] (h : RefCount κ α)

/-- No objects. -/
def empty : RefCount κ α where
  object _ := none
  count _ := 0
  alive _ := iff_of_false (fun hne => hne rfl) (Nat.lt_irrefl 0)

/-- A new object, with a reference to it. -/
def create (k : κ) (a : α) : RefCount κ α where
  object := Function.update h.object k (some a)
  count := Function.update h.count k 1
  alive k' := by
    by_cases hk : k' = k
    · rw [hk, Function.update_self, Function.update_self]
      exact iff_of_true (Option.some_ne_none a) Nat.one_pos
    · rw [Function.update_of_ne hk, Function.update_of_ne hk]
      exact h.alive k'

/-- One reference more to an object that is there. -/
def get (k : κ) : RefCount κ α where
  object := h.object
  count := Function.update h.count k (if 0 < h.count k then h.count k + 1 else 0)
  alive k' := by
    rw [h.alive k']
    by_cases hk : k' = k
    · rw [hk, Function.update_self]
      split_ifs with hpos
      · exact iff_of_true hpos (Nat.succ_pos _)
      · exact iff_of_false hpos (Nat.lt_irrefl 0)
    · rw [Function.update_of_ne hk]

/-- One reference less; the last one frees the object. -/
def put (k : κ) : RefCount κ α where
  object := Function.update h.object k (if h.count k ≤ 1 then none else h.object k)
  count := Function.update h.count k (h.count k - 1)
  alive k' := by
    by_cases hk : k' = k
    · rw [hk, Function.update_self, Function.update_self]
      split_ifs with hone
      · exact iff_of_false (fun hne => hne rfl) (by omega)
      · rw [h.alive k]
        omega
    · rw [Function.update_of_ne hk, Function.update_of_ne hk]
      exact h.alive k'

/-- The references held are `refs`. -/
def Represents (refs : Multiset κ) : Prop := ∀ k, h.count k = refs.count k

theorem represents_empty : (empty : RefCount κ α).Represents 0 := fun k =>
  (Multiset.count_zero k).symm

namespace Represents

variable {h} {refs : Multiset κ} (hr : h.Represents refs) {k : κ}

include hr

/-- The objects that are there are those to which a reference is held. -/
theorem object_iff (k : κ) : h.object k ≠ none ↔ k ∈ refs := by
  rw [h.alive, hr k, Multiset.count_pos]

theorem create (hk : k ∉ refs) (a : α) : (h.create k a).Represents (k ::ₘ refs) := by
  intro k'
  by_cases hne : k' = k
  · rw [hne, Multiset.count_cons_self, Multiset.count_eq_zero.2 hk]
    exact Function.update_self ..
  · rw [Multiset.count_cons_of_ne hne, ← hr k']
    exact Function.update_of_ne hne ..

theorem get (hk : k ∈ refs) : (h.get k).Represents (k ::ₘ refs) := by
  intro k'
  by_cases hne : k' = k
  · have hpos : 0 < h.count k := by rwa [hr k, Multiset.count_pos]
    rw [hne, Multiset.count_cons_self, ← hr k]
    exact (Function.update_self ..).trans (if_pos hpos)
  · rw [Multiset.count_cons_of_ne hne, ← hr k']
    exact Function.update_of_ne hne ..

theorem put (k : κ) : (h.put k).Represents (refs.erase k) := by
  intro k'
  by_cases hne : k' = k
  · rw [hne, Multiset.count_erase_self, ← hr k]
    exact Function.update_self ..
  · rw [Multiset.count_erase_of_ne hne, ← hr k']
    exact Function.update_of_ne hne ..

end Represents

end RefCount

end Lib
