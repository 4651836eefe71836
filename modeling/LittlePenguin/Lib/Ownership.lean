import Mathlib.Logic.Function.Basic

/-!
# Objects with owners

Memory that is allocated and freed by hand: objects at addresses, and owners each
of which is to free the object it has allocated. If every owner has a different
object, which is there, and every object has an owner (`Owns`), then nothing is
freed twice, nothing is used after it has been freed, and nothing is left behind.
Allocating, changing and freeing an object keep this up (`Owns.alloc`, `Owns.set`,
`Owns.free`).
-/

namespace Lib

/-- Objects in `α` at the addresses in `κ`. -/
abbrev Objects (κ α : Type*) := κ → Option α

variable {ι κ α : Type*}

/-- The owners have each an object of their own, or none, and all objects have one. -/
structure Owns (object : Objects κ α) (own : ι → Option κ) : Prop where
  live : ∀ {i k}, own i = some k → object k ≠ none
  unique : ∀ {i j k}, own i = some k → own j = some k → i = j
  owner : ∀ {k}, object k ≠ none → ∃ i, own i = some k

namespace Owns

/-- No objects, and nobody with one. -/
theorem empty : Owns (fun _ => none : Objects κ α) (fun _ : ι => none) where
  live h := absurd h.symm (Option.some_ne_none _)
  unique h := absurd h.symm (Option.some_ne_none _)
  owner h := absurd rfl h

variable {object : Objects κ α} {own : ι → Option κ} (h : Owns object own)

include h

theorem exists_object {i : ι} {k : κ} (hi : own i = some k) : ∃ a, object k = some a :=
  Option.ne_none_iff_exists'.1 (h.live hi)

theorem object_iff (k : κ) : object k ≠ none ↔ ∃ i, own i = some k :=
  ⟨h.owner, fun ⟨_, hi⟩ => h.live hi⟩

/-- With no owner left, there is no object left. -/
theorem eq_none (hown : ∀ i, own i = none) (k : κ) : object k = none := by
  by_contra hk
  obtain ⟨i, hi⟩ := h.owner hk
  exact Option.some_ne_none k (hi.symm.trans (hown i))

variable {i : ι} {k : κ}

/-- What another one owns is somewhere else. -/
theorem ne_of_own {j : ι} {k' : κ} (hi : own i = some k) (hj : own j = some k') (hij : j ≠ i) :
    k' ≠ k := by
  rintro rfl
  exact hij (h.unique hj hi)

variable [DecidableEq κ]

/-- What one does to its object leaves those of the others alone. -/
theorem update_of_own {j : ι} {k' : κ} (hi : own i = some k) (hij : j ≠ i)
    (hj : own j = some k') (a : Option α) : Function.update object k a k' = object k' :=
  Function.update_of_ne (h.ne_of_own hi hj hij) ..

/-- So does what happens where there is no object. -/
theorem update_of_none {k' : κ} (hk : object k = none) (hi : own i = some k') (a : Option α) :
    Function.update object k a k' = object k' := by
  refine Function.update_of_ne ?_ ..
  rintro rfl
  exact h.live hi hk

/-- An owner changes its object. -/
theorem set (hi : own i = some k) (a : α) : Owns (Function.update object k (some a)) own where
  live {j k'} hj := by
    by_cases hk' : k' = k
    · rw [hk', Function.update_self]
      exact Option.some_ne_none a
    · rw [Function.update_of_ne hk']
      exact h.live hj
  unique := h.unique
  owner {k'} hk' := by
    by_cases hkk : k' = k
    · exact ⟨i, hkk ▸ hi⟩
    · rw [Function.update_of_ne hkk] at hk'
      exact h.owner hk'

variable [DecidableEq ι]

omit [DecidableEq κ] in
theorem update_self {o : Option κ} (hi : own i = o) : Owns object (Function.update own i o) := by
  rwa [← hi, Function.update_eq_self]

/-- One that owns nothing gets a new object. -/
theorem alloc (hi : own i = none) (hk : object k = none) (a : α) :
    Owns (Function.update object k (some a)) (Function.update own i (some k)) where
  live {j k'} hj := by
    by_cases hk' : k' = k
    · rw [hk', Function.update_self]
      exact Option.some_ne_none a
    · rw [Function.update_of_ne hk']
      by_cases hji : j = i
      · rw [hji, Function.update_self] at hj
        exact absurd (Option.some.inj hj).symm hk'
      · rw [Function.update_of_ne hji] at hj
        exact h.live hj
  unique {j j' k'} hj hj' := by
    -- What was owned before is not at the new address.
    have hold : ∀ l, l ≠ i → Function.update own i (some k) l ≠ some k := by
      intro l hl hlk
      rw [Function.update_of_ne hl] at hlk
      exact h.live hlk hk
    by_cases hji : j = i <;> by_cases hji' : j' = i
    · rw [hji, hji']
    · rw [hji, Function.update_self] at hj
      exact absurd (hj ▸ hj') (hold j' hji')
    · rw [hji', Function.update_self] at hj'
      exact absurd (hj' ▸ hj) (hold j hji)
    · rw [Function.update_of_ne hji] at hj
      rw [Function.update_of_ne hji'] at hj'
      exact h.unique hj hj'
  owner {k'} hk' := by
    by_cases hkk : k' = k
    · exact ⟨i, by rw [hkk, Function.update_self]⟩
    · rw [Function.update_of_ne hkk] at hk'
      obtain ⟨j, hj⟩ := h.owner hk'
      have hji : j ≠ i := by
        rintro rfl
        exact Option.some_ne_none k' (hj.symm.trans hi)
      exact ⟨j, by rwa [Function.update_of_ne hji]⟩

/-- An owner frees its object. -/
theorem free (hi : own i = some k) :
    Owns (Function.update object k none) (Function.update own i none) where
  live {j k'} hj := by
    have hji : j ≠ i := by
      rintro rfl
      rw [Function.update_self] at hj
      exact Option.some_ne_none k' hj.symm
    rw [Function.update_of_ne hji] at hj
    rw [Function.update_of_ne (h.ne_of_own hi hj hji)]
    exact h.live hj
  unique {j j' k'} hj hj' := by
    by_cases hji : j = i
    · rw [hji, Function.update_self] at hj
      exact absurd hj.symm (Option.some_ne_none k')
    by_cases hji' : j' = i
    · rw [hji', Function.update_self] at hj'
      exact absurd hj'.symm (Option.some_ne_none k')
    rw [Function.update_of_ne hji] at hj
    rw [Function.update_of_ne hji'] at hj'
    exact h.unique hj hj'
  owner {k'} hk' := by
    have hkk : k' ≠ k := by
      rintro rfl
      exact hk' (Function.update_self ..)
    rw [Function.update_of_ne hkk] at hk'
    obtain ⟨j, hj⟩ := h.owner hk'
    have hji : j ≠ i := by
      rintro rfl
      exact hkk (Option.some.inj (hj.symm.trans hi))
    exact ⟨j, by rwa [Function.update_of_ne hji]⟩

end Owns

end Lib
