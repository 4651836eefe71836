import Mathlib.Data.List.Induction

/-!
# Trees of files

A tree of directories and files is what there is at every path, a path being the
names from the root down. It is closed (`FileTree.closed`): what has an entry
lies in the root, or in a directory that has one. An entry is added under a name
that is free in its directory (`FileTree.add`), and is removed with all that is
below it (`FileTree.remove`). Whatever has been added at or below a path where
there was nothing, removing the path leaves the tree as it was before
(`FileTree.remove_eq`).
-/

namespace Lib

/-- The names from the root down. -/
abbrev Path := List String

/-- An entry, with files in `α`. -/
inductive Node (α : Type*)
  | dir
  | file (a : α)
  deriving DecidableEq

/-- A tree with files in `α`. -/
@[ext] structure FileTree (α : Type*) where
  /-- What there is at a path below the root. -/
  entry : Path → Option (Node α)
  closed : ∀ p name, entry (p ++ [name]) ≠ none → p = [] ∨ entry p = some .dir

namespace FileTree

variable {α : Type*} (t : FileTree α)

/-- The name is free in the directory `p`. -/
def Free (p : Path) (name : String) : Prop :=
  (p = [] ∨ t.entry p = some .dir) ∧ t.entry (p ++ [name]) = none

instance [DecidableEq α] (p : Path) (name : String) : Decidable (t.Free p name) :=
  inferInstanceAs (Decidable (_ ∧ _))

/-- In the root, a name is free if there is no entry with it. -/
theorem free_nil_iff (name : String) : t.Free [] name ↔ t.entry [name] = none :=
  and_iff_right (.inl rfl)

/-- The tree with a single directory, in the root. -/
def singleton (name : String) : FileTree α where
  entry p := if p = [name] then some .dir else none
  closed p n h := by
    by_cases hp : p ++ [n] = [name]
    · have hnil : p ++ [n] = [] ++ [name] := hp
      exact .inl (List.append_inj_left' hnil rfl)
    · rw [if_neg hp] at h
      exact absurd rfl h

variable {t}

/-- The tree with an entry added under a free name. -/
def add {p : Path} {name : String} (h : t.Free p name) (node : Node α) : FileTree α where
  entry q := if q = p ++ [name] then some node else t.entry q
  closed q n hq := by
    -- A directory there has been is not the one added.
    have hkeep : t.entry q = some .dir →
        (if q = p ++ [name] then some node else t.entry q) = some .dir := by
      intro hdir
      rw [if_neg, hdir]
      rintro rfl
      rw [h.2] at hdir
      exact Option.some_ne_none _ hdir.symm
    by_cases hnew : q ++ [n] = p ++ [name]
    · obtain rfl := List.append_inj_left' hnew rfl
      exact h.1.imp_right hkeep
    · rw [if_neg hnew] at hq
      exact (t.closed q n hq).imp_right hkeep

theorem entry_add_of_ne {p q : Path} {name : String} (h : t.Free p name) (node : Node α)
    (hq : q ≠ p ++ [name]) : (add h node).entry q = t.entry q := if_neg hq

variable (t)

/-- The tree without the entry at `p` and all below it. -/
def remove (p : Path) : FileTree α where
  entry q := if p <+: q then none else t.entry q
  closed q n hq := by
    by_cases hbelow : p <+: q ++ [n]
    · rw [if_pos hbelow] at hq
      exact absurd rfl hq
    · rw [if_neg hbelow] at hq
      refine (t.closed q n hq).imp_right fun hdir => ?_
      rw [if_neg, hdir]
      exact fun h => hbelow (h.trans (List.prefix_append q [n]))

variable {t}

/-- Below a path with no entry there is none. -/
theorem entry_eq_none_below {p q : Path} (hp : p ≠ []) (h : t.entry p = none) (hq : p <+: q) :
    t.entry q = none := by
  obtain ⟨r, rfl⟩ := hq
  induction r using List.reverseRecOn with
  | nil => rwa [List.append_nil]
  | append_singleton r name ih =>
    by_contra hne
    rw [← List.append_assoc] at hne
    rcases t.closed _ _ hne with hroot | hdir
    · exact hp (List.append_eq_nil_iff.1 hroot).1
    · rw [ih] at hdir
      exact Option.some_ne_none _ hdir.symm

/-- Where there was nothing, removing what has been added restores the tree. -/
theorem remove_eq {t' : FileTree α} {p : Path} (hp : p ≠ []) (h : t.entry p = none)
    (heq : ∀ q, ¬p <+: q → t'.entry q = t.entry q) : t'.remove p = t := by
  ext q : 2
  by_cases hq : p <+: q
  · exact (if_pos hq).trans (entry_eq_none_below hp h hq).symm
  · exact (if_neg hq).trans (heq q hq)

end FileTree

end Lib
