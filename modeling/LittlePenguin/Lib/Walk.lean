import Mathlib.Data.List.Basic
import Mathlib.Data.List.Nodup
import Mathlib.Data.Nat.Notation

/-!
# Walks along next pointers

Code that goes over a structure by following pointers, from a first node to the
next one until there is none, walks (`Walk`). All it needs of the structure is
that the pointers lead nowhere for ever (`Walk.ends`); so a loop over the nodes
terminates (`Walk.wellFounded`), and what holds at the end of the walk and is
carried back from every next node holds from any node on (`Walk.induct`).

The nodes met are a list (`Walk.nodes`), and no node is met twice
(`Walk.nodup_nodes`).
-/

namespace Lib

/-- A walk over nodes in `α`. -/
structure Walk (α : Type*) where
  /-- Where it starts. -/
  first : Option α
  /-- Where it goes from a node. -/
  next : α → Option α
  /-- It comes to an end, from any node. -/
  ends : WellFounded fun b a => next a = some b

namespace Walk

variable {α : Type*} (w : Walk α)

/-- Going on from a node gets closer to the end, where there is no node any more. -/
theorem wellFounded : WellFounded fun o' o : Option α => ∃ a, o = some a ∧ o' = w.next a := by
  -- Nothing comes after the end; and a node is closer to it than those that lead there.
  have hnone : Acc (fun o' o : Option α => ∃ a, o = some a ∧ o' = w.next a) none :=
    ⟨_, fun _ ⟨_, h, _⟩ => absurd h.symm (Option.some_ne_none _)⟩
  refine ⟨fun o => ?_⟩
  cases o with
  | none => exact hnone
  | some a =>
    induction a using w.ends.induction with
    | h a ih =>
      refine ⟨_, fun o' h => ?_⟩
      obtain ⟨_, ha, rfl⟩ := h
      obtain rfl := Option.some.inj ha
      cases hb : w.next a with
      | none => exact hnone
      | some b => exact ih b hb

/-- What holds at the end, and of a node if it holds from the next one on,
    holds from everywhere. -/
theorem induct {P : Option α → Prop} (none : P none) (some : ∀ a, P (w.next a) → P (some a))
    (o : Option α) : P o := by
  induction o using w.wellFounded.induction with
  | h o ih =>
    cases o with
    | none => exact none
    | some a => exact some a (ih _ ⟨a, rfl, rfl⟩)

/-- The nodes met from `o` on. -/
def nodes : Option α → List α
  | none => []
  | some a => a :: nodes (w.next a)
termination_by o => w.wellFounded.wrap o
decreasing_by exact ⟨a, rfl, rfl⟩

/-- The nodes of the whole walk. -/
def toList : List α := w.nodes w.first

@[simp] theorem nodes_none : w.nodes none = [] := by rw [nodes]

@[simp] theorem nodes_some (a : α) : w.nodes (some a) = a :: w.nodes (w.next a) := by rw [nodes]

variable {w}

/-- From every node met, the walk goes on as it did when it met the node. -/
theorem nodes_suffix_of_mem {o : Option α} {a : α} (h : a ∈ w.nodes o) :
    w.nodes (some a) <:+ w.nodes o := by
  induction o using w.induct with
  | none => simp at h
  | some b ih =>
    rw [nodes_some, List.mem_cons] at h
    rcases h with rfl | h
    · exact List.suffix_rfl
    · rw [w.nodes_some b]
      exact (ih h).trans (List.suffix_cons _ _)

/-- A node is not met again after it. -/
theorem not_mem_nodes_next (a : α) : a ∉ w.nodes (w.next a) := fun h => by
  have hle := (nodes_suffix_of_mem h).length_le
  rw [nodes_some, List.length_cons] at hle
  exact absurd hle (Nat.not_succ_le_self _)

/-- No node is met twice. -/
theorem nodup_nodes (o : Option α) : (w.nodes o).Nodup := by
  induction o using w.induct with
  | none => simp
  | some a ih =>
    rw [nodes_some, List.nodup_cons]
    exact ⟨not_mem_nodes_next a, ih⟩

/-- Behind the nodes met before `a`, the walk is at `a`. -/
theorem nodes_some_of_eq_append {o : Option α} {a : α} {l r : List α}
    (h : w.nodes o = l ++ a :: r) : w.nodes (w.next a) = r := by
  induction o using w.induct generalizing l with
  | none => simp at h
  | some b ih =>
    rw [nodes_some] at h
    cases l with
    | nil =>
      obtain ⟨rfl, hr⟩ := List.cons.inj h
      exact hr
    | cons c l => exact ih (List.cons.inj h).2

/-- The walk over the first `n` numbers. -/
def upTo (n : ℕ) : Walk ℕ where
  first := if 0 < n then some 0 else none
  next a := if a + 1 < n then some (a + 1) else none
  ends := by
    refine Subrelation.wf (fun {b a} h => ?_) (measure fun a => n - a).wf
    change n - b < n - a
    split_ifs at h with ha
    obtain rfl := Option.some.inj h
    omega

theorem nodes_upTo {n a k : ℕ} (h : n = a + k + 1) :
    (upTo n).nodes (some a) = List.range' a (k + 1) := by
  induction k generalizing a with
  | zero => simp [upTo, h]
  | succ k ih =>
    have hn : (upTo n).next a = some (a + 1) := if_pos (by omega)
    rw [nodes_some, hn, ih (by omega), List.range'_succ (s := a)]

theorem toList_upTo (n : ℕ) : (upTo n).toList = List.range n := by
  cases n with
  | zero => simp [toList, upTo]
  | succ n =>
    have hf : (upTo (n + 1)).first = some 0 := by simp [upTo]
    rw [toList, hf, nodes_upTo (k := n) (by omega), List.range_eq_range']

theorem mem_upTo {n a : ℕ} : a ∈ (upTo n).toList ↔ a < n := by rw [toList_upTo, List.mem_range]

end Walk

end Lib
