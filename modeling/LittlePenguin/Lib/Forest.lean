import Mathlib.Data.List.Basic

/-!
# Forests of parent pointers

A forest is given by the parents of its nodes; going up from a node, one comes
to the root of its tree (`Forest.ends`). Whatever is carried from a node to its
children then holds of all nodes, by induction on `Forest.ends`.

* `Forest.route`: the nodes on the way down from one node to another;
* `Forest.labels`: the labels on the way down from the root of a tree to a node,
  each parent and child being labelled with a list;
* `Forest.climb`: the node reached by going up as long as a predicate holds. What
  is kept by every step up is kept by all of them (`Forest.climb_induct`); so
  where no labels are met, they stay as they are (`Forest.labels_climb`).
-/

namespace Lib

/-- A forest over nodes in `α`. -/
structure Forest (α : Type*) where
  /-- The parent of a node; the root of a tree has none. -/
  parent : α → Option α
  /-- The way up comes to an end, from any node. -/
  ends : WellFounded fun b a => parent a = some b

namespace Forest

variable {α β : Type*} (F : Forest α)

/-! ## The way from one node to another -/

/-- The nodes on the way from `r` down to `a`, but for `r` itself, if `a` is below it. -/
def route [DecidableEq α] (r a : α) : Option (List α) :=
  if a = r then some [] else
    match _ : F.parent a with
    | none => none
    | some b => (route r b).map (· ++ [a])
termination_by F.ends.wrap a
decreasing_by assumption

variable {F} in
theorem route_of_parent [DecidableEq α] {r a b : α} (h : F.parent a = some b) (hne : a ≠ r) :
    F.route r a = (F.route r b).map (· ++ [a]) := by
  rw [route, if_neg hne]
  split
  · rename_i hnone
    exact absurd (h.symm.trans hnone) nofun
  · rename_i c hc
    obtain rfl := Option.some.inj (h.symm.trans hc)
    rfl

variable {F} in
/-- The way down to another node has a last step, from its parent. -/
theorem exists_of_route [DecidableEq α] {r a : α} {l : List α} (h : F.route r a = some l)
    (hne : a ≠ r) : ∃ b k, F.parent a = some b ∧ F.route r b = some k ∧ l = k ++ [a] := by
  cases hb : F.parent a with
  | none =>
    rw [route, if_neg hne] at h
    split at h
    · exact absurd h.symm (Option.some_ne_none l)
    · rename_i b hsome
      exact absurd (hb.symm.trans hsome) nofun
  | some b =>
    rw [route_of_parent hb hne] at h
    obtain ⟨k, hk, hl⟩ := Option.map_eq_some_iff.1 h
    exact ⟨b, k, rfl, hk, hl.symm⟩

@[simp] theorem route_self [DecidableEq α] (r : α) : F.route r r = some [] := by
  rw [route, if_pos rfl]

variable {F} in
/-- No root of a tree is met on the way. -/
theorem parent_ne_none_of_mem_route [DecidableEq α] {r a b : α} {l : List α}
    (h : F.route r a = some l) (hb : b ∈ l) : F.parent b ≠ none := by
  induction a using F.ends.induction generalizing l with
  | h a ih =>
    by_cases hne : a = r
    · rw [hne, route_self] at h
      rw [← Option.some.inj h] at hb
      exact absurd hb List.not_mem_nil
    · obtain ⟨c, k, hc, hk, rfl⟩ := exists_of_route h hne
      rcases List.mem_append.1 hb with hb | hb
      · exact ih c hc hk hb
      · rw [List.mem_singleton.1 hb, hc]
        exact Option.some_ne_none c

/-! ## Labels -/

/-- The labels on the way from the root of a tree down to `a`, those between a
    parent `b` and its child `a` being `f b a`. -/
def labels (f : α → α → List β) (a : α) : List β :=
  match _ : F.parent a with
  | none => []
  | some b => labels f b ++ f b a
termination_by F.ends.wrap a
decreasing_by assumption

variable {F} {f : α → α → List β} {a b : α}

theorem labels_of_none (h : F.parent a = none) : F.labels f a = [] := by
  rw [labels]
  split
  · rfl
  · rename_i hb
    exact absurd (h.symm.trans hb) nofun

theorem labels_of_some (h : F.parent a = some b) : F.labels f a = F.labels f b ++ f b a := by
  rw [labels]
  split
  · rename_i hnone
    exact absurd (h.symm.trans hnone) nofun
  · rename_i c hc
    obtain rfl := Option.some.inj (h.symm.trans hc)
    rfl

/-- A label is one between some parent and its child. -/
theorem mem_labels {x : β} (h : x ∈ F.labels f a) :
    ∃ b c, F.parent c = some b ∧ x ∈ f b c := by
  induction a using F.ends.induction with
  | h a ih =>
    cases hb : F.parent a with
    | none =>
      rw [labels_of_none hb] at h
      exact absurd h List.not_mem_nil
    | some b =>
      rw [labels_of_some hb] at h
      rcases List.mem_append.1 h with h | h
      · exact ih b hb h
      · exact ⟨b, a, hb, h⟩

/-! ## Going up -/

variable (F) in
/-- The node reached from `a` by going up as long as `p` holds. -/
def climb (p : α → Prop) [DecidablePred p] (a : α) : α :=
  match _ : F.parent a with
  | none => a
  | some b => if p a then climb p b else a
termination_by F.ends.wrap a
decreasing_by assumption

variable {p : α → Prop} [DecidablePred p]

theorem climb_of_none (h : F.parent a = none) : F.climb p a = a := by
  rw [climb]
  split
  · rfl
  · rename_i hb
    exact absurd (h.symm.trans hb) nofun

theorem climb_of_not (h : ¬p a) : F.climb p a = a := by
  rw [climb]
  split
  · rfl
  · exact if_neg h

theorem climb_of_some (h : F.parent a = some b) (hp : p a) : F.climb p a = F.climb p b := by
  rw [climb]
  split
  · rename_i hnone
    exact absurd (h.symm.trans hnone) nofun
  · rename_i c hc
    obtain rfl := Option.some.inj (h.symm.trans hc)
    exact if_pos hp

/-- What is kept by every step up is kept by all of them. -/
theorem climb_induct {P : α → Prop} (step : ∀ a b, F.parent a = some b → p a → P a → P b)
    (h : P a) : P (F.climb p a) := by
  induction a using F.ends.induction with
  | h a ih =>
    by_cases hp : p a
    · cases hb : F.parent a with
      | none => rwa [climb_of_none hb]
      | some b =>
        rw [climb_of_some hb hp]
        exact ih b hb (step a b hb hp h)
    · rwa [climb_of_not hp]

/-- If there is a parent where the way up ends, the predicate does not hold there. -/
theorem not_of_parent_climb (h : F.parent (F.climb p a) = some b) : ¬p (F.climb p a) := by
  induction a using F.ends.induction with
  | h a ih =>
    by_cases hp : p a
    · cases hc : F.parent a with
      | none =>
        rw [climb_of_none hc, hc] at h
        exact absurd h nofun
      | some c =>
        rw [climb_of_some hc hp] at h ⊢
        exact ih c hc h
    · rwa [climb_of_not hp]

/-- With no labels on the way up, the labels are the same at its end. -/
theorem labels_climb (h : ∀ a b, F.parent a = some b → p a → f b a = []) (a : α) :
    F.labels f (F.climb p a) = F.labels f a := by
  refine climb_induct (P := fun b => F.labels f b = F.labels f a) (fun b c hc hp hb => ?_) rfl
  rw [← hb, labels_of_some hc, h b c hc hp, List.append_nil]

end Forest

end Lib
