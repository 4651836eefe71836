import LittlePenguin.Lib.SeqFile

/-!
# Sequence files while anything changes

Between two reads of a session, records may go away, appear anywhere, or be put
in another order. What then decides how often a record is shown are the changes
that move it over the index: from behind the index in front of it
(`Change.Moves`), which leaves it out, and from in front of the index behind it
(`Change.Returns`), which shows it again. A record listed all along has been
shown as often as it has come back, once more if it is in front of the index,
and less often by the number of times it was left out (`Recorded.count_balance`).
Where records are only added, none is left out (`Recorded.moves_eq_zero`).
-/

namespace Lib

variable {ω α : Type*}

/-- The change moves the record `a` from in front of the index behind it. -/
def Change.Returns (l : ω → List α) (c : Change ω) (a : α) : Prop :=
  a ∈ (l c.before).take c.index.toNat ∧ a ∈ (l c.after).drop c.index.toNat

/-- A record is in front of a place in the list or behind it, and not both. -/
theorem mem_drop_iff_of_nodup {l : List α} (hl : l.Nodup) {a : α} (ha : a ∈ l) (k : ℕ) :
    a ∈ l.drop k ↔ a ∉ l.take k := by
  constructor
  · exact fun hdrop htake => not_mem_drop_of_mem_take hl htake hdrop
  · exact (mem_take_or_mem_drop k ha).resolve_left

variable [DecidableEq α]

instance (l : ω → List α) (a : α) : DecidablePred fun c : Change ω => c.Moves l a :=
  fun _ => inferInstanceAs (Decidable (_ ∧ _))

instance (l : ω → List α) (a : α) : DecidablePred fun c : Change ω => c.Returns l a :=
  fun _ => inferInstanceAs (Decidable (_ ∧ _))

/-- How many of the changes move the record `a` in front of the index. -/
def moves (l : ω → List α) (changes : List (Change ω)) (a : α) : ℕ :=
  changes.countP fun c => c.Moves l a

/-- How many of them move it behind the index. -/
def returns (l : ω → List α) (changes : List (Change ω)) (a : α) : ℕ :=
  changes.countP fun c => c.Returns l a

/-- A change moves a record over the index, or leaves it on the side where it is. -/
theorem count_take_change {l : ω → List α} (hl : ∀ w, (l w).Nodup) {a : α} (c : Change ω)
    (hbefore : a ∈ l c.before) (hafter : a ∈ l c.after) :
    ((l c.before).take c.index.toNat).count a + moves l [c] a =
      ((l c.after).take c.index.toNat).count a + returns l [c] a := by
  rw [moves, returns, List.countP_singleton, List.countP_singleton,
    List.Nodup.count (hl c.before).take, List.Nodup.count (hl c.after).take]
  simp only [Change.Moves, Change.Returns, mem_drop_iff_of_nodup (hl _) hbefore,
    mem_drop_iff_of_nodup (hl _) hafter, decide_eq_true_eq]
  by_cases hb : a ∈ (l c.before).take c.index.toNat <;>
    by_cases ha : a ∈ (l c.after).take c.index.toNat <;>
    simp [hb, ha]

namespace Recorded

variable {op : ω → SeqOperations α} {change : ω → ω → Prop} {l : ω → List α} {w : ω} {i : ℤ}
  {shown : List α} {changes : List (Change ω)} (henum : ∀ w, (op w).Enumerates (l w))

include henum

omit [DecidableEq α] in
theorem index_nonneg (h : Recorded op change w i shown changes) : 0 ≤ i := by
  induction h with
  | opened w => exact Int.le_refl 0
  | @read w i i' shown vs changes _ hr ih =>
    lift i to ℕ using ih
    obtain ⟨_, _, rfl⟩ := hr.prefix_drop (henum _)
    exact Int.natCast_nonneg _
  | changed _ _ ih => exact ih

/-- Whatever has changed, a record listed all along has been shown as often as
    it stands in front of the index, or was moved behind it, but for the times
    it was moved in front of it. -/
theorem count_balance (hnodup : ∀ w, (l w).Nodup) (h : Recorded op change w i shown changes) {a : α}
    (ha : a ∈ l w) (hall : ∀ c ∈ changes, a ∈ l c.before) :
    shown.count a + moves l changes a =
      ((l w).take i.toNat).count a + returns l changes a := by
  induction h with
  | opened w => rfl
  | @read w i i' shown vs changes hs hr ih =>
    have hi := hs.index_nonneg henum
    lift i to ℕ using hi
    obtain ⟨⟨rest, hrest⟩, _, rfl⟩ := hr.prefix_drop (henum w)
    have htake : (l w).take (i + vs.length) = (l w).take i ++ vs := by
      rw [List.take_add, ← hrest, List.take_left]
    have hold := ih ha hall
    rw [Int.toNat_natCast] at hold ⊢
    rw [htake, List.count_append, List.count_append]
    omega
  | @changed w w' i shown changes hs _ ih =>
    obtain ⟨hbefore, hall⟩ := List.forall_mem_cons.1 hall
    have hold := ih hbefore hall
    have hstep := count_take_change hnodup ⟨w, i, w'⟩ hbefore ha
    rw [moves, returns, List.countP_singleton, List.countP_singleton] at hstep
    dsimp only at hstep
    rw [moves, returns] at hold ⊢
    rw [List.countP_cons, List.countP_cons]
    omega

/-- At end of file, it is in front of the index. -/
theorem count_shown_of_eof (hnodup : ∀ w, (l w).Nodup) (h : Recorded op change w i shown changes)
    {i' : ℤ} (hr : (op w).Read i [] i') {a : α} (ha : a ∈ l w)
    (hall : ∀ c ∈ changes, a ∈ l c.before) :
    shown.count a + moves l changes a = 1 + returns l changes a := by
  have hcount := h.count_balance henum hnodup ha hall
  have hi := h.index_nonneg henum
  lift i to ℕ using hi
  obtain ⟨_, hend, _⟩ := hr.prefix_drop (henum w)
  rwa [Int.toNat_natCast, List.take_of_length_le (hend rfl),
    List.count_eq_one_of_mem (hnodup w) ha] at hcount

omit henum in
/-- Records that are only added, wherever, move none in front of the index. -/
theorem moves_eq_zero (hnodup : ∀ w, (l w).Nodup)
    (hadd : ∀ w w', change w w' → (l w).Sublist (l w'))
    (h : Recorded op change w i shown changes) (a : α) : moves l changes a = 0 := by
  induction h with
  | opened w => rfl
  | read _ _ ih => exact ih
  | @changed w w' i shown changes _ hc ih =>
    have hnot : ¬Change.Moves l ⟨w, i, w'⟩ a := by
      rintro ⟨hdrop, htake⟩
      have hold := mem_take_of_sublist (hadd w w' hc) (hnodup w') (List.mem_of_mem_drop hdrop) htake
      exact not_mem_drop_of_mem_take (hnodup w) hold hdrop
    rw [moves] at ih ⊢
    rw [List.countP_cons_of_neg (by simpa using hnot), ih]

end Recorded

end Lib
