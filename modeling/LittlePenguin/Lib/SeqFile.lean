import Mathlib.Data.List.Basic
import Mathlib.Data.List.Nodup
import Mathlib.Data.Nat.Notation
import Mathlib.Data.Int.Notation
import Mathlib.Order.Notation

/-!
# Sequence files

A sequence file shows the records of a changing structure to readers taking
them in pieces. It iterates with two callbacks (`SeqOperations`): `start` finds
the record at a position, `next` moves on from a record, advancing the position.
Only the position, the *index*, is kept between two reads.

A read (`SeqOperations.Read`) starts at the index and shows records as long as
they fit, calling `next` after each of them; the record that does not fit any
more, if there is one, is dropped, and the index already stands at it. An index
`next` leaves unchanged is advanced for it.

The callbacks enumerate a list (`SeqOperations.Enumerates`) if `start` finds its
entries by their positions and `next` goes from each one to the following one.
However a session of reads is then cut, and while the list grows at its end, the
records shown are the first ones of the list, in order, and the index counts
them (`Session.shown`).

While records are removed from the list, the index does not keep to the record
it stood at. The records still listed in front of it are those shown, and those
a removal has moved there from behind it, which are never shown
(`Recorded.accounted`).
-/

namespace Lib

/-- The callbacks of a sequence file with records in `α`. -/
structure SeqOperations (α : Type*) where
  /-- The record at a position. -/
  start : ℤ → Option α
  /-- The record after the given one, and the position it leaves. -/
  next : α → ℤ → Option α × ℤ

namespace SeqOperations

variable {α : Type*} (op : SeqOperations α)

/-- Moving on from the record `v`: what `next` yields, with the index advanced
    for a `next` that left it unchanged. -/
def advance (v : α) (index : ℤ) : Option α × ℤ :=
  ((op.next v index).1, if (op.next v index).2 = index then index + 1 else (op.next v index).2)

/-- The buffer is filled from the record `v` on with the records `vs`: it is
    full after any of them, the record behind it, if any, being dropped. -/
inductive Fill : α → ℤ → List α → ℤ → Prop
  | full (v : α) (index : ℤ) : Fill v index [v] (op.advance v index).2
  | more {v u : α} {index index' : ℤ} {vs : List α} : (op.advance v index).1 = some u →
      Fill u (op.advance v index).2 vs index' → Fill v index (v :: vs) index'

/-- A read from the index on shows the records `vs`, none at end of file. -/
inductive Read : ℤ → List α → ℤ → Prop
  | eof {index : ℤ} : op.start index = none → Read index [] index
  | fill {v : α} {index index' : ℤ} {vs : List α} : op.start index = some v →
      op.Fill v index vs index' → Read index vs index'

/-- The callbacks go over the list `l`. -/
structure Enumerates (l : List α) : Prop where
  start : ∀ k : ℕ, op.start k = l[k]?
  advance : ∀ (k : ℕ) (v : α), l[k]? = some v → op.advance v k = (l[k + 1]?, ((k + 1 : ℕ) : ℤ))

variable {op} {l : List α}

/-- Filling the buffer takes a non-empty run of records from the list. -/
theorem Fill.prefix_drop (h : op.Enumerates l) {v : α} {k : ℕ} {i : ℤ} {vs : List α}
    (hv : l[k]? = some v) (hf : op.Fill v k vs i) :
    vs <+: l.drop k ∧ vs ≠ [] ∧ i = ((k + vs.length : ℕ) : ℤ) := by
  -- Along the fill, the record is always the one the index counts.
  generalize hk : (k : ℤ) = j at hf
  induction hf generalizing k with
  | full v j =>
    subst hk
    rw [h.advance k v hv]
    refine ⟨?_, List.cons_ne_nil _ _, rfl⟩
    rw [List.drop_eq_getElem?_toList_append, hv]
    exact List.prefix_append _ _
  | more hu _ ih =>
    subst hk
    rw [h.advance k _ hv] at hu ih
    obtain ⟨hp, _, rfl⟩ := ih hu rfl
    refine ⟨?_, List.cons_ne_nil _ _, ?_⟩
    · rw [List.drop_eq_getElem?_toList_append, hv]
      exact List.cons_prefix_cons.2 ⟨rfl, hp⟩
    · rw [List.length_cons]
      omega

/-- A read shows a run of records from the list, and reads nothing only at its end. -/
theorem Read.prefix_drop (h : op.Enumerates l) {k : ℕ} {i : ℤ} {vs : List α}
    (hr : op.Read k vs i) :
    vs <+: l.drop k ∧ (vs = [] → l.length ≤ k) ∧ i = ((k + vs.length : ℕ) : ℤ) := by
  cases hr with
  | eof hs =>
    rw [h.start] at hs
    exact ⟨List.nil_prefix, fun _ => List.getElem?_eq_none_iff.1 hs, rfl⟩
  | fill hs hf =>
    rw [h.start] at hs
    obtain ⟨hp, hne, hi⟩ := hf.prefix_drop h hs
    exact ⟨hp, fun he => absurd he hne, hi⟩

/-- The buffer may be full after any number of the records left. -/
theorem Enumerates.fill (h : op.Enumerates l) {k n : ℕ} (hn : k + n < l.length) {v : α}
    (hv : l[k]? = some v) : op.Fill v k ((l.drop k).take (n + 1)) ((k + n + 1 : ℕ) : ℤ) := by
  have hadvance := h.advance k v hv
  rw [List.drop_eq_getElem?_toList_append, hv, Option.toList_some, List.singleton_append,
    List.take_succ_cons]
  induction n generalizing k v with
  | zero =>
    have hfull := @Fill.full α op v k
    rwa [hadvance] at hfull
  | succ n ih =>
    have hu : l[k + 1]? = some l[k + 1] := List.getElem?_eq_getElem (by omega)
    rw [hu] at hadvance
    refine .more (u := l[k + 1]) (by rw [hadvance]) ?_
    rw [hadvance, List.drop_eq_getElem?_toList_append, hu, Option.toList_some,
      List.singleton_append, List.take_succ_cons]
    have hrest := ih (k := k + 1) (by omega) hu (h.advance (k + 1) _ hu)
    rwa [Nat.add_right_comm k 1 n] at hrest

/-- A read may stop after any number of the records left. -/
theorem Enumerates.read (h : op.Enumerates l) {k n : ℕ} (hn : k + n < l.length) :
    op.Read k ((l.drop k).take (n + 1)) ((k + n + 1 : ℕ) : ℤ) := by
  have hv : l[k]? = some l[k] := List.getElem?_eq_getElem (by omega)
  exact .fill ((h.start k).trans hv) (h.fill hn hv)

end SeqOperations

/-! ## Sessions -/

/-- A session of reads from the beginning of a file whose structure may change,
    from one state in `ω` to another one, between two reads. It ends in a state,
    with an index and the records shown so far. -/
inductive Session {ω α : Type*} (op : ω → SeqOperations α) (change : ω → ω → Prop) :
    ω → ℤ → List α → Prop
  | opened (w : ω) : Session op change w 0 []
  | read {w : ω} {i i' : ℤ} {shown vs : List α} : Session op change w i shown →
      (op w).Read i vs i' → Session op change w i' (shown ++ vs)
  | changed {w w' : ω} {i : ℤ} {shown : List α} : Session op change w i shown →
      change w w' → Session op change w' i shown

namespace Session

variable {ω α : Type*} {op : ω → SeqOperations α} {change : ω → ω → Prop} {l : ω → List α}
  (henum : ∀ w, (op w).Enumerates (l w))

include henum

/-- While the list only grows at its end, the records shown are its first
    ones, and the index counts them. -/
theorem shown (hgrow : ∀ w w', change w w' → l w <+: l w') {w : ω} {i : ℤ} {shown : List α}
    (hs : Session op change w i shown) : shown <+: l w ∧ i = (shown.length : ℤ) := by
  induction hs with
  | opened w => exact ⟨List.nil_prefix, rfl⟩
  | read _ hr ih =>
    obtain ⟨⟨rest, hp⟩, rfl⟩ := ih
    obtain ⟨⟨rest', hp'⟩, _, rfl⟩ := hr.prefix_drop (henum _)
    rw [← hp, List.drop_left] at hp'
    refine ⟨⟨rest', ?_⟩, by rw [List.length_append]⟩
    rw [← hp, ← hp', List.append_assoc]
  | changed _ hc ih => exact ⟨ih.1.trans (hgrow _ _ hc), ih.2⟩

/-- At end of file, the whole list has been shown. -/
theorem shown_eq_of_eof (hgrow : ∀ w w', change w w' → l w <+: l w') {w : ω} {i i' : ℤ}
    {shown : List α} (hs : Session op change w i shown) (hr : (op w).Read i [] i') :
    shown = l w ∧ i' = i := by
  obtain ⟨hp, rfl⟩ := hs.shown henum hgrow
  obtain ⟨_, hlen, hi⟩ := hr.prefix_drop (henum w)
  exact ⟨hp.eq_of_length_le (hlen rfl), hi⟩

/-- Once the whole list has been shown, every read is at end of file. -/
theorem read_eq_nil (hgrow : ∀ w w', change w w' → l w <+: l w') {w : ω} {i i' : ℤ}
    {vs : List α} (hs : Session op change w i (l w)) (hr : (op w).Read i vs i') :
    vs = [] ∧ i' = i := by
  obtain ⟨_, rfl⟩ := hs.shown henum hgrow
  obtain ⟨hp, _, hi⟩ := hr.prefix_drop (henum w)
  rw [List.drop_length, List.prefix_nil] at hp
  subst hp
  exact ⟨rfl, hi⟩

end Session

/-! ## Removals -/

/-- A change, between two reads. -/
structure Change (ω : Type*) where
  before : ω
  /-- The index at which the session stands. -/
  index : ℤ
  after : ω

/-- The change moves the record `a` from behind the index in front of it. -/
def Change.Moves {ω α : Type*} (l : ω → List α) (c : Change ω) (a : α) : Prop :=
  a ∈ (l c.before).drop c.index.toNat ∧ a ∈ (l c.after).take c.index.toNat

/-- A session with a record of its changes, the latest first. -/
inductive Recorded {ω α : Type*} (op : ω → SeqOperations α) (change : ω → ω → Prop) :
    ω → ℤ → List α → List (Change ω) → Prop
  | opened (w : ω) : Recorded op change w 0 [] []
  | read {w : ω} {i i' : ℤ} {shown vs : List α} {changes : List (Change ω)} :
      Recorded op change w i shown changes → (op w).Read i vs i' →
      Recorded op change w i' (shown ++ vs) changes
  | changed {w w' : ω} {i : ℤ} {shown : List α} {changes : List (Change ω)} :
      Recorded op change w i shown changes → change w w' →
      Recorded op change w' i shown (⟨w, i, w'⟩ :: changes)

theorem mem_take_or_mem_drop {α : Type*} {l : List α} {a : α} (k : ℕ) (h : a ∈ l) :
    a ∈ l.take k ∨ a ∈ l.drop k := by
  rwa [← List.mem_append, List.take_append_drop]

theorem not_mem_drop_of_mem_take {α : Type*} {l : List α} (hl : l.Nodup) {a : α} {k : ℕ}
    (h : a ∈ l.take k) : a ∉ l.drop k := by
  rw [← List.take_append_drop k l] at hl
  exact fun hd => List.disjoint_of_nodup_append hl h hd

/-- A removal moves nothing backwards. -/
theorem mem_take_of_sublist {α : Type*} {l l' : List α} (h : l'.Sublist l) (hl : l.Nodup) {a : α}
    {k : ℕ} (ha : a ∈ l') (hk : a ∈ l.take k) : a ∈ l'.take k := by
  rw [← List.take_append_drop k l] at h
  obtain ⟨front, back, rfl, hfront, hback⟩ := List.sublist_append_iff.1 h
  rcases List.mem_append.1 ha with ha | ha
  · have hlen : front.length ≤ k := Nat.le_trans hfront.length_le (List.length_take_le k l)
    rw [List.take_append, List.take_of_length_le hlen]
    exact List.mem_append_left _ ha
  · exact absurd (hback.subset ha) (not_mem_drop_of_mem_take hl hk)

/-- Nothing has been shown twice. Of the records still listed, those in front of
    the index have been shown, or moved there by a change, and not both. -/
structure Accounted {ω α : Type*} (l : ω → List α) (w : ω) (i : ℤ) (shown : List α)
    (changes : List (Change ω)) : Prop where
  index : 0 ≤ i
  nodup : shown.Nodup
  mem_take_iff : ∀ a ∈ l w,
    a ∈ (l w).take i.toNat ↔ a ∈ shown ∨ ∃ c ∈ changes, c.Moves l a
  not_both : ∀ a ∈ l w, ¬(a ∈ shown ∧ ∃ c ∈ changes, c.Moves l a)

namespace Accounted

variable {ω α : Type*} {op : ω → SeqOperations α} {l : ω → List α} {w : ω} {i : ℤ}
  {shown : List α} {changes : List (Change ω)}

theorem opened (w : ω) : Accounted l w 0 [] [] where
  index := Int.le_refl 0
  nodup := List.nodup_nil
  mem_take_iff a _ := by simp
  not_both a _ := by simp

/-- A read shows what is behind the index, where nothing is that was shown or moved. -/
theorem read (h : Accounted l w i shown changes) (hl : (l w).Nodup)
    (henum : (op w).Enumerates (l w)) {vs : List α} {i' : ℤ} (hr : (op w).Read i vs i') :
    Accounted l w i' (shown ++ vs) changes := by
  obtain ⟨hi, hshown, hmem, hnot⟩ := h
  lift i to ℕ using hi
  rw [Int.toNat_natCast] at hmem
  obtain ⟨⟨rest, hrest⟩, _, rfl⟩ := hr.prefix_drop henum
  have htake : (l w).take (i + vs.length) = (l w).take i ++ vs := by
    rw [List.take_add, ← hrest, List.take_left]
  have hvs : vs.Sublist ((l w).drop i) := hrest ▸ List.sublist_append_left vs rest
  have hfresh : ∀ a ∈ vs, ¬(a ∈ shown ∨ ∃ c ∈ changes, c.Moves l a) := by
    intro a ha hold
    have hdrop := hvs.subset ha
    have htaken := (hmem a (List.mem_of_mem_drop hdrop)).2 hold
    exact not_mem_drop_of_mem_take hl htaken hdrop
  constructor
  · exact Int.natCast_nonneg _
  · refine List.nodup_append.2 ⟨hshown, hl.sublist (hvs.trans (List.drop_sublist i _)), ?_⟩
    exact fun a ha b hb hab => hfresh b hb (.inl (hab ▸ ha))
  · intro a ha
    rw [Int.toNat_natCast, htake, List.mem_append, List.mem_append, hmem a ha]
    exact or_right_comm
  · rintro a ha ⟨hs, hmoved⟩
    rcases List.mem_append.1 hs with hs | hs
    · exact hnot a ha ⟨hs, hmoved⟩
    · exact hfresh a hs (.inr hmoved)

/-- A removal keeps what is in front of the index there, and may move more to it. -/
theorem changed (h : Accounted l w i shown changes) (hl : (l w).Nodup) {w' : ω}
    (hremove : (l w').Sublist (l w)) : Accounted l w' i shown (⟨w, i, w'⟩ :: changes) := by
  obtain ⟨hi, hshown, hmem, hnot⟩ := h
  refine ⟨hi, hshown, fun a ha => ?_, fun a ha => ?_⟩
  · have hold := hremove.subset ha
    have hkeep : a ∈ (l w).take i.toNat → a ∈ (l w').take i.toNat :=
      mem_take_of_sublist hremove hl ha
    rw [List.exists_mem_cons_iff]
    constructor
    · intro hnew
      rcases mem_take_or_mem_drop i.toNat hold with htake | hdrop
      · exact ((hmem a hold).1 htake).imp_right .inr
      · exact .inr (.inl ⟨hdrop, hnew⟩)
    · rintro (hs | ⟨_, hnew⟩ | hmoved)
      · exact hkeep ((hmem a hold).2 (.inl hs))
      · exact hnew
      · exact hkeep ((hmem a hold).2 (.inr hmoved))
  · have hold := hremove.subset ha
    rw [List.exists_mem_cons_iff]
    rintro ⟨hs, ⟨hdrop, _⟩ | hmoved⟩
    · exact not_mem_drop_of_mem_take hl ((hmem a hold).2 (.inl hs)) hdrop
    · exact hnot a hold ⟨hs, hmoved⟩

end Accounted

namespace Recorded

variable {ω α : Type*} {op : ω → SeqOperations α} {change : ω → ω → Prop} {l : ω → List α}
  {w : ω} {i : ℤ} {shown : List α} {changes : List (Change ω)}
  (hremove : ∀ w w', change w w' → (l w').Sublist (l w))

include hremove

/-- What is still listed has been listed all along. -/
theorem sublist_before (h : Recorded op change w i shown changes) :
    ∀ c ∈ changes, (l w).Sublist (l c.before) := by
  induction h with
  | opened w => exact fun _ hc => absurd hc List.not_mem_nil
  | read _ _ ih => exact ih
  | changed _ hw ih =>
    intro c hc
    rcases List.mem_cons.1 hc with rfl | hc
    · exact hremove _ _ hw
    · exact (hremove _ _ hw).trans (ih c hc)

variable (henum : ∀ w, (op w).Enumerates (l w)) (hnodup : ∀ w, (l w).Nodup)

include henum hnodup

/-- While records are only removed, a session accounts for those still listed. -/
theorem accounted (h : Recorded op change w i shown changes) :
    Accounted l w i shown changes := by
  induction h with
  | opened w => exact .opened w
  | read _ hr ih => exact ih.read (hnodup _) (henum _) hr
  | changed _ hc ih => exact ih.changed (hnodup _) (hremove _ _ hc)

/-- At end of file, what is still listed has been shown unless a change has moved it. -/
theorem mem_shown_iff_of_eof (h : Recorded op change w i shown changes) {i' : ℤ}
    (hr : (op w).Read i [] i') {a : α} (ha : a ∈ l w) :
    a ∈ shown ↔ ∀ c ∈ changes, ¬c.Moves l a := by
  obtain ⟨hi, _, hmem, hnot⟩ := h.accounted hremove henum hnodup
  lift i to ℕ using hi
  obtain ⟨_, hend, _⟩ := hr.prefix_drop (henum w)
  have hshown := hmem a ha
  rw [Int.toNat_natCast, List.take_of_length_le (hend rfl)] at hshown
  constructor
  · intro hs c hc hmoves
    exact hnot a ha ⟨hs, c, hc, hmoves⟩
  · intro hmoves
    refine (hshown.1 ha).resolve_right ?_
    rintro ⟨c, hc, hmoved⟩
    exact hmoves c hc hmoved

end Recorded

end Lib
