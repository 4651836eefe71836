import LittlePenguin.Lib.SeqChange
import LittlePenguin.Mymounts.Removal

/-!
# Mounting and unmounting while the listing is read

The module takes no lock while it goes over the mounts, so that between two
reads the tree of a namespace may change in any way. A mount that is listed all
along is shown once for every time a change has moved it back behind the index,
and once more, but for the times a change has moved it in front of the index
(`count_shown`). Mounts that come in anywhere in the tree so hide none of the
others, but make the listing repeat those that they push back
(`shown_while_mounting`).
-/

namespace LittlePenguin.Mymounts

open Lib

/-- The mounts `0` and `2` are read, `1` comes in between them, and the listing is read on. -/
theorem recorded_middle {change : MntNamespace → MntNamespace → Prop}
    (hc : change withoutMiddle (sampleNamespace 3)) :
    Recorded mymountsSeqOps change (sampleNamespace 3) 3 [0, 2, 2]
      [⟨withoutMiddle, 2, sampleNamespace 3⟩] := by
  have hfirst := (enumerates_listed withoutMiddle).read (k := 0) (n := 1)
    (by rw [listed_withoutMiddle]; decide)
  have hsecond := (enumerates_listed (sampleNamespace 3)).read (k := 2) (n := 0)
    (by rw [listed_sampleNamespace]; decide)
  rw [listed_withoutMiddle] at hfirst
  rw [listed_sampleNamespace] at hsecond
  exact (((Recorded.opened withoutMiddle).read hfirst).changed hc).read hsecond

theorem eof_middle : (mymountsSeqOps (sampleNamespace 3)).Read 3 [] 3 :=
  .eof ((mymountsStart_eq 3).trans (by rw [listed_sampleNamespace]; rfl))

theorem survives_middle {mnt : MountPtr} (h : mnt ∈ [0, 2]) :
    Survives (sampleNamespace 3) [⟨withoutMiddle, 2, sampleNamespace 3⟩] mnt := by
  have hsub : [0, 2] ⊆ List.range 3 := by decide
  rw [Survives, listed_sampleNamespace, List.forall_mem_singleton, listed_withoutMiddle]
  exact ⟨hsub h, h⟩

/-- In a session of reads to end of file, with anything changed in the namespace
    between them, every mount that is listed all along is shown as often as the
    changes that move it over the index tell. -/
theorem count_shown (ns : MntNamespace) (i i' : ℤ) (shown : List MountPtr)
    (changes : List (Change MntNamespace))
    (h : Recorded mymountsSeqOps (fun _ _ => True) ns i shown changes)
    (heof : (mymountsSeqOps ns).Read i [] i') (mnt : MountPtr) (hmnt : Survives ns changes mnt) :
    shown.count mnt + moves MntNamespace.listed changes mnt =
      1 + returns MntNamespace.listed changes mnt :=
  h.count_shown_of_eof enumerates_listed (fun _ => nodup_listed) heof hmnt.1 hmnt.2

/-- Pushed back by a mount that comes in before it, the last one is shown twice. -/
theorem count_shown_third :
    [0, 2, 2].count 2 + moves MntNamespace.listed [⟨withoutMiddle, 2, sampleNamespace 3⟩] 2 =
      1 + returns MntNamespace.listed [⟨withoutMiddle, 2, sampleNamespace 3⟩] 2 :=
  count_shown _ 3 3 [0, 2, 2] _ (recorded_middle trivial) eof_middle 2 (survives_middle (by decide))

/-- Mounts have come into the tree of `ns`, wherever in it, nothing else has changed. -/
structure Inserted (ns ns' : MntNamespace) : Prop where
  root : ns'.root = ns.root
  mount : ∀ mnt, mnt ∈ ns.tree.toList ∨ mnt = ns.root → ns'.mount mnt = ns.mount mnt
  tree : ns.tree.toList.Sublist ns'.tree.toList

/-- The mounts listed before are listed still, in the same order. -/
theorem Inserted.listed_sublist {ns ns' : MntNamespace} (h : Inserted ns ns') :
    ns.listed.Sublist ns'.listed := by
  have hskip : ∀ mnt ∈ ns.tree.toList, (!mymountsSkip ns mnt) = !mymountsSkip ns' mnt := by
    intro mnt hmnt
    rw [mymountsSkip_congr h.root (h.mount mnt (.inl hmnt)) (h.mount ns.root (.inr rfl))]
  have hfilter : ns.listed = ns.tree.toList.filter fun mnt => !mymountsSkip ns' mnt :=
    List.filter_congr hskip
  rw [hfilter]
  exact h.tree.filter _

/-- While mounts come in anywhere, no mount that is listed all along is missed,
    and it is shown once exactly if it has never been pushed back behind the
    index. -/
theorem shown_while_mounting (ns : MntNamespace) (i i' : ℤ) (shown : List MountPtr)
    (changes : List (Change MntNamespace)) (h : Recorded mymountsSeqOps Inserted ns i shown changes)
    (heof : (mymountsSeqOps ns).Read i [] i') (mnt : MountPtr) (hmnt : Survives ns changes mnt) :
    0 < shown.count mnt ∧
      (shown.count mnt = 1 ↔ ∀ c ∈ changes, ¬c.Returns MntNamespace.listed mnt) := by
  have hcount := h.count_shown_of_eof enumerates_listed (fun _ => nodup_listed) heof hmnt.1 hmnt.2
  have hmoves : moves MntNamespace.listed changes mnt = 0 :=
    h.moves_eq_zero (fun _ => nodup_listed) (fun _ _ hc => hc.listed_sublist) mnt
  have hreturns : returns MntNamespace.listed changes mnt = 0 ↔
      ∀ c ∈ changes, ¬c.Returns MntNamespace.listed mnt := by
    rw [returns, List.countP_eq_zero]
    exact forall₂_congr fun c _ => by rw [decide_eq_true_eq]
  rw [hmoves, Nat.add_zero] at hcount
  rw [hcount, ← hreturns]
  exact ⟨Nat.add_pos_left Nat.one_pos _, Nat.add_eq_left⟩

theorem inserted_middle : Inserted withoutMiddle (sampleNamespace 3) where
  root := rfl
  mount _ _ := rfl
  tree := removed_middle.tree

/-- The first mount stays where it is, and is shown once. -/
theorem first_shown_once : [0, 2, 2].count 0 = 1 := by
  refine (shown_while_mounting _ 3 3 [0, 2, 2] _ (recorded_middle inserted_middle) eof_middle 0
    (survives_middle (by decide))).2.2 ?_
  rw [List.forall_mem_singleton, Change.Returns, listed_sampleNamespace]
  exact fun h => absurd h.2 (by decide)

end LittlePenguin.Mymounts
