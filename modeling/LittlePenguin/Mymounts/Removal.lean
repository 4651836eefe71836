import LittlePenguin.Mymounts.Listing

/-!
# Mounts that go away while others are listed

Between two reads, `/proc/mymounts` keeps the number of the mounts it has shown,
not the mount it stands at. If one of those shown is taken out of the tree, all
the mounts behind it move up by a place, and the one the next read would have
shown first is now counted as shown. So the mounts that stay in the tree are
each shown once exactly if no removal moves one of them from behind the index in
front of it (`shown_once_iff`).
-/

namespace LittlePenguin.Mymounts

open Lib

/-- Mounts other than the root mount have been removed from the tree of `ns`,
    nothing else has changed. -/
structure Removed (ns ns' : MntNamespace) : Prop where
  root : ns'.root = ns.root
  mount : ∀ mnt, mnt ∈ ns'.tree.toList ∨ mnt = ns.root → ns'.mount mnt = ns.mount mnt
  tree : ns'.tree.toList.Sublist ns.tree.toList
  keeps : ns.root ∈ ns.tree.toList → ns.root ∈ ns'.tree.toList

/-- The mounts listed after a removal have been listed before, in the same order. -/
theorem Removed.listed_sublist {ns ns' : MntNamespace} (h : Removed ns ns') :
    ns'.listed.Sublist ns.listed := by
  have hskip : ∀ mnt ∈ ns'.tree.toList, (!mymountsSkip ns' mnt) = !mymountsSkip ns mnt := by
    intro mnt hmnt
    rw [mymountsSkip_congr h.root (h.mount mnt (.inl hmnt)) (h.mount ns.root (.inr rfl))]
  have hfilter : ns'.listed = ns'.tree.toList.filter fun mnt => !mymountsSkip ns mnt :=
    List.filter_congr hskip
  rw [hfilter]
  exact h.tree.filter _

/-- The mount is in the tree, and not left out, during the whole session. -/
def Survives (ns : MntNamespace) (changes : List (Change MntNamespace)) (mnt : MountPtr) : Prop :=
  mnt ∈ ns.listed ∧ ∀ c ∈ changes, mnt ∈ c.before.listed

/-- What is listed at the end survives. -/
theorem survives_iff {ns : MntNamespace} {i : ℤ} {shown : List MountPtr}
    {changes : List (Change MntNamespace)}
    (h : Recorded mymountsSeqOps Removed ns i shown changes) (mnt : MountPtr) :
    Survives ns changes mnt ↔ mnt ∈ ns.listed := by
  have hremove : ∀ ns ns', Removed ns ns' → ns'.listed.Sublist ns.listed :=
    fun _ _ => Removed.listed_sublist
  refine and_iff_left_of_imp fun hmnt c hc => ?_
  exact (h.sublist_before hremove c hc).subset hmnt

/-- In a session of reads to end of file, with mounts removed between them, every
    mount that survives is shown exactly once if and only if no removal moves one
    of them from behind the index in front of it. -/
theorem shown_once_iff (ns : MntNamespace) (i i' : ℤ) (shown : List MountPtr)
    (changes : List (Change MntNamespace))
    (h : Recorded mymountsSeqOps Removed ns i shown changes)
    (heof : (mymountsSeqOps ns).Read i [] i') :
    (∀ mnt, Survives ns changes mnt → shown.count mnt = 1) ↔
      ∀ c ∈ changes, ∀ mnt, Survives ns changes mnt → ¬c.Moves MntNamespace.listed mnt := by
  have hremove : ∀ ns ns', Removed ns ns' → ns'.listed.Sublist ns.listed :=
    fun _ _ => Removed.listed_sublist
  have hnodup : ∀ ns : MntNamespace, ns.listed.Nodup := fun _ => nodup_listed
  have hshown : shown.Nodup := (h.accounted hremove enumerates_listed hnodup).nodup
  have hcount : ∀ mnt, Survives ns changes mnt →
      (shown.count mnt = 1 ↔ ∀ c ∈ changes, ¬c.Moves MntNamespace.listed mnt) := by
    intro mnt hmnt
    rw [← h.mem_shown_iff_of_eof hremove enumerates_listed hnodup heof hmnt.1]
    constructor
    · intro hone
      exact List.count_pos_iff.1 (hone ▸ Nat.one_pos)
    · exact List.count_eq_one_of_mem hshown
  constructor
  · intro hall c hc mnt hmnt
    exact (hcount mnt hmnt).1 (hall mnt hmnt) c hc
  · intro hall mnt hmnt
    exact (hcount mnt hmnt).2 fun c hc => hall c hc mnt hmnt

/-- Three mounts, of which two are read. -/
theorem recorded_sample :
    Recorded mymountsSeqOps Removed (sampleNamespace 3) 2 [0, 1] [] := by
  have hread := (enumerates_listed (sampleNamespace 3)).read (k := 0) (n := 1)
    (by rw [listed_sampleNamespace]; decide)
  rw [listed_sampleNamespace] at hread
  exact (Recorded.opened (sampleNamespace 3)).read hread

theorem removed_last : Removed (sampleNamespace 3) (sampleNamespace 2) where
  root := rfl
  mount _ _ := rfl
  tree := by
    change (Walk.upTo 2).toList.Sublist (Walk.upTo 3).toList
    rw [Walk.toList_upTo, Walk.toList_upTo]
    decide
  keeps _ := Walk.mem_upTo.2 (by decide)

/-- With the last one removed, which has not been read, the second one has been
    shown once. -/
theorem shown_once_last_removed :
    Survives (sampleNamespace 2) [⟨sampleNamespace 3, 2, sampleNamespace 2⟩] 1 ∧
      [0, 1].count 1 = 1 := by
  have hsession := recorded_sample.changed removed_last
  have heof : (mymountsSeqOps (sampleNamespace 2)).Read 2 [] 2 :=
    .eof ((mymountsStart_eq 2).trans (by rw [listed_sampleNamespace]; rfl))
  have hsecond : Survives (sampleNamespace 2) [⟨sampleNamespace 3, 2, sampleNamespace 2⟩] 1 := by
    rw [survives_iff hsession, listed_sampleNamespace]
    decide
  refine ⟨hsecond, (shown_once_iff _ 2 2 [0, 1] _ hsession heof).2 ?_ 1 hsecond⟩
  intro c hc mnt _ hmoves
  obtain rfl := List.mem_singleton.1 hc
  obtain ⟨hbehind, hfront⟩ := hmoves
  rw [listed_sampleNamespace] at hbehind hfront
  obtain rfl : mnt = 2 := List.mem_singleton.1 hbehind
  exact absurd hfront (by decide)

/-- The namespace of the mounts `0` and `2` out of three. -/
def withoutMiddle : MntNamespace where
  root := 0
  tree :=
    { first := some 0
      next := fun mnt => if mnt = 0 then some 2 else none
      ends := by
        refine Subrelation.wf (fun {b a} h => ?_) (measure fun mnt : ℕ => 2 - mnt).wf
        change 2 - b < 2 - a
        split_ifs at h with ha
        obtain rfl := Option.some.inj h
        rw [ha]
        decide }
  mount := (sampleNamespace 3).mount

theorem toList_withoutMiddle : withoutMiddle.tree.toList = [0, 2] := by
  simp [Walk.toList, withoutMiddle]

theorem listed_withoutMiddle : withoutMiddle.listed = [0, 2] := by
  have hnodes : withoutMiddle.tree.nodes withoutMiddle.mntFirstNode = [0, 2] := toList_withoutMiddle
  rw [MntNamespace.listed, MntNamespace.listedFrom, hnodes]
  rfl

theorem removed_middle : Removed (sampleNamespace 3) withoutMiddle where
  root := rfl
  mount _ _ := rfl
  tree := by
    rw [toList_withoutMiddle]
    change [0, 2].Sublist (Walk.upTo 3).toList
    rw [Walk.toList_upTo]
    decide
  keeps _ := by
    rw [toList_withoutMiddle]
    exact List.mem_cons_self

/-- After two of three mounts have been read, the second one is removed: the
    third one is never shown. -/
theorem third_not_shown :
    ¬∀ (ns : MntNamespace) (i i' : ℤ) (shown : List MountPtr)
      (changes : List (Change MntNamespace)), Recorded mymountsSeqOps Removed ns i shown changes →
      (mymountsSeqOps ns).Read i [] i' →
      ∀ mnt, Survives ns changes mnt → shown.count mnt = 1 := by
  intro hall
  have hsession := recorded_sample.changed removed_middle
  have heof : (mymountsSeqOps withoutMiddle).Read 2 [] 2 :=
    .eof ((mymountsStart_eq 2).trans (by rw [listed_withoutMiddle]; rfl))
  have hthird : Survives withoutMiddle [⟨sampleNamespace 3, 2, withoutMiddle⟩] 2 := by
    rw [survives_iff hsession, listed_withoutMiddle]
    decide
  exact absurd (hall _ _ _ _ _ hsession heof 2 hthird) (by decide)

end LittlePenguin.Mymounts
