import LittlePenguin.Mymounts

/-!
# Reading the listing in pieces

Whether `/proc/mymounts` shows every mount once, however it is read, depends on
how its two callbacks agree about positions.

* Together with the sequence file, which advances an index `mymounts_next`
  leaves unchanged, they go over the mounts listed (`enumerates_listed`). So a
  session of reads shows a prefix of them, wherever its reads are cut and
  whatever is mounted at the end of the tree meanwhile (`listing_exactly_once`).
* By themselves they do not: at the last mount listed, `mymounts_next` finds no
  mount and leaves the position as it is, so that `mymounts_start` would find
  that mount again. Everywhere else they agree (`resumes_iff`).
-/

namespace LittlePenguin.Mymounts

open Lib

/-! ## Resuming at a position -/

/-- Going on from `v` at the position `k` is the same as starting at the next position. -/
def Resumes (ns : MntNamespace) (v : MountPtr) (k : ℤ) : Prop :=
  (mymountsNext ns v k).2 = k + 1 ∧
    mymountsStart ns (mymountsNext ns v k).2 = (mymountsNext ns v k).1

/-- At the mount listed at `k`, the callbacks agree exactly if it is not the last one. -/
theorem resumes_iff_of_listed {ns : MntNamespace} {v : MountPtr} {k : ℕ}
    (h : ns.listed[k]? = some v) : Resumes ns v k ↔ k + 1 < ns.listed.length := by
  rw [Resumes, mymountsNext_eq h]
  constructor
  · rintro ⟨hpos, _⟩
    by_contra hlast
    rw [if_pos (Nat.le_of_not_lt hlast)] at hpos
    omega
  · intro hlt
    rw [if_neg (Nat.not_le.2 hlt)]
    exact ⟨rfl, mymountsStart_eq (k + 1)⟩

/-- The callbacks agree at a mount found at the position `k` exactly if another
    mount is listed after it. -/
theorem resumes_iff (ns : MntNamespace) (k : ℤ) (v : MountPtr)
    (h : mymountsStart ns k = some v) : Resumes ns v k ↔ k + 1 < (ns.listed.length : ℤ) := by
  lift k to ℕ using mymountsStart_nonneg h
  rw [mymountsStart_eq] at h
  rw [resumes_iff_of_listed h]
  omega

/-- The namespace of `n` mounts, at the addresses below `n`, all but the first
    one being mounted on some directory of it. -/
def sampleNamespace (n : ℕ) : MntNamespace where
  root := 0
  tree := Walk.upTo n
  mount mnt := { mntParent := 0, mntMountpoint := mnt, mntRoot := 0 }

theorem listed_sampleNamespace (n : ℕ) : (sampleNamespace n).listed = List.range n := by
  have hskip : ∀ mnt, mymountsSkip (sampleNamespace n) mnt = false := by
    intro mnt
    cases mnt <;> simp [mymountsSkip, sampleNamespace]
  have hnodes : (sampleNamespace n).tree.nodes (sampleNamespace n).mntFirstNode = List.range n :=
    Walk.toList_upTo n
  simp [MntNamespace.listed, MntNamespace.listedFrom, hskip, hnodes]

theorem resumes_iff_two_mounts : Resumes (sampleNamespace 2) 0 0 ↔
    (0 : ℤ) + 1 < ((sampleNamespace 2).listed.length : ℤ) :=
  resumes_iff (sampleNamespace 2) 0 0
    ((mymountsStart_eq 0).trans (by rw [listed_sampleNamespace]; rfl))

/-- With the root mount alone, the position stays at it. -/
theorem root_alone_not_resumes :
    ¬∀ (ns : MntNamespace) (k : ℤ) (v : MountPtr), mymountsStart ns k = some v →
      Resumes ns v k := by
  intro hall
  have hlisted : (sampleNamespace 1).listed[0]? = some 0 := by rw [listed_sampleNamespace]; rfl
  have h := hall (sampleNamespace 1) 0 0 ((mymountsStart_eq 0).trans hlisted)
  rw [← Int.ofNat_zero, resumes_iff_of_listed hlisted, listed_sampleNamespace] at h
  exact absurd h (by simp)

/-! ## Sessions -/

/-- Mounts have been added to the right end of the tree of `ns`, nothing else has changed. -/
structure Appended (ns ns' : MntNamespace) : Prop where
  root : ns'.root = ns.root
  mount : ∀ mnt, mnt ∈ ns.tree.toList ∨ mnt = ns.root → ns'.mount mnt = ns.mount mnt
  tree : ns.tree.toList <+: ns'.tree.toList

/-- The mounts listed before are listed again, in front of the new ones. -/
theorem Appended.listed_prefix {ns ns' : MntNamespace} (h : Appended ns ns') :
    ns.listed <+: ns'.listed := by
  have hskip : ∀ mnt ∈ ns.tree.toList, (!mymountsSkip ns' mnt) = !mymountsSkip ns mnt := by
    intro mnt hmnt
    rw [mymountsSkip_congr h.root (h.mount mnt (.inl hmnt)) (h.mount ns.root (.inr rfl))]
  have hfilter : ns.listed = ns.tree.toList.filter fun mnt => !mymountsSkip ns' mnt :=
    (List.filter_congr hskip).symm
  rw [hfilter]
  exact h.tree.filter _

/-- With the index advanced at the last mount, the callbacks go over the mounts listed. -/
theorem enumerates_listed (ns : MntNamespace) : (mymountsSeqOps ns).Enumerates ns.listed where
  start := mymountsStart_eq
  advance k v h := by
    have hnext : (mymountsSeqOps ns).next v k = _ := mymountsNext_eq h k
    rw [SeqOperations.advance, hnext]
    split_ifs with hlast hpos
    · rfl
    · exact absurd rfl hpos
    · omega
    · rfl

/-- A session of reads shows the mounts listed in order, each once, wherever
    the reads are cut and whatever is mounted behind them between two reads. At
    end of file all of them have been shown, the root mount among them, and
    there it stays until something is mounted. -/
theorem listing_exactly_once (ns : MntNamespace) (i : ℤ) (shown : List MountPtr)
    (h : Session mymountsSeqOps Appended ns i shown) :
    shown <+: ns.listed ∧ shown.Nodup ∧
      ∀ i', (mymountsSeqOps ns).Read i [] i' →
        shown = ns.listed ∧ (ns.root ∈ ns.tree.toList → shown.count ns.root = 1) ∧
          ∀ more i'', (mymountsSeqOps ns).Read i' more i'' → more = [] ∧ i'' = i' := by
  have hgrow : ∀ ns ns', Appended ns ns' → ns.listed <+: ns'.listed :=
    fun _ _ => Appended.listed_prefix
  obtain ⟨hp, _⟩ := h.shown enumerates_listed hgrow
  refine ⟨hp, nodup_listed.sublist hp.sublist, fun i' heof => ?_⟩
  obtain ⟨rfl, rfl⟩ := h.shown_eq_of_eof enumerates_listed hgrow heof
  refine ⟨rfl, fun hroot => ?_, fun more i'' => h.read_eq_nil enumerates_listed hgrow⟩
  exact List.count_eq_one_of_mem nodup_listed (root_mem_listed hroot)

/-- Two of three mounts are read, a fourth one is mounted, and two more are read. -/
theorem session_sampleNamespace :
    Session mymountsSeqOps Appended (sampleNamespace 4) 4 [0, 1, 2, 3] := by
  have hread : ∀ n k m : ℕ, k + m < n → (mymountsSeqOps (sampleNamespace n)).Read k
      (((List.range n).drop k).take (m + 1)) ((k + m + 1 : ℕ) : ℤ) := fun n k m hm => by
    have h := (enumerates_listed (sampleNamespace n)).read (k := k) (n := m)
      (by rwa [listed_sampleNamespace, List.length_range])
    rwa [listed_sampleNamespace] at h
  have happended : Appended (sampleNamespace 3) (sampleNamespace 4) :=
    ⟨rfl, fun _ _ => rfl, by
      change (Walk.upTo 3).toList <+: (Walk.upTo 4).toList
      rw [Walk.toList_upTo, Walk.toList_upTo]
      decide⟩
  have hfirst : Session mymountsSeqOps Appended (sampleNamespace 3) 2 [0, 1] :=
    (Session.opened (sampleNamespace 3)).read (hread 3 0 1 (by decide))
  exact (hfirst.changed happended).read (hread 4 2 1 (by decide))

theorem listing_four_mounts :
    [0, 1, 2, 3] = (sampleNamespace 4).listed ∧ [0, 1, 2, 3].Nodup := by
  have heof : (mymountsSeqOps (sampleNamespace 4)).Read 4 [] 4 :=
    .eof ((mymountsStart_eq 4).trans (by rw [listed_sampleNamespace]; rfl))
  obtain ⟨_, hnodup, hend⟩ := listing_exactly_once (sampleNamespace 4) 4 [0, 1, 2, 3]
    session_sampleNamespace
  exact ⟨(hend 4 heof).1, hnodup⟩

end LittlePenguin.Mymounts
