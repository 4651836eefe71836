import LittlePenguin.Lib.SeqFile
import LittlePenguin.Lib.Walk

/-!
# Listing the mounts of a namespace

`/proc/mymounts` (`ex09/mount.c`) is a sequence file over the mounts of a mount
namespace. The mounts hang in a red-black tree, of which the module only uses
the first node and the way from a node to the next one: a walk. A position of
the file counts the mounts that are not skipped (`mymountsSkip`); a mount is
skipped if it lies directly on the root directory of the namespace.

* `mymountsStart` counts from the first node to the mount at a position;
* `mymountsNext` goes on from a mount, and advances the position if it finds one.

Both look for their mounts in a loop of their own. What they find is described
by one list, the mounts listed from a node on (`MntNamespace.listedFrom`):
`mymountsStart_eq` and `mymountsNext_eq`.
-/

namespace LittlePenguin.Mymounts

open Lib

/-- The address of a mount. -/
abbrev MountPtr := ℕ

/-- The address of a directory entry. -/
abbrev DentryPtr := ℕ

/-- A mount, as far as the listing looks at it. -/
structure Mount where
  /-- The mount it is mounted in. -/
  mntParent : MountPtr
  /-- The directory it is mounted on. -/
  mntMountpoint : DentryPtr
  /-- The root directory of what is mounted. -/
  mntRoot : DentryPtr

/-- A mount namespace, with the mounts its pointers lead to. -/
structure MntNamespace where
  /-- The root mount. -/
  root : MountPtr
  /-- The walk over the tree of its mounts, in order. -/
  tree : Walk MountPtr
  /-- The mount at an address. -/
  mount : MountPtr → Mount

namespace MntNamespace

variable (ns : MntNamespace)

/-- The first node of the tree. -/
abbrev mntFirstNode : Option MountPtr := ns.tree.first

/-- The node after `mnt` in the tree. -/
abbrev rbNext (mnt : MountPtr) : Option MountPtr := ns.tree.next mnt

end MntNamespace

variable (ns : MntNamespace)

/-- Whether a mount is left out: it covers the root directory of the root mount. -/
def mymountsSkip (mnt : MountPtr) : Bool :=
  mnt != ns.root && (ns.mount mnt).mntParent == ns.root &&
    (ns.mount mnt).mntMountpoint == (ns.mount ns.root).mntRoot

/-- Whether a mount is left out depends on it and the root mount only. -/
theorem mymountsSkip_congr {ns ns' : MntNamespace} {mnt : MountPtr} (hroot : ns'.root = ns.root)
    (hmnt : ns'.mount mnt = ns.mount mnt) (hmount : ns'.mount ns.root = ns.mount ns.root) :
    mymountsSkip ns' mnt = mymountsSkip ns mnt := by
  rw [mymountsSkip, mymountsSkip, hroot, hmnt, hmount]

/-- The loop of `mymounts_start`, having counted `i` mounts before `node`. -/
def mymountsStart.loop (pos : ℤ) : Option MountPtr → ℤ → Option MountPtr
  | none, _ => none
  | some mnt, i =>
    if !mymountsSkip ns mnt then
      if i = pos then some mnt else loop pos (ns.rbNext mnt) (i + 1)
    else loop pos (ns.rbNext mnt) i
termination_by node => ns.tree.wellFounded.wrap node
decreasing_by all_goals exact ⟨mnt, rfl, rfl⟩

/-- The mount at the position `pos`. -/
def mymountsStart (pos : ℤ) : Option MountPtr :=
  mymountsStart.loop ns pos ns.mntFirstNode 0

/-- The loop of `mymounts_next`. -/
def mymountsNext.loop (pos : ℤ) : Option MountPtr → Option MountPtr × ℤ
  | none => (none, pos)
  | some mnt => if !mymountsSkip ns mnt then (some mnt, pos + 1) else loop pos (ns.rbNext mnt)
termination_by node => ns.tree.wellFounded.wrap node
decreasing_by exact ⟨mnt, rfl, rfl⟩

/-- The mount after `v`, and the position it leaves. -/
def mymountsNext (v : MountPtr) (pos : ℤ) : Option MountPtr × ℤ :=
  mymountsNext.loop ns pos (ns.rbNext v)

/-- The callbacks of the file, of those that find mounts. -/
def mymountsSeqOps : SeqOperations MountPtr where
  start := mymountsStart ns
  next := mymountsNext ns

/-! ## The mounts listed -/

/-- The mounts listed from `node` on. -/
def MntNamespace.listedFrom (node : Option MountPtr) : List MountPtr :=
  (ns.tree.nodes node).filter fun mnt => !mymountsSkip ns mnt

/-- The mounts of the namespace that are not skipped, in order. -/
def MntNamespace.listed : List MountPtr := ns.listedFrom ns.mntFirstNode

variable {ns}

@[simp] theorem listedFrom_none : ns.listedFrom none = [] := by simp [MntNamespace.listedFrom]

theorem listedFrom_some (mnt : MountPtr) : ns.listedFrom (some mnt) =
    if !mymountsSkip ns mnt then mnt :: ns.listedFrom (ns.rbNext mnt)
    else ns.listedFrom (ns.rbNext mnt) := by
  rw [MntNamespace.listedFrom, Walk.nodes_some, List.filter_cons]
  rfl

theorem root_not_skipped : mymountsSkip ns ns.root = false := by simp [mymountsSkip]

/-- The root mount is listed if it is in the tree. -/
theorem root_mem_listed (h : ns.root ∈ ns.tree.toList) : ns.root ∈ ns.listed :=
  List.mem_filter.2 ⟨h, by rw [root_not_skipped]; rfl⟩

/-- No mount is listed twice. -/
theorem nodup_listed : ns.listed.Nodup := (Walk.nodup_nodes _).filter _

/-- Behind the mount listed at `k`, the mounts listed are those after `k`. -/
theorem listedFrom_rbNext {k : ℕ} {v : MountPtr} (h : ns.listed[k]? = some v) :
    ns.listedFrom (ns.rbNext v) = ns.listed.drop (k + 1) := by
  obtain ⟨hk, hv⟩ := List.getElem?_eq_some_iff.1 h
  have hsplit : ns.listed = ns.listed.take k ++ v :: ns.listed.drop (k + 1) := by
    rw [← hv, ← List.drop_eq_getElem_cons hk, List.take_append_drop]
  -- The same split of all the nodes, the skipped ones included.
  obtain ⟨l, r, hnodes, _, hr⟩ := List.filter_eq_append_iff.1 hsplit
  obtain ⟨m, t, rfl, _, _, ht⟩ := List.filter_eq_cons_iff.1 hr
  rw [← List.append_assoc] at hnodes
  rw [← ht, MntNamespace.listedFrom, Walk.nodes_some_of_eq_append hnodes]

/-! ## What the loops find -/

/-- With `i` mounts counted before `node`, the loop finds the mount listed
    `k` places behind it at the position `i + k`. -/
theorem mymountsStart.loop_eq (node : Option MountPtr) (i : ℤ) (k : ℕ) :
    mymountsStart.loop ns (i + k) node i = (ns.listedFrom node)[k]? := by
  induction node using ns.tree.induct generalizing i k with
  | none => rw [mymountsStart.loop, listedFrom_none, List.getElem?_nil]
  | some mnt ih =>
    rw [mymountsStart.loop, listedFrom_some]
    by_cases hs : mymountsSkip ns mnt
    · simp only [hs, Bool.not_true, Bool.false_eq_true, if_false]
      exact ih i k
    · simp only [hs, Bool.not_false, if_true]
      -- A mount that is not skipped takes one off the places still to go.
      cases k with
      | zero => simp
      | succ k =>
        have hpos : i + ((k + 1 : ℕ) : ℤ) = (i + 1) + (k : ℤ) := by omega
        rw [if_neg (by omega), hpos, ih, List.getElem?_cons_succ]

/-- A position already passed is not found any more. -/
theorem mymountsStart.loop_eq_none {pos : ℤ} (node : Option MountPtr) {i : ℤ} (h : pos < i) :
    mymountsStart.loop ns pos node i = none := by
  induction node using ns.tree.induct generalizing i with
  | none => rw [mymountsStart.loop]
  | some mnt ih =>
    rw [mymountsStart.loop]
    split_ifs with hs hi
    · exact absurd h (by omega)
    · exact ih (by omega)
    · exact ih h

/-- `mymounts_start` finds the mount listed at the position. -/
theorem mymountsStart_eq (k : ℕ) : mymountsStart ns k = ns.listed[k]? := by
  have h : mymountsStart.loop ns (0 + k) ns.mntFirstNode 0 = _ := mymountsStart.loop_eq _ 0 k
  rwa [Int.zero_add] at h

/-- It finds nothing at a negative position. -/
theorem mymountsStart_nonneg {pos : ℤ} {v : MountPtr} (h : mymountsStart ns pos = some v) :
    0 ≤ pos := by
  by_contra hneg
  rw [mymountsStart, mymountsStart.loop_eq_none _ (by omega)] at h
  exact Option.some_ne_none _ h.symm

theorem mymountsNext.loop_eq (pos : ℤ) (node : Option MountPtr) :
    mymountsNext.loop ns pos node =
      ((ns.listedFrom node).head?, if ns.listedFrom node = [] then pos else pos + 1) := by
  induction node using ns.tree.induct with
  | none => rw [mymountsNext.loop]; simp
  | some mnt ih =>
    rw [mymountsNext.loop, listedFrom_some]
    by_cases hs : mymountsSkip ns mnt
    · simp only [hs, Bool.not_true, Bool.false_eq_true, if_false]
      exact ih
    · simp [hs]

/-- From the mount listed at `k`, `mymounts_next` finds the one listed at
    `k + 1`; it advances the position only if there is one. -/
theorem mymountsNext_eq {k : ℕ} {v : MountPtr} (h : ns.listed[k]? = some v) (pos : ℤ) :
    mymountsNext ns v pos =
      (ns.listed[k + 1]?, if ns.listed.length ≤ k + 1 then pos else pos + 1) := by
  rw [mymountsNext, mymountsNext.loop_eq, listedFrom_rbNext h, List.head?_drop]
  simp only [List.drop_eq_nil_iff]

end LittlePenguin.Mymounts
