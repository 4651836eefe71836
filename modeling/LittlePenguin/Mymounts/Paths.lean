import LittlePenguin.Lib.Forest
import LittlePenguin.Mymounts.Show

/-!
# The tree of mounts

The path of a mount is the path of the mount it is mounted in, followed by the
path inside of that one of the directory it is mounted on; the path of the root
mount is `/` (`MountTree.path`). What `ex09/mount.c` prints in front of a path,
and whether it prints it at all, it finds out without paths, from the mount and
the one it is mounted in. This goes wrong with mounts on the root directory of
another mount, which have the same path as that one.

* The name printed for a mount is the last component of its path if it is not
  mounted on the root directory of its parent; if it is, this holds only if that
  directory happens to have the same name as the one that the stack of mounts
  stands on (`labelled_iff`).
* `/` is shown once, for the root mount, exactly if nothing is mounted on the
  root directory of a mount that covers the root mount (`showsRootOnce_iff`).
-/

namespace LittlePenguin.Mymounts

open Lib

/-! ## Directory entries -/

/-- The directory entries of the kernel, which hang in a tree for each filesystem. -/
structure Dcache where
  forest : Forest DentryPtr
  /-- The name of an entry. -/
  dName : DentryPtr → Bytes
  /-- The root directory of a filesystem has the name `/`. -/
  dName_root : ∀ d, forest.parent d = none → dName d = ascii "/"
  /-- The names of other entries are not empty, and have no slashes in them. -/
  dName_ne : ∀ d, forest.parent d ≠ none → dName d ≠ [] ∧ 47 ∉ dName d

namespace Dcache

variable (C : Dcache) {r d : DentryPtr}

/-- The names on the way from the directory `r` down to `d`. -/
def names (r d : DentryPtr) : List Bytes := ((C.forest.route r d).getD []).map C.dName

@[simp] theorem names_self (r : DentryPtr) : C.names r r = [] := by
  rw [names, Forest.route_self]
  rfl

variable {C}

/-- Inside of `r`, the last name on the way to `d` is that of `d`. -/
theorem getLast?_names (h : C.forest.route r d ≠ none) (hne : d ≠ r) :
    (C.names r d).getLast? = some (C.dName d) ∧ 47 ∉ C.dName d := by
  obtain ⟨l, hl⟩ := Option.ne_none_iff_exists'.1 h
  obtain ⟨b, k, hb, _, rfl⟩ := Forest.exists_of_route hl hne
  have hparent : C.forest.parent d ≠ none := by
    rw [hb]
    exact Option.some_ne_none b
  refine ⟨?_, (C.dName_ne d hparent).2⟩
  rw [names, hl, Option.getD_some, List.map_append, List.map_singleton, List.getLast?_concat]

/-- No name on the way is empty. -/
theorem nil_not_mem_names : [] ∉ C.names r d := by
  rw [names]
  cases hl : C.forest.route r d with
  | none => exact List.not_mem_nil
  | some l =>
    intro hmem
    obtain ⟨b, hb, hname⟩ := List.mem_map.1 hmem
    exact (C.dName_ne b (Forest.parent_ne_none_of_mem_route hl hb)).1 hname

end Dcache

/-! ## Mounts -/

/-- The mount that `v` is mounted in, if it is a mount of the namespace other
    than the root mount. -/
def MntNamespace.parent (ns : MntNamespace) (v : MountPtr) : Option MountPtr :=
  if v ∈ ns.tree.toList ∧ v ≠ ns.root then some (ns.mount v).mntParent else none

theorem MntNamespace.parent_of_mem {ns : MntNamespace} {v : MountPtr} (hv : v ∈ ns.tree.toList)
    (hroot : v ≠ ns.root) : ns.parent v = some (ns.mount v).mntParent :=
  if_pos ⟨hv, hroot⟩

theorem MntNamespace.parent_eq_some {ns : MntNamespace} {u v : MountPtr}
    (h : ns.parent v = some u) :
    (v ∈ ns.tree.toList ∧ v ≠ ns.root) ∧ (ns.mount v).mntParent = u :=
  (Option.ite_none_right_eq_some.1 h).imp_right Option.some.inj

/-- A namespace whose mounts hang in a tree, below the root mount. -/
structure MountTree where
  ns : MntNamespace
  dcache : Dcache
  /-- The way up comes to an end, from any mount. -/
  ends : WellFounded fun u v => ns.parent v = some u
  /-- A mount is mounted in a mount of the namespace, … -/
  parent_mem : ∀ v u, ns.parent v = some u → u ∈ ns.tree.toList ∨ u = ns.root
  /-- … on a directory inside of it. -/
  inside : ∀ v u, ns.parent v = some u →
    dcache.forest.route (ns.mount u).mntRoot (ns.mount v).mntMountpoint ≠ none

/-- A path with the given components. -/
def pathText : List Bytes → Bytes
  | [] => ascii "/"
  | c :: cs => (c :: cs).flatMap (47 :: ·)

theorem pathText_eq_slash_iff {path : List Bytes} (h : [] ∉ path) :
    pathText path = ascii "/" ↔ path = [] := by
  cases path with
  | nil => exact iff_of_true rfl rfl
  | cons c cs =>
    refine iff_of_false (fun heq => ?_) (List.cons_ne_nil c cs)
    have htail : c ++ cs.flatMap (47 :: ·) = [] := (List.cons.inj heq).2
    rw [(List.append_eq_nil_iff.1 htail).1] at h
    exact h List.mem_cons_self

namespace MountTree

variable (T : MountTree)

/-- The tree of the mounts. -/
def forest : Forest MountPtr := ⟨T.ns.parent, T.ends⟩

/-- The path inside of the mount `u` of the directory that `v` is mounted on. -/
def step (u v : MountPtr) : List Bytes :=
  T.dcache.names (T.ns.mount u).mntRoot (T.ns.mount v).mntMountpoint

/-- The components of the path of a mount. -/
def path (v : MountPtr) : List Bytes := T.forest.labels T.step v

/-- The directory entries as the listing prints them. -/
def dentries : Dentries where
  dName := T.dcache.dName
  dPath v d := pathText (T.path v ++ T.dcache.names (T.ns.mount v).mntRoot d)

/-- Whether `v` is mounted on the root directory of its parent. -/
def OnRoot (v : MountPtr) : Prop :=
  (T.ns.mount v).mntMountpoint = (T.ns.mount (T.ns.mount v).mntParent).mntRoot

instance : DecidablePred T.OnRoot := fun _ => inferInstanceAs (Decidable (_ = _))

/-- `v` is mounted in `u`, on its root directory. -/
def Covers (v u : MountPtr) : Prop := T.ns.parent v = some u ∧ T.OnRoot v

/-- The mount at the bottom of the stack of mounts that `v` is on, each of which
    is mounted on the root directory of the next one. -/
def bottom (v : MountPtr) : MountPtr := T.forest.climb T.OnRoot v

variable {T} {u v : MountPtr}

@[simp] theorem path_root : T.path T.ns.root = [] :=
  Forest.labels_of_none (if_neg fun h => h.2 rfl)

theorem path_of_parent (h : T.ns.parent v = some u) : T.path v = T.path u ++ T.step u v :=
  Forest.labels_of_some h

theorem nil_not_mem_path (v : MountPtr) : [] ∉ T.path v := fun h => by
  obtain ⟨_, _, _, hmem⟩ := Forest.mem_labels h
  exact Dcache.nil_not_mem_names hmem

/-- Nothing is added to the path on the root directory of the parent. -/
theorem step_of_onRoot (h : T.ns.parent v = some u) (hv : T.OnRoot v) : T.step u v = [] := by
  obtain ⟨_, rfl⟩ := MntNamespace.parent_eq_some h
  rw [step, hv, Dcache.names_self]

/-- On any other directory, its name is. -/
theorem getLast?_step (h : T.ns.parent v = some u) (hv : ¬T.OnRoot v) :
    (T.step u v).getLast? = some (T.dcache.dName (T.ns.mount v).mntMountpoint) ∧
      47 ∉ T.dcache.dName (T.ns.mount v).mntMountpoint := by
  obtain ⟨_, rfl⟩ := MntNamespace.parent_eq_some h
  exact Dcache.getLast?_names (T.inside v _ h) hv

theorem path_of_onRoot (h : T.ns.parent v = some u) (hv : T.OnRoot v) : T.path v = T.path u := by
  rw [path_of_parent h, step_of_onRoot h hv, List.append_nil]

theorem getLast?_path (h : T.ns.parent v = some u) (hv : ¬T.OnRoot v) :
    (T.path v).getLast? = some (T.dcache.dName (T.ns.mount v).mntMountpoint) := by
  rw [path_of_parent h, List.getLast?_append, (getLast?_step h hv).1, Option.some_or]

/-- The mounts of a stack have the same path. -/
theorem path_bottom (v : MountPtr) : T.path (T.bottom v) = T.path v := by
  have hstep : ∀ v u, T.ns.parent v = some u → T.OnRoot v → T.step u v = [] :=
    fun _ _ => step_of_onRoot
  exact Forest.labels_climb hstep v

/-- A path is `/` exactly if it is that of the parent, and nothing is added to it. -/
theorem path_eq_nil_iff (h : T.ns.parent v = some u) :
    T.path v = [] ↔ T.path u = [] ∧ T.OnRoot v := by
  by_cases hv : T.OnRoot v
  · rw [path_of_onRoot h hv, and_iff_left hv]
  · refine iff_of_false (fun hnil => ?_) fun hboth => hv hboth.2
    have hlast := getLast?_path h hv
    rw [hnil] at hlast
    exact absurd hlast.symm (Option.some_ne_none _)

variable (T) in
/-- The root directory of a mount has the path of the mount. -/
theorem dPath_mntRoot (v : MountPtr) :
    T.dentries.dPath v (T.ns.mount v).mntRoot = pathText (T.path v) := by
  change pathText (T.path v ++ T.dcache.names _ _) = _
  rw [Dcache.names_self, List.append_nil]

variable (T) in
/-- What is printed for a path is `/` exactly if the path is. -/
theorem printedPath_eq_slash_iff (v : MountPtr) :
    printedPath T.dentries T.ns v = ascii "/" ↔ T.path v = [] := by
  have hslash : unmangle (ascii "/") = ascii "/" := by decide
  rw [← pathText_eq_slash_iff (nil_not_mem_path v), ← dPath_mntRoot]
  constructor
  · intro h
    rw [← unmangle_printedPath, h, hslash]
  · intro h
    rw [printedPath, h]
    decide

/-- A stack stands on the root mount, or on a directory further down in some
    mount, whose name the path then ends with. -/
theorem bottom_cases (hv : v ∈ T.ns.tree.toList) :
    T.bottom v = T.ns.root ∧ T.path v = [] ∨
      T.bottom v ≠ T.ns.root ∧
        (T.path v).getLast? = some (T.dcache.dName (T.ns.mount (T.bottom v)).mntMountpoint) ∧
        47 ∉ T.dcache.dName (T.ns.mount (T.bottom v)).mntMountpoint := by
  have hmem : T.bottom v ∈ T.ns.tree.toList ∨ T.bottom v = T.ns.root :=
    Forest.climb_induct (fun a b h _ _ => T.parent_mem a b h) (.inl hv)
  rw [← path_bottom v]
  by_cases hroot : T.bottom v = T.ns.root
  · rw [hroot, path_root]
    exact .inl ⟨rfl, rfl⟩
  · have hparent := MntNamespace.parent_of_mem (hmem.resolve_right hroot) hroot
    have hnot : ¬T.OnRoot (T.bottom v) := Forest.not_of_parent_climb hparent
    exact .inr ⟨hroot, getLast?_path hparent hnot, (getLast?_step hparent hnot).2⟩

end MountTree

/-! ## Stacks of mounts -/

/-- A filesystem with a directory `mnt`, and any number of empty ones. -/
def mntDcache : Dcache where
  forest :=
    { parent := fun d => if d = 1 then some 0 else none
      ends := by
        refine Subrelation.wf (fun {e d} h => ?_) (measure fun d : ℕ => d).wf
        change e < d
        split_ifs at h with hd
        obtain rfl := Option.some.inj h
        rw [hd]
        decide }
  dName d := if d = 1 then ascii "mnt" else ascii "/"
  dName_root d h := if_neg fun hd => absurd ((if_pos hd).symm.trans h) nofun
  dName_ne d h := by
    split_ifs with hd
    · decide
    · exact absurd (if_neg hd) h

/-- `n` mounts, of which the one at the address `1` is mounted on the directory
    `d` of the one at `0`, and each other one on the root directory of the one before. -/
def stack (n : ℕ) (d : DentryPtr) (hd : mntDcache.forest.route 0 d ≠ none) : MountTree where
  ns :=
    { root := 0
      tree := Walk.upTo n
      mount := fun v => ⟨v - 1, if v = 1 then d else v, if v = 0 then 0 else v + 1⟩ }
  dcache := mntDcache
  ends := by
    refine Subrelation.wf (fun {u v} h => ?_) (measure fun v : ℕ => v).wf
    obtain ⟨⟨_, hroot⟩, rfl⟩ := MntNamespace.parent_eq_some h
    exact Nat.pred_lt hroot
  parent_mem v u h := by
    obtain ⟨⟨hv, _⟩, rfl⟩ := MntNamespace.parent_eq_some h
    exact .inl (Walk.mem_upTo.2 ((Nat.sub_le v 1).trans_lt (Walk.mem_upTo.1 hv)))
  inside v u h := by
    obtain ⟨⟨_, hroot⟩, rfl⟩ := MntNamespace.parent_eq_some h
    match v with
    | 0 => exact absurd rfl hroot
    | 1 => exact hd
    | v + 2 =>
      change mntDcache.forest.route (v + 2) (v + 2) ≠ none
      rw [Forest.route_self]
      exact Option.some_ne_none []

/-- The directory `mnt` is below the root directory. -/
theorem route_mnt : mntDcache.forest.route 0 1 ≠ none := by
  have hparent : mntDcache.forest.parent 1 = some 0 := rfl
  rw [Forest.route_of_parent hparent (by decide), Forest.route_self]
  exact nofun

theorem route_slash : mntDcache.forest.route 0 0 ≠ none := by
  rw [Forest.route_self]
  exact nofun

section

variable {n : ℕ} {d : DentryPtr} {hd : mntDcache.forest.route 0 d ≠ none} {u v : MountPtr}

theorem parent_stack (h : v + 1 < n) : (stack n d hd).ns.parent (v + 1) = some v :=
  MntNamespace.parent_of_mem (Walk.mem_upTo.2 h) (Nat.succ_ne_zero v)

theorem covers_stack (h : (stack n d hd).Covers v u) : v = u + 1 ∧ v < n := by
  obtain ⟨⟨hv, hroot⟩, rfl⟩ := MntNamespace.parent_eq_some h.1
  exact ⟨(Nat.succ_pred hroot).symm, Walk.mem_upTo.1 hv⟩

/-- The mounts of the stack have the same path. -/
theorem path_stack (h : v + 2 < n) :
    (stack n d hd).path (v + 2) = (stack n d hd).path (v + 1) :=
  MountTree.path_of_onRoot (parent_stack h) rfl

theorem mem_listed_stack (h : v < n) (hskip : mymountsSkip (stack n d hd).ns v = false) :
    v ∈ (stack n d hd).ns.listed :=
  List.mem_filter.2 ⟨Walk.mem_upTo.2 h, by rw [hskip]; rfl⟩

end

/-! ## Names and paths -/

variable (P : SeqPath) (T : MountTree)

/-- What is printed for a mount is the last component of its path, a space, and the path. -/
def Labelled (v : MountPtr) : Prop :=
  ∃ name, (T.path v).getLast? = some name ∧
    mymountsShow P T.dentries T.ns v =
      name ++ ascii " " ++ mangle (ascii " \t\n\\") (pathText (T.path v)) ++ ascii "\n"

/-- The name printed for a mount other than the root mount is that of its mountpoint. -/
theorem labelled_iff_name {v : MountPtr} (hroot : v ≠ T.ns.root) :
    Labelled P T v ↔
      (T.path v).getLast? = some (T.dcache.dName (T.ns.mount v).mntMountpoint) := by
  have hshow : mymountsShow P T.dentries T.ns v =
      T.dcache.dName (T.ns.mount v).mntMountpoint ++ ascii " " ++
        mangle (ascii " \t\n\\") (pathText (T.path v)) ++ ascii "\n" := by
    rw [mymountsShow, if_neg hroot, P.seqPath_eq, T.dPath_mntRoot]
    rfl
  constructor
  · rintro ⟨name, hlast, heq⟩
    rw [hshow] at heq
    have hname := List.append_cancel_right (List.append_cancel_right (List.append_cancel_right heq))
    rw [hlast, hname]
  · exact fun hlast => ⟨_, hlast, hshow⟩

/-- A mount listed is labelled with the last component of its path exactly if
    the stack that it is on does not stand on the root mount, and the directory
    it is mounted on has the same name as the one that the stack stands on. Where
    the parent is a whole filesystem, this is so exactly if the mount is not on the
    root directory of it. -/
theorem labelled_iff (v : MountPtr) (hv : v ∈ T.ns.listed) (hroot : v ≠ T.ns.root) :
    (Labelled P T v ↔ T.bottom v ≠ T.ns.root ∧
      T.dcache.dName (T.ns.mount v).mntMountpoint =
        T.dcache.dName (T.ns.mount (T.bottom v)).mntMountpoint) ∧
    (T.dcache.forest.parent (T.ns.mount (T.ns.mount v).mntParent).mntRoot = none →
      (Labelled P T v ↔ ¬T.OnRoot v)) := by
  have hmem : v ∈ T.ns.tree.toList := List.mem_of_mem_filter hv
  rw [labelled_iff_name P T hroot]
  refine ⟨?_, fun hfs => ⟨fun hlast hon => ?_, fun hnot => ?_⟩⟩
  · rcases T.bottom_cases hmem with ⟨hbottom, hpath⟩ | ⟨hbottom, hlast, _⟩
    · rw [hpath]
      exact iff_of_false nofun fun h => h.1 hbottom
    · rw [hlast, and_iff_right hbottom, Option.some.injEq]
      exact eq_comm
  · -- The name printed is `/`, which is not a component of any path.
    have hslash : T.dcache.dName (T.ns.mount v).mntMountpoint = ascii "/" := by
      rw [hon, T.dcache.dName_root _ hfs]
    rcases T.bottom_cases hmem with ⟨_, hpath⟩ | ⟨_, hbottom, hno⟩
    · rw [hpath] at hlast
      exact absurd hlast nofun
    · rw [← Option.some.inj (hlast.symm.trans hbottom), hslash] at hno
      exact absurd hno (by decide)
  · exact MountTree.getLast?_path (MntNamespace.parent_of_mem hmem hroot) hnot

/-- A mount on `/mnt` is labelled with that name. -/
theorem labelled_mnt : Labelled .reference (stack 2 1 route_mnt) 1 :=
  ((labelled_iff .reference (stack 2 1 route_mnt) 1 (mem_listed_stack (by decide) rfl)
    (by decide)).2 rfl).2 (by decide)

/-- A second mount on top of it is not: its name is printed as `/`. -/
theorem stacked_not_labelled :
    ¬∀ (T : MountTree) (v : MountPtr), v ∈ T.ns.listed → v ≠ T.ns.root →
      Labelled .reference T v := by
  intro hall
  have hlast := (labelled_iff_name _ _ (by decide)).1
    (hall (stack 3 1 route_mnt) 2 (mem_listed_stack (by decide) rfl) (by decide))
  have hbottom : (stack 3 1 route_mnt).ns.parent 1 = some 0 := parent_stack (by decide)
  rw [path_stack (by decide), MountTree.getLast?_path hbottom (by decide)] at hlast
  exact absurd hlast (by decide)

/-! ## The root directory -/

/-- The mounts that are skipped are those that cover the root mount. -/
theorem mymountsSkip_iff_covers {v : MountPtr} (hv : v ∈ T.ns.tree.toList) :
    mymountsSkip T.ns v = true ↔ T.Covers v T.ns.root := by
  simp only [mymountsSkip, Bool.and_eq_true, bne_iff_ne, beq_iff_eq]
  constructor
  · rintro ⟨⟨hroot, hparent⟩, hpoint⟩
    refine ⟨?_, ?_⟩
    · rw [MntNamespace.parent_of_mem hv hroot, hparent]
    · rw [MountTree.OnRoot, hparent, hpoint]
  · rintro ⟨hparent, hon⟩
    obtain ⟨⟨_, hroot⟩, heq⟩ := MntNamespace.parent_eq_some hparent
    rw [MountTree.OnRoot, heq] at hon
    exact ⟨⟨hroot, heq⟩, hon⟩

theorem mem_listed_iff {v : MountPtr} (hv : v ∈ T.ns.tree.toList) :
    v ∈ T.ns.listed ↔ ¬T.Covers v T.ns.root := by
  have hnode : v ∈ T.ns.tree.nodes T.ns.mntFirstNode := hv
  rw [← mymountsSkip_iff_covers T hv, MntNamespace.listed, MntNamespace.listedFrom,
    List.mem_filter, and_iff_right hnode, Bool.not_eq_true', Bool.not_eq_true]

/-- `/` is shown for the root mount and no other one, and whatever has another
    path is listed. -/
def ShowsRootOnce : Prop :=
  (∀ v, v ∈ T.ns.listed ∧ printedPath T.dentries T.ns v = ascii "/" ↔ v = T.ns.root) ∧
    ∀ v ∈ T.ns.tree.toList, printedPath T.dentries T.ns v ≠ ascii "/" → v ∈ T.ns.listed

variable {T}

/-- With nothing on what covers the root mount, only that and the root mount have the path `/`. -/
theorem root_or_covers (hflat : ∀ u v, T.Covers u T.ns.root → ¬T.Covers v u) {v : MountPtr}
    (hv : v ∈ T.ns.tree.toList ∨ v = T.ns.root) (hpath : T.path v = []) :
    v = T.ns.root ∨ T.Covers v T.ns.root := by
  induction v using T.ends.induction with
  | h v ih =>
    refine or_iff_not_imp_left.2 fun hroot => ?_
    have hparent := MntNamespace.parent_of_mem (hv.resolve_right hroot) hroot
    obtain ⟨hupath, hon⟩ := (MountTree.path_eq_nil_iff hparent).1 hpath
    rcases ih _ hparent (T.parent_mem v _ hparent) hupath with hu | hu
    · exact ⟨by rw [hparent, hu], hon⟩
    · exact absurd ⟨hparent, hon⟩ (hflat _ v hu)

variable (T)

/-- `/` is shown once exactly if nothing is mounted on the root directory of a
    mount that covers the root mount. -/
theorem showsRootOnce_iff (hroot : T.ns.root ∈ T.ns.tree.toList) :
    ShowsRootOnce T ↔ ∀ u v, T.Covers u T.ns.root → ¬T.Covers v u := by
  simp only [ShowsRootOnce, ne_eq, T.printedPath_eq_slash_iff]
  constructor
  · rintro ⟨honce, _⟩ u v hu hv
    obtain ⟨⟨_, hune⟩, _⟩ := MntNamespace.parent_eq_some hu.1
    obtain ⟨⟨hvmem, hvne⟩, _⟩ := MntNamespace.parent_eq_some hv.1
    have hpath : T.path v = [] := by
      rw [MountTree.path_of_onRoot hv.1 hv.2, MountTree.path_of_onRoot hu.1 hu.2,
        MountTree.path_root]
    have hlisted : v ∈ T.ns.listed := (mem_listed_iff T hvmem).2 fun hcovers =>
      hune (Option.some.inj (hv.1.symm.trans hcovers.1))
    exact hvne ((honce v).1 ⟨hlisted, hpath⟩)
  · refine fun hflat => ⟨fun v => ⟨fun ⟨hlisted, hpath⟩ => ?_, ?_⟩, fun v hv hne => ?_⟩
    · have hmem : v ∈ T.ns.tree.toList := List.mem_of_mem_filter hlisted
      refine (root_or_covers hflat (.inl hmem) hpath).resolve_right ?_
      exact (mem_listed_iff T hmem).1 hlisted
    · rintro rfl
      exact ⟨root_mem_listed hroot, MountTree.path_root⟩
    · refine (mem_listed_iff T hv).2 fun hcovers => hne ?_
      rw [MountTree.path_of_onRoot hcovers.1 hcovers.2, MountTree.path_root]

/-- With one mount on the root directory, `/` is shown once. -/
theorem showsRootOnce_one_cover : ShowsRootOnce (stack 2 0 route_slash) := by
  have hroot : 0 ∈ (Walk.upTo 2).toList := Walk.mem_upTo.2 (by decide)
  refine (showsRootOnce_iff (stack 2 0 route_slash) hroot).2 fun u v hu hv => ?_
  obtain ⟨rfl, _⟩ := covers_stack hu
  obtain ⟨rfl, hlt⟩ := covers_stack hv
  exact absurd hlt (by decide)

/-- With two of them on top of each other, it is not. -/
theorem two_covers_not_once :
    ¬∀ T : MountTree, T.ns.root ∈ T.ns.tree.toList → ShowsRootOnce T := by
  intro hall
  have hroot : 0 ∈ (Walk.upTo 3).toList := Walk.mem_upTo.2 (by decide)
  have honce := (hall (stack 3 0 route_slash) hroot).1 2
  have hbottom : (stack 3 0 route_slash).ns.parent 1 = some 0 := parent_stack (by decide)
  have hpath : (stack 3 0 route_slash).path 2 = [] := by
    rw [path_stack (by decide), MountTree.path_of_onRoot hbottom rfl]
    exact MountTree.path_root
  rw [MountTree.printedPath_eq_slash_iff] at honce
  exact absurd (honce.1 ⟨mem_listed_stack (by decide) rfl, hpath⟩) (by decide)

end LittlePenguin.Mymounts
