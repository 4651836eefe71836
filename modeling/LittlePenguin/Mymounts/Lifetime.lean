import LittlePenguin.Lib.Machine
import LittlePenguin.Lib.RefCount
import LittlePenguin.Mymounts.Listing
import Mathlib.Data.Finset.Basic

/-!
# The namespace of an open file

An open file of `/proc/mymounts` keeps a pointer to the mount namespace of the
task that has opened it. `mymounts_open` takes no reference with it, and
`mymounts_release` drops none, so that the namespace lives as long as a task is
in it, or something else in the kernel has taken a reference. The file may
outlive both, having been passed to a task of another namespace. The callbacks
find a namespace that is alive exactly if they are not called then
(`safe_iff`).
-/

namespace LittlePenguin.Mymounts

open Lib

/-- The address of a namespace. -/
abbrev NsPtr := ℕ

/-- A task. -/
abbrev Task := ℕ

/-- The address of a file. -/
abbrev FilePtr := ℕ

/-- An open file. -/
structure OpenFile where
  /-- The namespace its private data points to. -/
  ns : NsPtr
  /-- The tasks that have it open. -/
  holders : Finset Task

/-- The tasks, with their namespaces and open files. -/
structure World where
  heap : RefCount NsPtr MntNamespace
  /-- The pointers to namespaces handed out so far, none of them twice. -/
  used : NsPtr → Bool
  tasks : Finset Task
  /-- The namespace of a task. -/
  mntNs : Task → NsPtr
  /-- The references taken explicitly. -/
  pins : Multiset NsPtr
  files : FilePtr → Option OpenFile

/-- The counted references: one of each task, and the explicit ones. -/
def World.refs (w : World) : Multiset NsPtr := w.tasks.val.map w.mntNs + w.pins

/-- The references but for the one of the task. -/
def World.others (w : World) (t : Task) : Multiset NsPtr :=
  (w.tasks.erase t).val.map w.mntNs + w.pins

/-- The file that the task opens, and the heap; `ret` is what `seq_open_private`
    returns. No reference is taken. -/
def mymountsOpen (w : World) (t : Task) (ret : ℤ) :
    Except ℤ (OpenFile × RefCount NsPtr MntNamespace) :=
  let ns := w.mntNs t
  if ret ≠ 0 then .error ret else .ok ({ ns, holders := {t} }, w.heap)

/-- The heap as the file has been released. No reference is dropped. -/
def mymountsRelease (heap : RefCount NsPtr MntNamespace) (_ : OpenFile) :
    RefCount NsPtr MntNamespace := heap

inductive Call
  /-- The task opens the file, `seq_open_private` returning `ret`. -/
  | open (t : Task) (f : FilePtr) (ret : ℤ)
  /-- `mymounts_start` runs in a read of the task. -/
  | start (t : Task) (f : FilePtr) (pos : ℤ)
  /-- `mymounts_next` runs. -/
  | next (t : Task) (f : FilePtr) (v : MountPtr) (pos : ℤ)
  /-- The task closes the file, which is released with the last one having it open. -/
  | close (t : Task) (f : FilePtr)
  /-- The task passes the file to another one. -/
  | pass (t t' : Task) (f : FilePtr)
  /-- The task forks a new one, which has the same namespace and the same files open. -/
  | fork (t t' : Task)
  /-- The task exits. -/
  | exit (t : Task)
  /-- The task switches to another namespace that is there. -/
  | switch (t : Task) (n : NsPtr)
  /-- The task switches to a new namespace. -/
  | unshare (t : Task) (n : NsPtr) (ns : MntNamespace)
  /-- A reference is taken explicitly. -/
  | get (n : NsPtr)
  /-- One of these is dropped. -/
  | put (n : NsPtr)

/-- What a call ends with. -/
inductive Outcome
  /-- The call is not possible. -/
  | refused
  | done
  | error (ret : ℤ)
  /-- A callback has run on a namespace that is there. -/
  | found (v : Option MountPtr) (pos : ℤ)
  /-- A callback has run on a namespace that is not there any more. -/
  | dangling

/-- The file `f` if the task has it open. -/
def World.held (w : World) (t : Task) (f : FilePtr) : Option OpenFile :=
  if t ∈ w.tasks then (w.files f).filter (t ∈ ·.holders) else none

/-- A callback run on the file `f`. -/
def World.callback (w : World) (t : Task) (f : FilePtr)
    (run : MntNamespace → Option MountPtr × ℤ) : Outcome :=
  match w.held t f with
  | none => .refused
  | some file =>
    match w.heap.object file.ns with
    | none => .dangling
    | some ns => .found (run ns).1 (run ns).2

/-- The file after the task has closed it. -/
def OpenFile.close (t : Task) (file : OpenFile) : Option OpenFile :=
  if file.holders.erase t = ∅ then none else some { file with holders := file.holders.erase t }

/-- The file after the task has forked `t'`. -/
def OpenFile.inherit (t t' : Task) (file : OpenFile) : OpenFile :=
  if t ∈ file.holders then { file with holders := insert t' file.holders } else file

/-- The tasks in all their interleavings. -/
def tasks : Machine World Call Outcome where
  step w c :=
    match c with
    | .open t f ret =>
      if t ∈ w.tasks ∧ w.files f = none then
        match mymountsOpen w t ret with
        | .error ret => (w, .error ret)
        | .ok (file, heap) =>
          ({ w with heap, files := Function.update w.files f (some file) }, .done)
      else (w, .refused)
    | .start t f pos => (w, w.callback t f fun ns => (mymountsStart ns pos, pos))
    | .next t f v pos => (w, w.callback t f fun ns => mymountsNext ns v pos)
    | .close t f =>
      match w.held t f with
      | none => (w, .refused)
      | some file =>
        let heap := if file.close t = none then mymountsRelease w.heap file else w.heap
        ({ w with heap, files := Function.update w.files f (file.close t) }, .done)
    | .pass t t' f =>
      match w.held t f with
      | none => (w, .refused)
      | some file =>
        if t' ∈ w.tasks then
          let file := { file with holders := insert t' file.holders }
          ({ w with files := Function.update w.files f (some file) }, .done)
        else (w, .refused)
    | .fork t t' =>
      if t ∈ w.tasks ∧ t' ∉ w.tasks then
        let files := fun f => (w.files f).map (OpenFile.inherit t t')
        ({ w with
          heap := w.heap.get (w.mntNs t)
          tasks := insert t' w.tasks
          mntNs := Function.update w.mntNs t' (w.mntNs t)
          files }, .done)
      else (w, .refused)
    | .exit t =>
      if t ∈ w.tasks then
        -- The files are closed first, which leaves the heap as it is.
        let files := fun f => (w.files f).bind (OpenFile.close t)
        ({ w with heap := w.heap.put (w.mntNs t), tasks := w.tasks.erase t, files }, .done)
      else (w, .refused)
    | .switch t n =>
      if t ∈ w.tasks ∧ n ∈ w.refs then
        ({ w with
          heap := (w.heap.get n).put (w.mntNs t)
          mntNs := Function.update w.mntNs t n }, .done)
      else (w, .refused)
    | .unshare t n ns =>
      if t ∈ w.tasks ∧ w.used n = false then
        ({ w with
          heap := (w.heap.create n ns).put (w.mntNs t)
          used := Function.update w.used n true
          mntNs := Function.update w.mntNs t n }, .done)
      else (w, .refused)
    | .get n =>
      if n ∈ w.refs then ({ w with heap := w.heap.get n, pins := n ::ₘ w.pins }, .done)
      else (w, .refused)
    | .put n =>
      if n ∈ w.pins then ({ w with heap := w.heap.put n, pins := w.pins.erase n }, .done)
      else (w, .refused)

/-- The heap has counted the references there are, none of them to a pointer not
    handed out. -/
structure Consistent (w : World) : Prop where
  represents : w.heap.Represents w.refs
  used : ∀ n ∈ w.refs, w.used n = true

/-! ## The references -/

theorem map_update_of_notMem {s : Finset Task} {t : Task} (ht : t ∉ s) (mntNs : Task → NsPtr)
    (n : NsPtr) : s.val.map (Function.update mntNs t n) = s.val.map mntNs := by
  refine Multiset.map_congr rfl fun u hu => Function.update_of_ne ?_ ..
  rintro rfl
  exact ht hu

variable {w : World} {t : Task}

/-- In a new namespace, the task refers to it in place of the old one. -/
theorem refs_moved (ht : t ∈ w.tasks) (n : NsPtr) (heap : RefCount NsPtr MntNamespace)
    (used : NsPtr → Bool) :
    World.refs { w with heap, used, mntNs := Function.update w.mntNs t n } =
      n ::ₘ w.others t := by
  have hval : w.tasks.val = t ::ₘ (w.tasks.erase t).val := (Multiset.cons_erase ht).symm
  change w.tasks.val.map (Function.update w.mntNs t n) + w.pins = _
  rw [hval, Multiset.map_cons, Function.update_self,
    map_update_of_notMem (Finset.notMem_erase t w.tasks), Multiset.cons_add, World.others]

theorem refs_of_mem (ht : t ∈ w.tasks) : w.refs = w.mntNs t ::ₘ w.others t := by
  have h := refs_moved ht (w.mntNs t) w.heap w.used
  rwa [Function.update_eq_self] at h

/-- A new task refers to the namespace of the one that has forked it. -/
theorem refs_forked {t' : Task} (ht' : t' ∉ w.tasks) (n : NsPtr)
    (heap : RefCount NsPtr MntNamespace) (files : FilePtr → Option OpenFile) :
    World.refs { w with
      heap, tasks := insert t' w.tasks, mntNs := Function.update w.mntNs t' n, files } =
      n ::ₘ w.refs := by
  change (insert t' w.tasks).val.map (Function.update w.mntNs t' n) + w.pins = _
  rw [Finset.insert_val_of_notMem ht', Multiset.map_cons, Function.update_self,
    map_update_of_notMem ht', Multiset.cons_add, World.refs]

theorem mem_refs {n : NsPtr} : n ∈ w.refs ↔ (∃ u ∈ w.tasks, w.mntNs u = n) ∨ n ∈ w.pins := by
  rw [World.refs, Multiset.mem_add, Multiset.mem_map]
  rfl

/-! ## The step -/

theorem Consistent.others (hw : Consistent w) (ht : t ∈ w.tasks) {n : NsPtr}
    (hn : n ∈ w.others t) : w.used n = true :=
  hw.used n (by rw [refs_of_mem ht]; exact Multiset.mem_cons_of_mem hn)

/-- A world is consistent whose heap has counted a reference, and the remaining ones. -/
theorem consistent_of_cons {w : World} {n : NsPtr} {rest : Multiset NsPtr}
    (hrefs : w.refs = n ::ₘ rest) (h : w.heap.Represents (n ::ₘ rest)) (hn : w.used n = true)
    (hrest : ∀ m ∈ rest, w.used m = true) : Consistent w where
  represents := hrefs ▸ h
  used := by
    rw [hrefs]
    exact Multiset.forall_mem_cons.2 ⟨hn, hrest⟩

/-- The reference of the task is dropped after a new one has been given. -/
theorem represents_moved {n : NsPtr} {heap : RefCount NsPtr MntNamespace} (ht : t ∈ w.tasks)
    (h : heap.Represents (n ::ₘ w.refs)) :
    (heap.put (w.mntNs t)).Represents (n ::ₘ w.others t) := by
  have hput := h.put (w.mntNs t)
  rwa [refs_of_mem ht, Multiset.cons_swap, Multiset.erase_cons_head] at hput

theorem consistent_open (hw : Consistent w) (t : Task) (f : FilePtr) (ret : ℤ) :
    Consistent (Mymounts.tasks.step w (.open t f ret)).1 := by
  simp only [Mymounts.tasks, mymountsOpen]
  split_ifs with hopen hret
  · exact hw
  · exact ⟨hw.represents, hw.used⟩
  · exact hw

theorem consistent_close (hw : Consistent w) (t : Task) (f : FilePtr) :
    Consistent (Mymounts.tasks.step w (.close t f)).1 := by
  simp only [Mymounts.tasks, mymountsRelease, ite_self]
  split
  · exact hw
  · exact ⟨hw.represents, hw.used⟩

theorem consistent_pass (hw : Consistent w) (t t' : Task) (f : FilePtr) :
    Consistent (Mymounts.tasks.step w (.pass t t' f)).1 := by
  simp only [Mymounts.tasks]
  split
  · exact hw
  · split_ifs
    · exact ⟨hw.represents, hw.used⟩
    · exact hw

theorem consistent_fork (hw : Consistent w) (t t' : Task) :
    Consistent (Mymounts.tasks.step w (.fork t t')).1 := by
  simp only [Mymounts.tasks]
  split_ifs with hfork
  · have hmem : w.mntNs t ∈ w.refs := mem_refs.2 (.inl ⟨t, hfork.1, rfl⟩)
    exact consistent_of_cons (refs_forked hfork.2 _ _ _) (hw.represents.get hmem)
      (hw.used _ hmem) hw.used
  · exact hw

theorem consistent_exit (hw : Consistent w) (t : Task) :
    Consistent (Mymounts.tasks.step w (.exit t)).1 := by
  simp only [Mymounts.tasks]
  split_ifs with ht
  · have hput := hw.represents.put (w.mntNs t)
    rw [refs_of_mem ht, Multiset.erase_cons_head] at hput
    exact ⟨hput, fun n hn => hw.others ht hn⟩
  · exact hw

theorem consistent_switch (hw : Consistent w) (t : Task) (n : NsPtr) :
    Consistent (Mymounts.tasks.step w (.switch t n)).1 := by
  simp only [Mymounts.tasks]
  split_ifs with h
  · obtain ⟨ht, hn⟩ := h
    exact consistent_of_cons (refs_moved ht n _ _) (represents_moved ht (hw.represents.get hn))
      (hw.used n hn) fun m hm => hw.others ht hm
  · exact hw

theorem consistent_unshare (hw : Consistent w) (t : Task) (n : NsPtr) (ns : MntNamespace) :
    Consistent (Mymounts.tasks.step w (.unshare t n ns)).1 := by
  simp only [Mymounts.tasks]
  split_ifs with h
  · obtain ⟨ht, hunused⟩ := h
    have hn : n ∉ w.refs := fun hn => by simp [hw.used n hn] at hunused
    refine consistent_of_cons (refs_moved ht n _ _)
      (represents_moved ht (hw.represents.create hn ns)) (Function.update_self ..) fun m hm => ?_
    obtain rfl | hne := eq_or_ne m n
    · exact Function.update_self ..
    · exact (Function.update_of_ne hne ..).trans (hw.others ht hm)
  · exact hw

theorem consistent_get (hw : Consistent w) (n : NsPtr) :
    Consistent (Mymounts.tasks.step w (.get n)).1 := by
  simp only [Mymounts.tasks]
  split_ifs with hn
  · exact consistent_of_cons (Multiset.add_cons ..) (hw.represents.get hn) (hw.used n hn) hw.used
  · exact hw

theorem consistent_put (hw : Consistent w) (n : NsPtr) :
    Consistent (Mymounts.tasks.step w (.put n)).1 := by
  simp only [Mymounts.tasks]
  split_ifs with hn
  · have hrefs : World.refs { w with heap := w.heap.put n, pins := w.pins.erase n } =
        w.refs.erase n := (Multiset.erase_add_right_pos _ hn).symm
    constructor
    · rw [hrefs]
      exact hw.represents.put n
    · rw [hrefs]
      exact fun m hm => hw.used m (Multiset.mem_of_mem_erase hm)
  · exact hw

/-- Every call leads to a consistent world. -/
theorem consistent_step (hw : Consistent w) (c : Call) :
    Consistent (Mymounts.tasks.step w c).1 := by
  cases c with
  | «open» t f ret => exact consistent_open hw t f ret
  | start t f pos => exact hw
  | next t f v pos => exact hw
  | close t f => exact consistent_close hw t f
  | pass t t' f => exact consistent_pass hw t t' f
  | fork t t' => exact consistent_fork hw t t'
  | exit t => exact consistent_exit hw t
  | switch t n => exact consistent_switch hw t n
  | unshare t n ns => exact consistent_unshare hw t n ns
  | get n => exact consistent_get hw n
  | put n => exact consistent_put hw n

/-! ## Which callbacks are safe -/

/-- The call runs no callback on a namespace that is not there any more. -/
def Safe (w : World) (c : Call) : Prop := (tasks.step w c).2 ≠ .dangling

/-- A callback finds a task in the namespace of its file, or an explicit
    reference to it. -/
def Covered (w : World) : Call → Prop
  | .start t f _ | .next t f _ _ =>
    ∀ file ∈ w.held t f, (∃ u ∈ w.tasks, w.mntNs u = file.ns) ∨ file.ns ∈ w.pins
  | _ => True

/-- A callback is safe exactly if the namespace of the file is there. -/
theorem callback_ne_dangling_iff (f : FilePtr) (run : MntNamespace → Option MountPtr × ℤ) :
    w.callback t f run ≠ .dangling ↔
      ∀ file ∈ w.held t f, w.heap.object file.ns ≠ none := by
  rw [World.callback]
  cases hheld : w.held t f with
  | none => exact iff_of_true (by simp) (by simp)
  | some file =>
    cases hns : w.heap.object file.ns with
    | none => exact iff_of_false (fun h => h (by simp only [hns])) fun h => h file rfl hns
    | some ns => exact iff_of_true (by simp [hns]) (by simp [hns])

theorem callback_iff (hw : Consistent w) (f : FilePtr)
    (run : MntNamespace → Option MountPtr × ℤ) : w.callback t f run ≠ .dangling ↔
      ∀ file ∈ w.held t f, (∃ u ∈ w.tasks, w.mntNs u = file.ns) ∨ file.ns ∈ w.pins := by
  rw [callback_ne_dangling_iff]
  refine forall₂_congr fun file _ => ?_
  rw [hw.represents.object_iff, mem_refs]

/-- In a consistent world, the calls that are safe are those that are covered. -/
theorem safe_iff_covered (hw : Consistent w) (c : Call) : Safe w c ↔ Covered w c := by
  cases c with
  | start t f pos => exact callback_iff hw f _
  | next t f v pos => exact callback_iff hw f _
  | _ =>
    refine iff_of_true ?_ trivial
    simp only [Safe, Mymounts.tasks]
    repeat' split
    all_goals simp

/-- In every run from a consistent world, the callbacks find the namespaces of
    their files there exactly if each of them still has a task in it, or an
    explicit reference to it, when its callback runs. -/
theorem safe_iff (w : World) (hw : Consistent w) (calls : List Call) :
    tasks.Along Safe w calls ↔ tasks.Along Covered w calls :=
  Machine.along_iff (I := Consistent) (fun _ c hw => safe_iff_covered hw c)
    (fun _ c hw _ => consistent_step hw c) hw calls

/-- The tasks `1` and `2`, each alone in its namespace. -/
def twoTasks : World where
  heap := (RefCount.empty.create 2 (sampleNamespace 1)).create 1 (sampleNamespace 1)
  used n := n == 1 || n == 2
  tasks := {1, 2}
  mntNs t := t
  pins := 0
  files _ := none

theorem consistent_twoTasks : Consistent twoTasks where
  represents := by
    have htwo := RefCount.represents_empty.create (Multiset.notMem_zero 2) (sampleNamespace 1)
    exact htwo.create (k := 1) (by decide) (sampleNamespace 1)
  used := by decide

/-- The second task reads a file that the first one has passed to it. -/
theorem safe_iff_twoTasks :
    tasks.Along Safe twoTasks [.open 1 0 0, .pass 1 2 0, .start 2 0 0] :=
  (safe_iff twoTasks consistent_twoTasks _).2
    ⟨trivial, trivial, fun _ hfile => .inl ⟨1, by decide, by
      cases hfile
      rfl⟩, trivial⟩

/-- It reads the file after the first one has exited. -/
theorem not_safe_after_exit :
    ¬∀ w, Consistent w → ∀ calls, tasks.Along Safe w calls := by
  intro hall
  obtain ⟨_, _, _, hstart, _⟩ := hall twoTasks consistent_twoTasks
    [.open 1 0 0, .pass 1 2 0, .exit 1, .start 2 0 0]
  exact hstart rfl

end LittlePenguin.Mymounts
