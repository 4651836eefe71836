import LittlePenguin.Lib.FileTree
import Mathlib.Data.Nat.Notation
import Mathlib.Data.Int.Notation

/-!
# The debugfs module in the tree

As `ex07/debugfs.c` is loaded, it creates a directory `fortytwo` and three files.
A failure of the first step is returned, but not looked at: the pointer to the
directory is then still NULL, which the next steps take for the root of debugfs,
and the last one, as the module is unloaded, for nothing to remove. The module
leaves the tree as it found it exactly if the directory can be created, or none
of the files can be created in the root (`restores_iff`).
-/

namespace LittlePenguin.Debugfs

open Lib

/-- The operations of a file: those of the module, or other ones. -/
inductive Fops
  | idFops
  | jiffiesFops
  | fooFops
  | other (n : ℕ)
  deriving DecidableEq

/-- A file in debugfs. -/
structure File where
  mode : ℕ
  fops : Fops
  deriving DecidableEq

/-- The kernel's debugfs. A pointer to an entry is its path, or NULL, and a call
    may fail for reasons of its own. -/
structure DebugfsApi where
  /-- `debugfs_create_dir`: the entry or an error, and the tree left. -/
  createDir : (fails : Bool) → FileTree File → (name : String) → (parent : Option Path) →
    Except ℤ Path × FileTree File
  /-- `debugfs_create_file`. -/
  createFile : (fails : Bool) → FileTree File → (name : String) → (mode : ℕ) →
    (parent : Option Path) → Fops → Except ℤ Path × FileTree File
  /-- `debugfs_remove`. -/
  remove : FileTree File → Option Path → FileTree File
  /-- With no parent, an entry is created in the root. -/
  createDir_ok : ∀ t name parent (h : t.Free (parent.getD []) name),
    createDir false t name parent = (.ok (parent.getD [] ++ [name]), FileTree.add h .dir)
  createDir_error : ∀ fails t name parent, fails = true ∨ ¬t.Free (parent.getD []) name →
    ∃ e, createDir fails t name parent = (.error e, t)
  createFile_ok : ∀ t name mode parent fops (h : t.Free (parent.getD []) name),
    createFile false t name mode parent fops =
      (.ok (parent.getD [] ++ [name]), FileTree.add h (.file ⟨mode, fops⟩))
  createFile_error : ∀ fails t name mode parent fops,
    fails = true ∨ ¬t.Free (parent.getD []) name →
    ∃ e, createFile fails t name mode parent fops = (.error e, t)
  /-- Nothing is removed for NULL. -/
  remove_none : ∀ t, remove t none = t
  /-- A directory is removed with all that is in it. -/
  remove_some : ∀ t p, remove t (some p) = t.remove p

/-- A debugfs that does just what is documented; a name that is taken is `-EEXIST`. -/
def DebugfsApi.reference : DebugfsApi where
  createDir fails t name parent :=
    if h : fails = false ∧ t.Free (parent.getD []) name then
      (.ok (parent.getD [] ++ [name]), FileTree.add h.2 .dir)
    else (.error (-17), t)
  createFile fails t name mode parent fops :=
    if h : fails = false ∧ t.Free (parent.getD []) name then
      (.ok (parent.getD [] ++ [name]), FileTree.add h.2 (.file ⟨mode, fops⟩))
    else (.error (-17), t)
  remove t dentry :=
    match dentry with
    | none => t
    | some p => t.remove p
  createDir_ok _ _ _ h := dif_pos ⟨rfl, h⟩
  createDir_error _ _ _ _ h := ⟨-17, dif_neg fun hok => h.elim (by simp [hok.1]) (· hok.2)⟩
  createFile_ok _ _ _ _ _ h := dif_pos ⟨rfl, h⟩
  createFile_error _ _ _ _ _ _ h := ⟨-17, dif_neg fun hok => h.elim (by simp [hok.1]) (· hok.2)⟩
  remove_none _ := rfl
  remove_some _ _ := rfl

/-- What the module creates a file from. -/
structure FileInfo where
  name : String
  mode : ℕ
  fops : Fops

def fileInfo : List FileInfo :=
  [⟨"id", 0o666, .idFops⟩, ⟨"jiffies", 0o444, .jiffiesFops⟩, ⟨"foo", 0o644, .fooFops⟩]

/-- The tree, with the static variable of the module, and the files it has created. -/
structure Loaded where
  tree : FileTree File
  dir : Option Path
  created : List Path

variable (A : DebugfsApi) (fails : String → Bool)

/-- The result is an error code, or `0`. -/
def createDirectory (m : Loaded) : ℤ × Loaded :=
  match A.createDir (fails "fortytwo") m.tree "fortytwo" none with
  | (.error e, tree) => (e, { m with tree })
  | (.ok newDir, tree) => (0, { m with tree, dir := some newDir })

/-- The body of the loop of `create_files`. What the creation returns is not looked at. -/
def createFile (m : Loaded) (info : FileInfo) : Loaded :=
  match A.createFile (fails info.name) m.tree info.name info.mode m.dir info.fops with
  | (.error _, tree) => { m with tree }
  | (.ok path, tree) => { m with tree, created := path :: m.created }

def createFiles (m : Loaded) : Loaded := fileInfo.foldl (createFile A fails) m

/-- What `create_directory` returns is not looked at either. -/
def debugfsInit (m : Loaded) : ℤ × Loaded := (0, createFiles A fails (createDirectory A fails m).2)

def debugfsExit (m : Loaded) : Loaded := { m with tree := A.remove m.tree m.dir }

/-! ## Creating the files -/

/-- The file can be created. -/
def Creatable (m : Loaded) (info : FileInfo) : Prop :=
  fails info.name = false ∧ m.tree.Free (m.dir.getD []) info.name

variable {A fails} {m : Loaded} {info : FileInfo}

/-- The module with a file it has created. -/
def Loaded.withFile (m : Loaded) (info : FileInfo) (h : m.tree.Free (m.dir.getD []) info.name) :
    Loaded where
  tree := FileTree.add h (.file ⟨info.mode, info.fops⟩)
  dir := m.dir
  created := (m.dir.getD [] ++ [info.name]) :: m.created

theorem createFile_of_creatable (h : Creatable fails m info) :
    createFile A fails m info = m.withFile info h.2 := by
  have hok := A.createFile_ok _ _ info.mode _ info.fops h.2
  simp only [createFile, h.1, hok]
  rfl

theorem createFile_of_not_creatable (h : ¬Creatable fails m info) :
    createFile A fails m info = m := by
  rw [Creatable, not_and_or, Bool.not_eq_false] at h
  obtain ⟨e, he⟩ := A.createFile_error _ _ _ info.mode _ info.fops h
  rw [createFile, he]

variable (A) in
/-- The loop, one file after the other: a file is created, or nothing changes. -/
theorem createFiles_induct {P : List FileInfo → Loaded → Loaded → Prop} (nil : ∀ m, P [] m m)
    (created : ∀ info infos m m' (h : Creatable fails m info),
      P infos (m.withFile info h.2) m' → P (info :: infos) m m')
    (skipped : ∀ info infos m m', ¬Creatable fails m info → P infos m m' →
      P (info :: infos) m m') (infos : List FileInfo) (m : Loaded) :
    P infos m (infos.foldl (createFile A fails) m) := by
  induction infos generalizing m with
  | nil => exact nil m
  | cons info infos ih =>
    rw [List.foldl_cons]
    by_cases h : Creatable fails m info
    · rw [createFile_of_creatable h]
      exact created info infos m _ h (ih _)
    · rw [createFile_of_not_creatable h]
      exact skipped info infos m _ h (ih m)

/-- Every file created lies in the directory of the module. -/
def Own (m : Loaded) : Prop := ∀ p ∈ m.created, ∃ d name, m.dir = some d ∧ p = d ++ [name]

/-- A file created in the directory of the module lies there. -/
theorem Own.withFile {d : Path} (hown : Own m) (hdir : m.dir = some d)
    (h : m.tree.Free (m.dir.getD []) info.name) : Own (m.withFile info h) := by
  intro p hp
  rcases List.mem_cons.1 hp with rfl | hp
  · exact ⟨d, info.name, hdir, by rw [hdir]; rfl⟩
  · exact hown p hp

variable (A fails) in
/-- With a directory of its own, the module creates its files there, and changes
    nothing elsewhere. -/
theorem createFiles_of_dir {d : Path} (hdir : m.dir = some d) (hown : Own m)
    (infos : List FileInfo) :
    let m' := infos.foldl (createFile A fails) m
    m'.dir = some d ∧ Own m' ∧ ∀ q, ¬d <+: q → m'.tree.entry q = m.tree.entry q := by
  refine createFiles_induct A (P := fun _ m m' => m.dir = some d → Own m → m'.dir = some d ∧
    Own m' ∧ ∀ q, ¬d <+: q → m'.tree.entry q = m.tree.entry q) ?_ ?_ ?_ infos m hdir hown
  · exact fun m hdir hown => ⟨hdir, hown, fun _ _ => rfl⟩
  · intro info infos m m' h ih hdir hown
    obtain ⟨hdir', hown', htree⟩ := ih hdir (hown.withFile hdir h.2)
    refine ⟨hdir', hown', fun q hq => (htree q hq).trans ?_⟩
    refine FileTree.entry_add_of_ne h.2 _ ?_
    rintro rfl
    rw [hdir] at hq
    exact hq (List.prefix_append d _)
  · exact fun _ _ _ _ _ ih => ih

variable (A fails) in
/-- With none, it changes nothing if no file can be created in the root, and
    creates one there otherwise. What has been created stays created. -/
theorem createFiles_of_no_dir (hdir : m.dir = none) (infos : List FileInfo) :
    let m' := infos.foldl (createFile A fails) m
    m'.dir = none ∧ m.created ⊆ m'.created ∧
      ((∀ info ∈ infos, ¬Creatable fails m info) ∧ m' = m ∨
        (∃ info ∈ infos, Creatable fails m info) ∧ m'.created ≠ []) := by
  refine createFiles_induct A (P := fun infos m m' => m.dir = none → m'.dir = none ∧
    m.created ⊆ m'.created ∧ ((∀ info ∈ infos, ¬Creatable fails m info) ∧ m' = m ∨
      (∃ info ∈ infos, Creatable fails m info) ∧ m'.created ≠ [])) ?_ ?_ ?_ infos m hdir
  · exact fun m hdir =>
      ⟨hdir, List.Subset.refl _, .inl ⟨fun _ h => absurd h List.not_mem_nil, rfl⟩⟩
  · intro info infos m m' h ih hdir
    obtain ⟨hdir', hsubset, _⟩ := ih hdir
    refine ⟨hdir', fun p hp => hsubset (List.mem_cons_of_mem _ hp), .inr ⟨⟨info, ?_, h⟩, ?_⟩⟩
    · exact List.mem_cons_self
    · exact List.ne_nil_of_mem (hsubset List.mem_cons_self)
  · intro info infos m m' h ih hdir
    obtain ⟨hdir', hsubset, ⟨hnone, heq⟩ | ⟨⟨i, hi, hc⟩, hcreated⟩⟩ := ih hdir
    · exact ⟨hdir', hsubset, .inl ⟨List.forall_mem_cons.2 ⟨h, hnone⟩, heq⟩⟩
    · exact ⟨hdir', hsubset, .inr ⟨⟨i, List.mem_cons_of_mem _ hi, hc⟩, hcreated⟩⟩

/-! ## Loading and unloading -/

variable (A fails)

/-- The module as it finds the tree. -/
def Loaded.init (t : FileTree File) : Loaded := ⟨t, none, []⟩

/-- While the module is loaded, its files lie in a directory of its own, and
    after it has been unloaded, the tree is as it was before. -/
def Restores (t : FileTree File) : Prop :=
  let m := (debugfsInit A fails (.init t)).2
  Own m ∧ (debugfsExit A m).tree = t

variable {A fails}

/-- If the directory is created, it is the only thing added. -/
theorem createDirectory_ok {t : FileTree File} (hfails : fails "fortytwo" = false)
    (h : t.Free [] "fortytwo") :
    (createDirectory A fails (.init t)).2 = ⟨FileTree.add h .dir, some ["fortytwo"], []⟩ := by
  have hok := A.createDir_ok t "fortytwo" none h
  simp only [createDirectory, hfails, Loaded.init, hok]
  rfl

/-- Otherwise nothing is changed, and the pointer is still NULL. -/
theorem createDirectory_error {t : FileTree File}
    (h : ¬(fails "fortytwo" = false ∧ t.Free [] "fortytwo")) :
    (createDirectory A fails (.init t)).2 = .init t := by
  rw [not_and_or, Bool.not_eq_false] at h
  obtain ⟨e, he⟩ := A.createDir_error _ t "fortytwo" none h
  simp only [createDirectory, Loaded.init, he]

/-- With its directory, the module restores the tree. -/
theorem restores_of_directory {t : FileTree File} (hfails : fails "fortytwo" = false)
    (h : t.Free [] "fortytwo") : Restores A fails t := by
  simp only [Restores, debugfsInit, createFiles, debugfsExit]
  rw [createDirectory_ok hfails h]
  obtain ⟨hdir, hown, htree⟩ := @createFiles_of_dir A fails
    ⟨FileTree.add h .dir, some ["fortytwo"], []⟩ _ rfl (fun _ h => absurd h List.not_mem_nil)
    fileInfo
  refine ⟨hown, ?_⟩
  rw [hdir, A.remove_some]
  refine FileTree.remove_eq (List.cons_ne_nil _ _) h.2 fun q hq =>
    (htree q hq).trans (FileTree.entry_add_of_ne h _ ?_)
  rintro rfl
  exact hq (List.prefix_refl _)

/-- Without it, the module restores the tree if no file is created. -/
theorem restores_iff_of_no_directory {t : FileTree File}
    (h : ¬(fails "fortytwo" = false ∧ t.Free [] "fortytwo")) :
    Restores A fails t ↔ ∀ info ∈ fileInfo, ¬(fails info.name = false ∧ t.Free [] info.name) := by
  simp only [Restores, debugfsInit, createFiles, debugfsExit]
  rw [createDirectory_error h]
  obtain ⟨hdir, _, ⟨hnone, heq⟩ | ⟨⟨info, hinfo, hc⟩, hcreated⟩⟩ :=
    @createFiles_of_no_dir A fails (.init t) rfl fileInfo
  · refine iff_of_true ?_ hnone
    rw [heq]
    exact ⟨fun _ h => absurd h List.not_mem_nil, A.remove_none t⟩
  · refine iff_of_false (fun h => ?_) fun h => h info hinfo hc
    -- A file has been created, and there is no directory it could lie in.
    obtain ⟨p, hp⟩ := List.exists_mem_of_ne_nil _ hcreated
    obtain ⟨d, _, hd, _⟩ := h.1 p hp
    rw [hdir] at hd
    exact Option.some_ne_none d hd.symm

/-- Whatever calls fail, the module restores a tree exactly if the directory can be
    created in it, or none of the files can be created in the root. -/
theorem restores_iff (A : DebugfsApi) (fails : String → Bool) (t : FileTree File) :
    Restores A fails t ↔
      (fails "fortytwo" = false ∧ t.entry ["fortytwo"] = none) ∨
        ∀ info ∈ fileInfo, ¬(fails info.name = false ∧ t.entry [info.name] = none) := by
  simp only [← FileTree.free_nil_iff]
  by_cases hdirectory : fails "fortytwo" = false ∧ t.Free [] "fortytwo"
  · exact iff_of_true (restores_of_directory hdirectory.1 hdirectory.2) (.inl hdirectory)
  · rw [or_iff_right hdirectory]
    exact restores_iff_of_no_directory hdirectory

/-- In a tree with a directory `fortytwo`, the module leaves its files in the root. -/
theorem fortytwo_not_restored :
    ¬∀ (fails : String → Bool) (t : FileTree File), Restores .reference fails t := by
  intro hall
  have htaken : ¬(FileTree.singleton "fortytwo" : FileTree File).Free [] "fortytwo" := by decide
  have h := (restores_iff_of_no_directory (fun h => htaken h.2)).1
    (hall (fun _ => false) (.singleton "fortytwo"))
  exact h _ List.mem_cons_self (by decide)

end LittlePenguin.Debugfs
