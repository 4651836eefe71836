import LittlePenguin.Lib.Text
import LittlePenguin.Mymounts.Listing

/-!
# The text of the listing

`mymounts_show` prints a line for a mount: the name of the directory it is
mounted on, a space, and the path of its root. In the path, all the bytes that
would disturb this format are escaped; in the name they are not. So the path is
always what stands behind the last space, and can be read from it
(`path_recovered`). The lines can be told apart, and the names read from them,
exactly if no name has a space or a newline in it (`recoverable_iff`).
-/

namespace LittlePenguin.Mymounts

open Lib

/-- The kernel's `seq_path`: a path, and the bytes to escape in it. -/
structure SeqPath where
  seqPath : (path esc : Bytes) → Bytes
  /-- The bytes are escaped by their digits in base eight. -/
  seqPath_eq : ∀ path esc, seqPath path esc = mangle esc path

/-- A `seq_path` that does just what is documented. -/
def SeqPath.reference : SeqPath := ⟨fun path esc => mangle esc path, fun _ _ => rfl⟩

/-- The directory entries of the kernel, as far as the listing prints them. -/
structure Dentries where
  /-- The name of an entry. -/
  dName : DentryPtr → Bytes
  /-- The path of an entry of a mount. -/
  dPath : MountPtr → DentryPtr → Bytes

variable (P : SeqPath) (D : Dentries) (ns : MntNamespace)

/-- What is printed for a mount. -/
def mymountsShow (v : MountPtr) : Bytes :=
  let mnt := ns.mount v
  (if v = ns.root then ascii "root " else D.dName mnt.mntMountpoint ++ ascii " ") ++
    P.seqPath (D.dPath v mnt.mntRoot) (ascii " \t\n\\") ++ ascii "\n"

/-- What is printed for some mounts, one after the other. -/
def listing (mnts : List MountPtr) : Bytes := mnts.flatMap (mymountsShow P D ns)

/-- The name printed for a mount. -/
def printedName (v : MountPtr) : Bytes :=
  if v = ns.root then ascii "root" else D.dName (ns.mount v).mntMountpoint

/-- The path printed for a mount. -/
def printedPath (v : MountPtr) : Bytes :=
  mangle (ascii " \t\n\\") (D.dPath v (ns.mount v).mntRoot)

/-- The line printed for a mount. -/
def line (v : MountPtr) : Bytes := printedName D ns v ++ 32 :: printedPath D ns v

theorem mymountsShow_eq (v : MountPtr) : mymountsShow P D ns v = line D ns v ++ [10] := by
  have hspace : ascii " " = [32] := by decide
  have hroot : ascii "root " = ascii "root" ++ [32] := by decide
  have hnewline : ascii "\n" = [10] := by decide
  rw [mymountsShow, P.seqPath_eq, line, printedName, hspace, hroot, hnewline]
  split_ifs
  · rw [List.append_assoc (ascii "root"), List.singleton_append]
    rfl
  · rw [List.append_assoc (D.dName _), List.singleton_append]
    rfl

/-- The listing is the text with the lines of the mounts. -/
theorem listing_eq (mnts : List MountPtr) :
    listing P D ns mnts = unlines (mnts.map (line D ns)) := by
  rw [listing, unlines, List.flatMap_map]
  exact congrArg (List.flatMap · mnts) (funext (mymountsShow_eq P D ns))

theorem newline_not_mem_printedPath (v : MountPtr) : 10 ∉ printedPath D ns v :=
  not_mem_mangle (by decide) (by decide) _

/-! ## The paths -/

/-- With its escapes undone, the path printed is that of the mount. -/
theorem unmangle_printedPath (v : MountPtr) :
    unmangle (printedPath D ns v) = D.dPath v (ns.mount v).mntRoot :=
  unmangle_mangle (by decide) _

/-- What stands in a record behind the last space, and before its newline. -/
def pathField (record : Bytes) : Bytes := lastField 32 record.dropLast

theorem pathField_mymountsShow (v : MountPtr) :
    pathField (mymountsShow P D ns v) = printedPath D ns v := by
  have hspace : 32 ∉ printedPath D ns v := not_mem_mangle (by decide) (by decide) _
  rw [pathField, mymountsShow_eq, List.dropLast_concat, line, lastField_append hspace]

/-- Whatever the names are, the last field of a record has no separators in it,
    and is the path with its escapes. So records with different paths have
    different last fields. -/
theorem path_recovered (v : MountPtr) :
    let field := pathField (mymountsShow P D ns v)
    (mymountsShow P D ns v).getLast? = some 10 ∧ (32 ∉ field ∧ 9 ∉ field ∧ 10 ∉ field) ∧
      unmangle field = D.dPath v (ns.mount v).mntRoot ∧
      ∀ (D' : Dentries) (ns' : MntNamespace) (v' : MountPtr),
        D.dPath v (ns.mount v).mntRoot ≠ D'.dPath v' (ns'.mount v').mntRoot →
        field ≠ pathField (mymountsShow P D' ns' v') := by
  intro field
  have hfield : field = printedPath D ns v := pathField_mymountsShow P D ns v
  rw [hfield]
  refine ⟨?_, ⟨?_, ?_, ?_⟩, unmangle_printedPath D ns v, fun D' ns' v' hne heq => hne ?_⟩
  · rw [mymountsShow_eq, List.getLast?_concat]
  · exact not_mem_mangle (by decide) (by decide) _
  · exact not_mem_mangle (by decide) (by decide) _
  · exact newline_not_mem_printedPath D ns v
  · rw [← unmangle_printedPath, heq, pathField_mymountsShow, unmangle_printedPath]

/-! ## The names -/

/-- A line has no newline in it if the name has none. -/
theorem newline_mem_line_iff (v : MountPtr) : 10 ∈ line D ns v ↔ 10 ∈ printedName D ns v := by
  rw [line, List.mem_append, List.mem_cons]
  have hpath := newline_not_mem_printedPath D ns v
  constructor
  · rintro (h | h | h)
    · exact h
    · exact absurd h (by decide)
    · exact absurd h hpath
  · exact .inl

/-- Split at its newlines, the listing has a line for each mount, in order, and
    what stands in it before the first space is the name of the mount. -/
def Recoverable (mnts : List MountPtr) : Prop :=
  (lines (listing P D ns mnts)).map (field 32) = mnts.map (printedName D ns)

/-- The names are recovered exactly if there is no space and no newline in them. -/
theorem recoverable_iff_printedName (mnts : List MountPtr) :
    Recoverable P D ns mnts ↔
      ∀ v ∈ mnts, 32 ∉ printedName D ns v ∧ 10 ∉ printedName D ns v := by
  rw [Recoverable, listing_eq]
  constructor
  · intro h
    -- There are as many lines as mounts, so no line is split.
    have hlen := congrArg List.length h
    rw [List.length_map, List.length_map, ← List.length_map (line D ns),
      length_lines_unlines_iff] at hlen
    rw [lines_unlines hlen, List.map_map, List.map_inj_left] at h
    intro v hv
    refine ⟨(field_append_iff 32 _ _).1 (h v hv), fun hnewline => ?_⟩
    exact hlen _ (List.mem_map_of_mem hv) ((newline_mem_line_iff D ns v).2 hnewline)
  · intro h
    rw [lines_unlines, List.map_map, List.map_inj_left]
    · exact fun v hv => (field_append_iff 32 _ _).2 (h v hv).1
    · intro l hl
      obtain ⟨v, hv, rfl⟩ := List.mem_map.1 hl
      exact fun hnewline => (h v hv).2 ((newline_mem_line_iff D ns v).1 hnewline)

/-- The names are recovered from a listing exactly if there is no space and no
    newline in any of them. Then no other such listing with the same text has
    other names. -/
theorem recoverable_iff (mnts : List MountPtr) :
    (Recoverable P D ns mnts ↔
      ∀ v ∈ mnts, 32 ∉ printedName D ns v ∧ 10 ∉ printedName D ns v) ∧
    ∀ (D' : Dentries) (ns' : MntNamespace) (mnts' : List MountPtr), Recoverable P D ns mnts →
      Recoverable P D' ns' mnts' → listing P D ns mnts = listing P D' ns' mnts' →
      mnts.map (printedName D ns) = mnts'.map (printedName D' ns') := by
  refine ⟨recoverable_iff_printedName P D ns mnts, fun D' ns' mnts' h h' heq => ?_⟩
  rw [← h, ← h', heq]

/-- All directories have the name `name`, and all mounts the path `/x`. -/
def namedAll (name : Bytes) : Dentries := ⟨fun _ => name, fun _ _ => ascii "/x"⟩

/-- A single mount on a directory whose name has a newline in it fills two lines. -/
theorem newline_not_recoverable :
    ¬∀ (D : Dentries) (ns : MntNamespace) (mnts : List MountPtr),
      (∀ v ∈ mnts, printedName D ns v ≠ [] ∧ 0 ∉ printedName D ns v ∧ 47 ∉ printedName D ns v) →
        Recoverable .reference D ns mnts := by
  intro hall
  have hname : printedName (namedAll (ascii "sys\nproc")) (sampleNamespace 2) 1 =
      ascii "sys\nproc" := rfl
  have h := hall (namedAll (ascii "sys\nproc")) (sampleNamespace 2) [1] (by
    intro v hv
    rw [List.mem_singleton.1 hv, hname]
    decide)
  rw [recoverable_iff_printedName] at h
  have hnewline := (h 1 List.mem_cons_self).2
  rw [hname] at hnewline
  exact absurd hnewline (by decide)

end LittlePenguin.Mymounts
