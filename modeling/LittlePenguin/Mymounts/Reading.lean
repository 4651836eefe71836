import LittlePenguin.Lib.SeqRead
import LittlePenguin.Mymounts.Show

/-!
# Reading the listing as a file

A program that reads `/proc/mymounts` gets bytes, as many as it asks for, at the
position it asks for.

* Reading on from the beginning, it gets the lines of the mounts, wherever its
  reads are cut and whatever is mounted behind them meanwhile. From these it can
  tell the names and paths of all the mounts, spaces in the names included,
  exactly if there is no newline in a name (`records_streamed`).
* Reading from a position in the last line or behind it, it gets the last line
  once more, because `mymounts_next` leaves the position at the last mount as it
  is (`read_from`). Otherwise its seeks and reads are answered as by a file with
  the bytes of the listing in it (`reads_served`).
-/

namespace LittlePenguin.Mymounts

open Lib

variable (P : SeqPath) (D : Dentries) (ns : MntNamespace)

theorem mymountsShow_ne_nil (v : MountPtr) : mymountsShow P D ns v ≠ [] := by
  rw [mymountsShow_eq]
  exact List.concat_ne_nil _ _

/-! ## From the beginning -/

/-- The names and paths in the lines of a text. -/
def records (text : Bytes) : List (Bytes × Bytes) :=
  (lines text).map fun l => (beforeLast 32 l, unmangle (lastField 32 l))

/-- The name and the path of a mount. -/
def record (v : MountPtr) : Bytes × Bytes := (printedName D ns v, D.dPath v (ns.mount v).mntRoot)

/-- The name and the path are found again in the line of a mount. -/
theorem record_line (v : MountPtr) :
    (beforeLast 32 (line D ns v), unmangle (lastField 32 (line D ns v))) = record D ns v := by
  have hspace : 32 ∉ printedPath D ns v := not_mem_mangle (by decide) (by decide) _
  rw [line, beforeLast_append hspace, lastField_append hspace, unmangle_printedPath, record]

/-- The names and paths are found again exactly if there is no newline in a name. -/
theorem records_listing_iff (mnts : List MountPtr) :
    records (listing P D ns mnts) = mnts.map (record D ns) ↔
      ∀ v ∈ mnts, 10 ∉ printedName D ns v := by
  rw [records, listing_eq]
  constructor
  · intro h v hv hnewline
    have hlen := congrArg List.length h
    rw [List.length_map, List.length_map, ← List.length_map (line D ns),
      length_lines_unlines_iff] at hlen
    exact hlen _ (List.mem_map_of_mem hv) ((newline_mem_line_iff D ns v).2 hnewline)
  · intro h
    rw [lines_unlines, List.map_map]
    · exact List.map_congr_left fun v _ => record_line D ns v
    · intro l hl
      obtain ⟨v, hv, rfl⟩ := List.mem_map.1 hl
      exact fun hnewline => h v hv ((newline_mem_line_iff D ns v).1 hnewline)

/-- What is printed for a mount depends on it, and on which is the root mount. -/
theorem mymountsShow_congr {ns ns' : MntNamespace} {v : MountPtr} (hroot : ns'.root = ns.root)
    (hmnt : ns'.mount v = ns.mount v) : mymountsShow P D ns' v = mymountsShow P D ns v := by
  rw [mymountsShow, mymountsShow, hroot, hmnt]

/-- Reads one after the other deliver the listing from its first byte on, however
    many bytes each of them asks for and is delivered, while mounts are added
    behind the others. At end of file the whole listing has been delivered, in
    which the names and paths of all the mounts are found again, in order,
    exactly if there is no newline in a name. -/
theorem records_streamed (s : SeqFile) (got : Bytes)
    (h : Streamed mymountsSeqOps (mymountsShow P D) Appended ns s got) :
    got <+: listing P D ns ns.listed ∧
      ∀ n s', 0 < n → SeqFile.Fetch (mymountsSeqOps ns) (mymountsShow P D ns) s n [] s' →
        got = listing P D ns ns.listed ∧
          (records got = ns.listed.map (record D ns) ↔
            ∀ v ∈ ns.listed, 10 ∉ printedName D ns v) := by
  have hgrow : ∀ ns ns', Appended ns ns' → ns.listed <+: ns'.listed ∧
      ∀ v ∈ ns.listed, mymountsShow P D ns' v = mymountsShow P D ns v := fun ns ns' hc =>
    ⟨hc.listed_prefix, fun v hv =>
      mymountsShow_congr P D hc.root (hc.mount v (.inl (List.mem_of_mem_filter hv)))⟩
  obtain ⟨_, heq⟩ := h.append_unread enumerates_listed hgrow
  refine ⟨⟨_, heq⟩, fun n s' hn heof => ?_⟩
  have hgot : got = listing P D ns ns.listed :=
    h.eq_of_eof enumerates_listed hgrow (fun _ v _ => mymountsShow_ne_nil P D _ v) hn heof
  rw [hgot]
  exact ⟨rfl, records_listing_iff P D ns ns.listed⟩

/-- Of `n` mounts, the one at `k` is found at its address, and the buffer is full after it. -/
theorem fill_sampleNamespace {n k : ℕ} (h : k < n) :
    (mymountsSeqOps (sampleNamespace n)).start k = some k ∧
      (mymountsSeqOps (sampleNamespace n)).Fill k k [k] ((k + 1 : ℕ) : ℤ) := by
  have hk : (sampleNamespace n).listed[k]? = some k := by
    rw [listed_sampleNamespace, List.getElem?_range h]
  have hfill := (enumerates_listed (sampleNamespace n)).fill (k := k) (n := 0)
    (by rwa [listed_sampleNamespace, List.length_range]) hk
  rw [List.drop_eq_getElem?_toList_append, hk] at hfill
  exact ⟨(mymountsStart_eq k).trans hk, hfill⟩

/-- The root mount is read up to its space, another one is mounted, and the rest
    is read. -/
theorem streamed_sample :
    Streamed mymountsSeqOps (mymountsShow .reference (namedAll (ascii "a b"))) Appended
      (sampleNamespace 2) ⟨2, [], 15⟩ (ascii "root /x\na b /x\n") := by
  have hfirst := fill_sampleNamespace (n := 1) (k := 0) (by decide)
  have hsecond := fill_sampleNamespace (n := 2) (k := 1) (by decide)
  have hadded : Appended (sampleNamespace 1) (sampleNamespace 2) :=
    ⟨rfl, fun _ _ => rfl, by
      change (Walk.upTo 1).toList <+: (Walk.upTo 2).toList
      rw [Walk.toList_upTo, Walk.toList_upTo]
      decide⟩
  have hroot : SeqFile.Fetch (mymountsSeqOps (sampleNamespace 1))
      (mymountsShow .reference (namedAll (ascii "a b")) (sampleNamespace 1)) .opened 5
      (ascii "root ") ⟨1, ascii "/x\n", 5⟩ :=
    .fill (by decide) hfirst.1 hfirst.2 (by decide) (by decide)
  have hrest : SeqFile.Fetch (mymountsSeqOps (sampleNamespace 2))
      (mymountsShow .reference (namedAll (ascii "a b")) (sampleNamespace 2))
      ⟨1, ascii "/x\n", 5⟩ 100 (ascii "/x\na b /x\n") ⟨2, [], 15⟩ :=
    .fill (by decide) hsecond.1 hsecond.2 (by decide) (by decide)
  exact (((Streamed.opened (sampleNamespace 1)).read hroot).changed hadded).read hrest

/-- The name with a space in it is found again. -/
theorem records_sample : records (ascii "root /x\na b /x\n") =
    [(ascii "root", ascii "/x"), (ascii "a b", ascii "/x")] := by
  have heof : (mymountsSeqOps (sampleNamespace 2)).start 2 = none :=
    (mymountsStart_eq 2).trans (by rw [listed_sampleNamespace]; rfl)
  have h := ((records_streamed .reference (namedAll (ascii "a b")) (sampleNamespace 2) _ _
    streamed_sample).2 1 _ Nat.one_pos (.eof (Nat.zero_le _) heof)).2
  rw [listed_sampleNamespace] at h
  exact h.2 (by decide)

/-! ## From any position -/

/-- At the last mount, `mymounts_next` leaves the position as it is. -/
theorem stops_listed : SeqFile.Stops (mymountsSeqOps ns) ns.listed (ns.listed.length - 1) where
  le := Nat.sub_le _ _
  next k v h := by
    have hk := (List.getElem?_eq_some_iff.1 h).1
    have hnext : (mymountsSeqOps ns).next v k = _ := mymountsNext_eq h k
    rw [hnext]
    split_ifs with hlast hlt hlt
    · exact absurd hlt (Nat.not_lt.2 hlast)
    · rw [show k = ns.listed.length - 1 by omega]
    · rfl
    · exact absurd (Nat.lt_of_not_le hlast) hlt

/-- What stands in the listing behind a position, and the last line once more if
    the position is not in the lines before it. -/
theorem behind_listed (p : ℕ) :
    SeqFile.behind (mymountsShow P D ns) ns.listed (ns.listed.length - 1) p =
      (listing P D ns ns.listed).drop p ++
        if (listing P D ns ns.listed.dropLast).length < p
        then listing P D ns ns.listed.getLast?.toList else [] := by
  have hlast : ns.listed.drop (ns.listed.length - 1) = ns.listed.getLast?.toList := by
    rcases List.eq_nil_or_concat ns.listed with hl | ⟨l, v, hl⟩
    · rw [hl]
      rfl
    · rw [hl, List.length_concat, Nat.add_sub_cancel, List.concat_eq_append, List.drop_left,
        List.getLast?_concat]
      rfl
  rw [SeqFile.behind, hlast]
  rfl

/-- From the beginning, or a position other than the one read last, a file
    delivers what stands in the listing behind that position. If it is not in
    one of the lines before the last one, the last line follows once more. -/
theorem read_from (s : SeqFile) (p : ℕ) (hseek : p = 0 ∨ p ≠ s.readPos) :
    (∀ bs, SeqFile.DrainedAt (mymountsSeqOps ns) (mymountsShow P D ns) s p bs ↔
      bs = (listing P D ns ns.listed).drop p ++
        if (listing P D ns ns.listed.dropLast).length < p
        then listing P D ns ns.listed.getLast?.toList else []) ∧
    (SeqFile.DrainedAt (mymountsSeqOps ns) (mymountsShow P D ns) s p
        ((listing P D ns ns.listed).drop p) ↔
      ns.listed = [] ∨ p ≤ (listing P D ns ns.listed.dropLast).length) := by
  have htext : ∀ v ∈ ns.listed, mymountsShow P D ns v ≠ [] := fun v _ =>
    mymountsShow_ne_nil P D ns v
  have hdrained := SeqFile.drainedAt_iff (stops_listed ns) (enumerates_listed ns) htext hseek
  have hstop : ns.listed.length ≤ ns.listed.length - 1 ↔ ns.listed = [] := by
    rw [← List.length_eq_zero_iff]
    omega
  refine ⟨fun bs => by rw [hdrained, behind_listed], ?_⟩
  rw [hdrained, eq_comm, listing, SeqFile.behind_eq_drop_iff htext, hstop]
  rfl

/-- With the root mount alone, whose line has eight bytes, its line is read again behind it. -/
theorem read_from_end : SeqFile.DrainedAt (mymountsSeqOps (sampleNamespace 1))
    (mymountsShow .reference (namedAll []) (sampleNamespace 1)) .opened 8 (ascii "root /x\n") := by
  refine ((read_from .reference (namedAll []) (sampleNamespace 1) .opened 8
    (.inr (by decide))).1 _).2 ?_
  rw [listed_sampleNamespace]
  decide

end LittlePenguin.Mymounts
