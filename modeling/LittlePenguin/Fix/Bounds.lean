import LittlePenguin.Fix
import LittlePenguin.Lib.Machine
import Mathlib.Logic.Function.Basic

/-!
# The page of the reverse device and its bounds

`myfd_write` bounds its copy by the number of bytes the user passes, and stores
its NUL at the index one past that number. Neither looks at the size of the page.
A run of writes thus stays inside the page, and leaves a string in it for
`myfd_read`, exactly if each of them leaves room for one byte more than it
writes and the NUL (`inBounds_iff`), whatever the positions of the open files
are and wherever the user copies fault.
-/

namespace LittlePenguin.Fix

open Lib

variable (K : Kernel)

/-- The device: its page, and the position of every open file. -/
structure Dev where
  str : CArray PAGE_SIZE
  offs : ℕ → ℤ

/-- The device as it is loaded, with all files at the beginning. -/
def Dev.init : Dev := ⟨CArray.zeroed PAGE_SIZE, fun _ => 0⟩

/-- A call of `myfd_write` on an open file. -/
structure WriteReq where
  file : ℕ
  fault : Fault
  user : Bytes
  size_lt : user.length < 2 ^ 64

/-- The device written to. -/
def device : Machine Dev WriteReq ℤ where
  step d c :=
    let w := myfdWrite K c.fault d.str c.user (d.offs c.file)
    ({ str := w.str, offs := Function.update d.offs c.file w.offs }, w.result)

/-- Everything stored to the page so far lies inside of it, and so does a NUL;
    so a read loads from the page, and stores to its buffer, inside of them. -/
structure InBounds (str : CArray PAGE_SIZE) : Prop where
  stores : ∀ i ∈ str.stores, i < PAGE_SIZE
  nul : ∃ i < PAGE_SIZE, str.cells[i]? = some 0
  read : ∀ f heap size offs, heap.stores = [] →
    (∀ i ∈ (myfdRead K f heap str size offs).str.loads, i ∈ str.loads ∨ i < PAGE_SIZE) ∧
      ∀ i ∈ (myfdRead K f heap str size offs).tmp.stores, i < 2 * PAGE_SIZE

/-- With a NUL in the page, reads stay inside of it. -/
theorem InBounds.of_nul {str : CArray PAGE_SIZE} (hstores : ∀ i ∈ str.stores, i < PAGE_SIZE)
    (hnul : ∃ i < PAGE_SIZE, str.cells[i]? = some 0) : InBounds K str where
  stores := hstores
  nul := hnul
  read f heap size offs hheap := by
    obtain ⟨j, hj, hnul⟩ := hnul
    have hlen : strlen str.cells < PAGE_SIZE := (strlen_le_of_getElem? hnul).trans_lt hj
    obtain ⟨tmp, heq, _, _, htmp⟩ := myfdRead_eq K hlen f heap size offs
    rw [heq]
    refine ⟨fun i hi => ?_, fun i hi => ?_⟩
    · simp only [CArray.loads_scan, List.mem_append, List.mem_range] at hi
      rcases hi with hi | hi | hi
      · exact .inr (hi.trans hlen)
      · exact .inr (by omega)
      · exact .inl hi
    · simp only [htmp, hheap, List.append_nil, List.mem_cons, List.mem_reverse,
        List.mem_range'_1] at hi
      omega

/-! ## A single write -/

/-- A copy into the page stores between the position it starts at and the end
    of what the user passes, up to the latter unless there is nothing to copy,
    and leaves the position there at most. -/
theorem copy_bounds (f : Fault) (user : Bytes) {offs : ℤ} (hoffs : 0 ≤ offs) :
    let r := K.simpleWriteToBuffer f user.length offs user
    r.bytes.length = user.length - offs.toNat ∧ 0 ≤ r.pos ∧ r.pos ≤ max offs user.length := by
  by_cases hend : (user.length : ℤ) ≤ offs ∨ user = []
  · rw [K.write_nothing _ _ _ _ hoffs hend]
    refine ⟨?_, hoffs, le_max_left _ _⟩
    rcases hend with hend | rfl
    · exact (Nat.sub_eq_zero_of_le (by omega)).symm
    · exact (Nat.zero_sub _).symm
  · obtain ⟨hend, hne⟩ := not_or.1 hend
    rw [K.write_some _ _ _ _ hoffs (by omega) hne]
    have hk := f.passed_le (min user.length (user.length - offs.toNat))
    simp only [List.length_append, List.length_take, List.length_replicate]
    omega

/-- The indices a write stores to. -/
theorem stores_myfdWrite (f : Fault) (str : CArray PAGE_SIZE) (user : Bytes) {offs : ℤ}
    (hoffs : 0 ≤ offs) :
    (myfdWrite K f str user offs).str.stores = sizeT (user.length + 1) ::
      (List.range' offs.toNat (user.length - offs.toNat) ++ str.stores) := by
  simp only [myfdWrite, CArray.stores_store, CArray.stores_copyIn, (copy_bounds K f user hoffs).1]

/-- A write leaving room stays in bounds. -/
theorem inBounds_myfdWrite {str : CArray PAGE_SIZE} (h : InBounds K str) (f : Fault)
    {user : Bytes} (hroom : user.length + 1 < PAGE_SIZE) {offs : ℤ} (hoffs : 0 ≤ offs) :
    InBounds K (myfdWrite K f str user offs).str := by
  have hpage : PAGE_SIZE = 4096 := rfl
  have hidx : sizeT ((user.length : ℤ) + 1) = user.length + 1 :=
    sizeT_of_lt (n := user.length + 1) (by omega)
  refine InBounds.of_nul K (fun i hi => ?_) ⟨user.length + 1, hroom, ?_⟩
  · rw [stores_myfdWrite K f str user hoffs, hidx, List.mem_cons, List.mem_append,
      List.mem_range'_1] at hi
    rcases hi with rfl | hi | hi
    · exact hroom
    · omega
    · exact h.stores i hi
  · simp only [myfdWrite, hidx, CArray.cells_store]
    refine List.getElem?_set_self ?_
    rwa [CArray.length_cells]

/-- A write that stays in bounds leaves room. -/
theorem room_of_inBounds {f : Fault} {str : CArray PAGE_SIZE} {user : Bytes} {offs : ℤ}
    (hsize : user.length < 2 ^ 64) (hoffs : 0 ≤ offs) (hpos : offs < PAGE_SIZE)
    (h : InBounds K (myfdWrite K f str user offs).str) : user.length + 1 < PAGE_SIZE := by
  have hpage : PAGE_SIZE = 4096 := rfl
  have hstores := h.stores
  rw [stores_myfdWrite K f str user hoffs] at hstores
  by_contra hroom
  rcases Nat.lt_or_ge (user.length + 1) (2 ^ 64) with hlt | hge
  · -- The NUL lands behind the page.
    have hnul := hstores _ List.mem_cons_self
    have hidx : sizeT ((user.length : ℤ) + 1) = user.length + 1 := sizeT_of_lt hlt
    exact hroom (hidx ▸ hnul)
  · -- The index of the NUL wraps around, but the copy runs over the page.
    have hlast := hstores (user.length - 1) (List.mem_cons_of_mem _ (List.mem_append_left _
      (List.mem_range'_1.2 (by omega))))
    omega

/-! ## Runs of writes -/

/-- The page is in bounds, and the positions are inside of it. -/
structure Contained (d : Dev) : Prop where
  inBounds : InBounds K d.str
  nonneg : ∀ file, 0 ≤ d.offs file
  lt : ∀ file, d.offs file < PAGE_SIZE

theorem contained_init : Contained K Dev.init where
  inBounds := .of_nul K (fun i hi => absurd hi List.not_mem_nil) ⟨0, by decide, rfl⟩
  nonneg _ := le_rfl
  lt _ := Int.natCast_pos.2 (by decide)

/-- As long as writes leave room, the positions do not get out of the page either. -/
theorem contained_step (d : Dev) (c : WriteReq) (hroom : c.user.length + 1 < PAGE_SIZE)
    (h : Contained K d) : Contained K ((device K).step d c).1 := by
  obtain ⟨_, h0, hmax⟩ := copy_bounds K c.fault c.user (h.nonneg c.file)
  refine ⟨inBounds_myfdWrite K h.inBounds c.fault hroom (h.nonneg c.file), ?_, ?_⟩
  · exact (Function.forall_update_iff d.offs fun _ p => 0 ≤ p).2 ⟨h0, fun file _ => h.nonneg file⟩
  · have hlt := hmax.trans_lt (max_lt (h.lt c.file) (by omega : (c.user.length : ℤ) < PAGE_SIZE))
    exact (Function.forall_update_iff d.offs fun _ p => p < (PAGE_SIZE : ℤ)).2
      ⟨hlt, fun file _ => h.lt file⟩

/-- The writes of a run that stays in bounds all leave room. -/
theorem room_of_run {calls : List WriteReq} {d : Dev} (hd : Contained K d)
    (h : ∀ pre, pre <+: calls → InBounds K ((device K).state d pre).str) :
    ∀ c ∈ calls, c.user.length + 1 < PAGE_SIZE := by
  induction calls generalizing d with
  | nil => exact fun c hc => absurd hc List.not_mem_nil
  | cons c calls ih =>
    have hroom : c.user.length + 1 < PAGE_SIZE :=
      room_of_inBounds K c.size_lt (hd.nonneg c.file) (hd.lt c.file) (h [c] ⟨calls, rfl⟩)
    have hrest := ih (contained_step K d c hroom hd) fun pre hp =>
      h (c :: pre) (List.cons_prefix_cons.2 ⟨rfl, hp⟩)
    intro e he
    rcases List.mem_cons.1 he with rfl | he
    · exact hroom
    · exact hrest e he

/-- Every write of a run stays in bounds exactly if every write leaves room. -/
theorem inBounds_iff (calls : List WriteReq) :
    (∀ pre, pre <+: calls → InBounds K ((device K).state Dev.init pre).str) ↔
      ∀ c ∈ calls, c.user.length + 1 < PAGE_SIZE := by
  constructor
  · exact room_of_run K (contained_init K)
  · intro hroom pre hp
    exact (Machine.invariant (contained_step K) (fun c hc => hroom c (hp.subset hc))
      (contained_init K)).inBounds

/-- A write of one byte less than a page, to the device as it is loaded. -/
def almostPage : WriteReq where
  file := 0
  fault := .never
  user := List.replicate (PAGE_SIZE - 1) 1
  size_lt := by rw [List.length_replicate]; decide

/-- Its NUL is stored behind the page. -/
theorem almostPage_not_inBounds :
    ¬∀ calls pre, pre <+: calls →
      InBounds .reference ((device .reference).state Dev.init pre).str := by
  intro hall
  have h := hall [almostPage] [almostPage] List.prefix_rfl
  simp only [Machine.state_cons, Machine.state_nil, device, Dev.init] at h
  have hroom := room_of_inBounds .reference almostPage.size_lt le_rfl (by decide) h
  rw [almostPage, List.length_replicate] at hroom
  exact absurd hroom (by decide)

end LittlePenguin.Fix
