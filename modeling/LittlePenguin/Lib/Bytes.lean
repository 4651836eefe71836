import Mathlib.Data.List.Basic
import Mathlib.Data.Nat.Notation
import Mathlib.Data.Int.Notation

/-!
# Byte arrays and C strings

A buffer of a C program is a list of bytes (`Bytes`). What a copy does to it is
an overlay (`overlay`), what a read takes from it a slice (`slice`), and the
string it holds is what stands before its first NUL (`cstr`).

An array of a fixed size (`CArray`) also keeps the indices its program has
loaded from and stored to. An index past the end is not an error here, as it is
none in C: the access is logged, the cells stay as they are, and a load from
there yields whatever byte happens to lie outside of the array. That no index
of the log is out of bounds is then something to prove about a program.
-/

namespace Lib

/-- A run of bytes. -/
abbrev Bytes := List UInt8

/-! ## Slices and overlays -/

/-- The bytes of `s` from the offset `pos` on, at most `n` of them. -/
def slice (s : Bytes) (pos n : ℕ) : Bytes := (s.drop pos).take n

theorem length_slice (s : Bytes) (pos n : ℕ) :
    (slice s pos n).length = min n (s.length - pos) := by
  simp [slice]

/-- A slice of the first `m` bytes ends with them. -/
theorem slice_take (s : Bytes) (m pos n : ℕ) :
    slice (s.take m) pos n = slice s pos (min n (m - pos)) := by
  rw [slice, slice, List.drop_take, List.take_take]

/-- A slice, and what is left behind it. -/
theorem slice_append_drop (s : Bytes) (pos n : ℕ) :
    slice s pos n ++ s.drop (pos + (slice s pos n).length) = s.drop pos := by
  have h : s.drop (pos + (slice s pos n).length) = (s.drop pos).drop (slice s pos n).length := by
    rw [List.drop_drop]
  rw [h, slice, List.length_take]
  rcases Nat.le_total n (s.drop pos).length with hn | hn
  · rw [Nat.min_eq_left hn, List.take_append_drop]
  · rw [Nat.min_eq_right hn, List.take_of_length_le hn, List.drop_length, List.append_nil]

/-- `new` laid over `old` from the offset `pos` on; what would stick out is lost. -/
def overlay (old : Bytes) (pos : ℕ) (new : Bytes) : Bytes :=
  (old.take pos ++ new ++ old.drop (pos + new.length)).take old.length

theorem length_overlay (old : Bytes) (pos : ℕ) (new : Bytes) :
    (overlay old pos new).length = old.length := by
  simp only [overlay, List.length_take, List.length_append, List.length_drop]
  omega

@[simp] theorem overlay_nil (old : Bytes) (pos : ℕ) : overlay old pos [] = old := by
  rw [overlay, List.length_nil, List.append_nil, Nat.add_zero, List.take_append_drop,
    List.take_length]

/-- At offset `0`, an overlay that fits replaces a prefix. -/
theorem overlay_zero {old new : Bytes} (h : new.length ≤ old.length) :
    overlay old 0 new = new ++ old.drop new.length := by
  rw [overlay, List.take_zero, List.nil_append, Nat.zero_add, List.take_of_length_le]
  simp only [List.length_append, List.length_drop]
  omega

/-- The first bytes after an overlay at offset `0`. -/
theorem take_overlay_zero {old new : Bytes} (h : new.length ≤ old.length) (n : ℕ) :
    (overlay old 0 new).take n = new.take n ++ (old.take n).drop new.length := by
  rw [overlay_zero h, List.take_append, List.drop_take]

/-- They are what they were before if the new bytes among them are the old ones. -/
theorem take_overlay_zero_iff {old new : Bytes} (h : new.length ≤ old.length) (n : ℕ) :
    (overlay old 0 new).take n = old.take n ↔ new.take n = (old.take n).take new.length := by
  have hsplit := List.take_append_drop new.length (old.take n)
  rw [take_overlay_zero h]
  constructor
  · intro heq
    exact List.append_cancel_right (heq.trans hsplit.symm)
  · intro heq
    rw [heq, hsplit]

/-- Storing a byte and then overlaying what follows it is one overlay. -/
theorem overlay_set {old : Bytes} {i : ℕ} (h : i < old.length) (b : UInt8) (new : Bytes) :
    overlay (old.set i b) (i + 1) new = overlay old i (b :: new) := by
  have htake : (old.set i b).take (i + 1) = old.take i ++ [b] := by
    have hlen : (old.take i).length = i := List.length_take_of_le (Nat.le_of_lt h)
    rw [List.take_set, List.take_add_one, List.getElem?_eq_getElem h, Option.toList_some,
      List.set_append_right _ _ (Nat.le_of_eq hlen), hlen, Nat.sub_self, List.set_cons_zero]
  have hdrop : (old.set i b).drop (i + 1 + new.length) = old.drop (i + (b :: new).length) := by
    rw [List.drop_set_of_lt (by omega), List.length_cons]
    congr 1
    omega
  rw [overlay, overlay, htake, hdrop, List.length_set, List.append_assoc (old.take i),
    List.singleton_append]

/-- An overlay right behind another one is one overlay. -/
theorem overlay_overlay {old new : Bytes} {pos : ℕ} (h : pos + new.length ≤ old.length)
    (more : Bytes) :
    overlay (overlay old pos new) (pos + new.length) more = overlay old pos (new ++ more) := by
  -- The first byte laid over is a store, after which the rest goes one place further.
  induction new generalizing old pos with
  | nil => rw [overlay_nil, List.length_nil, Nat.add_zero, List.nil_append]
  | cons b new ih =>
    rw [List.length_cons] at h
    have hpos : pos < old.length := by omega
    rw [← overlay_set hpos, List.cons_append, ← overlay_set hpos, List.length_cons,
      ← ih (by rw [List.length_set]; omega)]
    congr 1
    omega

/-- Storing the next byte makes an overlay longer. -/
theorem set_overlay_take {old bs : Bytes} (h : bs.length ≤ old.length) {i : ℕ} {b : UInt8}
    (hb : bs[i]? = some b) :
    (overlay old 0 (bs.take i)).set i b = overlay old 0 (bs.take (i + 1)) := by
  have hi : i < bs.length := (List.getElem?_eq_some_iff.1 hb).1
  have htake : (bs.take i).length = i := List.length_take_of_le (Nat.le_of_lt hi)
  have hlen : (overlay old 0 (bs.take i)).length = old.length := length_overlay ..
  have hfits : 0 + (bs.take i).length ≤ old.length := by omega
  have hset := overlay_set (hlen ▸ Nat.lt_of_lt_of_le hi h) b []
  have hover := overlay_overlay hfits [b]
  rw [overlay_nil] at hset
  rw [Nat.zero_add, htake] at hover
  rw [hset, hover, List.take_add_one, hb, Option.toList_some]

/-- The slice at an index begins with the byte there. -/
theorem slice_succ {s : Bytes} {pos : ℕ} {b : UInt8} (h : s[pos]? = some b) (n : ℕ) :
    slice s pos (n + 1) = b :: slice s (pos + 1) n := by
  rw [slice, List.drop_eq_getElem?_toList_append, h, Option.toList_some, List.singleton_append,
    List.take_succ_cons, slice]

/-! ## Strings -/

/-- The string an array holds: its bytes before the first NUL. -/
def cstr (s : Bytes) : Bytes := s.takeWhile (· ≠ 0)

/-- The length of the string an array holds. -/
def strlen (s : Bytes) : ℕ := (cstr s).length

/-- The bytes of a text of ASCII characters. -/
def ascii (text : String) : Bytes := text.toList.map fun c => UInt8.ofNat c.toNat

/-- The array behind a string literal, with the NUL at its end. -/
def literal (text : String) : Bytes := ascii text ++ [0]

/-- The comparison of the strings two arrays hold, byte by byte. -/
def strcmp : Bytes → Bytes → ℤ
  | [], [] => 0
  | [], d :: _ => if d = 0 then 0 else -1
  | c :: _, [] => if c = 0 then 0 else 1
  | c :: cs, d :: ds =>
    if c ≠ d then (if c < d then -1 else 1) else if c = 0 then 0 else strcmp cs ds

/-- How many bytes of each array `strcmp` looks at. -/
def compared : Bytes → Bytes → ℕ
  | c :: cs, d :: ds => if c ≠ d ∨ c = 0 then 1 else compared cs ds + 1
  | _, _ => 1

@[simp] theorem cstr_nil : cstr [] = [] := rfl

@[simp] theorem cstr_zero (s : Bytes) : cstr (0 :: s) = [] := rfl

theorem cstr_cons_of_ne {c : UInt8} (hc : c ≠ 0) (s : Bytes) : cstr (c :: s) = c :: cstr s := by
  simp [cstr, hc]

/-- A string is copied whole, and goes on into what follows it. -/
theorem cstr_append {w : Bytes} (hw : 0 ∉ w) (s : Bytes) : cstr (w ++ s) = w ++ cstr s := by
  induction w with
  | nil => rfl
  | cons c w ih =>
    have hc : c ≠ 0 := fun h => hw (h ▸ List.mem_cons_self)
    rw [List.cons_append, cstr_cons_of_ne hc, ih fun h => hw (List.mem_cons_of_mem _ h),
      List.cons_append]

/-- A string ends at its NUL, whatever is behind it. -/
theorem cstr_append_zero (w s : Bytes) : cstr (w ++ 0 :: s) = cstr w := by
  induction w with
  | nil => rfl
  | cons c w ih =>
    rw [List.cons_append]
    by_cases hc : c = 0
    · rw [hc, cstr_zero, cstr_zero]
    · rw [cstr_cons_of_ne hc, cstr_cons_of_ne hc, ih]

/-- Without a NUL, the whole array is the string. -/
theorem cstr_of_not_mem {w : Bytes} (hw : 0 ∉ w) : cstr w = w := by
  simpa using cstr_append hw []

/-- An array holds the string `w` if it is `w`, or goes on behind it with a NUL. -/
theorem cstr_eq_iff {w : Bytes} (hw : 0 ∉ w) (s : Bytes) :
    cstr s = w ↔ s = w ∨ w ++ [0] <+: s := by
  constructor
  · intro h
    obtain ⟨t, ht⟩ : cstr s <+: s := List.takeWhile_prefix _
    rw [h] at ht
    subst ht
    cases t with
    | nil => exact .inl (List.append_nil w)
    | cons c t =>
      -- The string would be longer if it did not end at `c`.
      obtain rfl : c = 0 := by
        by_contra hc
        rw [cstr_append hw, cstr_cons_of_ne hc] at h
        simp at h
      exact .inr ⟨t, by rw [List.append_assoc, List.singleton_append]⟩
  · rintro (rfl | ⟨t, rfl⟩)
    · exact cstr_of_not_mem hw
    · rw [List.append_assoc, List.singleton_append, cstr_append_zero, cstr_of_not_mem hw]

/-- With a NUL in the array, the string ends in front of it. -/
theorem strlen_le_of_getElem? {s : Bytes} {i : ℕ} (h : s[i]? = some 0) : strlen s ≤ i := by
  induction s generalizing i with
  | nil => simp at h
  | cons c s ih =>
    by_cases hc : c = 0
    · subst hc
      exact Nat.zero_le _
    · cases i with
      | zero => exact absurd (by simpa using h) hc
      | succ i =>
        rw [strlen, cstr_cons_of_ne hc, List.length_cons]
        exact Nat.succ_le_succ (ih (by simpa using h))

/-- A string that ends inside of its buffer ends with a NUL. -/
theorem getElem?_strlen {s : Bytes} (h : strlen s < s.length) : s[strlen s]? = some 0 := by
  induction s with
  | nil => exact absurd h (Nat.not_lt_zero _)
  | cons c s ih =>
    by_cases hc : c = 0
    · rw [hc, strlen, cstr_zero]
      rfl
    · rw [strlen, cstr_cons_of_ne hc, List.length_cons] at h ⊢
      rw [List.getElem?_cons_succ]
      exact ih (Nat.lt_of_succ_lt_succ h)

/-- The string is a prefix of the array. -/
theorem take_strlen (s : Bytes) : s.take (strlen s) = cstr s :=
  (List.prefix_iff_eq_take.1 (List.takeWhile_prefix _)).symm

/-- A comparison looks no further than at the NUL of the string. -/
theorem compared_le (s t : Bytes) : compared s t ≤ strlen s + 1 := by
  induction s generalizing t with
  | nil => exact Nat.le_refl 1
  | cons c s ih =>
    cases t with
    | nil => exact Nat.le_add_left 1 _
    | cons d t =>
      rw [compared]
      split_ifs with h
      · exact Nat.le_add_left 1 _
      · rw [strlen, cstr_cons_of_ne (not_or.1 h).2, List.length_cons]
        exact Nat.succ_le_succ (ih t)

/-- Strings compare equal exactly when they are the same. -/
theorem strcmp_eq_zero_iff (s t : Bytes) : strcmp s t = 0 ↔ cstr s = cstr t := by
  induction s generalizing t with
  | nil =>
    cases t with
    | nil => simp [strcmp]
    | cons d ds => by_cases hd : d = 0 <;> simp [strcmp, hd, cstr_cons_of_ne]
  | cons c cs ih =>
    cases t with
    | nil => by_cases hc : c = 0 <;> simp [strcmp, hc, cstr_cons_of_ne]
    | cons d ds =>
      by_cases hcd : c = d
      · subst hcd
        by_cases hc : c = 0
        · simp [strcmp, hc]
        · simp [strcmp, hc, cstr_cons_of_ne, ih]
      · -- Where the bytes differ, so do the strings, even if one of them ends there.
        have hne : strcmp (c :: cs) (d :: ds) ≠ 0 := by
          rw [strcmp, if_pos hcd]
          split_ifs <;> decide
        refine iff_of_false hne fun h => hcd ?_
        by_cases hc : c = 0 <;> by_cases hd : d = 0
        · rw [hc, hd]
        · simp [hc, cstr_cons_of_ne hd] at h
        · simp [hd, cstr_cons_of_ne hc] at h
        · rw [cstr_cons_of_ne hc, cstr_cons_of_ne hd] at h
          exact (List.cons.inj h).1

/-! ## Arrays -/

/-- A C array of `n` bytes, with the indices loaded and stored so far, the
    latest first. -/
structure CArray (n : ℕ) where
  /-- The bytes of the array. -/
  cells : Bytes
  /-- The byte a load at an index past the end happens to find. -/
  outside : ℕ → UInt8
  /-- The indices loaded from. -/
  loads : List ℕ
  /-- The indices stored to. -/
  stores : List ℕ
  length_cells : cells.length = n

namespace CArray

variable {n : ℕ}

/-- A static array: all zero, never accessed. -/
def zeroed (n : ℕ) : CArray n := ⟨List.replicate n 0, fun _ => 0, [], [], List.length_replicate⟩

variable (a : CArray n)

/-- The byte at the index `i`. -/
def get (i : ℕ) : UInt8 := a.cells.getD i (a.outside i)

/-- The array after a load at the index `i`. -/
def load (i : ℕ) : CArray n := { a with loads := i :: a.loads }

/-- The array after a scan of its first `k` bytes. -/
def scan (k : ℕ) : CArray n := { a with loads := List.range k ++ a.loads }

/-- The array after the store of `b` at the index `i`. -/
def store (i : ℕ) (b : UInt8) : CArray n where
  cells := a.cells.set i b
  outside := a.outside
  loads := a.loads
  stores := i :: a.stores
  length_cells := by rw [List.length_set, a.length_cells]

/-- The array after the bytes `bs` have been copied in, from the index `pos` on. -/
def copyIn (pos : ℕ) (bs : Bytes) : CArray n where
  cells := overlay a.cells pos bs
  outside := a.outside
  loads := a.loads
  stores := List.range' pos bs.length ++ a.stores
  length_cells := by rw [length_overlay, a.length_cells]

@[simp] theorem cells_zeroed : (zeroed n).cells = List.replicate n 0 := rfl
@[simp] theorem cells_load (i : ℕ) : (a.load i).cells = a.cells := rfl
@[simp] theorem cells_scan (k : ℕ) : (a.scan k).cells = a.cells := rfl
@[simp] theorem cells_store (i : ℕ) (b : UInt8) : (a.store i b).cells = a.cells.set i b := rfl
@[simp] theorem cells_copyIn (pos : ℕ) (bs : Bytes) :
    (a.copyIn pos bs).cells = overlay a.cells pos bs := rfl

@[simp] theorem loads_zeroed : (zeroed n).loads = [] := rfl
@[simp] theorem loads_load (i : ℕ) : (a.load i).loads = i :: a.loads := rfl
@[simp] theorem loads_scan (k : ℕ) : (a.scan k).loads = List.range k ++ a.loads := rfl
@[simp] theorem loads_store (i : ℕ) (b : UInt8) : (a.store i b).loads = a.loads := rfl
@[simp] theorem loads_copyIn (pos : ℕ) (bs : Bytes) : (a.copyIn pos bs).loads = a.loads := rfl

@[simp] theorem stores_zeroed : (zeroed n).stores = [] := rfl
@[simp] theorem stores_load (i : ℕ) : (a.load i).stores = a.stores := rfl
@[simp] theorem stores_scan (k : ℕ) : (a.scan k).stores = a.stores := rfl
@[simp] theorem stores_store (i : ℕ) (b : UInt8) : (a.store i b).stores = i :: a.stores := rfl
@[simp] theorem stores_copyIn (pos : ℕ) (bs : Bytes) :
    (a.copyIn pos bs).stores = List.range' pos bs.length ++ a.stores := rfl

/-- Every access so far has been inside of the array. -/
structure Inside : Prop where
  loads : ∀ i ∈ a.loads, i < n
  stores : ∀ i ∈ a.stores, i < n

theorem inside_zeroed : (zeroed n).Inside :=
  ⟨fun _ hi => absurd hi List.not_mem_nil, fun _ hi => absurd hi List.not_mem_nil⟩

theorem inside_load_iff (i : ℕ) : (a.load i).Inside ↔ i < n ∧ a.Inside := by
  constructor
  · rintro ⟨hloads, hstores⟩
    obtain ⟨hi, hloads⟩ := List.forall_mem_cons.1 hloads
    exact ⟨hi, hloads, hstores⟩
  · rintro ⟨hi, hloads, hstores⟩
    exact ⟨List.forall_mem_cons.2 ⟨hi, hloads⟩, hstores⟩

theorem inside_store_iff (i : ℕ) (b : UInt8) : (a.store i b).Inside ↔ i < n ∧ a.Inside := by
  constructor
  · rintro ⟨hloads, hstores⟩
    obtain ⟨hi, hstores⟩ := List.forall_mem_cons.1 hstores
    exact ⟨hi, hloads, hstores⟩
  · rintro ⟨hi, hloads, hstores⟩
    exact ⟨hloads, List.forall_mem_cons.2 ⟨hi, hstores⟩⟩

variable {a}

theorem Inside.scan (h : a.Inside) {k : ℕ} (hk : k ≤ n) : (a.scan k).Inside where
  loads := List.forall_mem_append.2
    ⟨fun _ hi => Nat.lt_of_lt_of_le (List.mem_range.1 hi) hk, h.loads⟩
  stores := h.stores

theorem Inside.of_scan {k : ℕ} (h : (a.scan k).Inside) : a.Inside :=
  ⟨(List.forall_mem_append.1 h.loads).2, h.stores⟩

theorem Inside.copyIn (h : a.Inside) {bs : Bytes} (hbs : bs.length ≤ n) :
    (a.copyIn 0 bs).Inside where
  loads := h.loads
  stores := List.forall_mem_append.2
    ⟨fun i hi => by
      have := List.mem_range'_1.1 hi
      omega, h.stores⟩

theorem get_of_lt {a : CArray n} {i : ℕ} (h : i < a.cells.length) : a.get i = a.cells[i] := by
  simp [get, List.getD_eq_getElem?_getD, h]

/-- Loading byte by byte yields a slice. -/
theorem map_get_range' {a : CArray n} {pos k : ℕ} (h : pos + k ≤ a.cells.length) :
    (List.range' pos k).map a.get = slice a.cells pos k := by
  induction k generalizing pos with
  | zero => rfl
  | succ k ih =>
    have hpos : pos < a.cells.length := by omega
    rw [List.range'_succ, List.map_cons, ih (by omega), get_of_lt hpos,
      slice_succ (List.getElem?_eq_getElem hpos)]

/-- Loading the byte behind a slice makes it longer. -/
theorem slice_append_get (a : CArray n) {pos i : ℕ} (h : pos + i < n) :
    slice a.cells pos i ++ [a.get (pos + i)] = slice a.cells pos (i + 1) := by
  have hlt : pos + i < a.cells.length := by rwa [a.length_cells]
  rw [slice, slice, List.take_add_one, List.getElem?_drop, List.getElem?_eq_getElem hlt,
    Option.toList_some, get_of_lt hlt]

end CArray

end Lib
