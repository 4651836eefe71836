import LittlePenguin.Lib.Decimal
import Mathlib.Data.List.DropRight

/-!
# Lines and escapes

A text in which every line ends with a newline is split into its lines again
(`lines`), unless there is a newline in one of them
(`length_lines_unlines_iff`). Bytes that would disturb such a format are
escaped, by a backslash and the three digits of the byte in base eight
(`mangle`). This can be undone if the backslash is among them
(`unmangle_mangle`).
-/

namespace Lib

/-! ## Lines -/

/-- The text with the given lines. -/
def unlines (ls : List Bytes) : Bytes := ls.flatMap (· ++ [10])

/-- The lines of a text, each of which ends with a newline. -/
def lines (text : Bytes) : List Bytes := (text.splitOn 10).dropLast

theorem lines_append_newline (l text : Bytes) :
    lines (l ++ [10] ++ text) = l.splitOn 10 ++ lines text := by
  rw [lines, List.append_assoc, List.singleton_append, List.splitOn_append_cons_self,
    List.dropLast_append_of_ne_nil (List.splitOn_ne_nil 10 text), lines]

theorem length_splitOn_pos (l : Bytes) : 0 < (l.splitOn 10).length :=
  List.length_pos_iff.2 (List.splitOn_ne_nil 10 l)

/-- No line is lost in the text. -/
theorem length_le_lines_unlines (ls : List Bytes) : ls.length ≤ (lines (unlines ls)).length := by
  induction ls with
  | nil => exact Nat.zero_le _
  | cons l ls ih =>
    have hl := length_splitOn_pos l
    rw [unlines, List.flatMap_cons, lines_append_newline, List.length_append, List.length_cons]
    rw [unlines] at ih
    omega

/-- A line with a newline in it is split. -/
theorem one_lt_length_splitOn {l : Bytes} (h : 10 ∈ l) : 1 < (l.splitOn 10).length := by
  obtain ⟨s, t, rfl⟩ := List.append_of_mem h
  have hs := length_splitOn_pos s
  have ht := length_splitOn_pos t
  rw [List.splitOn_append_cons_self, List.length_append]
  omega

/-- Lines without newlines are found again in their text. -/
theorem lines_unlines {ls : List Bytes} (h : ∀ l ∈ ls, 10 ∉ l) : lines (unlines ls) = ls := by
  induction ls with
  | nil => rfl
  | cons l ls ih =>
    have hrest : lines (ls.flatMap (· ++ [10])) = ls :=
      ih fun m hm => h m (List.mem_cons_of_mem _ hm)
    rw [unlines, List.flatMap_cons, lines_append_newline,
      List.splitOn_eq_singleton (h l List.mem_cons_self), hrest, List.singleton_append]

/-- There are as many lines in the text exactly if there is a newline in none of them. -/
theorem length_lines_unlines_iff (ls : List Bytes) :
    (lines (unlines ls)).length = ls.length ↔ ∀ l ∈ ls, 10 ∉ l := by
  refine ⟨fun h l hl hmem => ?_, fun h => by rw [lines_unlines h]⟩
  induction ls with
  | nil => exact absurd hl List.not_mem_nil
  | cons m ls ih =>
    have hle := length_le_lines_unlines ls
    have hm := length_splitOn_pos m
    rw [unlines, List.flatMap_cons, lines_append_newline, List.length_append,
      List.length_cons] at h
    rw [unlines] at hle ih
    rcases List.mem_cons.1 hl with rfl | hl
    · have hsplit := one_lt_length_splitOn hmem
      omega
    · exact ih (by omega) hl

/-- What stands in a line before the first `sep`. -/
def field (sep : UInt8) (l : Bytes) : Bytes := l.takeWhile (· ≠ sep)

/-- A field is found again exactly if the separator is not in it. -/
theorem field_append_iff (sep : UInt8) (s t : Bytes) : field sep (s ++ sep :: t) = s ↔ sep ∉ s := by
  constructor
  · intro h hmem
    have hall : (field sep (s ++ sep :: t)).all (· ≠ sep) = true := List.all_takeWhile
    rw [h] at hall
    exact of_decide_eq_true (List.all_eq_true.1 hall sep hmem) rfl
  · intro h
    have hs : ∀ c ∈ s, (decide (c ≠ sep)) = true := fun c hc =>
      decide_eq_true fun heq => h (heq ▸ hc)
    rw [field, List.takeWhile_append_of_pos hs, List.takeWhile_cons_of_neg (by simp),
      List.append_nil]

/-- What stands in a line behind the last `sep`. -/
def lastField (sep : UInt8) (l : Bytes) : Bytes := l.rtakeWhile (· ≠ sep)

/-- A last field is found again if the separator is not in it, whatever is in front of it. -/
theorem lastField_append {sep : UInt8} {t : Bytes} (h : sep ∉ t) (s : Bytes) :
    lastField sep (s ++ sep :: t) = t := by
  have ht : ∀ c ∈ t.reverse, (decide (c ≠ sep)) = true := fun c hc =>
    decide_eq_true fun heq => h (heq ▸ List.mem_reverse.1 hc)
  rw [lastField, List.rtakeWhile, List.reverse_append, List.reverse_cons, List.append_assoc,
    List.singleton_append, List.takeWhile_append_of_pos ht, List.takeWhile_cons_of_neg (by simp),
    List.append_nil, List.reverse_reverse]

/-- What stands in a line in front of the last `sep`. -/
def beforeLast (sep : UInt8) (l : Bytes) : Bytes := (l.rdropWhile (· ≠ sep)).dropLast

/-- What stands in front of a last field is found again, separators or not. -/
theorem beforeLast_append {sep : UInt8} {t : Bytes} (h : sep ∉ t) (s : Bytes) :
    beforeLast sep (s ++ sep :: t) = s := by
  have hsplit : (s ++ sep :: t).rdropWhile (· ≠ sep) ++ t = (s ++ [sep]) ++ t := by
    calc (s ++ sep :: t).rdropWhile (· ≠ sep) ++ t
        = (s ++ sep :: t).rdropWhile (· ≠ sep) ++ lastField sep (s ++ sep :: t) := by
          rw [lastField_append h]
      _ = s ++ sep :: t := List.rdropWhile_append_rtakeWhile
      _ = (s ++ [sep]) ++ t := by rw [List.append_assoc, List.singleton_append]
  rw [beforeLast, List.append_cancel_right hsplit, List.dropLast_concat]

/-! ## Escapes -/

/-- The escape of a byte: a backslash and three digits in base eight. -/
def octal (c : UInt8) : Bytes :=
  [92, digit (c.toNat / 64), digit (c.toNat / 8 % 8), digit (c.toNat % 8)]

/-- A text with the bytes of `esc` escaped. -/
def mangle (esc text : Bytes) : Bytes := text.flatMap fun c => if c ∈ esc then octal c else [c]

/-- The byte with the given digits in base eight. -/
def unoctal (a b c : UInt8) : UInt8 :=
  UInt8.ofNat ((a.toNat - 48) * 64 + (b.toNat - 48) * 8 + (c.toNat - 48))

/-- A text with its escapes undone. -/
def unmangle : Bytes → Bytes
  | [] => []
  | 92 :: a :: b :: c :: text => unoctal a b c :: unmangle text
  | c :: text => c :: unmangle text

/-- The escape of a byte is undone. -/
theorem unmangle_octal_append (c : UInt8) (text : Bytes) :
    unmangle (octal c ++ text) = c :: unmangle text := by
  have hc := c.toNat_lt
  have hvalue : unoctal (digit (c.toNat / 64)) (digit (c.toNat / 8 % 8)) (digit (c.toNat % 8)) =
      c := by
    rw [unoctal, toNat_digit (by omega), toNat_digit (by omega), toNat_digit (by omega)]
    refine UInt8.toNat_inj.1 ?_
    rw [UInt8.toNat_ofNat']
    omega
  rw [octal, List.cons_append, List.cons_append, List.cons_append, List.singleton_append, unmangle,
    hvalue]

theorem unmangle_cons_of_ne {c : UInt8} (hc : c ≠ 92) (text : Bytes) :
    unmangle (c :: text) = c :: unmangle text := by
  rw [unmangle]
  rintro a b d rest rfl _
  exact hc rfl

/-- Where the backslash is escaped itself, undoing the escapes gives back the text. -/
theorem unmangle_mangle {esc : Bytes} (h : 92 ∈ esc) (text : Bytes) :
    unmangle (mangle esc text) = text := by
  induction text with
  | nil => rfl
  | cons c text ih =>
    rw [mangle, List.flatMap_cons]
    rw [mangle] at ih
    split_ifs with hc
    · rw [unmangle_octal_append, ih]
    · have hne : c ≠ 92 := fun heq => hc (heq ▸ h)
      rw [List.singleton_append, unmangle_cons_of_ne hne, ih]

/-- An escape has no bytes below the digits. -/
theorem le_toNat_of_mem_octal {c d : UInt8} (h : d ∈ octal c) : 48 ≤ d.toNat := by
  have hc := c.toNat_lt
  simp only [octal, List.mem_cons, List.not_mem_nil, or_false] at h
  rcases h with rfl | rfl | rfl | rfl
  · decide
  all_goals
    rw [toNat_digit (by omega)]
    exact Nat.le_add_right _ _

/-- Bytes below the digits are not in a text where they are escaped. -/
theorem not_mem_mangle {esc : Bytes} {c : UInt8} (hc : c ∈ esc) (hlt : c.toNat < 48)
    (text : Bytes) : c ∉ mangle esc text := by
  intro h
  obtain ⟨d, _, hd⟩ := List.mem_flatMap.1 h
  split_ifs at hd with hesc
  · exact absurd (le_toNat_of_mem_octal hd) (Nat.not_le.2 hlt)
  · rw [List.mem_singleton.1 hd] at hc
    exact hesc hc

end Lib
