import LittlePenguin.Kernel
import LittlePenguin.Lib.Decimal

/-!
# The timer in debugfs

A read of the file `jiffies` makes a text of the value the timer has, and hands
out the slice of this text at the position of the open file. A read of the whole
text delivers the value (`jiffiesRead_decodes`). Read in pieces, the file may
so hand out the digits of different values. What has been read is the text of
a value in between if every call finds a text that goes on behind what has been
delivered before, or is no longer than that (`between_of_steady`).
-/

namespace LittlePenguin.Debugfs

open Lib

/-- `snprintf` of a text: what fits into the array is stored, with a NUL behind
    it, and the length of the text is returned. -/
def snprintf {n : ℕ} (data : CArray n) (text : Bytes) : CArray n × ℕ :=
  (if n = 0 then data else data.copyIn 0 (text.take (n - 1) ++ [0]), text.length)

/-- What a call of `jiffies_read` answers, and what it leaves in the array. -/
structure JiffiesReadCall where
  reply : Reply
  data : CArray 32

variable (K : Kernel)

/-- The text of a value of the timer. -/
def jiffiesText (jiffies : UInt64) : Bytes := decimal jiffies.toNat ++ ascii "\n"

/-- A read of `count` bytes; `data` is the array as the stack left it. -/
def jiffiesRead (f : Fault) (data : CArray 32) (jiffies : UInt64) (count : ℕ) (ppos : ℤ) :
    JiffiesReadCall :=
  let (data, len) := snprintf data (jiffiesText jiffies)
  { reply := K.simpleReadFromBuffer f count ppos data.cells len, data }

theorem length_jiffiesText (jiffies : UInt64) :
    (jiffiesText jiffies).length = (decimal jiffies.toNat).length + 1 := List.length_append

/-- Twenty digits and a newline are the most there can be. -/
theorem length_jiffiesText_le (jiffies : UInt64) : (jiffiesText jiffies).length ≤ 21 := by
  rw [length_jiffiesText]
  refine Nat.succ_le_succ (length_decimal_le_of_lt (by decide) ?_)
  exact jiffies.toNat_lt.trans (by decide)

/-- The text fits into the array, with its NUL. -/
theorem snprintf_eq (data : CArray 32) (jiffies : UInt64) :
    snprintf data (jiffiesText jiffies) =
      (data.copyIn 0 (jiffiesText jiffies ++ [0]), (jiffiesText jiffies).length) := by
  have htake : (jiffiesText jiffies).take (32 - 1) = jiffiesText jiffies :=
    List.take_of_length_le ((length_jiffiesText_le jiffies).trans (by decide))
  rw [snprintf, if_neg (by decide), htake]

/-- The array holds the text. -/
theorem cells_snprintf (data : CArray 32) (jiffies : UInt64) :
    ∃ rest, (snprintf data (jiffiesText jiffies)).1.cells = jiffiesText jiffies ++ 0 :: rest := by
  have hlen := length_jiffiesText_le jiffies
  have hfits : (jiffiesText jiffies ++ [0]).length ≤ data.cells.length := by
    rw [data.length_cells, List.length_append, List.length_singleton]
    omega
  rw [snprintf_eq, CArray.cells_copyIn, overlay_zero hfits, List.append_assoc]
  exact ⟨_, rfl⟩

theorem take_snprintf (data : CArray 32) (jiffies : UInt64) :
    (snprintf data (jiffiesText jiffies)).1.cells.take (jiffiesText jiffies).length =
      jiffiesText jiffies := by
  obtain ⟨rest, hcells⟩ := cells_snprintf data jiffies
  rw [hcells, List.take_left]

/-- Without a fault, a read serves a slice of the text. -/
theorem jiffiesRead_reply (data : CArray 32) (jiffies : UInt64) (count : ℕ) {ppos : ℤ}
    (hppos : 0 ≤ ppos) : (jiffiesRead K .never data jiffies count ppos).reply =
      Reply.ofSlice (jiffiesText jiffies) ppos count := by
  have hlen : (jiffiesText jiffies).length ≤
      (snprintf data (jiffiesText jiffies)).1.cells.length := by
    rw [CArray.length_cells]
    exact (length_jiffiesText_le jiffies).trans (by decide)
  refine (K.read_never hppos hlen).trans ?_
  rw [take_snprintf]

/-! ## Reading as a whole -/

theorem zero_notMem_jiffiesText (jiffies : UInt64) : 0 ∉ jiffiesText jiffies := by
  intro h
  rcases List.mem_append.1 h with h | h
  · exact absurd (mem_decimal h).1 (by decide)
  · exact absurd h (by decide)

/-- The array holds the text as a string. -/
theorem strlen_snprintf (data : CArray 32) (jiffies : UInt64) :
    strlen (snprintf data (jiffiesText jiffies)).1.cells = (jiffiesText jiffies).length := by
  obtain ⟨rest, hcells⟩ := cells_snprintf data jiffies
  rw [strlen, hcells, cstr_append_zero, cstr_of_not_mem (zero_notMem_jiffiesText jiffies)]

theorem jiffiesText_injective : Function.Injective jiffiesText := by
  intro j j' h
  exact UInt64.toNat_inj.1 (decimal_injective (List.append_cancel_right h))

/-- The text of the timer fits into the array with its NUL, and its length is
    what is handed on. A read of the whole text delivers the digits of the value
    and a newline, and different values have different texts. -/
theorem jiffiesRead_decodes (data : CArray 32) (jiffies : UInt64) :
    let p := snprintf data (jiffiesText jiffies)
    (strlen p.1.cells = p.2 ∧ p.2 + 1 ≤ 32 ∧
      p.1.stores = List.range' 0 (p.2 + 1) ++ data.stores) ∧
    (∀ count, p.2 ≤ count →
      ∃ digits, (jiffiesRead K .never data jiffies count 0).reply.bytes = digits ++ ascii "\n" ∧
        digits ≠ [] ∧ (∀ c ∈ digits, 48 ≤ c.toNat ∧ c.toNat ≤ 57) ∧
        undecimal digits = jiffies.toNat) ∧
    ∀ jiffies', jiffiesText jiffies' = jiffiesText jiffies → jiffies' = jiffies := by
  intro p
  have hp : p.2 = (jiffiesText jiffies).length := rfl
  refine ⟨⟨strlen_snprintf data jiffies, ?_, ?_⟩, fun count hcount => ?_,
    fun _ h => jiffiesText_injective h⟩
  · have hlen := length_jiffiesText_le jiffies
    omega
  · simp only [p, snprintf_eq, CArray.stores_copyIn, List.length_append, List.length_singleton]
  · refine ⟨decimal jiffies.toNat, ?_, ?_, fun c hc => mem_decimal hc, undecimal_decimal _⟩
    · rw [jiffiesRead_reply K data jiffies count le_rfl]
      exact List.take_of_length_le hcount
    · have hlen := length_decimal jiffies.toNat
      intro hnil
      rw [hnil] at hlen
      exact absurd (hlen.trans_ge (le_max_left 1 _)) (by decide)

/-! ## Reading in pieces -/

/-- The timer as a reader finds it: its values, call after call, and what the
    stack holds then. -/
structure Timer where
  jiffies : ℕ → UInt64
  stack : ℕ → CArray 32

/-- The timer at the next call. -/
def Timer.tick (t : Timer) : Timer := ⟨fun k => t.jiffies (k + 1), fun k => t.stack (k + 1)⟩

/-- A call of `jiffies_read` without a fault. -/
def timerRead (t : Timer) (count : ℕ) (ppos : ℤ) : Reply × Timer :=
  ((jiffiesRead K .never (t.stack 0) (t.jiffies 0) count ppos).reply, t.tick)

theorem timerRead_eq (t : Timer) (count : ℕ) {ppos : ℤ} (hppos : 0 ≤ ppos) :
    timerRead K t count ppos = (Reply.ofSlice (jiffiesText (t.jiffies 0)) ppos count, t.tick) := by
  rw [timerRead, jiffiesRead_reply K _ _ _ hppos]

/-- With the bytes `delivered` so far, each of the calls to come finds a text
    that goes on behind them, or is no longer than they are. -/
def Steady : Bytes → Timer → List ℕ → Prop
  | _, _, [] => True
  | delivered, t, n :: sizes =>
    (delivered <+: jiffiesText (t.jiffies 0) ∨
      (jiffiesText (t.jiffies 0)).length ≤ delivered.length) ∧
    Steady (delivered ++ slice (jiffiesText (t.jiffies 0)) delivered.length n) t.tick sizes

/-- What has been read is the text of a number, between the value found by the
    first call and the one found by the last. -/
def Between (t : Timer) (sizes : List ℕ) (bs : Bytes) : Prop :=
  ∃ n, bs = decimal n ++ ascii "\n" ∧ (t.jiffies 0).toNat ≤ n ∧
    n ≤ (t.jiffies (sizes.length - 1)).toNat

/-- Going on with a text it begins keeps what is delivered a beginning of it. -/
theorem prefix_append_slice {delivered text : Bytes} (h : delivered <+: text) (n : ℕ) :
    delivered ++ slice text delivered.length n <+: text := by
  obtain ⟨rest, rfl⟩ := h
  rw [slice, List.drop_left]
  exact (List.prefix_append_right_inj _).2 (List.take_prefix n rest)

/-- With the beginning of a text delivered, the calls to come complete it, or the
    text of a later value. -/
theorem eq_text_of_steady {t : Timer} (ht : Monotone fun k => (t.jiffies k).toNat) {p : ℤ}
    {sizes : List ℕ} {bs : Bytes} (hd : Drains (timerRead K) t p sizes bs)
    (hpos : ∀ n ∈ sizes, 0 < n) {delivered : Bytes} (hp : p = delivered.length) {v : UInt64}
    (hv : delivered <+: jiffiesText v) (hle : v.toNat ≤ (t.jiffies 0).toNat)
    (hs : Steady delivered t sizes) :
    ∃ u : UInt64, delivered ++ bs = jiffiesText u ∧ v.toNat ≤ u.toNat ∧
      u.toNat ≤ (t.jiffies (sizes.length - 1)).toNat := by
  induction hd generalizing delivered v with
  | @eof t p n hr =>
    subst hp
    rw [timerRead_eq K t n (Int.natCast_nonneg _), Reply.ofSlice_result, Int.toNat_natCast] at hr
    -- The text found now is no shorter than the one that has been delivered in part.
    have hn := hpos n List.mem_cons_self
    have hlen : (jiffiesText v).length ≤ (jiffiesText (t.jiffies 0)).length := by
      rw [length_jiffiesText, length_jiffiesText]
      exact Nat.succ_le_succ (length_decimal_le hle)
    refine ⟨v, ?_, le_rfl, hle⟩
    rw [List.append_nil]
    exact hv.eq_of_length_le (by omega)
  | @more t p n sizes bs hr hd ih =>
    subst hp
    obtain ⟨hfits, hs⟩ := hs
    rw [timerRead_eq K t n (Int.natCast_nonneg delivered.length)] at hd hr ih ⊢
    rw [Reply.ofSlice_result, Int.toNat_natCast] at hr
    -- Something has been delivered, so the text is longer than what was delivered before.
    have hgoes : delivered <+: jiffiesText (t.jiffies 0) := hfits.resolve_right (by omega)
    obtain ⟨m, rest, rfl⟩ := List.exists_cons_of_ne_nil hd.ne_nil
    obtain ⟨u, hu, hge, hlast⟩ := ih (fun i j hij => ht (Nat.succ_le_succ hij))
      (fun k hk => hpos k (List.mem_cons_of_mem _ hk))
      (by rw [List.length_append, Int.natCast_add]; rfl)
      (prefix_append_slice hgoes n) (ht (Nat.le_succ 0)) hs
    refine ⟨u, ?_, hle.trans hge, hlast⟩
    rw [← hu, List.append_assoc]
    rfl

/-- Read in pieces of any positive sizes until the result is `0`, with every call
    finding a text that goes on behind what has been delivered, the file delivers
    the text of a value between the first one found and the last. -/
theorem between_of_steady (t : Timer) (ht : Monotone fun k => (t.jiffies k).toNat)
    (sizes : List ℕ) (hpos : ∀ n ∈ sizes, 0 < n) (bs : Bytes)
    (hd : Drains (timerRead K) t 0 sizes bs) (hs : Steady [] t sizes) : Between t sizes bs := by
  obtain ⟨u, hu, hge, hle⟩ := eq_text_of_steady K ht hd hpos rfl List.nil_prefix le_rfl hs
  exact ⟨u.toNat, hu, hge, hle⟩

/-- The timer at `v` at the first call, and at `w` at all the other ones. -/
def stepping (v w : UInt64) : Timer :=
  ⟨fun k => if k = 0 then v else w, fun _ => CArray.zeroed 32⟩

theorem stepping_monotone {v w : UInt64} (h : v.toNat ≤ w.toNat) :
    Monotone fun k => ((stepping v w).jiffies k).toNat := by
  intro i j hij
  simp only [stepping]
  rcases Nat.eq_zero_or_pos i with rfl | hi
  · rw [if_pos rfl]
    split_ifs
    · exact le_rfl
    · exact h
  · rw [if_neg hi.ne', if_neg (hi.trans_le hij).ne']

/-- Some bytes are read of the first text, and then the rest of the second. -/
theorem drains_stepping (v w : UInt64) {n : ℕ} (hn : 0 < n) (hv : n ≤ (jiffiesText v).length)
    (hw : n < (jiffiesText w).length) :
    Drains (timerRead .reference) (stepping v w) 0 [n, 21, 21]
      ((jiffiesText v).take n ++ (jiffiesText w).drop n) := by
  have hlen := length_jiffiesText_le w
  have hfirst : timerRead .reference (stepping v w) n 0 =
      (⟨n, (jiffiesText v).take n, n⟩, (stepping v w).tick) := by
    refine (timerRead_eq _ _ _ le_rfl).trans ?_
    rw [show (stepping v w).jiffies 0 = v from rfl, Reply.ofSlice, Int.toNat_zero, slice,
      List.drop_zero, List.length_take_of_le hv, Int.zero_add]
  have hlater : ∀ t : Timer, t.jiffies 0 = w → ∀ p : ℕ, timerRead .reference t 21 p =
      (⟨((jiffiesText w).length - p : ℕ), (jiffiesText w).drop p,
        p + ((jiffiesText w).length - p : ℕ)⟩, t.tick) := by
    intro t ht p
    rw [timerRead_eq _ _ _ (Int.natCast_nonneg p), ht, Reply.ofSlice, Int.toNat_natCast, slice,
      List.take_of_length_le (by rw [List.length_drop]; omega), List.length_drop]
  have hsecond := hlater (stepping v w).tick rfl n
  have hend : (n : ℤ) + ((jiffiesText w).length - n : ℕ) = ((jiffiesText w).length : ℕ) := by omega
  rw [hend] at hsecond
  have hlast := hlater (stepping v w).tick.tick rfl (jiffiesText w).length
  have hrest : Drains (timerRead .reference) (stepping v w).tick n [21, 21]
      ((jiffiesText w).drop n ++ []) := by
    refine Drains.cons hsecond (Int.natCast_pos.2 (Nat.sub_pos_of_lt hw)) (.eof ?_)
    rw [hlast, Nat.sub_self]
    rfl
  rw [List.append_nil] at hrest
  exact Drains.cons hfirst (Int.natCast_pos.2 hn) hrest

/-- While `19` is read, the timer goes on to 199, which is read then. -/
theorem between_nineteen : Between (stepping 19 199) [2, 21, 21] [49, 57, 57, 10] :=
  between_of_steady .reference (stepping 19 199) (stepping_monotone (by decide)) [2, 21, 21]
    (by decide) [49, 57, 57, 10] (drains_stepping 19 199 Nat.two_pos (by decide) (by decide)) (by
      simp only [Steady]
      decide)

/-- Between the two calls reading it, the timer goes from 19 to 20, and its text
    is read as `10`. -/
theorem ten_not_between :
    ¬∀ (t : Timer), (Monotone fun k => (t.jiffies k).toNat) → ∀ (sizes : List ℕ),
      (∀ n ∈ sizes, 0 < n) → ∀ bs, Drains (timerRead .reference) t 0 sizes bs →
        Between t sizes bs := by
  intro hall
  have hdrains := drains_stepping 19 20 Nat.one_pos (by decide) (by decide)
  obtain ⟨n, hn, hge, _⟩ := hall _ (stepping_monotone (by decide)) _ (by decide) _ hdrains
  have hten : n = 10 := by
    refine decimal_injective (List.append_cancel_right (hn.symm.trans ?_))
    decide
  rw [hten] at hge
  exact absurd hge (by decide)

end LittlePenguin.Debugfs
