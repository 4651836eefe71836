import LittlePenguin.Lib.Bytes
import LittlePenguin.Lib.Machine
import LittlePenguin.Lib.SeqFile

/-!
# The bytes of a sequence file

A reader of a sequence file asks for a number of bytes at a position. The file
keeps the text of the records that did not fit into what was asked for
(`SeqFile.pending`), and delivers it first (`SeqFile.Fetch`). If the position is
not the one read last, it goes over all the records from the first one again
(`SeqFile.Skip`), calling `next` without advancing an index that `next` leaves
unchanged.

* Read on from the beginning, a file delivers the text of its records, however
  the reads are cut and whatever is added at the end (`Streamed`).
* A file whose `next` leaves the last record with an index before the end
  delivers records again to a reader that has skipped past the texts of all the
  others (`drainedAt_iff`); otherwise it is read like its whole text, from
  anywhere in it (`Flat`).
* A seek skips, too, unless it goes to the position read last (`Descriptor.Does`).
  Seeks and reads are answered as by a file with the whole text in it, as long
  as none of them skips too far (`Descriptor.Session.answered`).
-/

namespace Lib

variable {α : Type*}

/-- An open sequence file. -/
structure SeqFile where
  /-- Where the next record is found. -/
  index : ℤ
  /-- What is left in the buffer. -/
  pending : Bytes
  /-- The position up to which the file has been read. -/
  readPos : ℕ

namespace SeqFile

/-- A file just opened. -/
def opened : SeqFile := ⟨0, [], 0⟩

section

variable (op : SeqOperations α) (text : α → Bytes)

/-- Skipping to the byte `offset` from the record `v` on, which starts at the
    byte `pos`, ends with an index and the rest of a record. -/
inductive Skip (offset : ℕ) : α → ℤ → ℕ → ℤ → Bytes → Prop
  | inside {v : α} {index : ℤ} {pos : ℕ} : offset < pos + (text v).length →
      Skip offset v index pos (op.next v index).2 ((text v).drop (offset - pos))
  | boundary {v : α} {index : ℤ} {pos : ℕ} : pos + (text v).length = offset →
      Skip offset v index pos (op.next v index).2 []
  | last {v : α} {index : ℤ} {pos : ℕ} : pos + (text v).length < offset →
      (op.next v index).1 = none → Skip offset v index pos (op.next v index).2 []
  | more {v u : α} {index index' : ℤ} {pos : ℕ} {pending : Bytes} :
      pos + (text v).length < offset → (op.next v index).1 = some u →
      Skip offset u (op.next v index).2 (pos + (text v).length) index' pending →
      Skip offset v index pos index' pending

/-- The file is put to the position `p` for a read there. -/
inductive Reposition (s : SeqFile) (p : ℕ) : SeqFile → Prop
  | rewind : p = 0 → Reposition s p opened
  | stay : p ≠ 0 → p = s.readPos → Reposition s p s
  | empty : p ≠ 0 → p ≠ s.readPos → op.start 0 = none → Reposition s p ⟨0, [], p⟩
  | skip {v : α} {index : ℤ} {pending : Bytes} : p ≠ 0 → p ≠ s.readPos → op.start 0 = some v →
      Skip op text p v 0 0 index pending → Reposition s p ⟨index, pending, p⟩

/-- A read of which `n` bytes get through, if there are so many, delivers `bs`. -/
inductive Fetch (s : SeqFile) (n : ℕ) : Bytes → SeqFile → Prop
  /-- What is left is more than enough. -/
  | rest : n < s.pending.length →
      Fetch s n (s.pending.take n) ⟨s.index, s.pending.drop n, s.readPos + n⟩
  /-- There are no more records. -/
  | eof : s.pending.length ≤ n → op.start s.index = none →
      Fetch s n s.pending ⟨s.index, [], s.readPos + s.pending.length⟩
  /-- What does not get through of the records taken is left. -/
  | fill {v : α} {vs : List α} {index : ℤ} {bs left : Bytes} : s.pending.length ≤ n →
      op.start s.index = some v → op.Fill v s.index vs index →
      bs = s.pending ++ (vs.flatMap text).take (n - s.pending.length) →
      left = (vs.flatMap text).drop (n - s.pending.length) →
      Fetch s n bs ⟨index, left, s.readPos + bs.length⟩

/-- Read on until nothing is delivered although something was asked for, the
    file delivers the bytes `bs`. -/
inductive Drained : SeqFile → Bytes → Prop
  | eof {s s' : SeqFile} {n : ℕ} : 0 < n → Fetch op text s n [] s' → Drained s []
  | read {s s' : SeqFile} {n : ℕ} {bs more : Bytes} : Fetch op text s n bs s' →
      Drained s' more → Drained s (bs ++ more)

/-- The file delivers the bytes `bs` from the position `p` on. -/
def DrainedAt (s : SeqFile) (p : ℕ) (bs : Bytes) : Prop :=
  ∃ s', Reposition op text s p s' ∧ Drained op text s' bs

end

/-- What a file over the records `l` has not delivered yet. -/
def unread (text : α → Bytes) (l : List α) (s : SeqFile) : Bytes :=
  s.pending ++ (l.drop s.index.toNat).flatMap text

variable {op : SeqOperations α} {text : α → Bytes} {l : List α}

/-- The index is one of the list, or at its end. -/
def Within (l : List α) (s : SeqFile) : Prop := 0 ≤ s.index ∧ s.index ≤ l.length

/-! ## Reading on -/

section Fetch

variable (henum : op.Enumerates l)

include henum

/-- A read delivers the first bytes not delivered yet. -/
theorem Fetch.unread_eq {s s' : SeqFile} {n : ℕ} {bs : Bytes} (hs : Within l s)
    (h : Fetch op text s n bs s') :
    Within l s' ∧ unread text l s = bs ++ unread text l s' := by
  obtain ⟨index, pending, readPos⟩ := s
  obtain ⟨hle, hlen⟩ := hs
  lift index to ℕ using hle
  dsimp only at hlen
  cases h with
  | rest _ =>
    refine ⟨⟨Int.natCast_nonneg _, hlen⟩, ?_⟩
    rw [unread, unread, ← List.append_assoc, List.take_append_drop]
  | eof _ _ => exact ⟨⟨Int.natCast_nonneg _, hlen⟩, rfl⟩
  | fill _ hv hf hbs hleft =>
    rw [henum.start] at hv
    obtain ⟨⟨rest, hrest⟩, _, rfl⟩ := hf.prefix_drop henum hv
    have hbound := congrArg List.length hrest
    rw [List.length_append, List.length_drop] at hbound
    refine ⟨⟨Int.natCast_nonneg _, by dsimp only; omega⟩, ?_⟩
    rw [unread, unread, Int.toNat_natCast, Int.toNat_natCast, ← List.drop_drop, ← hrest,
      List.drop_left, List.flatMap_append, hbs, hleft, List.append_assoc,
      ← List.append_assoc (List.take _ _),
      List.take_append_drop]

/-- Nothing is delivered to a read asking for something only at the end. -/
theorem Fetch.unread_eq_nil (htext : ∀ v ∈ l, text v ≠ []) {s s' : SeqFile} {n : ℕ}
    (hs : Within l s) (hn : 0 < n) (h : Fetch op text s n [] s') : unread text l s = [] := by
  obtain ⟨index, pending, readPos⟩ := s
  obtain ⟨hle, _⟩ := hs
  lift index to ℕ using hle
  generalize hbs : ([] : Bytes) = bs at h
  cases h with
  | rest hlt =>
    have hlen := congrArg List.length hbs
    rw [List.length_take, List.length_nil] at hlen
    omega
  | eof _ hv =>
    rw [henum.start, List.getElem?_eq_none_iff] at hv
    rw [unread, ← hbs, Int.toNat_natCast, List.drop_of_length_le hv]
    rfl
  | fill _ hv hf heq _ =>
    -- A record taken would have delivered something.
    rw [henum.start] at hv
    obtain ⟨⟨rest, hrest⟩, hne, _⟩ := hf.prefix_drop henum hv
    obtain ⟨u, us, rfl⟩ := List.exists_cons_of_ne_nil hne
    have hu : u ∈ l.drop index := by
      rw [← hrest]
      exact List.mem_append_left _ List.mem_cons_self
    obtain ⟨hpending, htake⟩ := List.append_eq_nil_iff.1 (heq.symm.trans hbs.symm)
    rw [hpending, List.length_nil, Nat.sub_zero, List.take_eq_nil_iff, List.flatMap_cons,
      List.append_eq_nil_iff] at htake
    exact absurd (htake.resolve_left (Nat.ne_of_gt hn)).1 (htext u (List.mem_of_mem_drop hu))

omit henum in
/-- Any number of bytes may be asked for. -/
theorem exists_fetch (op : SeqOperations α) (text : α → Bytes) (s : SeqFile) (n : ℕ) :
    ∃ bs s', Fetch op text s n bs s' := by
  rcases Nat.lt_or_ge n s.pending.length with hn | hn
  · exact ⟨_, _, .rest hn⟩
  · cases hv : op.start s.index with
    | none => exact ⟨_, _, .eof hn hv⟩
    | some v => exact ⟨_, _, .fill hn hv (.full v s.index) rfl rfl⟩

/-- Read on to the end, a file delivers all that it has not delivered yet. -/
theorem drained_iff (htext : ∀ v ∈ l, text v ≠ []) {s : SeqFile} (hs : Within l s) (bs : Bytes) :
    Drained op text s bs ↔ bs = unread text l s := by
  constructor
  · intro h
    induction h with
    | eof hn hf => exact (hf.unread_eq_nil henum htext hs hn).symm
    | read hf _ ih =>
      obtain ⟨hs', heq⟩ := hf.unread_eq henum hs
      rw [heq, ih hs']
  · rintro rfl
    -- A read that delivers nothing is at the end; any other one leaves less.
    induction hk : (unread text l s).length using Nat.strongRecOn generalizing s with
    | _ k ih =>
      obtain ⟨bs, s', hf⟩ := exists_fetch op text s 1
      obtain ⟨hs', heq⟩ := hf.unread_eq henum hs
      rcases List.eq_nil_or_concat bs with rfl | ⟨bs, b, rfl⟩
      · rw [hf.unread_eq_nil henum htext hs Nat.one_pos]
        exact .eof Nat.one_pos hf
      · have hlen := congrArg List.length heq
        rw [List.length_append, List.length_concat] at hlen
        rw [heq]
        exact .read hf (ih _ (by omega) hs' rfl)

end Fetch

/-! ## Skipping -/

section Skip

variable (op l) in
/-- At the last record of the list, `next` leaves the index `stop`; everywhere
    else, that of the next record. -/
structure Stops (stop : ℕ) : Prop where
  le : stop ≤ l.length
  next : ∀ (k : ℕ) (v : α), l[k]? = some v →
    op.next v k = (l[k + 1]?, ((if k + 1 < l.length then k + 1 else stop : ℕ) : ℤ))

variable (text l) in
/-- What stands behind the byte `offset`, and what follows again if it is not in
    the records before the last one. -/
def behind (stop offset : ℕ) : Bytes :=
  (l.flatMap text).drop offset ++
    if (l.dropLast.flatMap text).length < offset then (l.drop stop).flatMap text else []

variable {stop : ℕ} (hstop : Stops op l stop)

include hstop

/-- What `next` yields at a record depends on whether there are records behind it. -/
theorem Stops.next_eq {front rest : List α} {v : α} (hl : l = front ++ v :: rest) :
    op.next v front.length =
      (rest.head?, ((if rest = [] then stop else front.length + 1 : ℕ) : ℤ)) := by
  have hget : ∀ k, l[front.length + k]? = (v :: rest)[k]? := fun k => by
    rw [hl, List.getElem?_append_right (Nat.le_add_right _ k), Nat.add_sub_cancel_left]
  have hlast : front.length + 1 < l.length ↔ rest ≠ [] := by
    rw [hl, List.length_append, List.length_cons, ← List.length_pos_iff]
    omega
  rw [hstop.next front.length v (hget 0), hget 1, List.getElem?_cons_succ,
    List.head?_eq_getElem?, if_congr hlast rfl rfl, ite_not]

/-- Where `next` is called after the record `v`, because of a byte that is not
    in the records behind it, what is left is what stands behind that byte. -/
theorem Stops.unread_next (text : α → Bytes) {front rest : List α} {v : α}
    (hl : l = front ++ v :: rest) {offset : ℕ} (hlt : (front.flatMap text).length < offset)
    (hle : offset ≤ (front.flatMap text).length + (text v).length ∨ rest = []) :
    let s := ⟨(op.next v front.length).2,
      (text v).drop (offset - (front.flatMap text).length), offset⟩
    Within l s ∧ unread text l s = behind text l stop offset := by
  intro s
  have hnext := hstop.next_eq hl
  have hdrop : (l.flatMap text).drop offset =
      (text v).drop (offset - (front.flatMap text).length) ++
        (rest.flatMap text).drop (offset - (front.flatMap text).length - (text v).length) := by
    rw [hl, List.flatMap_append, List.flatMap_cons, List.drop_append,
      List.drop_of_length_le (Nat.le_of_lt hlt), List.nil_append, List.drop_append]
  cases rest with
  | nil =>
    -- The index is left where it may be, and the other records end before the byte.
    rw [if_pos rfl] at hnext
    have hs : s.index = stop := congrArg Prod.snd hnext
    have hlast : l.dropLast = front := by rw [hl, List.dropLast_concat]
    refine ⟨⟨?_, ?_⟩, ?_⟩
    · rw [hs]
      exact Int.natCast_nonneg stop
    · rw [hs]
      exact Int.ofNat_le.2 hstop.le
    · rw [behind, hdrop, hlast, if_pos hlt, List.flatMap_nil, List.drop_nil, List.append_nil,
        unread, hs, Int.toNat_natCast]
  | cons u rest =>
    rw [if_neg (List.cons_ne_nil u rest)] at hnext
    have hs : s.index = (front.length + 1 : ℕ) := congrArg Prod.snd hnext
    have hoffset := hle.resolve_right (List.cons_ne_nil u rest)
    have hzero : offset - (front.flatMap text).length - (text v).length = 0 := by omega
    have hbefore : ¬(l.dropLast.flatMap text).length < offset := by
      rw [hl, List.dropLast_append_cons, List.dropLast_cons_cons, List.flatMap_append,
        List.flatMap_cons, List.length_append, List.length_append]
      omega
    have hrest : l.drop (front.length + 1) = u :: rest := by
      rw [hl, ← List.drop_drop, List.drop_left]
      rfl
    refine ⟨⟨?_, ?_⟩, ?_⟩
    · rw [hs]
      exact Int.natCast_nonneg _
    · rw [hs, hl, List.length_append, List.length_cons, List.length_cons]
      omega
    · rw [behind, hdrop, if_neg hbefore, hzero, List.drop_zero, List.append_nil, unread, hs,
        Int.toNat_natCast, hrest]

/-- What is left after a skip to a byte is what stands behind it. -/
theorem Skip.unread_eq {offset : ℕ} {v : α} {index i : ℤ} {pos : ℕ} {pending : Bytes}
    (h : Skip op text offset v index pos i pending) {front rest : List α}
    (hl : l = front ++ v :: rest) (hindex : index = front.length)
    (hpos : pos = (front.flatMap text).length) (hlt : pos < offset) :
    Within l ⟨i, pending, offset⟩ ∧
      unread text l ⟨i, pending, offset⟩ = behind text l stop offset := by
  -- The skip goes along the list; what is in front of the record ends before the byte.
  induction h generalizing front rest with
  | inside hin =>
    subst hindex hpos
    exact hstop.unread_next text hl hlt (.inl (Nat.le_of_lt hin))
  | boundary hbound =>
    subst hindex hpos
    have hnext := hstop.unread_next text hl hlt (.inl (Nat.le_of_eq hbound.symm))
    rwa [List.drop_of_length_le (by omega)] at hnext
  | last hend hnone =>
    subst hindex hpos
    rw [hstop.next_eq hl, List.head?_eq_none_iff] at hnone
    have hnext := hstop.unread_next text hl hlt (.inr hnone)
    rwa [List.drop_of_length_le (by omega)] at hnext
  | @more v u index i pos pending hend hsome _ ih =>
    subst hindex hpos
    have hnext := hstop.next_eq hl
    rw [hnext, List.head?_eq_some_iff] at hsome
    obtain ⟨rest, rfl⟩ := hsome
    have hl' : l = (front ++ [v]) ++ u :: rest := by
      rw [hl, List.append_assoc]
      rfl
    refine ih hl' ?_ ?_ hend
    · rw [hnext, if_neg (List.cons_ne_nil u rest), List.length_append]
      rfl
    · rw [List.flatMap_append, List.length_append, List.flatMap_singleton]

omit hstop in
/-- With nothing in it, or nothing to be found again, only what stands behind the byte is left. -/
theorem behind_eq_drop_iff (htext : ∀ v ∈ l, text v ≠ []) (p : ℕ) :
    behind text l stop p = (l.flatMap text).drop p ↔
      l.length ≤ stop ∨ p ≤ (l.dropLast.flatMap text).length := by
  have hnil : (l.drop stop).flatMap text = [] ↔ l.length ≤ stop := by
    rw [List.flatMap_eq_nil_iff, ← List.drop_eq_nil_iff, List.eq_nil_iff_forall_not_mem]
    exact forall₂_congr fun v hv => iff_of_false (htext v (List.mem_of_mem_drop hv)) (by simp)
  rw [behind, List.append_right_eq_self]
  split_ifs with hp
  · rw [hnil, or_iff_left (Nat.not_le.2 hp)]
  · exact iff_of_true rfl (.inr (Nat.le_of_not_lt hp))

/-- Any byte can be skipped to. -/
theorem Stops.exists_skip (text : α → Bytes) (offset : ℕ) {front rest : List α} {v : α}
    (hl : l = front ++ v :: rest) (pos : ℕ) :
    ∃ i pending, Skip op text offset v front.length pos i pending := by
  induction rest generalizing front v pos with
  | nil =>
    have hnext := hstop.next_eq hl
    rcases Nat.lt_trichotomy offset (pos + (text v).length) with hin | hbound | hend
    · exact ⟨_, _, .inside hin⟩
    · exact ⟨_, _, .boundary hbound.symm⟩
    · exact ⟨_, _, .last hend (by rw [hnext]; rfl)⟩
  | cons u rest ih =>
    have hnext := hstop.next_eq hl
    rcases Nat.lt_trichotomy offset (pos + (text v).length) with hin | hbound | hend
    · exact ⟨_, _, .inside hin⟩
    · exact ⟨_, _, .boundary hbound.symm⟩
    · have hl' : l = (front ++ [v]) ++ u :: rest := by
        rw [hl, List.append_assoc]
        rfl
      obtain ⟨i, pending, hskip⟩ := ih hl' (pos + (text v).length)
      rw [List.length_append] at hskip
      refine ⟨i, pending, .more hend (by rw [hnext]; rfl) ?_⟩
      rwa [hnext, if_neg (List.cons_ne_nil u rest)]

variable (henum : op.Enumerates l)

include henum

/-- A file put to its beginning, or to another position than the one read last,
    has left what stands behind it. -/
theorem Reposition.unread_eq {s s' : SeqFile} {p : ℕ} (hseek : p = 0 ∨ p ≠ s.readPos)
    (h : Reposition op text s p s') : Within l s' ∧ unread text l s' = behind text l stop p := by
  cases h with
  | rewind hzero =>
    subst hzero
    refine ⟨⟨Int.le_refl 0, Int.natCast_nonneg _⟩, ?_⟩
    rw [behind, if_neg (Nat.not_lt_zero _), List.append_nil]
    rfl
  | stay hp hstay => exact absurd hstay (hseek.resolve_left hp)
  | empty _ _ hnone =>
    have hl : l = [] := by
      have hstart := henum.start 0
      rw [Int.natCast_zero, hnone] at hstart
      exact List.length_eq_zero_iff.1 (Nat.le_zero.1 (List.getElem?_eq_none_iff.1 hstart.symm))
    subst hl
    refine ⟨⟨Int.le_refl 0, Int.le_refl 0⟩, ?_⟩
    simp [unread, behind]
  | @skip v _ _ hp _ hsome hskip =>
    have hstart := henum.start 0
    rw [Int.natCast_zero, hsome] at hstart
    obtain ⟨rest, rfl⟩ : ∃ rest, l = v :: rest := by
      rwa [← List.head?_eq_some_iff, List.head?_eq_getElem?, eq_comm]
    exact hskip.unread_eq hstop (List.nil_append _).symm rfl rfl (Nat.pos_of_ne_zero hp)

/-- A file can be put to any position. -/
theorem exists_reposition (text : α → Bytes) (s : SeqFile) (p : ℕ) :
    ∃ s', Reposition op text s p s' := by
  rcases Nat.eq_zero_or_pos p with hzero | hpos
  · exact ⟨_, .rewind hzero⟩
  rcases eq_or_ne p s.readPos with hstay | hseek
  · exact ⟨_, .stay (Nat.ne_of_gt hpos) hstay⟩
  · have hstart := henum.start 0
    rw [Int.natCast_zero] at hstart
    cases hl : l with
    | nil => exact ⟨_, .empty (Nat.ne_of_gt hpos) hseek (by rw [hstart, hl]; rfl)⟩
    | cons v rest =>
      obtain ⟨i, pending, hskip⟩ := hstop.exists_skip text p (hl.trans (List.nil_append _).symm) 0
      exact ⟨_, .skip (Nat.ne_of_gt hpos) hseek (by rw [hstart, hl]; rfl) hskip⟩

/-- From the beginning, or another position than the one read last, a file
    delivers what stands behind it. -/
theorem drainedAt_iff (htext : ∀ v ∈ l, text v ≠ []) {s : SeqFile} {p : ℕ}
    (hseek : p = 0 ∨ p ≠ s.readPos) (bs : Bytes) :
    DrainedAt op text s p bs ↔ bs = behind text l stop p := by
  constructor
  · rintro ⟨s', hs', hd⟩
    obtain ⟨hin, heq⟩ := hs'.unread_eq hstop henum hseek
    rw [(drained_iff henum htext hin bs).1 hd, heq]
  · intro hbs
    obtain ⟨s', hs'⟩ := exists_reposition hstop henum text s p
    obtain ⟨hin, heq⟩ := hs'.unread_eq hstop henum hseek
    exact ⟨s', hs', (drained_iff henum htext hin bs).2 (hbs.trans heq.symm)⟩

end Skip

/-! ## Reads anywhere -/

/-- A read of `n` bytes at the position `p` of a file with the bytes `c`. It may
    deliver less, but nothing only at the end. -/
structure Served (c : Bytes) (p n : ℕ) (bs : Bytes) : Prop where
  isPrefix : bs <+: c.drop p
  length_le : bs.length ≤ n
  eof : 0 < n → bs = [] → c.length ≤ p

variable (text l) in
/-- What the file has left is what stands behind the position read last. -/
def Flat (s : SeqFile) : Prop :=
  Within l s ∧ unread text l s = (l.flatMap text).drop s.readPos

/-- A read delivers no more than it has asked for, and goes on behind that. -/
theorem Fetch.length_le {s s' : SeqFile} {n : ℕ} {bs : Bytes} (h : Fetch op text s n bs s') :
    bs.length ≤ n ∧ s'.readPos = s.readPos + bs.length := by
  cases h with
  | rest hlt => exact ⟨List.length_take_le _ _, by rw [List.length_take_of_le (Nat.le_of_lt hlt)]⟩
  | eof hle _ => exact ⟨hle, rfl⟩
  | fill hle _ _ hbs _ =>
    refine ⟨?_, rfl⟩
    rw [hbs, List.length_append, List.length_take]
    omega

/-- A file is put where it is to be put. -/
theorem Reposition.readPos_eq {s s' : SeqFile} {p : ℕ} (h : Reposition op text s p s') :
    s'.readPos = p := by
  cases h with
  | rewind hzero => exact hzero.symm
  | stay _ hstay => exact hstay.symm
  | empty _ _ _ => rfl
  | skip _ _ _ _ => rfl

section Flat

variable (henum : op.Enumerates l) (htext : ∀ v ∈ l, text v ≠ [])

include henum htext

/-- What a flat file delivers stands at the position read last, and the file stays flat. -/
theorem Flat.fetch {s s' : SeqFile} (hs : Flat text l s) {n : ℕ} {bs : Bytes}
    (h : Fetch op text s n bs s') :
    Flat text l s' ∧ Served (l.flatMap text) s.readPos n bs := by
  obtain ⟨hin, hflat⟩ := hs
  obtain ⟨hin', heq⟩ := h.unread_eq henum hin
  have hsplit := hflat.symm.trans heq
  refine ⟨⟨hin', ?_⟩, ⟨⟨_, hsplit.symm⟩, h.length_le.1, fun hn hnil => ?_⟩⟩
  · rw [h.length_le.2, ← List.drop_drop, hsplit, List.drop_left]
  · subst hnil
    rw [← List.drop_eq_nil_iff, ← hflat]
    exact h.unread_eq_nil henum htext hin hn

/-- A flat file stays flat at positions that are not behind the texts of all
    records but the last one. -/
theorem Flat.reposition {stop : ℕ} (hstop : Stops op l stop) {s s' : SeqFile}
    (hs : Flat text l s) {p : ℕ}
    (hp : p = s.readPos ∨ l.length ≤ stop ∨ p ≤ (l.dropLast.flatMap text).length)
    (h : Reposition op text s p s') : Flat text l s' := by
  by_cases hseek : p = 0 ∨ p ≠ s.readPos
  · obtain ⟨hin, heq⟩ := h.unread_eq hstop henum hseek
    refine ⟨hin, ?_⟩
    rw [heq, h.readPos_eq, behind_eq_drop_iff htext]
    rcases hseek with rfl | hseek
    · exact .inr (Nat.zero_le _)
    · exact hp.resolve_left hseek
  · obtain ⟨hne, hstay⟩ := not_or.1 hseek
    cases h with
    | rewind heq => exact absurd heq hne
    | stay _ _ => exact hs
    | empty _ hne' _ => exact absurd hne' hstay
    | skip _ hne' _ _ => exact absurd hne' hstay

end Flat

end SeqFile

/-! ## Seeks and reads -/

/-- What the offset of a seek is counted from. -/
inductive Whence
  /-- The beginning. -/
  | set
  /-- The position of the file. -/
  | cur
  | other

/-- A call on an open file, with its answer. -/
inductive Access
  /-- A seek, with the position it has gone to, unless it has been refused. -/
  | lseek (offset : ℤ) (whence : Whence) (result : Option ℕ)
  /-- A read at the position of the file, of which `n` bytes get through, if
      there are so many. -/
  | read (n : ℕ) (bs : Bytes)
  /-- A read at the position `p`, which leaves the one of the file. -/
  | pread (p n : ℕ) (bs : Bytes)

/-- What a program knows of an open file: its position, and the one at which the
    last call has ended. -/
structure Cursor where
  fPos : ℕ
  last : ℕ

namespace Cursor

variable (c : Cursor)

/-- Where a seek goes to. It is refused if that is in front of the beginning. -/
def seek (offset : ℤ) : Whence → Option ℕ
  | .set => if offset < 0 then none else some offset.toNat
  | .cur => if offset + c.fPos < 0 then none else some (offset + c.fPos).toNat
  | .other => none

/-- The position a call goes to. -/
def goal : Access → Option ℕ
  | .lseek offset whence _ => c.seek offset whence
  | .read _ _ => some c.fPos
  | .pread p _ _ => some p

/-- A call has been made. -/
def after : Access → Cursor
  | .lseek offset whence _ => (c.seek offset whence).elim c fun p => ⟨p, p⟩
  | .read _ bs => ⟨c.fPos + bs.length, c.fPos + bs.length⟩
  | .pread p _ bs => ⟨c.fPos, p + bs.length⟩

/-- The call goes to a position that is `ok`, or on where the last one has ended. -/
def Keeps (ok : ℕ → Prop) (a : Access) : Prop := ∀ p ∈ c.goal a, p = c.last ∨ ok p

/-- The call is answered as by a file with the bytes `content` in it. -/
def Answered (content : Bytes) : Access → Prop
  | .lseek offset whence result => result = c.seek offset whence
  | .read n bs => SeqFile.Served content c.fPos n bs
  | .pread p n bs => SeqFile.Served content p n bs

end Cursor

/-- The calls on an open file, as a program knows of them. -/
def cursors : Machine Cursor Access Unit where
  step c a := (c.after a, ())

/-- An open sequence file, and its position. -/
structure Descriptor where
  file : SeqFile
  fPos : ℕ

namespace Descriptor

/-- A file just opened. -/
def opened : Descriptor := ⟨.opened, 0⟩

/-- What a program knows of it. -/
def cursor (d : Descriptor) : Cursor := ⟨d.fPos, d.file.readPos⟩

variable {α : Type*} (op : SeqOperations α) (text : α → Bytes)

/-- A call on an open file. A seek to the position read last does not touch the
    records; any other one goes over them. -/
inductive Does (d : Descriptor) : Access → Descriptor → Prop
  | refused {offset : ℤ} {whence : Whence} : d.cursor.seek offset whence = none →
      Does d (.lseek offset whence none) d
  | stay {offset : ℤ} {whence : Whence} {p : ℕ} : d.cursor.seek offset whence = some p →
      p = d.file.readPos → Does d (.lseek offset whence (some p)) ⟨d.file, p⟩
  | seek {offset : ℤ} {whence : Whence} {p : ℕ} {s : SeqFile} :
      d.cursor.seek offset whence = some p → p ≠ d.file.readPos →
      SeqFile.Reposition op text d.file p s → Does d (.lseek offset whence (some p)) ⟨s, p⟩
  | read {n : ℕ} {bs : Bytes} {s s' : SeqFile} : SeqFile.Reposition op text d.file d.fPos s →
      SeqFile.Fetch op text s n bs s' → Does d (.read n bs) ⟨s', d.fPos + bs.length⟩
  | pread {p n : ℕ} {bs : Bytes} {s s' : SeqFile} : SeqFile.Reposition op text d.file p s →
      SeqFile.Fetch op text s n bs s' → Does d (.pread p n bs) ⟨s', d.fPos⟩

/-- A session of calls on an open file. -/
inductive Session : Descriptor → List Access → Descriptor → Prop
  | nil {d : Descriptor} : Session d [] d
  | cons {d d₁ d₂ : Descriptor} {a : Access} {log : List Access} : Does op text d a d₁ →
      Session d₁ log d₂ → Session d (a :: log) d₂

variable {op text} {d d' : Descriptor} {a : Access}

/-- A program can tell the positions of the file from the calls it has made. -/
theorem Does.cursor_eq (h : Does op text d a d') : d'.cursor = d.cursor.after a := by
  cases h with
  | refused hseek => simp only [Cursor.after, hseek, Option.elim_none]
  | stay hseek hlast => rw [Cursor.after, hseek, Option.elim_some, cursor, ← hlast]
  | seek hseek _ hs => rw [Cursor.after, hseek, Option.elim_some, cursor, hs.readPos_eq]
  | read hs hf => simp only [Cursor.after, cursor, hf.length_le.2, hs.readPos_eq]
  | pread hs hf => simp only [Cursor.after, cursor, hf.length_le.2, hs.readPos_eq]

variable {l : List α} (henum : op.Enumerates l) (htext : ∀ v ∈ l, text v ≠ []) {stop : ℕ}
  (hstop : SeqFile.Stops op l stop) {ok : ℕ → Prop}
  (hok : ∀ p, ok p → l.length ≤ stop ∨ p ≤ (l.dropLast.flatMap text).length)

include henum htext hstop hok

/-- A call that does not skip too far is answered by a flat file as by one with
    the whole text in it, and leaves the file flat. -/
theorem Does.answered (h : Does op text d a d') (hflat : SeqFile.Flat text l d.file)
    (hkeeps : d.cursor.Keeps ok a) :
    SeqFile.Flat text l d'.file ∧ d.cursor.Answered (l.flatMap text) a := by
  -- Wherever the call goes to, the file is flat there.
  have hput : ∀ p ∈ d.cursor.goal a, ∀ s, SeqFile.Reposition op text d.file p s →
      SeqFile.Flat text l s := fun p hp s hs =>
    hflat.reposition henum htext hstop ((hkeeps p hp).imp_right (hok p)) hs
  cases h with
  | refused hseek => exact ⟨hflat, hseek.symm⟩
  | stay hseek hlast => exact ⟨hflat, hseek.symm⟩
  | seek hseek _ hs => exact ⟨hput _ hseek _ hs, hseek.symm⟩
  | read hs hf =>
    have hserved := (hput _ rfl _ hs).fetch henum htext hf
    rwa [hs.readPos_eq] at hserved
  | pread hs hf =>
    have hserved := (hput _ rfl _ hs).fetch henum htext hf
    rwa [hs.readPos_eq] at hserved

/-- The calls of a session none of which skips too far are answered as by a file
    with the whole text in it. -/
theorem Session.answered {log : List Access} (h : Session op text d log d')
    (hflat : SeqFile.Flat text l d.file)
    (hkeeps : cursors.Along (fun c a => c.Keeps ok a) d.cursor log) :
    cursors.Along (fun c a => c.Answered (l.flatMap text) a) d.cursor log := by
  induction h with
  | nil => trivial
  | cons hdoes _ ih =>
    obtain ⟨hfirst, hrest⟩ := hkeeps
    obtain ⟨hflat, hanswered⟩ := hdoes.answered henum htext hstop hok hflat hfirst
    have hcursor := hdoes.cursor_eq
    refine ⟨hanswered, ?_⟩
    change cursors.Along _ (Cursor.after _ _) _ at hrest
    change cursors.Along _ (Cursor.after _ _) _
    rw [← hcursor] at hrest ⊢
    exact ih hflat hrest

end Descriptor

/-! ## Reading on while the list grows -/

/-- A session of reads one after the other, of a file whose structure may change
    between two reads. It ends in a state, with the file and what has been delivered. -/
inductive Streamed {ω α : Type*} (op : ω → SeqOperations α) (text : ω → α → Bytes)
    (change : ω → ω → Prop) : ω → SeqFile → Bytes → Prop
  | opened (w : ω) : Streamed op text change w SeqFile.opened []
  | read {w : ω} {s s' : SeqFile} {n : ℕ} {got bs : Bytes} : Streamed op text change w s got →
      SeqFile.Fetch (op w) (text w) s n bs s' → Streamed op text change w s' (got ++ bs)
  | changed {w w' : ω} {s : SeqFile} {got : Bytes} : Streamed op text change w s got →
      change w w' → Streamed op text change w' s got

namespace Streamed

variable {ω α : Type*} {op : ω → SeqOperations α} {text : ω → α → Bytes} {change : ω → ω → Prop}
  {l : ω → List α} (henum : ∀ w, (op w).Enumerates (l w))
  (hgrow : ∀ w w', change w w' → l w <+: l w' ∧ ∀ v ∈ l w, text w' v = text w v)

include henum hgrow

/-- What has been delivered and what has not is the whole text. -/
theorem append_unread {w : ω} {s : SeqFile} {got : Bytes} (h : Streamed op text change w s got) :
    SeqFile.Within (l w) s ∧ got ++ SeqFile.unread (text w) (l w) s = (l w).flatMap (text w) := by
  induction h with
  | opened w => exact ⟨⟨Int.le_refl 0, Int.natCast_nonneg _⟩, rfl⟩
  | read _ hf ih =>
    obtain ⟨hs, heq⟩ := ih
    obtain ⟨hs', hsplit⟩ := hf.unread_eq (henum _) hs
    exact ⟨hs', by rw [List.append_assoc, ← hsplit, heq]⟩
  | @changed w w' s got _ hc ih =>
    obtain ⟨⟨hle, hlen⟩, heq⟩ := ih
    obtain ⟨⟨added, hadded⟩, htext⟩ := hgrow _ _ hc
    have hold : ∀ m ⊆ l w, m.flatMap (text w') = m.flatMap (text w) := fun m hm =>
      List.flatMap_congr fun v hv => htext v (hm hv)
    have hindex : s.index.toNat ≤ (l w).length := by omega
    refine ⟨⟨hle, ?_⟩, ?_⟩
    · rw [← hadded, List.length_append]
      omega
    · rw [← hadded, List.flatMap_append, hold _ (List.Subset.refl _), ← heq, SeqFile.unread,
        SeqFile.unread, List.drop_append_of_le_length hindex, List.flatMap_append,
        hold _ (List.drop_subset _ _)]
      simp only [List.append_assoc]

/-- At end of file, the whole text has been delivered. -/
theorem eq_of_eof (htext : ∀ w, ∀ v ∈ l w, text w v ≠ []) {w : ω} {s s' : SeqFile} {n : ℕ}
    {got : Bytes} (h : Streamed op text change w s got) (hn : 0 < n)
    (heof : SeqFile.Fetch (op w) (text w) s n [] s') : got = (l w).flatMap (text w) := by
  obtain ⟨hs, heq⟩ := h.append_unread henum hgrow
  rwa [heof.unread_eq_nil (henum w) (htext w) hs hn, List.append_nil] at heq

end Streamed

end Lib
