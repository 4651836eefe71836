import LittlePenguin.Fix.Concurrent

/-!
# Reads of the reverse device at the same time

Reads alone leave `str` as it is, and all of them store the same bytes: to a
position of a buffer, the byte of the reversed string there. But the buffer they
find through `tmp` is the one of the read that has assigned `tmp` last. A read
that has been overtaken stores the rest of the string to the other buffer, and
hands that one out.

Whatever the order of the steps, every byte delivered is the right one for its
position, or the one that a buffer held there as it was handed out
(`reads_concurrent`).
-/

namespace LittlePenguin.Fix

open Lib

/-- A call that has not begun, or goes on no more. -/
def Progress.Rests : Progress → Prop
  | idle => True
  | reading _ (.returned _) => True
  | writing _ _ (.returned _) => True
  | oops => True
  | _ => False

/-- What all reads store to a buffer: the reversed string, and a NUL. -/
def image (str : CArray PAGE_SIZE) : Bytes := (cstr str.cells).reverse ++ [0]

/-- The byte loaded at the index `t` belongs to the position `i` of the buffer. -/
theorem getElem?_image {str : CArray PAGE_SIZE} (hlen : strlen str.cells < PAGE_SIZE) {t i : ℕ}
    (ht : t + i + 1 = strlen str.cells) : (image str)[i]? = some (str.get t) := by
  have hi : i < strlen str.cells := by omega
  have hlt : t < str.cells.length := by rw [str.length_cells]; omega
  have hrev : (cstr str.cells).reverse.length = strlen str.cells := List.length_reverse
  rw [image, List.getElem?_append_left (by omega), List.getElem?_reverse hi, ← take_strlen,
    List.length_take, str.length_cells, Nat.min_eq_left hlen.le,
    List.getElem?_take_of_lt (by omega), show strlen str.cells - 1 - i = t by omega,
    List.getElem?_eq_getElem hlt, CArray.get_of_lt hlt]

theorem getElem?_image_of_lt {str : CArray PAGE_SIZE} {p : ℕ} (hp : p < strlen str.cells) :
    (image str)[p]? = (cstr str.cells).reverse[p]? := by
  have hrev : (cstr str.cells).reverse.length = strlen str.cells := List.length_reverse
  rw [image, List.getElem?_append_left (by omega)]

theorem getElem?_image_strlen (str : CArray PAGE_SIZE) :
    (image str)[strlen str.cells]? = some 0 := by
  have hrev : (cstr str.cells).reverse.length = strlen str.cells := List.length_reverse
  rw [image, List.getElem?_append_right (by omega), hrev, Nat.sub_self]
  rfl

/-- `strlen` goes on as long as there is no NUL, which is at the end of the string. -/
theorem get_eq_zero_iff {str : CArray PAGE_SIZE} (hlen : strlen str.cells < PAGE_SIZE) {k : ℕ}
    (hk : k ≤ strlen str.cells) : str.get k = 0 ↔ k = strlen str.cells := by
  have hfull := str.length_cells
  have hlt : k < str.cells.length := by omega
  rw [CArray.get_of_lt hlt]
  constructor
  · intro hnul
    exact Nat.le_antisymm hk (strlen_le_of_getElem? ((List.getElem?_eq_getElem hlt).trans
      (congrArg some hnul)))
  · rintro rfl
    exact Option.some.inj ((List.getElem?_eq_getElem hlt).symm.trans (getElem?_strlen hlt))

/-! ## Right bytes and old ones -/

section Run

variable (s₀ : Calls)

/-- A buffer that has been handed out since `s₀`. -/
def Fresh (allocated buf : ℕ) : Prop := s₀.allocated ≤ buf ∧ buf < allocated

/-- The counters of a read fit to the string, its byte to the position, and the
    buffers have been handed out since. -/
def ReadStage.Tracks (allocated : ℕ) (tmp : Option ℕ) (a : ReadArgs) : ReadStage → Prop
  | assigning => ∀ buf ∈ a.tmp2, Fresh s₀ allocated buf
  | measuring k => (∀ buf ∈ tmp, Fresh s₀ allocated buf) ∧ k ≤ strlen s₀.str.cells
  | looping t i => (∀ buf ∈ tmp, Fresh s₀ allocated buf) ∧ i ≤ strlen s₀.str.cells ∧
      t + i + 1 = strlen s₀.str.cells
  | loaded t i b => (∀ buf ∈ tmp, Fresh s₀ allocated buf) ∧ 0 ≤ t ∧
      t + i + 1 = strlen s₀.str.cells ∧ (image s₀.str)[i]? = some b
  | aimed t i b buf => (∀ buf ∈ tmp, Fresh s₀ allocated buf) ∧ 0 ≤ t ∧
      t + i + 1 = strlen s₀.str.cells ∧ (image s₀.str)[i]? = some b ∧ Fresh s₀ allocated buf
  | ending i buf => (∀ buf ∈ tmp, Fresh s₀ allocated buf) ∧ i = strlen s₀.str.cells ∧
      Fresh s₀ allocated buf
  | passing i => (∀ buf ∈ tmp, Fresh s₀ allocated buf) ∧ i = strlen s₀.str.cells
  | delivering buf n _ => a.offs.toNat + n ≤ strlen s₀.str.cells ∧ Fresh s₀ allocated buf
  | returned _ => True

/-- A call is a read that tracks the string, or does nothing any more. -/
def Progress.Tracks (allocated : ℕ) (tmp : Option ℕ) : Progress → Prop
  | idle => True
  | reading a stage => stage.Tracks s₀ allocated tmp a
  | writing _ _ (.returned _) => True
  | oops => True
  | _ => False

/-- What may be delivered for the position `p`: the right byte, or what a buffer
    held there as it was handed out. -/
def RightOrOld (allocated p : ℕ) (b : UInt8) : Prop :=
  (cstr s₀.str.cells).reverse[p]? = some b ∨
    ∃ buf, Fresh s₀ allocated buf ∧ (s₀.buffers buf).cells[p]? = some b

/-- Since `s₀`, there have only been reads. -/
structure OnlyReads (s : Calls) : Prop where
  str : s.str.cells = s₀.str.cells
  allocated : s₀.allocated ≤ s.allocated
  buffers : ∀ buf (p : ℕ) b, (s.buffers buf).cells[p]? = some b →
    (image s₀.str)[p]? = some b ∨ (s₀.buffers buf).cells[p]? = some b
  delivered : ∀ c p b, (c, p, b) ∈ s.delivered →
    (c, p, b) ∈ s₀.delivered ∨ RightOrOld s₀ s.allocated p b
  calls : ∀ c, (s.calls c).Tracks s₀ s.allocated s.tmp

variable {s₀} {allocated allocated' : ℕ} {tmp tmp' : Option ℕ}

theorem Fresh.mono {buf : ℕ} (halloc : allocated ≤ allocated') (h : Fresh s₀ allocated buf) :
    Fresh s₀ allocated' buf := h.imp_right fun hlt => hlt.trans_le halloc

theorem ReadStage.Tracks.mono (halloc : allocated ≤ allocated')
    (htmp : (∀ buf ∈ tmp, Fresh s₀ allocated buf) → ∀ buf ∈ tmp', Fresh s₀ allocated' buf)
    {a : ReadArgs} {stage : ReadStage} (h : stage.Tracks s₀ allocated tmp a) :
    stage.Tracks s₀ allocated' tmp' a := by
  cases stage with
  | assigning => exact fun buf hb => (h buf hb).mono halloc
  | measuring k => exact h.imp_left htmp
  | looping t i => exact h.imp_left htmp
  | loaded t i b => exact h.imp_left htmp
  | aimed t i b buf => exact ⟨htmp h.1, h.2.1, h.2.2.1, h.2.2.2.1, h.2.2.2.2.mono halloc⟩
  | ending i buf => exact ⟨htmp h.1, h.2.1, h.2.2.mono halloc⟩
  | passing i => exact h.imp_left htmp
  | delivering buf n k => exact h.imp_right (Fresh.mono halloc)
  | returned result => trivial

theorem Progress.Tracks.mono (halloc : allocated ≤ allocated')
    (htmp : (∀ buf ∈ tmp, Fresh s₀ allocated buf) → ∀ buf ∈ tmp', Fresh s₀ allocated' buf)
    {p : Progress} (h : p.Tracks s₀ allocated tmp) : p.Tracks s₀ allocated' tmp' := by
  cases p with
  | idle => trivial
  | reading a stage => exact ReadStage.Tracks.mono halloc htmp h
  | writing user offs stage => cases stage <;> exact h
  | oops => trivial

namespace OnlyReads

/-- Nothing has happened yet. -/
theorem refl (hrest : ∀ c, (s₀.calls c).Rests) : OnlyReads s₀ s₀ where
  str := rfl
  allocated := Nat.le_refl _
  buffers _ _ _ hb := .inr hb
  delivered _ _ _ hd := .inl hd
  calls c := by
    have hc := hrest c
    cases hp : s₀.calls c with
    | idle => trivial
    | reading a stage =>
      rw [hp] at hc
      cases stage <;> first | exact trivial | exact hc.elim
    | writing user offs stage =>
      rw [hp] at hc
      cases stage <;> exact hc
    | oops => trivial

variable {s : Calls} (h : OnlyReads s₀ s)

include h

theorem goTo {c : ℕ} {p : Progress} (hp : p.Tracks s₀ s.allocated s.tmp) :
    OnlyReads s₀ (s.goTo c p) :=
  { h with
    calls := (Function.forall_update_iff s.calls fun _ q => q.Tracks s₀ s.allocated s.tmp).2
      ⟨hp, fun d _ => h.calls d⟩ }

theorem allocate : OnlyReads s₀ s.allocate :=
  have hmono : ∀ {buf}, Fresh s₀ s.allocated buf → Fresh s₀ (s.allocated + 1) buf :=
    Fresh.mono (Nat.le_succ _)
  { h with
    allocated := Nat.le_succ_of_le h.allocated
    delivered := fun c p b hd => (h.delivered c p b hd).imp_right fun hb =>
      hb.imp_right fun ⟨buf, hbuf, hold⟩ => ⟨buf, hmono hbuf, hold⟩
    calls := fun c => (h.calls c).mono (Nat.le_succ _) fun htmp buf hbuf => hmono (htmp buf hbuf) }

theorem deny : OnlyReads s₀ s.deny := { h with }

theorem assign {tmp2 : Option ℕ} (hbuf : ∀ buf ∈ tmp2, Fresh s₀ s.allocated buf) :
    OnlyReads s₀ (s.assign tmp2) :=
  { h with calls := fun c => (h.calls c).mono le_rfl fun _ => hbuf }

theorem loadStr (i : ℕ) : OnlyReads s₀ (s.loadStr i) := { h with }

/-- The right byte is stored to a position of a buffer. -/
theorem storeBuf (buf : ℕ) {i : ℕ} {b : UInt8} (hb : (image s₀.str)[i]? = some b) :
    OnlyReads s₀ (s.storeBuf buf i b) :=
  { h with
    buffers := fun other p d hd => by
      simp only [Calls.storeBuf] at hd
      rcases eq_or_ne other buf with rfl | hne
      · rw [Function.update_self, CArray.cells_store, List.getElem?_set] at hd
        split_ifs at hd with hip
        · exact .inl (hip ▸ hb.trans hd)
        · exact h.buffers other p d hd
      · rw [Function.update_of_ne hne] at hd
        exact h.buffers other p d hd }

/-- Where `tmp` has been assigned, a call goes on with a buffer handed out since. -/
theorem findTmp {c : ℕ} {goOn : ℕ → Progress} (htmp : ∀ buf ∈ s.tmp, Fresh s₀ s.allocated buf)
    (hgoOn : ∀ buf, Fresh s₀ s.allocated buf → (goOn buf).Tracks s₀ s.allocated s.tmp) :
    OnlyReads s₀ (s.findTmp c goOn) := by
  rw [Calls.findTmp]
  cases hbuf : s.tmp with
  | none => exact h.goTo trivial
  | some buf => exact h.goTo (hgoOn buf (htmp buf hbuf))

/-- A byte of `str` is what it was. -/
theorem get_str {i : ℕ} (hi : i < PAGE_SIZE) : s.str.get i = s₀.str.get i := by
  have hlt : i < s.str.cells.length := by rwa [s.str.length_cells]
  have hlt₀ : i < s₀.str.cells.length := by rwa [s₀.str.length_cells]
  rw [CArray.get_of_lt hlt, CArray.get_of_lt hlt₀]
  exact Option.some.inj (by rw [← List.getElem?_eq_getElem, ← List.getElem?_eq_getElem, h.str])

variable (hlen : strlen s₀.str.cells < PAGE_SIZE)

include hlen

theorem deliver (c : ℕ) {buf p : ℕ} (hbuf : Fresh s₀ s.allocated buf)
    (hp : p < strlen s₀.str.cells) : OnlyReads s₀ (s.deliver c buf p) :=
  { h with
    buffers := fun other q d hd => by
      simp only [Calls.deliver] at hd
      rcases eq_or_ne other buf with rfl | hne
      · rw [Function.update_self] at hd
        exact h.buffers other q d hd
      · rw [Function.update_of_ne hne] at hd
        exact h.buffers other q d hd
    delivered := fun d q b hd => by
      rcases List.mem_append.1 hd with hd | hd
      · exact h.delivered d q b hd
      · obtain ⟨rfl, rfl, rfl⟩ : d = c ∧ q = p ∧ b = (s.buffers buf).get p := by
          simpa using List.mem_singleton.1 hd
        have hlt : q < (s.buffers buf).cells.length := by
          rw [CArray.length_cells]
          omega
        rw [RightOrOld, ← getElem?_image_of_lt hp]
        refine .inr ((h.buffers buf q _ ?_).imp_right fun hold => ⟨buf, hbuf, hold⟩)
        rw [CArray.get_of_lt hlt, List.getElem?_eq_getElem hlt] }

theorem readNext (c : ℕ) {a : ReadArgs} {stage : ReadStage}
    (hs : stage.Tracks s₀ s.allocated s.tmp a) : OnlyReads s₀ (s.readNext c a stage) := by
  have hpage : PAGE_SIZE = 4096 := rfl
  cases stage with
  | assigning => exact (h.assign hs).goTo ⟨hs, Nat.zero_le _⟩
  | measuring k =>
    obtain ⟨htmp, hk⟩ := hs
    have hnul := get_eq_zero_iff hlen hk
    rw [← h.get_str (by omega)] at hnul
    simp only [Calls.readNext]
    split_ifs with hzero
    · have ht : ssizeT (sizeT (k - 1)) = k - 1 := ssizeT_sizeT (by omega) (by omega)
      have hend := hnul.1 hzero
      rw [ht]
      exact (h.loadStr k).goTo ⟨htmp, Nat.zero_le _, by omega⟩
    · have hne : k ≠ strlen s₀.str.cells := fun heq => hzero (hnul.2 heq)
      exact (h.loadStr k).goTo ⟨htmp, by omega⟩
  | looping t i =>
    obtain ⟨htmp, hi, ht⟩ := hs
    simp only [Calls.readNext]
    split_ifs with hpos
    · have hb := getElem?_image (i := i) hlen (t := t.toNat) (by omega)
      rw [← h.get_str (by omega)] at hb
      exact (h.loadStr _).goTo ⟨htmp, hpos, ht, hb⟩
    · exact h.findTmp htmp fun buf hbuf => ⟨htmp, by omega, hbuf⟩
  | loaded t i b =>
    obtain ⟨htmp, hpos, ht, hb⟩ := hs
    exact h.findTmp htmp fun buf hbuf => ⟨htmp, hpos, ht, hb, hbuf⟩
  | aimed t i b buf =>
    obtain ⟨htmp, hpos, ht, hb, _⟩ := hs
    exact (h.storeBuf buf hb).goTo ⟨htmp, by omega, by omega⟩
  | ending i buf =>
    obtain ⟨htmp, hi, _⟩ := hs
    exact (h.storeBuf buf (hi ▸ getElem?_image_strlen s₀.str)).goTo ⟨htmp, hi⟩
  | passing i =>
    obtain ⟨htmp, hi⟩ := hs
    simp only [Calls.readNext]
    split_ifs with hneg hend
    · exact h.goTo trivial
    · exact h.goTo trivial
    · refine h.findTmp htmp fun buf hbuf => ⟨?_, hbuf⟩
      omega
  | delivering buf n k =>
    obtain ⟨hn, hbuf⟩ := hs
    simp only [Calls.readNext]
    split_ifs with hk
    · exact (h.deliver hlen c hbuf (by omega)).goTo ⟨hn, hbuf⟩
    · exact h.goTo trivial
  | returned result => exact h

/-- No step of a read does anything else. -/
theorem step (e : CallStep) (hread : ∀ c user offs, e ≠ .write c user offs) :
    OnlyReads s₀ (s.step e) := by
  cases e with
  | read c size offs =>
    simp only [Calls.step]
    cases hc : s.calls c with
    | idle =>
      refine h.allocate.goTo ?_
      rintro buf ⟨⟩
      exact ⟨h.allocated, Nat.lt_succ_self s.allocated⟩
    | _ => exact h
  | starved c size offs =>
    simp only [Calls.step]
    cases hc : s.calls c with
    | idle => exact h.deny.goTo fun _ hbuf => absurd hbuf.symm (Option.some_ne_none _)
    | _ => exact h
  | write c user offs => exact absurd rfl (hread c user offs)
  | next c =>
    have htracks := h.calls c
    simp only [Calls.step]
    cases hc : s.calls c with
    | reading a stage =>
      rw [hc] at htracks
      exact h.readNext hlen c htracks
    | writing user offs stage =>
      rw [hc] at htracks
      cases stage with
      | returned result => exact h
      | _ => exact htracks.elim
    | _ => exact h
  | fault c =>
    have htracks := h.calls c
    simp only [Calls.step]
    cases hc : s.calls c with
    | reading a stage =>
      cases stage with
      | delivering buf n k =>
        dsimp only
        split_ifs
        · exact h.goTo trivial
        · exact h.goTo trivial
        · exact h
      | _ => exact h
    | writing user offs stage =>
      rw [hc] at htracks
      cases stage with
      | returned result => exact h
      | _ => exact htracks.elim
    | _ => exact h

end OnlyReads

theorem onlyReads_state (hrest : ∀ c, (s₀.calls c).Rests) (hlen : strlen s₀.str.cells < PAGE_SIZE)
    {steps : List CallStep} (hread : ∀ e ∈ steps, ∀ c user offs, e ≠ .write c user offs) :
    OnlyReads s₀ (calls.state s₀ steps) :=
  Machine.invariant (fun _ e he hs => hs.step hlen e he) hread (.refl hrest)

end Run

/-- From a state where no call is going on and the page holds a string, in
    whatever order any reads take their steps and wherever they fault, with memory
    for them or without, every byte delivered is the byte of the reversed string
    at its position, or the one that a buffer handed out since held there. -/
theorem reads_concurrent (s₀ : Calls) (hrest : ∀ c, (s₀.calls c).Rests)
    (hlen : strlen s₀.str.cells < PAGE_SIZE) (steps : List CallStep)
    (hread : ∀ e ∈ steps, ∀ c user offs, e ≠ .write c user offs) (c p : ℕ) (b : UInt8)
    (hd : (c, p, b) ∈ (calls.state s₀ steps).delivered) :
    (c, p, b) ∈ s₀.delivered ∨ (cstr s₀.str.cells).reverse[p]? = some b ∨
      ∃ buf, (s₀.allocated ≤ buf ∧ buf < (calls.state s₀ steps).allocated) ∧
        (s₀.buffers buf).cells[p]? = some b :=
  (onlyReads_state hrest hlen hread).delivered c p b hd

theorem rests_init (str : CArray PAGE_SIZE) (heap : ℕ → CArray (2 * PAGE_SIZE)) (c : ℕ) :
    ((Calls.init str heap).calls c).Rests := trivial

/-- Buffers that all hold the same byte in front. -/
def usedHeap (_buf : ℕ) : CArray (2 * PAGE_SIZE) := (CArray.zeroed _).store 0 255

/-- The first read has stored a byte when the second one begins, whose buffer it
    goes on with and hands out. -/
def overtakenRead : List CallStep :=
  .read 0 10 0 :: List.replicate 8 (.next 0) ++ [.read 1 10 0, .next 1] ++
    List.replicate 11 (.next 0)

theorem overtakenRead_ne_write : ∀ e ∈ overtakenRead, ∀ d user offs, e ≠ .write d user offs := by
  intro e he d user offs
  simp only [overtakenRead, List.cons_append, List.mem_append, List.mem_cons, List.mem_replicate,
    List.not_mem_nil, or_false] at he
  rcases he with rfl | ((⟨_, rfl⟩ | rfl | rfl) | ⟨_, rfl⟩) <;> exact CallStep.noConfusion

/-- It is delivered the byte that this buffer held in front, and the `b` behind it. -/
theorem reads_concurrent_overtakenRead :
    ((0, 0, 255) ∈ (Calls.init pageAbc usedHeap).delivered ∨
      (cstr pageAbc.cells).reverse[0]? = some 255 ∨
      ∃ buf, (0 ≤ buf ∧ buf < 2) ∧ (usedHeap buf).cells[0]? = some 255) ∧
    ((0, 1, 98) ∈ (Calls.init pageAbc usedHeap).delivered ∨
      (cstr pageAbc.cells).reverse[1]? = some 98 ∨
      ∃ buf, (0 ≤ buf ∧ buf < 2) ∧ (usedHeap buf).cells[1]? = some 98) :=
  ⟨reads_concurrent (.init pageAbc usedHeap) (rests_init _ _) strlen_pageAbc overtakenRead
      overtakenRead_ne_write 0 0 255 List.mem_cons_self,
    reads_concurrent (.init pageAbc usedHeap) (rests_init _ _) strlen_pageAbc overtakenRead
      overtakenRead_ne_write 0 1 98 (List.mem_cons_of_mem _ List.mem_cons_self)⟩

end LittlePenguin.Fix
