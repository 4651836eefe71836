import LittlePenguin.Fix.Readers

/-!
# Reads of the reverse device that are overtaken

A read that has been overtaken by another one, which has assigned `tmp`, goes on
with the buffer of that one.

* A read answers what a call on its own does, if no other read assigns `tmp`
  between its own assignment and the moment it hands out the buffer
  (`read_undisturbed`).
* Otherwise it may deliver, for a string of two bytes or more, a byte that the
  other buffer held as it was handed out, whatever that is (`overtaken`).
-/

namespace LittlePenguin.Fix

open Lib

/-! ## Not overtaken -/

/-- The bytes delivered to the call `c`. -/
def Calls.got (s : Calls) (c : ℕ) : Bytes := (s.delivered.filter (·.1 = c)).map (·.2.2)

/-- A call uses `tmp`: it is a read that has assigned it, and not handed out the buffer. -/
def Progress.relies : Progress → Bool
  | reading _ .assigning => false
  | reading _ (.delivering _ _ _) => false
  | reading _ (.returned _) => false
  | reading _ _ => true
  | _ => false

/-- The next step of a call is to assign `tmp`. -/
def Progress.assigns : Progress → Bool
  | reading _ .assigning => true
  | _ => false

/-- A step by which no other read assigns `tmp` while `c` uses it. -/
def Undisturbed (c : ℕ) (s : Calls) : CallStep → Prop
  | .next d => d ≠ c → (s.calls d).assigns → ¬(s.calls c).relies
  | _ => True

instance (c : ℕ) (s : Calls) : DecidablePred (Undisturbed c s)
  | .next d => inferInstanceAs (Decidable (d ≠ c → (s.calls d).assigns → ¬(s.calls c).relies))
  | .read _ _ _ => isTrue trivial
  | .starved _ _ _ => isTrue trivial
  | .write _ _ _ => isTrue trivial
  | .fault _ => isTrue trivial

section Sole

variable (K : Kernel) (s₀ : Calls) (F : Fault → Prop)

/-- The first `i` positions of a buffer hold the right bytes. -/
def Stored (buf : CArray (2 * PAGE_SIZE)) (i : ℕ) : Prop :=
  ∀ p < i, buf.cells[p]? = (image s₀.str)[p]?

/-- What a read answers on its own. -/
def Answers (f : Fault) (a : ReadArgs) (result : ℤ) (bytes : Bytes) : Prop :=
  ∀ heap, (myfdRead K f heap s₀.str a.size a.offs).reply.result = result ∧
    (myfdRead K f heap s₀.str a.size a.offs).reply.bytes = bytes

/-- A read that has been delivered `new` has its own buffer, if there is one, which
    holds the right bytes as far as it has got. -/
def ReadStage.Sole (tmp : Option ℕ) (buffers : ℕ → CArray (2 * PAGE_SIZE)) (a : ReadArgs)
    (new : Bytes) : ReadStage → Prop
  | assigning => new = []
  | measuring _ => new = [] ∧ tmp = a.tmp2
  | looping _ i => new = [] ∧ tmp = a.tmp2 ∧ ∀ buf ∈ a.tmp2, Stored s₀ (buffers buf) i
  | loaded _ i _ => new = [] ∧ tmp = a.tmp2 ∧ ∀ buf ∈ a.tmp2, Stored s₀ (buffers buf) i
  | aimed _ i _ buf => new = [] ∧ tmp = a.tmp2 ∧ a.tmp2 = some buf ∧ Stored s₀ (buffers buf) i
  | ending i buf => new = [] ∧ tmp = a.tmp2 ∧ a.tmp2 = some buf ∧ Stored s₀ (buffers buf) i
  | passing i => new = [] ∧ tmp = a.tmp2 ∧ ∀ buf ∈ a.tmp2, Stored s₀ (buffers buf) i
  | delivering buf n k =>
    let served := slice (cstr s₀.str.cells).reverse a.offs.toNat a.size
    (0 ≤ a.offs ∧ n = served.length ∧ k ≤ n) ∧ new = served.take k ∧
      Stored s₀ (buffers buf) (strlen s₀.str.cells)
  | returned result => ∃ f, F f ∧ Answers K s₀ f a result new

/-- The call `c`, to which `new` has been delivered since `s₀`. -/
def Progress.Sole (tmp : Option ℕ) (buffers : ℕ → CArray (2 * PAGE_SIZE)) (new : Bytes) :
    Progress → Prop
  | idle => new = []
  | reading a stage => stage.Sole K s₀ F tmp buffers a new
  | writing _ _ _ => False
  | oops => True

/-- The read `c` has not been overtaken since `s₀`. -/
def Sole (c : ℕ) (s : Calls) : Prop :=
  ∃ new, s.got c = s₀.got c ++ new ∧ (s.calls c).Sole K s₀ F s.tmp s.buffers new

variable {K s₀ F} {c : ℕ} {s : Calls}

/-- What does not concern the call `c` leaves it as it is. -/
theorem Sole.frame (h : Sole K s₀ F c s) {s' : Calls} (hcalls : s'.calls c = s.calls c)
    (hgot : s'.got c = s.got c) (htmp : (s.calls c).relies → s'.tmp = s.tmp)
    (hbuf : ∀ buf i, Stored s₀ (s.buffers buf) i → Stored s₀ (s'.buffers buf) i) :
    Sole K s₀ F c s' := by
  obtain ⟨new, hnew, hsole⟩ := h
  refine ⟨new, hgot.trans hnew, ?_⟩
  rw [hcalls]
  cases hc : s.calls c with
  | reading a stage =>
    rw [hc] at hsole htmp
    cases stage with
    | measuring k => exact hsole.imp_right (htmp rfl).trans
    | looping t i =>
      exact hsole.imp_right fun hs =>
        ⟨(htmp rfl).trans hs.1, fun buf hb => hbuf _ _ (hs.2 buf hb)⟩
    | loaded t i b =>
      exact hsole.imp_right fun hs =>
        ⟨(htmp rfl).trans hs.1, fun buf hb => hbuf _ _ (hs.2 buf hb)⟩
    | aimed t i b buf =>
      exact hsole.imp_right fun hs => ⟨(htmp rfl).trans hs.1, hs.2.imp_right (hbuf _ _)⟩
    | ending i buf =>
      exact hsole.imp_right fun hs => ⟨(htmp rfl).trans hs.1, hs.2.imp_right (hbuf _ _)⟩
    | passing i =>
      exact hsole.imp_right fun hs =>
        ⟨(htmp rfl).trans hs.1, fun buf hb => hbuf _ _ (hs.2 buf hb)⟩
    | delivering buf n k => exact hsole.imp_right fun hs => hs.imp_right (hbuf _ _)
    | _ => exact hsole
  | _ =>
    rw [hc] at hsole
    exact hsole

/-- A right byte stored to a buffer leaves the right ones there. -/
theorem Stored.store {buf : CArray (2 * PAGE_SIZE)} {i j : ℕ} (h : Stored s₀ buf i) {b : UInt8}
    (hb : (image s₀.str)[j]? = some b) : Stored s₀ (buf.store j b) i := by
  intro p hp
  rw [CArray.cells_store, List.getElem?_set]
  split_ifs with heq hlt
  · rw [← heq, hb]
  · have hold := h p hp
    rw [← heq, hb, List.getElem?_eq_none_iff.2 (Nat.le_of_not_lt hlt)] at hold
    exact absurd hold (Option.some_ne_none b).symm
  · exact h p hp

/-- With the next one, there is one more. -/
theorem Stored.store_succ {buf : CArray (2 * PAGE_SIZE)} {i : ℕ} (h : Stored s₀ buf i)
    (hi : i < 2 * PAGE_SIZE) {b : UInt8} (hb : (image s₀.str)[i]? = some b) :
    Stored s₀ (buf.store i b) (i + 1) := by
  intro p hp
  rcases Nat.lt_succ_iff_lt_or_eq.1 hp with hp | rfl
  · exact h.store hb p hp
  · rw [CArray.cells_store, List.getElem?_set_self (by rwa [buf.length_cells]), hb]

/-- What gets through of its slice of the reversed string is delivered to a read. -/
theorem answers_of_nonneg (hlen : strlen s₀.str.cells < PAGE_SIZE) (f : Fault) {a : ReadArgs}
    (hoffs : 0 ≤ a.offs) :
    let served := slice (cstr s₀.str.cells).reverse a.offs.toNat a.size
    let k := f.passed served.length
    Answers K s₀ f a (if served ≠ [] ∧ k = 0 then -EFAULT else k) (served.take k) := by
  intro served k heap
  obtain ⟨tmp, heq, htake, _⟩ := myfdRead_eq K hlen f heap a.size a.offs
  have hfits : strlen s₀.str.cells ≤ tmp.cells.length := by
    rw [tmp.length_cells]
    omega
  rw [heq]
  dsimp only
  rw [K.read_eq f a.size hoffs hfits, htake]
  exact ⟨rfl, rfl⟩

theorem answers_of_neg (hlen : strlen s₀.str.cells < PAGE_SIZE) {a : ReadArgs}
    (hoffs : a.offs < 0) : Answers K s₀ .never a (-EINVAL) [] := by
  intro heap
  obtain ⟨tmp, heq, _⟩ := myfdRead_eq K hlen .never heap a.size a.offs
  rw [heq]
  dsimp only
  rw [K.read_negative _ _ _ _ _ hoffs]
  exact ⟨rfl, rfl⟩

namespace Sole

theorem goTo_of_ne (h : Sole K s₀ F c s) {d : ℕ} (hne : d ≠ c) (p : Progress) :
    Sole K s₀ F c (s.goTo d p) :=
  h.frame (Function.update_of_ne hne.symm ..) rfl (fun _ => rfl) fun _ _ => id

theorem assign (h : Sole K s₀ F c s) (hrelies : ¬(s.calls c).relies) (tmp2 : Option ℕ) :
    Sole K s₀ F c (s.assign tmp2) :=
  h.frame rfl rfl (fun hc => absurd hc hrelies) fun _ _ => id

theorem storeBuf (h : Sole K s₀ F c s) (buf : ℕ) {i : ℕ} {b : UInt8}
    (hb : (image s₀.str)[i]? = some b) : Sole K s₀ F c (s.storeBuf buf i b) := by
  refine h.frame rfl rfl (fun _ => rfl) fun other j hstored => ?_
  simp only [Calls.storeBuf]
  rcases eq_or_ne other buf with rfl | hne
  · rw [Function.update_self]
    exact hstored.store hb
  · rwa [Function.update_of_ne hne]

/-- A load changes no byte of a buffer. -/
theorem stored_load {buf i p : ℕ} {other : ℕ} (h : Stored s₀ (s.buffers other) i) :
    Stored s₀ (Function.update s.buffers buf ((s.buffers buf).load p) other) i := by
  rcases eq_or_ne other buf with rfl | hne
  · rw [Function.update_self]
    exact h
  · rwa [Function.update_of_ne hne]

theorem deliver_of_ne (h : Sole K s₀ F c s) {d : ℕ} (hne : d ≠ c) (buf p : ℕ) :
    Sole K s₀ F c (s.deliver d buf p) := by
  refine h.frame rfl ?_ (fun _ => rfl) fun _ _ => stored_load
  simp [Calls.got, Calls.deliver, List.filter_append, hne]

variable (honly : OnlyReads s₀ s)

include honly

/-- The next step of another read leaves `c` its buffer and the bytes in it. -/
theorem readNext_of_ne (h : Sole K s₀ F c s) {d : ℕ} (hne : d ≠ c) {a : ReadArgs}
    {stage : ReadStage} (hd : s.calls d = .reading a stage)
    (hassign : stage = .assigning → ¬(s.calls c).relies) :
    Sole K s₀ F c (s.readNext d a stage) := by
  have htracks := honly.calls d
  rw [hd] at htracks
  have hload : ∀ i, Sole K s₀ F c (s.loadStr i) := fun _ => h
  cases stage with
  | assigning => exact (h.assign (hassign rfl) a.tmp2).goTo_of_ne hne _
  | measuring k =>
    simp only [Calls.readNext]
    split_ifs
    · exact (hload k).goTo_of_ne hne _
    · exact (hload k).goTo_of_ne hne _
  | looping t i =>
    simp only [Calls.readNext]
    split_ifs
    · exact (hload _).goTo_of_ne hne _
    · exact h.goTo_of_ne hne _
  | loaded t i b => exact h.goTo_of_ne hne _
  | aimed t i b buf => exact (h.storeBuf buf htracks.2.2.2.1).goTo_of_ne hne _
  | ending i buf =>
    exact (h.storeBuf buf (htracks.2.1 ▸ getElem?_image_strlen s₀.str)).goTo_of_ne hne _
  | passing i =>
    simp only [Calls.readNext]
    split_ifs <;> exact h.goTo_of_ne hne _
  | delivering buf n k =>
    simp only [Calls.readNext]
    split_ifs
    · exact (h.deliver_of_ne hne buf _).goTo_of_ne hne _
    · exact h.goTo_of_ne hne _
  | returned result => exact h

omit honly in
/-- The call `c` itself has got to `p`. -/
theorem goTo_self {new : Bytes} (hnew : s.got c = s₀.got c ++ new) {p : Progress}
    (hp : p.Sole K s₀ F s.tmp s.buffers new) : Sole K s₀ F c (s.goTo c p) := by
  refine ⟨new, hnew, ?_⟩
  have hcall : (s.goTo c p).calls c = p := Function.update_self ..
  rw [hcall]
  exact hp

omit honly in
/-- It goes on with its own buffer, if there is one. -/
theorem findTmp_self {new : Bytes} (hnew : s.got c = s₀.got c ++ new) {a : ReadArgs}
    (htmp : s.tmp = a.tmp2) {goOn : ℕ → Progress}
    (hgoOn : ∀ buf, a.tmp2 = some buf → (goOn buf).Sole K s₀ F s.tmp s.buffers new) :
    Sole K s₀ F c (s.findTmp c goOn) := by
  rw [Calls.findTmp]
  cases hbuf : s.tmp with
  | none => exact goTo_self hnew trivial
  | some buf => exact goTo_self hnew (hgoOn buf (htmp.symm.trans hbuf))

omit honly in
/-- A byte more has been delivered to it. -/
theorem got_deliver (buf p : ℕ) :
    (s.deliver c buf p).got c = s.got c ++ [(s.buffers buf).get p] := by
  simp [Calls.got, Calls.deliver, List.filter_append]

omit honly in
/-- How many bytes are to be delivered. -/
theorem length_served (str : CArray PAGE_SIZE) (offs count : ℕ) :
    (slice (cstr str.cells).reverse offs count).length = min count (strlen str.cells - offs) := by
  rw [length_slice, List.length_reverse, strlen]

variable (hlen : strlen s₀.str.cells < PAGE_SIZE)

include hlen

/-- It hands out the buffer. -/
theorem readNext_passing (h : Sole K s₀ F c s) (hnever : F .never) {a : ReadArgs} {i : ℕ}
    (hc : s.calls c = .reading a (.passing i)) : Sole K s₀ F c (s.readNext c a (.passing i)) := by
  have htracks := honly.calls c
  obtain ⟨new, hnew, hsole⟩ := h
  rw [hc] at htracks hsole
  obtain ⟨hnil, htmp, hstored⟩ := hsole
  obtain ⟨_, rfl⟩ := htracks
  have hserved := length_served s₀.str a.offs.toNat a.size
  simp only [Calls.readNext]
  split_ifs with hneg hend
  · exact goTo_self hnew ⟨.never, hnever, hnil ▸ answers_of_neg hlen hneg⟩
  · -- There is nothing to deliver.
    have hanswers := answers_of_nonneg (K := K) hlen .never (Int.not_lt.1 hneg)
    have hempty : slice (cstr s₀.str.cells).reverse a.offs.toNat a.size = [] :=
      List.eq_nil_of_length_eq_zero (by omega)
    simp only [hempty, ne_eq, not_true_eq_false, false_and, if_false, List.take_nil] at hanswers
    exact goTo_self hnew ⟨.never, hnever, hnil ▸ hanswers⟩
  · refine findTmp_self hnew htmp fun buf hbuf =>
      ⟨⟨Int.not_lt.1 hneg, hserved.symm, Nat.zero_le _⟩, ?_, hstored buf hbuf⟩
    rw [hnil, List.take_zero]

omit honly in
/-- It delivers a byte, or returns. -/
theorem readNext_delivering (h : Sole K s₀ F c s) (hnever : F .never) {a : ReadArgs}
    {buf n k : ℕ} (hc : s.calls c = .reading a (.delivering buf n k)) :
    Sole K s₀ F c (s.readNext c a (.delivering buf n k)) := by
  have hpage : PAGE_SIZE = 4096 := rfl
  obtain ⟨new, hnew, hsole⟩ := h
  rw [hc] at hsole
  obtain ⟨⟨hoffs, hn, hk⟩, hbytes, hstored⟩ := hsole
  have hserved := length_served s₀.str a.offs.toNat a.size
  simp only [Calls.readNext]
  split_ifs with hlt
  · -- The byte is the one of the slice at `k`.
    have hpos : a.offs.toNat + k < (s.buffers buf).cells.length := by
      rw [CArray.length_cells]
      omega
    have hb := hstored (a.offs.toNat + k) (by omega)
    rw [getElem?_image_of_lt (by omega), List.getElem?_eq_getElem hpos,
      ← CArray.get_of_lt hpos] at hb
    have hgot := got_deliver (c := c) (s := s) buf (a.offs.toNat + k)
    rw [hnew, List.append_assoc] at hgot
    refine goTo_self (s := s.deliver c buf (a.offs.toNat + k)) hgot
      ⟨⟨hoffs, hn, hlt⟩, ?_, stored_load hstored⟩
    rw [List.take_add_one, hbytes, slice, List.getElem?_take_of_lt (by omega),
      List.getElem?_drop, ← hb]
    rfl
  · have hanswers := answers_of_nonneg (K := K) hlen .never hoffs
    simp only [Fault.passed_never, ← hn] at hanswers
    have hfull : k = n := by omega
    rw [hfull] at hbytes
    refine goTo_self hnew ⟨.never, hnever, ?_⟩
    rw [if_neg] at hanswers
    · exact hbytes ▸ hanswers
    · rintro ⟨hne, hzero⟩
      exact hne (List.eq_nil_of_length_eq_zero (hn.symm.trans hzero))

/-- The next step of the read itself. -/
theorem readNext_self (h : Sole K s₀ F c s) (hnever : F .never) {a : ReadArgs} {stage : ReadStage}
    (hc : s.calls c = .reading a stage) : Sole K s₀ F c (s.readNext c a stage) := by
  have hpage : PAGE_SIZE = 4096 := rfl
  have hall := h
  have htracks := honly.calls c
  obtain ⟨new, hnew, hsole⟩ := h
  rw [hc] at htracks hsole
  cases stage with
  | assigning => exact goTo_self (s := s.assign a.tmp2) hnew ⟨hsole, rfl⟩
  | measuring k =>
    obtain ⟨hnil, htmp⟩ := hsole
    simp only [Calls.readNext]
    split_ifs
    · exact goTo_self (s := s.loadStr k) hnew
        ⟨hnil, htmp, fun _ _ p hp => absurd hp (Nat.not_lt_zero p)⟩
    · exact goTo_self (s := s.loadStr k) hnew ⟨hnil, htmp⟩
  | looping t i =>
    obtain ⟨hnil, htmp, hstored⟩ := hsole
    simp only [Calls.readNext]
    split_ifs
    · exact goTo_self (s := s.loadStr t.toNat) hnew ⟨hnil, htmp, hstored⟩
    · exact findTmp_self hnew htmp fun buf hbuf => ⟨hnil, htmp, hbuf, hstored buf hbuf⟩
  | loaded t i b =>
    obtain ⟨hnil, htmp, hstored⟩ := hsole
    exact findTmp_self hnew htmp fun buf hbuf => ⟨hnil, htmp, hbuf, hstored buf hbuf⟩
  | aimed t i b buf =>
    obtain ⟨hnil, htmp, hbuf, hstored⟩ := hsole
    obtain ⟨_, hpos, ht, hb, _⟩ := htracks
    refine goTo_self (s := s.storeBuf buf i b) hnew ⟨hnil, htmp, fun other hother => ?_⟩
    obtain rfl : buf = other := Option.some.inj (hbuf.symm.trans hother)
    simp only [Calls.storeBuf]
    rw [Function.update_self]
    exact hstored.store_succ (by omega) hb
  | ending i buf =>
    obtain ⟨hnil, htmp, hbuf, hstored⟩ := hsole
    refine goTo_self (s := s.storeBuf buf i 0) hnew ⟨hnil, htmp, fun other hother => ?_⟩
    obtain rfl : buf = other := Option.some.inj (hbuf.symm.trans hother)
    simp only [Calls.storeBuf]
    rw [Function.update_self]
    exact hstored.store (htracks.2.1 ▸ getElem?_image_strlen s₀.str)
  | passing i => exact readNext_passing honly hlen hall hnever hc
  | delivering buf n k => exact readNext_delivering hlen hall hnever hc
  | returned result => exact ⟨new, hnew, by rw [Calls.readNext, hc]; exact hsole⟩

omit honly in
/-- A fault of the read itself. -/
theorem fault_self (h : Sole K s₀ F c s) {a : ReadArgs} {buf n k : ℕ} (hfault : F (.after k))
    (hc : s.calls c = .reading a (.delivering buf n k)) (hk : k < n) :
    Sole K s₀ F c (s.goTo c (.reading a (.returned (if k = 0 then -EFAULT else k)))) := by
  obtain ⟨new, hnew, hsole⟩ := h
  rw [hc] at hsole
  obtain ⟨⟨hoffs, hn, _⟩, hbytes, _⟩ := hsole
  have hanswers := answers_of_nonneg (K := K) hlen (.after k) hoffs
  have hpassed : (Fault.after k).passed n = k := Nat.min_eq_left hk.le
  have hne : slice (cstr s₀.str.cells).reverse a.offs.toNat a.size ≠ [] :=
    List.length_pos_iff.1 (by omega)
  simp only [← hn, hpassed, hne, ne_eq, not_false_eq_true, true_and] at hanswers
  exact goTo_self hnew ⟨.after k, hfault, hbytes ▸ hanswers⟩

/-- No step of a run in which no other read assigns `tmp` while `c` uses it overtakes `c`. -/
theorem step (h : Sole K s₀ F c s) (hnever : F .never) {e : CallStep}
    (hread : ∀ d user offs, e ≠ .write d user offs) (hfault : e = .fault c → ∀ k, F (.after k))
    (hundisturbed : Undisturbed c s e) : Sole K s₀ F c (s.step e) := by
  cases e with
  | read d size offs =>
    simp only [Calls.step]
    cases hd : s.calls d with
    | idle =>
      rcases eq_or_ne d c with rfl | hne
      · obtain ⟨new, hnew, hsole⟩ := h
        rw [hd] at hsole
        exact goTo_self (s := s.allocate) hnew hsole
      · exact (show Sole K s₀ F c s.allocate from h).goTo_of_ne hne _
    | _ => exact h
  | starved d size offs =>
    simp only [Calls.step]
    cases hd : s.calls d with
    | idle =>
      rcases eq_or_ne d c with rfl | hne
      · obtain ⟨new, hnew, hsole⟩ := h
        rw [hd] at hsole
        exact goTo_self (s := s.deny) hnew hsole
      · exact (show Sole K s₀ F c s.deny from h).goTo_of_ne hne _
    | _ => exact h
  | write d user offs => exact absurd rfl (hread d user offs)
  | next d =>
    have htracks := honly.calls d
    simp only [Calls.step]
    cases hd : s.calls d with
    | reading a stage =>
      rcases eq_or_ne d c with rfl | hne
      · exact h.readNext_self honly hlen hnever hd
      · refine h.readNext_of_ne honly hne hd fun hassign => hundisturbed hne ?_
        rw [hd, hassign]
        rfl
    | writing user offs stage =>
      rw [hd] at htracks
      cases stage with
      | returned result => exact h
      | _ => exact htracks.elim
    | _ => exact h
  | fault d =>
    have htracks := honly.calls d
    simp only [Calls.step]
    cases hd : s.calls d with
    | reading a stage =>
      cases stage with
      | delivering buf n k =>
        by_cases hk : k < n
        · simp only [if_pos hk]
          rcases eq_or_ne d c with rfl | hne
          · exact h.fault_self hlen (hfault rfl k) hd hk
          · exact h.goTo_of_ne hne _
        · simp only [if_neg hk]
          exact h
      | _ => exact h
    | writing user offs stage =>
      rw [hd] at htracks
      cases stage with
      | returned result => exact h
      | _ => exact htracks.elim
    | _ => exact h

end Sole

end Sole

/-- From a state where no call is going on and the page holds a string, a read
    that returns while there are only reads, none of which assigns `tmp` between
    its own assignment and the moment it hands out the buffer, answers what a
    call on its own does. -/
theorem read_undisturbed (K : Kernel) (s₀ : Calls) (hrest : ∀ d, (s₀.calls d).Rests)
    (hlen : strlen s₀.str.cells < PAGE_SIZE) (steps : List CallStep)
    (hread : ∀ e ∈ steps, ∀ d user offs, e ≠ .write d user offs) (c : ℕ)
    (hc : s₀.calls c = .idle) (hundisturbed : calls.Along (Undisturbed c) s₀ steps)
    (a : ReadArgs) (result : ℤ)
    (hreturned : (calls.state s₀ steps).calls c = .reading a (.returned result)) :
    ∃ f : Fault, (.fault c ∉ steps → f = .never) ∧ ∀ heap,
      let r := (myfdRead K f heap s₀.str a.size a.offs).reply
      r.result = result ∧ (calls.state s₀ steps).got c = s₀.got c ++ r.bytes := by
  -- A fault is possible if one of the steps is a fault of `c`.
  let F : Fault → Prop := fun f => .fault c ∉ steps → f = .never
  have hnever : F .never := fun _ => rfl
  have hinit : Sole K s₀ F c s₀ := ⟨[], (List.append_nil _).symm, by rw [hc]; rfl⟩
  have halong := hundisturbed.and
    (Machine.along_of_forall (fun e he => And.intro he (hread e he)) s₀)
  have hstep : ∀ s e, (Undisturbed c s e ∧ e ∈ steps ∧ ∀ d user offs, e ≠ .write d user offs) →
      OnlyReads s₀ s ∧ Sole K s₀ F c s → OnlyReads s₀ (s.step e) ∧ Sole K s₀ F c (s.step e) := by
    rintro s e ⟨hfree, hmem, hnowrite⟩ ⟨honly, hsole⟩
    refine ⟨honly.step hlen e hnowrite, hsole.step honly hlen hnever hnowrite ?_ hfree⟩
    rintro rfl k hno
    exact absurd hmem hno
  obtain ⟨_, new, hnew, hsole⟩ := halong.invariant hstep ⟨.refl hrest, hinit⟩
  rw [hreturned] at hsole
  obtain ⟨f, hf, hanswers⟩ := hsole
  refine ⟨f, hf, fun heap => ⟨(hanswers heap).1, ?_⟩⟩
  rw [hnew, (hanswers heap).2]

/-- Two reads that take their steps in turn, as soon as the second one has
    assigned `tmp`, through which the first one then stores to its buffer. -/
def readsInTurn : List CallStep :=
  [.read 1 2 1, .next 1, .read 0 10 0, .next 0] ++
    (List.replicate 20 [.next 1, .next 0]).flatten

theorem readsInTurn_ne_write : ∀ e ∈ readsInTurn, ∀ d user offs, e ≠ .write d user offs := by
  intro e he d user offs
  simp only [readsInTurn, List.mem_append, List.mem_flatten, List.mem_cons, List.mem_replicate,
    List.not_mem_nil, or_false] at he
  rcases he with he | ⟨_, ⟨_, rfl⟩, he⟩
  · rcases he with rfl | rfl | rfl | rfl <;> exact CallStep.noConfusion
  · simp only [List.mem_cons, List.not_mem_nil, or_false] at he
    rcases he with rfl | rfl <;> exact CallStep.noConfusion

/-- The second one answers what a call on its own does. -/
theorem read_undisturbed_readsInTurn :
    ∃ f : Fault, (.fault 0 ∉ readsInTurn → f = .never) ∧ ∀ heap,
      let r := (myfdRead .reference f heap pageAbc 10 0).reply
      r.result = 3 ∧ ascii "cba" = [] ++ r.bytes :=
  read_undisturbed .reference (.init pageAbc usedHeap) (rests_init _ _) strlen_pageAbc
    readsInTurn readsInTurn_ne_write 0 rfl (by decide) ⟨10, 0, some 1⟩ 3 rfl

/-! ## Overtaken -/

section Overtaken

variable {s : Calls} {c : ℕ} {a : ReadArgs}

theorem state_next (s : Calls) (c m : ℕ) : calls.state s (List.replicate (m + 1) (.next c)) =
    calls.state (s.step (.next c)) (List.replicate m (.next c)) := rfl

/-- A read that has gone over `k` bytes of the string goes over all of it. -/
theorem exists_looping (hlen : strlen s.str.cells < PAGE_SIZE) {k : ℕ}
    (hk : k ≤ strlen s.str.cells) (hc : s.calls c = .reading a (.measuring k)) :
    ∃ m, let u := calls.state s (List.replicate m (.next c))
      u.calls = Function.update s.calls c
        (.reading a (.looping ((strlen s.str.cells : ℤ) - 1) 0)) ∧
      u.tmp = s.tmp ∧ u.buffers = s.buffers ∧ u.allocated = s.allocated := by
  have hpage : PAGE_SIZE = 4096 := rfl
  obtain ⟨j, hj⟩ := Nat.exists_eq_add_of_le hk
  induction j generalizing s k with
  | zero =>
    have hnul : s.str.get k = 0 := (get_eq_zero_iff hlen hk).2 hj.symm
    have ht : ssizeT (sizeT (k - 1)) = k - 1 := ssizeT_sizeT (by omega) (by omega)
    have hstep : s.step (.next c) = (s.loadStr k).goTo c (.reading a (.looping (k - 1) 0)) := by
      simp only [Calls.step, hc, Calls.readNext, if_pos hnul, ht]
    refine ⟨1, ?_⟩
    rw [state_next, hstep, hj]
    exact ⟨rfl, rfl, rfl, rfl⟩
  | succ j ih =>
    have hne : ¬s.str.get k = 0 := fun hnul => by
      have hend := (get_eq_zero_iff hlen hk).1 hnul
      omega
    have hstep : s.step (.next c) = (s.loadStr k).goTo c (.reading a (.measuring (k + 1))) := by
      simp only [Calls.step, hc, Calls.readNext, if_neg hne]
    obtain ⟨m, hcalls, hrest⟩ := ih (s := (s.loadStr k).goTo c (.reading a (.measuring (k + 1))))
      (k := k + 1) hlen (by change k + 1 ≤ strlen s.str.cells; omega) (Function.update_self ..)
      (by change strlen s.str.cells = _; omega)
    refine ⟨m + 1, ?_⟩
    rw [state_next, hstep]
    refine ⟨hcalls.trans ?_, hrest⟩
    exact Function.update_idem ..

/-- A store to a buffer elsewhere leaves its first byte. -/
theorem first_storeBuf {buf i : ℕ} (hi : 0 < i) (b : UInt8) :
    ((s.storeBuf buf i b).buffers buf).cells[0]? = (s.buffers buf).cells[0]? := by
  simp only [Calls.storeBuf, Function.update_self, CArray.cells_store]
  exact List.getElem?_set_ne (Nat.ne_of_gt hi)

/-- A read that has left the first position goes on to its end with the buffer
    that `tmp` points to, whose first byte stays what it is. -/
theorem exists_passing {t : ℤ} {i buf : ℕ} (ht : -1 ≤ t) (hi : 0 < i)
    (hc : s.calls c = .reading a (.looping t i)) (htmp : s.tmp = some buf) :
    ∃ m j, let u := calls.state s (List.replicate m (.next c))
      u.calls c = .reading a (.passing j) ∧ 0 < j ∧ u.tmp = some buf ∧
      (u.buffers buf).cells[0]? = (s.buffers buf).cells[0]? := by
  obtain ⟨k, hk⟩ := Int.eq_ofNat_of_zero_le (show 0 ≤ t + 1 by omega)
  induction k generalizing s t i with
  | zero =>
    have hneg : ¬0 ≤ t := by omega
    have hfind : s.step (.next c) = s.goTo c (.reading a (.ending i buf)) := by
      simp only [Calls.step, hc, Calls.readNext, if_neg hneg, Calls.findTmp, htmp, Option.elim_some]
    have hstore : (s.goTo c (.reading a (.ending i buf))).step (.next c) =
        ((s.goTo c (.reading a (.ending i buf))).storeBuf buf i 0).goTo c
          (.reading a (.passing i)) := by
      simp only [Calls.step, Calls.goTo, Function.update_self, Calls.readNext]
    refine ⟨2, i, ?_⟩
    rw [state_next, hfind, state_next, hstore]
    exact ⟨Function.update_self .., hi, htmp, first_storeBuf hi 0⟩
  | succ k ih =>
    have hpos : 0 ≤ t := by omega
    let b := s.str.get t.toNat
    let s₁ := (s.loadStr t.toNat).goTo c (.reading a (.loaded t i b))
    let s₂ := s₁.goTo c (.reading a (.aimed t i b buf))
    let s₃ := (s₂.storeBuf buf i b).goTo c (.reading a (.looping (t - 1) (i + 1)))
    have hload : s.step (.next c) = s₁ := by
      simp only [Calls.step, hc, Calls.readNext, if_pos hpos, s₁, b]
    have hfind : s₁.step (.next c) = s₂ := by
      have hcall : s₁.calls c = .reading a (.loaded t i b) := Function.update_self ..
      have htmp₁ : s₁.tmp = some buf := htmp
      simp only [Calls.step, hcall, Calls.readNext, Calls.findTmp, htmp₁, Option.elim_some, s₂]
    have hstore : s₂.step (.next c) = s₃ := by
      have hcall : s₂.calls c = .reading a (.aimed t i b buf) := Function.update_self ..
      simp only [Calls.step, hcall, Calls.readNext, s₃]
    obtain ⟨m, j, hcall, hj, htmp', hfirst⟩ := ih (s := s₃) (t := t - 1) (i := i + 1) (by omega)
      (Nat.succ_pos i) (Function.update_self ..) htmp (by omega)
    refine ⟨m + 3, j, ?_⟩
    rw [state_next, hload, state_next, hfind, state_next, hstore]
    exact ⟨hcall, hj, htmp', hfirst.trans (first_storeBuf (s := s₂) hi b)⟩

/-- The read `c` stores the first byte, and is overtaken by the read `d`. -/
theorem state_overtaken {d : ℕ} (hd : d ≠ c) {buf : ℕ} {t : ℤ} (ht : 0 ≤ t)
    (hc : s.calls c = .reading a (.looping t 0)) (htmp : s.tmp = some buf)
    (hbuf : buf ≠ s.allocated) (hidle : s.calls d = .idle) :
    let u := calls.state s [.next c, .next c, .next c, .read d 1 0, .next d]
    u.calls c = .reading a (.looping (t - 1) 1) ∧ u.tmp = some s.allocated ∧
      u.buffers s.allocated = s.buffers s.allocated := by
  let b := s.str.get t.toNat
  let s₁ := (s.loadStr t.toNat).goTo c (.reading a (.loaded t 0 b))
  let s₂ := s₁.goTo c (.reading a (.aimed t 0 b buf))
  let s₃ := (s₂.storeBuf buf 0 b).goTo c (.reading a (.looping (t - 1) 1))
  let s₄ := s₃.allocate.goTo d (.reading ⟨1, 0, s.allocated⟩ .assigning)
  let s₅ := (s₄.assign s.allocated).goTo d (.reading ⟨1, 0, s.allocated⟩ (.measuring 0))
  have hload : s.step (.next c) = s₁ := by
    simp only [Calls.step, hc, Calls.readNext, if_pos ht, s₁, b]
  have hfind : s₁.step (.next c) = s₂ := by
    have hcall : s₁.calls c = .reading a (.loaded t 0 b) := Function.update_self ..
    have htmp₁ : s₁.tmp = some buf := htmp
    simp only [Calls.step, hcall, Calls.readNext, Calls.findTmp, htmp₁, Option.elim_some, s₂]
  have hstore : s₂.step (.next c) = s₃ := by
    have hcall : s₂.calls c = .reading a (.aimed t 0 b buf) := Function.update_self ..
    simp only [Calls.step, hcall, Calls.readNext, s₃]
  have hread : s₃.step (.read d 1 0) = s₄ := by
    have hcall : s₃.calls d = .idle := by
      simp only [s₃, s₂, s₁, Calls.goTo, Calls.storeBuf, Calls.loadStr, Function.update_of_ne hd,
        hidle]
    simp only [Calls.step, hcall, s₄]
    rfl
  have hassign : s₄.step (.next d) = s₅ := by
    have hcall : s₄.calls d = .reading ⟨1, 0, s.allocated⟩ .assigning := Function.update_self ..
    simp only [Calls.step, hcall, Calls.readNext, s₅]
  intro u
  have hu : u = s₅ := by
    simp only [u, state_cons, hload, hfind, hstore, hread, hassign, Machine.state_nil]
  rw [hu]
  refine ⟨?_, rfl, Function.update_of_ne hbuf.symm ..⟩
  simp only [s₅, s₄, s₃, Calls.goTo, Calls.assign, Calls.allocate, Function.update_of_ne hd.symm,
    Function.update_self]

/-- A read of a byte from the beginning hands out the first one of the buffer
    that `tmp` points to. -/
theorem delivered_first {buf j : ℕ} (hsize : a.size = 1) (hoffs : a.offs = 0) (hj : 0 < j)
    (hc : s.calls c = .reading a (.passing j)) (htmp : s.tmp = some buf) :
    (c, 0, (s.buffers buf).get 0) ∈ (calls.state s [.next c, .next c]).delivered := by
  have hpass : s.step (.next c) = s.goTo c (.reading a (.delivering buf 1 0)) := by
    have hend : ¬((j : ℤ) ≤ a.offs ∨ a.size = 0) := by omega
    have hn : min a.size (j - a.offs.toNat) = 1 := by omega
    simp only [Calls.step, hc, Calls.readNext, Calls.findTmp, htmp, Option.elim_some]
    rw [if_neg (by omega), if_neg hend, hn]
  have hcall : (s.goTo c (.reading a (.delivering buf 1 0))).calls c =
      .reading a (.delivering buf 1 0) := Function.update_self ..
  rw [state_cons, hpass, state_cons]
  simp only [Calls.step, hcall, Calls.readNext, if_pos Nat.one_pos, hoffs, Machine.state_nil]
  exact List.mem_append_right _ (List.mem_singleton.2 rfl)

end Overtaken

/-- For every string of two bytes or more, there is an order of the steps of two
    reads, without writes and faults, in which the first one is delivered the
    byte that the buffer of the other one held as it was handed out. -/
theorem overtaken (str : CArray PAGE_SIZE) (heap : ℕ → CArray (2 * PAGE_SIZE))
    (htwo : 2 ≤ strlen str.cells) (hlen : strlen str.cells < PAGE_SIZE) :
    ∃ steps, (∀ e ∈ steps, e = .read 0 1 0 ∨ e = .read 1 1 0 ∨ e = .next 0 ∨ e = .next 1) ∧
      (0, 0, (heap 1).get 0) ∈ (calls.state (.init str heap) steps).delivered := by
  let args : ReadArgs := ⟨1, 0, some 0⟩
  let s := ((Calls.init str heap).step (.read 0 1 0)).step (.next 0)
  have hs : s.calls 0 = .reading args (.measuring 0) := rfl
  obtain ⟨m, hcalls, htmp, hbuffers, hallocated⟩ := exists_looping (s := s) hlen (Nat.zero_le _) hs
  generalize hu : calls.state s (List.replicate m (.next 0)) = u at hcalls htmp hbuffers hallocated
  have hstr : strlen s.str.cells = strlen str.cells := rfl
  have hcall : u.calls 0 = .reading args (.looping ((strlen s.str.cells : ℤ) - 1) 0) := by
    rw [hcalls, Function.update_self]
  have hidle : u.calls 1 = .idle := by
    rw [hcalls, Function.update_of_ne Nat.one_ne_zero]
    rfl
  have halloc : u.allocated = 1 := hallocated
  have htmp : u.tmp = some 0 := htmp
  obtain ⟨hcall, htmp, hbuffer⟩ := state_overtaken Nat.one_ne_zero (by omega) hcall htmp
    (by rw [halloc]; exact Nat.zero_ne_one) hidle
  rw [halloc] at htmp hbuffer
  generalize hv : calls.state u [.next 0, .next 0, .next 0, .read 1 1 0, .next 1] = v
    at hcall htmp hbuffer
  obtain ⟨m', j, hcall, hj, htmp, hfirst⟩ :=
    exists_passing (by omega) Nat.one_pos hcall htmp
  generalize hw : calls.state v (List.replicate m' (.next 0)) = w at hcall htmp hfirst
  have hd := delivered_first rfl rfl hj hcall htmp
  have hget : (w.buffers 1).get 0 = (heap 1).get 0 := by
    rw [hbuffer, hbuffers] at hfirst
    change (w.buffers 1).cells[0]? = (heap 1).cells[0]? at hfirst
    rw [CArray.get, CArray.get, List.getD_eq_getElem?_getD, List.getD_eq_getElem?_getD, hfirst,
      List.getElem?_eq_getElem (by rw [CArray.length_cells]; decide)]
    rfl
  refine ⟨[.read 0 1 0, .next 0] ++ List.replicate m (.next 0) ++
    [.next 0, .next 0, .next 0, .read 1 1 0, .next 1] ++ List.replicate m' (.next 0) ++
    [.next 0, .next 0], ?_, ?_⟩
  · intro e he
    simp only [List.mem_append, List.mem_cons, List.mem_replicate, List.not_mem_nil, or_false] at he
    rcases he with
      ((((rfl | rfl) | ⟨_, rfl⟩) | rfl | rfl | rfl | rfl | rfl) | ⟨_, rfl⟩) | rfl | rfl
    all_goals simp
  · rw [Machine.state_append, Machine.state_append, Machine.state_append, Machine.state_append]
    change (0, 0, _) ∈ (calls.state (calls.state (calls.state (calls.state s _) _) _) _).delivered
    rw [hu, hv, hw, ← hget]
    exact hd

/-- A string of two letters. -/
def lettersAB : CArray PAGE_SIZE := ((CArray.zeroed PAGE_SIZE).store 0 97).store 1 98

/-- With it, whatever is in the second buffer can be had. -/
theorem overtaken_lettersAB :
    ∃ steps, (∀ e ∈ steps, e = .read 0 1 0 ∨ e = .read 1 1 0 ∨ e = .next 0 ∨ e = .next 1) ∧
      (0, 0, 255) ∈ (calls.state
        (.init lettersAB fun _ => (CArray.zeroed _).store 0 255) steps).delivered := by
  refine overtaken lettersAB (fun _ => (CArray.zeroed _).store 0 255) (by decide) ?_
  exact (strlen_le_of_getElem? (i := 2) rfl).trans_lt (by decide)

end LittlePenguin.Fix
