import LittlePenguin.Lib.Machine
import LittlePenguin.Lib.Ownership
import LittlePenguin.Mymounts.Lifetime

/-!
# The private data of an open file

To open `/proc/mymounts`, `mymounts_open` has `seq_open_private` allocate a
`struct mymounts`, and has the namespace put into it. Both may fail half-way: the
memory for it, and that for the `struct seq_file` it hangs on, and what has been
allocated by then is to be freed. The routines of the kernel for this are those
in `ex09/research.c`.

Here the files are opened, used and released step by step, in any order, with
any allocation failing. No step uses or frees memory that is not there, each
open file has private data of its own with the namespace of its opener, and the
memory that is there is that of open files, or of files being opened or released
(`opens_balanced`): failing or not, no call leaves any of it behind.
-/

namespace LittlePenguin.Mymounts

open Lib

/-- The error code of memory that cannot be allocated. -/
def ENOMEM : ℤ := 12

/-- An address of allocated memory. -/
abbrev Addr := ℕ

/-- `struct mymounts`, with a pointer that is NULL at first. -/
structure MymountsData where
  ns : Option NsPtr

/-- `struct seq_file`, as far as it is used here. -/
structure SeqFileData where
  /-- The field `private`. -/
  privatePtr : Option Addr

/-- How far a file has got, with the local variables of the routines. -/
inductive Stage
  /-- It is not open. -/
  | unused
  /-- `mymounts_open` has taken the namespace. -/
  | entered (ns : NsPtr)
  /-- `__seq_open_private` has allocated the private data. -/
  | allocated (ns : NsPtr) (privatePtr : Addr)
  /-- `seq_open` has failed: `out_free`. -/
  | outFree (privatePtr : Addr)
  /-- `seq_open` has succeeded. -/
  | seqOpened (ns : NsPtr) (privatePtr : Addr)
  /-- `seq_open_private` has returned `0`. -/
  | returned (ns : NsPtr)
  /-- `mymounts_open` has returned `0`. -/
  | opened
  /-- `seq_release_private` has freed the private data. -/
  | releasing

/-- The memory, and the files. -/
structure Files where
  mymounts : Objects Addr MymountsData
  seqFiles : Objects Addr SeqFileData
  /-- The field `private_data` of a `struct file`. -/
  privateData : FilePtr → Option Addr
  stage : FilePtr → Stage
  /-- The namespace of the task that has opened the file last. -/
  opener : FilePtr → NsPtr

/-- A step on a file. -/
inductive FileStep
  /-- `mymounts_open` is called by a task in the namespace. -/
  | enter (f : FilePtr) (ns : NsPtr)
  /-- `kzalloc` returns the address, or NULL. -/
  | kzalloc (f : FilePtr) (p : Option Addr)
  /-- `seq_open` allocates a `struct seq_file` at the address, or fails. -/
  | seqOpen (f : FilePtr) (q : Option Addr)
  /-- `seq->private = private`. -/
  | link (f : FilePtr)
  /-- `kfree(private)`, after `seq_open` has failed. -/
  | kfree (f : FilePtr)
  /-- `p->ns = ns`. -/
  | store (f : FilePtr)
  /-- A callback looks up the namespace. -/
  | callback (f : FilePtr)
  /-- `seq_release_private` frees the private data. -/
  | release (f : FilePtr)
  /-- It goes on with `seq_release`. -/
  | seqRelease (f : FilePtr)

/-- What a step ends with. -/
inductive FileOut
  /-- The file is not in a position for it. -/
  | refused
  | done
  /-- A call has returned. -/
  | returned (ret : ℤ)
  /-- A callback has found this pointer in the private data. -/
  | found (ns : Option NsPtr)
  /-- Memory that is not there has been used or freed. -/
  | fault

namespace Files

/-- No file is open, and no memory allocated. -/
def init : Files := ⟨fun _ => none, fun _ => none, fun _ => none, fun _ => .unused, fun _ => 0⟩

variable (s : Files)

/-- The file has got to `g`. -/
def goTo (f : FilePtr) (g : Stage) : Files := { s with stage := Function.update s.stage f g }

/-- The `struct seq_file` of the file, with its address. -/
def seqFile (f : FilePtr) : Option (Addr × SeqFileData) :=
  (s.privateData f).bind fun q => (s.seqFiles q).map fun seq => (q, seq)

/-- The private data of the file, with its address. -/
def data (f : FilePtr) : Option (Addr × MymountsData) :=
  (s.seqFile f).bind fun m => m.2.privatePtr.bind fun p => (s.mymounts p).map fun d => (p, d)

/-- The struct at `p` is written. -/
def putData (p : Addr) (d : Option MymountsData) : Files :=
  { s with mymounts := Function.update s.mymounts p d }

/-- The struct at `q` is written. -/
def putSeq (q : Addr) (seq : Option SeqFileData) : Files :=
  { s with seqFiles := Function.update s.seqFiles q seq }

/-- A step on a file. -/
def step : FileStep → Files × FileOut
  | .enter f ns =>
    match s.stage f with
    | .unused => ({ s with opener := Function.update s.opener f ns }.goTo f (.entered ns), .done)
    | _ => (s, .refused)
  | .kzalloc f p =>
    match s.stage f with
    | .entered ns =>
      match p with
      -- `out`: NULL is returned, for which `seq_open_private` returns an error.
      | none => (s.goTo f .unused, .returned (-ENOMEM))
      | some p =>
        match s.mymounts p with
        | none => ((s.putData p (some ⟨none⟩)).goTo f (.allocated ns p), .done)
        -- No memory is allocated that already is.
        | some _ => (s, .refused)
    | _ => (s, .refused)
  | .seqOpen f q =>
    match s.stage f with
    | .allocated ns p =>
      match q with
      | none => (s.goTo f (.outFree p), .done)
      | some q =>
        match s.seqFiles q with
        | none =>
          ({ s.putSeq q (some ⟨none⟩) with
            privateData := Function.update s.privateData f (some q) }.goTo f (.seqOpened ns p),
            .done)
        | some _ => (s, .refused)
    | _ => (s, .refused)
  | .link f =>
    match s.stage f with
    | .seqOpened ns p =>
      match s.seqFile f with
      | some (q, _) => ((s.putSeq q (some ⟨some p⟩)).goTo f (.returned ns), .done)
      | none => (s, .fault)
    | _ => (s, .refused)
  | .kfree f =>
    match s.stage f with
    | .outFree p =>
      match s.mymounts p with
      | some _ => ((s.putData p none).goTo f .unused, .returned (-ENOMEM))
      | none => (s, .fault)
    | _ => (s, .refused)
  | .store f =>
    match s.stage f with
    | .returned ns =>
      match s.data f with
      | some (p, _) => ((s.putData p (some ⟨some ns⟩)).goTo f .opened, .returned 0)
      | none => (s, .fault)
    | _ => (s, .refused)
  | .callback f =>
    match s.stage f with
    | .opened =>
      match s.data f with
      | some (_, d) => (s, .found d.ns)
      | none => (s, .fault)
    | _ => (s, .refused)
  | .release f =>
    match s.stage f with
    | .opened =>
      match s.seqFile f, s.data f with
      | some (q, _), some (p, _) =>
        (((s.putData p none).putSeq q (some ⟨none⟩)).goTo f .releasing, .done)
      | _, _ => (s, .fault)
    | _ => (s, .refused)
  | .seqRelease f =>
    match s.stage f with
    | .releasing =>
      match s.seqFile f with
      | some (q, _) => ((s.putSeq q none).goTo f .unused, .returned 0)
      | none => (s, .fault)
    | _ => (s, .refused)

end Files

/-- The files, taking their steps in some order. -/
def files : Machine Files FileStep FileOut where
  step s e := s.step e

/-! ## Who has what -/

/-- What a file has that has got so far: its private data at `p`, and its
    `struct seq_file` at `q`. -/
def Stage.Has (s : Files) (f : FilePtr) (p q : Option Addr) : Stage → Prop
  | unused => p = none ∧ q = none
  | entered ns => s.opener f = ns ∧ p = none ∧ q = none
  | allocated ns p' => s.opener f = ns ∧ p = some p' ∧ q = none
  | outFree p' => p = some p' ∧ q = none
  | seqOpened ns p' => s.opener f = ns ∧ p = some p' ∧ ∃ q', q = some q' ∧
      s.privateData f = some q'
  | returned ns => s.opener f = ns ∧ ∃ p' q', p = some p' ∧ q = some q' ∧
      s.privateData f = some q' ∧ s.seqFiles q' = some ⟨some p'⟩
  | opened => ∃ p' q', p = some p' ∧ q = some q' ∧ s.privateData f = some q' ∧
      s.seqFiles q' = some ⟨some p'⟩ ∧ s.mymounts p' = some ⟨some (s.opener f)⟩
  | releasing => p = none ∧ ∃ q', q = some q' ∧ s.privateData f = some q'

/-- All memory there is belongs to the files, as far as they have got. -/
structure Balanced (s : Files) (P Q : FilePtr → Option Addr) : Prop where
  mymounts : Owns s.mymounts P
  seqFiles : Owns s.seqFiles Q
  files : ∀ f, (s.stage f).Has s f (P f) (Q f)

theorem balanced_init : Balanced Files.init (fun _ => none) fun _ => none where
  mymounts := Owns.empty
  seqFiles := Owns.empty
  files _ := ⟨rfl, rfl⟩

/-- What a file has is not changed by what happens elsewhere. -/
theorem Stage.Has.congr {g : Stage} {s s' : Files} {f : FilePtr} {p q : Option Addr}
    (h : g.Has s f p q) (hopener : s'.opener f = s.opener f)
    (hdata : s'.privateData f = s.privateData f)
    (hp : ∀ p', p = some p' → s'.mymounts p' = s.mymounts p')
    (hq : ∀ q', q = some q' → s'.seqFiles q' = s.seqFiles q') : g.Has s' f p q := by
  cases g with
  | unused => exact h
  | outFree => exact h
  | entered => rwa [Stage.Has, hopener]
  | allocated => rwa [Stage.Has, hopener]
  | seqOpened => rwa [Stage.Has, hopener, hdata]
  | releasing => rwa [Stage.Has, hdata]
  | returned =>
    obtain ⟨hns, p', q', rfl, rfl, hpd, hseq⟩ := h
    exact ⟨hopener.trans hns, p', q', rfl, rfl, hdata.trans hpd, (hq q' rfl).trans hseq⟩
  | opened =>
    obtain ⟨p', q', rfl, rfl, hpd, hseq, hmm⟩ := h
    refine ⟨p', q', rfl, rfl, hdata.trans hpd, (hq q' rfl).trans hseq, ?_⟩
    rw [hp p' rfl, hmm, hopener]

namespace Balanced

variable {s s' : Files} {P Q : FilePtr → Option Addr} {f : FilePtr}

/-- After a step on a file, the other files have what they had. -/
theorem of_step (h : Balanced s P Q) {p q : Option Addr} {g : Stage}
    (hstage : s'.stage = Function.update s.stage f g)
    (hopener : ∀ d, d ≠ f → s'.opener d = s.opener d)
    (hdata : ∀ d, d ≠ f → s'.privateData d = s.privateData d)
    (hp : ∀ d, d ≠ f → ∀ p', P d = some p' → s'.mymounts p' = s.mymounts p')
    (hq : ∀ d, d ≠ f → ∀ q', Q d = some q' → s'.seqFiles q' = s.seqFiles q')
    (hP : Owns s'.mymounts (Function.update P f p)) (hQ : Owns s'.seqFiles (Function.update Q f q))
    (hf : g.Has s' f p q) : ∃ P' Q', Balanced s' P' Q' := by
  refine ⟨Function.update P f p, Function.update Q f q, hP, hQ, fun d => ?_⟩
  by_cases hd : d = f
  · subst hd
    rwa [hstage, Function.update_self, Function.update_self, Function.update_self]
  · rw [hstage, Function.update_of_ne hd, Function.update_of_ne hd, Function.update_of_ne hd]
    exact (h.files d).congr (hopener d hd) (hdata d hd) (hp d hd) (hq d hd)

/-- What a file has that has got to `g`. -/
theorem has (h : Balanced s P Q) {g : Stage} (hg : s.stage f = g) : g.Has s f (P f) (Q f) :=
  hg ▸ h.files f

/-- A file gets further without the memory being touched. -/
theorem goTo (h : Balanced s P Q) {g : Stage} (hf : g.Has s f (P f) (Q f)) :
    ∃ P' Q', Balanced (s.goTo f g) P' Q' :=
  h.of_step rfl (fun _ _ => rfl) (fun _ _ => rfl) (fun _ _ _ _ => rfl) (fun _ _ _ _ => rfl)
    (h.mymounts.update_self rfl) (h.seqFiles.update_self rfl) hf

/-- The `struct seq_file` of a file is there. -/
theorem seqFile_eq (h : Balanced s P Q) {q : Addr} (hdata : s.privateData f = some q)
    (hQ : Q f = some q) : ∃ seq, s.seqFile f = some (q, seq) := by
  obtain ⟨seq, hseq⟩ := h.seqFiles.exists_object hQ
  exact ⟨seq, by rw [Files.seqFile, hdata, Option.bind_some, hseq, Option.map_some]⟩

/-- So is its private data. -/
theorem data_eq (h : Balanced s P Q) {p q : Addr} (hdata : s.privateData f = some q)
    (hseq : s.seqFiles q = some ⟨some p⟩) (hP : P f = some p) :
    s.seqFile f = some (q, ⟨some p⟩) ∧
      ∃ d, s.data f = some (p, d) ∧ s.mymounts p = some d := by
  have hfile : s.seqFile f = some (q, ⟨some p⟩) := by
    rw [Files.seqFile, hdata, Option.bind_some, hseq, Option.map_some]
  obtain ⟨d, hd⟩ := h.mymounts.exists_object hP
  exact ⟨hfile, d, by rw [Files.data, hfile, Option.bind_some, Option.bind_some, hd,
    Option.map_some], hd⟩

end Balanced

/-! ## The steps -/

/-- No memory is used that is not there, and a call returns `0` or an error for no memory. -/
def FileOut.Fine : FileOut → Prop
  | fault => False
  | returned ret => ret = 0 ∨ ret = -ENOMEM
  | _ => True

/-- A step ends well, and leaves the memory to the files. -/
def Good (r : Files × FileOut) : Prop := (∃ P Q, Balanced r.1 P Q) ∧ r.2.Fine

namespace Balanced

variable {s : Files} {P Q : FilePtr → Option Addr} {f : FilePtr}

theorem refused (h : Balanced s P Q) : Good (s, .refused) := ⟨⟨P, Q, h⟩, trivial⟩

theorem enter (h : Balanced s P Q) (ns : NsPtr) : Good (s.step (.enter f ns)) := by
  simp only [Files.step]
  cases hg : s.stage f with
  | unused =>
    obtain ⟨hP, hQ⟩ := h.has hg
    refine ⟨h.of_step rfl (fun d hd => Function.update_of_ne hd ..) (fun _ _ => rfl)
      (fun _ _ _ _ => rfl) (fun _ _ _ _ => rfl) (h.mymounts.update_self hP)
      (h.seqFiles.update_self hQ) ⟨Function.update_self .., rfl, rfl⟩, trivial⟩
  | _ => exact h.refused

theorem kzalloc (h : Balanced s P Q) (p : Option Addr) : Good (s.step (.kzalloc f p)) := by
  simp only [Files.step]
  cases hg : s.stage f with
  | entered ns =>
    obtain ⟨hns, hP, hQ⟩ := h.has hg
    cases p with
    | none => exact ⟨h.goTo ⟨hP, hQ⟩, .inr rfl⟩
    | some p =>
      dsimp only
      cases hp : s.mymounts p with
      | some _ => exact h.refused
      | none =>
        exact ⟨h.of_step rfl (fun _ _ => rfl) (fun _ _ => rfl)
          (fun d _ _ hd => h.mymounts.update_of_none hp hd _) (fun _ _ _ _ => rfl)
          (h.mymounts.alloc hP hp _) (h.seqFiles.update_self hQ) ⟨hns, rfl, rfl⟩, trivial⟩
  | _ => exact h.refused

theorem seqOpen (h : Balanced s P Q) (q : Option Addr) : Good (s.step (.seqOpen f q)) := by
  simp only [Files.step]
  cases hg : s.stage f with
  | allocated ns p =>
    obtain ⟨hns, hP, hQ⟩ := h.has hg
    cases q with
    | none => exact ⟨h.goTo ⟨hP, hQ⟩, trivial⟩
    | some q =>
      dsimp only
      cases hq : s.seqFiles q with
      | some _ => exact h.refused
      | none =>
        exact ⟨h.of_step rfl (fun _ _ => rfl) (fun d hd => Function.update_of_ne hd ..)
          (fun _ _ _ _ => rfl) (fun d _ _ hd => h.seqFiles.update_of_none hq hd _)
          (h.mymounts.update_self hP) (h.seqFiles.alloc hQ hq _)
          ⟨hns, rfl, q, rfl, Function.update_self ..⟩, trivial⟩
  | _ => exact h.refused

theorem link (h : Balanced s P Q) : Good (s.step (.link f)) := by
  simp only [Files.step]
  cases hg : s.stage f with
  | seqOpened ns p =>
    obtain ⟨hns, hP, q, hQ, hdata⟩ := h.has hg
    obtain ⟨seq, hfile⟩ := h.seqFile_eq hdata hQ
    simp only [hfile]
    exact ⟨h.of_step rfl (fun _ _ => rfl) (fun _ _ => rfl) (fun _ _ _ _ => rfl)
      (fun d hd _ hown => h.seqFiles.update_of_own hQ hd hown _) (h.mymounts.update_self hP)
      ((h.seqFiles.set hQ _).update_self hQ)
      ⟨hns, p, q, rfl, rfl, hdata, Function.update_self ..⟩, trivial⟩
  | _ => exact h.refused

theorem kfree (h : Balanced s P Q) : Good (s.step (.kfree f)) := by
  simp only [Files.step]
  cases hg : s.stage f with
  | outFree p =>
    obtain ⟨hP, hQ⟩ := h.has hg
    obtain ⟨d, hd⟩ := h.mymounts.exists_object hP
    simp only [hd]
    exact ⟨h.of_step rfl (fun _ _ => rfl) (fun _ _ => rfl)
      (fun d hd _ hown => h.mymounts.update_of_own hP hd hown _) (fun _ _ _ _ => rfl)
      (h.mymounts.free hP) (h.seqFiles.update_self hQ) ⟨rfl, rfl⟩, .inr rfl⟩
  | _ => exact h.refused

theorem store (h : Balanced s P Q) : Good (s.step (.store f)) := by
  simp only [Files.step]
  cases hg : s.stage f with
  | returned ns =>
    obtain ⟨hns, p, q, hP, hQ, hdata, hseq⟩ := h.has hg
    obtain ⟨-, d, hd, -⟩ := h.data_eq hdata hseq hP
    simp only [hd]
    exact ⟨h.of_step rfl (fun _ _ => rfl) (fun _ _ => rfl)
      (fun d hd _ hown => h.mymounts.update_of_own hP hd hown _) (fun _ _ _ _ => rfl)
      ((h.mymounts.set hP _).update_self hP) (h.seqFiles.update_self hQ)
      ⟨p, q, rfl, rfl, hdata, hseq, hns ▸ Function.update_self ..⟩, .inl rfl⟩
  | _ => exact h.refused

/-- A callback finds the namespace of the opener. -/
theorem callback_eq (h : Balanced s P Q) (hg : s.stage f = .opened) :
    s.step (.callback f) = (s, .found (some (s.opener f))) := by
  obtain ⟨p, q, hP, hQ, hdata, hseq, hns⟩ := h.has hg
  obtain ⟨-, d, hd, hp⟩ := h.data_eq hdata hseq hP
  obtain rfl := Option.some.inj (hns.symm.trans hp)
  simp only [Files.step, hg, hd]

theorem callback (h : Balanced s P Q) : Good (s.step (.callback f)) := by
  cases hg : s.stage f with
  | opened =>
    rw [h.callback_eq hg]
    exact ⟨⟨P, Q, h⟩, trivial⟩
  | _ =>
    simp only [Files.step, hg]
    exact h.refused

theorem release (h : Balanced s P Q) : Good (s.step (.release f)) := by
  simp only [Files.step]
  cases hg : s.stage f with
  | opened =>
    obtain ⟨p, q, hP, hQ, hdata, hseq, -⟩ := h.has hg
    obtain ⟨hfile, d, hd, -⟩ := h.data_eq hdata hseq hP
    simp only [hfile, hd]
    exact ⟨h.of_step rfl (fun _ _ => rfl) (fun _ _ => rfl)
      (fun d hd _ hown => h.mymounts.update_of_own hP hd hown _)
      (fun d hd _ hown => h.seqFiles.update_of_own hQ hd hown _) (h.mymounts.free hP)
      ((h.seqFiles.set hQ _).update_self hQ) ⟨rfl, q, rfl, hdata⟩, trivial⟩
  | _ => exact h.refused

theorem seqRelease (h : Balanced s P Q) : Good (s.step (.seqRelease f)) := by
  simp only [Files.step]
  cases hg : s.stage f with
  | releasing =>
    obtain ⟨hP, q, hQ, hdata⟩ := h.has hg
    obtain ⟨seq, hfile⟩ := h.seqFile_eq hdata hQ
    simp only [hfile]
    exact ⟨h.of_step rfl (fun _ _ => rfl) (fun _ _ => rfl) (fun _ _ _ _ => rfl)
      (fun d hd _ hown => h.seqFiles.update_of_own hQ hd hown _) (h.mymounts.update_self hP)
      (h.seqFiles.free hQ) ⟨rfl, rfl⟩, .inl rfl⟩
  | _ => exact h.refused

/-- Every step ends well. -/
theorem step (h : Balanced s P Q) (e : FileStep) : Good (s.step e) := by
  cases e with
  | enter f ns => exact h.enter ns
  | kzalloc f p => exact h.kzalloc p
  | seqOpen f q => exact h.seqOpen q
  | link f => exact h.link
  | kfree f => exact h.kfree
  | store f => exact h.store
  | callback f => exact h.callback
  | release f => exact h.release
  | seqRelease f => exact h.seqRelease

end Balanced

/-! ## Runs -/

/-- The address of the private data of a file: in a local variable at first, then
    in its `struct seq_file`. -/
def Files.privateOf (s : Files) (f : FilePtr) : Option Addr :=
  match s.stage f with
  | .allocated _ p => some p
  | .outFree p => some p
  | .seqOpened _ p => some p
  | .returned _ => (s.seqFile f).bind fun m => m.2.privatePtr
  | .opened => (s.seqFile f).bind fun m => m.2.privatePtr
  | _ => none

/-- The address of the `struct seq_file` of a file, between `seq_open` and `seq_release`. -/
def Files.seqOf (s : Files) (f : FilePtr) : Option Addr :=
  match s.stage f with
  | .seqOpened _ _ => s.privateData f
  | .returned _ => s.privateData f
  | .opened => s.privateData f
  | .releasing => s.privateData f
  | _ => none

/-- The memory that a file has is what its pointers lead to. -/
theorem Balanced.eq_of {s : Files} {P Q : FilePtr → Option Addr} (h : Balanced s P Q)
    (f : FilePtr) : P f = s.privateOf f ∧ Q f = s.seqOf f := by
  cases hg : s.stage f with
  | unused => simpa only [Files.privateOf, Files.seqOf, hg, Stage.Has] using h.has hg
  | entered => simpa only [Files.privateOf, Files.seqOf, hg] using (h.has hg).2
  | allocated => simpa only [Files.privateOf, Files.seqOf, hg] using (h.has hg).2
  | outFree => simpa only [Files.privateOf, Files.seqOf, hg, Stage.Has] using h.has hg
  | seqOpened =>
    obtain ⟨-, hP, q, hQ, hdata⟩ := h.has hg
    simp only [Files.privateOf, Files.seqOf, hg]
    exact ⟨hP, hQ.trans hdata.symm⟩
  | returned =>
    obtain ⟨-, p, q, hP, hQ, hdata, hseq⟩ := h.has hg
    simp only [Files.privateOf, Files.seqOf, hg, (h.data_eq hdata hseq hP).1]
    exact ⟨hP, hQ.trans hdata.symm⟩
  | «opened» =>
    obtain ⟨p, q, hP, hQ, hdata, hseq, -⟩ := h.has hg
    simp only [Files.privateOf, Files.seqOf, hg, (h.data_eq hdata hseq hP).1]
    exact ⟨hP, hQ.trans hdata.symm⟩
  | releasing =>
    obtain ⟨hP, q, hQ, hdata⟩ := h.has hg
    simp only [Files.privateOf, Files.seqOf, hg]
    exact ⟨hP, hQ.trans hdata.symm⟩

/-- However the opening, using and releasing of files interleave, and whichever
    allocations fail: no memory is used or freed that is not there, an opening
    returns `0` or an error for no memory, an open file has the namespace of its
    opener, and the memory that is there is that which the files lead to, each to
    its own. With no file open, there is none left. -/
theorem opens_balanced (steps : List FileStep) :
    let s := files.state Files.init steps
    files.Along (fun t e => (t.step e).2.Fine) Files.init steps ∧
      (∀ f, s.stage f = .opened → s.step (.callback f) = (s, .found (some (s.opener f)))) ∧
      Owns s.mymounts s.privateOf ∧ Owns s.seqFiles s.seqOf ∧
      ((∀ f, s.stage f = .unused) → ∀ p, s.mymounts p = none ∧ s.seqFiles p = none) := by
  intro s
  have hstep : ∀ t e, (∃ P Q, Balanced t P Q) → Good (t.step e) :=
    fun t e ⟨P, Q, h⟩ => h.step e
  have hinit : ∃ P Q, Balanced Files.init P Q := ⟨_, _, balanced_init⟩
  obtain ⟨P, Q, h⟩ : ∃ P Q, Balanced s P Q :=
    Machine.invariant (P := fun t : Files => ∃ P Q, Balanced t P Q)
      (fun t e (_ : True) ht => (hstep t e ht).1) (fun _ _ => trivial) hinit
  obtain rfl : P = s.privateOf := funext fun f => (h.eq_of f).1
  obtain rfl : Q = s.seqOf := funext fun f => (h.eq_of f).2
  refine ⟨?_, fun f hf => h.callback_eq hf, h.mymounts, h.seqFiles, fun hnone p => ?_⟩
  · refine (Machine.along_iff (I := fun t => ∃ P Q, Balanced t P Q) (C := fun _ _ => True)
      (fun t e ht => iff_of_true (hstep t e ht).2 trivial) (fun t e ht _ => (hstep t e ht).1)
      hinit steps).2 ?_
    exact Machine.along_of_forall (fun _ _ => trivial) Files.init
  · have hmm : ∀ f, s.privateOf f = none := fun f => by rw [Files.privateOf, hnone f]
    have hseq : ∀ f, s.seqOf f = none := fun f => by rw [Files.seqOf, hnone f]
    exact ⟨h.mymounts.eq_none hmm p, h.seqFiles.eq_none hseq p⟩

/-! ## Opening a file as a whole -/

/-- The steps that open a file, with what is allocated for it. -/
def opening (f : FilePtr) (ns : NsPtr) : Option Addr → Option Addr → List FileStep
  | none, _ => [.enter f ns, .kzalloc f none]
  | some p, none => [.enter f ns, .kzalloc f (some p), .seqOpen f none, .kfree f]
  | some p, some q => [.enter f ns, .kzalloc f (some p), .seqOpen f (some q), .link f, .store f]

/-- Opened without an interruption, a file is what `mymountsOpen` makes of what
    `seq_open_private` returns, and the memory is as it was if that is an error. -/
theorem opening_alone {s : Files} {f : FilePtr} (hf : s.stage f = .unused) (w : World) (t : Task)
    {p q : Option Addr} (hp : ∀ p' ∈ p, s.mymounts p' = none)
    (hq : ∀ q' ∈ q, s.seqFiles q' = none) :
    let r := files.state s (opening f (w.mntNs t) p q)
    ∃ ret, (files.outputs s (opening f (w.mntNs t) p q)).getLast? = some (.returned ret) ∧
      match mymountsOpen w t ret with
      | .error _ => r.stage f = .unused ∧ r.mymounts = s.mymounts ∧ r.seqFiles = s.seqFiles
      | .ok (file, _) =>
        r.stage f = .opened ∧ r.step (.callback f) = (r, .found (some file.ns)) := by
  cases p with
  | none =>
    refine ⟨-ENOMEM, ?_⟩
    simp [opening, files, Files.step, Files.goTo, hf, mymountsOpen, ENOMEM]
  | some p =>
    have hp := hp p rfl
    cases q with
    | none =>
      refine ⟨-ENOMEM, ?_⟩
      simp [opening, files, Files.step, Files.goTo, Files.putData, hf, hp, mymountsOpen, ENOMEM]
    | some q =>
      have hq := hq q rfl
      refine ⟨0, ?_⟩
      simp [opening, files, Files.step, Files.goTo, Files.putData, Files.putSeq, Files.seqFile,
        Files.data, hf, hp, hq, mymountsOpen]

end LittlePenguin.Mymounts
