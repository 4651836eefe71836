import LittlePenguin.Modules
import Mathlib.Data.Finset.Basic

/-!
# Open files of the modules

What the modules register is there to be opened, and a file that is open leads
into the module: to its table of operations, and to the code of these. Three
things may keep the module from being unloaded under it.

* `ex08/fix.c` names itself as the owner of its operations, so that an open file
  holds a reference on the module, which cannot be unloaded meanwhile.
* For `/proc`, the kernel sees to it: with its entry, an open file is cut off
  from the module.
* For `ex05/misc_device.c`, which names no owner, nothing does.

A module may be loaded again, at another place: what counts is which time of
loading it something belongs to. Everything open or registered belongs to
modules as they are loaded exactly if the misc device is not unloaded with a
file open, and neither of the two modules that leave their entries is unloaded
with its entry; and then nothing is used that has been unloaded
(`attached_iff`).
-/

namespace LittlePenguin.Modules

open Lib

/-- The address of a `struct file`. -/
abbrev FilePtr := ℕ

/-- The operations have `.owner = THIS_MODULE`. -/
def Module.owner : Module → Bool
  | fix => true
  | miscDevice => false
  -- A `struct proc_ops` has no owner.
  | myMount => false
  | mount => false

/-- The entry of the module is in `/proc`. -/
def Module.inProc : Module → Bool
  | miscDevice => false
  | fix => false
  | myMount => true
  | mount => true

/-- An open file. -/
structure OpenFile where
  /-- The module whose operations it has. -/
  module : Module
  /-- Which time it had been loaded. -/
  load : ℕ
  /-- The entry in `/proc` has been removed. -/
  cut : Bool

/-- The modules, and the files that are open. -/
structure Running where
  system : System
  /-- The number of the last loading. -/
  last : ℕ
  /-- Which time a module has been loaded, if it is. -/
  load : Module → Option ℕ
  /-- The loading that an entry belongs to. -/
  entry : Key → ℕ
  files : FilePtr → Option OpenFile
  /-- The files that hold a reference on a module. -/
  pins : Module → Finset FilePtr

inductive Use
  | load (m : Module) (fails : Bool)
  | unload (m : Module)
  | open (f : FilePtr) (k : Key)
  /-- One of the operations of the file is called. -/
  | call (f : FilePtr)
  | close (f : FilePtr)

inductive UseOut
  | refused
  | done
  /-- A module is used that has been unloaded. -/
  | fault
  deriving DecidableEq

variable (R : Registry)

namespace Running

/-- Nothing is loaded. -/
def init (t : Tables) : Running :=
  ⟨⟨t, fun _ => false⟩, 0, fun _ => none, fun _ => 0, fun _ => none, fun _ => ∅⟩

variable (s : Running)

/-- A module is loaded. What is new in the tables belongs to this loading. -/
def loading (m : Module) (fails : Bool) : Running :=
  let system := ((Modules.system R).step s.system (.load m fails)).1
  { s with
    system
    last := s.last + 1
    load := Function.update s.load m (if system.loaded m then some (s.last + 1) else none)
    entry := fun k => if s.system.tables k = none then s.last + 1 else s.entry k }

/-- A module is unloaded. The files are cut off whose entry in `/proc` is gone. -/
def unloading (m : Module) : Running :=
  let system := ((Modules.system R).step s.system (.unload m)).1
  { s with
    system
    load := Function.update s.load m none
    files := fun f => (s.files f).map fun o =>
      if o.module.inProc ∧ system.tables o.module.key = none then { o with cut := true } else o }

/-- The file can be used: its module is still loaded, or it is cut off from it. -/
def Attached (o : OpenFile) : Prop := o.cut = false → s.load o.module = some o.load

instance (o : OpenFile) : Decidable (s.Attached o) :=
  inferInstanceAs (Decidable (o.cut = false → s.load o.module = some o.load))

end Running

/-- The modules in use. -/
def running : Machine Running Use UseOut where
  step s u :=
    match u with
    | .load m fails => if s.system.loaded m then (s, .refused) else (s.loading R m fails, .done)
    | .unload m =>
      if s.system.loaded m ∧ s.pins m = ∅ then (s.unloading R m, .done) else (s, .refused)
    | .open f k =>
      match s.files f, s.system.tables k with
      | none, some (.module m) =>
        -- The operations of the entry are looked at to open the file.
        if s.load m = some (s.entry k) then
          ({ s with
            files := Function.update s.files f (some ⟨m, s.entry k, false⟩)
            pins := if m.owner then Function.update s.pins m (insert f (s.pins m)) else s.pins },
            .done)
        else (s, .fault)
      | _, _ => (s, .refused)
    | .call f =>
      match s.files f with
      | none => (s, .refused)
      | some o =>
        if o.cut then (s, .refused) else if s.Attached o then (s, .done) else (s, .fault)
    | .close f =>
      match s.files f with
      | none => (s, .refused)
      | some o =>
        -- The operations are looked at for `release`.
        if s.Attached o then
          ({ s with
            files := Function.update s.files f none
            pins := Function.update s.pins o.module ((s.pins o.module).erase f) }, .done)
        else (s, .fault)

/-- What is registered and what is open belongs to modules as they are loaded. -/
structure Intact (s : Running) : Prop where
  entries : ∀ k m, s.system.tables k = some (.module m) → s.load m = some (s.entry k)
  files : ∀ f, ∀ o ∈ s.files f, s.Attached o

/-- A module can be unloaded without anything left of it. -/
def Module.Tidy (s : Running) : Module → Prop
  | miscDevice => ∀ f, ∀ o ∈ s.files f, o.module ≠ .miscDevice
  | fix => s.system.tables (.misc "reverse") ≠ some (.module .fix)
  | myMount => s.system.tables (.proc "mymounts") ≠ some (.module .myMount)
  | mount => True

/-- No module is unloaded that leaves something behind. -/
def Tidy (s : Running) : Use → Prop
  | .unload m => s.system.loaded m = true → s.pins m = ∅ → m.Tidy s
  | _ => True

/-! ## The tables -/

section

variable {R} {m : Module} {t : Tables}

/-- Loading a module overwrites no entry. -/
theorem init_keeps (m : Module) (fails : Bool) {k : Key} {o : Owner} (h : t k = some o) :
    (m.init R fails t).2 k = some o := by
  have hmisc : ∀ name, (R.miscRegister fails t name (.module m)).2 k = some o := by
    intro name
    rcases miscRegister_cases (R := R) fails t name (.module m) with heq | heq
    · rwa [heq]
    · by_cases hk : k = .misc name
      · subst hk
        obtain ⟨e, -, he⟩ := R.miscRegister_error fails t name (.module m)
          (.inr fun hnone => Option.some_ne_none o (h.symm.trans hnone))
        rwa [he]
      · rwa [heq, Function.update_of_ne hk]
  have hproc : ∀ name, (R.procCreate fails t name (.module m)).2 k = some o := by
    intro name
    rcases procCreate_cases (R := R) fails t name (.module m) with heq | heq
    · rwa [heq]
    · by_cases hk : k = .proc name
      · subst hk
        rwa [R.procCreate_error fails t name (.module m)
          (.inr fun hnone => Option.some_ne_none o (h.symm.trans hnone))]
      · rwa [heq, Function.update_of_ne hk]
  cases m with
  | miscDevice => exact hmisc _
  | fix => exact hmisc _
  | myMount => exact hproc _
  | mount => exact hproc _

/-- Unloading a module that cleans up leaves no entry of it. -/
theorem exit_own (hfix : m = .fix → t m.key ≠ some (.module .fix))
    (hmyMount : m = .myMount → t m.key ≠ some (.module .myMount)) :
    m.exit R t m.key ≠ some (.module m) := by
  cases m with
  | miscDevice => exact ((ready_iff (R := R) .miscDevice t).1 trivial).1
  | fix => exact hfix rfl
  | myMount => exact hmyMount rfl
  | mount =>
    rw [Module.exit, myMountsExit, R.removeProcEntry_eq]
    exact fun h => Option.some_ne_none _ (h.symm.trans (Function.update_self ..))

end

/-! ## The steps -/

/-- What is registered and open belongs to modules as they are loaded; and what
    keeps the open files of a module from harm is in place. -/
structure Sane (s : Running) : Prop where
  intact : Intact s
  loaded : ∀ m, s.system.loaded m = true ↔ s.load m ≠ none
  key : ∀ k m, s.system.tables k = some (.module m) → k = m.key
  pinned : ∀ f, ∀ o ∈ s.files f, o.module.owner = true → f ∈ s.pins o.module
  proc : ∀ f, ∀ o ∈ s.files f, o.module.inProc = true → o.cut = false →
    s.system.tables o.module.key = some (.module o.module)
  cut : ∀ f, ∀ o ∈ s.files f, o.cut = true → o.module.inProc = true

variable {R} {s : Running} {m : Module}

theorem system_loading (hm : ¬s.system.loaded m = true) (fails : Bool) :
    (s.loading R m fails).system = ⟨(m.init R fails s.system.tables).2,
      Function.update s.system.loaded m true⟩ ∧
      (s.loading R m fails).load = Function.update s.load m (some (s.last + 1)) := by
  have hok := decide_eq_true (init_cases (R := R) m fails s.system.tables).1
  simp only [Running.loading, system, if_neg hm, hok, Function.update_self, if_true, and_self]

theorem system_unloading (hm : s.system.loaded m = true) :
    (s.unloading R m).system =
      ⟨m.exit R s.system.tables, Function.update s.system.loaded m false⟩ := by
  simp only [Running.unloading, system, if_pos hm]

namespace Sane

theorem init {t : Tables} (ht : ∀ k m, t k ≠ some (.module m)) : Sane (Running.init t) where
  intact := ⟨fun k m h => absurd h (ht k m), fun _ _ h => absurd h.symm (Option.some_ne_none _)⟩
  loaded _ := iff_of_false Bool.false_ne_true fun h => h rfl
  key k m h := absurd h (ht k m)
  pinned _ _ h := absurd h.symm (Option.some_ne_none _)
  proc _ _ h := absurd h.symm (Option.some_ne_none _)
  cut _ _ h := absurd h.symm (Option.some_ne_none _)

variable (h : Sane s)

include h

/-- Nothing that is registered or open belongs to a module that is not loaded. -/
theorem load_eq_none (hm : ¬s.system.loaded m = true) : s.load m = none := by
  by_contra hne
  exact hm ((h.loaded m).2 hne)

theorem loading (hm : ¬s.system.loaded m = true) (fails : Bool) : Sane (s.loading R m fails) := by
  obtain ⟨hsystem, hload⟩ := system_loading (R := R) hm fails
  have hnone := h.load_eq_none hm
  have hother : ∀ n, s.load n ≠ none → (s.loading R m fails).load n = s.load n := by
    intro n hn
    rw [hload, Function.update_of_ne]
    rintro rfl
    exact hn hnone
  constructor
  · constructor
    · intro k n hk
      rw [hsystem] at hk
      by_cases hfree : s.system.tables k = none
      · -- The entry is new, and of the module as it is loaded now.
        rcases init_subset m fails s.system.tables k n hk with hold | ⟨-, rfl⟩
        · exact absurd (hfree.symm.trans hold).symm (Option.some_ne_none _)
        · rw [hload, Function.update_self]
          exact congrArg some (if_pos hfree).symm
      · obtain ⟨o, ho⟩ := Option.ne_none_iff_exists'.1 hfree
        obtain rfl : o = .module n := Option.some.inj ((init_keeps m fails ho).symm.trans hk)
        have hentry := h.intact.entries k n ho
        rw [hother n (by rw [hentry]; exact Option.some_ne_none _), hentry]
        exact congrArg some (if_neg hfree).symm
    · intro f o ho hcut
      have hattached := h.intact.files f o ho hcut
      rw [hother o.module (by rw [hattached]; exact Option.some_ne_none _), hattached]
  · intro n
    rw [hsystem, hload]
    by_cases hn : n = m
    · subst hn
      simp only [Function.update_self, ne_eq, reduceCtorEq, not_false_eq_true]
    · simp only [Function.update_of_ne hn]
      exact h.loaded n
  · intro k n hk
    rw [hsystem] at hk
    rcases init_subset m fails s.system.tables k n hk with hold | ⟨hkey, rfl⟩
    · exact h.key k n hold
    · exact hkey
  · exact h.pinned
  · intro f o ho hproc hcut
    rw [hsystem]
    exact init_keeps m fails (h.proc f o ho hproc hcut)
  · exact h.cut

/-- A file that is open when its module is tidily unloaded is cut off. -/
theorem ne_of_unloading (hm : s.system.loaded m = true) (hpins : s.pins m = ∅) (ht : m.Tidy s)
    {f : FilePtr} {o : OpenFile} (ho : o ∈ s.files f) (hcut : o.cut = false)
    (hkeeps : o.module.inProc = true → m.exit R s.system.tables o.module.key ≠ none) :
    o.module ≠ m := by
  rintro rfl
  cases hmodule : o.module with
  | miscDevice =>
    rw [hmodule] at ht
    exact ht f o ho hmodule
  | fix =>
    have hpin := h.pinned f o ho (by rw [hmodule]; rfl)
    rw [hpins] at hpin
    exact Finset.notMem_empty f hpin
  | myMount =>
    have hentry := h.proc f o ho (by rw [hmodule]; rfl) hcut
    rw [hmodule] at ht hentry
    exact ht hentry
  | mount =>
    have hgone := hkeeps (by rw [hmodule]; rfl)
    rw [hmodule] at hgone
    refine hgone ?_
    rw [Module.exit, myMountsExit, R.removeProcEntry_eq]
    exact Function.update_self ..

/-- The files that are open after a module has been unloaded. -/
theorem mem_unloading {f : FilePtr} {o : OpenFile} (hm : s.system.loaded m = true)
    (ho : o ∈ (s.unloading R m).files f) : ∃ o' ∈ s.files f, o.module = o'.module ∧
      o.load = o'.load ∧ (o.cut = true → o'.module.inProc = true) ∧
      (o.cut = false → o'.cut = false ∧
        (o'.module.inProc = true → m.exit R s.system.tables o'.module.key ≠ none)) := by
  obtain ⟨o', ho', heq⟩ := Option.map_eq_some_iff.1 ho
  refine ⟨o', ho', ?_⟩
  have htables : ((system R).step s.system (.unload m)).1.tables = m.exit R s.system.tables :=
    congrArg System.tables (system_unloading (R := R) hm)
  rw [htables] at heq
  split_ifs at heq with hgone
  · subst heq
    exact ⟨rfl, rfl, fun _ => hgone.1, fun hcut => absurd hcut Bool.true_eq_false.mp⟩
  · subst heq
    exact ⟨rfl, rfl, h.cut f o' ho', fun hcut => ⟨hcut, fun hproc hnone => hgone ⟨hproc, hnone⟩⟩⟩

theorem unloading (hm : s.system.loaded m = true) (hpins : s.pins m = ∅) (ht : m.Tidy s) :
    Sane (s.unloading R m) := by
  have hsystem := system_unloading (R := R) hm
  have hown : m.exit R s.system.tables m.key ≠ some (.module m) :=
    exit_own (fun hfix => by subst hfix; exact ht) (fun hmy => by subst hmy; exact ht)
  have hsubset := exit_subset (R := R) m s.system.tables
  constructor
  · constructor
    · intro k n hk
      rw [hsystem] at hk
      have hold := hsubset k _ hk
      have hne : n ≠ m := by
        rintro rfl
        rw [h.key k n hold] at hk
        exact hown hk
      exact (Function.update_of_ne hne ..).trans (h.intact.entries k n hold)
    · intro f o ho hcut
      obtain ⟨o', ho', hmodule, hload, -, huncut⟩ := h.mem_unloading hm ho
      obtain ⟨hcut', hkeeps⟩ := huncut hcut
      have hne := h.ne_of_unloading hm hpins ht ho' hcut' hkeeps
      rw [hmodule, hload]
      exact (Function.update_of_ne hne ..).trans (h.intact.files f o' ho' hcut')
  · intro n
    rw [hsystem]
    by_cases hn : n = m
    · subst hn
      simp only [Running.unloading, Function.update_self, ne_eq, not_true_eq_false,
        Bool.false_eq_true]
    · simp only [Running.unloading, Function.update_of_ne hn]
      exact h.loaded n
  · intro k n hk
    rw [hsystem] at hk
    exact h.key k n (hsubset k _ hk)
  · intro f o ho howner
    obtain ⟨o', ho', hmodule, -⟩ := h.mem_unloading hm ho
    rw [hmodule] at howner ⊢
    exact h.pinned f o' ho' howner
  · intro f o ho hproc hcut
    obtain ⟨o', ho', hmodule, -, -, huncut⟩ := h.mem_unloading hm ho
    obtain ⟨hcut', hkeeps⟩ := huncut hcut
    rw [hmodule] at hproc ⊢
    rw [hsystem]
    -- What is still there is what was there.
    obtain ⟨x, hx⟩ := Option.ne_none_iff_exists'.1 (hkeeps hproc)
    have hsame := (hsubset _ x hx).symm.trans (h.proc f o' ho' hproc hcut')
    exact hx.trans hsame
  · intro f o ho hcut
    obtain ⟨o', -, hmodule, -, hinproc, -⟩ := h.mem_unloading hm ho
    rw [hmodule]
    exact hinproc hcut

/-- A module that is not tidily unloaded leaves something behind. -/
theorem tidy_of_intact (hm : s.system.loaded m = true) (hi : Intact (s.unloading R m)) :
    m.Tidy s := by
  have hnone : (s.unloading R m).load m = none := Function.update_self ..
  have hentry : ∀ k, (s.unloading R m).system.tables k ≠ some (.module m) := fun k hk =>
    Option.some_ne_none _ ((hi.entries k m hk).symm.trans hnone)
  rw [system_unloading hm] at hentry
  cases m with
  | miscDevice =>
    intro f o ho hmodule
    have hinproc : o.module.inProc = false := by rw [hmodule]; rfl
    have hcut : o.cut = false := by
      by_contra hcut
      rw [h.cut f o ho (eq_true_of_ne_false hcut)] at hinproc
      exact Bool.true_eq_false.mp hinproc
    have hfile : (s.unloading R .miscDevice).files f = some o := by
      simp only [Running.unloading, Option.mem_def.1 ho, Option.map_some, hinproc,
        Bool.false_eq_true, false_and, if_false]
    have hattached := hi.files f o hfile hcut
    rw [hmodule, hnone] at hattached
    exact Option.some_ne_none _ hattached.symm
  | fix => exact hentry _
  | myMount => exact hentry _
  | mount => trivial

/-- An entry is opened. -/
theorem opening {f : FilePtr} {k : Key} (hf : s.files f = none)
    (hk : s.system.tables k = some (.module m)) :
    Sane { s with
      files := Function.update s.files f (some ⟨m, s.entry k, false⟩)
      pins := if m.owner then Function.update s.pins m (insert f (s.pins m)) else s.pins } := by
  -- The file is the new one, or another one that was open before.
  have hcases : ∀ g, ∀ o ∈ Function.update s.files f (some ⟨m, s.entry k, false⟩) g,
      g = f ∧ o = ⟨m, s.entry k, false⟩ ∨ g ≠ f ∧ o ∈ s.files g := by
    intro g o ho
    by_cases hg : g = f
    · rw [hg, Function.update_self] at ho
      exact .inl ⟨hg, (Option.some.inj ho).symm⟩
    · rw [Function.update_of_ne hg] at ho
      exact .inr ⟨hg, ho⟩
  constructor
  · refine ⟨h.intact.entries, fun g o ho => ?_⟩
    rcases hcases g o ho with ⟨rfl, rfl⟩ | ⟨-, ho⟩
    · exact fun _ => h.intact.entries k m hk
    · exact h.intact.files g o ho
  · exact h.loaded
  · exact h.key
  · intro g o ho howner
    rcases hcases g o ho with ⟨rfl, rfl⟩ | ⟨-, ho⟩
    · simp only [if_pos howner, Function.update_self]
      exact Finset.mem_insert_self ..
    · have hpin := h.pinned g o ho howner
      dsimp only
      split_ifs with hm
      · by_cases hmodule : o.module = m
        · rw [hmodule] at hpin
          rw [hmodule, Function.update_self]
          exact Finset.mem_insert_of_mem hpin
        · rwa [Function.update_of_ne hmodule]
      · exact hpin
  · intro g o ho hproc hcut
    rcases hcases g o ho with ⟨rfl, rfl⟩ | ⟨-, ho⟩
    · rwa [← h.key k m hk]
    · exact h.proc g o ho hproc hcut
  · intro g o ho hcut
    rcases hcases g o ho with ⟨rfl, rfl⟩ | ⟨-, ho⟩
    · exact absurd hcut Bool.false_ne_true
    · exact h.cut g o ho hcut

/-- A file is closed. -/
theorem closing {f : FilePtr} (n : Module) :
    Sane { s with
      files := Function.update s.files f none
      pins := Function.update s.pins n ((s.pins n).erase f) } := by
  have hcases : ∀ g, ∀ o ∈ Function.update s.files f none g, g ≠ f ∧ o ∈ s.files g := by
    intro g o ho
    by_cases hg : g = f
    · rw [hg, Function.update_self] at ho
      exact absurd ho.symm (Option.some_ne_none o)
    · rw [Function.update_of_ne hg] at ho
      exact ⟨hg, ho⟩
  constructor
  · exact ⟨h.intact.entries, fun g o ho => h.intact.files g o (hcases g o ho).2⟩
  · exact h.loaded
  · exact h.key
  · intro g o ho howner
    obtain ⟨hg, ho⟩ := hcases g o ho
    have hpin := h.pinned g o ho howner
    dsimp only
    by_cases hmodule : o.module = n
    · rw [hmodule] at hpin
      rw [hmodule, Function.update_self]
      exact Finset.mem_erase_of_ne_of_mem hg hpin
    · rwa [Function.update_of_ne hmodule]
  · exact fun g o ho => h.proc g o (hcases g o ho).2
  · exact fun g o ho => h.cut g o (hcases g o ho).2

/-- Every step that is tidy leaves everything sane, and uses nothing that has been unloaded. -/
theorem step {u : Use} (hu : Tidy s u) :
    Sane ((running R).step s u).1 ∧ ((running R).step s u).2 ≠ .fault := by
  cases u with
  | load m fails =>
    simp only [running]
    split_ifs with hm
    · exact ⟨h, UseOut.noConfusion⟩
    · exact ⟨h.loading hm fails, UseOut.noConfusion⟩
  | unload m =>
    simp only [running]
    split_ifs with hm
    · exact ⟨h.unloading hm.1 hm.2 (hu hm.1 hm.2), UseOut.noConfusion⟩
    · exact ⟨h, UseOut.noConfusion⟩
  | «open» f k =>
    simp only [running]
    split
    · rename_i m hf hk
      rw [if_pos (h.intact.entries k m hk)]
      exact ⟨h.opening hf hk, UseOut.noConfusion⟩
    · exact ⟨h, UseOut.noConfusion⟩
  | call f =>
    simp only [running]
    cases ho : s.files f with
    | none => exact ⟨h, UseOut.noConfusion⟩
    | some o =>
      dsimp only
      rw [if_pos (h.intact.files f o ho)]
      split_ifs
      · exact ⟨h, UseOut.noConfusion⟩
      · exact ⟨h, UseOut.noConfusion⟩
  | close f =>
    simp only [running]
    cases ho : s.files f with
    | none => exact ⟨h, UseOut.noConfusion⟩
    | some o =>
      dsimp only
      rw [if_pos (h.intact.files f o ho)]
      exact ⟨h.closing o.module, UseOut.noConfusion⟩

/-- A step leaves everything intact, and uses nothing that has been unloaded,
    exactly if it is tidy. -/
theorem intact_iff (u : Use) :
    Intact ((running R).step s u).1 ∧ ((running R).step s u).2 ≠ .fault ↔ Tidy s u := by
  refine ⟨fun hi => ?_, fun hu => ⟨(h.step hu).1.intact, (h.step hu).2⟩⟩
  cases u with
  | unload m =>
    intro hm hpins
    simp only [running, if_pos (And.intro hm hpins)] at hi
    exact h.tidy_of_intact hm hi.1
  | _ => trivial

end Sane

/-- In every run from tables without entries of the modules: what is registered
    and what is open always belongs to modules as they are loaded, and nothing is
    used that has been unloaded, exactly if the misc device is never unloaded with
    a file of it open, and `fix.c` and `my_mount.c` never with their entries
    registered. -/
theorem attached_iff (R : Registry) (t : Tables) (ht : ∀ k m, t k ≠ some (.module m))
    (uses : List Use) :
    (running R).Along (fun s u => Intact ((running R).step s u).1 ∧
        ((running R).step s u).2 ≠ .fault) (Running.init t) uses ↔
      (running R).Along Tidy (Running.init t) uses :=
  Machine.along_iff (I := Sane) (fun _ u h => h.intact_iff u) (fun _ _ h hu => (h.step hu).1)
    (Sane.init ht) uses

/-- The misc device is opened and closed, and unloaded then. -/
theorem attached_miscDevice :
    (running .reference).Along (fun s u => Intact ((running .reference).step s u).1 ∧
        ((running .reference).step s u).2 ≠ .fault) (Running.init fun _ => none)
      [.load .miscDevice false, .open 0 (.misc "fortytwo"), .close 0, .unload .miscDevice] := by
  refine (attached_iff .reference (fun _ => none)
    (fun _ _ h => absurd h.symm (Option.some_ne_none _)) _).2
    ⟨trivial, trivial, trivial, ?_, trivial⟩
  intro _ _ f o ho
  -- The only file there has been is closed.
  cases f with
  | zero => exact absurd ho.symm (Option.some_ne_none o)
  | succ f => exact absurd ho.symm (Option.some_ne_none o)

/-- Unloaded with a file open, it is used by a read of this file. -/
example :
    (running .reference).outputs (Running.init fun _ => none)
      [.load .miscDevice false, .open 0 (.misc "fortytwo"), .unload .miscDevice, .call 0] =
      [.done, .done, .done, .fault] := by
  decide

end LittlePenguin.Modules
