import LittlePenguin.Lib.Machine
import Mathlib.Data.Int.Notation
import Mathlib.Data.Int.Order.Basic
import Mathlib.Logic.Function.Basic

/-!
# Loading and unloading the modules

Four modules register something as they are loaded: a misc device
(`ex05/misc_device.c`, `ex08/fix.c`), or a file in `/proc`, for which two of them
use the same name (`ex09/my_mount.c`, `ex09/mount.c`). None looks at whether this
succeeds. As they are unloaded, the first one deregisters its device, the second
and the third leave what they have registered, and the fourth removes the file
of that name, whoever has registered it.

So what is registered belongs to modules that are loaded, and stays as long as
they are, exactly if none of the latter three is unloaded while it makes a
difference (`sound_iff`).
-/

namespace LittlePenguin.Modules

open Lib

/-- The modules that register something. -/
inductive Module
  | miscDevice
  | fix
  | myMount
  | mount
  deriving DecidableEq

/-- What an entry belongs to: one of the modules, or something else in the kernel. -/
inductive Owner
  | module (m : Module)
  | other
  deriving DecidableEq

/-- Where an entry is: in the table of misc devices, or in `/proc`. -/
inductive Key
  | misc (name : String)
  | proc (name : String)
  deriving DecidableEq

/-- The entries of both. -/
abbrev Tables := Key → Option Owner

/-- The kernel's routines for the tables. A registration may fail for reasons of
    its own, and does if the name is taken. -/
structure Registry where
  /-- `misc_register`. -/
  miscRegister : (fails : Bool) → Tables → (name : String) → Owner → ℤ × Tables
  /-- `misc_deregister`, for the device of the given owner. -/
  miscDeregister : Tables → (name : String) → Owner → Tables
  /-- `proc_create`: whether the result is not NULL. -/
  procCreate : (fails : Bool) → Tables → (name : String) → Owner → Bool × Tables
  /-- `remove_proc_entry`. -/
  removeProcEntry : Tables → (name : String) → Tables
  miscRegister_ok : ∀ t name o, t (.misc name) = none →
    miscRegister false t name o = (0, Function.update t (.misc name) (some o))
  miscRegister_error : ∀ fails t name o, fails = true ∨ t (.misc name) ≠ none →
    ∃ e < 0, miscRegister fails t name o = (e, t)
  miscDeregister_own : ∀ t name o, t (.misc name) = some o →
    miscDeregister t name o = Function.update t (.misc name) none
  /-- A device that is not registered is not looked for. -/
  miscDeregister_other : ∀ t name o, t (.misc name) ≠ some o → miscDeregister t name o = t
  procCreate_ok : ∀ t name o, t (.proc name) = none →
    procCreate false t name o = (true, Function.update t (.proc name) (some o))
  procCreate_error : ∀ fails t name o, fails = true ∨ t (.proc name) ≠ none →
    procCreate fails t name o = (false, t)
  removeProcEntry_eq : ∀ t name, removeProcEntry t name = Function.update t (.proc name) none

variable (R : Registry)

/-! ## The modules -/

/-- `ex05/misc_device.c`: the result of `misc_register` is not looked at. -/
def miscInit (fails : Bool) (t : Tables) : ℤ × Tables :=
  let (_, t) := R.miscRegister fails t "fortytwo" (.module .miscDevice)
  (0, t)

def miscCleanup (t : Tables) : Tables := R.miscDeregister t "fortytwo" (.module .miscDevice)

/-- `ex08/fix.c`: the result is kept in a variable, and not looked at. -/
def myfdInit (fails : Bool) (t : Tables) : ℤ × Tables :=
  let (_retval, t) := R.miscRegister fails t "reverse" (.module .fix)
  (1, t)

def myfdCleanup (t : Tables) : Tables := t

/-- `ex09/my_mount.c`. -/
def initMount (fails : Bool) (t : Tables) : ℤ × Tables :=
  let (_procDirEntry, t) := R.procCreate fails t "mymounts" (.module .myMount)
  (0, t)

def exitMount (t : Tables) : Tables := t

/-- `ex09/mount.c`. -/
def myMountsInit (fails : Bool) (t : Tables) : ℤ × Tables :=
  let (_, t) := R.procCreate fails t "mymounts" (.module .mount)
  (0, t)

def myMountsExit (t : Tables) : Tables := R.removeProcEntry t "mymounts"

/-- What `module_init` names. -/
def Module.init : Module → Bool → Tables → ℤ × Tables
  | miscDevice => miscInit R
  | fix => myfdInit R
  | myMount => initMount R
  | mount => myMountsInit R

/-- What `module_exit` names. -/
def Module.exit : Module → Tables → Tables
  | miscDevice => miscCleanup R
  | fix => myfdCleanup
  | myMount => exitMount
  | mount => myMountsExit R

/-- The tables, and which modules are loaded. -/
structure System where
  tables : Tables
  loaded : Module → Bool

inductive Call
  | load (m : Module) (fails : Bool)
  | unload (m : Module)

/-- A module whose init does not return an error stays loaded. -/
def system : Machine System Call Unit where
  step s c :=
    match c with
    | .load m fails =>
      if s.loaded m then (s, ())
      else
        let (r, tables) := m.init R fails s.tables
        ({ tables, loaded := Function.update s.loaded m (decide (0 ≤ r)) }, ())
    | .unload m =>
      if s.loaded m then
        ({ tables := m.exit R s.tables, loaded := Function.update s.loaded m false }, ())
      else (s, ())

/-! ## What the modules register -/

/-- Where a module has its entry. -/
def Module.key : Module → Key
  | miscDevice => .misc "fortytwo"
  | fix => .misc "reverse"
  | myMount => .proc "mymounts"
  | mount => .proc "mymounts"

variable {R}

theorem miscRegister_cases (fails : Bool) (t : Tables) (name : String) (o : Owner) :
    (R.miscRegister fails t name o).2 = t ∨
      (R.miscRegister fails t name o).2 = Function.update t (.misc name) (some o) := by
  by_cases h : fails = true ∨ t (.misc name) ≠ none
  · obtain ⟨e, _, he⟩ := R.miscRegister_error fails t name o h
    exact .inl (congrArg Prod.snd he)
  · obtain ⟨hfails, hfree⟩ := not_or.1 h
    rw [eq_false_of_ne_true hfails, R.miscRegister_ok t name o (not_not.1 hfree)]
    exact .inr rfl

theorem procCreate_cases (fails : Bool) (t : Tables) (name : String) (o : Owner) :
    (R.procCreate fails t name o).2 = t ∨
      (R.procCreate fails t name o).2 = Function.update t (.proc name) (some o) := by
  by_cases h : fails = true ∨ t (.proc name) ≠ none
  · exact .inl (congrArg Prod.snd (R.procCreate_error fails t name o h))
  · obtain ⟨hfails, hfree⟩ := not_or.1 h
    rw [eq_false_of_ne_true hfails, R.procCreate_ok t name o (not_not.1 hfree)]
    exact .inr rfl

/-- However its registration ends, a module is loaded, and all it can have added
    is its entry. -/
theorem init_cases (m : Module) (fails : Bool) (t : Tables) :
    0 ≤ (m.init R fails t).1 ∧ ((m.init R fails t).2 = t ∨
      (m.init R fails t).2 = Function.update t m.key (some (.module m))) := by
  cases m with
  | miscDevice => exact ⟨le_rfl, miscRegister_cases fails t _ _⟩
  | fix => exact ⟨Int.one_nonneg, miscRegister_cases fails t _ _⟩
  | myMount => exact ⟨le_rfl, procCreate_cases fails t _ _⟩
  | mount => exact ⟨le_rfl, procCreate_cases fails t _ _⟩

/-! ## Runs -/

/-- Every entry of a module belongs to one that is loaded. -/
def Owned (s : System) : Prop := ∀ k m, s.tables k = some (.module m) → s.loaded m = true

/-- The entries that belong to others than `m` are still there. -/
def KeepsOthers (m : Module) (t t' : Tables) : Prop :=
  ∀ k o, o ≠ .module m → t k = some o → t' k = some o

variable (R) in
/-- After the call, every entry belongs to a module that is loaded; and no entry
    has been removed by unloading a module that it does not belong to. -/
def Sound (s : System) (c : Call) : Prop :=
  let s' := ((system R).step s c).1
  Owned s' ∧ ∀ m, c = .unload m → KeepsOthers m s.tables s'.tables

/-- A module can be unloaded: one that leaves its entry has none, and the one that
    removes the entry of its name, whosever it is, finds none of another. -/
def Module.Ready (t : Tables) : Module → Prop
  | miscDevice => True
  | fix => t (.misc "reverse") ≠ some (.module .fix)
  | myMount => t (.proc "mymounts") ≠ some (.module .myMount)
  | mount => ∀ o, t (.proc "mymounts") = some o → o = .module .mount

/-- No module is unloaded that is not ready for it. -/
def Balanced (s : System) : Call → Prop
  | .load _ _ => True
  | .unload m => s.loaded m = true → m.Ready s.tables

/-- The modules loaded have their entries where they register them. -/
structure Kept (s : System) : Prop where
  owned : Owned s
  key : ∀ k m, s.tables k = some (.module m) → k = m.key

/-- Loading a module adds its entry at most. -/
theorem init_subset (m : Module) (fails : Bool) (t : Tables) (k : Key) (n : Module)
    (h : (m.init R fails t).2 k = some (.module n)) :
    t k = some (.module n) ∨ k = m.key ∧ n = m := by
  rcases (init_cases m fails t).2 with heq | heq
  · exact .inl (heq ▸ h)
  · rw [heq] at h
    by_cases hkey : k = m.key
    · rw [hkey, Function.update_self] at h
      exact .inr ⟨hkey, (Owner.module.inj (Option.some.inj h)).symm⟩
    · rw [Function.update_of_ne hkey] at h
      exact .inl h

/-- Loading a module keeps everything in its place. -/
theorem kept_load {s : System} (h : Kept s) (m : Module) (fails : Bool) :
    Kept ((system R).step s (.load m fails)).1 := by
  simp only [system]
  split_ifs with hm
  · exact h
  have hloaded : ∀ n, s.loaded n = true → Function.update s.loaded m true n = true := by
    intro n hn
    by_cases hnm : n = m
    · rw [hnm, Function.update_self]
    · rwa [Function.update_of_ne hnm]
  constructor
  · intro k n hk
    simp only [decide_eq_true (init_cases m fails s.tables).1]
    rcases init_subset m fails s.tables k n hk with hold | ⟨_, rfl⟩
    · exact hloaded n (h.owned k n hold)
    · exact Function.update_self ..
  · intro k n hk
    rcases init_subset m fails s.tables k n hk with hold | ⟨hkey, rfl⟩
    · exact h.key k n hold
    · exact hkey

/-- Unloading a module adds nothing. -/
theorem exit_subset (m : Module) (t : Tables) (k : Key) (o : Owner) (h : m.exit R t k = some o) :
    t k = some o := by
  have hupdate : ∀ k', Function.update t k' none k = some o → t k = some o := by
    intro k' hk
    by_cases hkey : k = k'
    · rw [hkey, Function.update_self] at hk
      exact absurd hk.symm (Option.some_ne_none o)
    · rwa [Function.update_of_ne hkey] at hk
  cases m with
  | miscDevice =>
    by_cases hown : t (.misc "fortytwo") = some (.module .miscDevice)
    · rw [Module.exit, miscCleanup, R.miscDeregister_own _ _ _ hown] at h
      exact hupdate _ h
    · rwa [Module.exit, miscCleanup, R.miscDeregister_other _ _ _ hown] at h
  | fix => exact h
  | myMount => exact h
  | mount =>
    rw [Module.exit, myMountsExit, R.removeProcEntry_eq] at h
    exact hupdate _ h

/-- Taking out an entry keeps those of others exactly if it is not of another. -/
theorem keepsOthers_update_iff (m : Module) (t : Tables) (k : Key) :
    KeepsOthers m t (Function.update t k none) ↔ ∀ o, t k = some o → o = .module m := by
  constructor
  · intro h o ho
    by_contra hne
    have hnone := h k o hne ho
    rw [Function.update_self] at hnone
    exact Option.some_ne_none o hnone.symm
  · intro h k' o hne hk'
    have hkey : k' ≠ k := by
      rintro rfl
      exact hne (h o hk')
    rwa [Function.update_of_ne hkey]

/-- A module is ready to be unloaded exactly if this leaves no entry of its own,
    and all those of others. -/
theorem ready_iff (m : Module) (t : Tables) :
    m.Ready t ↔ m.exit R t m.key ≠ some (.module m) ∧ KeepsOthers m t (m.exit R t) := by
  have hkeeps : KeepsOthers m t t := fun _ _ _ h => h
  have hnone : ∀ k, Function.update t k none k ≠ some (.module m) := fun k => by
    rw [Function.update_self]
    exact (Option.some_ne_none _).symm
  cases m with
  | miscDevice =>
    refine iff_of_true trivial ?_
    by_cases hown : t (.misc "fortytwo") = some (.module .miscDevice)
    · rw [Module.exit, miscCleanup, R.miscDeregister_own _ _ _ hown, keepsOthers_update_iff, hown]
      exact ⟨hnone _, fun o ho => (Option.some.inj ho).symm⟩
    · rw [Module.exit, miscCleanup, R.miscDeregister_other _ _ _ hown]
      exact ⟨hown, hkeeps⟩
  | fix => exact (and_iff_left hkeeps).symm
  | myMount => exact (and_iff_left hkeeps).symm
  | mount =>
    rw [Module.exit, myMountsExit, R.removeProcEntry_eq, keepsOthers_update_iff]
    exact (and_iff_right (hnone _)).symm

/-- Unloading a module that is ready keeps the entries of the others in their place. -/
theorem kept_unload {s : System} (h : Kept s) {m : Module} (hm : m.Ready s.tables) :
    Kept { tables := m.exit R s.tables, loaded := Function.update s.loaded m false } where
  owned k n hk := by
    have hne : n ≠ m := by
      rintro rfl
      rw [h.key k n (exit_subset n _ _ _ hk)] at hk
      exact ((ready_iff n s.tables).1 hm).1 hk
    exact (Function.update_of_ne hne _ _).trans (h.owned k n (exit_subset m _ _ _ hk))
  key k n hk := h.key k n (exit_subset m _ _ _ hk)

/-- A call that is balanced keeps everything in its place. -/
theorem kept_step {s : System} {c : Call} (h : Kept s) (hc : Balanced s c) :
    Kept ((system R).step s c).1 := by
  cases c with
  | load m fails => exact kept_load h m fails
  | unload m =>
    simp only [system]
    split_ifs with hm
    · exact kept_unload h (hc hm)
    · exact h

/-- With everything in its place, a call is sound exactly if it is balanced. -/
theorem sound_iff_of_kept {s : System} (h : Kept s) (c : Call) : Sound R s c ↔ Balanced s c := by
  refine ⟨fun hsound => ?_, fun hc => ⟨(kept_step h hc).owned, fun m hm => ?_⟩⟩
  · cases c with
    | load m fails => trivial
    | unload m =>
      intro hm
      obtain ⟨howned, hkeeps⟩ := hsound
      simp only [system, if_pos hm] at howned hkeeps
      refine (ready_iff (R := R) m s.tables).2 ⟨fun hown => ?_, hkeeps m rfl⟩
      have hloaded : Function.update s.loaded m false m = true := howned _ m hown
      rw [Function.update_self] at hloaded
      exact Bool.false_ne_true hloaded
  · subst hm
    simp only [system]
    split_ifs with hm
    · exact ((ready_iff m s.tables).1 (hc hm)).2
    · exact fun _ _ _ hk => hk

/-- In every run from tables without entries of the modules, with whatever
    registrations failing: what is registered belongs to modules that are loaded, and
    no module removes what belongs to another, exactly if every unloading is balanced. -/
theorem sound_iff (R : Registry) (t : Tables) (ht : ∀ k m, t k ≠ some (.module m))
    (calls : List Call) :
    (system R).Along (Sound R) ⟨t, fun _ => false⟩ calls ↔
      (system R).Along Balanced ⟨t, fun _ => false⟩ calls := by
  refine Machine.along_iff (I := Kept) (fun s c h => sound_iff_of_kept h c)
    (fun s c h hc => kept_step h hc) ?_ calls
  exact ⟨fun k m hk => absurd hk (ht k m), fun k m hk => absurd hk (ht k m)⟩

/-- Routines that do just what is documented; what fails is `-EEXIST`. -/
def Registry.reference : Registry where
  miscRegister fails t name o :=
    if fails = true ∨ t (.misc name) ≠ none then (-17, t)
    else (0, Function.update t (.misc name) (some o))
  miscDeregister t name o :=
    if t (.misc name) = some o then Function.update t (.misc name) none else t
  procCreate fails t name o :=
    if fails = true ∨ t (.proc name) ≠ none then (false, t)
    else (true, Function.update t (.proc name) (some o))
  removeProcEntry t name := Function.update t (.proc name) none
  miscRegister_ok _ _ _ h := if_neg (by simp [h])
  miscRegister_error _ _ _ _ h := ⟨-17, by decide, if_pos h⟩
  miscDeregister_own _ _ _ h := if_pos h
  miscDeregister_other _ _ _ h := if_neg h
  procCreate_ok _ _ _ h := if_neg (by simp [h])
  procCreate_error _ _ _ _ h := if_pos h
  removeProcEntry_eq _ _ := rfl

/-- The misc device can be loaded and unloaded. -/
theorem sound_miscDevice :
    (system .reference).Along (Sound .reference) ⟨fun _ => none, fun _ => false⟩
      [.load .miscDevice false, .unload .miscDevice] :=
  (sound_iff .reference (fun _ => none) (fun _ _ h => absurd h.symm (Option.some_ne_none _))
    [.load .miscDevice false, .unload .miscDevice]).2 ⟨trivial, fun _ => trivial, trivial⟩

/-- The device `reverse` stays when its module is unloaded. -/
theorem fix_not_sound :
    ¬∀ (t : Tables), (∀ k m, t k ≠ some (.module m)) → ∀ calls : List Call,
      (system .reference).Along (Sound .reference) ⟨t, fun _ => false⟩ calls := by
  intro hall
  obtain ⟨_, hsound, _⟩ := hall (fun _ => none) (fun _ _ h => absurd h.symm (Option.some_ne_none _))
    [.load .fix false, .unload .fix]
  exact absurd (hsound.1 (.misc "reverse") .fix (by decide)) (by decide)

end LittlePenguin.Modules
