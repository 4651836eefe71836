import Mathlib.Data.List.Basic

/-!
# Machines answering calls

A program that is called again and again, one whole call at a time, is a
machine (`Machine`): at every call it moves to a next state and gives an
output. A run is a list of calls; it ends in a state (`Machine.state`) and
yields one output for each call (`Machine.outputs`).

* `Machine.invariant`: what every admissible call preserves holds along a run.
* `Machine.related`: what relates the states of two machines and is kept by
  every admissible call relates them along a run.
* `Machine.Simulates.outputs_eq`: two machines whose states stay related,
  giving the same output at every call, cannot be told apart.
* `Machine.trace_filter`: calls that change nothing can be erased from a run,
  whose trace (`Machine.trace`) is then the same without them.
* `Machine.along_iff`: what holds of a call exactly under a condition holds
  along a run exactly if all its calls meet the condition (`Machine.Along`).
-/

namespace Lib

/-- A machine with the states `σ`, answering calls in `ι` with outputs in `ο`. -/
structure Machine (σ ι ο : Type*) where
  /-- The next state, and the output of the call. -/
  step : σ → ι → σ × ο

namespace Machine

variable {σ τ ι ο : Type*} (m : Machine σ ι ο)

/-- The state a run from `s` ends in. -/
def state : σ → List ι → σ
  | s, [] => s
  | s, c :: cs => state (m.step s c).1 cs

/-- The outputs of a run from `s`, one for each call. -/
def outputs : σ → List ι → List ο
  | _, [] => []
  | s, c :: cs => (m.step s c).2 :: outputs (m.step s c).1 cs

@[simp] theorem state_nil (s : σ) : m.state s [] = s := rfl
@[simp] theorem state_cons (s : σ) (c : ι) (cs : List ι) :
    m.state s (c :: cs) = m.state (m.step s c).1 cs := rfl

@[simp] theorem outputs_nil (s : σ) : m.outputs s [] = [] := rfl
@[simp] theorem outputs_cons (s : σ) (c : ι) (cs : List ι) :
    m.outputs s (c :: cs) = (m.step s c).2 :: m.outputs (m.step s c).1 cs := rfl

/-- The calls of a run, with their outputs. -/
def trace (s : σ) (cs : List ι) : List (ι × ο) := cs.zip (m.outputs s cs)

@[simp] theorem trace_nil (s : σ) : m.trace s [] = [] := rfl
@[simp] theorem trace_cons (s : σ) (c : ι) (cs : List ι) :
    m.trace s (c :: cs) = (c, (m.step s c).2) :: m.trace (m.step s c).1 cs := rfl

theorem state_append (s : σ) (cs ds : List ι) :
    m.state s (cs ++ ds) = m.state (m.state s cs) ds := by
  induction cs generalizing s with
  | nil => rfl
  | cons c cs ih => rw [List.cons_append, state_cons, ih, state_cons]

theorem outputs_append (s : σ) (cs ds : List ι) :
    m.outputs s (cs ++ ds) = m.outputs s cs ++ m.outputs (m.state s cs) ds := by
  induction cs generalizing s with
  | nil => rfl
  | cons c cs ih =>
    rw [List.cons_append, outputs_cons, ih, outputs_cons, state_cons, List.cons_append]

variable {m} {ok : ι → Prop}

/-- What every admissible call preserves holds along a run of such calls. -/
theorem invariant {P : σ → Prop} (step : ∀ s c, ok c → P s → P (m.step s c).1) {s : σ}
    {cs : List ι} (hok : ∀ c ∈ cs, ok c) (hs : P s) : P (m.state s cs) := by
  induction cs generalizing s with
  | nil => exact hs
  | cons c cs ih =>
    exact ih (fun d hd => hok d (List.mem_cons_of_mem _ hd))
      (step s c (hok c List.mem_cons_self) hs)

/-- What holds of every admissible call and its output holds along a run of such calls. -/
theorem forall_mem_trace {P : ι × ο → Prop} (step : ∀ s c, ok c → P (c, (m.step s c).2)) {s : σ}
    {cs : List ι} (hok : ∀ c ∈ cs, ok c) : ∀ e ∈ m.trace s cs, P e := by
  induction cs generalizing s with
  | nil => exact fun _ he => absurd he List.not_mem_nil
  | cons c cs ih =>
    rw [trace_cons]
    exact List.forall_mem_cons.2 ⟨step s c (hok c List.mem_cons_self),
      ih fun d hd => hok d (List.mem_cons_of_mem _ hd)⟩

/-- If the calls that are not kept change nothing, the run of those that are
    has the same trace without them, and ends in the same state. -/
theorem trace_filter {p : ι × ο → Bool}
    (idle : ∀ s c, ok c → p (c, (m.step s c).2) = false → (m.step s c).1 = s) {s : σ}
    {cs : List ι} (hok : ∀ c ∈ cs, ok c) :
    m.trace s (((m.trace s cs).filter p).map Prod.fst) = (m.trace s cs).filter p ∧
      m.state s (((m.trace s cs).filter p).map Prod.fst) = m.state s cs := by
  induction cs generalizing s with
  | nil => exact ⟨rfl, rfl⟩
  | cons c cs ih =>
    obtain ⟨htrace, hstate⟩ := @ih (m.step s c).1 fun d hd => hok d (List.mem_cons_of_mem _ hd)
    rw [trace_cons, state_cons]
    by_cases hkeep : p (c, (m.step s c).2) = true
    · rw [List.filter_cons_of_pos hkeep, List.map_cons, trace_cons, state_cons]
      exact ⟨congrArg _ htrace, hstate⟩
    · have hidle := idle s c (hok c List.mem_cons_self) (eq_false_of_ne_true hkeep)
      rw [List.filter_cons_of_neg hkeep]
      rw [hidle] at htrace hstate ⊢
      exact ⟨htrace, hstate⟩

variable (m) in
/-- `P` holds of every call of a run, in the state that the call finds. -/
def Along (P : σ → ι → Prop) : σ → List ι → Prop
  | _, [] => True
  | s, c :: cs => P s c ∧ Along P (m.step s c).1 cs

instance Along.decidable (P : σ → ι → Prop) [∀ s c, Decidable (P s c)] :
    ∀ s cs, Decidable (m.Along P s cs)
  | _, [] => isTrue trivial
  | s, c :: cs =>
    have : Decidable (m.Along P (m.step s c).1 cs) := Along.decidable P _ cs
    inferInstanceAs (Decidable (P s c ∧ m.Along P (m.step s c).1 cs))

/-- If, in the states satisfying `I`, `P` holds of a call exactly under the
    condition `C`, and a call meeting it leads to such a state again, then `P`
    holds along a run exactly if `C` does. -/
theorem along_iff {I : σ → Prop} {P C : σ → ι → Prop} (iff : ∀ s c, I s → (P s c ↔ C s c))
    (step : ∀ s c, I s → C s c → I (m.step s c).1) {s : σ} (hs : I s) (cs : List ι) :
    m.Along P s cs ↔ m.Along C s cs := by
  induction cs generalizing s with
  | nil => exact Iff.rfl
  | cons c cs ih =>
    rw [Along, Along, iff s c hs]
    exact and_congr_right fun hc => ih (step s c hs hc)

/-- What every call preserves of which `P` holds, holds at the end of a run along
    which `P` does. -/
theorem Along.invariant {P : σ → ι → Prop} {I : σ → Prop}
    (step : ∀ s c, P s c → I s → I (m.step s c).1) {s : σ} {cs : List ι} (h : m.Along P s cs)
    (hs : I s) : I (m.state s cs) := by
  induction cs generalizing s with
  | nil => exact hs
  | cons c cs ih => exact ih h.2 (step s c h.1 hs)

/-- What holds along a run holds along it together. -/
theorem Along.and {P Q : σ → ι → Prop} {s : σ} {cs : List ι} (h : m.Along P s cs)
    (h' : m.Along Q s cs) : m.Along (fun s c => P s c ∧ Q s c) s cs := by
  induction cs generalizing s with
  | nil => trivial
  | cons c cs ih => exact ⟨⟨h.1, h'.1⟩, ih h.2 h'.2⟩

/-- What every call of a list satisfies holds along its run. -/
theorem along_of_forall {p : ι → Prop} {cs : List ι} (h : ∀ c ∈ cs, p c) (s : σ) :
    m.Along (fun _ c => p c) s cs := by
  induction cs generalizing s with
  | nil => trivial
  | cons c cs ih =>
    exact ⟨h c List.mem_cons_self, ih (fun d hd => h d (List.mem_cons_of_mem _ hd)) _⟩

variable {m' : Machine τ ι ο} {R : σ → τ → Prop}

/-- A relation that every admissible call keeps is kept along a run of such calls. -/
theorem related (step : ∀ s t c, ok c → R s t → R (m.step s c).1 (m'.step t c).1) {s : σ} {t : τ}
    {cs : List ι} (hok : ∀ c ∈ cs, ok c) (hst : R s t) : R (m.state s cs) (m'.state t cs) := by
  induction cs generalizing s t with
  | nil => exact hst
  | cons c cs ih =>
    exact ih (fun d hd => hok d (List.mem_cons_of_mem _ hd))
      (step s t c (hok c List.mem_cons_self) hst)

/-- The states of `m` and `m'` stay related by `R` at admissible calls, which
    the two machines answer alike. -/
structure Simulates (m : Machine σ ι ο) (m' : Machine τ ι ο) (ok : ι → Prop)
    (R : σ → τ → Prop) : Prop where
  output : ∀ {s t c}, R s t → ok c → (m.step s c).2 = (m'.step t c).2
  state : ∀ {s t c}, R s t → ok c → R (m.step s c).1 (m'.step t c).1

/-- From related states, the two machines end in related states. -/
theorem Simulates.related (h : m.Simulates m' ok R) {s : σ} {t : τ} (hst : R s t) {cs : List ι}
    (hok : ∀ c ∈ cs, ok c) : R (m.state s cs) (m'.state t cs) :=
  Machine.related (fun _ _ _ hc hst => h.state hst hc) hok hst

/-- From related states, the two machines give the same outputs. -/
theorem Simulates.outputs_eq (h : m.Simulates m' ok R) {s : σ} {t : τ} (hst : R s t)
    {cs : List ι} (hok : ∀ c ∈ cs, ok c) : m.outputs s cs = m'.outputs t cs := by
  induction cs generalizing s t with
  | nil => rfl
  | cons c cs ih =>
    have hc := hok c List.mem_cons_self
    rw [outputs_cons, outputs_cons, h.output hst hc,
      ih (h.state hst hc) fun d hd => hok d (List.mem_cons_of_mem _ hd)]

end Machine

end Lib
