import Mathlib.Logic.Relation

/-!
# Labelled machines and their runs

The vocabulary every protocol model below is written in. A machine is a set of
initial states and a partial step function on labels: a label on which `step`
returns `none` is not enabled in that state. Runs are kept relative to a side
condition `ok` on the steps taken, so that the same machine can be studied over
all of its runs (`ok` always true) and over the runs of a better behaved
environment.

* `Machine.StepBy`, `Machine.Reaches`, `Machine.ReachableBy` are the model layer;
* `Machine.runBy` is the execution layer, and `runBy_reaches` connects the two;
* `invariant_by` and `stable_by` are the only induction rules the models use.
-/

namespace Sys

universe u v

/-- A machine: initial states and a partial step function on labels. -/
structure Machine (σ : Type u) (ι : Type v) where
  Init : σ → Prop
  step : σ → ι → Option σ

variable {σ : Type u} {ι : Type v}

namespace Machine

variable (M : Machine σ ι)

/-! ## Model layer -/

/-- One step whose label meets `ok` in the state it is taken from. -/
def StepBy (ok : σ → ι → Prop) (s s' : σ) : Prop :=
  ∃ l, ok s l ∧ M.step s l = some s'

/-- Finitely many steps that all meet `ok`. -/
def Reaches (ok : σ → ι → Prop) : σ → σ → Prop :=
  Relation.ReflTransGen (M.StepBy ok)

/-- States of the runs whose steps all meet `ok`. -/
def ReachableBy (ok : σ → ι → Prop) (s : σ) : Prop :=
  ∃ s₀, M.Init s₀ ∧ M.Reaches ok s₀ s

/-- The condition met by every step. -/
def anyStep : σ → ι → Prop := fun _ _ => True

/-- States of the runs of the unrestricted machine. -/
def Reachable (s : σ) : Prop := M.ReachableBy anyStep s

instance (s : σ) (l : ι) : Decidable (anyStep s l) := inferInstanceAs (Decidable True)

variable {M} {ok ok' : σ → ι → Prop}

theorem Reaches.tail {s t t' : σ} {l : ι} (h : M.Reaches ok s t) (hok : ok t l)
    (hstep : M.step t l = some t') : M.Reaches ok s t' :=
  Relation.ReflTransGen.tail h ⟨l, hok, hstep⟩

/-- A weaker condition reaches more states. -/
theorem ReachableBy.mono (hsub : ∀ s l, ok s l → ok' s l) {s : σ}
    (h : M.ReachableBy ok s) : M.ReachableBy ok' s := by
  obtain ⟨s₀, hs₀, hrun⟩ := h
  refine ⟨s₀, hs₀, Relation.ReflTransGen.mono ?_ _ _ hrun⟩
  rintro a b ⟨l, hl, hstep⟩
  exact ⟨l, hsub a l hl, hstep⟩

/-! ## Induction rules -/

/-- A predicate kept by every step that meets `ok` is kept by every run of them. -/
theorem stable_by (P : σ → Prop)
    (hstep : ∀ s l s', ok s l → M.step s l = some s' → P s → P s')
    {s t : σ} (hrun : M.Reaches ok s t) (hs : P s) : P t := by
  induction hrun with
  | refl => exact hs
  | tail _ hlast ih =>
      obtain ⟨l, hl, hst⟩ := hlast
      exact hstep _ l _ hl hst ih

/-- Invariant induction over the runs whose steps all meet `ok`. -/
theorem invariant_by (inv : σ → Prop)
    (hinit : ∀ s, M.Init s → inv s)
    (hstep : ∀ s l s', ok s l → M.step s l = some s' → inv s → inv s')
    {s : σ} (h : M.ReachableBy ok s) : inv s := by
  obtain ⟨s₀, hs₀, hrun⟩ := h
  exact stable_by inv hstep hrun (hinit s₀ hs₀)

/-! ## Execution layer -/

variable (M) in
/-- Execute a list of labels, stopping with `none` at the first one that is not
enabled or does not meet `ok`. -/
def runBy (ok : σ → ι → Prop) [∀ s l, Decidable (ok s l)] : σ → List ι → Option σ
  | s, [] => some s
  | s, l :: ls => if ok s l then (M.step s l).bind fun s' => runBy ok s' ls else none

variable [∀ s l, Decidable (ok s l)]

/-- An executed run is a run. -/
theorem runBy_reaches {ls : List ι} {s t : σ} (h : M.runBy ok s ls = some t) :
    M.Reaches ok s t := by
  induction ls generalizing s with
  | nil =>
      have hst : s = t := by simpa [runBy] using h
      exact hst ▸ Relation.ReflTransGen.refl
  | cons l ls ih =>
      rw [runBy] at h
      split at h
      · rename_i hok
        obtain ⟨s', hs', hrest⟩ := Option.bind_eq_some_iff.mp h
        exact Relation.ReflTransGen.head ⟨l, hok, hs'⟩ (ih hrest)
      · cases h

/-- An executed run that ends in a state with property `P` shows that there is one. -/
theorem exists_reaches (P : σ → Prop) [DecidablePred P] {s : σ} (ls : List ι)
    (h : (M.runBy ok s ls).any (fun t => P t) = true) : ∃ t, M.Reaches ok s t ∧ P t := by
  cases hrun : M.runBy ok s ls with
  | none =>
      rw [hrun] at h
      cases h
  | some t =>
      rw [hrun] at h
      exact ⟨t, runBy_reaches hrun, of_decide_eq_true h⟩

theorem exists_reachableBy (P : σ → Prop) [DecidablePred P] {s₀ : σ} (h₀ : M.Init s₀)
    (ls : List ι) (h : (M.runBy ok s₀ ls).any (fun s => P s) = true) :
    ∃ s, M.ReachableBy ok s ∧ P s := by
  obtain ⟨s, hrun, hs⟩ := exists_reaches P ls h
  exact ⟨s, ⟨s₀, h₀, hrun⟩, hs⟩

end Machine

end Sys
