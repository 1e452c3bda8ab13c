import Mathlib.Data.List.Basic

/-!
# `Lib.Runs` — finite runs of a step function

A system is a step function `step : σ → ω → Option σ`: `step s o` is the state after operation `o`, `none`
when `o` cannot happen in `s`. `run` executes a list of operations. `Meets step G s os` says that every
operation of the run satisfies the guard `G` in the state in which it starts.

The rules proofs use: an invariant kept by every guarded step holds after every guarded run
(`invariant_of_step`), a property that no step restores holds at the end exactly if every step kept it
(`iff_meets_of_step`, `iff_meets_of_inv`) and in every state exactly if no step lost it
(`throughout_iff_meets`), a relation to an abstract system kept by every guarded step relates the end
states (`simulation_of_step`), and a run of a system is a run of each of its components (`run_component`).
-/

namespace Runs

variable {σ τ ω : Type*} {step : σ → ω → Option σ} {G : σ → ω → Prop}

/-- The state after a list of operations. -/
def run (step : σ → ω → Option σ) : σ → List ω → Option σ
  | s, []      => some s
  | s, o :: os => (step s o).bind (fun s' => run step s' os)

/-- Every operation of the run satisfies `G` in the state in which it starts. -/
def Meets (step : σ → ω → Option σ) (G : σ → ω → Prop) : σ → List ω → Prop
  | _, []      => True
  | s, o :: os => G s o ∧ ∀ s', step s o = some s' → Meets step G s' os

theorem run_cons_eq_some {s s' : σ} {o : ω} {os : List ω} :
    run step s (o :: os) = some s' ↔ ∃ m, step s o = some m ∧ run step m os = some s' := by
  rw [run, Option.bind_eq_some_iff]

theorem run_append (s : σ) (os os' : List ω) :
    run step s (os ++ os') = (run step s os).bind (fun m => run step m os') := by
  induction os generalizing s with
  | nil => rfl
  | cons o os ih =>
      rw [List.cons_append, run, run, Option.bind_assoc]
      exact Option.bind_congr (fun m _ => ih m)

/-- A guarded run with a decidable guard can be checked. -/
instance decidableMeets [∀ s o, Decidable (G s o)] : ∀ s os, Decidable (Meets step G s os)
  | _, []      => isTrue trivial
  | s, o :: os =>
      match h : step s o with
      | none   => decidable_of_iff (G s o) (by simp [Meets, h])
      | some m =>
          have := decidableMeets m os
          decidable_of_iff (G s o ∧ Meets step G m os) (by simp [Meets, h])

theorem meets_of_forall (h : ∀ s o, G s o) (s : σ) (os : List ω) : Meets step G s os := by
  induction os generalizing s with
  | nil => trivial
  | cons o os ih => exact ⟨h s o, fun s' _ => ih s'⟩

/-- **Invariant rule.** What every guarded step keeps, every guarded run keeps. -/
theorem invariant_of_step {Inv : σ → Prop}
    (hstep : ∀ s o s', Inv s → G s o → step s o = some s' → Inv s')
    {s s' : σ} {os : List ω} (hs : Inv s) (hm : Meets step G s os)
    (hrun : run step s os = some s') : Inv s' := by
  induction os generalizing s with
  | nil =>
      cases hrun
      exact hs
  | cons o os ih =>
      obtain ⟨m, ho, hrest⟩ := run_cons_eq_some.mp hrun
      exact ih (hstep s o m hs hm.1 ho) (hm.2 m ho) hrest

theorem Meets.of_inv {I : σ → Prop} {G' : σ → ω → Prop} (hinv : ∀ s o s', I s → G s o → step s o = some s' → I s')
    (himp : ∀ s o, I s → G s o → G' s o) {s : σ} {os : List ω} (hI : I s) (hm : Meets step G s os) :
    Meets step G' s os := by
  induction os generalizing s with
  | nil => trivial
  | cons o os ih => exact ⟨himp s o hI hm.1, fun s' hs' => ih (hinv s o s' hI hm.1 hs') (hm.2 s' hs')⟩

theorem Meets.mono {G' : σ → ω → Prop} (himp : ∀ s o, G s o → G' s o) {s : σ} {os : List ω} (hm : Meets step G s os) :
    Meets step G' s os :=
  hm.of_inv (I := fun _ => True) (fun _ _ _ _ _ _ => trivial) (fun s o _ => himp s o) trivial

section Exactness

variable {I P : σ → Prop} {E : σ → ω → Prop}

/-- A property that no guarded step restores and that holds at the end held at the start. `I` is what every guarded
    step keeps. -/
theorem back_of_step (hinv : ∀ s o s', I s → G s o → step s o = some s' → I s')
    (hback : ∀ s o s', I s → G s o → step s o = some s' → P s' → P s)
    {s s' : σ} {os : List ω} (hI : I s) (hm : Meets step G s os) (hrun : run step s os = some s')
    (hend : P s') : P s := by
  induction os generalizing s with
  | nil =>
      cases hrun
      exact hend
  | cons o os ih =>
      obtain ⟨m, ho, hrest⟩ := run_cons_eq_some.mp hrun
      exact hback s o m hI hm.1 ho (ih (hinv s o m hI hm.1 ho) (hm.2 m ho) hrest)

/-- **Exactness rule under an invariant.** If no guarded step restores `P`, and a guarded step from `P` keeps it
    exactly when it meets `E`, then `P` holds after a guarded run from `P` exactly when all its steps meet `E`. -/
theorem iff_meets_of_inv (hinv : ∀ s o s', I s → G s o → step s o = some s' → I s')
    (hback : ∀ s o s', I s → G s o → step s o = some s' → P s' → P s)
    (hstep : ∀ s o s', I s → P s → G s o → step s o = some s' → (P s' ↔ E s o))
    {s s' : σ} {os : List ω} (hI : I s) (hs : P s) (hm : Meets step G s os) (hrun : run step s os = some s') :
    P s' ↔ Meets step E s os := by
  induction os generalizing s with
  | nil =>
      cases hrun
      exact iff_of_true hs trivial
  | cons o os ih =>
      obtain ⟨m, ho, hrest⟩ := run_cons_eq_some.mp hrun
      have hfirst := hstep s o m hI hs hm.1 ho
      have hIm := hinv s o m hI hm.1 ho
      constructor
      · intro hend
        have hP : P m := back_of_step hinv hback hIm (hm.2 m ho) hrest hend
        refine ⟨hfirst.mp hP, ?_⟩
        intro m' hm'
        obtain rfl := Option.some.inj (ho.symm.trans hm')
        exact (ih hIm hP (hm.2 m ho) hrest).mp hend
      · intro hE
        exact (ih hIm (hfirst.mpr hE.1) (hm.2 m ho) hrest).mpr (hE.2 m ho)

/-- **Exactness rule.** The same without an invariant. -/
theorem iff_meets_of_step (hback : ∀ s o s', step s o = some s' → P s' → P s)
    (hstep : ∀ s o s', P s → G s o → step s o = some s' → (P s' ↔ E s o))
    {s s' : σ} {os : List ω} (hs : P s) (hm : Meets step G s os) (hrun : run step s os = some s') :
    P s' ↔ Meets step E s os :=
  iff_meets_of_inv (I := fun _ => True) (fun _ _ _ _ _ _ => trivial) (fun s o s' _ _ => hback s o s')
    (fun s o s' _ => hstep s o s') trivial hs hm hrun

/-- `P` holds in every state of the run, the first and the last included. -/
def Throughout (step : σ → ω → Option σ) (P : σ → Prop) : σ → List ω → Prop
  | s, []      => P s
  | s, o :: os => P s ∧ ∀ s', step s o = some s' → Throughout step P s' os

theorem Throughout.mono {Q : σ → Prop} (himp : ∀ s, P s → Q s) {s : σ} {os : List ω} (h : Throughout step P s os) :
    Throughout step Q s os := by
  induction os generalizing s with
  | nil => exact himp s h
  | cons o os ih => exact ⟨himp s h.1, fun s' hs' => ih (h.2 s' hs')⟩

/-- **Invariant rule for all states.** -/
theorem throughout_of_step (hstep : ∀ s o s', P s → G s o → step s o = some s' → P s') {s : σ} {os : List ω}
    (hs : P s) (hm : Meets step G s os) : Throughout step P s os := by
  induction os generalizing s with
  | nil => exact hs
  | cons o os ih => exact ⟨hs, fun s' hs' => ih (hstep s o s' hs hm.1 hs') (hm.2 s' hs')⟩

/-- **Exactness rule for all states.** If a step from `P` that meets `G` keeps `P` exactly when it meets `E`, then
    `P` holds in every state of a run from `P` exactly when all its steps meet `E`. -/
theorem throughout_iff_meets (hinv : ∀ s o s', I s → G s o → step s o = some s' → I s')
    (hstep : ∀ s o s', I s → P s → G s o → step s o = some s' → (P s' ↔ E s o))
    {s s' : σ} {os : List ω} (hI : I s) (hs : P s) (hm : Meets step G s os) (hrun : run step s os = some s') :
    Throughout step P s os ↔ Meets step E s os := by
  induction os generalizing s with
  | nil => exact iff_of_true hs trivial
  | cons o os ih =>
      obtain ⟨m, ho, hrest⟩ := run_cons_eq_some.mp hrun
      have hfirst := hstep s o m hI hs hm.1 ho
      have hIm := hinv s o m hI hm.1 ho
      constructor
      · rintro ⟨-, hall⟩
        have hPm : P m := by
          cases os with
          | nil => exact hall m ho
          | cons o' os' => exact (hall m ho).1
        refine ⟨hfirst.mp hPm, ?_⟩
        intro m' hm'
        obtain rfl := Option.some.inj (ho.symm.trans hm')
        exact (ih hIm hPm (hm.2 m ho) hrest).mp (hall m ho)
      · rintro ⟨hE, hall⟩
        refine ⟨hs, ?_⟩
        intro m' hm'
        obtain rfl := Option.some.inj (ho.symm.trans hm')
        exact (ih hIm (hfirst.mpr hE) (hm.2 m ho) hrest).mpr (hall m ho)

end Exactness

/-- **Simulation rule.** If every guarded step keeps `R` to an abstract system with a total step function,
    every guarded run ends in a state related to the end of the abstract run. -/
theorem simulation_of_step {astep : τ → ω → τ} {R : σ → τ → Prop}
    (hstep : ∀ s t o s', R s t → G s o → step s o = some s' → R s' (astep t o))
    {s s' : σ} {t : τ} {os : List ω} (hR : R s t) (hm : Meets step G s os)
    (hrun : run step s os = some s') : R s' (os.foldl astep t) := by
  induction os generalizing s t with
  | nil =>
      cases hrun
      exact hR
  | cons o os ih =>
      obtain ⟨m, ho, hrest⟩ := run_cons_eq_some.mp hrun
      exact ih (hstep s t o m hR hm.1 ho) (hm.2 m ho) hrest

section Component

/-! A component of a system: `view` is its part of the state, `on o` its part of an operation, `none` when the
operation leaves it alone. -/

variable {σ' ω' : Type*} {step' : σ' → ω' → Option σ'} {G' : σ' → ω' → Prop} {view : σ → σ'}
  {on : ω → Option ω'}

/-- **Component rule.** A run of the system is a run of each component. -/
theorem run_component
    (hstep : ∀ s o s', step s o = some s' →
      (on o = none → view s' = view s) ∧ ∀ o', on o = some o' → step' (view s) o' = some (view s'))
    {s s' : σ} {os : List ω} (hrun : run step s os = some s') :
    run step' (view s) (os.filterMap on) = some (view s') := by
  induction os generalizing s with
  | nil =>
      cases hrun
      rfl
  | cons o os ih =>
      obtain ⟨m, ho, hrest⟩ := run_cons_eq_some.mp hrun
      obtain ⟨hnone, hsome⟩ := hstep s o m ho
      cases hon : on o with
      | none =>
          rw [List.filterMap_cons_none hon, ← hnone hon]
          exact ih hrest
      | some o' =>
          rw [List.filterMap_cons_some hon, run_cons_eq_some]
          exact ⟨view m, hsome o' hon, ih hrest⟩

/-- A guard that implies a component's guard is met by the component's run. -/
theorem meets_component
    (hstep : ∀ s o s', step s o = some s' →
      (on o = none → view s' = view s) ∧ ∀ o', on o = some o' → step' (view s) o' = some (view s'))
    (hguard : ∀ s o o', G s o → on o = some o' → G' (view s) o')
    {s s' : σ} {os : List ω} (hm : Meets step G s os) (hrun : run step s os = some s') :
    Meets step' G' (view s) (os.filterMap on) := by
  induction os generalizing s with
  | nil => trivial
  | cons o os ih =>
      obtain ⟨m, ho, hrest⟩ := run_cons_eq_some.mp hrun
      obtain ⟨hnone, hsome⟩ := hstep s o m ho
      have hrec := ih (hm.2 m ho) hrest
      cases hon : on o with
      | none =>
          rw [List.filterMap_cons_none hon, ← hnone hon]
          exact hrec
      | some o' =>
          rw [List.filterMap_cons_some hon]
          refine ⟨hguard s o o' hm.1 hon, ?_⟩
          intro s₁ hs₁
          obtain rfl := Option.some.inj ((hsome o' hon).symm.trans hs₁)
          exact hrec

end Component

end Runs
