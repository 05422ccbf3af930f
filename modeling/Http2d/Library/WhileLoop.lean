import Mathlib.Tactic

/-! Loops of imperative programs.
One turn of the body either stops with a result or goes round with a new state. Execution is
bounded by fuel, so that termination is a statement about the loop and not an assumption. -/
namespace WhileLoop

/-- What one evaluation of the loop condition and body does. -/
inductive Turn (S R : Type*)
  | stop (result : R)
  | again (state : S)
  deriving DecidableEq

variable {S R : Type*}

/-- Run at most `fuel` turns; `none` means that the fuel did not suffice. -/
def run (body : S → Turn S R) : ℕ → S → Option R
  | 0, _ => none
  | fuel+1, s =>
    match body s with
    | .stop r => some r
    | .again s' => run body fuel s'

def Terminates (body : S → Turn S R) (s : S) : Prop := ∃ fuel r, run body fuel s = some r

/-- The states in which the loop condition is evaluated, starting from `s`. -/
inductive Visits (body : S → Turn S R) : S → S → Prop
  | start (s) : Visits body s s
  | turn {s s' t} : body s = .again s' → Visits body s' t → Visits body s t

variable {body : S → Turn S R}

theorem run_stop {s : S} {r : R} (h : body s = .stop r) (fuel : ℕ) :
    run body (fuel+1) s = some r := by simp [run,h]

theorem run_again {s s' : S} (h : body s = .again s') (fuel : ℕ) :
    run body (fuel+1) s = run body fuel s' := by simp [run,h]

theorem run_mono {fuel fuel' : ℕ} {s : S} {r : R} (hle : fuel ≤ fuel')
    (h : run body fuel s = some r) : run body fuel' s = some r := by
  induction fuel generalizing fuel' s with
  | zero => simp [run] at h
  | succ n ih =>
    obtain ⟨m,rfl⟩ : ∃ m, fuel' = m+1 := ⟨fuel'-1,by omega⟩
    cases hb : body s with
    | stop r' =>
      rw [run_stop hb] at h ⊢
      exact h
    | again s' =>
      rw [run_again hb] at h ⊢
      exact ih (by omega) h

/-- The result does not depend on how much fuel was given. -/
theorem run_unique {fuel fuel' : ℕ} {s : S} {r r' : R}
    (h : run body fuel s = some r) (h' : run body fuel' s = some r') : r = r' := by
  have h₁ := run_mono (le_max_left fuel fuel') h
  have h₂ := run_mono (le_max_right fuel fuel') h'
  exact Option.some.inj (h₁.symm.trans h₂)

/-- A loop that keeps going round where an invariant holds does not end there. -/
theorem not_terminates_of_invariant (I : S → Prop) (hstep : ∀ s, I s → ∃ s', body s = .again s' ∧ I s')
    {s : S} (hs : I s) : ¬ Terminates body s := by
  rintro ⟨fuel,r,hr⟩
  induction fuel generalizing s with
  | zero => simp [run] at hr
  | succ n ih =>
    obtain ⟨s',hagain,hs'⟩ := hstep s hs
    rw [run_again hagain] at hr
    exact ih hs' hr

/-- A turn that restores its own state is repeated for ever. -/
theorem not_terminates_of_fixed {s : S} (h : body s = .again s) : ¬ Terminates body s :=
  not_terminates_of_invariant (· = s) (fun _ hs => ⟨s,hs ▸ h,rfl⟩) rfl

/-- A measure that every further turn decreases bounds the number of turns. -/
theorem run_of_measure (I : S → Prop) (μ : S → ℕ)
    (hstep : ∀ s s', I s → body s = .again s' → I s' ∧ μ s' < μ s) {fuel : ℕ} {s : S} (hs : I s)
    (hfuel : μ s < fuel) : ∃ r, run body fuel s = some r := by
  induction fuel generalizing s with
  | zero => omega
  | succ n ih =>
    cases hb : body s with
    | stop r => exact ⟨r,run_stop hb n⟩
    | again s' =>
      obtain ⟨hi,hlt⟩ := hstep s s' hs hb
      rw [run_again hb]
      exact ih hi (by omega)

theorem terminates_of_measure (I : S → Prop) (μ : S → ℕ)
    (hstep : ∀ s s', I s → body s = .again s' → I s' ∧ μ s' < μ s) {s : S} (hs : I s) :
    Terminates body s := ⟨μ s+1,run_of_measure I μ hstep hs (Nat.lt_succ_self _)⟩

theorem run_eq_none {s : S} (h : ¬ Terminates body s) (fuel : ℕ) : run body fuel s = none := by
  cases hr : run body fuel s with
  | none => rfl
  | some r => exact absurd ⟨fuel,r,hr⟩ h

theorem Visits.trans {s t u : S} (h : Visits body s t) (h' : Visits body t u) :
    Visits body s u := by
  induction h with
  | start => exact h'
  | turn hb _ ih => exact .turn hb (ih h')

/-- What the loop gives from a state that it visits, it gives from the start. -/
theorem Visits.run {s t : S} (h : Visits body s t) {fuel : ℕ} {r : R} (hr : run body fuel t = some r) :
    ∃ fuel, WhileLoop.run body fuel s = some r := by
  induction h with
  | start => exact ⟨fuel,hr⟩
  | turn hb _ ih =>
    obtain ⟨fuel,hr⟩ := ih hr
    exact ⟨fuel+1,by rw [run_again hb,hr]⟩

/-- An invariant of the turns holds at every visit of the loop head. -/
theorem Visits.invariant (I : S → Prop) (hstep : ∀ s s', I s → body s = .again s' → I s')
    {s t : S} (h : Visits body s t) (hs : I s) : I t := by
  induction h with
  | start => exact hs
  | turn hb _ ih => exact ih (hstep _ _ hs hb)

/-- A loop that has a result reached a state whose turn stopped with it. -/
theorem exists_last_turn {fuel : ℕ} {s : S} {r : R} (h : run body fuel s = some r) :
    ∃ t, Visits body s t ∧ body t = .stop r := by
  induction fuel generalizing s with
  | zero => simp [run] at h
  | succ n ih =>
    cases hb : body s with
    | stop r' =>
      rw [run_stop hb] at h
      exact ⟨s,.start s,by rw [hb,Option.some.inj h]⟩
    | again s' =>
      rw [run_again hb] at h
      obtain ⟨t,ht,hstop⟩ := ih h
      exact ⟨t,.turn hb ht,hstop⟩

end WhileLoop
