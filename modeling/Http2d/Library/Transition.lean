import Mathlib.Tactic

/-! Runs of a system that takes one labelled step after another.
`none` is a step that the system cannot take in that state. -/
namespace Transition

variable {S A : Type*}

/-- Take the steps of a schedule one after another. -/
def run (step : S → A → Option S) : S → List A → Option S
  | s, [] => some s
  | s, a::as => (step s a).bind fun s' => run step s' as

/-- Every step of the schedule is taken in a state in which `G` allows it. -/
def Guarded (step : S → A → Option S) (G : S → A → Prop) : S → List A → Prop
  | _, [] => True
  | s, a::as => G s a ∧ ∀ s', step s a = some s' → Guarded step G s' as

variable {step : S → A → Option S}

/-- A schedule can be checked when each of its steps can. -/
instance Guarded.decidable {G : S → A → Prop} [∀ s a, Decidable (G s a)] :
    ∀ s as, Decidable (Guarded step G s as)
  | _, [] => isTrue trivial
  | s, a::as =>
    match h : step s a with
    | none => decidable_of_iff (G s a)
        ⟨fun hg => ⟨hg,fun _ hs => nomatch h.symm.trans hs⟩,And.left⟩
    | some s' =>
      have := Guarded.decidable (G:=G) s' as
      decidable_of_iff (G s a ∧ Guarded step G s' as)
        ⟨fun hg => ⟨hg.1,fun _ hs => Option.some.inj (h.symm.trans hs) ▸ hg.2⟩,fun hg => ⟨hg.1,hg.2 s' h⟩⟩

@[simp] theorem run_nil (s : S) : run step s [] = some s := rfl

theorem run_cons {s s' : S} {a : A} (h : step s a = some s') (as : List A) :
    run step s (a::as) = run step s' as := by simp [run,h]

theorem run_cons_inv {s t : S} {a : A} {as : List A} (h : run step s (a::as) = some t) :
    ∃ s', step s a = some s' ∧ run step s' as = some t := Option.bind_eq_some_iff.mp h

/-- What every allowed step preserves, every run of allowed steps preserves. -/
theorem guarded_invariant (G : S → A → Prop) (I : S → Prop)
    (hstep : ∀ s a s', I s → G s a → step s a = some s' → I s')
    {s t : S} {as : List A} (hs : I s) (hg : Guarded step G s as)
    (h : run step s as = some t) : I t := by
  induction as generalizing s with
  | nil => exact Option.some.inj h ▸ hs
  | cons a as ih =>
    obtain ⟨s',ha,hr⟩ := run_cons_inv h
    exact ih (hstep s a s' hs hg.1 ha) (hg.2 s' ha) hr

theorem Guarded.and {G H : S → A → Prop} {s : S} {as : List A} (hg : Guarded step G s as)
    (hh : Guarded step H s as) : Guarded step (fun s a => G s a ∧ H s a) s as := by
  induction as generalizing s with
  | nil => trivial
  | cons a as ih => exact ⟨⟨hg.1,hh.1⟩,fun s' hs => ih (hg.2 s' hs) (hh.2 s' hs)⟩

/-- What every step preserves, every run preserves. -/
theorem run_invariant (I : S → Prop) (hstep : ∀ s a s', I s → step s a = some s' → I s')
    {s t : S} {as : List A} (hs : I s) (h : run step s as = some t) : I t := by
  induction as generalizing s with
  | nil => exact Option.some.inj h ▸ hs
  | cons a as ih =>
    obtain ⟨s',ha,hr⟩ := run_cons_inv h
    exact ih (hstep s a s' hs ha) hr

/-- What the invariant gives for every allowed step holds of all steps of the schedule. -/
theorem Guarded.of_invariant {G H : S → A → Prop} (I : S → Prop)
    (hstep : ∀ s a s', I s → G s a → step s a = some s' → I s')
    (hH : ∀ s a, I s → G s a → H s a) {s : S} {as : List A} (hs : I s)
    (hg : Guarded step G s as) : Guarded step H s as := by
  induction as generalizing s with
  | nil => trivial
  | cons a as ih => exact ⟨hH s a hs hg.1,fun s' ha => ih (hstep s a s' hs hg.1 ha) (hg.2 s' ha)⟩

/-- A run of allowed steps never gets stuck when no allowed step does. -/
theorem guarded_run_exists (G : S → A → Prop) (I : S → Prop)
    (hstep : ∀ s a, I s → G s a → ∃ s', step s a = some s' ∧ I s')
    {s : S} {as : List A} (hs : I s) (hg : Guarded step G s as) :
    ∃ t, run step s as = some t ∧ I t := by
  induction as generalizing s with
  | nil => exact ⟨s,rfl,hs⟩
  | cons a as ih =>
    obtain ⟨s',ha,hi⟩ := hstep s a hs hg.1
    obtain ⟨t,ht,hI⟩ := ih hi (hg.2 s' ha)
    exact ⟨t,by rw [run_cons ha,ht],hI⟩

/-- When a step of the schedule can be taken exactly where `H` holds, the whole schedule can be taken
exactly when `H` holds at each of its steps. -/
theorem guarded_run_iff (G H : S → A → Prop) (I : S → Prop)
    (hstep : ∀ s a s', I s → G s a → step s a = some s' → I s')
    (hiff : ∀ s a, I s → G s a → ((∃ s', step s a = some s') ↔ H s a))
    {s : S} {as : List A} (hs : I s) (hg : Guarded step G s as) :
    (∃ t, run step s as = some t) ↔ Guarded step H s as := by
  induction as generalizing s with
  | nil => exact iff_of_true ⟨s,rfl⟩ trivial
  | cons a as ih =>
    constructor
    · rintro ⟨t,ht⟩
      obtain ⟨s',ha,hr⟩ := run_cons_inv ht
      refine ⟨(hiff s a hs hg.1).mp ⟨s',ha⟩,fun u hu => ?_⟩
      obtain rfl : s' = u := Option.some.inj (ha.symm.trans hu)
      exact (ih (hstep s a s' hs hg.1 ha) (hg.2 s' ha)).mp ⟨t,hr⟩
    · rintro ⟨hh,hrest⟩
      obtain ⟨s',ha⟩ := (hiff s a hs hg.1).mpr hh
      obtain ⟨t,ht⟩ := (ih (hstep s a s' hs hg.1 ha) (hg.2 s' ha)).mpr (hrest s' ha)
      exact ⟨t,by rw [run_cons ha,ht]⟩

/-- The invariant may speak about the steps that were taken. `P` is what is known of the whole
schedule, and of every beginning of it. -/
theorem guarded_run_history (G : S → A → Prop) (P : List A → Prop) (I : List A → S → Prop)
    (hP : ∀ as bs, P (as++bs) → P as)
    (hstep : ∀ past s a, P (past++[a]) → I past s → G s a →
      ∃ s', step s a = some s' ∧ I (past++[a]) s')
    (past : List A) {s : S} {as : List A} (hp : P (past++as)) (hs : I past s)
    (hg : Guarded step G s as) : ∃ t, run step s as = some t ∧ I (past++as) t := by
  induction as generalizing past s with
  | nil => exact ⟨s,rfl,by rwa [List.append_nil]⟩
  | cons a as ih =>
    rw [List.append_cons] at hp ⊢
    obtain ⟨s',ha,hi⟩ := hstep past s a (hP _ as hp) hs hg.1
    obtain ⟨t,ht,hI⟩ := ih _ hp hi (hg.2 s' ha)
    exact ⟨t,by rw [run_cons ha,ht],hI⟩

end Transition
