import Mathlib.Tactic

/-! The order of uses and releases in a trace.
A trace is a list of events, the oldest one first. It may hold notes of any other kind. -/
namespace Lifetime

variable {R N : Type*}

inductive Event (R N : Type*)
  | use (r : R)
  | release (r : R)
  | note (n : N)
  deriving DecidableEq

/-- Behind the release of a resource there is neither a use nor a release of it. -/
def Event.Allows : Event R N → Event R N → Prop
  | .release r, e => e ≠ .use r ∧ e ≠ .release r
  | _, _ => True

instance [DecidableEq R] [DecidableEq N] (e e' : Event R N) : Decidable (e.Allows e') :=
  match e with
  | .release _ => inferInstanceAs (Decidable (_ ∧ _))
  | .use _ => isTrue trivial
  | .note _ => isTrue trivial

/-- Nothing is used or released behind its release. -/
def Sound (tr : List (Event R N)) : Prop := tr.Pairwise Event.Allows

instance [DecidableEq R] [DecidableEq N] (tr : List (Event R N)) : Decidable (Sound tr) :=
  inferInstanceAs (Decidable (List.Pairwise _ _))

theorem sound_nil : Sound ([] : List (Event R N)) := List.Pairwise.nil

/-- An event may be added when its resource was not released before. -/
theorem Sound.snoc {tr : List (Event R N)} (h : Sound tr) {e : Event R N}
    (he : ∀ r, e = .use r ∨ e = .release r → .release r ∉ tr) : Sound (tr ++ [e]) := by
  refine List.pairwise_append.mpr ⟨h,List.pairwise_singleton _ _,fun d hd e' he' => ?_⟩
  rw [List.mem_singleton.mp he']
  cases d with
  | release r => exact ⟨fun heq => he r (Or.inl heq) hd,fun heq => he r (Or.inr heq) hd⟩
  | use r => trivial
  | note n => trivial

theorem Sound.use {tr : List (Event R N)} (h : Sound tr) {r : R} (hr : .release r ∉ tr) :
    Sound (tr ++ [.use r]) :=
  h.snoc fun s hs => by
    rcases hs with hs | hs <;> cases hs
    exact hr

theorem Sound.release {tr : List (Event R N)} (h : Sound tr) {r : R} (hr : .release r ∉ tr) :
    Sound (tr ++ [.release r]) :=
  h.snoc fun s hs => by
    rcases hs with hs | hs <;> cases hs
    exact hr

theorem Sound.note {tr : List (Event R N)} (h : Sound tr) (n : N) : Sound (tr ++ [.note n]) :=
  h.snoc fun s hs => by rcases hs with hs | hs <;> cases hs

theorem Sound.uses {tr : List (Event R N)} (h : Sound tr) {rs : List R} (hrs : ∀ r ∈ rs, .release r ∉ tr) :
    Sound (tr ++ rs.map .use) := by
  induction rs generalizing tr with
  | nil => simpa using h
  | cons r rs ih =>
    obtain ⟨hr,hrest⟩ := List.forall_mem_cons.mp hrs
    have htail := ih (h.use hr) fun s hs => by simpa using hrest s hs
    rwa [List.append_assoc] at htail

theorem Sound.notes {tr : List (Event R N)} (h : Sound tr) (ns : List N) : Sound (tr ++ ns.map .note) := by
  induction ns generalizing tr with
  | nil => simpa using h
  | cons n ns ih =>
    have htail := ih (h.note n)
    rwa [List.append_assoc] at htail

/-- What comes behind a release leaves its resource alone. -/
theorem Sound.behind {past later : List (Event R N)} {r : R}
    (h : Sound (past ++ .release r::later)) : .use r ∉ later ∧ .release r ∉ later := by
  have hlater := (List.pairwise_cons.mp (List.pairwise_append.mp h).2.1).1
  exact ⟨fun hu => (hlater _ hu).1 rfl,fun hr => (hlater _ hr).2 rfl⟩

/-- Nothing is released twice. -/
theorem Sound.count_release_le [DecidableEq R] [DecidableEq N] {tr : List (Event R N)}
    (h : Sound tr) (r : R) : tr.count (.release r) ≤ 1 := by
  by_cases hmem : Event.release r ∈ tr
  · obtain ⟨past,later,rfl,hpast⟩ := List.eq_append_cons_of_mem hmem
    rw [List.count_append,List.count_cons_self,List.count_eq_zero_of_not_mem hpast,
      List.count_eq_zero_of_not_mem h.behind.2]
  · rw [List.count_eq_zero_of_not_mem hmem]
    exact Nat.zero_le _

end Lifetime
