import Http2d.Library.CallGraph

/-! Computations that call for others of their kind.
A computation is done, or it calls for the result of another one and goes on with it; where that one halts,
it halts too. What is called for may depend on earlier results, and so may whether the calls end: they do
exactly when no chain of calls, each begun inside the one before, comes back to where it was. -/
namespace NestedCalls

open Relation

universe u

variable {Q R E : Type*} {α β : Type u}

/-- A computation with calls: `next` is what follows the result of a call. -/
inductive Calls (Q R E : Type*) (α : Type u)
  | done (result : Except E α)
  | call (q : Q) (next : R → Calls Q R E α)

namespace Calls

/-- The result of one call. -/
def ask (q : Q) : Calls Q R E R := .call q fun r => .done (.ok r)

def bind : Calls Q R E α → (α → Calls Q R E β) → Calls Q R E β
  | .done (.error e), _ => .done (.error e)
  | .done (.ok a), f => f a
  | .call q next, f => .call q fun r => (next r).bind f

/-- The result when the calls have the given answers. -/
def run (answer : Q → Except E R) : Calls Q R E α → Except E α
  | .done result => result
  | .call q next =>
    match answer q with
    | .error e => .error e
    | .ok r => (next r).run answer

/-- The calls that are made when they have the given answers. -/
def made (answer : Q → Except E R) : Calls Q R E α → List Q
  | .done _ => []
  | .call q next => q::
    match answer q with
    | .error _ => []
    | .ok r => (next r).made answer

section Answers
variable {answer answer' : Q → Except E R} {x : Calls Q R E α} {q : Q} {e : E}

@[simp] theorem run_done (result : Except E α) : (done result : Calls Q R E α).run answer = result := rfl

@[simp] theorem run_ask (q : Q) : (ask q).run answer = answer q := by
  rw [ask,run]
  cases answer q <;> rfl

@[simp] theorem run_bind (x : Calls Q R E α) (f : α → Calls Q R E β) :
    (x.bind f).run answer = x.run answer >>= fun a => (f a).run answer := by
  induction x with
  | done result => cases result <;> rfl
  | call q next ih =>
    rw [bind,run,run]
    cases answer q with
    | error e => rfl
    | ok r => exact ih r

/-- The same answers to the calls that are made. -/
theorem run_congr (h : ∀ q ∈ x.made answer, answer' q = answer q) : x.run answer' = x.run answer := by
  induction x with
  | done result => rfl
  | call q next ih =>
    rw [made] at h
    obtain ⟨hq,hrest⟩ := List.forall_mem_cons.mp h
    rw [run,run,hq]
    cases hr : answer q with
    | error e => rfl
    | ok r =>
      rw [hr] at hrest
      exact ih r hrest

theorem made_congr (h : ∀ q ∈ x.made answer, answer' q = answer q) : x.made answer' = x.made answer := by
  induction x with
  | done result => rfl
  | call q next ih =>
    rw [made] at h
    obtain ⟨hq,hrest⟩ := List.forall_mem_cons.mp h
    rw [made,made,hq]
    cases hr : answer q with
    | error e => rfl
    | ok r =>
      rw [hr] at hrest
      exact congrArg (q::·) (ih r hrest)

/-- Where some calls halt instead, no others are made. -/
theorem made_of_cut (h : ∀ q ∈ x.made answer, answer' q = answer q ∨ ∃ e, answer' q = .error e) :
    x.made answer' ⊆ x.made answer := by
  induction x with
  | done result => exact fun _ hq => hq
  | call q next ih =>
    rw [made] at h
    obtain ⟨hq,hrest⟩ := List.forall_mem_cons.mp h
    rw [made,made]
    refine List.cons_subset_cons q ?_
    rcases hq with hq | ⟨e,hq⟩
    · rw [hq]
      cases hr : answer q with
      | error e => exact fun _ hq => hq
      | ok r =>
        rw [hr] at hrest
        exact ih r hrest
    · rw [hq]
      exact List.nil_subset _

/-- A call that halts is the last one. -/
theorem run_of_halt (hq : q ∈ x.made answer) (h : answer q = .error e) : x.run answer = .error e := by
  induction x with
  | done result => cases hq
  | call q' next ih =>
    rw [made] at hq
    rw [run]
    rcases List.mem_cons.mp hq with rfl | hq
    · rw [h]
    · cases hr : answer q' with
      | error e =>
        rw [hr] at hq
        cases hq
      | ok r =>
        rw [hr] at hq
        exact ih r hq

end Answers

section Keeping
variable {I : Q → Prop} {J : R → Prop} {P : α → Prop} {S : β → Prop} {x : Calls Q R E α}
  {f : α → Calls Q R E β} {answer : Q → Except E R}

/-- All calls are for what `I` holds of, and the result is as `P` says, when the answers are as `J` says. -/
def Keeps (I : Q → Prop) (J : R → Prop) (P : α → Prop) : Calls Q R E α → Prop
  | .done result => ∀ a, result = .ok a → P a
  | .call q next => I q ∧ ∀ r, J r → (next r).Keeps I J P

theorem keeps_ask {q : Q} (h : I q) : (ask q : Calls Q R E R).Keeps I J J :=
  ⟨h,fun _ hr _ ha => Except.ok.inj ha ▸ hr⟩

theorem Keeps.bind (hx : x.Keeps I J P) (hf : ∀ a, P a → (f a).Keeps I J S) : (x.bind f).Keeps I J S := by
  induction x with
  | done result =>
    cases result with
    | error e =>
      intro a ha
      cases ha
    | ok a => exact hf a (hx a rfl)
  | call q next ih => exact ⟨hx.1,fun r hr => ih r (hx.2 r hr)⟩

theorem Keeps.run (hx : x.Keeps I J P) (hanswer : ∀ q r, I q → answer q = .ok r → J r) {a : α}
    (h : x.run answer = .ok a) : P a := by
  induction x with
  | done result => exact hx a h
  | call q next ih =>
    rw [Calls.run] at h
    cases hr : answer q with
    | error e =>
      rw [hr] at h
      cases h
    | ok r =>
      rw [hr] at h
      exact ih r (hx.2 r (hanswer q r hx.1 hr)) h

theorem Keeps.made (hx : x.Keeps I J P) (hanswer : ∀ q r, I q → answer q = .ok r → J r) {q : Q}
    (h : q ∈ x.made answer) : I q := by
  induction x with
  | done result => cases h
  | call q' next ih =>
    rw [Calls.made] at h
    rcases List.mem_cons.mp h with rfl | h
    · exact hx.1
    · cases hr : answer q' with
      | error e =>
        rw [hr] at h
        cases h
      | ok r =>
        rw [hr] at h
        exact ih r (hx.2 r (hanswer q' r hx.1 hr)) h

end Keeping

end Calls

section Depth
variable (body : Q → Calls Q R E R)

/-- The computation, where calls that are nested to the given depth are answered by `deeper`. -/
def within (deeper : Q → Except E R) : ℕ → Q → Except E R
  | 0 => deeper
  | depth+1 => fun q => (body q).run (within deeper depth)

/-- No call comes to the depth. -/
def Shallow (depth : ℕ) (q : Q) : Prop :=
  ∀ deeper deeper', within body deeper depth q = within body deeper' depth q

/-- The nested calls are finitely many. -/
def Ends (q : Q) : Prop := ∃ depth, Shallow body depth q

/-- Inside the computation for `a` that for `b` is begun; calls at some depth may halt. -/
def Begins (a b : Q) : Prop := ∃ depth e, b ∈ (body a).made (within body (fun _ => .error e) depth)

variable {body} {depth : ℕ} {q q' : Q}

theorem within_add (deeper : Q → Except E R) (depth k : ℕ) :
    within body deeper (depth+k) = within body (within body deeper k) depth := by
  induction depth with
  | zero => rw [Nat.zero_add,within]
  | succ depth ih =>
    rw [Nat.succ_add,within,ih]
    rfl

theorem Shallow.mono {depth' : ℕ} (h : Shallow body depth q) (hle : depth ≤ depth') :
    Shallow body depth' q := by
  obtain ⟨k,rfl⟩ := Nat.exists_eq_add_of_le hle
  intro deeper deeper'
  rw [within_add,within_add]
  exact h _ _

/-- Two depths that are not come to give the same result. -/
theorem Shallow.within_eq {depth' : ℕ} (h : Shallow body depth q) (h' : Shallow body depth' q)
    (deeper deeper' : Q → Except E R) : within body deeper depth q = within body deeper' depth' q := by
  rcases le_total depth depth' with hle | hle
  all_goals obtain ⟨k,rfl⟩ := Nat.exists_eq_add_of_le hle
  · rw [within_add deeper']
    exact h _ _
  · rw [within_add deeper]
    exact h' _ _

theorem shallow_succ (deeper : Q → Except E R)
    (h : ∀ q' ∈ (body q).made (within body deeper depth), Shallow body depth q') :
    Shallow body (depth+1) q := by
  have heq (deeper' : Q → Except E R) :
      within body deeper' (depth+1) q = within body deeper (depth+1) q :=
    Calls.run_congr fun q' hq' => h q' hq' _ _
  exact fun deeper' deeper'' => (heq deeper').trans (heq deeper'').symm

/-- Either no call comes to the depth, or a halt there is the result. -/
theorem shallow_or_halts (depth : ℕ) (q : Q) : Shallow body depth q ∨
    ∀ e, within body (fun _ => .error e) depth q = .error e := by
  induction depth generalizing q with
  | zero => exact Or.inr fun _ => rfl
  | succ depth ih =>
    by_cases hs : Shallow body (depth+1) q
    · exact Or.inl hs
    refine Or.inr fun e => ?_
    by_contra hne
    refine hs (shallow_succ (fun _ => .error e) fun q' hq' => ?_)
    exact (ih q').resolve_right fun hhalt => hne (Calls.run_of_halt hq' (hhalt e))

variable (body) in
/-- All calls of a list that end have a common depth. -/
theorem exists_shallow (qs : List Q) :
    ∃ depth, ∀ q ∈ qs, Ends body q → Shallow body depth q := by
  induction qs with
  | nil => exact ⟨0,by simp⟩
  | cons q qs ih =>
    obtain ⟨depth,hqs⟩ := ih
    by_cases hq : Ends body q
    · obtain ⟨d,hd⟩ := hq
      exact ⟨max d depth,List.forall_mem_cons.mpr ⟨fun _ => hd.mono (le_max_left ..),
        fun q' hq' he => (hqs q' hq' he).mono (le_max_right ..)⟩⟩
    · exact ⟨depth,List.forall_mem_cons.mpr ⟨fun he => absurd he hq,hqs⟩⟩

section Ending
variable [Nontrivial E]

theorem not_shallow_zero : ¬ Shallow body 0 q := by
  obtain ⟨e,e',hne⟩ := exists_pair_ne E
  intro h
  exact hne (Except.error.inj (h (fun _ => .error e) fun _ => .error e'))

/-- A call that is begun is less deep. -/
theorem Shallow.of_begins (h : Shallow body (depth+1) q) (hb : Begins body q q') :
    Shallow body depth q' := by
  -- One of two halts is not the result, so that none of the calls comes to it.
  obtain ⟨e,hne⟩ : ∃ e, within body (fun _ => .error e) (depth+1) q ≠ .error e := by
    obtain ⟨e,e',hne⟩ := exists_pair_ne E
    by_contra hall
    rw [not_exists] at hall
    have he := not_not.mp (hall e)
    have he' := not_not.mp (hall e')
    rw [h _ (fun _ => .error e'),he'] at he
    exact hne (Except.error.inj he).symm
  have hmade (x : Q) (hx : x ∈ (body q).made (within body (fun _ => .error e) depth)) :
      Shallow body depth x :=
    (shallow_or_halts depth x).resolve_right fun hhalt => hne (Calls.run_of_halt hx (hhalt e))
  obtain ⟨d,e',hmem⟩ := hb
  refine hmade q' (Calls.made_of_cut (fun x hx => ?_) hmem)
  exact (shallow_or_halts d x).imp (fun hd => hd.within_eq (hmade x hx) _ _) fun hhalt => ⟨e',hhalt e'⟩

/-- What is begun ends, so the computation does. -/
theorem ends_of_begins (h : ∀ q', Begins body q q' → Ends body q') : Ends body q := by
  obtain ⟨e,-,-⟩ := exists_pair_ne E
  have hresult (q' : Q) : ∃ r : Except E R,
      (∀ d, Shallow body d q' → within body (fun _ => .error e) d q' = r) ∧ (¬ Ends body q' → r = .error e) := by
    by_cases hends : Ends body q'
    · obtain ⟨d,hd⟩ := hends
      exact ⟨_,fun d' hd' => hd'.within_eq hd _ fun _ => .error e,fun hno => absurd ⟨d,hd⟩ hno⟩
    · exact ⟨.error e,fun d hd => absurd ⟨d,hd⟩ hends,fun _ => rfl⟩
  choose answer hends hhalts using hresult
  obtain ⟨depth,hdepth⟩ := exists_shallow body ((body q).made answer)
  have hanswer (q' : Q) (hq' : q' ∈ (body q).made answer) :
      within body (fun _ => .error e) depth q' = answer q' := by
    by_cases hq : Ends body q'
    · exact hends q' depth (hdepth q' hq' hq)
    · rw [hhalts q' hq]
      exact (shallow_or_halts depth q').resolve_left (fun hs => hq ⟨depth,hs⟩) e
  have hmade := Calls.made_congr hanswer
  refine ⟨depth+1,shallow_succ (fun _ => .error e) fun q' hq' => ?_⟩
  exact hdepth q' (hmade ▸ hq') (h q' ⟨depth,e,hq'⟩)

theorem ends_iff_acc : Ends body q ↔ Acc (flip (Begins body)) q := by
  constructor
  · rintro ⟨depth,h⟩
    induction depth generalizing q with
    | zero => exact absurd h not_shallow_zero
    | succ depth ih => exact .intro q fun q' hb => ih (h.of_begins hb)
  · intro h
    induction h with
    | intro q _ ih => exact ends_of_begins ih

/-- Where finitely many computations can be begun. -/
theorem ends_iff (hfin : {q' | ReflTransGen (Begins body) q q'}.Finite) :
    Ends body q ↔ ¬ CallGraph.ReachesCycle (Begins body) q :=
  ends_iff_acc.trans (CallGraph.acc_iff_of_reach hfin)

end Ending

/-- What holds of a computation and is kept by all holds of those that are begun. -/
theorem reach_keeps {I : Q → Prop} {J : R → Prop} (hbody : ∀ q, I q → (body q).Keeps I J J) (hq : I q)
    (h : ReflTransGen (Begins body) q q') : I q' := by
  have hanswer (e : E) (depth : ℕ) : ∀ q r, I q → within body (fun _ => .error e) depth q = .ok r → J r := by
    induction depth with
    | zero =>
      intro q r _ hr
      cases hr
    | succ depth ih => exact fun q r hq hr => (hbody q hq).run ih hr
  induction h with
  | refl => exact hq
  | tail _ hb ih =>
    obtain ⟨depth,e,hmem⟩ := hb
    exact (hbody _ ih).made (hanswer e depth) hmem

end Depth

end NestedCalls
