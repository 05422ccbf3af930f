import Mathlib.Tactic

/-! Frames that follow each other in a byte stream, and the part of the stream that has arrived. -/
namespace Framing

variable {α β : Type*} (enc : α → List β)

/-- The frames of `fs` whose last byte is among `received`, and the bytes behind them. -/
def cut : List α → List β → List α × List β
  | [], received => ([],received)
  | f::fs, received =>
    if (enc f).length ≤ received.length then
      let r := cut fs (received.drop (enc f).length)
      (f::r.1,r.2)
    else ([],received)

@[simp] theorem cut_nil (received : List β) : cut enc [] received = ([],received) := rfl

theorem cut_short {f : α} {received : List β} (fs : List α)
    (h : received.length < (enc f).length) : cut enc (f::fs) received = ([],received) :=
  if_neg (by omega)

theorem cut_complete (f : α) (fs : List α) (rest : List β) :
    cut enc (f::fs) (enc f ++ rest) = (f::(cut enc fs rest).1,(cut enc fs rest).2) := by
  simp [cut]

/-- Nothing is complete in less than every frame needs. -/
theorem cut_of_short {fs : List α} {received : List β}
    (h : ∀ f ∈ fs, received.length < (enc f).length) : cut enc fs received = ([],received) := by
  cases fs with
  | nil => rfl
  | cons f fs => exact cut_short enc fs (h f (List.mem_cons_self ..))

/-- When more arrives, the frames that were complete stay, and what was left over is looked at
again together with the new bytes. -/
theorem cut_append (fs : List α) (received chunk : List β) :
    cut enc fs (received ++ chunk) =
      let r := cut enc fs received
      let r' := cut enc (fs.drop r.1.length) (r.2 ++ chunk)
      (r.1 ++ r'.1,r'.2) := by
  induction fs generalizing received with
  | nil => simp
  | cons f fs ih =>
    by_cases h : (enc f).length ≤ received.length
    · have h' : (enc f).length ≤ (received ++ chunk).length := by
        rw [List.length_append]; omega
      have hdrop : (received ++ chunk).drop (enc f).length = received.drop (enc f).length ++ chunk :=
        List.drop_append_of_le_length h
      simp only [cut,if_pos h,if_pos h',hdrop,ih,List.length_cons,List.drop_succ_cons,
        List.cons_append]
    · simp only [cut_short enc fs (not_le.mp h),List.length_nil,List.drop_zero,List.nil_append]

/-- What is left over goes on, with what comes behind it, as the frames do that are not complete. -/
theorem cut_continues {fs : List α} {received more : List β}
    (h : received ++ more <+: fs.flatMap enc) :
    (cut enc fs received).2 ++ more <+: (fs.drop (cut enc fs received).1.length).flatMap enc := by
  induction fs generalizing received with
  | nil => simpa using h
  | cons f fs ih =>
    by_cases hle : (enc f).length ≤ received.length
    · obtain ⟨rest,rfl⟩ : enc f <+: received :=
        List.prefix_of_prefix_length_le (by simp) ((List.prefix_append _ _).trans h) hle
      rw [cut_complete]
      rw [List.append_assoc,List.flatMap_cons,List.prefix_append_right_inj] at h
      exact ih h
    · rw [cut_short enc fs (not_le.mp hle)]
      exact h

/-- Cut a stream whose frames tell their own length in their first bytes; none when the stream ends
inside a frame. -/
def splitFuel (size : List β → Option ℕ) : ℕ → List β → Option (List (List β))
  | _, [] => some []
  | 0, _ => none
  | fuel+1, bs =>
    match size bs with
    | none => none
    | some n =>
      if n = 0 ∨ bs.length < n then none
      else (splitFuel size fuel (bs.drop n)).map fun fs => bs.take n::fs

/-- No stream has more frames than bytes. -/
def split (size : List β → Option ℕ) (bs : List β) : Option (List (List β)) :=
  splitFuel size bs.length bs

/-- The length of the frame is known from its own bytes, whatever follows. -/
def SelfDelimiting (size : List β → Option ℕ) (f : List β) : Prop :=
  0 < f.length ∧ ∀ rest, size (f ++ rest) = some f.length

theorem splitFuel_flatten {size : List β → Option ℕ} {fs : List (List β)}
    (h : ∀ f ∈ fs, SelfDelimiting size f) {fuel : ℕ} (hfuel : fs.flatten.length ≤ fuel) :
    splitFuel size fuel fs.flatten = some fs := by
  induction fs generalizing fuel with
  | nil => cases fuel <;> rfl
  | cons f fs ih =>
    obtain ⟨hpos,hsize⟩ := h f (List.mem_cons_self ..)
    obtain ⟨b,bs,rfl⟩ := List.exists_cons_of_length_pos hpos
    rw [List.flatten_cons,List.length_append] at hfuel
    obtain ⟨n,rfl⟩ : ∃ n, fuel = n+1 := ⟨fuel-1,by omega⟩
    have hrest : splitFuel size n fs.flatten = some fs :=
      ih (fun g hg => h g (List.mem_cons_of_mem _ hg)) (by omega)
    rw [List.flatten_cons,List.cons_append,splitFuel,← List.cons_append,hsize]
    · dsimp only
      rw [if_neg (by rw [List.length_append]; omega),List.drop_left,List.take_left,hrest]
      rfl
    · exact List.cons_ne_nil _ _

/-- A stream of such frames is cut into them. -/
theorem split_flatten {size : List β → Option ℕ} {fs : List (List β)}
    (h : ∀ f ∈ fs, SelfDelimiting size f) : split size fs.flatten = some fs :=
  splitFuel_flatten h (le_refl _)

end Framing
