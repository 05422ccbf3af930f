import Mathlib.Tactic

/-! The parts of a list between separators. -/
namespace Lines

variable {α : Type*} {x : α} {l s t : List α} {ls : List (List α)}

theorem infix_intercalate (h : l ∈ ls) : l <:+: [x].intercalate ls := by
  induction ls with
  | nil => cases h
  | cons a ls ih =>
    cases ls with
    | nil =>
      rw [List.mem_singleton.mp h,List.intercalate_singleton]
    | cons b ls =>
      rw [List.intercalate_cons_cons]
      rcases List.mem_cons.mp h with rfl | h
      · rw [List.append_assoc]
        exact (List.prefix_append _ _).isInfix
      · exact (ih h).trans (List.suffix_append _ _).isInfix

theorem intercalate_append {ls' : List (List α)} (hls : ls ≠ []) (hls' : ls' ≠ []) :
    [x].intercalate (ls ++ ls') = [x].intercalate ls ++ x::[x].intercalate ls' := by
  induction ls with
  | nil => exact absurd rfl hls
  | cons a ls ih =>
    cases ls with
    | nil =>
      rw [List.cons_append,List.nil_append,List.intercalate_cons_of_ne_nil hls',List.intercalate_singleton,
        List.append_assoc,List.singleton_append]
    | cons b ls =>
      rw [List.cons_append,List.intercalate_cons_of_ne_nil (by simp),ih (List.cons_ne_nil b ls),
        List.intercalate_cons_cons]
      simp

/-- A separator is exchanged. -/
theorem set_separator (s t : List α) (c d : α) : (s ++ c::t).set s.length d = s ++ d::t := by
  rw [List.set_append_right _ _ le_rfl,Nat.sub_self,List.set_cons_zero]

variable [BEq α]

/-- What is in front of the first separator. -/
def firstPart (x : α) (s : List α) : List α := (s.splitOn x).headD []

/-- What is behind the last separator. -/
def lastPart (x : α) (s : List α) : List α := (s.splitOn x).getLastD []

theorem splitOn_eq_first (s : List α) : s.splitOn x = firstPart x s::(s.splitOn x).tail := by
  rw [firstPart]
  cases h : s.splitOn x with
  | nil => exact absurd h (List.splitOn_ne_nil x s)
  | cons a as => rfl

/-- Only the parts that meet are joined. -/
theorem splitOn_append (s t : List α) : (s ++ t).splitOn x =
    (s.splitOn x).dropLast ++ (lastPart x s ++ firstPart x t)::(t.splitOn x).tail := by
  induction s with
  | nil =>
    rw [List.nil_append,lastPart,List.splitOn_nil]
    exact splitOn_eq_first t
  | cons c s ih =>
    have hne := List.splitOn_ne_nil x s
    obtain ⟨a,as,has⟩ := List.exists_cons_of_ne_nil hne
    rw [List.cons_append,List.splitOn_cons_eq_if_modifyHead,ih,lastPart,lastPart,
      List.splitOn_cons_eq_if_modifyHead,has]
    split_ifs with hc
    · rfl
    · cases as with
      | nil => rfl
      | cons b bs => rfl

variable [LawfulBEq α]

theorem splitOn_append_of_not_mem (h : x ∉ t) :
    (s ++ t).splitOn x = (s.splitOn x).dropLast ++ [lastPart x s ++ t] := by
  have ht : t.splitOn x = [t] := List.splitOn_eq_singleton h
  rw [splitOn_append,firstPart,ht]
  rfl

theorem lastPart_append (h : x ∉ t) : lastPart x (s ++ t) = lastPart x s ++ t := by
  rw [lastPart,splitOn_append_of_not_mem h]
  simp

theorem not_mem_of_mem_splitOn (h : l ∈ s.splitOn x) : x ∉ l := by
  induction s generalizing l with
  | nil =>
    rw [List.splitOn_nil,List.mem_singleton] at h
    rw [h]
    exact List.not_mem_nil
  | cons c s ih =>
    rw [List.splitOn_cons_eq_if_modifyHead] at h
    split_ifs at h with hc
    · rcases List.mem_cons.mp h with rfl | h
      · exact List.not_mem_nil
      · exact ih h
    · rw [splitOn_eq_first,List.modifyHead_cons] at h
      have hs := splitOn_eq_first (x:=x) s
      rcases List.mem_cons.mp h with rfl | h
      · have hfirst := ih (hs ▸ List.mem_cons_self ..)
        exact fun hx => (List.mem_cons.mp hx).elim (fun heq => hc (by rw [heq,beq_self_eq_true])) hfirst
      · exact ih (List.mem_of_mem_tail h)

/-- A part lies in the list. -/
theorem infix_of_mem_splitOn (h : l ∈ s.splitOn x) : l <:+: s := by
  have := infix_intercalate (x:=x) h
  rwa [List.intercalate_splitOn] at this

theorem splitOn_injective (h : s.splitOn x = t.splitOn x) : s = t := by
  rw [← @List.intercalate_splitOn _ s _ _ x,h,List.intercalate_splitOn]

/-- The parts of a list are the first of another when that one goes on behind a separator. -/
theorem splitOn_prefix_iff : s.splitOn x <+: t.splitOn x ↔ t = s ∨ s ++ [x] <+: t := by
  constructor
  · rintro ⟨rest,hrest⟩
    by_cases hnil : rest = []
    · rw [hnil,List.append_nil] at hrest
      exact Or.inl (splitOn_injective hrest.symm)
    · refine Or.inr ⟨[x].intercalate rest,?_⟩
      have ht := @List.intercalate_splitOn _ t _ _ x
      rw [← hrest,intercalate_append (List.splitOn_ne_nil x s) hnil,List.intercalate_splitOn] at ht
      rw [← ht,List.append_assoc,List.singleton_append]
  · rintro (rfl | ⟨u,rfl⟩)
    · exact List.prefix_refl _
    · rw [List.append_assoc,List.singleton_append,List.splitOn_append_cons_self]
      exact List.prefix_append _ _

/-- The parts of lists that are joined by separators. -/
theorem forall_mem_splitOn_intercalate {P : List α → Prop} (hls : ls ≠ []) :
    (∀ l ∈ ([x].intercalate ls).splitOn x, P l) ↔ ∀ s ∈ ls, ∀ l ∈ s.splitOn x, P l := by
  induction ls with
  | nil => exact absurd rfl hls
  | cons a ls ih =>
    cases ls with
    | nil => rw [List.intercalate_singleton,List.forall_mem_singleton]
    | cons b ls =>
      rw [List.intercalate_cons_cons,List.append_assoc,List.singleton_append,List.splitOn_append_cons_self,
        List.forall_mem_append,List.forall_mem_cons,ih (List.cons_ne_nil _ _)]

end Lines
