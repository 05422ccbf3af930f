import Mathlib.Tactic

/-! Rearrangements of a list that keep entries in order wherever their order already agrees with a
relation, and merging as one of them. -/
namespace StableMerge

variable {α : Type*} {le : α → α → Bool} {xs ys zs xs' ys' : List α} {a b : α}

/-- The second list has the entries of the first, and what stood in order stands in order. -/
structure Rearranges (le : α → α → Bool) (xs ys : List α) : Prop where
  perm : ys.Perm xs
  keeps : ∀ a b, [a,b].Sublist xs → le a b → [a,b].Sublist ys

theorem Rearranges.refl (xs : List α) : Rearranges le xs xs := ⟨.refl xs,fun _ _ h _ => h⟩

theorem Rearranges.trans (h : Rearranges le xs ys) (h' : Rearranges le ys zs) : Rearranges le xs zs :=
  ⟨h'.perm.trans h.perm,fun a b hab hle => h'.keeps a b (h.keeps a b hab hle) hle⟩

/-- A pair stands in one of two parts, or across them. -/
theorem pair_sublist_append : [a,b].Sublist (xs ++ ys) ↔
    [a,b].Sublist xs ∨ [a,b].Sublist ys ∨ a ∈ xs ∧ b ∈ ys := by
  constructor
  · intro h
    obtain ⟨l,r,heq,hl,hr⟩ := List.sublist_append_iff.mp h
    rcases l with _ | ⟨c,_ | ⟨d,l⟩⟩
    · rw [List.nil_append] at heq
      exact Or.inr (Or.inl (heq ▸ hr))
    · obtain ⟨rfl,rfl⟩ := List.cons.inj heq
      exact Or.inr (Or.inr ⟨List.singleton_sublist.mp hl,List.singleton_sublist.mp hr⟩)
    · simp only [List.cons_append,List.cons.injEq,List.nil_eq,List.append_eq_nil_iff] at heq
      obtain ⟨rfl,rfl,rfl,-⟩ := heq
      exact Or.inl hl
  · rintro (h | h | ⟨ha,hb⟩)
    · exact h.trans (List.sublist_append_left xs ys)
    · exact h.trans (List.sublist_append_right xs ys)
    · exact (List.singleton_sublist.mpr ha).append (List.singleton_sublist.mpr hb)

theorem Rearranges.append (h : Rearranges le xs xs') (h' : Rearranges le ys ys') :
    Rearranges le (xs ++ ys) (xs' ++ ys') := by
  refine ⟨h.perm.append h'.perm,fun a b hab hle => ?_⟩
  rw [pair_sublist_append] at hab ⊢
  rcases hab with hab | hab | ⟨ha,hb⟩
  · exact Or.inl (h.keeps a b hab hle)
  · exact Or.inr (Or.inl (h'.keeps a b hab hle))
  · exact Or.inr (Or.inr ⟨h.perm.mem_iff.mpr ha,h'.perm.mem_iff.mpr hb⟩)

theorem sublist_merge_left : xs.Sublist (xs.merge ys le) := by
  induction xs generalizing ys with
  | nil => exact List.nil_sublist _
  | cons x xs ih =>
    induction ys with
    | nil => simp
    | cons y ys ihy =>
      rw [List.cons_merge_cons]
      split
      · exact ih.cons_cons x
      · exact ihy.cons y

theorem sublist_merge_right : ys.Sublist (xs.merge ys le) := by
  induction xs generalizing ys with
  | nil => simp
  | cons x xs ih =>
    induction ys with
    | nil => exact List.nil_sublist _
    | cons y ys ihy =>
      rw [List.cons_merge_cons]
      split
      · exact ih.cons x
      · exact ihy.cons_cons y

/-- An entry of the second list is not put before an entry of the first that it does not precede. -/
theorem pair_sublist_merge (htrans : ∀ a b c, le a b → le b c → le a c) (hx : xs.Pairwise (le · ·))
    (ha : a ∈ xs) (hb : b ∈ ys) (hle : le a b) : [a,b].Sublist (xs.merge ys le) := by
  induction xs generalizing ys with
  | nil => exact absurd ha List.not_mem_nil
  | cons x xs ih =>
    obtain ⟨hfirst,hxs⟩ := List.pairwise_cons.mp hx
    induction ys with
    | nil => exact absurd hb List.not_mem_nil
    | cons y ys ihy =>
      rw [List.cons_merge_cons]
      split_ifs with hxy
      · rcases List.mem_cons.mp ha with rfl | ha
        · exact (List.singleton_sublist.mpr (List.mem_merge.mpr (Or.inr hb))).cons_cons a
        · exact (ih hxs ha hb).cons x
      · rcases List.mem_cons.mp hb with rfl | hb
        · rcases List.mem_cons.mp ha with rfl | ha
          · exact absurd hle hxy
          · exact absurd (htrans x a b (hfirst a ha) hle) hxy
        · exact (ihy hb).cons y

/-- Merging a sorted list with another one keeps entries in order. -/
theorem Rearranges.merge (htrans : ∀ a b c, le a b → le b c → le a c) (hx : xs.Pairwise (le · ·)) :
    Rearranges le (xs ++ ys) (xs.merge ys le) := by
  refine ⟨List.merge_perm_append le,fun a b hab hle => ?_⟩
  rcases pair_sublist_append.mp hab with hab | hab | ⟨ha,hb⟩
  · exact hab.trans sublist_merge_left
  · exact hab.trans sublist_merge_right
  · exact pair_sublist_merge htrans hx ha hb hle

/-- The pairs that a merge compares. -/
def mergeCompares (le : α → α → Bool) : List α → List α → List (α × α)
  | [], _ => []
  | _, [] => []
  | x::xs, y::ys =>
    if le x y then (x,y)::mergeCompares le xs (y::ys) else (x,y)::mergeCompares le (x::xs) ys
termination_by xs ys => xs.length+ys.length

theorem mem_mergeCompares {p : α × α} (h : p ∈ mergeCompares le xs ys) : p.1 ∈ xs ∧ p.2 ∈ ys := by
  induction xs, ys using mergeCompares.induct le with
  | case1 ys => simp [mergeCompares] at h
  | case2 xs _ => simp [mergeCompares] at h
  | case3 x xs y ys hle ih =>
    rw [mergeCompares,if_pos hle] at h
    rcases List.mem_cons.mp h with rfl | h
    · exact ⟨List.mem_cons_self,List.mem_cons_self⟩
    · exact ⟨List.mem_cons_of_mem _ (ih h).1,(ih h).2⟩
  | case4 x xs y ys hle ih =>
    rw [mergeCompares,if_neg hle] at h
    rcases List.mem_cons.mp h with rfl | h
    · exact ⟨List.mem_cons_self,List.mem_cons_self⟩
    · exact ⟨(ih h).1,List.mem_cons_of_mem _ (ih h).2⟩

/-- Two relations merge alike exactly when they answer alike for every pair that one of them compares:
the first other answer puts another entry in front. -/
theorem merge_eq_merge_iff {le' : α → α → Bool} (hdisj : ∀ x ∈ xs, x ∉ ys) :
    xs.merge ys le = xs.merge ys le' ↔ ∀ p ∈ mergeCompares le' xs ys, le p.1 p.2 = le' p.1 p.2 := by
  induction xs, ys using mergeCompares.induct le' with
  | case1 ys => simp [mergeCompares]
  | case2 xs _ => simp [mergeCompares]
  | case3 x xs y ys hle ih =>
    have hne : y ≠ x := fun h => hdisj x List.mem_cons_self (h ▸ List.mem_cons_self)
    rw [mergeCompares,if_pos hle,List.cons_merge_cons,List.cons_merge_cons,if_pos hle,
      List.forall_mem_cons,hle]
    by_cases h : le x y = true
    · rw [if_pos h,List.cons.injEq,and_iff_right rfl,and_iff_right h]
      exact ih fun a ha => hdisj a (List.mem_cons_of_mem _ ha)
    · rw [if_neg h]
      exact iff_of_false (fun heq => hne (List.cons.inj heq).1) fun hall => h hall.1
  | case4 x xs y ys hle ih =>
    have hne : x ≠ y := fun h => hdisj x List.mem_cons_self (h ▸ List.mem_cons_self)
    have hfalse : le' x y = false := by simpa using hle
    rw [mergeCompares,if_neg hle,List.cons_merge_cons,List.cons_merge_cons,if_neg hle,
      List.forall_mem_cons,hfalse]
    by_cases h : le x y = true
    · rw [if_pos h]
      exact iff_of_false (fun heq => hne (List.cons.inj heq).1) fun hall => by simp [h] at hall
    · rw [if_neg h,List.cons.injEq,and_iff_right rfl,and_iff_right (by simpa using h)]
      exact ih fun a ha hy => hdisj a ha (List.mem_cons_of_mem _ hy)

end StableMerge
