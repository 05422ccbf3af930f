import Mathlib.Data.List.TakeWhile
import Mathlib.Tactic

/-! Occurrences of one list in another, and their replacement.
Occurrences are taken from the left and do not overlap. -/
namespace Occurrences

variable {α : Type*} [DecidableEq α]

/-- What is in front of the first occurrence and what is behind it. -/
def splitFirst (pat : List α) : List α → Option (List α × List α)
  | [] => none
  | c::s =>
    if pat <+: c::s then some ([],(c::s).drop pat.length)
    else (splitFirst pat s).map fun r => (c::r.1,r.2)

/-- The replacement while `k` elements of the last occurrence are still to be skipped. -/
def replaceFrom (pat rep : List α) : ℕ → List α → List α
  | _, [] => []
  | k+1, _::s => replaceFrom pat rep k s
  | 0, c::s =>
    if pat <+: c::s then rep ++ replaceFrom pat rep (pat.length-1) s else c::replaceFrom pat rep 0 s

/-- All occurrences of `pat` are replaced by `rep`. -/
def replaceAll (pat rep s : List α) : List α := replaceFrom pat rep 0 s

variable {pat rep s pre post : List α}

theorem replaceFrom_skip (k : ℕ) (s : List α) :
    replaceFrom pat rep k s = replaceAll pat rep (s.drop k) := by
  induction s generalizing k with
  | nil => cases k <;> rfl
  | cons c s ih =>
    cases k with
    | zero => rfl
    | succ k => exact ih k

@[simp] theorem replaceAll_nil : replaceAll pat rep [] = [] := rfl

theorem replaceAll_here {c : α} (hpat : pat ≠ []) (h : pat <+: c::s) :
    replaceAll pat rep (c::s) = rep ++ replaceAll pat rep ((c::s).drop pat.length) := by
  obtain ⟨n,hn⟩ : ∃ n, pat.length = n+1 := Nat.exists_eq_add_one.mpr (List.length_pos_iff.mpr hpat)
  rw [replaceAll,replaceFrom,if_pos h,replaceFrom_skip,hn,List.drop_succ_cons,Nat.add_sub_cancel]

theorem replaceAll_skip {c : α} (h : ¬ pat <+: c::s) :
    replaceAll pat rep (c::s) = c::replaceAll pat rep s := if_neg h

theorem splitFirst_some (h : splitFirst pat s = some (pre,post)) : s = pre ++ pat ++ post := by
  induction s generalizing pre post with
  | nil => cases h
  | cons c s ih =>
    rw [splitFirst] at h
    split_ifs at h with hp
    · obtain ⟨t,ht⟩ := hp
      cases h
      rw [← ht,List.drop_left,List.nil_append]
    · obtain ⟨r,hr,hpair⟩ := Option.map_eq_some_iff.mp h
      cases hpair
      rw [List.cons_append,List.cons_append,← ih hr]

/-- A list without an occurrence stays as it is. -/
theorem replaceAll_none (h : splitFirst pat s = none) : replaceAll pat rep s = s := by
  induction s with
  | nil => rfl
  | cons c s ih =>
    rw [splitFirst] at h
    split_ifs at h with hp
    rw [replaceAll_skip hp,ih (Option.map_eq_none_iff.mp h)]

variable (rep) in
/-- The first occurrence is replaced, and then those behind it. -/
theorem replaceAll_some (hpat : pat ≠ []) (h : splitFirst pat s = some (pre,post)) :
    replaceAll pat rep s = pre ++ rep ++ replaceAll pat rep post := by
  induction s generalizing pre post with
  | nil => cases h
  | cons c s ih =>
    rw [splitFirst] at h
    split_ifs at h with hp
    · cases h
      rw [replaceAll_here hpat hp,List.nil_append]
    · obtain ⟨r,hr,hpair⟩ := Option.map_eq_some_iff.mp h
      cases hpair
      rw [replaceAll_skip hp,ih hr,List.cons_append,List.cons_append]

/-- There is a first occurrence when there is one at all. -/
theorem splitFirst_eq_none_iff (hpat : pat ≠ []) : splitFirst pat s = none ↔ ¬ pat <:+: s := by
  induction s with
  | nil => simp [splitFirst,hpat]
  | cons c s ih =>
    rw [splitFirst,List.infix_cons_iff,not_or]
    split_ifs with hp
    · simp [hp]
    · rw [Option.map_eq_none_iff,ih]
      simp [hp]

variable (rep) in
/-- Every occurrence changes the length by as much. -/
theorem replaceAll_length (hpat : pat ≠ []) (s : List α) : ∃ k : ℕ,
    ((replaceAll pat rep s).length : ℤ) = s.length+k*(rep.length-pat.length) := by
  obtain ⟨n,hn⟩ : ∃ n, s.length = n := ⟨_,rfl⟩
  induction n using Nat.strong_induction_on generalizing s with
  | _ n ih =>
    cases hc : splitFirst pat s with
    | none => exact ⟨0,by rw [replaceAll_none hc]; simp⟩
    | some r =>
      obtain ⟨pre,post⟩ := r
      have hlen := congrArg List.length (splitFirst_some hc)
      have hpos := List.length_pos_iff.mpr hpat
      simp only [List.length_append] at hlen
      obtain ⟨k,hk⟩ := ih post.length (by omega) post rfl
      refine ⟨k+1,?_⟩
      rw [replaceAll_some rep hpat hc]
      simp only [List.length_append]
      push_cast
      rw [hk]
      have : (s.length : ℤ) = pre.length+pat.length+post.length := by exact_mod_cast hlen
      rw [this]
      ring

section Pieces
variable {sep : α → Bool} {c : α} {w : List α}

omit [DecidableEq α] in
theorem prefix_separator (hne : pat ≠ []) (hpat : c ∉ pat) : pat <+: w ++ c::s ↔ pat <+: w := by
  induction w generalizing pat with
  | nil =>
    cases pat with
    | nil => exact absurd rfl hne
    | cons x pat =>
      refine iff_of_false (fun h => ?_) (by simp)
      rw [List.nil_append,List.cons_prefix_cons] at h
      exact hpat (by simp [h.1])
  | cons y w ih =>
    cases pat with
    | nil => exact absurd rfl hne
    | cons x pat =>
      rw [List.cons_append,List.cons_prefix_cons,List.cons_prefix_cons]
      cases pat with
      | nil => simp
      | cons z pat => rw [ih (List.cons_ne_nil z pat) fun h => hpat (List.mem_cons_of_mem x h)]

/-- A separator is not inside an occurrence. -/
theorem splitFirst_separator (hne : pat ≠ []) (hpat : c ∉ pat) : splitFirst pat (w ++ c::s) =
    match splitFirst pat w with
    | some r => some (r.1,r.2 ++ c::s)
    | none => (splitFirst pat s).map fun r => (w ++ c::r.1,r.2) := by
  induction w with
  | nil =>
    have hno : ¬ pat <+: c::s := fun h =>
      hne (List.prefix_nil.mp ((prefix_separator (w:=[]) hne hpat).mp h))
    exact if_neg hno
  | cons y w ih =>
    have hiff : pat <+: y::(w ++ c::s) ↔ pat <+: y::w := prefix_separator (w:=y::w) hne hpat
    rw [List.cons_append,splitFirst,splitFirst,ih]
    by_cases hp : pat <+: y::w
    · have hle := hp.length_le
      rw [if_pos (hiff.mpr hp),if_pos hp]
      simp only [Option.some.injEq,Prod.mk.injEq,true_and]
      have hcut : ((y::w) ++ c::s).drop pat.length = (y::w).drop pat.length ++ c::s :=
        List.drop_append_of_le_length hle
      exact hcut
    · rw [if_neg (fun h => hp (hiff.mp h)),if_neg hp]
      cases splitFirst pat w with
      | some r => rfl
      | none =>
        rw [Option.map_none,Option.map_map]
        rfl

theorem infix_of_splitFirst (hne : pat ≠ []) {s : List α} {r : List α × List α}
    (h : splitFirst pat s = some r) : pat <:+: s := by
  by_contra hno
  rw [(splitFirst_eq_none_iff hne).mpr hno] at h
  cases h

omit [DecidableEq α] in
/-- A text is one piece, or the first piece ends at a separator. -/
theorem exists_separator (sep : α → Bool) (s : List α) : (∀ x ∈ s, sep x = false) ∨
    ∃ w c rest, s = w ++ c::rest ∧ (∀ x ∈ w, sep x = false) ∧ sep c = true := by
  induction s with
  | nil => exact Or.inl (by simp)
  | cons y s ih =>
    cases hy : sep y with
    | true => exact Or.inr ⟨[],y,s,rfl,by simp,hy⟩
    | false =>
      rcases ih with hall | ⟨w,c,rest,rfl,hw,hc⟩
      · exact Or.inl (List.forall_mem_cons.mpr ⟨hy,hall⟩)
      · exact Or.inr ⟨y::w,c,rest,rfl,List.forall_mem_cons.mpr ⟨hy,hw⟩,hc⟩

/-- The first occurrence in a text is the first in the first of its pieces that has one. -/
theorem splitFirst_pieces (hne : pat ≠ []) (hpat : ∀ x ∈ pat, sep x = false) (s : List α) :
    ((s.splitOnP sep).find? (pat <:+: ·) = none ∧ splitFirst pat s = none) ∨
    ∃ m a b front back, (s.splitOnP sep).find? (pat <:+: ·) = some m ∧ (∀ x ∈ m, sep x = false) ∧
      splitFirst pat m = some (a,b) ∧ splitFirst pat s = some (front,b ++ back) ∧
      ∀ x ∈ back.head?, sep x = true := by
  obtain ⟨n,hn⟩ : ∃ n, s.length = n := ⟨_,rfl⟩
  induction n using Nat.strong_induction_on generalizing s with
  | _ n ih =>
    rcases exists_separator sep s with hs | ⟨w,c,rest,rfl,hfront,hc⟩
    · rw [List.splitOnP_eq_singleton hs]
      cases hcut : splitFirst pat s with
      | none =>
        have hno := (splitFirst_eq_none_iff hne).mp hcut
        exact Or.inl ⟨by simp [hno],rfl⟩
      | some r =>
        have hin := infix_of_splitFirst hne hcut
        exact Or.inr ⟨s,r.1,r.2,r.1,[],by simp [hin],hs,hcut,by simp,by simp⟩
    · rw [List.splitOnP_append_cons_of_forall_mem hfront c hc,List.find?_cons,
        splitFirst_separator hne fun h => by simp [hpat c h] at hc]
      cases hw : splitFirst pat w with
      | some r =>
        have hin := infix_of_splitFirst hne hw
        exact Or.inr ⟨w,r.1,r.2,r.1,c::rest,by simp [hin],hfront,hw,rfl,by simp [hc]⟩
      | none =>
        have hno := (splitFirst_eq_none_iff hne).mp hw
        rw [decide_eq_false hno]
        have hlen : rest.length < n := by
          rw [List.length_append,List.length_cons] at hn
          omega
        rcases ih rest.length hlen rest rfl with
          ⟨hnone,hrest⟩|⟨m,a,b,front,back,hm,hmem,hcutm,hrest,hback⟩
        · exact Or.inl ⟨hnone,by rw [hrest]; rfl⟩
        · exact Or.inr ⟨m,a,b,w ++ c::front,back,hm,hmem,hcutm,by rw [hrest]; rfl,hback⟩

end Pieces
end Occurrences

/-! The place at which a search from the left stops. -/
namespace Occurrences

/-- `r` is the first place with the property, if there is one. -/
def First (P : ℕ → Prop) : Option ℕ → Prop
  | some i => P i ∧ ∀ j < i, ¬ P j
  | none => ∀ i, ¬ P i

variable {P : ℕ → Prop} {r : Option ℕ}

/-- Behind a place without the property. -/
theorem First.shift (h0 : ¬ P 0) (hr : First (fun i => P (i+1)) r) : First P (r.map (·+1)) := by
  cases r with
  | none =>
    rintro (_|i)
    · exact h0
    · exact hr i
  | some i =>
    refine ⟨hr.1,?_⟩
    rintro (_|j) hj
    · exact h0
    · exact hr.2 j (Nat.lt_of_succ_lt_succ hj)

/-- A search for a wider property is right when none of its places comes too early. -/
theorem First.narrow_iff (hsub : ∀ i, P i → Q i) (hr : First Q r) :
    First P r ↔ ∀ i, Q i → ∃ j ≤ i, P j := by
  cases r with
  | none =>
    exact iff_of_true (fun i hi => hr i (hsub i hi)) fun i hi => absurd hi (hr i)
  | some k =>
    constructor
    · intro hp i hi
      refine ⟨k,?_,hp.1⟩
      by_contra hlt
      exact hr.2 i (not_le.mp hlt) hi
    · intro h
      obtain ⟨j,hj,hpj⟩ := h k hr.1
      rcases eq_or_lt_of_le hj with rfl|hlt
      · exact ⟨hpj,fun i hi hp => hr.2 i hi (hsub i hp)⟩
      · exact absurd (hsub j hpj) (hr.2 j hlt)

end Occurrences

/-! Taking occurrences out until there is none; what is left of a cut may make up a new one. -/
namespace Occurrences

variable {α : Type*} [DecidableEq α] {pat s : List α} {r : List α × List α}

theorem splitFirst_shorter (hpat : pat ≠ []) (h : splitFirst pat s = some r) :
    (r.1 ++ r.2).length+pat.length = s.length ∧ (r.1 ++ r.2).length < s.length := by
  have hs : s = r.1 ++ pat ++ r.2 := splitFirst_some h
  have hlen := congrArg List.length hs
  have hpos := List.length_pos_iff.mpr hpat
  simp only [List.length_append] at hlen ⊢
  omega

/-- The first occurrence is taken out, then the first one of what is left, and so on. -/
def deleteAll (pat : List α) (hpat : pat ≠ []) (s : List α) : List α :=
  match _h : splitFirst pat s with
  | none => s
  | some r => deleteAll pat hpat (r.1 ++ r.2)
termination_by s.length
decreasing_by exact (splitFirst_shorter hpat ‹_›).2

variable {hpat : pat ≠ []}

theorem deleteAll_none (h : splitFirst pat s = none) : deleteAll pat hpat s = s := by
  unfold deleteAll
  split
  · rfl
  · rename_i r hr
    rw [h] at hr
    cases hr

theorem deleteAll_some (h : splitFirst pat s = some r) :
    deleteAll pat hpat s = deleteAll pat hpat (r.1 ++ r.2) := by
  rw [deleteAll]
  split
  · rename_i hr
    rw [h] at hr
    cases hr
  · rename_i r' hr
    rw [h] at hr
    cases hr
    rfl

/-- No occurrence is left. -/
theorem deleteAll_clear (s : List α) : ¬ pat <:+: deleteAll pat hpat s := by
  induction s using deleteAll.induct pat hpat with
  | case1 s h =>
    rw [deleteAll_none h]
    exact (splitFirst_eq_none_iff hpat).mp h
  | case2 s r h ih => rwa [deleteAll_some h]

theorem deleteAll_sublist (s : List α) : (deleteAll pat hpat s).Sublist s := by
  induction s using deleteAll.induct pat hpat with
  | case1 s h => rw [deleteAll_none h]
  | case2 s r h ih =>
    have hs : s = r.1 ++ pat ++ r.2 := splitFirst_some h
    rw [deleteAll_some h]
    conv_rhs => rw [hs,List.append_assoc]
    exact ih.trans ((List.sublist_append_right ..).append_left _)

end Occurrences
