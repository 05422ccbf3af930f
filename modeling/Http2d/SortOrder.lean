import Http2d.ConfigSort
import Http2d.Library.StableMerge

/-! What the passes of `http2d_list_sort` make of a list: how many merges there are, how long the
sorted runs get, and that equal entries keep their order. -/
namespace Http2d

open StableMerge

variable {α : Type} {cmp : α → α → ℤ}

/-- The comparison as the relation that the merges look at. -/
def cmpLe (cmp : α → α → ℤ) (a b : α) : Bool := cmp a b ≤ 0

theorem mergePass_cons {insize fuel : ℕ} {l : List α} (hne : l ≠ []) :
    mergePass cmp insize (fuel+1) l =
      ((l.take insize).merge ((l.drop insize).take insize) (cmpLe cmp) ++
          (mergePass cmp insize fuel (l.drop (insize+insize))).1,
        (mergePass cmp insize fuel (l.drop (insize+insize))).2+1) := by
  rw [mergePass]
  · rfl
  · exact hne

@[simp] theorem mergePass_nil (insize fuel : ℕ) : mergePass cmp insize fuel ([] : List α) = ([],0) := by
  cases fuel <;> simp [mergePass]

/-- The three parts of a list that a merge looks at. -/
theorem take_drop_parts (s : ℕ) (l : List α) :
    l.take s ++ (l.drop s).take s ++ l.drop (s+s) = l := by
  rw [List.append_assoc,← List.drop_drop,List.take_append_drop,List.take_append_drop]

/-- Half as many merges as there are entries, at most. -/
theorem mergePass_count_le (cmp : α → α → ℤ) {insize : ℕ} (hs : 0 < insize) (fuel : ℕ) (l : List α) :
    (mergePass cmp insize fuel l).2*2 ≤ l.length+1 := by
  induction fuel generalizing l with
  | zero => cases l <;> simp [mergePass]
  | succ fuel ih =>
    by_cases hne : l = []
    · subst hne
      simp [mergePass]
    · have hrest := ih (l.drop (insize+insize))
      have hpos := List.length_pos_of_ne_nil hne
      rw [mergePass_cons hne]
      rw [List.length_drop] at hrest
      by_cases hlen : l.length ≤ insize+insize
      · have hnil : l.drop (insize+insize) = [] := List.drop_eq_nil_of_le hlen
        simp only [hnil,mergePass_nil]
        omega
      · simp only
        omega

/-- A pass with one merge has sorted the whole list. -/
theorem one_lt_mergePass_count (cmp : α → α → ℤ) {insize fuel : ℕ} {l : List α}
    (hlen : insize+insize < l.length) (hfuel : l.length ≤ fuel) (hs : 0 < insize) : 1 < (mergePass cmp insize fuel l).2 := by
  have hne : l ≠ [] := List.ne_nil_of_length_pos (by omega)
  obtain ⟨fuel,rfl⟩ : ∃ k, fuel = k+1 := ⟨fuel-1,by omega⟩
  have hne' : l.drop (insize+insize) ≠ [] := List.ne_nil_of_length_pos (by rw [List.length_drop]; omega)
  obtain ⟨fuel,rfl⟩ : ∃ k, fuel = k+1 := ⟨fuel-1,by omega⟩
  rw [mergePass_cons hne,mergePass_cons hne']
  simp only
  omega

/-- Each run of a pass is the merge of two runs. -/
theorem mergePass_run {s : ℕ} (fuel : ℕ) (l : List α) (hfuel : l.length ≤ fuel) (hs : 0 < s) (i : ℕ) :
    ((mergePass cmp s fuel l).1.drop (i*(s+s))).take (s+s) =
      ((l.drop (i*(s+s))).take s).merge ((l.drop (i*(s+s)+s)).take s) (cmpLe cmp) := by
  induction fuel generalizing l i with
  | zero =>
    rw [List.eq_nil_of_length_eq_zero (Nat.le_zero.mp hfuel)]
    simp
  | succ fuel ih =>
    by_cases hne : l = []
    · subst hne
      simp
    have hpos := List.length_pos_of_ne_nil hne
    have hlen : ((l.take s).merge ((l.drop s).take s) (cmpLe cmp)).length = min (s+s) l.length := by
      rw [List.length_merge,List.length_take,List.length_take,List.length_drop]
      omega
    rw [mergePass_cons hne]
    by_cases hshort : l.length ≤ s+s
    · rw [min_eq_right hshort] at hlen
      simp only [List.drop_eq_nil_of_le hshort,mergePass_nil,List.append_nil]
      cases i with
      | zero =>
        rw [Nat.zero_mul,List.drop_zero,List.drop_zero,Nat.zero_add,List.take_of_length_le (hlen ▸ hshort)]
      | succ i =>
        have hle : s+s ≤ (i+1)*(s+s) := Nat.le_mul_of_pos_left _ (Nat.succ_pos i)
        rw [List.drop_eq_nil_of_le (by omega),List.drop_eq_nil_of_le (by omega),
          List.drop_eq_nil_of_le (by omega)]
        simp
    · rw [min_eq_left (by omega)] at hlen
      cases i with
      | zero => rw [Nat.zero_mul,List.drop_zero,List.drop_zero,Nat.zero_add,List.take_left' hlen]
      | succ i =>
        have hi : (i+1)*(s+s) = s+s+i*(s+s) := by ring
        rw [hi,← List.drop_drop,List.drop_left' hlen,ih _ (by rw [List.length_drop]; omega),List.drop_drop,
          List.drop_drop]
        simp only [Nat.add_assoc]

section Order
variable (htotal : ∀ a b, cmp a b ≤ 0 ∨ cmp b a ≤ 0)
  (htrans : ∀ a b c, cmp a b ≤ 0 → cmp b c ≤ 0 → cmp a c ≤ 0)

/-- All runs of `s` entries, the last of which may be shorter, are sorted. -/
def SortedRuns (cmp : α → α → ℤ) (s : ℕ) (l : List α) : Prop :=
  ∀ i, ((l.drop (i*s)).take s).Pairwise (cmpLe cmp · ·)

theorem sortedRuns_one (l : List α) : SortedRuns cmp 1 l := by
  intro i
  rw [Nat.mul_one]
  cases hd : l.drop i with
  | nil => exact List.Pairwise.nil
  | cons x xs => exact List.pairwise_singleton ..

theorem SortedRuns.drop {s : ℕ} {l : List α} (h : SortedRuns cmp s l) : SortedRuns cmp s (l.drop (s+s)) := by
  intro i
  have hi := h (i+2)
  rwa [show (i+2)*s = s+s+i*s by ring,← List.drop_drop] at hi

theorem SortedRuns.whole {s : ℕ} {l : List α} (h : SortedRuns cmp s l) (hlen : l.length ≤ s) :
    l.Pairwise (cmpLe cmp · ·) := by
  have h0 := h 0
  rwa [Nat.zero_mul,List.drop_zero,List.take_of_length_le hlen] at h0

theorem SortedRuns.first {s : ℕ} {l : List α} (h : SortedRuns cmp s l) :
    (l.take s).Pairwise (cmpLe cmp · ·) ∧ ((l.drop s).take s).Pairwise (cmpLe cmp · ·) := by
  have h0 := h 0
  have h1 := h 1
  rw [Nat.zero_mul,List.drop_zero] at h0
  rw [Nat.one_mul] at h1
  exact ⟨h0,h1⟩

include htrans in
theorem cmpLe_trans (a b c : α) (hab : cmpLe cmp a b) (hbc : cmpLe cmp b c) : cmpLe cmp a c := by
  simp only [cmpLe,decide_eq_true_eq] at hab hbc ⊢
  exact htrans a b c hab hbc

include htotal htrans

/-- A pass doubles the length of the sorted runs. -/
theorem mergePass_runs {s : ℕ} (fuel : ℕ) (l : List α) (hfuel : l.length ≤ fuel) (hs : 0 < s)
    (h : SortedRuns cmp s l) : SortedRuns cmp (s+s) (mergePass cmp s fuel l).1 := by
  intro i
  have hfirst := h (2*i)
  have hsecond := h (2*i+1)
  rw [show 2*i*s = i*(s+s) by ring] at hfirst
  rw [show (2*i+1)*s = i*(s+s)+s by ring] at hsecond
  rw [mergePass_run fuel l hfuel hs]
  exact List.pairwise_merge (cmpLe_trans htrans) (fun a b => by simpa [cmpLe] using htotal a b) _ _
    hfirst hsecond

omit htotal in
theorem mergePass_rearranges {s : ℕ} (fuel : ℕ) (l : List α) (h : SortedRuns cmp s l) :
    Rearranges (cmpLe cmp) l (mergePass cmp s fuel l).1 := by
  induction fuel generalizing l with
  | zero => cases l <;> exact .refl _
  | succ fuel ih =>
    by_cases hne : l = []
    · subst hne
      simpa [mergePass] using .refl _
    · rw [mergePass_cons hne]
      have hmerge : Rearranges (cmpLe cmp) (l.take s ++ (l.drop s).take s)
          ((l.take s).merge ((l.drop s).take s) (cmpLe cmp)) :=
        .merge (cmpLe_trans htrans) h.first.1
      have hboth := hmerge.append (ih _ h.drop)
      rwa [take_drop_parts] at hboth

theorem listSortFrom_sorted (k : ℕ) (l : List α) (h : SortedRuns cmp (2^k) l) :
    (listSortFrom cmp k l).Pairwise (cmpLe cmp · ·) ∧
      Rearranges (cmpLe cmp) l (listSortFrom cmp k l) := by
  have hpos : 0 < 2^k := Nat.two_pow_pos k
  induction k, l using listSortFrom.induct cmp with
  | case1 k l hone =>
    have hlen : l.length ≤ 2^k+2^k := by
      by_contra hlt
      exact absurd (one_lt_mergePass_count cmp (not_le.mp hlt) le_rfl hpos) (not_lt.mpr hone)
    rw [listSortFrom,if_pos hone]
    refine ⟨(mergePass_runs htotal htrans _ l le_rfl hpos h).whole ?_,mergePass_rearranges htrans _ l h⟩
    rwa [(mergePass_perm ..).length_eq]
  | case2 k l hmany ih =>
    rw [listSortFrom,if_neg hmany]
    have hruns := mergePass_runs htotal htrans _ l le_rfl hpos h
    obtain ⟨hsorted,hkeeps⟩ := ih (by rwa [pow_succ,Nat.mul_two]) (Nat.two_pow_pos _)
    exact ⟨hsorted,(mergePass_rearranges htrans _ l h).trans hkeeps⟩

/-- The passes sort, and keep equal entries in order. -/
theorem listSort_sorted (l : List α) : (listSort cmp l).Pairwise (cmp · · ≤ 0) ∧
    ∀ a b, [a,b].Sublist l → cmp a b ≤ 0 → [a,b].Sublist (listSort cmp l) := by
  obtain ⟨hsorted,hkeeps⟩ := listSortFrom_sorted htotal htrans 0 l (sortedRuns_one l)
  exact ⟨hsorted.imp fun h => by simpa [cmpLe] using h,
    fun a b hab hle => hkeeps.keeps a b hab (by simpa [cmpLe] using hle)⟩

end Order

end Http2d
