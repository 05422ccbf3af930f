import Http2d.SortOrder
import Mathlib.Data.List.Perm.Basic

/-! The pairs that `http2d_list_sort` compares decide what it makes of a list.
The passes keep the order within a run, so what one comparison turns round stays turned round. -/
namespace Http2d

open StableMerge

section Decisions
variable {α : Type} {cmp cmp' : α → α → ℤ}

/-- The pairs that a pass compares. -/
def passCompares (cmp : α → α → ℤ) (insize : ℕ) : ℕ → List α → List (α × α)
  | 0, _ => []
  | fuel+1, l => mergeCompares (cmpLe cmp) (l.take insize) ((l.drop insize).take insize) ++
      passCompares cmp insize fuel (l.drop (insize+insize))

/-- The pairs that the passes compare, with runs of `2^k` entries and more. -/
def listComparesFrom (cmp : α → α → ℤ) (k : ℕ) (l : List α) : List (α × α) :=
  if (mergePass cmp (2^k) l.length l).2 ≤ 1 then passCompares cmp (2^k) l.length l
  else passCompares cmp (2^k) l.length l ++ listComparesFrom cmp (k+1) (mergePass cmp (2^k) l.length l).1
termination_by l.length-2^k
decreasing_by
  have := mergePass_merges cmp (not_le.mp ‹_›)
  have := Nat.two_pow_pos k
  rw [(mergePass_perm ..).length_eq,pow_succ]
  omega

/-- The pairs that `http2d_list_sort` compares. -/
def listCompares (cmp : α → α → ℤ) (l : List α) : List (α × α) := listComparesFrom cmp 0 l

/-- How many merges there are depends on the length only. -/
theorem mergePass_count_eq (cmp cmp' : α → α → ℤ) (s fuel : ℕ) (l : List α) :
    (mergePass cmp s fuel l).2 = (mergePass cmp' s fuel l).2 := by
  induction fuel generalizing l with
  | zero => cases l <;> rfl
  | succ fuel ih =>
    by_cases hne : l = []
    · rw [hne,mergePass_nil,mergePass_nil]
    · simp only [mergePass_cons hne,ih]

theorem listSortFrom_last {k : ℕ} {l : List α} (h : (mergePass cmp (2^k) l.length l).2 ≤ 1) :
    listSortFrom cmp k l = (mergePass cmp (2^k) l.length l).1 := by
  rw [listSortFrom,if_pos h]

theorem listSortFrom_next {k : ℕ} {l : List α} (h : ¬ (mergePass cmp (2^k) l.length l).2 ≤ 1) :
    listSortFrom cmp k l = listSortFrom cmp (k+1) (mergePass cmp (2^k) l.length l).1 := by
  rw [listSortFrom,if_neg h]

@[simp] theorem passCompares_nil (s fuel : ℕ) : passCompares cmp s fuel ([] : List α) = [] := by
  induction fuel with
  | zero => rfl
  | succ fuel ih => simp [passCompares,mergeCompares,ih]

theorem mem_passCompares {s fuel : ℕ} {l : List α} {p : α × α} (h : p ∈ passCompares cmp s fuel l) :
    p.1 ∈ l ∧ p.2 ∈ l := by
  induction fuel generalizing l with
  | zero => cases h
  | succ fuel ih =>
    rcases List.mem_append.mp h with h | h
    · obtain ⟨h1,h2⟩ := mem_mergeCompares h
      exact ⟨List.mem_of_mem_take h1,List.mem_of_mem_drop (List.mem_of_mem_take h2)⟩
    · exact ⟨List.mem_of_mem_drop (ih h).1,List.mem_of_mem_drop (ih h).2⟩

theorem mem_listComparesFrom {k : ℕ} {l : List α} {p : α × α} (h : p ∈ listComparesFrom cmp k l) :
    p.1 ∈ l ∧ p.2 ∈ l := by
  induction k, l using listComparesFrom.induct cmp with
  | case1 k l hone =>
    rw [listComparesFrom,if_pos hone] at h
    exact mem_passCompares h
  | case2 k l hmany ih =>
    rw [listComparesFrom,if_neg hmany] at h
    rcases List.mem_append.mp h with h | h
    · exact mem_passCompares h
    · have hperm := mergePass_perm cmp (2^k) l.length l
      exact ⟨hperm.mem_iff.mp (ih h).1,hperm.mem_iff.mp (ih h).2⟩

/-- Two comparisons make the same of a pass exactly when they answer alike for all its pairs. -/
theorem mergePass_eq_iff {s fuel : ℕ} {l : List α} (hl : l.Nodup) :
    (mergePass cmp s fuel l).1 = (mergePass cmp' s fuel l).1 ↔
      ∀ p ∈ passCompares cmp' s fuel l, cmpLe cmp p.1 p.2 = cmpLe cmp' p.1 p.2 := by
  induction fuel generalizing l with
  | zero => cases l <;> simp [mergePass,passCompares]
  | succ fuel ih =>
    by_cases hne : l = []
    · simp [hne]
    have hparts := hl
    rw [← take_drop_parts s l,List.append_assoc,List.nodup_append] at hparts
    have hdisj : ∀ x ∈ l.take s, x ∉ (l.drop s).take s :=
      fun x hx hy => hparts.2.2 x hx x (List.mem_append_left _ hy) rfl
    have hlen : ((l.take s).merge ((l.drop s).take s) (cmpLe cmp)).length =
        ((l.take s).merge ((l.drop s).take s) (cmpLe cmp')).length := by
      rw [List.length_merge,List.length_merge]
    rw [mergePass_cons hne,mergePass_cons hne,passCompares,List.forall_mem_append,
      ← merge_eq_merge_iff hdisj,← ih (hl.sublist (List.drop_sublist ..))]
    constructor
    · exact fun h => List.append_inj h hlen
    · rintro ⟨hmerge,hrest⟩
      simp only [hmerge,hrest]

/-- Lists with the same runs are the same. -/
theorem eq_of_runs {s : ℕ} (hs : 0 < s) {l l' : List α}
    (h : ∀ i, (l.drop (i*s)).take s = (l'.drop (i*s)).take s) : l = l' := by
  refine List.ext_getElem? fun j => ?_
  have hj := congrArg (fun run : List α => run[j%s]?) (h (j/s))
  simp only [List.getElem?_take_of_lt (Nat.mod_lt j hs),List.getElem?_drop] at hj
  rwa [Nat.div_add_mod'] at hj

/-- Runs are merged, and an order within one is not changed by that. -/
theorem run_sublist_mergePass (cmp : α → α → ℤ) {s : ℕ} (hs : 0 < s) (l : List α) (i : ℕ) :
    ((l.drop (i*s)).take s).Sublist (((mergePass cmp s l.length l).1.drop (i/2*(s+s))).take (s+s)) := by
  rw [mergePass_run _ l le_rfl hs]
  obtain ⟨j,rfl | rfl⟩ : ∃ j, i = 2*j ∨ i = 2*j+1 := ⟨i/2,by omega⟩
  · rw [show 2*j/2 = j by omega,show 2*j*s = j*(s+s) by ring]
    exact sublist_merge_left
  · rw [show (2*j+1)/2 = j by omega,show (2*j+1)*s = j*(s+s)+s by ring]
    exact sublist_merge_right

/-- The sorted list keeps the order of every run. -/
theorem listSortFrom_keepsRuns (cmp : α → α → ℤ) (k : ℕ) (l : List α) (i : ℕ) :
    ((l.drop (i*2^k)).take (2^k)).Sublist (listSortFrom cmp k l) := by
  induction k, l using listSortFrom.induct cmp generalizing i with
  | case1 k l hone =>
    rw [listSortFrom_last hone]
    exact (run_sublist_mergePass cmp (Nat.two_pow_pos k) l i).trans
      ((List.take_sublist ..).trans (List.drop_sublist ..))
  | case2 k l hmany ih =>
    rw [listSortFrom_next hmany]
    have hrun := run_sublist_mergePass cmp (Nat.two_pow_pos k) l i
    rw [← Nat.mul_two,← pow_succ] at hrun
    exact hrun.trans (ih (i/2))

/-- When the sorted lists are the same, so were those after the pass. -/
theorem mergePass_eq_of_sorted {k : ℕ} {l : List α} (hl : l.Nodup)
    (h : listSortFrom cmp (k+1) (mergePass cmp (2^k) l.length l).1 =
      listSortFrom cmp' (k+1) (mergePass cmp' (2^k) l.length l).1) :
    (mergePass cmp (2^k) l.length l).1 = (mergePass cmp' (2^k) l.length l).1 := by
  have hnodup : (listSortFrom cmp (k+1) (mergePass cmp (2^k) l.length l).1).Nodup :=
    ((listSortFrom_perm ..).trans (mergePass_perm ..)).nodup_iff.mpr hl
  refine eq_of_runs (Nat.two_pow_pos (k+1)) fun i => ?_
  have hrun := listSortFrom_keepsRuns cmp (k+1) (mergePass cmp (2^k) l.length l).1 i
  have hrun' := listSortFrom_keepsRuns cmp' (k+1) (mergePass cmp' (2^k) l.length l).1 i
  rw [← h] at hrun'
  refine (hnodup.perm_iff_eq_of_sublist hrun hrun').mp ?_
  rw [pow_succ,Nat.mul_two,mergePass_run _ l le_rfl (Nat.two_pow_pos k),
    mergePass_run _ l le_rfl (Nat.two_pow_pos k)]
  exact (List.merge_perm_append ..).trans (List.merge_perm_append ..).symm

theorem listSortFrom_eq_iff {k : ℕ} {l : List α} (hl : l.Nodup) :
    listSortFrom cmp k l = listSortFrom cmp' k l ↔
      ∀ p ∈ listComparesFrom cmp' k l, cmpLe cmp p.1 p.2 = cmpLe cmp' p.1 p.2 := by
  induction k, l using listSortFrom.induct cmp' with
  | case1 k l hone =>
    rw [listSortFrom_last hone,listSortFrom_last (by rwa [mergePass_count_eq cmp cmp']),listComparesFrom,
      if_pos hone]
    exact mergePass_eq_iff hl
  | case2 k l hmany ih =>
    have hout : (mergePass cmp' (2^k) l.length l).1.Nodup := (mergePass_perm ..).nodup_iff.mpr hl
    rw [listSortFrom_next hmany,listSortFrom_next (by rwa [mergePass_count_eq cmp cmp']),listComparesFrom,
      if_neg hmany,List.forall_mem_append,← mergePass_eq_iff hl,← ih hout]
    constructor
    · intro h
      have hpass := mergePass_eq_of_sorted hl h
      exact ⟨hpass,by rwa [hpass] at h⟩
    · rintro ⟨hpass,hrest⟩
      rw [hpass,hrest]

/-- Two comparisons sort a list alike exactly when they answer alike for every pair that is compared
with one of them. -/
theorem listSort_eq_iff {l : List α} (hl : l.Nodup) : listSort cmp l = listSort cmp' l ↔
    ∀ p ∈ listCompares cmp' l, cmpLe cmp p.1 p.2 = cmpLe cmp' p.1 p.2 := listSortFrom_eq_iff hl

theorem mem_listCompares {l : List α} {p : α × α} (h : p ∈ listCompares cmp l) : p.1 ∈ l ∧ p.2 ∈ l :=
  mem_listComparesFrom h

end Decisions

section Keeping
variable {α β : Type}

/-- A comparison that turns nothing round leaves the list as it is. -/
theorem listSort_keep (l : List α) : listSort (fun _ _ => 0) l = l := by
  have hpass (s fuel : ℕ) (l : List α) : (mergePass (fun _ _ => 0) s fuel l).1 = l := by
    induction fuel generalizing l with
    | zero => cases l <;> rfl
    | succ fuel ih =>
      by_cases hne : l = []
      · simp [hne]
      · rw [mergePass_cons hne]
        simp only [ih]
        rw [List.merge_of_le fun a b _ _ => by simp [cmpLe],take_drop_parts]
  rw [listSort]
  generalize 0 = k
  induction k, l using listSortFrom.induct (fun _ _ : α => 0) with
  | case1 k l hone => rw [listSortFrom_last hone,hpass]
  | case2 k l hmany ih => rw [listSortFrom_next hmany,ih,hpass]

/-- Entries that are compared by something of theirs are sorted as that is. -/
theorem listSort_map {cmp : α → α → ℤ} {cmp' : β → β → ℤ} {f : α → β} (h : ∀ a b, cmp a b = cmp' (f a) (f b))
    (l : List α) : (listSort cmp l).map f = listSort cmp' (l.map f) := by
  have hpass (s fuel : ℕ) (l : List α) :
      (mergePass cmp s fuel l).1.map f = (mergePass cmp' s fuel (l.map f)).1 ∧
      (mergePass cmp s fuel l).2 = (mergePass cmp' s fuel (l.map f)).2 := by
    induction fuel generalizing l with
    | zero => cases l <;> exact ⟨rfl,rfl⟩
    | succ fuel ih =>
      by_cases hne : l = []
      · simp [hne]
      · obtain ⟨hrest,hcount⟩ := ih (l.drop (s+s))
        rw [mergePass_cons hne,mergePass_cons (by simpa using hne)]
        rw [List.map_drop] at hrest hcount
        refine ⟨?_,congrArg Nat.succ hcount⟩
        rw [List.map_append,hrest,List.map_merge (s:=cmpLe cmp') fun a _ b _ => by simp [cmpLe,h],
          List.map_take,List.map_take,List.map_drop]
  rw [listSort,listSort]
  generalize 0 = k
  induction k, l using listSortFrom.induct cmp with
  | case1 k l hone =>
    obtain ⟨hout,hcount⟩ := hpass (2^k) l.length l
    rw [listSortFrom_last hone,listSortFrom_last (by rwa [List.length_map,← hcount]),hout,List.length_map]
  | case2 k l hmany ih =>
    obtain ⟨hout,hcount⟩ := hpass (2^k) l.length l
    rw [listSortFrom_next hmany,ih,listSortFrom_next (k:=k) (l:=l.map f) (by rwa [List.length_map,← hcount]),
      hout,List.length_map]

end Keeping

end Http2d
