import Http2d.Library.AvlTree

/-! Search trees: the way down to a key, and the order of the elements around its end.
Elements carry keys, and a comparison of keys tells by its sign which way to go. -/
namespace SearchTree

open BinaryTree AvlTree

variable {α : Type*}

/-- The way down to where an element would be: `ord` is the sign of what is looked for against an
element. The way ends at an element of sign zero or at an empty subtree. -/
def descend (ord : α → ℤ) : Context α → BinaryTree α → Context α × BinaryTree α
  | c, .nil => (c,.nil)
  | c, .node p l r =>
    if ord p < 0 then descend ord (.left p r::c) l
    else if 0 < ord p then descend ord (.right l p::c) r
    else (c,.node p l r)

theorem plug_descend (ord : α → ℤ) (c : Context α) (t : BinaryTree α) :
    (descend ord c t).1.plug (descend ord c t).2 = c.plug t := by
  induction t generalizing c with
  | nil => rfl
  | node p l r ihl ihr =>
    unfold descend
    split_ifs
    · exact ihl _
    · exact ihr _
    · rfl

/-- The elements that the way down looks at. -/
def looked (e : Context α × BinaryTree α) : List α := e.2.root.toList++e.1.map Frame.elem

theorem suffix_descend (ord : α → ℤ) (c : Context α) (t : BinaryTree α) : c <:+ (descend ord c t).1 := by
  induction t generalizing c with
  | nil => exact List.suffix_refl c
  | node p l r ihl ihr =>
    rw [descend]
    split_ifs
    · exact (List.suffix_cons _ _).trans (ihl _)
    · exact (List.suffix_cons _ _).trans (ihr _)
    · exact List.suffix_refl c

theorem looked_descend (ord : α → ℤ) (t : BinaryTree α) :
    ∀ p ∈ looked (descend ord [] t), p ∈ t.toList := by
  intro p hp
  have hplug : (descend ord [] t).1.plug (descend ord [] t).2 = t := plug_descend ord [] t
  rw [← hplug]
  refine (Context.toList_plug_perm _ _).mem_iff.mpr (List.mem_append.mpr ?_)
  rcases List.mem_append.mp hp with hp | hp
  · exact Or.inl (root_mem (Option.mem_toList.mp hp))
  · exact Or.inr (Context.elem_mem_names hp)

/-- Only the signs at the elements that are looked at decide the way down. -/
theorem descend_congr {ord ord' : α → ℤ} (c : Context α) (t : BinaryTree α)
    (h : ∀ p ∈ looked (descend ord c t), (ord p).sign = (ord' p).sign) :
    descend ord c t = descend ord' c t := by
  induction t generalizing c with
  | nil => rfl
  | node p l r ihl ihr =>
    have hlook (f : Frame α) (s : BinaryTree α) (hf : f.elem = p) : p ∈ looked (descend ord (f::c) s) := by
      have hmem := (suffix_descend ord (f::c) s).subset List.mem_cons_self
      exact List.mem_append_right _ (hf ▸ List.mem_map_of_mem hmem)
    have hsame (hp : (ord p).sign = (ord' p).sign) : (ord p < 0 ↔ ord' p < 0) ∧ (0 < ord p ↔ 0 < ord' p) :=
      ⟨by rw [← Int.sign_neg_iff,hp,Int.sign_neg_iff],by rw [← Int.sign_pos_iff,hp,Int.sign_pos_iff]⟩
    rw [descend] at h ⊢
    rw [descend]
    by_cases hlow : ord p < 0
    · rw [if_pos hlow] at h ⊢
      rw [if_pos ((hsame (h p (hlook (.left p r) l rfl))).1.mp hlow)]
      exact ihl _ h
    · rw [if_neg hlow] at h ⊢
      by_cases hhigh : 0 < ord p
      · rw [if_pos hhigh] at h ⊢
        obtain ⟨hneg,hpos⟩ := hsame (h p (hlook (.right l p) r rfl))
        rw [if_neg (mt hneg.mpr hlow),if_pos (hpos.mp hhigh)]
        exact ihr _ h
      · rw [if_neg hhigh] at h ⊢
        obtain ⟨hneg,hpos⟩ := hsame (h p (by simp [looked]))
        rw [if_neg (mt hneg.mpr hlow),if_neg (mt hpos.mpr hhigh)]

/-- The way ends where the sign is zero. -/
theorem descend_root (ord : α → ℤ) (c : Context α) (t : BinaryTree α) {p : α}
    (h : (descend ord c t).2.root = some p) : ord p = 0 := by
  induction t generalizing c with
  | nil => cases h
  | node q l r ihl ihr =>
    unfold descend at h
    split_ifs at h with hlow hhigh
    · exact ihl _ h
    · exact ihr _ h
    · cases h
      omega

/-- The signs fall along a list. -/
def Falling (ord : α → ℤ) (xs : List α) : Prop :=
  xs.Pairwise fun x y => (0 ≤ ord y → 0 < ord x) ∧ (ord x ≤ 0 → ord y < 0)

/-- Where the signs fall along the elements, those around the end of the way differ from what was
looked for. -/
theorem descend_split (ord : α → ℤ) (c : Context α) (t : BinaryTree α)
    (hfall : Falling ord (c.plug t).toList) (hbefore : ∀ x ∈ c.before, 0 < ord x)
    (hafter : ∀ x ∈ c.after, ord x < 0) :
    (∀ x ∈ (descend ord c t).1.before, 0 < ord x) ∧
      ∀ x ∈ (descend ord c t).1.after, ord x < 0 := by
  induction t generalizing c with
  | nil => exact ⟨hbefore,hafter⟩
  | node p l r ihl ihr =>
    have hlist := hfall
    rw [Context.toList_plug] at hlist
    simp only [Falling,toList,List.pairwise_append,List.pairwise_cons,List.mem_append,
      List.mem_cons] at hlist
    unfold descend
    split_ifs with hlow hhigh
    · refine ihl _ hfall hbefore fun x hx => ?_
      simp only [Context.after,List.cons_append,List.mem_cons,List.mem_append] at hx
      rcases hx with rfl | hx | hx
      · exact hlow
      · exact (hlist.1.2.1.2.1.1 x hx).2 hlow.le
      · exact hafter x hx
    · refine ihr _ hfall (fun x hx => ?_) hafter
      simp only [Context.before,List.mem_append,List.mem_singleton] at hx
      rcases hx with (hx | hx) | rfl
      · exact hbefore x hx
      · exact (hlist.1.2.1.2.2 x hx p (Or.inl rfl)).1 hhigh.le
      · exact hhigh
    · exact ⟨hbefore,hafter⟩

section Order
variable {K : Type*} {re : K → K → ℤ} {S : Set K} {key : α → K} {xs ys : List α} {k : K} {x : α}

/-- The sign of a comparison is a strict total order of a set of keys. -/
structure StrictOn (re : K → K → ℤ) (S : Set K) : Prop where
  eq_iff : ∀ a ∈ S, ∀ b ∈ S, (re a b = 0 ↔ a = b)
  neg_iff : ∀ a ∈ S, ∀ b ∈ S, (re a b < 0 ↔ 0 < re b a)
  trans : ∀ a ∈ S, ∀ b ∈ S, ∀ c ∈ S, re a b < 0 → re b c < 0 → re a c < 0

/-- The keys of a list increase. -/
def Increasing (re : K → K → ℤ) (key : α → K) (xs : List α) : Prop :=
  xs.Pairwise fun p q => re (key p) (key q) < 0

theorem StrictOn.mono {S' : Set K} (h : StrictOn re S) (hsub : S' ⊆ S) : StrictOn re S' :=
  ⟨fun a ha b hb => h.eq_iff a (hsub ha) b (hsub hb),
    fun a ha b hb => h.neg_iff a (hsub ha) b (hsub hb),
    fun a ha b hb c hc => h.trans a (hsub ha) b (hsub hb) c (hsub hc)⟩

/-- The sign of a comparison is a strict total order of what is seen of the elements. -/
structure OrderOf {E W : Type*} (re : E → E → ℤ) (view : E → W) (S : Set E) : Prop where
  eq_iff : ∀ a ∈ S, ∀ b ∈ S, (re a b = 0 ↔ view a = view b)
  neg_iff : ∀ a ∈ S, ∀ b ∈ S, (re a b < 0 ↔ 0 < re b a)
  trans : ∀ a ∈ S, ∀ b ∈ S, ∀ c ∈ S, re a b < 0 → re b c < 0 → re a c < 0

/-- A comparison of elements by what is seen of them. -/
theorem StrictOn.view {E : Type*} {re' : E → E → ℤ} {view : E → K} {S' : Set E} (h : StrictOn re S)
    (hview : ∀ a ∈ S', view a ∈ S) (hre : ∀ a ∈ S', ∀ b ∈ S', re' a b = re (view a) (view b)) :
    OrderOf re' view S' := by
  refine ⟨fun a ha b hb => ?_,fun a ha b hb => ?_,fun a ha b hb c hc hab hbc => ?_⟩
  · rw [hre a ha b hb]
    exact h.eq_iff _ (hview a ha) _ (hview b hb)
  · rw [hre a ha b hb,hre b hb a ha]
    exact h.neg_iff _ (hview a ha) _ (hview b hb)
  · rw [hre a ha b hb] at hab
    rw [hre b hb c hc] at hbc
    rw [hre a ha c hc]
    exact h.trans _ (hview a ha) _ (hview b hb) _ (hview c hc) hab hbc

theorem Increasing.nodup_keys (h : StrictOn re S) (hkeys : ∀ p ∈ xs, key p ∈ S)
    (hinc : Increasing re key xs) : (xs.map key).Nodup := by
  refine List.pairwise_map.mpr (List.Pairwise.imp_of_mem (fun {p q} hp hq hlt heq => ?_) hinc)
  have := (h.eq_iff _ (hkeys p hp) _ (hkeys q hq)).mpr heq
  omega

/-- The sign of a key falls along increasing keys. -/
theorem Increasing.falling (h : StrictOn re S) (hkeys : ∀ p ∈ xs, key p ∈ S) (hk : k ∈ S)
    (hinc : Increasing re key xs) : Falling (fun p => re k (key p)) xs := by
  refine List.Pairwise.imp_of_mem (fun {p q} hp hq hlt => ⟨fun hle => ?_,fun hle => ?_⟩) hinc
  · refine (h.neg_iff _ (hkeys p hp) _ hk).mp ?_
    rcases hle.eq_or_lt with heq | hpos
    · exact (h.eq_iff _ hk _ (hkeys q hq)).mp heq.symm ▸ hlt
    · exact h.trans _ (hkeys p hp) _ (hkeys q hq) _ hk hlt
        ((h.neg_iff _ (hkeys q hq) _ hk).mpr hpos)
  · rcases hle.eq_or_lt with heq | hneg
    · exact (h.eq_iff _ hk _ (hkeys p hp)).mp heq ▸ hlt
    · exact h.trans _ hk _ (hkeys p hp) _ (hkeys q hq) hneg hlt

/-- An element between those with smaller keys and those with greater ones. -/
theorem Increasing.insert (h : StrictOn re S) (hkeys : ∀ p ∈ xs++ys, key p ∈ S) (hx : key x ∈ S)
    (hinc : Increasing re key (xs++ys)) (hlow : ∀ p ∈ xs, 0 < re (key x) (key p))
    (hhigh : ∀ p ∈ ys, re (key x) (key p) < 0) : Increasing re key (xs++x::ys) := by
  obtain ⟨hxs,hys,hcross⟩ := List.pairwise_append.mp hinc
  refine List.pairwise_append.mpr ⟨hxs,List.pairwise_cons.mpr ⟨hhigh,hys⟩,fun p hp q hq => ?_⟩
  rcases List.mem_cons.mp hq with rfl | hq
  · exact (h.neg_iff _ (hkeys p (List.mem_append_left _ hp)) _ hx).mpr (hlow p hp)
  · exact hcross p hp q hq

end Order

end SearchTree
