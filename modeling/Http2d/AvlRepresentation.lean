import Http2d.AvlGeneric
import Http2d.Library.AvlTree

/-! The tree that the memory of a threaded AVL tree represents.
A pointer without a child leads to the neighbour in order, which comes from the frames above. The
rotations and the ways up change the memory as the library changes the tree. -/
namespace Http2d

open BinaryTree AvlTree

/-- A node with the subtrees `l` and `r`, between the nodes `lo` and `hi`. -/
def AvlNode.of (lo : Option ℕ) (l r : BinaryTree ℕ) (hi : Option ℕ) : AvlNode :=
  ⟨r.height-l.height,l.root.or lo,r.root.or hi,l.root.isSome,r.root.isSome⟩

/-- The node with its balance as the field holds it. -/
def AvlNode.narrow (n : AvlNode) : AvlNode := {n with balance := cshort n.balance}

theorem AvlNode.narrow_eq {n : AvlNode} (h : IsShort n.balance) : n.narrow = n := by
  rw [narrow,cshort_eq h]

/-- The memory represents a tree between the nodes `lo` and `hi`. -/
def Rep (m : ℕ → AvlNode) : Option ℕ → BinaryTree ℕ → Option ℕ → Prop
  | _, .nil, _ => True
  | lo, .node p l r, hi => m p = .of lo l r hi ∧ Rep m lo l (some p) ∧ Rep m (some p) r hi

theorem Rep.congr {m m' : ℕ → AvlNode} {lo hi : Option ℕ} {t : BinaryTree ℕ} (h : Rep m lo t hi)
    (hsame : ∀ p ∈ t.toList, m' p = m p) : Rep m' lo t hi := by
  induction t generalizing lo hi with
  | nil => trivial
  | node p l r ihl ihr =>
    obtain ⟨hp,hl,hr⟩ := h
    refine ⟨(hsame p (by simp [toList])).trans hp,ihl hl fun q hq => hsame q ?_,
      ihr hr fun q hq => hsame q ?_⟩
    · simp [toList,hq]
    · simp [toList,hq]

/-- The real children span `T`: a flag is set exactly for a child, and then the pointer is it. -/
def Spans (m : ℕ → AvlNode) : BinaryTree ℕ → Prop
  | .nil => True
  | .node p l r =>
    ((m p).leftChild = true ↔ l ≠ .nil) ∧ ((m p).leftChild = true → (m p).left = l.root) ∧
    ((m p).rightChild = true ↔ r ≠ .nil) ∧ ((m p).rightChild = true → (m p).right = r.root) ∧
    Spans m l ∧ Spans m r

theorem Rep.spans {m : ℕ → AvlNode} {lo hi : Option ℕ} {T : BinaryTree ℕ} (h : Rep m lo T hi) : Spans m T := by
  induction T generalizing lo hi with
  | nil => trivial
  | node p l r ihl ihr =>
    obtain ⟨hp,hl,hr⟩ := h
    refine ⟨?_,?_,?_,?_,ihl hl,ihr hr⟩ <;> rw [hp]
    · cases l <;> simp [AvlNode.of]
    · cases l <;> simp [AvlNode.of]
    · cases r <;> simp [AvlNode.of]
    · cases r <;> simp [AvlNode.of]

section Rotations
variable {m : ℕ → AvlNode} {lo hi : Option ℕ} {a b c : BinaryTree ℕ} {p q : ℕ}

/-- The balances that a rotation to the left computes from those before it. -/
theorem rotateLeft_balances {x y z u v : ℤ} (hu : u = max y z+1-x) (hv : v = z-y) :
    (if v ≤ 0 then (if 1 ≤ u then v-1 else u+v-2) else if u ≤ v then u-2 else v-1) = z-(max x y+1) ∧
    (if v ≤ 0 then u-1 else u-v-1) = y-x := by
  rcases le_or_gt z y with hzy | hyz
  · have hlean : v ≤ 0 := by omega
    rw [max_eq_left hzy] at hu
    rw [if_pos hlean,if_pos hlean]
    rcases le_total x y with hxy | hyx
    · rw [max_eq_right hxy]
      split_ifs <;> omega
    · rw [max_eq_left hyx]
      split_ifs <;> omega
  · have hlean : ¬ v ≤ 0 := by omega
    rw [max_eq_right hyz.le] at hu
    rw [if_neg hlean,if_neg hlean]
    rcases le_total x y with hxy | hyx
    · rw [max_eq_right hxy]
      split_ifs <;> omega
    · rw [max_eq_left hyx]
      split_ifs <;> omega

/-- What a rotation to the left writes; that the balances are the differences of the heights needs no
assumption on the heights, only that the field holds them. -/
theorem nodeRotateLeft_eq (hp : m p = .of lo a (node q b c) hi) (hq : m q = .of (some p) b c hi)
    (hne : p ≠ q) : ∃ m', nodeRotateLeft m p = .ok (q,m') ∧
      m' p = (AvlNode.of lo a b (some q)).narrow ∧ m' q = (AvlNode.of lo (node p a b) c hi).narrow ∧
      ∀ x, x ≠ p → x ≠ q → m' x = m x := by
  obtain ⟨u,hu⟩ : ∃ u : ℤ, u = (node p a (node q b c)).bal := ⟨_,rfl⟩
  obtain ⟨v,hv⟩ : ∃ v : ℤ, v = (node q b c).bal := ⟨_,rfl⟩
  have hp' : m p = ⟨u,a.root.or lo,some q,a.root.isSome,true⟩ := by rw [hp,hu]; rfl
  have hq' : m q = ⟨v,b.root.or (some p),c.root.or hi,b.root.isSome,c.root.isSome⟩ := by rw [hq,hv]; rfl
  obtain ⟨htop,hlow⟩ := rotateLeft_balances (x:=a.height) (y:=b.height) (z:=c.height)
    (hu.trans (by rw [bal_node,height_node]; push_cast; rfl)) hv
  simp only [nodeRotateLeft,hp',deref_some,ok_bind]
  refine ⟨_,rfl,?_,?_,fun x hxp hxq => ?_⟩
  · rw [AvlNode.narrow,AvlNode.of,← hlow]
    cases b <;> simp [hp',hq',hne,hne.symm]
  · rw [AvlNode.narrow,AvlNode.of,height_node,Nat.cast_succ,Nat.cast_max,← htop]
    cases b <;> simp [hp',hq',hne,hne.symm]
  · split_ifs <;> simp [hxp,hxq]

/-- The balances that a rotation to the right computes from those before it. -/
theorem rotateRight_balances {x y z u v : ℤ} (hu : u = z-(max x y+1)) (hv : v = y-x) :
    (if v ≤ 0 then (if u < v then v+1 else u+2) else if u ≤ -1 then v+1 else u+v+2) = max y z+1-x ∧
    (if v ≤ 0 then u-v+1 else u+1) = z-y := by
  rcases le_or_gt y x with hyx | hxy
  · have hlean : v ≤ 0 := by omega
    rw [max_eq_left hyx] at hu
    rw [if_pos hlean,if_pos hlean]
    rcases le_total y z with hyz | hzy
    · rw [max_eq_right hyz]
      split_ifs <;> omega
    · rw [max_eq_left hzy]
      split_ifs <;> omega
  · have hlean : ¬ v ≤ 0 := by omega
    rw [max_eq_right hxy.le] at hu
    rw [if_neg hlean,if_neg hlean]
    rcases le_total y z with hyz | hzy
    · rw [max_eq_right hyz]
      split_ifs <;> omega
    · rw [max_eq_left hzy]
      split_ifs <;> omega

/-- What a rotation to the right writes. -/
theorem nodeRotateRight_eq (hq : m q = .of lo (node p a b) c hi) (hp : m p = .of lo a b (some q))
    (hne : p ≠ q) : ∃ m', nodeRotateRight m q = .ok (p,m') ∧
      m' p = (AvlNode.of lo a (node q b c) hi).narrow ∧ m' q = (AvlNode.of (some p) b c hi).narrow ∧
      ∀ x, x ≠ p → x ≠ q → m' x = m x := by
  obtain ⟨u,hu⟩ : ∃ u : ℤ, u = (node q (node p a b) c).bal := ⟨_,rfl⟩
  obtain ⟨v,hv⟩ : ∃ v : ℤ, v = (node p a b).bal := ⟨_,rfl⟩
  have hq' : m q = ⟨u,some p,c.root.or hi,true,c.root.isSome⟩ := by rw [hq,hu]; rfl
  have hp' : m p = ⟨v,a.root.or lo,b.root.or (some q),a.root.isSome,b.root.isSome⟩ := by rw [hp,hv]; rfl
  obtain ⟨htop,hlow⟩ := rotateRight_balances (x:=a.height) (y:=b.height) (z:=c.height)
    (hu.trans (by rw [bal_node,height_node]; push_cast; rfl)) hv
  simp only [nodeRotateRight,hq',deref_some,ok_bind]
  refine ⟨_,rfl,?_,?_,fun x hxp hxq => ?_⟩
  · rw [AvlNode.narrow,AvlNode.of,height_node,Nat.cast_succ,Nat.cast_max,← htop]
    cases b <;> simp [hp',hq',hne,hne.symm]
  · rw [AvlNode.narrow,AvlNode.of,← hlow]
    cases b <;> simp [hp',hq',hne,hne.symm]
  · split_ifs <;> simp [hxp,hxq]

/-- Two memories that agree on what a list does not name. -/
def Agree (m m' : ℕ → AvlNode) (xs : List ℕ) : Prop := ∀ x, x ∉ xs → m' x = m x

theorem Agree.trans {m m' m'' : ℕ → AvlNode} {xs : List ℕ} (h : Agree m m' xs)
    (h' : Agree m' m'' xs) : Agree m m'' xs := fun x hx => (h' x hx).trans (h x hx)

theorem Agree.mono {m m' : ℕ → AvlNode} {xs ys : List ℕ} (h : Agree m m' xs) (hsub : xs ⊆ ys) :
    Agree m m' ys := fun x hx => h x fun hin => hx (hsub hin)

theorem agree_modifyNode (m : ℕ → AvlNode) (p : ℕ) (f : AvlNode → AvlNode) :
    Agree m (modifyNode m p f) [p] := fun x hx => modifyNode_of_ne m f (by simpa using hx)

/-- The field holds what the rotations of a balanced tree write. -/
theorem isShort_bal {l r : BinaryTree ℕ} (hlr : l.height ≤ r.height+8) (hrl : r.height ≤ l.height+8) :
    IsShort (node p l r).bal := by
  simp only [IsShort,bal_node]
  omega

/-- Both nodes that a rotation leaves, where the heights of three subtrees are near each other. -/
theorem isShort_left {a b c : BinaryTree ℕ} {n : ℕ} (ha : n ≤ a.height ∧ a.height ≤ n+4)
    (hb : n ≤ b.height ∧ b.height ≤ n+4) (hc : n ≤ c.height ∧ c.height ≤ n+4) :
    IsShort (node p a b).bal ∧ IsShort (node q (node p a b) c).bal := by
  have hlow := height_left_lt a b p
  have hhigh := height_node_le p ha.2 hb.2
  exact ⟨isShort_bal (by omega) (by omega),isShort_bal (by omega) (by omega)⟩

theorem isShort_right {a b c : BinaryTree ℕ} {n : ℕ} (ha : n ≤ a.height ∧ a.height ≤ n+4)
    (hb : n ≤ b.height ∧ b.height ≤ n+4) (hc : n ≤ c.height ∧ c.height ≤ n+4) :
    IsShort (node q b c).bal ∧ IsShort (node p a (node q b c)).bal := by
  have hlow := height_right_lt b c q
  have hhigh := height_node_le q hb.2 hc.2
  exact ⟨isShort_bal (by omega) (by omega),isShort_bal (by omega) (by omega)⟩

/-- So is a balance that is changed by one near the end of a way. -/
theorem cshort_heights {l r : ℕ} {n : ℤ} (hlr : l ≤ r+4) (hrl : r ≤ l+4) (hn : n = (r : ℤ)-l) :
    cshort n = (r : ℤ)-l := by
  rw [hn]
  refine cshort_eq ?_
  simp only [IsShort]
  omega

/-- The three subtrees stay in memory when only the two nodes between them change. -/
theorem subtrees_rep {m' : ℕ → AvlNode} {a b c : BinaryTree ℕ} (ha : Rep m lo a (some p))
    (hb : Rep m (some p) b (some q)) (hc : Rep m (some q) c hi)
    (hnd : (a.toList++p::(b.toList++q::c.toList)).Nodup) (hother : ∀ x, x ≠ p → x ≠ q → m' x = m x) :
    Rep m' lo a (some p) ∧ Rep m' (some p) b (some q) ∧ Rep m' (some q) c hi := by
  have hsame {x : ℕ} (hx : x ∈ a.toList ∨ x ∈ b.toList ∨ x ∈ c.toList) : m' x = m x := by
    simp only [List.nodup_append,List.nodup_cons,List.mem_append,List.mem_cons] at hnd
    refine hother x ?_ ?_ <;> grind
  exact ⟨ha.congr fun x hx => hsame (Or.inl hx),hb.congr fun x hx => hsame (Or.inr (Or.inl hx)),
    hc.congr fun x hx => hsame (Or.inr (Or.inr hx))⟩

/-- A rotation to the left of the tree in memory. -/
theorem nodeRotateLeft_rep (h : Rep m lo (node p a (node q b c)) hi)
    (hnd : (node p a (node q b c)).toList.Nodup) (hps : IsShort (node p a b).bal)
    (hqs : IsShort (node q (node p a b) c).bal) : ∃ m', nodeRotateLeft m p = .ok (q,m') ∧
      Rep m' lo (node q (node p a b) c) hi ∧ Agree m m' (node p a (node q b c)).toList := by
  obtain ⟨hp,ha,hq,hb,hc⟩ := h
  simp only [toList] at hnd
  have hne : p ≠ q := by rintro rfl; simp [List.nodup_append] at hnd
  obtain ⟨m',hm',hp',hq',hother⟩ := nodeRotateLeft_eq hp hq hne
  rw [AvlNode.narrow_eq hps] at hp'
  rw [AvlNode.narrow_eq hqs] at hq'
  obtain ⟨ha',hb',hc'⟩ := subtrees_rep ha hb hc hnd hother
  refine ⟨m',hm',⟨hq',⟨hp',ha',hb'⟩,hc'⟩,fun x hx => hother x ?_ ?_⟩ <;> rintro rfl <;>
    simp [toList] at hx

/-- A rotation to the right of the tree in memory. -/
theorem nodeRotateRight_rep (h : Rep m lo (node q (node p a b) c) hi)
    (hnd : (node q (node p a b) c).toList.Nodup) (hps : IsShort (node p a (node q b c)).bal)
    (hqs : IsShort (node q b c).bal) : ∃ m', nodeRotateRight m q = .ok (p,m') ∧
      Rep m' lo (node p a (node q b c)) hi ∧ Agree m m' (node q (node p a b) c).toList := by
  obtain ⟨hq,⟨hp,ha,hb⟩,hc⟩ := h
  simp only [toList] at hnd
  have hne : p ≠ q := by rintro rfl; simp [List.nodup_append] at hnd
  obtain ⟨m',hm',hp',hq',hother⟩ := nodeRotateRight_eq hq hp hne
  rw [AvlNode.narrow_eq hps] at hp'
  rw [AvlNode.narrow_eq hqs] at hq'
  rw [List.append_assoc] at hnd
  obtain ⟨ha',hb',hc'⟩ := subtrees_rep ha hb hc hnd hother
  refine ⟨m',hm',⟨hp',ha',⟨hq',hb',hc'⟩⟩,fun x hx => hother x ?_ ?_⟩ <;> rintro rfl <;>
    simp [toList] at hx

/-- Another left subtree of the same height is linked to its node. -/
theorem Rep.replace_left {m' : ℕ → AvlNode} {l l' r : BinaryTree ℕ} (h : Rep m lo (node p l r) hi)
    (hnd : (node p l r).toList.Nodup) (hl : Rep m' lo l' (some p)) (hagree : Agree m m' l.toList)
    (hroot : l.root.isSome) (hroot' : l'.root = some q) (hh : l'.height = l.height)
    (hlist : l'.toList = l.toList) :
    Rep (modifyNode m' p fun n => {n with left := some q}) lo (node p l' r) hi := by
  obtain ⟨hp,_,hr⟩ := h
  simp only [toList,List.nodup_append,List.nodup_cons,List.mem_cons] at hnd
  refine ⟨?_,hl.congr fun x hx => ?_,hr.congr fun x hx => ?_⟩
  · rw [modifyNode_self,hagree p (by grind),hp]
    simp [AvlNode.of,hroot',hh,hroot]
  · exact modifyNode_of_ne _ _ (by grind)
  · rw [modifyNode_of_ne _ _ (by grind),hagree x (by grind)]

/-- Another right subtree of the same height is linked to its node. -/
theorem Rep.replace_right {m' : ℕ → AvlNode} {l r r' : BinaryTree ℕ} (h : Rep m lo (node p l r) hi)
    (hnd : (node p l r).toList.Nodup) (hr : Rep m' (some p) r' hi) (hagree : Agree m m' r.toList)
    (hroot : r.root.isSome) (hroot' : r'.root = some q) (hh : r'.height = r.height)
    (hlist : r'.toList = r.toList) :
    Rep (modifyNode m' p fun n => {n with right := some q}) lo (node p l r') hi := by
  obtain ⟨hp,hl,_⟩ := h
  simp only [toList,List.nodup_append,List.nodup_cons,List.mem_cons] at hnd
  refine ⟨?_,hl.congr fun x hx => ?_,hr.congr fun x hx => ?_⟩
  · rw [modifyNode_self,hagree p (by grind),hp]
    simp [AvlNode.of,hroot',hh,hroot]
  · rw [modifyNode_of_ne _ _ (by grind),hagree x (by grind)]
  · exact modifyNode_of_ne _ _ (by grind)

theorem agree_replace {m' : ℕ → AvlNode} {s : BinaryTree ℕ} {xs : List ℕ}
    (hagree : Agree m m' s.toList) (hs : s.toList ⊆ xs) (hp : p ∈ xs) (f : AvlNode → AvlNode) :
    Agree m (modifyNode m' p f) xs :=
  (hagree.mono hs).trans ((agree_modifyNode m' p f).mono (by simpa using hp))

/-- `node_balance` of a node whose left subtree is higher by two. -/
theorem nodeBalance_left (h : Rep m lo (node p a c) hi) (hnd : (node p a c).toList.Nodup)
    (ha : a.Avl) (hhigh : a.height = c.height+2) :
    ∃ q m', nodeBalance m p = .ok (q,m') ∧ (node p a c).rebalance.root = some q ∧
      Rep m' lo (node p a c).rebalance hi ∧ Agree m m' (node p a c).toList := by
  have hleft : (node p a c).bal < -1 := by
    rw [bal_node,hhigh]
    omega
  have hbal : (m p).balance = (node p a c).bal := by rw [h.1]; rfl
  rw [nodeBalance,hbal,if_pos hleft,rebalance_of_left hleft]
  rcases a with _ | ⟨q,a,b⟩
  · cases hhigh
  obtain ⟨⟨ha₁,ha₂⟩,hb₁,hb₂⟩ := avl_children ha
  have han : c.height-2 ≤ a.height ∧ a.height ≤ c.height-2+4 := by omega
  have hcn : c.height-2 ≤ c.height ∧ c.height ≤ c.height-2+4 := by omega
  have hptr : (m p).left = some q := by rw [h.1]; rfl
  have hq : (m q).balance = (node q a b).bal := by rw [h.2.1.1]; rfl
  rw [hptr,deref_some,ok_bind,hq]
  by_cases hlean : 0 < (node q a b).bal
  · have hheight := leanLeft_height ha
    have hlist := toList_leanLeft (node q a b)
    rw [leanLeft,if_pos hlean] at hheight hlist ⊢
    rw [if_pos hlean]
    rcases b with _ | ⟨d,b,b'⟩
    · rw [bal_node] at hlean
      simp only [height] at hlean
      omega
    obtain ⟨⟨hd₁,hd₂⟩,hd₃,hd₄⟩ := avl_children ha.2.1
    have hbn : c.height-2 ≤ b.height ∧ b.height ≤ c.height-2+4 := by omega
    have hbn' : c.height-2 ≤ b'.height ∧ b'.height ≤ c.height-2+4 := by omega
    have hqn : c.height-2 ≤ (node q a b).height ∧ (node q a b).height ≤ c.height-2+4 := by
      have hlow := height_left_lt a b q
      have htop : (node q a b).height ≤ c.height+1+1 := height_node_le q (by omega) (by omega)
      omega
    have hshort := isShort_left (p:=q) (q:=d) han hbn hbn'
    have hshort' := isShort_right (p:=d) (q:=p) hqn hbn' hcn
    have hndl : (node q a (node d b b')).toList.Nodup := (List.nodup_append.mp hnd).1
    obtain ⟨m₁,hm₁,hrep₁,hagree₁⟩ := nodeRotateLeft_rep h.2.1 hndl hshort.1 hshort.2
    have hrep₂ := h.replace_left hnd hrep₁ hagree₁ rfl rfl hheight hlist
    rw [rotateLeft] at hlist
    have hnd₂ : (node p (node d (node q a b) b') c).toList.Nodup := by
      rw [toList,hlist]
      exact hnd
    obtain ⟨m₃,hm₃,hrep₃,hagree₃⟩ := nodeRotateRight_rep hrep₂ hnd₂ hshort'.2 hshort'.1
    refine ⟨d,m₃,by rw [hm₁,ok_bind]; exact hm₃,rfl,hrep₃,?_⟩
    have hsub : (node q a (node d b b')).toList ⊆ (node p (node q a (node d b b')) c).toList :=
      List.subset_append_left _ _
    rw [toList,hlist] at hagree₃
    exact (agree_replace hagree₁ hsub (root_mem rfl) _).trans hagree₃
  · rw [if_neg hlean,leanLeft,if_neg hlean]
    have hbn : c.height-2 ≤ b.height ∧ b.height ≤ c.height-2+4 := by omega
    have hshort := isShort_right (p:=q) (q:=p) han hbn hcn
    obtain ⟨m',hm',hrep,hagree⟩ := nodeRotateRight_rep h hnd hshort.2 hshort.1
    exact ⟨q,m',hm',rfl,hrep,hagree⟩

/-- `node_balance` of a node whose right subtree is higher by two. -/
theorem nodeBalance_right (h : Rep m lo (node p a c) hi) (hnd : (node p a c).toList.Nodup)
    (hc : c.Avl) (hhigh : c.height = a.height+2) :
    ∃ q m', nodeBalance m p = .ok (q,m') ∧ (node p a c).rebalance.root = some q ∧
      Rep m' lo (node p a c).rebalance hi ∧ Agree m m' (node p a c).toList := by
  have hright : 1 < (node p a c).bal := by
    rw [bal_node,hhigh]
    omega
  have hbal : (m p).balance = (node p a c).bal := by rw [h.1]; rfl
  rw [nodeBalance,hbal,if_neg (by omega),if_pos hright,rebalance_of_right hright]
  rcases c with _ | ⟨q,b,c⟩
  · cases hhigh
  obtain ⟨⟨hb₁,hb₂⟩,hc₁,hc₂⟩ := avl_children hc
  have hcn : a.height-2 ≤ c.height ∧ c.height ≤ a.height-2+4 := by omega
  have han : a.height-2 ≤ a.height ∧ a.height ≤ a.height-2+4 := by omega
  have hptr : (m p).right = some q := by rw [h.1]; rfl
  have hq : (m q).balance = (node q b c).bal := by rw [h.2.2.1]; rfl
  rw [hptr,deref_some,ok_bind,hq]
  by_cases hlean : (node q b c).bal < 0
  · have hheight := leanRight_height hc
    have hlist := toList_leanRight (node q b c)
    rw [leanRight,if_pos hlean] at hheight hlist ⊢
    rw [if_pos hlean]
    rcases b with _ | ⟨d,b,b'⟩
    · rw [bal_node] at hlean
      simp only [height] at hlean
      omega
    obtain ⟨⟨hd₁,hd₂⟩,hd₃,hd₄⟩ := avl_children hc.1
    have hbn : a.height-2 ≤ b.height ∧ b.height ≤ a.height-2+4 := by omega
    have hbn' : a.height-2 ≤ b'.height ∧ b'.height ≤ a.height-2+4 := by omega
    have hqn : a.height-2 ≤ (node q b' c).height ∧ (node q b' c).height ≤ a.height-2+4 := by
      have hlow := height_right_lt b' c q
      have htop : (node q b' c).height ≤ a.height+1+1 := height_node_le q (by omega) (by omega)
      omega
    have hshort := isShort_right (p:=d) (q:=q) hbn hbn' hcn
    have hshort' := isShort_left (p:=p) (q:=d) han hbn hqn
    have hndr : (node q (node d b b') c).toList.Nodup :=
      (List.nodup_cons.mp (List.nodup_append.mp hnd).2.1).2
    obtain ⟨m₁,hm₁,hrep₁,hagree₁⟩ := nodeRotateRight_rep h.2.2 hndr hshort.2 hshort.1
    have hrep₂ := h.replace_right hnd hrep₁ hagree₁ rfl rfl hheight hlist
    rw [rotateRight] at hlist
    have hnd₂ : (node p a (node d b (node q b' c))).toList.Nodup := by
      rw [toList,hlist]
      exact hnd
    obtain ⟨m₃,hm₃,hrep₃,hagree₃⟩ := nodeRotateLeft_rep hrep₂ hnd₂ hshort'.1 hshort'.2
    refine ⟨d,m₃,by rw [hm₁,ok_bind]; exact hm₃,rfl,hrep₃,?_⟩
    have hsub : (node q (node d b b') c).toList ⊆ (node p a (node q (node d b b') c)).toList :=
      fun x hx => List.mem_append_right _ (List.mem_cons_of_mem _ hx)
    rw [toList,hlist] at hagree₃
    exact (agree_replace hagree₁ hsub (root_mem rfl) _).trans hagree₃
  · rw [if_neg hlean,leanRight,if_neg hlean]
    have hbn : a.height-2 ≤ b.height ∧ b.height ≤ a.height-2+4 := by omega
    have hshort := isShort_left (p:=p) (q:=q) han hbn hcn
    obtain ⟨m',hm',hrep,hagree⟩ := nodeRotateLeft_rep h hnd hshort.1 hshort.2
    exact ⟨q,m',hm',rfl,hrep,hagree⟩

/-- `node_balance` on the tree in memory. -/
theorem nodeBalance_rep {l r : BinaryTree ℕ} (h : Rep m lo (node p l r) hi)
    (hnear : (node p l r).Near) (hnd : (node p l r).toList.Nodup) :
    ∃ q m', nodeBalance m p = .ok (q,m') ∧ (node p l r).rebalance.root = some q ∧
      Rep m' lo (node p l r).rebalance hi ∧ Agree m m' (node p l r).toList := by
  obtain ⟨hl,hr,hlr,hrl⟩ := hnear
  by_cases hleft : l.height = r.height+2
  · exact nodeBalance_left h hnd hl hleft
  by_cases hright : r.height = l.height+2
  · exact nodeBalance_right h hnd hr hright
  have hbal : (m p).balance = (node p l r).bal := by rw [h.1]; rfl
  have heven : (node p l r).bal.natAbs ≤ 1 := by
    rw [bal_node]
    omega
  rw [nodeBalance,hbal,if_neg (by omega),if_neg (by omega),rebalance_of_even heven]
  exact ⟨p,m,rfl,rfl,h,fun _ _ => rfl⟩

end Rotations
end Http2d
