import Mathlib.Tactic

/-! Height-balanced binary trees, and trees with a hole.
A tree is rebalanced by rotations, which keep the order of its elements. What insertion and
deletion leave on the way up from the hole is stated once for both. -/
namespace BinaryTree

variable {α : Type*}

/-- The elements in order. -/
def toList : BinaryTree α → List α
  | nil => []
  | node p l r => l.toList++p::r.toList

def root : BinaryTree α → Option α
  | nil => none
  | node p _ _ => some p

@[simp] theorem root_nil : root (nil : BinaryTree α) = none := rfl

@[simp] theorem root_node (p : α) (l r : BinaryTree α) : (node p l r).root = some p := rfl

/-- How much higher the right subtree is. -/
def bal : BinaryTree α → ℤ
  | nil => 0
  | node _ l r => r.height-l.height

/-- The subtrees of every node differ in height by one at most. -/
def Avl : BinaryTree α → Prop
  | nil => True
  | node _ l r => l.Avl ∧ r.Avl ∧ l.height ≤ r.height+1 ∧ r.height ≤ l.height+1

def rotateLeft : BinaryTree α → BinaryTree α
  | node p a (node q b c) => node q (node p a b) c
  | t => t

def rotateRight : BinaryTree α → BinaryTree α
  | node q (node p a b) c => node p a (node q b c)
  | t => t

/-- The first rotation of two, before the tree above is rotated to the right. -/
def leanLeft (t : BinaryTree α) : BinaryTree α := if 0 < t.bal then t.rotateLeft else t

/-- The first rotation of two, before the tree above is rotated to the left. -/
def leanRight (t : BinaryTree α) : BinaryTree α := if t.bal < 0 then t.rotateRight else t

/-- One or two rotations where the heights differ by more than one. -/
def rebalance : BinaryTree α → BinaryTree α
  | nil => nil
  | node p l r =>
    if (node p l r).bal < -1 then rotateRight (node p l.leanLeft r)
    else if 1 < (node p l r).bal then rotateLeft (node p l r.leanRight)
    else node p l r

theorem height_node (l r : BinaryTree α) (p : α) :
    (node p l r).height = max l.height r.height+1 := rfl

@[simp] theorem bal_node (l r : BinaryTree α) (p : α) : (node p l r).bal = r.height-l.height := rfl

theorem avl_node (l r : BinaryTree α) (p : α) : (node p l r).Avl ↔
    l.Avl ∧ r.Avl ∧ l.height ≤ r.height+1 ∧ r.height ≤ l.height+1 := Iff.rfl

theorem height_left_lt (l r : BinaryTree α) (p : α) : l.height < (node p l r).height :=
  Nat.lt_succ_of_le (le_max_left _ _)

theorem height_right_lt (l r : BinaryTree α) (p : α) : r.height < (node p l r).height :=
  Nat.lt_succ_of_le (le_max_right _ _)

/-- The subtrees of a balanced tree are lower by one or two. -/
theorem avl_children {l r : BinaryTree α} {p : α} (h : (node p l r).Avl) :
    (l.height < (node p l r).height ∧ (node p l r).height ≤ l.height+2) ∧
    (r.height < (node p l r).height ∧ (node p l r).height ≤ r.height+2) := by
  obtain ⟨-,-,h1,h2⟩ := h
  exact ⟨⟨height_left_lt l r p,Nat.succ_le_succ (max_le (Nat.le_succ _) h2)⟩,
    height_right_lt l r p,Nat.succ_le_succ (max_le h1 (Nat.le_succ _))⟩

theorem height_node_le {l r : BinaryTree α} {n : ℕ} (p : α) (hl : l.height ≤ n) (hr : r.height ≤ n) :
    (node p l r).height ≤ n+1 := Nat.succ_le_succ (max_le hl hr)

@[simp] theorem toList_rotateLeft (t : BinaryTree α) : t.rotateLeft.toList = t.toList := by
  rcases t with _ | ⟨p,a,_ | ⟨q,b,c⟩⟩ <;> simp [rotateLeft,toList]

@[simp] theorem toList_rotateRight (t : BinaryTree α) : t.rotateRight.toList = t.toList := by
  rcases t with _ | ⟨q,_ | ⟨p,a,b⟩,c⟩ <;> simp [rotateRight,toList]

@[simp] theorem toList_leanLeft (t : BinaryTree α) : t.leanLeft.toList = t.toList := by
  unfold leanLeft
  split_ifs <;> simp

@[simp] theorem toList_leanRight (t : BinaryTree α) : t.leanRight.toList = t.toList := by
  unfold leanRight
  split_ifs <;> simp

@[simp] theorem toList_rebalance (t : BinaryTree α) : t.rebalance.toList = t.toList := by
  rcases t with _ | ⟨p,l,r⟩
  · rfl
  simp only [rebalance]
  split_ifs <;> simp [toList]

theorem root_mem {t : BinaryTree α} {p : α} (h : t.root = some p) : p ∈ t.toList := by
  cases t with
  | nil => cases h
  | node q l r =>
    cases h
    simp [toList]

theorem length_toList (t : BinaryTree α) : t.toList.length = t.numNodes := by
  induction t with
  | nil => rfl
  | node p l r ihl ihr =>
    simp only [toList,List.length_append,List.length_cons,ihl,ihr,numNodes]
    omega

theorem height_le_length (t : BinaryTree α) : t.height ≤ t.toList.length :=
  length_toList t ▸ height_le_numNodes t

/-- The lowest number of elements of a balanced tree is the one of a Fibonacci tree. -/
theorem fib_le_length {t : BinaryTree α} (h : t.Avl) : Nat.fib (t.height+2) ≤ t.toList.length+1 := by
  induction t with
  | nil => simp [height,toList]
  | node p l r ihl ihr =>
    obtain ⟨hl,hr,h1,h2⟩ := h
    have hlr := ihl hl
    have hrl := ihr hr
    rw [height_node,toList,List.length_append,List.length_cons]
    rcases le_total l.height r.height with hle | hle
    · have hmono : Nat.fib (r.height+1) ≤ Nat.fib (l.height+2) := Nat.fib_mono (by omega)
      have hfib : Nat.fib (r.height+1+2) = Nat.fib (r.height+1)+Nat.fib (r.height+2) :=
        Nat.fib_add_two
      rw [max_eq_right hle,hfib]
      omega
    · have hmono : Nat.fib (l.height+1) ≤ Nat.fib (r.height+2) := Nat.fib_mono (by omega)
      have hfib : Nat.fib (l.height+1+2) = Nat.fib (l.height+1)+Nat.fib (l.height+2) :=
        Nat.fib_add_two
      rw [max_eq_left hle,hfib]
      omega

/-- A node with balanced subtrees whose heights differ by two at most. -/
def Near : BinaryTree α → Prop
  | nil => False
  | node _ l r => l.Avl ∧ r.Avl ∧ l.height ≤ r.height+2 ∧ r.height ≤ l.height+2

/-- The higher subtree. -/
def heavy : BinaryTree α → BinaryTree α
  | nil => nil
  | node _ l r => if l.height < r.height then r else l

section Spec
variable {l r : BinaryTree α} {p : α}

theorem rebalance_of_left (h : (node p l r).bal < -1) :
    (node p l r).rebalance = rotateRight (node p l.leanLeft r) := if_pos h

theorem rebalance_of_right (h : 1 < (node p l r).bal) :
    (node p l r).rebalance = rotateLeft (node p l r.leanRight) :=
  (if_neg (by omega)).trans (if_pos h)

theorem rebalance_of_even (h : (node p l r).bal.natAbs ≤ 1) :
    (node p l r).rebalance = node p l r :=
  (if_neg (by omega)).trans (if_neg (by omega))

/-- The first of two rotations keeps the height of a balanced tree. -/
theorem leanLeft_height {t : BinaryTree α} (h : t.Avl) : t.leanLeft.height = t.height := by
  unfold leanLeft
  split_ifs with hlean
  · rcases t with _ | ⟨p,a,_ | ⟨q,b,c⟩⟩
    · rfl
    · rfl
    · obtain ⟨ha,⟨hb,hc,_,_⟩,_,_⟩ := h
      simp only [rotateLeft,bal_node,height_node] at *
      omega
  · rfl

theorem leanRight_height {t : BinaryTree α} (h : t.Avl) : t.leanRight.height = t.height := by
  unfold leanRight
  split_ifs with hlean
  · rcases t with _ | ⟨q,_ | ⟨p,a,b⟩,c⟩
    · rfl
    · rfl
    · obtain ⟨⟨ha,hb,_,_⟩,hc,_,_⟩ := h
      simp only [rotateRight,bal_node,height_node] at *
      omega
  · rfl

theorem Near.avl_of_bal {t : BinaryTree α} (h : t.Near) (hb : t.bal.natAbs ≤ 1) :
    t.rebalance = t ∧ t.Avl := by
  rcases t with _ | ⟨p,l,r⟩
  · exact h.elim
  refine ⟨rebalance_of_even hb,?_⟩
  obtain ⟨hl,hr,_,_⟩ := h
  rw [bal_node] at hb
  exact ⟨hl,hr,by omega,by omega⟩

section Rotated
variable {a b c d : BinaryTree α} {p q e : α} {n : ℕ}

/-- What two rotations lead to. -/
theorem twice_rotated (ha : a.Avl) (hb : b.Avl) (hc : c.Avl) (hd : d.Avl) (han : a.height = n)
    (hdn : d.height = n) (hbn : b.height ≤ n ∧ n ≤ b.height+1) (hcn : c.height ≤ n ∧ n ≤ c.height+1) :
    (node e (node p a b) (node q c d)).Avl ∧ (node e (node p a b) (node q c d)).bal = 0 ∧
      (node e (node p a b) (node q c d)).height = n+2 := by
  have hl : (node p a b).height = n+1 := by rw [height_node,han,max_eq_left hbn.1]
  have hr : (node q c d).height = n+1 := by rw [height_node,hdn,max_eq_right hcn.1]
  rw [avl_node,bal_node,height_node (node p a b),hl,hr,max_self,sub_self]
  refine ⟨⟨⟨ha,hb,?_,?_⟩,⟨hc,hd,?_,?_⟩,Nat.le_succ _,Nat.le_succ _⟩,rfl,rfl⟩
  · exact han.symm ▸ hbn.2
  · exact han.symm ▸ Nat.le_succ_of_le hbn.1
  · exact hdn.symm ▸ Nat.le_succ_of_le hcn.1
  · exact hdn.symm ▸ hcn.2

/-- What one rotation to the left leads to. -/
theorem rotated_left (ha : a.Avl) (hb : b.Avl) (hc : c.Avl) (han : a.height = n) (hcn : c.height = n+1)
    (hbn : n ≤ b.height) (hbn' : b.height ≤ n+1) :
    (node q (node p a b) c).Avl ∧ (node q (node p a b) c).bal = (n : ℤ)-b.height ∧
      (node q (node p a b) c).height = b.height+2 := by
  have hl : (node p a b).height = b.height+1 := by rw [height_node,han,max_eq_right hbn]
  rw [avl_node,bal_node,height_node (node p a b),hl,hcn,max_eq_left (Nat.succ_le_succ hbn)]
  refine ⟨⟨⟨ha,hb,?_,?_⟩,hc,Nat.succ_le_succ hbn',?_⟩,?_,rfl⟩
  · exact han.symm ▸ Nat.le_succ_of_le hbn
  · exact han.symm ▸ hbn'
  · exact Nat.le_succ_of_le (Nat.succ_le_succ hbn)
  · push_cast
    ring

/-- What one rotation to the right leads to. -/
theorem rotated_right (ha : a.Avl) (hb : b.Avl) (hc : c.Avl) (hcn : c.height = n) (han : a.height = n+1)
    (hbn : n ≤ b.height) (hbn' : b.height ≤ n+1) :
    (node q a (node p b c)).Avl ∧ (node q a (node p b c)).bal = (b.height : ℤ)-n ∧
      (node q a (node p b c)).height = b.height+2 := by
  have hr : (node p b c).height = b.height+1 := by rw [height_node,hcn,max_eq_left hbn]
  rw [avl_node,bal_node,height_node a,hr,han,max_eq_right (Nat.succ_le_succ hbn)]
  refine ⟨⟨ha,⟨hb,hc,?_,?_⟩,?_,Nat.succ_le_succ hbn'⟩,?_,rfl⟩
  · exact hcn.symm ▸ hbn'
  · exact hcn.symm ▸ Nat.le_succ_of_le hbn
  · exact Nat.le_succ_of_le (Nat.succ_le_succ hbn)
  · push_cast
    ring

/-- The subtrees of a balanced tree are as high as the higher one, or lower by one. -/
theorem heights_of_max {m n k : ℕ} (hmax : max m n = k) (h1 : m ≤ n+1) (h2 : n ≤ m+1) :
    (m ≤ k ∧ k ≤ m+1) ∧ n ≤ k ∧ k ≤ n+1 := by
  subst hmax
  exact ⟨⟨le_max_left _ _,max_le (Nat.le_succ m) h2⟩,le_max_right _ _,max_le h1 (Nat.le_succ n)⟩

/-- A tree whose right subtree is higher by two. -/
theorem rebalance_right (hl : a.Avl) (hr : d.Avl) (h : d.height = a.height+2) :
    (node p a d).rebalance.Avl ∧
      (d.bal ≠ 0 → (node p a d).rebalance.bal = 0 ∧ (node p a d).rebalance.height = a.height+2) ∧
      (d.bal = 0 → (node p a d).rebalance.bal ≠ 0 ∧ (node p a d).rebalance.height = a.height+3) := by
  have hside : 1 < (node p a d).bal := by
    rw [bal_node,h]
    omega
  rw [rebalance_of_right hside]
  rcases d with _ | ⟨q,b,c⟩
  · cases h
  obtain ⟨hbA,hcA,hbc,hcb⟩ := hr
  have hmax : max b.height c.height = a.height+1 := Nat.succ.inj h
  by_cases hlean : (node q b c).bal < 0
  · rw [leanRight,if_pos hlean]
    have hlt : c.height < b.height := by
      rw [bal_node] at hlean
      omega
    have hbn : b.height = a.height+1 := by rwa [max_eq_left hlt.le] at hmax
    have hcn : c.height = a.height := by omega
    rcases b with _ | ⟨e,b₁,b₂⟩
    · cases hbn
    obtain ⟨h1,h2,h12,h21⟩ := hbA
    obtain ⟨hb₁,hb₂⟩ := heights_of_max (Nat.succ.inj hbn) h12 h21
    obtain ⟨havl,hbal,hheight⟩ := twice_rotated hl h1 h2 hcA rfl hcn hb₁ hb₂
    exact ⟨havl,fun _ => ⟨hbal,hheight⟩,fun hz => absurd hz hlean.ne⟩
  · rw [leanRight,if_neg hlean]
    rw [bal_node] at hlean ⊢
    have hcn : c.height = a.height+1 := by rwa [max_eq_right (by omega)] at hmax
    rw [hcn] at hlean hcb ⊢
    obtain ⟨havl,hbal,hheight⟩ := rotated_left hl hbA hcA rfl hcn (Nat.le_of_succ_le_succ hcb) (by omega)
    refine ⟨havl,fun hz => ⟨?_,?_⟩,fun hz => ⟨?_,?_⟩⟩
    · exact hbal.trans (by omega)
    · exact hheight.trans (by omega)
    · exact hbal.trans_ne (by omega)
    · exact hheight.trans (by omega)

/-- A tree whose left subtree is higher by two. -/
theorem rebalance_left (hl : d.Avl) (hr : c.Avl) (h : d.height = c.height+2) :
    (node p d c).rebalance.Avl ∧
      (d.bal ≠ 0 → (node p d c).rebalance.bal = 0 ∧ (node p d c).rebalance.height = c.height+2) ∧
      (d.bal = 0 → (node p d c).rebalance.bal ≠ 0 ∧ (node p d c).rebalance.height = c.height+3) := by
  have hside : (node p d c).bal < -1 := by
    rw [bal_node,h]
    omega
  rw [rebalance_of_left hside]
  rcases d with _ | ⟨q,a,b⟩
  · cases h
  obtain ⟨haA,hbA,hab,hba⟩ := hl
  have hmax : max a.height b.height = c.height+1 := Nat.succ.inj h
  by_cases hlean : 0 < (node q a b).bal
  · rw [leanLeft,if_pos hlean]
    have hlt : a.height < b.height := by
      rw [bal_node] at hlean
      omega
    have hbn : b.height = c.height+1 := by rwa [max_eq_right hlt.le] at hmax
    have han : a.height = c.height := by omega
    rcases b with _ | ⟨e,b₁,b₂⟩
    · cases hbn
    obtain ⟨h1,h2,h12,h21⟩ := hbA
    obtain ⟨hb₁,hb₂⟩ := heights_of_max (Nat.succ.inj hbn) h12 h21
    obtain ⟨havl,hbal,hheight⟩ := twice_rotated haA h1 h2 hr han rfl hb₁ hb₂
    exact ⟨havl,fun _ => ⟨hbal,hheight⟩,fun hz => absurd hz hlean.ne'⟩
  · rw [leanLeft,if_neg hlean]
    rw [bal_node] at hlean ⊢
    have han : a.height = c.height+1 := by rwa [max_eq_left (by omega)] at hmax
    rw [han] at hlean hab ⊢
    obtain ⟨havl,hbal,hheight⟩ := rotated_right haA hbA hr rfl han (Nat.le_of_succ_le_succ hab) (by omega)
    refine ⟨havl,fun hz => ⟨?_,?_⟩,fun hz => ⟨?_,?_⟩⟩
    · exact hbal.trans (by omega)
    · exact hheight.trans (by omega)
    · exact hbal.trans_ne (by omega)
    · exact hheight.trans (by omega)

end Rotated

/-- A tree that leans by two gets lower by one, unless its higher subtree does not lean. -/
theorem Near.rebalance_spec {t : BinaryTree α} (h : t.Near) (hb : t.bal.natAbs = 2) :
    t.rebalance.Avl ∧
      (t.heavy.bal ≠ 0 → t.rebalance.bal = 0 ∧ t.rebalance.height+1 = t.height) ∧
      (t.heavy.bal = 0 → t.rebalance.bal ≠ 0 ∧ t.rebalance.height = t.height) := by
  rcases t with _ | ⟨p,l,r⟩
  · exact h.elim
  obtain ⟨hl,hr,_,_⟩ := h
  rw [bal_node] at hb
  by_cases hside : l.height < r.height
  · have hrl : r.height = l.height+2 := by omega
    obtain ⟨havl,hlow,hsame⟩ := rebalance_right hl hr hrl
    rw [heavy,if_pos hside,height_node,hrl,max_eq_right (Nat.le_add_right _ 2)]
    exact ⟨havl,fun hz => ⟨(hlow hz).1,congrArg Nat.succ (hlow hz).2⟩,hsame⟩
  · have hlr : l.height = r.height+2 := by omega
    obtain ⟨havl,hlow,hsame⟩ := rebalance_left hl hr hlr
    rw [heavy,if_neg hside,height_node,hlr,max_eq_left (Nat.le_add_right _ 2)]
    exact ⟨havl,fun hz => ⟨(hlow hz).1,congrArg Nat.succ (hlow hz).2⟩,hsame⟩

end Spec

end BinaryTree

namespace AvlTree

open BinaryTree

variable {α : Type*}

/-- One step on the way down: the element that was passed and the subtree on its other side. -/
inductive Frame (α : Type*)
  | left (elem : α) (right : BinaryTree α)
  | right (left : BinaryTree α) (elem : α)

namespace Frame

def fill : Frame α → BinaryTree α → BinaryTree α
  | left p r, t => .node p t r
  | right l p, t => .node p l t

def elem : Frame α → α
  | left p _ => p
  | right _ p => p

def sibling : Frame α → BinaryTree α
  | left _ r => r
  | right l _ => l

def isLeft : Frame α → Bool
  | left _ _ => true
  | right _ _ => false

/-- The neighbour before the hole, where `lo` is the one before the whole tree. -/
def lo (lo : Option α) : Frame α → Option α
  | left _ _ => lo
  | right _ p => some p

/-- The neighbour behind the hole. -/
def hi (hi : Option α) : Frame α → Option α
  | left p _ => some p
  | right _ _ => hi

/-- The height of the tree that fills the frame with a subtree of height `h`. -/
def height (f : Frame α) (h : ℕ) : ℕ := max h f.sibling.height+1

/-- A subtree of height `h` leaves the frame balanced. -/
def Fits (f : Frame α) (h : ℕ) : Prop :=
  f.sibling.Avl ∧ h ≤ f.sibling.height+1 ∧ f.sibling.height ≤ h+1

@[simp] theorem height_fill (f : Frame α) (t : BinaryTree α) : (f.fill t).height = f.height t.height := by
  cases f
  · rfl
  · simp [fill,height,sibling,max_comm]

theorem avl_fill (f : Frame α) (t : BinaryTree α) : (f.fill t).Avl ↔ t.Avl ∧ f.Fits t.height := by
  cases f
  · rfl
  · simp only [fill,avl_node,Fits,sibling]
    tauto

theorem root_fill (f : Frame α) (t : BinaryTree α) : (f.fill t).root = some f.elem := by
  cases f <;> rfl

theorem toList_fill_perm (f : Frame α) (t : BinaryTree α) :
    (f.fill t).toList.Perm (t.toList++f.elem::f.sibling.toList) := by
  cases f with
  | left p r => exact List.Perm.refl _
  | right l p => exact List.perm_append_comm.trans List.perm_middle.symm

end Frame

/-- The frames from the hole up to the root. -/
abbrev Context (α : Type*) := List (Frame α)

namespace Context

def plug : Context α → BinaryTree α → BinaryTree α
  | [], t => t
  | f::c, t => plug c (f.fill t)

/-- The elements before the hole. -/
def before : Context α → List α
  | [] => []
  | .left _ _::c => before c
  | .right l p::c => before c++l.toList++[p]

/-- The elements behind the hole. -/
def after : Context α → List α
  | [] => []
  | .left p r::c => p::r.toList++after c
  | .right _ _::c => after c

/-- The neighbour before the hole. -/
def lo : Context α → Option α
  | [] => none
  | f::c => f.lo (lo c)

/-- The neighbour behind the hole. -/
def hi : Context α → Option α
  | [] => none
  | f::c => f.hi (hi c)

/-- Every element around the hole. -/
def names : Context α → List α
  | [] => []
  | f::c => f.elem::f.sibling.toList++names c

/-- The root of the whole tree, of which a hole only at the top decides. -/
def root : Context α → Option α → Option α
  | [], p => p
  | f::c, _ => root c (some f.elem)

theorem root_plug (c : Context α) (t : BinaryTree α) : (c.plug t).root = c.root t.root := by
  induction c generalizing t with
  | nil => rfl
  | cons f c ih => exact (ih _).trans (by rw [f.root_fill]; rfl)

/-- The height of the whole tree around a hole of height `h`. -/
def height : Context α → ℕ → ℕ
  | [], h => h
  | f::c, h => height c (f.height h)

theorem height_plug (c : Context α) (t : BinaryTree α) : (c.plug t).height = c.height t.height := by
  induction c generalizing t with
  | nil => rfl
  | cons f c ih => rw [plug,ih,Frame.height_fill,height]

/-- Every frame adds to the height. -/
theorem length_add_le_height (c : Context α) (h : ℕ) : c.length+h ≤ c.height h := by
  induction c generalizing h with
  | nil => simp [height]
  | cons f c ih =>
    have hf : h+1 ≤ f.height h := Nat.succ_le_succ (le_max_left _ _)
    have hc := ih (f.height h)
    rw [List.length_cons,height]
    omega

theorem lo_mem {c : Context α} {x : α} (h : c.lo = some x) : x ∈ c.names := by
  induction c with
  | nil => cases h
  | cons f c ih =>
    cases f with
    | left p r => exact List.mem_append_right _ (ih h)
    | right l p =>
      cases h
      exact List.mem_cons_self

theorem elem_mem_names {c : Context α} {x : α} (hx : x ∈ c.map Frame.elem) : x ∈ c.names := by
  induction c with
  | nil => cases hx
  | cons f c ih =>
    rcases List.mem_cons.mp hx with rfl | hx
    · simp [names]
    · simp [names,ih hx]

theorem toList_plug_perm (c : Context α) (t : BinaryTree α) :
    (c.plug t).toList.Perm (t.toList++c.names) := by
  induction c generalizing t with
  | nil => simp [plug,names]
  | cons f c ih =>
    refine (ih _).trans (((f.toList_fill_perm t).append_right (names c)).trans ?_)
    rw [List.append_assoc]
    exact List.Perm.refl _

theorem toList_plug (c : Context α) (t : BinaryTree α) :
    (c.plug t).toList = c.before++t.toList++c.after := by
  induction c generalizing t with
  | nil => simp [plug,before,after]
  | cons f c ih => cases f <;> simp [plug,Frame.fill,before,after,ih,toList]

/-- What is before the root of a subtree and what is behind it. -/
theorem toList_plug_split {c : Context α} {p : α} {l r : BinaryTree α} {before after : List α}
    (hnd : (c.plug (node p l r)).toList.Nodup)
    (hsplit : (c.plug (node p l r)).toList = before++p::after) :
    before = c.before++l.toList ∧ after = r.toList++c.after := by
  have hlist : c.before++l.toList++p::(r.toList++c.after) = before++p::after := by
    rw [← hsplit,toList_plug]
    simp [toList]
  rw [hsplit,← hlist,List.nodup_append,List.nodup_cons] at hnd
  have hin : p ∉ c.before++l.toList := fun hin => hnd.2.2 p hin p List.mem_cons_self rfl
  obtain ⟨hb,_,ha⟩ := (List.append_cons_inj_of_notMem hin hnd.2.1.1).mp hlist
  exact ⟨hb.symm,ha.symm⟩

/-- Every frame is balanced around a hole of height `h`. -/
def Fits : Context α → ℕ → Prop
  | [], _ => True
  | f::c, h => f.Fits h ∧ Fits c (f.height h)

theorem avl_plug (c : Context α) (t : BinaryTree α) : (c.plug t).Avl ↔ t.Avl ∧ c.Fits t.height := by
  induction c generalizing t with
  | nil => simp [plug,Fits]
  | cons f c ih => rw [plug,ih,Frame.avl_fill,Frame.height_fill,Fits,and_assoc]

theorem lo_eq (c : Context α) : c.lo = c.before.getLast? := by
  induction c with
  | nil => rfl
  | cons f c ih => cases f <;> simp [lo,Frame.lo,before,ih]

theorem hi_eq (c : Context α) : c.hi = c.after.head? := by
  induction c with
  | nil => rfl
  | cons f c ih => cases f <;> simp [hi,Frame.hi,after,ih]

section Append
variable (c₂ c : Context α)

theorem plug_append (t : BinaryTree α) : plug (c₂++c) t = c.plug (c₂.plug t) := by
  induction c₂ generalizing t with
  | nil => rfl
  | cons f c₂ ih => exact ih _

theorem root_append (p : Option α) : root (c₂++c) p = c.root (c₂.root p) := by
  induction c₂ generalizing p with
  | nil => rfl
  | cons f c₂ ih => exact ih _

theorem root_some (p : α) : ∃ q, c.root (some p) = some q := by
  induction c generalizing p with
  | nil => exact ⟨p,rfl⟩
  | cons f c ih => exact ih f.elem

theorem fits_append (h : ℕ) : Fits (c₂++c) h ↔ c₂.Fits h ∧ c.Fits (c₂.height h) := by
  induction c₂ generalizing h with
  | nil => simp [Fits,height]
  | cons f c₂ ih =>
    rw [List.cons_append,Fits,ih,Fits,and_assoc]
    rfl

theorem before_append : before (c₂++c) = c.before++c₂.before := by
  induction c₂ with
  | nil => simp [before]
  | cons f c₂ ih => cases f <;> simp [before,ih]

theorem after_append : after (c₂++c) = c₂.after++c.after := by
  induction c₂ with
  | nil => simp [after]
  | cons f c₂ ih => cases f <;> simp [after,ih]

theorem names_append : names (c₂++c) = c₂.names++c.names := by
  induction c₂ with
  | nil => rfl
  | cons f c₂ ih => simp [names,ih]

/-- The neighbours across an upper part depend on it only by its own neighbours. -/
theorem hi_append_congr {c c' : Context α} (h : c.hi = c'.hi) : hi (c₂++c) = hi (c₂++c') := by
  induction c₂ with
  | nil => exact h
  | cons f c₂ ih => cases f <;> simp [hi,Frame.hi,ih]

/-- Frames to the left put nothing before the hole. -/
theorem left_before (hleft : ∀ f ∈ c₂, f.isLeft) : c₂.before = [] ∧ lo (c₂++c) = c.lo := by
  induction c₂ with
  | nil => exact ⟨rfl,rfl⟩
  | cons f c₂ ih =>
    obtain ⟨hf,hrest⟩ := List.forall_mem_cons.mp hleft
    cases f with
    | left p r => exact ih hrest
    | right l p => cases hf

end Append

/-- Every element is the root of a subtree. -/
theorem exists_plug {t : BinaryTree α} {p : α} (hp : p ∈ t.toList) :
    ∃ c l r, t = plug c (.node p l r) := by
  induction t with
  | nil => simp [toList] at hp
  | node q l r ihl ihr =>
    simp only [toList,List.mem_append,List.mem_cons] at hp
    rcases hp with hp | rfl | hp
    · obtain ⟨c,a,b,rfl⟩ := ihl hp
      exact ⟨c++[.left q r],a,b,by rw [plug_append]; rfl⟩
    · exact ⟨[],l,r,rfl⟩
    · obtain ⟨c,a,b,rfl⟩ := ihr hp
      exact ⟨c++[.right l q],a,b,by rw [plug_append]; rfl⟩

end Context

/-- What holds of the subtree at each turn of a way up. `h` is the height that it had before the
change, `done` tells from its lean whether the way ends, and `sign` is by how much it is higher
when the way goes on. -/
structure Climb (done : ℤ → Bool) (sign : ℤ) (P : ℕ → BinaryTree α → Prop) : Prop where
  near : ∀ {h t}, P h t → t.Near
  avl : ∀ {h t}, P h t → t.rebalance.Avl
  stop : ∀ {h t}, P h t → done t.rebalance.bal → t.rebalance.height = h
  go : ∀ {h t}, P h t → done t.rebalance.bal = false →
    (t.rebalance.height : ℤ) = h+sign ∧ ∀ f : Frame α, f.Fits h → P (f.height h) (f.fill t.rebalance)

/-- The subtree after an insertion below it. -/
def Grown (h : ℕ) (t : BinaryTree α) : Prop :=
  t.Near ∧ (t.bal = 0 ∧ t.height = h ∨ t.bal.natAbs = 1 ∧ t.height = h+1 ∨
    t.bal.natAbs = 2 ∧ t.height = h+1 ∧ t.heavy.bal ≠ 0)

/-- The subtree after a deletion below it. -/
def Shrunk (h : ℕ) (t : BinaryTree α) : Prop :=
  t.Near ∧ (t.bal = 0 ∧ t.height+1 = h ∨ t.bal.natAbs = 1 ∧ t.height = h ∨
    t.bal.natAbs = 2 ∧ t.height = h)

/-- How far a tree leans that fills a frame. -/
theorem Frame.natAbs_bal_fill (f : Frame α) (t : BinaryTree α) :
    (f.fill t).bal.natAbs = ((t.height : ℤ)-f.sibling.height).natAbs := by
  cases f with
  | left p r =>
    rw [Frame.fill,bal_node,Frame.sibling,← Int.natAbs_neg,neg_sub]
  | right l p => rw [Frame.fill,bal_node,Frame.sibling]

theorem Frame.near_fill {f : Frame α} {t : BinaryTree α} (hf : f.sibling.Avl) (ht : t.Avl)
    (h1 : t.height ≤ f.sibling.height+2) (h2 : f.sibling.height ≤ t.height+2) : (f.fill t).Near := by
  cases f with
  | left p r => exact ⟨ht,hf,h1,h2⟩
  | right l p => exact ⟨hf,ht,h2,h1⟩

theorem Frame.heavy_fill {f : Frame α} {t : BinaryTree α} (h : f.sibling.height < t.height) :
    (f.fill t).heavy = t := by
  cases f with
  | left p r => exact if_neg (not_lt.mpr h.le)
  | right l p => exact if_pos h

/-- A subtree has grown by one in its frame; only a new leaf does so without a lean. -/
theorem grown_fill {f : Frame α} {h : ℕ} {t : BinaryTree α} (hf : f.Fits h) (ht : t.Avl)
    (hh : t.height = h+1) (hb : t.bal ≠ 0 ∨ h = 0) : Grown (f.height h) (f.fill t) := by
  obtain ⟨hs,h1,h2⟩ := hf
  refine ⟨Frame.near_fill hs ht (by omega) (by omega),?_⟩
  have hlean := f.natAbs_bal_fill t
  have htop : (f.fill t).height = max (h+1) f.sibling.height+1 := hh ▸ Frame.height_fill f t
  by_cases hhigh : h < f.sibling.height
  · -- the sibling was higher
    have heq : f.sibling.height = h+1 := by omega
    rw [hh,heq,sub_self] at hlean
    refine Or.inl ⟨Int.natAbs_eq_zero.mp hlean,?_⟩
    rw [htop,Frame.height,heq,max_self,max_eq_right (Nat.le_succ h)]
  · have hle : f.sibling.height ≤ h := not_lt.mp hhigh
    rw [max_eq_left (Nat.le_succ_of_le hle)] at htop
    have hold : f.height h = h+1 := by rw [Frame.height,max_eq_left hle]
    rw [htop,hold]
    by_cases heven : f.sibling.height = h
    · exact Or.inr (Or.inl ⟨by omega,rfl⟩)
    · refine Or.inr (Or.inr ⟨by omega,rfl,?_⟩)
      rw [Frame.heavy_fill (by omega)]
      exact hb.resolve_right (by omega)

/-- A subtree has shrunk by one in its frame. -/
theorem shrunk_fill {f : Frame α} {h : ℕ} {t : BinaryTree α} (hf : f.Fits h) (ht : t.Avl)
    (hh : t.height+1 = h) : Shrunk (f.height h) (f.fill t) := by
  obtain ⟨hs,h1,h2⟩ := hf
  refine ⟨Frame.near_fill hs ht (by omega) (by omega),?_⟩
  have hlean := f.natAbs_bal_fill t
  have htop : (f.fill t).height = max t.height f.sibling.height+1 := Frame.height_fill f t
  by_cases hlow : f.sibling.height < h
  · -- the sibling was lower
    have heq : f.sibling.height = t.height := by omega
    rw [heq,sub_self] at hlean
    refine Or.inl ⟨Int.natAbs_eq_zero.mp hlean,?_⟩
    rw [htop,Frame.height,heq,max_self,max_eq_left (by omega),hh]
  · have hle : h ≤ f.sibling.height := not_lt.mp hlow
    rw [max_eq_right (by omega)] at htop
    have hold : f.height h = f.sibling.height+1 := by rw [Frame.height,max_eq_right hle]
    rw [htop,hold]
    by_cases heven : f.sibling.height = h
    · exact Or.inr (Or.inl ⟨by omega,rfl⟩)
    · exact Or.inr (Or.inr ⟨by omega,rfl⟩)

theorem grown_climb : Climb (α:=α) (fun b => b = 0) 1 Grown := by
  have hspec {h : ℕ} {t : BinaryTree α} (hg : Grown h t) : t.rebalance.Avl ∧
      (t.rebalance.bal = 0 ∧ t.rebalance.height = h ∨
        t.rebalance.bal ≠ 0 ∧ t.rebalance.height = h+1) := by
    obtain ⟨hn,⟨hb,hh⟩ | ⟨hb,hh⟩ | ⟨hb,hh,hheavy⟩⟩ := hg
    · obtain ⟨heq,havl⟩ := hn.avl_of_bal (by omega)
      rw [heq]
      exact ⟨havl,Or.inl ⟨hb,hh⟩⟩
    · obtain ⟨heq,havl⟩ := hn.avl_of_bal (by omega)
      rw [heq]
      exact ⟨havl,Or.inr ⟨by omega,hh⟩⟩
    · obtain ⟨havl,hlow,_⟩ := hn.rebalance_spec hb
      obtain ⟨hb',hh'⟩ := hlow hheavy
      exact ⟨havl,Or.inl ⟨hb',by omega⟩⟩
  refine ⟨fun hg => hg.1,fun hg => (hspec hg).1,fun hg hd => ?_,fun hg hd => ?_⟩ <;>
    obtain ⟨havl,⟨hb,hh⟩ | ⟨hb,hh⟩⟩ := hspec hg
  · exact hh
  · exact absurd (of_decide_eq_true hd) hb
  · exact absurd hb (of_decide_eq_false hd)
  · exact ⟨by omega,fun f hf => grown_fill hf havl hh (Or.inl hb)⟩

theorem shrunk_climb : Climb (α:=α) (fun b => b ≠ 0) (-1) Shrunk := by
  have hspec {h : ℕ} {t : BinaryTree α} (hg : Shrunk h t) : t.rebalance.Avl ∧
      (t.rebalance.bal = 0 ∧ t.rebalance.height+1 = h ∨
        t.rebalance.bal ≠ 0 ∧ t.rebalance.height = h) := by
    obtain ⟨hn,⟨hb,hh⟩ | ⟨hb,hh⟩ | ⟨hb,hh⟩⟩ := hg
    · obtain ⟨heq,havl⟩ := hn.avl_of_bal (by omega)
      rw [heq]
      exact ⟨havl,Or.inl ⟨hb,hh⟩⟩
    · obtain ⟨heq,havl⟩ := hn.avl_of_bal (by omega)
      rw [heq]
      exact ⟨havl,Or.inr ⟨by omega,hh⟩⟩
    · obtain ⟨havl,hlow,hsame⟩ := hn.rebalance_spec hb
      refine ⟨havl,?_⟩
      by_cases hheavy : t.heavy.bal = 0
      · obtain ⟨hb',hh'⟩ := hsame hheavy
        exact Or.inr ⟨hb',by omega⟩
      · obtain ⟨hb',hh'⟩ := hlow hheavy
        exact Or.inl ⟨hb',by omega⟩
  refine ⟨fun hg => hg.1,fun hg => (hspec hg).1,fun hg hd => ?_,fun hg hd => ?_⟩ <;>
    obtain ⟨havl,⟨hb,hh⟩ | ⟨hb,hh⟩⟩ := hspec hg
  · exact absurd hb (of_decide_eq_true hd)
  · exact hh
  · exact ⟨by omega,fun f hf => shrunk_fill hf havl hh⟩
  · exact absurd hb (of_decide_eq_false hd)

end AvlTree
