import Http2d.AvlRepresentation

/-! Rotations of trees of any heights.
The new balances come from the two old ones alone. They are the differences of the heights as long as
the `short` of a node holds these; in a balanced tree it does. -/
namespace Http2d

open BinaryTree

/-- The pointers, threads and flags of a tree between the nodes `lo` and `hi`, whatever the balances
are. -/
def Connected (m : ℕ → AvlNode) : Option ℕ → BinaryTree ℕ → Option ℕ → Prop
  | _, .nil, _ => True
  | lo, .node p l r, hi =>
    (m p).left = l.root.or lo ∧ (m p).right = r.root.or hi ∧ (m p).leftChild = l.root.isSome ∧
    (m p).rightChild = r.root.isSome ∧ Connected m lo l (some p) ∧ Connected m (some p) r hi

/-- The balance of the root is how much higher the right subtree is. -/
def BalanceOf (m : ℕ → AvlNode) (t : BinaryTree ℕ) : Prop :=
  ∀ p, t.root = some p → (m p).balance = t.bal

/-- A rotation has made the tree `t` in memory the tree `top`; `lower` is the subtree of the node that
went down. Only the two nodes at the top are written. -/
structure Rotated (m m' : ℕ → AvlNode) (lo : Option ℕ) (t top lower : BinaryTree ℕ) (hi : Option ℕ) :
    Prop where
  order : top.toList = t.toList
  connected : Connected m' lo top hi
  topBalance : BalanceOf m' top ↔ IsShort top.bal
  lowerBalance : BalanceOf m' lower ↔ IsShort lower.bal
  others : ∀ x, top.root ≠ some x → lower.root ≠ some x → m' x = m x

section Links
variable {m m' : ℕ → AvlNode} {lo hi : Option ℕ} {t l r : BinaryTree ℕ} {p : ℕ}

theorem Connected.congr (h : Connected m lo t hi) (hsame : ∀ x ∈ t.toList, m' x = m x) :
    Connected m' lo t hi := by
  induction t generalizing lo hi with
  | nil => trivial
  | node p l r ihl ihr =>
    obtain ⟨h1,h2,h3,h4,hl,hr⟩ := h
    have hp := hsame p (by simp [toList])
    refine ⟨hp ▸ h1,hp ▸ h2,hp ▸ h3,hp ▸ h4,ihl hl fun x hx => hsame x ?_,ihr hr fun x hx => hsame x ?_⟩
    · simp [toList,hx]
    · simp [toList,hx]

theorem balanceOf_node : BalanceOf m (node p l r) ↔ (m p).balance = (node p l r).bal := by
  simp [BalanceOf]

/-- A node of a connected tree with the right balance. -/
theorem Connected.node_eq (h : Connected m lo (node p l r) hi) (hb : BalanceOf m (node p l r)) :
    m p = .of lo l r hi := by
  obtain ⟨h1,h2,h3,h4,-,-⟩ := h
  have hbal := balanceOf_node.mp hb
  rcases hp : m p with ⟨b,pl,pr,cl,cr⟩
  rw [hp] at h1 h2 h3 h4 hbal
  simp only at h1 h2 h3 h4 hbal
  rw [h1,h2,h3,h4,hbal]
  rfl

/-- A node that was written by a rotation. -/
theorem connected_of_narrow (hp : m p = (AvlNode.of lo l r hi).narrow) (hl : Connected m lo l (some p))
    (hr : Connected m (some p) r hi) : Connected m lo (node p l r) hi := by
  refine ⟨?_,?_,?_,?_,hl,hr⟩ <;> rw [hp] <;> rfl

theorem balanceOf_of_narrow (hp : m p = (AvlNode.of lo l r hi).narrow) :
    BalanceOf m (node p l r) ↔ IsShort (node p l r).bal := by
  rw [balanceOf_node,hp,← cshort_eq_iff]
  rfl

end Links

section Exact
variable {m : ℕ → AvlNode} {lo hi : Option ℕ} {a b c : BinaryTree ℕ} {p q : ℕ}

theorem nodeRotateLeft_exact (h : Connected m lo (node p a (node q b c)) hi)
    (hnd : (node p a (node q b c)).toList.Nodup) (hbp : BalanceOf m (node p a (node q b c)))
    (hbq : BalanceOf m (node q b c)) : ∃ m', nodeRotateLeft m p = .ok (q,m') ∧
      Rotated m m' lo (node p a (node q b c)) (node q (node p a b) c) (node p a b) hi := by
  obtain ⟨-,-,-,-,ha,hq⟩ := id h
  obtain ⟨-,-,-,-,hb,hc⟩ := id hq
  simp only [toList,List.nodup_append,List.nodup_cons,List.mem_append,List.mem_cons] at hnd
  obtain ⟨m',hm',hp',hq',hother⟩ := nodeRotateLeft_eq (h.node_eq hbp) (hq.node_eq hbq) (by grind)
  have hsame {x : ℕ} (hx : x ∈ a.toList ∨ x ∈ b.toList ∨ x ∈ c.toList) : m' x = m x := by
    refine hother x ?_ ?_ <;> grind
  have hlower : Connected m' lo (node p a b) (some q) := connected_of_narrow hp'
    (ha.congr fun x hx => hsame (Or.inl hx)) (hb.congr fun x hx => hsame (Or.inr (Or.inl hx)))
  refine ⟨m',hm',by simp [toList],connected_of_narrow hq' hlower (hc.congr fun x hx => hsame (by simp [hx])),
    balanceOf_of_narrow hq',balanceOf_of_narrow hp',fun x hq hp => hother x ?_ ?_⟩
  · exact fun hx => hp (congrArg some hx.symm)
  · exact fun hx => hq (congrArg some hx.symm)

theorem nodeRotateRight_exact (h : Connected m lo (node q (node p a b) c) hi)
    (hnd : (node q (node p a b) c).toList.Nodup) (hbq : BalanceOf m (node q (node p a b) c))
    (hbp : BalanceOf m (node p a b)) : ∃ m', nodeRotateRight m q = .ok (p,m') ∧
      Rotated m m' lo (node q (node p a b) c) (node p a (node q b c)) (node q b c) hi := by
  obtain ⟨-,-,-,-,hp,hc⟩ := id h
  obtain ⟨-,-,-,-,ha,hb⟩ := id hp
  simp only [toList,List.nodup_append,List.nodup_cons,List.mem_append,List.mem_cons] at hnd
  obtain ⟨m',hm',hp',hq',hother⟩ := nodeRotateRight_eq (h.node_eq hbq) (hp.node_eq hbp) (by grind)
  have hsame {x : ℕ} (hx : x ∈ a.toList ∨ x ∈ b.toList ∨ x ∈ c.toList) : m' x = m x := by
    refine hother x ?_ ?_ <;> grind
  have hlower : Connected m' (some p) (node q b c) hi := connected_of_narrow hq'
    (hb.congr fun x hx => hsame (Or.inr (Or.inl hx))) (hc.congr fun x hx => hsame (by simp [hx]))
  refine ⟨m',hm',by simp [toList],connected_of_narrow hp' (ha.congr fun x hx => hsame (Or.inl hx)) hlower,
    balanceOf_of_narrow hp',balanceOf_of_narrow hq',fun x hp hq => hother x ?_ ?_⟩
  · exact fun hx => hp (congrArg some hx.symm)
  · exact fun hx => hq (congrArg some hx.symm)

end Exact

/-- The rotations keep the order and the threads of trees of any heights, and the balances that they
compute are right exactly when a `short` holds them; so a node whose balanced subtrees differ in height by
two is balanced by them. -/
theorem rotations_exact (m : ℕ → AvlNode) (lo hi : Option ℕ) :
    (∀ a b c p q, Connected m lo (node p a (node q b c)) hi → (node p a (node q b c)).toList.Nodup →
      BalanceOf m (node p a (node q b c)) → BalanceOf m (node q b c) →
      ∃ m', nodeRotateLeft m p = .ok (q,m') ∧
        Rotated m m' lo (node p a (node q b c)) (node q (node p a b) c) (node p a b) hi) ∧
    (∀ a b c p q, Connected m lo (node q (node p a b) c) hi → (node q (node p a b) c).toList.Nodup →
      BalanceOf m (node q (node p a b) c) → BalanceOf m (node p a b) →
      ∃ m', nodeRotateRight m q = .ok (p,m') ∧
        Rotated m m' lo (node q (node p a b) c) (node p a (node q b c)) (node q b c) hi) ∧
    ∀ l r p, Rep m lo (node p l r) hi → (node p l r).toList.Nodup → l.Avl → r.Avl →
      ((m p).balance = 2 ∨ (m p).balance = -2) →
      ∃ q m' t, nodeBalance m p = .ok (q,m') ∧ t.root = some q ∧ t.toList = (node p l r).toList ∧
        Rep m' lo t hi ∧ t.Avl ∧ Agree m m' (node p l r).toList := by
  refine ⟨fun a b c p q => nodeRotateLeft_exact,fun a b c p q => nodeRotateRight_exact,
    fun l r p hrep hnd hl hr hb => ?_⟩
  rw [hrep.1] at hb
  simp only [AvlNode.of] at hb
  have hnear : (node p l r).Near := ⟨hl,hr,by omega,by omega⟩
  obtain ⟨q,m',hm',hroot,hrep',hagree⟩ := nodeBalance_rep hrep hnear hnd
  exact ⟨q,m',_,hm',hroot,toList_rebalance _,hrep',(hnear.rebalance_spec (by rw [bal_node]; omega)).1,hagree⟩

section Layout

/-- The memory `m` after a tree has been put into it. -/
def layOut (m : ℕ → AvlNode) : Option ℕ → BinaryTree ℕ → Option ℕ → ℕ → AvlNode
  | _, .nil, _ => m
  | lo, .node p l r, hi =>
    Function.update (layOut (layOut m lo l (some p)) (some p) r hi) p (.of lo l r hi)

theorem layOut_of_notMem (m : ℕ → AvlNode) (lo hi : Option ℕ) {t : BinaryTree ℕ} {x : ℕ}
    (hx : x ∉ t.toList) : layOut m lo t hi x = m x := by
  induction t generalizing m lo hi with
  | nil => rfl
  | node p l r ihl ihr =>
    simp only [toList,List.mem_append,List.mem_cons,not_or] at hx
    rw [layOut,Function.update_of_ne hx.2.1,ihr _ _ _ hx.2.2,ihl _ _ _ hx.1]

theorem layOut_rep (m : ℕ → AvlNode) (lo hi : Option ℕ) {t : BinaryTree ℕ} (hnd : t.toList.Nodup) :
    Rep (layOut m lo t hi) lo t hi := by
  induction t generalizing m lo hi with
  | nil => trivial
  | node p l r ihl ihr =>
    simp only [toList,List.nodup_append,List.nodup_cons,List.mem_cons] at hnd
    obtain ⟨hl,⟨hpr,hr⟩,hcross⟩ := hnd
    refine ⟨Function.update_self ..,(ihl m lo (some p) hl).congr fun x hx => ?_,
      (ihr (layOut m lo l (some p)) (some p) hi hr).congr fun x hx => ?_⟩
    · rw [layOut,Function.update_of_ne (hcross x hx p (Or.inl rfl)),
        layOut_of_notMem _ _ _ fun hxr => hcross x hx x (Or.inr hxr) rfl]
    · rw [layOut,Function.update_of_ne (by rintro rfl; exact hpr hx)]

end Layout

theorem Rep.connected {m : ℕ → AvlNode} {lo hi : Option ℕ} {t : BinaryTree ℕ} (h : Rep m lo t hi) :
    Connected m lo t hi ∧ BalanceOf m t := by
  induction t generalizing lo hi with
  | nil => exact ⟨trivial,fun p hp => by cases hp⟩
  | node p l r ihl ihr =>
    obtain ⟨hp,hl,hr⟩ := h
    refine ⟨⟨?_,?_,?_,?_,(ihl hl).1,(ihr hr).1⟩,balanceOf_node.mpr ?_⟩ <;> rw [hp] <;> rfl

/-- Two nodes below each other on either side, and three on the right. -/
theorem rotations_exact_small :
    (∃ m', nodeRotateLeft (layOut (fun _ => .init) none (node 0 nil (node 1 nil nil)) none) 0 = .ok (1,m') ∧
      Rotated (layOut (fun _ => .init) none (node 0 nil (node 1 nil nil)) none) m' none
        (node 0 nil (node 1 nil nil)) (node 1 (node 0 nil nil) nil) (node 0 nil nil) none) ∧
    (∃ m', nodeRotateRight (layOut (fun _ => .init) none (node 1 (node 0 nil nil) nil) none) 1 = .ok (0,m') ∧
      Rotated (layOut (fun _ => .init) none (node 1 (node 0 nil nil) nil) none) m' none
        (node 1 (node 0 nil nil) nil) (node 0 nil (node 1 nil nil)) (node 1 nil nil) none) ∧
    ∃ q m' t, nodeBalance (layOut (fun _ => .init) none (node 0 nil (node 1 nil (node 2 nil nil))) none) 0 =
        .ok (q,m') ∧ t.root = some q ∧ t.toList = [0,1,2] ∧ Rep m' none t none ∧ t.Avl ∧
      Agree (layOut (fun _ => .init) none (node 0 nil (node 1 nil (node 2 nil nil))) none) m' [0,1,2] := by
  have hleft := layOut_rep (fun _ => .init) none none (t:=node 0 nil (node 1 nil nil)) (by decide)
  have hright := layOut_rep (fun _ => .init) none none (t:=node 1 (node 0 nil nil) nil) (by decide)
  have hthree := layOut_rep (fun _ => .init) none none (t:=node 0 nil (node 1 nil (node 2 nil nil)))
    (by decide)
  exact ⟨(rotations_exact _ none none).1 nil nil nil 0 1 hleft.connected.1 (by decide) hleft.connected.2
      hleft.2.2.connected.2,
    (rotations_exact _ none none).2.1 nil nil nil 0 1 hright.connected.1 (by decide) hright.connected.2
      hright.2.1.connected.2,
    (rotations_exact _ none none).2.2 nil (node 1 nil (node 2 nil nil)) 0 hthree (by decide) trivial
      ⟨trivial,⟨trivial,trivial,by decide,by decide⟩,by decide,by decide⟩ (by decide)⟩

/-- A tree in which every node but the last has a left child only. -/
def leftChain : ℕ → BinaryTree ℕ
  | 0 => .nil
  | n+1 => .node n (leftChain n) .nil

theorem height_leftChain (n : ℕ) : (leftChain n).height = n := by
  induction n with
  | zero => rfl
  | succ n ih => rw [leftChain,height_node,ih,height,Nat.max_zero]

theorem toList_leftChain (n : ℕ) : (leftChain n).toList = List.range n := by
  induction n with
  | zero => rfl
  | succ n ih => rw [leftChain,toList,ih,List.range_succ,toList]

theorem toList_leftChain_leaf (n : ℕ) :
    (node n (leftChain n) (node (n+1) nil nil)).toList = List.range (n+2) := by
  rw [toList,toList_leftChain,List.range_succ,List.range_succ,List.append_assoc]
  rfl

theorem Rep.leftChain_balance {m : ℕ → AvlNode} {lo hi : Option ℕ} {n : ℕ}
    (h : Rep m lo (leftChain n) hi) {x : ℕ} (hx : x < n) : (m x).balance = -x := by
  induction n generalizing hi with
  | zero => omega
  | succ n ih =>
    obtain ⟨hp,hl,-⟩ := h
    rcases Nat.lt_succ_iff_lt_or_eq.mp hx with hlt | rfl
    · exact ih hl hlt
    · rw [hp,AvlNode.of,height_leftChain,height]
      simp

/-- A leaf on the right of a node whose left subtree is a chain of 32769 nodes. -/
def lopsided : BinaryTree ℕ := node 32769 (leftChain 32769) (node 32770 nil nil)

/-- Every balance of this tree is a `short`; after a rotation to the left the one of the lower node would
be -32769, and it is 32767. -/
theorem not_exact_lopsided : ∃ m, Rep m none lopsided none ∧ lopsided.toList.Nodup ∧
    (∀ x ∈ lopsided.toList, IsShort (m x).balance) ∧
    ∃ m', nodeRotateLeft m 32769 = .ok (32770,m') ∧
      (m' 32769).balance = 32767 ∧ (node 32769 (leftChain 32769) nil).bal = -32769 := by
  have hlist : lopsided.toList = List.range (32769+2) := toList_leftChain_leaf 32769
  have hnd : lopsided.toList.Nodup := hlist ▸ List.nodup_range
  have hrep := layOut_rep (fun _ => .init) none none hnd
  obtain ⟨hp,hl,hq⟩ := hrep
  have hbal : (node 32769 (leftChain 32769) nil).bal = -32769 := by
    rw [bal_node,height_leftChain,height]
    rfl
  obtain ⟨m',hm',hp',-,-⟩ := nodeRotateLeft_eq hp hq.1 (by decide)
  refine ⟨_,⟨hp,hl,hq⟩,hnd,fun x hx => ?_,m',hm',?_,hbal⟩
  · rw [hlist,List.mem_range] at hx
    rcases Nat.lt_or_ge x 32769 with hlt | hge
    · rw [hl.leftChain_balance hlt,IsShort]
      omega
    · obtain rfl | rfl : x = 32769 ∨ x = 32770 := by omega
      · rw [hp,AvlNode.of,height_leftChain]
        simp [IsShort,height]
      · rw [hq.1]
        simp [IsShort,AvlNode.of]
  · rw [hp']
    show cshort (node 32769 (leftChain 32769) nil).bal = 32767
    rw [hbal]
    rfl

end Http2d
