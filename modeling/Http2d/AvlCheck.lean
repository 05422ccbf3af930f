import Http2d.AvlDeletion
import Http2d.AvlRotation
import Http2d.BufferOps

/-! The checker of the tree.
It tests a node and calls itself for the children, and it does not look at what these calls return.
The memory is any that has children as a tree has them; the balances and the threads are what is to
be checked. -/
namespace Http2d

open BinaryTree WhileLoop

/-- `node_height`; the heights are values of a `cint_t`. -/
def nodeHeight (m : ℕ → AvlNode) : ℕ → Option ℕ → Exec ℤ
  | _, none => .ok 0
  | 0, some _ => .error .fault
  | fuel+1, some p => do
    let leftHeight ← (if (m p).leftChild then nodeHeight m fuel (m p).left else .ok 0)
    let rightHeight ← (if (m p).rightChild then nodeHeight m fuel (m p).right else .ok 0)
    intValue (max leftHeight rightHeight+1)

namespace Avl

variable {K V : Type}

/-- The first test of `node_check`. -/
def prevTest (t : Avl K V) (p : ℕ) : Exec Bool :=
  if (t.nodes p).leftChild then do
    let tmp ← t.nodePrev p
    .ok ((t.nodes tmp).right = some p)
  else .ok true

/-- The second test of `node_check`. -/
def nextTest (t : Avl K V) (p : ℕ) : Exec Bool :=
  if (t.nodes p).rightChild then do
    let tmp ← t.nodeNext p
    .ok ((t.nodes tmp).left = some p)
  else .ok true

/-- The third test of `node_check`. -/
def balanceTest (t : Avl K V) (fuel p : ℕ) : Exec Bool := do
  let n := t.nodes p
  let leftHeight ← (if n.leftChild then nodeHeight t.nodes fuel n.left else .ok 0)
  let rightHeight ← (if n.rightChild then nodeHeight t.nodes fuel n.right else .ok 0)
  let balance ← intValue (rightHeight-leftHeight)
  .ok (balance = n.balance)

/-- `node_check`. -/
def nodeCheck (t : Avl K V) : ℕ → Option ℕ → Exec Ret
  | _, none => .ok .ok
  | 0, some _ => .error .fault
  | fuel+1, some p => do
    if ← t.prevTest p then
      if ← t.nextTest p then
        if ← t.balanceTest fuel p then
          -- the results for the children are dropped
          let _ ← (if (t.nodes p).leftChild then nodeCheck t fuel (t.nodes p).left else .ok .ok)
          let _ ← (if (t.nodes p).rightChild then nodeCheck t fuel (t.nodes p).right else .ok .ok)
          .ok .ok
        else .ok .error
      else .ok .error
    else .ok .error

/-- `http2d_avl_check`. -/
def avlCheck (t : Avl K V) : Exec Ret := t.nodeCheck (t.next+1) t.root

end Avl

/-- The thread of the last node on the left leads back. -/
def PrevRight (m : ℕ → AvlNode) (p : ℕ) (l : BinaryTree ℕ) : Prop :=
  ∀ x ∈ l.toList.getLast?, (m x).right = some p

/-- The thread of the first node on the right leads back. -/
def NextRight (m : ℕ → AvlNode) (p : ℕ) (r : BinaryTree ℕ) : Prop :=
  ∀ x ∈ r.toList.head?, (m x).left = some p

def BalanceRight (m : ℕ → AvlNode) (p : ℕ) (l r : BinaryTree ℕ) : Prop :=
  (m p).balance = (r.height : ℤ)-l.height

/-- What the checker tests holds at the root. -/
def RootRight (m : ℕ → AvlNode) : BinaryTree ℕ → Prop
  | .nil => True
  | .node p l r => PrevRight m p l ∧ NextRight m p r ∧ BalanceRight m p l r

/-- What the checker tests holds at every node, at any depth. -/
def AllRight (m : ℕ → AvlNode) : BinaryTree ℕ → Prop
  | .nil => True
  | .node p l r => RootRight m (.node p l r) ∧ AllRight m l ∧ AllRight m r

/-- When the tests at the root are enough. A wrong thread ends the check before a height is computed. -/
def RootDecides (m : ℕ → AvlNode) : BinaryTree ℕ → Prop
  | .nil => True
  | .node p l r =>
    PrevRight m p l ∧ NextRight m p r →
      (l.height < 2^31 ∧ r.height < 2^31) ∧ (BalanceRight m p l r → AllRight m l ∧ AllRight m r)

instance (m : ℕ → AvlNode) (p : ℕ) (l : BinaryTree ℕ) : Decidable (PrevRight m p l) :=
  inferInstanceAs (Decidable (∀ x ∈ l.toList.getLast?, (m x).right = some p))

instance (m : ℕ → AvlNode) (p : ℕ) (r : BinaryTree ℕ) : Decidable (NextRight m p r) :=
  inferInstanceAs (Decidable (∀ x ∈ r.toList.head?, (m x).left = some p))

instance (m : ℕ → AvlNode) (p : ℕ) (l r : BinaryTree ℕ) : Decidable (BalanceRight m p l r) :=
  inferInstanceAs (Decidable ((m p).balance = (r.height : ℤ)-l.height))

section Children
variable {m : ℕ → AvlNode} {l r : BinaryTree ℕ} {p : ℕ} {A : Type}

/-- What is done for a left child is done for the left subtree, when it is nothing for an empty one. -/
theorem Spans.left_child (h : Spans m (.node p l r)) (f : Option ℕ → A) :
    (if (m p).leftChild then f (m p).left else f none) = f l.root := by
  obtain ⟨hflag,hptr,-⟩ := h
  by_cases hc : (m p).leftChild = true
  · rw [if_pos hc,hptr hc]
  · obtain rfl : l = .nil := by
      by_contra hne
      exact hc (hflag.mpr hne)
    rw [if_neg hc,root_nil]

theorem Spans.right_child (h : Spans m (.node p l r)) (f : Option ℕ → A) :
    (if (m p).rightChild then f (m p).right else f none) = f r.root := by
  obtain ⟨-,-,hflag,hptr,-⟩ := h
  by_cases hc : (m p).rightChild = true
  · rw [if_pos hc,hptr hc]
  · obtain rfl : r = .nil := by
      by_contra hne
      exact hc (hflag.mpr hne)
    rw [if_neg hc,root_nil]

@[simp] theorem nodeHeight_none (fuel : ℕ) : nodeHeight m fuel none = .ok 0 := by cases fuel <;> rfl

/-- The height of a subtree, when it is the value of a `cint_t`. -/
theorem nodeHeight_spec {T : BinaryTree ℕ} {fuel : ℕ} (h : Spans m T) (hfuel : T.height ≤ fuel) :
    nodeHeight m fuel T.root = intValue T.height := by
  induction T generalizing fuel with
  | nil =>
    rw [root_nil,nodeHeight_none]
    rfl
  | node p l r ihl ihr =>
    rw [height_node] at hfuel ⊢
    obtain ⟨n,rfl⟩ : ∃ n, fuel = n+1 := ⟨fuel-1,by omega⟩
    have hl : nodeHeight m n l.root = intValue l.height := ihl h.2.2.2.2.1 (by omega)
    have hr : nodeHeight m n r.root = intValue r.height := ihr h.2.2.2.2.2 (by omega)
    have hleft := h.left_child (nodeHeight m n)
    have hright := h.right_child (nodeHeight m n)
    rw [nodeHeight_none] at hleft hright
    rw [root_node,nodeHeight,hleft,hright,hl,hr]
    by_cases hlfit : IsInt l.height
    · by_cases hrfit : IsInt r.height
      · rw [intValue_eq hlfit,intValue_eq hrfit,ok_bind,ok_bind]
        push_cast
        rfl
      · rw [intValue_eq hlfit,ok_bind,intValue_not hrfit,error_bind,intValue_not]
        unfold IsInt at *
        push_cast
        omega
    · rw [intValue_not hlfit,error_bind,intValue_not]
      unfold IsInt at *
      push_cast
      omega

end Children

namespace Avl

variable {K V : Type} {t : Avl K V} {T l r : BinaryTree ℕ} {p fuel : ℕ}

theorem prevTest_spec (h : Spans t.nodes (.node p l r)) (hsize : l.height ≤ t.next+1) :
    t.prevTest p = .ok (PrevRight t.nodes p l) := by
  obtain ⟨hflag,hptr,-,-,hl,-⟩ := h
  unfold prevTest
  cases l with
  | nil =>
    have hc : ¬ (t.nodes p).leftChild = true := fun hc => hflag.mp hc rfl
    rw [if_neg hc]
    simp [PrevRight,toList]
  | node q a b =>
    have hc := hflag.mpr (by simp)
    obtain ⟨x,hx,hprev⟩ := nodePrev_spec (hptr hc) rfl hl hsize
    rw [if_pos hc,hprev,ok_bind]
    simp [PrevRight,hx]

theorem nextTest_spec (h : Spans t.nodes (.node p l r)) (hsize : r.height ≤ t.next+1) :
    t.nextTest p = .ok (NextRight t.nodes p r) := by
  obtain ⟨-,-,hflag,hptr,-,hr⟩ := h
  unfold nextTest
  cases r with
  | nil =>
    have hc : ¬ (t.nodes p).rightChild = true := fun hc => hflag.mp hc rfl
    rw [if_neg hc]
    simp [NextRight,toList]
  | node q a b =>
    have hc := hflag.mpr (by simp)
    obtain ⟨x,hx,hnext⟩ := nodeNext_spec (hptr hc) rfl hr hsize
    rw [if_pos hc,hnext,ok_bind]
    simp [NextRight,hx]

/-- The heights of both subtrees are computed, whatever the balance is. -/
theorem balanceTest_eq (h : Spans t.nodes (.node p l r)) (hl : l.height ≤ fuel) (hr : r.height ≤ fuel) :
    t.balanceTest fuel p = intValue l.height >>= fun leftHeight =>
      intValue r.height >>= fun rightHeight => intValue (rightHeight-leftHeight) >>= fun balance =>
        Except.ok (decide (balance = (t.nodes p).balance)) := by
  have hleft := h.left_child (nodeHeight t.nodes fuel)
  have hright := h.right_child (nodeHeight t.nodes fuel)
  rw [nodeHeight_none] at hleft hright
  rw [balanceTest,hleft,hright,nodeHeight_spec h.2.2.2.2.1 hl,nodeHeight_spec h.2.2.2.2.2 hr]

theorem balanceTest_fits (h : Spans t.nodes (.node p l r)) (hl : l.height ≤ fuel) (hr : r.height ≤ fuel)
    (hfit : l.height < 2^31 ∧ r.height < 2^31) :
    t.balanceTest fuel p = .ok (BalanceRight t.nodes p l r) := by
  rw [balanceTest_eq h hl hr,intValue_ok (by omega) (by omega),intValue_ok (by omega) (by omega),ok_bind,
    ok_bind,intValue_ok (by omega) (by omega),ok_bind]
  simp only [BalanceRight,eq_comm]

theorem balanceTest_fault (h : Spans t.nodes (.node p l r)) (hl : l.height ≤ fuel) (hr : r.height ≤ fuel)
    (hfit : ¬ (l.height < 2^31 ∧ r.height < 2^31)) : t.balanceTest fuel p = .error .fault := by
  rw [balanceTest_eq h hl hr]
  by_cases hlfit : l.height < 2^31
  · rw [intValue_ok (by omega) (by omega),ok_bind,intValue_fault (by omega),error_bind]
  · rw [intValue_fault (by omega),error_bind]

@[simp] theorem nodeCheck_none : t.nodeCheck fuel none = .ok .ok := by cases fuel <;> rfl

/-- The check of a tree whose heights fit returns, and the root alone decides what. -/
theorem nodeCheck_returns (h : Spans t.nodes T) (hfuel : T.height ≤ fuel) (hsize : T.height ≤ t.next+1)
    (hfit : T.height ≤ 2^31) : ∃ ret, t.nodeCheck fuel T.root = .ok ret ∧ (ret = .ok ↔ RootRight t.nodes T) := by
  induction T generalizing fuel with
  | nil => exact ⟨.ok,by rw [root_nil,nodeCheck_none],by simp [RootRight]⟩
  | node p l r ihl ihr =>
    rw [height_node] at hfuel hsize hfit
    obtain ⟨n,rfl⟩ : ∃ n, fuel = n+1 := ⟨fuel-1,by omega⟩
    have hln : l.height ≤ n := by omega
    have hrn : r.height ≤ n := by omega
    obtain ⟨retl,hretl,-⟩ := ihl h.2.2.2.2.1 hln (by omega) (by omega)
    obtain ⟨retr,hretr,-⟩ := ihr h.2.2.2.2.2 hrn (by omega) (by omega)
    have hleft := h.left_child (t.nodeCheck n)
    have hright := h.right_child (t.nodeCheck n)
    rw [nodeCheck_none] at hleft hright
    rw [root_node,nodeCheck,prevTest_spec h (by omega),nextTest_spec h (by omega),
      balanceTest_fits h (by omega) (by omega) (by omega),hleft,hright,hretl,hretr]
    simp only [ok_bind,RootRight,decide_eq_true_eq]
    split_ifs with hprev hnext hbal
    · exact ⟨_,rfl,by simp [hprev,hnext,hbal]⟩
    · exact ⟨_,rfl,by simp [hbal]⟩
    · exact ⟨_,rfl,by simp [hnext]⟩
    · exact ⟨_,rfl,by simp [hprev]⟩

theorem nodeCheck_threads (h : Spans t.nodes (.node p l r)) (hl : l.height ≤ t.next+1)
    (hr : r.height ≤ t.next+1) (hthreads : ¬ (PrevRight t.nodes p l ∧ NextRight t.nodes p r)) :
    t.nodeCheck (fuel+1) (some p) = .ok .error := by
  rw [nodeCheck,prevTest_spec h hl,nextTest_spec h hr]
  by_cases hprev : PrevRight t.nodes p l
  · have hnext : ¬ NextRight t.nodes p r := fun hnext => hthreads ⟨hprev,hnext⟩
    simp only [ok_bind,decide_eq_true_eq,if_pos hprev,if_neg hnext]
  · simp only [ok_bind,decide_eq_true_eq,if_neg hprev]

theorem nodeCheck_fault (h : Spans t.nodes (.node p l r)) (hl : l.height ≤ fuel) (hr : r.height ≤ fuel)
    (hsize : fuel ≤ t.next+1) (hthreads : PrevRight t.nodes p l ∧ NextRight t.nodes p r)
    (hfit : ¬ (l.height < 2^31 ∧ r.height < 2^31)) :
    t.nodeCheck (fuel+1) (some p) = .error .fault := by
  rw [nodeCheck,prevTest_spec h (by omega),nextTest_spec h (by omega),balanceTest_fault h hl hr hfit]
  simp only [ok_bind,error_bind,decide_eq_true_eq,if_pos hthreads.1,if_pos hthreads.2]

end Avl

/-- The checker returns `ret_ok` exactly for the right trees, exactly when the root decides. -/
theorem avlCheck_exact_iff {K V : Type} {t : Avl K V} {T : BinaryTree ℕ} (hspans : Spans t.nodes T)
    (hroot : t.root = T.root) (hnd : T.toList.Nodup) (hfresh : ∀ p ∈ T.toList, p < t.next) :
    (∃ ret, t.avlCheck = .ok ret ∧ (ret = .ok ↔ AllRight t.nodes T)) ↔ RootDecides t.nodes T := by
  have hsub : T.toList ⊆ List.range t.next := fun p hp => List.mem_range.mpr (hfresh p hp)
  have hsize : T.height ≤ t.next := by
    have hlen := (hnd.subperm hsub).length_le
    rw [List.length_range] at hlen
    exact (height_le_length T).trans hlen
  rw [Avl.avlCheck,hroot]
  cases T with
  | nil => exact ⟨fun _ => trivial,fun _ => ⟨.ok,Avl.nodeCheck_none,by simp [AllRight]⟩⟩
  | node p l r =>
    rw [height_node] at hsize
    by_cases hthreads : PrevRight t.nodes p l ∧ NextRight t.nodes p r
    · by_cases hfit : l.height < 2^31 ∧ r.height < 2^31
      · have hfuel : (BinaryTree.node p l r).height ≤ t.next+1 := by
          rw [height_node]
          omega
        obtain ⟨ret,hret,hrootRight⟩ := Avl.nodeCheck_returns hspans hfuel hfuel (by rw [height_node]; omega)
        rw [hret]
        simp only [Except.ok.injEq,exists_eq_left',hrootRight,RootDecides,AllRight,RootRight]
        tauto
      · rw [root_node,Avl.nodeCheck_fault hspans (by omega) (by omega) (by omega) hthreads hfit]
        exact ⟨fun ⟨_,hret,_⟩ => (by cases hret),fun h => absurd (h hthreads).1 hfit⟩
    · rw [root_node,Avl.nodeCheck_threads hspans (by omega) (by omega) hthreads]
      refine ⟨fun _ h => absurd h hthreads,fun _ => ⟨.error,rfl,?_⟩⟩
      simp only [AllRight,RootRight]
      tauto

/-- Two nodes; the balance of the lower one is wrong. -/
def lowerWrong : Avl Unit Unit :=
  ⟨modifyNode (layOut (fun _ => .init) none (.node 0 .nil (.node 1 .nil .nil)) none) 1 fun n =>
    {n with balance := 1},fun _ => (),fun _ => (),2,some 0⟩

theorem lowerWrong_spans : Spans lowerWrong.nodes (.node 0 .nil (.node 1 .nil .nil)) := by
  simp [Spans,lowerWrong,layOut,AvlNode.of]

theorem avlCheck_exact_small :
    (∃ ret, lowerWrong.avlCheck = .ok ret ∧
      (ret = .ok ↔ AllRight lowerWrong.nodes (.node 0 .nil (.node 1 .nil .nil)))) ↔
    RootDecides lowerWrong.nodes (.node 0 .nil (.node 1 .nil .nil)) :=
  avlCheck_exact_iff lowerWrong_spans rfl (by decide) (by decide)

/-- The check of that tree returns `ret_ok`. -/
theorem avlCheck_misses_lower : Spans lowerWrong.nodes (.node 0 .nil (.node 1 .nil .nil)) ∧
    lowerWrong.avlCheck = .ok .ok ∧ ¬ AllRight lowerWrong.nodes (.node 0 .nil (.node 1 .nil .nil)) := by
  refine ⟨lowerWrong_spans,by decide +kernel,fun h => ?_⟩
  have hbal : BalanceRight lowerWrong.nodes 1 .nil .nil := h.2.2.1.2.2
  exact absurd hbal (by decide)

end Http2d
