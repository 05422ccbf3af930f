import Http2d.AvlContext
import Http2d.Library.SearchTree

/-! The loops that go down the tree: for a key, to the first node and to the last one. -/
namespace Http2d

open BinaryTree AvlTree SearchTree WhileLoop

section Threads
variable {m : ℕ → AvlNode} {lo hi : Option ℕ} {s : BinaryTree ℕ} {x : ℕ}

/-- The first node is given another neighbour before it. -/
theorem Rep.setLo (h : Rep m lo s hi) (hnd : s.toList.Nodup) (hx : s.toList.head? = some x)
    (lo' : Option ℕ) : Rep (modifyNode m x fun n => {n with left := lo'}) lo' s hi := by
  induction s generalizing lo hi with
  | nil => cases hx
  | node p l r ihl =>
    obtain ⟨hp,hl,hr⟩ := h
    cases l with
    | nil =>
      cases hx
      refine ⟨by rw [modifyNode_self,hp]; rfl,trivial,hr.congr fun y hy => modifyNode_of_ne _ _ ?_⟩
      rintro rfl
      simp [toList,hy] at hnd
    | node q a b =>
      have hxl : (node q a b).toList.head? = some x :=
        hx ▸ (List.head?_append_of_ne_nil _ (by simp [toList])).symm
      have hmem := List.mem_of_head? hxl
      have hnd' := hnd
      rw [toList,List.nodup_append,List.nodup_cons] at hnd
      simp only [List.mem_cons] at hnd
      refine ⟨?_,ihl hl hnd.1 hxl,hr.congr fun y hy => modifyNode_of_ne _ _ (by grind)⟩
      rw [modifyNode_of_ne _ _ (by grind),hp]
      rfl

theorem getLast?_right (l : BinaryTree ℕ) (p q : ℕ) (a b : BinaryTree ℕ) :
    (node p l (node q a b)).toList.getLast? = (node q a b).toList.getLast? := by
  simp [toList,List.getLast?_append,List.getLast?_cons]

/-- The last node is given another neighbour behind it. -/
theorem Rep.setHi (h : Rep m lo s hi) (hnd : s.toList.Nodup) (hx : s.toList.getLast? = some x)
    (hi' : Option ℕ) : Rep (modifyNode m x fun n => {n with right := hi'}) lo s hi' := by
  induction s generalizing lo hi with
  | nil => cases hx
  | node p l r _ ihr =>
    obtain ⟨hp,hl,hr⟩ := h
    cases r with
    | nil =>
      rw [toList,toList,List.getLast?_concat] at hx
      cases hx
      refine ⟨by rw [modifyNode_self,hp]; rfl,hl.congr fun y hy => modifyNode_of_ne _ _ ?_,trivial⟩
      rintro rfl
      exact (List.nodup_append.mp hnd).2.2 y hy y (by simp [toList]) rfl
    | node q a b =>
      have hxr : (node q a b).toList.getLast? = some x := hx ▸ (getLast?_right l p q a b).symm
      have hmem := List.mem_of_getLast? hxr
      rw [toList,List.nodup_append,List.nodup_cons] at hnd
      simp only [List.mem_cons] at hnd
      refine ⟨?_,hl.congr fun y hy => modifyNode_of_ne _ _ (by grind),ihr hr hnd.2.1.2 hxr⟩
      rw [modifyNode_of_ne _ _ (by grind),hp]
      rfl

end Threads

/-- The comparison that the tree acts on: the result of `node_cmp` stored in a `short`. -/
def narrowed {K : Type} (cmp : K → K → ℤ) (a b : K) : ℤ := cshort (cmp a b)

/-- How a walk ends, from where the way down in the tree ends. -/
def walkEnd : Context ℕ × BinaryTree ℕ → Walk
  | (c,.node p _ _) => .found p (c.map Frame.elem)
  | (.left p _::c,.nil) => .noLeft p (c.map Frame.elem)
  | (.right _ p::c,.nil) => .noRight p (c.map Frame.elem)
  | ([],.nil) => .found 0 []

namespace Avl

variable {K V : Type} {t : Avl K V} {lo hi : Option ℕ} {s : BinaryTree ℕ} {p : ℕ}

theorem loop_eq {S R : Type} {body : S → Turn S (Exec R)} {fuel : ℕ} {u : S} {r : Exec R}
    (h : WhileLoop.run body fuel u = some r) (hfuel : fuel ≤ t.next+1) : t.loop body u = r := by
  rw [loop,run_mono hfuel h]
  rfl

/-- The sign of a key against the keys of the nodes. -/
def ord (cmp : K → K → ℤ) (t : Avl K V) (key : K) (p : ℕ) : ℤ := narrowed cmp key (t.key p)

theorem run_walk (cmp : K → K → ℤ) (key : K) (c : Context ℕ) (hrep : Rep t.nodes lo s hi)
    (hs : s.root = some p) :
    WhileLoop.run (walkTurn cmp t key) s.height (p,c.map Frame.elem) =
      some (.ok (walkEnd (descend (t.ord cmp key) c s))) := by
  induction s generalizing p c lo hi with
  | nil => cases hs
  | node q l r ihl ihr =>
    cases hs
    obtain ⟨hp,hl,hr⟩ := hrep
    have hordp : t.ord cmp key q = cshort (cmp key (t.key q)) := rfl
    rw [height_node,descend]
    by_cases hlow : t.ord cmp key q < 0
    · rw [if_pos hlow]
      cases l with
      | nil =>
        refine run_stop ?_ _
        simp [walkTurn,← hordp,hlow,hp,AvlNode.of,descend,walkEnd]
      | node d a b =>
        have hturn : walkTurn cmp t key (q,c.map Frame.elem) =
            .again (d,(Frame.left q r::c).map Frame.elem) := by
          simp [walkTurn,← hordp,hlow,hp,AvlNode.of,Frame.elem]
        rw [run_again hturn]
        exact run_mono (le_max_left _ _) (ihl (.left q r::c) hl rfl)
    · rw [if_neg hlow]
      by_cases hhigh : 0 < t.ord cmp key q
      · rw [if_pos hhigh]
        cases r with
        | nil =>
          refine run_stop ?_ _
          simp [walkTurn,← hordp,hlow,hhigh,hp,AvlNode.of,descend,walkEnd]
        | node d a b =>
          have hturn : walkTurn cmp t key (q,c.map Frame.elem) =
              .again (d,(Frame.right l q::c).map Frame.elem) := by
            simp [walkTurn,← hordp,hlow,hhigh,hp,AvlNode.of,Frame.elem]
          rw [run_again hturn]
          exact run_mono (le_max_right _ _) (ihr (.right l q::c) hr rfl)
      · rw [if_neg hhigh]
        refine run_stop ?_ _
        simp [walkTurn,← hordp,hlow,hhigh,walkEnd]

/-- A walk from the root of the tree finds where the way down ends. -/
theorem walk_spec (cmp : K → K → ℤ) (key : K) (hrep : Rep t.nodes lo s hi) (hs : s.root = some p)
    (hsize : s.toList.length ≤ t.next) :
    t.walk cmp key p = .ok (walkEnd (descend (t.ord cmp key) [] s)) :=
  loop_eq (run_walk cmp key [] hrep hs) (by have := height_le_length s; omega)

/-- The loop to the last node. -/
theorem run_right (hspans : Spans t.nodes s) (hs : s.root = some p) :
    ∃ x, s.toList.getLast? = some x ∧ WhileLoop.run (rightTurn t) s.height p = some (.ok x) := by
  induction s generalizing p with
  | nil => cases hs
  | node q l r ihl ihr =>
    cases hs
    obtain ⟨-,-,hflag,hptr,-,hr⟩ := hspans
    cases r with
    | nil =>
      refine ⟨q,by simp [toList],run_stop ?_ _⟩
      simp [rightTurn,hflag]
    | node d a b =>
      obtain ⟨x,hx,hrun⟩ := ihr hr rfl
      have hchild : (t.nodes q).rightChild = true := hflag.mpr (by simp)
      have hturn : rightTurn t q = .again d := by simp [rightTurn,hchild,hptr hchild]
      refine ⟨x,?_,?_⟩
      · exact (getLast?_right l q d a b).trans hx
      · rw [height_node,run_again hturn]
        exact run_mono (le_max_right _ _) hrun

/-- The loop to the first node, with the frames that it passes. -/
theorem run_left (hspans : Spans t.nodes s) (hs : s.root = some p) (path : List ℕ) :
    ∃ (c : Context ℕ) (x : ℕ) (r : BinaryTree ℕ), s = c.plug (.node x .nil r) ∧
      (∀ f ∈ c, f.isLeft) ∧ WhileLoop.run (leftTurn t) s.height (p,path) =
        some (.ok (x,c.map Frame.elem++path)) := by
  induction s generalizing p path with
  | nil => cases hs
  | node q l r ihl =>
    cases hs
    obtain ⟨hflag,hptr,-,-,hl,-⟩ := hspans
    cases l with
    | nil =>
      refine ⟨[],q,r,rfl,by simp,run_stop ?_ _⟩
      simp [leftTurn,hflag]
    | node d a b =>
      obtain ⟨c,x,r',hplug,hleft,hrun⟩ := ihl hl rfl (q::path)
      have hchild : (t.nodes q).leftChild = true := hflag.mpr (by simp)
      have hturn : leftTurn t (q,path) = .again (d,q::path) := by
        simp [leftTurn,hchild,hptr hchild]
      refine ⟨c++[.left q r],x,r',?_,?_,?_⟩
      · rw [Context.plug_append,← hplug]
        rfl
      · simpa [or_imp,forall_and,Frame.isLeft] using hleft
      · rw [height_node,run_again hturn]
        simpa [Frame.elem] using run_mono (le_max_left _ _) hrun

end Avl
end Http2d
