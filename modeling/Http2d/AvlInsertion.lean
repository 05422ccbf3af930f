import Http2d.AvlSearch

/-! Attaching a new node to the tree. -/
namespace Http2d

open BinaryTree AvlTree

namespace Avl

variable {K V : Type} {t : Avl K V} {c : Context ℕ}

/-- What is written to the node that gets a new left or right child. -/
def attachTo (f : Frame ℕ) (child : ℕ) (n : AvlNode) : AvlNode :=
  if f.isLeft then {n with left := some child, leftChild := true, balance := cshort (n.balance-1)}
  else {n with right := some child, rightChild := true, balance := cshort (n.balance+1)}

/-- A new leaf in an empty place, and the way up from there. -/
theorem attach_spec {f : Frame ℕ} {child : ℕ} {m : ℕ → AvlNode}
    (hrep : Rep t.nodes none (Context.plug (f::c) nil) none) (hroot : t.root = c.root (some f.elem))
    (havl : (Context.plug (f::c) nil).Avl) (hnd : (child::(Context.plug (f::c) nil).toList).Nodup)
    (hchild : m child = .of (f.lo c.lo) nil nil (f.hi c.hi))
    (hother : ∀ x, x ≠ child → m x = t.nodes x) :
    ∃ T m', ({t with nodes := modifyNode m f.elem (attachTo f child)} : Avl K V).climbAdd
        (c.map Frame.elem) f.elem = .ok {t with nodes := m', root := T.root} ∧
      Rep m' none T none ∧ T.Avl ∧ T.toList = (Context.plug (f::c) (node child nil nil)).toList := by
  obtain ⟨_,hctx⟩ := (rep_plug _).1 hrep
  obtain ⟨_,hfits⟩ := (Context.avl_plug _ _).1 havl
  have hnames := (List.Perm.cons child (Context.toList_plug_perm (f::c) nil)).nodup_iff.mp hnd
  rw [toList,List.nil_append] at hnames
  obtain ⟨hout,hnd'⟩ := List.nodup_cons.mp hnames
  have hctx' : CtxRep m (f::c) none 0 := hctx.congr fun x hx => hother x (by rintro rfl; exact hout hx)
  have hlink : attachTo f child (frameNode c.lo c.hi none 0 f) =
      frameNode c.lo c.hi (some child) 1 f := by
    obtain ⟨⟨_,_,hlow⟩,_⟩ := hfits
    rw [height,Nat.zero_add] at hlow
    cases f with
    | left p r =>
      simp only [Frame.sibling] at hlow
      simp [attachTo,frameNode,Frame.isLeft]
      exact cshort_heights (r:=r.height) (l:=1) (by omega) (by omega) rfl
    | right l p =>
      simp only [Frame.sibling] at hlow
      simp [attachTo,frameNode,Frame.isLeft]
      exact cshort_heights (r:=1) (l:=l.height) (by omega) (by omega) (by omega)
  have hne : child ≠ f.elem := by
    rintro rfl
    exact hout (by simp [Context.names])
  refine climb_loose (t:={t with nodes := modifyNode m f.elem (attachTo f child)}) (h:=0) grown_climb
    ⟨(modifyNode_of_ne _ _ hne).trans hchild,trivial,trivial⟩ (hctx'.link hnd' hlink) hroot hnames
    (grown_fill hfits.1 ⟨trivial,trivial,by simp,by simp⟩ rfl (Or.inr rfl)) hfits

/-- A new node goes to the free place where the walk for its key ended. -/
theorem nodeAdd_attach {cmp : K → K → ℤ} {f : Frame ℕ} {child root : ℕ} (hroot : t.root = some root)
    (hwalk : t.walk cmp (t.key child) root = .ok (walkEnd (f::c,nil)))
    (hrep : Rep t.nodes none (Context.plug (f::c) nil) none) (htop : t.root = c.root (some f.elem))
    (havl : (Context.plug (f::c) nil).Avl) (hnd : (child::(Context.plug (f::c) nil).toList).Nodup)
    (hchild : t.nodes child = .init) :
    ∃ T m, nodeAdd cmp t child = .ok (.ok,{t with nodes := m, root := T.root}) ∧ Rep m none T none ∧
      T.Avl ∧ T.toList = (Context.plug (f::c) (node child nil nil)).toList := by
  obtain ⟨hframe,_⟩ := ((rep_plug _).1 hrep).2
  unfold nodeAdd
  rw [hroot] at htop ⊢
  simp only [hwalk,ok_bind]
  cases f with
  | left p r =>
    have hp : t.nodes p = frameNode (Context.lo c) (Context.hi c) none 0 (.left p r) := hframe.1
    obtain ⟨T,m,hup,hT⟩ := attach_spec hrep (hroot.trans htop) havl hnd
      (m:=modifyNode t.nodes child fun n => {n with left := (t.nodes p).left, right := some p})
      (by simp [hchild,AvlNode.init,AvlNode.of,Frame.lo,Frame.hi,hp,frameNode])
      (fun x hx => modifyNode_of_ne _ _ hx)
    exact ⟨T,m,congrArg (fun e : Exec (Avl K V) => e >>= fun t' => Except.ok (Ret.ok,t')) hup,hT⟩
  | right l p =>
    have hp : t.nodes p = frameNode (Context.lo c) (Context.hi c) none 0 (.right l p) := hframe.1
    obtain ⟨T,m,hup,hT⟩ := attach_spec hrep (hroot.trans htop) havl hnd
      (m:=modifyNode t.nodes child fun n => {n with right := (t.nodes p).right, left := some p})
      (by simp [hchild,AvlNode.init,AvlNode.of,Frame.lo,Frame.hi,hp,frameNode])
      (fun x hx => modifyNode_of_ne _ _ hx)
    exact ⟨T,m,congrArg (fun e : Exec (Avl K V) => e >>= fun t' => Except.ok (Ret.ok,t')) hup,hT⟩

end Avl
end Http2d
