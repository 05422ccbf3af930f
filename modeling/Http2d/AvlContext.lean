import Http2d.AvlRepresentation

/-! The memory around a subtree, and the way up through it.
What the memory holds of a frame depends on the subtree in its hole only by the root and the height
of that subtree, so a changed subtree is linked by one write. -/
namespace Http2d

open BinaryTree AvlTree

/-- The node of a frame with a subtree of root `rt` and height `h` in its hole. -/
def frameNode (lo hi rt : Option ℕ) (h : ℕ) : Frame ℕ → AvlNode
  | .left _ r => ⟨r.height-h,rt.or lo,r.root.or hi,rt.isSome,r.root.isSome⟩
  | .right l _ => ⟨h-l.height,l.root.or lo,rt.or hi,l.root.isSome,rt.isSome⟩

/-- The memory represents the subtree on the other side of a frame. -/
def SiblingRep (m : ℕ → AvlNode) (lo hi : Option ℕ) : Frame ℕ → Prop
  | .left p r => Rep m (some p) r hi
  | .right l p => Rep m lo l (some p)

/-- The memory represents a frame around a subtree of root `rt` and height `h`. -/
def FrameRep (m : ℕ → AvlNode) (lo hi : Option ℕ) (f : Frame ℕ) (rt : Option ℕ) (h : ℕ) : Prop :=
  m f.elem = frameNode lo hi rt h f ∧ SiblingRep m lo hi f

/-- The memory represents all frames around a subtree of root `rt` and height `h`. -/
def CtxRep (m : ℕ → AvlNode) : Context ℕ → Option ℕ → ℕ → Prop
  | [], _, _ => True
  | f::c, rt, h => FrameRep m (Context.lo c) (Context.hi c) f rt h ∧
    CtxRep m c (some f.elem) (f.height h)

section Frames
variable {m m' : ℕ → AvlNode} {lo hi rt rt' : Option ℕ} {h h' : ℕ} {f : Frame ℕ} {c : Context ℕ}

theorem rep_fill (t : BinaryTree ℕ) : Rep m lo (f.fill t) hi ↔
    Rep m (f.lo lo) t (f.hi hi) ∧ FrameRep m lo hi f t.root t.height := by
  cases f with
  | left p r =>
    simp only [Frame.fill,Rep,AvlNode.of,FrameRep,SiblingRep,frameNode,Frame.elem,Frame.lo,Frame.hi]
    tauto
  | right l p =>
    simp only [Frame.fill,Rep,AvlNode.of,FrameRep,SiblingRep,frameNode,Frame.elem,Frame.lo,Frame.hi]
    tauto

theorem rep_plug (t : BinaryTree ℕ) : Rep m none (c.plug t) none ↔
    Rep m c.lo t c.hi ∧ CtxRep m c t.root t.height := by
  induction c generalizing t with
  | nil => simp [Context.plug,Context.lo,Context.hi,CtxRep]
  | cons f c ih =>
    rw [Context.plug,ih,rep_fill,f.root_fill,Frame.height_fill,CtxRep,and_assoc]
    rfl

theorem SiblingRep.congr (hf : SiblingRep m lo hi f) (hsame : ∀ x ∈ f.sibling.toList, m' x = m x) :
    SiblingRep m' lo hi f := by
  cases f with
  | left p r => exact Rep.congr hf hsame
  | right l p => exact Rep.congr hf hsame

/-- Another subtree is put into the hole of a frame. -/
theorem FrameRep.update (hf : FrameRep m lo hi f rt h) (hp : m' f.elem = frameNode lo hi rt' h' f)
    (hsame : ∀ x ∈ f.sibling.toList, m' x = m x) : FrameRep m' lo hi f rt' h' :=
  ⟨hp,hf.2.congr hsame⟩

theorem CtxRep.congr (hc : CtxRep m c rt h) (hsame : ∀ x ∈ c.names, m' x = m x) :
    CtxRep m' c rt h := by
  induction c generalizing rt h with
  | nil => trivial
  | cons f c ih =>
    obtain ⟨hf,hc⟩ := hc
    simp only [Context.names,List.cons_append,List.mem_cons,List.mem_append] at hsame
    exact ⟨hf.update ((hsame _ (Or.inl rfl)).trans hf.1) fun x hx => hsame x (Or.inr (Or.inl hx)),
      ih hc fun x hx => hsame x (Or.inr (Or.inr hx))⟩

theorem Rep.balance {s : BinaryTree ℕ} {q : ℕ} (h : Rep m lo s hi) (hq : s.root = some q) :
    (m q).balance = s.bal := by
  cases s with
  | nil => cases hq
  | node p l r =>
    cases hq
    rw [h.1]
    rfl

/-- The left pointer of a parent tells on which side a node is. -/
theorem FrameRep.left_iff (hf : FrameRep m lo hi f rt h) {node : ℕ} (hrt : rt = some node)
    (hsib : node ∉ f.sibling.toList) (hlo : lo ≠ some node) :
    (m f.elem).left = some node ↔ f.isLeft = true := by
  subst hrt
  rw [hf.1]
  cases f with
  | left p r => simp [frameNode,Frame.isLeft]
  | right l p =>
    refine iff_of_false ?_ (by simp [Frame.isLeft])
    cases l with
    | nil => exact hlo
    | node q a b =>
      rintro ⟨⟩
      exact hsib (root_mem rfl)

end Frames

/-- The memory represents the frames around a subtree of root `rt` and height `h'`; the ones above
the lowest are still those around a height of `h`. -/
def LooseRep (m : ℕ → AvlNode) : Context ℕ → Option ℕ → ℕ → ℕ → Prop
  | [], _, _, _ => True
  | f::c, rt, h', h => FrameRep m (Context.lo c) (Context.hi c) f rt h' ∧
    CtxRep m c (some f.elem) (f.height h)

/-- One write to the lowest frame puts another subtree into it. -/
theorem CtxRep.link {m : ℕ → AvlNode} {f : Frame ℕ} {c : Context ℕ} {rt rt' : Option ℕ} {h h' : ℕ}
    (hc : CtxRep m (f::c) rt h) (hnd : (Context.names (f::c)).Nodup) {link : AvlNode → AvlNode}
    (hlink : link (frameNode c.lo c.hi rt h f) = frameNode c.lo c.hi rt' h' f) :
    LooseRep (modifyNode m f.elem link) (f::c) rt' h' h := by
  simp only [Context.names,List.cons_append,List.nodup_cons,List.mem_append,not_or] at hnd
  refine ⟨hc.1.update ?_ fun y hy => modifyNode_of_ne _ _ ?_,
    hc.2.congr fun y hy => modifyNode_of_ne _ _ ?_⟩
  · rw [modifyNode_self,hc.1.1]
    exact hlink
  · rintro rfl
    exact hnd.1.1 hy
  · rintro rfl
    exact hnd.1.2 hy

namespace Avl

variable {K V : Type} {t : Avl K V} {s : BinaryTree ℕ} {node h : ℕ}

/-- `restore` balances a subtree that leans by two at most. -/
theorem restore_nodes {lo hi : Option ℕ} (hs : s.root = some node) (hrep : Rep t.nodes lo s hi)
    (hnear : s.Near) (hnd : s.toList.Nodup) :
    ∃ q m, nodeBalance t.nodes node = .ok (q,m) ∧ s.rebalance.root = some q ∧
      Rep m lo s.rebalance hi ∧ Agree t.nodes m s.toList ∧
      ((t.nodes node).balance < -1 ∨ 1 < (t.nodes node).balance ∨ q = node ∧ m = t.nodes) := by
  rcases s with _ | ⟨p,l,r⟩
  · cases hs
  cases hs
  obtain ⟨q,m,hm,hroot,hrep',hagree⟩ := nodeBalance_rep hrep hnear hnd
  refine ⟨q,m,hm,hroot,hrep',hagree,?_⟩
  by_cases hlow : (t.nodes node).balance < -1
  · exact Or.inl hlow
  by_cases hhigh : 1 < (t.nodes node).balance
  · exact Or.inr (Or.inl hhigh)
  rw [nodeBalance,if_neg hlow,if_neg hhigh] at hm
  cases hm
  exact Or.inr (Or.inr ⟨rfl,rfl⟩)

/-- `restore` at the root. -/
theorem restore_root (hs : s.root = some node) (hrep : Rep t.nodes none s none) (hnear : s.Near)
    (hnd : s.toList.Nodup) (hroot : t.root = some node) :
    ∃ q m, t.restore none false node = .ok (q,{t with nodes := m, root := s.rebalance.root}) ∧
      Rep m none s.rebalance none := by
  obtain ⟨q,m,hm,hq,hrep',_,hcase⟩ := restore_nodes hs hrep hnear hnd
  refine ⟨q,m,?_,hrep'⟩
  unfold restore
  by_cases hlean : (t.nodes node).balance < -1 ∨ 1 < (t.nodes node).balance
  · rw [if_pos hlean,hm,hq]
    rfl
  · rw [if_neg hlean]
    obtain ⟨rfl,rfl⟩ := (hcase.resolve_left (not_or.mp hlean).1).resolve_left (not_or.mp hlean).2
    rw [hq,← hroot]

/-- `restore` below a parent. -/
theorem restore_frame {lo hi : Option ℕ} {f : Frame ℕ} (hs : s.root = some node)
    (hrep : Rep t.nodes (f.lo lo) s (f.hi hi)) (hf : FrameRep t.nodes lo hi f (some node) h)
    (hnear : s.Near) (hnd : (s.toList++f.elem::f.sibling.toList).Nodup) :
    ∃ q m, t.restore (some f.elem) f.isLeft node = .ok (q,{t with nodes := m}) ∧
      s.rebalance.root = some q ∧ Rep m (f.lo lo) s.rebalance (f.hi hi) ∧
      FrameRep m lo hi f (some q) h ∧ Agree t.nodes m (f.elem::s.toList) := by
  simp only [List.nodup_append,List.nodup_cons,List.mem_cons] at hnd
  obtain ⟨q,m,hm,hq,hrep',hagree,hcase⟩ := restore_nodes hs hrep hnear hnd.1
  unfold restore
  by_cases hlean : (t.nodes node).balance < -1 ∨ 1 < (t.nodes node).balance
  · rw [if_pos hlean,hm]
    refine ⟨q,_,rfl,hq,hrep'.congr fun x hx => modifyNode_of_ne _ _ ?_,hf.update ?_ fun x hx => ?_,
      (hagree.mono (List.subset_cons_self _ _)).trans
        ((agree_modifyNode m f.elem _).mono (by simp))⟩
    · rw [toList_rebalance] at hx
      grind
    · have hp : m f.elem = frameNode lo hi (some node) h f := (hagree _ (by grind)).trans hf.1
      simp only [modifyNode_self,hp]
      cases f <;> rfl
    · exact (modifyNode_of_ne _ _ (by grind)).trans (hagree x (by grind))
  · rw [if_neg hlean]
    obtain ⟨rfl,rfl⟩ := (hcase.resolve_left (not_or.mp hlean).1).resolve_left (not_or.mp hlean).2
    exact ⟨q,t.nodes,rfl,hq,hrep',hf,fun _ _ => rfl⟩

/-- The way up ends in a balanced tree of the same elements. -/
theorem climb_spec {done : ℤ → Bool} {sign : ℤ} {P : ℕ → BinaryTree ℕ → Prop}
    (hclimb : Climb done sign P) {c : Context ℕ} (hs : s.root = some node)
    (hrep : Rep t.nodes c.lo s c.hi) (hctx : CtxRep t.nodes c (some node) h)
    (hroot : t.root = c.root (some node)) (hnd : (s.toList++c.names).Nodup) (hP : P h s)
    (hfits : c.Fits h) :
    ∃ T m, climb done sign (c.map Frame.elem) t node = .ok {t with nodes := m, root := T.root} ∧
      Rep m none T none ∧ T.Avl ∧ T.toList = (c.plug s).toList := by
  induction c generalizing t s node h with
  | nil =>
    simp only [Context.names,List.append_nil] at hnd
    obtain ⟨q,m,hm,hrep'⟩ := restore_root hs hrep (hclimb.near hP) hnd hroot
    refine ⟨s.rebalance,m,?_,hrep',hclimb.avl hP,toList_rebalance s⟩
    simp only [List.map_nil,climb,hm,ok_bind]
  | cons f c ih =>
    obtain ⟨hf,hc⟩ := hctx
    have hnd' := hnd
    simp only [Context.names,List.cons_append,List.nodup_append,List.nodup_cons,List.mem_cons,
      List.mem_append] at hnd
    have hnode := root_mem hs
    have hleft : (t.nodes f.elem).left = some node ↔ f.isLeft = true :=
      hf.left_iff rfl (by grind) fun hlo => by have := Context.lo_mem hlo; grind
    obtain ⟨q,m,hm,hq,hrep',hf',hagree⟩ := restore_frame hs hrep hf (hclimb.near hP)
      (by simp only [List.nodup_append,List.nodup_cons,List.mem_cons]; grind)
    have hbal : (m q).balance = s.rebalance.bal := hrep'.balance hq
    have hlist : (Context.plug (f::c) s.rebalance).toList = (Context.plug (f::c) s).toList := by
      rw [Context.toList_plug,Context.toList_plug,toList_rebalance]
    have hup : CtxRep m c (some f.elem) (f.height h) := hc.congr fun x hx => hagree x (by grind)
    simp only [List.map_cons,climb,hleft,Bool.decide_eq_true,hm,ok_bind,hbal]
    cases hd : done s.rebalance.bal with
    | true =>
      have hheight := hclimb.stop hP hd
      refine ⟨Context.plug (f::c) s.rebalance,m,?_,(rep_plug _).2 ⟨hrep',?_⟩,
        (Context.avl_plug _ _).2 ⟨hclimb.avl hP,hheight ▸ hfits⟩,hlist⟩
      · rw [Context.root_plug]
        simp [hroot,Context.root]
      · rw [hq,hheight]
        exact ⟨hf',hup⟩
    | false =>
      obtain ⟨hheight,hgo⟩ := hclimb.go hP hd
      let change : AvlNode → AvlNode := fun n =>
        {n with balance := cshort (if f.isLeft then n.balance-sign else n.balance+sign)}
      have hnear := hclimb.near (hgo f hfits.1)
      have hother {x : ℕ} (hx : x ≠ f.elem) : modifyNode m f.elem change x = m x :=
        modifyNode_of_ne m change hx
      have hp : modifyNode m f.elem change f.elem =
          frameNode (Context.lo c) (Context.hi c) (some q) s.rebalance.height f := by
        rw [modifyNode_self,hf'.1]
        cases f with
        | left p r =>
          obtain ⟨_,_,h1,h2⟩ := hnear
          simp only [change,frameNode,Frame.isLeft,if_true,AvlNode.mk.injEq,and_true]
          exact cshort_heights (by omega) (by omega) (by omega)
        | right l p =>
          obtain ⟨_,_,h1,h2⟩ := hnear
          simp only [change,frameNode,Frame.isLeft,Bool.false_eq_true,if_false,AvlNode.mk.injEq,and_true]
          exact cshort_heights (by omega) (by omega) (by omega)
      have hrep₁ : Rep (modifyNode m f.elem change) (Context.lo c) (f.fill s.rebalance)
          (Context.hi c) := by
        refine (rep_fill _).2 ⟨hrep'.congr fun x hx => hother ?_,?_⟩
        · rw [toList_rebalance] at hx
          grind
        · rw [hq]
          exact hf'.update hp fun x hx => hother (by grind)
      have hup₁ : CtxRep (modifyNode m f.elem change) c (some f.elem) (f.height h) :=
        hup.congr fun x hx => hother (by grind)
      have hnd₁ : ((f.fill s.rebalance).toList++Context.names c).Nodup := by
        refine (Context.toList_plug_perm c (f.fill s.rebalance)).nodup_iff.mp ?_
        have := (Context.toList_plug_perm (f::c) s).nodup_iff.mpr hnd'
        rwa [← hlist] at this
      obtain ⟨T,m₂,hrun,hT,havl,hTlist⟩ := ih (t := {t with nodes := modifyNode m f.elem change})
        (f.root_fill _) hrep₁ hup₁ hroot hnd₁ (hgo f hfits.1) hfits.2
      exact ⟨T,m₂,hrun,hT,havl,hTlist.trans hlist⟩

/-- The way up from a frame that is up to date. -/
theorem climb_loose {done : ℤ → Bool} {sign : ℤ} {P : ℕ → BinaryTree ℕ → Prop}
    (hclimb : Climb done sign P) {f : Frame ℕ} {c : Context ℕ} (hrep : Rep t.nodes (f.lo c.lo) s (f.hi c.hi))
    (hloose : LooseRep t.nodes (f::c) s.root s.height h) (hroot : t.root = c.root (some f.elem))
    (hnd : (s.toList++Context.names (f::c)).Nodup) (hP : P (f.height h) (f.fill s))
    (hfits : Context.Fits (f::c) h) :
    ∃ T m, climb done sign (c.map Frame.elem) t f.elem = .ok {t with nodes := m, root := T.root} ∧
      Rep m none T none ∧ T.Avl ∧ T.toList = (Context.plug (f::c) s).toList := by
  have hnd' : ((f.fill s).toList++c.names).Nodup := by
    refine (Context.toList_plug_perm c (f.fill s)).nodup_iff.mp ?_
    exact (Context.toList_plug_perm (f::c) s).nodup_iff.mpr hnd
  exact climb_spec hclimb (f.root_fill s) ((rep_fill s).2 ⟨hrep,hloose.1⟩) hloose.2 hroot hnd' hP
    hfits.2

end Avl
end Http2d
