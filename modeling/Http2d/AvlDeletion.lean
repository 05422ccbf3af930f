import Http2d.AvlSearch

/-! Taking a node out of the tree.
In each case one subtree has got lower by one in its frame; the frame itself is up to date, and the
way up starts from there. -/
namespace Http2d

open BinaryTree AvlTree WhileLoop

theorem looseRep_self {m : ℕ → AvlNode} {c : Context ℕ} {rt : Option ℕ} {h : ℕ} :
    LooseRep m c rt h h ↔ CtxRep m c rt h := by cases c <;> rfl

/-- The part of a context above a run of frames to the left is exchanged. -/
theorem CtxRep.replace {m m' : ℕ → AvlNode} {c₂ c c' : Context ℕ} {a h : ℕ}
    (hleft : ∀ f ∈ c₂, f.isLeft) (hc : CtxRep m (c₂++c) (some a) h)
    (hsame : ∀ x ∈ c₂.names, m' x = m x) (hhi : c.hi = c'.hi)
    (hc' : CtxRep m' c' (c₂.root (some a)) (c₂.height h)) : CtxRep m' (c₂++c') (some a) h := by
  induction c₂ generalizing a h with
  | nil => exact hc'
  | cons f c₂ ih =>
    obtain ⟨hf,hrest⟩ := List.forall_mem_cons.mp hleft
    simp only [Context.names,List.cons_append,List.mem_cons,List.mem_append] at hsame
    refine ⟨?_,ih hrest hc.2 (fun x hx => hsame x (Or.inr (Or.inr hx))) hc'⟩
    cases f with
    | left p r =>
      have hframe : FrameRep m (Context.lo (c₂++c)) (Context.hi (c₂++c)) (.left p r) (some a) h := hc.1
      rw [Context.hi_append_congr c₂ hhi] at hframe
      exact hframe.update ((hsame _ (Or.inl rfl)).trans hframe.1) fun x hx =>
        hsame x (Or.inr (Or.inl hx))
    | right l p => cases hf

theorem CtxRep.drop {m : ℕ → AvlNode} (c₂ : Context ℕ) {c : Context ℕ} {rt : Option ℕ} {h : ℕ}
    (hc : CtxRep m (c₂++c) rt h) : CtxRep m c (c₂.root rt) (c₂.height h) := by
  induction c₂ generalizing rt h with
  | nil => exact hc
  | cons f c₂ ih => exact ih hc.2

/-- A tree in memory after a node has been taken out: `s` has got lower by one, and what it leaves
is `xs`. -/
structure Unlinked (m : ℕ → AvlNode) (xs : List ℕ) (c : Context ℕ) (s : BinaryTree ℕ) : Prop where
  rep : Rep m c.lo s c.hi
  loose : LooseRep m c s.root s.height (s.height+1)
  avl : s.Avl
  fits : c.Fits (s.height+1)
  toList : (c.plug s).toList = xs

namespace Avl

variable {K V : Type} {t : Avl K V} {c : Context ℕ} {s : BinaryTree ℕ} {h : ℕ}

/-- The side of a node below its parent, as `http2d_avl_generic_del` finds it. -/
theorem isLeft_eq {q : ℕ} (hc : CtxRep t.nodes c (some q) h) (hq : q ∉ c.names) :
    ((c.map Frame.elem).head?.any fun p => some q = (t.nodes p).left) =
      (c.head?.any Frame.isLeft) := by
  cases c with
  | nil => rfl
  | cons f c =>
    simp only [Context.names,List.cons_append,List.mem_cons,List.mem_append,not_or] at hq
    have hleft := hc.1.left_iff rfl hq.2.1 fun hlo => hq.2.2 (Context.lo_mem hlo)
    simp only [List.map_cons,List.head?_cons,Option.any_some,eq_comm (a:=some q),hleft,
      Bool.decide_eq_true]

/-- `relink` puts a subtree of another height into the lowest frame. -/
theorem relink_spec {q x : ℕ} {h' : ℕ} {d : ℤ} (hc : CtxRep t.nodes c (some q) h)
    (hroot : t.root = c.root (some q)) (hd : (h : ℤ) = h'+d) (hnear : 0 ≤ d ∧ d ≤ 1) (hfits : c.Fits h)
    (hnd : c.names.Nodup) :
    ∃ m, t.relink (c.map Frame.elem).head? (c.head?.any Frame.isLeft) (some x) d =
        {t with nodes := m, root := c.root (some x)} ∧
      LooseRep m c (some x) h' h ∧ Agree t.nodes m c.names := by
  cases c with
  | nil => exact ⟨t.nodes,rfl,trivial,fun _ _ => rfl⟩
  | cons f c =>
    let link : AvlNode → AvlNode := fun n =>
      if f.isLeft then {n with left := some x, balance := cshort (n.balance+d)}
      else {n with right := some x, balance := cshort (n.balance-d)}
    have hlink : link (frameNode (Context.lo c) (Context.hi c) (some q) h f) =
        frameNode (Context.lo c) (Context.hi c) (some x) h' f := by
      obtain ⟨⟨_,hlow,hhigh⟩,_⟩ := hfits
      cases f with
      | left p r =>
        simp only [Frame.sibling] at hlow hhigh
        simp only [link,frameNode,Frame.isLeft,if_true,Option.some_or,Option.isSome_some,
          AvlNode.mk.injEq,and_true]
        exact cshort_heights (by omega) (by omega) (by omega)
      | right l p =>
        simp only [Frame.sibling] at hlow hhigh
        simp only [link,frameNode,Frame.isLeft,Option.some_or,Option.isSome_some,
          Bool.false_eq_true,if_false,AvlNode.mk.injEq,and_true]
        exact cshort_heights (by omega) (by omega) (by omega)
    refine ⟨modifyNode t.nodes f.elem link,?_,hc.link hnd hlink,
      (agree_modifyNode _ _ _).mono (by simp [Context.names])⟩
    simp only [List.map_cons,List.head?_cons,Option.any_some,relink,modify]
    rw [hroot]
    rfl

/-- Without children, the thread of the node goes to the parent. -/
theorem unlinkLeaf_spec {q : ℕ} (hc : CtxRep t.nodes c (some q) 1)
    (hq : t.nodes q = .of c.lo nil nil c.hi) (hroot : t.root = c.root (some q)) (hfits : c.Fits 1)
    (hnd : c.names.Nodup) :
    ∃ m, t.unlinkLeaf q (c.map Frame.elem).head? (c.head?.any Frame.isLeft) =
        {t with nodes := m, root := c.root none} ∧
      LooseRep m c none 0 1 ∧ Agree t.nodes m c.names := by
  cases c with
  | nil => exact ⟨t.nodes,rfl,trivial,fun _ _ => rfl⟩
  | cons f c =>
    let link : AvlNode → AvlNode := fun n =>
      if f.isLeft then
        {n with leftChild := false, left := (t.nodes q).left, balance := cshort (n.balance+1)}
      else {n with rightChild := false, right := (t.nodes q).right, balance := cshort (n.balance-1)}
    have hlink : link (frameNode (Context.lo c) (Context.hi c) (some q) 1 f) =
        frameNode (Context.lo c) (Context.hi c) none 0 f := by
      obtain ⟨⟨_,hlow,hhigh⟩,_⟩ := hfits
      cases f with
      | left p r =>
        simp only [Frame.sibling] at hlow hhigh
        simp [link,frameNode,Frame.isLeft,hq,AvlNode.of,Context.lo,Frame.lo]
        exact cshort_heights (r:=r.height) (l:=0) (by omega) (by omega) (by omega)
      | right l p =>
        simp only [Frame.sibling] at hlow hhigh
        simp [link,frameNode,Frame.isLeft,hq,AvlNode.of,Context.hi,Frame.hi]
        have hone : cshort (1-(l.height : ℤ)-1) = (0 : ℕ)-l.height :=
          cshort_heights (by omega) (by omega) (by omega)
        simpa using hone
    refine ⟨modifyNode t.nodes f.elem link,?_,hc.link hnd hlink,
      (agree_modifyNode _ _ _).mono (by simp [Context.names])⟩
    simp only [List.map_cons,List.head?_cons,Option.any_some,unlinkLeaf,modify]
    rw [hroot]
    rfl

theorem nodeNext_spec {q p : ℕ} (hptr : (t.nodes q).right = some p)
    (hs : s.root = some p) (hspans : Spans t.nodes s) (hsize : s.height ≤ t.next+1) :
    ∃ x, s.toList.head? = some x ∧ t.nodeNext q = .ok x := by
  obtain ⟨c,x,r,hplug,hleft,hrun⟩ := run_left hspans hs []
  refine ⟨x,?_,?_⟩
  · rw [hplug,Context.toList_plug,(c.left_before [] hleft).1]
    rfl
  · rw [nodeNext,hptr,deref_some,ok_bind,loop_eq hrun hsize]
    rfl

theorem nodePrev_spec {q p : ℕ} (hptr : (t.nodes q).left = some p)
    (hs : s.root = some p) (hspans : Spans t.nodes s) (hsize : s.height ≤ t.next+1) :
    ∃ x, s.toList.getLast? = some x ∧ t.nodePrev q = .ok x := by
  obtain ⟨x,hx,hrun⟩ := run_right hspans hs
  exact ⟨x,hx,by rw [nodePrev,hptr,deref_some,ok_bind,loop_eq hrun hsize]⟩

/-- The next node takes the place of a node with two children. -/
theorem replaceNode_spec {l : BinaryTree ℕ} {q x p : ℕ} (hl : Rep t.nodes c.lo l (some q))
    (hp : l.root = some p) (hq : (t.nodes q).left = some p) (hc : CtxRep t.nodes c (some q) h)
    (hfits : c.Fits h) (hroot : t.root = c.root (some q)) (hnd : (x::q::l.toList++c.names).Nodup)
    (hsize : l.height ≤ t.next+1) :
    ∃ m, t.replaceNode q p x (c.map Frame.elem).head? (c.head?.any Frame.isLeft) =
        .ok {t with nodes := m, root := c.root (some x)} ∧
      m x = {t.nodes x with leftChild := true, left := some p, balance := (t.nodes q).balance} ∧
      Rep m c.lo l (some x) ∧ CtxRep m c (some x) h ∧ Agree t.nodes m (x::l.toList++c.names) := by
  simp only [List.cons_append,List.nodup_cons,List.mem_cons,List.mem_append,
    List.nodup_append] at hnd
  obtain ⟨y,hy,hrun⟩ := run_right hl.spans hp
  have hyl := List.mem_of_getLast? hy
  let m₁ := modifyNode t.nodes y fun n => {n with right := some x}
  let m₂ := modifyNode m₁ x fun n =>
    {n with leftChild := true, left := (m₁ q).left, balance := (m₁ q).balance}
  have hq₁ : m₁ q = t.nodes q := modifyNode_of_ne _ _ (by grind)
  have hx₁ : m₁ x = t.nodes x := modifyNode_of_ne _ _ (by grind)
  have hx₂ : m₂ x = {t.nodes x with leftChild := true, left := some p, balance := (t.nodes q).balance} := by
    simp only [m₂,modifyNode_self,hq₁,hx₁,hq]
  have hother {z : ℕ} (hz : z ∉ x::l.toList) : m₂ z = t.nodes z :=
    (modifyNode_of_ne _ _ (by grind)).trans (modifyNode_of_ne _ _ (by grind))
  have hl₂ : Rep m₂ c.lo l (some x) :=
    (hl.setHi (by grind) hy (some x)).congr fun z hz => modifyNode_of_ne _ _ (by grind)
  have hc₂ : CtxRep m₂ c (some q) h := hc.congr fun z hz => hother (by grind)
  obtain ⟨m,hm,hloose,hagree⟩ := relink_spec (t:={t with nodes := m₂}) (x:=x) (d:=0) hc₂ hroot
    (add_zero (h : ℤ)).symm (by omega) hfits (by grind)
  refine ⟨m,?_,(hagree x (by grind)).trans hx₂,hl₂.congr fun z hz => hagree z (by grind),
    looseRep_self.mp hloose,fun z hz => (hagree z (by grind)).trans (hother (by grind))⟩
  rw [replaceNode,loop_eq hrun hsize]
  exact congrArg Except.ok hm

/-- The next node is the right child itself. -/
theorem unlinkBoth_near {l r : BinaryTree ℕ} {q p x : ℕ}
    (hrep : Rep t.nodes none (c.plug (node q l (node x nil r))) none)
    (hroot : t.root = c.root (some q)) (havl : (c.plug (node q l (node x nil r))).Avl)
    (hnd : (c.plug (node q l (node x nil r))).toList.Nodup) (hp : l.root = some p)
    (hsize : l.height ≤ t.next+1) :
    ∃ m, (t.unlinkNext q x []).replaceNode q p x (c.map Frame.elem).head?
          (c.head?.any Frame.isLeft) =
        .ok {t with nodes := m, root := c.root (some x)} ∧
      Unlinked m (c.before++(l.toList++(node x nil r).toList)++c.after) (.right l x::c) r := by
  obtain ⟨⟨hq,hl,hx,_,hr⟩,hc⟩ := (rep_plug _).1 hrep
  obtain ⟨⟨_,⟨_,hravl,_,_⟩,hlow,hhigh⟩,hfits⟩ := (Context.avl_plug _ _).1 havl
  have hnames := (Context.toList_plug_perm _ _).nodup_iff.mp hnd
  simp only [toList,List.cons_append,List.nil_append,List.append_assoc,List.nodup_append,
    List.nodup_cons,List.mem_cons,List.mem_append] at hnames
  have hnodes : (t.unlinkNext q x []).nodes =
      modifyNode t.nodes q fun n => {n with balance := cshort (n.balance-1)} := rfl
  have hother {z : ℕ} (hz : z ≠ q) : (t.unlinkNext q x []).nodes z = t.nodes z := by
    rw [hnodes]
    exact modifyNode_of_ne _ _ hz
  have hq₁ : (t.unlinkNext q x []).nodes q = {t.nodes q with balance := cshort ((t.nodes q).balance-1)} := by
    rw [hnodes]
    exact modifyNode_self _ _ _
  obtain ⟨m,hm,hxm,hlm,hcm,hagree⟩ := replaceNode_spec (t:=t.unlinkNext q x []) (x:=x) (p:=p)
    (hl.congr fun z hz => hother (by grind)) hp (by rw [hq₁,hq]; simp [AvlNode.of,hp])
    (hc.congr fun z hz => hother (by grind)) hfits hroot (by simp only [List.nodup_append,
      List.nodup_cons,List.mem_cons,List.mem_append,List.cons_append]; grind) hsize
  refine ⟨m,hm,⟨?_,⟨⟨?_,hlm⟩,?_⟩,hravl,?_,?_⟩⟩
  · exact hr.congr fun z hz => (hagree z (by grind)).trans (hother (by grind))
  · simp only [Frame.elem,hxm,hq₁,hq,hother (show x ≠ q by grind),hx]
    rw [height_node,height,Nat.zero_max] at hlow hhigh
    simp [AvlNode.of,frameNode,height,hp]
    exact cshort_heights (by omega) (by omega) (by omega)
  · rw [height_node,height_node,height] at hcm
    rw [Frame.height,Frame.sibling,max_comm]
    rwa [Nat.zero_max] at hcm
  · have hk : (node x nil r).height = r.height+1 := by rw [height_node,height,Nat.zero_max]
    exact hk ▸ ((Context.avl_plug (.right l q::c) (node x nil r)).1 havl).2
  · rw [Context.toList_plug]
    simp [Context.before,Context.after,toList]

/-- The next node, which lies below `n`, leaves its right subtree there. -/
theorem unlinkNext_far {r rr : BinaryTree ℕ} {lo lo' hi : Option ℕ} {q x n pr : ℕ} (spine : List ℕ)
    (hn : t.nodes n = frameNode lo hi (some x) (r.height+1) (.left n rr))
    (hx : t.nodes x = .of lo' nil r (some n)) (hq : (t.nodes q).right = some pr)
    (hxn : x ≠ n) (hqn : q ≠ n) (hfits : (Frame.left n rr).Fits (r.height+1)) :
    ∃ m, t.unlinkNext q x (n::spine) = {t with nodes := m} ∧
      (∀ z, z ≠ n → z ≠ x → m z = t.nodes z) ∧
      m x = {t.nodes x with rightChild := true, right := some pr} ∧
      m n = frameNode (some x) hi r.root r.height (.left n rr) := by
  refine ⟨_,rfl,fun z hzn hzx => ?_,?_,?_⟩
  · simp [modify,hzn,hzx]
  · simp [modify,hxn,hqn,hq]
  · obtain ⟨_,hlow,hhigh⟩ := hfits
    simp only [Frame.sibling] at hlow hhigh
    have hone : cshort ((rr.height : ℤ)-(r.height+1)+1) = (rr.height : ℤ)-r.height :=
      cshort_heights (by omega) (by omega) (by omega)
    cases r with
    | nil => simpa [modify,hxn.symm,hn,frameNode,hx,AvlNode.of] using hone
    | node d a b => simpa [modify,hxn.symm,hn,frameNode,hx,AvlNode.of] using hone

/-- The next node lies below the right child. -/
theorem unlinkBoth_far {l r rr : BinaryTree ℕ} {c₂ : Context ℕ} {q p x n : ℕ}
    (hleft : ∀ f ∈ c₂, f.isLeft)
    (hrep : Rep t.nodes none (Context.plug (.left n rr::(c₂++.right l q::c)) (node x nil r)) none)
    (hroot : t.root = c.root (some q))
    (havl : (Context.plug (.left n rr::(c₂++.right l q::c)) (node x nil r)).Avl)
    (hnd : (Context.plug (.left n rr::(c₂++.right l q::c)) (node x nil r)).toList.Nodup)
    (hp : l.root = some p) (hsize : l.height ≤ t.next+1) (spine : List ℕ) :
    ∃ m, (t.unlinkNext q x (n::spine)).replaceNode q p x (c.map Frame.elem).head?
          (c.head?.any Frame.isLeft) =
        .ok {t with nodes := m, root := c.root (some x)} ∧
      Unlinked m (Context.plug (.left n rr::(c₂++.right l x::c)) r).toList
        (.left n rr::(c₂++.right l x::c)) r := by
  obtain ⟨⟨hx,_,hr⟩,hn,hup⟩ := (rep_plug _).1 hrep
  obtain ⟨⟨_,hravl,_,_⟩,hfits⟩ := (Context.avl_plug _ _).1 havl
  have hk : (node x nil r).height = r.height+1 := by rw [height_node,height,Nat.zero_max]
  rw [hk] at hn hup hfits
  obtain ⟨⟨hq,hl⟩,hc⟩ := hup.drop c₂
  obtain ⟨pr,hpr⟩ := c₂.root_some n
  replace hup : CtxRep t.nodes (c₂++.right l q::c) (some n) _ := hup
  replace hl : Rep t.nodes c.lo l (some q) := hl
  replace hc : CtxRep t.nodes c (some q) _ := hc
  replace hq : t.nodes q = frameNode c.lo c.hi (c₂.root (some n)) _ (.right l q) := hq
  rw [hpr] at hq
  have hnames := (Context.toList_plug_perm _ _).nodup_iff.mp hnd
  simp only [toList,Context.names,Context.names_append,Frame.elem,Frame.sibling,List.cons_append,
    List.nil_append,List.nodup_append,List.nodup_cons,List.mem_cons,List.mem_append] at hnames
  have hhi : Context.hi (c₂++.right l q::c) = Context.hi (c₂++.right l x::c) :=
    c₂.hi_append_congr rfl
  have hlo : Context.lo (c₂++.right l x::c) = some x := (c₂.left_before _ hleft).2
  have hxn : x ≠ n := by grind
  have hqn : q ≠ n := by grind
  obtain ⟨m₁,hm₁,hother,hx₁,hn₁⟩ :=
    unlinkNext_far (q:=q) (n:=n) spine hn.1 hx (by rw [hq]; rfl) hxn hqn hfits.1
  rw [← hlo,hhi] at hn₁
  have hq₁ := (hother q (by grind) (by grind)).trans hq
  rw [hm₁]
  obtain ⟨m,hm,hxm,hlm,hcm,hagree⟩ := replaceNode_spec (t:={t with nodes := m₁}) (x:=x) (p:=p)
    (hl.congr fun z hz => hother z (by grind) (by grind)) hp
    (by simp only [hq₁]; simp [frameNode,hp])
    (hc.congr fun z hz => hother z (by grind) (by grind))
    ((Context.fits_append c₂ (.right l q::c) _).1 hfits.2).2.2 hroot
    (by simp only [List.nodup_append,List.nodup_cons,List.mem_cons,List.mem_append,
          List.cons_append]; grind) hsize
  refine ⟨m,hm,⟨?_,⟨⟨?_,?_⟩,CtxRep.replace hleft hup ?_ rfl ?_⟩,hravl,?_,rfl⟩⟩
  · rw [show Context.lo (.left n rr::(c₂++.right l x::c)) = some x from hlo]
    exact hr.congr fun z hz => (hagree z (by grind)).trans (hother z (by grind) (by grind))
  · exact (hagree n (by grind)).trans hn₁
  · have hsib := hn.2
    rw [hhi] at hsib
    exact hsib.congr fun z (hz : z ∈ rr.toList) =>
      (hagree z (by grind)).trans (hother z (by grind) (by grind))
  · exact fun z hz => (hagree z (by grind)).trans (hother z (by grind) (by grind))
  · rw [Frame.elem,hpr]
    refine ⟨⟨?_,hlm⟩,hcm⟩
    simp only [Frame.elem,hxm,hx₁,hq₁,hx]
    simp [frameNode,hp]
  · exact ⟨hfits.1,(Context.fits_append c₂ (.right l x::c) _).2
      ((Context.fits_append c₂ (.right l q::c) _).1 hfits.2)⟩

/-- The only subtree of a node, given the neighbours of the node, takes its place. -/
theorem relink_unlinked {q x : ℕ} {m : ℕ → AvlNode} (hroot : t.root = c.root (some q))
    (hs : s.root = some x) (hrep : Rep m c.lo s c.hi) (hc : CtxRep m c (some q) (s.height+1))
    (havl : s.Avl) (hfits : c.Fits (s.height+1)) (hnd : (s.toList++c.names).Nodup) :
    ∃ m', ({t with nodes := m} : Avl K V).relink (c.map Frame.elem).head?
          (c.head?.any Frame.isLeft) (some x) 1 = {t with nodes := m', root := c.root s.root} ∧
      Unlinked m' (c.before++s.toList++c.after) c s := by
  obtain ⟨m',hm',hloose,hagree⟩ := relink_spec (t:={t with nodes := m}) (x:=x) (d:=1) hc hroot
    (by push_cast; ring) (by omega) hfits (List.nodup_append.mp hnd).2.1
  rw [List.nodup_append] at hnd
  exact ⟨m',hs ▸ hm',hrep.congr fun z hz => hagree z (by grind),hs ▸ hloose,havl,hfits,
    c.toList_plug s⟩

/-- A node with two children gives its place to the next one in the order. -/
theorem unlinkBoth_spec {l r : BinaryTree ℕ} {q d d' : ℕ}
    (hrep : Rep t.nodes none (c.plug (node q l r)) none) (hroot : t.root = c.root (some q))
    (havl : (c.plug (node q l r)).Avl) (hnd : (c.plug (node q l r)).toList.Nodup)
    (hl : l.root = some d) (hr : r.root = some d') (hlsize : l.height ≤ t.next+1)
    (hrsize : r.height ≤ t.next+1) :
    ∃ c' s m, t.unlinkBoth q (c.map Frame.elem) (c.head?.any Frame.isLeft) =
        .ok (c'.map Frame.elem,{t with nodes := m, root := c'.root s.root}) ∧
      Unlinked m (c.before++(l.toList++r.toList)++c.after) c' s := by
  obtain ⟨⟨hq,_,hright⟩,_⟩ := (rep_plug _).1 hrep
  obtain ⟨c₂,x,r',hplug,hspine,hrun⟩ := run_left hright.spans hr []
  have hboth : t.unlinkBoth q (c.map Frame.elem) (c.head?.any Frame.isLeft) =
      (t.unlinkNext q x (c₂.map Frame.elem)).replaceNode q d x (c.map Frame.elem).head?
        (c.head?.any Frame.isLeft) >>= fun t' =>
          Except.ok (c₂.map Frame.elem++x::c.map Frame.elem,t') := by
    have hptr : (t.nodes q).left = some d ∧ (t.nodes q).right = some d' := by
      simp [hq,AvlNode.of,hl,hr]
    rw [unlinkBoth,hptr.1,hptr.2,deref_some,deref_some,ok_bind,ok_bind,
      loop_eq hrun (by omega),List.append_nil]
    rfl
  refine ⟨c₂++.right l x::c,r',?_⟩
  rw [hboth]
  rw [hplug] at hrep havl hnd ⊢
  cases c₂ with
  | nil =>
    obtain ⟨m,hm,hun⟩ := unlinkBoth_near hrep hroot havl hnd hl hlsize
    exact ⟨m,by rw [List.map_nil,hm]; rfl,hun⟩
  | cons f c₂ =>
    obtain ⟨hf,hrest⟩ := List.forall_mem_cons.mp hspine
    cases f with
    | right l p => cases hf
    | left n rr =>
      have hT : c.plug (node q l (Context.plug (.left n rr::c₂) (node x nil r'))) =
          Context.plug (.left n rr::(c₂++.right l q::c)) (node x nil r') :=
        (Context.plug_append c₂ (.right l q::c) _).symm
      rw [hT] at hrep havl hnd
      obtain ⟨m,hm,hun⟩ := unlinkBoth_far hrest hrep hroot havl hnd hl hlsize
        (c₂.map Frame.elem)
      refine ⟨m,?_,?_⟩
      · simp only [List.map_cons,List.map_append,Frame.elem,hm,ok_bind]
        exact congrArg (fun rt => Except.ok (_,{t with nodes := m, root := rt}))
          (Context.root_append c₂ (.right l x::c) (some n)).symm
      · rw [Context.toList_plug] at hun ⊢
        simpa [Context.before,Context.after,Context.before_append,Context.after_append,
          (Context.left_before c₂ [] hrest).1,toList] using hun

/-- A node is taken out of the tree, whatever its children are. -/
theorem unlink_spec {l r : BinaryTree ℕ} {q : ℕ}
    (hrep : Rep t.nodes none (c.plug (node q l r)) none)
    (hroot : t.root = c.root (some q)) (havl : (c.plug (node q l r)).Avl)
    (hnd : (c.plug (node q l r)).toList.Nodup)
    (hsize : (c.plug (node q l r)).toList.length ≤ t.next) :
    ∃ c' s m, t.unlink q (c.map Frame.elem) =
        .ok (c'.map Frame.elem,{t with nodes := m, root := c'.root s.root}) ∧
      Unlinked m (c.before++(l.toList++r.toList)++c.after) c' s := by
  obtain ⟨⟨hq,hl,hr⟩,hc⟩ := (rep_plug _).1 hrep
  obtain ⟨⟨hlavl,hravl,_,_⟩,hfits⟩ := (Context.avl_plug _ _).1 havl
  have hnames := (Context.toList_plug_perm _ _).nodup_iff.mp hnd
  have hlheight := height_le_length l
  have hrheight := height_le_length r
  have hlen := (Context.toList_plug_perm c (node q l r)).length_eq
  simp only [toList,List.append_assoc,List.cons_append,List.nodup_append,List.nodup_cons,
    List.mem_append,List.mem_cons,List.length_append,List.length_cons] at hnames hlen
  have hleft := isLeft_eq hc (by grind)
  unfold unlink
  simp only [hleft,hq,AvlNode.of]
  cases l with
  | nil =>
    cases r with
    | nil =>
      obtain ⟨m,hm,hloose,_⟩ := unlinkLeaf_spec hc hq hroot hfits (by grind)
      exact ⟨c,nil,m,congrArg (fun t' => Except.ok (c.map Frame.elem,t')) hm,trivial,hloose,trivial,
        hfits,c.toList_plug nil⟩
    | node d a b =>
      obtain ⟨x,hx,hnext⟩ := nodeNext_spec (t:=t) (q:=q) (by rw [hq]; rfl) rfl hr.spans (by omega)
      have hxr := List.mem_of_head? hx
      have hk : (node q nil (node d a b)).height = (node d a b).height+1 := by
        rw [height_node,height,Nat.zero_max]
      obtain ⟨m,hm,hun⟩ := relink_unlinked (t:=t) hroot rfl (hr.setLo (by grind) hx c.lo)
        (hk ▸ hc.congr fun z hz => modifyNode_of_ne _ _ (by grind)) hravl (hk ▸ hfits)
        (by rw [List.nodup_append]; grind)
      exact ⟨c,node d a b,m,by rw [hnext]; exact congrArg (fun t' => Except.ok (_,t')) hm,hun⟩
  | node d a b =>
    cases r with
    | nil =>
      obtain ⟨x,hx,hprev⟩ := nodePrev_spec (t:=t) (q:=q) (by rw [hq]; rfl) rfl hl.spans (by omega)
      have hxl := List.mem_of_getLast? hx
      have hk : (node q (node d a b) nil).height = (node d a b).height+1 := by
        rw [height_node,height,Nat.max_zero]
      obtain ⟨m,hm,hun⟩ := relink_unlinked (t:=t) hroot rfl (hl.setHi (by grind) hx c.hi)
        (hk ▸ hc.congr fun z hz => modifyNode_of_ne _ _ (by grind)) hlavl (hk ▸ hfits)
        (by rw [List.nodup_append]; grind)
      rw [toList,List.append_nil]
      exact ⟨c,node d a b,m,by rw [hprev]; exact congrArg (fun t' => Except.ok (_,t')) hm,hun⟩
    | node d' a' b' =>
      exact unlinkBoth_spec hrep hroot havl hnd rfl rfl (by omega) (by omega)

/-- The way up after a node has been taken out; it is empty when nothing is left above it. -/
theorem climbDel_spec {xs : List ℕ} (hun : Unlinked t.nodes xs c s) (hroot : t.root = c.root s.root)
    (hnd : xs.Nodup) : ∃ T m, T.toList = xs ∧ T.Avl ∧ Rep m none T none ∧
      (match c.map Frame.elem with
        | [] => Except.ok t
        | pbalance::path => climbDel path t pbalance) = .ok {t with nodes := m, root := T.root} := by
  obtain ⟨hrep,hloose,havl,hfits,hlist⟩ := hun
  cases c with
  | nil =>
    have hroot' : t.root = s.root := hroot
    exact ⟨s,t.nodes,hlist,havl,hrep,by rw [← hroot']; rfl⟩
  | cons f c =>
    have hnames := (Context.toList_plug_perm _ s).nodup_iff.mp (hlist ▸ hnd)
    obtain ⟨T,m,hm,hT,hTavl,hTlist⟩ := climb_loose shrunk_climb hrep hloose hroot hnames
      (shrunk_fill hfits.1 havl rfl) hfits
    exact ⟨T,m,hTlist.trans hlist,hTavl,hT,hm⟩

end Avl
end Http2d
