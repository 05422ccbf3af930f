import Http2d.AvlInvariant

/-! The walk over all nodes that follows the threads, and the shape of the tree.
The shape does not depend on the comparison: a search that goes astray still ends at a place of the
tree, and what is attached there keeps it balanced. -/
namespace Http2d

open BinaryTree AvlTree SearchTree WhileLoop

namespace Avl

variable {K V : Type}

/-- `node_first`, with the nodes that it reads. -/
def nodeFirst (t : Avl K V) : Exec (Option ℕ × List ℕ) :=
  match t.root with
  | none => .ok (none,[])
  | some root => do
    let (tmp,path) ← t.loop (leftTurn t) (root,[])
    .ok (some tmp,tmp::path)

/-- `node_next`, with the nodes that it reads. -/
def nodeAfter (t : Avl K V) (node : ℕ) : Exec (Option ℕ × List ℕ) :=
  if (t.nodes node).rightChild then do
    let tmp ← deref (t.nodes node).right
    let (tmp,path) ← t.loop (leftTurn t) (tmp,[])
    .ok (some tmp,node::tmp::path)
  else .ok ((t.nodes node).right,[node])

/-- The nodes that the loops of `node_add` and `http2d_avl_generic_get` look at. -/
def visits (isEmpty : K → Bool) (cmp : K → K → ℤ) (t : Avl K V) (key : K) : List ℕ :=
  if isEmpty key then []
  else
    match t.root with
    | none => []
    | some root =>
      match t.walk cmp key root with
      | .ok (.found n path) | .ok (.noLeft n path) | .ok (.noRight n path) => n::path
      | .error _ => [root]

/-- The memory holds the balanced tree `T` with its threads. -/
structure Shaped (t : Avl K V) (T : BinaryTree ℕ) : Prop where
  rep : Rep t.nodes none T none
  root : t.root = T.root
  avl : T.Avl
  nodup : T.toList.Nodup
  fresh : ∀ p ∈ T.toList, p < t.next

variable {isEmpty : K → Bool} {cmp : K → K → ℤ} {t : Avl K V} {T : BinaryTree ℕ}

theorem shaped_nil (h : t.root = none) : t.Shaped .nil :=
  ⟨trivial,h,trivial,List.nodup_nil,by simp [toList]⟩

theorem Shaped.length_le (h : t.Shaped T) : T.toList.length ≤ t.next := by
  have hsub : T.toList ⊆ List.range t.next := fun p hp => List.mem_range.mpr (h.fresh p hp)
  simpa using (h.nodup.subperm hsub).length_le

/-- The root of the whole tree is on the way to the hole. -/
theorem root_mem_path {c : Context ℕ} {x p : ℕ} (hp : c.root (some x) = some p) :
    p ∈ x::c.map Frame.elem := by
  induction c generalizing x with
  | nil => simpa [Context.root,eq_comm] using hp
  | cons f c ih => exact List.mem_cons_of_mem _ (ih hp)

/-- The loop to the first node of a subtree reads nodes of this subtree, its root among them. -/
theorem loop_left {s : BinaryTree ℕ} {p : ℕ} (hspans : Spans t.nodes s)
    (hp : s.root = some p) (hsize : s.toList.length ≤ t.next) :
    ∃ x path, t.loop (leftTurn t) (p,[]) = .ok (x,path) ∧ s.toList.head? = some x ∧
      (∀ y ∈ x::path, y ∈ s.toList) ∧ p ∈ x::path := by
  obtain ⟨c,x,r,hplug,hleft,hrun⟩ := run_left hspans hp []
  rw [List.append_nil] at hrun
  have hloop := loop_eq (t:=t) hrun (by have := height_le_length s; omega)
  have hlist := Context.toList_plug c (node x .nil r)
  have hperm := Context.toList_plug_perm c (node x .nil r)
  rw [← hplug] at hlist hperm
  rw [(Context.left_before c [] hleft).1] at hlist
  refine ⟨x,_,hloop,by rw [hlist]; rfl,fun y hy => ?_,?_⟩
  · rcases List.mem_cons.mp hy with rfl | hy
    · simp [hlist,toList]
    · exact hperm.mem_iff.mpr (List.mem_append_right _ (Context.elem_mem_names hy))
  · rw [hplug,Context.root_plug] at hp
    exact root_mem_path hp

/-- The first node, and the root is read on the way. -/
theorem Shaped.first (h : t.Shaped T) : ∃ seen, t.nodeFirst = .ok (T.toList.head?,seen) ∧
    (∀ x ∈ seen, x ∈ T.toList) ∧ ∀ p, t.root = some p → p ∈ seen := by
  have hroot := h.root
  unfold nodeFirst
  cases T with
  | nil =>
    rw [hroot]
    exact ⟨[],rfl,by simp,by simp⟩
  | node p l r =>
    obtain ⟨x,path,hloop,hhead,hin,hp⟩ := loop_left h.rep.spans rfl h.length_le
    rw [hroot]
    refine ⟨x::path,?_,hin,fun q hq => ?_⟩
    · simp only [root_node,hloop,ok_bind,hhead]
    · cases hq
      exact hp

/-- The node behind another one; only that one and nodes behind it are read. -/
theorem Shaped.after (h : t.Shaped T) {before after : List ℕ} {p : ℕ}
    (hsplit : T.toList = before++p::after) :
    ∃ seen, t.nodeAfter p = .ok (after.head?,seen) ∧ ∀ x ∈ seen, x ∈ p::after := by
  have hp : p ∈ T.toList := hsplit ▸ List.mem_append_right _ List.mem_cons_self
  have hthread := h.rep.threaded h.nodup before p after hsplit
  obtain ⟨c,l,r,rfl⟩ := Context.exists_plug hp
  obtain ⟨hnode,-,hr⟩ := ((rep_plug _).1 h.rep).1
  have hlist := Context.toList_plug c (node p l r)
  unfold nodeAfter
  cases r with
  | nil =>
    have hflag : (t.nodes p).rightChild = false := by rw [hnode]; rfl
    rw [hflag]
    exact ⟨[p],by rw [hthread.2 hflag]; rfl,by simp⟩
  | node q a b =>
    have hflag : (t.nodes p).rightChild = true := by rw [hnode]; rfl
    have hright : (t.nodes p).right = some q := by rw [hnode]; rfl
    -- what is behind the node begins with its right subtree
    have hafter := (Context.toList_plug_split h.nodup hsplit).2
    have hsize : (node q a b).toList.length ≤ t.next := by
      have := h.length_le
      rw [hsplit,hafter] at this
      simp only [List.length_append,List.length_cons] at this
      omega
    obtain ⟨x,path,hloop,hhead,hin,-⟩ := loop_left hr.spans rfl hsize
    refine ⟨p::x::path,?_,fun y hy => ?_⟩
    · rw [hflag,if_pos rfl,hright,deref_some,ok_bind,hloop,ok_bind,hafter,List.head?_append,hhead]
      rfl
    · rcases List.mem_cons.mp hy with rfl | hy
      · exact List.mem_cons_self
      · exact List.mem_cons_of_mem _ (hafter ▸ List.mem_append_left _ (hin y hy))

/-- Where a walk for any key ends. -/
theorem Shaped.walked (h : t.Shaped T) (cmp : K → K → ℤ) (key : K) {root : ℕ} (hroot : t.root = some root) :
    (∃ c n l r, t.walk cmp key root = .ok (walkEnd (c,node n l r)) ∧ T = Context.plug c (node n l r)) ∨
    ∃ f c, t.walk cmp key root = .ok (walkEnd (f::c,.nil)) ∧ T = Context.plug (f::c) .nil := by
  have hs := h.root.symm.trans hroot
  have hwalk := walk_spec cmp key h.rep hs h.length_le
  have hplug := plug_descend (t.ord cmp key) [] T
  rcases hdown : descend (t.ord cmp key) [] T with ⟨c,s⟩
  rw [hdown] at hwalk hplug
  cases s with
  | node n l r => exact Or.inl ⟨c,n,l,r,hwalk,hplug.symm⟩
  | nil =>
    cases c with
    | nil =>
      obtain rfl : nil = T := hplug
      cases hs
    | cons f c => exact Or.inr ⟨f,c,hwalk,hplug.symm⟩

/-- A walk begins at the root. -/
theorem Shaped.root_mem_visits (h : t.Shaped T) (cmp : K → K → ℤ) {key : K} (hkey : isEmpty key = false)
    {root : ℕ} (hroot : t.root = some root) : root ∈ t.visits isEmpty cmp key := by
  have hs := h.root.symm.trans hroot
  unfold visits
  rw [hkey,hroot]
  rcases h.walked cmp key hroot with ⟨c,n,l,r,hwalk,hT⟩ | ⟨f,c,hwalk,hT⟩
  · simp only [hwalk,walkEnd,Bool.false_eq_true,if_false]
    rw [hT,Context.root_plug] at hs
    exact root_mem_path hs
  · rw [hT,Context.root_plug] at hs
    have hmem := root_mem_path (c:=c) hs
    cases f <;> simpa [hwalk,walkEnd,Frame.elem] using hmem

/-- The insertion of a new node, wherever the comparison leads. -/
theorem nodeAdd_shaped {child : ℕ} (h : t.Shaped T) (hnew : child ∉ T.toList) (hlt : child < t.next)
    (hchild : t.nodes child = .init) :
    nodeAdd cmp t child = .ok (.error,t) ∨
    ∃ T' m, nodeAdd cmp t child = .ok (.ok,{t with nodes := m, root := T'.root}) ∧
      Shaped {t with nodes := m, root := T'.root} T' ∧ ∀ p, p ∈ T'.toList ↔ p = child ∨ p ∈ T.toList := by
  cases hroot : t.root with
  | none =>
    have hT : T = nil := by
      cases T with
      | nil => rfl
      | node p l r => cases h.root.symm.trans hroot
    subst hT
    refine Or.inr ⟨node child nil nil,t.nodes,by simp [nodeAdd,hroot],⟨⟨hchild,trivial,trivial⟩,rfl,
      ⟨trivial,trivial,by simp,by simp⟩,by simp [toList],?_⟩,by simp [toList]⟩
    simpa [toList] using hlt
  | some root =>
    rcases h.walked cmp (t.key child) hroot with ⟨c,n,l,r,hwalk,-⟩ | ⟨f,c,hwalk,rfl⟩
    · refine Or.inl ?_
      unfold nodeAdd
      rw [hroot]
      simp only [hwalk,ok_bind,walkEnd]
    · have hnd := List.nodup_cons.mpr ⟨hnew,h.nodup⟩
      obtain ⟨T',m,hadd,hrep,havl,hlist⟩ := nodeAdd_attach hroot hwalk h.rep
        (h.root.trans (Context.root_plug (f::c) nil)) h.avl hnd hchild
      have hperm : T'.toList.Perm (child::(Context.plug (f::c) nil).toList) := by
        rw [hlist]
        exact (Context.toList_plug_perm _ _).trans ((Context.toList_plug_perm (f::c) nil).symm.cons child)
      refine Or.inr ⟨T',m,hadd,⟨hrep,rfl,havl,hperm.nodup_iff.mpr hnd,fun p hp => ?_⟩,fun p => ?_⟩
      · rcases List.mem_cons.mp (hperm.mem_iff.mp hp) with rfl | hp
        · exact hlt
        · exact h.fresh p hp
      · rw [hperm.mem_iff,List.mem_cons]

/-- A new node is not in the tree yet. -/
theorem Shaped.alloc (h : t.Shaped T) (key : K) (value : ℕ → V) :
    Shaped {(t.nodeNew key).2 with value := value} T :=
  ⟨h.rep.congr fun _ hp => Function.update_of_ne (h.fresh _ hp).ne _ _,h.root,h.avl,h.nodup,
    fun _ hp => (h.fresh _ hp).trans (Nat.lt_succ_self _)⟩

/-- The addition of a key and a value, whatever it returns. -/
theorem Shaped.add (h : t.Shaped T) (isEmpty : K → Bool) (cmp : K → K → ℤ) (key : K) (value : V) :
    ∃ ret t' T', t.add isEmpty cmp key value = .ok (ret,t') ∧ t'.Shaped T' ∧ t'.next = t.next+1 ∧
      ∀ p ∈ T'.toList, t'.value p = value ∨ p ∈ T.toList ∧ t'.value p = t.value p := by
  have hnext : t.next ∉ T.toList := fun hp => (h.fresh _ hp).ne rfl
  have hnew := h.alloc key
  have hself : Function.update t.key t.next key t.next = key := Function.update_self ..
  have hvalue (p : ℕ) (hp : p ∈ T.toList) : Function.update t.value t.next value p = t.value p :=
    Function.update_of_ne (h.fresh p hp).ne _ _
  by_cases hempty : isEmpty key
  · exact ⟨.error,_,T,by simp [Avl.add,avlGenericAdd,nodeNew,hempty],hnew t.value,rfl,
      fun p hp => Or.inr ⟨hp,rfl⟩⟩
  · have hadd : t.add isEmpty cmp key value =
        nodeAdd cmp {(t.nodeNew key).2 with value := Function.update t.value t.next value} t.next := by
      simp only [Avl.add,avlGenericAdd,nodeNew,hself,if_neg hempty]
    rw [hadd]
    rcases nodeAdd_shaped (hnew (Function.update t.value t.next value)) hnext (Nat.lt_succ_self _)
      (Function.update_self ..) with hret | ⟨T',m,hret,hshaped,hmem⟩
    · exact ⟨.error,_,T,hret,hnew _,rfl,fun p hp => Or.inr ⟨hp,hvalue p hp⟩⟩
    · refine ⟨.ok,_,T',hret,hshaped,rfl,fun p hp => ?_⟩
      rcases (hmem p).mp hp with rfl | hp
      · exact Or.inl (Function.update_self ..)
      · exact Or.inr ⟨hp,hvalue p hp⟩

/-- A search neither fails nor changes anything. -/
theorem Shaped.get (h : t.Shaped T) (isEmpty : K → Bool) (cmp : K → K → ℤ) (key : K) :
    ∃ r, t.avlGenericGet isEmpty cmp key = .ok r := by
  unfold avlGenericGet
  split_ifs
  · exact ⟨_,rfl⟩
  · cases hroot : t.root with
    | none => exact ⟨_,rfl⟩
    | some root =>
      rcases h.walked cmp key hroot with ⟨c,n,l,r,hwalk,-⟩ | ⟨f,c,hwalk,-⟩
      · exact ⟨(.ok,some (t.value n)),by simp only [hwalk,ok_bind,walkEnd]⟩
      · refine ⟨(.notFound,none),?_⟩
        cases f <;> simp only [hwalk,ok_bind,walkEnd]

end Avl
end Http2d
