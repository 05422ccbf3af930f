import Http2d.AvlInsertion
import Http2d.AvlDeletion

/-! The operations of the tree keep it in order and balanced, and change the set of its nodes as a
finite map does. -/
namespace Http2d

open BinaryTree AvlTree SearchTree

/-- A call of the tree's interface. -/
inductive MapCall (K V : Type)
  | add (key : K) (value : V)
  | del (key : K)
  | get (key : K)
  deriving DecidableEq, Repr

def MapCall.key {K V : Type} : MapCall K V → K
  | .add key _ | .del key | .get key => key

/-- What a call returns, with the value that it finds. -/
abbrev MapReply (V : Type) := Ret × Option V

namespace Avl

variable {K V : Type}

def call (isEmpty : K → Bool) (cmp : K → K → ℤ) (t : Avl K V) :
    MapCall K V → Exec (MapReply V × Avl K V)
  | .add key value => do
    let (ret,t) ← t.add isEmpty cmp key value
    .ok ((ret,none),t)
  | .del key => do
    let (ret,value,t) ← t.avlGenericDel isEmpty cmp key
    .ok ((ret,value),t)
  | .get key => do
    let r ← t.avlGenericGet isEmpty cmp key
    .ok (r,t)

/-- One call after another, with all that they return. -/
def calls (isEmpty : K → Bool) (cmp : K → K → ℤ) :
    Avl K V → List (MapCall K V) → Exec (List (MapReply V) × Avl K V)
  | t, [] => .ok ([],t)
  | t, a::as => do
    let (r,t) ← t.call isEmpty cmp a
    let (rs,t) ← calls isEmpty cmp t as
    .ok (r::rs,t)

/-- The memory holds the balanced search tree `T`, whose keys are in `S`. -/
structure Holds (cmp : K → K → ℤ) (S : Set K) (t : Avl K V) (T : BinaryTree ℕ) : Prop where
  rep : Rep t.nodes none T none
  root : t.root = T.root
  avl : T.Avl
  fresh : ∀ p ∈ T.toList, p < t.next
  keys : ∀ p ∈ T.toList, t.key p ∈ S
  increasing : Increasing (narrowed cmp) t.key T.toList

section Holds
variable {cmp : K → K → ℤ} {S : Set K} {t : Avl K V} {T : BinaryTree ℕ} {key : K}
  {isEmpty : K → Bool}

theorem holds_init (cmp : K → K → ℤ) (S : Set K) (nodes : ℕ → AvlNode) (key : ℕ → K)
    (value : ℕ → V) : (init nodes key value).Holds cmp S .nil :=
  ⟨trivial,rfl,trivial,by simp [toList],by simp [toList],List.Pairwise.nil⟩

theorem Holds.nodup (h : t.Holds cmp S T) (hS : StrictOn (narrowed cmp) S) : T.toList.Nodup :=
  (h.increasing.nodup_keys hS h.keys).of_map

theorem Holds.length_le (h : t.Holds cmp S T) (hS : StrictOn (narrowed cmp) S) :
    T.toList.length ≤ t.next := by
  have hsub : T.toList ⊆ List.range t.next := fun p hp => List.mem_range.mpr (h.fresh p hp)
  simpa using ((h.nodup hS).subperm hsub).length_le

/-- Where the walk for a key ends. -/
theorem Holds.search (h : t.Holds cmp S T) (hS : StrictOn (narrowed cmp) S) (hk : key ∈ S)
    {c : Context ℕ} {s : BinaryTree ℕ} (hdown : descend (t.ord cmp key) [] T = (c,s)) :
    T = c.plug s ∧ (∀ x ∈ c.before, 0 < t.ord cmp key x) ∧
      (∀ x ∈ c.after, t.ord cmp key x < 0) ∧ ∀ p, s.root = some p → t.key p = key := by
  have hplug : c.plug s = T := by
    have := plug_descend (t.ord cmp key) [] T
    rwa [hdown] at this
  obtain ⟨hlow,hhigh⟩ := descend_split (t.ord cmp key) [] T
    (h.increasing.falling hS h.keys hk) (by simp [Context.before]) (by simp [Context.after])
  rw [hdown] at hlow hhigh
  refine ⟨hplug.symm,hlow,hhigh,fun p hp => ?_⟩
  have hzero : t.ord cmp key p = 0 := descend_root (t.ord cmp key) [] T (by rwa [hdown])
  have hmem : p ∈ (c.plug s).toList := by
    rw [Context.toList_plug]
    exact List.mem_append_left _ (List.mem_append_right _ (root_mem hp))
  exact ((hS.eq_iff _ hk _ (h.keys p (hplug ▸ hmem))).mp hzero).symm

/-- A way that ends at an empty subtree passed no element with the key. -/
theorem Holds.search_nil (h : t.Holds cmp S T) (hS : StrictOn (narrowed cmp) S) (hk : key ∈ S)
    {c : Context ℕ} (hdown : descend (t.ord cmp key) [] T = (c,.nil)) :
    ∀ p ∈ T.toList, t.key p ≠ key := by
  obtain ⟨hplug,hlow,hhigh,_⟩ := h.search hS hk hdown
  rintro p hp rfl
  have hzero : t.ord cmp (t.key p) p = 0 := (hS.eq_iff _ hk _ hk).mpr rfl
  rw [hplug,Context.toList_plug] at hp
  simp only [toList,List.append_nil,List.mem_append] at hp
  rcases hp with hp | hp
  · exact (hlow p hp).ne' hzero
  · exact (hhigh p hp).ne hzero

theorem Holds.walk (h : t.Holds cmp S T) (key : K) (hS : StrictOn (narrowed cmp) S) {root : ℕ}
    (hroot : t.root = some root) :
    t.walk cmp key root = .ok (walkEnd (descend (t.ord cmp key) [] T)) :=
  walk_spec cmp key h.rep (h.root ▸ hroot) (h.length_le hS)

theorem Holds.of_root (h : t.Holds cmp S T) (hroot : t.root = none) : T = .nil := by
  cases T with
  | nil => rfl
  | node p l r => cases h.root.symm.trans hroot

/-- A walk ends at the node with the key, or at a free place where the key belongs. -/
theorem Holds.walked (h : t.Holds cmp S T) (hS : StrictOn (narrowed cmp) S) (hk : key ∈ S) {root : ℕ}
    (hroot : t.root = some root) :
    (∃ c q l r, t.walk cmp key root = .ok (walkEnd (c,node q l r)) ∧ T = c.plug (node q l r) ∧
      q ∈ T.toList ∧ t.key q = key) ∨
    ∃ f c, t.walk cmp key root = .ok (walkEnd (f::c,nil)) ∧ T = Context.plug (f::c) nil ∧
      (∀ q ∈ T.toList, t.key q ≠ key) ∧ (∀ x ∈ Context.before (f::c), 0 < t.ord cmp key x) ∧
      ∀ x ∈ Context.after (f::c), t.ord cmp key x < 0 := by
  have hwalk := h.walk key hS hroot
  obtain ⟨⟨c,s⟩,hdown⟩ : ∃ e, descend (t.ord cmp key) [] T = e := ⟨_,rfl⟩
  rw [hdown] at hwalk
  obtain ⟨hplug,hlow,hhigh,hkey⟩ := h.search hS hk hdown
  cases s with
  | node q l r =>
    refine Or.inl ⟨c,q,l,r,hwalk,hplug,?_,hkey q rfl⟩
    rw [hplug,Context.toList_plug]
    simp [toList]
  | nil =>
    cases c with
    | nil =>
      cases hplug
      cases h.root.symm.trans hroot
    | cons f c => exact Or.inr ⟨f,c,hwalk,hplug,h.search_nil hS hk hdown,hlow,hhigh⟩

theorem get_holds (h : t.Holds cmp S T) (hS : StrictOn (narrowed cmp) S) (hk : key ∈ S)
    (hempty : isEmpty key = false) :
    (∃ q ∈ T.toList, t.key q = key ∧
      t.avlGenericGet isEmpty cmp key = .ok (.ok,some (t.value q))) ∨
    (∀ q ∈ T.toList, t.key q ≠ key) ∧ t.avlGenericGet isEmpty cmp key = .ok (.notFound,none) := by
  unfold avlGenericGet
  rw [hempty]
  cases hroot : t.root with
  | none =>
    cases h.of_root hroot
    exact Or.inr ⟨by simp [toList],rfl⟩
  | some root =>
    rcases h.walked hS hk hroot with ⟨c,q,l,r,hwalk,_,hq,hkey⟩ | ⟨f,c,hwalk,_,hnone,_,_⟩
    · simp only [Bool.false_eq_true,if_false,hwalk,ok_bind]
      exact Or.inl ⟨q,hq,hkey,rfl⟩
    · simp only [Bool.false_eq_true,if_false,hwalk,ok_bind]
      refine Or.inr ⟨hnone,?_⟩
      cases f <;> rfl

/-- What is left after a node was taken out and the way up was rebalanced. -/
theorem Holds.removed {c c' : Context ℕ} {l r u : BinaryTree ℕ} {q : ℕ} {m : ℕ → AvlNode}
    (h : t.Holds cmp S (c.plug (node q l r))) (hS : StrictOn (narrowed cmp) S)
    (hun : Unlinked m (c.before++(l.toList++r.toList)++c.after) c' u) :
    ∃ T' m', (match c'.map Frame.elem with
        | [] => Except.ok {t with nodes := m, root := c'.root u.root}
        | pbalance::path => climbDel path {t with nodes := m, root := c'.root u.root} pbalance) =
          .ok {t with nodes := m', root := T'.root} ∧
      Holds cmp S {t with nodes := m', root := T'.root} T' ∧
      ∀ p, p ∈ T'.toList ↔ p ∈ (c.plug (node q l r)).toList ∧ p ≠ q := by
  have hlist := c.toList_plug (node q l r)
  have hnd := h.nodup hS
  have hsub : (c.before++(l.toList++r.toList)++c.after).Sublist (c.plug (node q l r)).toList := by
    rw [hlist]
    exact (((List.Sublist.refl _).append ((List.Sublist.refl _).append
      (List.sublist_cons_self _ _))).append (List.Sublist.refl _))
  obtain ⟨T',m',hlist',havl',hrep',hup⟩ := climbDel_spec
    (t:={t with nodes := m, root := c'.root u.root}) hun rfl (hnd.sublist hsub)
  refine ⟨T',m',hup,⟨hrep',rfl,havl',fun p hp => h.fresh p (hsub.subset (hlist' ▸ hp)),
    fun p hp => h.keys p (hsub.subset (hlist' ▸ hp)),hlist' ▸ h.increasing.sublist hsub⟩,fun p => ?_⟩
  have hmem : p ∈ (c.plug (node q l r)).toList ↔
      p ∈ c.before++(l.toList++r.toList)++c.after ∨ p = q := by
    rw [hlist]
    simp only [toList,List.mem_append,List.mem_cons]
    tauto
  have hout : q ∉ c.before++(l.toList++r.toList)++c.after := by
    rw [hlist] at hnd
    simp only [toList,List.nodup_append,List.nodup_cons,List.mem_append,List.mem_cons] at hnd ⊢
    grind
  rw [hlist',hmem]
  refine ⟨fun hp => ⟨Or.inl hp,?_⟩,fun hp => hp.1.resolve_right hp.2⟩
  rintro rfl
  exact hout hp

/-- A deletion takes out the node with the key. -/
theorem del_holds (h : t.Holds cmp S T) (hS : StrictOn (narrowed cmp) S) (hk : key ∈ S)
    (hempty : isEmpty key = false) :
    (∃ q ∈ T.toList, t.key q = key ∧ ∃ T' m, t.avlGenericDel isEmpty cmp key =
        .ok (.ok,some (t.value q),{t with nodes := m, root := T'.root}) ∧
      Holds cmp S {t with nodes := m, root := T'.root} T' ∧
      ∀ p, p ∈ T'.toList ↔ p ∈ T.toList ∧ p ≠ q) ∨
    (∀ q ∈ T.toList, t.key q ≠ key) ∧
      t.avlGenericDel isEmpty cmp key = .ok (.notFound,none,t) := by
  have hnd := h.nodup hS
  have hsize := h.length_le hS
  unfold avlGenericDel
  rw [hempty]
  cases hroot : t.root with
  | none =>
    cases h.of_root hroot
    exact Or.inr ⟨by simp [toList],rfl⟩
  | some root =>
    rcases h.walked hS hk hroot with ⟨c,q,l,r,hwalk,rfl,hq,hkey⟩ | ⟨f,c,hwalk,_,hnone,_,_⟩
    · obtain ⟨c',u,m,hm,hun⟩ := unlink_spec h.rep (h.root.trans (c.root_plug _)) h.avl hnd hsize
      obtain ⟨T',m',hup,hholds,hmem⟩ := h.removed hS hun
      refine Or.inl ⟨q,hq,hkey,T',m',?_,hholds,hmem⟩
      simp only [Bool.false_eq_true,if_false,hwalk,ok_bind,walkEnd,hm]
      cases hpath : c'.map Frame.elem with
      | nil =>
        rw [hpath] at hup
        exact congrArg (fun t' => Except.ok (Ret.ok,some (t.value q),t')) (Except.ok.inj hup)
      | cons pbalance path =>
        rw [hpath] at hup
        simp only [hup,ok_bind]
    · simp only [Bool.false_eq_true,if_false,hwalk,ok_bind]
      refine Or.inr ⟨hnone,?_⟩
      cases f <;> rfl

/-- A new leaf in the place that the walk found keeps the order. -/
theorem Holds.attached {child : ℕ} {f : Frame ℕ} {c : Context ℕ} {T' : BinaryTree ℕ} {m : ℕ → AvlNode}
    (h : t.Holds cmp S (Context.plug (f::c) nil)) (hS : StrictOn (narrowed cmp) S)
    (hk : t.key child ∈ S) (hlt : child < t.next)
    (hlow : ∀ x ∈ Context.before (f::c), 0 < t.ord cmp (t.key child) x)
    (hhigh : ∀ x ∈ Context.after (f::c), t.ord cmp (t.key child) x < 0)
    (hrep : Rep m none T' none) (havl : T'.Avl)
    (hT' : T'.toList = (Context.plug (f::c) (node child nil nil)).toList) :
    Holds cmp S {t with nodes := m, root := T'.root} T' ∧
      ∀ p, p ∈ T'.toList ↔ p = child ∨ p ∈ (Context.plug (f::c) nil).toList := by
  have hlist := Context.toList_plug (f::c) (node child nil nil)
  have hlist' := Context.toList_plug (f::c) nil
  simp only [toList,List.append_nil,List.nil_append,List.append_assoc,List.singleton_append]
    at hlist hlist'
  rw [hlist] at hT'
  have hmem (p : ℕ) : p ∈ T'.toList ↔ p = child ∨ p ∈ (Context.plug (f::c) nil).toList := by
    rw [hT',hlist',List.mem_append,List.mem_cons,List.mem_append]
    tauto
  refine ⟨⟨hrep,rfl,havl,fun p hp => ?_,fun p hp => ?_,?_⟩,hmem⟩
  · rcases (hmem p).mp hp with rfl | hp
    · exact hlt
    · exact h.fresh p hp
  · rcases (hmem p).mp hp with rfl | hp
    · exact hk
    · exact h.keys p hp
  · have hinc := h.increasing
    have hkeys := h.keys
    rw [hlist'] at hinc hkeys
    exact hT' ▸ hinc.insert hS hkeys hk hlow hhigh

/-- An insertion puts a new node in its place, unless the key is there already. -/
theorem nodeAdd_holds (child : ℕ) (h : t.Holds cmp S T) (hS : StrictOn (narrowed cmp) S)
    (hk : t.key child ∈ S) (hnew : child ∉ T.toList) (hlt : child < t.next)
    (hchild : t.nodes child = .init) :
    (∃ q ∈ T.toList, t.key q = t.key child ∧ nodeAdd cmp t child = .ok (.error,t)) ∨
    (∀ q ∈ T.toList, t.key q ≠ t.key child) ∧ ∃ T' m, nodeAdd cmp t child =
        .ok (.ok,{t with nodes := m, root := T'.root}) ∧
      Holds cmp S {t with nodes := m, root := T'.root} T' ∧
      ∀ p, p ∈ T'.toList ↔ p = child ∨ p ∈ T.toList := by
  cases hroot : t.root with
  | none =>
    unfold nodeAdd
    rw [hroot]
    cases h.of_root hroot
    refine Or.inr ⟨by simp [toList],node child nil nil,t.nodes,rfl,⟨⟨hchild,trivial,trivial⟩,rfl,
      ⟨trivial,trivial,by simp,by simp⟩,?_,?_,?_⟩,by simp [toList]⟩
    · simpa [toList] using hlt
    · simpa [toList] using hk
    · exact List.pairwise_singleton _ _
  | some root =>
    rcases h.walked hS hk hroot with ⟨c,q,l,r,hwalk,_,hq,hkey⟩ | ⟨f,c,hwalk,rfl,hnone,hlow,hhigh⟩
    · unfold nodeAdd
      rw [hroot]
      simp only [hwalk,ok_bind]
      exact Or.inl ⟨q,hq,hkey,rfl⟩
    · obtain ⟨T',m,hadd,hrep,havl,hlist⟩ := nodeAdd_attach hroot hwalk h.rep
        (h.root.trans (Context.root_plug (f::c) nil)) h.avl (List.nodup_cons.mpr ⟨hnew,h.nodup hS⟩) hchild
      exact Or.inr ⟨hnone,T',m,hadd,h.attached hS hk hlt hlow hhigh hrep havl hlist⟩

/-- A new node is no part of the tree yet. -/
theorem Holds.alloc (h : t.Holds cmp S T) (key : K) (value : ℕ → V) :
    Holds cmp S {(t.nodeNew key).2 with value := value} T := by
  have hkey {p : ℕ} (hp : p ∈ T.toList) : Function.update t.key t.next key p = t.key p :=
    Function.update_of_ne (h.fresh p hp).ne _ _
  refine ⟨h.rep.congr fun p hp => Function.update_of_ne (h.fresh p hp).ne _ _,h.root,h.avl,
    fun p hp => (h.fresh p hp).trans (Nat.lt_succ_self _),fun p hp => ?_,
    h.increasing.imp_of_mem fun {p q} hp hq hlt => ?_⟩
  · have hmem := h.keys p hp
    rwa [← hkey hp] at hmem
  · simpa only [nodeNew,hkey hp,hkey hq] using hlt

/-- An insertion of a key, with a new node for it. -/
theorem add_holds (h : t.Holds cmp S T) (hS : StrictOn (narrowed cmp) S) (hk : key ∈ S)
    (hempty : isEmpty key = false) (value : V) :
    (∃ q ∈ T.toList, t.key q = key ∧ ∃ t', t.add isEmpty cmp key value = .ok (.error,t') ∧
      Holds cmp S t' T ∧ ∀ p ∈ T.toList, t'.key p = t.key p ∧ t'.value p = t.value p) ∨
    (∀ q ∈ T.toList, t.key q ≠ key) ∧ ∃ t' T', t.add isEmpty cmp key value = .ok (.ok,t') ∧
      Holds cmp S t' T' ∧ (∀ p, p ∈ T'.toList ↔ p = t.next ∨ p ∈ T.toList) ∧
      t'.key = Function.update t.key t.next key ∧
      t'.value = Function.update t.value t.next value := by
  have halloc := h.alloc key (Function.update t.value t.next value)
  have hnew : t.next ∉ T.toList := fun hp => (h.fresh _ hp).ne rfl
  have hself : Function.update t.key t.next key t.next = key := Function.update_self ..
  have hk' : Function.update t.key t.next key t.next ∈ S := by rwa [hself]
  have hadd : t.add isEmpty cmp key value =
      nodeAdd cmp {(t.nodeNew key).2 with value := Function.update t.value t.next value} t.next := by
    simp only [add,avlGenericAdd,nodeNew,hself,hempty,Bool.false_eq_true,if_false]
  have hold {p : ℕ} (hp : p ∈ T.toList) : Function.update t.key t.next key p = t.key p :=
    Function.update_of_ne (h.fresh p hp).ne _ _
  rw [hadd]
  rcases nodeAdd_holds t.next halloc hS hk' hnew (Nat.lt_succ_self _)
    (Function.update_self ..) with ⟨q,hq,hkey,hret⟩ | ⟨hne,T',m,hret,hholds,hmem⟩
  · refine Or.inl ⟨q,hq,?_,_,hret,halloc,fun p hp => ⟨hold hp,?_⟩⟩
    · exact (hold hq).symm.trans (hkey.trans hself)
    · exact Function.update_of_ne (h.fresh p hp).ne _ _
  · refine Or.inr ⟨fun q hq heq => hne q hq ?_,_,T',hret,hholds,hmem,rfl,rfl⟩
    exact (hold hq).trans (heq.trans hself.symm)

end Holds

section Refinement

/-- The keys and values of the nodes are those of a finite map. -/
def Stores (t : Avl K V) (T : BinaryTree ℕ) (m : K → Option V) : Prop :=
  ∀ k v, (∃ p ∈ T.toList, t.key p = k ∧ t.value p = v) ↔ m k = some v

variable {cmp : K → K → ℤ} {S : Set K} {t : Avl K V} {T : BinaryTree ℕ} {m : K → Option V}
  {isEmpty : K → Bool}

theorem Stores.present (h : Stores t T m) {q : ℕ} (hq : q ∈ T.toList) :
    m (t.key q) = some (t.value q) := (h _ _).mp ⟨q,hq,rfl,rfl⟩

theorem Stores.absent (h : Stores t T m) {key : K} (hne : ∀ q ∈ T.toList, t.key q ≠ key) :
    m key = none := by
  cases hm : m key with
  | none => rfl
  | some v =>
    obtain ⟨q,hq,hkey,_⟩ := (h key v).mpr hm
    exact absurd hkey (hne q hq)

/-- An addition without a key allocates a node and leaves the tree alone. -/
theorem add_empty (h : t.Holds cmp S T) (hm : Stores t T m) {key : K} (hempty : isEmpty key = true)
    (value : V) : ∃ t', t.add isEmpty cmp key value = .ok (.error,t') ∧ t'.Holds cmp S T ∧
      Stores t' T m := by
  refine ⟨(t.nodeNew key).2,by simp [add,avlGenericAdd,hempty,nodeNew],h.alloc key t.value,fun k v => ?_⟩
  rw [← hm k v]
  refine exists_congr fun p => and_congr_right fun hp => ?_
  have hkey : (t.nodeNew key).2.key p = t.key p := Function.update_of_ne (h.fresh p hp).ne _ _
  rw [hkey]
  rfl

variable [DecidableEq K]

/-- What a call does to a finite map. -/
def mapCall (m : K → Option V) : MapCall K V → MapReply V × (K → Option V)
  | .add key value =>
    if (m key).isSome then ((.error,none),m) else ((.ok,none),Function.update m key (some value))
  | .del key =>
    if (m key).isSome then ((.ok,m key),Function.update m key none) else ((.notFound,none),m)
  | .get key => (if (m key).isSome then (.ok,m key) else (.notFound,none),m)

def mapCalls (m : K → Option V) : List (MapCall K V) → List (MapReply V) × (K → Option V)
  | [] => ([],m)
  | a::as =>
    let (r,m) := mapCall m a
    let (rs,m) := mapCalls m as
    (r::rs,m)

theorem Stores.insert (h : Stores t T m) {t' : Avl K V} {T' : BinaryTree ℕ} {key : K} {value : V}
    (hnew : t.next ∉ T.toList) (hne : ∀ q ∈ T.toList, t.key q ≠ key)
    (hmem : ∀ p, p ∈ T'.toList ↔ p = t.next ∨ p ∈ T.toList)
    (hkeys : t'.key = Function.update t.key t.next key)
    (hvalues : t'.value = Function.update t.value t.next value) :
    Stores t' T' (Function.update m key (some value)) := by
  have hold {p : ℕ} (hp : p ∈ T.toList) : t'.key p = t.key p ∧ t'.value p = t.value p := by
    have hpn : p ≠ t.next := fun heq => hnew (heq ▸ hp)
    rw [hkeys,hvalues,Function.update_of_ne hpn,Function.update_of_ne hpn]
    exact ⟨rfl,rfl⟩
  have hself : t'.key t.next = key ∧ t'.value t.next = value := by
    rw [hkeys,hvalues,Function.update_self,Function.update_self]
    exact ⟨rfl,rfl⟩
  intro k v
  by_cases hk : k = key
  · subst hk
    rw [Function.update_self,Option.some.injEq]
    refine ⟨fun ⟨p,hp,hkp,hvp⟩ => ?_,fun hv => ⟨t.next,(hmem _).mpr (Or.inl rfl),hself.1,hself.2.trans hv⟩⟩
    rcases (hmem p).mp hp with rfl | hp
    · exact hself.2.symm.trans hvp
    · exact absurd ((hold hp).1.symm.trans hkp) (hne p hp)
  · rw [Function.update_of_ne hk,← h k v]
    refine ⟨fun ⟨p,hp,hkp,hvp⟩ => ?_,fun ⟨p,hp,hkp,hvp⟩ =>
      ⟨p,(hmem p).mpr (Or.inr hp),(hold hp).1.trans hkp,(hold hp).2.trans hvp⟩⟩
    rcases (hmem p).mp hp with rfl | hp
    · exact absurd (hkp.symm.trans hself.1) hk
    · exact ⟨p,hp,(hold hp).1.symm.trans hkp,(hold hp).2.symm.trans hvp⟩

theorem Stores.erase (h : Stores t T m) (hS : StrictOn (narrowed cmp) S) (hT : t.Holds cmp S T)
    {T' : BinaryTree ℕ} {q : ℕ} (hq : q ∈ T.toList) (hmem : ∀ p, p ∈ T'.toList ↔ p ∈ T.toList ∧ p ≠ q) :
    Stores t T' (Function.update m (t.key q) none) := by
  intro k v
  by_cases hk : k = t.key q
  · subst hk
    rw [Function.update_self]
    refine iff_of_false (fun ⟨p,hp,hkp,_⟩ => ?_) (by simp)
    obtain ⟨hpT,hpq⟩ := (hmem p).mp hp
    exact hpq (List.inj_on_of_nodup_map (hT.increasing.nodup_keys hS hT.keys) hpT hq hkp)
  · rw [Function.update_of_ne hk,← h k v]
    refine exists_congr fun p => ⟨fun ⟨hp,hkv⟩ => ⟨((hmem p).mp hp).1,hkv⟩,fun ⟨hp,hkv⟩ =>
      ⟨(hmem p).mpr ⟨hp,?_⟩,hkv⟩⟩
    rintro rfl
    exact hk hkv.1.symm

/-- One call of the tree is one of the finite map. -/
theorem call_stores (hS : StrictOn (narrowed cmp) S) (h : t.Holds cmp S T) (hm : Stores t T m)
    {a : MapCall K V} (hk : a.key ∈ S) (hempty : isEmpty a.key = false) :
    ∃ t' T', t.call isEmpty cmp a = .ok ((mapCall m a).1,t') ∧ t'.Holds cmp S T' ∧
      Stores t' T' (mapCall m a).2 := by
  cases a with
  | get key =>
    rcases get_holds h hS hk hempty with ⟨q,hq,rfl,hret⟩ | ⟨hne,hret⟩
    · refine ⟨t,T,?_,h,hm⟩
      simp only [call,MapCall.key] at hret ⊢
      rw [hret]
      simp [mapCall,hm.present hq]
    · refine ⟨t,T,?_,h,hm⟩
      simp only [call,MapCall.key] at hret hne ⊢
      rw [hret]
      simp [mapCall,hm.absent hne]
  | add key value =>
    rcases add_holds h hS hk hempty value with
      ⟨q,hq,hkey,t',hret,hholds,hsame⟩ | ⟨hne,t',T',hret,hholds,hmem,hkeys,hvalues⟩
    · refine ⟨t',T,?_,hholds,?_⟩
      · simp only [call,MapCall.key] at hret hkey ⊢
        rw [hret]
        simp [mapCall,← hkey,hm.present hq]
      · simp only [MapCall.key] at hkey
        simp only [mapCall,← hkey,hm.present hq,Option.isSome_some,if_true]
        intro k v
        rw [← hm k v]
        refine exists_congr fun p => and_congr_right fun hp => ?_
        rw [(hsame p hp).1,(hsame p hp).2]
    · refine ⟨t',T',?_,hholds,?_⟩
      · simp only [call,MapCall.key] at hret hne ⊢
        rw [hret]
        simp [mapCall,hm.absent hne]
      · simp only [MapCall.key] at hne hkeys
        have hnew : t.next ∉ T.toList := fun hp => (h.fresh _ hp).ne rfl
        simpa [mapCall,hm.absent hne] using hm.insert hnew hne hmem hkeys hvalues
  | del key =>
    rcases del_holds h hS hk hempty with ⟨q,hq,hkey,T',m',hret,hholds,hmem⟩ | ⟨hne,hret⟩
    · simp only [MapCall.key] at hkey
      refine ⟨_,T',?_,hholds,?_⟩
      · simp only [call,MapCall.key] at hret ⊢
        rw [hret]
        simp [mapCall,← hkey,hm.present hq]
      · simp only [mapCall,← hkey,hm.present hq,Option.isSome_some,if_true]
        exact hm.erase hS h hq hmem
    · refine ⟨t,T,?_,h,?_⟩
      · simp only [call,MapCall.key] at hret hne ⊢
        rw [hret]
        simp [mapCall,hm.absent hne]
      · simp only [MapCall.key] at hne
        simpa [mapCall,hm.absent hne] using hm

end Refinement

end Avl
end Http2d
