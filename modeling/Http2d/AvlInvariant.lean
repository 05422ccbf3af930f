import Http2d.AvlMap

/-! What holds of the memory of every tree that calls of the interface can reach.
The properties are stated on the nodes and the tree of the real children; the representation of the
operations' proofs implies them. -/
namespace Http2d

open BinaryTree AvlTree SearchTree

/-- A comparison of nodes that is a strict total order, with results that fit in a `short`. -/
structure NodeOrder {K : Type} (cmp : K → K → ℤ) : Prop where
  fits : ∀ a b, -2^15 ≤ cmp a b ∧ cmp a b < 2^15
  order : StrictOn cmp Set.univ

/-- Every balance is how much higher the right subtree is, by one at most. -/
def BalanceExact (m : ℕ → AvlNode) : BinaryTree ℕ → Prop
  | .nil => True
  | .node p l r =>
    (m p).balance = (r.height : ℤ)-l.height ∧ -1 ≤ (m p).balance ∧ (m p).balance ≤ 1 ∧
    BalanceExact m l ∧ BalanceExact m r

/-- A pointer that is no child leads to the neighbour in order, or is NULL at an end. -/
def Threaded (m : ℕ → AvlNode) (nodes : List ℕ) : Prop :=
  ∀ before p after, nodes = before++p::after →
    ((m p).leftChild = false → (m p).left = before.getLast?) ∧
    ((m p).rightChild = false → (m p).right = after.head?)

/-- The invariant of the threaded AVL tree. -/
structure Avl.WellFormed {K V : Type} (cmp : K → K → ℤ) (t : Avl K V) (T : BinaryTree ℕ) : Prop where
  root : t.root = T.root
  spans : Spans t.nodes T
  increasing : Increasing cmp t.key T.toList
  balance : BalanceExact t.nodes T
  threaded : Threaded t.nodes T.toList

theorem NodeOrder.narrowed_eq {K : Type} {cmp : K → K → ℤ} (h : NodeOrder cmp) :
    narrowed cmp = cmp := by
  funext a b
  obtain ⟨h1,h2⟩ := h.fits a b
  simp only [narrowed,cshort]
  omega

section Memory
variable {m : ℕ → AvlNode} {lo hi : Option ℕ} {T : BinaryTree ℕ}

theorem Rep.balanceExact (h : Rep m lo T hi) (havl : T.Avl) : BalanceExact m T := by
  induction T generalizing lo hi with
  | nil => trivial
  | node p l r ihl ihr =>
    obtain ⟨hp,hl,hr⟩ := h
    obtain ⟨hlavl,hravl,h1,h2⟩ := havl
    refine ⟨?_,?_,?_,ihl hl hlavl,ihr hr hravl⟩ <;> rw [hp] <;> simp only [AvlNode.of] <;> omega

theorem Rep.threaded (h : Rep m none T none) (hnd : T.toList.Nodup) : Threaded m T.toList := by
  intro before p after hsplit
  have hp : p ∈ T.toList := hsplit ▸ List.mem_append_right _ List.mem_cons_self
  obtain ⟨c,l,r,rfl⟩ := Context.exists_plug hp
  have hnode := ((rep_plug _).1 h).1.1
  obtain ⟨hb,ha⟩ := Context.toList_plug_split hnd hsplit
  rw [hb,ha,hnode]
  refine ⟨fun hl => ?_,fun hr => ?_⟩
  · cases l with
    | nil => simp [AvlNode.of,Context.lo_eq,toList]
    | node q a b => cases hl
  · cases r with
    | nil => simp [AvlNode.of,Context.hi_eq,toList]
    | node q a b => cases hr

end Memory

namespace Avl

variable {K V : Type} {cmp : K → K → ℤ} {t : Avl K V} {T : BinaryTree ℕ}

theorem Holds.wellFormed (hcmp : NodeOrder cmp) (h : t.Holds cmp Set.univ T) :
    t.WellFormed cmp T :=
  have hS : StrictOn (narrowed cmp) Set.univ := hcmp.narrowed_eq.symm ▸ hcmp.order
  ⟨h.root,h.rep.spans,hcmp.narrowed_eq ▸ h.increasing,h.rep.balanceExact h.avl,
    h.rep.threaded (h.nodup hS)⟩

/-- No call fails to return, and each keeps the invariant. -/
theorem call_holds (isEmpty : K → Bool) {S : Set K} (hS : StrictOn (narrowed cmp) S) (h : t.Holds cmp S T)
    {a : MapCall K V} (hk : a.key ∈ S) :
    ∃ r t' T', t.call isEmpty cmp a = .ok (r,t') ∧ t'.Holds cmp S T' := by
  cases hempty : isEmpty a.key with
  | true =>
    cases a with
    | add key value =>
      simp only [MapCall.key] at hempty
      refine ⟨(.error,none),_,T,?_,h.alloc key t.value⟩
      simp [call,add,avlGenericAdd,hempty,nodeNew]
    | del key =>
      simp only [MapCall.key] at hempty
      exact ⟨(.error,none),t,T,by simp [call,avlGenericDel,hempty],h⟩
    | get key =>
      simp only [MapCall.key] at hempty
      exact ⟨(.error,none),t,T,by simp [call,avlGenericGet,hempty],h⟩
  | false =>
    cases a with
    | add key value =>
      rcases add_holds h hS hk hempty value with ⟨_,_,_,t',hret,h',_⟩ | ⟨_,t',T',hret,h',_⟩
      · simp only [MapCall.key] at hret
        exact ⟨_,t',T,by rw [call,hret,ok_bind],h'⟩
      · simp only [MapCall.key] at hret
        exact ⟨_,t',T',by rw [call,hret,ok_bind],h'⟩
    | del key =>
      rcases del_holds h hS hk hempty with ⟨_,_,_,T',_,hret,h',_⟩ | ⟨_,hret⟩
      · simp only [MapCall.key] at hret
        exact ⟨_,_,T',by rw [call,hret,ok_bind],h'⟩
      · simp only [MapCall.key] at hret
        exact ⟨_,t,T,by rw [call,hret,ok_bind],h⟩
    | get key =>
      rcases get_holds h hS hk hempty with ⟨_,_,_,hret⟩ | ⟨_,hret⟩
      · simp only [MapCall.key] at hret
        exact ⟨_,t,T,by rw [call,hret,ok_bind],h⟩
      · simp only [MapCall.key] at hret
        exact ⟨_,t,T,by rw [call,hret,ok_bind],h⟩

theorem calls_holds (isEmpty : K → Bool) {S : Set K} (hS : StrictOn (narrowed cmp) S) (h : t.Holds cmp S T)
    (as : List (MapCall K V)) (hk : ∀ a ∈ as, a.key ∈ S) :
    ∃ rs t' T', t.calls isEmpty cmp as = .ok (rs,t') ∧ t'.Holds cmp S T' := by
  induction as generalizing t T with
  | nil => exact ⟨[],t,T,rfl,h⟩
  | cons a as ih =>
    obtain ⟨ha,has⟩ := List.forall_mem_cons.mp hk
    obtain ⟨r,t₁,T₁,hcall,h₁⟩ := call_holds isEmpty hS h ha
    obtain ⟨rs,t₂,T₂,hcalls,h₂⟩ := ih h₁ has
    exact ⟨r::rs,t₂,T₂,by simp [calls,hcall,hcalls],h₂⟩

/-- The invariant of the tree in every state that calls reach. -/
theorem calls_wellFormed (hcmp : NodeOrder cmp) (isEmpty : K → Bool) (nodes : ℕ → AvlNode)
    (key : ℕ → K) (value : ℕ → V) (as : List (MapCall K V)) :
    ∃ rs t T, (init nodes key value).calls isEmpty cmp as = .ok (rs,t) ∧ t.WellFormed cmp T := by
  obtain ⟨rs,t,T,hcalls,h⟩ := calls_holds isEmpty (hcmp.narrowed_eq.symm ▸ hcmp.order)
    (holds_init cmp Set.univ nodes key value) as fun _ _ => Set.mem_univ _
  exact ⟨rs,t,T,hcalls,h.wellFormed hcmp⟩

/-- A comparison of natural numbers. -/
def natCmp (a b : ℕ) : ℤ := if a < b then -1 else if a = b then 0 else 1

theorem natOrder : NodeOrder natCmp := by
  refine ⟨fun a b => ?_,fun a _ b _ => ?_,fun a _ b _ => ?_,fun a _ b _ c _ hab hbc => ?_⟩ <;>
    unfold natCmp at * <;> grind

theorem calls_wellFormed_nat : ∃ rs t T,
    (init (fun _ => .init) (fun _ => 0) (fun _ => ())).calls (fun _ => false) natCmp
      [.add 3 (),.add 1 (),.add 2 (),.add 5 (),.del 3] = .ok (rs,t) ∧ t.WellFormed natCmp T :=
  calls_wellFormed natOrder (fun _ => false) (fun _ => .init) (fun _ => 0) (fun _ => ())
    [.add 3 (),.add 1 (),.add 2 (),.add 5 (),.del 3]

/-- `MAX_HEIGHT`, the room for the path of an operation. -/
def maxHeight : ℕ := 45

/-- A tree that is higher than the path is long has as many nodes as the Fibonacci tree of height 46. -/
theorem height_le_maxHeight (havl : T.Avl) (hsize : T.toList.length < Nat.fib 48-1) :
    T.height ≤ maxHeight := by
  by_contra hlt
  have hfib := fib_le_length havl
  have hmono : Nat.fib 48 ≤ Nat.fib (T.height+2) := Nat.fib_mono (by rw [maxHeight] at hlt; omega)
  omega

section Refinement

theorem stores_init (nodes : ℕ → AvlNode) (key : ℕ → K) (value : ℕ → V) :
    Stores (init nodes key value) .nil fun _ => none := by
  intro k v
  simp [toList]

variable [DecidableEq K]

theorem calls_stores (isEmpty : K → Bool) {S : Set K} {m : K → Option V}
    (hS : StrictOn (narrowed cmp) S) (h : t.Holds cmp S T) (hm : Stores t T m)
    (as : List (MapCall K V))
    (hk : ∀ a ∈ as, a.key ∈ S) (hempty : ∀ a ∈ as, isEmpty a.key = false) :
    ∃ t' T', t.calls isEmpty cmp as = .ok ((mapCalls m as).1,t') ∧ t'.Holds cmp S T' ∧
      Stores t' T' (mapCalls m as).2 := by
  induction as generalizing t T m with
  | nil => exact ⟨t,T,rfl,h,hm⟩
  | cons a as ih =>
    obtain ⟨ha,has⟩ := List.forall_mem_cons.mp hk
    obtain ⟨hae,hase⟩ := List.forall_mem_cons.mp hempty
    obtain ⟨t₁,T₁,hcall,h₁,hm₁⟩ := call_stores hS h hm ha hae
    obtain ⟨t₂,T₂,hcalls,h₂,hm₂⟩ := ih h₁ hm₁ has hase
    exact ⟨t₂,T₂,by simp [calls,hcall,hcalls,mapCalls],h₂,hm₂⟩

/-- The tree does what a finite map does, call by call, and ends with its keys and values. -/
theorem calls_refine (hcmp : NodeOrder cmp) (isEmpty : K → Bool) (nodes : ℕ → AvlNode)
    (key : ℕ → K) (value : ℕ → V) (as : List (MapCall K V)) (hempty : ∀ a ∈ as, isEmpty a.key = false) :
    ∃ t T, (init nodes key value).calls isEmpty cmp as =
        .ok ((mapCalls (fun _ => none) as).1,t) ∧ t.root = T.root ∧ Spans t.nodes T ∧
      Stores t T (mapCalls (fun _ => none) as).2 := by
  obtain ⟨t,T,hcalls,h,hm⟩ := calls_stores isEmpty (hcmp.narrowed_eq.symm ▸ hcmp.order)
    (holds_init cmp Set.univ nodes key value) (stores_init nodes key value) as
    (fun _ _ => Set.mem_univ _) hempty
  exact ⟨t,T,hcalls,h.root,h.rep.spans,hm⟩

theorem calls_refine_nat : ∃ t T,
    (init (fun _ => .init) (fun _ => 0) (fun _ => 0)).calls (fun k => k == 0) natCmp
      [.add 3 30,.add 1 10,.add 3 31,.del 3,.get 1,.get 3] =
      .ok ([(.ok,none),(.ok,none),(.error,none),(.ok,some 30),(.ok,some 10),(.notFound,none)],t) ∧
    t.root = T.root ∧ Spans t.nodes T ∧
    Stores t T (mapCalls (fun _ => none)
      [.add 3 30,.add 1 10,.add 3 31,.del 3,.get 1,.get 3]).2 :=
  calls_refine natOrder (fun k => k == 0) (fun _ => .init) (fun _ => 0) (fun _ => 0)
    [.add 3 30,.add 1 10,.add 3 31,.del 3,.get 1,.get 3] (by decide)

end Refinement

end Avl
end Http2d
