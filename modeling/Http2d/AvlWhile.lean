import Http2d.AvlTraversal
import Http2d.AvlBuffer
import Http2d.Library.Lifetime

/-! The walks over all entries of a tree: the one that calls a function for each, the count, and the one that
gives every node back.
What the trees are that additions and deletions lead to depends on the comparison only by its signs. -/
namespace Http2d

open SearchTree WhileLoop Lifetime

/-- The variables of `http2d_avl_generic_while`; `last` is what was written to `key` and `value`, and
`param` is what the function changes. -/
structure WhileState (V σ : Type) where
  node : Option ℕ
  last : Option (ℕ × V)
  param : σ

namespace Avl

variable {K V σ : Type}

/-- One turn of the loop of `http2d_avl_generic_while`. -/
def whileTurn (t : Avl K V) (func : ℕ → V → σ → Ret × σ) (s : WhileState V σ) :
    Turn (WhileState V σ) (Exec (Ret × Option (ℕ × V) × σ)) :=
  match s.node with
  | none => .stop (.ok (.ok,s.last,s.param))
  | some node =>
    let last := some (node,t.value node)
    let r := func node (t.value node) s.param
    if r.1 ≠ .ok then .stop (.ok (r.1,last,r.2))
    else
      match t.nodeAfter node with
      | .error h => .stop (.error h)
      | .ok (next,_) => .again ⟨next,last,r.2⟩

/-- `http2d_avl_generic_while`. -/
def avlGenericWhile (t : Avl K V) (func : ℕ → V → σ → Ret × σ) (param : σ) :
    Exec (Ret × Option (ℕ × V) × σ) :=
  if t.root = none then .ok (.ok,none,param)
  else do
    let (node,_) ← t.nodeFirst
    t.loop (whileTurn t func) ⟨node,none,param⟩

/-- `func_len_each`; more nodes than a `size_t` can count do not fit in memory. -/
def funcLenEach (_ : ℕ) (_ : V) (len : ℕ) : Ret × ℕ := (.ok,len+1)

/-- `http2d_avl_len`. -/
def avlLen (t : Avl K V) : Exec (Ret × ℕ) := do
  let (ret,_,len) ← t.avlGenericWhile funcLenEach 0
  .ok (ret,len)

/-- One turn of the loop of `http2d_avl_mrproper`, with what is read and given back. A note stands for the
call of `free_func` with a value. -/
def mrproperTurn (t : Avl K V) (freeFunc : Bool) (s : Option ℕ × List (Event ℕ V)) :
    Turn (Option ℕ × List (Event ℕ V)) (Exec (List (Event ℕ V))) :=
  match s.1 with
  | none => .stop (.ok s.2)
  | some node =>
    match t.nodeAfter node with
    | .error h => .stop (.error h)
    | .ok (next,seen) =>
      let content := if freeFunc then [.note (t.value node)] else []
      .again (next,s.2++((seen++[node]).map .use++content++[.release node]))

/-- `http2d_avl_mrproper`. -/
def avlMrproper (t : Avl K V) (freeFunc : Bool) : Exec (List (Event ℕ V)) := do
  let (node,seen) ← t.nodeFirst
  t.loop (mrproperTurn t freeFunc) (node,seen.map .use)

/-- The calls for a list of nodes, up to the first that does not return `ret_ok`. -/
def callEach (value : ℕ → V) (func : ℕ → V → σ → Ret × σ) :
    List ℕ → Option (ℕ × V) → σ → Ret × Option (ℕ × V) × σ
  | [], last, param => (.ok,last,param)
  | p::ps, _, param =>
    let r := func p (value p) param
    if r.1 ≠ .ok then (r.1,some (p,value p),r.2) else callEach value func ps (some (p,value p)) r.2

/-- What the walks over a tree with the entries of `m` come to; `ps` are its nodes. -/
structure Traversed (cmp : K → K → ℤ) (t : Avl K V) (m : K → Option V) (ps : List ℕ) : Prop where
  increasing : Increasing cmp t.key ps
  entries : ∀ k v, (∃ p ∈ ps, t.key p = k ∧ t.value p = v) ↔ m k = some v
  calls : ∀ {σ : Type} (func : ℕ → V → σ → Ret × σ) (param : σ),
    t.avlGenericWhile func param = .ok (callEach t.value func ps none param)
  len : t.avlLen = .ok (.ok,ps.length)
  released : ∀ freeFunc, ∃ log, t.avlMrproper freeFunc = .ok log ∧ Sound log ∧
    ∀ p, (.release p ∈ log ↔ p ∈ ps) ∧ (.use p ∈ log → p ∈ ps)

open BinaryTree AvlTree

section Walks
variable {t : Avl K V} {T : BinaryTree ℕ}

theorem run_while (h : t.Shaped T) (func : ℕ → V → σ → Ret × σ) {before suffix : List ℕ}
    (hsplit : T.toList = before++suffix) (last : Option (ℕ × V)) (param : σ) :
    WhileLoop.run (whileTurn t func) (suffix.length+1) ⟨suffix.head?,last,param⟩ =
      some (.ok (callEach t.value func suffix last param)) := by
  induction suffix generalizing before last param with
  | nil => exact run_stop rfl 0
  | cons p suffix ih =>
    obtain ⟨seen,hafter,-⟩ := h.after hsplit
    have hrest : T.toList = (before++[p])++suffix := by rw [hsplit,List.append_assoc,List.singleton_append]
    rw [List.head?_cons,callEach]
    by_cases hret : (func p (t.value p) param).1 ≠ .ok
    · rw [if_pos hret]
      exact run_stop (by simp only [whileTurn,if_pos hret]) _
    · rw [if_neg hret,List.length_cons,← ih hrest]
      exact run_again (by simp only [whileTurn,if_neg hret,hafter]) _

theorem while_eq (h : t.Shaped T) (func : ℕ → V → σ → Ret × σ) (param : σ) :
    t.avlGenericWhile func param = .ok (callEach t.value func T.toList none param) := by
  unfold avlGenericWhile
  by_cases hroot : t.root = none
  · obtain rfl : T = .nil := by
      cases T with
      | nil => rfl
      | node p l r => cases h.root.symm.trans hroot
    rw [if_pos hroot]
    rfl
  · obtain ⟨seen,hfirst,-,-⟩ := h.first
    have hrun := run_while h func (List.nil_append T.toList).symm none param
    rw [if_neg hroot,hfirst,ok_bind]
    exact loop_eq hrun (Nat.succ_le_succ h.length_le)

theorem callEach_len (value : ℕ → V) (ps : List ℕ) (last : Option (ℕ × V)) (n : ℕ) :
    ∃ last', callEach value funcLenEach ps last n = (.ok,last',n+ps.length) := by
  induction ps generalizing last n with
  | nil => exact ⟨last,rfl⟩
  | cons p ps ih =>
    obtain ⟨last',hps⟩ := ih (some (p,value p)) (n+1)
    refine ⟨last',?_⟩
    rw [callEach,if_neg (fun h => h rfl)]
    exact hps.trans (by rw [List.length_cons,Nat.add_right_comm,Nat.add_assoc])

theorem len_eq (h : t.Shaped T) : t.avlLen = .ok (.ok,T.toList.length) := by
  obtain ⟨last,hlen⟩ := callEach_len t.value T.toList none 0
  rw [avlLen,while_eq h,ok_bind,hlen,Nat.zero_add]

/-- What the loop has given back are the nodes that it has passed. -/
structure Passed (log : List (Event ℕ V)) (T : BinaryTree ℕ) (before : List ℕ) : Prop where
  sound : Sound log
  released : ∀ p, .release p ∈ log ↔ p ∈ before
  used : ∀ p, .use p ∈ log → p ∈ T.toList

/-- A turn reads the node and nodes behind it, and gives it back. -/
theorem Passed.turn {log : List (Event ℕ V)} {before suffix seen : List ℕ} {p : ℕ}
    (hlog : Passed log T before) (hsplit : T.toList = before++p::suffix) (hnd : T.toList.Nodup)
    (hseen : ∀ x ∈ seen, x ∈ p::suffix) (content : List V) :
    Passed (log++((seen++[p]).map .use++content.map .note++[.release p])) T (before++[p]) := by
  have hbehind : ∀ x ∈ p::suffix, x ∉ before := fun x hx hin =>
    (List.nodup_append.mp (hsplit ▸ hnd)).2.2 x hin x hx rfl
  have hread : ∀ x ∈ seen++[p], x ∈ p::suffix := fun x hx => by
    rcases List.mem_append.mp hx with hx | hx
    · exact hseen x hx
    · exact List.mem_singleton.mp hx ▸ List.mem_cons_self
  have hfree : ∀ x ∈ p::suffix, Event.release x ∉ log := fun x hx hin =>
    hbehind x hx ((hlog.released x).mp hin)
  refine ⟨?_,fun x => ?_,fun x hx => ?_⟩
  · rw [← List.append_assoc,← List.append_assoc]
    refine ((hlog.sound.uses fun x hx => hfree x (hread x hx)).notes content).release ?_
    simpa using hfree p List.mem_cons_self
  · simp [hlog.released x]
  · simp only [List.mem_append,List.mem_map,List.mem_singleton] at hx
    have hin : x ∈ p::suffix → x ∈ T.toList := fun hx => hsplit ▸ List.mem_append_right _ hx
    rcases hx with hx | ((⟨y,hy,heq⟩ | ⟨v,_,heq⟩) | heq)
    · exact hlog.used x hx
    · cases heq
      exact hin (hread x (by simpa using hy))
    · cases heq
    · cases heq

theorem run_mrproper (h : t.Shaped T) (freeFunc : Bool) {before suffix : List ℕ}
    (hsplit : T.toList = before++suffix) {log : List (Event ℕ V)} (hlog : Passed log T before) :
    ∃ log', WhileLoop.run (mrproperTurn t freeFunc) (suffix.length+1) (suffix.head?,log) =
      some (.ok log') ∧ Passed log' T T.toList := by
  induction suffix generalizing before log with
  | nil =>
    rw [List.append_nil] at hsplit
    exact ⟨log,run_stop rfl 0,hsplit ▸ hlog⟩
  | cons p suffix ih =>
    obtain ⟨seen,hafter,hseen⟩ := h.after hsplit
    have hrest : T.toList = (before++[p])++suffix := by rw [hsplit,List.append_assoc,List.singleton_append]
    have hturn := hlog.turn hsplit h.nodup hseen (if freeFunc then [t.value p] else [])
    obtain ⟨log',hrun,hpassed⟩ := ih hrest hturn
    refine ⟨log',?_,hpassed⟩
    rw [List.head?_cons,List.length_cons,← hrun]
    refine run_again ?_ _
    simp only [mrproperTurn,hafter]
    cases freeFunc <;> rfl

theorem mrproper_eq (h : t.Shaped T) (freeFunc : Bool) :
    ∃ log, t.avlMrproper freeFunc = .ok log ∧ Passed log T T.toList := by
  obtain ⟨seen,hfirst,hseen,-⟩ := h.first
  have hstart : Passed (seen.map Event.use : List (Event ℕ V)) T [] := by
    refine ⟨?_,by simp,fun p hp => hseen p (by simpa using hp)⟩
    have hnone : ∀ r ∈ seen, Event.release r ∉ ([] : List (Event ℕ V)) := by simp
    simpa using sound_nil.uses hnone
  obtain ⟨log,hrun,hlog⟩ := run_mrproper h freeFunc (List.nil_append T.toList).symm hstart
  refine ⟨log,?_,hlog⟩
  rw [avlMrproper,hfirst,ok_bind]
  exact loop_eq hrun (Nat.succ_le_succ h.length_le)

end Walks

/-- The comparison without its size. -/
def signOf (cmp : K → K → ℤ) (a b : K) : ℤ := (cmp a b).sign

/-- The comparisons that an addition or a deletion makes keep their signs in the `short`. -/
def CallKept (isEmpty : K → Bool) (cmp : K → K → ℤ) (t : Avl K V) : MapCall K V → Prop
  | .get _ => True
  | .add key _ | .del key =>
    ∀ p ∈ t.visits isEmpty cmp key, (narrowed cmp key (t.key p)).sign = (cmp key (t.key p)).sign

/-- All of these calls do so, each in the tree that it is made in. -/
def SignsKept (isEmpty : K → Bool) (cmp : K → K → ℤ) : Avl K V → List (MapCall K V) → Prop
  | _, [] => True
  | t, a::as =>
    t.CallKept isEmpty cmp a ∧ ∀ r t', t.call isEmpty cmp a = .ok (r,t') → SignsKept isEmpty cmp t' as

section Signs
variable {isEmpty : K → Bool} {cmp : K → K → ℤ} {S : Set K} {t u : Avl K V} {T : BinaryTree ℕ} {key : K}

theorem signOf_order (h : StrictOn cmp S) : StrictOn (signOf cmp) S := by
  refine ⟨fun a ha b hb => ?_,fun a ha b hb => ?_,fun a ha b hb c hc hab hbc => ?_⟩
  · rw [signOf,Int.sign_eq_zero_iff_zero]
    exact h.eq_iff a ha b hb
  · rw [signOf,signOf,Int.sign_neg_iff,Int.sign_pos_iff]
    exact h.neg_iff a ha b hb
  · rw [signOf,Int.sign_neg_iff] at hab hbc ⊢
    exact h.trans a ha b hb c hc hab hbc

theorem narrowed_signOf (cmp : K → K → ℤ) : narrowed (signOf cmp) = signOf cmp := by
  funext a b
  refine cshort_eq ?_
  rcases Int.sign_trichotomy (cmp a b) with h | h | h <;> rw [signOf,h,IsShort] <;> omega

theorem strictOn_signOf (h : StrictOn cmp S) : StrictOn (narrowed (signOf cmp)) S := by
  rw [narrowed_signOf]
  exact signOf_order h

/-- The nodes that a walk reads are those that the way down in the tree looks at. -/
theorem visits_eq (h : t.Shaped T) (hkey : isEmpty key = false) {root : ℕ} (hroot : t.root = some root) :
    t.visits isEmpty cmp key = looked (descend (t.ord cmp key) [] T) := by
  have hs := h.root.symm.trans hroot
  have hplug := plug_descend (t.ord cmp key) [] T
  unfold visits
  simp only [hkey,hroot,walk_spec cmp key h.rep hs h.length_le,Bool.false_eq_true,if_false]
  rcases hdown : descend (t.ord cmp key) [] T with ⟨c,s⟩
  rw [hdown] at hplug
  cases s with
  | node n l r => rfl
  | nil =>
    cases c with
    | nil =>
      obtain rfl : nil = T := hplug
      cases hs
    | cons f c => cases f <;> rfl

/-- With the same nodes and keys, a walk that acts on signs alone goes the same way. -/
theorem walk_signOf (h : t.Shaped T) (hu : u.Shaped T) (hkeys : ∀ p ∈ T.toList, u.key p = t.key p)
    (hempty : isEmpty key = false) {root : ℕ} (hroot : t.root = some root)
    (hkept : ∀ p ∈ t.visits isEmpty cmp key, (narrowed cmp key (t.key p)).sign = (cmp key (t.key p)).sign) :
    u.walk cmp key root = u.walk (signOf cmp) key root := by
  have hs := h.root.symm.trans hroot
  rw [visits_eq h hempty hroot] at hkept
  have hin := looked_descend (t.ord cmp key) T
  have hcmp : descend (t.ord cmp key) [] T = descend (u.ord cmp key) [] T :=
    descend_congr [] T fun p hp => by rw [ord,ord,hkeys p (hin p hp)]
  have hsign : descend (t.ord cmp key) [] T = descend (u.ord (signOf cmp) key) [] T := by
    refine descend_congr [] T fun p hp => ?_
    rw [ord,ord,narrowed_signOf,hkeys p (hin p hp),hkept p hp,signOf,Int.sign_sign]
  rw [walk_spec cmp key hu.rep hs hu.length_le,walk_spec (signOf cmp) key hu.rep hs hu.length_le,← hcmp,hsign]

theorem add_signOf (h : t.Shaped T) {value : V} (hkept : t.CallKept isEmpty cmp (.add key value)) :
    t.add isEmpty cmp key value = t.add isEmpty (signOf cmp) key value := by
  have hself : (t.nodeNew key).2.key (t.nodeNew key).1 = key := Function.update_self ..
  simp only [Avl.add,avlGenericAdd,hself]
  by_cases hempty : isEmpty key = true
  · rw [if_pos hempty,if_pos hempty]
  · rw [if_neg hempty,if_neg hempty]
    let u : Avl K V := {(t.nodeNew key).2 with value := Function.update t.value t.next value}
    have hu : u.Shaped T := h.alloc key _
    have hkeys : ∀ p ∈ T.toList, u.key p = t.key p := fun p hp => Function.update_of_ne (h.fresh p hp).ne _ _
    show nodeAdd cmp u t.next = nodeAdd (signOf cmp) u t.next
    have hchild : u.key t.next = key := hself
    unfold nodeAdd
    cases hroot : u.root with
    | none => rfl
    | some root =>
      simp only [hchild]
      rw [walk_signOf h hu hkeys (Bool.eq_false_of_not_eq_true hempty) hroot hkept]

theorem del_signOf (h : t.Shaped T) (hkept : t.CallKept isEmpty cmp (.del key)) :
    t.avlGenericDel isEmpty cmp key = t.avlGenericDel isEmpty (signOf cmp) key := by
  unfold avlGenericDel
  by_cases hempty : isEmpty key = true
  · rw [if_pos hempty,if_pos hempty]
  · rw [if_neg hempty,if_neg hempty]
    cases hroot : t.root with
    | none => rfl
    | some root =>
      simp only
      rw [walk_signOf h h (fun _ _ => rfl) (Bool.eq_false_of_not_eq_true hempty) hroot hkept]

theorem Holds.shaped (h : t.Holds cmp S T) (hS : StrictOn (narrowed cmp) S) : t.Shaped T :=
  ⟨h.rep,h.root,h.avl,h.nodup hS,h.fresh⟩

/-- A tree in order is walked in this order. -/
theorem Holds.traversed {m : K → Option V} (h : t.Holds (signOf cmp) S T) (hcmp : StrictOn cmp S) (hm : Stores t T m) :
    Traversed cmp t m T.toList := by
  have hshaped := h.shaped (strictOn_signOf hcmp)
  refine ⟨?_,hm,fun func param => while_eq hshaped func param,len_eq hshaped,fun freeFunc => ?_⟩
  · have hinc := h.increasing
    rw [narrowed_signOf] at hinc
    exact hinc.imp fun {p q} hlt => Int.sign_neg_iff.mp hlt
  · obtain ⟨log,hlog,hpassed⟩ := mrproper_eq hshaped freeFunc
    exact ⟨log,hlog,hpassed.sound,fun p => ⟨hpassed.released p,hpassed.used p⟩⟩

variable [DecidableEq K] {m : K → Option V}

/-- A call whose comparisons keep their signs does to the entries what it does to a map. -/
theorem call_kept (hcmp : StrictOn cmp S) (h : t.Holds (signOf cmp) S T) (hm : Stores t T m) {a : MapCall K V}
    (hk : isEmpty a.key = false → a.key ∈ S) (hkept : t.CallKept isEmpty cmp a) :
    ∃ r t' T', t.call isEmpty cmp a = .ok (r,t') ∧ t'.Holds (signOf cmp) S T' ∧
      Stores t' T' (if isEmpty a.key then m else (mapCall m a).2) := by
  have hS := strictOn_signOf hcmp
  have hshaped := h.shaped hS
  cases a with
  | get key =>
    obtain ⟨r,hr⟩ := hshaped.get isEmpty cmp key
    refine ⟨r,t,T,by rw [call,hr]; rfl,h,?_⟩
    simpa [mapCall] using hm
  | add key value =>
    have hcall : t.call isEmpty cmp (.add key value) = t.call isEmpty (signOf cmp) (.add key value) := by
      rw [call,call,add_signOf hshaped hkept]
    rw [hcall]
    cases hempty : isEmpty key with
    | true =>
      obtain ⟨t',hadd,h',hm'⟩ := add_empty h hm hempty value
      exact ⟨_,t',T,by rw [call,hadd]; rfl,h',by simpa [MapCall.key,hempty] using hm'⟩
    | false =>
      obtain ⟨t',T',hadd,h',hm'⟩ := call_stores hS h hm (hk hempty) hempty
      exact ⟨_,t',T',hadd,h',by simpa [MapCall.key,hempty] using hm'⟩
  | del key =>
    have hcall : t.call isEmpty cmp (.del key) = t.call isEmpty (signOf cmp) (.del key) := by
      rw [call,call,del_signOf hshaped hkept]
    rw [hcall]
    cases hempty : isEmpty key with
    | true =>
      exact ⟨(.error,none),t,T,by simp [call,avlGenericDel,hempty],h,by simpa [MapCall.key,hempty] using hm⟩
    | false =>
      obtain ⟨t',T',hdel,h',hm'⟩ := call_stores hS h hm (hk hempty) hempty
      exact ⟨_,t',T',hdel,h',by simpa [MapCall.key,hempty] using hm'⟩

/-- The calls that reach the map: a call with an empty key changes nothing. -/
def keyed (isEmpty : K → Bool) (as : List (MapCall K V)) : List (MapCall K V) :=
  as.filter fun a => !isEmpty a.key

theorem calls_kept (hcmp : StrictOn cmp S) (h : t.Holds (signOf cmp) S T) (hm : Stores t T m)
    {as : List (MapCall K V)} (hk : ∀ a ∈ as, isEmpty a.key = false → a.key ∈ S)
    (hkept : t.SignsKept isEmpty cmp as) :
    ∃ rs t' T', t.calls isEmpty cmp as = .ok (rs,t') ∧ t'.Holds (signOf cmp) S T' ∧
      Stores t' T' (mapCalls m (keyed isEmpty as)).2 := by
  induction as generalizing t T m with
  | nil => exact ⟨[],t,T,rfl,h,hm⟩
  | cons a as ih =>
    obtain ⟨ha,has⟩ := List.forall_mem_cons.mp hk
    obtain ⟨r,t₁,T₁,hcall,h₁,hm₁⟩ := call_kept hcmp h hm ha hkept.1
    obtain ⟨rs,t₂,T₂,hcalls,h₂,hm₂⟩ := ih h₁ hm₁ has (hkept.2 r t₁ hcall)
    refine ⟨r::rs,t₂,T₂,by simp [calls,hcall,hcalls],h₂,?_⟩
    cases hempty : isEmpty a.key <;> simpa [keyed,hempty,mapCalls] using hm₂

/-- In every tree that these calls lead to, the walks visit the entries in order. -/
theorem calls_traversed (hcmp : StrictOn cmp S) (isEmpty : K → Bool) (nodes : ℕ → AvlNode) (key : ℕ → K)
    (value : ℕ → V) (as : List (MapCall K V)) (hk : ∀ a ∈ as, isEmpty a.key = false → a.key ∈ S)
    (hkept : (init nodes key value).SignsKept isEmpty cmp as) :
    ∃ rs t ps, (init nodes key value).calls isEmpty cmp as = .ok (rs,t) ∧
      Traversed cmp t (mapCalls (fun _ => none) (keyed isEmpty as)).2 ps := by
  obtain ⟨rs,t,T,hcalls,h,hm⟩ := calls_kept hcmp (holds_init (signOf cmp) S nodes key value)
    (stores_init nodes key value) hk hkept
  exact ⟨rs,t,T.toList,hcalls,h.traversed hcmp hm⟩

end Signs

/-- Results that fit in the `short` keep their signs. -/
theorem signsKept_of_fits {cmp : K → K → ℤ} (h : narrowed cmp = cmp) (isEmpty : K → Bool)
    (as : List (MapCall K V)) (t : Avl K V) : t.SignsKept isEmpty cmp as := by
  induction as generalizing t with
  | nil => trivial
  | cons a as ih =>
    refine ⟨?_,fun r t' _ => ih t'⟩
    cases a with
    | get key => trivial
    | add key value => exact fun p _ => by rw [h]
    | del key => exact fun p _ => by rw [h]

theorem calls_traversed_nat : ∃ rs t ps,
    (init (fun _ => .init) (fun _ => 0) (fun _ => 0)).calls (fun k => k == 0) natCmp
      [.add 3 30,.add 1 10,.add 0 50,.add 2 20,.del 3] = .ok (rs,t) ∧
    Traversed natCmp t (mapCalls (fun _ => none) (keyed (fun k => k == 0)
      [.add 3 30,.add 1 10,.add 0 50,.add 2 20,.del 3])).2 ps :=
  calls_traversed natOrder.order (fun k => k == 0) (fun _ => .init) (fun _ => 0) (fun _ => 0)
    [.add 3 30,.add 1 10,.add 0 50,.add 2 20,.del 3] (fun _ _ _ => Set.mem_univ _)
    (signsKept_of_fits natOrder.narrowed_eq _ _ _)

/-- A second key whose comparison with the first is narrowed to a negative number gets the place before it. -/
theorem calls_before {isEmpty : K → Bool} {cmp : K → K → ℤ} {A B : K}
    (hA : isEmpty A = false) (hB : isEmpty B = false) (hBA : narrowed cmp B A < 0) (nodes : ℕ → AvlNode)
    (key : ℕ → K) (value : ℕ → V) (v w : V) :
    ∃ t : Avl K V, (init nodes key value).calls isEmpty cmp [.add A v,.add B w] =
        .ok ([(.ok,none),(.ok,none)],t) ∧ t.Shaped (node 0 (node 1 nil nil) nil) ∧ t.key 0 = A ∧ t.key 1 = B := by
  have hone : cshort (-1) = -1 := rfl
  simp only [narrowed] at hBA
  refine ⟨⟨modifyNode (modifyNode (Function.update (Function.update nodes 0 .init) 1 .init) 1
      fun n => {n with left := none, right := some 0}) 0
      fun n => {n with left := some 1, leftChild := true, balance := cshort (n.balance-1)},
    Function.update (Function.update key 0 A) 1 B,Function.update (Function.update value 0 v) 1 w,
    2,some 0⟩,?_,⟨⟨?_,⟨?_,trivial,trivial⟩,trivial⟩,rfl,?_,?_,?_⟩,?_,?_⟩
  · simp [calls,call,add,avlGenericAdd,nodeNew,nodeAdd,init,hA,hB,walk,loop,WhileLoop.run,walkTurn,
      hBA,climbAdd,climb,restore,modify,AvlNode.init,hone]
  · simp [AvlNode.of,AvlNode.init,hone,height]
  · simp [AvlNode.of,AvlNode.init]
  · exact ⟨⟨trivial,trivial,by decide,by decide⟩,trivial,by decide,by decide⟩
  · decide
  · simp [toList]
  · simp
  · simp

/-- A function that notes for which nodes it is called. -/
def noteNode (V : Type) (p : ℕ) (_ : V) (ps : List ℕ) : Ret × List ℕ := (.ok,ps++[p])

theorem callEach_noteNode (value : ℕ → V) (ps seen : List ℕ) (last : Option (ℕ × V)) :
    ∃ last', callEach value (noteNode V) ps last seen = (.ok,last',seen++ps) := by
  induction ps generalizing last seen with
  | nil => exact ⟨last,by rw [List.append_nil]; rfl⟩
  | cons p ps ih =>
    obtain ⟨last',hps⟩ := ih (seen++[p]) (some (p,value p))
    refine ⟨last',?_⟩
    rw [callEach,if_neg (fun h => h rfl)]
    exact hps.trans (by rw [List.append_assoc,List.singleton_append])

/-- The nodes that a walk visits are those of the tree. -/
theorem Traversed.eq_toList {cmp : K → K → ℤ} {t : Avl K V} {m : K → Option V} {ps : List ℕ} {T : BinaryTree ℕ}
    (h : Traversed cmp t m ps) (hT : t.Shaped T) : ps = T.toList := by
  obtain ⟨last,hps⟩ := callEach_noteNode t.value ps [] none
  obtain ⟨last',hlist⟩ := callEach_noteNode t.value T.toList [] none
  have heq := (h.calls (noteNode V) []).symm.trans (while_eq hT (noteNode V) [])
  rw [hps,hlist] at heq
  simp only [Except.ok.injEq,Prod.mk.injEq,List.nil_append,true_and] at heq
  exact heq.2

/-- A key that is 40000 bytes longer than another comes before it, although it is greater. -/
theorem not_traversed_long :
    IsKey [97] ∧ IsKey (List.replicate 40001 97) ∧ StrictOn (nodeCmp false) {k | IsKey k} ∧
    ¬ ∃ rs t ps, (init (fun _ => .init) (fun _ => []) (fun _ => 0)).calls nodeIsEmpty (nodeCmp false)
        [.add [97] 1,.add (List.replicate 40001 97) 2] = .ok (rs,t) ∧
      Traversed (nodeCmp false) t (mapCalls (fun _ => none) (keyed nodeIsEmpty
        [.add [97] 1,.add (List.replicate 40001 97) 2])).2 ps := by
  have hcmp := nodeCmp_replicate (n:=40001) (by omega) (by omega)
  have hnarrow : narrowed (nodeCmp false) (List.replicate 40001 97) [97] < 0 := by
    rw [narrowed,hcmp]
    decide
  have hempty := nodeIsEmpty_replicate (n:=40001) (by omega)
  refine ⟨isKey_replicate (n:=1) (by omega) (by omega),isKey_replicate (by omega) (by omega),
    bufferCmpBuf_order,?_⟩
  rintro ⟨rs,t,ps,hcalls,h⟩
  obtain ⟨t',hcalls',hshaped,hkey0,hkey1⟩ := calls_before (V:=ℕ) (A:=[97]) rfl hempty hnarrow
    (fun _ => .init) (fun _ => []) (fun _ => 0) 1 2
  obtain ⟨-,rfl⟩ := Prod.mk.inj (Except.ok.inj (hcalls.symm.trans hcalls'))
  have hinc := h.increasing
  rw [h.eq_toList hshaped] at hinc
  have hlt : nodeCmp false (t.key 1) (t.key 0) < 0 := by simpa [Increasing,toList] using hinc
  rw [hkey0,hkey1,hcmp] at hlt
  omega

end Avl
end Http2d
