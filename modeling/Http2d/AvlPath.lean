import Http2d.AvlTraversal
import Http2d.AvlRotation

/-! The operations of the tree with the array that keeps the way down.
The array has `MAX_HEIGHT` slots, its first one holds NULL, and an access with any other index is a
fault. The slots hold what the lists of the other functions hold, the last node uppermost. -/
namespace Http2d

open WhileLoop

/-- A read of `path[idx]`. -/
def pathGet (slots : ℕ → Option ℕ) (idx : ℤ) : Exec (Option ℕ) :=
  if 0 ≤ idx ∧ idx < Avl.maxHeight then .ok (slots idx.toNat) else .error .fault

/-- A write of `path[idx]`. -/
def pathSet (slots : ℕ → Option ℕ) (idx : ℤ) (node : Option ℕ) : Exec (ℕ → Option ℕ) :=
  if 0 ≤ idx ∧ idx < Avl.maxHeight then .ok (Function.update slots idx.toNat node) else .error .fault

/-- The variables of a way down: the node, the array and the index into it. -/
structure PathState where
  node : ℕ
  slots : ℕ → Option ℕ
  idx : ℤ

/-- Why a walk for a key ends. -/
inductive Landing
  | found | noLeft | noRight
  deriving DecidableEq, Repr

def Walk.landing : Walk → Landing
  | .found _ _ => .found
  | .noLeft _ _ => .noLeft
  | .noRight _ _ => .noRight

def Walk.node : Walk → ℕ
  | .found n _ | .noLeft n _ | .noRight n _ => n

def Walk.path : Walk → List ℕ
  | .found _ p | .noLeft _ p | .noRight _ p => p

namespace Avl

variable {K V : Type}

/-- The node is saved, and the walk goes on to `child`. -/
def pushTurn {R : Type} (s : PathState) (child : Option ℕ) : Turn PathState (Exec R) :=
  match pathSet s.slots s.idx (some s.node), child with
  | .ok slots, some p => .again ⟨p,slots,s.idx+1⟩
  | _, _ => .stop (.error .fault)

/-- One turn of the loops that go down for a key. -/
def walkPathTurn (cmp : K → K → ℤ) (t : Avl K V) (key : K) (s : PathState) :
    Turn PathState (Exec (Landing × PathState)) :=
  let n := t.nodes s.node
  let re := cshort (cmp key (t.key s.node))
  if re < 0 then
    if n.leftChild then pushTurn s n.left else .stop (.ok (.noLeft,s))
  else if 0 < re then
    if n.rightChild then pushTurn s n.right else .stop (.ok (.noRight,s))
  else .stop (.ok (.found,s))

/-- The walk for a key from the root; before it, `path[0]` is set to NULL. -/
def walkPath (cmp : K → K → ℤ) (t : Avl K V) (slots : ℕ → Option ℕ) (key : K) (root : ℕ) :
    Exec (Landing × PathState) := do
  let slots ← pathSet slots 0 none
  t.loop (walkPathTurn cmp t key) ⟨root,slots,1⟩

/-- One turn of the loops that go up; the parent is `path[--idx]`. -/
def climbPathTurn (done : ℤ → Bool) (change : ℤ) (slots : ℕ → Option ℕ) (s : Avl K V × ℕ × ℤ) :
    Turn (Avl K V × ℕ × ℤ) (Exec (Avl K V)) :=
  match pathGet slots (s.2.2-1) with
  | .error h => .stop (.error h)
  | .ok parent =>
    let isLeft := parent.any fun p => (s.1.nodes p).left = some s.2.1
    match s.1.restore parent isLeft s.2.1, parent with
    | .error h, _ => .stop (.error h)
    | .ok (_,t), none => .stop (.ok t)
    | .ok (node,t), some p =>
      if done (t.nodes node).balance then .stop (.ok t)
      else
        .again (t.modify p fun n =>
          {n with balance := cshort (if isLeft then n.balance-change else n.balance+change)},p,s.2.2-1)

/-- A loop that goes up; the index falls in every turn. -/
def climbPath (done : ℤ → Bool) (change : ℤ) (slots : ℕ → Option ℕ) (t : Avl K V) (node : ℕ) (idx : ℤ) :
    Exec (Avl K V) :=
  (WhileLoop.run (climbPathTurn done change slots) (maxHeight+1) (t,node,idx)).getD (.error .fault)

/-- `node_add`; `slots` is what the array holds before it is written. -/
def nodeAddPath (cmp : K → K → ℤ) (t : Avl K V) (slots : ℕ → Option ℕ) (child : ℕ) :
    Exec (Ret × Avl K V) :=
  match t.root with
  | none => .ok (.ok,{t with root := some child})
  | some root => do
    match ← t.walkPath cmp slots (t.key child) root with
    | (.found,_) => .ok (.error,t)
    | (.noLeft,s) =>
      let t := t.modify child fun n =>
        {n with left := (t.nodes s.node).left, right := some s.node}
      let t := t.modify s.node fun n =>
        {n with left := some child, leftChild := true, balance := cshort (n.balance-1)}
      let t ← climbPath (fun b => b = 0) 1 s.slots t s.node s.idx
      .ok (.ok,t)
    | (.noRight,s) =>
      let t := t.modify child fun n =>
        {n with right := (t.nodes s.node).right, left := some s.node}
      let t := t.modify s.node fun n =>
        {n with right := some child, rightChild := true, balance := cshort (n.balance+1)}
      let t ← climbPath (fun b => b = 0) 1 s.slots t s.node s.idx
      .ok (.ok,t)

/-- One turn of the way down to the next node, `path[++idx] = nextp = next`; the second component is
`nextp`. -/
def leftPathTurn (t : Avl K V) (s : PathState × ℕ) : Turn (PathState × ℕ) (Exec (PathState × ℕ)) :=
  if (t.nodes s.1.node).leftChild then
    match pathSet s.1.slots (s.1.idx+1) (some s.1.node), (t.nodes s.1.node).left with
    | .ok slots, some p => .again (⟨p,slots,s.1.idx+1⟩,s.1.node)
    | _, _ => .stop (.error .fault)
  else .stop (.ok s)

/-- What `http2d_avl_generic_del` has when it begins to restore the balance: `pbalance` and the
variables that the loop uses. -/
structure Unlinking (K V : Type) where
  pbalance : Option ℕ
  slots : ℕ → Option ℕ
  idx : ℤ
  tree : Avl K V

/-- The case of `http2d_avl_generic_del` with both children. -/
def unlinkBothPath (t : Avl K V) (node : ℕ) (parent : Option ℕ) (isLeft : Bool) (slots : ℕ → Option ℕ)
    (idx : ℤ) : Exec (Unlinking K V) := do
  let prev ← deref (t.nodes node).left
  let next ← deref (t.nodes node).right
  let oldIdx := idx+1
  let (s,nextp) ← t.loop (leftPathTurn t) (⟨next,slots,idx+1⟩,node)
  let slots ← pathSet s.slots oldIdx (some s.node)
  let pbalance ← pathGet slots s.idx
  let t ← (t.unlinkNext node s.node (if nextp ≠ node then [nextp] else [])).replaceNode node prev s.node
    parent isLeft
  .ok ⟨pbalance,slots,s.idx,t⟩

/-- How `http2d_avl_generic_del` takes a node out of the tree. -/
def unlinkPath (t : Avl K V) (node : ℕ) (parent : Option ℕ) (slots : ℕ → Option ℕ) (idx : ℤ) :
    Exec (Unlinking K V) :=
  let n := t.nodes node
  let isLeft := parent.any fun p => some node = (t.nodes p).left
  match n.leftChild, n.rightChild with
  | false, false => .ok ⟨parent,slots,idx,t.unlinkLeaf node parent isLeft⟩
  | false, true => do
    let tmp ← t.nodeNext node
    let t := t.modify tmp fun m => {m with left := n.left}
    .ok ⟨parent,slots,idx,t.relink parent isLeft n.right 1⟩
  | true, false => do
    let tmp ← t.nodePrev node
    let t := t.modify tmp fun m => {m with right := n.right}
    .ok ⟨parent,slots,idx,t.relink parent isLeft n.left 1⟩
  | true, true => t.unlinkBothPath node parent isLeft slots idx

/-- `http2d_avl_generic_del`. -/
def avlGenericDelPath (isEmpty : K → Bool) (cmp : K → K → ℤ) (t : Avl K V) (slots : ℕ → Option ℕ)
    (key : K) : Exec (Ret × Option V × Avl K V) :=
  if isEmpty key then .ok (.error,none,t)
  else
    match t.root with
    | none => .ok (.notFound,none,t)
    | some root => do
      match ← t.walkPath cmp slots key root with
      | (.noLeft,_) | (.noRight,_) => .ok (.notFound,none,t)
      | (.found,s) => do
        let parent ← pathGet s.slots (s.idx-1)
        let u ← t.unlinkPath s.node parent s.slots (s.idx-1)
        match u.pbalance with
        | none => .ok (.ok,some (t.value s.node),u.tree)
        | some pbalance => do
          let t' ← climbPath (fun b => b ≠ 0) (-1) u.slots u.tree pbalance u.idx
          .ok (.ok,some (t.value s.node),t')

section Slots
variable {slots slots' : ℕ → Option ℕ} {path spine : List ℕ} {base : ℕ} {p : ℕ}

/-- The slots from `base` on hold a list, its last element first. -/
def ShowsFrom (slots : ℕ → Option ℕ) (base : ℕ) : List ℕ → Prop
  | [] => True
  | p::path => slots (base+path.length) = some p ∧ ShowsFrom slots base path

/-- The array holds a path. -/
def ShowsPath (slots : ℕ → Option ℕ) (path : List ℕ) : Prop := slots 0 = none ∧ ShowsFrom slots 1 path

theorem ShowsFrom.congr (h : ShowsFrom slots base path)
    (hsame : ∀ i, base ≤ i → i < base+path.length → slots' i = slots i) : ShowsFrom slots' base path := by
  induction path with
  | nil => trivial
  | cons p path ih =>
    rw [List.length_cons] at hsame
    exact ⟨(hsame _ (by omega) (by omega)).trans h.1,ih h.2 fun i hi hlt => hsame i hi (by omega)⟩

theorem showsFrom_append : ShowsFrom slots base (spine++path) ↔
    ShowsFrom slots (base+path.length) spine ∧ ShowsFrom slots base path := by
  induction spine with
  | nil => simp [ShowsFrom]
  | cons p spine ih =>
    rw [List.cons_append,ShowsFrom,ShowsFrom,ih,List.length_append,and_assoc,
      show base+(spine.length+path.length) = base+path.length+spine.length by omega]

/-- A node is put on top of a path. -/
theorem ShowsPath.push (h : ShowsPath slots path) (p : ℕ) :
    ShowsPath (Function.update slots (path.length+1) (some p)) (p::path) := by
  refine ⟨(Function.update_of_ne (by omega) _ _).trans h.1,?_,
    h.2.congr fun i _ hlt => Function.update_of_ne (by omega) _ _⟩
  rw [Nat.add_comm,Function.update_self]

theorem pathGet_ok {i : ℕ} (hi : i < maxHeight) : pathGet slots i = .ok (slots i) := by
  rw [pathGet,if_pos ⟨by omega,by exact_mod_cast hi⟩,Int.toNat_natCast]

theorem pathSet_ok {i : ℕ} (hi : i < maxHeight) (node : Option ℕ) :
    pathSet slots i node = .ok (Function.update slots i node) := by
  rw [pathSet,if_pos ⟨by omega,by exact_mod_cast hi⟩,Int.toNat_natCast]

/-- The slot below the index holds the last node of the path. -/
theorem ShowsPath.get (h : ShowsPath slots path) (hlen : path.length < maxHeight) :
    pathGet slots path.length = .ok path.head? := by
  rw [pathGet_ok hlen]
  cases path with
  | nil => rw [List.length_nil,h.1,List.head?_nil]
  | cons p path => rw [List.length_cons,Nat.add_comm,h.2.1,List.head?_cons]

end Slots

section Loops
variable {t : Avl K V} {cmp : K → K → ℤ} {key : K} {slots : ℕ → Option ℕ} {path : List ℕ} {fuel : ℕ}

/-- The way up reads the slots of its path, and the one below. -/
theorem climbPath_run (done : ℤ → Bool) (change : ℤ) (hs : ShowsPath slots path)
    (hlen : path.length < maxHeight) (t : Avl K V) (node : ℕ) (hfuel : path.length < fuel) :
    WhileLoop.run (climbPathTurn done change slots) fuel (t,node,(path.length : ℤ)+1) =
      some (climb done change path t node) := by
  induction path generalizing t node fuel with
  | nil =>
    obtain ⟨n,rfl⟩ : ∃ n, fuel = n+1 := ⟨fuel-1,by omega⟩
    have hget := hs.get hlen
    refine run_stop ?_ n
    simp only [climbPathTurn,List.length_nil,Nat.cast_zero,zero_add,sub_self] at hget ⊢
    simp only [hget,List.head?_nil,Option.any_none,climb]
    cases t.restore none false node with
    | error h => rfl
    | ok r => rfl
  | cons p path ih =>
    obtain ⟨n,rfl⟩ : ∃ n, fuel = n+1 := ⟨fuel-1,by omega⟩
    have hget := hs.get hlen
    rw [List.length_cons] at hfuel hlen
    have hidx : (((p::path).length : ℕ) : ℤ)+1-1 = ((p::path).length : ℕ) := by omega
    rw [climb]
    cases hres : t.restore (some p) (decide ((t.nodes p).left = some node)) node with
    | error h =>
      refine run_stop ?_ n
      simp only [climbPathTurn,hidx,hget,List.head?_cons,Option.any_some,hres,error_bind]
    | ok r =>
      cases hdone : done (r.2.nodes r.1).balance with
      | true =>
        refine run_stop ?_ n
        simp only [climbPathTurn,hidx,hget,List.head?_cons,Option.any_some,hres,ok_bind,hdone,if_true]
      | false =>
        let link : AvlNode → AvlNode := fun n =>
          {n with balance := cshort (if (t.nodes p).left = some node then n.balance-change else n.balance+change)}
        have hturn : climbPathTurn done change slots (t,node,(((p::path).length : ℕ) : ℤ)+1) =
            .again (r.2.modify p link,p,(path.length : ℤ)+1) := by
          simp only [climbPathTurn,hidx,hget,List.head?_cons,Option.any_some,hres,hdone]
          simp [link]
        rw [run_again hturn,ih ⟨hs.1,hs.2.2⟩ (by omega) _ _ (by omega)]
        simp only [ok_bind,hdone,Bool.false_eq_true,if_false]
        rfl

theorem climbPath_eq (done : ℤ → Bool) (change : ℤ) (hs : ShowsPath slots path)
    (hlen : path.length < maxHeight) (t : Avl K V) (node : ℕ) :
    climbPath done change slots t node ((path.length : ℤ)+1) = climb done change path t node := by
  rw [climbPath,climbPath_run done change hs hlen t node (by omega)]
  rfl

/-- Both walks go on to the same node. -/
theorem walkTurn_again {s s' : ℕ × List ℕ} (h : walkTurn cmp t key s = .again s') :
    s'.2 = s.1::s.2 ∧ ∀ slots idx,
      walkPathTurn cmp t key ⟨s.1,slots,idx⟩ = pushTurn ⟨s.1,slots,idx⟩ (some s'.1) := by
  simp only [walkTurn] at h
  simp only [walkPathTurn]
  split_ifs at h ⊢ with h1 h2 h3 h4
  · cases hl : (t.nodes s.1).left <;> rw [hl] at h <;> cases h
    exact ⟨rfl,fun _ _ => rfl⟩
  · cases hr : (t.nodes s.1).right <;> rw [hr] at h <;> cases h
    exact ⟨rfl,fun _ _ => rfl⟩

theorem walkTurn_stop {s : ℕ × List ℕ} {w : Walk} (h : walkTurn cmp t key s = .stop (.ok w)) :
    w.path = s.2 ∧ ∀ slots idx,
      walkPathTurn cmp t key ⟨s.1,slots,idx⟩ = .stop (.ok (w.landing,⟨w.node,slots,idx⟩)) := by
  simp only [walkTurn] at h
  simp only [walkPathTurn]
  split_ifs at h ⊢ with h1 h2 h3 h4
  · cases hl : (t.nodes s.1).left <;> rw [hl] at h <;> cases h
  · cases h
    exact ⟨rfl,fun _ _ => rfl⟩
  · cases hr : (t.nodes s.1).right <;> rw [hr] at h <;> cases h
  · cases h
    exact ⟨rfl,fun _ _ => rfl⟩
  · cases h
    exact ⟨rfl,fun _ _ => rfl⟩

theorem pushTurn_ok {s : PathState} {i : ℕ} (hidx : s.idx = i) (hi : i < maxHeight) {R : Type} (p : ℕ) :
    pushTurn (R:=R) s (some p) =
      .again ⟨p,Function.update s.slots i (some s.node),(i+1 : ℕ)⟩ := by
  simp only [pushTurn,hidx,pathSet_ok hi,Nat.cast_add,Nat.cast_one]

/-- A walk only adds to its path. -/
theorem run_walk_length {s : ℕ × List ℕ} {w : Walk}
    (h : WhileLoop.run (walkTurn cmp t key) fuel s = some (.ok w)) : s.2.length ≤ w.path.length := by
  induction fuel generalizing s with
  | zero => cases h
  | succ n ih =>
    cases hturn : walkTurn cmp t key s with
    | stop r =>
      rw [run_stop hturn] at h
      cases h
      rw [(walkTurn_stop hturn).1]
    | again s' =>
      rw [run_again hturn] at h
      have hlen := ih h
      rw [(walkTurn_again hturn).1,List.length_cons] at hlen
      omega

/-- The walk with the array ends where the one with the list does. -/
theorem run_walkPath {p : ℕ} {w : Walk} (hs : ShowsPath slots path)
    (h : WhileLoop.run (walkTurn cmp t key) fuel (p,path) = some (.ok w)) (hlen : w.path.length < maxHeight) :
    ∃ slots', WhileLoop.run (walkPathTurn cmp t key) fuel ⟨p,slots,(path.length+1 : ℕ)⟩ =
      some (.ok (w.landing,⟨w.node,slots',(w.path.length+1 : ℕ)⟩)) ∧ ShowsPath slots' w.path := by
  induction fuel generalizing p path slots with
  | zero => cases h
  | succ n ih =>
    cases hturn : walkTurn cmp t key (p,path) with
    | stop r =>
      rw [run_stop hturn] at h
      cases h
      obtain ⟨hpath,hstop⟩ := walkTurn_stop hturn
      rw [hpath]
      exact ⟨slots,run_stop (hstop slots _) n,hs⟩
    | again s' =>
      rw [run_again hturn] at h
      obtain ⟨hpath,hagain⟩ := walkTurn_again hturn
      have hgrow := run_walk_length h
      obtain ⟨p',path'⟩ := s'
      obtain rfl : path' = p::path := hpath
      rw [List.length_cons] at hgrow
      obtain ⟨slots',hrun,hshows⟩ := ih (hs.push p) h
      have hpush := pushTurn_ok (s:=⟨p,slots,(path.length+1 : ℕ)⟩) rfl
        (by omega : path.length+1 < maxHeight) (R:=Landing × PathState) p'
      exact ⟨slots',(run_again ((hagain slots _).trans hpush) n).trans hrun,hshows⟩

theorem walkPath_eq {root : ℕ} {w : Walk} (h : t.walk cmp key root = .ok w)
    (hlen : w.path.length < maxHeight) (slots : ℕ → Option ℕ) :
    ∃ slots', t.walkPath cmp slots key root = .ok (w.landing,⟨w.node,slots',(w.path.length+1 : ℕ)⟩) ∧
      ShowsPath slots' w.path := by
  have hzero : pathSet slots 0 none = .ok (Function.update slots 0 none) :=
    pathSet_ok (i:=0) (by decide) none
  unfold walk loop at h
  cases hrun : WhileLoop.run (walkTurn cmp t key) (t.next+1) (root,[]) with
  | none =>
    rw [hrun] at h
    cases h
  | some r =>
    rw [hrun] at h
    obtain rfl : r = .ok w := h
    have hstart : ShowsPath (Function.update slots 0 none) [] := ⟨Function.update_self ..,trivial⟩
    obtain ⟨slots',hrun',hshows⟩ := run_walkPath hstart hrun hlen
    refine ⟨slots',?_,hshows⟩
    rw [walkPath,hzero,ok_bind]
    exact loop_eq hrun' le_rfl

/-- A run of that loop that returns either goes one node down or is at its end. -/
theorem run_left_cases {p x n : ℕ} {spine spine' : List ℕ}
    (h : WhileLoop.run (leftTurn t) (n+1) (p,spine) = some (.ok (x,spine'))) :
    (∃ d, (t.nodes p).leftChild = true ∧ (t.nodes p).left = some d ∧
      WhileLoop.run (leftTurn t) n (d,p::spine) = some (.ok (x,spine'))) ∨
    (t.nodes p).leftChild = false ∧ x = p ∧ spine' = spine := by
  cases hleft : (t.nodes p).leftChild with
  | true =>
    cases hptr : (t.nodes p).left with
    | none =>
      have hturn : leftTurn t (p,spine) = .stop (.error .fault) := by simp only [leftTurn,hleft,hptr,if_true]
      rw [run_stop hturn] at h
      cases h
    | some d =>
      have hturn : leftTurn t (p,spine) = .again (d,p::spine) := by simp only [leftTurn,hleft,hptr,if_true]
      rw [run_again hturn] at h
      exact Or.inl ⟨d,rfl,rfl,h⟩
  | false =>
    have hturn : leftTurn t (p,spine) = .stop (.ok (p,spine)) := by simp only [leftTurn,hleft]; rfl
    rw [run_stop hturn] at h
    cases h
    exact Or.inr ⟨rfl,rfl,rfl⟩

theorem run_left_length {p x : ℕ} {spine spine' : List ℕ}
    (h : WhileLoop.run (leftTurn t) fuel (p,spine) = some (.ok (x,spine'))) :
    spine.length ≤ spine'.length := by
  induction fuel generalizing p spine with
  | zero => cases h
  | succ n ih =>
    rcases run_left_cases h with ⟨d,-,-,hrest⟩ | ⟨-,-,rfl⟩
    · have hlen := ih hrest
      rw [List.length_cons] at hlen
      omega
    · exact le_rfl

/-- The way down to the next node with the array, whose slots from `base` on it fills. -/
theorem run_leftPath {p x base : ℕ} (node : ℕ) {spine spine' : List ℕ} (hs : ShowsFrom slots base spine)
    (h : WhileLoop.run (leftTurn t) fuel (p,spine) = some (.ok (x,spine')))
    (hlen : base+spine'.length ≤ maxHeight) :
    ∃ slots', WhileLoop.run (leftPathTurn t) fuel (⟨p,slots,(base : ℤ)+spine.length-1⟩,spine.headD node) =
        some (.ok (⟨x,slots',(base : ℤ)+spine'.length-1⟩,spine'.headD node)) ∧
      ShowsFrom slots' base spine' ∧ ∀ i < base, slots' i = slots i := by
  induction fuel generalizing p spine slots with
  | zero => cases h
  | succ n ih =>
    rcases run_left_cases h with ⟨d,hleft,hptr,hrest⟩ | ⟨hleft,rfl,rfl⟩
    · -- the slot is inside the array, for the way only gets longer
      have hgrow : spine.length+1 ≤ spine'.length := run_left_length hrest
      have hfront : ShowsFrom (Function.update slots (base+spine.length) (some p)) base (p::spine) :=
        ⟨Function.update_self ..,hs.congr fun i _ hlt => Function.update_of_ne (by omega) _ _⟩
      obtain ⟨slots',hrun,hshows,hsame⟩ := ih hfront hrest
      have hset : pathSet slots ((base : ℤ)+spine.length-1+1) (some p) =
          .ok (Function.update slots (base+spine.length) (some p)) := by
        have hidx : (base : ℤ)+spine.length-1+1 = (base+spine.length : ℕ) := by omega
        rw [hidx,pathSet_ok (by omega)]
      have hturn : leftPathTurn t (⟨p,slots,(base : ℤ)+spine.length-1⟩,spine.headD node) =
          .again (⟨d,Function.update slots (base+spine.length) (some p),(base : ℤ)+(p::spine).length-1⟩,p) := by
        simp only [leftPathTurn,hleft,if_true,hset,hptr,List.length_cons]
        congr 3
        push_cast
        ring
      refine ⟨slots',?_,hshows,fun i hi => (hsame i hi).trans (Function.update_of_ne (by omega) _ _)⟩
      rw [run_again hturn]
      exact hrun
    · exact ⟨slots,run_stop (by simp only [leftPathTurn,hleft]; rfl) n,hs,fun _ _ => rfl⟩

end Loops

open BinaryTree AvlTree SearchTree

section Deletion
variable {t t' : Avl K V} {slots : ℕ → Option ℕ} {path out : List ℕ} {node : ℕ}

/-- Of the nodes on the way to the next node only the last one counts. -/
theorem unlinkNext_headD {next : ℕ} {spine : List ℕ} (hnode : node ∉ spine) :
    t.unlinkNext node next (if spine.headD node ≠ node then [spine.headD node] else []) =
      t.unlinkNext node next spine := by
  cases spine with
  | nil => simp
  | cons n spine =>
    have hne : n ≠ node := fun h => hnode (h ▸ List.mem_cons_self)
    rw [List.headD_cons,if_pos hne]
    rfl

theorem loop_inv {S R : Type} {body : S → Turn S (Exec R)} {s : S} {r : R}
    (h : t.loop body s = .ok r) : WhileLoop.run body (t.next+1) s = some (.ok r) := by
  unfold loop at h
  cases hrun : WhileLoop.run body (t.next+1) s with
  | none =>
    rw [hrun] at h
    cases h
  | some r' =>
    rw [hrun] at h
    exact congrArg some h

/-- A node with two children is taken out in the same way with the array. -/
theorem unlinkBothPath_eq (hs : ShowsPath slots path) {isLeft : Bool}
    (h : t.unlinkBoth node path isLeft = .ok (out,t')) (hnode : node ∉ out)
    (hlen : out.length < maxHeight) :
    ∃ slots', t.unlinkBothPath node path.head? isLeft slots path.length =
        .ok ⟨out.head?,slots',out.length,t'⟩ ∧ ShowsPath slots' out := by
  unfold unlinkBoth at h
  obtain ⟨prev,hprev,h⟩ := bind_ok_inv h
  obtain ⟨right,hright,h⟩ := bind_ok_inv h
  obtain ⟨⟨next,spine⟩,hloop,h⟩ := bind_ok_inv h
  obtain ⟨u,hu,h⟩ := bind_ok_inv h
  cases h
  rw [List.length_append,List.length_cons] at hlen
  have hnone : ShowsFrom slots (path.length+2) [] := trivial
  obtain ⟨slots₁,hrun,hspine,hsame⟩ := run_leftPath node hnone (loop_inv hloop) (by omega)
  -- the slot of the removed node is filled when the next node is known
  have hshows : ShowsPath (Function.update slots₁ (path.length+1) (some next)) (spine++next::path) := by
    refine ⟨?_,showsFrom_append.mpr ⟨?_,?_,?_⟩⟩
    · rw [Function.update_of_ne (by omega),hsame 0 (by omega),hs.1]
    · rw [List.length_cons,show 1+(path.length+1) = path.length+2 by omega]
      exact hspine.congr fun i hi _ => Function.update_of_ne (by omega) _ _
    · rw [Nat.add_comm,Function.update_self]
    · exact hs.2.congr fun i _ hlt => (Function.update_of_ne (by omega) _ _).trans (hsame i (by omega))
  have hget := hshows.get (by rw [List.length_append,List.length_cons]; omega)
  have hset : pathSet slots₁ ((path.length : ℤ)+1) (some next) =
      .ok (Function.update slots₁ (path.length+1) (some next)) := by
    rw [← Nat.cast_succ,pathSet_ok (by omega)]
  have hstart : ((path.length+2 : ℕ) : ℤ)+([] : List ℕ).length-1 = (path.length : ℤ)+1 := by
    rw [List.length_nil]
    push_cast
    ring
  have hend : ((path.length+2 : ℕ) : ℤ)+spine.length-1 = (spine++next::path).length := by
    rw [List.length_append,List.length_cons]
    push_cast
    ring
  rw [hstart,hend,List.headD_nil] at hrun
  refine ⟨_,?_,hshows⟩
  simp only [unlinkBothPath,hprev,hright,ok_bind,loop_eq hrun le_rfl,hset,hget]
  rw [unlinkNext_headD fun hin => hnode (List.mem_append_left _ hin),hu]
  rfl

theorem unlinkPath_eq (hs : ShowsPath slots path) (h : t.unlink node path = .ok (out,t'))
    (hnode : node ∉ out) (hlen : out.length < maxHeight) :
    ∃ slots', t.unlinkPath node path.head? slots path.length = .ok ⟨out.head?,slots',out.length,t'⟩ ∧
      ShowsPath slots' out := by
  unfold unlink at h
  unfold unlinkPath
  simp only at h ⊢
  cases hl : (t.nodes node).leftChild <;> cases hr : (t.nodes node).rightChild <;> rw [hl,hr] at h <;>
    simp only at h ⊢
  · cases h
    exact ⟨slots,rfl,hs⟩
  · obtain ⟨tmp,htmp,h⟩ := bind_ok_inv h
    cases h
    exact ⟨slots,by rw [htmp]; rfl,hs⟩
  · obtain ⟨tmp,htmp,h⟩ := bind_ok_inv h
    cases h
    exact ⟨slots,by rw [htmp]; rfl,hs⟩
  · exact unlinkBothPath_eq hs h hnode hlen

/-- What the way up after a deletion begins with: the taken node is not on it, and it has fewer nodes than
the tree has levels. -/
theorem unlink_path {c : Context ℕ} {l r : BinaryTree ℕ}
    (hrep : Rep t.nodes none (c.plug (.node node l r)) none)
    (hnd : (c.plug (.node node l r)).toList.Nodup)
    (hsize : (c.plug (.node node l r)).toList.length ≤ t.next)
    (h : t.unlink node (c.map Frame.elem) = .ok (out,t')) :
    out.length < (c.plug (.node node l r)).height ∧ node ∉ out := by
  have hheight := Context.height_plug c (.node node l r)
  have hlong := Context.length_add_le_height c (BinaryTree.node node l r).height
  have hperm := Context.toList_plug_perm c (.node node l r)
  have hnames := hperm.nodup_iff.mp hnd
  have hlen := hperm.length_eq
  simp only [toList,List.nodup_append,List.nodup_cons,List.mem_append,List.mem_cons,
    List.length_append,List.length_cons] at hnames hlen
  have hout : node ∉ c.map Frame.elem := fun hin =>
    hnames.2.2 node (Or.inr (Or.inl rfl)) node (Context.elem_mem_names hin) rfl
  obtain ⟨⟨hq,_,hright⟩,_⟩ := (rep_plug _).1 hrep
  rw [height_node] at hheight hlong
  have hsame : out = c.map Frame.elem →
      out.length < (c.plug (.node node l r)).height ∧ node ∉ out := by
    rintro rfl
    rw [List.length_map]
    exact ⟨by omega,hout⟩
  unfold unlink at h
  simp only [hq,AvlNode.of] at h
  rcases l with _ | ⟨d,a,b⟩ <;> rcases r with _ | ⟨d',a',b'⟩
  · cases h
    exact hsame rfl
  · obtain ⟨tmp,-,h⟩ := bind_ok_inv h
    cases h
    exact hsame rfl
  · obtain ⟨tmp,-,h⟩ := bind_ok_inv h
    cases h
    exact hsame rfl
  · -- the next node has the place of the node, and the way to it is below
    obtain ⟨c₂,x,r',hplug,-,hrun⟩ := run_left hright.spans rfl []
    have hdeep := Context.length_add_le_height c₂ (BinaryTree.node x .nil r').height
    have hbelow := Context.toList_plug_perm c₂ (.node x .nil r')
    rw [← Context.height_plug,← hplug,height_node] at hdeep
    rw [← hplug] at hbelow
    have hptr : (t.nodes node).right = some d' := by rw [hq]; rfl
    have hlow := height_le_length (BinaryTree.node d' a' b')
    unfold unlinkBoth at h
    obtain ⟨prev,-,h⟩ := bind_ok_inv h
    rw [hptr,deref_some,ok_bind,loop_eq hrun (by omega),ok_bind] at h
    obtain ⟨u,-,h⟩ := bind_ok_inv h
    cases h
    rw [List.append_nil,List.length_append,List.length_cons,List.length_map,List.length_map]
    refine ⟨by omega,fun hin => ?_⟩
    have hnot : node ∉ (BinaryTree.node d' a' b').toList := hnames.1.2.1.1
    rcases List.mem_append.mp hin with hin | hin
    · exact hnot (hbelow.mem_iff.mpr (List.mem_append_right _ (Context.elem_mem_names hin)))
    · rcases List.mem_cons.mp hin with rfl | hin
      · exact hnot (hbelow.mem_iff.mpr (List.mem_append_left _ (by simp [toList])))
      · exact hout hin

end Deletion

section Whole
variable {t : Avl K V} {T : BinaryTree ℕ}

/-- The nodes that a walk has passed are fewer than the tree has levels. -/
theorem Shaped.walk_short (h : t.Shaped T) (cmp : K → K → ℤ) (key : K) {root : ℕ}
    (hroot : t.root = some root) : ∃ w, t.walk cmp key root = .ok w ∧ w.path.length < T.height := by
  rcases h.walked cmp key hroot with ⟨c,n,l,r,hwalk,rfl⟩ | ⟨f,c,hwalk,rfl⟩
  · refine ⟨_,hwalk,?_⟩
    have hlong := Context.length_add_le_height c (BinaryTree.node n l r).height
    rw [Context.height_plug]
    rw [height_node] at hlong ⊢
    simp only [walkEnd,Walk.path,List.length_map]
    omega
  · refine ⟨_,hwalk,?_⟩
    have hlong := Context.length_add_le_height (f::c) 0
    rw [Context.height_plug,height]
    cases f <;> simp only [walkEnd,Walk.path,List.length_map,List.length_cons] at hlong ⊢ <;> omega

/-- The insertion with the array does what it does with the list. -/
theorem nodeAddPath_eq (h : t.Shaped T) (hheight : T.height ≤ maxHeight) (cmp : K → K → ℤ)
    (slots : ℕ → Option ℕ) (child : ℕ) : nodeAddPath cmp t slots child = nodeAdd cmp t child := by
  unfold nodeAddPath nodeAdd
  cases hroot : t.root with
  | none => rfl
  | some root =>
    obtain ⟨w,hwalk,hshort⟩ := h.walk_short cmp (t.key child) hroot
    obtain ⟨slots',hpath,hshows⟩ := walkPath_eq hwalk (by omega) slots
    simp only [hwalk,hpath,ok_bind]
    cases w with
    | found n path => rfl
    | noLeft n path | noRight n path =>
      have hidx : ((path.length+1 : ℕ) : ℤ) = (path.length : ℤ)+1 := by push_cast; rfl
      simp only [Walk.landing,Walk.node,Walk.path] at hshows hshort ⊢
      rw [hidx,climbPath_eq _ _ hshows (by omega)]
      rfl

/-- The deletion with the array does what it does with the list. -/
theorem avlGenericDelPath_eq (h : t.Shaped T) (hheight : T.height ≤ maxHeight) (isEmpty : K → Bool)
    (cmp : K → K → ℤ) (slots : ℕ → Option ℕ) (key : K) :
    avlGenericDelPath isEmpty cmp t slots key = avlGenericDel isEmpty cmp t key ∧
      ∃ r, avlGenericDel isEmpty cmp t key = .ok r := by
  unfold avlGenericDelPath avlGenericDel
  by_cases hempty : isEmpty key
  · simp only [hempty,if_true]
    exact ⟨trivial,_,rfl⟩
  · rw [if_neg hempty,if_neg hempty]
    have hs := h.root
    cases hroot : t.root with
    | none => exact ⟨rfl,_,rfl⟩
    | some root =>
      obtain ⟨w,hwalk,hshort⟩ := h.walk_short cmp key hroot
      obtain ⟨slots',hpath,hshows⟩ := walkPath_eq hwalk (by omega) slots
      simp only [hwalk,hpath,ok_bind]
      rcases h.walked cmp key hroot with ⟨c,n,l,r,hwalk',rfl⟩ | ⟨f,c,hwalk',rfl⟩
      · obtain rfl : w = .found n (c.map Frame.elem) := Except.ok.inj (hwalk.symm.trans hwalk')
        simp only [Walk.landing,Walk.node,Walk.path] at hshows hshort ⊢
        have hidx : (((c.map Frame.elem).length+1 : ℕ) : ℤ)-1 = (c.map Frame.elem).length := by
          push_cast
          ring
        rw [hidx,hshows.get (by omega),ok_bind]
        rw [Context.root_plug] at hs
        obtain ⟨c',s,m,hun,hunlinked⟩ := unlink_spec h.rep hs h.avl h.nodup h.length_le
        obtain ⟨hless,hout⟩ := unlink_path h.rep h.nodup h.length_le hun
        obtain ⟨slots₂,hunPath,hshows₂⟩ := unlinkPath_eq hshows hun hout (by omega)
        have hnd : (c.before++(l.toList++r.toList)++c.after).Nodup := by
          have hnodup := h.nodup
          rw [Context.toList_plug] at hnodup
          refine hnodup.sublist (List.Sublist.append (List.Sublist.append (List.Sublist.refl _) ?_)
            (List.Sublist.refl _))
          exact List.Sublist.append (List.Sublist.refl _) (List.sublist_cons_self _ _)
        obtain ⟨T',m',-,-,-,hclimb⟩ := climbDel_spec (t:={t with nodes := m, root := c'.root s.root})
          hunlinked rfl hnd
        rw [hun,hunPath,ok_bind,ok_bind]
        cases hframes : c'.map Frame.elem with
        | nil => exact ⟨rfl,_,rfl⟩
        | cons pbalance path =>
          rw [hframes] at hshows₂ hless hclimb
          simp only [List.head?_cons,List.length_cons] at hclimb hless ⊢
          have hidx' : ((path.length+1 : ℕ) : ℤ) = (path.length : ℤ)+1 := by push_cast; rfl
          rw [hidx',climbPath_eq _ _ ⟨hshows₂.1,hshows₂.2.2⟩ (by omega)]
          exact ⟨rfl,_,congrArg (fun e : Exec (Avl K V) => e >>= fun t' =>
            Except.ok (Ret.ok,some (t.value n),t')) hclimb⟩
      · have hw : w = walkEnd (f::c,.nil) := Except.ok.inj (hwalk.symm.trans hwalk')
        cases f <;> rw [hw] <;> exact ⟨rfl,_,rfl⟩

end Whole

end Avl

open BinaryTree Avl

/-- No operation on a tree of this size uses a slot that the array does not have. -/
theorem path_in_bounds {K V : Type} (isEmpty : K → Bool) (cmp : K → K → ℤ) {t : Avl K V}
    {T : BinaryTree ℕ} (h : t.Shaped T) (hsize : T.toList.length < Nat.fib 48-1) (slots : ℕ → Option ℕ)
    (key : K) :
    (∃ r, nodeAddPath cmp (t.nodeNew key).2 slots (t.nodeNew key).1 = .ok r ∧
      nodeAdd cmp (t.nodeNew key).2 (t.nodeNew key).1 = .ok r) ∧
    ∃ r, avlGenericDelPath isEmpty cmp t slots key = .ok r ∧ avlGenericDel isEmpty cmp t key = .ok r := by
  have hheight := height_le_maxHeight h.avl hsize
  have hnew : (t.nodeNew key).2.Shaped T := h.alloc key t.value
  have hout : t.next ∉ T.toList := fun hp => (h.fresh _ hp).ne rfl
  constructor
  · rw [nodeAddPath_eq hnew hheight]
    have hchild : (t.nodeNew key).2.nodes t.next = .init := Function.update_self ..
    rcases nodeAdd_shaped hnew hout (Nat.lt_succ_self _) hchild with hadd | ⟨T',m,hadd,-,-⟩
    · exact ⟨_,hadd,hadd⟩
    · exact ⟨_,hadd,hadd⟩
  · obtain ⟨hdel,r,hr⟩ := avlGenericDelPath_eq h hheight isEmpty cmp slots key
    exact ⟨r,hdel.trans hr,hr⟩

theorem path_in_bounds_small :
    ∃ t : Avl ℕ Unit, t.root = some 1 ∧
      (∃ r, nodeAddPath natCmp (t.nodeNew 7).2 (fun _ => none) (t.nodeNew 7).1 = .ok r ∧
        nodeAdd natCmp (t.nodeNew 7).2 (t.nodeNew 7).1 = .ok r) ∧
      ∃ r, avlGenericDelPath (fun _ => false) natCmp t (fun _ => none) 7 = .ok r ∧
        avlGenericDel (fun _ => false) natCmp t 7 = .ok r := by
  let T : BinaryTree ℕ := .node 1 (.node 0 .nil .nil) (.node 2 .nil .nil)
  let t : Avl ℕ Unit := ⟨layOut (fun _ => .init) none T none,fun p => p+6,fun _ => (),3,some 1⟩
  have ht : t.Shaped T := ⟨layOut_rep _ none none (by decide),rfl,
    ⟨⟨trivial,trivial,by decide,by decide⟩,⟨trivial,trivial,by decide,by decide⟩,by decide,by decide⟩,
    by decide,by decide⟩
  have hsize : T.toList.length < Nat.fib 48-1 := by
    show 3 < Nat.fib 48-1
    norm_num
  exact ⟨t,rfl,path_in_bounds (fun _ => false) natCmp ht hsize (fun _ => none) 7⟩

end Http2d
