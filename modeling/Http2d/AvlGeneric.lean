import Http2d.Common
import Http2d.Library.WhileLoop

/-! The threaded AVL tree.
A node without a left child points to the node before it, and a node without a right child to the
node behind it. A node is an address in the memory of the tree, NULL is none, and following NULL
is a fault. The path that an operation saves on its way down is a list with the last node first. -/
namespace Http2d

open WhileLoop

/-- `http2d_avl_generic_node_t`, without the value; the balance is a `short`. -/
structure AvlNode where
  balance : ℤ
  left : Option ℕ
  right : Option ℕ
  leftChild : Bool
  rightChild : Bool
  deriving DecidableEq, Repr

/-- `http2d_avl_generic_node_init`. -/
def AvlNode.init : AvlNode := ⟨0,none,none,false,false⟩

/-- Conversion to the 16-bit `short`. -/
def cshort (n : ℤ) : ℤ := (n+2^15) % 2^16-2^15

/-- The numbers that are values of a `short`. -/
def IsShort (n : ℤ) : Prop := -2^15 ≤ n ∧ n < 2^15

theorem cshort_eq {n : ℤ} (h : IsShort n) : cshort n = n := by
  obtain ⟨h1,h2⟩ := h
  simp only [cshort]
  omega

theorem isShort_cshort (n : ℤ) : IsShort (cshort n) := by
  simp only [cshort,IsShort]
  omega

theorem cshort_eq_iff {n : ℤ} : cshort n = n ↔ IsShort n :=
  ⟨fun h => h ▸ isShort_cshort n,cshort_eq⟩

/-- What a pointer points to. -/
def deref : Option ℕ → Exec ℕ
  | some p => .ok p
  | none => .error .fault

@[simp] theorem deref_some (p : ℕ) : deref (some p) = .ok p := rfl

def modifyNode (m : ℕ → AvlNode) (p : ℕ) (f : AvlNode → AvlNode) : ℕ → AvlNode :=
  Function.update m p (f (m p))

@[simp] theorem modifyNode_self (m : ℕ → AvlNode) (p : ℕ) (f : AvlNode → AvlNode) :
    modifyNode m p f p = f (m p) := Function.update_self ..

@[simp] theorem modifyNode_of_ne (m : ℕ → AvlNode) {p q : ℕ} (f : AvlNode → AvlNode) (h : q ≠ p) :
    modifyNode m p f q = m q := Function.update_of_ne h ..

/-- `node_rotate_left`. -/
def nodeRotateLeft (m : ℕ → AvlNode) (node : ℕ) : Exec (ℕ × (ℕ → AvlNode)) := do
  let right ← deref (m node).right
  let m :=
    if (m right).leftChild then
      modifyNode m node fun n => {n with right := (m right).left}
    else
      modifyNode (modifyNode m node fun n => {n with rightChild := false, right := some right})
        right fun n => {n with leftChild := true}
  let m := modifyNode m right fun n => {n with left := some node}
  let aBal := (m node).balance
  let bBal := (m right).balance
  let newRight :=
    if bBal ≤ 0 then (if 1 ≤ aBal then bBal-1 else aBal+bBal-2)
    else if aBal ≤ bBal then aBal-2 else bBal-1
  let newNode := if bBal ≤ 0 then aBal-1 else aBal-bBal-1
  let m := modifyNode m right fun n => {n with balance := cshort newRight}
  .ok (right,modifyNode m node fun n => {n with balance := cshort newNode})

/-- `node_rotate_right`. -/
def nodeRotateRight (m : ℕ → AvlNode) (node : ℕ) : Exec (ℕ × (ℕ → AvlNode)) := do
  let left ← deref (m node).left
  let m :=
    if (m left).rightChild then
      modifyNode m node fun n => {n with left := (m left).right}
    else
      modifyNode (modifyNode m node fun n => {n with leftChild := false, left := some left})
        left fun n => {n with rightChild := true}
  let m := modifyNode m left fun n => {n with right := some node}
  let aBal := (m node).balance
  let bBal := (m left).balance
  let newLeft :=
    if bBal ≤ 0 then (if aBal < bBal then bBal+1 else aBal+2)
    else if aBal ≤ -1 then bBal+1 else aBal+bBal+2
  let newNode := if bBal ≤ 0 then aBal-bBal+1 else aBal+1
  let m := modifyNode m left fun n => {n with balance := cshort newLeft}
  .ok (left,modifyNode m node fun n => {n with balance := cshort newNode})

/-- `node_balance`. -/
def nodeBalance (m : ℕ → AvlNode) (node : ℕ) : Exec (ℕ × (ℕ → AvlNode)) :=
  if (m node).balance < -1 then do
    let left ← deref (m node).left
    if 0 < (m left).balance then do
      let (left,m) ← nodeRotateLeft m left
      nodeRotateRight (modifyNode m node fun n => {n with left := some left}) node
    else nodeRotateRight m node
  else if 1 < (m node).balance then do
    let right ← deref (m node).right
    if (m right).balance < 0 then do
      let (right,m) ← nodeRotateRight m right
      nodeRotateLeft (modifyNode m node fun n => {n with right := some right}) node
    else nodeRotateLeft m node
  else .ok (node,m)

/-- `http2d_avl_generic_t` with the memory of its nodes; no operation on pointers touches the key
or the value of a node, which are kept beside it. Nodes are allocated in order. -/
structure Avl (K V : Type) where
  nodes : ℕ → AvlNode
  key : ℕ → K
  value : ℕ → V
  next : ℕ
  root : Option ℕ

/-- How a walk for a key ends, with the nodes above the last one. -/
inductive Walk
  | found (node : ℕ) (path : List ℕ)
  | noLeft (node : ℕ) (path : List ℕ)
  | noRight (node : ℕ) (path : List ℕ)
  deriving DecidableEq, Repr

namespace Avl

variable {K V : Type}

/-- The empty tree, whatever the memory holds. -/
def init (nodes : ℕ → AvlNode) (key : ℕ → K) (value : ℕ → V) : Avl K V := ⟨nodes,key,value,0,none⟩

def modify (t : Avl K V) (p : ℕ) (f : AvlNode → AvlNode) : Avl K V :=
  {t with nodes := modifyNode t.nodes p f}

/-- A loop that goes down the tree; it cannot make more turns than there are nodes. -/
def loop {S R : Type} (t : Avl K V) (body : S → Turn S (Exec R)) (s : S) : Exec R :=
  (WhileLoop.run body (t.next+1) s).getD (.error .fault)

/-- One turn of the loops of `node_add`, `http2d_avl_generic_del` and `http2d_avl_generic_get`,
which all go down in this way. -/
def walkTurn (cmp : K → K → ℤ) (t : Avl K V) (key : K) (s : ℕ × List ℕ) :
    Turn (ℕ × List ℕ) (Exec Walk) :=
  let n := t.nodes s.1
  let re := cshort (cmp key (t.key s.1))
  if re < 0 then
    if n.leftChild then
      match n.left with
      | some p => .again (p,s.1::s.2)
      | none => .stop (.error .fault)
    else .stop (.ok (.noLeft s.1 s.2))
  else if 0 < re then
    if n.rightChild then
      match n.right with
      | some p => .again (p,s.1::s.2)
      | none => .stop (.error .fault)
    else .stop (.ok (.noRight s.1 s.2))
  else .stop (.ok (.found s.1 s.2))

def walk (cmp : K → K → ℤ) (t : Avl K V) (key : K) (root : ℕ) : Exec Walk :=
  t.loop (walkTurn cmp t key) (root,[])

/-- The part that the two loops on the way up share: `node` is balanced and linked again. -/
def restore (t : Avl K V) (parent : Option ℕ) (isLeft : Bool) (node : ℕ) : Exec (ℕ × Avl K V) :=
  if (t.nodes node).balance < -1 ∨ 1 < (t.nodes node).balance then do
    let (node,m) ← nodeBalance t.nodes node
    let t := {t with nodes := m}
    match parent with
    | none => .ok (node,{t with root := some node})
    | some p =>
      .ok (node,t.modify p fun n =>
        if isLeft then {n with left := some node} else {n with right := some node})
  else .ok (node,t)

/-- The loops on the way up: `done` says when the height is again what it was, and `change` is
what is taken from the balance of the parent when `node` is its left child. -/
def climb (done : ℤ → Bool) (change : ℤ) : List ℕ → Avl K V → ℕ → Exec (Avl K V)
  | [], t, node => do
    let (_,t) ← t.restore none false node
    .ok t
  | parent::path, t, node => do
    let isLeft := (t.nodes parent).left = some node
    let (node,t) ← t.restore (some parent) isLeft node
    if done (t.nodes node).balance then .ok t
    else
      climb done change path (t.modify parent fun n =>
        {n with balance := cshort (if isLeft then n.balance-change else n.balance+change)}) parent

/-- The loop at the end of `node_add`. -/
def climbAdd : List ℕ → Avl K V → ℕ → Exec (Avl K V) := climb (fun b => b = 0) 1

/-- The loop at the end of `http2d_avl_generic_del`. -/
def climbDel : List ℕ → Avl K V → ℕ → Exec (Avl K V) := climb (fun b => b ≠ 0) (-1)

/-- `node_add`. -/
def nodeAdd (cmp : K → K → ℤ) (t : Avl K V) (child : ℕ) : Exec (Ret × Avl K V) :=
  match t.root with
  | none => .ok (.ok,{t with root := some child})
  | some root => do
    match ← t.walk cmp (t.key child) root with
    | .found _ _ => .ok (.error,t)
    | .noLeft node path =>
      let t := t.modify child fun n =>
        {n with left := (t.nodes node).left, right := some node}
      let t := t.modify node fun n =>
        {n with left := some child, leftChild := true, balance := cshort (n.balance-1)}
      let t ← t.climbAdd path node
      .ok (.ok,t)
    | .noRight node path =>
      let t := t.modify child fun n =>
        {n with right := (t.nodes node).right, left := some node}
      let t := t.modify node fun n =>
        {n with right := some child, rightChild := true, balance := cshort (n.balance+1)}
      let t ← t.climbAdd path node
      .ok (.ok,t)

/-- A new node for `key`. -/
def nodeNew (t : Avl K V) (key : K) : ℕ × Avl K V :=
  (t.next,{t with
    nodes := Function.update t.nodes t.next .init
    key := Function.update t.key t.next key
    next := t.next+1})

/-- `http2d_avl_generic_add` of a node. -/
def avlGenericAdd (isEmpty : K → Bool) (cmp : K → K → ℤ) (t : Avl K V) (child : ℕ) (value : V) :
    Exec (Ret × Avl K V) :=
  if isEmpty (t.key child) then .ok (.error,t)
  else nodeAdd cmp {t with value := Function.update t.value child value} child

/-- A node is made for the key and added. -/
def add (isEmpty : K → Bool) (cmp : K → K → ℤ) (t : Avl K V) (key : K) (value : V) :
    Exec (Ret × Avl K V) :=
  let (child,t) := t.nodeNew key
  t.avlGenericAdd isEmpty cmp child value

/-- One turn of the way down to the first node, with the nodes above it. -/
def leftTurn (t : Avl K V) (s : ℕ × List ℕ) : Turn (ℕ × List ℕ) (Exec (ℕ × List ℕ)) :=
  if (t.nodes s.1).leftChild then
    match (t.nodes s.1).left with
    | some p => .again (p,s.1::s.2)
    | none => .stop (.error .fault)
  else .stop (.ok s)

/-- One turn of the way down to the last node. -/
def rightTurn (t : Avl K V) (node : ℕ) : Turn ℕ (Exec ℕ) :=
  if (t.nodes node).rightChild then
    match (t.nodes node).right with
    | some p => .again p
    | none => .stop (.error .fault)
  else .stop (.ok node)

/-- `node_next` of a node that has a right child. -/
def nodeNext (t : Avl K V) (node : ℕ) : Exec ℕ := do
  let tmp ← deref (t.nodes node).right
  let (tmp,_) ← t.loop (leftTurn t) (tmp,[])
  .ok tmp

/-- `node_prev` of a node that has a left child. -/
def nodePrev (t : Avl K V) (node : ℕ) : Exec ℕ := do
  let tmp ← deref (t.nodes node).left
  t.loop (rightTurn t) tmp

/-- The parent of a removed node gets `child` in its place, and a balance changed by `d`. -/
def relink (t : Avl K V) (parent : Option ℕ) (isLeft : Bool) (child : Option ℕ) (d : ℤ) : Avl K V :=
  match parent with
  | none => {t with root := child}
  | some p => t.modify p fun n =>
    if isLeft then {n with left := child, balance := cshort (n.balance+d)}
    else {n with right := child, balance := cshort (n.balance-d)}

/-- The case of `http2d_avl_generic_del` without children. -/
def unlinkLeaf (t : Avl K V) (node : ℕ) (parent : Option ℕ) (isLeft : Bool) : Avl K V :=
  match parent with
  | none => {t with root := none}
  | some p => t.modify p fun n =>
    if isLeft then
      {n with leftChild := false, left := (t.nodes node).left, balance := cshort (n.balance+1)}
    else {n with rightChild := false, right := (t.nodes node).right, balance := cshort (n.balance-1)}

/-- The next node is removed from its place; the spine holds the nodes that were passed on the way
to it from the right child of `node`, the last one first. -/
def unlinkNext (t : Avl K V) (node next : ℕ) (spine : List ℕ) : Avl K V :=
  match spine with
  | nextp::_ =>
    let t := t.modify nextp fun n =>
      if (t.nodes next).rightChild then {n with left := (t.nodes next).right}
      else {n with leftChild := false}
    let t := t.modify nextp fun n => {n with balance := cshort (n.balance+1)}
    t.modify next fun n => {n with rightChild := true, right := (t.nodes node).right}
  | [] => t.modify node fun n => {n with balance := cshort (n.balance-1)}

/-- The next node takes the place of `node`, whose left child is `prev`. -/
def replaceNode (t : Avl K V) (node prev next : ℕ) (parent : Option ℕ) (isLeft : Bool) :
    Exec (Avl K V) := do
  let prev ← t.loop (rightTurn t) prev
  let t := t.modify prev fun n => {n with right := some next}
  let t := t.modify next fun n =>
    {n with leftChild := true, left := (t.nodes node).left, balance := (t.nodes node).balance}
  .ok (t.relink parent isLeft (some next) 0)

/-- The case of `http2d_avl_generic_del` with both children. -/
def unlinkBoth (t : Avl K V) (node : ℕ) (path : List ℕ) (isLeft : Bool) :
    Exec (List ℕ × Avl K V) := do
  let prev ← deref (t.nodes node).left
  let right ← deref (t.nodes node).right
  let (next,spine) ← t.loop (leftTurn t) (right,[])
  let t ← (t.unlinkNext node next spine).replaceNode node prev next path.head? isLeft
  .ok (spine++next::path,t)

/-- How `http2d_avl_generic_del` takes a node out of the tree; the first node of the path that is
returned is the lowest one whose balance has changed. -/
def unlink (t : Avl K V) (node : ℕ) (path : List ℕ) : Exec (List ℕ × Avl K V) :=
  let n := t.nodes node
  let isLeft := path.head?.any fun p => some node = (t.nodes p).left
  match n.leftChild, n.rightChild with
  | false, false => .ok (path,t.unlinkLeaf node path.head? isLeft)
  | false, true => do
    let tmp ← t.nodeNext node
    let t := t.modify tmp fun m => {m with left := n.left}
    .ok (path,t.relink path.head? isLeft n.right 1)
  | true, false => do
    let tmp ← t.nodePrev node
    let t := t.modify tmp fun m => {m with right := n.right}
    .ok (path,t.relink path.head? isLeft n.left 1)
  | true, true => t.unlinkBoth node path isLeft

/-- `http2d_avl_generic_del`; the value is none when no node was found. -/
def avlGenericDel (isEmpty : K → Bool) (cmp : K → K → ℤ) (t : Avl K V) (key : K) :
    Exec (Ret × Option V × Avl K V) :=
  if isEmpty key then .ok (.error,none,t)
  else
    match t.root with
    | none => .ok (.notFound,none,t)
    | some root => do
      match ← t.walk cmp key root with
      | .noLeft _ _ | .noRight _ _ => .ok (.notFound,none,t)
      | .found node path => do
        let (path,t') ← t.unlink node path
        match path with
        | [] => .ok (.ok,some (t.value node),t')
        | pbalance::path => do
          let t' ← t'.climbDel path pbalance
          .ok (.ok,some (t.value node),t')

/-- `http2d_avl_generic_get`. -/
def avlGenericGet (isEmpty : K → Bool) (cmp : K → K → ℤ) (t : Avl K V) (key : K) :
    Exec (Ret × Option V) :=
  if isEmpty key then .ok (.error,none)
  else
    match t.root with
    | none => .ok (.notFound,none)
    | some root => do
      match ← t.walk cmp key root with
      | .noLeft _ _ | .noRight _ _ => .ok (.notFound,none)
      | .found node _ => .ok (.ok,some (t.value node))

end Avl
end Http2d
