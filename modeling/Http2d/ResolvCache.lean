import Http2d.AddressList
import Http2d.AvlTraversal
import Http2d.Library.Lifetime

/-! The cache of resolved names.
Its table and its entries are in memory, where a block that was given back keeps its contents; that
it is read or written then shows in the log. No address is used twice. -/
namespace Http2d
open Lifetime WhileLoop

/-- What the cache allocates. -/
inductive ResolvBlock
  | node (p : ℕ) | entry (e : ℕ)
  deriving DecidableEq

/-- `http2d_resolv_cache_t`, with the memory of its entries; the values of the table are addresses of
entries. -/
structure ResolvCache where
  table : Avl (List UInt8) ℕ
  entries : ℕ → ResolvEntry
  made : ℕ
  log : List (Event ResolvBlock Empty)

/-- A call of the interface, with the answer that the resolver has for the domain at that time. -/
inductive ResolvCall
  | getIpstr (domain : List UInt8) (answer : Option (List AddrInfo))
  | getAddrinfo (domain : List UInt8) (answer : Option (List AddrInfo))
  | getHost (domain : List UInt8) (answer : Option (List AddrInfo)) (sock : SocketAddr)
  | clean

/-- The domain that a call looks up, with the answer. -/
def ResolvCall.asks : ResolvCall → Option (List UInt8 × Option (List AddrInfo))
  | .getIpstr domain answer | .getAddrinfo domain answer | .getHost domain answer _ => some (domain,answer)
  | .clean => none

/-- What a call returns, with what it leaves at the addresses that it was given. -/
inductive ResolvReply
  | ipstr (ret : Ret) (ip : Option BufText)
  | addrinfo (ret : Ret) (addr : Option (List AddrInfo))
  | host (ret : Ret) (sock : SocketAddr)
  | clean (ret : Ret)
  deriving DecidableEq

namespace ResolvCache

/-- `http2d_resolv_cache_init`: the memory is as it is. -/
def init (c : ResolvCache) : ResolvCache := {c with table := {c.table with root := none}}

def logs (c : ResolvCache) (l : List (Event ResolvBlock Empty)) : ResolvCache := {c with log := c.log ++ l}

/-- Nodes of the table are read or written. -/
def useNodes (c : ResolvCache) (ps : List ℕ) : ResolvCache := c.logs (ps.map fun p => .use (.node p))

def useEntry (c : ResolvCache) (e : ℕ) : ResolvCache := c.logs [.use (.entry e)]

/-- `node_free` of avl_generic.c. -/
def nodeFree (c : ResolvCache) (p : ℕ) : ResolvCache := c.logs [.use (.node p),.release (.node p)]

/-- `entry_new`, which makes the entry at `c.made`. -/
def entryNew (c : ResolvCache) : ResolvCache := {c with made := c.made+1}.useEntry c.made

def setEntry (c : ResolvCache) (e : ℕ) (n : ResolvEntry) : ResolvCache :=
  {c with entries := Function.update c.entries e n}

/-- `entry_free`. -/
def entryFree (c : ResolvCache) (e : ℕ) : ResolvCache := c.logs [.use (.entry e),.release (.entry e)]

/-- `http2d_avl_add` with the table, which reads what the search for the key reads and writes what is
then different; a node whose key is there already is given back. -/
def avlAdd (c : ResolvCache) (domain : List UInt8) (e : ℕ) : Exec ResolvCache :=
  match c.table.add nodeIsEmpty (nodeCmp true) domain e with
  | .error h => .error h
  | .ok (ret,t) =>
    let written := (List.range t.next).filter fun p => t.nodes p ≠ c.table.nodes p
    let c' := {c with table := t}.useNodes
      (c.table.next::c.table.visits nodeIsEmpty (nodeCmp true) domain ++ written)
    .ok (if ret ≠ .ok ∧ nodeIsEmpty domain = false then c'.nodeFree c.table.next else c')

section Calls
variable (inetNtop : ℤ → List UInt8 → Option (List UInt8))

/-- `table_add_new_entry`; what `http2d_avl_add` returns is not looked at. -/
def tableAddNewEntry (c : ResolvCache) (domain : List UInt8) (answer : Option (List AddrInfo)) :
    Exec (Ret × Option ℕ) × ResolvCache :=
  let e := c.made
  let c := c.entryNew
  match entryFillUp inetNtop .new answer with
  | .error h => (.error h,c)
  | .ok (ret,n) =>
    let c := c.setEntry e n
    if ret ≠ .ok then (.ok (ret,none),c.entryFree e)
    else
      match c.avlAdd domain e with
      | .error h => (.error h,c)
      | .ok c => (.ok (.ok,some e),c)

/-- What `http2d_resolv_cache_get_ipstr` and `http2d_resolv_cache_get_addrinfo` begin with: the entry of
the domain, which is made when the table has none. -/
def findEntry (c : ResolvCache) (domain : List UInt8) (answer : Option (List AddrInfo)) :
    Exec (Ret × Option ℕ) × ResolvCache :=
  let c := c.useNodes (c.table.visits nodeIsEmpty (nodeCmp true) domain)
  match c.table.avlGenericGet nodeIsEmpty (nodeCmp true) domain with
  | .error h => (.error h,c)
  | .ok (.ok,some e) => (.ok (.ok,some e),c.useEntry e)
  | .ok _ => c.tableAddNewEntry inetNtop domain answer

/-- `http2d_resolv_cache_get_ipstr`. -/
def getIpstr (c : ResolvCache) (domain : List UInt8) (answer : Option (List AddrInfo)) :
    Exec ResolvReply × ResolvCache :=
  match c.findEntry inetNtop domain answer with
  | (.error h,c) => (.error h,c)
  | (.ok (ret,found),c) => (.ok (.ipstr ret (found.map fun e => (c.entries e).ipStr)),c)

/-- `http2d_resolv_cache_get_addrinfo`. -/
def getAddrinfo (c : ResolvCache) (domain : List UInt8) (answer : Option (List AddrInfo)) :
    Exec (Ret × Option (List AddrInfo)) × ResolvCache :=
  match c.findEntry inetNtop domain answer with
  | (.error h,c) => (.error h,c)
  | (.ok (ret,found),c) => (.ok (ret,found.map fun e => (c.entries e).addr),c)

/-- `http2d_resolv_cache_get_host`. -/
def getHost (c : ResolvCache) (domain : List UInt8) (answer : Option (List AddrInfo)) (sock : SocketAddr) :
    Exec ResolvReply × ResolvCache :=
  match c.getAddrinfo inetNtop domain answer with
  | (.error h,c) => (.error h,c)
  | (.ok (ret,addr),c) =>
    if ret ≠ .ok then (.ok (.host ret sock),c)
    else ((updateFromAddrinfo sock (addr.getD []) 0).map fun r => .host r.1 r.2,c)

end Calls

/-- A turn of the loop of `http2d_avl_mrproper` with `entry_free`; the next node is read before the node
is given back. -/
def mrproperTurn (s : ResolvCache × Option ℕ) : Turn (ResolvCache × Option ℕ) (Exec ResolvCache) :=
  match s.2 with
  | none => .stop (.ok s.1)
  | some node =>
    match s.1.table.nodeAfter node with
    | .error h => .stop (.error h)
    | .ok (next,seen) =>
      .again (((s.1.useNodes seen).entryFree (s.1.table.value node)).nodeFree node,next)

/-- `http2d_avl_mrproper` of the table. -/
def avlMrproper (c : ResolvCache) : Exec ResolvCache := do
  let (node,seen) ← c.table.nodeFirst
  c.table.loop mrproperTurn (c.useNodes seen,node)

/-- `http2d_resolv_cache_clean`. -/
def clean (c : ResolvCache) : Exec ResolvReply × ResolvCache :=
  match c.avlMrproper with
  | .error h => (.error h,c)
  | .ok c => (.ok (.clean .ok),c)

/-- One call; the lock has no part in calls that come one after another. -/
def call (inetNtop : ℤ → List UInt8 → Option (List UInt8)) (c : ResolvCache) :
    ResolvCall → Exec ResolvReply × ResolvCache
  | .getIpstr domain answer => c.getIpstr inetNtop domain answer
  | .getAddrinfo domain answer =>
    match c.getAddrinfo inetNtop domain answer with
    | (.error h,c) => (.error h,c)
    | (.ok (ret,addr),c) => (.ok (.addrinfo ret addr),c)
  | .getHost domain answer sock => c.getHost inetNtop domain answer sock
  | .clean => c.clean

/-- What calls return one after another, up to one that does not return. -/
def replies (inetNtop : ℤ → List UInt8 → Option (List UInt8)) (c : ResolvCache) :
    List ResolvCall → List (Exec ResolvReply)
  | [] => []
  | a::as =>
    match c.call inetNtop a with
    | (.error h,_) => [.error h]
    | (.ok r,c) => .ok r::c.replies inetNtop as

/-- All of these calls return, and they lead from `c` to `c'`. -/
def Returns (inetNtop : ℤ → List UInt8 → Option (List UInt8)) (c : ResolvCache) :
    List ResolvCall → ResolvCache → Prop
  | [], c' => c = c'
  | a::as, c' => ∃ r, (c.call inetNtop a).1 = .ok r ∧ (c.call inetNtop a).2.Returns inetNtop as c'

/-- What was logged since. -/
def since (c c' : ResolvCache) : List (Event ResolvBlock Empty) := c'.log.drop c.log.length

end ResolvCache

/-- A lookup of an empty domain, which does not come to the nodes of the table. -/
def ResolvCall.Spares (a : ResolvCall) : Prop := ∃ answer, a.asks = some ([],answer)

/-- After each clean the cache is as new: no call touches what the clean gave back, and the calls return
what they return from a cache that was just initialised. -/
def CleansForReuse (inetNtop : ℤ → List UInt8 → Option (List UInt8)) (c : ResolvCache)
    (as : List ResolvCall) : Prop :=
  ∀ front later s s', as = front ++ .clean::later → c.Returns inetNtop front s →
    s.Returns inetNtop [.clean] s' →
    (∀ mid a back u, later = mid ++ a::back → s'.Returns inetNtop mid u →
      ∀ b, .release b ∈ s.since s' →
        .use b ∉ u.since (u.call inetNtop a).2 ∧ .release b ∉ u.since (u.call inetNtop a).2) ∧
    s'.replies inetNtop later = s'.init.replies inetNtop later

/-- A clean that finds the table filled is followed by nothing but lookups of empty domains. -/
def FilledOnlyToEnd (inetNtop : ℤ → List UInt8 → Option (List UInt8)) (c : ResolvCache)
    (as : List ResolvCall) : Prop :=
  ∀ front mid a back s u, as = front ++ .clean::(mid ++ a::back) → c.Returns inetNtop front s →
    s.table.root ≠ none → s.Returns inetNtop (.clean::mid) u → a.Spares

namespace ResolvCache
open BinaryTree AvlTree

variable {inetNtop : ℤ → List UInt8 → Option (List UInt8)} {c c' : ResolvCache} {T : BinaryTree ℕ}

@[simp] theorem logs_table (l : List (Event ResolvBlock Empty)) : (c.logs l).table = c.table := rfl
@[simp] theorem logs_log (l : List (Event ResolvBlock Empty)) : (c.logs l).log = c.log ++ l := rfl
@[simp] theorem logs_nil : c.logs [] = c := by rw [logs,List.append_nil]
@[simp] theorem logs_logs (l l' : List (Event ResolvBlock Empty)) :
    (c.logs l).logs l' = c.logs (l ++ l') := by rw [logs,logs,logs,List.append_assoc]

@[simp] theorem since_logs (l : List (Event ResolvBlock Empty)) : c.since (c.logs l) = l := by
  rw [since,logs_log,List.drop_left]

/-- The table is a tree whose nodes have entries. -/
structure Inv (c : ResolvCache) (T : BinaryTree ℕ) : Prop where
  shaped : c.table.Shaped T
  made : ∀ p ∈ T.toList, c.table.value p < c.made

theorem init_eq (h : c.table.root = none) : c.init = c := by
  have htable : {c.table with root := none} = c.table := by rw [← h]
  rw [init,htable]

theorem inv_init (c : ResolvCache) : c.init.Inv .nil :=
  ⟨Avl.shaped_nil rfl,by simp [toList]⟩

theorem Inv.logs (h : c.Inv T) (l : List (Event ResolvBlock Empty)) : (c.logs l).Inv T :=
  ⟨h.shaped,h.made⟩

/-- What was given back, in this order. -/
def released (l : List (Event ResolvBlock Empty)) : List ResolvBlock :=
  l.filterMap fun e =>
    match e with
    | .release b => some b
    | _ => none

theorem mem_released {l : List (Event ResolvBlock Empty)} {b : ResolvBlock} :
    b ∈ released l ↔ .release b ∈ l := by
  simp only [released,List.mem_filterMap]
  constructor
  · rintro ⟨e,he,heq⟩
    cases e with
    | release b' =>
      cases heq
      exact he
    | use b' => cases heq
    | note n => cases heq
  · exact fun h => ⟨_,h,rfl⟩

theorem released_append (l l' : List (Event ResolvBlock Empty)) :
    released (l ++ l') = released l ++ released l' := List.filterMap_append

theorem released_uses (ps : List ℕ) : released (ps.map fun p => .use (.node p)) = [] := by
  simp [released]

/-- The loop from a node on: it gives this node and those behind it back, each behind its entry. -/
theorem mrproperTurn_run (h : c.table.Shaped T) {before suffix : List ℕ}
    (hsplit : T.toList = before ++ suffix) :
    ∃ l, WhileLoop.run mrproperTurn (suffix.length+1) (c,suffix.head?) = some (.ok (c.logs l)) ∧
      released l = suffix.flatMap fun p => [.entry (c.table.value p),.node p] := by
  induction suffix generalizing before c with
  | nil => exact ⟨[],by simp [WhileLoop.run,mrproperTurn],rfl⟩
  | cons p suffix ih =>
    obtain ⟨seen,hafter,-⟩ := h.after hsplit
    have hturn : mrproperTurn (c,some p) =
        .again (((c.useNodes seen).entryFree (c.table.value p)).nodeFree p,suffix.head?) := by
      simp only [mrproperTurn,hafter]
    have hrest : T.toList = (before ++ [p]) ++ suffix := by
      rw [hsplit,List.append_assoc]
      rfl
    obtain ⟨l,hrun,hl⟩ := ih (c:=((c.useNodes seen).entryFree (c.table.value p)).nodeFree p) h hrest
    rw [List.length_cons,List.head?_cons,run_again hturn,hrun]
    simp only [useNodes,entryFree,nodeFree,logs_logs]
    refine ⟨_,rfl,?_⟩
    rw [released_append,released_append,released_append,released_uses,hl]
    rfl

/-- `http2d_avl_mrproper` gives every node and every entry of the table back, once; the table stays as
it is. -/
theorem clean_spec (h : c.table.Shaped T) : ∃ l, c.clean = (.ok (.clean .ok),c.logs l) ∧
    released l = T.toList.flatMap (fun p => [.entry (c.table.value p),.node p]) ∧
    ∀ p, c.table.root = some p → .use (.node p) ∈ l := by
  obtain ⟨seen,hfirst,-,hroot⟩ := h.first
  obtain ⟨l,hrun,hl⟩ := mrproperTurn_run (c:=c.useNodes seen) h (List.nil_append T.toList).symm
  have hloop := Avl.loop_eq (t:=c.table) hrun (Nat.succ_le_succ h.length_le)
  refine ⟨seen.map (fun p => .use (.node p)) ++ l,?_,?_,fun p hp => ?_⟩
  · simp only [clean,avlMrproper,hfirst,ok_bind,hloop]
    rw [useNodes,logs_logs]
  · rw [released_append,released_uses,hl]
    rfl
  · exact List.mem_append_left _ (List.mem_map_of_mem (hroot p hp))

/-- What every call keeps: the shape of the table, and that no address is used again. -/
structure Advances (c c' : ResolvCache) : Prop where
  inv : (∃ T, c.Inv T) → ∃ T, c'.Inv T
  made : c.made ≤ c'.made
  next : c.table.next ≤ c'.table.next

theorem advances_refl (c : ResolvCache) : c.Advances c := ⟨id,le_rfl,le_rfl⟩

theorem Advances.trans {c'' : ResolvCache} (h : c.Advances c') (h' : c'.Advances c'') : c.Advances c'' :=
  ⟨fun hi => h'.inv (h.inv hi),h.made.trans h'.made,h.next.trans h'.next⟩

theorem advances_logs (c : ResolvCache) (l : List (Event ResolvBlock Empty)) : c.Advances (c.logs l) :=
  ⟨fun ⟨T,h⟩ => ⟨T,h.logs l⟩,le_rfl,le_rfl⟩

theorem advances_clean (h : c.table.Shaped T) : c.Advances c.clean.2 := by
  obtain ⟨l,hclean,-⟩ := clean_spec h
  rw [hclean]
  exact advances_logs c l

/-- The addition returns, and the nodes of the table have entries after it. -/
theorem avlAdd_spec (h : c.Inv T) (domain : List UInt8) {e : ℕ} (he : e < c.made) :
    ∃ c', c.avlAdd domain e = .ok c' ∧ (∃ T', c'.Inv T') ∧ c'.made = c.made ∧
      c'.table.next = c.table.next+1 := by
  obtain ⟨ret,t',T',hadd,hshaped,hnext,hvalue⟩ := h.shaped.add nodeIsEmpty (nodeCmp true) domain e
  have hinv (l : List (Event ResolvBlock Empty)) : ({c with table := t'}.logs l).Inv T' := by
    refine ⟨hshaped,fun p hp => ?_⟩
    rcases hvalue p hp with hv | ⟨hp,hv⟩
    · exact hv ▸ he
    · exact hv ▸ h.made p hp
  unfold avlAdd
  rw [hadd]
  refine ⟨_,rfl,⟨T',?_⟩,?_,?_⟩
  · split_ifs
    · simp only [nodeFree,useNodes,logs_logs]
      exact hinv _
    · exact hinv _
  · split_ifs <;> rfl
  · split_ifs <;> exact hnext

theorem advances_of_inv (h : c'.Inv T) (hmade : c.made ≤ c'.made)
    (hnext : c.table.next ≤ c'.table.next) : c.Advances c' := ⟨fun _ => ⟨T,h⟩,hmade,hnext⟩

theorem tableAddNewEntry_advances (inetNtop : ℤ → List UInt8 → Option (List UInt8)) (h : c.Inv T)
    (domain : List UInt8) (answer : Option (List AddrInfo)) :
    c.Advances (c.tableAddNewEntry inetNtop domain answer).2 := by
  have hnew : c.entryNew.Inv T := ⟨h.shaped,fun p hp => (h.made p hp).trans (Nat.lt_succ_self _)⟩
  have hadv : c.Advances c.entryNew := advances_of_inv hnew (Nat.le_succ _) le_rfl
  unfold tableAddNewEntry
  cases hfill : entryFillUp inetNtop .new answer with
  | error e => exact hadv
  | ok r =>
    obtain ⟨ret,n⟩ := r
    have hset : (c.entryNew.setEntry c.made n).Inv T := ⟨hnew.shaped,hnew.made⟩
    by_cases hret : ret = .ok
    · obtain ⟨c',hadd,⟨T',hinv⟩,hmade,hnext⟩ := avlAdd_spec hset domain (Nat.lt_succ_self c.made)
      simp only [hret,ne_eq,not_true_eq_false,if_false,hadd]
      exact advances_of_inv hinv (hmade.symm ▸ Nat.le_succ _) (hnext.symm ▸ Nat.le_succ _)
    · simp only [ne_eq,hret,not_false_eq_true,if_true]
      have hfree : ((c.entryNew.setEntry c.made n).entryFree c.made).Inv T := ⟨hnew.shaped,hnew.made⟩
      exact hadv.trans (advances_of_inv hfree le_rfl le_rfl)

/-- A lookup keeps the cache in shape, whether it returns or not. -/
theorem findEntry_advances (inetNtop : ℤ → List UInt8 → Option (List UInt8)) (h : c.Inv T)
    (domain : List UInt8) (answer : Option (List AddrInfo)) :
    c.Advances (c.findEntry inetNtop domain answer).2 := by
  obtain ⟨⟨ret,found⟩,hget⟩ := h.shaped.get nodeIsEmpty (nodeCmp true) domain
  have hinv := h.logs ((c.table.visits nodeIsEmpty (nodeCmp true) domain).map fun p => .use (.node p))
  have hseen := advances_logs c
    ((c.table.visits nodeIsEmpty (nodeCmp true) domain).map fun p => .use (.node p))
  unfold findEntry
  simp only [useNodes,logs_table,hget]
  split
  case h_1 heq => cases heq
  case h_2 => exact hseen.trans (advances_logs _ _)
  case h_3 => exact hseen.trans (tableAddNewEntry_advances inetNtop hinv domain answer)

/-- What a lookup does to the cache is what it does to find the entry. -/
theorem call_asks {a : ResolvCall} {domain : List UInt8} {answer : Option (List AddrInfo)}
    (ha : a.asks = some (domain,answer)) :
    (c.call inetNtop a).2 = (c.findEntry inetNtop domain answer).2 := by
  rcases hfind : c.findEntry inetNtop domain answer with ⟨e | ⟨ret,found⟩,c'⟩
  · cases a <;> cases ha <;> simp only [call,getIpstr,getHost,getAddrinfo,hfind]
  · cases a with
    | clean => cases ha
    | getIpstr domain answer =>
      cases ha
      simp only [call,getIpstr,hfind]
    | getAddrinfo domain answer =>
      cases ha
      simp only [call,getAddrinfo,hfind]
    | getHost domain answer sock =>
      cases ha
      simp only [call,getHost,getAddrinfo,hfind]
      split_ifs <;> rfl

theorem call_advances (inetNtop : ℤ → List UInt8 → Option (List UInt8)) (h : c.Inv T) (a : ResolvCall) :
    c.Advances (c.call inetNtop a).2 := by
  rcases hask : a.asks with _ | ⟨domain,answer⟩
  · cases a <;> cases hask
    exact advances_clean h.shaped
  · rw [call_asks hask]
    exact findEntry_advances inetNtop h domain answer

theorem Returns.advances {as : List ResolvCall} (h : c.Returns inetNtop as c') (hinv : c.Inv T) :
    c.Advances c' := by
  induction as generalizing c T with
  | nil =>
    obtain rfl : c = c' := h
    exact advances_refl c
  | cons a as ih =>
    obtain ⟨r,-,hrest⟩ := h
    have hadv := call_advances inetNtop hinv a
    obtain ⟨T',hinv'⟩ := hadv.inv ⟨T,hinv⟩
    exact hadv.trans (ih hrest hinv')

theorem avlAdd_log {domain : List UInt8} {e : ℕ} (h : c.avlAdd domain e = .ok c') :
    ∃ l, c'.log = c.log ++ l := by
  unfold avlAdd at h
  split at h
  · cases h
  · rw [← Except.ok.inj h]
    split_ifs
    · exact ⟨_,List.append_assoc _ _ _⟩
    · exact ⟨_,rfl⟩

theorem tableAddNewEntry_log (domain : List UInt8) (answer : Option (List AddrInfo)) :
    ∃ l, (c.tableAddNewEntry inetNtop domain answer).2.log = c.log ++ l := by
  unfold tableAddNewEntry
  cases hfill : entryFillUp inetNtop .new answer with
  | error e => exact ⟨_,rfl⟩
  | ok r =>
    by_cases hret : r.1 = .ok
    · cases hadd : (c.entryNew.setEntry c.made r.2).avlAdd domain c.made with
      | error e =>
        simp only [hret,ne_eq,not_true_eq_false,if_false,hadd]
        exact ⟨_,rfl⟩
      | ok c' =>
        obtain ⟨l,hl⟩ := avlAdd_log hadd
        simp only [hret,ne_eq,not_true_eq_false,if_false,hadd]
        exact ⟨_,hl.trans (List.append_assoc _ _ _)⟩
    · simp only [ne_eq,hret,not_false_eq_true,if_true]
      exact ⟨_,List.append_assoc _ _ _⟩

/-- A lookup reads the root of the table, unless it is for an empty domain. -/
theorem findEntry_uses_root (h : c.Inv T) {domain : List UInt8} (hdomain : domain ≠ []) {p : ℕ}
    (hroot : c.table.root = some p) (answer : Option (List AddrInfo)) :
    .use (.node p) ∈ c.since (c.findEntry inetNtop domain answer).2 := by
  have hkey : nodeIsEmpty domain = false := by
    simpa [nodeIsEmpty,List.length_eq_zero_iff] using hdomain
  have hvisit := h.shaped.root_mem_visits (nodeCmp true) hkey hroot
  have hgrows : ∃ l, (c.findEntry inetNtop domain answer).2.log =
      (c.useNodes (c.table.visits nodeIsEmpty (nodeCmp true) domain)).log ++ l := by
    unfold findEntry
    dsimp only
    split
    · exact ⟨[],(List.append_nil _).symm⟩
    · exact ⟨_,rfl⟩
    · exact tableAddNewEntry_log domain answer
  obtain ⟨l,hl⟩ := hgrows
  rw [since,hl,useNodes,logs_log,List.append_assoc,List.drop_left]
  exact List.mem_append_left _ (List.mem_map_of_mem hvisit)

/-- The nodes that the addition of an empty domain writes, which are only the new one. -/
def newNodes (t : Avl (List UInt8) ℕ) : List ℕ :=
  t.next::(List.range (t.next+1)).filter fun p => (t.nodeNew []).2.nodes p ≠ t.nodes p

theorem mem_newNodes {t : Avl (List UInt8) ℕ} {p : ℕ} (hp : p ∈ newNodes t) : p = t.next := by
  rcases List.mem_cons.mp hp with h | h
  · exact h
  · by_contra hne
    have hdiff := (List.mem_filter.mp h).2
    simp [Avl.nodeNew,hne] at hdiff

/-- The addition of an empty domain makes a node, and leaves it alone. -/
theorem avlAdd_nil (c : ResolvCache) (e : ℕ) : c.avlAdd [] e =
    .ok ({c with table := (c.table.nodeNew []).2}.useNodes (newNodes c.table)) := by
  have hadd : c.table.add nodeIsEmpty (nodeCmp true) [] e = .ok (.error,(c.table.nodeNew []).2) := by
    simp [Avl.add,Avl.avlGenericAdd,Avl.nodeNew,nodeIsEmpty]
  unfold avlAdd
  rw [hadd]
  rfl

/-- A lookup of an empty domain finds nothing. -/
theorem findEntry_nil (c : ResolvCache) (answer : Option (List AddrInfo)) :
    c.findEntry inetNtop [] answer = c.tableAddNewEntry inetNtop [] answer := by
  have hget : c.table.avlGenericGet nodeIsEmpty (nodeCmp true) [] = .ok (.error,none) := rfl
  have hvisits : c.table.visits nodeIsEmpty (nodeCmp true) [] = [] := rfl
  unfold findEntry
  simp only [hvisits,useNodes,List.map_nil,logs_nil,hget]

/-- It does not look at the root of the table either. -/
theorem tableAddNewEntry_nil (inetNtop : ℤ → List UInt8 → Option (List UInt8)) (c : ResolvCache)
    (answer : Option (List AddrInfo)) :
    c.init.tableAddNewEntry inetNtop [] answer = ((c.tableAddNewEntry inetNtop [] answer).1,
      (c.tableAddNewEntry inetNtop [] answer).2.init) ∧
    (c.tableAddNewEntry inetNtop [] answer).2.table.root = c.table.root ∧
    ∃ l, (c.tableAddNewEntry inetNtop [] answer).2.log = c.log ++ l ∧
      ∀ x ∈ l, x = .use (.node c.table.next) ∨ x = .use (.entry c.made) ∨ x = .release (.entry c.made) := by
  unfold tableAddNewEntry
  cases hfill : entryFillUp inetNtop .new answer with
  | error e => exact ⟨rfl,rfl,_,rfl,by simp⟩
  | ok r =>
    by_cases hret : r.1 = .ok
    · simp only [hret,ne_eq,not_true_eq_false,if_false,avlAdd_nil]
      refine ⟨rfl,rfl,_,List.append_assoc _ _ _,fun x hx => ?_⟩
      rcases List.mem_append.mp hx with hx | hx
      · exact Or.inr (Or.inl (List.mem_singleton.mp hx))
      · obtain ⟨p,hp,rfl⟩ := List.mem_map.mp hx
        exact Or.inl (by rw [mem_newNodes hp]; rfl)
    · simp only [ne_eq,hret,not_false_eq_true,if_true]
      exact ⟨rfl,rfl,_,List.append_assoc _ _ _,by simp⟩

theorem call_spares (inetNtop : ℤ → List UInt8 → Option (List UInt8)) {a : ResolvCall} (ha : a.Spares)
    (c : ResolvCache) :
    c.init.call inetNtop a = ((c.call inetNtop a).1,(c.call inetNtop a).2.init) ∧
    (c.call inetNtop a).2.table.root = c.table.root ∧
    ∃ l, (c.call inetNtop a).2.log = c.log ++ l ∧
      ∀ x ∈ l, x = .use (.node c.table.next) ∨ x = .use (.entry c.made) ∨ x = .release (.entry c.made) := by
  obtain ⟨answer,hask⟩ := ha
  have hnil := tableAddNewEntry_nil inetNtop c answer
  rw [← findEntry_nil,← findEntry_nil] at hnil
  refine ⟨?_,call_asks hask ▸ hnil.2⟩
  have hsame := hnil.1
  rcases hfind : c.findEntry inetNtop [] answer with ⟨e | ⟨ret,found⟩,d⟩
  · rw [hfind] at hsame
    cases a <;> cases hask <;> simp only [call,getIpstr,getHost,getAddrinfo,hfind,hsame]
  · rw [hfind] at hsame
    cases a with
    | clean => cases hask
    | getIpstr domain answer =>
      cases hask
      simp only [call,getIpstr,hfind,hsame]
      rfl
    | getAddrinfo domain answer =>
      cases hask
      simp only [call,getAddrinfo,hfind,hsame]
      rfl
    | getHost domain answer sock =>
      cases hask
      simp only [call,getHost,getAddrinfo,hfind,hsame]
      split_ifs <;> rfl

/-- A call that is not such a lookup reads the root of a table that is filled. -/
theorem call_uses_root (h : c.Inv T) {a : ResolvCall} (ha : ¬ a.Spares) {p : ℕ}
    (hroot : c.table.root = some p) : .use (.node p) ∈ c.since (c.call inetNtop a).2 := by
  rcases hask : a.asks with _ | ⟨domain,answer⟩
  · cases a <;> cases hask
    obtain ⟨l,hclean,-,huse⟩ := clean_spec h.shaped
    rw [call,hclean,since_logs]
    exact huse p hroot
  · rw [call_asks hask]
    refine findEntry_uses_root h (fun hnil => ha ⟨answer,?_⟩) hroot answer
    rw [hask,hnil]

/-- Such a lookup does not touch what is older than the nodes and entries that it makes. -/
theorem spares_avoids {a : ResolvCall} (ha : a.Spares) {b : ResolvBlock}
    (hnode : ∀ p, b = .node p → p < c.table.next) (hentry : ∀ e, b = .entry e → e < c.made) :
    .use b ∉ c.since (c.call inetNtop a).2 ∧ .release b ∉ c.since (c.call inetNtop a).2 := by
  obtain ⟨-,-,l,hlog,hl⟩ := call_spares inetNtop ha c
  rw [since,hlog,List.drop_left]
  constructor
  · intro hmem
    rcases hl _ hmem with he | he | he
    · cases he
      exact lt_irrefl _ (hnode _ rfl)
    · cases he
      exact lt_irrefl _ (hentry _ rfl)
    · cases he
  · intro hmem
    rcases hl _ hmem with he | he | he
    · cases he
    · cases he
    · cases he
      exact lt_irrefl _ (hentry _ rfl)

/-- Lookups of empty domains return the same whatever the root of the table is. -/
theorem replies_init {as : List ResolvCall}
    (h : ∀ mid a back u, as = mid ++ a::back → c.Returns inetNtop mid u → a.Spares) :
    c.replies inetNtop as = c.init.replies inetNtop as := by
  induction as generalizing c with
  | nil => rfl
  | cons a as ih =>
    have hsame := (call_spares inetNtop (h [] a as c rfl rfl) c).1
    rcases hcall : c.call inetNtop a with ⟨e | r,d⟩
    · rw [hcall] at hsame
      simp only [replies,hcall,hsame]
    · rw [hcall] at hsame
      simp only [replies,hcall,hsame]
      rw [ih fun mid b back u hsplit hret => h (a::mid) b back u (by rw [hsplit]; rfl)
        ⟨r,by rw [hcall],by rw [hcall]; exact hret⟩]

/-- While no call touches the root of the table, all calls are lookups of empty domains. -/
theorem spares_of_untouched {mid : List ResolvCall} (a : ResolvCall) (back : List ResolvCall)
    {u : ResolvCache} {p : ℕ} (hinv : c.Inv T) (hroot : c.table.root = some p)
    (hret : c.Returns inetNtop mid u)
    (huntouched : ∀ mid' b back' d, mid ++ a::back = mid' ++ b::back' → c.Returns inetNtop mid' d →
      .use (.node p) ∉ d.since (d.call inetNtop b).2) : a.Spares := by
  induction mid generalizing c T with
  | nil =>
    obtain rfl : c = u := hret
    by_contra ha
    exact huntouched [] a back c rfl rfl (call_uses_root hinv ha hroot)
  | cons b mid ih =>
    obtain ⟨r,hr,hret⟩ := hret
    have hb : b.Spares := by
      by_contra hb
      exact huntouched [] b (mid ++ a::back) c rfl rfl (call_uses_root hinv hb hroot)
    obtain ⟨T',hinv'⟩ := (call_advances inetNtop hinv b).inv ⟨T,hinv⟩
    refine ih hinv' ((call_spares inetNtop hb c).2.1.trans hroot) hret fun mid' b' back' d hsplit hd => ?_
    exact huntouched (b::mid') b' back' d (by rw [List.cons_append,hsplit]; rfl) ⟨r,hr,hd⟩

end ResolvCache

open ResolvCache BinaryTree AvlTree

variable {inetNtop : ℤ → List UInt8 → Option (List UInt8)} {c : ResolvCache} {as : List ResolvCall}

theorem cleansForReuse_of_filledOnlyToEnd {T : BinaryTree ℕ} (hinv : c.Inv T)
    (h : FilledOnlyToEnd inetNtop c as) : CleansForReuse inetNtop c as := by
  intro front later s s' hsplit hfront hclean
  obtain ⟨T',hs⟩ := (hfront.advances hinv).inv ⟨T,hinv⟩
  obtain ⟨l,hrun,hl,-⟩ := clean_spec hs.shaped
  obtain rfl : s.logs l = s' := by
    obtain ⟨r,-,hs'⟩ := hclean
    have hsnd : (s.call inetNtop .clean).2 = s.logs l := by rw [call,hrun]
    exact hsnd.symm.trans hs'
  by_cases hroot : s.table.root = none
  · -- nothing is given back, and the cache is as new
    have hnil : T' = .nil := by
      cases T' with
      | nil => rfl
      | node p a b => cases hs.shaped.root.symm.trans hroot
    subst hnil
    refine ⟨fun mid a back u _ _ b hb => ?_,?_⟩
    · rw [since_logs,← mem_released,hl] at hb
      cases hb
    · rw [init_eq (c:=s.logs l) hroot]
  · have hspares (mid : List ResolvCall) (a : ResolvCall) (back : List ResolvCall) (u : ResolvCache)
        (hlater : later = mid ++ a::back) (hu : (s.logs l).Returns inetNtop mid u) : a.Spares :=
      h front mid a back s u (by rw [hsplit,hlater]) hfront hroot
        ⟨.clean .ok,by rw [call,hrun],by rw [call,hrun]; exact hu⟩
    refine ⟨fun mid a back u hlater hu b hb => ?_,replies_init hspares⟩
    have hadv := hu.advances (hs.logs l)
    rw [since_logs,← mem_released,hl] at hb
    obtain ⟨p,hp,hb⟩ := List.mem_flatMap.mp hb
    have hnext : p < u.table.next := (hs.shaped.fresh p hp).trans_le hadv.next
    have hmade : s.table.value p < u.made := (hs.made p hp).trans_le hadv.made
    refine spares_avoids (hspares mid a back u hlater hu) (fun q hq => ?_) (fun e he => ?_)
    · subst hq
      simp only [List.mem_cons,reduceCtorEq,ResolvBlock.node.injEq,List.not_mem_nil,or_false,false_or] at hb
      rwa [hb]
    · subst he
      simp only [List.mem_cons,reduceCtorEq,ResolvBlock.entry.injEq,List.not_mem_nil,or_false] at hb
      rwa [hb]

theorem filledOnlyToEnd_of_cleansForReuse {T : BinaryTree ℕ} (hinv : c.Inv T)
    (h : CleansForReuse inetNtop c as) : FilledOnlyToEnd inetNtop c as := by
  intro front mid a back s u hsplit hfront hroot hret
  obtain ⟨T',hs⟩ := (hfront.advances hinv).inv ⟨T,hinv⟩
  obtain ⟨l,hrun,hl,-⟩ := clean_spec hs.shaped
  have hsnd : (s.call inetNtop .clean).2 = s.logs l := by rw [call,hrun]
  obtain ⟨r,hr,hret⟩ := hret
  rw [hsnd] at hret
  obtain ⟨p,hp⟩ := Option.ne_none_iff_exists'.mp hroot
  have hfreed : .release (.node p) ∈ s.since (s.logs l) := by
    rw [since_logs,← mem_released,hl]
    exact List.mem_flatMap.mpr ⟨p,root_mem (hs.shaped.root.symm.trans hp),by simp⟩
  refine spares_of_untouched a back (hs.logs l) hp hret fun mid' b back' d hlater hd => ?_
  exact ((h front (mid ++ a::back) s (s.logs l) hsplit hfront ⟨r,hr,hsnd⟩).1 mid' b back' d hlater hd _
    hfreed).1

/-- The cache can be used again after a clean exactly when the clean had nothing to do: the table keeps
its root. -/
theorem cleansForReuse_iff (inetNtop : ℤ → List UInt8 → Option (List UInt8)) (c : ResolvCache)
    (as : List ResolvCall) : CleansForReuse inetNtop c.init as ↔ FilledOnlyToEnd inetNtop c.init as :=
  ⟨filledOnlyToEnd_of_cleansForReuse (inv_init c),cleansForReuse_of_filledOnlyToEnd (inv_init c)⟩

/-- A table without entries, in memory that holds nothing. -/
def noEntries : ResolvCache :=
  ⟨.init (fun _ => .init) (fun _ => []) fun _ => 0,fun _ => .new,0,[]⟩

/-- The name `a`, and the answer 127.0.0.1 for it. -/
def lookupA : ResolvCall := .getIpstr [97] (some [⟨2,16,[2,0,0,0,127,0,0,1,0,0,0,0,0,0,0,0]⟩])

/-- The second lookup of a name reads the node that the clean gave back. -/
theorem not_cleansForReuse_lookup :
    ¬ CleansForReuse (fun _ _ => some [49]) noEntries.init [lookupA,.clean,lookupA] := by
  intro h
  let s := (noEntries.init.call (fun _ _ => some [49]) lookupA).2
  have hfront : noEntries.init.Returns (fun _ _ => some [49]) [lookupA] s := ⟨_,rfl,rfl⟩
  have hclean : s.Returns (fun _ _ => some [49]) [.clean] (s.call (fun _ _ => some [49]) .clean).2 :=
    ⟨_,rfl,rfl⟩
  have huntouched := (h [lookupA] [lookupA] s _ rfl hfront hclean).1 [] lookupA [] _ rfl rfl (.node 0)
    (by decide)
  exact huntouched.1 (by decide)

end Http2d
