import Http2d.Common
import Http2d.Library.Transition

/-! The adaptive replacement cache: two lists of cached entries and two lists of ghosts.
An entry that is evicted while clients hold it leaves the lists and stays in the lookup table.
The cache mutex is held throughout each operation, so an operation is one step. Entries are
numbered in the order of their allocation, the table is a finite map, and the hit counters are
left out. -/
namespace Http2d

/-- `http2d_cache_list_t`. -/
inductive CacheList
  | noList | t1 | t2 | b1 | b2
  deriving DecidableEq, Repr

/-- `http2d_cache_entry_t`; `live` is false before the allocation and after `free`. The count is an `int`
as long as there are fewer than `2^31` references. -/
structure CacheEntry where
  key : List UInt8
  inList : CacheList
  refCount : ℤ
  live : Bool

/-- `http2d_cache_t`; the most recently used entry of a list stands first. -/
structure Cache where
  map : List UInt8 → Option ℕ
  entries : ℕ → CacheEntry
  next : ℕ
  list : CacheList → List ℕ
  len : CacheList → ℤ
  maxSize : ℤ
  targetT1 : ℤ

namespace Cache

/-- `http2d_cache_init`, with the configured size. -/
def init (maxSize : ℤ) : Cache where
  map _ := none
  entries _ := ⟨[],.noList,0,false⟩
  next := 0
  list _ := []
  len _ := 0
  maxSize := maxSize
  targetT1 := 0

def setEntry (c : Cache) (p : ℕ) (e : CacheEntry) : Cache :=
  {c with entries := Function.update c.entries p e}

/-- `cache_list_add`. -/
def cacheListAdd (c : Cache) (L : CacheList) (p : ℕ) : Cache :=
  {c.setEntry p {c.entries p with inList := L} with
    list := Function.update c.list L (p::c.list L)
    len := Function.update c.len L (c.len L+1)}

/-- `cache_list_del`. -/
def cacheListDel (c : Cache) (L : CacheList) (p : ℕ) : Cache :=
  {c.setEntry p {c.entries p with inList := .noList} with
    list := Function.update c.list L ((c.list L).erase p)
    len := Function.update c.len L (c.len L-1)}

section Frame
variable (c : Cache) (L : CacheList) (p : ℕ)

@[simp] theorem cacheListAdd_len :
    (c.cacheListAdd L p).len = Function.update c.len L (c.len L+1) := rfl
@[simp] theorem cacheListAdd_maxSize : (c.cacheListAdd L p).maxSize = c.maxSize := rfl
@[simp] theorem cacheListAdd_targetT1 : (c.cacheListAdd L p).targetT1 = c.targetT1 := rfl
@[simp] theorem cacheListDel_len :
    (c.cacheListDel L p).len = Function.update c.len L (c.len L-1) := rfl
@[simp] theorem cacheListDel_maxSize : (c.cacheListDel L p).maxSize = c.maxSize := rfl
@[simp] theorem cacheListDel_targetT1 : (c.cacheListDel L p).targetT1 = c.targetT1 := rfl

end Frame

/-- `cache_list_get_lru`; the pointer stays NULL when the list is empty. -/
def cacheListGetLru (c : Cache) (L : CacheList) : Option ℕ := (c.list L).getLast?

/-- `cache_list_make_first`. -/
def cacheListMakeFirst (c : Cache) (L : CacheList) (p : ℕ) : Cache :=
  {c with list := Function.update c.list L (p::(c.list L).erase p)}

/-- `cache_list_swap`. -/
def cacheListSwap (c : Cache) (src dst : CacheList) (p : ℕ) : Cache :=
  (c.cacheListDel src p).cacheListAdd dst p

/-- `entry_ref`. -/
def entryRef (c : Cache) (p : ℕ) : Cache :=
  c.setEntry p {c.entries p with refCount := (c.entries p).refCount+1}

@[simp] theorem entryRef_len (c : Cache) (p : ℕ) : (c.entryRef p).len = c.len := rfl

/-- `entry_free`. -/
def entryFree (c : Cache) (p : ℕ) : Cache :=
  c.setEntry p {c.entries p with inList := .noList, live := false}

/-- `entry_unref_guts`. -/
def entryUnrefGuts (c : Cache) (p : ℕ) : Ret × Cache :=
  let c := c.setEntry p {c.entries p with refCount := (c.entries p).refCount-1}
  if 0 < (c.entries p).refCount then (.eagain,c)
  else
    let c := {c with map := Function.update c.map (c.entries p).key none}
    let c := if (c.entries p).inList = .noList then c else c.cacheListDel (c.entries p).inList p
    (.ok,c.entryFree p)

/-- The least recently used entry of `src` becomes the first of `dst`. -/
def demote (c : Cache) (src dst : CacheList) : Cache :=
  match c.cacheListGetLru src with
  | none => c
  | some tmp => (c.cacheListDel src tmp).cacheListAdd dst tmp

/-- `replace`; `x` is the ghost that was hit, if any. -/
def replace (c : Cache) (x : Option ℕ) : Cache :=
  if 1 ≤ c.len .t1 ∧ (c.targetT1 < c.len .t1 ∨
      c.len .t1 = c.targetT1 ∧ (x.any fun p => (c.entries p).inList = .b2)) then
    c.demote .t1 .b1
  else c.demote .t2 .b2

/-- How `on_new_added` removes the last entry of a list: there is no test for a NULL entry. -/
def dropLru (c : Cache) (L : CacheList) : Exec Cache :=
  match c.cacheListGetLru L with
  | none => .error .fault
  | some tmp => .ok ((c.cacheListDel L tmp).entryUnrefGuts tmp).2

/-- `on_new_added`. -/
def onNewAdded (cache : Cache) : Exec Cache :=
  let c := cuint cache.maxSize
  let lenL1 := cuint (cache.len .t1+cache.len .b1)
  let lenL2 := cuint (cache.len .t2+cache.len .b2)
  let totalLen := cuint ((lenL1 : ℤ)+lenL2)
  if c ≤ lenL1 then
    if cuint (cache.len .t1) < c then do
      let cache ← cache.dropLru .b1
      .ok (cache.replace none)
    else cache.dropLru .t1
  else if lenL1 < c ∧ c ≤ totalLen then do
    let cache ← if cuint (2*(c : ℤ)) ≤ totalLen then cache.dropLru .b2 else .ok cache
    .ok (cache.replace none)
  else .ok cache

/-- What `update_ghost_b1` and `update_ghost_b2` do once the target is adapted and the outcome
`ret` of the fetch is known: it takes `ret_ok` to move the ghost to T2. -/
def updateGhost (c : Cache) (b : CacheList) (target : ℤ) (ret : Ret) (p : ℕ) : Ret × Cache :=
  let c := ({c with targetT1 := target} : Cache).replace (some p)
  if ret = .ok then (.ok,c.cacheListSwap b .t2 p) else (ret,c)

/-- `update_ghost_b1`; the division is an integer division by a length. -/
def updateGhostB1 (c : Cache) (p : ℕ) (fetch : Ret) : Exec (Ret × Cache) :=
  if c.len .b1 = 0 then .error .fault
  else
    let target := min c.maxSize (c.targetT1+max 1 ((c.len .b2).tdiv (c.len .b1)))
    let ret := match fetch with
      | .ok | .deny | .okAndSent => Ret.ok
      | .error | .noSys | .notFound => fetch
      | _ => .error
    .ok (c.updateGhost .b1 target ret p)

/-- `update_ghost_b2`. -/
def updateGhostB2 (c : Cache) (p : ℕ) (fetch : Ret) : Exec (Ret × Cache) :=
  if c.len .b2 = 0 then .error .fault
  else
    let target := max 0 (c.targetT1-max 1 ((c.len .b1).tdiv (c.len .b2)))
    let ret := match fetch with
      | .ok | .deny => Ret.ok
      | .error | .noSys => fetch
      | _ => .error
    .ok (c.updateGhost .b2 target ret p)

/-- `update_cache`; `fetch` is what the fetch callback would return. -/
def updateCache (c : Cache) (p : ℕ) (fetch : Ret) : Exec (Ret × Cache) :=
  let ghost (r : Exec (Ret × Cache)) : Exec (Ret × Cache) := do
    let (ret,c) ← r
    .ok (if ret = .ok ∨ ret = .noSys then ret else .error,c)
  match (c.entries p).inList with
  | .t1 => .ok (.ok,c.cacheListSwap .t1 .t2 p)
  | .t2 => .ok (.ok,c.cacheListMakeFirst .t2 p)
  | .b1 => ghost (c.updateGhostB1 p fetch)
  | .b2 => ghost (c.updateGhostB2 p fetch)
  | .noList => .ok (.error,c)

/-- A fresh entry for `key`, as `http2d_cache_entry_init` leaves it. -/
def newEntry (c : Cache) (key : List UInt8) : ℕ × Cache :=
  (c.next,{c.setEntry c.next ⟨key,.noList,0,true⟩ with next := c.next+1})

/-- `http2d_avl_add`. -/
def avlAdd (c : Cache) (key : List UInt8) (p : ℕ) : Cache :=
  {c with map := Function.update c.map key (some p)}

/-- `http2d_cache_get`: the return code, the entry that the caller gets, and the cache. The
callback that makes an entry gives none when `newOk` is false; an empty key is no valid key. -/
def get (c : Cache) (key : List UInt8) (newOk : Bool) (fetch : Ret) :
    Exec (Ret × Option ℕ × Cache) :=
  if key = [] then .ok (.error,none,c)
  else
    match c.map key with
    | some p =>
      if (c.entries p).inList = .noList then
        .ok (.ok,some p,((c.entryRef p).cacheListAdd .t1 p).entryRef p)
      else do
        let (ret,c) ← c.updateCache p fetch
        .ok (ret,some p,c.entryRef p)
    | none => do
      let c ← c.onNewAdded
      if newOk = false then .ok (.error,none,c)
      else
        let (p,c) := c.newEntry key
        let c := (c.avlAdd key p).entryRef p
        .ok (.ok,some p,(c.cacheListAdd .t1 p).entryRef p)

end Cache

/-- What the clients of the cache can do. -/
inductive CacheAct
  | get (client : ℕ) (key : List UInt8) (newOk : Bool) (fetch : Ret)
  | unref (client entry : ℕ)

/-- The cache and the references that each client has got and not yet given back. -/
structure CacheSys where
  cache : Cache
  held : List (ℕ × ℕ)

namespace CacheSys

def init (maxSize : ℤ) : CacheSys := ⟨Cache.init maxSize,[]⟩

/-- One call of a client; none when the client does not hold what it would give back, or when
the call does not return. -/
def step (s : CacheSys) : CacheAct → Option CacheSys
  | .get client key newOk fetch =>
    match s.cache.get key newOk fetch with
    | .ok (_,some p,c) => some ⟨c,(client,p)::s.held⟩
    | .ok (_,none,c) => some ⟨c,s.held⟩
    | .error _ => none
  | .unref client p =>
    if (client,p) ∈ s.held then some ⟨(s.cache.entryUnrefGuts p).2,s.held.erase (client,p)⟩
    else none

end CacheSys

end Http2d
