import Http2d.CacheReferences

/-! The I/O cache: a cache whose entries keep the `stat` of a file and a mapping of it.
The operations of the cache are written again with what their callbacks do to the cached data.
The time has whole seconds and a flag for a fraction of one, as `ev_now` is compared with whole
seconds. What the system calls answer comes with the call. -/
namespace Http2d

/-- The error numbers that are told apart. -/
inductive Errno
  | eacces | enoent | enotdir | eagain | enomem | enfile | other
  deriving DecidableEq, Repr

/-- `mmaped`: `NULL`, `MAP_FAILED` or an address. -/
inductive Mmaped
  | null | failed | address
  deriving DecidableEq, Repr

/-- `http2d_iocache_entry_t` without its base; `info` has one flag for each bit. -/
structure IoEntry where
  infoStat : Bool
  infoMmap : Bool
  stSize : ℤ
  stIsReg : Bool
  stateRet : ℤ
  mmaped : Mmaped
  mmapedLen : ℤ
  statExpiration : ℤ
  mmapExpiration : ℤ

/-- `http2d_iocache_info_t`. -/
structure IoInfo where
  stat : Bool
  mmap : Bool

/-- What the system answers during one update; the second `stat` is made when the first one is no
longer fresh. -/
structure IoEnv where
  now : ℤ
  fraction : Bool
  stat : Except Errno (ℤ × Bool)
  statAgain : Except Errno (ℤ × Bool)
  openFile : Except Errno ℤ
  mmap : Except Errno Unit

/-- The limits of `http2d_iocache_t`. -/
structure IoLimits where
  maxFileSize : ℕ
  minFileSize : ℕ
  lastingMmap : ℕ
  lastingStat : ℕ

namespace IoEntry

/-- The data of a new entry. -/
def new : IoEntry := ⟨false,false,0,false,Ret.ok.code,.null,0,0,0⟩

/-- `clean_info_cb`. -/
def cleanInfo (e : IoEntry) : IoEntry :=
  let e := {e with infoStat := false, infoMmap := false, stateRet := 123456}
  let e := if e.mmaped = .null then e else {e with mmaped := .null, mmapedLen := 0}
  {e with mmapExpiration := 0, statExpiration := 0}

/-- The whole seconds of an expiration are not before the time. -/
def fresh (env : IoEnv) (expiration : ℤ) : Bool :=
  env.now < expiration ∨ env.now = expiration ∧ env.fraction = false

/-- `ioentry_update_stat`; `stat` is what the system call answers. -/
def updateStat (limits : IoLimits) (env : IoEnv) (stat : Except Errno (ℤ × Bool)) (e : IoEntry) :
    Ret × IoEntry :=
  if fresh env e.statExpiration then
    (if e.stateRet = Ret.ok.code then .okAndSent else .deny,e)
  else
    let (ret,e) := match stat with
      | .ok (size,isReg) => (Ret.ok,{e with stSize := size, stIsReg := isReg})
      | .error .eacces => (.deny,e)
      | .error .enoent | .error .enotdir => (.notFound,e)
      | .error _ => (.error,e)
    (if ret = .ok then .ok else .deny,
      {e with
        statExpiration := env.now+limits.lastingStat
        stateRet := ret.code
        infoStat := true})

/-- `ioentry_update_mmap`; `fd` is none for a NULL pointer. -/
def updateMmap (limits : IoLimits) (env : IoEnv) (fd : Option ℤ) (e : IoEntry) :
    Ret × Option ℤ × IoEntry :=
  if fresh env e.mmapExpiration then (.ok,fd,e)
  else if e.stIsReg = false then (.deny,fd,{e with infoMmap := false})
  else
    let opened := if 0 ≤ fd.getD (-1) then .ok (fd.getD (-1)) else env.openFile
    match opened with
    | .error err =>
      let ret := match err with
        | .eacces => Ret.deny
        | .enoent | .enotdir => .notFound
        | _ => .error
      (ret,fd,{e with
        statExpiration := env.now+limits.lastingStat
        stateRet := ret.code
        infoMmap := false})
    | .ok fdLocal =>
      let fd := fd.map fun _ => fdLocal
      let e := if e.mmaped = .null then e else {e with mmaped := .null, mmapedLen := 0}
      match env.mmap with
      | .error err =>
        let ret := match err with
          | .eagain | .enomem | .enfile => Ret.eagain
          | _ => .notFound
        (ret,fd,{e with mmaped := .failed, infoMmap := false})
      | .ok _ => (.ok,fd,{e with
          mmaped := .address
          mmapedLen := e.stSize
          mmapExpiration := env.now+limits.lastingMmap
          infoMmap := true})

/-- `entry_update_fd`. -/
def updateFd (limits : IoLimits) (env : IoEnv) (refCount : ℤ) (info : IoInfo) (fd : Option ℤ)
    (e : IoEntry) : Ret × Option ℤ × IoEntry :=
  if 2 < refCount ∧ (e.infoStat ∨ e.infoMmap) then (.okAndSent,fd,e)
  else
    let e := if info.stat then (e.updateStat limits env env.stat).2 else e
    if info.mmap = false then (.ok,fd,e)
    else
      let (ret,e) := e.updateStat limits env (if info.stat then env.statAgain else env.stat)
      if ret ≠ .ok ∧ ret ≠ .okAndSent then (.deny,fd,e)
      else if e.stSize < limits.minFileSize ∨ limits.maxFileSize < e.stSize then (.noSys,fd,e)
      else e.updateMmap limits env fd

end IoEntry

/-- `http2d_iocache_t`, with the data of its entries. -/
structure IoCache where
  cache : Cache
  data : ℕ → IoEntry
  limits : IoLimits

namespace IoCache

/-- `http2d_iocache_init`, with the configured size and limits. -/
def init (maxSize : ℤ) (limits : IoLimits) : IoCache := ⟨Cache.init maxSize,fun _ => .new,limits⟩

def setData (s : IoCache) (p : ℕ) (e : IoEntry) : IoCache :=
  {s with data := Function.update s.data p e}

/-- `entry_parent_info_clean`. -/
def entryParentInfoClean (s : IoCache) (p : ℕ) : IoCache :=
  if 0 < (s.cache.entries p).refCount then s else s.setData p (s.data p).cleanInfo

/-- `entry_unref_guts`. -/
def entryUnrefGuts (s : IoCache) (p : ℕ) : Ret × IoCache :=
  let c := s.cache.setEntry p {s.cache.entries p with
    refCount := (s.cache.entries p).refCount-1}
  if 0 < (c.entries p).refCount then (.eagain,{s with cache := c})
  else
    let c := {c with map := Function.update c.map (c.entries p).key none}
    let c := if (c.entries p).inList = .noList then c else c.cacheListDel (c.entries p).inList p
    let s := ({s with cache := c} : IoCache).entryParentInfoClean p
    (.ok,{s with cache := s.cache.entryFree p})

/-- The least recently used entry of `src` becomes the first of `dst`. -/
def demote (s : IoCache) (src dst : CacheList) : IoCache :=
  match s.cache.cacheListGetLru src with
  | none => s
  | some tmp =>
    let s := ({s with cache := s.cache.cacheListDel src tmp} : IoCache).entryParentInfoClean tmp
    {s with cache := s.cache.cacheListAdd dst tmp}

/-- `replace`. -/
def replace (s : IoCache) (x : Option ℕ) : IoCache :=
  let c := s.cache
  if 1 ≤ c.len .t1 ∧ (c.targetT1 < c.len .t1 ∨
      c.len .t1 = c.targetT1 ∧ (x.any fun p => (c.entries p).inList = .b2)) then
    s.demote .t1 .b1
  else s.demote .t2 .b2

def dropLru (s : IoCache) (L : CacheList) : Exec IoCache :=
  match s.cache.cacheListGetLru L with
  | none => .error .fault
  | some tmp =>
    .ok (({s with cache := s.cache.cacheListDel L tmp} : IoCache).entryUnrefGuts tmp).2

/-- `on_new_added`. -/
def onNewAdded (s : IoCache) : Exec IoCache :=
  let c := cuint s.cache.maxSize
  let lenL1 := cuint (s.cache.len .t1+s.cache.len .b1)
  let lenL2 := cuint (s.cache.len .t2+s.cache.len .b2)
  let totalLen := cuint ((lenL1 : ℤ)+lenL2)
  if c ≤ lenL1 then
    if cuint (s.cache.len .t1) < c then do
      let s ← s.dropLru .b1
      .ok (s.replace none)
    else s.dropLru .t1
  else if lenL1 < c ∧ c ≤ totalLen then do
    let s ← if cuint (2*(c : ℤ)) ≤ totalLen then s.dropLru .b2 else .ok s
    .ok (s.replace none)
  else .ok s

/-- `fetch_info_cb`, which reports a success in any case. -/
def fetchInfo (s : IoCache) (env : IoEnv) (p : ℕ) : Ret × IoCache :=
  (.ok,s.setData p
    ((s.data p).updateFd s.limits env (s.cache.entries p).refCount ⟨true,true⟩ none).2.2)

/-- What `update_ghost_b1` and `update_ghost_b2` do once the target is adapted. -/
def updateGhost (s : IoCache) (b : CacheList) (target : ℤ) (env : IoEnv) (p : ℕ) : Ret × IoCache :=
  let s := ({s with cache := {s.cache with targetT1 := target}} : IoCache).replace (some p)
  let (ret,s) := s.fetchInfo env p
  if ret = .ok then (.ok,{s with cache := s.cache.cacheListSwap b .t2 p}) else (ret,s)

/-- `update_cache`. -/
def updateCache (s : IoCache) (p : ℕ) (env : IoEnv) : Exec (Ret × IoCache) :=
  let c := s.cache
  match (c.entries p).inList with
  | .t1 => .ok (.ok,{s with cache := c.cacheListSwap .t1 .t2 p})
  | .t2 => .ok (.ok,{s with cache := c.cacheListMakeFirst .t2 p})
  | .b1 =>
    if c.len .b1 = 0 then .error .fault
    else .ok (s.updateGhost .b1
      (min c.maxSize (c.targetT1+max 1 ((c.len .b2).tdiv (c.len .b1)))) env p)
  | .b2 =>
    if c.len .b2 = 0 then .error .fault
    else .ok (s.updateGhost .b2
      (max 0 (c.targetT1-max 1 ((c.len .b1).tdiv (c.len .b2)))) env p)
  | .noList => .ok (.error,s)

/-- `http2d_cache_get` on an I/O cache. -/
def get (s : IoCache) (key : List UInt8) (newOk : Bool) (env : IoEnv) :
    Exec (Ret × Option ℕ × IoCache) :=
  if key = [] then .ok (.error,none,s)
  else
    match s.cache.map key with
    | some p =>
      if (s.cache.entries p).inList = .noList then
        .ok (.ok,some p,{s with
          cache := ((s.cache.entryRef p).cacheListAdd .t1 p).entryRef p})
      else do
        let (ret,s) ← s.updateCache p env
        .ok (ret,some p,{s with cache := s.cache.entryRef p})
    | none => do
      let s ← s.onNewAdded
      if newOk = false then .ok (.error,none,s)
      else
        let (p,c) := s.cache.newEntry key
        let s := ({s with cache := c} : IoCache).setData p .new
        let c := (s.cache.avlAdd key p).entryRef p
        .ok (.ok,some p,{s with cache := (c.cacheListAdd .t1 p).entryRef p})

/-- `entry_update_fd` on an entry of the cache. -/
def entryUpdateFd (s : IoCache) (info : IoInfo) (fd : Option ℤ) (env : IoEnv) (p : ℕ) :
    Ret × Option ℤ × IoCache :=
  let (ret,fd,e) := (s.data p).updateFd s.limits env (s.cache.entries p).refCount info fd
  (ret,fd,s.setData p e)

/-- `iocache_get`: the return code, the descriptor, the entry that the caller gets, and the cache.
The caller is told of no entry when the cache gives an error. -/
def iocacheGet (s : IoCache) (key : List UInt8) (newOk : Bool) (fetchEnv : IoEnv) (info : IoInfo)
    (fd : Option ℤ) (env : IoEnv) : Exec (Ret × Option ℤ × Option ℕ × IoCache) := do
  let (ret,entry,s) ← s.get key newOk fetchEnv
  match entry with
  | some p =>
    if ret = .ok ∨ ret = .okAndSent then
      let (ret,fd,s) := s.entryUpdateFd info fd env p
      .ok (ret,fd,some p,s)
    else .ok (.error,fd,none,s)
  | none => .ok (.error,fd,none,s)

/-- `http2d_iocache_get_mmaped_size`. -/
def getMmapedSize (s : IoCache) : ℤ :=
  ((s.cache.list .t1).map fun p => (s.data p).mmapedLen).sum+
    ((s.cache.list .t2).map fun p => (s.data p).mmapedLen).sum

end IoCache

/-- What the clients of an I/O cache can do; an update is `http2d_iocache_autoget` on an entry
that the client holds. -/
inductive IoAct
  | get (client : ℕ) (key : List UInt8) (newOk : Bool) (fetchEnv : IoEnv) (info : IoInfo)
      (fd : Option ℤ) (env : IoEnv)
  | update (client entry : ℕ) (info : IoInfo) (fd : Option ℤ) (env : IoEnv)
  | unref (client entry : ℕ)

/-- The I/O cache and the references that each client has got and not yet given back. -/
structure IoSys where
  io : IoCache
  held : List (ℕ × ℕ)

namespace IoSys

def init (maxSize : ℤ) (limits : IoLimits) : IoSys := ⟨IoCache.init maxSize limits,[]⟩

/-- One call of a client. -/
def step (s : IoSys) : IoAct → Option IoSys
  | .get client key newOk fetchEnv info fd env =>
    match s.io.iocacheGet key newOk fetchEnv info fd env with
    | .ok (_,_,some p,io) => some ⟨io,(client,p)::s.held⟩
    | .ok (_,_,none,io) => some ⟨io,s.held⟩
    | .error _ => none
  | .update client p info fd env =>
    if s.held.contains (client,p) then some ⟨(s.io.entryUpdateFd info fd env p).2.2,s.held⟩
    else none
  | .unref client p =>
    if s.held.contains (client,p) then some ⟨(s.io.entryUnrefGuts p).2,s.held.erase (client,p)⟩
    else none

end IoSys

end Http2d
