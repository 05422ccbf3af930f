import Http2d.IoCacheDelivery
import Http2d.IoCacheGhosts
import Http2d.Library.Resources

/-! The mappings of the I/O cache: which `mmap` and `munmap` calls its operations make.
An entry points at its mapping until the mapping is given back; a refused `mmap` leaves the pointer
at `MAP_FAILED`. What an operation does to its entries is a list of events, and the calls are made
in the order of the events. -/
namespace Http2d

open Transition Resources

namespace IoEntry

/-- A call of the system: what is unmapped, with its length, and what is mapped, with the answer. -/
inductive MapCall
  | munmap (p : Mmaped) (len : ℤ)
  | mmap (len : ℤ) (answer : Except Errno Unit)

/-- The calls of `clean_info_cb`. -/
def cleanCalls (e : IoEntry) : List MapCall :=
  if e.mmaped = .null then [] else [.munmap e.mmaped e.mmapedLen]

/-- The calls of `ioentry_update_mmap`. -/
def updateMmapCalls (env : IoEnv) (fd : Option ℤ) (e : IoEntry) : List MapCall :=
  if fresh env e.mmapExpiration then []
  else if e.stIsReg = false then []
  else
    let opened := if 0 ≤ fd.getD (-1) then .ok (fd.getD (-1)) else env.openFile
    match opened with
    | .error _ => []
    | .ok _ => e.cleanCalls ++ [.mmap e.stSize env.mmap]

/-- The calls of `entry_update_fd`. -/
def updateFdCalls (limits : IoLimits) (env : IoEnv) (refCount : ℤ) (info : IoInfo) (fd : Option ℤ)
    (e : IoEntry) : List MapCall :=
  if Shared refCount e then []
  else if info.mmap = false then []
  else
    let (ret,e) := e.statAgain limits env info
    if ret ≠ .ok ∧ ret ≠ .okAndSent then []
    else if e.stSize < limits.minFileSize ∨ limits.maxFileSize < e.stSize then []
    else e.updateMmapCalls env fd

/-- What happens to an entry. -/
inductive Event
  | made
  | cleaned
  | updated (env : IoEnv) (refCount : ℤ) (info : IoInfo) (fd : Option ℤ)

def Event.exec (limits : IoLimits) (e : IoEntry) : Event → IoEntry
  | .made => .new
  | .cleaned => e.cleanInfo
  | .updated env refCount info fd => (e.updateFd limits env refCount info fd).2.2

def Event.calls (limits : IoLimits) (e : IoEntry) : Event → List MapCall
  | .made => []
  | .cleaned => e.cleanCalls
  | .updated env refCount info fd => e.updateFdCalls limits env refCount info fd

def MapCall.refused : MapCall → Bool
  | .mmap _ (.error _) => true
  | _ => false

/-- A call among these was refused. -/
def Refused (calls : List MapCall) : Prop := ∃ c ∈ calls, c.refused = true

instance (calls : List MapCall) : Decidable (Refused calls) :=
  inferInstanceAs (Decidable (∃ c ∈ calls, c.refused = true))

variable (limits : IoLimits) (env : IoEnv) (e : IoEntry)

/-- The mapping stays, or it is given back and a new one is made, or that is refused. -/
inductive Remapped (calls : List MapCall) (e' : IoEntry) : Prop
  | kept (hcalls : calls = []) (hptr : e'.mmaped = e.mmaped) (hlen : e'.mmapedLen = e.mmapedLen)
      (hflag : e'.infoMmap = true → e.infoMmap = true)
  | renewed (len : ℤ) (hcalls : calls = e.cleanCalls ++ [.mmap len (.ok ())])
      (hptr : e'.mmaped = .address) (hlen : e'.mmapedLen = len)
  | refused (h : Refused calls)

theorem updateMmap_remapped (fd : Option ℤ) :
    Remapped e (e.updateMmapCalls env fd) (e.updateMmap limits env fd).2.2 := by
  unfold updateMmapCalls updateMmap
  by_cases h : fresh env e.mmapExpiration
  · rw [if_pos h,if_pos h]
    exact .kept rfl rfl rfl id
  rw [if_neg h,if_neg h]
  by_cases hreg : e.stIsReg = false
  · rw [if_pos hreg,if_pos hreg]
    exact .kept rfl rfl rfl fun hm => by cases hm
  rw [if_neg hreg,if_neg hreg]
  cases (if 0 ≤ fd.getD (-1) then .ok (fd.getD (-1)) else env.openFile : Except Errno ℤ) with
  | error err => exact .kept rfl rfl rfl fun hm => by cases hm
  | ok fdLocal =>
    cases hmmap : env.mmap with
    | error err => exact .refused ⟨.mmap e.stSize (.error err),by simp,rfl⟩
    | ok u =>
      refine .renewed e.stSize rfl rfl ?_
      dsimp only
      split_ifs <;> rfl

/-- The mapping is as it was when `ioentry_update_mmap` begins. -/
theorem Remapped.of_stat {e e₁ e' : IoEntry} {calls : List MapCall} (h : Remapped e₁ calls e')
    (hptr : e₁.mmaped = e.mmaped) (hlen : e₁.mmapedLen = e.mmapedLen)
    (hflag : e₁.infoMmap = e.infoMmap) : Remapped e calls e' := by
  cases h with
  | kept hcalls hp hl hf => exact .kept hcalls (hp.trans hptr) (hl.trans hlen) (hflag ▸ hf)
  | renewed len hcalls hp hl =>
    refine .renewed len ?_ hp hl
    rw [hcalls,cleanCalls,cleanCalls,hptr,hlen]
  | refused h => exact .refused h

theorem updateFd_remapped (refCount : ℤ) (info : IoInfo) (fd : Option ℤ) :
    Remapped e (e.updateFdCalls limits env refCount info fd)
      (e.updateFd limits env refCount info fd).2.2 := by
  obtain ⟨hpf,hpp,hpl,_⟩ := statPart_mapping limits env e info
  obtain ⟨haf,hap,hal,_⟩ := statAgain_mapping limits env e info
  unfold updateFdCalls updateFd
  by_cases hshared : Shared refCount e
  · have hcond : 2 < refCount ∧ (e.infoStat ∨ e.infoMmap) := hshared
    rw [if_pos hshared,if_pos hcond]
    exact .kept rfl rfl rfl id
  have hcond : ¬ (2 < refCount ∧ (e.infoStat ∨ e.infoMmap)) := hshared
  rw [if_neg hshared,if_neg hcond]
  by_cases hmmap : info.mmap = false
  · rw [if_pos hmmap]
    simp only [if_pos hmmap]
    exact .kept rfl hpp hpl (hpf ▸ id)
  rw [if_neg hmmap]
  simp only [if_neg hmmap]
  change Remapped e (if (e.statAgain limits env info).1 ≠ .ok ∧
      (e.statAgain limits env info).1 ≠ .okAndSent then [] else _)
    (if (e.statAgain limits env info).1 ≠ .ok ∧ (e.statAgain limits env info).1 ≠ .okAndSent
      then (Ret.deny,fd,(e.statAgain limits env info).2)
      else if (e.statAgain limits env info).2.stSize < limits.minFileSize ∨
          limits.maxFileSize < (e.statAgain limits env info).2.stSize
        then (.noSys,fd,(e.statAgain limits env info).2)
        else (e.statAgain limits env info).2.updateMmap limits env fd).2.2
  split_ifs with hstat hsize
  · exact .kept rfl hap hal (haf ▸ id)
  · exact .kept rfl hap hal (haf ▸ id)
  · exact (updateMmap_remapped limits env (e.statAgain limits env info).2 fd).of_stat hap hal haf

end IoEntry

open IoEntry

/-- The pointers of the entries, and the mappings there are. -/
structure Mappings where
  addr : ℕ → ℕ
  maps : Ledger ℤ

namespace Mappings

/-- A call for the entry `p`. -/
def call (m : Mappings) (p : ℕ) : IoEntry.MapCall → Mappings
  | .munmap .address len => {m with maps := release m.maps (some (m.addr p)) len}
  | .munmap _ len => {m with maps := release m.maps none len}
  | .mmap len (.ok _) => ⟨Function.update m.addr p m.maps.made,acquire m.maps len⟩
  | .mmap _ (.error _) => m

/-- What the entries do one after another, and the calls that go with it. -/
def replay (limits : IoLimits) : (ℕ → IoEntry) → Mappings → List (ℕ × Event) →
    (ℕ → IoEntry) × Mappings
  | data, m, [] => (data,m)
  | data, m, (p,ev)::evs => replay limits (Function.update data p (ev.exec limits (data p)))
      ((ev.calls limits (data p)).foldl (fun m c => m.call p c) m) evs

/-- No `mmap` is refused. -/
def NoneRefused (limits : IoLimits) : (ℕ → IoEntry) → List (ℕ × Event) → Prop
  | _, [] => True
  | data, (p,ev)::evs => ¬ Refused (ev.calls limits (data p)) ∧
      NoneRefused limits (Function.update data p (ev.exec limits (data p))) evs

instance decidableNoneRefused (limits : IoLimits) :
    (data : ℕ → IoEntry) → (evs : List (ℕ × Event)) → Decidable (NoneRefused limits data evs)
  | _, [] => inferInstanceAs (Decidable True)
  | data, (p,ev)::evs =>
    have := decidableNoneRefused limits (Function.update data p (ev.exec limits (data p))) evs
    inferInstanceAs (Decidable (_ ∧ _))

/-- The mapping that an entry points at. -/
def holds (data : ℕ → IoEntry) (addr : ℕ → ℕ) (p : ℕ) : Option (ℕ × ℤ) :=
  if (data p).mmaped = .address then some (addr p,(data p).mmapedLen) else none

/-- Every pointer is NULL or that of a mapping of the entry's own, of the length that the entry has;
the flags tell the truth, and there are no other mappings and no other calls. -/
structure Sound (data : ℕ → IoEntry) (m : Mappings) : Prop where
  owned : Owned m.maps (holds data m.addr)
  pointer : ∀ p, (data p).mmaped ≠ .failed
  flag : ∀ p, (data p).FlagLive

variable {limits : IoLimits} {data : ℕ → IoEntry} {m : Mappings} {p : ℕ}

theorem replay_append (evs evs' : List (ℕ × Event)) : replay limits data m (evs ++ evs') =
    replay limits (replay limits data m evs).1 (replay limits data m evs).2 evs' := by
  induction evs generalizing data m with
  | nil => rfl
  | cons x evs ih => exact ih

theorem noneRefused_append (evs evs' : List (ℕ × Event)) : NoneRefused limits data (evs ++ evs') ↔
    NoneRefused limits data evs ∧ NoneRefused limits (replay limits data m evs).1 evs' := by
  induction evs generalizing data m with
  | nil => simp [NoneRefused,replay]
  | cons x evs ih =>
    simp only [List.cons_append,NoneRefused,replay,and_assoc]
    exact and_congr_right fun _ => ih

theorem holds_update (e : IoEntry) : holds (Function.update data p e) m.addr =
    Function.update (holds data m.addr) p
      (if e.mmaped = .address then some (m.addr p,e.mmapedLen) else none) := by
  funext q
  by_cases hq : q = p
  · subst hq
    simp [holds]
  · simp [holds,hq]

/-- One entry changes. -/
theorem Sound.of_entry (h : Sound data m) {e : IoEntry} {m' : Mappings}
    (howned : Owned m'.maps (holds (Function.update data p e) m'.addr)) (hptr : e.mmaped ≠ .failed)
    (hflag : e.FlagLive) : Sound (Function.update data p e) m' := by
  refine ⟨howned,fun q => ?_,fun q => ?_⟩
  · by_cases hq : q = p
    · subst hq
      rwa [Function.update_self]
    · rw [Function.update_of_ne hq]
      exact h.pointer q
  · by_cases hq : q = p
    · subst hq
      rwa [Function.update_self]
    · rw [Function.update_of_ne hq]
      exact h.flag q

/-- An entry whose mapping is as it was. -/
theorem Sound.same (h : Sound data m) {e : IoEntry} (hptr : e.mmaped = (data p).mmaped)
    (hlen : e.mmapedLen = (data p).mmapedLen) (hflag : e.infoMmap = true → (data p).infoMmap = true) :
    Sound (Function.update data p e) m := by
  refine h.of_entry ?_ (hptr ▸ h.pointer p) fun hm => hptr.trans (h.flag p (hflag hm))
  have hself : Function.update (holds data m.addr) p (holds data m.addr p) = holds data m.addr :=
    Function.update_eq_self ..
  rw [holds_update,hptr,hlen]
  exact hself.symm ▸ h.owned

/-- Cleaning gives the mapping back, if there is one. -/
theorem Sound.cleaned (h : Sound data m) (p : ℕ) : Sound (Function.update data p (data p).cleanInfo)
    ((data p).cleanCalls.foldl (fun m c => m.call p c) m) := by
  have hnull : (data p).cleanInfo.mmaped = .null := by rw [cleanInfo_eq]
  cases hptr : (data p).mmaped with
  | null =>
    have hcalls : (data p).cleanCalls = [] := if_pos hptr
    have hlen : (data p).cleanInfo.mmapedLen = (data p).mmapedLen := by
      rw [cleanInfo_eq]
      exact if_pos hptr
    rw [hcalls]
    refine h.same (hnull.trans hptr.symm) hlen fun hm => ?_
    rw [cleanInfo_eq] at hm
    cases hm
  | failed => exact absurd hptr (h.pointer p)
  | address =>
    have hcalls : (data p).cleanCalls = [.munmap .address (data p).mmapedLen] := by
      rw [cleanCalls,if_neg (by rw [hptr]; decide),hptr]
    have hholds : holds data m.addr p = some (m.addr p,(data p).mmapedLen) := if_pos hptr
    have hrel := h.owned.release hholds
    rw [hcalls]
    refine h.of_entry ?_ (by rw [hnull]; decide) (IoSys.cleanInfo_flagLive _)
    show Owned (release m.maps (some (m.addr p)) (data p).mmapedLen) (holds _ m.addr)
    rw [holds_update,hnull]
    exact hrel

/-- An entry without a mapping gets one. -/
theorem Sound.mapped (h : Sound data m) (hnull : (data p).mmaped = .null) {e : IoEntry} {len : ℤ}
    (hptr : e.mmaped = .address) (hlen : e.mmapedLen = len) :
    Sound (Function.update data p e) (m.call p (.mmap len (.ok ()))) := by
  have hholds : holds data m.addr p = none := if_neg (by rw [hnull]; decide)
  have hnew : holds (Function.update data p e) (Function.update m.addr p m.maps.made) =
      Function.update (holds data m.addr) p (some (m.maps.made,len)) := by
    funext q
    by_cases hq : q = p
    · subst hq
      simp [holds,hptr,hlen]
    · simp [holds,hq]
  refine h.of_entry ?_ (by rw [hptr]; decide) fun _ => hptr
  show Owned (acquire m.maps len) (holds _ (Function.update m.addr p m.maps.made))
  rw [hnew]
  exact h.owned.acquire hholds len

/-- The data of a new entry replaces none that has a mapping. -/
theorem Sound.made (h : Sound data m) (hnull : (data p).mmaped = .null) :
    Sound (Function.update data p .new) m := by
  refine h.of_entry ?_ (by decide) fun hm => by cases hm
  have hholds : holds data m.addr p = none := if_neg (by rw [hnull]; decide)
  have hself : Function.update (holds data m.addr) p none = holds data m.addr := by
    rw [← hholds]
    exact Function.update_eq_self ..
  rw [holds_update]
  exact hself.symm ▸ h.owned

theorem Sound.updated (h : Sound data m) {env : IoEnv} {refCount : ℤ} {info : IoInfo}
    {fd : Option ℤ}
    (hok : ¬ Refused ((data p).updateFdCalls limits env refCount info fd)) :
    Sound (Function.update data p ((data p).updateFd limits env refCount info fd).2.2)
      (((data p).updateFdCalls limits env refCount info fd).foldl (fun m c => m.call p c) m) := by
  cases updateFd_remapped limits env (data p) refCount info fd with
  | kept hcalls hptr hlen hflag =>
    rw [hcalls]
    exact h.same hptr hlen hflag
  | renewed len hcalls hptr hlen =>
    rw [hcalls,List.foldl_append]
    have hclean := h.cleaned p
    have hnull : (Function.update data p (data p).cleanInfo p).mmaped = .null := by
      rw [Function.update_self,cleanInfo_eq]
    have hmapped := hclean.mapped hnull hptr hlen
    rwa [Function.update_idem] at hmapped
  | refused hr => exact absurd hr hok

theorem sound_replay {evs : List (ℕ × Event)} (h : Sound data m)
    (hok : NoneRefused limits data evs) (hmade : ∀ q, (q,.made) ∈ evs → False) :
    Sound (replay limits data m evs).1 (replay limits data m evs).2 := by
  induction evs generalizing data m with
  | nil => exact h
  | cons x evs ih =>
    obtain ⟨p,ev⟩ := x
    have hrest : ∀ q, (q,.made) ∈ evs → False := fun q hq => hmade q (List.mem_cons_of_mem _ hq)
    cases ev with
    | made => exact (hmade p List.mem_cons_self).elim
    | cleaned => exact ih (h.cleaned p) hok.2 hrest
    | updated env refCount info fd => exact ih (h.updated hok.1) hok.2 hrest

end Mappings

namespace IoCache

/-- The entries that `entry_parent_info_clean` cleans. -/
def cleans (s : IoCache) (p : ℕ) : List ℕ := if 0 < (s.cache.entries p).refCount then [] else [p]

/-- The entries that `entry_unref_guts` cleans. -/
def unrefCleans (s : IoCache) (p : ℕ) : List ℕ :=
  let c := s.cache.setEntry p {s.cache.entries p with
    refCount := (s.cache.entries p).refCount-1}
  if 0 < (c.entries p).refCount then []
  else
    let c := {c with map := Function.update c.map (c.entries p).key none}
    let c := if (c.entries p).inList = .noList then c else c.cacheListDel (c.entries p).inList p
    ({s with cache := c} : IoCache).cleans p

def demoteCleans (s : IoCache) (src : CacheList) : List ℕ :=
  match s.cache.cacheListGetLru src with
  | none => []
  | some tmp => ({s with cache := s.cache.cacheListDel src tmp} : IoCache).cleans tmp

/-- The entries that `replace` cleans. -/
def replaceCleans (s : IoCache) (x : Option ℕ) : List ℕ :=
  let c := s.cache
  if 1 ≤ c.len .t1 ∧ (c.targetT1 < c.len .t1 ∨
      c.len .t1 = c.targetT1 ∧ (x.any fun p => (c.entries p).inList = .b2)) then
    s.demoteCleans .t1
  else s.demoteCleans .t2

def dropLruCleans (s : IoCache) (L : CacheList) : List ℕ :=
  match s.cache.cacheListGetLru L with
  | none => []
  | some tmp => ({s with cache := s.cache.cacheListDel L tmp} : IoCache).unrefCleans tmp

/-- The same, and what `replace` cleans after it. -/
def dropReplaceCleans (s : IoCache) (L : CacheList) : List ℕ :=
  match s.dropLru L with
  | .ok s' => s.dropLruCleans L ++ s'.replaceCleans none
  | .error _ => []

/-- The entries that `on_new_added` cleans. -/
def onNewAddedCleans (s : IoCache) : List ℕ :=
  let c := cuint s.cache.maxSize
  let lenL1 := cuint (s.cache.len .t1+s.cache.len .b1)
  let lenL2 := cuint (s.cache.len .t2+s.cache.len .b2)
  let totalLen := cuint ((lenL1 : ℤ)+lenL2)
  if c ≤ lenL1 then
    if cuint (s.cache.len .t1) < c then s.dropReplaceCleans .b1 else s.dropLruCleans .t1
  else if lenL1 < c ∧ c ≤ totalLen then
    if cuint (2*(c : ℤ)) ≤ totalLen then s.dropReplaceCleans .b2 else s.replaceCleans none
  else []

/-- What a ghost hit does: the replaced entry may be cleaned, and the ghost is fetched again. -/
def updateGhostEvents (s : IoCache) (target : ℤ) (env : IoEnv) (p : ℕ) : List (ℕ × Event) :=
  let s := ({s with cache := {s.cache with targetT1 := target}} : IoCache)
  (s.replaceCleans (some p)).map (·,.cleaned) ++
    [(p,.updated env ((s.replace (some p)).cache.entries p).refCount ⟨true,true⟩ none)]

/-- The events of `update_cache`. -/
def updateCacheEvents (s : IoCache) (p : ℕ) (env : IoEnv) : List (ℕ × Event) :=
  let c := s.cache
  match (c.entries p).inList with
  | .b1 => s.updateGhostEvents (min c.maxSize (c.targetT1+max 1 ((c.len .b2).tdiv (c.len .b1)))) env p
  | .b2 => s.updateGhostEvents (max 0 (c.targetT1-max 1 ((c.len .b1).tdiv (c.len .b2)))) env p
  | _ => []

/-- The events of `http2d_cache_get`. -/
def getEvents (s : IoCache) (key : List UInt8) (newOk : Bool) (env : IoEnv) : List (ℕ × Event) :=
  if key = [] then []
  else
    match s.cache.map key with
    | some p => if (s.cache.entries p).inList = .noList then [] else s.updateCacheEvents p env
    | none => s.onNewAddedCleans.map (·,.cleaned) ++
        match s.onNewAdded with
        | .ok s' => if newOk = false then [] else [(s'.cache.next,.made)]
        | .error _ => []

def updateEvent (s : IoCache) (info : IoInfo) (fd : Option ℤ) (env : IoEnv) (p : ℕ) : ℕ × Event :=
  (p,.updated env (s.cache.entries p).refCount info fd)

/-- The events of `iocache_get`. -/
def iocacheGetEvents (s : IoCache) (key : List UInt8) (newOk : Bool) (fetchEnv : IoEnv)
    (info : IoInfo) (fd : Option ℤ) (env : IoEnv) : List (ℕ × Event) :=
  s.getEvents key newOk fetchEnv ++
    match s.get key newOk fetchEnv with
    | .ok (ret,some p,s') => if ret = .ok ∨ ret = .okAndSent then [s'.updateEvent info fd env p] else []
    | _ => []

section Replay

open Mappings

variable {s s' : IoCache} {m : Mappings} {p : ℕ}

def cleanAll (data : ℕ → IoEntry) (ps : List ℕ) : ℕ → IoEntry :=
  ps.foldl (fun data p => Function.update data p (data p).cleanInfo) data

theorem replay_cleaned (limits : IoLimits) (data : ℕ → IoEntry) (m : Mappings) (ps : List ℕ) :
    (replay limits data m (ps.map (·,.cleaned))).1 = cleanAll data ps := by
  induction ps generalizing data m with
  | nil => rfl
  | cons p ps ih => exact ih ..

theorem noneRefused_cleaned (limits : IoLimits) (data : ℕ → IoEntry) (ps : List ℕ) :
    NoneRefused limits data (ps.map (·,.cleaned)) := by
  induction ps generalizing data with
  | nil => trivial
  | cons p ps ih =>
    refine ⟨?_,ih _⟩
    rintro ⟨c,hmem,hc⟩
    simp only [Event.calls,cleanCalls] at hmem
    split_ifs at hmem
    · cases hmem
    · cases List.mem_singleton.mp hmem
      cases hc

/-- The cleaned entries are those whose data changes. -/
theorem entryParentInfoClean_cleans (s : IoCache) (p : ℕ) :
    (s.entryParentInfoClean p).data = cleanAll s.data (s.cleans p) := by
  unfold entryParentInfoClean cleans
  split_ifs <;> rfl

theorem entryUnrefGuts_cleans (s : IoCache) (p : ℕ) :
    (s.entryUnrefGuts p).2.data = cleanAll s.data (s.unrefCleans p) := by
  unfold entryUnrefGuts unrefCleans
  dsimp only
  split_ifs
  · rfl
  · exact entryParentInfoClean_cleans ..
  · exact entryParentInfoClean_cleans ..

theorem demote_cleans (s : IoCache) (src dst : CacheList) :
    (s.demote src dst).data = cleanAll s.data (s.demoteCleans src) := by
  unfold demote demoteCleans
  cases s.cache.cacheListGetLru src with
  | none => rfl
  | some tmp => exact entryParentInfoClean_cleans ..

theorem replace_cleans (s : IoCache) (x : Option ℕ) :
    (s.replace x).data = cleanAll s.data (s.replaceCleans x) := by
  unfold replace replaceCleans
  dsimp only
  split_ifs
  · exact demote_cleans ..
  · exact demote_cleans ..

theorem dropLru_cleans {L : CacheList} (h : s.dropLru L = .ok s') :
    s'.data = cleanAll s.data (s.dropLruCleans L) := by
  obtain ⟨p,hlru,rfl⟩ := dropLru_inv h
  simp only [dropLruCleans,hlru]
  exact entryUnrefGuts_cleans ..

theorem dropReplace_cleans {L : CacheList} (h : (s.dropLru L >>= fun d => .ok (d.replace none)) = .ok s') :
    s'.data = cleanAll s.data (s.dropReplaceCleans L) := by
  obtain ⟨d,hd,h⟩ := bind_ok_inv h
  cases Except.ok.inj h
  rw [replace_cleans,dropLru_cleans hd,dropReplaceCleans,hd]
  exact List.foldl_append.symm

theorem onNewAdded_cleans (h : s.onNewAdded = .ok s') :
    s'.data = cleanAll s.data s.onNewAddedCleans := by
  simp only [onNewAdded] at h
  simp only [onNewAddedCleans]
  split_ifs at h ⊢
  · exact dropReplace_cleans h
  · exact dropLru_cleans h
  · exact dropReplace_cleans h
  · cases Except.ok.inj h
    exact replace_cleans s none
  · cases Except.ok.inj h
    rfl

theorem replay_updateGhost (s : IoCache) (b : CacheList) (target : ℤ) (env : IoEnv) (m : Mappings)
    (p : ℕ) : (replay s.limits s.data m (s.updateGhostEvents target env p)).1 =
      (s.updateGhost b target env p).2.data := by
  let d : IoCache := {s with cache := {s.cache with targetT1 := target}}
  have hlimits : (d.replace (some p)).limits = s.limits := (replace_keeps d (some p)).limits
  rw [updateGhostEvents,replay_append,replay_cleaned,← replace_cleans d (some p)]
  simp [updateGhost,fetchInfo,setData,replay,Event.exec,d,hlimits]

theorem replay_updateCache {env : IoEnv} {r : Ret} (h : s.updateCache p env = .ok (r,s')) :
    (replay s.limits s.data m (s.updateCacheEvents p env)).1 = s'.data := by
  unfold updateCacheEvents
  cases updateCache_hit h with
  | recent hin =>
    simp only [hin]
    rfl
  | frequent hin =>
    simp only [hin]
    rfl
  | ghost b hb hin h0 =>
    rcases hb with rfl | rfl
    · simp only [hin]
      exact replay_updateGhost s .b1 (s.cache.adapted .b1) env m p
    · simp only [hin]
      exact replay_updateGhost s .b2 (s.cache.adapted .b2) env m p
  | unlisted hin =>
    simp only [hin]
    rfl

/-- The events of a get, replayed, give its data. -/
theorem replay_get {key : List UInt8} {newOk : Bool} {env : IoEnv} {r : Ret} {q : Option ℕ}
    (h : s.get key newOk env = .ok (r,q,s')) :
    (replay s.limits s.data m (s.getEvents key newOk env)).1 = s'.data := by
  unfold getEvents
  cases get_got h with
  | empty hkey =>
    rw [if_pos hkey]
    rfl
  | lingering p hkey hfound hin =>
    simp only [if_neg hkey,hfound,if_pos hin]
    rfl
  | hit p r d hkey hfound hin hup =>
    simp only [if_neg hkey,hfound,if_neg hin]
    exact replay_updateCache hup
  | refused d hkey hfound hnew hok =>
    simp only [if_neg hkey,hfound,hnew,if_pos hok]
    rw [replay_append,replay_cleaned,← onNewAdded_cleans hnew]
    rfl
  | miss d hkey hfound hnew hok =>
    subst hok
    simp only [if_neg hkey,hfound,hnew]
    rw [replay_append,replay_cleaned,← onNewAdded_cleans hnew]
    rfl

end Replay

end IoCache

end Http2d
