import Http2d.IoCacheMappings

/-! Who owns the mappings in a run of the I/O cache.
A mapping belongs to one entry from the `mmap` that made it to the cleaning that gives it back. The
cleaners trust the pointer, and a refused `mmap` leaves one that is no mapping; and the cache itself
frees its entries without cleaning them. -/
namespace Http2d

open Transition Resources IoEntry Mappings

/-- `http2d_cache_mrproper`: every entry of the table is freed. -/
def Cache.mrproper (c : Cache) : Cache :=
  {c with
    entries := fun p =>
      let e := c.entries p
      if c.map e.key = some p then {e with inList := .noList, live := false} else e
    map := fun _ => none}

namespace IoCache

/-- A freed entry has no mapping. -/
def Tidy (s : IoCache) : Prop := ∀ p, (s.cache.entries p).live = false → (s.data p).mmaped = .null

/-- An entry that is freed has been cleaned, and nothing is cached of the others. -/
def Frees (s s' : IoCache) : Prop := ∀ p, (s'.cache.entries p).live = false →
  (s'.data p).mmaped = .null ∨ (s.cache.entries p).live = false ∧ Left (s.data p) (s'.data p)

section Frees
variable {s s' s'' : IoCache} {m : Mappings} {held : ℕ → ℕ}

theorem left_null {e e' : IoEntry} (h : Left e e') (he : e.mmaped = .null) : e'.mmaped = .null := by
  rcases h with rfl | rfl
  · exact he
  · rw [cleanInfo_eq]

theorem Tidy.frees (h : s.Tidy) (hf : s.Frees s') : s'.Tidy := by
  intro p hp
  rcases hf p hp with hnull | ⟨hdead,hleft⟩
  · exact hnull
  · exact left_null hleft (h p hdead)

theorem Frees.trans (h : s.Frees s') (h' : s'.Frees s'') : s.Frees s'' := by
  intro p hp
  rcases h' p hp with hnull | ⟨hdead',hleft'⟩
  · exact Or.inl hnull
  rcases h p hdead' with hnull | ⟨hdead,hleft⟩
  · exact Or.inl (left_null hleft' hnull)
  · exact Or.inr ⟨hdead,hleft.trans hleft'⟩

/-- Nothing is freed. -/
theorem Keeps.frees (h : s.Keeps s')
    (hlive : ∀ p, (s'.cache.entries p).live = (s.cache.entries p).live) : s.Frees s' :=
  fun p hp => Or.inr ⟨(hlive p).symm.trans hp,h.data p⟩

theorem update_live {f : ℕ → CacheEntry} {p : ℕ} (e : CacheEntry) (he : e.live = (f p).live)
    (q : ℕ) : (Function.update f p e q).live = (f q).live := by
  by_cases hq : q = p
  · subst hq
    rwa [Function.update_self]
  · rw [Function.update_of_ne hq]

theorem cacheListDel_live (c : Cache) (L : CacheList) (p q : ℕ) :
    ((c.cacheListDel L p).entries q).live = (c.entries q).live :=
  update_live {c.entries p with inList := .noList} rfl q

theorem cacheListAdd_live (c : Cache) (L : CacheList) (p q : ℕ) :
    ((c.cacheListAdd L p).entries q).live = (c.entries q).live :=
  update_live {c.entries p with inList := L} rfl q

theorem entryRef_live (c : Cache) (p q : ℕ) :
    ((c.entryRef p).entries q).live = (c.entries q).live :=
  update_live {c.entries p with refCount := (c.entries p).refCount+1} rfl q

theorem demote_live (c : Cache) (src dst : CacheList) (q : ℕ) :
    ((c.demote src dst).entries q).live = (c.entries q).live := by
  unfold Cache.demote
  cases c.cacheListGetLru src with
  | none => rfl
  | some tmp => exact (cacheListAdd_live ..).trans (cacheListDel_live ..)

theorem replace_live (c : Cache) (x : Option ℕ) (q : ℕ) :
    ((c.replace x).entries q).live = (c.entries q).live := by
  unfold Cache.replace
  split_ifs
  · exact demote_live ..
  · exact demote_live ..

theorem replace_frees (s : IoCache) (x : Option ℕ) : s.Frees (s.replace x) :=
  (replace_keeps s x).frees fun q => by rw [replace_cache,replace_live]

/-- The entry is freed only after it was cleaned. -/
theorem entryUnrefGuts_frees (s : IoCache) (p : ℕ) : s.Frees (s.entryUnrefGuts p).2 := by
  have hkeeps := entryUnrefGuts_keeps s p
  by_cases hmore : 1 < (s.cache.entries p).refCount
  · refine hkeeps.frees fun q => ?_
    rw [entryUnrefGuts_cache,Cache.entryUnrefGuts_kept hmore]
    exact update_live {s.cache.entries p with refCount := (s.cache.entries p).refCount-1} rfl q
  · obtain ⟨hentries,_⟩ := Cache.entryUnrefGuts_freed (not_lt.mp hmore)
    intro q hq
    by_cases hqp : q = p
    · subst hqp
      refine Or.inl ?_
      have hclean : ((s.entryUnrefGuts q).2.data q) = (s.data q).cleanInfo := by
        simp only [entryUnrefGuts,Cache.setEntry,Function.update_self]
        rw [if_neg (by omega)]
        simp only [entryParentInfoClean]
        split_ifs with hin hpos hpos
        · simp at hpos
          omega
        · simp [setData]
        · simp [Cache.cacheListDel,Cache.setEntry] at hpos
          omega
        · simp [setData]
      rw [hclean,cleanInfo_eq]
    · refine Or.inr ⟨?_,hkeeps.data q⟩
      rwa [entryUnrefGuts_cache,hentries,Function.update_of_ne hqp] at hq

theorem dropLru_frees {L : CacheList} (hdrop : s.dropLru L = .ok s') : s.Frees s' := by
  obtain ⟨p,-,rfl⟩ := dropLru_inv hdrop
  have hdel : s.Frees {s with cache := s.cache.cacheListDel L p} :=
    (keeps_cache s _).frees fun q => cacheListDel_live ..
  exact hdel.trans (entryUnrefGuts_frees _ p)

theorem onNewAdded_frees (hnew : s.onNewAdded = .ok s') : s.Frees s' := by
  cases onNewAdded_roomed hnew with
  | dropped L d hL hr hdrop => exact (dropLru_frees hdrop).trans (replace_frees d none)
  | full d hdrop => exact dropLru_frees hdrop
  | replaced hr => exact replace_frees s none
  | fits => exact (keeps_cache s s.cache).frees fun _ => rfl

/-- The data of a live entry changes. -/
theorem Tidy.setData (h : s.Tidy) {p : ℕ} (hp : (s.cache.entries p).live = true) (e : IoEntry) :
    (s.setData p e).Tidy := by
  intro q hq
  have hne : q ≠ p := by
    rintro rfl
    rw [setData_cache,hp] at hq
    cases hq
  rw [show (s.setData p e).data q = s.data q from Function.update_of_ne hne ..]
  exact h q hq

/-- The lists and the counts change. -/
theorem Tidy.of_cache (h : s.Tidy) {c : Cache}
    (hlive : ∀ q, (c.entries q).live = false → (s.cache.entries q).live = false) :
    ({s with cache := c} : IoCache).Tidy := fun q hq => h q (hlive q hq)

theorem updateGhost_tidy (h : s.Tidy) {b : CacheList} (target : ℤ) (env : IoEnv) {p : ℕ}
    (hp : (s.cache.entries p).live = true) : (s.updateGhost b target env p).2.Tidy := by
  let d : IoCache := {s with cache := {s.cache with targetT1 := target}}
  have hrep : (d.replace (some p)).Tidy := Tidy.frees (s:=d) h (replace_frees d (some p))
  have hlive : ((d.replace (some p)).cache.entries p).live = true := by
    rw [replace_cache,replace_live]
    exact hp
  have hset := hrep.setData hlive ((((d.replace (some p)).data p).updateFd
    (d.replace (some p)).limits env ((d.replace (some p)).cache.entries p).refCount ⟨true,true⟩
    none).2.2)
  simp only [updateGhost,fetchInfo,if_true]
  refine hset.of_cache fun q hq => ?_
  rwa [Cache.cacheListSwap,cacheListAdd_live,cacheListDel_live] at hq

theorem updateCache_tidy (h : s.Tidy) {p : ℕ} (hp : (s.cache.entries p).live = true) {env : IoEnv}
    {r : Ret} (hup : s.updateCache p env = .ok (r,s')) : s'.Tidy := by
  cases updateCache_hit hup with
  | recent hin =>
    refine h.of_cache fun q hq => ?_
    rwa [Cache.cacheListSwap,cacheListAdd_live,cacheListDel_live] at hq
  | frequent hin => exact h.of_cache fun q hq => hq
  | ghost b hb hin h0 => exact updateGhost_tidy h (s.cache.adapted b) env hp
  | unlisted hin => exact h

/-- The entries of a cache own their mappings, and those that were freed have none. -/
def Settled (s : IoCache) (m : Mappings) : Prop := Sound s.data m ∧ s.Tidy

theorem updateCache_settled (h : s.Settled m) {p : ℕ} (hp : (s.cache.entries p).live = true)
    {env : IoEnv} {r : Ret} (hok : NoneRefused s.limits s.data (s.updateCacheEvents p env))
    (hup : s.updateCache p env = .ok (r,s')) :
    s'.Settled (replay s.limits s.data m (s.updateCacheEvents p env)).2 := by
  have hsound := sound_replay h.1 hok fun q hq => ?_
  · rw [replay_updateCache hup] at hsound
    exact ⟨hsound,updateCache_tidy h.2 hp hup⟩
  · simp only [updateCacheEvents] at hq
    split at hq <;> simp [updateGhostEvents] at hq

/-- Only cleaning happens before a miss makes its entry. -/
theorem onNewAdded_settled (h : s.Settled m) (hnew : s.onNewAdded = .ok s') :
    s'.Settled (replay s.limits s.data m (s.onNewAddedCleans.map (·,.cleaned))).2 := by
  have hsound := sound_replay h.1 (noneRefused_cleaned s.limits s.data s.onNewAddedCleans)
    fun q hq => by simp at hq
  rw [replay_cleaned,← onNewAdded_cleans hnew] at hsound
  exact ⟨hsound,h.2.frees (onNewAdded_frees hnew)⟩

theorem get_settled (hacc : s.cache.Accounted held) (h : s.Settled m) {key : List UInt8}
    {newOk : Bool} {env : IoEnv} {r : Ret} {q : Option ℕ}
    (hok : NoneRefused s.limits s.data (s.getEvents key newOk env))
    (hget : s.get key newOk env = .ok (r,q,s')) :
    s'.Settled (replay s.limits s.data m (s.getEvents key newOk env)).2 := by
  unfold getEvents at hok ⊢
  cases get_got hget with
  | empty hkey =>
    rw [if_pos hkey]
    exact h
  | lingering p hkey hfound hin =>
    simp only [if_neg hkey,hfound,if_pos hin]
    refine ⟨h.1,h.2.of_cache fun q hq => ?_⟩
    rwa [Cache.putBack,entryRef_live,cacheListAdd_live,entryRef_live] at hq
  | hit p r d hkey hfound hin hup =>
    simp only [if_neg hkey,hfound,if_neg hin] at hok ⊢
    have hlive := (hacc.live p).mpr (hacc.found key p hfound).1
    obtain ⟨hsound,htidy⟩ := updateCache_settled h hlive hok hup
    refine ⟨hsound,htidy.of_cache fun q hq => ?_⟩
    rwa [entryRef_live] at hq
  | refused d hkey hfound hnew hok =>
    simp only [if_neg hkey,hfound,hnew,if_pos hok,List.append_nil]
    exact onNewAdded_settled h hnew
  | miss d hkey hfound hnew hok =>
    subst hok
    have hsettled := onNewAdded_settled h hnew
    -- The next entry is in no use, so what its data replaces has no mapping.
    have hmiss := (Cache.onNewAdded_accounted hacc (onNewAdded_cache hnew)).1
    have hdead : (d.cache.entries d.cache.next).live = false := by
      rw [← Bool.not_eq_true,hmiss.live,hmiss.unused _ (le_refl _)]
      exact lt_irrefl 0
    have hmade := hsettled.1.made (hsettled.2 d.cache.next hdead)
    simp only [if_neg hkey,hfound,hnew]
    rw [replay_append,replay_cleaned,← onNewAdded_cleans hnew]
    refine ⟨hmade,fun q hq => ?_⟩
    by_cases hqn : q = d.cache.next
    · subst hqn
      simp [made,setData,IoEntry.new]
    · have hqd : (d.cache.entries q).live = false := by
        simpa [made,Cache.made,Cache.putBack,Cache.newEntry,Cache.avlAdd,Cache.entryRef,
          Cache.cacheListAdd,Cache.setEntry,hqn] using hq
      simpa [made,setData,hqn] using hsettled.2 q hqd

/-- An entry that is in use is updated. -/
theorem update_settled (h : s.Settled m) {info : IoInfo} {fd : Option ℤ} {env : IoEnv} {p : ℕ}
    (hp : (s.cache.entries p).live = true)
    (hok : NoneRefused s.limits s.data [s.updateEvent info fd env p]) :
    (s.entryUpdateFd info fd env p).2.2.Settled
      (replay s.limits s.data m [s.updateEvent info fd env p]).2 :=
  ⟨h.1.updated hok.1,h.2.setData hp _⟩

/-- An entry that a client holds is in use. -/
theorem live_of_held {c : Cache} (hacc : c.Accounted held) {p : ℕ} (hp : 0 < held p) :
    (c.entries p).live = true := by
  have hcount := hacc.count p
  exact (hacc.live p).mpr (by omega)

theorem iocacheGet_settled (hacc : s.cache.Accounted held) (h : s.Settled m) {key : List UInt8}
    {newOk : Bool} {fetchEnv env : IoEnv} {info : IoInfo} {fd fd' : Option ℤ} {ret : Ret}
    {q : Option ℕ}
    (hok : NoneRefused s.limits s.data (s.iocacheGetEvents key newOk fetchEnv info fd env))
    (hget : s.iocacheGet key newOk fetchEnv info fd env = .ok (ret,fd',q,s')) :
    s'.Settled (replay s.limits s.data m (s.iocacheGetEvents key newOk fetchEnv info fd env)).2 := by
  unfold iocacheGet at hget
  obtain ⟨⟨r,entry,d⟩,hd,hget⟩ := bind_ok_inv hget
  unfold iocacheGetEvents at hok ⊢
  simp only [hd] at hok ⊢
  obtain ⟨hok,hokd⟩ := (noneRefused_append (m:=m) ..).mp hok
  have hsettled := get_settled hacc h hok hd
  rw [replay_get hd] at hokd
  rw [replay_append,replay_get hd]
  rw [← (get_data hd 0).1] at hsettled hokd ⊢
  cases entry with
  | none =>
    cases Except.ok.inj hget
    exact hsettled
  | some p =>
    simp only at hget hokd ⊢
    have hlive := live_of_held (Cache.get_accounted hacc (Cache.get_got (get_cache hd))) (p:=p)
      (by simp [Cache.taken])
    split_ifs at hget hokd ⊢ with hr
    · have hupd := update_settled hsettled hlive hokd
      cases Except.ok.inj hget
      exact hupd
    · cases Except.ok.inj hget
      exact hsettled

end Frees

end IoCache

/-- The I/O cache with its mappings, until it is torn down. -/
structure MappedSys where
  sys : IoSys
  map : Mappings
  torn : Bool

/-- A call of a client, or `http2d_iocache_mrproper`. -/
inductive MappedAct
  | call (a : IoAct)
  | mrproper

/-- What a call of a client does to the entries. -/
def IoSys.events (s : IoSys) : IoAct → List (ℕ × Event)
  | .get _ key newOk fetchEnv info fd env => s.io.iocacheGetEvents key newOk fetchEnv info fd env
  | .update _ p info fd env => [s.io.updateEvent info fd env p]
  | .unref _ p => (s.io.unrefCleans p).map (·,.cleaned)

namespace MappedSys

open IoCache

def init (maxSize : ℤ) (limits : IoLimits) : MappedSys :=
  ⟨.init maxSize limits,⟨fun _ => 0,Resources.init⟩,false⟩

/-- The calls of the system are those of the events. -/
def step (s : MappedSys) : MappedAct → Option MappedSys
  | .call a => if s.torn then none else (s.sys.step a).map fun sys =>
      {s with sys := sys, map := (replay s.sys.io.limits s.sys.io.data s.map (s.sys.events a)).2}
  | .mrproper => if s.torn then none else
      some {s with sys.io.cache := s.sys.io.cache.mrproper, torn := true}

/-- The condition on one step: no `mmap` is refused, and the cache is torn down only when no entry
has a mapping. -/
def MapsGranted (s : MappedSys) : MappedAct → Prop
  | .call a => NoneRefused s.sys.io.limits s.sys.io.data (s.sys.events a)
  | .mrproper => ∀ p, (s.sys.io.cache.entries p).live = true → (s.sys.io.data p).mmaped = .null

/-- The mapping of the entry `p` is live, and as long as the entry says. -/
def HasMapping (s : MappedSys) (p : ℕ) : Prop := (s.sys.io.data p).mmaped = .address ∧
  (s.map.addr p,(s.sys.io.data p).mmapedLen) ∈ s.map.maps.live

/-- Every pointer is NULL or that of a mapping, which the flag shows; what was unmapped was a
mapping, of its own length; every mapping that was made is live or was unmapped, and that once; and
a live one is that of a single entry, which is not freed. -/
structure OwnedOnce (s : MappedSys) : Prop where
  pointer : ∀ p, (s.sys.io.data p).mmaped = .null ∨ s.HasMapping p
  flag : ∀ p, (s.sys.io.data p).infoMmap = true → s.HasMapping p
  unmapped : s.map.maps.bad = []
  once : (s.map.maps.live.map Prod.fst ++ s.map.maps.released).Perm (List.range s.map.maps.made)
  owner : ∀ r ∈ s.map.maps.live, ∃! p, s.HasMapping p ∧ s.map.addr p = r.1
  freed : ∀ p, s.HasMapping p → (s.sys.io.cache.entries p).live = true

/-- What the steps preserve. -/
def Inv (s : MappedSys) : Prop := s.sys.io.Settled s.map ∧
  (s.torn = false → s.sys.base.cache.Accounted s.sys.base.refs)

theorem init_inv (maxSize : ℤ) (limits : IoLimits) : (init maxSize limits).Inv := by
  refine ⟨⟨⟨init_owned fun p => rfl,fun p => ?_,fun p hp => by cases hp⟩,fun p _ => rfl⟩,
    fun _ => Cache.init_accounted maxSize⟩
  exact fun h => by cases h

theorem Inv.ownedOnce {s : MappedSys} (h : s.Inv) : s.OwnedOnce := by
  obtain ⟨⟨hsound,htidy⟩,_⟩ := h
  have hholds {p : ℕ} (hp : (s.sys.io.data p).mmaped = .address) :
      holds s.sys.io.data s.map.addr p = some (s.map.addr p,(s.sys.io.data p).mmapedLen) := if_pos hp
  have hmap {p : ℕ} (hp : (s.sys.io.data p).mmaped = .address) : s.HasMapping p :=
    ⟨hp,hsound.owned.backed p _ (hholds hp)⟩
  refine ⟨fun p => ?_,fun p hp => hmap (hsound.flag p hp),hsound.owned.clean,hsound.owned.once,
    fun r hr => ?_,fun p hp => ?_⟩
  · cases hptr : (s.sys.io.data p).mmaped with
    | null => exact Or.inl rfl
    | failed => exact absurd hptr (hsound.pointer p)
    | address => exact Or.inr (hmap hptr)
  · obtain ⟨p,hp⟩ := hsound.owned.owner r hr
    have haddr : (s.sys.io.data p).mmaped = .address := by
      by_contra hne
      rw [holds,if_neg hne] at hp
      cases hp
    rw [hholds haddr] at hp
    refine ⟨p,⟨hmap haddr,congrArg Prod.fst (Option.some.inj hp)⟩,fun q hq => ?_⟩
    refine hsound.owned.unique q p _ _ (hholds hq.1.1) (hholds haddr) ?_
    exact hq.2.trans (congrArg Prod.fst (Option.some.inj hp)).symm
  · by_contra hlive
    have hnull := htidy p (Bool.not_eq_true _ ▸ hlive)
    rw [hp.1] at hnull
    cases hnull

theorem call_inv {s : MappedSys} (h : s.Inv) (htorn : s.torn = false) {a : IoAct}
    (hok : NoneRefused s.sys.io.limits s.sys.io.data (s.sys.events a)) {sys : IoSys}
    (hstep : s.sys.step a = some sys) :
    sys.io.Settled (replay s.sys.io.limits s.sys.io.data s.map (s.sys.events a)).2 := by
  obtain ⟨hsettled,hacc⟩ := h
  have hacc := hacc htorn
  cases a with
  | get client key newOk fetchEnv info fd env =>
    simp only [IoSys.step] at hstep
    split at hstep
    · rename_i hget
      cases Option.some.inj hstep
      exact iocacheGet_settled hacc hsettled hok hget
    · rename_i hget
      cases Option.some.inj hstep
      exact iocacheGet_settled hacc hsettled hok hget
    · cases hstep
  | update client p info fd env =>
    simp only [IoSys.step] at hstep
    split_ifs at hstep with hcontains
    have hheld := List.contains_iff_mem.mp hcontains
    cases Option.some.inj hstep
    exact update_settled hsettled (live_of_held hacc (CacheSys.refs_pos (s:=s.sys.base) hheld)) hok
  | unref client p =>
    simp only [IoSys.step] at hstep
    split_ifs at hstep
    cases Option.some.inj hstep
    have hsound := sound_replay hsettled.1 hok fun q hq => by simp [IoSys.events] at hq
    rw [IoSys.events,replay_cleaned,← entryUnrefGuts_cleans] at hsound
    exact ⟨hsound,hsettled.2.frees (entryUnrefGuts_frees _ p)⟩

/-- What is torn down has no mapping left. -/
theorem mrproper_tidy {c : IoCache} (h : c.Tidy)
    (hnone : ∀ p, (c.cache.entries p).live = true → (c.data p).mmaped = .null) :
    ({c with cache := c.cache.mrproper} : IoCache).Tidy := by
  intro p _
  cases hlive : (c.cache.entries p).live with
  | false => exact h p hlive
  | true => exact hnone p hlive

theorem step_inv {s s' : MappedSys} {a : MappedAct} (h : s.Inv) (hg : s.MapsGranted a)
    (hstep : s.step a = some s') : s'.Inv := by
  cases a with
  | call a =>
    simp only [step] at hstep
    split_ifs at hstep with htorn
    have htorn := Bool.not_eq_true _ ▸ htorn
    obtain ⟨sys,hsys,rfl⟩ := Option.map_eq_some_iff.mp hstep
    exact ⟨call_inv h htorn hg hsys,fun _ => IoSys.step_accounted (h.2 htorn) hsys⟩
  | mrproper =>
    simp only [step] at hstep
    split_ifs at hstep
    cases Option.some.inj hstep
    exact ⟨⟨h.1.1,mrproper_tidy h.1.2 hg⟩,fun ht => by cases ht⟩

/-- In every run whose mappings are granted. -/
theorem run_ownedOnce (maxSize : ℤ) (limits : IoLimits) {as : List MappedAct} {t : MappedSys}
    (hg : Guarded step MapsGranted (init maxSize limits) as)
    (hrun : run step (init maxSize limits) as = some t) : t.OwnedOnce :=
  (guarded_invariant MapsGranted Inv (fun _ _ _ hi hg hs => step_inv hi hg hs)
    (init_inv maxSize limits) hg hrun).ownedOnce

/-- One client gets a file with its mapping and gives it back. -/
def visited : List MappedAct := (IoSys.visit 1 0).map .call

theorem run_ownedOnce_visited : ∃ t, run step (init 4 IoSys.defaults) visited = some t ∧
    t.OwnedOnce := by
  have hg : Guarded step MapsGranted (init 4 IoSys.defaults) visited := by
    refine ⟨?_,fun s hs => ⟨?_,fun _ _ => trivial⟩⟩
    · show NoneRefused ..
      decide
    · cases hs
      show NoneRefused ..
      decide
  have hrun : run step (init 4 IoSys.defaults) visited = some _ := rfl
  exact ⟨_,hrun,run_ownedOnce 4 IoSys.defaults hg hrun⟩

/-- The file can be opened, but not mapped. -/
def unmappable : IoEnv := {IoSys.tenBytes with mmap := .error .enomem}

/-- One client gets the file, and asks again when what is known of it has expired. -/
def refused : MappedAct := .call (.get 0 [1] true unmappable ⟨true,true⟩ none unmappable)
def again : MappedAct := .call (.update 0 0 ⟨true,true⟩ none {IoSys.tenBytes with now := 2000})

/-- A pointer is left that is no mapping, which the next update unmaps; and what is torn down keeps
its mappings. -/
theorem not_ownedOnce_refused :
    (∃ t u, run step (init 4 IoSys.defaults) [refused] = some t ∧ ¬ t.OwnedOnce ∧
      run step (init 4 IoSys.defaults) [refused,again] = some u ∧ u.map.maps.bad ≠ [] ∧
      ¬ u.OwnedOnce) ∧
    ∃ t, run step (init 4 IoSys.defaults) (visited ++ [.mrproper]) = some t ∧ ¬ t.OwnedOnce := by
  have hfirst : run step (init 4 IoSys.defaults) [refused] = some _ := rfl
  have hboth : run step (init 4 IoSys.defaults) [refused,again] = some _ := rfl
  have htorn : run step (init 4 IoSys.defaults) (visited ++ [.mrproper]) = some _ := rfl
  refine ⟨⟨_,_,hfirst,fun h => ?_,hboth,by decide,fun h => ?_⟩,_,htorn,fun h => ?_⟩
  · rcases h.pointer 0 with hnull | ⟨haddr,_⟩
    · exact absurd hnull (by decide)
    · exact absurd haddr (by decide)
  · exact absurd h.unmapped (by decide)
  · have hlive := h.freed 0 ⟨by decide,by decide⟩
    exact absurd hlive (by decide)

end MappedSys

end Http2d
