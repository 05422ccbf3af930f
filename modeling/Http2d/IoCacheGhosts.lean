import Http2d.IoCache

/-! The data of the ghosts in an I/O cache.
The cleaner runs only on an entry without references, and an entry that is demoted still has the
one of the cache. So a ghost is empty when it was empty before it was demoted, or before the last
client gave it back. -/
namespace Http2d

open Transition

/-- Nothing is cached of the file. -/
structure IoEntry.NoData (e : IoEntry) : Prop where
  mmaped : e.mmaped = .null
  mmapedLen : e.mmapedLen = 0
  infoStat : e.infoStat = false
  infoMmap : e.infoMmap = false

theorem IoEntry.noData_iff (e : IoEntry) : e.NoData ↔
    e.mmaped = .null ∧ e.mmapedLen = 0 ∧ e.infoStat = false ∧ e.infoMmap = false :=
  ⟨fun h => ⟨h.mmaped,h.mmapedLen,h.infoStat,h.infoMmap⟩,fun h => ⟨h.1,h.2.1,h.2.2.1,h.2.2.2⟩⟩

instance (e : IoEntry) : Decidable e.NoData := decidable_of_iff _ e.noData_iff.symm

namespace Cache

/-- The entry that `replace` demotes. -/
def victim (c : Cache) (x : Option ℕ) : Option ℕ :=
  if 1 ≤ c.len .t1 ∧ (c.targetT1 < c.len .t1 ∨
      c.len .t1 = c.targetT1 ∧ (x.any fun p => (c.entries p).inList = .b2)) then
    c.cacheListGetLru .t1
  else c.cacheListGetLru .t2

/-- Whether `on_new_added` calls `replace`. -/
def Replaces (cache : Cache) : Prop :=
  let c := cuint cache.maxSize
  let lenL1 := cuint (cache.len .t1+cache.len .b1)
  let lenL2 := cuint (cache.len .t2+cache.len .b2)
  let totalLen := cuint ((lenL1 : ℤ)+lenL2)
  c ≤ lenL1 ∧ cuint (cache.len .t1) < c ∨ lenL1 < c ∧ c ≤ totalLen

instance (c : Cache) : Decidable c.Replaces := inferInstanceAs (Decidable (_ ∨ _))

/-- The entry that a get of `key` demotes. -/
def evicted (c : Cache) (key : List UInt8) : Option ℕ :=
  if key = [] then none
  else
    match c.map key with
    | some p =>
      match (c.entries p).inList with
      | .b1 => ({c with targetT1 := c.adapted .b1} : Cache).victim (some p)
      | .b2 => ({c with targetT1 := c.adapted .b2} : Cache).victim (some p)
      | _ => none
    | none => if c.Replaces then c.victim none else none

/-- Dropping an entry of one list leaves the others. -/
theorem dropLru_other {c d : Cache} {L : CacheList} (hdrop : c.dropLru L = .ok d) :
    d.targetT1 = c.targetT1 ∧ ∀ M, M ≠ L → d.list M = c.list M ∧ d.len M = c.len M := by
  obtain ⟨p,-,rfl⟩ := dropLru_inv hdrop
  have hin := cacheListDel_inList c L p
  have hkeep : ((c.cacheListDel L p).entryUnrefGuts p).2.list = (c.cacheListDel L p).list ∧
      ((c.cacheListDel L p).entryUnrefGuts p).2.len = (c.cacheListDel L p).len ∧
      ((c.cacheListDel L p).entryUnrefGuts p).2.targetT1 = c.targetT1 := by
    simp only [entryUnrefGuts]
    split_ifs <;> simp_all [setEntry,entryFree,cacheListDel]
  obtain ⟨hlist,hlen,htar⟩ := hkeep
  refine ⟨htar,fun M hM => ?_⟩
  rw [hlist,hlen]
  simp [cacheListDel,hM]

theorem dropLru_victim {c d : Cache} {L : CacheList} (hL : L = .b1 ∨ L = .b2)
    (hdrop : c.dropLru L = .ok d) : d.victim none = c.victim none := by
  obtain ⟨htar,hother⟩ := dropLru_other hdrop
  have h1 := hother .t1 (by rcases hL with rfl | rfl <;> decide)
  have h2 := hother .t2 (by rcases hL with rfl | rfl <;> decide)
  simp only [victim,cacheListGetLru,h1.1,h1.2,h2.1,htar,Option.any_none]

end Cache

namespace IoCache

section Projection
variable (s : IoCache)

@[simp] theorem setData_cache (p : ℕ) (e : IoEntry) : (s.setData p e).cache = s.cache := rfl

@[simp] theorem entryParentInfoClean_cache (p : ℕ) :
    (s.entryParentInfoClean p).cache = s.cache := by
  unfold entryParentInfoClean
  split_ifs <;> rfl

/-- Without the data the operations are those of the cache. -/
theorem entryUnrefGuts_cache (p : ℕ) :
    (s.entryUnrefGuts p).2.cache = (s.cache.entryUnrefGuts p).2 := by
  simp only [entryUnrefGuts,Cache.entryUnrefGuts]
  split_ifs <;> simp

theorem demote_cache (src dst : CacheList) :
    (s.demote src dst).cache = s.cache.demote src dst := by
  unfold demote Cache.demote
  cases s.cache.cacheListGetLru src <;> simp

theorem replace_cache (x : Option ℕ) : (s.replace x).cache = s.cache.replace x := by
  simp only [replace,Cache.replace]
  split_ifs
  · exact demote_cache s .t1 .b1
  · exact demote_cache s .t2 .b2

variable {s}

theorem dropLru_inv {s' : IoCache} {L : CacheList} (hdrop : s.dropLru L = .ok s') :
    ∃ p, s.cache.cacheListGetLru L = some p ∧
      s' = (({s with cache := s.cache.cacheListDel L p} : IoCache).entryUnrefGuts p).2 := by
  unfold dropLru at hdrop
  cases hlru : s.cache.cacheListGetLru L with
  | none => simp [hlru] at hdrop
  | some p =>
    simp only [hlru] at hdrop
    exact ⟨p,rfl,(Except.ok.inj hdrop).symm⟩

theorem dropLru_cache {s' : IoCache} {L : CacheList} (hdrop : s.dropLru L = .ok s') :
    s.cache.dropLru L = .ok s'.cache := by
  obtain ⟨p,hlru,rfl⟩ := dropLru_inv hdrop
  simp only [Cache.dropLru,hlru,entryUnrefGuts_cache]

/-- How room is made for a new entry. -/
inductive Roomed (s : IoCache) : IoCache → Prop
  | dropped (L : CacheList) (d : IoCache) (hL : L = .b1 ∨ L = .b2) (hr : s.cache.Replaces)
      (hdrop : s.dropLru L = .ok d) : Roomed s (d.replace none)
  | full (d : IoCache) (hdrop : s.dropLru .t1 = .ok d) : Roomed s d
  | replaced (hr : s.cache.Replaces) : Roomed s (s.replace none)
  | fits : Roomed s s

theorem onNewAdded_roomed {s' : IoCache} (hnew : s.onNewAdded = .ok s') : s.Roomed s' := by
  have hdropped {L : CacheList} (hL : L = .b1 ∨ L = .b2) (hr : s.cache.Replaces)
      (hrep : (s.dropLru L >>= fun d => .ok (d.replace none)) = .ok s') : s.Roomed s' := by
    obtain ⟨d,hd,hrep⟩ := bind_ok_inv hrep
    cases Except.ok.inj hrep
    exact .dropped L d hL hr hd
  simp only [onNewAdded] at hnew
  split_ifs at hnew with hfull hroom hsome hover
  · exact hdropped (Or.inl rfl) (Or.inl ⟨hfull,hroom⟩) hnew
  · exact .full s' hnew
  · exact hdropped (Or.inr rfl) (Or.inr hsome) hnew
  · cases Except.ok.inj hnew
    exact .replaced (Or.inr hsome)
  · cases Except.ok.inj hnew
    exact .fits

theorem onNewAdded_cache {s' : IoCache} (h : s.onNewAdded = .ok s') :
    s.cache.onNewAdded = .ok s'.cache := by
  have hdropped {L : CacheList} (hrep : (s.dropLru L >>= fun d => .ok (d.replace none)) = .ok s') :
      (s.cache.dropLru L >>= fun d => .ok (d.replace none)) = .ok s'.cache := by
    obtain ⟨d,hd,hrep⟩ := bind_ok_inv hrep
    cases Except.ok.inj hrep
    rw [dropLru_cache hd,ok_bind,replace_cache]
  simp only [onNewAdded] at h
  simp only [Cache.onNewAdded]
  split_ifs at h ⊢
  · exact hdropped h
  · exact dropLru_cache h
  · exact hdropped h
  · cases Except.ok.inj h
    rw [ok_bind,replace_cache]
  · cases Except.ok.inj h
    rfl

theorem updateGhost_cache (s : IoCache) (b : CacheList) (target : ℤ) (env : IoEnv) (p : ℕ) :
    (s.updateGhost b target env p).1 = .ok ∧ (s.updateGhost b target env p).2.cache =
      (s.cache.updateGhost b target .ok p).2 := by
  simp only [updateGhost,fetchInfo,Cache.updateGhost,setData_cache,replace_cache,if_true,
    and_self]

/-- What a hit does: the return code and the cache. A fetch is a success in any case. -/
inductive Hit (s : IoCache) (p : ℕ) (env : IoEnv) : Ret → IoCache → Prop
  | recent (hin : (s.cache.entries p).inList = .t1) :
      Hit s p env .ok {s with cache := s.cache.cacheListSwap .t1 .t2 p}
  | frequent (hin : (s.cache.entries p).inList = .t2) :
      Hit s p env .ok {s with cache := s.cache.cacheListMakeFirst .t2 p}
  | ghost (b : CacheList) (hb : b = .b1 ∨ b = .b2) (hin : (s.cache.entries p).inList = b)
      (h0 : s.cache.len b ≠ 0) : Hit s p env .ok (s.updateGhost b (s.cache.adapted b) env p).2
  | unlisted (hin : (s.cache.entries p).inList = .noList) : Hit s p env .error s

theorem updateCache_hit {s' : IoCache} {p : ℕ} {env : IoEnv} {r : Ret}
    (hup : s.updateCache p env = .ok (r,s')) : s.Hit p env r s' := by
  have hghost {b : CacheList} (hb : b = .b1 ∨ b = .b2) (hin : (s.cache.entries p).inList = b)
      (h0 : s.cache.len b ≠ 0) (heq : s.updateGhost b (s.cache.adapted b) env p = (r,s')) :
      s.Hit p env r s' := by
    have hok : (s.updateGhost b (s.cache.adapted b) env p).1 = .ok := (updateGhost_cache ..).1
    have hhit : s.Hit p env .ok _ := .ghost b hb hin h0
    rw [heq] at hok hhit
    cases hok
    exact hhit
  simp only [updateCache] at hup
  cases hin : (s.cache.entries p).inList with
  | noList =>
    simp only [hin] at hup
    cases Except.ok.inj hup
    exact .unlisted hin
  | t1 =>
    simp only [hin] at hup
    cases Except.ok.inj hup
    exact .recent hin
  | t2 =>
    simp only [hin] at hup
    cases Except.ok.inj hup
    exact .frequent hin
  | b1 =>
    simp only [hin] at hup
    split_ifs at hup with h0
    exact hghost (Or.inl rfl) hin h0 (Except.ok.inj hup)
  | b2 =>
    simp only [hin] at hup
    split_ifs at hup with h0
    exact hghost (Or.inr rfl) hin h0 (Except.ok.inj hup)

theorem updateCache_cache {s' : IoCache} {p : ℕ} {env : IoEnv} {r : Ret}
    (hup : s.updateCache p env = .ok (r,s')) : s.cache.updateCache p .ok = .ok (r,s'.cache) := by
  cases updateCache_hit hup with
  | recent hin => simp only [Cache.updateCache,hin]
  | frequent hin => simp only [Cache.updateCache,hin]
  | ghost b hb hin h0 =>
    rw [(updateGhost_cache ..).2]
    rcases hb with rfl | rfl
    · simp only [Cache.updateCache,hin,Cache.updateGhostB1,if_neg h0]
      rfl
    · simp only [Cache.updateCache,hin,Cache.updateGhostB2,if_neg h0]
      rfl
  | unlisted hin => simp only [Cache.updateCache,hin]

/-- How a miss makes its new entry. -/
def made (s : IoCache) (key : List UInt8) : IoCache :=
  {s.setData s.cache.next .new with cache := s.cache.made key}

/-- What a call of `http2d_cache_get` does: the return code, the entry and the cache. -/
inductive Got (s : IoCache) (key : List UInt8) (newOk : Bool) (env : IoEnv) :
    Ret → Option ℕ → IoCache → Prop
  | empty (hkey : key = []) : Got s key newOk env .error none s
  | lingering (p : ℕ) (hkey : key ≠ []) (hfound : s.cache.map key = some p)
      (hin : (s.cache.entries p).inList = .noList) :
      Got s key newOk env .ok (some p) {s with cache := s.cache.putBack p}
  | hit (p : ℕ) (r : Ret) (d : IoCache) (hkey : key ≠ []) (hfound : s.cache.map key = some p)
      (hin : (s.cache.entries p).inList ≠ .noList) (hup : s.updateCache p env = .ok (r,d)) :
      Got s key newOk env r (some p) {d with cache := d.cache.entryRef p}
  | refused (d : IoCache) (hkey : key ≠ []) (hfound : s.cache.map key = none)
      (hnew : s.onNewAdded = .ok d) (hok : newOk = false) : Got s key newOk env .error none d
  | miss (d : IoCache) (hkey : key ≠ []) (hfound : s.cache.map key = none)
      (hnew : s.onNewAdded = .ok d) (hok : newOk = true) :
      Got s key newOk env .ok (some d.cache.next) (d.made key)

theorem get_got {s' : IoCache} {key : List UInt8} {newOk : Bool} {env : IoEnv} {r : Ret}
    {q : Option ℕ} (hget : s.get key newOk env = .ok (r,q,s')) : s.Got key newOk env r q s' := by
  unfold get at hget
  by_cases hkey : key = []
  · rw [if_pos hkey] at hget
    cases Except.ok.inj hget
    exact .empty hkey
  rw [if_neg hkey] at hget
  cases hfound : s.cache.map key with
  | some p =>
    by_cases hin : (s.cache.entries p).inList = .noList
    · simp only [hfound,if_pos hin] at hget
      cases Except.ok.inj hget
      exact .lingering p hkey hfound hin
    · simp only [hfound,if_neg hin] at hget
      obtain ⟨⟨r',d⟩,hd,hget⟩ := bind_ok_inv hget
      cases Except.ok.inj hget
      exact .hit p _ d hkey hfound hin hd
  | none =>
    simp only [hfound] at hget
    obtain ⟨d,hd,hget⟩ := bind_ok_inv hget
    cases newOk with
    | false =>
      cases Except.ok.inj hget
      exact .refused _ hkey hfound hd rfl
    | true =>
      cases Except.ok.inj hget
      exact .miss d hkey hfound hd rfl

theorem get_cache {s' : IoCache} {key : List UInt8} {newOk : Bool} {env : IoEnv} {r : Ret}
    {q : Option ℕ} (hget : s.get key newOk env = .ok (r,q,s')) :
    s.cache.get key newOk .ok = .ok (r,q,s'.cache) := by
  unfold Cache.get
  cases get_got hget with
  | empty hkey => rw [if_pos hkey]
  | lingering p hkey hfound hin =>
    simp only [if_neg hkey,hfound,if_pos hin]
    rfl
  | hit p r d hkey hfound hin hup => simp only [if_neg hkey,hfound,if_neg hin,updateCache_cache hup,ok_bind]
  | refused d hkey hfound hnew hok =>
    simp only [if_neg hkey,hfound,onNewAdded_cache hnew,ok_bind,if_pos hok]
  | miss d hkey hfound hnew hok =>
    subst hok
    simp only [if_neg hkey,hfound,onNewAdded_cache hnew,ok_bind]
    rfl

end Projection

/-- The ghosts that no client holds are empty; the clients hold `held p` references to `p`. -/
def GhostsEmpty (s : IoCache) (held : ℕ → ℕ) : Prop :=
  ∀ b, b = .b1 ∨ b = .b2 → ∀ p, (s.cache.entries p).inList = b → held p = 0 → (s.data p).NoData

section Ghosts
variable {s s' : IoCache} {held held' : ℕ → ℕ}

/-- One entry changes its list, its data or the references to it. -/
theorem GhostsEmpty.of_frame (h : s.GhostsEmpty held) (p : ℕ)
    (hframe : ∀ q, q ≠ p → (s'.cache.entries q).inList = (s.cache.entries q).inList ∧
      s'.data q = s.data q ∧ (held' q = 0 → held q = 0))
    (hp : ∀ b, b = .b1 ∨ b = .b2 → (s'.cache.entries p).inList = b → held' p = 0 →
      (s'.data p).NoData) : s'.GhostsEmpty held' := by
  intro b hb q hin hheld
  by_cases hq : q = p
  · subst hq
    exact hp b hb hin hheld
  · obtain ⟨hlist,hdata,hzero⟩ := hframe q hq
    rw [hdata]
    exact h b hb q (hlist ▸ hin) (hzero hheld)

theorem cached_ne {L b : CacheList} (hL : L = .t1 ∨ L = .t2 ∨ L = .noList)
    (hb : b = .b1 ∨ b = .b2) : L ≠ b := by
  rcases hL with rfl | rfl | rfl <;> rcases hb with rfl | rfl <;> decide

/-- The cleaner leaves a listed entry alone. -/
theorem demote_data (h : s.cache.Accounted held) {src : CacheList} (hs : src ≠ .noList)
    (dst : CacheList) : (s.demote src dst).data = s.data := by
  unfold demote
  rcases h.getLru hs with ⟨_,hlru⟩ | ⟨_,p,hlru,hin⟩
  · rw [hlru]
  · have hcount := h.count p
    rw [Cache.listed_of hs hin] at hcount
    have hpos : 0 < ((s.cache.cacheListDel src p).entries p).refCount := by
      simp only [Cache.cacheListDel,Cache.setEntry,Function.update_self]
      omega
    simp only [hlru,entryParentInfoClean,if_pos hpos]

theorem demote_ghosts (h : s.cache.Accounted held) (hg : s.GhostsEmpty held) {src : CacheList}
    (hs : src ≠ .noList) (dst : CacheList)
    (hv : ∀ p, s.cache.cacheListGetLru src = some p → held p = 0 → (s.data p).NoData) :
    (s.demote src dst).GhostsEmpty held := by
  have hdata := demote_data h hs dst
  cases hlru : s.cache.cacheListGetLru src with
  | none =>
    have hsame : s.demote src dst = s := by simp [demote,hlru]
    rwa [hsame]
  | some p =>
    refine hg.of_frame p (fun q hq => ⟨?_,by rw [hdata],id⟩) fun b _ _ hheld => ?_
    · rw [demote_cache]
      simp [Cache.demote,hlru,Cache.cacheListAdd,Cache.cacheListDel,Cache.setEntry,hq]
    · rw [hdata]
      exact hv p hlru hheld

theorem replace_ghosts (h : s.cache.Accounted held) (hg : s.GhostsEmpty held) {x : Option ℕ}
    (hv : ∀ p, s.cache.victim x = some p → held p = 0 → (s.data p).NoData) :
    (s.replace x).GhostsEmpty held := by
  simp only [replace]
  simp only [Cache.victim] at hv
  split_ifs at hv ⊢
  · exact demote_ghosts h hg (by decide) .b1 hv
  · exact demote_ghosts h hg (by decide) .b2 hv

/-- Giving a reference back concerns one entry, which ends in its list or in none. -/
theorem entryUnrefGuts_frame (s : IoCache) (p : ℕ) :
    (∀ q, q ≠ p → ((s.entryUnrefGuts p).2.cache.entries q).inList = (s.cache.entries q).inList ∧
      (s.entryUnrefGuts p).2.data q = s.data q) ∧
    (((s.entryUnrefGuts p).2.cache.entries p).inList = .noList ∨
      ((s.entryUnrefGuts p).2.cache.entries p).inList = (s.cache.entries p).inList ∧
        (s.entryUnrefGuts p).2.data p = s.data p) := by
  rw [entryUnrefGuts_cache]
  by_cases hmore : 1 < (s.cache.entries p).refCount
  · have hsame : (s.entryUnrefGuts p).2.data = s.data := by
      simp [entryUnrefGuts,Cache.setEntry,hmore]
    rw [Cache.entryUnrefGuts_kept hmore,hsame]
    refine ⟨fun q hq => ⟨by simp [Cache.setEntry,hq],rfl⟩,Or.inr ⟨by simp [Cache.setEntry],rfl⟩⟩
  · have hdata (q : ℕ) (hq : q ≠ p) : (s.entryUnrefGuts p).2.data q = s.data q := by
      simp only [entryUnrefGuts,Cache.setEntry,Function.update_self]
      rw [if_neg (by omega)]
      simp only [entryParentInfoClean]
      split_ifs <;> simp [setData,hq]
    rw [(Cache.entryUnrefGuts_freed (not_lt.mp hmore)).1]
    exact ⟨fun q hq => ⟨by simp [hq],hdata q hq⟩,Or.inl (by simp)⟩

theorem dropLru_ghosts (h : s.cache.Coherent) (hg : s.GhostsEmpty held) {L : CacheList}
    (hL : L ≠ .noList) (hdrop : s.dropLru L = .ok s') :
    s'.GhostsEmpty held ∧ ∀ q, (s.cache.entries q).inList ≠ L → s'.data q = s.data q := by
  obtain ⟨p,hlru,rfl⟩ := dropLru_inv hdrop
  have hin : (s.cache.entries p).inList = L := (h.mem L p hL).mp (List.mem_of_getLast? hlru)
  let d : IoCache := {s with cache := s.cache.cacheListDel L p}
  obtain ⟨hother,hself⟩ := entryUnrefGuts_frame d p
  have hnot : (d.cache.entries p).inList = .noList := Cache.cacheListDel_inList s.cache L p
  have hout : ((d.entryUnrefGuts p).2.cache.entries p).inList = .noList := by
    rcases hself with hself | ⟨hself,_⟩
    · exact hself
    · rw [hself,hnot]
  constructor
  · refine hg.of_frame p (fun q hq => ⟨?_,(hother q hq).2,id⟩) fun b hb hin _ => ?_
    · rw [(hother q hq).1]
      simp [d,Cache.cacheListDel,Cache.setEntry,hq]
    · exact absurd (hout.symm.trans hin) (cached_ne (Or.inr (Or.inr rfl)) hb)
  · exact fun q hq => (hother q fun heq => hq (heq ▸ hin)).2

theorem victim_inList (h : s.cache.Coherent) {x : Option ℕ} {p : ℕ}
    (hv : s.cache.victim x = some p) :
    (s.cache.entries p).inList = .t1 ∨ (s.cache.entries p).inList = .t2 := by
  simp only [Cache.victim] at hv
  split_ifs at hv
  · exact Or.inl ((h.mem .t1 p (by decide)).mp (List.mem_of_getLast? hv))
  · exact Or.inr ((h.mem .t2 p (by decide)).mp (List.mem_of_getLast? hv))

/-- Making room leaves the ghosts empty when the entry that is demoted is. -/
theorem onNewAdded_ghosts (h : s.cache.Accounted held) (hg : s.GhostsEmpty held)
    (hv : s.cache.Replaces → ∀ p, s.cache.victim none = some p → held p = 0 → (s.data p).NoData)
    (hnew : s.onNewAdded = .ok s') : s'.GhostsEmpty held := by
  cases onNewAdded_roomed hnew with
  | dropped L d hL hr hdrop =>
    have hL0 : L ≠ .noList := by rcases hL with rfl | rfl <;> decide
    obtain ⟨hgd,hdata⟩ := dropLru_ghosts h.toCoherent hg hL0 hdrop
    have hdrop' := dropLru_cache hdrop
    refine replace_ghosts (Cache.dropLru_accounted h hL0 hdrop').1 hgd fun p hp hheld => ?_
    rw [Cache.dropLru_victim hL hdrop'] at hp
    have hin := victim_inList h.toCoherent hp
    rw [hdata p fun heq => by rcases hL with rfl | rfl <;> simp [heq] at hin]
    exact hv hr p hp hheld
  | full d hdrop => exact (dropLru_ghosts h.toCoherent hg (by decide) hdrop).1
  | replaced hr => exact replace_ghosts h hg (hv hr)
  | fits => exact hg

/-- A ghost that is hit leaves the ghosts, with whatever the fetch has put into it. -/
theorem updateGhost_ghosts (h : s.cache.Accounted held) (hg : s.GhostsEmpty held) {b : CacheList}
    (target : ℤ) (env : IoEnv) {p : ℕ}
    (hv : ∀ q, ({s.cache with targetT1 := target} : Cache).victim (some p) = some q → held q = 0 →
      (s.data q).NoData) : (s.updateGhost b target env p).2.GhostsEmpty held := by
  let d : IoCache := {s with cache := {s.cache with targetT1 := target}}
  have hd : d.cache.Accounted held :=
    h.of_moved (h.toCoherent.of_same rfl rfl rfl (fun _ _ => id) fun _ => rfl) rfl rfl
      fun _ => ⟨rfl,rfl,rfl,rfl⟩
  have hrep : (d.replace (some p)).GhostsEmpty held := replace_ghosts hd hg hv
  refine hrep.of_frame p (fun q hq => ⟨?_,?_,id⟩) fun b' hb' hin _ => ?_
  · simp only [updateGhost,fetchInfo,if_true,setData_cache]
    simp [d,Cache.cacheListSwap,Cache.cacheListAdd,Cache.cacheListDel,Cache.setEntry,hq]
  · simp only [updateGhost,fetchInfo,if_true]
    simp [d,setData,hq]
  · simp only [updateGhost,fetchInfo,if_true,setData_cache] at hin
    simp only [Cache.cacheListSwap,Cache.cacheListAdd,Cache.setEntry,Function.update_self] at hin
    exact absurd hin (cached_ne (Or.inr (Or.inl rfl)) hb')

theorem updateCache_ghosts (h : s.cache.Accounted held) (hg : s.GhostsEmpty held) {p : ℕ}
    {key : List UInt8} (hkey : key ≠ []) (hfound : s.cache.map key = some p) {env : IoEnv}
    (hv : ∀ q, s.cache.evicted key = some q → held q = 0 → (s.data q).NoData) {r : Ret}
    (hup : s.updateCache p env = .ok (r,s')) : s'.GhostsEmpty held := by
  simp only [Cache.evicted,if_neg hkey,hfound] at hv
  have hmoved {c : Cache} {L : CacheList} (hL : L = .t1 ∨ L = .t2 ∨ L = .noList)
      (hself : (c.entries p).inList = L)
      (hother : ∀ q, q ≠ p → (c.entries q).inList = (s.cache.entries q).inList) :
      ({s with cache := c} : IoCache).GhostsEmpty held :=
    hg.of_frame p (fun q hq => ⟨hother q hq,rfl,id⟩) fun b hb hin _ =>
      absurd (hself.symm.trans hin) (cached_ne hL hb)
  cases updateCache_hit hup with
  | recent hin =>
    refine hmoved (Or.inr (Or.inl rfl)) ?_ fun q hq => ?_
    · simp [Cache.cacheListSwap,Cache.cacheListAdd,Cache.setEntry]
    · simp [Cache.cacheListSwap,Cache.cacheListAdd,Cache.cacheListDel,Cache.setEntry,hq]
  | frequent hin => exact hmoved (Or.inr (Or.inl rfl)) hin fun _ _ => rfl
  | ghost b hb hin h0 =>
    refine updateGhost_ghosts h hg (s.cache.adapted b) env fun q hq => hv q ?_
    rcases hb with rfl | rfl <;> rwa [hin]
  | unlisted hin => exact hg

/-- A get leaves the ghosts empty when the entry that it demotes is. -/
theorem get_ghosts (h : s.cache.Accounted held) (hg : s.GhostsEmpty held) {key : List UInt8}
    {newOk : Bool} {env : IoEnv}
    (hv : ∀ q, s.cache.evicted key = some q → held q = 0 → (s.data q).NoData) {r : Ret}
    {q : Option ℕ} (hget : s.get key newOk env = .ok (r,q,s')) :
    s'.GhostsEmpty (Cache.taken held q) := by
  have htaken (p q : ℕ) (hq : Cache.taken held (some p) q = 0) : held q = 0 := by
    by_cases hqp : q = p
    · subst hqp
      simp [Cache.taken] at hq
    · simpa [Cache.taken,hqp] using hq
  cases get_got hget with
  | empty hkey => exact hg
  | lingering p hkey hfound hin =>
    refine hg.of_frame p (fun q hq => ⟨?_,rfl,htaken p q⟩) fun b hb hin' _ => ?_
    · simp [Cache.putBack,Cache.entryRef,Cache.cacheListAdd,Cache.setEntry,hq]
    · simp only [Cache.putBack,Cache.entryRef,Cache.cacheListAdd,Cache.setEntry,Function.update_self] at hin'
      exact absurd hin' (cached_ne (Or.inl rfl) hb)
  | hit p r d hkey hfound hin hup =>
    have hgd := updateCache_ghosts h hg hkey hfound hv hup
    intro b hb q hin hheld
    refine hgd b hb q ?_ (htaken p q hheld)
    rw [← hin]
    exact (Cache.setEntry_inList (c:=d.cache) (p:=p)
      (e:={d.cache.entries p with refCount := (d.cache.entries p).refCount+1}) rfl q).symm
  | refused d hkey hfound hnew hok =>
    exact onNewAdded_ghosts h hg (fun hr q hq => hv q (by
      simp only [Cache.evicted,if_neg hkey,hfound,if_pos hr,hq])) hnew
  | miss d hkey hfound hnew hok =>
    have hgd := onNewAdded_ghosts h hg (fun hr q hq => hv q (by
      simp only [Cache.evicted,if_neg hkey,hfound,if_pos hr,hq])) hnew
    refine hgd.of_frame d.cache.next (fun q hq => ⟨?_,?_,htaken _ q⟩) fun b hb hin' _ => ?_
    · simp [made,Cache.made,Cache.putBack,Cache.newEntry,Cache.avlAdd,Cache.entryRef,Cache.cacheListAdd,
        Cache.setEntry,hq]
    · simp [made,setData,hq]
    · simp only [made,Cache.made,Cache.putBack,Cache.newEntry,Cache.avlAdd,Cache.entryRef,
        Cache.cacheListAdd,Cache.setEntry,Function.update_self] at hin'
      exact absurd hin' (cached_ne (Or.inl rfl) hb)

end Ghosts

end IoCache

namespace IoSys

open IoCache

/-- The cache and the references, without the data. -/
def base (s : IoSys) : CacheSys := ⟨s.io.cache,s.held⟩

/-- The condition on one call: what a get demotes is empty or held, and what is given back last
is empty when it is a ghost. -/
def DropsData (s : IoSys) : IoAct → Prop
  | .get _ key _ _ _ _ _ => ∀ p, s.io.cache.evicted key = some p → s.base.refs p = 0 →
      (s.io.data p).NoData
  | .update _ _ _ _ _ => True
  | .unref _ p => ∀ b, b = .b1 ∨ b = .b2 → (s.io.cache.entries p).inList = b →
      s.base.refs p = 1 → (s.io.data p).NoData

instance (s : IoSys) : ∀ a, Decidable (s.DropsData a)
  | .get _ key _ _ _ _ _ => inferInstanceAs
      (Decidable (∀ p ∈ s.io.cache.evicted key, s.base.refs p = 0 → (s.io.data p).NoData))
  | .update _ _ _ _ _ => isTrue trivial
  | .unref _ p => decidable_of_iff
      ((s.io.cache.entries p).inList = .b1 ∨ (s.io.cache.entries p).inList = .b2 →
        s.base.refs p = 1 → (s.io.data p).NoData)
      ⟨fun h _ hb hin => h (hin ▸ hb),fun h hb => h _ hb rfl⟩

/-- The counted references and the empty ghosts. -/
def Inv (s : IoSys) : Prop := s.base.cache.Accounted s.base.refs ∧ s.io.GhostsEmpty s.base.refs

theorem init_inv (maxSize : ℤ) (limits : IoLimits) : (init maxSize limits).Inv :=
  ⟨Cache.init_accounted maxSize,fun _ hb _ hin _ =>
    absurd hin (cached_ne (Or.inr (Or.inr rfl)) hb)⟩

/-- An update concerns the data of an entry that a client holds. -/
theorem update_ghosts {s : IoCache} {held : ℕ → ℕ} (hg : s.GhostsEmpty held) (info : IoInfo)
    (fd : Option ℤ) (env : IoEnv) {p : ℕ} (hp : 0 < held p) :
    (s.entryUpdateFd info fd env p).2.2.GhostsEmpty held :=
  hg.of_frame p (fun q hq => ⟨rfl,by simp [entryUpdateFd,setData,hq],id⟩)
    fun _ _ _ hheld => absurd hheld hp.ne'

/-- What a call of a client does. An entry that a client gets comes with `ret_ok`. -/
inductive Called (s : IoSys) : IoAct → IoSys → Prop
  | missed {client : ℕ} {key : List UInt8} {newOk : Bool} {fetchEnv env : IoEnv} {info : IoInfo}
      {fd : Option ℤ} (r : Ret) (io : IoCache) (hget : s.io.get key newOk fetchEnv = .ok (r,none,io)) :
      Called s (.get client key newOk fetchEnv info fd env) ⟨io,s.held⟩
  | got {client : ℕ} {key : List UInt8} {newOk : Bool} {fetchEnv env : IoEnv} {info : IoInfo}
      {fd : Option ℤ} (p : ℕ) (io : IoCache)
      (hget : s.io.get key newOk fetchEnv = .ok (.ok,some p,io)) :
      Called s (.get client key newOk fetchEnv info fd env)
        ⟨(io.entryUpdateFd info fd env p).2.2,(client,p)::s.held⟩
  | updated {client p : ℕ} {info : IoInfo} {fd : Option ℤ} {env : IoEnv}
      (hheld : (client,p) ∈ s.held) :
      Called s (.update client p info fd env) ⟨(s.io.entryUpdateFd info fd env p).2.2,s.held⟩
  | returned {client p : ℕ} (hheld : (client,p) ∈ s.held) :
      Called s (.unref client p) ⟨(s.io.entryUnrefGuts p).2,s.held.erase (client,p)⟩

theorem step_called {s s' : IoSys} {a : IoAct} (hstep : s.step a = some s') : s.Called a s' := by
  cases a with
  | get client key newOk fetchEnv info fd env =>
    simp only [step,iocacheGet] at hstep
    cases hget : s.io.get key newOk fetchEnv with
    | error e => simp [hget] at hstep
    | ok res =>
      obtain ⟨r,q,io⟩ := res
      cases q with
      | none =>
        simp only [hget,ok_bind] at hstep
        cases Option.some.inj hstep
        exact .missed r io hget
      | some p =>
        cases (Cache.get_got (get_cache hget)).ok_of_entry fun b hb => by
          rcases hb with rfl | rfl <;> rfl
        simp only [hget,ok_bind,true_or,if_true] at hstep
        cases Option.some.inj hstep
        exact .got p io hget
  | update client p info fd env =>
    simp only [step] at hstep
    split_ifs at hstep with hcontains
    cases Option.some.inj hstep
    exact .updated (List.contains_iff_mem.mp hcontains)
  | unref client p =>
    simp only [step] at hstep
    split_ifs at hstep with hcontains
    cases Option.some.inj hstep
    exact .returned (List.contains_iff_mem.mp hcontains)

/-- Without the data a step is one of the cache, or none. -/
theorem step_base {s s' : IoSys} {a : IoAct} (hstep : s.step a = some s') :
    s'.base = s.base ∨ ∃ a', s.base.step a' = some s'.base := by
  cases step_called hstep with
  | @missed client key newOk fetchEnv env info fd r io hget =>
    refine Or.inr ⟨.get client key newOk .ok,?_⟩
    simp only [CacheSys.step,base,get_cache hget]
  | @got client key newOk fetchEnv env info fd p io hget =>
    refine Or.inr ⟨.get client key newOk .ok,?_⟩
    simp only [CacheSys.step,base,get_cache hget]
    rfl
  | updated hheld => exact Or.inl rfl
  | @returned client p hheld =>
    refine Or.inr ⟨.unref client p,?_⟩
    simp only [CacheSys.step,base,entryUnrefGuts_cache]
    exact if_pos hheld

theorem step_accounted {s s' : IoSys} {a : IoAct} (h : s.base.cache.Accounted s.base.refs)
    (hstep : s.step a = some s') : s'.base.cache.Accounted s'.base.refs := by
  rcases step_base hstep with hsame | ⟨a',ha'⟩
  · rwa [hsame]
  · exact CacheSys.step_accounted h ha'

theorem step_inv {s s' : IoSys} {a : IoAct} (h : s.Inv) (hg : s.DropsData a)
    (hstep : s.step a = some s') : s'.Inv := by
  refine ⟨step_accounted h.1 hstep,?_⟩
  obtain ⟨ha,hghosts⟩ := h
  cases step_called hstep with
  | missed r io hget => exact get_ghosts ha hghosts hg hget
  | @got client key newOk fetchEnv env info fd p io hget =>
    have hpos : 0 < Cache.taken s.base.refs (some p) p := by simp [Cache.taken]
    have := update_ghosts (get_ghosts ha hghosts hg hget) info fd env hpos
    rwa [show Cache.taken s.base.refs (some p) = _ from
      (CacheSys.refs_got io.cache s.held client p).symm] at this
  | updated hheld => exact update_ghosts hghosts _ _ _ (CacheSys.refs_pos (s:=s.base) hheld)
  | @returned client p hheld =>
    have hrefs : (IoSys.base ⟨(s.io.entryUnrefGuts p).2,s.held.erase (client,p)⟩).refs =
        Function.update s.base.refs p (s.base.refs p-1) := CacheSys.refs_given (s:=s.base) _ hheld
    obtain ⟨hother,hself⟩ := entryUnrefGuts_frame s.io p
    have hpos := CacheSys.refs_pos (s:=s.base) hheld
    rw [hrefs]
    refine hghosts.of_frame p (fun q hq => ⟨(hother q hq).1,(hother q hq).2,fun hz => ?_⟩)
      fun b hb hin hz => ?_
    · rwa [Function.update_of_ne hq] at hz
    · rw [Function.update_self] at hz
      rcases hself with hout | ⟨hsame,hdata⟩
      · exact absurd (hout.symm.trans hin) (cached_ne (Or.inr (Or.inr rfl)) hb)
      · rw [hdata]
        exact hg b hb (hsame ▸ hin) (by omega)

/-- No ghost without clients holds data, and the total of T1 and T2 is that of all entries but
those that clients hold outside of T1 and T2. -/
structure GhostsClean (s : IoSys) : Prop where
  ghosts : ∀ b, b = .b1 ∨ b = .b2 → ∀ p, p ∈ s.io.cache.list b → s.base.refs p = 0 →
    (s.io.data p).NoData
  total : s.io.getMmapedSize = ∑ p ∈ (Finset.range s.io.cache.next).filter (fun p =>
    (s.io.cache.entries p).live ∧ ¬ (0 < s.base.refs p ∧ p ∉ s.io.cache.list .t1 ∧
      p ∉ s.io.cache.list .t2)), (s.io.data p).mmapedLen

theorem Inv.ghostsClean {s : IoSys} (h : s.Inv) : s.GhostsClean := by
  obtain ⟨ha,hg⟩ := h
  change s.io.cache.Accounted s.base.refs at ha
  have hghosts (b : CacheList) (hb : b = .b1 ∨ b = .b2) (p : ℕ) (hp : p ∈ s.io.cache.list b)
      (hz : s.base.refs p = 0) : (s.io.data p).NoData :=
    hg b hb p ((ha.mem b p (by rcases hb with rfl | rfl <;> decide)).mp hp) hz
  refine ⟨hghosts,?_⟩
  have hlisted {L : CacheList} (hL : L ≠ .noList) {p : ℕ} (hp : p ∈ s.io.cache.list L) :
      p < s.io.cache.next ∧ (s.io.cache.entries p).live :=
    ⟨ha.lt_next hL ((ha.mem L p hL).mp hp),(ha.mapped hL hp).1⟩
  have hdisj : Disjoint (s.io.cache.list .t1).toFinset (s.io.cache.list .t2).toFinset :=
    List.disjoint_toFinset_iff_disjoint.mpr (ha.disjoint (by decide) (by decide) (by decide))
  rw [getMmapedSize,← List.sum_toFinset _ (ha.nodup .t1),← List.sum_toFinset _ (ha.nodup .t2),
    ← Finset.sum_union hdisj]
  refine Finset.sum_subset (fun p hp => ?_) fun p hp hnot => ?_
  · rw [Finset.mem_union,List.mem_toFinset,List.mem_toFinset] at hp
    rw [Finset.mem_filter,Finset.mem_range]
    rcases hp with hp | hp
    · obtain ⟨hlt,hlive⟩ := hlisted (by decide) hp
      exact ⟨hlt,hlive,fun hn => hn.2.1 hp⟩
    · obtain ⟨hlt,hlive⟩ := hlisted (by decide) hp
      exact ⟨hlt,hlive,fun hn => hn.2.2 hp⟩
  · -- An entry outside of T1 and T2 that is counted is an empty ghost.
    rw [Finset.mem_union,List.mem_toFinset,List.mem_toFinset,not_or] at hnot
    obtain ⟨_,hlive,hfree⟩ := Finset.mem_filter.mp hp
    have hzero : s.base.refs p = 0 := by
      by_contra hne
      exact hfree ⟨by omega,hnot⟩
    have hcount := ha.count p
    have hpos := (ha.live p).mp hlive
    cases hin : (s.io.cache.entries p).inList with
    | noList =>
      rw [Cache.listed_of_not hin] at hcount
      simp only [base] at hcount hpos hzero
      omega
    | t1 => exact absurd ((ha.mem .t1 p (by decide)).mpr hin) hnot.1
    | t2 => exact absurd ((ha.mem .t2 p (by decide)).mpr hin) hnot.2
    | b1 => exact (hg .b1 (Or.inl rfl) p hin hzero).mmapedLen
    | b2 => exact (hg .b2 (Or.inr rfl) p hin hzero).mmapedLen

/-- In every run whose calls drop the data in time. -/
theorem run_ghostsClean (maxSize : ℤ) (limits : IoLimits) {as : List IoAct} {t : IoSys}
    (hg : Guarded step DropsData (init maxSize limits) as)
    (hrun : run step (init maxSize limits) as = some t) : t.GhostsClean :=
  (guarded_invariant DropsData Inv (fun _ _ _ hi hg hs => step_inv hi hg hs)
    (init_inv maxSize limits) hg hrun).ghostsClean

/-- The limits of a new I/O cache. -/
def defaults : IoLimits := ⟨128*1024,1,5*60,5*60⟩

/-- A regular file of ten bytes that can be mapped. -/
def tenBytes : IoEnv := ⟨1000,false,.ok (10,true),.ok (10,true),.ok 7,.ok ()⟩

/-- One client gets a file with its mapping and gives it back; `p` is the entry. -/
def visit (k : UInt8) (p : ℕ) : List IoAct :=
  [.get 0 [k] true tenBytes ⟨true,true⟩ none tenBytes,.unref 0 p]

/-- A client that gets an entry without anything of the file, and gives it back. -/
def glance (k : UInt8) (p : ℕ) : List IoAct :=
  [.get 0 [k] true tenBytes ⟨false,false⟩ none tenBytes,.unref 0 p]

/-- The second file is demoted, with nothing of it in the cache. -/
def emptyGhost : List IoAct :=
  visit 1 0 ++ visit 1 0 ++ glance 2 1 ++ visit 3 2 ++ visit 4 3 ++ visit 5 4

theorem run_ghostsClean_glance : ∃ t, run step (init 4 defaults) emptyGhost = some t ∧
    t.io.cache.list .b1 = [1] ∧ t.GhostsClean := by
  have hg : Guarded step DropsData (init 4 defaults) emptyGhost := by decide +kernel
  have hrun : run step (init 4 defaults) emptyGhost = some _ := rfl
  exact ⟨_,hrun,rfl,run_ghostsClean 4 defaults hg hrun⟩

/-- Five files are visited in a cache of four, the first one twice. The second one is demoted with
its mapping. -/
theorem run_ghosts_mapped : ∃ t, run step (init 4 defaults)
      (visit 1 0++visit 1 0++visit 2 1++visit 3 2++visit 4 3++visit 5 4) = some t ∧
    1 ∈ t.io.cache.list .b1 ∧ t.base.refs 1 = 0 ∧ (t.io.data 1).mmaped = .address ∧
    ¬ t.GhostsClean := by
  have hrun : run step (init 4 defaults)
      (visit 1 0++visit 1 0++visit 2 1++visit 3 2++visit 4 3++visit 5 4) = some _ := rfl
  refine ⟨_,hrun,by decide,by decide,by decide,fun h => ?_⟩
  have := (h.ghosts .b1 (Or.inl rfl) 1 (by decide) (by decide)).mmaped
  exact absurd this (by decide)

end IoSys

end Http2d
