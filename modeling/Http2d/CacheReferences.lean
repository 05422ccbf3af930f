import Http2d.CacheVictim
import Http2d.CacheConfigure

/-! The references that the cache and its clients hold to an entry.
The cache counts one reference for an entry that is in a list, each client counts the ones it got.
The last one to go frees the entry, so that what is counted is what is live and found. -/
namespace Http2d

open Transition

namespace Cache

/-- The target after a ghost hit: recency is favoured in B1, frequency in B2. -/
def adapted (c : Cache) : CacheList → ℤ
  | .b1 => min c.maxSize (c.targetT1+max 1 ((c.len .b2).tdiv (c.len .b1)))
  | .b2 => max 0 (c.targetT1-max 1 ((c.len .b1).tdiv (c.len .b2)))
  | _ => c.targetT1

/-- The outcomes of a fetch that a ghost hit takes as a success. -/
def accepted : CacheList → Ret → Bool
  | .b1, fetch => fetch = .ok ∨ fetch = .deny ∨ fetch = .okAndSent
  | .b2, fetch => fetch = .ok ∨ fetch = .deny
  | _, _ => false

/-- What a hit does: the return code and the cache. -/
inductive Hit (c : Cache) (p : ℕ) (fetch : Ret) : Ret → Cache → Prop
  | recent (hin : (c.entries p).inList = .t1) : Hit c p fetch .ok (c.cacheListSwap .t1 .t2 p)
  | frequent (hin : (c.entries p).inList = .t2) : Hit c p fetch .ok (c.cacheListMakeFirst .t2 p)
  | ghost (b : CacheList) (hb : b = .b1 ∨ b = .b2) (hin : (c.entries p).inList = b) (r ret : Ret)
      (hr : r = .ok ↔ accepted b fetch) (hret : ret = .ok ↔ accepted b fetch) :
      Hit c p fetch r (c.updateGhost b (c.adapted b) ret p).2
  | unlisted (hin : (c.entries p).inList = .noList) : Hit c p fetch .error c

theorem updateCache_hit {c c' : Cache} {p : ℕ} {fetch r : Ret}
    (hup : c.updateCache p fetch = .ok (r,c')) : c.Hit p fetch r c' := by
  cases hin : (c.entries p).inList with
  | noList =>
    simp only [updateCache,hin] at hup
    cases Except.ok.inj hup
    exact .unlisted hin
  | t1 =>
    simp only [updateCache,hin] at hup
    cases Except.ok.inj hup
    exact .recent hin
  | t2 =>
    simp only [updateCache,hin] at hup
    cases Except.ok.inj hup
    exact .frequent hin
  | b1 =>
    simp only [updateCache,hin,updateGhostB1] at hup
    split_ifs at hup
    · cases hup
    cases Except.ok.inj hup
    refine .ghost .b1 (Or.inl rfl) hin _ _ ?_ ?_ <;> cases fetch <;>
      simp [updateGhost,accepted]
  | b2 =>
    simp only [updateCache,hin,updateGhostB2] at hup
    split_ifs at hup
    · cases hup
    cases Except.ok.inj hup
    refine .ghost .b2 (Or.inr rfl) hin _ _ ?_ ?_ <;> cases fetch <;>
      simp [updateGhost,accepted]

/-- How an entry that lingers is put back into T1, counted for the cache and for the client. -/
def putBack (c : Cache) (p : ℕ) : Cache := ((c.entryRef p).cacheListAdd .t1 p).entryRef p

/-- How a miss puts its new entry into the table and into T1. -/
def made (c : Cache) (key : List UInt8) : Cache := ((c.newEntry key).2.avlAdd key c.next).putBack c.next

/-- What a call of `http2d_cache_get` does: the return code, the entry and the cache. -/
inductive Got (c : Cache) (key : List UInt8) (newOk : Bool) (fetch : Ret) :
    Ret → Option ℕ → Cache → Prop
  | empty (hkey : key = []) : Got c key newOk fetch .error none c
  | lingering (p : ℕ) (hfound : c.map key = some p) (hin : (c.entries p).inList = .noList) :
      Got c key newOk fetch .ok (some p) (c.putBack p)
  | hit (p : ℕ) (r : Ret) (d : Cache) (hfound : c.map key = some p)
      (hin : (c.entries p).inList ≠ .noList) (hhit : c.Hit p fetch r d) :
      Got c key newOk fetch r (some p) (d.entryRef p)
  | refused (d : Cache) (hfound : c.map key = none) (hnew : c.onNewAdded = .ok d)
      (hok : newOk = false) : Got c key newOk fetch .error none d
  | miss (d : Cache) (hfound : c.map key = none) (hnew : c.onNewAdded = .ok d)
      (hok : newOk = true) : Got c key newOk fetch .ok (some d.next) (d.made key)

theorem get_got {c c' : Cache} {key : List UInt8} {newOk : Bool} {fetch r : Ret} {q : Option ℕ}
    (hget : c.get key newOk fetch = .ok (r,q,c')) : c.Got key newOk fetch r q c' := by
  unfold get at hget
  by_cases hkey : key = []
  · rw [if_pos hkey] at hget
    cases Except.ok.inj hget
    exact .empty hkey
  rw [if_neg hkey] at hget
  cases hfound : c.map key with
  | some p =>
    by_cases hin : (c.entries p).inList = .noList
    · simp only [hfound,if_pos hin] at hget
      cases Except.ok.inj hget
      exact .lingering p hfound hin
    · simp only [hfound,if_neg hin] at hget
      obtain ⟨⟨r',d⟩,hd,hget⟩ := bind_ok_inv hget
      cases Except.ok.inj hget
      exact .hit p _ d hfound hin (updateCache_hit hd)
  | none =>
    simp only [hfound] at hget
    obtain ⟨d,hd,hget⟩ := bind_ok_inv hget
    cases newOk with
    | false =>
      cases Except.ok.inj hget
      exact .refused _ hfound hd rfl
    | true =>
      cases Except.ok.inj hget
      exact .miss d hfound hd rfl

/-- An entry comes with `ret_ok` when every fetch is a success. -/
theorem Got.ok_of_entry {c c' : Cache} {key : List UInt8} {newOk : Bool} {fetch r : Ret} {p : ℕ}
    (hacc : ∀ b, b = .b1 ∨ b = .b2 → accepted b fetch)
    (hgot : c.Got key newOk fetch r (some p) c') : r = .ok := by
  cases hgot with
  | lingering p hfound hin => rfl
  | hit p r d hfound hin hhit =>
    cases hhit with
    | recent hin => rfl
    | frequent hin => rfl
    | ghost b hb hin r ret hr hret => exact hr.mpr (hacc b hb)
    | unlisted hnot => exact absurd hnot hin
  | miss d hfound hnew hok => rfl

/-- The reference that the cache itself holds to an entry. -/
def listed (c : Cache) (p : ℕ) : ℕ := if (c.entries p).inList = .noList then 0 else 1

/-- The lists are coherent and every reference is counted; the clients hold `held p` references
to the entry `p`. -/
structure Accounted (c : Cache) (held : ℕ → ℕ) : Prop extends Coherent c where
  count : ∀ p, (c.entries p).refCount = c.listed p+held p
  live : ∀ p, (c.entries p).live = true ↔ 0 < (c.entries p).refCount
  unused : ∀ p, c.next ≤ p → (c.entries p).refCount = 0
  own : ∀ p, 0 < (c.entries p).refCount → c.map (c.entries p).key = some p
  found : ∀ k p, c.map k = some p → 0 < (c.entries p).refCount ∧ (c.entries p).key = k

theorem listed_of_not {c : Cache} {p : ℕ} (h : (c.entries p).inList = .noList) : c.listed p = 0 :=
  if_pos h

theorem listed_of {c : Cache} {p : ℕ} {L : CacheList} (hL : L ≠ .noList)
    (h : (c.entries p).inList = L) : c.listed p = 1 := if_neg (h ▸ hL)

section Accounts
variable {c : Cache} {held : ℕ → ℕ} {L M : CacheList} {p : ℕ}

theorem Accounted.disjoint (h : c.Accounted held) (hL : L ≠ .noList) (hM : M ≠ .noList) (hLM : L ≠ M) :
    (c.list L).Disjoint (c.list M) := fun p hp hp' =>
  hLM (((h.mem L p hL).mp hp).symm.trans ((h.mem M p hM).mp hp'))

theorem Accounted.live_iff (h : c.Accounted held) (p : ℕ) :
    (c.entries p).live ↔ 0 < c.listed p+held p := by
  have hcount := h.count p
  rw [h.live p,hcount]
  omega

theorem Accounted.mapped (h : c.Accounted held) (hL : L ≠ .noList) (hp : p ∈ c.list L) :
    (c.entries p).live ∧ c.map (c.entries p).key = some p := by
  have hlisted := listed_of hL ((h.mem L p hL).mp hp)
  have hl := (h.live_iff p).mpr (by omega)
  exact ⟨hl,h.own p ((h.live p).mp hl)⟩

end Accounts

theorem init_accounted (maxSize : ℤ) : (init maxSize).Accounted fun _ => 0 := by
  refine ⟨init_coherent maxSize,fun p => ?_,fun p => ?_,fun _ _ => rfl,fun p hp => ?_,
    fun k p hp => ?_⟩
  · simp [init,listed]
  · simp [init]
  · simp [init] at hp
  · simp [init] at hp

section Change
variable {c c' : Cache} {held held' : ℕ → ℕ} {p : ℕ}

/-- Entries move between the lists. -/
theorem Accounted.of_moved (h : c.Accounted held) (hc : c'.Coherent) (hmap : c'.map = c.map)
    (hnext : c'.next = c.next)
    (hentry : ∀ q, (c'.entries q).key = (c.entries q).key ∧
      (c'.entries q).refCount = (c.entries q).refCount ∧
      (c'.entries q).live = (c.entries q).live ∧ c'.listed q = c.listed q) :
    c'.Accounted held := by
  refine ⟨hc,fun q => ?_,fun q => ?_,fun q hq => ?_,fun q hq => ?_,fun k q hq => ?_⟩ <;>
    obtain ⟨hkey,hcount,hlive,hlisted⟩ := hentry q
  · rw [hcount,hlisted,h.count q]
  · rw [hlive,hcount,h.live q]
  · rw [hcount,h.unused q (hnext ▸ hq)]
  · rw [hmap,hkey,h.own q (hcount ▸ hq)]
  · rw [hcount,hkey]
    exact h.found k q (hmap ▸ hq)

/-- One entry changes its list and its count, and is not freed. -/
theorem Accounted.of_recounted (h : c.Accounted held) (hc : c'.Coherent) {e : CacheEntry}
    (hentries : c'.entries = Function.update c.entries p e) (hmap : c'.map = c.map)
    (hnext : c'.next = c.next) (hp : 0 < (c.entries p).refCount) (hkey : e.key = (c.entries p).key)
    (hlive : e.live = (c.entries p).live) (hpos : 0 < e.refCount)
    (hcount : e.refCount = (if e.inList = .noList then 0 else 1)+held' p)
    (hheld : ∀ q, q ≠ p → held' q = held q) : c'.Accounted held' := by
  have hself : c'.entries p = e := by rw [hentries,Function.update_self]
  have hother (q : ℕ) (hq : q ≠ p) : c'.entries q = c.entries q := by
    rw [hentries,Function.update_of_ne hq]
  refine ⟨hc,fun q => ?_,fun q => ?_,fun q hq => ?_,fun q hq => ?_,fun k q hq => ?_⟩ <;>
    by_cases hqp : q = p
  · subst hqp
    simp only [listed,hself,hcount]
    split_ifs <;> rfl
  · simp only [listed,hother q hqp,h.count q,hheld q hqp]
  · subst hqp
    rw [hself,hlive,h.live q]
    exact iff_of_true hp hpos
  · rw [hother q hqp,h.live q]
  · have := h.unused q (hnext ▸ hq)
    subst hqp
    omega
  · rw [hother q hqp,h.unused q (hnext ▸ hq)]
  · subst hqp
    rw [hmap,hself,hkey,h.own q hp]
  · rw [hother q hqp] at hq ⊢
    rw [hmap,h.own q hq]
  · subst hqp
    rw [hself,hkey]
    exact ⟨hpos,(h.found k q (hmap ▸ hq)).2⟩
  · rw [hother q hqp]
    exact h.found k q (hmap ▸ hq)

/-- The last reference goes and the entry is freed. -/
theorem Accounted.of_freed (h : c.Accounted held) (hc : c'.Coherent) {e : CacheEntry}
    (hentries : c'.entries = Function.update c.entries p e)
    (hmap : c'.map = Function.update c.map (c.entries p).key none) (hnext : c'.next = c.next)
    (hp : 0 < (c.entries p).refCount) (hin : e.inList = .noList) (hlive : e.live = false)
    (hzero : e.refCount = 0) (hnone : held' p = 0) (hheld : ∀ q, q ≠ p → held' q = held q) :
    c'.Accounted held' := by
  have hself : c'.entries p = e := by rw [hentries,Function.update_self]
  have hother (q : ℕ) (hq : q ≠ p) : c'.entries q = c.entries q := by
    rw [hentries,Function.update_of_ne hq]
  have hown := h.own p hp
  refine ⟨hc,fun q => ?_,fun q => ?_,fun q hq => ?_,fun q hq => ?_,fun k q hq => ?_⟩
  · by_cases hqp : q = p
    · subst hqp
      simp [listed,hself,hin,hzero,hnone]
    · simp only [listed,hother q hqp,h.count q,hheld q hqp]
  · by_cases hqp : q = p
    · subst hqp
      simp [hself,hlive,hzero]
    · rw [hother q hqp,h.live q]
  · by_cases hqp : q = p
    · rw [hqp,hself,hzero]
    · rw [hother q hqp,h.unused q (hnext ▸ hq)]
  · have hqp : q ≠ p := fun heq => by simp [heq,hself,hzero] at hq
    rw [hother q hqp] at hq ⊢
    have hne : (c.entries q).key ≠ (c.entries p).key := fun heq =>
      hqp (Option.some.inj ((h.own q hq).symm.trans (heq ▸ hown)))
    rw [hmap,Function.update_of_ne hne,h.own q hq]
  · have hne : k ≠ (c.entries p).key := fun heq => by simp [hmap,heq] at hq
    rw [hmap,Function.update_of_ne hne] at hq
    have hqp : q ≠ p := fun heq => hne ((h.found k q hq).2 ▸ heq ▸ rfl)
    rw [hother q hqp]
    exact h.found k q hq

/-- An entry is made for a key that was not found. -/
theorem Accounted.of_made (h : c.Accounted held) (hc : c'.Coherent) {e : CacheEntry}
    (hentries : c'.entries = Function.update c.entries c.next e)
    (hmap : c'.map = Function.update c.map e.key (some c.next)) (hnext : c'.next = c.next+1)
    (hkey : c.map e.key = none) (hlive : e.live = true) (hpos : 0 < e.refCount)
    (hcount : e.refCount = (if e.inList = .noList then 0 else 1)+held' c.next)
    (hheld : ∀ q, q ≠ c.next → held' q = held q) : c'.Accounted held' := by
  have hself : c'.entries c.next = e := by rw [hentries,Function.update_self]
  have hother (q : ℕ) (hq : q ≠ c.next) : c'.entries q = c.entries q := by
    rw [hentries,Function.update_of_ne hq]
  refine ⟨hc,fun q => ?_,fun q => ?_,fun q hq => ?_,fun q hq => ?_,fun k q hq => ?_⟩
  · by_cases hqp : q = c.next
    · subst hqp
      simp only [listed,hself,hcount]
      split_ifs <;> rfl
    · simp only [listed,hother q hqp,h.count q,hheld q hqp]
  · by_cases hqp : q = c.next
    · subst hqp
      simp [hself,hlive,hpos]
    · rw [hother q hqp,h.live q]
  · rw [hother q (by omega),h.unused q (by omega)]
  · by_cases hqp : q = c.next
    · subst hqp
      rw [hmap,hself,Function.update_self]
    · rw [hother q hqp] at hq ⊢
      have hne : (c.entries q).key ≠ e.key := fun heq => by
        simp [← heq,h.own q hq] at hkey
      rw [hmap,Function.update_of_ne hne,h.own q hq]
  · by_cases hk : k = e.key
    · have hqp : c.next = q := by simpa [hmap,hk] using hq
      subst hqp
      rw [hself]
      exact ⟨hpos,hk.symm⟩
    · rw [hmap,Function.update_of_ne hk] at hq
      have hqp : q ≠ c.next := (h.map_lt k q hq).ne
      rw [hother q hqp]
      exact h.found k q hq

end Change

/-- What making room does not change: the sizes that were set, and that a key is absent. -/
structure Settled (c c' : Cache) : Prop where
  maxSize : c'.maxSize = c.maxSize
  targetT1 : c'.targetT1 = c.targetT1
  absent : ∀ k, c.map k = none → c'.map k = none

theorem Settled.refl (c : Cache) : c.Settled c := ⟨rfl,rfl,fun _ => id⟩

theorem Settled.trans {c d e : Cache} (h : c.Settled d) (h' : d.Settled e) : c.Settled e :=
  ⟨h'.maxSize.trans h.maxSize,h'.targetT1.trans h.targetT1,fun k hk => h'.absent k (h.absent k hk)⟩

section Steps
variable {c c' : Cache} {held : ℕ → ℕ} {p : ℕ}

theorem cacheListSwap_accounted (h : c.Accounted held) {src dst : CacheList} (hs : src ≠ .noList)
    (hd : dst ≠ .noList) (hp : (c.entries p).inList = src) :
    (c.cacheListSwap src dst p).Accounted held := by
  refine h.of_moved (cacheListSwap_coherent h.toCoherent hs hd hp) rfl rfl fun q => ?_
  by_cases hq : q = p
  · subst hq
    refine ⟨?_,?_,?_,?_⟩
    · simp [cacheListSwap,cacheListAdd,cacheListDel,setEntry]
    · simp [cacheListSwap,cacheListAdd,cacheListDel,setEntry]
    · simp [cacheListSwap,cacheListAdd,cacheListDel,setEntry]
    · rw [listed_of hs hp]
      exact listed_of hd (by simp [cacheListSwap,cacheListAdd,setEntry])
  · simp [cacheListSwap,cacheListAdd,cacheListDel,setEntry,listed,hq]

theorem cacheListMakeFirst_accounted (h : c.Accounted held) {L : CacheList} (hL : L ≠ .noList)
    (hp : (c.entries p).inList = L) : (c.cacheListMakeFirst L p).Accounted held :=
  h.of_moved (cacheListMakeFirst_coherent h.toCoherent hL hp) rfl rfl fun _ => ⟨rfl,rfl,rfl,rfl⟩

theorem demote_accounted (h : c.Accounted held) {src dst : CacheList} (hs : src ≠ .noList)
    (hd : dst ≠ .noList) :
    (c.demote src dst).Accounted held ∧ c.Settled (c.demote src dst) := by
  unfold demote
  rcases h.getLru hs with ⟨_,hlru⟩ | ⟨_,p,hlru,hin⟩ <;> rw [hlru]
  · exact ⟨h,Settled.refl c⟩
  · exact ⟨cacheListSwap_accounted h hs hd hin,rfl,rfl,fun _ => id⟩

theorem replace_accounted (h : c.Accounted held) (x : Option ℕ) :
    (c.replace x).Accounted held ∧ c.Settled (c.replace x) := by
  unfold replace
  split_ifs
  · exact demote_accounted h (by decide) (by decide)
  · exact demote_accounted h (by decide) (by decide)

@[simp] theorem replace_map (c : Cache) (x : Option ℕ) : (c.replace x).map = c.map := by
  unfold replace demote
  split_ifs <;> split <;> rfl

/-- A reference goes that is not the last one. -/
theorem entryUnrefGuts_kept (h : 1 < (c.entries p).refCount) : c.entryUnrefGuts p =
    (.eagain,c.setEntry p {c.entries p with refCount := (c.entries p).refCount-1}) := by
  simp [entryUnrefGuts,setEntry,h]

/-- The last reference goes. -/
theorem entryUnrefGuts_freed (h : (c.entries p).refCount ≤ 1) :
    (c.entryUnrefGuts p).2.entries = Function.update c.entries p
        ⟨(c.entries p).key,.noList,(c.entries p).refCount-1,false⟩ ∧
      (c.entryUnrefGuts p).2.map = Function.update c.map (c.entries p).key none ∧
      (c.entryUnrefGuts p).2.next = c.next := by
  have hlast : ¬ 1 < (c.entries p).refCount := by omega
  by_cases hin : (c.entries p).inList = .noList
  · simp [entryUnrefGuts,setEntry,entryFree,hlast,hin]
  · simp [entryUnrefGuts,setEntry,entryFree,cacheListDel,hlast,hin]

theorem entryUnrefGuts_settled (h : c.Coherent) : c.Settled (c.entryUnrefGuts p).2 := by
  obtain ⟨_,hmax,htar,_⟩ := entryUnrefGuts_spec h p
  refine ⟨hmax,htar,fun k hk => ?_⟩
  by_cases hlast : (c.entries p).refCount ≤ 1
  · rw [(entryUnrefGuts_freed hlast).2.1]
    by_cases hkey : k = (c.entries p).key
    · rw [hkey,Function.update_self]
    · rwa [Function.update_of_ne hkey]
  · rwa [entryUnrefGuts_kept (by omega)]

/-- A client gives back a reference that it holds. -/
theorem entryUnrefGuts_accounted (h : c.Accounted held) (hp : 0 < held p) :
    (c.entryUnrefGuts p).2.Accounted (Function.update held p (held p-1)) := by
  obtain ⟨hcoh,_⟩ := entryUnrefGuts_spec h.toCoherent p
  have hcount := h.count p
  have hother (q : ℕ) (hq : q ≠ p) : Function.update held p (held p-1) q = held q :=
    Function.update_of_ne hq _ _
  by_cases hlast : (c.entries p).refCount = 1
  · obtain ⟨hentries,hmap,hnext⟩ := entryUnrefGuts_freed hlast.le
    refine h.of_freed hcoh hentries hmap hnext (by omega) rfl rfl (by simp only; omega) ?_ hother
    rw [Function.update_self]
    omega
  · have hmore : 1 < (c.entries p).refCount := by omega
    rw [entryUnrefGuts_kept hmore] at hcoh ⊢
    refine h.of_recounted hcoh rfl rfl rfl (by omega) rfl rfl (by simp only; omega) ?_ hother
    rw [Function.update_self,hcount,listed]
    split_ifs <;> push_cast <;> omega

theorem dropLru_inv {L : CacheList} (hdrop : c.dropLru L = .ok c') :
    ∃ p, c.cacheListGetLru L = some p ∧ c' = ((c.cacheListDel L p).entryUnrefGuts p).2 := by
  unfold dropLru at hdrop
  cases hlru : c.cacheListGetLru L with
  | none => simp [hlru] at hdrop
  | some p =>
    simp only [hlru] at hdrop
    exact ⟨p,rfl,(Except.ok.inj hdrop).symm⟩

/-- The cache gives up the last entry of a list, which is freed unless a client holds it. -/
theorem dropLru_accounted (h : c.Accounted held) {L : CacheList} (hL : L ≠ .noList)
    (hdrop : c.dropLru L = .ok c') : c'.Accounted held ∧ c.Settled c' := by
  obtain ⟨p,hlru,rfl⟩ := dropLru_inv hdrop
  have hin : (c.entries p).inList = L := (h.mem L p hL).mp (List.mem_of_getLast? hlru)
  have hdel := cacheListDel_coherent h.toCoherent hL hin
  obtain ⟨hcoh,_⟩ := entryUnrefGuts_spec hdel p
  have hcount := h.count p
  rw [listed_of hL hin] at hcount
  have hsame : ((c.cacheListDel L p).entries p).refCount = (c.entries p).refCount := by
    simp [cacheListDel,setEntry]
  refine ⟨?_,Settled.trans (d:=c.cacheListDel L p) ⟨rfl,rfl,fun _ => id⟩
    (entryUnrefGuts_settled hdel)⟩
  by_cases hlast : (c.entries p).refCount = 1
  · obtain ⟨hentries,hmap,hnext⟩ := entryUnrefGuts_freed (hsame.trans hlast).le
    refine h.of_freed (p:=p) (e:=⟨(c.entries p).key,.noList,(c.entries p).refCount-1,false⟩) hcoh
      ?_ ?_ hnext (by omega) rfl rfl (by simp only; omega) (by omega) fun _ _ => rfl
    · rw [hentries]
      simp [cacheListDel,setEntry]
    · rw [hmap]
      simp [cacheListDel,setEntry]
  · have hmore : 1 < ((c.cacheListDel L p).entries p).refCount := by omega
    rw [entryUnrefGuts_kept hmore] at hcoh ⊢
    refine h.of_recounted (p:=p) (e:={c.entries p with
      inList := .noList, refCount := (c.entries p).refCount-1}) hcoh ?_ rfl rfl (by omega) rfl rfl
      (by simp only; omega) ?_ fun _ _ => rfl
    · simp [cacheListDel,setEntry]
    · simp only [if_true]
      omega

theorem onNewAdded_accounted (h : c.Accounted held) (hnew : c.onNewAdded = .ok c') :
    c'.Accounted held ∧ c.Settled c' := by
  have hdropped {L : CacheList} (hL : L ≠ .noList)
      (hrep : (c.dropLru L >>= fun d => .ok (d.replace none)) = .ok c') :
      c'.Accounted held ∧ c.Settled c' := by
    obtain ⟨d,hd,hrep⟩ := bind_ok_inv hrep
    cases Except.ok.inj hrep
    obtain ⟨hd,hset⟩ := dropLru_accounted h hL hd
    obtain ⟨hr,hset'⟩ := replace_accounted hd none
    exact ⟨hr,hset.trans hset'⟩
  simp only [onNewAdded] at hnew
  split_ifs at hnew
  · exact hdropped (by decide) hnew
  · exact dropLru_accounted h (by decide) hnew
  · exact hdropped (by decide) hnew
  · cases Except.ok.inj hnew
    exact replace_accounted h none
  · cases Except.ok.inj hnew
    exact ⟨h,Settled.refl c⟩

/-- A ghost hit moves entries between the lists. -/
theorem updateGhost_accounted (h : c.Accounted held) {b : CacheList} (hb : b = .b1 ∨ b = .b2)
    (hp : (c.entries p).inList = b) (target : ℤ) (ret : Ret) :
    (c.updateGhost b target ret p).2.Accounted held ∧
      (c.updateGhost b target ret p).2.maxSize = c.maxSize ∧
      (c.updateGhost b target ret p).2.targetT1 = target := by
  have hset : ({c with targetT1 := target} : Cache).Accounted held :=
    h.of_moved (h.toCoherent.of_same rfl rfl rfl (fun _ _ => id) fun _ => rfl) rfl rfl
      fun _ => ⟨rfl,rfl,rfl,rfl⟩
  have hb0 : b ≠ .noList := by rcases hb with rfl | rfl <;> decide
  have hne : (c.entries p).inList ≠ .t1 ∧ (c.entries p).inList ≠ .t2 := by
    rw [hp]
    rcases hb with rfl | rfl <;> decide
  obtain ⟨hrep,hsettled⟩ := replace_accounted hset (some p)
  have hin := (replace_inList hset.toCoherent (some p) hne.1 hne.2).trans hp
  by_cases hret : ret = .ok
  · simp only [updateGhost,if_pos hret]
    exact ⟨cacheListSwap_accounted hrep hb0 (by decide) hin,hsettled.maxSize,hsettled.targetT1⟩
  · simp only [updateGhost,if_neg hret]
    exact ⟨hrep,hsettled.maxSize,hsettled.targetT1⟩

/-- The target of T1 is a possible length of it, in a cache of size `m`. -/
def InTarget (m : ℤ) (c : Cache) : Prop := c.maxSize = m ∧ 0 ≤ c.targetT1 ∧ c.targetT1 ≤ m

theorem Settled.inTarget {m : ℤ} (hs : c.Settled c') (h : c.InTarget m) : c'.InTarget m := by
  simpa only [InTarget,hs.maxSize,hs.targetT1] using h

theorem hit_accounted (h : c.Accounted held) {fetch r : Ret} (hhit : c.Hit p fetch r c') :
    c'.Accounted held := by
  cases hhit with
  | recent hin => exact cacheListSwap_accounted h (by decide) (by decide) hin
  | frequent hin => exact cacheListMakeFirst_accounted h (by decide) hin
  | unlisted hin => exact h
  | ghost b hb hin r ret hr hret => exact (updateGhost_accounted h hb hin (c.adapted b) ret).1

theorem hit_inTarget {m : ℤ} (h : c.Accounted held) (ht : c.InTarget m) {fetch r : Ret}
    (hhit : c.Hit p fetch r c') : c'.InTarget m := by
  cases hhit with
  | recent hin => exact ht
  | frequent hin => exact ht
  | unlisted hin => exact ht
  | ghost b hb hin r ret hr hret =>
    obtain ⟨_,hmax,htar⟩ := updateGhost_accounted h hb hin (c.adapted b) ret
    obtain ⟨hm,h0,hle⟩ := ht
    have hb1 := h.len_nonneg (L:=.b1) (by decide)
    have hb2 := h.len_nonneg (L:=.b2) (by decide)
    have hq1 := Int.tdiv_nonneg hb1 hb2
    have hq2 := Int.tdiv_nonneg hb2 hb1
    refine ⟨hmax.trans hm,?_,?_⟩ <;> rw [htar]
    · rcases hb with rfl | rfl <;> simp only [adapted] <;> omega
    · rcases hb with rfl | rfl <;> simp only [adapted] <;> omega

/-- A hit leaves the table as it is. -/
theorem hit_map {fetch r : Ret} (hhit : c.Hit p fetch r c') : c'.map = c.map := by
  cases hhit with
  | recent hin => rfl
  | frequent hin => rfl
  | unlisted hin => rfl
  | ghost b hb hin r ret hr hret =>
    simp only [updateGhost]
    split_ifs
    · exact replace_map _ _
    · exact replace_map _ _

/-- The references after a call that returned the entry `q`. -/
def taken (held : ℕ → ℕ) : Option ℕ → ℕ → ℕ
  | none => held
  | some q => Function.update held q (held q+1)

theorem entryRef_accounted (h : c.Accounted held) (hp : 0 < (c.entries p).refCount) :
    (c.entryRef p).Accounted (taken held (some p)) := by
  have hcount := h.count p
  refine h.of_recounted (entryRef_coherent h.toCoherent p) rfl rfl rfl hp rfl rfl
    (by simp only; omega) ?_ fun q hq => Function.update_of_ne hq _ _
  simp only [taken,Function.update_self]
  rw [hcount,listed]
  split_ifs <;> push_cast <;> omega

theorem putBack_accounted (h : c.Accounted held) (hp : 0 < (c.entries p).refCount)
    (hlist : (c.entries p).inList = .noList) (hlt : p < c.next) :
    (c.putBack p).Accounted (taken held (some p)) := by
  have hcount := h.count p
  rw [listed_of_not hlist] at hcount
  have hadd := cacheListAdd_coherent (L:=.t1) (entryRef_coherent h.toCoherent p) (by decide)
    (p:=p) (by simpa [entryRef,setEntry] using hlist) hlt
  refine h.of_recounted (p:=p) (e:={c.entries p with
    inList := .t1, refCount := (c.entries p).refCount+1+1}) (entryRef_coherent hadd p) ?_ rfl rfl hp
    rfl rfl (by simp only; omega) ?_ fun q hq => Function.update_of_ne hq _ _
  · simp [putBack,entryRef,cacheListAdd,setEntry]
  · simp only [taken,Function.update_self,hcount,reduceCtorEq,if_false]
    push_cast
    omega

theorem made_accounted (h : c.Accounted held) {key : List UInt8} (hkey : c.map key = none) :
    (c.made key).Accounted (taken held (some c.next)) := by
  have hlt : c.next < (c.newEntry key).2.next := Nat.lt_succ_self c.next
  have hin : ((((c.newEntry key).2.avlAdd key c.next).entryRef c.next).entries c.next).inList =
      .noList := by simp [newEntry,avlAdd,entryRef,setEntry]
  have hcoh := entryRef_coherent (cacheListAdd_coherent (L:=.t1) (entryRef_coherent
    (avlAdd_coherent (newEntry_coherent h.toCoherent key) key hlt) c.next) (by decide) hin hlt) c.next
  have hheld : held c.next = 0 := by
    have := h.count c.next
    rw [h.unused c.next (le_refl _)] at this
    omega
  refine h.of_made (e:=⟨key,.t1,2,true⟩) hcoh ?_ rfl rfl hkey rfl two_pos ?_
    fun q hq => Function.update_of_ne hq _ _
  · simp [made,putBack,newEntry,avlAdd,entryRef,cacheListAdd,setEntry]
  · simp [taken,hheld]

theorem get_accounted (h : c.Accounted held) {key : List UInt8} {newOk : Bool} {fetch r : Ret}
    {q : Option ℕ} (hgot : c.Got key newOk fetch r q c') : c'.Accounted (taken held q) := by
  cases hgot with
  | empty hkey => exact h
  | lingering p hfound hin =>
    exact putBack_accounted h (h.found key p hfound).1 hin (h.map_lt key p hfound)
  | hit p r d hfound hin hhit =>
    have hd := hit_accounted h hhit
    exact entryRef_accounted hd (hd.found key p (hit_map hhit ▸ hfound)).1
  | refused d hfound hnew hok => exact (onNewAdded_accounted h hnew).1
  | miss d hfound hnew hok =>
    obtain ⟨hd,hset⟩ := onNewAdded_accounted h hnew
    exact made_accounted hd (hset.absent key hfound)

theorem get_inTarget {m : ℤ} (h : c.Accounted held) (ht : c.InTarget m) {key : List UInt8}
    {newOk : Bool} {fetch r : Ret} {q : Option ℕ} (hgot : c.Got key newOk fetch r q c') :
    c'.InTarget m := by
  cases hgot with
  | empty hkey => exact ht
  | lingering p hfound hin => exact ht
  | hit p r d hfound hin hhit =>
    have hd : d.InTarget m := hit_inTarget h ht hhit
    exact hd
  | refused d hfound hnew hok => exact (onNewAdded_accounted h hnew).2.inTarget ht
  | miss d hfound hnew hok => exact (onNewAdded_accounted h hnew).2.inTarget ht

end Steps

end Cache

namespace CacheSys

open Cache

/-- How many references the clients hold to the entry `p`. -/
def refs (s : CacheSys) (p : ℕ) : ℕ := s.held.countP fun r => r.2 = p

theorem refs_got (c : Cache) (held : List (ℕ × ℕ)) (client p : ℕ) :
    refs ⟨c,(client,p)::held⟩ = taken (refs ⟨c,held⟩) (some p) := by
  funext q
  by_cases hq : q = p
  · subst hq
    simp [refs,taken]
  · simp [refs,taken,hq,Ne.symm hq]

theorem refs_pos {s : CacheSys} {client p : ℕ} (h : (client,p) ∈ s.held) : 0 < s.refs p :=
  List.countP_pos_iff.mpr ⟨(client,p),h,by simp⟩

theorem refs_given (c : Cache) {s : CacheSys} {client p : ℕ} (h : (client,p) ∈ s.held) :
    refs ⟨c,s.held.erase (client,p)⟩ = Function.update s.refs p (s.refs p-1) := by
  have hperm := (List.perm_cons_erase h).countP_eq
  funext q
  by_cases hq : q = p
  · subst hq
    have := hperm fun r => r.2 = q
    simp only [List.countP_cons,decide_true,if_true] at this
    simp only [refs,Function.update_self]
    omega
  · have := hperm fun r => r.2 = q
    simp only [List.countP_cons,Ne.symm hq,decide_false,Bool.false_eq_true,if_false] at this
    simp only [refs,Function.update_of_ne hq]
    omega

/-- The references of the clients are those that the cache has counted. -/
def Balanced (maxSize : ℤ) (s : CacheSys) : Prop :=
  s.cache.Accounted s.refs ∧ s.cache.InTarget maxSize

theorem init_balanced {maxSize : ℤ} (h0 : 0 ≤ maxSize) : (init maxSize).Balanced maxSize :=
  ⟨init_accounted maxSize,rfl,le_refl _,h0⟩

/-- A step counts its references, whatever the target of T1 is. -/
theorem step_accounted {s s' : CacheSys} {a : CacheAct} (h : s.cache.Accounted s.refs)
    (hstep : s.step a = some s') : s'.cache.Accounted s'.refs := by
  cases step_called hstep with
  | missed r c hget => exact get_accounted h (get_got hget)
  | @got client key newOk fetch r p c hget =>
    exact refs_got c s.held client p ▸ get_accounted h (get_got hget)
  | returned hheld => exact refs_given _ hheld ▸ entryUnrefGuts_accounted h (refs_pos hheld)

theorem run_accounted {maxSize : ℤ} {as : List CacheAct} {t : CacheSys}
    (hrun : run step (init maxSize) as = some t) : t.cache.Accounted t.refs :=
  run_invariant (fun s => s.cache.Accounted s.refs) (fun _ _ _ => step_accounted) (init_accounted maxSize) hrun

theorem step_inTarget {maxSize : ℤ} {s s' : CacheSys} {a : CacheAct} (h : s.Balanced maxSize)
    (hstep : s.step a = some s') : s'.cache.InTarget maxSize := by
  obtain ⟨ha,ht⟩ := h
  cases step_called hstep with
  | missed r c hget => exact get_inTarget ha ht (get_got hget)
  | got r p c hget => exact get_inTarget ha ht (get_got hget)
  | returned hheld => exact (entryUnrefGuts_settled ha.toCoherent).inTarget ht

theorem step_balanced {maxSize : ℤ} {s s' : CacheSys} {a : CacheAct} (h : s.Balanced maxSize)
    (hstep : s.step a = some s') : s'.Balanced maxSize :=
  ⟨step_accounted h.1 hstep,step_inTarget h hstep⟩

end CacheSys
end Http2d
