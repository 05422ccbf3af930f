import Http2d.CacheReferences

/-! The capacity of the cache.
A miss makes room before its entry goes into T1, and a ghost hit before it goes into T2. An entry
that lingers goes back into T1 without making room, so the bounds hold as long as there is room. -/
namespace Http2d

open Transition

namespace Cache

/-- The number of entries in the four lists, as the counters have it. -/
def total (c : Cache) : ℤ := c.len .t1+c.len .t2+c.len .b1+c.len .b2

/-- There is room for one more entry in T1, and for one more in the four lists. -/
def HasRoom (c : Cache) : Prop :=
  c.len .t1+c.len .t2 < c.maxSize ∧ c.len .t1+c.len .b1 < c.maxSize ∧ c.total < 2*c.maxSize

instance (c : Cache) : Decidable c.HasRoom := inferInstanceAs (Decidable (_ ∧ _))

/-- When the key names an entry that is in no list, there is room to put it back. -/
def RoomToPutBack (c : Cache) (key : List UInt8) : Prop :=
  ∀ p, c.map key = some p → (c.entries p).inList = .noList → c.HasRoom

instance (c : Cache) (key : List UInt8) : Decidable (c.RoomToPutBack key) :=
  inferInstanceAs (Decidable (∀ p ∈ c.map key, (c.entries p).inList = .noList → c.HasRoom))

theorem RoomToPutBack.roomToReturn {c : Cache} {key : List UInt8} (h : c.RoomToPutBack key)
    (hmax : c.maxSize < 2^31) : c.RoomToReturn key := fun p hp hlist => by
  obtain ⟨hcached,hrecent,htotal⟩ := h p hp hlist
  simp only [total] at htotal
  exact ⟨hcached,hrecent,by omega⟩

@[simp] theorem cacheListSwap_total (c : Cache) {src dst : CacheList} (p : ℕ)
    (hs : src ≠ .noList) (hd : dst ≠ .noList) : (c.cacheListSwap src dst p).total = c.total := by
  cases src <;> cases dst <;> simp_all [total,cacheListSwap] <;> omega

theorem cacheListAdd_total (c : Cache) (p : ℕ) : (c.cacheListAdd .t1 p).total = c.total+1 := by
  simp [total]
  omega

@[simp] theorem entryRef_total (c : Cache) (p : ℕ) : (c.entryRef p).total = c.total := rfl

@[simp] theorem replace_total (c : Cache) (x : Option ℕ) : (c.replace x).total = c.total := by
  unfold replace demote
  split_ifs <;> split
  · rfl
  · exact cacheListSwap_total c _ (by decide) (by decide)
  · rfl
  · exact cacheListSwap_total c _ (by decide) (by decide)

section Room
variable {c c' : Cache}

theorem dropLru_total (h : c.Coherent) {L : CacheList} (hL : L ≠ .noList)
    (hdrop : c.dropLru L = .ok c') : c'.total = c.total-1 := by
  have hpos : 0 < c.len L := by
    rcases h.getLru hL with ⟨_,hlru⟩ | ⟨hpos,_⟩
    · simp [dropLru,hlru] at hdrop
    · exact hpos
  obtain ⟨d,hd,_,_,_,hlen⟩ := dropLru_spec h hL hpos
  cases Except.ok.inj (hd.symm.trans hdrop)
  cases L <;> simp_all [total] <;> omega

/-- Making room leaves room in the four lists. -/
theorem onNewAdded_total (h : c.Coherent) (hs : c.Sized) (ht : c.total ≤ 2*c.maxSize)
    (hnew : c.onNewAdded = .ok c') : c'.total < 2*c.maxSize := by
  have htotal : c.len .t1+c.len .b1+(c.len .t2+c.len .b2) = c.total := by
    simp only [total]
    omega
  have hge := hs.max_ge
  have hdropped {L : CacheList} (hL : L ≠ .noList)
      (hrep : (c.dropLru L >>= fun d => .ok (d.replace none)) = .ok c') : c'.total = c.total-1 := by
    obtain ⟨d,hd,hrep⟩ := bind_ok_inv hrep
    cases Except.ok.inj hrep
    rw [replace_total,dropLru_total h hL hd]
  rw [onNewAdded_eq h hs,htotal] at hnew
  split_ifs at hnew with hfull hroom hsome hover
  · have := hdropped (by decide) hnew
    omega
  · have := dropLru_total h (by decide) hnew
    omega
  · have := hdropped (by decide) hnew
    omega
  · cases Except.ok.inj hnew
    rw [replace_total]
    omega
  · cases Except.ok.inj hnew
    omega

theorem hit_total {p : ℕ} {fetch r : Ret} (hhit : c.Hit p fetch r c') : c'.total = c.total := by
  cases hhit with
  | recent hin => exact cacheListSwap_total c p (by decide) (by decide)
  | frequent hin => rfl
  | unlisted hin => rfl
  | ghost b hb hin r ret hr hret =>
    have hb0 : b ≠ .noList := by rcases hb with rfl | rfl <;> decide
    have hrep := replace_total {c with targetT1 := c.adapted b} (some p)
    simp only [updateGhost]
    split_ifs
    · exact (cacheListSwap_total _ p hb0 (by decide)).trans hrep
    · exact hrep

theorem putBack_total (c : Cache) (p : ℕ) : (c.putBack p).total = c.total+1 := by
  rw [putBack,entryRef_total,cacheListAdd_total,entryRef_total]

theorem made_total (c : Cache) (key : List UInt8) : (c.made key).total = c.total+1 :=
  putBack_total _ _

/-- A call of `http2d_cache_get` keeps the lists within twice the size of the cache. -/
theorem get_total (h : c.Coherent) (hs : c.Sized) (ht : c.total ≤ 2*c.maxSize)
    {key : List UInt8} (hroom : c.RoomToPutBack key) {newOk : Bool} {fetch r : Ret} {q : Option ℕ}
    (hgot : c.Got key newOk fetch r q c') : c'.total ≤ 2*c.maxSize := by
  cases hgot with
  | empty hkey => exact ht
  | lingering p hfound hin =>
    have := (hroom p hfound hin).2.2
    rw [putBack_total]
    omega
  | hit p r d hfound hin hhit => exact (hit_total hhit).le.trans ht
  | refused d hfound hnew hok => exact (onNewAdded_total h hs ht hnew).le
  | miss d hfound hnew hok =>
    have := onNewAdded_total h hs ht hnew
    rw [made_total]
    omega

end Room
end Cache

namespace CacheSys

open Cache

/-- The condition on one call: no lingering entry is put back while there is no room for it. -/
def PutsBackWithRoom (s : CacheSys) : CacheAct → Prop
  | .get _ key _ _ => s.cache.RoomToPutBack key
  | .unref _ _ => True

instance (s : CacheSys) : ∀ a, Decidable (s.PutsBackWithRoom a)
  | .get _ key _ _ => inferInstanceAs (Decidable (s.cache.RoomToPutBack key))
  | .unref _ _ => isTrue trivial

/-- What the capacity promises: the lists of cached entries, and all four lists. -/
def InCapacity (maxSize : ℤ) (s : CacheSys) : Prop :=
  s.cache.len .t1+s.cache.len .t2 ≤ maxSize ∧
    s.cache.len .t1+s.cache.len .t2+s.cache.len .b1+s.cache.len .b2 ≤ 2*maxSize

instance (maxSize : ℤ) (s : CacheSys) : Decidable (s.InCapacity maxSize) :=
  inferInstanceAs (Decidable (_ ∧ _))

/-- The references are counted, the lists of the right sizes and within twice the size. -/
def Bounded (maxSize : ℤ) (s : CacheSys) : Prop :=
  s.Balanced maxSize ∧ s.Inv ∧ s.cache.total ≤ 2*maxSize

theorem init_bounded {maxSize : ℤ} (h0 : 0 < maxSize) (hlt : maxSize < 2^31) (h4 : 4 ∣ maxSize) :
    (init maxSize).Bounded maxSize := by
  refine ⟨init_balanced h0.le,⟨init_coherent maxSize,init_sized (by omega) hlt⟩,?_⟩
  simp [total,init,Cache.init]
  omega

theorem step_bounded {maxSize : ℤ} {s s' : CacheSys} {a : CacheAct} (h : s.Bounded maxSize)
    (hg : s.PutsBackWithRoom a) (hstep : s.step a = some s') : s'.Bounded maxSize := by
  obtain ⟨hbal,hinv,ht⟩ := h
  have hmax := hbal.2.1
  have hg' : s.PutsBackOnlyWithRoom a := by
    cases a with
    | get client key newOk fetch => exact hg.roomToReturn hinv.2.max_lt
    | unref client p => trivial
  refine ⟨step_balanced hbal hstep,step_inv hinv hg' hstep,?_⟩
  have hgot {key : List UInt8} (hroom : s.cache.RoomToPutBack key) {newOk : Bool} {fetch r : Ret}
      {q : Option ℕ} {c : Cache} (hget : s.cache.get key newOk fetch = .ok (r,q,c)) :
      c.total ≤ 2*maxSize :=
    hmax ▸ get_total hinv.1 hinv.2 (hmax ▸ ht) hroom (get_got hget)
  cases step_called hstep with
  | missed r c hget => exact hgot hg hget
  | got r p c hget => exact hgot hg hget
  | @returned client p hheld =>
    obtain ⟨_,_,_,hlen⟩ := entryUnrefGuts_spec hinv.1 p
    rcases hlen with hlen | ⟨hne,hlen⟩
    · simpa only [total,hlen] using ht
    · refine le_trans ?_ ht
      simp only [total,hlen]
      cases hin : (s.cache.entries p).inList <;> simp_all

/-- In every run that puts entries back only with room for them. -/
theorem run_inCapacity {maxSize : ℤ} (h0 : 0 < maxSize) (hlt : maxSize < 2^31)
    (h4 : 4 ∣ maxSize) {as : List CacheAct} {t : CacheSys}
    (hg : Guarded step PutsBackWithRoom (init maxSize) as)
    (hrun : run step (init maxSize) as = some t) : t.InCapacity maxSize := by
  obtain ⟨hbal,hinv,ht⟩ := guarded_invariant PutsBackWithRoom (Bounded maxSize)
    (fun _ _ _ hi hg hs => step_bounded hi hg hs) (init_bounded h0 hlt h4) hg hrun
  exact ⟨hbal.2.1 ▸ hinv.2.cached_le,ht⟩

/-- The cache is full when the first key is evicted, and the key comes back into the place of another one. -/
theorem run_inCapacity_back : ∃ t, run step (init 4) comingBack = some t ∧ t.InCapacity 4 := by
  have hg : Guarded step PutsBackWithRoom (init 4) comingBack := by decide +kernel
  have hrun : run step (init 4) comingBack = some _ := rfl
  exact ⟨_,hrun,run_inCapacity (by decide) (by decide) (by decide) hg hrun⟩

/-- Five keys are got and kept in a cache of four; the first one is evicted, got again and put
back. -/
theorem run_not_inCapacity : ∃ t,
    run step (init 4) ([1,2,3,4,5,1].map getKeep) = some t ∧ ¬ t.InCapacity 4 :=
  ⟨_,rfl,by decide⟩

end CacheSys
end Http2d
