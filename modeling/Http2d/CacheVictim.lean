import Http2d.Cache

/-! The victim that the cache drops to make room.
The lists and the counters agree in every state. The sizes keep within the capacity as long as
no lingering entry is put back while there is no room for it, and then the list that
`on_new_added` takes its victim from is never empty. -/
namespace Http2d

open Transition

namespace Cache

/-- The lists hold no entry twice, and each entry knows the list it is in. -/
structure Coherent (c : Cache) : Prop where
  nodup : ∀ L, (c.list L).Nodup
  mem : ∀ L p, L ≠ .noList → (p ∈ c.list L ↔ (c.entries p).inList = L)
  len : ∀ L, L ≠ .noList → c.len L = (c.list L).length
  fresh : ∀ p, c.next ≤ p → (c.entries p).inList = .noList
  map_lt : ∀ k p, c.map k = some p → p < c.next

theorem Coherent.len_nonneg {c : Cache} (h : c.Coherent) {L : CacheList} (hL : L ≠ .noList) :
    0 ≤ c.len L := by
  rw [h.len L hL]
  exact Int.natCast_nonneg _

theorem Coherent.lens_nonneg {c : Cache} (h : c.Coherent) :
    0 ≤ c.len .t1 ∧ 0 ≤ c.len .t2 ∧ 0 ≤ c.len .b1 ∧ 0 ≤ c.len .b2 :=
  ⟨h.len_nonneg (by decide),h.len_nonneg (by decide),h.len_nonneg (by decide),h.len_nonneg (by decide)⟩

/-- An entry that says it is in a list is counted there. -/
theorem Coherent.len_pos {c : Cache} (h : c.Coherent) {p : ℕ} {L : CacheList}
    (hL : L ≠ .noList) (hp : (c.entries p).inList = L) : 0 < c.len L := by
  rw [h.len L hL]
  exact_mod_cast List.length_pos_of_mem ((h.mem L p hL).mpr hp)

theorem init_coherent (maxSize : ℤ) : (init maxSize).Coherent := by
  refine ⟨fun _ => List.nodup_nil,fun L p hL => ?_,fun _ _ => rfl,fun _ _ => rfl,fun k p hp => ?_⟩
  · simp [init,hL.symm]
  · simp [init] at hp

/-- A change that leaves every entry in its list. -/
theorem Coherent.of_same {c c' : Cache} (h : c.Coherent) (hlist : c'.list = c.list)
    (hlen : c'.len = c.len) (hnext : c'.next = c.next)
    (hmap : ∀ k p, c'.map k = some p → c.map k = some p)
    (hin : ∀ p, (c'.entries p).inList = (c.entries p).inList) : c'.Coherent := by
  refine ⟨fun L => hlist ▸ h.nodup L,fun L p hL => ?_,fun L hL => ?_,fun p hp => ?_,
    fun k p hp => hnext ▸ h.map_lt k p (hmap k p hp)⟩
  · rw [hlist,hin,h.mem L p hL]
  · rw [hlist,hlen,h.len L hL]
  · rw [hin,h.fresh p (hnext ▸ hp)]

theorem setEntry_inList {c : Cache} {p : ℕ} {e : CacheEntry}
    (he : e.inList = (c.entries p).inList) (q : ℕ) :
    ((c.setEntry p e).entries q).inList = (c.entries q).inList := by
  by_cases hq : q = p
  · subst hq
    simp [setEntry,he]
  · simp [setEntry,hq]

theorem setEntry_coherent {c : Cache} (h : c.Coherent) {p : ℕ} {e : CacheEntry}
    (he : e.inList = (c.entries p).inList) : (c.setEntry p e).Coherent :=
  h.of_same rfl rfl rfl (fun _ _ => id) (setEntry_inList he)

theorem cacheListDel_coherent {c : Cache} (h : c.Coherent) {L : CacheList} {p : ℕ}
    (hL : L ≠ .noList) (hp : (c.entries p).inList = L) : (c.cacheListDel L p).Coherent := by
  have hmem : p ∈ c.list L := (h.mem L p hL).mpr hp
  refine ⟨fun M => ?_,fun M q hM => ?_,fun M hM => ?_,fun q hq => ?_,h.map_lt⟩
  · by_cases hML : M = L
    · subst hML
      simpa [cacheListDel,setEntry] using (h.nodup M).erase p
    · simpa [cacheListDel,setEntry,hML] using h.nodup M
  · have hold := h.mem M q hM
    by_cases hML : M = L <;> by_cases hq : q = p
    · subst hML hq
      simpa [cacheListDel,setEntry,hM.symm] using fun hin => (h.nodup M).not_mem_erase hin
    · subst hML
      simpa [cacheListDel,setEntry,hq,List.mem_erase_of_ne hq] using hold
    · subst hq
      have hne : q ∉ c.list M := fun hin => hML ((hold.mp hin).symm.trans hp)
      simpa [cacheListDel,setEntry,hML,hM.symm] using hne
    · simpa [cacheListDel,setEntry,hML,hq] using hold
  · by_cases hML : M = L
    · subst hML
      have hpos := List.length_pos_of_mem hmem
      have hlen := h.len M hM
      simp only [cacheListDel,setEntry,Function.update_self,List.length_erase_of_mem hmem]
      omega
    · simpa [cacheListDel,setEntry,hML] using h.len M hM
  · by_cases hqp : q = p
    · subst hqp
      simp [cacheListDel,setEntry]
    · simpa [cacheListDel,setEntry,hqp] using h.fresh q hq

theorem cacheListAdd_coherent {c : Cache} (h : c.Coherent) {L : CacheList} {p : ℕ}
    (hL : L ≠ .noList) (hp : (c.entries p).inList = .noList) (hlt : p < c.next) :
    (c.cacheListAdd L p).Coherent := by
  have hnot (M : CacheList) (hM : M ≠ .noList) : p ∉ c.list M := fun hin =>
    hM (((h.mem M p hM).mp hin).symm.trans hp)
  refine ⟨fun M => ?_,fun M q hM => ?_,fun M hM => ?_,fun q hq => ?_,h.map_lt⟩
  · by_cases hML : M = L
    · subst hML
      simpa [cacheListAdd,setEntry] using ⟨hnot M hL,h.nodup M⟩
    · simpa [cacheListAdd,setEntry,hML] using h.nodup M
  · have hold := h.mem M q hM
    by_cases hML : M = L <;> by_cases hqp : q = p
    · subst hML hqp
      simp [cacheListAdd,setEntry]
    · subst hML
      simpa [cacheListAdd,setEntry,hqp] using hold
    · subst hqp
      simpa [cacheListAdd,setEntry,hML,Ne.symm hML] using hnot M hM
    · simpa [cacheListAdd,setEntry,hML,hqp] using hold
  · by_cases hML : M = L
    · subst hML
      simp [cacheListAdd,setEntry,h.len M hM]
    · simpa [cacheListAdd,setEntry,hML] using h.len M hM
  · have hqp : q ≠ p := by
      have : c.next ≤ q := hq
      omega
    simpa [cacheListAdd,setEntry,hqp] using h.fresh q hq

theorem cacheListMakeFirst_coherent {c : Cache} (h : c.Coherent) {L : CacheList} {p : ℕ}
    (hL : L ≠ .noList) (hp : (c.entries p).inList = L) : (c.cacheListMakeFirst L p).Coherent := by
  have hmem : p ∈ c.list L := (h.mem L p hL).mpr hp
  have hperm : (p::(c.list L).erase p).Perm (c.list L) := (List.perm_cons_erase hmem).symm
  refine ⟨fun M => ?_,fun M q hM => ?_,fun M hM => ?_,h.fresh,h.map_lt⟩
  · by_cases hML : M = L
    · subst hML
      simpa [cacheListMakeFirst] using hperm.nodup_iff.mpr (h.nodup M)
    · simpa [cacheListMakeFirst,hML] using h.nodup M
  · by_cases hML : M = L
    · subst hML
      have := h.mem M q hM
      rw [← hperm.mem_iff] at this
      simpa [cacheListMakeFirst] using this
    · simpa [cacheListMakeFirst,hML] using h.mem M q hM
  · by_cases hML : M = L
    · subst hML
      have := h.len M hM
      rw [← hperm.length_eq] at this
      simpa [cacheListMakeFirst] using this
    · simpa [cacheListMakeFirst,hML] using h.len M hM

theorem cacheListDel_inList (c : Cache) (L : CacheList) (p : ℕ) :
    ((c.cacheListDel L p).entries p).inList = .noList := by simp [cacheListDel,setEntry]

theorem Coherent.lt_next {c : Cache} (h : c.Coherent) {p : ℕ} {L : CacheList}
    (hL : L ≠ .noList) (hp : (c.entries p).inList = L) : p < c.next := by
  by_contra hge
  exact hL (hp.symm.trans (h.fresh p (by omega)))

theorem cacheListSwap_coherent {c : Cache} (h : c.Coherent) {src dst : CacheList} {p : ℕ}
    (hs : src ≠ .noList) (hd : dst ≠ .noList) (hp : (c.entries p).inList = src) :
    (c.cacheListSwap src dst p).Coherent :=
  cacheListAdd_coherent (cacheListDel_coherent h hs hp) hd (cacheListDel_inList c src p)
    (h.lt_next hs hp)

/-- The last entry of a list exists as soon as the counter is positive. -/
theorem Coherent.getLru {c : Cache} (h : c.Coherent) {L : CacheList} (hL : L ≠ .noList) :
    c.len L = 0 ∧ c.cacheListGetLru L = none ∨
      0 < c.len L ∧ ∃ p, c.cacheListGetLru L = some p ∧ (c.entries p).inList = L := by
  cases hlru : c.cacheListGetLru L with
  | none =>
    have hnil : c.list L = [] := List.getLast?_eq_none_iff.mp hlru
    exact Or.inl ⟨by simp [h.len L hL,hnil],rfl⟩
  | some p =>
    have hin := (h.mem L p hL).mp (List.mem_of_getLast? hlru)
    exact Or.inr ⟨h.len_pos hL hin,p,rfl,hin⟩

/-- Demoting changes nothing when the list is empty. -/
theorem demote_spec {c : Cache} (h : c.Coherent) (src dst : CacheList) (hs : src ≠ .noList)
    (hd : dst ≠ .noList) :
    (c.demote src dst).Coherent ∧ (c.demote src dst).maxSize = c.maxSize ∧
      (c.demote src dst).targetT1 = c.targetT1 ∧ (c.demote src dst).next = c.next ∧
      (c.len src = 0 ∧ c.demote src dst = c ∨
        0 < c.len src ∧ (c.demote src dst).len =
          Function.update (Function.update c.len src (c.len src-1)) dst
            ((Function.update c.len src (c.len src-1)) dst+1)) := by
  unfold demote
  rcases h.getLru hs with ⟨h0,hlru⟩ | ⟨hpos,p,hlru,hin⟩
  · simp [hlru,h,h0]
  · rw [hlru]
    exact ⟨cacheListSwap_coherent h hs hd hin,rfl,rfl,rfl,Or.inr ⟨hpos,rfl⟩⟩

theorem entryFree_coherent {c : Cache} (h : c.Coherent) {p : ℕ}
    (hp : (c.entries p).inList = .noList) : (c.entryFree p).Coherent := setEntry_coherent h hp.symm

/-- Giving a reference back takes the entry out of the list it is in, or out of none. -/
theorem entryUnrefGuts_spec {c : Cache} (h : c.Coherent) (p : ℕ) :
    (c.entryUnrefGuts p).2.Coherent ∧ (c.entryUnrefGuts p).2.maxSize = c.maxSize ∧
      (c.entryUnrefGuts p).2.targetT1 = c.targetT1 ∧
      ((c.entryUnrefGuts p).2.len = c.len ∨ (c.entries p).inList ≠ .noList ∧
        (c.entryUnrefGuts p).2.len = Function.update c.len (c.entries p).inList
          (c.len (c.entries p).inList-1)) := by
  let c₁ := c.setEntry p {c.entries p with refCount := (c.entries p).refCount-1}
  let c₂ : Cache := {c₁ with map := Function.update c₁.map (c₁.entries p).key none}
  have h₁ : c₁.Coherent := setEntry_coherent h rfl
  have hmap (k : List UInt8) (q : ℕ) (hq : c₂.map k = some q) : c₁.map k = some q := by
    by_cases hk : k = (c₁.entries p).key
    · simp [c₂,hk] at hq
    · simpa [c₂,hk] using hq
  have h₂ : c₂.Coherent := h₁.of_same rfl rfl rfl hmap fun _ => rfl
  have hin : (c₂.entries p).inList = (c.entries p).inList :=
    setEntry_inList (c:=c) (e:={c.entries p with refCount := (c.entries p).refCount-1}) rfl p
  by_cases hpos : 0 < (c₁.entries p).refCount
  · have heq : c.entryUnrefGuts p = (.eagain,c₁) := if_pos hpos
    rw [heq]
    exact ⟨h₁,rfl,rfl,Or.inl rfl⟩
  by_cases hlist : (c₂.entries p).inList = .noList
  · have heq : c.entryUnrefGuts p = (.ok,c₂.entryFree p) := by
      simp only [entryUnrefGuts]
      rw [if_neg hpos]
      exact congrArg (fun x : Cache => (Ret.ok,x.entryFree p)) (if_pos hlist)
    rw [heq]
    exact ⟨entryFree_coherent h₂ hlist,rfl,rfl,Or.inl rfl⟩
  · have heq : c.entryUnrefGuts p =
        (.ok,(c₂.cacheListDel (c₂.entries p).inList p).entryFree p) := by
      simp only [entryUnrefGuts]
      rw [if_neg hpos]
      exact congrArg (fun x : Cache => (Ret.ok,x.entryFree p)) (if_neg hlist)
    rw [heq]
    refine ⟨entryFree_coherent (cacheListDel_coherent h₂ hlist rfl)
      (cacheListDel_inList c₂ _ p),rfl,rfl,Or.inr ⟨hin ▸ hlist,?_⟩⟩
    rw [← hin]
    rfl

/-- Dropping the last entry fails exactly on an empty list. -/
theorem dropLru_spec {c : Cache} (h : c.Coherent) {L : CacheList} (hL : L ≠ .noList)
    (hpos : 0 < c.len L) :
    ∃ c', c.dropLru L = .ok c' ∧ c'.Coherent ∧ c'.maxSize = c.maxSize ∧
      c'.targetT1 = c.targetT1 ∧ c'.len = Function.update c.len L (c.len L-1) := by
  rcases h.getLru hL with ⟨h0,_⟩ | ⟨_,p,hlru,hin⟩
  · omega
  have hun := cacheListDel_inList c L p
  obtain ⟨hcoh,hmax,htar,hlen⟩ := entryUnrefGuts_spec (cacheListDel_coherent h hL hin) p
  refine ⟨_,by simp only [dropLru,hlru],hcoh,hmax,htar,?_⟩
  rcases hlen with hlen | ⟨hlist,_⟩
  · exact hlen
  · exact absurd hun hlist

/-- The sizes that the policy relies on. -/
structure Sized (c : Cache) : Prop where
  max_ge : 4 ≤ c.maxSize
  max_lt : c.maxSize < 2^31
  target_nonneg : 0 ≤ c.targetT1
  target_le : c.targetT1 ≤ c.maxSize
  cached_le : c.len .t1+c.len .t2 ≤ c.maxSize
  recent_le : c.len .t1+c.len .b1 ≤ c.maxSize
  total_lt : c.len .t1+c.len .b1+(c.len .t2+c.len .b2) < 2^32

/-- There is room for one more entry in T1. -/
structure Roomy (c : Cache) : Prop where
  cached_lt : c.len .t1+c.len .t2 < c.maxSize
  recent_lt : c.len .t1+c.len .b1 < c.maxSize
  total_lt : c.len .t1+c.len .b1+(c.len .t2+c.len .b2)+1 < 2^32

theorem roomy_iff (c : Cache) : c.Roomy ↔ c.len .t1+c.len .t2 < c.maxSize ∧ c.len .t1+c.len .b1 < c.maxSize ∧
    c.len .t1+c.len .b1+(c.len .t2+c.len .b2)+1 < 2^32 :=
  ⟨fun h => ⟨h.cached_lt,h.recent_lt,h.total_lt⟩,fun h => ⟨h.1,h.2.1,h.2.2⟩⟩

instance (c : Cache) : Decidable c.Roomy := decidable_of_iff _ c.roomy_iff.symm

/-- Shorter lists are of the right sizes, too. -/
theorem Sized.of_le {c c' : Cache} (h : c.Sized) (hlen : ∀ L, c'.len L ≤ c.len L)
    (hmax : c'.maxSize = c.maxSize) (htar : c'.targetT1 = c.targetT1) : c'.Sized := by
  obtain ⟨hge,hlt,ht0,htle,hcached,hrecent,htotal⟩ := h
  have h1 := hlen .t1
  have h2 := hlen .t2
  have hb1 := hlen .b1
  have hb2 := hlen .b2
  exact ⟨by omega,by omega,by omega,by omega,by omega,by omega,by omega⟩

/-- `replace` demotes one entry of T1 or of T2. The list it chooses is empty only when T1 is
below its target and T2 is empty. -/
theorem replace_spec {c : Cache} (h : c.Coherent) (x : Option ℕ) :
    (c.replace x).Coherent ∧ (c.replace x).maxSize = c.maxSize ∧
      (c.replace x).targetT1 = c.targetT1 ∧ (c.replace x).next = c.next ∧
      ((0 < c.len .t1 ∧ (c.replace x).len .t1 = c.len .t1-1 ∧ (c.replace x).len .b1 = c.len .b1+1 ∧
          (c.replace x).len .t2 = c.len .t2 ∧ (c.replace x).len .b2 = c.len .b2) ∨
        (0 < c.len .t2 ∧ (c.replace x).len .t2 = c.len .t2-1 ∧
          (c.replace x).len .b2 = c.len .b2+1 ∧
          (c.replace x).len .t1 = c.len .t1 ∧ (c.replace x).len .b1 = c.len .b1) ∨
        (c.len .t2 = 0 ∧ c.replace x = c ∧ (c.len .t1 = 0 ∨ c.len .t1 ≤ c.targetT1) ∧
          ((x.any fun p => (c.entries p).inList = .b2) → c.len .t1 = 0 ∨
            c.len .t1 < c.targetT1))) := by
  have h1 := h.len_nonneg (L:=.t1) (by decide)
  by_cases hcond : 1 ≤ c.len .t1 ∧ (c.targetT1 < c.len .t1 ∨
      c.len .t1 = c.targetT1 ∧ (x.any fun p => (c.entries p).inList = .b2))
  · rw [show c.replace x = c.demote .t1 .b1 from if_pos hcond]
    obtain ⟨hcoh,hmax,htar,hnext,hlen⟩ := demote_spec h .t1 .b1 (by decide) (by decide)
    refine ⟨hcoh,hmax,htar,hnext,Or.inl ?_⟩
    rcases hlen with ⟨h0,_⟩ | ⟨hpos,hlen⟩
    · omega
    · simp [hlen,hpos]
  · rw [show c.replace x = c.demote .t2 .b2 from if_neg hcond]
    obtain ⟨hcoh,hmax,htar,hnext,hlen⟩ := demote_spec h .t2 .b2 (by decide) (by decide)
    refine ⟨hcoh,hmax,htar,hnext,Or.inr ?_⟩
    rcases hlen with ⟨h0,heq⟩ | ⟨hpos,hlen⟩
    · refine Or.inr ⟨h0,heq,?_,fun hx => ?_⟩
      · by_contra hcon
        exact hcond ⟨by omega,Or.inl (by omega)⟩
      · by_contra hcon
        rcases Int.lt_trichotomy (c.len .t1) c.targetT1 with hlt | heq | hgt
        · omega
        · exact hcond ⟨by omega,Or.inr ⟨heq,hx⟩⟩
        · exact hcond ⟨by omega,Or.inl hgt⟩
    · exact Or.inl (by simp [hlen,hpos])

/-- An entry goes from one list of a pair to the other, or stays where it is. -/
theorem replace_sums {c : Cache} (h : c.Coherent) (x : Option ℕ) :
    (c.replace x).len .t1+(c.replace x).len .b1 = c.len .t1+c.len .b1 ∧
    (c.replace x).len .t2+(c.replace x).len .b2 = c.len .t2+c.len .b2 ∧
    (c.replace x).len .t1+(c.replace x).len .t2 ≤ c.len .t1+c.len .t2 := by
  obtain ⟨-,-,-,-,⟨-,h1,hb1,h2,hb2⟩ | ⟨-,h2,hb2,h1,hb1⟩ | ⟨-,heq,-⟩⟩ := replace_spec h x
  · rw [h1,hb1,h2,hb2]
    exact ⟨by ring,rfl,by omega⟩
  · rw [h1,hb1,h2,hb2]
    exact ⟨rfl,by ring,by omega⟩
  · rw [heq]
    exact ⟨rfl,rfl,le_rfl⟩

theorem Sized.replace {c : Cache} (hs : c.Sized) (h : c.Coherent) (x : Option ℕ) : (c.replace x).Sized := by
  obtain ⟨-,hmax,htar,-⟩ := replace_spec h x
  obtain ⟨hrecent,hfrequent,hcached⟩ := replace_sums h x
  refine ⟨hmax ▸ hs.max_ge,hmax ▸ hs.max_lt,htar ▸ hs.target_nonneg,?_,?_,?_,?_⟩
  · rw [htar,hmax]
    exact hs.target_le
  · exact hmax ▸ hcached.trans hs.cached_le
  · rw [hrecent,hmax]
    exact hs.recent_le
  · rw [hrecent,hfrequent]
    exact hs.total_lt

/-- `replace` makes room where T1 and its ghosts leave some. -/
theorem Sized.replace_roomy {c : Cache} (hs : c.Sized) (h : c.Coherent)
    (hrecent : c.len .t1+c.len .b1 < c.maxSize) (htotal : c.len .t1+c.len .b1+(c.len .t2+c.len .b2)+1 < 2^32) :
    (c.replace none).Roomy := by
  have hb1 := h.len_nonneg (L:=.b1) (by decide)
  have hcached := hs.cached_le
  obtain ⟨-,hmax,-,-,hlen⟩ := replace_spec h none
  obtain ⟨hrec,hfreq,-⟩ := replace_sums h none
  refine ⟨?_,?_,?_⟩
  · rw [hmax]
    clear hrec hfreq htotal hmax
    rcases hlen with ⟨-,h1,-,h2,-⟩ | ⟨-,h2,-,h1,-⟩ | ⟨hnone,heq,-⟩
    · rw [h1,h2]
      omega
    · rw [h1,h2]
      omega
    · rw [heq,hnone]
      omega
  · rw [hrec,hmax]
    exact hrecent
  · rw [hrec,hfreq]
    exact htotal

theorem update_pred_le (len : CacheList → ℤ) (L M : CacheList) :
    Function.update len L (len L-1) M ≤ len M := by
  by_cases hM : M = L
  · rw [hM,Function.update_self]
    exact sub_le_self _ zero_le_one
  · rw [Function.update_of_ne hM]

/-- In a cache of the right sizes no comparison of `on_new_added` wraps around. -/
theorem onNewAdded_eq {c : Cache} (h : c.Coherent) (hs : c.Sized) : c.onNewAdded =
    if c.maxSize ≤ c.len .t1+c.len .b1 then
      if c.len .t1 < c.maxSize then do
        let d ← c.dropLru .b1
        .ok (d.replace none)
      else c.dropLru .t1
    else if c.maxSize ≤ c.len .t1+c.len .b1+(c.len .t2+c.len .b2) then do
      let d ← if 2*c.maxSize ≤ c.len .t1+c.len .b1+(c.len .t2+c.len .b2) then c.dropLru .b2
        else .ok c
      .ok (d.replace none)
    else .ok c := by
  obtain ⟨hge,hlt,_,_,_,_,htotal⟩ := hs
  obtain ⟨h1,h2,hb1,hb2⟩ := h.lens_nonneg
  have hc : (cuint c.maxSize : ℤ) = c.maxSize := cuint_of_nonneg (by omega) (by omega)
  have hl1 : (cuint (c.len .t1+c.len .b1) : ℤ) = c.len .t1+c.len .b1 :=
    cuint_of_nonneg (by omega) (by omega)
  have hl2 : (cuint (c.len .t2+c.len .b2) : ℤ) = c.len .t2+c.len .b2 :=
    cuint_of_nonneg (by omega) (by omega)
  have ht1 : (cuint (c.len .t1) : ℤ) = c.len .t1 := cuint_of_nonneg h1 (by omega)
  have htot : (cuint ((cuint (c.len .t1+c.len .b1) : ℤ)+cuint (c.len .t2+c.len .b2)) : ℤ) =
      c.len .t1+c.len .b1+(c.len .t2+c.len .b2) := by
    rw [hl1,hl2]
    exact cuint_of_nonneg (by omega) htotal
  have h2c : (cuint (2*(cuint c.maxSize : ℤ)) : ℤ) = 2*c.maxSize := by
    rw [hc]
    exact cuint_of_nonneg (by omega) (by omega)
  simp only [onNewAdded]
  split_ifs <;> first | rfl | omega

/-- In a cache of the right sizes `on_new_added` finds its victim and makes room. -/
theorem onNewAdded_spec {c : Cache} (h : c.Coherent) (hs : c.Sized) :
    ∃ c', c.onNewAdded = .ok c' ∧ c'.Coherent ∧ c'.Sized ∧ c'.Roomy := by
  rw [onNewAdded_eq h hs]
  have hge := hs.max_ge
  have hlt := hs.max_lt
  have hrecent := hs.recent_le
  have hcached := hs.cached_le
  have htotal := hs.total_lt
  obtain ⟨h1,h2,hb1,hb2⟩ := h.lens_nonneg
  split_ifs with hfull hroom hsome hover
  · obtain ⟨d,hd,hcoh,hmax,htar,hlen⟩ := dropLru_spec h (L:=.b1) (by decide) (by omega)
    have hsd : d.Sized := hs.of_le (fun M => hlen ▸ update_pred_le _ _ _) hmax htar
    have hroomy := hsd.replace_roomy hcoh (by simp [hlen]; omega) (by simp [hlen]; omega)
    rw [hd]
    exact ⟨_,rfl,(replace_spec hcoh none).1,hsd.replace hcoh none,hroomy⟩
  · obtain ⟨d,hd,hcoh,hmax,htar,hlen⟩ := dropLru_spec h (L:=.t1) (by decide) (by omega)
    have hsd : d.Sized := hs.of_le (fun M => hlen ▸ update_pred_le _ _ _) hmax htar
    refine ⟨d,hd,hcoh,hsd,?_,?_,?_⟩ <;> simp [hlen] <;> omega
  · obtain ⟨d,hd,hcoh,hmax,htar,hlen⟩ := dropLru_spec h (L:=.b2) (by decide) (by omega)
    have hsd : d.Sized := hs.of_le (fun M => hlen ▸ update_pred_le _ _ _) hmax htar
    have hroomy := hsd.replace_roomy hcoh (by simp [hlen]; omega) (by simp [hlen]; omega)
    rw [hd]
    exact ⟨_,rfl,(replace_spec hcoh none).1,hsd.replace hcoh none,hroomy⟩
  · have hroomy := hs.replace_roomy h (not_le.mp hfull) (by omega)
    exact ⟨_,rfl,(replace_spec h none).1,hs.replace h none,hroomy⟩
  · exact ⟨c,rfl,h,hs,⟨by omega,not_le.mp hfull,by omega⟩⟩

theorem demote_inList {c : Cache} (h : c.Coherent) {src dst : CacheList} (hs : src ≠ .noList)
    {p : ℕ} (hp : (c.entries p).inList ≠ src) :
    ((c.demote src dst).entries p).inList = (c.entries p).inList := by
  unfold demote
  rcases h.getLru hs with ⟨_,hlru⟩ | ⟨_,q,hlru,hin⟩
  · rw [hlru]
  · have hpq : p ≠ q := fun heq => hp (heq ▸ hin)
    simp [hlru,cacheListAdd,cacheListDel,setEntry,hpq]

/-- A ghost stays where it is while an entry is demoted. -/
theorem replace_inList {c : Cache} (h : c.Coherent) (x : Option ℕ) {p : ℕ}
    (h1 : (c.entries p).inList ≠ .t1) (h2 : (c.entries p).inList ≠ .t2) :
    ((c.replace x).entries p).inList = (c.entries p).inList := by
  unfold replace
  split_ifs
  · exact demote_inList h (by decide) h1
  · exact demote_inList h (by decide) h2

/-- A ghost hit keeps the sizes, whatever the fetch returned. -/
theorem updateGhost_spec {c : Cache} (h : c.Coherent) (hs : c.Sized) {b : CacheList} {p : ℕ}
    (hb : b = .b1 ∨ b = .b2) (hp : (c.entries p).inList = b) {target : ℤ} (h0 : 0 ≤ target)
    (hle : target ≤ c.maxSize) (ret : Ret) :
    (c.updateGhost b target ret p).2.Coherent ∧ (c.updateGhost b target ret p).2.Sized := by
  have hb0 : b ≠ .noList := by rcases hb with rfl | rfl <;> decide
  have hpos := h.len_pos hb0 hp
  have hb1 := h.len_nonneg (L:=.b1) (by decide)
  have hc : ({c with targetT1 := target} : Cache).Coherent :=
    h.of_same rfl rfl rfl (fun _ _ => id) fun _ => rfl
  have hsc : ({c with targetT1 := target} : Cache).Sized :=
    ⟨hs.max_ge,hs.max_lt,h0,hle,hs.cached_le,hs.recent_le,hs.total_lt⟩
  have hne : (c.entries p).inList ≠ .t1 ∧ (c.entries p).inList ≠ .t2 := by
    rw [hp]
    rcases hb with rfl | rfl <;> decide
  have hsized := hsc.replace hc (some p)
  have hge := hs.max_ge
  have hcached := hs.cached_le
  have hrecent := hs.recent_le
  obtain ⟨hcoh,hmax,htar,_,hlen⟩ := replace_spec hc (some p)
  have hin := (replace_inList hc (some p) hne.1 hne.2).trans hp
  unfold updateGhost
  generalize ({c with targetT1 := target} : Cache).replace (some p) = d at hcoh hmax htar hlen hin hsized
  dsimp only at hmax htar hlen
  by_cases hret : ret = .ok
  · simp only [if_pos hret]
    refine ⟨cacheListSwap_coherent hcoh hb0 (by decide) hin,?_⟩
    -- T2 grows by one: `replace` has made room for it, or T2 was empty and T1 is not full.
    have hroom : d.len .t1+d.len .t2 < c.maxSize := by
      rcases hlen with ⟨_,_,_,_,_⟩ | ⟨_,_,_,_,_⟩ | ⟨h2,heq,_,hx⟩
      · omega
      · omega
      rw [heq]
      dsimp only
      rcases hb with rfl | rfl
      · omega
      · have := hx (by simp [hp])
        omega
    have hsz := hsized
    obtain ⟨_,_,_,_,_,hr,ht⟩ := hsz
    rcases hb with rfl | rfl <;>
      refine ⟨?_,?_,?_,?_,?_,?_,?_⟩ <;> simp [cacheListSwap] <;> omega
  · simp only [if_neg hret]
    exact ⟨hcoh,hsized⟩

/-- A hit keeps the lists coherent and the sizes. -/
theorem updateCache_spec {c : Cache} (h : c.Coherent) (hs : c.Sized) {p : ℕ} (fetch : Ret) :
    ∃ r c', c.updateCache p fetch = .ok (r,c') ∧ c'.Coherent ∧ c'.Sized := by
  obtain ⟨hge,hlt,ht0,htle,hcached,hrecent,htotal⟩ := id hs
  have h1 := h.len_nonneg (L:=.t1) (by decide)
  unfold updateCache
  cases hp : (c.entries p).inList with
  | noList => exact ⟨_,_,rfl,h,hs⟩
  | t1 =>
    refine ⟨_,_,rfl,cacheListSwap_coherent h (by decide) (by decide) hp,?_⟩
    refine ⟨?_,?_,?_,?_,?_,?_,?_⟩ <;> simp [cacheListSwap] <;> omega
  | t2 => exact ⟨_,_,rfl,cacheListMakeFirst_coherent h (by decide) hp,hs.of_le (fun _ => le_refl _) rfl rfl⟩
  | b1 =>
    have hpos := h.len_pos (by decide) hp
    have hb2 := h.len_nonneg (L:=.b2) (by decide)
    have hquot : 0 ≤ (c.len .b2).tdiv (c.len .b1) := Int.tdiv_nonneg hb2 (by omega)
    simp only [updateGhostB1,if_neg (show ¬ c.len .b1 = 0 by omega),ok_bind]
    exact ⟨_,_,rfl,updateGhost_spec h hs (Or.inl rfl) hp (by omega) (by omega) _⟩
  | b2 =>
    have hpos := h.len_pos (by decide) hp
    have hb1 := h.len_nonneg (L:=.b1) (by decide)
    have hquot : 0 ≤ (c.len .b1).tdiv (c.len .b2) := Int.tdiv_nonneg hb1 (by omega)
    simp only [updateGhostB2,if_neg (show ¬ c.len .b2 = 0 by omega),ok_bind]
    exact ⟨_,_,rfl,updateGhost_spec h hs (Or.inr rfl) hp (by omega) (by omega) _⟩

theorem newEntry_coherent {c : Cache} (h : c.Coherent) (key : List UInt8) :
    (c.newEntry key).2.Coherent := by
  have hin := setEntry_inList (c:=c) (p:=c.next) (e:=⟨key,.noList,0,true⟩)
    (h.fresh c.next (le_refl _)).symm
  refine ⟨h.nodup,fun L p hL => ?_,h.len,fun p hp => ?_,fun k p hp => ?_⟩
  · exact (h.mem L p hL).trans (by rw [← hin p]; rfl)
  · exact (hin p).trans (h.fresh p (by simp only [newEntry] at hp; omega))
  · have := h.map_lt k p hp
    show p < c.next+1
    omega

theorem avlAdd_coherent {c : Cache} (h : c.Coherent) (key : List UInt8) {p : ℕ}
    (hp : p < c.next) : (c.avlAdd key p).Coherent := by
  refine ⟨h.nodup,h.mem,h.len,h.fresh,fun k q hq => ?_⟩
  by_cases hk : k = key
  · have heq : p = q := by simpa [avlAdd,hk] using hq
    exact heq ▸ hp
  · exact h.map_lt k q (by simpa [avlAdd,hk] using hq)

theorem entryRef_coherent {c : Cache} (h : c.Coherent) (p : ℕ) : (c.entryRef p).Coherent :=
  setEntry_coherent h rfl

/-- An unlisted entry is put into T1 and counted for the client, when there is room. -/
theorem addList_spec {c : Cache} (h : c.Coherent) (hs : c.Sized) (hr : c.Roomy) {p : ℕ}
    (hp : (c.entries p).inList = .noList) (hlt : p < c.next) :
    ((c.cacheListAdd .t1 p).entryRef p).Coherent ∧ ((c.cacheListAdd .t1 p).entryRef p).Sized := by
  obtain ⟨hge,hmax,ht0,htle,_,_,_⟩ := hs
  obtain ⟨hcached,hrecent,htotal⟩ := hr
  refine ⟨entryRef_coherent (cacheListAdd_coherent h (by decide) hp hlt) p,?_⟩
  have hsz : (c.cacheListAdd .t1 p).Sized := by
    refine ⟨?_,?_,?_,?_,?_,?_,?_⟩ <;> simp <;> omega
  exact hsz.of_le (fun _ => le_refl _) rfl rfl

/-- When the key names an entry that is in no list, there is room to put it back. -/
def RoomToReturn (c : Cache) (key : List UInt8) : Prop :=
  ∀ p, c.map key = some p → (c.entries p).inList = .noList → c.Roomy

instance (c : Cache) (key : List UInt8) : Decidable (c.RoomToReturn key) :=
  inferInstanceAs (Decidable (∀ p ∈ c.map key, (c.entries p).inList = .noList → c.Roomy))

/-- A call of `http2d_cache_get` returns, and keeps the lists coherent and the sizes. -/
theorem get_spec {c : Cache} (h : c.Coherent) (hs : c.Sized) {key : List UInt8}
    (hroom : c.RoomToReturn key) (newOk : Bool) (fetch : Ret) :
    ∃ r q c', c.get key newOk fetch = .ok (r,q,c') ∧ c'.Coherent ∧ c'.Sized := by
  unfold get
  by_cases hkey : key = []
  · exact ⟨_,_,_,if_pos hkey,h,hs⟩
  rw [if_neg hkey]
  cases hfound : c.map key with
  | some p =>
    by_cases hlist : (c.entries p).inList = .noList
    · have hr := hroom p hfound hlist
      simp only [if_pos hlist]
      have hin : ((c.entryRef p).entries p).inList = .noList := by
        simpa [entryRef,setEntry] using hlist
      exact ⟨_,_,_,rfl,addList_spec (entryRef_coherent h p) (hs.of_le (fun _ => le_refl _) rfl rfl)
        ⟨hr.cached_lt,hr.recent_lt,hr.total_lt⟩ hin (h.map_lt key p hfound)⟩
    · obtain ⟨r,c',hc',hcoh,hsz⟩ := updateCache_spec h hs (p:=p) fetch
      simp only [if_neg hlist,hc',ok_bind]
      exact ⟨_,_,_,rfl,entryRef_coherent hcoh p,hsz.of_le (fun _ => le_refl _) rfl rfl⟩
  | none =>
    obtain ⟨d,hd,hcoh,hsz,hr⟩ := onNewAdded_spec h hs
    simp only [hd,ok_bind]
    by_cases hnew : newOk = false
    · exact ⟨_,_,_,if_pos hnew,hcoh,hsz⟩
    rw [if_neg hnew]
    have hlt : d.next < (d.newEntry key).2.next := Nat.lt_succ_self d.next
    have hin : ((((d.newEntry key).2.avlAdd key d.next).entryRef d.next).entries d.next).inList =
        .noList := by simp [newEntry,avlAdd,entryRef,setEntry]
    exact ⟨_,_,_,rfl,addList_spec
      (entryRef_coherent (avlAdd_coherent (newEntry_coherent hcoh key) key hlt) d.next)
      (hsz.of_le (fun _ => le_refl _) rfl rfl) ⟨hr.cached_lt,hr.recent_lt,hr.total_lt⟩ hin hlt⟩

theorem init_sized {maxSize : ℤ} (hge : 4 ≤ maxSize) (hlt : maxSize < 2^31) :
    (init maxSize).Sized := by
  constructor <;> simp [init] <;> omega

end Cache

namespace CacheSys

open Cache

/-- The condition on one call: no lingering entry is put back while there is no room for it. -/
def PutsBackOnlyWithRoom (s : CacheSys) : CacheAct → Prop
  | .get _ key _ _ => s.cache.RoomToReturn key
  | .unref _ _ => True

instance (s : CacheSys) : ∀ a, Decidable (s.PutsBackOnlyWithRoom a)
  | .get _ key _ _ => inferInstanceAs (Decidable (s.cache.RoomToReturn key))
  | .unref _ _ => isTrue trivial

/-- The lists are coherent and of the right sizes. -/
def Inv (s : CacheSys) : Prop := s.cache.Coherent ∧ s.cache.Sized

/-- What a call of a client does. -/
inductive Called (s : CacheSys) : CacheAct → CacheSys → Prop
  | missed {client : ℕ} {key : List UInt8} {newOk : Bool} {fetch : Ret} (r : Ret) (c : Cache)
      (hget : s.cache.get key newOk fetch = .ok (r,none,c)) :
      Called s (.get client key newOk fetch) ⟨c,s.held⟩
  | got {client : ℕ} {key : List UInt8} {newOk : Bool} {fetch : Ret} (r : Ret) (p : ℕ) (c : Cache)
      (hget : s.cache.get key newOk fetch = .ok (r,some p,c)) :
      Called s (.get client key newOk fetch) ⟨c,(client,p)::s.held⟩
  | returned {client p : ℕ} (hheld : (client,p) ∈ s.held) :
      Called s (.unref client p) ⟨(s.cache.entryUnrefGuts p).2,s.held.erase (client,p)⟩

theorem step_called {s s' : CacheSys} {a : CacheAct} (hstep : s.step a = some s') : s.Called a s' := by
  cases a with
  | get client key newOk fetch =>
    simp only [step] at hstep
    split at hstep
    · rename_i r p c hget
      cases Option.some.inj hstep
      exact .got r p c hget
    · rename_i r c hget
      cases Option.some.inj hstep
      exact .missed r c hget
    · cases hstep
  | unref client p =>
    simp only [step] at hstep
    split_ifs at hstep with hheld
    cases Option.some.inj hstep
    exact .returned hheld

theorem step_inv {s s' : CacheSys} {a : CacheAct} (h : s.Inv) (hg : s.PutsBackOnlyWithRoom a)
    (hstep : s.step a = some s') : s'.Inv := by
  have hgot {key : List UInt8} (hroom : s.cache.RoomToReturn key) {newOk : Bool} {fetch r : Ret}
      {q : Option ℕ} {c : Cache} (hget : s.cache.get key newOk fetch = .ok (r,q,c)) :
      c.Coherent ∧ c.Sized := by
    obtain ⟨r',q',c',hget',hinv⟩ := get_spec h.1 h.2 hroom newOk fetch
    cases Except.ok.inj (hget.symm.trans hget')
    exact hinv
  cases step_called hstep with
  | missed r c hget => exact hgot hg hget
  | got r p c hget => exact hgot hg hget
  | @returned client p hheld =>
    obtain ⟨hcoh,hmax,htar,hlen⟩ := entryUnrefGuts_spec h.1 p
    refine ⟨hcoh,?_⟩
    refine h.2.of_le (fun L => ?_) hmax htar
    rcases hlen with hlen | ⟨_,hlen⟩
    · rw [hlen]
    · rw [hlen]
      by_cases hL : L = (s.cache.entries p).inList
      · subst hL
        simp
      · simp [hL]

/-- In every run that puts entries back only with room for them, the victim exists in every
state that is reached: `on_new_added` never reaches the NULL entry. -/
theorem onNewAdded_returns {maxSize : ℤ} (hge : 4 ≤ maxSize) (hlt : maxSize < 2^31)
    {as : List CacheAct} {t : CacheSys}
    (hg : Guarded step PutsBackOnlyWithRoom (init maxSize) as)
    (hrun : run step (init maxSize) as = some t) : ∃ c, t.cache.onNewAdded = .ok c := by
  have hinit : (init maxSize).Inv := ⟨init_coherent maxSize,init_sized hge hlt⟩
  obtain ⟨hcoh,hsz⟩ := guarded_invariant PutsBackOnlyWithRoom Inv
    (fun _ _ _ hi hg hs => step_inv hi hg hs) hinit hg hrun
  obtain ⟨c,hc,_⟩ := onNewAdded_spec hcoh hsz
  exact ⟨c,hc⟩

/-- One client that gets an entry and keeps it. -/
def getKeep (k : UInt8) : CacheAct := .get 0 [k] true .ok

/-- Eight keys are got, the four that were evicted are got again, and nine hits move entries
to T2. -/
def lingering : List CacheAct :=
  [1,2,3,4,5,6,7,8,1,2,3,4,1,2,3,4,5].map getKeep

/-- Five keys are got and kept in a cache of four. The memory for a sixth is refused when an entry has gone
for it, and the first key comes back into its place. -/
def comingBack : List CacheAct := [1,2,3,4,5].map getKeep ++ [.get 0 [6] false .ok,getKeep 1]

theorem onNewAdded_returns_back : ∃ t, run step (init 4) comingBack = some t ∧
    ∃ c, t.cache.onNewAdded = .ok c := by
  have hg : Guarded step PutsBackOnlyWithRoom (init 4) comingBack := by decide +kernel
  exact ⟨_,rfl,onNewAdded_returns (by decide) (by decide) hg rfl⟩

/-- In a full cache of four whose lists T1 and T2 hold eight entries, the empty list B2 is asked
for its last entry. -/
theorem onNewAdded_null_entry : ∃ t, run step (init 4) lingering = some t ∧
    t.cache.onNewAdded = .error .fault := ⟨_,rfl,rfl⟩

end CacheSys
end Http2d
