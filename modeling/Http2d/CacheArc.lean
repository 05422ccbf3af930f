import Http2d.Library.Arc
import Http2d.CacheCapacity

/-! The cache serves one request after another as the replacement policy does.
When no client holds an entry, what the table finds is listed, and the lists are those of the
policy with the keys in the place of the entries. -/
namespace Http2d

open Transition

namespace Cache

/-- The keys of the entries in a list. -/
def keys (c : Cache) (L : CacheList) : List (List UInt8) :=
  (c.list L).map fun p => (c.entries p).key

/-- The state of the policy that the cache is in. -/
def arc (c : Cache) : Arc.State (List UInt8) :=
  ⟨c.keys .t1,c.keys .t2,c.keys .b1,c.keys .b2,c.targetT1.toNat⟩

theorem map_erase_of_inj {K : Type} [BEq K] [LawfulBEq K] (f : ℕ → K) (p : ℕ) (l : List ℕ)
    (hinj : ∀ q ∈ l, f q = f p → q = p) : (l.erase p).map f = (l.map f).erase (f p) := by
  induction l with
  | nil => rfl
  | cons q l ih =>
    have ih := ih fun r hr => hinj r (List.mem_cons_of_mem q hr)
    by_cases hq : q = p
    · subst hq
      simp
    · have hf : f q ≠ f p := fun heq => hq (hinj q List.mem_cons_self heq)
      simp [List.erase_cons_tail,hq,hf,ih]

theorem erase_last {l : List ℕ} (hl : l.Nodup) {p : ℕ} (hp : l.getLast? = some p) :
    l.erase p = l.dropLast := by
  have hsplit : l = l.dropLast++[p] := by
    rw [List.dropLast_append_getLast? p hp]
  have hnot : p ∉ l.dropLast := by
    rw [hsplit] at hl
    exact fun hin => List.disjoint_of_nodup_append hl hin List.mem_cons_self
  conv_lhs => rw [hsplit]
  rw [List.erase_append_right _ hnot]
  simp

section Keys
variable {c c' : Cache} {held : ℕ → ℕ} {p : ℕ}

theorem keys_of_same (hlist : c'.list = c.list)
    (hkey : ∀ q, (c'.entries q).key = (c.entries q).key) : c'.keys = c.keys := by
  funext L
  simp only [keys,hlist,hkey]

theorem Accounted.counted (h : c.Accounted held) {L : CacheList} (hL : L ≠ .noList)
    (hp : (c.entries p).inList = L) : 0 < (c.entries p).refCount := by
  have := h.count p
  rw [listed_of hL hp] at this
  omega

theorem Accounted.key_inj (h : c.Accounted held) {q : ℕ} (hp : 0 < (c.entries p).refCount)
    (hq : 0 < (c.entries q).refCount) (hkey : (c.entries q).key = (c.entries p).key) : q = p :=
  Option.some.inj ((h.own q hq).symm.trans (hkey ▸ h.own p hp))

/-- The keys of a list are those that the table finds in it. -/
theorem Accounted.mem_keys (h : c.Accounted held) {L : CacheList} (hL : L ≠ .noList)
    {key : List UInt8} :
    key ∈ c.keys L ↔ ∃ p, c.map key = some p ∧ (c.entries p).inList = L := by
  simp only [keys,List.mem_map]
  constructor
  · rintro ⟨p,hp,rfl⟩
    have hin := (h.mem L p hL).mp hp
    exact ⟨p,h.own p (h.counted hL hin),hin⟩
  · rintro ⟨p,hfound,hin⟩
    exact ⟨p,(h.mem L p hL).mpr hin,(h.found key p hfound).2⟩

theorem Accounted.map_erase (h : c.Accounted held) {L : CacheList} (hL : L ≠ .noList)
    (hp : (c.entries p).inList = L) :
    ((c.list L).erase p).map (fun q => (c.entries q).key) = (c.keys L).erase (c.entries p).key :=
  map_erase_of_inj _ p _ fun q hq hkey => h.key_inj (h.counted hL hp)
    (h.counted hL ((h.mem L q hL).mp hq)) hkey

theorem cacheListDel_key (c : Cache) (L : CacheList) (p q : ℕ) :
    ((c.cacheListDel L p).entries q).key = (c.entries q).key := by
  by_cases hq : q = p
  · subst hq
    simp [cacheListDel,setEntry]
  · simp [cacheListDel,setEntry,hq]

theorem cacheListAdd_key (c : Cache) (L : CacheList) (p q : ℕ) :
    ((c.cacheListAdd L p).entries q).key = (c.entries q).key := by
  by_cases hq : q = p
  · subst hq
    simp [cacheListAdd,setEntry]
  · simp [cacheListAdd,setEntry,hq]

theorem cacheListDel_keys (h : c.Accounted held) {L : CacheList} (hL : L ≠ .noList)
    (hp : (c.entries p).inList = L) : (c.cacheListDel L p).keys =
      Function.update c.keys L ((c.keys L).erase (c.entries p).key) := by
  funext M
  by_cases hM : M = L
  · subst hM
    simp only [keys,cacheListDel_key,Function.update_self]
    rw [← keys,← h.map_erase hL hp]
    simp [cacheListDel]
  · simp only [keys,cacheListDel_key]
    simp [cacheListDel,hM,keys]

theorem cacheListAdd_keys (c : Cache) (L : CacheList) (p : ℕ) : (c.cacheListAdd L p).keys =
    Function.update c.keys L ((c.entries p).key::c.keys L) := by
  funext M
  by_cases hM : M = L
  · subst hM
    simp only [keys,cacheListAdd_key,Function.update_self]
    simp [cacheListAdd]
  · simp only [keys,cacheListAdd_key]
    simp [cacheListAdd,hM,keys]

theorem cacheListSwap_keys (h : c.Accounted held) {src : CacheList} (dst : CacheList) (hs : src ≠ .noList)
    (hp : (c.entries p).inList = src) (hne : dst ≠ src) : (c.cacheListSwap src dst p).keys =
      Function.update (Function.update c.keys src ((c.keys src).erase (c.entries p).key)) dst
        ((c.entries p).key::c.keys dst) := by
  rw [cacheListSwap,cacheListAdd_keys,cacheListDel_keys h hs hp,cacheListDel_key,
    Function.update_of_ne hne]

/-- The last entry of a list has the last key of it. -/
theorem Accounted.lru_keys (h : c.Accounted held) {L : CacheList} (hL : L ≠ .noList)
    (hlru : c.cacheListGetLru L = some p) : (c.entries p).inList = L ∧
      (c.keys L).getLast? = some (c.entries p).key ∧
      (c.keys L).erase (c.entries p).key = (c.keys L).dropLast := by
  have hin := (h.mem L p hL).mp (List.mem_of_getLast? hlru)
  refine ⟨hin,?_,?_⟩
  · simp only [keys,List.getLast?_map]
    rw [show (c.list L).getLast? = some p from hlru]
    rfl
  · rw [← h.map_erase hL hin,erase_last (h.nodup L) hlru,keys,List.map_dropLast]

theorem demote_keys (h : c.Accounted held) (src dst : CacheList) (hs : src ≠ .noList)
    (hne : dst ≠ src) : (c.demote src dst).keys =
      Function.update (Function.update c.keys src (c.keys src).dropLast) dst
        ((c.keys src).getLast?.toList++c.keys dst) := by
  unfold demote
  cases hlru : c.cacheListGetLru src with
  | none =>
    have hnil : c.keys src = [] := by
      rw [keys,List.getLast?_eq_none_iff.mp hlru]
      rfl
    simp only [hnil,List.dropLast_nil,List.getLast?_nil,Option.toList_none,List.nil_append]
    rw [← hnil,Function.update_eq_self,Function.update_eq_self]
  | some p =>
    obtain ⟨hin,hlast,herase⟩ := h.lru_keys hs hlru
    have hswap := cacheListSwap_keys h _ hs hin hne
    rw [herase] at hswap
    rw [hlast]
    exact hswap

theorem Accounted.keys_length (h : c.Accounted held) {L : CacheList} (hL : L ≠ .noList) :
    ((c.keys L).length : ℤ) = c.len L := by
  rw [keys,List.length_map,h.len L hL]

/-- `replace` is REPLACE for a page that is in B2 when the hit ghost is. -/
theorem replace_arc (h : c.Accounted held) (h0 : 0 ≤ c.targetT1) {x : Option ℕ}
    {key : List UInt8} (hx : (x.any fun p => (c.entries p).inList = .b2) ↔ key ∈ c.keys .b2) :
    (c.replace x).arc = c.arc.replace key := by
  have ht1 := h.keys_length (L:=.t1) (by decide)
  have hne : c.keys .t1 ≠ [] ↔ 1 ≤ c.len .t1 := by
    rw [← List.length_pos_iff,← ht1]
    omega
  have hcond : (1 ≤ c.len .t1 ∧ (c.targetT1 < c.len .t1 ∨
      c.len .t1 = c.targetT1 ∧ (x.any fun p => (c.entries p).inList = .b2))) ↔
      c.arc.t1 ≠ [] ∧ (c.arc.p < c.arc.t1.length ∨ key ∈ c.arc.b2 ∧ c.arc.t1.length = c.arc.p) := by
    simp only [arc,hne,hx]
    refine and_congr_right fun _ => ?_
    constructor
    · rintro (hlt | ⟨heq,hin⟩)
      · exact Or.inl (by omega)
      · exact Or.inr ⟨hin,by omega⟩
    · rintro (hlt | ⟨hin,heq⟩)
      · exact Or.inl (by omega)
      · exact Or.inr ⟨by omega,hin⟩
  unfold replace Arc.State.replace
  by_cases hc : c.arc.t1 ≠ [] ∧
      (c.arc.p < c.arc.t1.length ∨ key ∈ c.arc.b2 ∧ c.arc.t1.length = c.arc.p)
  · rw [if_pos hc,if_pos (hcond.mpr hc)]
    have hkeys := demote_keys h .t1 .b1 (by decide) (by decide)
    have htar := (demote_spec h.toCoherent .t1 .b1 (by decide) (by decide)).2.2.1
    simp [arc,hkeys,htar]
  · rw [if_neg hc,if_neg (mt hcond.mp hc)]
    have hkeys := demote_keys h .t2 .b2 (by decide) (by decide)
    have htar := (demote_spec h.toCoherent .t2 .b2 (by decide) (by decide)).2.2.1
    simp [arc,hkeys,htar]

/-- Giving a reference back leaves the lists when it is not the last one, or when the entry is in
none of them. -/
theorem entryUnrefGuts_arc (c : Cache)
    (hp : (c.entries p).inList = .noList ∨ 1 < (c.entries p).refCount) :
    (c.entryUnrefGuts p).2.arc = c.arc := by
  by_cases hmore : 1 < (c.entries p).refCount
  · have hkeys : (c.entryUnrefGuts p).2.keys = c.keys := keys_of_same (by
      rw [entryUnrefGuts_kept hmore]
      rfl) fun q => by
        rw [entryUnrefGuts_kept hmore]
        by_cases hq : q = p
        · subst hq
          simp [setEntry]
        · simp [setEntry,hq]
    rw [arc,arc,hkeys,entryUnrefGuts_kept hmore]
    rfl
  · have hin := hp.resolve_right hmore
    have hsame : (c.entryUnrefGuts p).2.list = c.list ∧
        (c.entryUnrefGuts p).2.targetT1 = c.targetT1 := by
      simp [entryUnrefGuts,setEntry,entryFree,hmore,hin]
    have hkeys : (c.entryUnrefGuts p).2.keys = c.keys := keys_of_same hsame.1 fun q => by
      rw [(entryUnrefGuts_freed (not_lt.mp hmore)).1]
      by_cases hq : q = p
      · subst hq
        simp
      · simp [hq]
    rw [arc,arc,hkeys,hsame.2]

/-- Dropping the last entry of a list drops the last key. -/
theorem dropLru_keys (h : c.Accounted held) {L : CacheList} (hL : L ≠ .noList)
    (hdrop : c.dropLru L = .ok c') : c'.arc =
      ⟨Function.update c.keys L (c.keys L).dropLast .t1,
        Function.update c.keys L (c.keys L).dropLast .t2,
        Function.update c.keys L (c.keys L).dropLast .b1,
        Function.update c.keys L (c.keys L).dropLast .b2,c.targetT1.toNat⟩ := by
  obtain ⟨p,hlru,rfl⟩ := dropLru_inv hdrop
  obtain ⟨hin,_,herase⟩ := h.lru_keys hL hlru
  rw [entryUnrefGuts_arc _ (Or.inl (cacheListDel_inList c L p)),arc,
    cacheListDel_keys h hL hin,herase]
  rfl

/-- `on_new_added` makes room for the key as case IV does. -/
theorem onNewAdded_arc (h : c.Accounted held) (hs : c.Sized) (ht : c.total ≤ 2*c.maxSize)
    {key : List UInt8} (hkey : c.map key = none) (hnew : c.onNewAdded = .ok c') :
    c'.arc = c.arc.makeRoom c.maxSize.toNat key := by
  have hge := hs.max_ge
  have hrecent := hs.recent_le
  have ht1 := h.keys_length (L:=.t1) (by decide)
  have ht2 := h.keys_length (L:=.t2) (by decide)
  have hb1 := h.keys_length (L:=.b1) (by decide)
  have hb2 := h.keys_length (L:=.b2) (by decide)
  have htotal : (c.arc.total : ℤ) = c.len .t1+c.len .b1+(c.len .t2+c.len .b2) := by
    simp only [Arc.State.total,arc]
    push_cast
    omega
  have hrep {d : Cache} (hd : d.Accounted held) (hset : c.Settled d) :
      (d.replace none).arc = d.arc.replace key := by
    refine replace_arc hd (hset.targetT1 ▸ hs.target_nonneg) ?_
    simp [hd.mem_keys (L:=.b2) (by decide),hset.absent key hkey]
  simp only [total] at ht
  rw [onNewAdded_eq h.toCoherent hs] at hnew
  unfold Arc.State.makeRoom
  by_cases hfull : c.maxSize ≤ c.len .t1+c.len .b1
  · rw [if_pos hfull] at hnew
    rw [if_pos (show c.arc.t1.length+c.arc.b1.length = c.maxSize.toNat by simp only [arc]; omega)]
    by_cases hroom : c.len .t1 < c.maxSize
    · rw [if_pos hroom] at hnew
      rw [if_pos (show c.arc.t1.length < c.maxSize.toNat by simp only [arc]; omega)]
      obtain ⟨d,hd,hnew⟩ := bind_ok_inv hnew
      cases Except.ok.inj hnew
      obtain ⟨hda,hset⟩ := dropLru_accounted h (by decide) hd
      rw [hrep hda hset,dropLru_keys h (by decide) hd]
      rfl
    · rw [if_neg hroom] at hnew
      rw [if_neg (show ¬ c.arc.t1.length < c.maxSize.toNat by simp only [arc]; omega),
        dropLru_keys h (by decide) hnew]
      rfl
  · rw [if_neg hfull] at hnew
    rw [if_neg (show c.arc.t1.length+c.arc.b1.length ≠ c.maxSize.toNat by simp only [arc]; omega)]
    by_cases hsome : c.maxSize ≤ c.len .t1+c.len .b1+(c.len .t2+c.len .b2)
    · rw [if_pos hsome] at hnew
      rw [if_pos (show c.maxSize.toNat ≤ c.arc.total by omega)]
      by_cases hover : 2*c.maxSize ≤ c.len .t1+c.len .b1+(c.len .t2+c.len .b2)
      · simp only [if_pos hover] at hnew
        obtain ⟨d,hd,hnew⟩ := bind_ok_inv hnew
        cases Except.ok.inj hnew
        obtain ⟨hda,hset⟩ := dropLru_accounted h (by decide) hd
        rw [if_pos (show c.arc.total = 2*c.maxSize.toNat by omega),hrep hda hset,
          dropLru_keys h (by decide) hd]
        rfl
      · simp only [if_neg hover,ok_bind] at hnew
        cases Except.ok.inj hnew
        rw [if_neg (show c.arc.total ≠ 2*c.maxSize.toNat by omega),hrep h (Settled.refl c)]
    · rw [if_neg hsome] at hnew
      cases Except.ok.inj hnew
      rw [if_neg (show ¬ c.maxSize.toNat ≤ c.arc.total by omega)]

theorem entryRef_arc (c : Cache) (p : ℕ) : (c.entryRef p).arc = c.arc := by
  have hkeys : (c.entryRef p).keys = c.keys := keys_of_same rfl fun q => by
    by_cases hq : q = p
    · subst hq
      simp [entryRef,setEntry]
    · simp [entryRef,setEntry,hq]
  rw [arc,arc,hkeys]
  rfl

/-- A new entry is the first of T1. -/
theorem made_arc (h : c.Coherent) (key : List UInt8) :
    (c.made key).arc = {c.arc with t1 := key::c.arc.t1} := by
  let d := ((c.newEntry key).2.avlAdd key c.next).entryRef c.next
  have hkey : (d.entries c.next).key = key := by
    simp [d,newEntry,avlAdd,entryRef,setEntry]
  have hkeys (L : CacheList) (hL : L ≠ .noList) : d.keys L = c.keys L := by
    refine List.map_congr_left fun q hq => ?_
    have hlt := h.lt_next hL ((h.mem L q hL).mp hq)
    simp [d,newEntry,avlAdd,entryRef,setEntry,hlt.ne]
  have hadd := cacheListAdd_keys d .t1 c.next
  rw [made,putBack,entryRef_arc,arc,hadd,hkey]
  simp [arc,hkeys]
  rfl

/-- A ghost is moved to T2 once the target is adapted and an entry is demoted. -/
theorem updateGhost_arc (h : c.Accounted held) {b : CacheList} (hb : b = .b1 ∨ b = .b2)
    (hin : (c.entries p).inList = b) {target : ℤ} (h0 : 0 ≤ target) {key : List UInt8}
    (hfound : c.map key = some p) : (c.updateGhost b target .ok p).2.arc =
      let s := ({c.arc with p := target.toNat}).replace key
      if b = .b1 then {s with b1 := s.b1.erase key, t2 := key::s.t2}
      else {s with b2 := s.b2.erase key, t2 := key::s.t2} := by
  let d : Cache := {c with targetT1 := target}
  have hd : d.Accounted held :=
    h.of_moved (h.toCoherent.of_same rfl rfl rfl (fun _ _ => id) fun _ => rfl) rfl rfl
      fun _ => ⟨rfl,rfl,rfl,rfl⟩
  have hx : ((some p).any fun q => (d.entries q).inList = .b2) ↔ key ∈ d.keys .b2 := by
    simp [hd.mem_keys (L:=.b2) (by decide),d,hfound]
  have hrep := replace_arc hd h0 hx
  obtain ⟨hr,_⟩ := replace_accounted hd (some p)
  have hne : (d.entries p).inList ≠ .t1 ∧ (d.entries p).inList ≠ .t2 := by
    show (c.entries p).inList ≠ .t1 ∧ (c.entries p).inList ≠ .t2
    rw [hin]
    rcases hb with rfl | rfl <;> decide
  have hin' := (replace_inList hd.toCoherent (some p) hne.1 hne.2).trans hin
  have hkey := (hr.found key p (by rw [replace_map]; exact hfound)).2
  have hb0 : b ≠ .noList := by rcases hb with rfl | rfl <;> decide
  have hswap := cacheListSwap_keys hr .t2 hb0 hin' (by rcases hb with rfl | rfl <;> decide)
  rw [hkey] at hswap
  show ((d.replace (some p)).cacheListSwap b .t2 p).arc = _
  rw [show ({c.arc with p := target.toNat} : Arc.State (List UInt8)) = d.arc from rfl,← hrep]
  rcases hb with rfl | rfl <;> simp [arc,hswap] <;> rfl

/-- A hit whose fetch succeeds moves the page as the policy does. -/
theorem hit_arc {m : ℤ} (h : c.Accounted held) (hm : c.InTarget m) {key : List UInt8}
    (hfound : c.map key = some p) (hin : (c.entries p).inList ≠ .noList) {r : Ret}
    (hhit : c.Hit p .ok r c') : c'.arc = c.arc.request m.toNat key := by
  obtain ⟨hmax,h0,hle⟩ := hm
  have hkey := (h.found key p hfound).2
  have hmem {L : CacheList} (hL : L ≠ .noList) : key ∈ c.keys L ↔ (c.entries p).inList = L := by
    simp [h.mem_keys hL,hfound]
  have hmem1 : key ∈ c.arc.t1 ↔ (c.entries p).inList = .t1 := hmem (by decide)
  have hmem2 : key ∈ c.arc.t2 ↔ (c.entries p).inList = .t2 := hmem (by decide)
  have hmem3 : key ∈ c.arc.b1 ↔ (c.entries p).inList = .b1 := hmem (by decide)
  have hmem4 : key ∈ c.arc.b2 ↔ (c.entries p).inList = .b2 := hmem (by decide)
  cases hhit with
  | unlisted hnot => exact absurd hnot hin
  | recent hin =>
    have hkeys := cacheListSwap_keys h .t2 (by decide) hin (by decide)
    rw [hkey] at hkeys
    have hnot : key ∉ c.arc.t2 := by simp [hmem2,hin]
    rw [Arc.State.request_cached (Or.inl (hmem1.mpr hin)),List.erase_of_not_mem hnot]
    simp [arc,hkeys]
    rfl
  | frequent hin =>
    have hkeys : (c.cacheListMakeFirst .t2 p).keys =
        Function.update c.keys .t2 (key::(c.keys .t2).erase key) := by
      funext L
      by_cases hL : L = .t2
      · subst hL
        rw [Function.update_self,← hkey,← h.map_erase (by decide) hin]
        simp [keys,cacheListMakeFirst]
      · simp [keys,cacheListMakeFirst,hL]
    have hnot : key ∉ c.arc.t1 := by simp [hmem1,hin]
    rw [Arc.State.request_cached (Or.inr (hmem2.mpr hin)),List.erase_of_not_mem hnot]
    simp [arc,hkeys]
    rfl
  | ghost b hb hin r ret hr hret =>
    have hb1 := h.keys_length (L:=.b1) (by decide)
    have hb2 := h.keys_length (L:=.b2) (by decide)
    have hdiv (x y : List (List UInt8)) :
        ((Arc.State.delta x y : ℕ) : ℤ) = max 1 ((y.length : ℤ).tdiv x.length) := by
      rw [Arc.State.delta,Nat.cast_max,← Int.ofNat_tdiv]
      rfl
    cases hret.mpr (by rcases hb with rfl | rfl <;> rfl)
    have hnot1 : key ∉ c.arc.t1 := by rw [hmem1,hin]; rcases hb with rfl | rfl <;> decide
    have hnot2 : key ∉ c.arc.t2 := by rw [hmem2,hin]; rcases hb with rfl | rfl <;> decide
    rcases hb with rfl | rfl
    · have hd := hdiv (c.keys .b1) (c.keys .b2)
      rw [hb1,hb2] at hd
      have htar : (c.adapted .b1).toNat =
          min m.toNat (c.arc.p+Arc.State.delta c.arc.b1 c.arc.b2) := by
        simp only [adapted,arc]
        omega
      rw [updateGhost_arc h (Or.inl rfl) hin (by simp only [adapted]; omega) hfound,
        Arc.State.request_b1 hnot1 hnot2 (hmem3.mpr hin),htar]
      rfl
    · have hd := hdiv (c.keys .b2) (c.keys .b1)
      rw [hb1,hb2] at hd
      have hnot3 : key ∉ c.arc.b1 := by rw [hmem3,hin]; decide
      have htar : (c.adapted .b2).toNat = c.arc.p-Arc.State.delta c.arc.b2 c.arc.b1 := by
        simp only [adapted,arc]
        omega
      rw [updateGhost_arc h (Or.inr rfl) hin (by simp only [adapted]; omega) hfound,
        Arc.State.request_b2 hnot1 hnot2 hnot3 (hmem4.mpr hin),htar]
      rfl

end Keys

end Cache

namespace CacheSys

open Cache

/-- A client gets the entry for a key, the callbacks succeed, and the client gives back what it
has got. -/
def request (s : CacheSys) (r : ℕ × List UInt8) : Option CacheSys :=
  (s.step (.get r.1 r.2 true .ok)).bind fun s' =>
    match s'.held with
    | [] => some s'
    | (client,p)::_ => s'.step (.unref client p)

/-- When no client holds an entry, what the table finds is in a list. -/
theorem found_listed {maxSize : ℤ} {s : CacheSys} (h : s.Balanced maxSize) (hheld : s.held = [])
    {key : List UInt8} {p : ℕ} (hfound : s.cache.map key = some p) :
    (s.cache.entries p).inList ≠ .noList := fun hin => by
  have hpos := (h.1.found key p hfound).1
  rw [h.1.count p,listed_of_not hin] at hpos
  simp [refs,hheld] at hpos

/-- What a get does when no client holds an entry: it leaves the client with a reference that is
not the last one. -/
theorem get_arc {maxSize : ℤ} {s : CacheSys} (h : s.Bounded maxSize) (hheld : s.held = [])
    {key : List UInt8} (hkey : key ≠ []) : ∃ p c', s.cache.get key true .ok = .ok (.ok,some p,c') ∧
      c'.arc = s.cache.arc.request maxSize.toNat key ∧ 1 < (c'.entries p).refCount := by
  obtain ⟨hbal,hinv,ht⟩ := h
  have hmax := hbal.2.1
  have hroom : s.cache.RoomToReturn key := fun p hfound hin =>
    absurd hin (found_listed hbal hheld hfound)
  obtain ⟨r,q,c',hget,_⟩ := get_spec hinv.1 hinv.2 hroom true .ok
  cases get_got hget with
  | empty hnil => exact absurd hnil hkey
  | lingering p hfound hin => exact absurd hin (found_listed hbal hheld hfound)
  | hit p r d hfound hin hhit =>
    have hr := (get_got hget).ok_of_entry fun b hb => by rcases hb with rfl | rfl <;> rfl
    have hd := hit_accounted hbal.1 hhit
    have hpos := (hd.found key p (hit_map hhit ▸ hfound)).1
    refine ⟨p,_,hr ▸ hget,?_,?_⟩
    · rw [entryRef_arc,hit_arc hbal.1 hbal.2 hfound hin hhit]
    · simp only [entryRef,setEntry,Function.update_self]
      omega
  | refused d hfound hnew hok => cases hok
  | miss d hfound hnew hok =>
    obtain ⟨hd,hset⟩ := onNewAdded_accounted hbal.1 hnew
    have hnot {L : CacheList} (hL : L ≠ .noList) : key ∉ s.cache.keys L := by
      simp [hbal.1.mem_keys hL,hfound]
    refine ⟨d.next,_,hget,?_,?_⟩
    · rw [made_arc hd.toCoherent,onNewAdded_arc hbal.1 hinv.2 (hmax ▸ ht) hfound hnew,hmax]
      exact (Arc.State.request_miss (hnot (by decide)) (hnot (by decide)) (hnot (by decide))
        (hnot (by decide))).symm
    · simp [made,putBack,newEntry,avlAdd,entryRef,cacheListAdd,setEntry]

/-- One request takes the cache to the next state of the policy. -/
theorem request_arc {maxSize : ℤ} {s : CacheSys} (h : s.Bounded maxSize) (hheld : s.held = [])
    (client : ℕ) {key : List UInt8} (hkey : key ≠ []) : ∃ s', s.request (client,key) = some s' ∧
      s'.Bounded maxSize ∧ s'.held = [] ∧
      s'.cache.arc = s.cache.arc.request maxSize.toNat key := by
  obtain ⟨p,c',hget,harc,hmore⟩ := get_arc h hheld hkey
  have hstep : s.step (.get client key true .ok) = some ⟨c',[(client,p)]⟩ := by
    simp only [step,hget,hheld]
  have hgive : step ⟨c',[(client,p)]⟩ (.unref client p) = some ⟨(c'.entryUnrefGuts p).2,[]⟩ := by
    simp [step]
  have hroom : s.PutsBackWithRoom (.get client key true .ok) := fun p hfound hin =>
    absurd hin (found_listed h.1 hheld hfound)
  have hb := step_bounded (a:=.unref client p) (step_bounded h hroom hstep) trivial hgive
  refine ⟨_,?_,hb,rfl,?_⟩
  · simp only [request,hstep,Option.bind_some,hgive]
  · rw [entryUnrefGuts_arc c' (Or.inr hmore),harc]

/-- Every sequence of requests leaves the cache in the state of the policy after them. -/
theorem requests_arc {maxSize : ℤ} (h0 : 0 < maxSize) (hlt : maxSize < 2^31) (h4 : 4 ∣ maxSize)
    (reqs : List (ℕ × List UInt8)) (hkeys : ∀ r ∈ reqs, r.2 ≠ []) :
    ∃ t, run request (init maxSize) reqs = some t ∧
      t.cache.arc = Arc.State.serve maxSize.toNat (reqs.map Prod.snd) ∧
      t.cache.targetT1 = (Arc.State.serve maxSize.toNat (reqs.map Prod.snd)).p := by
  have hstep (past : List (ℕ × List UInt8)) (s : CacheSys) (r : ℕ × List UInt8)
      (hp : ∀ r' ∈ past++[r], r'.2 ≠ []) (hi : s.Bounded maxSize ∧ s.held = [] ∧
        s.cache.arc = Arc.State.serve maxSize.toNat (past.map Prod.snd)) (_ : True) :
      ∃ s', s.request r = some s' ∧ s'.Bounded maxSize ∧ s'.held = [] ∧
        s'.cache.arc = Arc.State.serve maxSize.toNat ((past++[r]).map Prod.snd) := by
    obtain ⟨hb,hheld,harc⟩ := hi
    obtain ⟨s',hs',hb',hheld',harc'⟩ := request_arc hb hheld r.1 (hp r (by simp))
    refine ⟨s',hs',hb',hheld',?_⟩
    rw [harc',harc,List.map_append,List.map_singleton,Arc.State.serve_concat]
  have hguard (s : CacheSys) (as : List (ℕ × List UInt8)) :
      Guarded request (fun _ _ => True) s as := by
    induction as generalizing s with
    | nil => trivial
    | cons a as ih => exact ⟨trivial,fun s' _ => ih s'⟩
  obtain ⟨t,ht,hb,_,harc⟩ := guarded_run_history (fun _ _ => True)
    (fun as : List (ℕ × List UInt8) => ∀ r ∈ as, r.2 ≠ [])
    (fun past s => s.Bounded maxSize ∧ s.held = [] ∧
      s.cache.arc = Arc.State.serve maxSize.toNat (past.map Prod.snd))
    (fun as bs h r hr => h r (List.mem_append_left bs hr)) hstep [] hkeys
    ⟨init_bounded h0 hlt h4,rfl,rfl⟩ (hguard _ reqs)
  refine ⟨t,ht,harc,?_⟩
  have := hb.1.2.2.1
  rw [← List.nil_append reqs,← harc]
  exact (Int.toNat_of_nonneg this).symm

/-- The second key is evicted for the fifth one and got again. -/
def ghostHit : List (ℕ × List UInt8) :=
  [(0,[1]),(0,[1]),(1,[2]),(0,[3]),(1,[4]),(0,[5]),(1,[2])]

theorem requests_arc_ghostHit : ∃ t, run request (init 4) ghostHit = some t ∧
    t.cache.arc = Arc.State.serve 4 (ghostHit.map Prod.snd) ∧
    t.cache.targetT1 = (Arc.State.serve 4 (ghostHit.map Prod.snd)).p :=
  requests_arc (by decide) (by decide) (by decide) ghostHit (by decide)

end CacheSys
end Http2d
