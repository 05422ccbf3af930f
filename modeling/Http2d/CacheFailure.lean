import Http2d.CacheReferences

/-! What a failed call of `http2d_cache_get` leaves behind.
The target is adapted and an entry demoted before the fetch that can fail, the reference of the
client is taken whatever the fetch returned, and room is made before the callback that can give no
entry. -/
namespace Http2d

open Transition

namespace Cache

/-- The lists, the target and the reference counts are as they were. -/
structure Untouched (c c' : Cache) : Prop where
  list : ∀ L, c'.list L = c.list L
  targetT1 : c'.targetT1 = c.targetT1
  refCount : ∀ p, (c'.entries p).refCount = (c.entries p).refCount

/-- Whether `replace`, called without a ghost, has an entry to demote. -/
def Demotes (c : Cache) : Prop :=
  1 ≤ c.len .t1 ∧ c.targetT1 < c.len .t1 ∨ c.list .t2 ≠ []

/-- Whether `on_new_added` has to remove or to demote an entry, and has one. -/
def MakesRoom (cache : Cache) : Prop :=
  let c := cuint cache.maxSize
  let lenL1 := cuint (cache.len .t1+cache.len .b1)
  let lenL2 := cuint (cache.len .t2+cache.len .b2)
  let totalLen := cuint ((lenL1 : ℤ)+lenL2)
  if c ≤ lenL1 then
    if cuint (cache.len .t1) < c then cache.list .b1 ≠ [] else cache.list .t1 ≠ []
  else c ≤ totalLen ∧
    if cuint (2*(c : ℤ)) ≤ totalLen then cache.list .b2 ≠ [] else cache.Demotes

/-- The calls that change nothing when they fail: a ghost hit must not have its fetch refused, and
room must not be made for an entry that is not there. -/
def FailsCleanly (c : Cache) (key : List UInt8) (newOk : Bool) (fetch : Ret) : Prop :=
  key = [] ∨ match c.map key with
    | some p => ∀ b, b = .b1 ∨ b = .b2 → (c.entries p).inList = b → accepted b fetch
    | none => newOk = true ∨ ¬ c.MakesRoom

section Steps
variable {c c' : Cache} {held : ℕ → ℕ}

theorem Untouched.refl (c : Cache) : c.Untouched c := ⟨fun _ => rfl,rfl,fun _ => rfl⟩

theorem replace_refCount (c : Cache) (x : Option ℕ) (q : ℕ) :
    ((c.replace x).entries q).refCount = (c.entries q).refCount := by
  have hdemote (src dst : CacheList) :
      ((c.demote src dst).entries q).refCount = (c.entries q).refCount := by
    unfold demote
    split
    · rfl
    · rename_i p _
      by_cases hq : q = p
      · subst hq
        simp [cacheListAdd,cacheListDel,setEntry]
      · simp [cacheListAdd,cacheListDel,setEntry,hq]
  unfold replace
  split_ifs
  · exact hdemote .t1 .b1
  · exact hdemote .t2 .b2

theorem demote_list (c : Cache) {src dst : CacheList} (hne : dst ≠ src) (hsrc : c.list src ≠ []) :
    (c.demote src dst).list ≠ c.list := by
  obtain ⟨p,hp⟩ := Option.ne_none_iff_exists'.mp (mt List.getLast?_eq_none_iff.mp hsrc)
  have hmem := List.mem_of_getLast? hp
  have hlist : (c.demote src dst).list src = (c.list src).erase p := by
    simp [demote,cacheListGetLru,hp,cacheListAdd,cacheListDel,setEntry,hne.symm]
  intro heq
  have hlen := congrArg List.length (hlist.symm.trans (congrFun heq src))
  rw [List.length_erase_of_mem hmem] at hlen
  have := List.length_pos_of_mem hmem
  omega

/-- `replace` changes the lists exactly when it has an entry to demote. -/
theorem replace_untouched_iff (h : c.Coherent) : c.Untouched (c.replace none) ↔ ¬ c.Demotes := by
  have ht1 := h.len .t1 (by decide)
  unfold replace Demotes
  by_cases hfirst : 1 ≤ c.len .t1 ∧ c.targetT1 < c.len .t1
  · have hcond : 1 ≤ c.len .t1 ∧ (c.targetT1 < c.len .t1 ∨ c.len .t1 = c.targetT1 ∧
        ((none : Option ℕ).any fun p => (c.entries p).inList = .b2)) := ⟨hfirst.1,Or.inl hfirst.2⟩
    have hne : c.list .t1 ≠ [] := fun hnil => by simp [ht1,hnil] at hfirst
    rw [if_pos hcond]
    exact iff_of_false (fun hu => demote_list c (by decide) hne (funext hu.list))
      (fun hn => hn (Or.inl hfirst))
  · have hcond : ¬ (1 ≤ c.len .t1 ∧ (c.targetT1 < c.len .t1 ∨ c.len .t1 = c.targetT1 ∧
        ((none : Option ℕ).any fun p => (c.entries p).inList = .b2))) := by
      simpa using hfirst
    rw [if_neg hcond]
    by_cases hne : c.list .t2 = []
    · have hsame : c.demote .t2 .b2 = c := by simp [demote,cacheListGetLru,hne]
      rw [hsame]
      exact iff_of_true (Untouched.refl c) (by simp [hfirst,hne])
    · exact iff_of_false (fun hu => demote_list c (by decide) hne (funext hu.list))
        (fun hn => hn (Or.inr hne))

/-- Dropping the last entry of a list that has one takes a reference from it. -/
theorem dropLru_refCount {L : CacheList} (hne : c.list L ≠ []) : ∃ d p, c.dropLru L = .ok d ∧
    (d.entries p).refCount ≠ (c.entries p).refCount := by
  obtain ⟨p,hp⟩ := Option.ne_none_iff_exists'.mp (mt List.getLast?_eq_none_iff.mp hne)
  refine ⟨((c.cacheListDel L p).entryUnrefGuts p).2,p,by simp only [dropLru,cacheListGetLru,hp],?_⟩
  have hsame : ((c.cacheListDel L p).entries p).refCount = (c.entries p).refCount := by
    simp [cacheListDel,setEntry]
  by_cases hmore : 1 < ((c.cacheListDel L p).entries p).refCount
  · rw [entryUnrefGuts_kept hmore]
    simp only [setEntry,Function.update_self]
    omega
  · rw [(entryUnrefGuts_freed (not_lt.mp hmore)).1]
    simp only [Function.update_self]
    omega

theorem dropLru_empty {L : CacheList} (hnil : c.list L = []) : c.dropLru L = .error .fault := by
  simp [dropLru,cacheListGetLru,hnil]

/-- `on_new_added` returns with everything as it was unless it makes room. -/
theorem onNewAdded_untouched_iff (h : c.Coherent) :
    (∀ d, c.onNewAdded = .ok d → c.Untouched d) ↔ ¬ c.MakesRoom := by
  have hdrop {L : CacheList} {f : Cache → Cache}
      (hf : ∀ d p, ((f d).entries p).refCount = (d.entries p).refCount) :
      (∀ d, (c.dropLru L >>= fun d => .ok (f d)) = .ok d → c.Untouched d) ↔ ¬ c.list L ≠ [] := by
    by_cases hne : c.list L = []
    · rw [dropLru_empty hne]
      exact iff_of_true (fun d hd => by cases hd) (by simp [hne])
    · obtain ⟨d,p,hd,hp⟩ := dropLru_refCount hne
      refine iff_of_false (fun hu => hp ?_) (by simpa using hne)
      have := (hu (f d) (by rw [hd,ok_bind])).refCount p
      rwa [hf] at this
  have hrep := fun d p => replace_refCount d none p
  simp only [onNewAdded,MakesRoom]
  by_cases hfull : cuint c.maxSize ≤ cuint (c.len .t1+c.len .b1)
  · rw [if_pos hfull,if_pos hfull]
    by_cases hroom : cuint (c.len .t1) < cuint c.maxSize
    · rw [if_pos hroom,if_pos hroom]
      exact hdrop hrep
    · rw [if_neg hroom,if_neg hroom]
      have hid : (c.dropLru .t1 >>= fun d => .ok (id d)) = c.dropLru .t1 := by
        cases c.dropLru .t1 <;> rfl
      exact hid ▸ hdrop (L:=.t1) (f:=id) fun _ _ => rfl
  · rw [if_neg hfull,if_neg hfull]
    by_cases hsome : cuint c.maxSize ≤ cuint ((cuint (c.len .t1+c.len .b1) : ℤ)+
        cuint (c.len .t2+c.len .b2))
    · rw [if_pos ⟨not_le.mp hfull,hsome⟩,and_iff_right hsome]
      by_cases hover : cuint (2*(cuint c.maxSize : ℤ)) ≤ cuint ((cuint (c.len .t1+c.len .b1) : ℤ)+
          cuint (c.len .t2+c.len .b2))
      · simp only [if_pos hover]
        exact hdrop hrep
      · simp only [if_neg hover,ok_bind]
        rw [← replace_untouched_iff h]
        exact ⟨fun hu => hu _ rfl,fun hu d hd => Except.ok.inj hd ▸ hu⟩
    · rw [if_neg fun hc => hsome hc.2]
      exact iff_of_true (fun d hd => Except.ok.inj hd ▸ Untouched.refl c) fun hc => hsome hc.1

/-- A ghost hit whose fetch is refused returns with a reference taken. -/
theorem get_refused (h : c.Accounted held) {key : List UInt8} {p : ℕ} (hkey : key ≠ [])
    (hfound : c.map key = some p) {b : CacheList} (hb : b = .b1 ∨ b = .b2)
    (hin : (c.entries p).inList = b) {fetch : Ret} (hno : accepted b fetch = false)
    (newOk : Bool) : ∃ r q c', c.get key newOk fetch = .ok (r,q,c') ∧ r ≠ .ok ∧
      (c'.entries p).refCount = (c.entries p).refCount+1 := by
  have hb0 : b ≠ .noList := by rcases hb with rfl | rfl <;> decide
  have hpos := h.len_pos hb0 hin
  have hret : ∃ r d, c.updateCache p fetch = .ok (r,d) := by
    rcases hb with rfl | rfl
    · simp only [updateCache,hin,updateGhostB1,if_neg hpos.ne',ok_bind]
      exact ⟨_,_,rfl⟩
    · simp only [updateCache,hin,updateGhostB2,if_neg hpos.ne',ok_bind]
      exact ⟨_,_,rfl⟩
  obtain ⟨r,d,hd⟩ := hret
  have hget : c.get key newOk fetch = .ok (r,some p,d.entryRef p) := by
    simp only [get,if_neg hkey,hfound,if_neg (hin ▸ hb0),hd,ok_bind]
  cases updateCache_hit hd with
  | recent hin' => rcases hb with rfl | rfl <;> simp [hin] at hin'
  | frequent hin' => rcases hb with rfl | rfl <;> simp [hin] at hin'
  | unlisted hin' => exact absurd (hin.symm.trans hin') hb0
  | ghost b' hb' hin' r ret hr hret =>
    cases hin.symm.trans hin'
    rw [hno] at hr hret
    refine ⟨r,_,_,hget,fun hok => by simp [hok] at hr,?_⟩
    have hnot : ret ≠ .ok := fun hok => by simp [hok] at hret
    simp only [updateGhost,if_neg hnot,entryRef,setEntry,Function.update_self,replace_refCount]

/-- Exactly the clean failures change nothing. -/
theorem get_untouched_iff (h : c.Accounted held) (key : List UInt8) (newOk : Bool) (fetch : Ret) :
    (∀ r q c', c.get key newOk fetch = .ok (r,q,c') → r ≠ .ok → c.Untouched c') ↔
      c.FailsCleanly key newOk fetch := by
  by_cases hkey : key = []
  · refine iff_of_true (fun r q c' hget hr => ?_) (Or.inl hkey)
    simp only [get,if_pos hkey] at hget
    cases Except.ok.inj hget
    exact Untouched.refl c
  rw [FailsCleanly,or_iff_right hkey]
  cases hfound : c.map key with
  | some p =>
    simp only
    constructor
    · intro hu b hb hin
      by_contra hno
      obtain ⟨r,q,c',hget,hr,hcount⟩ := get_refused h hkey hfound hb hin (by simpa using hno) newOk
      have := (hu r q c' hget hr).refCount p
      omega
    · intro hacc r q c' hget hr
      cases get_got hget with
      | empty hnil => exact absurd hnil hkey
      | lingering p hfound hin => exact absurd rfl hr
      | hit p r d hfound' hin hhit =>
        cases hfound.symm.trans hfound'
        cases hhit with
        | recent hin => exact absurd rfl hr
        | frequent hin => exact absurd rfl hr
        | unlisted hnot => exact absurd hnot hin
        | ghost b hb hin r ret hok hret => exact absurd (hok.mpr (hacc b hb hin)) hr
      | refused d hnone hnew hok => simp [hfound] at hnone
      | miss d hnone hnew hok => exact absurd rfl hr
  | none =>
    simp only
    rw [← onNewAdded_untouched_iff h.toCoherent]
    cases newOk with
    | true =>
      refine iff_of_true (fun r q c' hget hr => ?_) (Or.inl rfl)
      cases get_got hget with
      | empty hnil => exact absurd hnil hkey
      | lingering p hsome hin => simp [hfound] at hsome
      | hit p r d hsome hin hhit => simp [hfound] at hsome
      | refused d hnone hnew hok => cases hok
      | miss d hnone hnew hok => exact absurd rfl hr
    | false =>
      have hget (d : Cache) (hd : c.onNewAdded = .ok d) :
          c.get key false fetch = .ok (.error,none,d) := by
        simp only [get,if_neg hkey,hfound,hd,ok_bind,if_true]
      refine ⟨fun hu => Or.inr fun d hd => hu _ _ d (hget d hd) (by decide),fun hu r q c' hret hr => ?_⟩
      obtain ⟨d,hd,hret'⟩ := bind_ok_inv (by simpa only [get,if_neg hkey,hfound] using hret)
      cases Except.ok.inj (hret.symm.trans (hget d hd))
      exact hu.resolve_left (by decide) _ hd

end Steps

end Cache

namespace CacheSys

open Cache

/-- A failed call changes nothing exactly when it fails cleanly, in every state that any run
reaches. -/
theorem run_untouched_iff {maxSize : ℤ} {as : List CacheAct} {t : CacheSys}
    (hrun : run step (init maxSize) as = some t) (key : List UInt8) (newOk : Bool) (fetch : Ret) :
    (∀ r q c, t.cache.get key newOk fetch = .ok (r,q,c) → r ≠ .ok → t.cache.Untouched c) ↔
      t.cache.FailsCleanly key newOk fetch :=
  get_untouched_iff (run_accounted hrun) key newOk fetch

theorem run_untouched_iff_hit : ∃ t, run step (init 4) [getKeep 1] = some t ∧
    ((∀ r q c, t.cache.get [1] true .error = .ok (r,q,c) → r ≠ .ok → t.cache.Untouched c) ↔
      t.cache.FailsCleanly [1] true .error) := by
  have hrun : run step (init 4) [getKeep 1] = some _ := rfl
  exact ⟨_,hrun,run_untouched_iff hrun [1] true .error⟩

/-- A key that was demoted is got again and its fetch fails: the target has moved, and the client
holds a reference that it was not told of. -/
theorem run_touched : ∃ t r q c, run step (init 4) ([1,1,2,3,4,5].map getKeep) = some t ∧
    t.cache.get [2] true .error = .ok (r,q,c) ∧ r ≠ .ok ∧ ¬ t.cache.Untouched c := by
  have hrun : run step (init 4) ([1,1,2,3,4,5].map getKeep) = some _ := rfl
  refine ⟨_,_,_,_,hrun,rfl,by decide,fun hu => ?_⟩
  exact absurd (hu.refCount 1) (by decide)

end CacheSys
end Http2d
