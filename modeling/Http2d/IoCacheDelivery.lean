import Http2d.CacheFailure
import Http2d.IoCacheGhosts

/-! What a lookup in the I/O cache delivers.
An entry that somebody else uses is not refreshed, and the `stat` and the mapping of an entry
expire separately. So a part that was asked for may be missing, and a mapping may be older than the
size that is known of the file. -/
namespace Http2d

open Transition

namespace IoEntry

/-- The requested parts are there; a requested mapping is a live one. -/
def Delivered (info : IoInfo) (e : IoEntry) : Prop :=
  (info.stat → e.infoStat) ∧ (info.mmap → e.infoMmap ∧ e.mmaped = .address)

/-- `entry_update_fd` leaves the entry to its other users. -/
def Shared (refCount : ℤ) (e : IoEntry) : Prop := 2 < refCount ∧ (e.infoStat ∨ e.infoMmap)

instance (refCount : ℤ) (e : IoEntry) : Decidable (Shared refCount e) :=
  inferInstanceAs (Decidable (_ ∧ _))

/-- No requested part is missing that the update passes over: a shared entry has them all, and of
the others none is missing and yet taken for fresh. -/
def Covers (env : IoEnv) (refCount : ℤ) (info : IoInfo) (e : IoEntry) : Prop :=
  (info.stat → e.infoStat ∨ ¬ Shared refCount e ∧ ¬ fresh env e.statExpiration) ∧
  (info.mmap → e.infoMmap ∨ ¬ Shared refCount e ∧ ¬ fresh env e.mmapExpiration)

/-- The flag of the mapping is set for a live mapping only. -/
def FlagLive (e : IoEntry) : Prop := e.infoMmap → e.mmaped = .address

/-- The size that is known after a system call; one that fails leaves it as it was. -/
def sizeAfter (e : IoEntry) : Except Errno (ℤ × Bool) → ℤ
  | .ok (size,_) => size
  | .error _ => e.stSize

section Update
variable (limits : IoLimits) (env : IoEnv) (e : IoEntry)

theorem updateStat_fresh (stat : Except Errno (ℤ × Bool)) (h : fresh env e.statExpiration) :
    e.updateStat limits env stat = (if e.stateRet = Ret.ok.code then .okAndSent else .deny,e) := by
  unfold updateStat
  rw [if_pos h]

/-- A `stat` that is not fresh is renewed, whether the system call succeeds or not; what is known
of the mapping stays. -/
theorem updateStat_renewed (stat : Except Errno (ℤ × Bool)) (h : ¬ fresh env e.statExpiration) :
    ∃ isReg ret, (e.updateStat limits env stat).2 = {e with
      stSize := e.sizeAfter stat
      stIsReg := isReg
      statExpiration := env.now+limits.lastingStat
      stateRet := ret
      infoStat := true} := by
  unfold updateStat
  rw [if_neg h]
  cases stat with
  | ok answer => exact ⟨answer.2,_,rfl⟩
  | error err => cases err <;> exact ⟨e.stIsReg,_,rfl⟩

/-- The part that concerns the mapping is left alone. -/
theorem updateStat_mapping (stat : Except Errno (ℤ × Bool)) :
    (e.updateStat limits env stat).2.infoMmap = e.infoMmap ∧
    (e.updateStat limits env stat).2.mmaped = e.mmaped ∧
    (e.updateStat limits env stat).2.mmapedLen = e.mmapedLen ∧
    (e.updateStat limits env stat).2.mmapExpiration = e.mmapExpiration := by
  by_cases h : fresh env e.statExpiration
  · rw [updateStat_fresh limits env e stat h]
    exact ⟨rfl,rfl,rfl,rfl⟩
  · obtain ⟨_,_,heq⟩ := updateStat_renewed limits env e stat h
    rw [heq]
    exact ⟨rfl,rfl,rfl,rfl⟩

/-- The flag of the `stat` is set afterwards unless it was missing and taken for fresh. -/
theorem updateStat_infoStat (stat : Except Errno (ℤ × Bool)) :
    (e.updateStat limits env stat).2.infoStat = true ↔
      e.infoStat = true ∨ ¬ fresh env e.statExpiration := by
  by_cases h : fresh env e.statExpiration
  · simp [updateStat_fresh limits env e stat h,h]
  · obtain ⟨_,_,heq⟩ := updateStat_renewed limits env e stat h
    simp [heq,h]

/-- How `ioentry_update_mmap` ends: the mapping is passed over, renewed, or lost with its flag. -/
theorem updateMmap_cases (fd : Option ℤ) :
    (fresh env e.mmapExpiration ∧ e.updateMmap limits env fd = (.ok,fd,e)) ∨
    (¬ fresh env e.mmapExpiration ∧ ∃ fd' e',
      (∃ ret, ret ≠ .ok ∧ ret ≠ .okAndSent ∧ e.updateMmap limits env fd = (ret,fd',e') ∧
        e'.infoMmap = false ∧ e'.mmapExpiration = e.mmapExpiration) ∨
      (e.updateMmap limits env fd = (.ok,fd',e') ∧ e' = {e with
        mmaped := .address
        mmapedLen := e.stSize
        mmapExpiration := env.now+limits.lastingMmap
        infoMmap := true})) := by
  by_cases h : fresh env e.mmapExpiration
  · exact Or.inl ⟨h,by unfold updateMmap; rw [if_pos h]⟩
  refine Or.inr ⟨h,?_⟩
  unfold updateMmap
  rw [if_neg h]
  by_cases hreg : e.stIsReg = false
  · exact ⟨_,_,Or.inl ⟨.deny,by decide,by decide,if_pos hreg,rfl,rfl⟩⟩
  rw [if_neg hreg]
  cases (if 0 ≤ fd.getD (-1) then .ok (fd.getD (-1)) else env.openFile : Except Errno ℤ) with
  | error err =>
    refine ⟨_,_,Or.inl ⟨_,?_,?_,rfl,rfl,rfl⟩⟩ <;> cases err <;> decide
  | ok fdLocal =>
    cases env.mmap with
    | error err =>
      refine ⟨_,_,Or.inl ⟨_,?_,?_,rfl,rfl,?_⟩⟩
      · cases err <;> decide
      · cases err <;> decide
      · split_ifs <;> rfl
    | ok _ =>
      refine ⟨_,_,Or.inr ⟨rfl,?_⟩⟩
      split_ifs <;> rfl

/-- What an update does for a requested `stat`. -/
def statPart (info : IoInfo) : IoEntry := if info.stat then (e.updateStat limits env env.stat).2 else e

/-- The `stat` that an update makes before it maps the file. -/
def statAgain (info : IoInfo) : Ret × IoEntry :=
  (e.statPart limits env info).updateStat limits env (if info.stat then env.statAgain else env.stat)

/-- What a call of `entry_update_fd` does: the return code and the entry. -/
inductive Updated (refCount : ℤ) (info : IoInfo) (fd : Option ℤ) : Ret × Option ℤ × IoEntry → Prop
  | shared (h : Shared refCount e) : Updated refCount info fd (.okAndSent,fd,e)
  | statOnly (h : ¬ Shared refCount e) (hmmap : info.mmap = false) :
      Updated refCount info fd (.ok,fd,e.statPart limits env info)
  | refused (h : ¬ Shared refCount e) (hmmap : info.mmap = true) (ret : Ret)
      (hret : ret ≠ .ok ∧ ret ≠ .okAndSent) :
      Updated refCount info fd (ret,fd,(e.statAgain limits env info).2)
  | mapped (h : ¬ Shared refCount e) (hmmap : info.mmap = true)
      (hstat : (e.statAgain limits env info).1 = .ok ∨ (e.statAgain limits env info).1 = .okAndSent) :
      Updated refCount info fd ((e.statAgain limits env info).2.updateMmap limits env fd)

theorem updateFd_updated (refCount : ℤ) (info : IoInfo) (fd : Option ℤ) :
    Updated limits env e refCount info fd (e.updateFd limits env refCount info fd) := by
  unfold updateFd
  by_cases hshared : 2 < refCount ∧ (e.infoStat ∨ e.infoMmap)
  · rw [if_pos hshared]
    exact .shared hshared
  rw [if_neg hshared]
  by_cases hmmap : info.mmap = false
  · simp only [if_pos hmmap]
    exact .statOnly hshared hmmap
  have hm : info.mmap = true := by simpa using hmmap
  rw [if_neg hmmap]
  change Updated limits env e refCount info fd
    (if (e.statAgain limits env info).1 ≠ .ok ∧ (e.statAgain limits env info).1 ≠ .okAndSent
      then (.deny,fd,(e.statAgain limits env info).2)
      else if (e.statAgain limits env info).2.stSize < limits.minFileSize ∨
          limits.maxFileSize < (e.statAgain limits env info).2.stSize
        then (.noSys,fd,(e.statAgain limits env info).2)
        else (e.statAgain limits env info).2.updateMmap limits env fd)
  generalize hagain : e.statAgain limits env info = again
  by_cases hstat : again.1 ≠ .ok ∧ again.1 ≠ .okAndSent
  · rw [if_pos hstat,← hagain]
    exact .refused hshared hm .deny (by decide)
  rw [if_neg hstat]
  split_ifs with hsize
  · rw [← hagain]
    exact .refused hshared hm .noSys (by decide)
  · subst hagain
    refine .mapped hshared hm ?_
    by_contra hnot
    exact hstat (not_or.mp hnot)

theorem statPart_mapping (info : IoInfo) :
    (e.statPart limits env info).infoMmap = e.infoMmap ∧
    (e.statPart limits env info).mmaped = e.mmaped ∧
    (e.statPart limits env info).mmapedLen = e.mmapedLen ∧
    (e.statPart limits env info).mmapExpiration = e.mmapExpiration := by
  unfold statPart
  split_ifs
  · exact updateStat_mapping limits env e env.stat
  · exact ⟨rfl,rfl,rfl,rfl⟩

theorem statAgain_mapping (info : IoInfo) :
    (e.statAgain limits env info).2.infoMmap = e.infoMmap ∧
    (e.statAgain limits env info).2.mmaped = e.mmaped ∧
    (e.statAgain limits env info).2.mmapedLen = e.mmapedLen ∧
    (e.statAgain limits env info).2.mmapExpiration = e.mmapExpiration := by
  obtain ⟨h₁,h₂,h₃,h₄⟩ := statPart_mapping limits env e info
  rw [← h₁,← h₂,← h₃,← h₄]
  exact updateStat_mapping limits env _ _

/-- The flag of the mapping tells the truth after an update if it did before. -/
theorem updateFd_flagLive (refCount : ℤ) (info : IoInfo) (fd : Option ℤ) (h : e.FlagLive) :
    (e.updateFd limits env refCount info fd).2.2.FlagLive := by
  have hpart := statPart_mapping limits env e info
  have hagain := statAgain_mapping limits env e info
  have hupd := updateFd_updated limits env e refCount info fd
  generalize e.updateFd limits env refCount info fd = res at hupd
  cases hupd with
  | shared _ => exact h
  | statOnly _ _ => simpa only [FlagLive,hpart] using h
  | refused _ _ ret _ => simpa only [FlagLive,hagain] using h
  | mapped _ _ _ =>
    rcases updateMmap_cases limits env (e.statAgain limits env info).2 fd with
      ⟨_,heq⟩ | ⟨_,fd',e',⟨ret,_,_,heq,hflag,_⟩ | ⟨heq,he'⟩⟩
    · simpa only [heq,FlagLive,hagain] using h
    · simp [heq,FlagLive,hflag]
    · simp [heq,he',FlagLive]

theorem statPart_infoStat {info : IoInfo} (hstat : info.stat = true) :
    (e.statPart limits env info).infoStat = true ↔
      e.infoStat = true ∨ ¬ fresh env e.statExpiration := by
  rw [statPart,if_pos hstat]
  exact updateStat_infoStat limits env e env.stat

theorem statAgain_infoStat (info : IoInfo) : (e.statAgain limits env info).2.infoStat = true ↔
    e.infoStat = true ∨ ¬ fresh env e.statExpiration := by
  rw [statAgain,updateStat_infoStat]
  by_cases hstat : info.stat = true
  · rw [statPart_infoStat limits env e hstat]
    by_cases hfresh : fresh env e.statExpiration
    · rw [statPart,if_pos hstat,updateStat_fresh limits env e env.stat hfresh,or_assoc,or_self]
    · simp [hfresh]
  · rw [statPart,if_neg hstat]

/-- A successful update delivers what was asked for exactly when no part of it is passed over. -/
theorem updateFd_delivered_iff {refCount : ℤ} {info : IoInfo} {fd : Option ℤ} (h : e.FlagLive)
    (hret : (e.updateFd limits env refCount info fd).1 = .ok ∨
      (e.updateFd limits env refCount info fd).1 = .okAndSent) :
    Delivered info (e.updateFd limits env refCount info fd).2.2 ↔ Covers env refCount info e := by
  have hlive : e.infoMmap ∧ e.mmaped = .address ↔ e.infoMmap = true := ⟨And.left,fun hm => ⟨hm,h hm⟩⟩
  have hagain := statAgain_mapping limits env e info
  have hupd := updateFd_updated limits env e refCount info fd
  generalize e.updateFd limits env refCount info fd = res at hupd hret
  cases hupd with
  | shared hs => simp only [Delivered,Covers,hlive,hs,not_true,false_and,or_false]
  | statOnly hs hmmap =>
    refine and_congr (forall_congr' fun hstat => ?_) (by simp [hmmap])
    rw [statPart_infoStat limits env e hstat]
    simp [hs]
  | refused _ _ ret hbad =>
    rcases hret with hret | hret
    · exact absurd hret hbad.1
    · exact absurd hret hbad.2
  | mapped hs hmmap hstat =>
    have hparts : Covers env refCount info e ↔
        (info.stat → (e.statAgain limits env info).2.infoStat = true) ∧
        (e.infoMmap = true ∨ ¬ fresh env e.mmapExpiration) := by
      simp [Covers,statAgain_infoStat,hs,hmmap]
    rw [hparts]
    refine and_congr ?_ ?_
    all_goals
      rcases updateMmap_cases limits env (e.statAgain limits env info).2 fd with
        ⟨hfresh,heq⟩ | ⟨hfresh,fd',e',⟨ret,hbad,hbad',heq,_⟩ | ⟨heq,he'⟩⟩
    · rw [heq]
    · rw [heq] at hret
      exact absurd hret (not_or.mpr ⟨hbad,hbad'⟩)
    · rw [heq,he']
    · rw [hagain.2.2.2] at hfresh
      simp only [heq,hagain,hlive,hmmap,hfresh,forall_const,not_true,or_false]
    · rw [heq] at hret
      exact absurd hret (not_or.mpr ⟨hbad,hbad'⟩)
    · rw [hagain.2.2.2] at hfresh
      simp [heq,he',hmmap,hfresh]

end Update

theorem cleanInfo_eq (e : IoEntry) : e.cleanInfo = {e with
    infoStat := false
    infoMmap := false
    stateRet := 123456
    mmaped := .null
    mmapedLen := if e.mmaped = .null then e.mmapedLen else 0
    mmapExpiration := 0
    statExpiration := 0} := by
  unfold cleanInfo
  by_cases h : e.mmaped = .null <;> simp [h]

theorem cleanInfo_idem (e : IoEntry) : e.cleanInfo.cleanInfo = e.cleanInfo := by simp [cleanInfo_eq]

/-- The data of an entry that is not updated: as it was, or cleaned. -/
def Left (e e' : IoEntry) : Prop := e' = e ∨ e' = e.cleanInfo

theorem Left.trans {e e' e'' : IoEntry} (h : Left e e') (h' : Left e' e'') : Left e e'' := by
  rcases h with rfl | rfl <;> rcases h' with rfl | rfl
  · exact Or.inl rfl
  · exact Or.inr rfl
  · exact Or.inr rfl
  · exact Or.inr (cleanInfo_idem e)

end IoEntry

namespace IoCache

open IoEntry

/-- What is known of no file is changed but by cleaning. -/
structure Keeps (s s' : IoCache) : Prop where
  data : ∀ p, Left (s.data p) (s'.data p)
  limits : s'.limits = s.limits

section Data
variable {s s' s'' : IoCache}

theorem Keeps.trans (h : s.Keeps s') (h' : s'.Keeps s'') : s.Keeps s'' :=
  ⟨fun p => (h.data p).trans (h'.data p),h'.limits.trans h.limits⟩

theorem keeps_cache (s : IoCache) (c : Cache) : s.Keeps {s with cache := c} :=
  ⟨fun _ => Or.inl rfl,rfl⟩

theorem entryParentInfoClean_keeps (s : IoCache) (p : ℕ) : s.Keeps (s.entryParentInfoClean p) := by
  unfold entryParentInfoClean
  split_ifs
  · exact keeps_cache s s.cache
  refine ⟨fun q => ?_,rfl⟩
  by_cases hq : q = p
  · subst hq
    exact Or.inr (by simp [setData])
  · exact Or.inl (by simp [setData,hq])

/-- The lists are changed before and after an entry is cleaned. -/
theorem cleaned_keeps (s : IoCache) (c c' : Cache) (p : ℕ) :
    s.Keeps {({s with cache := c} : IoCache).entryParentInfoClean p with cache := c'} :=
  ((keeps_cache s c).trans (entryParentInfoClean_keeps _ p)).trans (keeps_cache _ c')

theorem demote_keeps (s : IoCache) (src dst : CacheList) : s.Keeps (s.demote src dst) := by
  unfold demote
  cases s.cache.cacheListGetLru src with
  | none => exact keeps_cache s s.cache
  | some p => exact cleaned_keeps s _ _ p

theorem replace_keeps (s : IoCache) (x : Option ℕ) : s.Keeps (s.replace x) := by
  simp only [replace]
  split_ifs
  · exact demote_keeps s .t1 .b1
  · exact demote_keeps s .t2 .b2

theorem entryUnrefGuts_keeps (s : IoCache) (p : ℕ) : s.Keeps (s.entryUnrefGuts p).2 := by
  simp only [entryUnrefGuts]
  split_ifs
  · exact keeps_cache s _
  · exact cleaned_keeps s _ _ p
  · exact cleaned_keeps s _ _ p

theorem dropLru_keeps {L : CacheList} (hdrop : s.dropLru L = .ok s') : s.Keeps s' := by
  obtain ⟨p,-,rfl⟩ := dropLru_inv hdrop
  exact (keeps_cache s _).trans (entryUnrefGuts_keeps _ p)

theorem onNewAdded_keeps (hnew : s.onNewAdded = .ok s') : s.Keeps s' := by
  cases onNewAdded_roomed hnew with
  | dropped L d hL hr hdrop => exact (dropLru_keeps hdrop).trans (replace_keeps d none)
  | full d hdrop => exact dropLru_keeps hdrop
  | replaced hr => exact replace_keeps s none
  | fits => exact keeps_cache s s.cache

/-- What a get does with the data of an entry: it is kept, it is that of a new entry, or the entry
is the ghost that was found and its file is fetched again. -/
def GetData (s : IoCache) (key : List UInt8) (env : IoEnv) (p : ℕ) (e' : IoEntry) : Prop :=
  Left (s.data p) e' ∨ e' = .new ∨
    s.cache.map key = some p ∧
      ((s.cache.entries p).inList = .b1 ∨ (s.cache.entries p).inList = .b2) ∧
      ∃ e, Left (s.data p) e ∧
        e' = (e.updateFd s.limits env (s.cache.entries p).refCount ⟨true,true⟩ none).2.2

theorem updateGhost_data (s : IoCache) (b : CacheList) (target : ℤ) (env : IoEnv) (p q : ℕ) :
    (s.updateGhost b target env p).2.limits = s.limits ∧
    (q ≠ p → Left (s.data q) ((s.updateGhost b target env p).2.data q)) ∧
    ∃ e, Left (s.data p) e ∧ (s.updateGhost b target env p).2.data p =
      (e.updateFd s.limits env (s.cache.entries p).refCount ⟨true,true⟩ none).2.2 := by
  let d : IoCache := {s with cache := {s.cache with targetT1 := target}}
  have hkeep : d.Keeps (d.replace (some p)) := replace_keeps d (some p)
  have hcount : ((d.replace (some p)).cache.entries p).refCount = (s.cache.entries p).refCount := by
    rw [replace_cache,Cache.replace_refCount]
  refine ⟨hkeep.limits,fun hq => ?_,(d.replace (some p)).data p,hkeep.data p,?_⟩
  · have hsame : (s.updateGhost b target env p).2.data q = (d.replace (some p)).data q := by
      simp [updateGhost,fetchInfo,setData,hq,d]
    rw [hsame]
    exact hkeep.data q
  · rw [← hcount,← hkeep.limits]
    simp [updateGhost,fetchInfo,setData,d]

theorem updateCache_data {p : ℕ} {env : IoEnv} {r : Ret} {key : List UInt8}
    (hfound : s.cache.map key = some p) (hup : s.updateCache p env = .ok (r,s')) (q : ℕ) :
    s'.limits = s.limits ∧ s.GetData key env q (s'.data q) := by
  cases updateCache_hit hup with
  | recent hin => exact ⟨rfl,Or.inl (Or.inl rfl)⟩
  | frequent hin => exact ⟨rfl,Or.inl (Or.inl rfl)⟩
  | ghost b hb hin h0 =>
    obtain ⟨hlimits,hother,e,hleft,he⟩ := updateGhost_data s b (s.cache.adapted b) env p q
    refine ⟨hlimits,?_⟩
    by_cases hq : q = p
    · subst hq
      exact Or.inr (Or.inr ⟨hfound,hin ▸ hb,e,hleft,he⟩)
    · exact Or.inl (hother hq)
  | unlisted hin => exact ⟨rfl,Or.inl (Or.inl rfl)⟩

theorem get_data {key : List UInt8} {newOk : Bool} {env : IoEnv} {r : Ret} {p : Option ℕ}
    (hget : s.get key newOk env = .ok (r,p,s')) (q : ℕ) :
    s'.limits = s.limits ∧ s.GetData key env q (s'.data q) := by
  cases get_got hget with
  | empty hkey => exact ⟨rfl,Or.inl (Or.inl rfl)⟩
  | lingering p hkey hfound hin => exact ⟨rfl,Or.inl (Or.inl rfl)⟩
  | hit p r d hkey hfound hin hup => exact updateCache_data hfound hup q
  | refused d hkey hfound hnew hok =>
    have hkeep := onNewAdded_keeps hnew
    exact ⟨hkeep.limits,Or.inl (hkeep.data q)⟩
  | miss d hkey hfound hnew hok =>
    have hkeep := onNewAdded_keeps hnew
    refine ⟨hkeep.limits,?_⟩
    by_cases hq : q = d.cache.next
    · exact Or.inr (Or.inl (by simp [made,setData,hq]))
    · have hsame : s.GetData key env q (d.data q) := Or.inl (hkeep.data q)
      simpa [made,setData,hq] using hsame

/-- What new entries, cleaning and a fetch of the ghost that was found leave true. -/
theorem get_invariant {K : IoEntry → Prop} {key : List UInt8} {newOk : Bool} {env : IoEnv} {r : Ret}
    {p : Option ℕ} (hnew : K .new) (hclean : ∀ e, K e → K e.cleanInfo)
    (hfetch : ∀ q e, s.cache.map key = some q →
      (s.cache.entries q).inList = .b1 ∨ (s.cache.entries q).inList = .b2 →
      Left (s.data q) e → K e →
      K (e.updateFd s.limits env (s.cache.entries q).refCount ⟨true,true⟩ none).2.2)
    (h : ∀ q, K (s.data q)) (hget : s.get key newOk env = .ok (r,p,s')) (q : ℕ) :
    K (s'.data q) := by
  have hleft {e : IoEntry} (he : Left (s.data q) e) : K e := by
    rcases he with rfl | rfl
    · exact h q
    · exact hclean _ (h q)
  rcases (get_data hget q).2 with he | he | ⟨hfound,hghost,e,he,heq⟩
  · exact hleft he
  · exact he ▸ hnew
  · exact heq ▸ hfetch q e hfound hghost he (hleft he)

end Data

end IoCache

namespace IoSys

open IoCache IoEntry

/-- A call that reports a success has delivered what it was asked for. -/
def Delivers (s : IoSys) : IoAct → Prop
  | .get _ key newOk fetchEnv info fd env => ∀ ret fd' p io,
      s.io.iocacheGet key newOk fetchEnv info fd env = .ok (ret,fd',p,io) →
      ret = .ok ∨ ret = .okAndSent → ∃ q, p = some q ∧ Delivered info (io.data q)
  | .update _ p info fd env =>
      (s.io.entryUpdateFd info fd env p).1 = .ok ∨
        (s.io.entryUpdateFd info fd env p).1 = .okAndSent →
      Delivered info ((s.io.entryUpdateFd info fd env p).2.2.data p)
  | .unref _ _ => True

/-- The condition on one call: the entry covers what is asked of it when its update begins. -/
def AsksCovered (s : IoSys) : IoAct → Prop
  | .get _ key newOk fetchEnv info _ env => ∀ r p io,
      s.io.get key newOk fetchEnv = .ok (r,some p,io) →
      Covers env (io.cache.entries p).refCount info (io.data p)
  | .update _ p info _ env => Covers env (s.io.cache.entries p).refCount info (s.io.data p)
  | .unref _ _ => True

/-- How an `iocache_get` that reports a success came to its entry and its data. -/
theorem iocacheGet_inv {s io : IoCache} {key : List UInt8} {newOk : Bool} {fetchEnv env : IoEnv}
    {info : IoInfo} {fd fd' : Option ℤ} {ret : Ret} {p : Option ℕ}
    (h : s.iocacheGet key newOk fetchEnv info fd env = .ok (ret,fd',p,io))
    (hret : ret = .ok ∨ ret = .okAndSent) : ∃ r q mid, s.get key newOk fetchEnv = .ok (r,some q,mid) ∧
      p = some q ∧ mid.entryUpdateFd info fd env q = (ret,fd',io) := by
  have hno : Ret.error ≠ ret := fun heq => by subst heq; rcases hret with h | h <;> cases h
  unfold iocacheGet at h
  obtain ⟨⟨r,entry,mid⟩,hget,h⟩ := bind_ok_inv h
  cases entry with
  | none => exact absurd (congrArg Prod.fst (Except.ok.inj h)) hno
  | some q =>
    simp only at h
    split_ifs at h with hr
    · obtain ⟨rfl,rfl,rfl,rfl⟩ := by simpa using Except.ok.inj h
      exact ⟨r,q,mid,hget,rfl,rfl⟩
    · exact absurd (congrArg Prod.fst (Except.ok.inj h)) hno

theorem entryUpdateFd_invariant {K : IoEntry → Prop} {s : IoCache} {info : IoInfo} {fd : Option ℤ}
    {env : IoEnv} {p : ℕ} (h : ∀ q, K (s.data q))
    (hp : K ((s.data p).updateFd s.limits env (s.cache.entries p).refCount info fd).2.2) (q : ℕ) :
    K ((s.entryUpdateFd info fd env p).2.2.data q) := by
  by_cases hq : q = p
  · subst hq
    simpa [entryUpdateFd,setData] using hp
  · simpa [entryUpdateFd,setData,hq] using h q

/-- The flags of the mappings tell the truth in all entries. -/
def FlagsLive (s : IoSys) : Prop := ∀ p, (s.io.data p).FlagLive

theorem cleanInfo_flagLive (e : IoEntry) : e.cleanInfo.FlagLive := by
  simp [cleanInfo_eq,FlagLive]

theorem get_flagLive {s io : IoCache} {key : List UInt8} {newOk : Bool} {env : IoEnv} {r : Ret}
    {p : Option ℕ} (h : ∀ q, (s.data q).FlagLive) (hget : s.get key newOk env = .ok (r,p,io)) (q : ℕ) :
    (io.data q).FlagLive :=
  get_invariant (K:=FlagLive) (fun hm => by cases hm) (fun e _ => cleanInfo_flagLive e)
    (fun _ e _ _ _ he => updateFd_flagLive _ _ e _ _ _ he) h hget q

theorem step_flagsLive {s s' : IoSys} {a : IoAct} (h : s.FlagsLive) (hstep : s.step a = some s') :
    s'.FlagsLive := by
  have hupdate {c : IoCache} (hc : ∀ q, (c.data q).FlagLive) (info : IoInfo) (fd : Option ℤ)
      (env : IoEnv) (p : ℕ) : ∀ q, ((c.entryUpdateFd info fd env p).2.2.data q).FlagLive :=
    entryUpdateFd_invariant (K:=FlagLive) hc (updateFd_flagLive _ _ _ _ _ _ (hc p))
  cases step_called hstep with
  | missed r io hget => exact get_flagLive h hget
  | got p io hget => exact hupdate (get_flagLive h hget) _ _ _ p
  | @updated client p info fd env hheld => exact hupdate h info fd env p
  | @returned client p hheld =>
    intro q
    rcases (entryUnrefGuts_keeps s.io p).data q with heq | heq <;> simp only [heq]
    · exact h q
    · exact cleanInfo_flagLive _

theorem delivers {s : IoSys} {a : IoAct} (h : s.FlagsLive) (hg : s.AsksCovered a) : s.Delivers a := by
  cases a with
  | get client key newOk fetchEnv info fd env =>
    intro ret fd' p io hget hret
    obtain ⟨r,q,mid,hmid,rfl,hupd⟩ := iocacheGet_inv hget hret
    have hlive := get_flagLive h hmid q
    have hcovers := hg r q mid hmid
    simp only [entryUpdateFd,Prod.mk.injEq] at hupd
    obtain ⟨hr,-,rfl⟩ := hupd
    refine ⟨q,rfl,?_⟩
    have := (updateFd_delivered_iff _ _ _ hlive (hr ▸ hret)).mpr hcovers
    simpa [setData] using this
  | update client p info fd env =>
    intro hret
    have := (updateFd_delivered_iff _ _ _ (h p) hret).mpr hg
    simpa [entryUpdateFd,setData] using this
  | unref client p => trivial

/-- In every run whose calls ask for what their entries cover, every call delivers. -/
theorem run_delivers (maxSize : ℤ) (limits : IoLimits) {as : List IoAct}
    (hg : Guarded step AsksCovered (init maxSize limits) as) :
    Guarded step Delivers (init maxSize limits) as :=
  hg.of_invariant FlagsLive (fun _ _ _ hi _ hs => step_flagsLive hi hs) (fun _ _ hi hg => delivers hi hg)
    fun _ hm => by cases hm

/-- Two clients get the same file one after another, each with its own request. -/
def both (first second : IoInfo) : List IoAct :=
  [.get 0 [1] true tenBytes first none tenBytes,.get 1 [1] true tenBytes second none tenBytes]

theorem run_delivers_both : Guarded step Delivers (init 4 defaults) (both ⟨true,true⟩ ⟨false,true⟩) := by
  refine run_delivers 4 defaults ⟨fun r p io hget => ?_,fun s hs => ⟨fun r p io hget => ?_,fun _ _ => trivial⟩⟩
  · cases hget
    exact ⟨fun _ => Or.inr (by decide),fun _ => Or.inr (by decide)⟩
  · cases hs
    cases hget
    exact ⟨fun h => absurd h (by decide),fun _ => Or.inl (by decide)⟩

/-- The first client asks for the `stat` of a file. The second one asks for its mapping, is told of
a success and gets none. -/
theorem not_delivers_both :
    ¬ Guarded step Delivers (init 4 defaults) (both ⟨true,false⟩ ⟨false,true⟩) := by
  intro h
  obtain ⟨q,hq,hdel⟩ := (h.2 _ rfl).1 .okAndSent none (some 0) _ rfl (Or.inr rfl)
  cases hq
  exact absurd (hdel.2 rfl).1 (by decide)

end IoSys

end Http2d
