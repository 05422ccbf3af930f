import Http2d.IoCacheDelivery

/-! The length of a mapping and the size that is known of the file.
The `stat` may be renewed while the mapping is still fresh. They agree as long as such a renewal
finds the size that was mapped, and the clock does not bring back a mapping that had expired. -/
namespace Http2d

open Transition

/-- The time in half seconds: a fraction of a second counts as one half. -/
def IoEnv.clock (env : IoEnv) : ℤ := 2*env.now+(if env.fraction then 1 else 0)

namespace IoEntry

theorem fresh_iff (env : IoEnv) (expiration : ℤ) :
    fresh env expiration = true ↔ env.clock ≤ 2*expiration := by
  simp only [fresh,IoEnv.clock,decide_eq_true_eq]
  cases env.fraction with
  | false => simp [Int.le_iff_lt_or_eq]
  | true => simp

/-- From the time `t` on a mapping that counts as fresh has the size that is known of the file. -/
def SizeHolds (t : ℤ) (e : IoEntry) : Prop := t ≤ 2*e.mmapExpiration → e.mmapedLen = e.stSize

/-- A `stat` that succeeds reports the size `len`. -/
def Reports (stat : Except Errno (ℤ × Bool)) (len : ℤ) : Prop :=
  ∀ size isReg, stat = .ok (size,isReg) → size = len

/-- The condition on one update: a `stat` that it renews while the mapping is fresh reports the
size that was mapped. -/
def SizeSteady (limits : IoLimits) (env : IoEnv) (refCount : ℤ) (info : IoInfo) (e : IoEntry) : Prop :=
  ¬ Shared refCount e → fresh env e.mmapExpiration → ¬ fresh env e.statExpiration →
    (info.stat ∨ info.mmap → Reports env.stat e.mmapedLen) ∧
    (info.stat → info.mmap → ¬ fresh env (env.now+limits.lastingStat) →
      Reports env.statAgain e.mmapedLen)

section Update
variable {limits : IoLimits} {env : IoEnv} {e : IoEntry} {info : IoInfo}

theorem SizeHolds.later {t t' : ℤ} (h : e.SizeHolds t) (hle : t ≤ t') : e.SizeHolds t' :=
  fun hfresh => h (hle.trans hfresh)

theorem updateStat_sizeHolds {stat : Except Errno (ℤ × Bool)} (h : e.SizeHolds env.clock)
    (hstat : fresh env e.mmapExpiration → ¬ fresh env e.statExpiration → Reports stat e.mmapedLen) :
    (e.updateStat limits env stat).2.SizeHolds env.clock := by
  by_cases hfresh : fresh env e.statExpiration
  · rwa [updateStat_fresh limits env e stat hfresh]
  obtain ⟨isReg,ret,heq⟩ := updateStat_renewed limits env e stat hfresh
  rw [heq]
  intro hmap
  have hrep := hstat ((fresh_iff env _).mpr hmap) hfresh
  cases stat with
  | ok answer => exact (hrep answer.1 answer.2 rfl).symm
  | error err => exact h hmap

theorem statPart_sizeHolds {refCount : ℤ} (h : e.SizeHolds env.clock) (hs : ¬ Shared refCount e)
    (hg : SizeSteady limits env refCount info e) :
    (e.statPart limits env info).SizeHolds env.clock := by
  unfold statPart
  split_ifs with hstat
  · exact updateStat_sizeHolds h fun hm hf => (hg hs hm hf).1 (Or.inl hstat)
  · exact h

theorem statAgain_sizeHolds {refCount : ℤ} (h : e.SizeHolds env.clock) (hs : ¬ Shared refCount e)
    (hmmap : info.mmap = true) (hg : SizeSteady limits env refCount info e) :
    (e.statAgain limits env info).2.SizeHolds env.clock := by
  refine updateStat_sizeHolds (statPart_sizeHolds h hs hg) fun hm hf => ?_
  obtain ⟨_,_,hlen,hexp⟩ := statPart_mapping limits env e info
  rw [hexp] at hm
  rw [hlen]
  by_cases hstat : info.stat = true
  · rw [if_pos hstat]
    rw [statPart,if_pos hstat] at hf
    by_cases hfresh : fresh env e.statExpiration
    · rw [updateStat_fresh limits env e env.stat hfresh] at hf
      exact absurd hfresh hf
    · obtain ⟨_,_,heq⟩ := updateStat_renewed limits env e env.stat hfresh
      rw [heq] at hf
      exact (hg hs hm hfresh).2 hstat hmmap hf
  · rw [if_neg hstat]
    rw [statPart,if_neg hstat] at hf
    exact (hg hs hm hf).1 (Or.inr hmmap)

/-- A steady update keeps the agreement, and gives it to a caller that asks for the mapping. -/
theorem updateFd_sizeHolds {refCount : ℤ} (fd : Option ℤ) (h : e.SizeHolds env.clock)
    (hg : SizeSteady limits env refCount info e) :
    (e.updateFd limits env refCount info fd).2.2.SizeHolds env.clock ∧
    ((e.updateFd limits env refCount info fd).1 = .ok → info.mmap = true →
      (e.updateFd limits env refCount info fd).2.2.mmapedLen =
        (e.updateFd limits env refCount info fd).2.2.stSize) := by
  have hupd := updateFd_updated limits env e refCount info fd
  generalize e.updateFd limits env refCount info fd = res at hupd
  cases hupd with
  | shared hs => exact ⟨h,fun hret => by cases hret⟩
  | statOnly hs hmmap =>
    exact ⟨statPart_sizeHolds h hs hg,fun _ hm => absurd (hmmap.symm.trans hm) (by decide)⟩
  | refused hs hmmap ret hbad =>
    exact ⟨statAgain_sizeHolds h hs hmmap hg,fun hret => absurd hret hbad.1⟩
  | mapped hs hmmap hstat =>
    have hagain := statAgain_sizeHolds h hs hmmap hg
    rcases updateMmap_cases limits env (e.statAgain limits env info).2 fd with
      ⟨hfresh,heq⟩ | ⟨hfresh,fd',e',⟨ret,hbad,_,heq,_,hexp⟩ | ⟨heq,he'⟩⟩
    · rw [heq]
      exact ⟨hagain,fun _ _ => hagain ((fresh_iff env _).mp hfresh)⟩
    · rw [heq]
      refine ⟨fun hm => ?_,fun hret => absurd hret hbad⟩
      rw [hexp] at hm
      exact absurd ((fresh_iff env _).mpr hm) hfresh
    · rw [heq,he']
      exact ⟨fun _ => rfl,fun _ _ => rfl⟩

end Update

theorem new_sizeHolds (t : ℤ) : new.SizeHolds t := fun _ => rfl

/-- A cleaned entry has no mapping that counts as fresh. -/
theorem cleanInfo_sizeHolds {t : ℤ} (ht : 0 < t) (e : IoEntry) : e.cleanInfo.SizeHolds t := by
  intro hfresh
  rw [cleanInfo_eq] at hfresh
  simp only at hfresh
  omega

theorem cleanInfo_sizeSteady {limits : IoLimits} {env : IoEnv} {refCount : ℤ} {info : IoInfo}
    (ht : 0 < env.clock) (e : IoEntry) : SizeSteady limits env refCount info e.cleanInfo := by
  intro _ hfresh
  rw [cleanInfo_eq] at hfresh
  have := (fresh_iff env 0).mp hfresh
  omega

end IoEntry

/-- The times at which a call updates entries. -/
def IoAct.clocks : IoAct → List ℤ
  | .get _ _ _ fetchEnv _ _ env => [fetchEnv.clock,env.clock]
  | .update _ _ _ _ env => [env.clock]
  | .unref _ _ => []

/-- The clock is past its epoch, where the expiration of an entry without data lies, and does not
go back. -/
def ClockAdvances (as : List IoAct) : Prop :=
  (∀ c ∈ as.flatMap IoAct.clocks, 0 < c) ∧ (as.flatMap IoAct.clocks).Pairwise (· ≤ ·)

namespace IoSys

open IoCache IoEntry

/-- A call that asks for the mapping and returns `ret_ok` leaves it with the size of the file. -/
def SizesAgree (s : IoSys) : IoAct → Prop
  | .get _ key newOk fetchEnv info fd env => ∀ ret fd' p io,
      s.io.iocacheGet key newOk fetchEnv info fd env = .ok (ret,fd',p,io) → ret = .ok →
      info.mmap = true → ∃ q, p = some q ∧ (io.data q).mmapedLen = (io.data q).stSize
  | .update _ p info fd env => (s.io.entryUpdateFd info fd env p).1 = .ok → info.mmap = true →
      ((s.io.entryUpdateFd info fd env p).2.2.data p).mmapedLen =
        ((s.io.entryUpdateFd info fd env p).2.2.data p).stSize
  | .unref _ _ => True

/-- The condition on one call: its updates are steady, that of a ghost which is fetched and that
which is asked for. -/
def SizesSteady (s : IoSys) : IoAct → Prop
  | .get _ key newOk fetchEnv info _ env =>
      (∀ p, s.io.cache.map key = some p →
        (s.io.cache.entries p).inList = .b1 ∨ (s.io.cache.entries p).inList = .b2 →
        SizeSteady s.io.limits fetchEnv (s.io.cache.entries p).refCount ⟨true,true⟩ (s.io.data p)) ∧
      ∀ r p io, s.io.get key newOk fetchEnv = .ok (r,some p,io) →
        SizeSteady io.limits env (io.cache.entries p).refCount info (io.data p)
  | .update _ p info _ env =>
      SizeSteady s.io.limits env (s.io.cache.entries p).refCount info (s.io.data p)
  | .unref _ _ => True

/-- From the time `t` on every fresh mapping has the size that is known of its file. -/
def SizesHold (t : ℤ) (s : IoSys) : Prop := ∀ p, (s.io.data p).SizeHolds t

theorem get_sizeHolds {s io : IoCache} {key : List UInt8} {newOk : Bool} {env : IoEnv} {r : Ret}
    {p : Option ℕ} (ht : 0 < env.clock) (h : ∀ q, (s.data q).SizeHolds env.clock)
    (hg : ∀ p, s.cache.map key = some p →
      (s.cache.entries p).inList = .b1 ∨ (s.cache.entries p).inList = .b2 →
      SizeSteady s.limits env (s.cache.entries p).refCount ⟨true,true⟩ (s.data p))
    (hget : s.get key newOk env = .ok (r,p,io)) (q : ℕ) : (io.data q).SizeHolds env.clock := by
  refine get_invariant (K:=SizeHolds env.clock) (new_sizeHolds _)
    (fun e _ => cleanInfo_sizeHolds ht e) (fun q e hfound hghost hleft he => ?_) h hget q
  refine (updateFd_sizeHolds none he ?_).1
  rcases hleft with rfl | rfl
  · exact hg q hfound hghost
  · exact cleanInfo_sizeSteady ht _

theorem update_sizeHolds {s : IoCache} {info : IoInfo} (fd : Option ℤ) {env : IoEnv} {p : ℕ}
    (h : ∀ q, (s.data q).SizeHolds env.clock)
    (hg : SizeSteady s.limits env (s.cache.entries p).refCount info (s.data p)) :
    (∀ q, ((s.entryUpdateFd info fd env p).2.2.data q).SizeHolds env.clock) ∧
    ((s.entryUpdateFd info fd env p).1 = .ok → info.mmap = true →
      ((s.entryUpdateFd info fd env p).2.2.data p).mmapedLen =
        ((s.entryUpdateFd info fd env p).2.2.data p).stSize) := by
  obtain ⟨hsize,hagree⟩ := updateFd_sizeHolds fd (h p) hg
  refine ⟨entryUpdateFd_invariant (K:=SizeHolds env.clock) h hsize,fun hret hmmap => ?_⟩
  simpa [entryUpdateFd,setData] using hagree hret hmmap

/-- One steady call: what it returns agrees, and so does what it leaves behind. -/
theorem step_sizesAgree {s : IoSys} {a : IoAct} {t : ℤ} (ht : 0 < t) (h : s.SizesHold t)
    (hclock : (t::a.clocks).Pairwise (· ≤ ·)) (hg : s.SizesSteady a) :
    s.SizesAgree a ∧ ∀ s', s.step a = some s' → s'.SizesHold ((t::a.clocks).getLast (by simp)) := by
  cases a with
  | get client key newOk fetchEnv info fd env =>
    simp only [IoAct.clocks,List.pairwise_cons,List.mem_cons] at hclock
    have hfetch : t ≤ fetchEnv.clock := hclock.1 _ (Or.inl rfl)
    have henv : fetchEnv.clock ≤ env.clock := hclock.2.1 _ (Or.inl rfl)
    have hgot {r : Ret} {p : Option ℕ} {io : IoCache} (hget : s.io.get key newOk fetchEnv = .ok (r,p,io))
        (q : ℕ) : (io.data q).SizeHolds env.clock :=
      (get_sizeHolds (by omega) (fun q => (h q).later hfetch) hg.1 hget q).later henv
    refine ⟨fun ret fd' p io hget hret hmmap => ?_,fun s' hstep => ?_⟩
    · obtain ⟨r,q,mid,hmid,rfl,hupd⟩ := iocacheGet_inv hget (Or.inl hret)
      have := (update_sizeHolds fd (hgot hmid) (hg.2 r q mid hmid)).2
      rw [hupd] at this
      exact ⟨q,rfl,this hret hmmap⟩
    · cases step_called hstep with
      | missed r io hget => exact hgot hget
      | got p io hget => exact (update_sizeHolds fd (hgot hget) (hg.2 _ p io hget)).1
  | update client p info fd env =>
    simp only [IoAct.clocks,List.pairwise_cons,List.mem_cons] at hclock
    have henv : t ≤ env.clock := hclock.1 _ (Or.inl rfl)
    obtain ⟨hsize,hagree⟩ := update_sizeHolds fd (fun q => (h q).later henv) hg
    refine ⟨hagree,fun s' hstep => ?_⟩
    cases step_called hstep with
    | updated hheld => exact hsize
  | unref client p =>
    refine ⟨trivial,fun s' hstep q => ?_⟩
    cases step_called hstep with
    | returned hheld =>
      rcases (entryUnrefGuts_keeps s.io p).data q with heq | heq <;> simp only [heq]
      · exact h q
      · exact cleanInfo_sizeHolds ht _

theorem guarded_sizesAgree {s : IoSys} {as : List IoAct} {t : ℤ} (ht : 0 < t) (h : s.SizesHold t)
    (hclock : (t::as.flatMap IoAct.clocks).Pairwise (· ≤ ·)) (hg : Guarded step SizesSteady s as) :
    Guarded step SizesAgree s as := by
  induction as generalizing s t with
  | nil => trivial
  | cons a as ih =>
    rw [List.flatMap_cons,← List.cons_append] at hclock
    obtain ⟨hnow,hlater,hcross⟩ := List.pairwise_append.mp hclock
    obtain ⟨hagree,hstep⟩ := step_sizesAgree ht h hnow hg.1
    have hlast : (t::a.clocks).getLast (by simp) ∈ t::a.clocks := List.getLast_mem _
    refine ⟨hagree,fun s' ha => ih ?_ (hstep s' ha) ?_ (hg.2 s' ha)⟩
    · rcases List.mem_cons.mp hlast with heq | hmem
      · omega
      · exact ht.trans_le ((List.pairwise_cons.mp hnow).1 _ hmem)
    · exact List.pairwise_cons.mpr ⟨fun c hc => hcross _ hlast c hc,hlater⟩

/-- In every run whose updates are steady and whose clock does not go back, what is returned with
`ret_ok` agrees. -/
theorem run_sizesAgree (maxSize : ℤ) (limits : IoLimits) {as : List IoAct} (hclock : ClockAdvances as)
    (hg : Guarded step SizesSteady (init maxSize limits) as) :
    Guarded step SizesAgree (init maxSize limits) as :=
  guarded_sizesAgree (t:=1) (by decide) (fun _ => new_sizeHolds _)
    (List.pairwise_cons.mpr ⟨hclock.1,hclock.2⟩) hg

/-- What the system answers at a time when the file has `size` bytes. -/
def seen (now size : ℤ) : IoEnv := ⟨now,false,.ok (size,true),.ok (size,true),.ok 7,.ok ()⟩

/-- A visit at one time. -/
def visitAt (env : IoEnv) (info : IoInfo) : List IoAct :=
  [.get 0 [1] true env info none env,.unref 0 0]

/-- The `stat` of a file is asked for, later its mapping as well; when the `stat` has expired the
mapping is asked for again. -/
def renewed (size : ℤ) : List IoAct :=
  visitAt (seen 1000 10) ⟨true,false⟩++visitAt (seen 1200 10) ⟨true,true⟩++
    visitAt (seen 1400 size) ⟨true,true⟩

theorem run_sizesAgree_renewed : Guarded step SizesAgree (init 4 defaults) (renewed 10) := by
  refine run_sizesAgree 4 defaults (by unfold ClockAdvances; decide) ⟨⟨fun p hp => ?_,?_⟩,?_⟩
  · cases hp
  · intro r p io hget
    cases hget
    exact fun _ hfresh => absurd hfresh (by decide)
  intro s hs
  cases hs
  refine ⟨trivial,fun s hs => ?_⟩
  cases hs
  refine ⟨⟨fun p hp hghost => ?_,fun r p io hget => ?_⟩,fun s hs => ?_⟩
  · cases hp
    exact absurd hghost (by decide)
  · cases hget
    exact fun _ hfresh => absurd hfresh (by decide)
  cases hs
  refine ⟨trivial,fun s hs => ?_⟩
  cases hs
  refine ⟨⟨fun p hp hghost => ?_,fun r p io hget => ?_⟩,fun s hs => ⟨trivial,fun _ _ => trivial⟩⟩
  · cases hp
    exact absurd hghost (by decide)
  · cases hget
    exact fun _ _ _ => ⟨fun _ size isReg h => by cases h; rfl,fun _ _ hf => absurd hf (by decide)⟩

/-- The file has shrunk from ten bytes to four in between. -/
theorem not_sizesAgree_renewed : ¬ Guarded step SizesAgree (init 4 defaults) (renewed 4) := by
  intro h
  obtain ⟨q,hq,heq⟩ := (((((h.2 _ rfl).2 _ rfl).2 _ rfl).2 _ rfl).1 .ok none (some 0) _ rfl rfl rfl)
  cases hq
  exact absurd heq (by decide)

end IoSys

end Http2d
