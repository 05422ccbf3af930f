import Http2d.BufferOps
import Http2d.Strings

/-! The part of a path behind the file that it names: `http2d_split_pathinfo`.
The path is cut in its own block for every call of `stat`, and mended behind it. -/
namespace Http2d

/-- What `stat` says of a path. -/
inductive StatAnswer
  | missing | directory | other
  deriving DecidableEq, Repr

/-- The file system, as `stat` sees it. -/
abbrev FileSystem := List UInt8 → StatAnswer

/-- The results of `http2d_split_pathinfo` and the block that it leaves; `pathinfo` is an offset in the
block, and a result that is not assigned is `none`. -/
structure PathSplit where
  ret : Ret
  pathinfo : Option ℕ
  pathinfoLen : Option ℤ
  blk : List UInt8
  deriving DecidableEq, Repr

section Code
variable (stat : FileSystem) (allowDirs : Bool) (len : ℕ)

/-- `http2d_stat` of the string at the start of the block. -/
def statBlock (blk : List UInt8) : Exec StatAnswer := do
  let n ← strlen blk
  .ok (stat (blk.take n))

/-- The loop of `http2d_split_pathinfo` with `left` bytes of the path still to come. -/
def pathinfoLoop (blk : List UInt8) : (left cur : ℕ) → (lastDir : Option ℕ) → Exec PathSplit
  | 0, cur, _ => do
    let _ ← peekByte blk cur
    .ok ⟨.ok,none,some 0,blk⟩
  | left+1, cur, lastDir => do
    let c ← peekByte blk cur
    if c = 0 then .ok ⟨.ok,none,some 0,blk⟩
    else if c ≠ 47 then pathinfoLoop blk left (cur+1) lastDir
    else
      let cut := blk.set cur 0
      let st ← statBlock stat cut
      let blk := cut.set cur 47
      match st with
      | .missing =>
        match allowDirs, lastDir with
        | true, some dir => .ok ⟨.ok,some dir,some (cint (len-dir)),blk⟩
        | _, _ => .ok ⟨.notFound,none,none,blk⟩
      | .directory => pathinfoLoop blk left (cur+1) (some cur)
      | .other => .ok ⟨.ok,some cur,some (cint (len-cur)),blk⟩

/-- `http2d_split_pathinfo`. -/
def splitPathinfo (path : Buffer) (initPos : ℕ) : Exec PathSplit :=
  if path.len < initPos then .ok ⟨.notFound,none,none,path.buf⟩
  else pathinfoLoop stat allowDirs path.len path.buf (path.len-initPos) initPos none

end Code

section Spec
variable (stat : FileSystem) (p : List UInt8) (initPos : ℕ)

/-- A '/' at or behind the start. -/
def SlashAt (i : ℕ) : Prop := initPos ≤ i ∧ p[i]? = some 47

/-- The prefixes that are tested before `i` are directories. -/
def DirsBefore (i : ℕ) : Prop := ∀ j < i, SlashAt p initPos j → stat (p.take j) = .directory

/-- The first '/' whose prefix is no directory. -/
structure StopsAt (i : ℕ) : Prop where
  slash : SlashAt p initPos i
  before : DirsBefore stat p initPos i
  not_dir : stat (p.take i) ≠ .directory

/-- The last '/' before `i`. -/
def LastSlash (i j : ℕ) : Prop :=
  SlashAt p initPos j ∧ j < i ∧ ∀ k, j < k → k < i → ¬ SlashAt p initPos k

/-- The path info starts at `i`. -/
def PathSplit.StartsAt (r : PathSplit) (i : ℕ) : Prop :=
  r.ret = .ok ∧ r.pathinfo = some i ∧ r.pathinfoLen = some (cint (p.length-i))

/-- What the call has to answer. -/
structure PathSplit.Answers (allowDirs : Bool) (r : PathSplit) : Prop where
  file : ∀ i, StopsAt stat p initPos i → stat (p.take i) = .other → r.StartsAt p i
  dirs : (∀ i, SlashAt p initPos i → stat (p.take i) = .directory) →
    r.ret = .ok ∧ r.pathinfo = none ∧ r.pathinfoLen = some 0
  lastDir : ∀ i j, StopsAt stat p initPos i → stat (p.take i) = .missing → allowDirs = true →
    LastSlash p initPos i j → r.StartsAt p j
  missing : ∀ i, StopsAt stat p initPos i → stat (p.take i) = .missing →
    (allowDirs = false ∨ ∀ j < i, ¬ SlashAt p initPos j) → r.ret = .notFound

end Spec

/-- The path is split where it should be, and is left as it was. -/
def SplitsRight (stat : FileSystem) (path : Buffer) (initPos : ℕ) (allowDirs : Bool) : Prop :=
  ∃ r, splitPathinfo stat allowDirs path initPos = .ok r ∧ r.blk = path.buf ∧
    r.Answers stat path.content initPos allowDirs

section Loop
variable {stat : FileSystem} {allowDirs : Bool} {p : List UInt8} {initPos : ℕ}

theorem StopsAt.unique {i j : ℕ} (hi : StopsAt stat p initPos i) (hj : StopsAt stat p initPos j) :
    i = j := by
  rcases Nat.lt_trichotomy i j with hlt | heq | hlt
  · exact absurd (hj.before i hlt hi.slash) hi.not_dir
  · exact heq
  · exact absurd (hi.before j hlt hj.slash) hj.not_dir

theorem LastSlash.unique {i j k : ℕ} (hj : LastSlash p initPos i j) (hk : LastSlash p initPos i k) :
    j = k := by
  rcases Nat.lt_trichotomy j k with hlt | heq | hlt
  · exact absurd hk.1 (hj.2.2 k hlt hk.2.1)
  · exact heq
  · exact absurd hj.1 (hk.2.2 j hlt hj.2.1)

/-- The prefix in front of a '/', as `stat` reads it, and the mended block. -/
theorem cut_block (stat : FileSystem) {i : ℕ} (h0 : 0 ∉ p) (hi : p[i]? = some 47) (rest : List UInt8) :
    statBlock stat ((p ++ 0::rest).set i 0) = .ok (stat (p.take i)) ∧
    ((p ++ 0::rest).set i 0).set i 47 = p ++ 0::rest := by
  obtain ⟨hlt,hget⟩ := List.getElem?_eq_some_iff.mp hi
  have hcut : (p ++ 0::rest).set i 0 = p.take i ++ 0::(p.drop (i+1) ++ 0::rest) := by
    rw [List.set_append_left _ _ hlt,List.set_eq_take_append_cons_drop,if_pos hlt,List.append_assoc,
      List.cons_append]
  constructor
  · rw [hcut,statBlock,strlen_eq fun h => h0 (List.mem_of_mem_take h),ok_bind,List.take_left]
  · rw [List.set_set,List.set_append_left _ _ hlt,← hget,List.set_getElem_self]

/-- What is known when the loop is at `cur`. -/
structure PathPassed (stat : FileSystem) (p : List UInt8) (initPos cur : ℕ) (lastDir : Option ℕ) : Prop where
  dirs : DirsBefore stat p initPos cur
  last : ∀ j, lastDir = some j ↔ LastSlash p initPos cur j
  start : initPos ≤ cur

theorem PathPassed.init : PathPassed stat p initPos initPos none :=
  ⟨fun _ hj hs => absurd hs.1 (by omega),
    fun _ => iff_of_false (by simp) fun hl => absurd hl.1.1 (by have := hl.2.1; omega),le_rfl⟩

theorem not_slashAt_cur {cur : ℕ} (hc : p[cur]? ≠ some 47) : ¬ SlashAt p initPos cur := fun hs => hc hs.2

/-- A byte other than '/' changes nothing. -/
theorem PathPassed.skip {cur : ℕ} {lastDir : Option ℕ} (hp : PathPassed stat p initPos cur lastDir)
    (hc : p[cur]? ≠ some 47) : PathPassed stat p initPos (cur+1) lastDir := by
  refine ⟨fun j hj hs => ?_,fun j => (hp.last j).trans ?_,hp.start.trans (Nat.le_succ cur)⟩
  · rcases Nat.lt_succ_iff_lt_or_eq.mp hj with hlt | heq
    · exact hp.dirs j hlt hs
    · exact absurd hs (heq ▸ not_slashAt_cur hc)
  · constructor
    · rintro ⟨hs,hlt,hno⟩
      refine ⟨hs,by omega,fun k hjk hk => ?_⟩
      rcases Nat.lt_succ_iff_lt_or_eq.mp hk with hlt' | heq
      · exact hno k hjk hlt'
      · exact heq ▸ not_slashAt_cur hc
    · rintro ⟨hs,hlt,hno⟩
      have hne : j ≠ cur := fun heq => not_slashAt_cur hc (heq ▸ hs)
      exact ⟨hs,by omega,fun k hjk hk => hno k hjk (by omega)⟩

/-- A directory is passed and remembered. -/
theorem PathPassed.enter {cur : ℕ} {lastDir : Option ℕ} (hp : PathPassed stat p initPos cur lastDir)
    (hc : p[cur]? = some 47) (hdir : stat (p.take cur) = .directory) :
    PathPassed stat p initPos (cur+1) (some cur) := by
  have hslash : LastSlash p initPos (cur+1) cur :=
    ⟨⟨hp.start,hc⟩,Nat.lt_succ_self cur,fun k hk hk' => by omega⟩
  refine ⟨fun j hj hs => ?_,fun j => ⟨fun h => Option.some.inj h ▸ hslash,fun hl => ?_⟩,
    hp.start.trans (Nat.le_succ cur)⟩
  · rcases Nat.lt_succ_iff_lt_or_eq.mp hj with hlt | heq
    · exact hp.dirs j hlt hs
    · rw [heq]
      exact hdir
  · rw [hslash.unique hl]

/-- There is no '/' left whose prefix is no directory. -/
theorem PathPassed.answers_end {cur : ℕ} {lastDir : Option ℕ} (hp : PathPassed stat p initPos cur lastDir)
    (hend : p.length ≤ cur) (blk : List UInt8) :
    (PathSplit.mk .ok none (some 0) blk).Answers stat p initPos allowDirs := by
  have hno (i : ℕ) (hi : StopsAt stat p initPos i) : False := by
    have hlt := (List.getElem?_eq_some_iff.mp hi.slash.2).1
    exact hi.not_dir (hp.dirs i (by omega) hi.slash)
  exact ⟨fun i hi => (hno i hi).elim,fun _ => ⟨rfl,rfl,rfl⟩,fun i _ hi => (hno i hi).elim,
    fun i hi => (hno i hi).elim⟩

/-- The loop stops at a file. -/
theorem StopsAt.answers_file {i : ℕ} (hi : StopsAt stat p initPos i) (hst : stat (p.take i) = .other)
    (blk : List UInt8) :
    (PathSplit.mk .ok (some i) (some (cint (p.length-i))) blk).Answers stat p initPos allowDirs := by
  refine ⟨fun j hj _ => ?_,fun hall => absurd (hall i hi.slash) hi.not_dir,fun j _ hj hmis => ?_,
    fun j hj hmis => ?_⟩
  · rw [hj.unique hi]
    exact ⟨rfl,rfl,rfl⟩
  · rw [hj.unique hi,hst] at hmis
    cases hmis
  · rw [hj.unique hi,hst] at hmis
    cases hmis

/-- The loop stops where nothing exists, behind a directory. -/
theorem StopsAt.answers_lastDir {i j : ℕ} (hi : StopsAt stat p initPos i)
    (hst : stat (p.take i) = .missing) (hj : LastSlash p initPos i j) (blk : List UInt8) :
    (PathSplit.mk .ok (some j) (some (cint (p.length-j))) blk).Answers stat p initPos true := by
  refine ⟨fun k hk hother => ?_,fun hall => absurd (hall i hi.slash) hi.not_dir,fun k j' hk _ _ hj' => ?_,
    fun k hk _ hno => ?_⟩
  · rw [hk.unique hi,hst] at hother
    cases hother
  · rw [hk.unique hi] at hj'
    rw [hj'.unique hj]
    exact ⟨rfl,rfl,rfl⟩
  · rw [hk.unique hi] at hno
    exact absurd hj.1 (hno.resolve_left (by decide) j hj.2.1)

/-- The loop stops where nothing exists, and there is no directory to fall back on. -/
theorem StopsAt.answers_missing {i : ℕ} (hi : StopsAt stat p initPos i)
    (hst : stat (p.take i) = .missing)
    (hnone : allowDirs = true → ∀ j, ¬ LastSlash p initPos i j) (blk : List UInt8) :
    (PathSplit.mk .notFound none none blk).Answers stat p initPos allowDirs := by
  refine ⟨fun k hk hother => ?_,fun hall => absurd (hall i hi.slash) hi.not_dir,
    fun k j hk _ hallow hj => ?_,fun _ _ _ _ => rfl⟩
  · rw [hk.unique hi,hst] at hother
    cases hother
  · rw [hk.unique hi] at hj
    exact absurd hj (hnone hallow j)

/-- The loop from `cur` on, over what is left of the path. -/
theorem pathinfoLoop_answers (h0 : 0 ∉ p) (rest : List UInt8) (left cur : ℕ) (lastDir : Option ℕ)
    (hlen : cur+left = p.length) (hp : PathPassed stat p initPos cur lastDir) :
    ∃ r, pathinfoLoop stat allowDirs p.length (p ++ 0::rest) left cur lastDir = .ok r ∧
      r.blk = p ++ 0::rest ∧ r.Answers stat p initPos allowDirs := by
  induction left generalizing cur lastDir with
  | zero =>
    have hpeek := peekByte_ok (p ++ 0::rest) cur (by rw [List.length_append,List.length_cons]; omega)
    rw [pathinfoLoop,hpeek]
    exact ⟨_,rfl,rfl,hp.answers_end (by omega) _⟩
  | succ left ih =>
    have hlt : cur < p.length := by omega
    have hpeek := peekByte_ok (p ++ 0::rest) cur (by rw [List.length_append,List.length_cons]; omega)
    have hget : (p ++ 0::rest).getD cur 0 = p[cur] := by
      rw [List.getD_eq_getElem?_getD,List.getElem?_append_left hlt,List.getElem?_eq_getElem hlt]
      rfl
    have hne : p[cur] ≠ 0 := fun h => h0 (h ▸ List.getElem_mem hlt)
    rw [pathinfoLoop,hpeek,hget,ok_bind,if_neg hne]
    by_cases hslash : p[cur] = 47
    · have hcur : p[cur]? = some 47 := by rw [List.getElem?_eq_getElem hlt,hslash]
      obtain ⟨hcut,hback⟩ := cut_block stat h0 hcur rest
      rw [if_neg (not_not.mpr hslash)]
      simp only [hcut,hback,ok_bind]
      cases hst : stat (p.take cur) with
      | directory => exact ih (cur+1) (some cur) (by omega) (hp.enter hcur hst)
      | other =>
        have hstop : StopsAt stat p initPos cur := ⟨⟨hp.start,hcur⟩,hp.dirs,by rw [hst]; decide⟩
        exact ⟨_,rfl,rfl,hstop.answers_file hst _⟩
      | missing =>
        have hstop : StopsAt stat p initPos cur := ⟨⟨hp.start,hcur⟩,hp.dirs,by rw [hst]; decide⟩
        cases allowDirs with
        | false => exact ⟨_,rfl,rfl,hstop.answers_missing hst (fun h => absurd h Bool.false_ne_true) _⟩
        | true =>
          cases lastDir with
          | some dir => exact ⟨_,rfl,rfl,hstop.answers_lastDir hst ((hp.last dir).mp rfl) _⟩
          | none =>
            refine ⟨_,rfl,rfl,hstop.answers_missing hst (fun _ j hj => ?_) _⟩
            exact absurd ((hp.last j).mpr hj) (by simp)
    · rw [if_pos hslash]
      refine ih (cur+1) lastDir (by omega) (hp.skip ?_)
      rw [List.getElem?_eq_getElem hlt]
      exact fun h => hslash (Option.some.inj h)

end Loop

/-- From any position in a path, whatever the file system says, the path is split right exactly when
its buffer has a block. -/
theorem splitsRight_iff (stat : FileSystem) {path : Buffer} {initPos : ℕ} (allowDirs : Bool)
    (hw : path.Wf) (h0 : 0 ∉ path.content) (hpos : initPos ≤ path.len) :
    SplitsRight stat path initPos allowDirs ↔ path.buf ≠ [] := by
  have hcall : splitPathinfo stat allowDirs path initPos =
      pathinfoLoop stat allowDirs path.len path.buf (path.len-initPos) initPos none :=
    if_neg (not_lt.mpr hpos)
  rw [SplitsRight,hcall]
  constructor
  · rintro ⟨r,hr,_⟩ hnil
    rw [hw.len_of_nil hnil,Nat.zero_sub,hnil,pathinfoLoop] at hr
    have hpeek : peekByte [] initPos = .error .fault := by simp [peekByte]
    rw [hpeek] at hr
    cases hr
  · intro hne
    obtain ⟨rest,hblk⟩ := hw.block hne
    have hlen := Buffer.content_length hw
    rw [hblk,← hlen]
    exact pathinfoLoop_answers h0 rest _ initPos none (by omega) .init

/-- "/a/b", where "/a" is a file. -/
theorem splitsRight_iff_file :
    SplitsRight (fun _ => .other) (.holding [47,97,47,98]) 1 false ↔
      (Buffer.holding [47,97,47,98]).buf ≠ [] :=
  splitsRight_iff _ false (by decide) (by decide) (by decide)

/-- A path that was never written to has no byte to look at. -/
theorem not_splitsRight_init : ¬ SplitsRight (fun _ => .directory) .init 0 false := by
  rintro ⟨r,hr,_⟩
  cases hr

end Http2d
