import Http2d.BufferEscape

/-! `clone_struct_passwd` and `clone_struct_group` of util.c: the strings of an account record are put
one behind another into a buffer of the caller. A pointer of the target is an offset in the buffer. -/
namespace Http2d

/-- The strings of `struct passwd`. -/
inductive PasswdField
  | name | passwd | gecos | dir | shell
  deriving DecidableEq

/-- The strings of `struct group` that are copied. -/
inductive GroupField
  | name | passwd
  deriving DecidableEq

/-- `struct passwd`; a string that is missing is NULL. -/
structure Passwd (P : Type) where
  str : PasswdField → Option P
  uid : ℕ
  gid : ℕ

/-- `struct group`, without its members. -/
structure Group (P : Type) where
  str : GroupField → Option P
  gid : ℕ

/-- The pointers of the target, the buffer, and `ptr`. -/
structure CloneState (F : Type) where
  str : F → Option ℕ
  buf : List UInt8
  ptr : ℕ

section Clone
variable {F : Type} [DecidableEq F]

/-- The length that is counted for a string. -/
def fieldLen (str : Option (List UInt8)) : ℕ := str.elim 0 List.length

/-- One string: `memcpy`, and `ptr` behind it. -/
def copyField (source : F → Option (List UInt8)) (s : CloneState F) (f : F) : Exec (CloneState F) :=
  match source f with
  | none => .ok s
  | some str =>
    if s.ptr+str.length ≤ s.buf.length then
      .ok ⟨Function.update s.str f (some s.ptr),Bytes.overwrite s.buf s.ptr str,s.ptr+str.length+1⟩
    else .error .fault

/-- The test of the length, with what is added to the lengths of the strings, and the copies. -/
def cloneStrings (order : List F) (added : ℕ) (source : F → Option (List UInt8)) (target : F → Option ℕ)
    (buf : List UInt8) : Exec (Ret × (F → Option ℕ) × List UInt8) :=
  if buf.length ≤ sizeT ((order.map fun f => fieldLen (source f)).sum+added : ℕ) then
    .ok (.error,target,buf)
  else do
    let s ← order.foldlM (copyField source) ⟨target,List.replicate buf.length 0,0⟩
    .ok (.ok,s.str,s.buf)

end Clone

/-- `clone_struct_passwd`. -/
def cloneStructPasswd (source : Passwd (List UInt8)) (target : Passwd ℕ) (buf : List UInt8) :
    Exec (Ret × Passwd ℕ × List UInt8) := do
  let (ret,str,buf) ← cloneStrings [.dir,.passwd,.name,.gecos,.shell] 5 source.str target.str buf
  .ok (ret,if ret = .ok then ⟨str,source.uid,source.gid⟩ else target,buf)

/-- `clone_struct_group`. -/
def cloneStructGroup (source : Group (List UInt8)) (target : Group ℕ) (buf : List UInt8) :
    Exec (Ret × Group ℕ × List UInt8) := do
  let (ret,str,buf) ← cloneStrings [.name,.passwd] 0 source.str target.str buf
  .ok (ret,if ret = .ok then ⟨str,source.gid⟩ else target,buf)

section Clone
variable {F : Type}

/-- The string is at `p`, with its NUL inside the buffer. -/
def Stored (buf : List UInt8) (p : ℕ) (str : List UInt8) : Prop :=
  p+str.length < buf.length ∧ cString (buf.drop p) = str

/-- Every string that is present is stored where the target points to, and no two overlap. -/
structure CopiedWhole (source : F → Option (List UInt8)) (target : F → Option ℕ) (buf : List UInt8) :
    Prop where
  stored : ∀ f str, source f = some str → ∃ p, target f = some p ∧ Stored buf p str
  apart : ∀ f g, f ≠ g → ∀ str txt p q, source f = some str → source g = some txt →
    target f = some p → target g = some q → p+str.length < q ∨ q+txt.length < p

/-- The bytes that the strings need with their terminators. -/
def roomFor (order : List F) (source : F → Option (List UInt8)) : ℕ :=
  (order.map fun f => (source f).elim 0 fun str => str.length+1).sum

end Clone

/-- A call that returns `ret_ok` has copied the strings of the account. -/
def ClonesPasswd (source : Passwd (List UInt8)) (target : Passwd ℕ) (buf : List UInt8) : Prop :=
  ∃ ret target' buf', cloneStructPasswd source target buf = .ok (ret,target',buf') ∧
    (ret = .ok → buf'.length = buf.length ∧ CopiedWhole source.str target'.str buf')

/-- A call that returns `ret_ok` has copied the strings of the group. -/
def ClonesGroup (source : Group (List UInt8)) (target : Group ℕ) (buf : List UInt8) : Prop :=
  ∃ ret target' buf', cloneStructGroup source target buf = .ok (ret,target',buf') ∧
    (ret = .ok → buf'.length = buf.length ∧ CopiedWhole source.str target'.str buf')

section Proofs
variable {F : Type} {source : F → Option (List UInt8)} {n : ℕ} {done : List F} {s s' : CloneState F} {f : F}

/-- The strings copied so far are in front of `ptr`, and the rest of the buffer is zero. -/
structure Cloned (source : F → Option (List UInt8)) (n : ℕ) (done : List F) (s : CloneState F) : Prop where
  length : s.buf.length = n
  fits : s.ptr ≤ n
  zeros : s.buf.drop s.ptr = List.replicate (n-s.ptr) 0
  stored : ∀ f ∈ done, ∀ str, source f = some str →
    ∃ p, s.str f = some p ∧ p+str.length < s.ptr ∧ Bytes.slice s.buf p (str.length+1) = str ++ [0]
  apart : ∀ f ∈ done, ∀ g ∈ done, f ≠ g → ∀ str txt p q, source f = some str → source g = some txt →
    s.str f = some p → s.str g = some q → p+str.length < q ∨ q+txt.length < p

theorem cloned_nil (str : F → Option ℕ) : Cloned source n [] ⟨str,List.replicate n 0,0⟩ where
  length := List.length_replicate
  fits := Nat.zero_le n
  zeros := rfl
  stored := by simp
  apart := by simp

/-- What follows the last string copied is its terminator. -/
theorem slice_overwrite {buf str : List UInt8} {ptr : ℕ} (hlen : buf.length = n) (hfit : ptr+str.length < n)
    (hzero : buf.drop ptr = List.replicate (n-ptr) 0) :
    Bytes.slice (Bytes.overwrite buf ptr str) ptr (str.length+1) = str ++ [0] := by
  have hfront : (buf.take ptr).length = ptr := by simp; omega
  have hback : buf.drop (ptr+str.length) = 0::List.replicate (n-ptr-str.length-1) 0 := by
    rw [← List.drop_drop,hzero,List.drop_replicate,← List.replicate_succ]
    congr 1
    omega
  have hslice := Bytes.slice_append_right (buf.take ptr) (str ++ buf.drop (ptr+str.length)) 0 (str.length+1)
  rw [hfront,Nat.add_zero,← List.append_assoc] at hslice
  rw [Bytes.overwrite,hslice,hback,Bytes.slice,List.drop_zero,List.take_length_add_append]
  rfl

theorem take_overwrite_front {buf str : List UInt8} {ptr : ℕ} (h : ptr ≤ buf.length) :
    (Bytes.overwrite buf ptr str).take ptr = buf.take ptr := by
  rw [Bytes.overwrite,List.append_assoc]
  exact List.take_left' (List.length_take_of_le h)

variable [DecidableEq F]

omit [DecidableEq F] in
/-- A string that is absent needs no copy. -/
theorem Cloned.absent (hs : Cloned source n done s) (hsrc : source f = none) :
    Cloned source n (f::done) s := by
  have hold : ∀ g ∈ f::done, ∀ str, source g = some str → g ∈ done := by
    intro g hg str hstr
    refine (List.mem_cons.mp hg).resolve_left ?_
    rintro rfl
    cases hsrc.symm.trans hstr
  refine ⟨hs.length,hs.fits,hs.zeros,?_,?_⟩
  · exact fun g hg str hstr => hs.stored g (hold g hg str hstr) str hstr
  · exact fun g hg k hk hne str txt p q hstr htxt =>
      hs.apart g (hold g hg str hstr) k (hold k hk txt htxt) hne str txt p q hstr htxt

omit [DecidableEq F] in
/-- What was copied is in front of `ptr`. -/
theorem Cloned.behind (hs : Cloned source n done s) (hf : f ∈ done) {str : List UInt8} {p : ℕ}
    (hstr : source f = some str) (hp : s.str f = some p) : p+str.length < s.ptr := by
  obtain ⟨q,hq,hlt,-⟩ := hs.stored f hf str hstr
  cases hp.symm.trans hq
  exact hlt

/-- The next string is put at `ptr`. -/
theorem Cloned.push (hs : Cloned source n done s) (hf : f ∉ done) {new : List UInt8}
    (hsrc : source f = some new) (hfit : s.ptr+new.length < n) : Cloned source n (f::done)
      ⟨Function.update s.str f (some s.ptr),Bytes.overwrite s.buf s.ptr new,s.ptr+new.length+1⟩ := by
  have hlen := hs.length
  have hcopy : s.ptr+new.length ≤ s.buf.length := by omega
  have hkept : ∀ g ∈ done, Function.update s.str f (some s.ptr) g = s.str g := by
    intro g hg
    refine Function.update_of_ne ?_ ..
    rintro rfl
    exact hf hg
  refine ⟨?_,hfit,?_,?_,?_⟩
  · rw [Bytes.overwrite_length hcopy,hlen]
  · dsimp only
    rw [Bytes.drop_overwrite (Nat.le_succ _) hcopy,Nat.succ_eq_add_one,Nat.add_assoc,← List.drop_drop,
      hs.zeros,List.drop_replicate,Nat.sub_sub]
  · intro g hg str hstr
    rcases List.mem_cons.mp hg with rfl|hg
    · rw [hsrc] at hstr
      cases hstr
      exact ⟨s.ptr,Function.update_self ..,Nat.lt_succ_self _,slice_overwrite hlen hfit hs.zeros⟩
    · obtain ⟨p,hp,hlt,hslice⟩ := hs.stored g hg str hstr
      refine ⟨p,(hkept g hg).trans hp,by dsimp only; omega,?_⟩
      rw [← hslice]
      exact Bytes.slice_eq_of_take_eq (take_overwrite_front (by omega)) hlt
  · intro g hg k hk hne str txt p q hstr htxt hp hq
    dsimp only at hp hq
    rcases List.mem_cons.mp hg with hgf|hgd <;> rcases List.mem_cons.mp hk with hkf|hkd
    · exact absurd (hgf.trans hkf.symm) hne
    · rw [hgf,Function.update_self,Option.some_inj] at hp
      rw [hkept k hkd] at hq
      exact Or.inr (hp ▸ hs.behind hkd htxt hq)
    · rw [hkf,Function.update_self,Option.some_inj] at hq
      rw [hkept g hgd] at hp
      exact Or.inl (hq ▸ hs.behind hgd hstr hp)
    · rw [hkept g hgd] at hp
      rw [hkept k hkd] at hq
      exact hs.apart g hgd k hkd hne str txt p q hstr htxt hp hq

theorem copyField_cloned (hs : Cloned source n done s) (hf : f ∉ done)
    (hfit : s.ptr+roomFor [f] source ≤ n) :
    ∃ s', copyField source s f = .ok s' ∧ s'.ptr = s.ptr+roomFor [f] source ∧
      Cloned source n (f::done) s' := by
  cases hsrc : source f with
  | none =>
    have hroom : roomFor [f] source = 0 := by simp [roomFor,hsrc]
    exact ⟨s,by rw [copyField,hsrc],by rw [hroom,Nat.add_zero],hs.absent hsrc⟩
  | some new =>
    have hroom : roomFor [f] source = new.length+1 := by simp [roomFor,hsrc]
    rw [hroom,← Nat.add_assoc] at hfit ⊢
    have hcopy : s.ptr+new.length ≤ s.buf.length := hs.length.symm ▸ (Nat.le_succ _).trans hfit
    exact ⟨_,by rw [copyField,hsrc]; exact if_pos hcopy,rfl,hs.push hf hsrc hfit⟩

omit [DecidableEq F] in
theorem roomFor_cons (order : List F) :
    roomFor (f::order) source = roomFor [f] source+roomFor order source := by
  simp [roomFor]

theorem foldlM_cloned {order : List F} (hs : Cloned source n done s) (hnd : (done.reverse ++ order).Nodup)
    (hfit : s.ptr+roomFor order source ≤ n) :
    ∃ s', order.foldlM (copyField source) s = .ok s' ∧
      Cloned source n (order.reverse ++ done) s' := by
  induction order generalizing done s with
  | nil => exact ⟨s,rfl,hs⟩
  | cons f order ih =>
    rw [roomFor_cons] at hfit
    rw [List.append_cons,← List.reverse_cons] at hnd
    have hf : f ∉ done := fun h => by
      have := (List.nodup_append.mp hnd).1
      rw [List.nodup_reverse] at this
      exact (List.nodup_cons.mp this).1 h
    obtain ⟨s₁,hcopy,hptr,hs₁⟩ := copyField_cloned hs hf (by omega)
    obtain ⟨s',hrun,hs'⟩ := ih hs₁ hnd (by omega)
    refine ⟨s',by rw [List.foldlM_cons,hcopy,ok_bind,hrun],?_⟩
    rwa [List.reverse_cons,List.append_assoc]

/-- Where the copies end, when they do not leave the buffer. -/
theorem copyField_inv (h : copyField source s f = .ok s') : s'.buf.length = s.buf.length ∧
    s'.ptr = s.ptr+roomFor [f] source ∧ (∀ g, g ≠ f → s'.str g = s.str g) ∧
    ∀ str, source f = some str → s'.str f = some s.ptr := by
  unfold copyField at h
  cases hsrc : source f with
  | none =>
    rw [hsrc] at h
    cases h
    exact ⟨rfl,by simp [roomFor,hsrc],fun g _ => rfl,fun str hstr => by cases hstr⟩
  | some new =>
    rw [hsrc] at h
    dsimp only at h
    split_ifs at h with hfit
    cases h
    refine ⟨Bytes.overwrite_length hfit,by simp [roomFor,hsrc,Nat.add_assoc],?_,?_⟩
    · exact fun g hg => Function.update_of_ne hg ..
    · exact fun str _ => Function.update_self ..

/-- The last string that is present ends in front of `ptr`. -/
theorem foldlM_last {order : List F} (hnd : order.Nodup)
    (h : order.foldlM (copyField source) s = .ok s') : s'.buf.length = s.buf.length ∧
    s'.ptr = s.ptr+roomFor order source ∧ (∀ g, g ∉ order → s'.str g = s.str g) ∧
    (s'.ptr = s.ptr ∨ ∃ f ∈ order, ∃ str p, source f = some str ∧ s'.str f = some p ∧
      s'.ptr = p+str.length+1) := by
  induction order generalizing s with
  | nil =>
    cases h
    exact ⟨rfl,rfl,fun g _ => rfl,Or.inl rfl⟩
  | cons f order ih =>
    rw [List.foldlM_cons] at h
    obtain ⟨s₁,hcopy,hrest⟩ := bind_ok_inv h
    obtain ⟨hf,hnd⟩ := List.nodup_cons.mp hnd
    obtain ⟨hlen₁,hptr₁,hkept₁,hnew⟩ := copyField_inv hcopy
    obtain ⟨hlen,hptr,hkept,hlast⟩ := ih hnd hrest
    refine ⟨hlen.trans hlen₁,by rw [roomFor_cons]; omega,?_,?_⟩
    · intro g hg
      obtain ⟨hgf,hg⟩ := not_or.mp (List.mem_cons.not.mp hg)
      exact (hkept g hg).trans (hkept₁ g hgf)
    · rcases hlast with hsame|⟨g,hg,hlast⟩
      · cases hsrc : source f with
        | none => exact Or.inl (by simp [hsame,hptr₁,roomFor,hsrc])
        | some str =>
          refine Or.inr ⟨f,List.mem_cons_self,str,s.ptr,hsrc,(hkept f hf).trans (hnew str hsrc),?_⟩
          simp [hsame,hptr₁,roomFor,hsrc,Nat.add_assoc]
      · exact Or.inr ⟨g,List.mem_cons_of_mem f hg,hlast⟩

/-- The test lets the strings through only when they fit with their terminators. -/
def TestSuffices (order : List F) (added : ℕ) (source : F → Option (List UInt8)) (buflen : ℕ) : Prop :=
  sizeT ((order.map fun f => fieldLen (source f)).sum+added : ℕ) < buflen → roomFor order source ≤ buflen

omit [DecidableEq F] in
theorem Cloned.copiedWhole (hs : Cloned source n done s) (hall : ∀ f, f ∈ done)
    (hnul : ∀ f str, source f = some str → 0 ∉ str) : CopiedWhole source s.str s.buf where
  stored f str hstr := by
    obtain ⟨p,hp,hlt,hslice⟩ := hs.stored f (hall f) str hstr
    have hdrop : s.buf.drop p = str ++ 0::s.buf.drop (p+(str.length+1)) := by
      rw [← List.take_append_drop (str.length+1) (s.buf.drop p),List.drop_drop]
      rw [Bytes.slice] at hslice
      rw [hslice,List.append_assoc]
      rfl
    refine ⟨p,hp,?_,?_⟩
    · rw [hs.length]
      exact hlt.trans_le hs.fits
    · rw [hdrop,cString,cString_terminated,cString_eq (hnul f str hstr)]
  apart f g hne := hs.apart f (hall f) g (hall g) hne

/-- Strings that pass the test are copied whole exactly if they fit. -/
theorem cloneStrings_iff {order : List F} (hnd : order.Nodup) (hall : ∀ f, f ∈ order) (added : ℕ)
    (hnul : ∀ f str, source f = some str → 0 ∉ str) (target : F → Option ℕ) (buf : List UInt8) :
    (∃ ret str buf', cloneStrings order added source target buf = .ok (ret,str,buf') ∧
      (ret = .ok → buf'.length = buf.length ∧ CopiedWhole source str buf')) ↔
    TestSuffices order added source buf.length := by
  unfold cloneStrings TestSuffices
  generalize sizeT _ = counted
  by_cases htest : buf.length ≤ counted
  · rw [if_pos htest]
    exact iff_of_true ⟨.error,target,buf,rfl,fun h => by cases h⟩ fun h => absurd htest (not_le.mpr h)
  rw [if_neg htest,imp_iff_right (not_le.mp htest)]
  constructor
  · rintro ⟨ret,str,buf',hrun,hok⟩
    obtain ⟨s,hs,heq⟩ := bind_ok_inv hrun
    cases heq
    obtain ⟨hlen,hptr,-,hlast⟩ := foldlM_last hnd hs
    obtain ⟨-,hwhole⟩ := hok rfl
    rw [List.length_replicate] at hlen
    rw [Nat.zero_add] at hptr
    rcases hlast with hsame|⟨f,-,str,p,hstr,hp,hend⟩
    · have hzero : s.ptr = 0 := hsame
      omega
    · obtain ⟨q,hq,hfit,-⟩ := hwhole.stored f str hstr
      cases hp.symm.trans hq
      omega
  · intro hfit
    obtain ⟨s,hrun,hs⟩ := foldlM_cloned (cloned_nil target) (by simpa using hnd) (by simpa using hfit)
    refine ⟨.ok,s.str,s.buf,by rw [hrun]; rfl,fun _ => ⟨hs.length,?_⟩⟩
    exact hs.copiedWhole (fun f => by simpa using hall f) hnul

end Proofs

/-- What a function that clones the strings first returns, in the words of that call. -/
theorem exists_clone_iff {F T : Type} (str : T → F → Option ℕ) (make : (F → Option ℕ) → T)
    (hmake : ∀ g, str (make g) = g) (x : Exec (Ret × (F → Option ℕ) × List UInt8)) (target : T)
    (whole : (F → Option ℕ) → List UInt8 → Prop) :
    (∃ ret target' buf', (x >>= fun r => .ok (r.1,if r.1 = .ok then make r.2.1 else target,r.2.2)) =
      .ok (ret,target',buf') ∧ (ret = .ok → whole (str target') buf')) ↔
    ∃ ret g buf', x = .ok (ret,g,buf') ∧ (ret = .ok → whole g buf') := by
  constructor
  · rintro ⟨ret,target',buf',hrun,hok⟩
    obtain ⟨⟨ret',g,buf''⟩,hstr,heq⟩ := bind_ok_inv hrun
    cases heq
    exact ⟨ret',g,buf'',hstr,fun hret => by simpa [hret,hmake] using hok hret⟩
  · rintro ⟨ret,g,buf',hstr,hok⟩
    refine ⟨ret,_,buf',by rw [hstr]; rfl,fun hret => ?_⟩
    simpa [hret,hmake] using hok hret

theorem clonesPasswd_iff {source : Passwd (List UInt8)} (hnul : ∀ f str, source.str f = some str → 0 ∉ str)
    (target : Passwd ℕ) (buf : List UInt8) : ClonesPasswd source target buf ↔
      TestSuffices [.dir,.passwd,.name,.gecos,.shell] 5 source.str buf.length := by
  rw [← cloneStrings_iff (by decide) (by rintro (_|_|_|_|_) <;> decide) 5 hnul target.str buf]
  exact exists_clone_iff Passwd.str (fun g => ⟨g,source.uid,source.gid⟩) (fun _ => rfl) _ target
    fun g buf' => buf'.length = buf.length ∧ CopiedWhole source.str g buf'

theorem clonesGroup_iff {source : Group (List UInt8)} (hnul : ∀ f str, source.str f = some str → 0 ∉ str)
    (target : Group ℕ) (buf : List UInt8) : ClonesGroup source target buf ↔
      TestSuffices [.name,.passwd] 0 source.str buf.length := by
  rw [← cloneStrings_iff (by decide) (by rintro (_|_) <;> decide) 0 hnul target.str buf]
  exact exists_clone_iff Group.str (fun g => ⟨g,source.gid⟩) (fun _ => rfl) _ target
    fun g buf' => buf'.length = buf.length ∧ CopiedWhole source.str g buf'

/-- With five bytes more in the test, it suffices for every length that does not wrap around. -/
theorem passwd_suffices {str : PasswdField → Option (List UInt8)} {buflen : ℕ}
    (h : ([.dir,.passwd,.name,.gecos,.shell].map fun f => fieldLen (str f)).sum+5 < 2^64) :
    TestSuffices [.dir,.passwd,.name,.gecos,.shell] 5 str buflen := by
  have hroom (f : PasswdField) : (str f).elim 0 (fun s => s.length+1) ≤ fieldLen (str f)+1 := by
    cases str f <;> simp [fieldLen]
  intro htest
  rw [sizeT_natCast h] at htest
  simp only [List.map_cons,List.map_nil,List.sum_cons,List.sum_nil,roomFor] at htest ⊢
  have := hroom .dir
  have := hroom .passwd
  have := hroom .name
  have := hroom .gecos
  have := hroom .shell
  omega

/-- With no byte more, it fails where there are two strings and the buffer is one byte longer than both. -/
theorem group_suffices_iff {str : GroupField → Option (List UInt8)} {buflen : ℕ}
    (h : fieldLen (str .name)+fieldLen (str .passwd) < 2^64) :
    TestSuffices [.name,.passwd] 0 str buflen ↔
      (str .name ≠ none → str .passwd ≠ none →
        buflen ≠ fieldLen (str .name)+fieldLen (str .passwd)+1) := by
  unfold TestSuffices
  simp only [List.map_cons,List.map_nil,List.sum_cons,List.sum_nil,roomFor,Nat.add_zero]
  rw [sizeT_natCast h]
  cases str .name <;> cases str .passwd <;> (simp [fieldLen]; try omega)

/-- The strings of an account and of a group are copied whole exactly when the tests of the lengths
suffice. -/
theorem clonesRecords_iff {account : Passwd (List UInt8)} {group : Group (List UInt8)}
    (haccount : ∀ f str, account.str f = some str → 0 ∉ str)
    (hgroup : ∀ f str, group.str f = some str → 0 ∉ str) (pwbuf : Passwd ℕ) (grbuf : Group ℕ)
    (buf : List UInt8) :
    (ClonesPasswd account pwbuf buf ↔
      TestSuffices [.dir,.passwd,.name,.gecos,.shell] 5 account.str buf.length) ∧
    (ClonesGroup group grbuf buf ↔ TestSuffices [.name,.passwd] 0 group.str buf.length) :=
  ⟨clonesPasswd_iff haccount pwbuf buf,clonesGroup_iff hgroup grbuf buf⟩

/-- The account `a` with the directory `/` and no other strings in ten bytes, and the group `a:b` in
them as well. -/
theorem clonesRecords_ab : ClonesPasswd
      ⟨fun f => if f = .name then some [97] else if f = .dir then some [47] else none,5,7⟩
      ⟨fun _ => none,0,0⟩ (List.replicate 10 1) ∧
    ClonesGroup ⟨fun f => if f = .name then some [97] else some [98],0⟩ ⟨fun _ => none,0⟩
      (List.replicate 10 1) := by
  have haccount : ∀ f str, (⟨fun f => if f = .name then some [97] else if f = .dir then some [47] else
      none,5,7⟩ : Passwd (List UInt8)).str f = some str → 0 ∉ str := by
    intro f str h
    cases f <;> cases h <;> decide
  have hgroup : ∀ f str, (⟨fun f => if f = .name then some [97] else some [98],0⟩ :
      Group (List UInt8)).str f = some str → 0 ∉ str := by
    rintro (_|_) str h <;> (cases h; decide)
  obtain ⟨hpasswd,hgroup⟩ := clonesRecords_iff haccount hgroup ⟨fun _ => none,0,0⟩ ⟨fun _ => none,0⟩
    (List.replicate 10 1)
  exact ⟨hpasswd.mpr (passwd_suffices (by decide)),
    hgroup.mpr ((group_suffices_iff (by decide)).mpr (by decide))⟩

/-- The group `a:b` in three bytes: the password has no terminator. -/
theorem not_clonesGroup_ab :
    ¬ ClonesGroup ⟨fun f => if f = .name then some [97] else some [98],0⟩ ⟨fun _ => none,0⟩ [1,1,1] := by
  have hnul : ∀ f str, (⟨fun f => if f = .name then some [97] else some [98],0⟩ :
      Group (List UInt8)).str f = some str → 0 ∉ str := by
    rintro (_|_) str h <;> (cases h; decide)
  rw [clonesGroup_iff hnul,group_suffices_iff (by decide)]
  decide

end Http2d
