import Http2d.BufferOps
import Http2d.Strings
import Http2d.Library.Occurrences

/-! `http2d_buffer_replace_string`, and the two passes that `http2d_buffer_substitute_string` makes as well.
The first pass counts how long the result is, and the second one copies it into a block of that size. -/
namespace Http2d

open Bytes Buffer Occurrences

/-- A search string and its replacement, with the lengths that are passed for them; none is NULL. -/
structure Substitution where
  substring : Option (List UInt8)
  substringLength : Int32
  replacement : Option (List UInt8)
  replacementLength : Int32

/-- The first pass: it gives the position behind the last occurrence and the length of the result. -/
def countLoop (blk sub : List UInt8) (subLen repLen : ℤ) : ℕ → ℕ → ℤ → Exec (ℕ × ℤ)
  | 0, _, _ => .error .fault
  | fuel+1, p, resultLength => do
    let r ← strstr sub (blk.drop p) p
    match r with
    | none => .ok (p,resultLength)
    | some q => do
      let d ← intValue (repLen-subLen)
      let resultLength ← intValue (resultLength+d)
      countLoop blk sub subLen repLen fuel (q+subLen.toNat) resultLength

/-- `memcpy` to a position of a block. -/
def putAt (out : List UInt8) (pos : ℤ) (txt : List UInt8) : Exec (List UInt8) :=
  if 0 ≤ pos ∧ pos+txt.length ≤ out.length then .ok (overwrite out pos.toNat txt) else .error .fault

/-- The second pass, on the block `out`. The two functions differ in how they count the bytes behind the
last occurrence, and in the type that they add to the position. -/
def buildLoop (remaining : ℕ → Exec ℕ) (step : ℕ → ℤ) (blk sub rep : List UInt8) (subLen repLen : ℤ) :
    ℕ → ℕ → List UInt8 → ℤ → Exec (List UInt8 × ℤ)
  | 0, _, _, _ => .error .fault
  | fuel+1, p, out, pos => do
    let r ← strstr sub (blk.drop p) p
    match r with
    | none => do
      let n ← remaining p
      let txt ← peek blk p n
      let out ← putAt out pos txt
      .ok (out,pos+n)
    | some q => do
      let txt ← peek blk p (q-p)
      let out ← putAt out pos txt
      let txt ← peek rep 0 repLen.toNat
      let out ← putAt out (pos+step (q-p)) txt
      buildLoop remaining step blk sub rep subLen repLen fuel (q+subLen.toNat) out (pos+step (q-p)+repLen)

namespace Buffer

/-- `http2d_buffer_replace_string`. -/
def replaceString (mem : Bool) (b : Buffer) (s : Substitution) : Exec (Ret × Buffer) :=
  if s.replacement = none ∧ s.replacementLength ≠ 0 then .ok (.deny,b)
  else
    match s.substring with
    | none => .ok (.deny,b)
    | some sub =>
      let subLen := s.substringLength.toInt
      let repLen := s.replacementLength.toInt
      if b.buf = [] ∨ subLen < 1 ∨ repLen < 0 then .ok (.deny,b)
      else do
        let r ← countLoop b.buf sub subLen repLen (b.len+1) 0 (cint b.len)
        if r.1 = 0 then .ok (.ok,b)
        else if r.2 < 1 then .ok (.ok,b.clean)
        else do
          let size ← intValue (r.2+1)
          match reallocIf mem [] (sizeT size) with
          | none => .ok (.nomem,b)
          | some blk => do
            let res ← buildLoop (fun p => (strlen (b.buf.drop p)).map fun n => sizeT (cint n)) (fun n => n)
              b.buf sub (s.replacement.getD []) subLen repLen (b.len+1) 0 blk 0
            let blk ← putAt res.1 res.2 [0]
            .ok (.ok,⟨blk,cuint (r.2+1),cuint r.2⟩)

end Buffer

section Passes
variable {sub rep s rest blk : List UInt8} {subLen repLen : ℤ}

theorem prefix_nul (hsub : 0 ∉ sub) : sub <+: s ++ 0::rest ↔ sub <+: s := by
  refine ⟨fun h => ?_,fun h => h.trans (List.prefix_append _ _)⟩
  by_contra hno
  have hlong : s.length < sub.length := by
    by_contra hle
    exact hno (List.prefix_of_prefix_length_le h (List.prefix_append _ _) (not_lt.mp hle))
  have hnul : s ++ [0] <+: sub := List.prefix_of_prefix_length_le
    ⟨rest,by rw [List.append_assoc]; rfl⟩ h (by simp; omega)
  exact hsub (hnul.mem (by simp))

/-- The search finds the first occurrence in the string. -/
theorem strstr_splitFirst (hne : sub ≠ []) (hsub : 0 ∉ sub) (hs : 0 ∉ s) (p : ℕ) :
    strstr sub (s ++ 0::rest) p = .ok ((splitFirst sub s).map fun r => p+r.1.length) := by
  induction s generalizing p with
  | nil =>
    have hno : ¬ sub <+: 0::rest := fun h => by
      have := (prefix_nul (s:=[]) hsub).mp h
      exact hne (List.prefix_nil.mp this)
    rw [List.nil_append,strstr,if_neg hno,if_pos rfl]
    rfl
  | cons c s ih =>
    obtain ⟨hc,hs⟩ := not_or.mp (List.mem_cons.not.mp hs)
    have hiff : sub <+: c::(s ++ 0::rest) ↔ sub <+: c::s := prefix_nul (s:=c::s) hsub
    rw [List.cons_append,strstr,splitFirst]
    by_cases hp : sub <+: c::s
    · rw [if_pos (hiff.mpr hp),if_pos hp]
      rfl
    · rw [if_neg (fun h => hp (hiff.mp h)),if_neg (Ne.symm hc),if_neg hp,ih hs]
      cases splitFirst sub s with
      | none => rfl
      | some r => simp; omega

/-- What stands in the block behind an occurrence. -/
theorem drop_occurrence {pre post : List UInt8} {p : ℕ} (hblk : blk.drop p = s ++ 0::rest)
    (hcut : splitFirst sub s = some (pre,post)) : blk.drop (p+pre.length+sub.length) = post ++ 0::rest := by
  rw [splitFirst_some hcut,List.append_assoc] at hblk
  have := drop_of_drop hblk
  rwa [List.length_append,← Nat.add_assoc] at this

/-- By how much the replacements lengthen a string. -/
def growth (sub rep s : List UInt8) : ℤ := (replaceAll sub rep s).length-s.length

theorem growth_none (h : splitFirst sub s = none) : growth sub rep s = 0 := by
  rw [growth,replaceAll_none h,sub_self]

theorem growth_some (hne : sub ≠ []) {pre post : List UInt8} (h : splitFirst sub s = some (pre,post)) :
    growth sub rep s = (rep.length-sub.length)+growth sub rep post := by
  have hlen := congrArg List.length (splitFirst_some h)
  rw [growth,growth,replaceAll_some rep hne h]
  simp only [List.length_append] at hlen ⊢
  omega

/-- On the way from one value to another by steps of one size there are only values. -/
theorem int_between {n d k : ℤ} (hk : 0 ≤ k) (hn : IsInt n) (htotal : IsInt (n+(d+k*d))) :
    IsInt (n+d) := by
  unfold IsInt at *
  rcases le_total 0 d with hd | hd
  · have := mul_nonneg hk hd
    omega
  · have := mul_nonpos_of_nonneg_of_nonpos hk hd
    omega

section Count
variable (rep) (hne : sub ≠ []) (hsub : 0 ∉ sub) (hsl : sub.length < 2^31) (hrl : rep.length < 2^31)
include hne hsub hsl hrl

/-- The first pass counts the length of the result, when that is a value of an `int`. -/
theorem countLoop_spec (fuel : ℕ) {p : ℕ} {n : ℤ} (hs : 0 ∉ s) (hblk : blk.drop p = s ++ 0::rest)
    (hfuel : s.length < fuel) (hn : IsInt n) :
    (IsInt (n+growth sub rep s) → ∃ q, countLoop blk sub sub.length rep.length fuel p n =
      .ok (q,n+growth sub rep s) ∧ p ≤ q ∧ (q = p ↔ splitFirst sub s = none)) ∧
    (¬ IsInt (n+growth sub rep s) →
      countLoop blk sub sub.length rep.length fuel p n = .error .fault) := by
  induction fuel generalizing s p n with
  | zero => omega
  | succ fuel ih =>
    rw [countLoop,hblk,strstr_splitFirst hne hsub hs,ok_bind]
    cases hcut : splitFirst sub s with
    | none =>
      rw [growth_none hcut,add_zero]
      exact ⟨fun _ => ⟨p,rfl,le_rfl,by simp⟩,fun h => absurd hn h⟩
    | some r =>
      obtain ⟨pre,post⟩ := r
      have hpos := List.length_pos_iff.mpr hne
      have hlen := congrArg List.length (splitFirst_some hcut)
      simp only [List.length_append] at hlen
      have hpost : 0 ∉ post := fun h => hs (by rw [splitFirst_some hcut]; simp [h])
      obtain ⟨k,hk⟩ := replaceAll_length rep hne post
      have hgrow : growth sub rep post = k*(rep.length-sub.length) := by
        rw [growth,hk]
        ring
      have hd : intValue ((rep.length : ℤ)-sub.length) = .ok (rep.length-sub.length) :=
        intValue_ok (by omega) (by omega)
      have hbetween := int_between (d:=rep.length-sub.length) (Int.natCast_nonneg k) hn
      simp only [Option.map_some,hd,ok_bind,Int.toNat_natCast]
      rw [growth_some hne hcut,← add_assoc]
      rw [← hgrow,← add_assoc] at hbetween
      by_cases hstep : IsInt (n+(rep.length-sub.length))
      · rw [intValue_eq hstep,ok_bind]
        obtain ⟨hin,hout⟩ := ih hpost (drop_occurrence hblk hcut) (by omega) hstep
        refine ⟨fun h => ?_,hout⟩
        obtain ⟨q,hq,hle,_⟩ := hin h
        exact ⟨q,hq,by omega,by simp; omega⟩
      · rw [intValue_not hstep]
        exact ⟨fun h => absurd (hbetween h) hstep,fun _ => rfl⟩

end Count

section Build

theorem putAt_ok {out txt : List UInt8} {pos : ℕ} (h : pos+txt.length ≤ out.length) :
    putAt out pos txt = .ok (overwrite out pos txt) := by
  rw [putAt,if_pos (by omega),Int.toNat_natCast]

/-- Two texts put one behind the other. -/
theorem putAt_twice {out xs ys : List UInt8} {pos : ℕ} (h : pos+xs.length+ys.length ≤ out.length) :
    ∃ out', (do
        let o ← putAt out pos xs
        putAt o (pos+xs.length : ℕ) ys) = .ok out' ∧ out'.length = out.length ∧
      out'.take (pos+xs.length+ys.length) = out.take pos ++ xs ++ ys := by
  have hl : (overwrite out pos xs).length = out.length := overwrite_length (by omega)
  have hroom : pos+xs.length+ys.length ≤ (overwrite out pos xs).length := by omega
  refine ⟨_,by rw [putAt_ok (by omega),ok_bind,putAt_ok hroom],by rw [overwrite_length hroom,hl],?_⟩
  rw [take_overwrite (by omega),take_overwrite (by omega)]

variable (remaining : ℕ → Exec ℕ) {step : ℕ → ℤ}

variable (rep) in
/-- One occurrence: what is in front of it is copied, and the replacement is put behind that. -/
theorem buildLoop_turn (hne : sub ≠ []) (hsub : 0 ∉ sub) (fuel pos : ℕ) (out : List UInt8) {p : ℕ}
    {pre post : List UInt8} (hs : 0 ∉ s) (hblk : blk.drop p = s ++ 0::rest) (hin : p ≤ blk.length)
    (hcut : splitFirst sub s = some (pre,post)) (hstep : step pre.length = pre.length)
    (hfit : pos+pre.length+rep.length ≤ out.length) :
    ∃ out', buildLoop remaining step blk sub rep sub.length rep.length (fuel+1) p out pos =
        buildLoop remaining step blk sub rep sub.length rep.length fuel (p+pre.length+sub.length) out'
          (pos+pre.length+rep.length : ℕ) ∧
      out'.length = out.length ∧ out'.take (pos+pre.length+rep.length) = out.take pos ++ pre ++ rep := by
  have hfront : blk.drop p = pre ++ (sub ++ post ++ 0::rest) := by
    rw [hblk,splitFirst_some hcut]
    simp
  have hcopy : peek rep 0 rep.length = .ok rep := by
    have hwhole : rep.drop 0 = rep ++ [] := by rw [List.drop_zero,List.append_nil]
    exact_mod_cast peek_drop (Nat.zero_le _) hwhole
  obtain ⟨out',hput,hl,htake⟩ := putAt_twice hfit
  obtain ⟨out1,hfirst,hsecond⟩ := bind_ok_inv hput
  refine ⟨out',?_,hl,htake⟩
  rw [buildLoop,hblk,strstr_splitFirst hne hsub hs,ok_bind,hcut]
  simp only [Option.map_some,Nat.add_sub_cancel_left,peek_drop hin hfront,ok_bind,hfirst,hstep,
    Int.toNat_natCast,hcopy]
  push_cast at hsecond ⊢
  rw [hsecond,ok_bind]

variable {remaining}

variable (rep) in
/-- The second pass writes the result, when the block has room for it. -/
theorem buildLoop_spec (hne : sub ≠ []) (hsub : 0 ∉ sub) {fuel p : ℕ} (pos : ℕ) (out : List UInt8)
    (hs : 0 ∉ s) (hblk : blk.drop p = s ++ 0::rest) (hfuel : s.length < fuel) (hin : p ≤ blk.length)
    (hstep : ∀ n ≤ s.length, step n = n)
    (hrem : ∀ q t, blk.drop q = t ++ 0::rest → q+t.length = p+s.length → 0 ∉ t → remaining q = .ok t.length)
    (hfit : pos+(replaceAll sub rep s).length ≤ out.length) :
    ∃ out', buildLoop remaining step blk sub rep sub.length rep.length fuel p out pos =
        .ok (out',(pos+(replaceAll sub rep s).length : ℕ)) ∧ out'.length = out.length ∧
      out'.take (pos+(replaceAll sub rep s).length) = out.take pos ++ replaceAll sub rep s := by
  induction fuel generalizing s p pos out with
  | zero => omega
  | succ fuel ih =>
    cases hcut : splitFirst sub s with
    | none =>
      rw [replaceAll_none hcut] at hfit ⊢
      rw [buildLoop,hblk,strstr_splitFirst hne hsub hs,ok_bind,hcut]
      simp only [Option.map_none,hrem p s hblk rfl hs,ok_bind,peek_drop hin hblk,putAt_ok hfit]
      exact ⟨_,by push_cast; rfl,overwrite_length hfit,take_overwrite (by omega)⟩
    | some r =>
      obtain ⟨pre,post⟩ := r
      have hpos := List.length_pos_iff.mpr hne
      have hpost : 0 ∉ post := fun h => hs (by rw [splitFirst_some hcut]; simp [h])
      have hres := congrArg List.length (replaceAll_some rep hne hcut)
      have hlen := congrArg List.length (splitFirst_some hcut)
      have hbl := congrArg List.length hblk
      rw [List.length_drop,List.length_append,List.length_cons] at hbl
      simp only [List.length_append] at hres hlen
      obtain ⟨out1,hturn,hl1,htake1⟩ := buildLoop_turn rep remaining hne hsub fuel pos out hs
        hblk hin hcut (hstep _ (by omega)) (by omega)
      obtain ⟨out',hrun,hl,htake⟩ := ih (pos+pre.length+rep.length) out1 hpost (drop_occurrence hblk hcut)
        (by omega) (by omega) (fun n hn => hstep n (by omega))
        (fun q t hq ht h0 => hrem q t hq (by omega) h0) (by omega)
      have hend : pos+(replaceAll sub rep s).length =
          pos+pre.length+rep.length+(replaceAll sub rep post).length := by omega
      refine ⟨out',by rw [hturn,hrun,hend],by rw [hl,hl1],?_⟩
      rw [hend,htake,htake1,replaceAll_some rep hne hcut]
      simp only [List.append_assoc]

variable (rep step) in
/-- The whole second pass and the terminator. -/
theorem build_terminated (hne : sub ≠ []) (hsub : 0 ∉ sub) (fuel : ℕ) (out : List UInt8) (hs : 0 ∉ s)
    (hblk : blk = s ++ 0::rest) (hfuel : s.length < fuel) (hstep : ∀ n ≤ s.length, step n = n)
    (hrem : ∀ q t, blk.drop q = t ++ 0::rest → q+t.length = s.length → 0 ∉ t → remaining q = .ok t.length)
    (hfit : (replaceAll sub rep s).length < out.length) :
    ∃ out' blk', buildLoop remaining step blk sub rep sub.length rep.length fuel 0 out 0 =
        .ok (out',((replaceAll sub rep s).length : ℕ)) ∧
      putAt out' ((replaceAll sub rep s).length : ℕ) [0] = .ok blk' ∧ blk'.length = out.length ∧
      blk'.take (replaceAll sub rep s).length = replaceAll sub rep s ∧
      blk'[(replaceAll sub rep s).length]? = some 0 := by
  obtain ⟨out',hrun,hl,ht⟩ := buildLoop_spec rep hne hsub 0 out hs
    (by rw [List.drop_zero]; exact hblk) hfuel (Nat.zero_le _) hstep
    (fun q t hq hlen => hrem q t hq (by omega)) (by omega)
  rw [Nat.zero_add] at hrun ht
  rw [List.take_zero,List.nil_append] at ht
  have hroom : (replaceAll sub rep s).length+[(0 : UInt8)].length ≤ out'.length := by simp; omega
  obtain ⟨hfront,hend⟩ := overwrite_terminated out' [] (replaceAll sub rep s).length (by simp; omega)
  rw [List.nil_append,List.length_nil,Nat.add_zero] at hend
  rw [List.nil_append,List.length_nil,Nat.add_zero,List.append_nil,ht] at hfront
  exact ⟨out',_,hrun,putAt_ok hroom,by rw [overwrite_length hroom,hl],hfront,hend⟩

end Build

end Passes

/-- The strings are passed with their exact lengths; a NULL replacement is the empty one. -/
structure Substitution.Passes (s : Substitution) (sub rep : List UInt8) : Prop where
  substring_eq : s.substring = some sub
  substringLength_eq : s.substringLength.toInt = sub.length
  replacement_eq : s.replacement.getD [] = rep
  replacementLength_eq : s.replacementLength.toInt = rep.length
  ne : sub ≠ []
  nul : 0 ∉ sub

theorem Substitution.Passes.lengths {s : Substitution} {sub rep : List UInt8} (h : s.Passes sub rep) :
    sub.length < 2^31 ∧ rep.length < 2^31 := by
  have h1 := s.substringLength.toInt_lt
  have h2 := s.replacementLength.toInt_lt
  rw [h.substringLength_eq] at h1
  rw [h.replacementLength_eq] at h2
  omega

namespace Buffer
variable {mem : Bool} {b : Buffer} {s : Substitution} {sub rep : List UInt8}

/-- All occurrences are replaced, and length and size are those of the result; or there was no memory,
and nothing is changed. -/
def ReplacesAll (mem : Bool) (b : Buffer) (s : Substitution) (sub rep : List UInt8) : Prop :=
  ∃ r d, b.replaceString mem s = .ok (r,d) ∧
    (d.Wf ∧ d.content = replaceAll sub rep b.content ∧
        (sub <:+: b.content → replaceAll sub rep b.content ≠ [] → d.size = d.len+1) ∨
      mem = false ∧ r = .nomem ∧ d = b)

/-- The condition on the lengths before and after: an `int` counts them and the terminator. (Above that,
the counted length is wrapped; then nothing happens only when there is no memory for it.) -/
def ReplaceFits (mem : Bool) (len result : ℕ) : Prop :=
  len < 2^31 ∧ result+1 < 2^31 ∨
    mem = false ∧ 2^31 ≤ len ∧ 2^32 < result ∧ result+1 < 2^32+2^31

/-- The count of the first pass: an `int` is off by 2^32 when the length is too large for it. -/
theorem counted_eq (hb : b.Wf) (sub rep : List UInt8) :
    cint b.len-b.len+(replaceAll sub rep b.content).length = cint b.len+growth sub rep b.content := by
  rw [growth,content_length hb]
  ring

/-- The first pass over the string of a buffer. -/
theorem countLoop_block (hb : b.Wf) (h0 : 0 ∉ b.content) (hs : s.Passes sub rep) (hbuf : b.buf ≠ []) {n : ℤ}
    (hn : n = cint b.len+growth sub rep b.content) :
    (IsInt n → ∃ q, countLoop b.buf sub sub.length rep.length (b.len+1) 0 (cint b.len) = .ok (q,n) ∧
      (q = 0 ↔ splitFirst sub b.content = none)) ∧
    (¬ IsInt n →
      countLoop b.buf sub sub.length rep.length (b.len+1) 0 (cint b.len) = .error .fault) := by
  obtain ⟨rest,hblk⟩ := hb.block hbuf
  obtain ⟨hsl,hrl⟩ := hs.lengths
  have hcl := content_length hb
  obtain ⟨hin,hout⟩ := countLoop_spec rep hs.ne hs.nul hsl hrl (b.len+1) (p:=0) h0 hblk (by omega)
    (cint_isInt (n:=b.len))
  rw [← hn] at hin hout
  refine ⟨fun h => ?_,hout⟩
  obtain ⟨q,hq,_,hq0⟩ := hin h
  exact ⟨q,hq,hq0⟩

/-- Without an occurrence the pass ends where it began. -/
theorem countLoop_block_none (hb : b.Wf) (h0 : 0 ∉ b.content) (hs : s.Passes sub rep) (hbuf : b.buf ≠ [])
    (hocc : splitFirst sub b.content = none) :
    countLoop b.buf sub sub.length rep.length (b.len+1) 0 (cint b.len) = .ok (0,cint b.len) := by
  have hn : cint b.len = cint b.len+growth sub rep b.content := by rw [growth_none hocc,add_zero]
  obtain ⟨q,hq,hq0⟩ := (countLoop_block hb h0 hs hbuf hn).1 cint_isInt
  rw [hq,hq0.mpr hocc]

/-- The call on a buffer with a block. -/
theorem replaceString_eq (hs : s.Passes sub rep) (hbuf : b.buf ≠ []) : b.replaceString mem s = (do
    let r ← countLoop b.buf sub sub.length rep.length (b.len+1) 0 (cint b.len)
    if r.1 = 0 then .ok (.ok,b)
    else if r.2 < 1 then .ok (.ok,b.clean)
    else do
      let size ← intValue (r.2+1)
      match reallocIf mem [] (sizeT size) with
      | none => .ok (.nomem,b)
      | some blk => do
        let res ← buildLoop (fun p => (strlen (b.buf.drop p)).map fun n => sizeT (cint n)) (fun n => n)
          b.buf sub rep sub.length rep.length (b.len+1) 0 blk 0
        let blk ← putAt res.1 res.2 [0]
        .ok (.ok,⟨blk,cuint (r.2+1),cuint r.2⟩)) := by
  have hpos := List.length_pos_iff.mpr hs.ne
  have hlen := hs.replacementLength_eq
  have hnull : ¬ (s.replacement = none ∧ s.replacementLength ≠ 0) := by
    rintro ⟨hnone,hne⟩
    have hrep := hs.replacement_eq
    rw [hnone,Option.getD_none] at hrep
    rw [← hrep] at hlen
    exact hne (Int32.toInt_inj.mp hlen)
  rw [replaceString,if_neg hnull,hs.substring_eq]
  simp only
  rw [hs.substringLength_eq,hlen,hs.replacement_eq,if_neg (not_or.mpr ⟨hbuf,by omega⟩)]

theorem reallocIf_fresh {n : ℕ} (h : n < 2^63) : reallocIf true [] n = some (List.replicate n 0) := by
  rw [reallocIf,if_pos rfl,realloc_eq _ _ (Nat.zero_le _) h]
  rfl

theorem block_of_occurrence (hocc : splitFirst sub b.content ≠ none) : b.buf ≠ [] := by
  intro hnil
  exact hocc (by rw [content,hnil,List.take_nil]; rfl)

section Found
variable (hb : b.Wf) (h0 : 0 ∉ b.content) (hs : s.Passes sub rep)
  (hocc : splitFirst sub b.content ≠ none) {n : ℤ} (hn : n = cint b.len+growth sub rep b.content)
include hb h0 hs hocc hn

variable (mem) in
/-- What the first pass leads to, when the length of the result can be counted. -/
theorem replaceString_counted (hint : IsInt n) : b.replaceString mem s =
    if n < 1 then .ok (.ok,b.clean)
    else (do
      let size ← intValue (n+1)
      match reallocIf mem [] (sizeT size) with
      | none => .ok (.nomem,b)
      | some blk => do
        let res ← buildLoop (fun p => (strlen (b.buf.drop p)).map fun n => sizeT (cint n)) (fun n => n)
          b.buf sub rep sub.length rep.length (b.len+1) 0 blk 0
        let blk ← putAt res.1 res.2 [0]
        .ok (.ok,⟨blk,cuint (n+1),cuint n⟩)) := by
  have hbuf := block_of_occurrence hocc
  obtain ⟨q,hq,hq0⟩ := (countLoop_block hb h0 hs hbuf hn).1 hint
  rw [replaceString_eq hs hbuf,hq,ok_bind,if_neg (fun h => hocc (hq0.mp h))]

/-- Without memory nothing happens. -/
theorem replaceString_nomem (h1 : 1 ≤ n) (hnext : IsInt (n+1)) :
    b.replaceString false s = .ok (.nomem,b) := by
  rw [replaceString_counted _ hb h0 hs hocc hn (by unfold IsInt at *; omega),if_neg (not_lt.mpr h1),
    intValue_eq hnext]
  rfl

/-- A call that returns has counted the length that it sets, and the block for it. -/
theorem replaceString_inv {r : Ret} {d : Buffer} (h : b.replaceString mem s = .ok (r,d)) : IsInt n ∧
    (n < 1 ∧ r = .ok ∧ d.len = 0 ∨
      1 ≤ n ∧ IsInt (n+1) ∧ (mem = false ∧ r = .nomem ∨ mem = true ∧ r = .ok ∧ d.len = n.toNat)) := by
  have hbuf := block_of_occurrence hocc
  have hint : IsInt n := by
    by_contra hno
    rw [replaceString_eq hs hbuf,(countLoop_block hb h0 hs hbuf hn).2 hno] at h
    cases h
  refine ⟨hint,?_⟩
  rw [replaceString_counted _ hb h0 hs hocc hn hint] at h
  split_ifs at h with h1
  · cases h
    exact Or.inl ⟨h1,rfl,rfl⟩
  · obtain ⟨size,hsize,h⟩ := bind_ok_inv h
    have hnext : IsInt (n+1) := by
      by_contra hno
      rw [intValue_not hno] at hsize
      cases hsize
    refine Or.inr ⟨not_lt.mp h1,hnext,?_⟩
    cases mem with
    | false =>
      cases h
      exact Or.inl ⟨rfl,rfl⟩
    | true =>
      rw [intValue_eq hnext] at hsize
      obtain rfl := Except.ok.inj hsize
      rw [reallocIf_fresh (by unfold IsInt at hnext; simp only [sizeT]; omega)] at h
      obtain ⟨res,_,h⟩ := bind_ok_inv h
      obtain ⟨blk,_,h⟩ := bind_ok_inv h
      cases h
      refine Or.inr ⟨rfl,rfl,?_⟩
      unfold IsInt at hint
      simp only [cuint]
      omega

end Found

/-- The result in its new block. -/
theorem replaceString_built (hb : b.Wf) (h0 : 0 ∉ b.content) (hs : s.Passes sub rep)
    (hlen : b.len < 2^31) (hocc : splitFirst sub b.content ≠ none)
    (hpos : 1 ≤ (replaceAll sub rep b.content).length)
    (hfit : (replaceAll sub rep b.content).length+1 < 2^31) :
    ∃ blk, b.replaceString true s = .ok (.ok,⟨blk,(replaceAll sub rep b.content).length+1,
        (replaceAll sub rep b.content).length⟩) ∧
      blk.length = (replaceAll sub rep b.content).length+1 ∧
      blk.take (replaceAll sub rep b.content).length = replaceAll sub rep b.content ∧
      blk[(replaceAll sub rep b.content).length]? = some 0 := by
  obtain ⟨rest,hblk⟩ := hb.block (block_of_occurrence hocc)
  have hcl := content_length hb
  have htotal : ((replaceAll sub rep b.content).length : ℤ) = cint b.len+growth sub rep b.content := by
    rw [cint_of_lt hlen,growth,hcl]
    ring
  have hwant : sizeT (((replaceAll sub rep b.content).length : ℤ)+1) =
      (replaceAll sub rep b.content).length+1 := by
    simp only [sizeT]
    omega
  have hcall := replaceString_counted true hb h0 hs hocc htotal (by unfold IsInt; omega)
  rw [if_neg (by omega),intValue_eq (by unfold IsInt; omega),ok_bind,hwant,
    reallocIf_fresh (by omega)] at hcall
  have hrem (q : ℕ) (t : List UInt8) (hq : b.buf.drop q = t ++ 0::rest) (hle : q+t.length = b.content.length)
      (ht : 0 ∉ t) : (strlen (b.buf.drop q)).map (fun n => sizeT (cint n)) = .ok t.length := by
    have hsize : sizeT (cint t.length) = t.length := by
      rw [cint_of_lt (by omega),sizeT_natCast (by omega)]
    rw [hq,strlen_eq ht]
    exact congrArg Except.ok hsize
  obtain ⟨out,blk,hrun,hput,hl,htake,hend⟩ := build_terminated rep (fun n => (n : ℤ))
    hs.ne hs.nul (b.len+1) (List.replicate ((replaceAll sub rep b.content).length+1) 0) h0 hblk (by omega)
    (fun n _ => rfl) hrem (by rw [List.length_replicate]; omega)
  simp only at hcall
  rw [hrun,ok_bind,hput,ok_bind,cuint_natCast (by omega)] at hcall
  have hsize : cuint (((replaceAll sub rep b.content).length : ℤ)+1) =
      (replaceAll sub rep b.content).length+1 := by
    simp only [cuint]
    omega
  rw [hsize] at hcall
  exact ⟨blk,hcall,by rw [hl,List.length_replicate],htake,hend⟩

/-- The call with memory, when the lengths can be counted. -/
theorem replaceString_replaced (hb : b.Wf) (h0 : 0 ∉ b.content) (hs : s.Passes sub rep)
    (hocc : splitFirst sub b.content ≠ none) (hlen : b.len < 2^31)
    (hfit : (replaceAll sub rep b.content).length+1 < 2^31) :
    ∃ d, b.replaceString true s = .ok (.ok,d) ∧ d.Wf ∧ d.content = replaceAll sub rep b.content ∧
      (replaceAll sub rep b.content ≠ [] → d.size = d.len+1) := by
  by_cases hnil : replaceAll sub rep b.content = []
  · have htotal : (0 : ℤ) = cint b.len+growth sub rep b.content := by
      rw [cint_of_lt hlen,growth,hnil,content_length hb]
      simp
    have hcall := replaceString_counted true hb h0 hs hocc htotal (by unfold IsInt; omega)
    rw [if_pos (by decide)] at hcall
    exact ⟨b.clean,hcall,clean_wf hb,by rw [clean_content,hnil],fun h => absurd hnil h⟩
  · have hpos := List.length_pos_iff.mpr hnil
    obtain ⟨blk,hcall,hl,htake,hend⟩ := replaceString_built hb h0 hs hlen hocc hpos hfit
    refine ⟨_,hcall,⟨hl.symm,?_,Or.inr ⟨?_,hend⟩⟩,htake,fun _ => rfl⟩
    · simp only
      omega
    · simp only
      omega

variable (mem) in
/-- Nothing is found. -/
theorem replaceString_none (hb : b.Wf) (h0 : 0 ∉ b.content) (hs : s.Passes sub rep)
    (hocc : splitFirst sub b.content = none) : ∃ r, b.replaceString mem s = .ok (r,b) := by
  by_cases hbuf : b.buf = []
  · have hnull : b.replaceString mem s = .ok (.deny,b) := by
      rw [replaceString,hs.substring_eq]
      split_ifs with hrep
      · rfl
      · exact if_pos (Or.inl hbuf)
    exact ⟨_,hnull⟩
  · exact ⟨.ok,by rw [replaceString_eq hs hbuf,countLoop_block_none hb h0 hs hbuf hocc,ok_bind,if_pos rfl]⟩

section Contract
variable (hb : b.Wf) (h0 : 0 ∉ b.content) (hs : s.Passes sub rep) (hocc : splitFirst sub b.content ≠ none)
include hb h0 hs hocc

/-- The lengths of a call that is right. -/
theorem ReplacesAll.fits (h : ReplacesAll mem b s sub rep) :
    ReplaceFits mem b.len (replaceAll sub rep b.content).length := by
  have hlt := hb.len_lt
  obtain ⟨r,d,hcall,hres⟩ := h
  obtain ⟨hint,hlen⟩ := replaceString_inv hb h0 hs hocc (counted_eq hb sub rep) hcall
  -- The length that is set is the one of the result, or there is no memory for the count.
  have hcount : r = .ok → d.len = (replaceAll sub rep b.content).length := by
    intro hr
    rcases hres with ⟨hwf,hcont,_⟩ | ⟨_,hno,_⟩
    · rw [← hcont,content_length hwf]
    · exact absurd (hr.symm.trans hno) (by decide)
  unfold IsInt at hint hlen
  by_cases hsmall : b.len < 2^31
  · rw [cint_of_lt hsmall] at hint hlen
    exact Or.inl (by omega)
  · have hwrap : cint b.len = b.len-2^32 := by rw [cint,Nat.mod_eq_of_lt hlt,if_neg hsmall]
    rw [hwrap] at hint hlen
    rcases hlen with ⟨_,hr,_⟩ | ⟨_,_,⟨hm,_⟩ | ⟨_,hr,_⟩⟩
    · have := hcount hr
      omega
    · exact Or.inr ⟨hm,by omega⟩
    · have := hcount hr
      omega

/-- The calls with lengths that can be counted, and the ones that find no memory for a wrapped count. -/
theorem ReplaceFits.replaces (h : ReplaceFits mem b.len (replaceAll sub rep b.content).length) :
    ReplacesAll mem b s sub rep := by
  have hlt := hb.len_lt
  have htotal := counted_eq hb sub rep
  rcases h with ⟨hsmall,hfit⟩ | ⟨rfl,hlong,hfit⟩
  · cases mem with
    | true =>
      obtain ⟨d,hcall,hwf,hcont,hsize⟩ := replaceString_replaced hb h0 hs hocc hsmall (by omega)
      exact ⟨.ok,d,hcall,Or.inl ⟨hwf,hcont,fun _ => hsize⟩⟩
    | false =>
      have hn : ((replaceAll sub rep b.content).length : ℤ) = cint b.len+growth sub rep b.content := by
        rw [← htotal,cint_of_lt hsmall,sub_self,zero_add]
      by_cases hnil : replaceAll sub rep b.content = []
      · have hcall := replaceString_counted false hb h0 hs hocc hn (by unfold IsInt; omega)
        rw [if_pos (by rw [hnil]; decide)] at hcall
        exact ⟨.ok,b.clean,hcall,Or.inl ⟨clean_wf hb,by rw [clean_content,hnil],fun _ h => absurd hnil h⟩⟩
      · have hpos := List.length_pos_iff.mpr hnil
        have hcall := replaceString_nomem hb h0 hs hocc hn (by omega) (by unfold IsInt; omega)
        exact ⟨.nomem,b,hcall,Or.inr ⟨rfl,rfl,rfl⟩⟩
  · have hn : ((replaceAll sub rep b.content).length : ℤ)-2^32 = cint b.len+growth sub rep b.content := by
      rw [← htotal,cint,Nat.mod_eq_of_lt hlt,if_neg (not_lt.mpr hlong)]
      ring
    have hcall := replaceString_nomem hb h0 hs hocc hn (by omega) (by unfold IsInt; omega)
    exact ⟨.nomem,b,hcall,Or.inr ⟨rfl,rfl,rfl⟩⟩

end Contract

/-- `http2d_buffer_replace_string` replaces all occurrences exactly when the result can be counted. -/
theorem replacesAll_iff (hb : b.Wf) (h0 : 0 ∉ b.content) (hs : s.Passes sub rep) :
    ReplacesAll mem b s sub rep ↔
      ¬ sub <:+: b.content ∨ ReplaceFits mem b.len (replaceAll sub rep b.content).length := by
  rw [← splitFirst_eq_none_iff hs.ne]
  by_cases hocc : splitFirst sub b.content = none
  · obtain ⟨r,hr⟩ := replaceString_none mem hb h0 hs hocc
    refine iff_of_true ⟨r,b,hr,Or.inl ⟨hb,(replaceAll_none hocc).symm,fun h => ?_⟩⟩ (Or.inl hocc)
    exact absurd h ((splitFirst_eq_none_iff hs.ne).mp hocc)
  · rw [or_iff_right hocc]
    exact ⟨ReplacesAll.fits hb h0 hs hocc,ReplaceFits.replaces hb h0 hs hocc⟩

theorem replacesAll_iff_holding :
    ReplacesAll true (holding [97,97,97]) ⟨some [97,97],2,some [98],1⟩ [97,97] [98] ↔
      ¬ [97,97] <:+: (holding [97,97,97]).content ∨ ReplaceFits true (holding [97,97,97]).len
        (replaceAll [97,97] [98] (holding [97,97,97]).content).length :=
  replacesAll_iff (holding_wf (by decide)) (by decide) ⟨rfl,by decide,rfl,by decide,by decide,by decide⟩

/-- A string whose length is negative as an `int` is emptied. -/
theorem not_replacesAll_of_long (hb : b.Wf) (h0 : 0 ∉ b.content) (hs : s.Passes sub rep)
    (hocc : sub <:+: b.content) (heq : rep.length = sub.length) (hlen : 2^31 ≤ b.len) :
    ¬ ReplacesAll mem b s sub rep := by
  have hlt := hb.len_lt
  have hcl := content_length hb
  have hcut : splitFirst sub b.content ≠ none := fun h => (splitFirst_eq_none_iff hs.ne).mp h hocc
  obtain ⟨k,hk⟩ := replaceAll_length rep hs.ne b.content
  rw [heq,sub_self,mul_zero,add_zero] at hk
  have htotal : (b.len : ℤ)-2^32 = cint b.len+growth sub rep b.content := by
    rw [growth,hk,sub_self,cint,Nat.mod_eq_of_lt hlt,if_neg (not_lt.mpr hlen),add_zero]
  have hcall := replaceString_counted mem hb h0 hs hcut htotal (by unfold IsInt; omega)
  rw [if_pos (by omega)] at hcall
  rintro ⟨r,d,h,hres⟩
  rw [hcall] at h
  cases h
  rcases hres with ⟨_,hcont,_⟩ | ⟨_,hr,_⟩
  · rw [← hcont,clean_content,List.length_nil] at hk
    omega
  · cases hr

/-- The letter that a string of 2^31 of them consists of is replaced. -/
theorem not_replacesAll_wrapped : ¬ ReplacesAll true (holding (List.replicate (2^31) 97))
    ⟨some [97],1,some [98],1⟩ [97] [98] := by
  have hmem : (97 : UInt8) ∈ List.replicate (2^31) 97 := List.mem_replicate.mpr ⟨by decide,rfl⟩
  obtain ⟨pre,post,hsplit⟩ := List.append_of_mem hmem
  refine not_replacesAll_of_long (holding_wf ?_) ?_
    ⟨rfl,by decide,rfl,by decide,by decide,by decide⟩ ?_ rfl ?_
  · rw [List.length_replicate]
    omega
  · rw [content_holding]
    exact fun h => absurd (List.eq_of_mem_replicate h) (by decide)
  · rw [content_holding]
    exact ⟨pre,post,by rw [hsplit,List.append_assoc]; rfl⟩
  · exact (List.length_replicate ..).ge

end Buffer

end Http2d
