import Http2d.StringReplace

/-! `http2d_buffer_substitute_string`: the replacement into another buffer.
The other buffer is emptied before it is known whether there is anything to replace. -/
namespace Http2d

open Bytes Occurrences

namespace Buffer

/-- `http2d_buffer_substitute_string`; what `http2d_buffer_ensure_size` returns is not looked at. -/
def substituteString (mem : Bool) (src dst : Buffer) (s : Substitution) : Exec (Ret × Buffer) :=
  match s.substring, s.replacement with
  | some sub, some rep =>
    let subLen := s.substringLength.toInt
    let repLen := s.replacementLength.toInt
    if src.buf = [] ∨ dst.buf = [] ∨ subLen < 1 ∨ repLen < 0 then .ok (.deny,dst)
    else do
      let dst := dst.clean
      let r ← countLoop src.buf sub subLen repLen (src.len+1) 0 (cint src.len)
      if r.1 = 0 then .ok (.notFound,dst)
      else if r.2 < 1 then .ok (.ok,dst)
      else do
        let size ← intValue (r.2+2)
        let dst := (dst.ensure mem (sizeT size)).2
        let res ← buildLoop (fun p => .ok (sizeT (cint (cuint ((src.len : ℤ)-p))))) (fun n => cint n)
          src.buf sub rep subLen repLen (src.len+1) 0 dst.buf 0
        let blk ← putAt res.1 res.2 [0]
        .ok (.ok,⟨blk,dst.size,cuint r.2⟩)
  | _, _ => .ok (.deny,dst)

variable {mem : Bool} {src dst : Buffer} {s : Substitution} {sub rep : List UInt8}

/-- The request for the result and two bytes more is refused. -/
def MemoryMissing (mem : Bool) (dst : Buffer) (result : List UInt8) : Prop :=
  mem = false ∧ result ≠ [] ∧ dst.size < result.length+2

/-- The documented contract: the other buffer is written when the substring is found, with the string
that `http2d_buffer_replace_string` makes; else nothing is done. When memory is missing, that is an error. -/
def SubstitutesAll (mem : Bool) (src dst : Buffer) (s : Substitution) (sub rep : List UInt8) : Prop :=
  ∃ r d, src.substituteString mem dst s = .ok (r,d) ∧
    (¬ sub <:+: src.content → r = .notFound ∧ d = dst) ∧
    (sub <:+: src.content → MemoryMissing mem dst (replaceAll sub rep src.content) → r.code < Ret.ok.code) ∧
    (sub <:+: src.content → ¬ MemoryMissing mem dst (replaceAll sub rep src.content) →
      r = .ok ∧ d.Wf ∧ d.content = replaceAll sub rep src.content ∧
        ∃ e, src.replaceString true s = .ok (.ok,e) ∧ e.content = d.content)

/-- The condition: without the substring the other buffer is an empty one with storage; memory that is
missing is not missed when the other buffer is refused, as it has no storage; else it has storage, and
the result is counted with two bytes more. -/
def SubstituteFits (mem : Bool) (src dst : Buffer) (sub rep : List UInt8) : Prop :=
  (¬ sub <:+: src.content → src.buf ≠ [] ∧ dst.buf ≠ [] ∧ dst.len = 0) ∧
  (sub <:+: src.content → MemoryMissing mem dst (replaceAll sub rep src.content) → dst.buf = []) ∧
  (sub <:+: src.content → ¬ MemoryMissing mem dst (replaceAll sub rep src.content) →
    dst.buf ≠ [] ∧ src.len < 2^31 ∧
      (replaceAll sub rep src.content = [] ∨ (replaceAll sub rep src.content).length+2 < 2^31))

/-- The call on buffers with blocks. -/
theorem substituteString_eq (hs : s.Passes sub rep) (hrep : s.replacement = some rep) (hsrc : src.buf ≠ [])
    (hdst : dst.buf ≠ []) : src.substituteString mem dst s = (do
    let r ← countLoop src.buf sub sub.length rep.length (src.len+1) 0 (cint src.len)
    if r.1 = 0 then .ok (.notFound,dst.clean)
    else if r.2 < 1 then .ok (.ok,dst.clean)
    else do
      let size ← intValue (r.2+2)
      let dst := (dst.clean.ensure mem (sizeT size)).2
      let res ← buildLoop (fun p => .ok (sizeT (cint (cuint ((src.len : ℤ)-p))))) (fun n => cint n)
        src.buf sub rep sub.length rep.length (src.len+1) 0 dst.buf 0
      let blk ← putAt res.1 res.2 [0]
      .ok (.ok,⟨blk,dst.size,cuint r.2⟩)) := by
  have hpos := List.length_pos_iff.mpr hs.ne
  rw [substituteString,hs.substring_eq,hrep]
  simp only
  rw [hs.substringLength_eq,hs.replacementLength_eq,
    if_neg (not_or.mpr ⟨hsrc,not_or.mpr ⟨hdst,by omega⟩⟩)]

variable (mem) in
/-- Nothing is found; the other buffer is empty then. -/
theorem substituteString_none (hb : src.Wf) (h0 : 0 ∉ src.content) (hs : s.Passes sub rep)
    (hrep : s.replacement = some rep) (hsrc : src.buf ≠ []) (hdst : dst.buf ≠ [])
    (hocc : splitFirst sub src.content = none) :
    src.substituteString mem dst s = .ok (.notFound,dst.clean) := by
  rw [substituteString_eq hs hrep hsrc hdst,countLoop_block_none hb h0 hs hsrc hocc,ok_bind,if_pos rfl]

section Found
variable (hb : src.Wf) (h0 : 0 ∉ src.content) (hs : s.Passes sub rep) (hrep : s.replacement = some rep)
  (hdst : dst.buf ≠ []) (hocc : splitFirst sub src.content ≠ none) {n : ℤ}
  (hn : n = cint src.len+growth sub rep src.content)
include hb h0 hs hrep hdst hocc hn

variable (mem) in
/-- What the first pass leads to, when the length of the result can be counted. -/
theorem substituteString_counted (hint : IsInt n) : src.substituteString mem dst s =
    if n < 1 then .ok (.ok,dst.clean)
    else (do
      let size ← intValue (n+2)
      let dst := (dst.clean.ensure mem (sizeT size)).2
      let res ← buildLoop (fun p => .ok (sizeT (cint (cuint ((src.len : ℤ)-p))))) (fun n => cint n)
        src.buf sub rep sub.length rep.length (src.len+1) 0 dst.buf 0
      let blk ← putAt res.1 res.2 [0]
      .ok (.ok,⟨blk,dst.size,cuint n⟩)) := by
  have hsrc := block_of_occurrence hocc
  obtain ⟨q,hq,hq0⟩ := (countLoop_block hb h0 hs hsrc hn).1 hint
  rw [substituteString_eq hs hrep hsrc hdst,hq,ok_bind,if_neg (fun h => hocc (hq0.mp h))]

/-- A call that returns has counted the length that it sets, and the memory for it. -/
theorem substituteString_inv {r : Ret} {d : Buffer} (h : src.substituteString mem dst s = .ok (r,d)) :
    r = .ok ∧ d.len = n.toNat ∧ IsInt n ∧ (n < 1 ∨ IsInt (n+2)) := by
  have hsrc := block_of_occurrence hocc
  have hint : IsInt n := by
    by_contra hno
    rw [substituteString_eq hs hrep hsrc hdst,(countLoop_block hb h0 hs hsrc hn).2 hno] at h
    cases h
  rw [substituteString_counted _ hb h0 hs hrep hdst hocc hn hint] at h
  split_ifs at h with h1
  · cases h
    exact ⟨rfl,by rw [clean_len]; omega,hint,Or.inl h1⟩
  · obtain ⟨size,hsize,h⟩ := bind_ok_inv h
    obtain ⟨res,_,h⟩ := bind_ok_inv h
    obtain ⟨blk,_,h⟩ := bind_ok_inv h
    cases h
    have hnext : IsInt (n+2) := by
      by_contra hno
      rw [intValue_not hno] at hsize
      cases hsize
    refine ⟨rfl,?_,hint,Or.inr hnext⟩
    unfold IsInt at hint
    simp only [cuint]
    omega

end Found

/-- The result in the other buffer, when there is memory for it. -/
theorem substituteString_built (hb : src.Wf) (hd : dst.Wf) (h0 : 0 ∉ src.content) (hs : s.Passes sub rep)
    (hrep : s.replacement = some rep) (hdst : dst.buf ≠ []) (hlen : src.len < 2^31)
    (hocc : splitFirst sub src.content ≠ none) (hpos : 1 ≤ (replaceAll sub rep src.content).length)
    (hfit : (replaceAll sub rep src.content).length+2 < 2^31)
    (hmem : mem = true ∨ (replaceAll sub rep src.content).length+2 ≤ dst.size) :
    ∃ d, src.substituteString mem dst s = .ok (.ok,d) ∧ d.Wf ∧
      d.content = replaceAll sub rep src.content := by
  have hsrc := block_of_occurrence hocc
  obtain ⟨rest,hblk⟩ := hb.block hsrc
  have hcl := content_length hb
  obtain ⟨R,hR⟩ : ∃ R, R = (replaceAll sub rep src.content).length := ⟨_,rfl⟩
  have htotal : (R : ℤ) = cint src.len+growth sub rep src.content := by
    rw [cint_of_lt hlen,growth,hcl,hR]
    ring
  have hwant : sizeT ((R : ℤ)+2) = R+2 := sizeT_natCast (n:=R+2) (by omega)
  have hcall := substituteString_counted mem hb h0 hs hrep hdst hocc htotal (by unfold IsInt; omega)
  rw [if_neg (by omega),intValue_eq (by unfold IsInt; omega),ok_bind,hwant,cuint_natCast (by omega)] at hcall
  have hclean := clean_wf hd
  have hne : dst.clean.buf ≠ [] := by simpa [clean] using hdst
  have hgwf := ensure_wf mem hclean hne (n:=R+2) (by omega)
  obtain ⟨hgl,_⟩ := ensure_block mem hclean (R+2)
  have hroom : R+2 ≤ ensuredSize mem dst.clean (R+2) := by
    rcases hmem with rfl | hkeep
    · rw [ensuredSize_granted (by omega)]
      exact le_max_right _ _
    · rw [ensuredSize,if_pos (Or.inl (by rw [hR]; exact hkeep)),hR]
      exact hkeep
  obtain ⟨g,hg⟩ : ∃ g, g = (dst.clean.ensure mem (R+2)).2 := ⟨_,rfl⟩
  rw [← hg] at hcall hgl hgwf
  have hrem (q : ℕ) (t : List UInt8) (hq : src.buf.drop q = t ++ 0::rest)
      (hle : q+t.length = src.content.length) (ht : 0 ∉ t) :
      (Except.ok (sizeT (cint (cuint ((src.len : ℤ)-q)))) : Exec ℕ) = .ok t.length := by
    have hleft : cuint ((src.len : ℤ)-q) = t.length := by
      rw [cuint_sub (by omega) (by omega)]
      omega
    rw [hleft,cint_of_lt (by omega),sizeT_natCast (by omega)]
  obtain ⟨out,blk,hrun,hput,hl,htake,hend⟩ := build_terminated rep (fun n => cint n)
    hs.ne hs.nul (src.len+1) g.buf h0 hblk (by omega) (fun n hn => cint_of_lt (by omega)) hrem (by omega)
  simp only at hcall
  rw [hrun,ok_bind,hput,ok_bind] at hcall
  rw [← hR] at htake hend
  refine ⟨_,hcall,⟨by rw [hgwf.size_eq,hl],hgwf.size_lt,Or.inr ⟨by simp only; omega,hend⟩⟩,htake⟩

theorem clean_eq_iff (hd : dst.Wf) (hdst : dst.buf ≠ []) : dst.clean = dst ↔ dst.len = 0 := by
  refine ⟨fun h => by rw [← h]; rfl,fun h => ?_⟩
  obtain ⟨rest,hblk⟩ := hd.block hdst
  rw [content_nil h,List.nil_append] at hblk
  obtain ⟨buf,size,len⟩ := dst
  simp only at h hblk
  rw [clean,hblk,h]
  rfl

/-- A buffer without storage is refused. -/
theorem substituteString_deny (hs : s.Passes sub rep) (hrep : s.replacement = some rep)
    (hnull : src.buf = [] ∨ dst.buf = []) : src.substituteString mem dst s = .ok (.deny,dst) := by
  rw [substituteString,hs.substring_eq,hrep]
  exact if_pos (by tauto)

section Contract
variable (hb : src.Wf) (hd : dst.Wf) (h0 : 0 ∉ src.content) (hs : s.Passes sub rep)
  (hrep : s.replacement = some rep)
include hb hd h0 hs hrep

/-- Without the substring: only an empty buffer is left as it was. -/
theorem substitutesAll_absent (hocc : ¬ sub <:+: src.content) :
    SubstitutesAll mem src dst s sub rep ↔ src.buf ≠ [] ∧ dst.buf ≠ [] ∧ dst.len = 0 := by
  have hcut := (splitFirst_eq_none_iff (s:=src.content) hs.ne).mpr hocc
  constructor
  · rintro ⟨r,d,hcall,hnone,_⟩
    obtain ⟨rfl,rfl⟩ := hnone hocc
    have hblocks : src.buf ≠ [] ∧ d.buf ≠ [] := by
      refine not_or.mp fun hnull => ?_
      rw [substituteString_deny hs hrep hnull] at hcall
      cases hcall
    refine ⟨hblocks.1,hblocks.2,(clean_eq_iff hd hblocks.2).mp ?_⟩
    rw [substituteString_none _ hb h0 hs hrep hblocks.1 hblocks.2 hcut] at hcall
    exact congrArg Prod.snd (Except.ok.inj hcall)
  · rintro ⟨hsrc,hdst,hlen⟩
    have hcall := substituteString_none mem hb h0 hs hrep hsrc hdst hcut
    rw [(clean_eq_iff hd hdst).mpr hlen] at hcall
    exact ⟨_,_,hcall,fun _ => ⟨rfl,rfl⟩,fun h => absurd h hocc,fun h => absurd h hocc⟩

variable (hdst : dst.buf ≠ []) (hocc : sub <:+: src.content)
include hdst hocc

omit hd in
/-- With the substring and the memory: the lengths that can be counted. -/
theorem SubstitutesAll.counts (hmem : ¬ MemoryMissing mem dst (replaceAll sub rep src.content))
    (h : SubstitutesAll mem src dst s sub rep) : src.len < 2^31 ∧
      (replaceAll sub rep src.content = [] ∨ (replaceAll sub rep src.content).length+2 < 2^31) := by
  have hsome : splitFirst sub src.content ≠ none := fun h => (splitFirst_eq_none_iff hs.ne).mp h hocc
  have hlt := hb.len_lt
  obtain ⟨r,d,hcall,_,_,hright⟩ := h
  obtain ⟨_,hwf,hcont,_⟩ := hright hocc hmem
  obtain ⟨_,hlen,hint,hnext⟩ := substituteString_inv hb h0 hs hrep hdst hsome (counted_eq hb sub rep) hcall
  have hdl := content_length hwf
  rw [hcont] at hdl
  have hsmall : src.len < 2^31 := by
    by_contra hlong
    rw [cint,Nat.mod_eq_of_lt hlt,if_neg hlong] at hint hlen
    unfold IsInt at hint
    omega
  rw [cint_of_lt hsmall] at hnext
  rw [← List.length_eq_zero_iff]
  unfold IsInt at hnext
  omega

/-- The call writes the result, when its length can be counted and there is memory. -/
theorem substituteString_result (hmem : ¬ MemoryMissing mem dst (replaceAll sub rep src.content))
    (hsmall : src.len < 2^31)
    (hcount : replaceAll sub rep src.content = [] ∨ (replaceAll sub rep src.content).length+2 < 2^31) :
    ∃ d, src.substituteString mem dst s = .ok (.ok,d) ∧ d.Wf ∧
      d.content = replaceAll sub rep src.content := by
  have hsome : splitFirst sub src.content ≠ none := fun h => (splitFirst_eq_none_iff hs.ne).mp h hocc
  by_cases hnil : replaceAll sub rep src.content = []
  · have hn : (0 : ℤ) = cint src.len+growth sub rep src.content := by
      rw [← counted_eq hb sub rep,cint_of_lt hsmall,hnil]
      simp
    have hcall := substituteString_counted mem hb h0 hs hrep hdst hsome hn (by unfold IsInt; omega)
    rw [if_pos (by decide)] at hcall
    exact ⟨_,hcall,clean_wf hd,by rw [clean_content,hnil]⟩
  · have hroom : mem = true ∨ (replaceAll sub rep src.content).length+2 ≤ dst.size := by
      by_contra hno
      obtain ⟨hm,hsize⟩ := not_or.mp hno
      exact hmem ⟨by simpa using hm,hnil,not_le.mp hsize⟩
    exact substituteString_built hb hd h0 hs hrep hdst hsmall hsome (List.length_pos_iff.mpr hnil)
      (hcount.resolve_left hnil) hroom

end Contract

/-- The contract holds exactly when the buffers have storage and memory and the result can be counted;
the other buffer of a string without the substring is to be empty. -/
theorem substitutesAll_iff (hb : src.Wf) (hd : dst.Wf) (h0 : 0 ∉ src.content) (hs : s.Passes sub rep)
    (hrep : s.replacement = some rep) :
    SubstitutesAll mem src dst s sub rep ↔ SubstituteFits mem src dst sub rep := by
  by_cases hocc : sub <:+: src.content
  swap
  · rw [substitutesAll_absent hb hd h0 hs hrep hocc]
    exact ⟨fun h => ⟨fun _ => h,fun h => absurd h hocc,fun h => absurd h hocc⟩,fun h => h.1 hocc⟩
  have hsome : splitFirst sub src.content ≠ none := fun h => (splitFirst_eq_none_iff hs.ne).mp h hocc
  by_cases hdst : dst.buf = [] <;> by_cases hmissing : MemoryMissing mem dst (replaceAll sub rep src.content)
  · -- The refusal is an error as well.
    refine iff_of_true ⟨_,_,substituteString_deny hs hrep (Or.inr hdst),fun h => absurd hocc h,
      fun _ _ => by decide,fun _ h => absurd hmissing h⟩ ?_
    exact ⟨fun h => absurd hocc h,fun _ _ => hdst,fun _ h => absurd hmissing h⟩
  · refine iff_of_false ?_ fun h => (h.2.2 hocc hmissing).1 hdst
    rintro ⟨r,d,hcall,_,_,hright⟩
    rw [substituteString_deny hs hrep (Or.inr hdst)] at hcall
    cases hcall
    cases (hright hocc hmissing).1
  · refine iff_of_false ?_ fun h => hdst (h.2.1 hocc hmissing)
    rintro ⟨r,d,hcall,_,herror,_⟩
    rw [(substituteString_inv hb h0 hs hrep hdst hsome rfl hcall).1] at herror
    exact absurd (herror hocc hmissing) (by decide)
  · constructor
    · exact fun h => ⟨fun h => absurd hocc h,fun _ h => absurd h hmissing,fun _ _ =>
        ⟨hdst,h.counts hb h0 hs hrep hdst hocc hmissing⟩⟩
    · rintro ⟨_,_,hfits⟩
      obtain ⟨_,hsmall,hcount⟩ := hfits hocc hmissing
      obtain ⟨d,hcall,hwf,hcont⟩ :=
        substituteString_result hb hd h0 hs hrep hdst hocc hmissing hsmall hcount
      have hcount' : (replaceAll sub rep src.content).length+1 < 2^31 := by
        rw [← List.length_eq_zero_iff] at hcount
        omega
      obtain ⟨e,he,_,hcont',_⟩ := replaceString_replaced hb h0 hs hsome hsmall hcount'
      exact ⟨_,d,hcall,fun h => absurd hocc h,fun _ h => absurd h hmissing,fun _ _ =>
        ⟨rfl,hwf,hcont,e,he,by rw [hcont',hcont]⟩⟩

theorem substitutesAll_iff_holding :
    SubstitutesAll true (holding [97,97,97]) (holding [99]) ⟨some [97,97],2,some [98],1⟩ [97,97] [98] ↔
      SubstituteFits true (holding [97,97,97]) (holding [99]) [97,97] [98] :=
  substitutesAll_iff (holding_wf (by decide)) (holding_wf (by decide)) (by decide)
    ⟨rfl,by decide,rfl,by decide,by decide,by decide⟩ rfl

/-- The other buffer is emptied although the substring is not found. -/
theorem not_substitutesAll_missing :
    ¬ SubstitutesAll true (holding [97]) (holding [99]) ⟨some [98],1,some [],0⟩ [98] [] := by
  rintro ⟨r,d,hcall,hnone,_⟩
  obtain ⟨rfl,rfl⟩ := hnone (by decide)
  have hrun : (holding [97]).substituteString true (holding [99]) ⟨some [98],1,some [],0⟩ =
      .ok (.notFound,(holding [99]).clean) := by rfl
  rw [hrun] at hcall
  exact absurd hcall (by decide)

end Buffer

end Http2d
