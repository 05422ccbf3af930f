import Http2d.Buffer

/-! The header of a request: five buffers that the pseudo-headers of a SPDY frame set. -/
namespace Http2d

open Bytes

/-- The fields of `http2d_header_t`. -/
inductive HeaderField
  | path | method | scheme | version | host
  deriving DecidableEq, Repr

/-- The string literal that `http2d_header_add_header` compares a key with. -/
def HeaderField.name : HeaderField → List UInt8
  | .path => [112,97,116,104]
  | .method => [109,101,116,104,111,100]
  | .scheme => [115,99,104,101,109,101]
  | .version => [118,101,114,115,105,111,110]
  | .host => [104,111,115,116]

/-- The fields in the order in which a key is compared with them. -/
def HeaderField.all : List HeaderField := [.path,.method,.scheme,.version,.host]

/-- `http2d_header_t`. -/
abbrev Header := HeaderField → Buffer

/-- `http2d_header_init`. -/
def Header.init : Header := fun _ => Buffer.init

def Header.Wf (hdr : Header) : Prop := ∀ f, (hdr f).Wf

theorem Header.init_wf : Header.init.Wf := fun _ => Buffer.init_wf

/-- `tolower` for ASCII letters. -/
def toLower (b : UInt8) : UInt8 := if 65 ≤ b ∧ b ≤ 90 then b+32 else b

theorem toLower_colon {c : UInt8} (h : toLower c = 58) : c = 58 := by
  unfold toLower at h
  split_ifs at h with hc
  · simp only [UInt8.le_iff_toNat_le,← UInt8.toNat_inj,UInt8.toNat_add] at hc h
    simp at hc h
    omega
  · exact h

/-- `strncasecmp` of the bytes at `off` with a whole literal: it stops at the first difference. -/
def strncasecmpEq (obj : List UInt8) (off : ℤ) : List UInt8 → Exec Bool
  | [] => .ok true
  | c::cs => do
    let b ← peekByte obj off
    if toLower b ≠ toLower c then .ok false else strncasecmpEq obj (off+1) cs

/-- `SPDY_CMP`: the key without its colon is the literal; the length is compared as a `size_t`. -/
def spdyCmp (obj : List UInt8) (key keyLen : ℤ) (str : List UInt8) : Exec Bool :=
  if sizeT (keyLen-1) = str.length then strncasecmpEq obj (key+1) str else .ok false

/-- The chain of `SPDY_CMP` tests. -/
def findField (obj : List UInt8) (key keyLen : ℤ) : List HeaderField → Exec (Option HeaderField)
  | [] => .ok none
  | f::fs => do
    let eq ← spdyCmp obj key keyLen f.name
    if eq then .ok (some f) else findField obj key keyLen fs

/-- `http2d_header_add_header`, with the key and the value given by their place in `obj`. -/
def headerAddHeader (obj : List UInt8) (hdr : Header) (key keyLen val valLen : ℤ) :
    Exec (Ret × Header) := do
  let c ← peekByte obj key
  if c = 58 then
    match ← findField obj key keyLen HeaderField.all with
    | some f => do
      let (_,b) ← (hdr f).clean.add obj val (sizeT valLen)
      .ok (.ok,Function.update hdr f b)
    | none => .ok (.ok,hdr)
  else .ok (.ok,hdr)

/-- The name of a pseudo-header: a colon and the name of a field in any case. -/
def IsPseudo (name : List UInt8) (f : HeaderField) : Prop := name.map toLower = 58::f.name

theorem headerAddHeader_ret {obj : List UInt8} {hdr hdr' : Header} {key keyLen val valLen : ℤ}
    {ret : Ret} (h : headerAddHeader obj hdr key keyLen val valLen = .ok (ret,hdr')) : ret = .ok := by
  obtain ⟨c,_,h⟩ := bind_ok_inv h
  split_ifs at h
  · obtain ⟨o,_,h⟩ := bind_ok_inv h
    cases o with
    | none => exact (Prod.mk.inj (Except.ok.inj h)).1.symm
    | some f =>
      obtain ⟨b,_,h⟩ := bind_ok_inv h
      exact (Prod.mk.inj (Except.ok.inj h)).1.symm
  · exact (Prod.mk.inj (Except.ok.inj h)).1.symm

/-- Inside the object the comparison decides equality up to case. -/
theorem strncasecmpEq_spec (obj : List UInt8) (off : ℕ) (str : List UInt8)
    (h : off+str.length ≤ obj.length) :
    strncasecmpEq obj off str =
      .ok (decide ((slice obj off str.length).map toLower = str.map toLower)) := by
  induction str generalizing off with
  | nil => simp [strncasecmpEq,slice]
  | cons c cs ih =>
    simp only [List.length_cons] at h
    have hlt : off < obj.length := by omega
    have hsl : slice obj off (cs.length+1) = obj.getD off 0::slice obj (off+1) cs.length := by
      simp only [slice,List.drop_eq_getElem_cons hlt,List.take_succ_cons]
      simp [hlt]
    rw [strncasecmpEq,peekByte_ok _ _ hlt,ok_bind,List.length_cons,hsl]
    generalize obj.getD off 0 = b
    simp only [List.map_cons,List.cons.injEq]
    by_cases hc : toLower b = toLower c
    · have := ih (off+1) (by omega)
      rw [if_neg (not_not.mpr hc)]
      push_cast at this
      simp only [this,hc,true_and]
    · rw [if_pos hc]
      simp only [hc,false_and,decide_false]

theorem slice_tail (bs : List UInt8) (off n : ℕ) : (slice bs off n).tail = slice bs (off+1) (n-1) := by
  simp [slice,← List.drop_one,List.drop_take]

/-- Inside the object a key is compared without its first byte. -/
theorem spdyCmp_spec {obj : List UInt8} {key keyLen : ℕ} {str : List UInt8}
    (h : key+keyLen ≤ obj.length) (hkey : keyLen < 2^31) (hpos : 0 < str.length)
    (hstr : str.length < 2^31) :
    spdyCmp obj key keyLen str =
      .ok (decide ((slice obj key keyLen).tail.map toLower = str.map toLower)) := by
  have hl : (slice obj key keyLen).length = keyLen := slice_length h
  have hcond : sizeT ((keyLen : ℤ)-1) = str.length ↔ keyLen = str.length+1 := by
    simp only [sizeT]; omega
  unfold spdyCmp
  rw [slice_tail]
  by_cases hlen : keyLen = str.length+1
  · rw [if_pos (hcond.mpr hlen)]
    have := strncasecmpEq_spec obj (key+1) str (by omega)
    push_cast at this
    rw [this,hlen,Nat.add_sub_cancel]
  · rw [if_neg fun hc => hlen (hcond.mp hc)]
    have hne : (slice obj (key+1) (keyLen-1)).map toLower ≠ str.map toLower := by
      intro heq
      have := congrArg List.length heq
      rw [← slice_tail] at this
      simp only [List.length_map,List.length_tail,hl] at this
      omega
    rw [decide_eq_false hne]

theorem HeaderField.name_length (f : HeaderField) : 0 < f.name.length ∧ f.name.length < 8 := by
  cases f <;> decide

theorem findField_spec {obj : List UInt8} {key keyLen : ℕ} (h : key+keyLen ≤ obj.length)
    (hkey : keyLen < 2^31) (fs : List HeaderField) :
    findField obj key keyLen fs = .ok (fs.find? fun f =>
      (slice obj key keyLen).tail.map toLower = f.name.map toLower) := by
  induction fs with
  | nil => rfl
  | cons f fs ih =>
    have hf := f.name_length
    rw [findField,spdyCmp_spec h hkey hf.1 (by omega),ok_bind,List.find?_cons,ih]
    by_cases heq : (slice obj key keyLen).tail.map toLower = f.name.map toLower
    · simp only [heq,decide_true,if_true]
    · simp only [heq,decide_false,Bool.false_eq_true,if_false]

/-- A pseudo-header is found under its own field. -/
theorem find_pseudo {name : List UInt8} {f : HeaderField} (h : IsPseudo name f) :
    (HeaderField.all.find? fun g => name.tail.map toLower = g.name.map toLower) = some f := by
  have htail : name.tail.map toLower = f.name := by
    have := congrArg List.tail h
    rwa [← List.map_tail] at this
  rw [htail]
  cases f <;> decide

/-- A key and a value inside the object are read without leaving it, and the fields stay well
formed. -/
theorem headerAddHeader_returns (obj : List UInt8) {hdr : Header} (key keyLen val valLen : ℕ)
    (hhdr : hdr.Wf) (hkey : key+keyLen ≤ obj.length) (hk : key < obj.length) (hkl : keyLen < 2^31)
    (hval : val+valLen ≤ obj.length) (hvl : valLen < 2^31) :
    ∃ hdr', headerAddHeader obj hdr key keyLen val valLen = .ok (.ok,hdr') ∧ hdr'.Wf := by
  unfold headerAddHeader
  rw [peekByte_ok _ _ hk,ok_bind,findField_spec hkey hkl,ok_bind]
  split_ifs
  · split
    · next f _ =>
      obtain ⟨b,hb,hwf,_⟩ := Buffer.add_spec (Buffer.clean_wf (hhdr f)) hval
        (by simp only [Buffer.clean_len]; omega) (by omega)
      have hsz : sizeT (valLen : ℤ) = valLen := sizeT_natCast (by omega)
      rw [hsz,hb]
      refine ⟨_,rfl,fun g => ?_⟩
      by_cases hg : g = f
      · subst hg
        simpa using hwf
      · simpa [hg] using hhdr g
    · exact ⟨hdr,rfl,hhdr⟩
  · exact ⟨hdr,rfl,hhdr⟩

/-- A pseudo-header sets its field to the value. -/
theorem headerAddHeader_pseudo (obj : List UInt8) {hdr : Header} (key keyLen val valLen : ℕ)
    {f : HeaderField} (hhdr : hdr.Wf) (hkey : key+keyLen ≤ obj.length) (hkl : keyLen < 2^31)
    (hval : val+valLen ≤ obj.length) (hvl : valLen < 2^31)
    (hname : IsPseudo (slice obj key keyLen) f) :
    ∃ hdr', headerAddHeader obj hdr key keyLen val valLen = .ok (.ok,hdr') ∧ hdr'.Wf ∧
      (hdr' f).content = slice obj val valLen ∧ ∀ g, g ≠ f → hdr' g = hdr g := by
  have hl : (slice obj key keyLen).length = keyLen := slice_length hkey
  have hcons : ∃ c cs, slice obj key keyLen = c::cs ∧ toLower c = 58 := by
    cases hs : slice obj key keyLen with
    | nil =>
      rw [hs] at hname
      cases hname
    | cons c cs =>
      rw [hs] at hname
      exact ⟨c,cs,rfl,(List.cons.inj hname).1⟩
  obtain ⟨c,cs,hs,hc⟩ := hcons
  have hk : key < obj.length := by
    have : 0 < keyLen := by rw [← hl,hs]; simp
    omega
  have hhead : obj.getD key 0 = 58 := by
    have hget : (slice obj key keyLen)[0]? = some (obj.getD key 0) := by
      rw [slice,List.getElem?_take_of_lt (by rw [← hl,hs]; simp),List.getElem?_drop]
      simp [hk]
    rw [hs] at hget
    have hb : c = obj.getD key 0 := by simpa using hget
    rw [← hb,toLower_colon hc]
  unfold headerAddHeader
  rw [peekByte_ok _ _ hk,ok_bind,findField_spec hkey hkl,find_pseudo hname,if_pos hhead]
  obtain ⟨b,hb,hwf,hcont,_⟩ := Buffer.add_spec (Buffer.clean_wf (hhdr f)) hval
    (by simp only [Buffer.clean_len]; omega) (by omega)
  have hsz : sizeT (valLen : ℤ) = valLen := sizeT_natCast (by omega)
  simp only [ok_bind]
  rw [hsz,hb]
  refine ⟨_,rfl,fun g => ?_,by simp [hcont],fun g hg => by simp [hg]⟩
  by_cases hg : g = f
  · subst hg
    simpa using hwf
  · simpa [hg] using hhdr g

end Http2d
