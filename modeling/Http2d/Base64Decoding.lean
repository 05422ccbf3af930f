import Http2d.Base64

/-! The Base64 decoder on arbitrary bytes.
What is not in the alphabet is skipped, and the block is overwritten only where it was read. -/
namespace Http2d

open Bytes

section Reference

/-- The value of a character of the alphabet. -/
def base64Value (c : UInt8) : Option ℕ := (List.range 64).find? fun n => base64tab n = c

/-- Three bytes for four values; two or three values at the end give one or two bytes. -/
def sextetBytes : List ℕ → List UInt8
  | a::b::c::d::s =>
    UInt8.ofNat (a*4+b/16)::UInt8.ofNat (b%16*16+c/4)::UInt8.ofNat (c%4*64+d)::sextetBytes s
  | [a,b,c] => [UInt8.ofNat (a*4+b/16),UInt8.ofNat (b%16*16+c/4)]
  | [a,b] => [UInt8.ofNat (a*4+b/16)]
  | _ => []

/-- The decoding of the characters that are in the alphabet. -/
def base64Decoded (s : List UInt8) : List UInt8 := sextetBytes (s.filterMap base64Value)

theorem base64Value_lt {c : UInt8} {n : ℕ} (h : base64Value c = some n) : n < 64 :=
  List.mem_range.mp (List.mem_of_find?_eq_some h)

/-- What the table of the decoder gives is where the character stands in the alphabet. -/
theorem base64tab_of_decode {c : UInt8} {n : ℕ} (h : b64DecodeTab c = .ok (some n)) :
    n < 64 ∧ base64tab n = c := by
  have hback {m k : ℕ} (heq : m+k = c.toNat) : UInt8.ofNat (m+k) = c := by
    rw [heq,UInt8.ofNat_toNat]
  rw [b64DecodeTab] at h
  split_ifs at h with _ hupper hlower hdigit hplus hslash <;> cases h
  · refine ⟨by omega,?_⟩
    rw [base64tab,if_pos (by omega)]
    exact hback (by omega)
  · refine ⟨by omega,?_⟩
    rw [base64tab,if_neg (by omega),if_pos (by omega)]
    exact hback (by omega)
  · refine ⟨by omega,?_⟩
    rw [base64tab,if_neg (by omega),if_neg (by omega),if_pos (by omega)]
    exact hback (by omega)
  · exact ⟨by decide,(UInt8.toNat_inj.mp hplus).symm⟩
  · exact ⟨by decide,(UInt8.toNat_inj.mp hslash).symm⟩

/-- The table of the decoder is the inverse of the one of the encoder. -/
theorem b64DecodeTab_eq {c : UInt8} (h : c.toNat < 128) : b64DecodeTab c = .ok (base64Value c) := by
  cases hv : base64Value c with
  | some n =>
    have hn : base64tab n = c := by simpa using List.find?_some hv
    rw [← hn,base64tab_spec n (base64Value_lt hv)]
  | none =>
    have hno : ∀ n < 64, base64tab n ≠ c := by
      simpa [base64Value] using hv
    cases hd : b64DecodeTab c with
    | error e =>
      rw [b64DecodeTab,if_neg (by omega)] at hd
      split_ifs at hd
    | ok r =>
      cases r with
      | none => rfl
      | some n =>
        obtain ⟨hlt,heq⟩ := base64tab_of_decode hd
        exact absurd heq (hno n hlt)

/-- What the decoder puts out for a value, and the next phase. -/
def valueStep (t : List UInt8 × ℕ × ℕ) (d : ℕ) : List UInt8 × ℕ × ℕ :=
  (t.1 ++ emitted t.2.1 t.2.2 d,nextPhase t.2.1,d)

theorem foldl_decodeStep {s : List UInt8} (h : ∀ c ∈ s, c.toNat < 128) (t : List UInt8 × ℕ × ℕ) :
    s.foldl decodeStep t = (s.filterMap base64Value).foldl valueStep t := by
  induction s generalizing t with
  | nil => rfl
  | cons c s ih =>
    obtain ⟨hc,hs⟩ := List.forall_mem_cons.mp h
    rw [List.foldl_cons,ih hs,decodeStep,b64DecodeTab_eq hc,List.filterMap_cons]
    cases base64Value c with
    | none => rfl
    | some d => rfl

/-- The bit operations on values below 64. -/
theorem emitted_one (a : ℕ) {b : ℕ} (hb : b < 64) :
    (a <<< 2 ||| (b &&& 0x30) >>> 4) = a*4+b/16 := by
  rw [shiftRight_mask b 0x30 4 2 rfl,shiftLeft_or_eq (Nat.mod_lt _ (by decide))]
  omega

theorem emitted_two (a : ℕ) {b : ℕ} (hb : b < 64) :
    ((a &&& 0xf) <<< 4 ||| (b &&& 0x3c) >>> 2) = a%16*16+b/4 := by
  rw [shiftRight_mask b 0x3c 2 4 rfl,and_mask a 0xf 4 rfl,
    shiftLeft_or_eq (Nat.mod_lt _ (by decide))]
  omega

theorem emitted_three (a : ℕ) {b : ℕ} (hb : b < 64) : ((a &&& 0x03) <<< 6 ||| b) = a%4*64+b := by
  rw [and_mask a 0x03 2 rfl,shiftLeft_or_eq hb]
  norm_num

/-- The values are decoded in groups of four. -/
theorem foldl_valueStep {vs : List ℕ} (h : ∀ v ∈ vs, v < 64) (out : List UInt8) (p : ℕ) :
    (vs.foldl valueStep (out,0,p)).1 = out ++ sextetBytes vs := by
  induction vs using sextetBytes.induct generalizing out p with
  | case1 a b c d s ih =>
    obtain ⟨ha,h⟩ := List.forall_mem_cons.mp h
    obtain ⟨hb,h⟩ := List.forall_mem_cons.mp h
    obtain ⟨hc,h⟩ := List.forall_mem_cons.mp h
    obtain ⟨hd,h⟩ := List.forall_mem_cons.mp h
    simp only [List.foldl_cons,valueStep,emitted,nextPhase,emitted_one a hb,emitted_two b hc,
      emitted_three c hd]
    rw [ih h]
    simp [sextetBytes]
  | case2 a b c =>
    obtain ⟨ha,h⟩ := List.forall_mem_cons.mp h
    obtain ⟨hb,h⟩ := List.forall_mem_cons.mp h
    obtain ⟨hc,_⟩ := List.forall_mem_cons.mp h
    simp [valueStep,emitted,nextPhase,emitted_one a hb,emitted_two b hc,sextetBytes]
  | case3 a b =>
    obtain ⟨ha,h⟩ := List.forall_mem_cons.mp h
    obtain ⟨hb,_⟩ := List.forall_mem_cons.mp h
    simp [valueStep,emitted,nextPhase,emitted_one a hb,sextetBytes]
  | case4 vs h1 h2 h3 =>
    rcases vs with _ | ⟨a,_ | ⟨b,_ | ⟨c,_ | ⟨d,s⟩⟩⟩⟩
    · simp [sextetBytes]
    · simp [valueStep,emitted,sextetBytes]
    · exact absurd rfl (h3 a b)
    · exact absurd rfl (h2 a b c)
    · exact absurd rfl (h1 a b c d s)

/-- The loop decodes the characters of the alphabet. -/
theorem decode_eq {s : List UInt8} (h : ∀ c ∈ s, c.toNat < 128) :
    (s.foldl decodeStep ([],0,0)).1 = base64Decoded s := by
  rw [foldl_decodeStep h,foldl_valueStep (fun v hv => ?_) [] 0,List.nil_append,base64Decoded]
  obtain ⟨c,_,hc⟩ := List.mem_filterMap.mp hv
  exact base64Value_lt hc

theorem base64Decoded_length_le (s : List UInt8) : (base64Decoded s).length ≤ s.length := by
  have hbytes (vs : List ℕ) : (sextetBytes vs).length ≤ vs.length := by
    induction vs using sextetBytes.induct with
    | case1 a b c d s ih => simp only [sextetBytes,List.length_cons]; omega
    | case2 a b c => simp [sextetBytes]
    | case3 a b => simp [sextetBytes]
    | case4 vs h1 h2 h3 => rw [sextetBytes.eq_4 vs h1 h2 h3]; simp
  exact (hbytes _).trans (List.length_filterMap_le _ _)

end Reference

section Access
variable {blk : List UInt8} {s : Decoder} {t : List UInt8 × ℕ × ℕ} {i : ℕ}

/-- In the `n` turns from the `i`-th on, nothing is written at a position that is still to be read: what
was written ends at `bufPos`. -/
def WritesBehind : ℕ → ℕ → Decoder → Prop
  | 0, _, _ => True
  | n+1, i, s => ∀ s', s.turn i = .ok s' → s'.bufPos ≤ (i+1 : ℕ) ∧ WritesBehind n (i+1) s'

theorem Decodes.writesBehind {n : ℕ} (h : Decodes blk i t s) (hi : i+n ≤ blk.length)
    (hascii : ∀ c ∈ slice blk i n, c.toNat < 128) : WritesBehind n i s := by
  induction n generalizing i t s with
  | zero => trivial
  | succ n ih =>
    intro s' hs'
    have hlt : i < blk.length := by omega
    have hslice : slice blk i (n+1) = blk[i]::slice blk (i+1) n := by
      rw [slice,List.drop_eq_getElem_cons hlt,List.take_succ_cons,slice]
    rw [hslice] at hascii
    obtain ⟨hc,hrest⟩ := List.forall_mem_cons.mp hascii
    rcases h.turn hlt hc with ⟨s'',hs,hd⟩ | ⟨hs,_⟩
    · obtain rfl : s' = s'' := Except.ok.inj (hs'.symm.trans hs)
      obtain ⟨m,hpos,_,hle,_⟩ := hd.pos
      exact ⟨by omega,ih hd (by omega) hrest⟩
    · rw [hs] at hs'
      cases hs'

theorem Decoder.loop_add (m n i : ℕ) (s : Decoder) :
    loop (m+n) i s = loop m i s >>= loop n (i+m) := by
  induction m generalizing i s with
  | zero => rw [Nat.zero_add]; rfl
  | succ m ih =>
    rw [show m+1+n = (m+n)+1 by omega,loop,loop,bind_assoc]
    refine bind_congr fun s' => ?_
    rw [ih,show i+1+m = i+(m+1) by omega]

/-- A byte that is no ASCII character takes the index out of the table, when the loop gets that far. -/
theorem Decodes.fault {n : ℕ} {c : UInt8} {pre post : List UInt8} (hblk : blk = pre ++ c::post)
    (hpre : ∀ d ∈ pre, d.toNat < 128) (hc : 128 ≤ c.toNat) :
    Decoder.loop (pre.length+(n+1)) 0 ⟨blk,[],0,0,0⟩ = .error .fault := by
  have hslice : slice blk 0 pre.length = pre := by rw [hblk,slice_front]
  have hrun := (Decodes.start blk).loop (n:=pre.length) (by rw [hblk]; simp) (by rwa [hslice])
  rw [hslice,Nat.zero_add] at hrun
  rw [Decoder.loop_add]
  rcases hrun with ⟨s,hs,hd⟩ | ⟨hs,_⟩
  · have hdrop : s.blk.drop pre.length = c::post := by rw [hd.unread,hblk,List.drop_left]
    have htab : b64DecodeTab c = .error .fault := by rw [b64DecodeTab,if_pos hc]
    rw [hs,ok_bind,Nat.zero_add,Decoder.loop,Decoder.turn,(peekByte_drop hdrop).1,ok_bind,htab]
    rfl
  · rw [hs]
    rfl

/-- The first byte that is no ASCII character. -/
theorem exists_first_high {s : List UInt8} (h : ∃ c ∈ s, 128 ≤ c.toNat) : ∃ pre c post,
    s = pre ++ c::post ∧ (∀ d ∈ pre, d.toNat < 128) ∧ 128 ≤ c.toNat := by
  induction s with
  | nil => simp at h
  | cons x s ih =>
    by_cases hx : 128 ≤ x.toNat
    · exact ⟨[],x,s,rfl,by simp,hx⟩
    · obtain ⟨c,hc,hbig⟩ := h
      have hmem : c ∈ s := (List.mem_cons.mp hc).resolve_left fun heq => hx (heq ▸ hbig)
      obtain ⟨pre,d,post,rfl,hpre,hd⟩ := ih ⟨c,hmem,hbig⟩
      exact ⟨x::pre,d,post,rfl,List.forall_mem_cons.mpr ⟨by omega,hpre⟩,hd⟩

end Access

namespace Buffer
variable {b : Buffer}

/-- The alphabet's characters are decoded, in place, and the terminator is not behind the old one. -/
def DecodesBase64 (b : Buffer) : Prop :=
  (∃ d, b.decodeBase64 = .ok (.ok,d) ∧ d.content = base64Decoded b.content ∧ d.len ≤ b.len) ∧
  WritesBehind b.len 0 ⟨b.buf,[],0,0,0⟩

/-- The decoder does so exactly for ASCII characters in a block, when it can count the decoded bytes. -/
theorem decodesBase64_iff (hb : b.Wf) : DecodesBase64 b ↔
    b.buf ≠ [] ∧ (∀ c ∈ b.content, c.toNat < 128) ∧ (base64Decoded b.content).length < 2^31 := by
  have hcl := content_length hb
  constructor
  · rintro ⟨⟨d,hd,_⟩,_⟩
    have hbuf : b.buf ≠ [] := fun hnil => by
      rw [decodeBase64,hb.len_of_nil hnil,hnil] at hd
      cases hd
    obtain ⟨rest,hblk⟩ := hb.block hbuf
    have hascii : ∀ c ∈ b.content, c.toNat < 128 := by
      by_contra hsome
      obtain ⟨pre,c,post,hsplit,hpre,hc⟩ := exists_first_high (by simpa using hsome)
      obtain ⟨n,hn⟩ : ∃ n, b.len = pre.length+(n+1) :=
        ⟨post.length,by rw [← hcl,hsplit]; simp⟩
      have hwhole : b.buf = pre ++ c::(post ++ 0::rest) := by rw [hblk,hsplit]; simp
      have hfault := Decodes.fault (n:=n) hwhole hpre hc
      rw [decodeBase64,hn,hfault] at hd
      cases hd
    refine ⟨hbuf,hascii,?_⟩
    by_contra hbig
    obtain ⟨e,he⟩ := (decodeBase64_spec hblk hcl.symm hascii).2 (by rw [decode_eq hascii]; omega)
    rw [hd] at he
    cases he
  · rintro ⟨hbuf,hascii,hsmall⟩
    obtain ⟨rest,hblk⟩ := hb.block hbuf
    obtain ⟨d,hd,hcont,hlen⟩ := (decodeBase64_spec hblk hcl.symm hascii).1 (by rwa [decode_eq hascii])
    rw [decode_eq hascii] at hcont hlen
    refine ⟨⟨d,hd,hcont,?_⟩,?_⟩
    · rw [hlen,← hcl]
      exact base64Decoded_length_le _
    · have hslice : slice b.buf 0 b.len = b.content := by rw [slice,List.drop_zero,content]
      exact (Decodes.start b.buf).writesBehind (by have := hb.len_le; omega) (by rwa [hslice])

theorem decodesBase64_iff_holding : DecodesBase64 (holding [81,85,69,61]) ↔
    (holding [81,85,69,61]).buf ≠ [] ∧ (∀ c ∈ (holding [81,85,69,61]).content, c.toNat < 128) ∧
      (base64Decoded (holding [81,85,69,61]).content).length < 2^31 :=
  decodesBase64_iff (holding_wf (by decide))

/-- The character `0x80` is the index -128. -/
theorem not_decodesBase64_high : ¬ DecodesBase64 (holding [128]) := by
  rintro ⟨⟨d,hd,_⟩,_⟩
  have hcall : (holding [128]).decodeBase64 = .error .fault := by rfl
  rw [hcall] at hd
  cases hd

end Buffer

end Http2d
