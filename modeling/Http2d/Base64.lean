import Http2d.BufferOps

/-! The Base64 encoder and decoder of `http2d_buffer_t`.
The decoder works in the block that it reads: it collects decoded bytes in a small array and copies
them over the characters that were already read. -/
namespace Http2d

open Bytes

/-- `base64tab`. -/
def base64tab (n : ℕ) : UInt8 :=
  if n < 26 then UInt8.ofNat (n+65)
  else if n < 52 then UInt8.ofNat (n-26+97)
  else if n < 62 then UInt8.ofNat (n-52+48)
  else if n = 62 then 43
  else 47

/-- `b64_decode_tab`, with none for `-1`; the index is a signed `char`. -/
def b64DecodeTab (c : UInt8) : Exec (Option ℕ) :=
  if 128 ≤ c.toNat then .error .fault
  else if 65 ≤ c.toNat ∧ c.toNat ≤ 90 then .ok (some (c.toNat-65))
  else if 97 ≤ c.toNat ∧ c.toNat ≤ 122 then .ok (some (c.toNat-97+26))
  else if 48 ≤ c.toNat ∧ c.toNat ≤ 57 then .ok (some (c.toNat-48+52))
  else if c.toNat = 43 then .ok (some 62)
  else if c.toNat = 47 then .ok (some 63)
  else .ok none

/-- One turn of the encoder, for the bytes from `in[i]` to the end of the string. -/
def encodeGroup (s : List UInt8) : List UInt8 :=
  let a := (s.getD 0 0).toNat
  let b := (s.getD 1 0).toNat
  let c := (s.getD 2 0).toNat
  let d := base64tab (a >>> 2)
  let e := base64tab ((a &&& 3) <<< 4 ||| b >>> 4)
  let f := base64tab ((b &&& 15) <<< 2 ||| c >>> 6)
  let g := base64tab (c &&& 63)
  [d,e,if s.length ≤ 1 then 61 else f,if s.length ≤ 2 then 61 else g]

/-- The loop of the encoder. -/
def encodeText : List UInt8 → List UInt8
  | [] => []
  | [a] => encodeGroup [a]
  | [a,b] => encodeGroup [a,b]
  | a::b::c::s => encodeGroup (a::b::c::s) ++ encodeText s

/-- The variables of the decoder, and the block that it reads and writes. -/
structure Decoder where
  blk : List UInt8
  space : List UInt8
  phase : ℕ
  prevD : ℕ
  bufPos : ℤ

namespace Decoder

/-- `space[space_idx++] = c`; the array has 128 bytes. -/
def put (s : Decoder) (c : ℕ) : Exec Decoder :=
  if s.space.length < 128 then .ok {s with space := s.space ++ [UInt8.ofNat c]} else .error .fault

/-- The `switch` on the phase. -/
def feed (s : Decoder) (d : ℕ) : Exec Decoder := do
  let t ← match s.phase with
    | 0 => .ok {s with phase := 1}
    | 1 => ({s with phase := 2} : Decoder).put (s.prevD <<< 2 ||| (d &&& 0x30) >>> 4)
    | 2 => ({s with phase := 3} : Decoder).put ((s.prevD &&& 0xf) <<< 4 ||| (d &&& 0x3c) >>> 2)
    | 3 => ({s with phase := 0} : Decoder).put ((s.prevD &&& 0x03) <<< 6 ||| d)
    | _ => .ok s
  .ok {t with prevD := d}

/-- `memcpy` from the array to the block. -/
def copy (s : Decoder) (txt : List UInt8) : Exec (List UInt8) :=
  if 0 ≤ s.bufPos ∧ s.bufPos+txt.length ≤ s.blk.length then .ok (overwrite s.blk s.bufPos.toNat txt)
  else .error .fault

/-- The array is written out when it has 127 bytes. -/
def flush (s : Decoder) : Exec Decoder :=
  if s.space.length = 127 then do
    let blk ← s.copy s.space
    let pos ← intValue (s.bufPos+127)
    .ok {s with blk := blk, bufPos := pos, space := []}
  else .ok s

/-- One turn of the loop, for the character at `i`. -/
def turn (s : Decoder) (i : ℕ) : Exec Decoder := do
  let c ← peekByte s.blk i
  let d ← b64DecodeTab c
  let s ← match d with
    | none => .ok s
    | some d => s.feed d
  s.flush

/-- The loop over the `n` characters from `i` on. -/
def loop : ℕ → ℕ → Decoder → Exec Decoder
  | 0, _, s => .ok s
  | n+1, i, s => do
    let s ← s.turn i
    loop n (i+1) s

end Decoder

namespace Buffer

/-- `http2d_buffer_encode_base64`. -/
def encodeBase64 (mem : Bool) (buf encoded : Buffer) : Exec (Ret × Buffer) :=
  match encoded.ensure mem (cuint (((buf.len : ℤ)+4)*4)/3+1) with
  | (.ok,encoded) => do
    let encoded := encoded.clean
    let txt ← peek buf.buf 0 buf.len
    let encoded ← encoded.write 0 (encodeText txt ++ [0])
    .ok (.ok,{encoded with len := cuint (encodeText txt).length})
  | (ret,encoded) => .ok (ret,encoded)

/-- `http2d_buffer_decode_base64`. -/
def decodeBase64 (b : Buffer) : Exec (Ret × Buffer) := do
  let s ← Decoder.loop b.len 0 ⟨b.buf,[],0,0,0⟩
  let blk ← s.copy (s.space ++ [0])
  let len ← intValue (s.bufPos+s.space.length)
  .ok (.ok,{b with buf := blk, len := cuint len})

end Buffer

section Text

/-- The bytes that the decoder puts out for a value. -/
def emitted (phase prevD d : ℕ) : List UInt8 :=
  match phase with
  | 1 => [UInt8.ofNat (prevD <<< 2 ||| (d &&& 0x30) >>> 4)]
  | 2 => [UInt8.ofNat ((prevD &&& 0xf) <<< 4 ||| (d &&& 0x3c) >>> 2)]
  | 3 => [UInt8.ofNat ((prevD &&& 0x03) <<< 6 ||| d)]
  | _ => []

def nextPhase : ℕ → ℕ
  | 0 => 1
  | 1 => 2
  | 2 => 3
  | 3 => 0
  | n => n

/-- What was put out, the phase and the last value, after one more character. -/
def decodeStep (t : List UInt8 × ℕ × ℕ) (c : UInt8) : List UInt8 × ℕ × ℕ :=
  match b64DecodeTab c with
  | .ok (some d) => (t.1 ++ emitted t.2.1 t.2.2 d,nextPhase t.2.1,d)
  | _ => t

theorem base64tab_spec : ∀ n < 64, b64DecodeTab (base64tab n) = .ok (some n) := by decide

theorem base64tab_lt : ∀ n < 64, (base64tab n).toNat < 128 := by decide

/-- Six bits of two and four give their parts back. -/
theorem joined_two_four {k h : ℕ} (hk : k < 4) (hh : h < 16) : (k <<< 4 ||| h) < 64 ∧
    ((k <<< 4 ||| h) &&& 0x30) >>> 4 = k ∧ (k <<< 4 ||| h) &&& 0xf = h := by
  rw [shiftLeft_or_eq hh,shiftRight_mask _ 0x30 4 2 rfl,and_mask _ 0xf 4 rfl]
  omega

/-- So do six bits of four and two. -/
theorem joined_four_two {m h : ℕ} (hm : m < 16) (hh : h < 4) : (m <<< 2 ||| h) < 64 ∧
    ((m <<< 2 ||| h) &&& 0x3c) >>> 2 = m ∧ (m <<< 2 ||| h) &&& 0x03 = h := by
  rw [shiftLeft_or_eq hh,shiftRight_mask _ 0x3c 2 4 rfl,and_mask _ 0x03 2 rfl]
  omega

/-- The upper part of a byte is small, wherever it is cut. -/
theorem upper_lt {a : ℕ} (ha : a < 256) : a >>> 2 < 64 ∧ a >>> 4 < 16 ∧ a >>> 6 < 4 := by
  simp only [Nat.shiftRight_eq_div_pow]
  omega

theorem bits_lt (n : ℕ) : n &&& 3 < 4 ∧ n &&& 15 < 16 :=
  ⟨Nat.and_lt_two_pow n (by decide : 3 < 2^2),Nat.and_lt_two_pow n (by decide : 15 < 2^4)⟩

theorem firstByte (a : ℕ) (ha : a < 256) (h : ℕ) (hh : h < 16) :
    a >>> 2 < 64 ∧ ((a &&& 3) <<< 4 ||| h) < 64 ∧
    ((a >>> 2) <<< 2 ||| (((a &&& 3) <<< 4 ||| h) &&& 0x30) >>> 4) = a := by
  obtain ⟨hjoin,hfront,_⟩ := joined_two_four (bits_lt a).1 hh
  exact ⟨(upper_lt ha).1,hjoin,by rw [hfront,cut_or a 3 2 rfl]⟩

theorem secondByte (k : ℕ) (hk : k < 4) (b : ℕ) (hb : b < 256) (h : ℕ) (hh : h < 4) :
    ((b &&& 15) <<< 2 ||| h) < 64 ∧
    (((k <<< 4 ||| b >>> 4) &&& 0xf) <<< 4 ||| (((b &&& 15) <<< 2 ||| h) &&& 0x3c) >>> 2) = b := by
  obtain ⟨_,_,hback⟩ := joined_two_four hk (upper_lt hb).2.1
  obtain ⟨hjoin,hfront,_⟩ := joined_four_two (bits_lt b).2 hh
  exact ⟨hjoin,by rw [hback,hfront,cut_or b 15 4 rfl]⟩

theorem thirdByte (k : ℕ) (hk : k < 16) (c : ℕ) (hc : c < 256) : c &&& 63 < 64 ∧
    (((k <<< 2 ||| c >>> 6) &&& 0x03) <<< 6 ||| (c &&& 63)) = c := by
  obtain ⟨_,_,hback⟩ := joined_four_two hk (upper_lt hc).2.2
  exact ⟨Nat.and_lt_two_pow c (by decide : 63 < 2^6),by rw [hback,cut_or c 63 6 rfl]⟩

theorem decodeStep_tab (t : List UInt8 × ℕ × ℕ) {n : ℕ} (h : n < 64) : decodeStep t (base64tab n) =
    (t.1 ++ emitted t.2.1 t.2.2 n,nextPhase t.2.1,n) := by rw [decodeStep,base64tab_spec n h]

@[simp] theorem decodeStep_pad (t : List UInt8 × ℕ × ℕ) : decodeStep t 61 = t := rfl

section Group
variable (a b c : UInt8) (s : List UInt8)

theorem encodeGroup_length : (encodeGroup s).length = 4 := rfl

/-- One byte takes two characters. -/
theorem decode_group_one (out : List UInt8) (p : ℕ) :
    ∃ pr, (encodeGroup [a]).foldl decodeStep (out,0,p) = (out ++ [a],2,pr) := by
  obtain ⟨h1,h2,h3⟩ := firstByte a.toNat a.toNat_lt 0 (by decide)
  refine ⟨(a.toNat &&& 3) <<< 4 ||| 0,?_⟩
  simp only [encodeGroup,List.getD_cons_zero,List.length_singleton,le_refl,if_true,
    show (1 : ℕ) ≤ 2 by decide,List.foldl_cons,List.foldl_nil,decodeStep_pad,decodeStep_tab _ h1]
  have hb : ([a].getD 1 0).toNat >>> 4 = 0 := by simp
  rw [hb,decodeStep_tab _ h2]
  simp only [emitted,nextPhase,List.append_nil,h3,UInt8.ofNat_toNat]

/-- Two bytes take three characters. -/
theorem decode_group_two (out : List UInt8) (p : ℕ) :
    ∃ pr, (encodeGroup [a,b]).foldl decodeStep (out,0,p) = (out ++ [a,b],3,pr) := by
  obtain ⟨h1,h2,h3⟩ := firstByte a.toNat a.toNat_lt (b.toNat >>> 4) (by
    have := b.toNat_lt
    rw [Nat.shiftRight_eq_div_pow]
    omega)
  obtain ⟨h4,h5⟩ := secondByte (a.toNat &&& 3) (bits_lt _).1 b.toNat b.toNat_lt 0 (by decide)
  refine ⟨(b.toNat &&& 15) <<< 2 ||| 0,?_⟩
  have hc : ([a,b].getD 2 0).toNat >>> 6 = 0 := by simp
  have hl1 : ¬ [a,b].length ≤ 1 := by simp
  have hl2 : [a,b].length ≤ 2 := by simp
  simp only [encodeGroup,List.getD_cons_zero,List.getD_cons_succ,if_neg hl1,if_pos hl2,List.foldl_cons,
    List.foldl_nil,decodeStep_pad,decodeStep_tab _ h1,decodeStep_tab _ h2]
  simp only [List.getD_cons_succ] at hc
  rw [hc,decodeStep_tab _ h4]
  simp only [emitted,nextPhase,List.append_nil,List.append_assoc,h3,h5,UInt8.ofNat_toNat]
  rfl

/-- Three bytes take four characters. -/
theorem decode_group_three (out : List UInt8) (p : ℕ) :
    ∃ pr, (encodeGroup (a::b::c::s)).foldl decodeStep (out,0,p) = (out ++ [a,b,c],0,pr) := by
  obtain ⟨h1,h2,h3⟩ := firstByte a.toNat a.toNat_lt (b.toNat >>> 4) (by
    have := b.toNat_lt
    rw [Nat.shiftRight_eq_div_pow]
    omega)
  obtain ⟨h4,h5⟩ := secondByte (a.toNat &&& 3) (bits_lt _).1 b.toNat b.toNat_lt (c.toNat >>> 6) (by
    have := c.toNat_lt
    rw [Nat.shiftRight_eq_div_pow]
    omega)
  obtain ⟨h6,h7⟩ := thirdByte (b.toNat &&& 15) (bits_lt _).2 c.toNat c.toNat_lt
  refine ⟨c.toNat &&& 63,?_⟩
  have hl1 : ¬ (a::b::c::s).length ≤ 1 := by simp
  have hl2 : ¬ (a::b::c::s).length ≤ 2 := by simp
  simp only [encodeGroup,List.getD_cons_zero,List.getD_cons_succ,if_neg hl1,if_neg hl2,List.foldl_cons,
    List.foldl_nil,decodeStep_tab _ h1,decodeStep_tab _ h2,decodeStep_tab _ h4,decodeStep_tab _ h6]
  simp only [emitted,nextPhase,List.append_nil,List.append_assoc,h3,h5,h7,UInt8.ofNat_toNat]
  rfl

end Group

/-- The characters of a string are decoded to the string. -/
theorem decode_encodeText (x out : List UInt8) (p : ℕ) :
    ∃ ph pr, (encodeText x).foldl decodeStep (out,0,p) = (out ++ x,ph,pr) := by
  induction x using encodeText.induct generalizing out p with
  | case1 => exact ⟨0,p,by simp [encodeText]⟩
  | case2 a =>
    obtain ⟨pr,h⟩ := decode_group_one a out p
    exact ⟨2,pr,h⟩
  | case3 a b =>
    obtain ⟨pr,h⟩ := decode_group_two a b out p
    exact ⟨3,pr,h⟩
  | case4 a b c s ih =>
    obtain ⟨pr,h⟩ := decode_group_three a b c s out p
    obtain ⟨ph,pr',hs⟩ := ih (out ++ [a,b,c]) pr
    exact ⟨ph,pr',by rw [encodeText,List.foldl_append,h,hs,List.append_assoc]; rfl⟩

theorem encodeText_length (x : List UInt8) : (encodeText x).length = 4*((x.length+2)/3) := by
  induction x using encodeText.induct with
  | case1 => rfl
  | case2 a => simp [encodeText,encodeGroup_length]
  | case3 a b => simp [encodeText,encodeGroup_length]
  | case4 a b c s ih =>
    rw [encodeText,List.length_append,ih,encodeGroup_length]
    simp only [List.length_cons]
    omega

theorem encodeGroup_ascii (s : List UInt8) : ∀ c ∈ encodeGroup s, c.toNat < 128 := by
  have hlt (n : ℕ) : (base64tab n).toNat < 128 := by
    by_cases h : n < 64
    · exact base64tab_lt n h
    · rw [base64tab,if_neg (by omega),if_neg (by omega),if_neg (by omega),if_neg (by omega)]
      decide
  intro c hc
  simp only [encodeGroup,List.mem_cons,List.not_mem_nil,or_false] at hc
  rcases hc with rfl | rfl | rfl | rfl
  · exact hlt _
  · exact hlt _
  · split_ifs
    · decide
    · exact hlt _
  · split_ifs
    · decide
    · exact hlt _

theorem encodeText_ascii (x : List UInt8) : ∀ c ∈ encodeText x, c.toNat < 128 := by
  induction x using encodeText.induct with
  | case1 => simp [encodeText]
  | case2 a => exact encodeGroup_ascii _
  | case3 a b => exact encodeGroup_ascii _
  | case4 a b c s ih =>
    intro d hd
    rw [encodeText] at hd
    rcases List.mem_append.mp hd with h | h
    · exact encodeGroup_ascii _ d h
    · exact ih d h

end Text

section Loop
variable {blk : List UInt8} {s : Decoder} {t : List UInt8 × ℕ × ℕ} {k : ℕ}

/-- After `k` characters of `blk`: what was put out stands at the front of the block and in the array,
and the characters that are still to be read are untouched. -/
structure Decodes (blk : List UInt8) (k : ℕ) (t : List UInt8 × ℕ × ℕ) (s : Decoder) : Prop where
  length_eq : s.blk.length = blk.length
  unread : s.blk.drop k = blk.drop k
  pos : ∃ n : ℕ, s.bufPos = n ∧ n < 2^31 ∧ n+s.space.length ≤ k ∧ s.blk.take n ++ s.space = t.1
  phase_eq : s.phase = t.2.1
  prev_eq : s.prevD = t.2.2
  space_lt : s.space.length < 127

theorem Decodes.start (blk : List UInt8) : Decodes blk 0 ([],0,0) ⟨blk,[],0,0,0⟩ :=
  ⟨rfl,rfl,⟨0,rfl,by decide,le_rfl,rfl⟩,rfl,rfl,show 0 < 127 by decide⟩

theorem Decoder.feed_eq (h : s.space.length < 128) (d : ℕ) : s.feed d =
    .ok {s with space := s.space ++ emitted s.phase s.prevD d, phase := nextPhase s.phase, prevD := d} := by
  rcases s with ⟨b,space,phase,prevD,bufPos⟩
  match phase with
  | 0 => simp [feed,emitted,nextPhase]
  | 1 => simp only [feed,put,if_pos h,ok_bind]; rfl
  | 2 => simp only [feed,put,if_pos h,ok_bind]; rfl
  | 3 => simp only [feed,put,if_pos h,ok_bind]; rfl
  | n+4 => simp [feed,emitted,nextPhase]

theorem emitted_length (phase prevD d : ℕ) : (emitted phase prevD d).length ≤ 1 := by
  unfold emitted
  split <;> simp

theorem decodeStep_length (t : List UInt8 × ℕ × ℕ) (c : UInt8) :
    t.1.length ≤ (decodeStep t c).1.length := by
  unfold decodeStep
  split
  · simp
  · exact le_rfl

theorem decode_length (cs : List UInt8) (t : List UInt8 × ℕ × ℕ) :
    t.1.length ≤ (cs.foldl decodeStep t).1.length := by
  induction cs generalizing t with
  | nil => exact le_rfl
  | cons c cs ih => exact (decodeStep_length t c).trans (ih _)

/-- The array is written out in front of what is read next, or the position overflows. -/
theorem Decodes.flush {n : ℕ} (hlen : s.blk.length = blk.length) (hunread : s.blk.drop k = blk.drop k)
    (hpos : s.bufPos = n) (hn : n < 2^31) (hle : n+s.space.length ≤ k) (hk : k ≤ blk.length)
    (hout : s.blk.take n ++ s.space = t.1) (hphase : s.phase = t.2.1) (hprev : s.prevD = t.2.2)
    (hspace : s.space.length ≤ 127) :
    (∃ s', s.flush = .ok s' ∧ Decodes blk k t s') ∨ s.flush = .error .fault ∧ 2^31 ≤ t.1.length := by
  unfold Decoder.flush
  split_ifs with hfull
  swap
  · exact Or.inl ⟨s,rfl,hlen,hunread,⟨n,hpos,hn,hle,hout⟩,hphase,hprev,by omega⟩
  have hfit : n+s.space.length ≤ s.blk.length := by omega
  have hcopy : s.copy s.space = .ok (overwrite s.blk n s.space) := by
    rw [Decoder.copy,hpos,if_pos (by omega),Int.toNat_natCast]
  rw [hcopy,ok_bind,hpos]
  by_cases hmax : (n : ℤ)+127 < 2^31
  · rw [intValue_ok (by omega) hmax]
    refine Or.inl ⟨_,rfl,by rw [overwrite_length hfit,hlen],?_,⟨n+127,by push_cast; rfl,by omega,?_,?_⟩,
      hphase,hprev,show 0 < 127 by decide⟩
    · rw [drop_overwrite hle hfit,hunread]
    · rw [List.length_nil]; omega
    · rw [List.append_nil,← hfull,take_overwrite (by omega),hout]
  · refine Or.inr ⟨by rw [intValue_fault (by omega)]; rfl,?_⟩
    rw [← hout,List.length_append,List.length_take]
    omega

theorem Decodes.turn (h : Decodes blk k t s) (hk : k < blk.length) (hascii : blk[k].toNat < 128) :
    (∃ s', s.turn k = .ok s' ∧ Decodes blk (k+1) (decodeStep t blk[k]) s') ∨
      s.turn k = .error .fault ∧ 2^31 ≤ (decodeStep t blk[k]).1.length := by
  obtain ⟨n,hpos,hn,hle,hout⟩ := h.pos
  have hlen := h.length_eq
  have hspace := h.space_lt
  have hkb : k < s.blk.length := by omega
  have hhead : s.blk[k] = blk[k] := by
    have := h.unread
    rw [List.drop_eq_getElem_cons hkb,List.drop_eq_getElem_cons hk] at this
    exact (List.cons.inj this).1
  have hunread : s.blk.drop (k+1) = blk.drop (k+1) := by
    rw [← List.drop_drop,← List.drop_drop,h.unread]
  have hpeek : peekByte s.blk k = .ok blk[k] := by
    rw [peekByte_ok _ _ hkb,← hhead]
    simp [hkb]
  simp only [Decoder.turn,hpeek,ok_bind]
  have hstep : b64DecodeTab blk[k] = .ok none ∧ decodeStep t blk[k] = t ∨
      ∃ d, b64DecodeTab blk[k] = .ok (some d) ∧
        decodeStep t blk[k] = (t.1 ++ emitted t.2.1 t.2.2 d,nextPhase t.2.1,d) := by
    cases htab : b64DecodeTab blk[k] with
    | error e =>
      unfold b64DecodeTab at htab
      rw [if_neg (by omega)] at htab
      split_ifs at htab
    | ok d =>
      cases d with
      | none => exact Or.inl ⟨rfl,by rw [decodeStep,htab]⟩
      | some d => exact Or.inr ⟨d,rfl,by rw [decodeStep,htab]⟩
  rcases hstep with ⟨htab,hval⟩ | ⟨d,htab,hval⟩
  · rw [htab,hval,ok_bind]
    exact Decodes.flush hlen hunread hpos hn (by omega) hk hout h.phase_eq h.prev_eq (by omega)
  · have hem := emitted_length s.phase s.prevD d
    rw [htab,hval,ok_bind]
    simp only [Decoder.feed_eq (by omega : s.space.length < 128),ok_bind]
    rw [← h.phase_eq,← h.prev_eq]
    refine Decodes.flush (n:=n) hlen hunread hpos hn ?_ hk ?_ rfl rfl ?_
    · simp only [List.length_append]; omega
    · simp only [← List.append_assoc,hout]
    · simp only [List.length_append]; omega

/-- The loop decodes all characters, or the position in the block overflows. -/
theorem Decodes.loop {n : ℕ} (h : Decodes blk k t s) (hk : k+n ≤ blk.length)
    (hascii : ∀ c ∈ slice blk k n, c.toNat < 128) :
    (∃ s', Decoder.loop n k s = .ok s' ∧ Decodes blk (k+n) ((slice blk k n).foldl decodeStep t) s') ∨
      Decoder.loop n k s = .error .fault ∧ 2^31 ≤ ((slice blk k n).foldl decodeStep t).1.length := by
  induction n generalizing k t s with
  | zero => exact Or.inl ⟨s,rfl,by simpa [slice] using h⟩
  | succ n ih =>
    have hlt : k < blk.length := by omega
    have hslice : slice blk k (n+1) = blk[k]::slice blk (k+1) n := by
      rw [slice,List.drop_eq_getElem_cons hlt,List.take_succ_cons,slice]
    rw [hslice] at hascii ⊢
    rw [List.foldl_cons]
    rcases h.turn hlt (hascii _ List.mem_cons_self) with ⟨s',hs,hd⟩ | ⟨hs,hbig⟩
    · simp only [Decoder.loop,hs,ok_bind]
      have := ih hd (by omega) fun c hc => hascii c (List.mem_cons_of_mem _ hc)
      rwa [show k+1+n = k+(n+1) by omega] at this
    · exact Or.inr ⟨by rw [Decoder.loop,hs]; rfl,hbig.trans (decode_length _ _)⟩

end Loop

namespace Buffer

/-- What the decoder makes of a terminated string of ASCII characters. -/
theorem decodeBase64_spec {b : Buffer} {y rest : List UInt8} (hblk : b.buf = y ++ 0::rest)
    (hlen : b.len = y.length) (hascii : ∀ c ∈ y, c.toNat < 128) :
    ((y.foldl decodeStep ([],0,0)).1.length < 2^31 →
      ∃ d, b.decodeBase64 = .ok (.ok,d) ∧ d.content = (y.foldl decodeStep ([],0,0)).1 ∧
        d.len = (y.foldl decodeStep ([],0,0)).1.length) ∧
    (2^31 ≤ (y.foldl decodeStep ([],0,0)).1.length → ∃ e, b.decodeBase64 = .error e) := by
  have hslice : slice b.buf 0 b.len = y := by rw [hblk,hlen,slice,List.drop_zero,List.take_left]
  have hbl : b.buf.length = y.length+(rest.length+1) := by rw [hblk,List.length_append,List.length_cons]
  have hrun := (Decodes.start b.buf).loop (n:=b.len) (by omega) (by rw [hslice]; exact hascii)
  rw [hslice,Nat.zero_add] at hrun
  obtain ⟨out,hout⟩ : ∃ out, out = y.foldl decodeStep ([],0,0) := ⟨_,rfl⟩
  rw [← hout] at hrun ⊢
  rcases hrun with ⟨s,hs,hd⟩ | ⟨hs,hbig⟩
  swap
  · exact ⟨fun h => absurd hbig (not_le.mpr h),fun _ => ⟨.fault,by rw [decodeBase64,hs]; rfl⟩⟩
  obtain ⟨n,hpos,hn,hle,hfront⟩ := hd.pos
  have hblen := hd.length_eq
  have hnl : (s.blk.take n).length = n := by rw [List.length_take]; omega
  have hol : out.1.length = n+s.space.length := by rw [← hfront,List.length_append,hnl]
  have hcopy : s.copy (s.space ++ [0]) = .ok (overwrite s.blk n (s.space ++ [0])) := by
    rw [Decoder.copy,hpos,if_pos (by simp; omega),Int.toNat_natCast]
  obtain ⟨htake,_⟩ := overwrite_terminated s.blk s.space n (by omega)
  constructor
  · intro hsmall
    have hnew : cuint ((n : ℤ)+s.space.length) = n+s.space.length := cuint_add (by omega)
    refine ⟨⟨overwrite s.blk n (s.space ++ [0]),b.size,n+s.space.length⟩,?_,by rw [content,htake,hfront],hol.symm⟩
    rw [decodeBase64,hs,ok_bind,hcopy,ok_bind,hpos,intValue_ok (by omega) (by omega),ok_bind,hnew]
  · intro hbig
    exact ⟨.fault,by
      rw [decodeBase64,hs,ok_bind,hcopy,ok_bind,hpos,intValue_fault (by omega)]
      rfl⟩

section Base64
variable {b src : Buffer}

/-- The block that the encoder asks for, when there is memory. -/
def base64Block (b src : Buffer) : ℕ := max b.size (cuint (((src.len : ℤ)+4)*4)/3+1)

theorem ensure_granted (hb : b.Wf) {n : ℕ} (hn : n < 2^63) : (b.ensure true n).1 = .ok := by
  rcases ensure_cases true hb.size_eq n with ⟨_,heq⟩ | ⟨_,hno,_⟩ | ⟨_,_,heq⟩
  · rw [heq]
  · exact absurd hno (not_refused hn)
  · rw [heq]

/-- The encoder needs room for four characters for every three bytes, and the terminator. -/
theorem encodeBase64_eq (hb : b.Wf) (hsrc : src.Wf) :
    ∃ g : Buffer, g.len = 0 ∧ g.content = [] ∧ g.buf.length = base64Block b src ∧
      src.encodeBase64 true b = (do
        let w ← g.write 0 (encodeText src.content ++ [0])
        .ok (.ok,{w with len := cuint (encodeText src.content).length})) := by
  have hlt := cuint_lt (((src.len : ℤ)+4)*4)
  have hok := ensure_granted hb (n:=cuint (((src.len : ℤ)+4)*4)/3+1) (by omega)
  have hpeek : peek src.buf 0 src.len = .ok src.content :=
    peek_ok src.buf 0 src.len (by have := hsrc.len_le; omega)
  refine ⟨(b.ensure true (cuint (((src.len : ℤ)+4)*4)/3+1)).2.clean,clean_len _,clean_content _,
    by rw [clean,List.length_set,(ensure_block true hb _).1,ensuredSize_granted (by omega),base64Block],?_⟩
  unfold encodeBase64
  cases hens : b.ensure true (cuint (((src.len : ℤ)+4)*4)/3+1) with
  | mk r g =>
    rw [hens] at hok
    cases hok
    simp only [hpeek,ok_bind]

/-- The encoded string is decoded to the one it came from. -/
def Base64RoundTrips (b src : Buffer) : Prop :=
  ∃ e d, src.encodeBase64 true b = .ok (.ok,e) ∧ e.decodeBase64 = .ok (.ok,d) ∧ d.content = src.content

/-- The condition on the sizes: the encoded string and its terminator have room in the block, and
the decoder can count the decoded bytes in an `int`. -/
def Base64Fits (b src : Buffer) : Prop := 4*((src.len+2)/3) < base64Block b src ∧ src.len < 2^31

/-- Encoding and decoding give the string back exactly when the sizes fit. -/
theorem base64RoundTrips_iff (hb : b.Wf) (hsrc : src.Wf) :
    b.Base64RoundTrips src ↔ b.Base64Fits src := by
  have hcl := content_length hsrc
  have hlen : (encodeText src.content).length = 4*((src.len+2)/3) := by rw [encodeText_length,hcl]
  obtain ⟨g,hgl,hgc,hgb,henc⟩ := encodeBase64_eq hb hsrc
  obtain ⟨ph,pr,hdec⟩ := decode_encodeText src.content [] 0
  rw [List.nil_append] at hdec
  have hblock : base64Block b src < 2^32 := by
    have := hb.size_lt
    have := cuint_lt (((src.len : ℤ)+4)*4)
    rw [base64Block]
    omega
  -- What the encoder leaves when its text has room.
  have hrun (hfit : 4*((src.len+2)/3) < base64Block b src) :
      ∃ e rest, src.encodeBase64 true b = .ok (.ok,e) ∧ e.buf = encodeText src.content ++ 0::rest ∧
        e.len = (encodeText src.content).length := by
    obtain ⟨hw,hf⟩ := terminated_filled (g:=g) (encodeText src.content) (by omega)
    obtain ⟨rest,hrest⟩ := block_of_ended hf.ended
    rw [hf.content_eq,hgc,List.nil_append] at hrest
    rw [hgl] at hw
    refine ⟨_,rest,by rw [henc,hw,ok_bind],?_,?_⟩
    · rw [← hrest,hgl]
    · exact cuint_natCast (by omega)
  constructor
  · rintro ⟨e,d,he,hd,_⟩
    have hfit : 4*((src.len+2)/3) < base64Block b src := by
      rw [henc] at he
      obtain ⟨w,hw,_⟩ := bind_ok_inv he
      have := (write_inv hw).1
      rw [List.length_append,List.length_singleton] at this
      omega
    refine ⟨hfit,?_⟩
    obtain ⟨e',rest,he',hblk,hel⟩ := hrun hfit
    rw [he] at he'
    cases he'
    by_contra hbig
    obtain ⟨x,hx⟩ := (decodeBase64_spec hblk hel (encodeText_ascii _)).2 (by rw [hdec,hcl]; omega)
    rw [hd] at hx
    cases hx
  · rintro ⟨hfit,hsmall⟩
    obtain ⟨e,rest,he,hblk,hel⟩ := hrun hfit
    obtain ⟨d,hd,hcont,_⟩ := (decodeBase64_spec hblk hel (encodeText_ascii _)).1 (by rw [hdec,hcl]; omega)
    exact ⟨e,d,he,hd,by rw [hcont,hdec]⟩

theorem base64RoundTrips_iff_holding : init.Base64RoundTrips (holding [0,255,16,131]) ↔
    init.Base64Fits (holding [0,255,16,131]) :=
  base64RoundTrips_iff init_wf (holding_wf (by decide))

/-- From `2^30-4` bytes on, four times the length passes `2^32` and the block has one byte. -/
theorem not_base64RoundTrips_zeros : ¬ init.Base64RoundTrips (holding (List.replicate (2^30-4) 0)) := by
  rintro ⟨e,d,he,_⟩
  have hlen : (holding (List.replicate (2^30-4) 0)).len = 2^30-4 := List.length_replicate
  have hwf : (holding (List.replicate (2^30-4) 0)).Wf := holding_wf (by rw [List.length_replicate]; decide)
  obtain ⟨g,_,_,hgb,henc⟩ := encodeBase64_eq init_wf hwf
  rw [henc] at he
  obtain ⟨w,hw,_⟩ := bind_ok_inv he
  have hroom := (write_inv hw).1
  have hblock : base64Block init (holding (List.replicate (2^30-4) 0)) = 1 := by
    rw [base64Block,hlen]
    rfl
  rw [List.length_append,List.length_singleton,encodeText_length,content_length hwf,hlen,hgb,hblock]
    at hroom
  exact absurd hroom (by decide)

end Base64

end Buffer

end Http2d
