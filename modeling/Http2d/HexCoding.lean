import Http2d.BufferEscape

/-! The hexadecimal coding of `http2d_buffer_t` and the way back.
The decoder works in the block that it reads: two characters are read for every byte that is written. -/
namespace Http2d

open Bytes Buffer

/-- `hex_to_bin`, with none for `-1`. -/
def hexToBin (n : ℕ) : Option ℕ :=
  if 48 ≤ n ∧ n ≤ 57 then some (n-48)
  else if 65 ≤ n ∧ n ≤ 70 then some (n-55)
  else if 97 ≤ n ∧ n ≤ 102 then some (n-87)
  else none

/-- The loop of `http2d_buffer_decode_hex` for `n` more bytes, from the `i`-th on. -/
def decodeHexLoop : ℕ → ℕ → List UInt8 → Exec (List UInt8)
  | 0, _, blk => .ok blk
  | n+1, i, blk => do
    let c1 ← peekByte blk (2*i)
    let c2 ← peekByte blk (2*i+1)
    match hexToBin (c1.toNat &&& 127), hexToBin (c2.toNat &&& 127) with
    | some b1, some b2 =>
      if i < blk.length then
        decodeHexLoop n (i+1) (blk.set i (UInt8.ofNat (b1 <<< 4 &&& 0xF0 ||| b2 &&& 0x0F)))
      else .error .fault
    | _, _ => .ok blk

/-- `http2d_buffer_decode_hex`. -/
def Buffer.decodeHex (b : Buffer) : Exec (Ret × Buffer) := do
  let blk ← decodeHexLoop (b.len/2) 0 b.buf
  let b ← ({b with buf := blk} : Buffer).setLen (b.len/2)
  .ok (.ok,b)

section Digits

/-- The bytes that pairs of digits stand for, up to the first pair that is none. -/
def hexDecoded : List UInt8 → List UInt8
  | c::d::s =>
    if isxdigit c && isxdigit d then UInt8.ofNat (hex2dec c*16+hex2dec d)::hexDecoded s else []
  | _ => []

theorem toHex_isxdigit : ∀ n < 16, isxdigit (toHex n) = true ∧ hex2dec (toHex n) = n := by decide

theorem nibbles_joined : ∀ a < 16, ∀ b < 16, (a <<< 4 &&& 0xF0 ||| b &&& 0x0F) = a*16+b := by decide

theorem hexToBin_digit {c : UInt8} (h : isxdigit c = true) :
    hexToBin (c.toNat &&& 127) = some (hex2dec c) ∧ hex2dec c < 16 := by
  have hall : ∀ n < 256, isxdigit (UInt8.ofNat n) = true →
      hexToBin (n &&& 127) = some (hex2dec (UInt8.ofNat n)) ∧ hex2dec (UInt8.ofNat n) < 16 := by
    decide +kernel
  have := hall c.toNat c.toNat_lt
  rw [UInt8.ofNat_toNat] at this
  exact this h

theorem hexDecoded_hexText (x : List UInt8) : hexDecoded (hexText x) = x := by
  induction x with
  | nil => rfl
  | cons c x ih =>
    have hlt := c.toNat_lt
    obtain ⟨hd1,hv1⟩ := toHex_isxdigit (c.toNat/16) (by omega)
    obtain ⟨hd2,hv2⟩ := toHex_isxdigit (c.toNat%16) (by omega)
    rw [hexText,List.flatMap_cons,← hexText]
    simp only [List.cons_append,List.nil_append]
    rw [hexDecoded,hd1,hd2,hv1,hv2,Nat.div_add_mod',UInt8.ofNat_toNat,ih]
    rfl

theorem hexText_digits (x : List UInt8) : ∀ c ∈ hexText x, isxdigit c = true := by
  intro c hc
  obtain ⟨d,_,hd⟩ := List.mem_flatMap.mp hc
  have hlt := d.toNat_lt
  rcases List.mem_pair.mp hd with rfl | rfl
  · exact (toHex_isxdigit _ (by omega)).1
  · exact (toHex_isxdigit _ (by omega)).1

theorem take_pairs (c d : UInt8) (s : List UInt8) :
    (c::d::s).take (2*((c::d::s).length/2)) = c::d::s.take (2*(s.length/2)) := by
  rw [show 2*((c::d::s).length/2) = 2*(s.length/2)+1+1 by simp only [List.length_cons]; omega,
    List.take_succ_cons,List.take_succ_cons]

/-- All pairs are decoded exactly when all their characters are digits. -/
theorem hexDecoded_length_iff (s : List UInt8) :
    (hexDecoded s).length = s.length/2 ↔ ∀ c ∈ s.take (2*(s.length/2)), isxdigit c = true := by
  induction s using hexDecoded.induct with
  | case1 c d s hdig ih =>
    have hdigits := Bool.and_eq_true_iff.mp hdig
    rw [take_pairs,List.forall_mem_cons,List.forall_mem_cons,and_iff_right hdigits.1,
      and_iff_right hdigits.2,← ih,
      hexDecoded,if_pos hdig]
    simp only [List.length_cons]
    omega
  | case2 c d s hdig =>
    rw [hexDecoded,if_neg hdig,take_pairs,List.forall_mem_cons,List.forall_mem_cons]
    exact iff_of_false (by simp; omega) fun h => hdig (Bool.and_eq_true_iff.mpr ⟨h.1,h.2.1⟩)
  | case3 s h =>
    have hshort : s.length/2 = 0 := by
      match s with
      | [] => rfl
      | [_] => simp
      | c::d::t => exact absurd rfl (h c d t)
    rw [hexDecoded.eq_2 s h,hshort]
    simp

/-- A last character without a partner does not count. -/
theorem hexDecoded_pairs (s : List UInt8) : hexDecoded (s.take (2*(s.length/2))) = hexDecoded s := by
  induction s using hexDecoded.induct with
  | case1 c d s hdig ih =>
    rw [take_pairs,hexDecoded,hexDecoded,if_pos hdig,if_pos hdig,ih]
  | case2 c d s hdig => rw [take_pairs,hexDecoded,hexDecoded,if_neg hdig,if_neg hdig]
  | case3 s h =>
    match s with
    | [] => rfl
    | [_] => simp [hexDecoded]
    | c::d::t => exact absurd rfl (h c d t)

end Digits

section Loop

/-- Pairs of digits are decoded to the front of the block. -/
theorem decodeHexLoop_spec {n i : ℕ} {blk s rest : List UInt8} (hblk : blk.drop (2*i) = s ++ rest)
    (hs : s.length = 2*n) (hi : i ≤ blk.length) (hdig : ∀ c ∈ s, isxdigit c = true) :
    ∃ out, decodeHexLoop n i blk = .ok out ∧ out.length = blk.length ∧
      out.take (i+n) = blk.take i ++ hexDecoded s := by
  induction n generalizing i blk s with
  | zero =>
    obtain rfl : s = [] := List.length_eq_zero_iff.mp hs
    exact ⟨blk,rfl,rfl,by simp [hexDecoded]⟩
  | succ n ih =>
    match s with
    | [] => simp at hs
    | [_] => simp at hs; omega
    | c::d::s =>
      obtain ⟨hc,hdig⟩ := List.forall_mem_cons.mp hdig
      obtain ⟨hd,hdig⟩ := List.forall_mem_cons.mp hdig
      obtain ⟨hp1,hnext,_⟩ := peekByte_drop hblk
      obtain ⟨hp2,hback,hlt⟩ := peekByte_drop hnext
      obtain ⟨hv1,hl1⟩ := hexToBin_digit hc
      obtain ⟨hv2,hl2⟩ := hexToBin_digit hd
      have hin : i < blk.length := by omega
      obtain ⟨v,hv⟩ : ∃ v, v = UInt8.ofNat (hex2dec c*16+hex2dec d) := ⟨_,rfl⟩
      have hdrop : (blk.set i v).drop (2*(i+1)) = s ++ rest := by
        rw [List.drop_set,if_pos (by omega),show 2*(i+1) = 2*i+1+1 by omega,hback]
        rfl
      obtain ⟨out,hout,hol,htake⟩ := ih hdrop (by simp at hs; omega) (by rw [List.length_set]; omega) hdig
      refine ⟨out,?_,by rw [hol,List.length_set],?_⟩
      · push_cast at hp1 hp2
        simp only [decodeHexLoop,hp1,hp2,ok_bind,hv1,hv2,if_pos hin,nibbles_joined _ hl1 _ hl2,← hv,hout]
      · rw [hexDecoded,hc,hd,← hv,show i+(n+1) = i+1+n by omega,htake,take_set_next hin,
          List.append_assoc]
        rfl

end Loop

namespace Buffer
variable {mem : Bool} {b src encoded : Buffer}

/-- Decoding what was encoded gives the string back. -/
def HexRoundTrips (mem : Bool) (src encoded : Buffer) : Prop :=
  ∃ e d, src.encodeHex mem encoded = .ok (.ok,e) ∧ e.decodeHex = .ok (.ok,d) ∧ d.content = src.content

/-- The decoder leaves what the digits at the front stand for, and nothing else. -/
def DecodesHex (b : Buffer) : Prop :=
  ∃ d, b.decodeHex = .ok (.ok,d) ∧ d.content = hexDecoded b.content ∧ d.len = (hexDecoded b.content).length

/-- A string whose pairs are all digits. -/
theorem decodeHex_digits {rest : List UInt8} (hblk : b.buf = b.content ++ 0::rest)
    (hcl : b.content.length = b.len) (hdig : ∀ c ∈ b.content.take (2*(b.len/2)), isxdigit c = true) :
    DecodesHex b := by
  have hcount := (hexDecoded_length_iff b.content).mpr (by rwa [hcl])
  have hsplit : b.buf.drop (2*0) =
      b.content.take (2*(b.len/2)) ++ (b.content.drop (2*(b.len/2)) ++ 0::rest) := by
    rw [← List.append_assoc,List.take_append_drop,← hblk]
    rfl
  have hbl : b.len < b.buf.length := by rw [hblk]; simp; omega
  obtain ⟨out,hout,hol,htake⟩ := decodeHexLoop_spec (n:=b.len/2) hsplit
    (by rw [List.length_take]; omega) (Nat.zero_le _) hdig
  have hpairs := hexDecoded_pairs b.content
  rw [hcl] at hpairs
  rw [hpairs,List.take_zero,List.nil_append,Nat.zero_add] at htake
  refine ⟨⟨out.set (b.len/2) 0,b.size,b.len/2⟩,?_,?_,by rw [hcount,hcl]⟩
  · rw [decodeHex,hout,ok_bind,setLen,if_pos (by simp only; omega)]
    rfl
  · rw [content,List.take_set_of_le le_rfl,htake]

/-- The decoder is right exactly when there is a block and no pair has a character that is no digit. -/
theorem decodesHex_iff (hb : b.Wf) : DecodesHex b ↔
    b.buf ≠ [] ∧ ∀ c ∈ b.content.take (2*(b.len/2)), isxdigit c = true := by
  have hcl := content_length hb
  constructor
  · rintro ⟨d,hd,_,hlen⟩
    obtain ⟨out,hout,hd⟩ := bind_ok_inv hd
    obtain ⟨e,he,hd⟩ := bind_ok_inv hd
    cases hd
    rw [setLen_len he,← hcl,eq_comm,hexDecoded_length_iff,hcl] at hlen
    refine ⟨fun hnil => ?_,hlen⟩
    rw [hb.len_of_nil hnil,hnil] at hout
    cases hout
    exact Nat.not_lt_zero _ (setLen_inv he).1
  · rintro ⟨hbuf,hdig⟩
    obtain ⟨rest,hblk⟩ := hb.block hbuf
    exact decodeHex_digits hblk hcl hdig

theorem hexRoundTrips_iff (hsrc : src.Wf) (henc : encoded.Wf) : HexRoundTrips mem src encoded ↔
    2*src.len < ensuredSize mem encoded (cuint (src.len*2+1)) := by
  constructor
  · rintro ⟨e,d,he,_⟩
    exact encodeHex_fits henc hsrc he
  · intro hfit
    obtain ⟨g,e,he,hf⟩ := encodeHex_filled henc hsrc hfit
    obtain ⟨rest,hblk⟩ := block_of_ended hf.ended
    have hlen : e.content.length = e.len := by rw [hf.content_eq,hf.len_eq]
    obtain ⟨d,hd,hcont,_⟩ := decodeHex_digits hblk hlen fun c hc => by
      rw [hf.content_eq] at hc
      exact hexText_digits _ c (List.mem_of_mem_take hc)
    exact ⟨e,d,he,hd,by rw [hcont,hf.content_eq,hexDecoded_hexText]⟩

/-- The coding goes back and forth exactly when the text and its terminator have room in the block that
the unchecked request leaves, and the decoder is right exactly on pairs of digits in a block. -/
theorem hexCoding_iff (hsrc : src.Wf) (henc : encoded.Wf) (hb : b.Wf) :
    (HexRoundTrips mem src encoded ↔ 2*src.len < ensuredSize mem encoded (cuint (src.len*2+1))) ∧
    (DecodesHex b ↔ b.buf ≠ [] ∧ ∀ c ∈ b.content.take (2*(b.len/2)), isxdigit c = true) :=
  ⟨hexRoundTrips_iff hsrc henc,decodesHex_iff hb⟩

theorem hexCoding_iff_holding :
    (HexRoundTrips true (holding [0,255]) init ↔
      2*(holding [0,255]).len < ensuredSize true init (cuint ((holding [0,255]).len*2+1))) ∧
    (DecodesHex (holding [52,49]) ↔ (holding [52,49]).buf ≠ [] ∧
      ∀ c ∈ (holding [52,49]).content.take (2*((holding [52,49]).len/2)), isxdigit c = true) :=
  hexCoding_iff (holding_wf (by decide)) init_wf (holding_wf (by decide))

/-- Two characters that are no digits are not decoded, and one of them stays. -/
theorem not_decodesHex_letters : ¬ DecodesHex (holding [122,122]) := by
  rintro ⟨d,hd,hcont,_⟩
  have hcall : (holding [122,122]).decodeHex = .ok (.ok,⟨[122,0,0],3,1⟩) := by rfl
  rw [hcall] at hd
  cases hd
  exact absurd hcont (by decide)

end Buffer

end Http2d
