import Http2d.Library.CyclicCode
import Http2d.BufferOps

/-! The CRC-32 of `crc32.c` and of `http2d_buffer_crc32`.
The register is kept inverted outside of a call; the table holds what eight shifts make of a byte. -/
namespace Http2d

open Bytes CyclicCode Polynomial

namespace Crc32

/-- `crc32tab`. -/
def crc32tab : List UInt32 := [
    0x00000000,0x77073096,0xee0e612c,0x990951ba,0x076dc419,0x706af48f,0xe963a535,0x9e6495a3,
    0x0edb8832,0x79dcb8a4,0xe0d5e91e,0x97d2d988,0x09b64c2b,0x7eb17cbd,0xe7b82d07,0x90bf1d91,
    0x1db71064,0x6ab020f2,0xf3b97148,0x84be41de,0x1adad47d,0x6ddde4eb,0xf4d4b551,0x83d385c7,
    0x136c9856,0x646ba8c0,0xfd62f97a,0x8a65c9ec,0x14015c4f,0x63066cd9,0xfa0f3d63,0x8d080df5,
    0x3b6e20c8,0x4c69105e,0xd56041e4,0xa2677172,0x3c03e4d1,0x4b04d447,0xd20d85fd,0xa50ab56b,
    0x35b5a8fa,0x42b2986c,0xdbbbc9d6,0xacbcf940,0x32d86ce3,0x45df5c75,0xdcd60dcf,0xabd13d59,
    0x26d930ac,0x51de003a,0xc8d75180,0xbfd06116,0x21b4f4b5,0x56b3c423,0xcfba9599,0xb8bda50f,
    0x2802b89e,0x5f058808,0xc60cd9b2,0xb10be924,0x2f6f7c87,0x58684c11,0xc1611dab,0xb6662d3d,
    0x76dc4190,0x01db7106,0x98d220bc,0xefd5102a,0x71b18589,0x06b6b51f,0x9fbfe4a5,0xe8b8d433,
    0x7807c9a2,0x0f00f934,0x9609a88e,0xe10e9818,0x7f6a0dbb,0x086d3d2d,0x91646c97,0xe6635c01,
    0x6b6b51f4,0x1c6c6162,0x856530d8,0xf262004e,0x6c0695ed,0x1b01a57b,0x8208f4c1,0xf50fc457,
    0x65b0d9c6,0x12b7e950,0x8bbeb8ea,0xfcb9887c,0x62dd1ddf,0x15da2d49,0x8cd37cf3,0xfbd44c65,
    0x4db26158,0x3ab551ce,0xa3bc0074,0xd4bb30e2,0x4adfa541,0x3dd895d7,0xa4d1c46d,0xd3d6f4fb,
    0x4369e96a,0x346ed9fc,0xad678846,0xda60b8d0,0x44042d73,0x33031de5,0xaa0a4c5f,0xdd0d7cc9,
    0x5005713c,0x270241aa,0xbe0b1010,0xc90c2086,0x5768b525,0x206f85b3,0xb966d409,0xce61e49f,
    0x5edef90e,0x29d9c998,0xb0d09822,0xc7d7a8b4,0x59b33d17,0x2eb40d81,0xb7bd5c3b,0xc0ba6cad,
    0xedb88320,0x9abfb3b6,0x03b6e20c,0x74b1d29a,0xead54739,0x9dd277af,0x04db2615,0x73dc1683,
    0xe3630b12,0x94643b84,0x0d6d6a3e,0x7a6a5aa8,0xe40ecf0b,0x9309ff9d,0x0a00ae27,0x7d079eb1,
    0xf00f9344,0x8708a3d2,0x1e01f268,0x6906c2fe,0xf762575d,0x806567cb,0x196c3671,0x6e6b06e7,
    0xfed41b76,0x89d32be0,0x10da7a5a,0x67dd4acc,0xf9b9df6f,0x8ebeeff9,0x17b7be43,0x60b08ed5,
    0xd6d6a3e8,0xa1d1937e,0x38d8c2c4,0x4fdff252,0xd1bb67f1,0xa6bc5767,0x3fb506dd,0x48b2364b,
    0xd80d2bda,0xaf0a1b4c,0x36034af6,0x41047a60,0xdf60efc3,0xa867df55,0x316e8eef,0x4669be79,
    0xcb61b38c,0xbc66831a,0x256fd2a0,0x5268e236,0xcc0c7795,0xbb0b4703,0x220216b9,0x5505262f,
    0xc5ba3bbe,0xb2bd0b28,0x2bb45a92,0x5cb36a04,0xc2d7ffa7,0xb5d0cf31,0x2cd99e8b,0x5bdeae1d,
    0x9b64c2b0,0xec63f226,0x756aa39c,0x026d930a,0x9c0906a9,0xeb0e363f,0x72076785,0x05005713,
    0x95bf4a82,0xe2b87a14,0x7bb12bae,0x0cb61b38,0x92d28e9b,0xe5d5be0d,0x7cdcefb7,0x0bdbdf21,
    0x86d3d2d4,0xf1d4e242,0x68ddb3f8,0x1fda836e,0x81be16cd,0xf6b9265b,0x6fb077e1,0x18b74777,
    0x88085ae6,0xff0f6a70,0x66063bca,0x11010b5c,0x8f659eff,0xf862ae69,0x616bffd3,0x166ccf45,
    0xa00ae278,0xd70dd2ee,0x4e048354,0x3903b3c2,0xa7672661,0xd06016f7,0x4969474d,0x3e6e77db,
    0xaed16a4a,0xd9d65adc,0x40df0b66,0x37d83bf0,0xa9bcae53,0xdebb9ec5,0x47b2cf7f,0x30b5ffe9,
    0xbdbdf21c,0xcabac28a,0x53b39330,0x24b4a3a6,0xbad03605,0xcdd70693,0x54de5729,0x23d967bf,
    0xb3667a2e,0xc4614ab8,0x5d681b02,0x2a6f2b94,0xb40bbe37,0xc30c8ea1,0x5a05df1b,0x2d02ef8d]

/-- `_CRC32_`; the `char` is signed and is widened to the type of the register. -/
def crc32 (crc : UInt32) (ch : UInt8) : UInt32 :=
  (crc >>> 8) ^^^ crc32tab.getD ((crc ^^^ ch.toInt8.toInt32.toUInt32) &&& 0xff).toNat 0

/-- The loop over the memory from `p` on; the counter is lowered each time it is looked at. -/
def crc32Loop : List UInt8 → ℤ → UInt32 → Exec UInt32
  | [], nr, crc => do
    let _ ← intValue (nr-1)
    if nr = 0 then pure crc else .error .fault
  | ch::p, nr, crc => do
    let nr' ← intValue (nr-1)
    if nr = 0 then pure crc else crc32Loop p nr' (crc32 crc ch)

/-- `crc32_partial_sz`. -/
def crc32PartialSz (crcIn : UInt32) (buf : List UInt8) (size : ℤ) : Exec UInt32 := do
  let crc ← crc32Loop buf size (~~~crcIn)
  pure (~~~crc)

/-- `crc32_sz`. -/
def crc32Sz (buf : List UInt8) (size : ℤ) : Exec UInt32 := crc32PartialSz 0 buf size

end Crc32

/-- `http2d_buffer_crc32`; the length is passed as an `int`. -/
def Buffer.crc32 (b : Buffer) : Exec UInt32 := Crc32.crc32Sz b.buf (cint b.len)

namespace Crc32

/-- The AUTODIN II polynomial without its highest term, as the register holds it. -/
def poly : BitVec 32 := 0xEDB88320#32

/-- The AUTODIN II polynomial, as the comment on the table gives it. -/
noncomputable def autodin : (ZMod 2)[X] :=
  X^32+X^26+X^23+X^22+X^16+X^12+X^11+X^10+X^8+X^7+X^5+X^4+X^2+X^1+1

theorem generator_poly : generator poly = autodin := by
  simp only [generator,regPoly,poly,Finset.sum_range_succ,Finset.sum_range_zero,autodin]
  simp
  ring

theorem crc32tab_toNat : crc32tab.map UInt32.toNat = (List.range 256).map (shiftNat 0xEDB88320)^[8] := by
  decide +kernel

/-- Each entry of the table is what eight shifts make of its index. -/
theorem crc32tab_shifts : ∀ i < 256,
    (crc32tab.getD i 0).toBitVec = (shift poly)^[8] (BitVec.ofNat 32 i) := by
  intro i hi
  have hlen : i < crc32tab.length := by
    have := congrArg List.length crc32tab_toNat
    rw [List.length_map,List.length_map,List.length_range] at this
    omega
  have hentry : crc32tab[i].toNat = (shiftNat 0xEDB88320)^[8] i := by
    have := congrArg (·[i]?) crc32tab_toNat
    simpa [hlen,hi] using this
  have hindex : (BitVec.ofNat 32 i).toNat = i := by
    rw [BitVec.toNat_ofNat]
    exact Nat.mod_eq_of_lt (by omega)
  apply BitVec.eq_of_toNat_eq
  rw [List.getD_eq_getElem?_getD,List.getElem?_eq_getElem hlen,Option.getD_some,UInt32.toNat_toBitVec,
    hentry,shifts_toNat,hindex]
  rfl

/-- The sign of the byte is masked out again. -/
theorem index_eq (crc : UInt32) (ch : UInt8) :
    ((crc ^^^ ch.toInt8.toInt32.toUInt32) &&& 0xff).toBitVec =
      (crc.toBitVec ^^^ ch.toBitVec.setWidth 32) &&& 255#32 := by
  have hch : ch.toInt8.toInt32.toUInt32.toBitVec = ch.toBitVec.signExtend 32 := rfl
  rw [UInt32.toBitVec_and,UInt32.toBitVec_xor,hch]
  apply BitVec.eq_of_getLsbD_eq
  intro i hi
  have hmask : (255#32).getLsbD i = decide (i < 8) := by
    rw [BitVec.getLsbD_ofNat,show (255 : ℕ) = 2^8-1 from rfl,Nat.testBit_two_pow_sub_one]
    simp [hi]
  have h255 : (0xff : UInt32).toBitVec = 255#32 := rfl
  rw [h255,BitVec.getLsbD_and,BitVec.getLsbD_and,hmask,BitVec.getLsbD_xor,BitVec.getLsbD_xor,
    BitVec.getLsbD_signExtend,BitVec.getLsbD_setWidth]
  by_cases h8 : i < 8 <;> simp [h8,hi]

/-- A turn of the loop feeds the eight bits of the byte. -/
theorem crc32_toBitVec (crc : UInt32) (ch : UInt8) :
    (crc32 crc ch).toBitVec = feed poly crc.toBitVec (byteBits ch) := by
  have hlt : ((crc.toBitVec ^^^ ch.toBitVec.setWidth 32) &&& 255#32).toNat < 256 := by
    rw [BitVec.toNat_and,BitVec.toNat_ofNat]
    exact Nat.lt_of_le_of_lt Nat.and_le_right (by decide)
  have hidx : ((crc ^^^ ch.toInt8.toInt32.toUInt32) &&& 0xff).toNat =
      ((crc.toBitVec ^^^ ch.toBitVec.setWidth 32) &&& 255#32).toNat := by
    rw [← index_eq,UInt32.toNat_toBitVec]
  rw [crc32,UInt32.toBitVec_xor,hidx,crc32tab_shifts _ hlt,BitVec.ofNat_toNat,BitVec.setWidth_eq,
    feed_byteBits poly (by decide)]
  rfl

theorem foldl_toBitVec (bs : List UInt8) (crc : UInt32) :
    (bs.foldl crc32 crc).toBitVec = feed poly crc.toBitVec (bits bs) := by
  induction bs generalizing crc with
  | nil => rfl
  | cons b bs ih =>
    rw [List.foldl_cons,ih,crc32_toBitVec,← feed_append]
    rfl

/-- The loop over a size that the memory has reads that much of it. -/
theorem crc32Loop_eq {p : List UInt8} {n : ℕ} (hn : n ≤ p.length) (h : n < 2^31) (crc : UInt32) :
    crc32Loop p n crc = .ok ((p.take n).foldl crc32 crc) := by
  induction n generalizing p crc with
  | zero => cases p <;> rfl
  | succ n ih =>
    cases p with
    | nil => simp at hn
    | cons ch p =>
      have hnr : intValue (((n+1 : ℕ) : ℤ)-1) = .ok (n : ℤ) := by
        rw [Nat.cast_add_one,add_sub_cancel_right]
        exact intValue_ok (by omega) (by omega)
      rw [crc32Loop,hnr,ok_bind,if_neg (by omega),ih (by simpa using hn) (by omega)]
      rfl

/-- The checksum of a byte string. -/
def checksum (crcIn : UInt32) (bs : List UInt8) : UInt32 := ~~~(bs.foldl crc32 (~~~crcIn))

theorem crc32PartialSz_eq (crcIn : UInt32) (bs rest : List UInt8) (h : bs.length < 2^31) :
    crc32PartialSz crcIn (bs ++ rest) bs.length = .ok (checksum crcIn bs) := by
  rw [crc32PartialSz,crc32Loop_eq (by simp) h,List.take_left]
  rfl

theorem not_checksum (crcIn : UInt32) (bs : List UInt8) :
    (~~~(checksum crcIn bs)).toBitVec = feed poly (~~~crcIn).toBitVec (bits bs) := by
  rw [checksum,UInt32.not_not,foldl_toBitVec]

theorem checksum_append (crcIn : UInt32) (xs ys : List UInt8) :
    checksum crcIn (xs ++ ys) = checksum (checksum crcIn xs) ys := by
  rw [checksum,List.foldl_append,checksum,checksum,UInt32.not_not]

end Crc32

open Crc32

namespace Buffer

variable {b : Buffer}

theorem crc32_eq (hb : b.Wf) (h : b.len < 2^31) : b.crc32 = .ok (checksum 0 b.content) := by
  have hlen := content_length hb
  have hblk : b.buf = b.content ++ b.buf.drop b.len := (List.take_append_drop b.len b.buf).symm
  rw [Buffer.crc32,crc32Sz,cint_of_lt h,hblk,← hlen]
  exact crc32PartialSz_eq 0 b.content _ (hlen ▸ h)

/-- The checksum of a buffer, taken back to the register, is the remainder of the message behind
32 ones by the polynomial, as long as its length is an `int`. -/
theorem crc32_remainder (hb : b.Wf) (h : b.len < 2^31) : ∃ crc, b.crc32 = .ok crc ∧
    regPoly (~~~crc).toBitVec = (X^(8*b.len)*∑ i ∈ Finset.range 32, X^i +
      X^32*msgPoly (bits b.content)) %ₘ autodin := by
  refine ⟨_,crc32_eq hb h,?_⟩
  have hones : regPoly (~~~(0 : UInt32)).toBitVec = ∑ i ∈ Finset.range 32, (X : (ZMod 2)[X])^i := by
    rw [← Finset.sum_range_reflect]
    refine Finset.sum_congr rfl fun i hi => ?_
    have := Finset.mem_range.mp hi
    rw [UInt32.toBitVec_not,BitVec.getLsbD_not,decide_eq_true this]
    simp
  rw [not_checksum,regPoly_feed_mod poly (by decide),generator_poly,bits_length,
    content_length hb,hones]

theorem crc32_remainder_holding : ∃ crc, (holding [1]).crc32 = .ok crc ∧
    regPoly (~~~crc).toBitVec = (X^8*∑ i ∈ Finset.range 32, X^i +
      X^32*msgPoly (bits [1])) %ₘ autodin :=
  crc32_remainder (show (holding [1]).Wf from holding_wf (by decide)) (by decide)

/-- Two texts of one length that differ only within 32 consecutive bits have different checksums. -/
theorem crc32_burst {a b : Buffer} (ha : a.Wf) (hb : b.Wf) {p q x y : List Bool}
    (hlt : a.len < 2^31) (hx : bits a.content = p ++ x ++ q)
    (hy : bits b.content = p ++ y ++ q) (hlen : x.length = y.length)
    (hshort : x.length ≤ 32) (hne : x ≠ y) :
    ∃ c d, a.crc32 = .ok c ∧ b.crc32 = .ok d ∧ c ≠ d := by
  have hlens : b.len = a.len := by
    have hxl := congrArg List.length hx
    have hyl := congrArg List.length hy
    simp only [bits_length,content_length ha,content_length hb,List.length_append] at hxl hyl
    omega
  refine ⟨_,_,crc32_eq ha hlt,crc32_eq hb (hlens ▸ hlt),fun heq => ?_⟩
  have hreg := congrArg (fun c : UInt32 => (~~~c).toBitVec) heq
  simp only [not_checksum,hx,hy] at hreg
  exact feed_burst poly (by decide) hlen hshort hne _ p q hreg

theorem crc32_burst_holding :
    ∃ c d, (holding [1,2]).crc32 = .ok c ∧ (holding [1,3]).crc32 = .ok d ∧ c ≠ d :=
  crc32_burst (p:=byteBits 1) (q:=[]) (x:=byteBits 2) (y:=byteBits 3)
    (holding_wf (by decide)) (holding_wf (by decide)) (by decide) (by decide) (by decide) (by decide)
    (by decide) (by decide)

end Buffer

namespace Crc32

/-- The checksum of a text that four bytes follow is one constant when these are the checksum of
the text, lowest byte first, and for no other four bytes. A checksum of a part is carried on. -/
theorem crc32Sz_residue (m t rest : List UInt8) (ht : t.length = 4) (h : m.length+4 < 2^31) :
    ∃ crc, crc32Sz (m ++ (t ++ rest)) m.length = .ok crc ∧
      crc32Sz (m ++ t ++ rest) (m.length+4 : ℕ) = crc32PartialSz crc (t ++ rest) 4 ∧
      (crc32Sz (m ++ t ++ rest) (m.length+4 : ℕ) = .ok 0x2144df1c ↔ t = leBytes 4 crc.toNat) := by
  have hm : crc32Sz (m ++ (t ++ rest)) m.length = .ok (checksum 0 m) :=
    crc32PartialSz_eq 0 m _ (by omega)
  have hpart := crc32PartialSz_eq (checksum 0 m) t rest (by omega)
  have hall := crc32PartialSz_eq 0 (m ++ t) rest (by simp; omega)
  rw [ht] at hpart
  rw [List.length_append,ht] at hall
  refine ⟨_,hm,?_,?_⟩
  · rw [crc32Sz,hall,checksum_append]
    exact hpart.symm
  · rw [crc32Sz,hall,checksum_append]
    have hword := feed_word_iff poly (by decide) (b:=bits t) (by simp [ht])
      (~~~(checksum 0 m)).toBitVec
    have hconst : (shift poly)^[32] (BitVec.allOnes 32) = (~~~(0x2144df1c : UInt32)).toBitVec := by
      decide +kernel
    rw [← not_checksum,hconst,UInt32.toBitVec_inj,UInt32.not_inj,pack_bits,UInt32.toBitVec_not,
      BitVec.not_not] at hword
    have hle : leNat t = (checksum 0 m).toNat ↔ t = leBytes 4 (checksum 0 m).toNat := by
      have hback : leNat (leBytes 4 (checksum 0 m).toNat) = (checksum 0 m).toNat := by
        rw [leNat_leBytes]
        exact Nat.mod_eq_of_lt (checksum 0 m).toNat_lt
      refine ⟨fun heq => leNat_inj (by rw [ht,leBytes_length]) (by rw [heq,hback]),fun heq => ?_⟩
      rw [heq,hback]
    have hlt : leNat t < 2^32 := by
      have := leNat_lt t
      rwa [ht] at this
    rw [← hle,Except.ok.injEq,hword,← BitVec.toNat_inj,BitVec.toNat_ofNat,Nat.mod_eq_of_lt hlt,
      UInt32.toNat_toBitVec]

theorem crc32Sz_residue_bytes : ∃ crc, crc32Sz ([7] ++ ([1,2,3,4] ++ [])) 1 = .ok crc ∧
    crc32Sz ([7] ++ [1,2,3,4] ++ []) (5 : ℕ) = crc32PartialSz crc ([1,2,3,4] ++ []) 4 ∧
    (crc32Sz ([7] ++ [1,2,3,4] ++ []) (5 : ℕ) = .ok 0x2144df1c ↔ [1,2,3,4] = leBytes 4 crc.toNat) :=
  crc32Sz_residue [7] [1,2,3,4] [] rfl (by decide)

end Crc32
end Http2d
