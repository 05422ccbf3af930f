import Http2d.Common

/-! SPDY frame headers as bytes. -/
namespace Http2d

open Bytes

/-- `http2d_spdy_ctrl_t`. -/
structure SpdyCtrl where
  version : ℕ
  type : ℕ
  flags : UInt8
  length : ℕ
  deriving DecidableEq, Repr

/-- `SPDY_VERSION`. -/
def spdyVersion : ℕ := 3

/-- `SPDY_SYN_STREAM`, `SPDY_SYN_REPLY`, `SPDY_RST_STREAM` and `SPDY_GOAWAY` of
`http2d_spdy_frame_type_t`; the other types are named nowhere in the code. -/
def spdySynStream : ℕ := 1
def spdySynReply : ℕ := 2
def spdyRstStream : ℕ := 3
def spdyGoaway : ℕ := 7

/-- `SPDY_FRAME_HEAD_LENGTH`. -/
def spdyFrameHeadLength : ℕ := 8

/-- `_read_uint32`, `_read_uint16`. -/
def readUint32 (obj : List UInt8) (off : ℤ) : Exec ℕ := do
  let bs ← peek obj off 4
  .ok (beNat bs)

def readUint16 (obj : List UInt8) (off : ℤ) : Exec ℕ := do
  let bs ← peek obj off 2
  .ok (beNat bs)

/-- `SPDY_MASK_STREAM_ID`, `SPDY_MASK_LENGTH` and `SPDY_MASK_VERSION`. -/
def maskStreamId (n : ℕ) : ℕ := n &&& 0x7fffffff
def maskLength (n : ℕ) : ℕ := n &&& 0xffffff
def maskVersion (n : ℕ) : ℕ := n &&& 0x7fff

theorem maskStreamId_eq (n : ℕ) : maskStreamId n = n % 2^31 := Nat.and_two_pow_sub_one_eq_mod n 31
theorem maskLength_eq (n : ℕ) : maskLength n = n % 2^24 := Nat.and_two_pow_sub_one_eq_mod n 24

/-- `http2d_spdy_read_ctrl`: the control bit of the first byte is masked out. -/
def spdyReadCtrl (obj : List UInt8) (pos : ℤ) : Exec SpdyCtrl := do
  let version ← readUint16 obj pos
  let type ← readUint16 obj (pos+2)
  let flags ← peekByte obj (pos+4)
  let length ← readUint32 obj (pos+4)
  .ok ⟨maskVersion version,type,flags,maskLength length⟩

/-- `http2d_spdy_write_ctrl`: the flags overwrite the first byte of the length. -/
def spdyWriteCtrl (frameType : ℕ) (flags : UInt8) (length : ℕ) : List UInt8 :=
  let buf := beBytes 2 spdyVersion ++ beBytes 2 frameType ++ beBytes 4 length
  (buf.modify 0 (· ||| 0x80)).set 4 flags

/-- `http2d_spdy_write_syn_reply`. -/
def spdyWriteSynReply (id : ℕ) (flags : UInt8) (headersLength : ℕ) : List UInt8 :=
  spdyWriteCtrl spdySynReply flags (cuint (headersLength+4)) ++
    (beBytes 4 id).modify 0 (· &&& 0x7F)

/-- `http2d_spdy_write_data`. -/
def spdyWriteData (id : ℕ) (flags : UInt8) (length : ℕ) : List UInt8 :=
  ((beBytes 4 id).modify 0 (· &&& 0x7F) ++ beBytes 4 length).set 4 flags

@[simp] theorem spdyWriteCtrl_length (t : ℕ) (fl : UInt8) (n : ℕ) :
    (spdyWriteCtrl t fl n).length = 8 := by simp [spdyWriteCtrl]

@[simp] theorem spdyWriteSynReply_length (id : ℕ) (fl : UInt8) (n : ℕ) :
    (spdyWriteSynReply id fl n).length = 12 := by simp [spdyWriteSynReply]

@[simp] theorem spdyWriteData_length (id : ℕ) (fl : UInt8) (n : ℕ) :
    (spdyWriteData id fl n).length = 8 := by simp [spdyWriteData]

theorem maskLength_lt (n : ℕ) : maskLength n < 2^24 := by
  rw [maskLength_eq]; exact Nat.mod_lt _ (by norm_num)

theorem spdyReadCtrl_length_lt {obj : List UInt8} {pos : ℤ} {ctrl : SpdyCtrl}
    (h : spdyReadCtrl obj pos = .ok ctrl) : ctrl.length < 2^24 := by
  obtain ⟨v,_,h⟩ := bind_ok_inv h
  obtain ⟨t,_,h⟩ := bind_ok_inv h
  obtain ⟨f,_,h⟩ := bind_ok_inv h
  obtain ⟨l,_,h⟩ := bind_ok_inv h
  rw [← Except.ok.inj h]
  exact maskLength_lt l

/-- A written header, byte by byte. -/
theorem spdyWriteCtrl_eq (t : ℕ) (fl : UInt8) (n : ℕ) :
    spdyWriteCtrl t fl n = [0x80,3] ++ beBytes 2 t ++ (fl::beBytes 3 n) := by
  have hver : beBytes 2 spdyVersion = [0,3] := by decide
  have hor : (0 : UInt8) ||| 0x80 = 0x80 := by decide
  simp only [spdyWriteCtrl,hver]
  simp [hor,beBytes]

/-- Reading back a header that was written. -/
theorem spdyReadCtrl_write {t n : ℕ} (fl : UInt8) (rest : List UInt8) (ht : t < 2^16)
    (hn : n < 2^24) :
    spdyReadCtrl (spdyWriteCtrl t fl n ++ rest) 0 = .ok ⟨3,t,fl,n⟩ := by
  have hlen : maskLength (beNat (fl::beBytes 3 n)) = n := by
    rw [maskLength_eq,beNat_cons,beNat_beBytes_of_lt (by omega),beBytes_length]
    omega
  have htype : beNat (beBytes 2 t) = t := beNat_beBytes_of_lt (by omega)
  have hblk : (spdyWriteCtrl t fl n ++ rest).length = 8+rest.length := by simp
  generalize hb : spdyWriteCtrl t fl n ++ rest = blk at hblk
  rw [spdyWriteCtrl_eq] at hb
  have h0 : slice blk 0 2 = [0x80,3] := by rw [← hb]; rfl
  have h2 : slice blk 2 2 = beBytes 2 t := by rw [← hb]; rfl
  have h4 : slice blk 4 4 = fl::beBytes 3 n := by rw [← hb]; rfl
  have hfl : blk.getD 4 0 = fl := by rw [← hb]; rfl
  have hp0 := peek_ok blk 0 2 (by omega)
  have hp2 := peek_ok blk 2 2 (by omega)
  have hp4 := peek_ok blk 4 4 (by omega)
  have hb4 := peekByte_ok blk 4 (by omega)
  push_cast at hp0 hp2 hp4 hb4
  have hz2 : (0 : ℤ)+2 = 2 := by norm_num
  have hz4 : (0 : ℤ)+4 = 4 := by norm_num
  have hver : maskVersion (beNat [0x80,3]) = 3 := by decide
  simp only [spdyReadCtrl,readUint16,readUint32,hz2,hz4,hp0,hp2,hp4,hb4,ok_bind,h0,h2,h4,hfl,
    hlen,htype,hver]

/-- A header behind a prefix is the header that follows it. -/
theorem spdyReadCtrl_append_right (xs ys : List UInt8) :
    spdyReadCtrl (xs ++ ys) xs.length = spdyReadCtrl ys 0 := by
  have h0 := peek_append_right xs ys 0 2
  have h2 := peek_append_right xs ys 2 2
  have h4 := peek_append_right xs ys 4 4
  have hb := peekByte_append_right xs ys 4
  push_cast at h0 h2 h4 hb
  rw [add_zero] at h0
  simp only [spdyReadCtrl,readUint16,readUint32,h0,h2,h4,hb,zero_add]

end Http2d
