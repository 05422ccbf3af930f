import Http2d.SpdyServer

/-! The fields of the control frames, and which frames are taken for control frames.
The handlers read the fixed part of their payload field by field. The priority is read as two bits
of a byte in which it has three, and the control bit is masked out before the version is looked
at. -/
namespace Http2d

open Bytes

variable {Z : Type}

/-- `http2d_spdy_syn_stream_t`. -/
structure SynStreamCtrl where
  streamId : ℕ
  assocStreamId : ℕ
  pri : ℕ
  slot : UInt8
  deriving DecidableEq, Repr

/-- `http2d_spdy_go_away_t`. -/
structure GoAwayCtrl where
  lastGoodId : ℕ
  statusCode : ℕ
  deriving DecidableEq, Repr

/-- `http2d_spdy_rst_stream_t`. -/
structure RstStreamCtrl where
  streamId : ℕ
  statusCode : ℕ
  deriving DecidableEq, Repr

/-- The value of a `char`, which is signed. -/
def schar (b : UInt8) : ℤ := if b.toNat < 128 then b.toNat else b.toNat-256

/-- `(p[8] >> 6) & 0x3`: the shift is arithmetic. -/
def readPri (b : UInt8) : ℕ := (schar b / 2^6 % 4).toNat

theorem readPri_eq (b : UInt8) : readPri b = b.toNat / 64 := by
  have hb := b.toNat_lt
  simp only [readPri,schar]
  split_ifs <;> omega

/-- What `handle_SPDY_SYN_STREAM` reads of the frame itself. -/
def readSynStream (obj : List UInt8) (p : ℤ) : Exec SynStreamCtrl := do
  let id ← readUint32 obj p
  let assoc ← readUint32 obj (p+4)
  let pri ← peekByte obj (p+8)
  let slot ← peekByte obj (p+9)
  .ok ⟨maskStreamId id,maskStreamId assoc,readPri pri,slot⟩

/-- What `handle_SPDY_GOAWAY` reads. -/
def readGoaway (obj : List UInt8) (p : ℤ) : Exec GoAwayCtrl := do
  let last ← readUint32 obj p
  let status ← readUint32 obj (p+4)
  .ok ⟨maskStreamId last,status⟩

/-- What `handle_SPDY_RST_STREAM` reads. -/
def readRstStream (obj : List UInt8) (p : ℤ) : Exec RstStreamCtrl := do
  let id ← readUint32 obj p
  let status ← readUint32 obj (p+4)
  .ok ⟨maskStreamId id,status⟩

/-- The handlers read these fields and nothing else of the fixed part. -/
theorem handleGoaway_reads (conn : SpdyConn Z) (buf : Buffer) (ctrl : SpdyCtrl) (pos : ℕ) :
    handleGoaway conn buf ctrl pos = (readGoaway buf.buf pos >>= fun _ =>
      .ok (.ok,{conn with phase := .shutdown, goingAway := true},pos+ctrl.length)) := by
  simp only [handleGoaway,readGoaway,bind_assoc,ok_bind]

theorem handleRstStream_reads (conn : SpdyConn Z) (buf : Buffer) (ctrl : SpdyCtrl) (pos : ℕ) :
    handleRstStream conn buf ctrl pos = (readRstStream buf.buf pos >>= fun _ =>
      .ok (.ok,conn,pos+ctrl.length)) := by
  simp only [handleRstStream,readRstStream,bind_assoc,ok_bind]

/-- What `handle_SPDY_SYN_STREAM` does with the fields of an accepted frame: the name/value block
is inflated from behind them on. -/
def openStream (env : SpdyEnv Z) (conn : SpdyConn Z) (buf : Buffer) (ctrl : SpdyCtrl) (pos : ℕ)
    (syn : SynStreamCtrl) : Exec (Ret × SpdyConn Z × ℕ) := do
  let (ret,tmp,zst) ← env.inflate (env.newReq conn.zst).2 (buf.buf.drop (pos+10))
    (cuint ((buf.len : ℤ)-(pos+10 : ℕ)))
  let (ret,hdr,_) ← readNameValue (ret,tmp) Header.init
  let conn := {conn with ID := syn.streamId, zst := zst, synLog := conn.synLog ++ [syn.streamId]}
  let req : SpdyReq := ⟨{RequestSpdy.new with header := hdr},ret = .ok,conn.synLog.length-1⟩
  let conn := {conn with requests := req::conn.requests}
  if ret ≠ .ok then .ok (.error,conn,pos) else .ok (.ok,conn,pos+ctrl.length)

theorem handleSynStream_reads (env : SpdyEnv Z) {conn : SpdyConn Z} (buf : Buffer) (ctrl : SpdyCtrl)
    (pos : ℕ) (haway : conn.goingAway = false) (hnew : (env.newReq conn.zst).1 = true) :
    handleSynStream env conn buf ctrl pos =
      (readSynStream buf.buf pos >>= openStream env conn buf ctrl pos) := by
  unfold handleSynStream
  rw [if_neg (by simp [haway])]
  dsimp only
  rw [if_neg (by simp [hnew])]
  simp only [readSynStream,bind_assoc,ok_bind]
  rfl

section Layout

/-- A word of a reserved bit and an id of 31 bits. -/
def idWord (reserved : Bool) (id : Fin (2^31)) : ℕ := (if reserved then 2^31 else 0)+id

/-- The fixed part of a SYN_STREAM payload, as the header draws it. -/
structure SynStreamPart where
  reserved : Bool
  streamId : Fin (2^31)
  assocReserved : Bool
  assocStreamId : Fin (2^31)
  pri : Fin 8
  unused : Fin 32
  slot : UInt8

/-- The payload of a GOAWAY or of a RST_STREAM frame. -/
structure IdStatusPart where
  reserved : Bool
  id : Fin (2^31)
  status : Fin (2^32)

def SynStreamPart.encode (s : SynStreamPart) : List UInt8 :=
  beBytes 4 (idWord s.reserved s.streamId) ++ (beBytes 4 (idWord s.assocReserved s.assocStreamId) ++
    [UInt8.ofNat (s.pri*32+s.unused),s.slot])

def IdStatusPart.encode (s : IdStatusPart) : List UInt8 :=
  beBytes 4 (idWord s.reserved s.id) ++ beBytes 4 s.status

theorem idWord_lt (r : Bool) (id : Fin (2^31)) : idWord r id < 2^32 := by
  have := id.isLt
  simp only [idWord]
  split_ifs <;> omega

theorem maskStreamId_idWord (r : Bool) (id : Fin (2^31)) : maskStreamId (idWord r id) = id := by
  have := id.isLt
  rw [maskStreamId_eq,idWord]
  split_ifs <;> omega

/-- A word behind a prefix. -/
theorem readUint32_beBytes (pre rest : List UInt8) {n : ℕ} (hn : n < 2^32) :
    readUint32 (pre ++ (beBytes 4 n ++ rest)) pre.length = .ok n := by
  have hpeek := peek_append_right pre (beBytes 4 n ++ rest) 0 4
  have hfront := peek_ok (beBytes 4 n ++ rest) 0 4 (by simp)
  have hword : slice (beBytes 4 n ++ rest) 0 4 = beBytes 4 n := slice_front_eq (beBytes_length 4 n) rest
  rw [Nat.cast_zero] at hpeek hfront
  rw [add_zero,hfront,hword] at hpeek
  rw [readUint32,hpeek,ok_bind,beNat_beBytes_of_lt (by omega)]

/-- The same, behind a prefix and another word. -/
theorem readUint32_second (pre mid rest : List UInt8) {n : ℕ} (hn : n < 2^32) (hmid : mid.length = 4) :
    readUint32 (pre ++ (mid ++ (beBytes 4 n ++ rest))) (pre.length+4) = .ok n := by
  have h := readUint32_beBytes (pre ++ mid) rest hn
  rw [List.append_assoc,List.length_append,hmid] at h
  exact_mod_cast h

theorem peekByte_second (pre mid rest : List UInt8) (b : UInt8) :
    peekByte (pre ++ (mid ++ b::rest)) (pre.length+mid.length : ℕ) = .ok b := by
  have hdrop : (pre ++ (mid ++ b::rest)).drop (pre.length+mid.length) = b::rest := by
    rw [← List.append_assoc]
    exact List.drop_left' (List.length_append)
  exact (peekByte_drop hdrop).1

/-- Every field is read as it was laid out, but of the priority the last bit is lost. -/
theorem readSynStream_encode (pre rest : List UInt8) (s : SynStreamPart) :
    readSynStream (pre ++ (s.encode ++ rest)) pre.length =
      .ok ⟨s.streamId,s.assocStreamId,s.pri/2,s.slot⟩ := by
  have hpri : readPri (UInt8.ofNat (s.pri*32+s.unused)) = s.pri/2 := by
    have hp := s.pri.isLt
    have hu := s.unused.isLt
    have hb : (UInt8.ofNat (s.pri*32+s.unused)).toNat = s.pri*32+s.unused := by
      rw [UInt8.toNat_ofNat',Nat.mod_eq_of_lt (by omega)]
    rw [readPri_eq,hb]
    omega
  have hid := readUint32_beBytes pre (beBytes 4 (idWord s.assocReserved s.assocStreamId) ++
    ([UInt8.ofNat (s.pri*32+s.unused),s.slot] ++ rest)) (idWord_lt s.reserved s.streamId)
  have hassoc := readUint32_second pre (beBytes 4 (idWord s.reserved s.streamId))
    ([UInt8.ofNat (s.pri*32+s.unused),s.slot] ++ rest) (idWord_lt s.assocReserved s.assocStreamId)
    (beBytes_length 4 _)
  have hbyte := peekByte_second pre (beBytes 4 (idWord s.reserved s.streamId) ++
    beBytes 4 (idWord s.assocReserved s.assocStreamId)) (s.slot::rest) (UInt8.ofNat (s.pri*32+s.unused))
  have hslot := peekByte_second pre (beBytes 4 (idWord s.reserved s.streamId) ++
    (beBytes 4 (idWord s.assocReserved s.assocStreamId) ++ [UInt8.ofNat (s.pri*32+s.unused)])) rest s.slot
  simp only [List.append_assoc,List.cons_append,List.nil_append,List.length_append,beBytes_length,
    List.length_singleton] at hid hassoc hbyte hslot
  push_cast at hbyte hslot
  simp only [readSynStream,SynStreamPart.encode,List.append_assoc,List.cons_append,List.nil_append,hid,
    hassoc,hbyte,hslot,ok_bind,maskStreamId_idWord,hpri]

/-- Both words of a GOAWAY or RST_STREAM payload. -/
theorem readUint32_idStatus (pre rest : List UInt8) (s : IdStatusPart) :
    readUint32 (pre ++ (s.encode ++ rest)) pre.length = .ok (idWord s.reserved s.id) ∧
    readUint32 (pre ++ (s.encode ++ rest)) (pre.length+4) = .ok s.status := by
  rw [IdStatusPart.encode,List.append_assoc]
  exact ⟨readUint32_beBytes pre _ (idWord_lt s.reserved s.id),
    readUint32_second pre _ rest s.status.isLt (beBytes_length 4 _)⟩

theorem readGoaway_encode (pre rest : List UInt8) (s : IdStatusPart) :
    readGoaway (pre ++ (s.encode ++ rest)) pre.length = .ok ⟨s.id,s.status⟩ := by
  obtain ⟨hid,hstatus⟩ := readUint32_idStatus pre rest s
  rw [readGoaway,hid,ok_bind,hstatus,ok_bind,maskStreamId_idWord]

theorem readRstStream_encode (pre rest : List UInt8) (s : IdStatusPart) :
    readRstStream (pre ++ (s.encode ++ rest)) pre.length = .ok ⟨s.id,s.status⟩ := by
  obtain ⟨hid,hstatus⟩ := readUint32_idStatus pre rest s
  rw [readRstStream,hid,ok_bind,hstatus,ok_bind,maskStreamId_idWord]

/-- Written headers and laid out payloads, at any place of a buffer, are read as they are. -/
def FieldsDecode (pre rest : List UInt8) (type : Fin (2^16)) (flags : UInt8) (length : Fin (2^24))
    (syn : SynStreamPart) (away rst : IdStatusPart) : Prop :=
  spdyReadCtrl (pre ++ (spdyWriteCtrl type flags length ++ rest)) pre.length =
      .ok ⟨3,type,flags,length⟩ ∧
    readSynStream (pre ++ (syn.encode ++ rest)) pre.length =
      .ok ⟨syn.streamId,syn.assocStreamId,syn.pri,syn.slot⟩ ∧
    readGoaway (pre ++ (away.encode ++ rest)) pre.length = .ok ⟨away.id,away.status⟩ ∧
    readRstStream (pre ++ (rst.encode ++ rest)) pre.length = .ok ⟨rst.id,rst.status⟩

/-- The fields decode exactly for the lowest priority value. -/
theorem fieldsDecode_iff (pre rest : List UInt8) (type : Fin (2^16)) (flags : UInt8)
    (length : Fin (2^24)) (syn : SynStreamPart) (away rst : IdStatusPart) :
    FieldsDecode pre rest type flags length syn away rst ↔ syn.pri = 0 := by
  have hctrl : spdyReadCtrl (pre ++ (spdyWriteCtrl type flags length ++ rest)) pre.length =
      .ok ⟨3,type,flags,length⟩ :=
    (spdyReadCtrl_append_right pre _).trans (spdyReadCtrl_write flags rest type.isLt length.isLt)
  rw [FieldsDecode,readSynStream_encode]
  constructor
  · rintro ⟨_,hsyn,_,_⟩
    have hpri : (syn.pri : ℕ)/2 = syn.pri := congrArg SynStreamCtrl.pri (Except.ok.inj hsyn)
    exact Fin.ext (by rw [Fin.val_zero]; omega)
  · intro hpri
    refine ⟨hctrl,?_,readGoaway_encode pre rest away,readRstStream_encode pre rest rst⟩
    rw [hpri]
    rfl

theorem not_fieldsDecode_seven : ¬ FieldsDecode [] [] 1 0 10 ⟨false,1,false,0,7,0,0⟩
    ⟨false,1,0⟩ ⟨false,1,0⟩ := by
  rintro ⟨_,hsyn,_,_⟩
  revert hsyn
  decide

end Layout

section Data

/-- The cases of the switch in `spdy_process_frame`. -/
inductive SpdyHandler
  | synStream | rstStream | goaway
  deriving DecidableEq, Repr

def handlerOf (type : ℕ) : Option SpdyHandler :=
  if type = spdySynStream then some .synStream
  else if type = spdyRstStream then some .rstStream
  else if type = spdyGoaway then some .goaway
  else none

def SpdyHandler.call (env : SpdyEnv Z) (conn : SpdyConn Z) (buf : Buffer) (ctrl : SpdyCtrl) (pos : ℕ) :
    SpdyHandler → Exec (Ret × SpdyConn Z × ℕ)
  | .synStream => handleSynStream env conn buf ctrl pos
  | .rstStream => handleRstStream conn buf ctrl pos
  | .goaway => handleGoaway conn buf ctrl pos

/-- The handler that `spdy_process_frame` calls for the frame at the cursor, if any. -/
def dispatchedTo (buf : Buffer) (pos : ℕ) : Exec (Option SpdyHandler) :=
  if buf.len < spdyFrameHeadLength then .ok none
  else do
    let ctrl ← spdyReadCtrl buf.buf pos
    if ctrl.version ≠ 3 then .ok none
    else if Incomplete buf ctrl pos then .ok none
    else .ok (handlerOf ctrl.type)

theorem dispatch_eq (env : SpdyEnv Z) (conn : SpdyConn Z) (buf : Buffer) (ctrl : SpdyCtrl) (pos : ℕ) :
    dispatch env conn buf ctrl pos = match handlerOf ctrl.type with
      | some h => h.call env (conn.record buf ctrl pos) buf ctrl pos
      | none => .error (.exit 1) := by
  unfold dispatch handlerOf
  split_ifs <;> rfl

/-- The handler called is the one named, in every state of the connection; where none is named, the
connection and the cursor stay, or the process ends. -/
theorem spdyProcessFrame_dispatchedTo (env : SpdyEnv Z) (conn : SpdyConn Z) (buf : Buffer) (pos : ℕ) :
    match dispatchedTo buf pos with
    | .ok (some h) => ∃ ctrl, spdyReadCtrl buf.buf pos = .ok ctrl ∧ handlerOf ctrl.type = some h ∧
        spdyProcessFrame env conn buf pos =
          h.call env (conn.record buf ctrl (pos+8)) buf ctrl (pos+8)
    | .ok none => spdyProcessFrame env conn buf pos = .error (.exit 1) ∨
        ∃ ret, spdyProcessFrame env conn buf pos = .ok (ret,conn,pos)
    | .error e => spdyProcessFrame env conn buf pos = .error e := by
  unfold dispatchedTo spdyProcessFrame
  by_cases hlen : buf.len < spdyFrameHeadLength
  · rw [if_pos hlen,if_pos hlen]
    exact Or.inr ⟨_,rfl⟩
  rw [if_neg hlen,if_neg hlen]
  rcases hctrl : spdyReadCtrl buf.buf pos with e | ctrl
  · rfl
  simp only [ok_bind]
  by_cases hver : ctrl.version ≠ 3
  · rw [if_pos hver,if_pos hver]
    exact Or.inr ⟨_,rfl⟩
  rw [if_neg hver,if_neg hver]
  by_cases hinc : Incomplete buf ctrl pos
  · rw [if_pos hinc,if_pos hinc]
    exact Or.inr ⟨_,rfl⟩
  rw [if_neg hinc,if_neg hinc,dispatch_eq]
  rcases htype : handlerOf ctrl.type with _ | h
  · exact Or.inl rfl
  · exact ⟨ctrl,rfl,htype,rfl⟩

theorem handlerOf_isSome (type : ℕ) :
    handlerOf type ≠ none ↔ type = spdySynStream ∨ type = spdyRstStream ∨ type = spdyGoaway := by
  unfold handlerOf
  split_ifs with h1 h3 h7 <;> simp [*]

/-- A written data header: the id in four bytes, the flags and the length in three. -/
theorem spdyWriteData_eq {id : ℕ} (hid : id < 2^31) (fl : UInt8) (n : ℕ) :
    spdyWriteData id fl n = beBytes 2 (id/2^16) ++ (beBytes 2 id ++ (fl::beBytes 3 n)) := by
  have hmask : (UInt8.ofNat (id/256/256/256)) &&& 0x7F = UInt8.ofNat (id/256/256/256) := by
    apply UInt8.toNat_inj.mp
    rw [UInt8.toNat_and,UInt8.toNat_ofNat']
    have h7 : (0x7F : UInt8).toNat = 2^7-1 := rfl
    rw [h7,Nat.and_two_pow_sub_one_eq_mod]
    omega
  have hdiv : id/2^16 = id/256/256 := by omega
  rw [spdyWriteData,hdiv]
  simp [beBytes,hmask]

/-- A header of any version. -/
theorem spdyReadCtrl_header {v t n : ℕ} (fl : UInt8) (rest : List UInt8) (hv : v < 2^16)
    (ht : t < 2^16) (hn : n < 2^24) :
    spdyReadCtrl (beBytes 2 v ++ (beBytes 2 t ++ (fl::beBytes 3 n)) ++ rest) 0 =
      .ok ⟨v % 2^15,t,fl,n⟩ := by
  generalize hblk : beBytes 2 v ++ (beBytes 2 t ++ (fl::beBytes 3 n)) ++ rest = blk
  have hlen : 8 ≤ blk.length := by rw [← hblk]; simp; omega
  have h0 : slice blk 0 2 = beBytes 2 v := by rw [← hblk]; rfl
  have h2 : slice blk 2 2 = beBytes 2 t := by rw [← hblk]; rfl
  have h4 : slice blk 4 4 = fl::beBytes 3 n := by rw [← hblk]; rfl
  have hget : blk.getD 4 0 = fl := by rw [← hblk]; rfl
  have hver := readUint16_ok blk 0 (by omega)
  have htype := readUint16_ok blk 2 (by omega)
  have hfl := peekByte_ok blk 4 (by omega)
  have hlength := readUint32_ok blk 4 (by omega)
  have hmask : maskVersion v = v % 2^15 := Nat.and_two_pow_sub_one_eq_mod v 15
  have hml : maskLength (beNat (fl::beBytes 3 n)) = n := by
    rw [maskLength_eq,beNat_cons,beNat_beBytes_of_lt (by omega),beBytes_length]
    omega
  rw [h0,beNat_beBytes_of_lt (by omega)] at hver
  rw [h2,beNat_beBytes_of_lt (by omega)] at htype
  rw [hget] at hfl
  rw [h4] at hlength
  push_cast at hver htype hfl hlength
  simp only [spdyReadCtrl,zero_add,hver,htype,hfl,hlength,ok_bind,hmask,hml]

/-- The id of a data frame is read as a version and a type. -/
theorem spdyReadCtrl_data {id n : ℕ} {fl : UInt8} {buf : Buffer} {pos : ℕ} (hid : id < 2^31)
    (hn : n < 2^24) (hfit : pos+8 ≤ buf.buf.length) (h : slice buf.buf pos 8 = spdyWriteData id fl n) :
    spdyReadCtrl buf.buf pos = .ok ⟨id/2^16,id%2^16,fl,n⟩ := by
  have hpre : buf.buf = buf.buf.take pos ++ (spdyWriteData id fl n ++ buf.buf.drop (pos+8)) := by
    rw [← h,slice,← List.drop_drop,List.take_append_drop,List.take_append_drop]
  have hlen : (buf.buf.take pos).length = pos := List.length_take_of_le (by omega)
  have hlow : beBytes 2 id = beBytes 2 (id%2^16) := by
    have hdiv : id%2^16/256 = id/256%256 := by omega
    simp only [beBytes,List.nil_append,hdiv]
    congr 2 <;> exact UInt8.toNat_inj.mp (by rw [UInt8.toNat_ofNat',UInt8.toNat_ofNat']; omega)
  have hread := spdyReadCtrl_append_right (buf.buf.take pos)
    (spdyWriteData id fl n ++ buf.buf.drop (pos+8))
  rw [hlen,← hpre,spdyWriteData_eq hid,hlow,
    spdyReadCtrl_header fl _ (by omega) (Nat.mod_lt _ (by norm_num)) hn,
    Nat.mod_eq_of_lt (by omega : id/2^16 < 2^15)] at hread
  exact hread

/-- A data frame at the cursor goes to no handler exactly when its id does not read as version 3
and the type of one, or it has not arrived in full. -/
theorem data_not_dispatched_iff {buf : Buffer} (hwf : buf.Wf) {pos id n : ℕ} {fl : UInt8}
    (hid : id < 2^31) (hn : n < 2^24) (hin : pos+8 ≤ buf.len)
    (hframe : slice buf.buf pos 8 = spdyWriteData id fl n) :
    (∀ h, dispatchedTo buf pos ≠ .ok (some h)) ↔
      ¬ (id/2^16 = 3 ∧ (id%2^16 = spdySynStream ∨ id%2^16 = spdyRstStream ∨ id%2^16 = spdyGoaway) ∧
        pos+8+n ≤ buf.len) := by
  have hlen := hwf.len_le
  have hlt := hwf.len_lt
  have hread := spdyReadCtrl_data hid hn (hin.trans hlen) hframe
  have hinc : Incomplete buf ⟨id/2^16,id%2^16,fl,n⟩ pos ↔ ¬ pos+8+n ≤ buf.len := by
    have hsub := cuint_sub hin hlt
    push_cast at hsub
    rw [Incomplete,hsub]
    dsimp only
    omega
  have hto : dispatchedTo buf pos = .ok (if id/2^16 = 3 ∧ pos+8+n ≤ buf.len then handlerOf (id%2^16)
      else none) := by
    rw [dispatchedTo,if_neg (by simp only [spdyFrameHeadLength]; omega),hread,ok_bind]
    simp only [hinc]
    split_ifs <;> first | rfl | (exfalso; tauto)
  rw [hto,← handlerOf_isSome]
  split_ifs with hc
  · rw [Option.ne_none_iff_exists']
    simp only [ne_eq,Except.ok.injEq,hc.1,hc.2,true_and,and_true,not_exists]
  · simp only [ne_eq,Except.ok.injEq,reduceCtorEq,not_false_iff,implies_true,true_iff]
    tauto

theorem data_not_dispatched_iff_goaway :
    (∀ h, dispatchedTo (Buffer.holding (spdyWriteData 0x30007 0 8 ++ [0,0,0,1,0,0,0,0])) 0 ≠ .ok (some h)) ↔
      ¬ (0x30007/2^16 = 3 ∧ (0x30007%2^16 = spdySynStream ∨ 0x30007%2^16 = spdyRstStream ∨
        0x30007%2^16 = spdyGoaway) ∧
        0+8+8 ≤ (Buffer.holding (spdyWriteData 0x30007 0 8 ++ [0,0,0,1,0,0,0,0])).len) :=
  have hframe : slice (spdyWriteData 0x30007 0 8 ++ [0,0,0,1,0,0,0,0] ++ [0]) 0 8 =
    spdyWriteData 0x30007 0 8 := by decide
  data_not_dispatched_iff (Buffer.holding_wf (by decide)) (by norm_num) (by norm_num) (by decide) hframe

theorem data_dispatched : dispatchedTo
    (Buffer.holding (spdyWriteData 0x30007 0 8 ++ [0,0,0,1,0,0,0,0])) 0 = .ok (some .goaway) := by
  decide

end Data

end Http2d
