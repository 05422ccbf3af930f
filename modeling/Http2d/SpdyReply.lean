import Http2d.SpdyConnection

/-! The step of a SPDY request: the reply and the data go to the write buffer of the connection. -/
namespace Http2d

open Bytes PairBlock

variable {Z : Type}

/-- The string of `http_ok`, that of `prot_app_http11` (the connections are created with it) and
`PACKAGE_NAME`. -/
def httpOkString : List UInt8 := "200 OK".toUTF8.data.toList
def httpVersionString : List UInt8 := "HTTP/1.1".toUTF8.data.toList
def packageName : List UInt8 := "HTTP2d".toUTF8.data.toList

/-- `SPDY_CTRL_FLAG_FIN`. -/
def spdyCtrlFlagFin : UInt8 := 1

/-- The payload of `TEMP_hello_world`. -/
def helloWorld : List UInt8 := "Hello World!!!!!!!!!\n".toUTF8.data.toList

/-- `req_spdy_header_base`. -/
def reqSpdyHeaderBase (req : RequestSpdy) : Exec RequestSpdy := do
  let req ← reqSpdyHeaderAdd req ":status".toUTF8.data.toList httpOkString
  reqSpdyHeaderAdd req ":version".toUTF8.data.toList httpVersionString

/-- `http2d_request_header_add_common`. -/
def requestHeaderAddCommon (req : RequestSpdy) : Exec RequestSpdy :=
  reqSpdyHeaderAdd req "server".toUTF8.data.toList packageName

/-- `req_spdy_header_finish`: the id is that of the connection. The results of the buffer are not
looked at. -/
def reqSpdyHeaderFinish (env : SpdyEnv Z) (conn : SpdyConn Z) (req : RequestSpdy) :
    Exec (RequestSpdy × SpdyConn Z) := do
  let req ← reqSpdyHeaderCount req
  let (tmp,zst) := env.deflate conn.zst req.headerBuf.content
  let ctrl := spdyWriteSynReply conn.ID 0 (cuint tmp.length)
  let (_,b) ← conn.bufferWrite.addStr ctrl
  let (_,b) ← b.addStr tmp
  .ok ({req with headerBuf := Buffer.init},
    {conn with bufferWrite := b, zst := zst, sent := conn.sent ++ [ctrl ++ tmp]})

/-- `TEMP_hello_world`. -/
def tempHelloWorld (conn : SpdyConn Z) : Exec (SpdyConn Z) := do
  let ctrl := spdyWriteData conn.ID spdyCtrlFlagFin helloWorld.length
  let (_,b) ← conn.bufferWrite.addStr ctrl
  let (_,b) ← b.addStr helloWorld
  .ok {conn with bufferWrite := b, sent := conn.sent ++ [ctrl ++ helloWorld]}

/-- `req_spdy_step`: all phases but the last fall through to the one that sends the reply. -/
def reqSpdyStep (env : SpdyEnv Z) (conn : SpdyConn Z) (req : RequestSpdy) :
    Exec (Ret × RequestSpdy × SpdyConn Z) :=
  if req.phase = .stepping then .ok (.eof,req,conn)
  else do
    let req ← reqSpdyHeaderBase req
    let req ← requestHeaderAddCommon req
    let (req,conn) ← reqSpdyHeaderFinish env conn req
    let conn ← tempHelloWorld conn
    .ok (.ok,{req with phase := .stepping},conn)

/-- The two frames of a reply with a given stream id. -/
def replyFrames (id : ℕ) (block : List UInt8) : List (List UInt8) :=
  [spdyWriteSynReply id 0 (cuint block.length) ++ block,
    spdyWriteData id spdyCtrlFlagFin helloWorld.length ++ helloWorld]

theorem replyFrames_length (id : ℕ) (block : List UInt8) :
    (replyFrames id block).flatten.length = block.length+41 := by
  have hhello : helloWorld.length = 21 := by decide
  simp [replyFrames,hhello]
  omega

/-- What a step does to the connection: nothing, or it sends the two frames with the id that the
connection has. -/
theorem reqSpdyStep_inv {env : SpdyEnv Z} {conn conn' : SpdyConn Z} {req req' : RequestSpdy}
    {ret : Ret} (h : reqSpdyStep env conn req = .ok (ret,req',conn')) :
    req.phase = .stepping ∧ ret = .eof ∧ conn' = conn ∨
      req.phase ≠ .stepping ∧ ret = .ok ∧ ∃ block b zst,
        conn' = {conn with bufferWrite := b, zst := zst, sent := conn.sent ++ replyFrames conn.ID block} := by
  unfold reqSpdyStep at h
  split_ifs at h with hphase
  · cases h
    exact Or.inl ⟨hphase,rfl,rfl⟩
  obtain ⟨_,_,h⟩ := bind_ok_inv h
  obtain ⟨_,_,h⟩ := bind_ok_inv h
  obtain ⟨⟨r,c⟩,hfinish,h⟩ := bind_ok_inv h
  obtain ⟨c',hhello,h⟩ := bind_ok_inv h
  cases h
  obtain ⟨r',_,hfinish⟩ := bind_ok_inv hfinish
  obtain ⟨_,_,hfinish⟩ := bind_ok_inv hfinish
  obtain ⟨_,_,hfinish⟩ := bind_ok_inv hfinish
  cases hfinish
  obtain ⟨_,_,hhello⟩ := bind_ok_inv hhello
  obtain ⟨⟨_,b⟩,_,hhello⟩ := bind_ok_inv hhello
  cases hhello
  refine Or.inr ⟨hphase,rfl,(env.deflate conn.zst r'.headerBuf.content).1,b,
    (env.deflate conn.zst r'.headerBuf.content).2,?_⟩
  simp [replyFrames]

/-- The headers of every reply. -/
def replyPairs : List Pair :=
  [(":status".toUTF8.data.toList,httpOkString),(":version".toUTF8.data.toList,httpVersionString),
    ("server".toUTF8.data.toList,packageName)]

theorem addPairs_replyPairs (req : RequestSpdy) :
    addPairs req replyPairs = reqSpdyHeaderBase req >>= requestHeaderAddCommon := by
  have hpure (x : Exec RequestSpdy) : (x >>= fun r => .ok r) = x := by cases x <;> rfl
  simp only [replyPairs,addPairs,reqSpdyHeaderBase,bind_assoc,hpure]
  rfl

/-- The first step of a request deflates the headers of every reply. -/
theorem reqSpdyStep_block {env : SpdyEnv Z} {conn conn' : SpdyConn Z} {req req' : RequestSpdy}
    {ret : Ret} (h : reqSpdyStep env conn req = .ok (ret,req',conn')) (hphase : req.phase ≠ .stepping)
    (hbuf : req.headerBuf = Buffer.init) (hnum : req.headerNum = 0) {block : List UInt8} {zst : Z}
    (hdef : env.deflate conn.zst (encode 4 replyPairs) = (block,zst)) :
    req'.phase = .stepping ∧ ∃ b, conn' =
      {conn with bufferWrite := b, zst := zst, sent := conn.sent ++ replyFrames conn.ID block} := by
  obtain ⟨r₁,r₂,h₁,h₂,_,hcont⟩ := headerBlock_content req hbuf hnum replyPairs (by decide)
  rw [addPairs_replyPairs] at h₁
  obtain ⟨r₀,h₀,h₁⟩ := bind_ok_inv h₁
  simp only [reqSpdyStep,if_neg hphase,h₀,h₁,ok_bind] at h
  obtain ⟨⟨r,c⟩,hfinish,h⟩ := bind_ok_inv h
  obtain ⟨c',hhello,h⟩ := bind_ok_inv h
  cases h
  simp only [reqSpdyHeaderFinish,h₂,ok_bind,hcont,hdef] at hfinish
  obtain ⟨_,_,hfinish⟩ := bind_ok_inv hfinish
  obtain ⟨_,_,hfinish⟩ := bind_ok_inv hfinish
  cases hfinish
  obtain ⟨_,_,hhello⟩ := bind_ok_inv hhello
  obtain ⟨⟨_,b⟩,_,hhello⟩ := bind_ok_inv hhello
  cases hhello
  exact ⟨rfl,b,by simp [replyFrames]⟩

/-- The first step of a request puts the two frames behind what is in the write buffer. -/
theorem reqSpdyStep_returns (env : SpdyEnv Z) (conn : SpdyConn Z) (req : RequestSpdy)
    (hphase : req.phase ≠ .stepping) (hbuf : req.headerBuf = Buffer.init)
    (hnum : req.headerNum = 0) (hwf : conn.bufferWrite.Wf) {block : List UInt8} {zst : Z}
    (hdef : env.deflate conn.zst (encode 4 replyPairs) = (block,zst))
    (hroom : conn.bufferWrite.len+block.length+58 < 2^32) (hblock : block.length < 2^31) :
    ∃ req' conn', reqSpdyStep env conn req = .ok (.ok,req',conn') ∧ req'.phase = .stepping ∧
      conn'.bufferWrite.Wf ∧ conn'.ID = conn.ID ∧ conn'.sent = conn.sent ++ replyFrames conn.ID block ∧
      conn'.bufferWrite.content =
        conn.bufferWrite.content ++ (replyFrames conn.ID block).flatten := by
  have hhello : helloWorld.length = 21 := by decide
  obtain ⟨r₁,r₂,h₁,h₂,_,hcont⟩ := headerBlock_content req hbuf hnum replyPairs (by decide)
  rw [addPairs_replyPairs] at h₁
  obtain ⟨r₀,h₀,h₁⟩ := bind_ok_inv h₁
  obtain ⟨b₁,hb₁,hw₁,hc₁,hl₁,_⟩ := Buffer.addStr_spec hwf
    (spdyWriteSynReply conn.ID 0 (cuint block.length)) (by simp; omega) (by simp)
  rw [spdyWriteSynReply_length] at hl₁
  obtain ⟨b₂,hb₂,hw₂,hc₂,hl₂,_⟩ := Buffer.addStr_spec hw₁ block (by omega) (by omega)
  obtain ⟨b₃,hb₃,hw₃,hc₃,hl₃,_⟩ := Buffer.addStr_spec hw₂
    (spdyWriteData conn.ID spdyCtrlFlagFin helloWorld.length) (by simp; omega) (by simp)
  rw [spdyWriteData_length] at hl₃
  obtain ⟨b₄,hb₄,hw₄,hc₄,_,_⟩ := Buffer.addStr_spec hw₃ helloWorld (by omega) (by omega)
  have hfinish : reqSpdyHeaderFinish env conn r₁ = .ok ({r₂ with headerBuf := Buffer.init},
      {conn with bufferWrite := b₂, zst := zst, sent := conn.sent ++
        [spdyWriteSynReply conn.ID 0 (cuint block.length) ++ block]}) := by
    simp only [reqSpdyHeaderFinish,h₂,ok_bind,hcont,hdef,hb₁,hb₂]
  refine ⟨{r₂ with headerBuf := Buffer.init, phase := .stepping},{conn with
    bufferWrite := b₄, zst := zst, sent := conn.sent ++ replyFrames conn.ID block},?_,rfl,hw₄,rfl,
    rfl,?_⟩
  · simp only [reqSpdyStep,if_neg hphase,h₀,h₁,ok_bind,hfinish,tempHelloWorld,hb₃,hb₄,replyFrames,
      List.append_assoc]
    rfl
  · simp only [hc₄,hc₃,hc₂,hc₁,replyFrames,List.flatten_cons,List.flatten_nil,List.append_nil,
      List.append_assoc]

/-- The stream id that a SYN_REPLY frame and a DATA frame carry. -/
def replyId (frame : List UInt8) : ℕ := beNat (slice frame 8 4)
def dataId (frame : List UInt8) : ℕ := beNat (slice frame 0 4)

/-- A stream id is written with its top bit cleared. -/
theorem beNat_clear_top (id : ℕ) : beNat ((beBytes 4 id).modify 0 (· &&& 0x7F)) = id % 2^31 := by
  have hbytes : beBytes 4 id = UInt8.ofNat (id/256/256/256)::beBytes 3 id := rfl
  have htop : (UInt8.ofNat (id/256/256/256) &&& 0x7F).toNat = id/256/256/256 % 256 % 2^7 := by
    rw [UInt8.toNat_and,UInt8.toNat_ofNat']
    exact Nat.and_two_pow_sub_one_eq_mod _ 7
  rw [hbytes,List.modify_zero_cons,beNat_cons,htop,beNat_beBytes,beBytes_length]
  omega

theorem replyId_write (id : ℕ) (fl : UInt8) (n : ℕ) (block : List UInt8) :
    replyId (spdyWriteSynReply id fl n ++ block) = id % 2^31 := by
  have hlen : ((beBytes 4 id).modify 0 (· &&& 0x7F)).length = 4 := by simp
  have h8 : 8 = (spdyWriteCtrl spdySynReply fl (cuint (n+4))).length+0 := by simp
  rw [replyId,spdyWriteSynReply,List.append_assoc,h8,slice_append_right,
    slice_front_eq hlen,beNat_clear_top]

theorem dataId_write (id : ℕ) (fl : UInt8) (n : ℕ) (payload : List UInt8) :
    dataId (spdyWriteData id fl n ++ payload) = id % 2^31 := by
  have hlen : ((beBytes 4 id).modify 0 (· &&& 0x7F)).length = 4 := by simp
  have hset : spdyWriteData id fl n = (beBytes 4 id).modify 0 (· &&& 0x7F) ++
      (beBytes 4 n).set 0 fl := by
    rw [spdyWriteData,List.set_append_right _ _ (by omega),hlen]
  rw [dataId,hset,List.append_assoc,slice_front_eq hlen,beNat_clear_top]

end Http2d
