import Http2d.SpdyServer
import Http2d.Library.Framing

/-! Framing over a byte stream that arrives in pieces.
A read in which one frame ends and little follows it is cut as the stream says. Behind a frame
the cursor is not set back, so a second header is looked for at a wrong place. -/
namespace Http2d

open Bytes WhileLoop Transition Framing

variable {Z : Type}

/-- A control frame of version 3 with its full fixed part. -/
structure CtrlFrame where
  type : ℕ
  flags : UInt8
  payload : List UInt8
  fixed : type = spdySynStream ∧ 10 ≤ payload.length ∨
    (type = spdyRstStream ∨ type = spdyGoaway) ∧ 8 ≤ payload.length
  short : payload.length < 2^24

def CtrlFrame.ctrl (f : CtrlFrame) : SpdyCtrl := ⟨3,f.type,f.flags,f.payload.length⟩

def CtrlFrame.bytes (f : CtrlFrame) : List UInt8 :=
  spdyWriteCtrl f.type f.flags f.payload.length ++ f.payload

/-- The frame handed to its handler with its own header and payload, when it begins at `pos`. -/
def CtrlFrame.handedAt (pos : ℕ) (f : CtrlFrame) : Dispatch := ⟨f.ctrl,pos+8,f.payload⟩

/-- A frame is handed over from the front of the buffer. -/
def CtrlFrame.handed (f : CtrlFrame) : Dispatch := f.handedAt 0

theorem CtrlFrame.bytes_length (f : CtrlFrame) : f.bytes.length = 8+f.payload.length := by
  simp [bytes]

theorem CtrlFrame.length_ge (f : CtrlFrame) : 16 ≤ f.bytes.length := by
  rw [bytes_length]
  rcases f.fixed with ⟨_,h⟩ | ⟨_,h⟩ <;> omega

theorem CtrlFrame.type_lt (f : CtrlFrame) : f.type < 2^16 := by
  rcases f.fixed with ⟨h,_⟩ | ⟨h | h,_⟩ <;> rw [h] <;> decide

/-- The request of a SYN_STREAM frame is taken: no GOAWAY came before it, it can be allocated,
and its header block is inflated and decodes. -/
def SynAccepted (env : SpdyEnv Z) (conn : SpdyConn Z) (buf : Buffer) (pos : ℕ) : Prop :=
  conn.goingAway = false ∧ (env.newReq conn.zst).1 = true ∧ ∃ tmp zst,
    env.inflate (env.newReq conn.zst).2 (buf.buf.drop (pos+10)) (cuint ((buf.len : ℤ)-(pos+10 : ℕ))) =
      .ok (.ok,tmp,zst) ∧ tmp.Wf ∧ DecodesShort tmp.content

/-- The read leaves less than twelve bytes in the buffer, or it completes the first frame, with at
most eight bytes behind it, and this frame is accepted. -/
def EndsOneFrame (env : SpdyEnv Z) (count : ℕ) (s : SpdyServer Z) (chunk : List UInt8) : Prop :=
  chunk.length ≤ count ∧ ∀ ret b, s.bufferRead.socketReadBuf count chunk = .ok (ret,b) →
    12 ≤ b.len → ∀ ctrl, spdyReadCtrl b.buf 0 = .ok ctrl →
      8+ctrl.length ≤ b.len ∧ b.len ≤ 8+ctrl.length+8 ∧
        (ctrl.type = spdySynStream → SynAccepted env s.conn b 8)

/-- An accepted SYN_STREAM frame adds a request and is consumed. -/
theorem handleSynStream_ok {env : SpdyEnv Z} (conn : SpdyConn Z) {buf : Buffer}
    (ctrl : SpdyCtrl) {pos : ℕ} (hfit : pos+10 ≤ buf.buf.length) (haway : conn.goingAway = false)
    (hnew : (env.newReq conn.zst).1 = true) {tmp : Buffer} {zst : Z}
    (hinf : env.inflate (env.newReq conn.zst).2 (buf.buf.drop (pos+10))
      (cuint ((buf.len : ℤ)-(pos+10 : ℕ))) = .ok (.ok,tmp,zst))
    (hwf : tmp.Wf) (hdec : DecodesShort tmp.content) :
    ∃ hdr, handleSynStream env conn buf ctrl pos = .ok (.ok,{conn with
      ID := maskStreamId (beNat (slice buf.buf pos 4))
      zst := zst
      synLog := conn.synLog ++ [maskStreamId (beNat (slice buf.buf pos 4))]
      requests := ⟨{RequestSpdy.new with header := hdr},true,conn.synLog.length⟩::conn.requests},
      pos+ctrl.length) := by
  obtain ⟨hdr,calls,hread,_⟩ := readNameValue_short hwf Header.init_wf hdec
  refine ⟨hdr,?_⟩
  rw [handleSynStream_opens env conn ctrl haway hnew hfit hinf hread]
  simp [SpdyConn.opened]

/-- A frame somewhere in the string goes to its handler. -/
theorem dispatch_at {env : SpdyEnv Z} {conn : SpdyConn Z} {buf : Buffer} {f : CtrlFrame}
    {before rest : List UInt8} (hcont : buf.content = before ++ (f.bytes ++ rest))
    (hsyn : f.type = spdySynStream → SynAccepted env conn buf (before.length+8)) :
    ∃ conn', dispatch env conn buf f.ctrl (before.length+8) =
        .ok (.ok,conn',before.length+8+f.payload.length) ∧
      conn'.dispatched = conn.dispatched ++ [f.handedAt before.length] := by
  have hbuf := buf.buf_eq
  rw [hcont,CtrlFrame.bytes,List.append_assoc,List.append_assoc,List.append_assoc] at hbuf
  have hpay : slice buf.buf (before.length+8) f.payload.length = f.payload := by
    have h8 : 8 = (spdyWriteCtrl f.type f.flags f.payload.length).length+0 := by simp
    rw [hbuf,slice_append_right,h8,slice_append_right,slice_front]
  have hmem : before.length+8+f.payload.length ≤ buf.buf.length := by rw [hbuf]; simp; omega
  have hrec : (conn.record buf f.ctrl (before.length+8)).dispatched =
      conn.dispatched ++ [f.handedAt before.length] := by
    simp only [SpdyConn.record,CtrlFrame.ctrl,CtrlFrame.handedAt,hpay]
  have htype : f.ctrl.type = f.type := rfl
  unfold dispatch
  rw [htype]
  rcases f.fixed with ⟨ht,hlen⟩ | ⟨ht,hlen⟩
  · rw [if_pos ht]
    obtain ⟨haway,hnew,tmp,zst,hinf,hwf,hdec⟩ := hsyn ht
    obtain ⟨hdr,hout⟩ := handleSynStream_ok (conn.record buf f.ctrl (before.length+8))
      f.ctrl (by omega) haway hnew hinf hwf hdec
    exact ⟨_,hout,hrec⟩
  · rcases ht with ht | ht <;> rw [ht]
    · rw [if_neg (by decide),if_pos rfl]
      exact ⟨_,handleRstStream_returns _ f.ctrl (by omega),hrec⟩
    · rw [if_neg (by decide),if_neg (by decide),if_pos rfl]
      exact ⟨_,handleGoaway_returns _ f.ctrl (by omega),hrec⟩

/-- The turn handles the frame that the cursor points at, and moves over the front of the buffer
as many bytes as the cursor says. -/
theorem scanTurn_dispatched {env : SpdyEnv Z} {conn conn' : SpdyConn Z} {buf : Buffer}
    {f : CtrlFrame} {before rest : List UInt8} (hwf : buf.Wf)
    (hcont : buf.content = before ++ (f.bytes ++ rest))
    (hdisp : dispatch env conn buf f.ctrl (before.length+8) =
      .ok (.ok,conn',before.length+8+f.payload.length)) :
    scanTurn env ⟨conn,buf,before.length⟩ =
      .again ⟨conn',buf.moveToBegin (before ++ f.bytes).length,(before ++ f.bytes).length⟩ := by
  have hlen : buf.len = before.length+8+f.payload.length+rest.length := by
    rw [← Buffer.content_length hwf,hcont,List.length_append,List.length_append,f.bytes_length]
    omega
  have h16 := f.length_ge
  have hlt := hwf.len_lt
  rw [f.bytes_length] at h16
  have hread : spdyReadCtrl buf.buf before.length = .ok f.ctrl := by
    rw [buf.buf_eq,hcont,List.append_assoc,spdyReadCtrl_append_right,CtrlFrame.bytes,
      List.append_assoc,List.append_assoc]
    exact spdyReadCtrl_write f.flags _ f.type_lt f.short
  have hcomplete : ¬ Incomplete buf f.ctrl before.length := by
    show ¬ cuint ((buf.len : ℤ)-(before.length+8)) < f.payload.length
    simp only [cuint]
    omega
  have hver : f.ctrl.version = 3 := rfl
  have hframe : spdyProcessFrame env conn buf before.length =
      .ok (.ok,conn',before.length+8+f.payload.length) := by
    unfold spdyProcessFrame
    rw [if_neg (by simp only [spdyFrameHeadLength]; omega),hread,ok_bind,
      if_neg (not_not.mpr hver),if_neg hcomplete]
    exact hdisp
  have hpos : (before ++ f.bytes).length = before.length+8+f.payload.length := by
    rw [List.length_append,f.bytes_length,Nat.add_assoc]
  unfold scanTurn
  rw [if_pos (by show 8 < buf.len; omega),hpos]
  simp only [hframe]

theorem scanTurn_at (env : SpdyEnv Z) (conn : SpdyConn Z) {buf : Buffer} {f : CtrlFrame}
    (before : List UInt8) {rest : List UInt8} (hwf : buf.Wf)
    (hcont : buf.content = before ++ (f.bytes ++ rest))
    (hsyn : f.type = spdySynStream → SynAccepted env conn buf (before.length+8)) :
    ∃ conn', conn'.dispatched = conn.dispatched ++ [f.handedAt before.length] ∧
      scanTurn env ⟨conn,buf,before.length⟩ =
        .again ⟨conn',buf.moveToBegin (before ++ f.bytes).length,(before ++ f.bytes).length⟩ := by
  obtain ⟨conn',hdisp,hrec⟩ := dispatch_at hcont hsyn
  exact ⟨conn',hrec,scanTurn_dispatched hwf hcont hdisp⟩

/-- The loop ends after a turn that leaves at most eight bytes. -/
theorem spdyProcessBuffer_one {env : SpdyEnv Z} {conn conn' : SpdyConn Z} {buf : Buffer} {pos : ℕ}
    (h12 : 12 ≤ buf.len) (hrest : buf.len ≤ pos+8)
    (hturn : scanTurn env ⟨conn,buf,0⟩ = .again ⟨conn',buf.moveToBegin pos,pos⟩) :
    spdyProcessBuffer env conn buf = some (.ok (.ok,conn',buf.moveToBegin pos)) := by
  have hsecond : scanTurn env ⟨conn',buf.moveToBegin pos,pos⟩ =
      .stop (.ok (.ok,conn',buf.moveToBegin pos)) := by
    unfold scanTurn
    exact if_neg (by simp only [Buffer.moveToBegin_len]; omega)
  rw [spdyProcessBuffer,if_neg (by omega),run_again hturn,show buf.len = buf.len-1+1 by omega,
    run_stop hsecond]

/-- One frame with at most eight bytes behind it is taken off the buffer. -/
theorem spdyProcessBuffer_front {env : SpdyEnv Z} {conn : SpdyConn Z} {buf : Buffer}
    {f : CtrlFrame} {rest : List UInt8} (hwf : buf.Wf) (hcont : buf.content = f.bytes ++ rest)
    (hrest : rest.length ≤ 8) (hsyn : f.type = spdySynStream → SynAccepted env conn buf 8) :
    ∃ conn' buf', spdyProcessBuffer env conn buf = some (.ok (.ok,conn',buf')) ∧ buf'.Wf ∧
      conn'.dispatched = conn.dispatched ++ [f.handed] ∧ buf'.content = rest := by
  have hlen : buf.len = f.bytes.length+rest.length := by
    rw [← Buffer.content_length hwf,hcont,List.length_append]
  have h16 := f.length_ge
  obtain ⟨conn',hdisp,hturn⟩ := scanTurn_at env conn [] hwf hcont (by simpa using hsyn)
  refine ⟨conn',buf.moveToBegin f.bytes.length,
    spdyProcessBuffer_one (by omega) (by omega) hturn,Buffer.moveToBegin_wf hwf _,hdisp,?_⟩
  rw [Buffer.moveToBegin_content hwf,hcont,List.drop_left]

/-- The connection is served, the frames that arrived completely were handed over in order, and
the buffer holds what is left over. -/
structure Framed (fs : List CtrlFrame) (received : List UInt8) (s : SpdyServer Z) : Prop where
  served : s.failed = false
  dispatched : s.conn.dispatched = (cut CtrlFrame.bytes fs received).1.map CtrlFrame.handed
  content : s.bufferRead.content = (cut CtrlFrame.bytes fs received).2

theorem cut_of_lt_sixteen (fs : List CtrlFrame) (received : List UInt8)
    (h : received.length < 16) : cut CtrlFrame.bytes fs received = ([],received) :=
  cut_of_short _ fun f _ => lt_of_lt_of_le h f.length_ge

theorem framed_new (fs : List CtrlFrame) (zst : Z) : Framed fs [] (SpdyServer.new zst) := by
  have hcut := cut_of_lt_sixteen fs [] (by decide)
  exact ⟨rfl,by rw [hcut]; rfl,by rw [hcut]; rfl⟩

/-- The state after a read is described by what the read completed. -/
theorem Framed.append {fs new : List CtrlFrame} {received chunk left : List UInt8}
    {s t : SpdyServer Z} (hs : Framed fs received s)
    (hcut : cut CtrlFrame.bytes (fs.drop (cut CtrlFrame.bytes fs received).1.length)
      (s.bufferRead.content ++ chunk) = (new,left))
    (hserved : t.failed = false)
    (hdisp : t.conn.dispatched = s.conn.dispatched ++ new.map CtrlFrame.handed)
    (hcont : t.bufferRead.content = left) : Framed fs (received ++ chunk) t := by
  have happ := cut_append CtrlFrame.bytes fs received chunk
  simp only [← hs.content,hcut] at happ
  exact ⟨hserved,by rw [happ,hdisp,hs.dispatched,List.map_append],by rw [happ,hcont]⟩

/-- When the stream of frames has brought twelve bytes, the header of the first one is there. -/
theorem spdyReadCtrl_stream {buf : Buffer} {f : CtrlFrame} {fs : List CtrlFrame} (hwf : buf.Wf)
    (h12 : 12 ≤ buf.len) (h : buf.content <+: (f::fs).flatMap CtrlFrame.bytes) :
    spdyReadCtrl buf.buf 0 = .ok f.ctrl := by
  have hlen := Buffer.content_length hwf
  obtain ⟨rest,hrest⟩ : spdyWriteCtrl f.type f.flags f.payload.length <+: buf.content := by
    refine List.prefix_of_prefix_length_le ?_ h (by rw [spdyWriteCtrl_length]; omega)
    simp [CtrlFrame.bytes,List.append_assoc]
  exact spdyReadCtrl_front hrest.symm f.type_lt f.short

/-- One read of a stream of frames. -/
theorem serveRead_framed {env : SpdyEnv Z} {count : ℕ} (hcount : count+16 < 2^32)
    {fs : List CtrlFrame} {received chunk : List UInt8} {s : SpdyServer Z}
    (hpre : received ++ chunk <+: fs.flatMap CtrlFrame.bytes) (hwait : s.Waiting)
    (hs : Framed fs received s) (hg : EndsOneFrame env count s chunk) :
    ∃ t, serveRead env count s chunk = some t ∧ t.Waiting ∧ Framed fs (received ++ chunk) t := by
  have hsmall := hwait.2.resolve_left (by simp [hs.served])
  obtain ⟨b,hb,hwf,hcont,hlen,_⟩ := Buffer.socketReadBuf_spec hwait.1 hg.1 (by omega)
  have hstream := cut_continues CtrlFrame.bytes hpre
  rw [← hs.content] at hstream
  have hblen := Buffer.content_length hwf
  rw [hcont] at hblen
  by_cases h12 : b.len < 12
  · have hcut := cut_of_lt_sixteen (fs.drop (cut CtrlFrame.bytes fs received).1.length)
      (s.bufferRead.content ++ chunk) (by omega)
    refine ⟨{s with bufferRead := b},?_,⟨hwf,Or.inr h12⟩,
      hs.append hcut hs.served (by simp) hcont⟩
    by_cases hempty : b.len = 0
    · have hempty' : b.isEmpty = true := by simp [Buffer.isEmpty,hempty]
      simp only [serveRead,hs.served,hb,hempty',if_true,Bool.false_eq_true,if_false]
    · have hout : spdyProcessBuffer env s.conn b = some (.ok (.ok,s.conn,b)) := if_pos h12
      rw [serveRead_ok hs.served hb (by omega) hout,hs.served]
      rfl
  · cases htodo : fs.drop (cut CtrlFrame.bytes fs received).1.length with
    | nil =>
      rw [htodo] at hstream
      have := hstream.length_le
      simp only [List.flatMap_nil,List.length_nil] at this
      omega
    | cons f todo =>
      rw [htodo,← hcont] at hstream
      rw [← hcont] at hblen
      have hread := spdyReadCtrl_stream hwf (by omega) hstream
      obtain ⟨hfit,hfew,hsyn⟩ := hg.2 _ b hb (by omega) f.ctrl hread
      have hbytes : f.bytes.length ≤ b.content.length := by
        rw [f.bytes_length,hblen]
        exact hfit
      obtain ⟨rest,hrest⟩ : f.bytes <+: b.content :=
        List.prefix_of_prefix_length_le (by simp) hstream hbytes
      have hrest8 : rest.length ≤ 8 := by
        have hsplit := congrArg List.length hrest
        rw [List.length_append,f.bytes_length,hblen] at hsplit
        have : b.len ≤ 8+f.payload.length+8 := hfew
        omega
      obtain ⟨conn',buf',hout,hwf',hdisp,hleft⟩ :=
        spdyProcessBuffer_front hwf hrest.symm hrest8 hsyn
      have hcut : cut CtrlFrame.bytes (fs.drop (cut CtrlFrame.bytes fs received).1.length)
          (s.bufferRead.content ++ chunk) = ([f],rest) := by
        rw [htodo,← hcont,← hrest,cut_complete,cut_of_lt_sixteen todo _ (by omega)]
      have hlen' : buf'.len = rest.length := by rw [← Buffer.content_length hwf',hleft]
      exact ⟨⟨conn',buf',false⟩,serveRead_ok hs.served hb (by omega) hout,
        ⟨hwf',Or.inr (by show buf'.len < 12; omega)⟩,hs.append hcut rfl hdisp hleft⟩

/-- Frames that arrive in pieces are handed over in order, each exactly once, as long as every read
completes one frame at most. -/
theorem stream_framed (env : SpdyEnv Z) {count : ℕ} (hcount : count+16 < 2^32) (zst : Z)
    (fs : List CtrlFrame) {chunks : List (List UInt8)}
    (hpre : chunks.flatten <+: fs.flatMap CtrlFrame.bytes)
    (hg : Guarded (serveRead env count) (EndsOneFrame env count) (SpdyServer.new zst) chunks) :
    ∃ t, run (serveRead env count) (SpdyServer.new zst) chunks = some t ∧
      Framed fs chunks.flatten t := by
  obtain ⟨t,ht,_,hframed⟩ := guarded_run_history (EndsOneFrame env count)
    (fun past => past.flatten <+: fs.flatMap CtrlFrame.bytes)
    (fun past s => s.Waiting ∧ Framed fs past.flatten s)
    (fun as bs h => (List.prefix_append _ _).trans (List.flatten_append ▸ h))
    (fun past s chunk hpre hs hg => by
      simp only [List.flatten_append,List.flatten_singleton] at hpre ⊢
      exact serveRead_framed hcount hpre hs.1 hs.2 hg)
    [] hpre ⟨SpdyServer.new_waiting zst,framed_new fs zst⟩ hg
  exact ⟨t,ht,hframed⟩

theorem endsOneFrame_short (env : SpdyEnv Z) {count : ℕ} (hcount : count+16 < 2^32)
    {s : SpdyServer Z} (chunk : List UInt8) (hwait : s.Waiting) (hserved : s.failed = false)
    (hchunk : chunk.length ≤ count) (h : (s.bufferRead.content ++ chunk).length < 12) :
    EndsOneFrame env count s chunk := by
  have hsmall := hwait.2.resolve_left (by simp [hserved])
  obtain ⟨b,hb,hwf,hcont,_⟩ := Buffer.socketReadBuf_spec hwait.1 hchunk (by omega)
  refine ⟨hchunk,fun ret b' hb' h12 => ?_⟩
  obtain ⟨_,rfl⟩ := Prod.mk.inj (Except.ok.inj (hb.symm.trans hb'))
  rw [← hcont,Buffer.content_length hwf] at h
  omega

theorem endsOneFrame_front (env : SpdyEnv Z) {count : ℕ} (hcount : count+16 < 2^32)
    {s : SpdyServer Z} (chunk : List UInt8) (f : CtrlFrame) (rest : List UInt8) (hwait : s.Waiting)
    (hserved : s.failed = false) (hchunk : chunk.length ≤ count)
    (h : s.bufferRead.content ++ chunk = f.bytes ++ rest) (hrest : rest.length ≤ 8)
    (htype : f.type ≠ spdySynStream) : EndsOneFrame env count s chunk := by
  have hsmall := hwait.2.resolve_left (by simp [hserved])
  obtain ⟨b,hb,hwf,hcont,_⟩ := Buffer.socketReadBuf_spec hwait.1 hchunk (by omega)
  rw [h] at hcont
  refine ⟨hchunk,fun ret b' hb' h12 ctrl hctrl => ?_⟩
  obtain ⟨_,rfl⟩ := Prod.mk.inj (Except.ok.inj (hb.symm.trans hb'))
  have hlen : b.len = 8+f.payload.length+rest.length := by
    rw [← Buffer.content_length hwf,hcont,List.length_append,f.bytes_length]
  rw [CtrlFrame.bytes,List.append_assoc] at hcont
  obtain rfl := Except.ok.inj
    ((spdyReadCtrl_front hcont f.type_lt f.short).symm.trans hctrl)
  exact ⟨by show 8+f.payload.length ≤ b.len; omega,
    by show b.len ≤ 8+f.payload.length+8; omega,fun ht => absurd ht htype⟩

/-- A RST_STREAM frame. -/
def resetFrame (id : UInt8) : CtrlFrame where
  type := spdyRstStream
  flags := 0
  payload := [0,0,0,id,0,0,0,5]
  fixed := Or.inr ⟨Or.inl rfl,le_refl 8⟩
  short := by show 8 < 2^24; norm_num

/-- Two frames of which the first arrives in two reads, the second one with the begin of the next
frame. -/
theorem stream_framed_reset : ∃ t, run (serveRead plainEnv 16382) (SpdyServer.new ())
    [(resetFrame 1).bytes.take 4,(resetFrame 1).bytes.drop 4 ++ (resetFrame 3).bytes.take 8] =
      some t ∧ Framed [resetFrame 1,resetFrame 3]
        [(resetFrame 1).bytes.take 4,(resetFrame 1).bytes.drop 4 ++ (resetFrame 3).bytes.take 8].flatten
        t := by
  have hnew := framed_new [resetFrame 1,resetFrame 3] ()
  have hfirst := endsOneFrame_short plainEnv (by norm_num : 16382+16 < 2^32)
    ((resetFrame 1).bytes.take 4) (SpdyServer.new_waiting ()) rfl (by decide) (by decide)
  refine stream_framed plainEnv (by norm_num) () [resetFrame 1,resetFrame 3] (by decide)
    ⟨hfirst,fun s hs => ⟨?_,fun _ _ => trivial⟩⟩
  obtain ⟨t,ht,hwait,hframed⟩ := serveRead_framed (by norm_num) (by decide)
    (SpdyServer.new_waiting ()) hnew hfirst
  obtain rfl := Option.some.inj (ht.symm.trans hs)
  have hcont : t.bufferRead.content = (resetFrame 1).bytes.take 4 := hframed.content
  exact endsOneFrame_front plainEnv (by norm_num) _ (resetFrame 1) ((resetFrame 3).bytes.take 8)
    hwait hframed.served (by decide) (by rw [hcont]; rfl) (by decide) (by decide)

/-- Of three frames of the same length in one read, the second one is not handled. -/
theorem spdyProcessBuffer_skips (env : SpdyEnv Z) (conn : SpdyConn Z) {buf : Buffer}
    (f g h : CtrlFrame) (hwf : buf.Wf) (hcont : buf.content = f.bytes ++ (g.bytes ++ h.bytes))
    (hfg : f.bytes.length = g.bytes.length) (hgh : g.bytes.length = h.bytes.length)
    (hf : f.type ≠ spdySynStream) (hh : h.type ≠ spdySynStream) :
    ∃ conn' buf', spdyProcessBuffer env conn buf = some (.ok (.ok,conn',buf')) ∧
      conn'.dispatched = conn.dispatched ++ [f.handed,h.handedAt g.bytes.length] := by
  have h16 := f.length_ge
  have hlen : buf.len = f.bytes.length+(g.bytes.length+h.bytes.length) := by
    rw [← Buffer.content_length hwf,hcont,List.length_append,List.length_append]
  obtain ⟨c,hc,hfirst⟩ := scanTurn_at env conn [] hwf hcont fun ht => absurd ht hf
  rw [List.nil_append,List.length_nil] at hfirst
  -- the shifted buffer begins with the second frame, and the cursor points behind it
  have hwf' := Buffer.moveToBegin_wf hwf f.bytes.length
  have hcont' : (buf.moveToBegin f.bytes.length).content = g.bytes ++ (h.bytes ++ []) := by
    rw [Buffer.moveToBegin_content hwf,hcont,List.drop_left,List.append_nil]
  obtain ⟨c',hc',hsecond⟩ := scanTurn_at env c g.bytes hwf' hcont' fun ht => absurd ht hh
  rw [← hfg] at hsecond
  let last := (buf.moveToBegin f.bytes.length).moveToBegin (g.bytes ++ h.bytes).length
  have hthird : scanTurn env ⟨c',last,(g.bytes ++ h.bytes).length⟩ = .stop (.ok (.ok,c',last)) := by
    unfold scanTurn
    exact if_neg (by simp only [last,Buffer.moveToBegin_len,List.length_append]; omega)
  refine ⟨c',last,?_,by rw [hc',hc,List.append_assoc]; rfl⟩
  rw [spdyProcessBuffer,if_neg (by omega),run_again hfirst,show buf.len = buf.len-2+1+1 by omega,
    run_again hsecond,run_stop hthird]

/-- Three streams are reset in one read: the second reset never reaches its handler. -/
theorem stream_not_framed : ∃ t, run (serveRead plainEnv 16382) (SpdyServer.new ())
    [[resetFrame 1,resetFrame 3,resetFrame 5].flatMap CtrlFrame.bytes] = some t ∧
      t.conn.dispatched = [(resetFrame 1).handed,(resetFrame 5).handedAt 16] ∧
      ¬ Framed [resetFrame 1,resetFrame 3,resetFrame 5]
        ([resetFrame 1,resetFrame 3,resetFrame 5].flatMap CtrlFrame.bytes) t := by
  obtain ⟨b,hb,hwf,hcont,hlen,_⟩ := Buffer.socketReadBuf_spec Buffer.init_wf (by decide :
    ([resetFrame 1,resetFrame 3,resetFrame 5].flatMap CtrlFrame.bytes).length ≤ 16382) (by decide)
  have h48 : b.len = 48 := hlen
  obtain ⟨conn,buf,hout,hdisp⟩ := spdyProcessBuffer_skips plainEnv (SpdyConn.new ())
    (resetFrame 1) (resetFrame 3) (resetFrame 5) hwf (hcont.trans rfl) rfl rfl (by decide) (by decide)
  have hserve := serveRead_ok (s:=SpdyServer.new ()) rfl hb (by omega) hout
  refine ⟨_,by rw [run_cons hserve]; rfl,hdisp,fun hframed => ?_⟩
  have hall := hframed.dispatched
  rw [hdisp] at hall
  exact absurd hall (by decide)

end Http2d
