import Http2d.SpdyFraming
import Http2d.SpdyReply

/-! Whose stream id a reply carries.
The id is a field of the connection that every SYN_STREAM frame overwrites, and the requests are
stepped later than they are created. -/
namespace Http2d

open Bytes WhileLoop Transition

variable {Z : Type}

/-- A connection with the replies its requests sent: for each the stream id of the SYN_STREAM frame
that created the request, and the frames that the step put into the write buffer. -/
structure SpdyStreams (Z : Type) where
  server : SpdyServer Z
  replies : List (ℕ × List (List UInt8))

def SpdyStreams.new (zst : Z) : SpdyStreams Z := ⟨SpdyServer.new zst,[]⟩

/-- What can happen to a connection: bytes arrive and are processed, the request at a place of the
list is stepped, or bytes leave the write buffer. -/
inductive SpdyAct
  | read (chunk : List UInt8)
  | request (place : ℕ)
  | write (sent : ℕ)

/-- The stream id that created a request. -/
def SpdyConn.ownId (conn : SpdyConn Z) (r : SpdyReq) : ℕ := conn.synLog.getD r.born 0

/-- The step of one request in `do_io`, from which a finished request is removed. A request that was
freed and one of a connection that was recycled cannot be stepped. -/
def stepRequest (env : SpdyEnv Z) (s : SpdyStreams Z) (place : ℕ) : Option (SpdyStreams Z) :=
  if s.server.failed then none
  else
    match s.server.conn.requests[place]? with
    | none => none
    | some r =>
      if r.live = false then none
      else
        match reqSpdyStep env s.server.conn r.req with
        | .error _ => none
        | .ok (ret,req,conn) =>
          if ret = .eof then
            some {s with server := {s.server with conn :=
              {conn with requests := conn.requests.eraseIdx place}}}
          else
            some ⟨{s.server with conn :=
              {conn with requests := conn.requests.set place {r with req := req}}},
              s.replies ++ [(conn.ownId r,conn.sent.drop s.server.conn.sent.length)]⟩

def streamsStep (env : SpdyEnv Z) (count : ℕ) (s : SpdyStreams Z) : SpdyAct → Option (SpdyStreams Z)
  | .read chunk => (serveRead env count s.server chunk).map fun server => {s with server := server}
  | .request place => stepRequest env s place
  | .write sent => some {s with server := {s.server with conn :=
      {s.server.conn with bufferWrite := s.server.conn.bufferWrite.moveToBegin sent}}}

/-- A request that has its reply still to send is only stepped while the last SYN_STREAM frame that
was read has its stream id. -/
def OwnIdLast (s : SpdyStreams Z) : SpdyAct → Prop
  | .request place => ∀ r, s.server.conn.requests[place]? = some r → r.req.phase ≠ .stepping →
      s.server.conn.synLog.getLast? = some (s.server.conn.ownId r)
  | _ => True

/-- The frames are a SYN_REPLY frame and a DATA frame with this id. -/
def CarryId (id : ℕ) (frames : List (List UInt8)) : Prop :=
  ∃ reply data, frames = [reply,data] ∧ replyId reply = id ∧ dataId data = id

/-- The id of the connection is the one that was read last, and every request knows its own. -/
structure SpdyConn.Tagged (conn : SpdyConn Z) : Prop where
  last : ∀ id, conn.synLog.getLast? = some id → conn.ID = id
  small : ∀ id ∈ conn.synLog, id < 2^31
  born : ∀ r ∈ conn.requests, r.born < conn.synLog.length

theorem SpdyConn.new_tagged (zst : Z) : (SpdyConn.new zst).Tagged :=
  ⟨by simp [SpdyConn.new],by simp [SpdyConn.new],by simp [SpdyConn.new]⟩

theorem SpdyConn.Tagged.ownId_mem {conn : SpdyConn Z} (h : conn.Tagged) {r : SpdyReq}
    (hr : r ∈ conn.requests) : conn.ownId r ∈ conn.synLog := by
  have hlt := h.born r hr
  rw [SpdyConn.ownId,List.getD_eq_getElem?_getD,List.getElem?_eq_getElem hlt,Option.getD_some]
  exact List.getElem_mem hlt

theorem maskStreamId_lt (n : ℕ) : maskStreamId n < 2^31 := by
  rw [maskStreamId_eq]
  exact Nat.mod_lt _ (by norm_num)

/-- A request is added together with its id. -/
theorem SpdyConn.Tagged.opened {conn : SpdyConn Z} (h : conn.Tagged) (id : ℕ) (hdr : Header)
    (live : Bool) (zst : Z) : (conn.opened id hdr live zst).Tagged := by
  refine ⟨fun i hi => ?_,fun i hi => ?_,fun r hr => ?_⟩
  · simpa [SpdyConn.opened] using hi
  · rcases List.mem_append.mp hi with hi | hi
    · exact h.small i hi
    · rw [List.mem_singleton.mp hi]
      exact maskStreamId_lt id
  · simp only [SpdyConn.opened,List.length_append,List.length_singleton] at hr ⊢
    rcases List.mem_cons.mp hr with rfl | hr
    · show conn.synLog.length+1-1 < conn.synLog.length+1
      omega
    · have := h.born r hr
      omega

theorem dispatch_tagged {env : SpdyEnv Z} {conn conn' : SpdyConn Z} {buf : Buffer}
    {ctrl : SpdyCtrl} {pos pos' : ℕ} {ret : Ret}
    (h : dispatch env conn buf ctrl pos = .ok (ret,conn',pos')) (ht : conn.Tagged) :
    conn'.Tagged := by
  have hrec : (conn.record buf ctrl pos).Tagged := ⟨ht.last,ht.small,ht.born⟩
  obtain ⟨_,_,zst,_,_,rfl | ⟨id,hdr,live,rfl⟩⟩ := dispatch_inv h
  · exact ⟨ht.last,ht.small,ht.born⟩
  · exact hrec.opened id hdr live zst

theorem serveRead_tagged {env : SpdyEnv Z} {count : ℕ} {s t : SpdyServer Z} {chunk : List UInt8}
    (h : serveRead env count s chunk = some t) (ht : s.conn.Tagged) : t.conn.Tagged :=
  serveRead_related (R:=fun c c' => c.Tagged → c'.Tagged) (fun _ h => h)
    (fun _ _ _ hab hbc h => hbc (hab h)) (fun _ _ _ _ _ _ _ hd => dispatch_tagged hd) h ht

/-- The frames that a request sends carry the id that was read last. -/
theorem carryId_replyFrames {id : ℕ} (h : id < 2^31) (block : List UInt8) :
    CarryId id (replyFrames id block) := by
  refine ⟨_,_,rfl,?_,?_⟩
  · rw [replyId_write,Nat.mod_eq_of_lt h]
  · rw [dataId_write,Nat.mod_eq_of_lt h]

/-- A request that sent its reply is removed by its next step, and any other one sends it. -/
theorem stepRequest_cases {env : SpdyEnv Z} {s t : SpdyStreams Z} {place : ℕ}
    (h : stepRequest env s place = some t) :
    ∃ r, s.server.conn.requests[place]? = some r ∧
      (r.req.phase = .stepping ∧ t = {s with server := {s.server with conn :=
          {s.server.conn with requests := s.server.conn.requests.eraseIdx place}}} ∨
        r.req.phase ≠ .stepping ∧ ∃ req conn,
          reqSpdyStep env s.server.conn r.req = .ok (.ok,req,conn) ∧
          t = ⟨{s.server with conn :=
              {conn with requests := conn.requests.set place {r with req := req}}},
            s.replies ++ [(conn.ownId r,conn.sent.drop s.server.conn.sent.length)]⟩) := by
  unfold stepRequest at h
  split_ifs at h
  rcases hr : s.server.conn.requests[place]? with _ | r
  · rw [hr] at h
    cases h
  rw [hr] at h
  dsimp only at h
  split_ifs at h
  rcases hstep : reqSpdyStep env s.server.conn r.req with halt | ⟨ret,req,conn⟩
  · rw [hstep] at h
    cases h
  rw [hstep] at h
  dsimp only at h
  rcases reqSpdyStep_inv hstep with ⟨hphase,rfl,rfl⟩ | ⟨hphase,rfl,-⟩
  · cases h
    exact ⟨r,rfl,Or.inl ⟨hphase,rfl⟩⟩
  · cases h
    exact ⟨r,rfl,Or.inr ⟨hphase,req,conn,hstep,rfl⟩⟩

/-- What a request step does: the ids stay as they are, and the first step of a request lists two
frames that carry the id of the connection. -/
theorem stepRequest_inv {env : SpdyEnv Z} {s t : SpdyStreams Z} {place : ℕ}
    (h : stepRequest env s place = some t) :
    ∃ r, s.server.conn.requests[place]? = some r ∧ t.server.conn.ID = s.server.conn.ID ∧
      t.server.conn.synLog = s.server.conn.synLog ∧
      (∀ q ∈ t.server.conn.requests, ∃ p ∈ s.server.conn.requests, q.born = p.born) ∧
      (t.replies = s.replies ∨ r.req.phase ≠ .stepping ∧ ∃ block, t.replies =
        s.replies ++ [(s.server.conn.ownId r,replyFrames s.server.conn.ID block)]) := by
  obtain ⟨r,hr,⟨_,rfl⟩ | ⟨hphase,req,conn,hstep,rfl⟩⟩ := stepRequest_cases h
  · exact ⟨r,hr,rfl,rfl,fun q hq => ⟨q,List.mem_of_mem_eraseIdx hq,rfl⟩,Or.inl rfl⟩
  rcases reqSpdyStep_inv hstep with ⟨hphase',_⟩ | ⟨_,_,block,b,zst,rfl⟩
  · exact absurd hphase' hphase
  refine ⟨r,hr,rfl,rfl,fun q hq => ?_,Or.inr ⟨hphase,block,?_⟩⟩
  · rcases List.mem_or_eq_of_mem_set hq with hq | rfl
    · exact ⟨q,hq,rfl⟩
    · exact ⟨r,List.mem_of_getElem? hr,rfl⟩
  · simp [SpdyConn.ownId]

/-- What holds in every state. -/
def OwnReplies (s : SpdyStreams Z) : Prop :=
  s.server.conn.Tagged ∧ ∀ p ∈ s.replies, CarryId p.1 p.2

theorem streamsStep_ownReplies {env : SpdyEnv Z} {count : ℕ} {s t : SpdyStreams Z} {a : SpdyAct}
    (hs : OwnReplies s) (hg : OwnIdLast s a) (h : streamsStep env count s a = some t) :
    OwnReplies t := by
  obtain ⟨htag,hall⟩ := hs
  cases a with
  | read chunk =>
    obtain ⟨server,hread,rfl⟩ := Option.map_eq_some_iff.mp h
    exact ⟨serveRead_tagged hread htag,hall⟩
  | write sent =>
    cases h
    exact ⟨⟨htag.last,htag.small,htag.born⟩,hall⟩
  | request place =>
    obtain ⟨r,hr,hID,hlog,hborn,hreplies⟩ := stepRequest_inv h
    refine ⟨⟨?_,?_,fun q hq => ?_⟩,fun p hp => ?_⟩
    · rw [hID,hlog]
      exact htag.last
    · rw [hlog]
      exact htag.small
    · obtain ⟨p,hp,hpq⟩ := hborn q hq
      rw [hlog,hpq]
      exact htag.born p hp
    · rcases hreplies with hsame | ⟨hphase,block,hadd⟩
      · exact hall p (hsame ▸ hp)
      rw [hadd] at hp
      rcases List.mem_append.mp hp with hp | hp
      · exact hall p hp
      have hown := htag.last _ (hg r hr hphase)
      rw [List.mem_singleton.mp hp,hown]
      exact carryId_replyFrames (htag.small _ (htag.ownId_mem (List.mem_of_getElem? hr))) block

/-- Every reply of a run carries the id of its own request, as long as no reply is still to be sent
by a request whose id is not the last one that was read. -/
theorem replies_carry_ownId (env : SpdyEnv Z) (count : ℕ) (zst : Z) {acts : List SpdyAct}
    {t : SpdyStreams Z} (hg : Guarded (streamsStep env count) OwnIdLast (SpdyStreams.new zst) acts)
    (h : run (streamsStep env count) (SpdyStreams.new zst) acts = some t) :
    ∀ p ∈ t.replies, CarryId p.1 p.2 :=
  (guarded_invariant OwnIdLast OwnReplies (fun _ _ _ hs hg h => streamsStep_ownReplies hs hg h)
    ⟨SpdyConn.new_tagged zst,by simp [SpdyStreams.new]⟩ hg h).2

/-- What an accepted SYN_STREAM frame with a stream id does to the connection. -/
structure Opened (conn conn' : SpdyConn Z) (id : ℕ) (zst : Z) : Prop where
  id_eq : conn'.ID = id
  away : conn'.goingAway = conn.goingAway
  zst_eq : conn'.zst = zst
  log : conn'.synLog = conn.synLog ++ [id]
  write : conn'.bufferWrite = conn.bufferWrite
  request : ∃ hdr, conn'.requests =
    ⟨{RequestSpdy.new with header := hdr},true,conn.synLog.length⟩::conn.requests

theorem scanTurn_opens (env : SpdyEnv Z) (conn : SpdyConn Z) {buf : Buffer} {f : CtrlFrame}
    (before : List UInt8) {rest : List UInt8} (hwf : buf.Wf)
    (hcont : buf.content = before ++ (f.bytes ++ rest))
    (htype : f.type = spdySynStream) (haway : conn.goingAway = false)
    (hnew : (env.newReq conn.zst).1 = true) {tmp : Buffer} {zst : Z}
    (hinf : env.inflate (env.newReq conn.zst).2 (buf.buf.drop (before.length+18))
      (cuint ((buf.len : ℤ)-(before.length+18 : ℕ))) = .ok (.ok,tmp,zst))
    (htmp : tmp.Wf) (hdec : DecodesShort tmp.content) :
    ∃ conn', Opened conn conn' (maskStreamId (beNat (f.payload.take 4))) zst ∧
      scanTurn env ⟨conn,buf,before.length⟩ =
        .again ⟨conn',buf.moveToBegin (before ++ f.bytes).length,(before ++ f.bytes).length⟩ := by
  have hlen : 10 ≤ f.payload.length := by
    rcases f.fixed with ⟨_,h⟩ | ⟨h | h,_⟩
    · exact h
    · exact absurd (htype.symm.trans h) (by decide)
    · exact absurd (htype.symm.trans h) (by decide)
  have hbuf := buf.buf_eq
  rw [hcont,CtrlFrame.bytes,List.append_assoc,List.append_assoc,List.append_assoc] at hbuf
  have hid : slice buf.buf (before.length+8) 4 = f.payload.take 4 := by
    have h8 : 8 = (spdyWriteCtrl f.type f.flags f.payload.length).length+0 := by simp
    rw [hbuf,slice_append_right,h8,slice_append_right,slice_append_left _ (by omega)]
    rfl
  have hfit : before.length+8+10 ≤ buf.buf.length := by rw [hbuf]; simp; omega
  obtain ⟨hdr,hout⟩ := handleSynStream_ok (conn.record buf f.ctrl (before.length+8))
    f.ctrl hfit haway hnew hinf htmp hdec
  rw [hid] at hout
  have hdisp : dispatch env conn buf f.ctrl (before.length+8) = _ := (if_pos htype).trans hout
  refine ⟨_,?_,scanTurn_dispatched hwf hcont hdisp⟩
  exact ⟨rfl,rfl,rfl,rfl,rfl,hdr,rfl⟩

/-- The first step of a request sends its reply. -/
theorem stepRequest_first (env : SpdyEnv Z) (s : SpdyStreams Z) (place : ℕ) (block : List UInt8)
    {born : ℕ} {hdr : Header} {zst : Z} (hserved : s.server.failed = false)
    (hr : s.server.conn.requests[place]? =
      some ⟨{RequestSpdy.new with header := hdr},true,born⟩)
    (hwf : s.server.conn.bufferWrite.Wf)
    (hdef : env.deflate s.server.conn.zst (PairBlock.encode 4 replyPairs) = (block,zst))
    (hroom : s.server.conn.bufferWrite.len+block.length+100 < 2^31) :
    ∃ t req, stepRequest env s place = some t ∧ t.server.failed = false ∧
      t.server.conn.ID = s.server.conn.ID ∧ t.server.conn.synLog = s.server.conn.synLog ∧
      t.server.conn.bufferWrite.Wf ∧ t.server.conn.bufferWrite.len =
        s.server.conn.bufferWrite.len+(replyFrames s.server.conn.ID block).flatten.length ∧
      t.server.conn.requests = s.server.conn.requests.set place ⟨req,true,born⟩ ∧
      t.replies = s.replies ++
        [(s.server.conn.synLog.getD born 0,replyFrames s.server.conn.ID block)] := by
  obtain ⟨req,conn,hstep,_,hw,_,hsent,hcont⟩ := reqSpdyStep_returns env s.server.conn
    {RequestSpdy.new with header := hdr}
    (by show RequestPhase.nothing ≠ .stepping; decide) rfl rfl hwf hdef (by omega) (by omega)
  have hlen := congrArg List.length hcont
  rw [Buffer.content_length hw,List.length_append,Buffer.content_length hwf] at hlen
  obtain ⟨_,h,_⟩ | ⟨_,_,block',b,z,rfl⟩ := reqSpdyStep_inv hstep
  · exact absurd h (by decide)
  have hout : stepRequest env s place = some ⟨{s.server with conn :=
      {s.server.conn with
        bufferWrite := b
        zst := z
        sent := s.server.conn.sent ++ replyFrames s.server.conn.ID block'
        requests := s.server.conn.requests.set place ⟨req,true,born⟩}},
      s.replies ++ [(s.server.conn.synLog.getD born 0,
        (s.server.conn.sent ++ replyFrames s.server.conn.ID block').drop
          s.server.conn.sent.length)]⟩ := by
    unfold stepRequest
    rw [if_neg (by simp [hserved]),hr]
    dsimp only
    rw [if_neg (by decide),hstep]
    rfl
  refine ⟨_,req,hout,hserved,rfl,rfl,hw,hlen,rfl,?_⟩
  show _ ++ [(_,List.drop _ (_ ++ replyFrames s.server.conn.ID block'))] = _
  rw [show s.server.conn.sent ++ replyFrames s.server.conn.ID block' =
    s.server.conn.sent ++ replyFrames s.server.conn.ID block from hsent,List.drop_left]

/-- An inflater for streams of stored blocks: the first call finds the header of the stream in
front of its block, and every call gets one whole block. -/
def storedInflate (started : Bool) (mem : List UInt8) (avail : ℕ) : Exec (Ret × Buffer × Bool) :=
  let inp := mem.take avail
  match if started then inp else inp.drop 2 with
  | 0::l0::l1::n0::n1::data =>
    if l0 ^^^ n0 = 255 ∧ l1 ^^^ n1 = 255 ∧ data.length = l0.toNat+256*l1.toNat then
      .ok (.ok,Buffer.holding data,true)
    else .ok (.error,Buffer.init,started)
  | _ => .ok (.error,Buffer.init,started)

/-- Both directions use stored blocks. -/
def storedEnv : SpdyEnv Bool where
  newReq started := (true,started)
  inflate := storedInflate
  deflate started bs := ([0,UInt8.ofNat bs.length,0,255-UInt8.ofNat bs.length,255] ++ bs,started)

/-- What the headers of a reply are compressed to there. -/
def storedBlock : List UInt8 := (storedEnv.deflate true (PairBlock.encode 4 replyPairs)).1

theorem storedBlock_length : storedBlock.length = 74 := by decide

/-- The inflater sees what the string holds from its input on. -/
theorem storedInflate_content (started : Bool) {b : Buffer} (hwf : b.Wf) {p : ℕ} (hp : p ≤ b.len) :
    storedInflate started (b.buf.drop p) (cuint ((b.len : ℤ)-(p : ℕ))) =
      storedInflate started (b.content.drop p) (b.len-p) := by
  have hlt := hwf.len_lt
  have havail : cuint ((b.len : ℤ)-(p : ℕ)) = b.len-p := cuint_sub hp hlt
  have hinp : (b.buf.drop p).take (b.len-p) = (b.content.drop p).take (b.len-p) := by
    rw [Buffer.content,List.drop_take,List.take_take,min_self]
  simp only [storedInflate,havail,hinp]

/-- A SYN_STREAM frame whose payload ends in a compressed block. -/
def openFrame (id : UInt8) (block : List UInt8) (h : block.length < 2^23) : CtrlFrame where
  type := spdySynStream
  flags := 1
  payload := [0,0,0,id,0,0,0,0,0,0] ++ block
  fixed := Or.inl ⟨rfl,by simp⟩
  short := by simp; omega

/-- Stream 1 with a stored block of sixty bytes, of which four belong to the frame. -/
def openOne : CtrlFrame := openFrame 1 [0x78,1,0,60,0,195,255,0,0,0,0] (by decide)

/-- A reset with a long payload. -/
def longReset : CtrlFrame where
  type := spdyRstStream
  flags := 0
  payload := [0,0,0,1,0,0,0,5,0,0,0,0,0,0,0,0,0,0,0,0,0]
  fixed := Or.inr ⟨Or.inl rfl,by decide⟩
  short := by decide

/-- Stream 3 with a stored block of four bytes. -/
def openThree : CtrlFrame := openFrame 3 [0,4,0,251,255,0,0,0,0] (by decide)

/-- Stream 1 alone, with a stored block of four bytes. -/
def openAlone : CtrlFrame := openFrame 1 [0x78,1,0,4,0,251,255,0,0,0,0] (by decide)

/-- A buffer without pairs decodes. -/
theorem decodesShort_of_count_zero (rest : List UInt8) : DecodesShort ([0,0,0,0] ++ rest) := by
  refine ⟨[],rest,?_,by simp⟩
  rfl

/-- A read that opens stream 1 alone leaves no bytes behind. -/
theorem serveRead_alone (conn : SpdyConn Bool) (hzst : conn.zst = false)
    (haway : conn.goingAway = false) : ∃ c b, Opened conn c 1 true ∧ b.Wf ∧ b.content = [] ∧
      serveRead storedEnv 16382 ⟨conn,Buffer.init,false⟩ openAlone.bytes = some ⟨c,b,false⟩ := by
  obtain ⟨b,hb,hwf,hcont,hlen,_⟩ := Buffer.socketReadBuf_spec Buffer.init_wf
    (by decide : openAlone.bytes.length ≤ 16382) (by decide)
  have hcont : b.content = [] ++ (openAlone.bytes ++ []) := by rw [List.append_nil]; exact hcont
  have h29 : b.len = 29 := hlen
  have hinf : storedInflate conn.zst (b.buf.drop 18) (cuint ((b.len : ℤ)-(18 : ℕ))) =
      .ok (.ok,Buffer.holding ([0,0,0,0] ++ []),true) := by
    rw [hzst,storedInflate_content false hwf (by omega),hcont,h29]
    rfl
  obtain ⟨c,ho,hturn⟩ := scanTurn_opens storedEnv conn []
    hwf hcont rfl haway rfl hinf (Buffer.holding_wf (by decide))
    (Buffer.content_holding _ ▸ decodesShort_of_count_zero _)
  have hout := spdyProcessBuffer_one (by omega) (by omega : b.len ≤ 29+8) hturn
  refine ⟨c,b.moveToBegin 29,ho,Buffer.moveToBegin_wf hwf 29,?_,?_⟩
  · rw [Buffer.moveToBegin_content hwf,hcont]
    rfl
  · exact serveRead_ok (s:=⟨conn,Buffer.init,false⟩) rfl hb (by omega) hout

/-- The step that follows sends the reply. -/
theorem stepRequest_alone (b : Buffer) {conn c : SpdyConn Bool} (ho : Opened conn c 1 true)
    (hwrite : conn.bufferWrite = Buffer.init) (hreqs : conn.requests = []) :
    ∃ t req, stepRequest storedEnv ⟨⟨c,b,false⟩,[]⟩ 0 = some t ∧ t.server.failed = false ∧
      t.server.conn.bufferWrite.Wf ∧ t.server.conn.bufferWrite.len = 115 ∧
      t.server.conn.requests = [⟨req,true,conn.synLog.length⟩] ∧
      t.replies = [(c.synLog.getD conn.synLog.length 0,replyFrames 1 storedBlock)] := by
  obtain ⟨hdr,hopened⟩ := ho.request
  rw [hreqs] at hopened
  have hblock := storedBlock_length
  have hzero : c.bufferWrite.len = 0 := by rw [ho.write,hwrite]; rfl
  obtain ⟨t,req,hstep,hserved,_,_,hwf,hlen,hset,hrep⟩ := stepRequest_first storedEnv
    ⟨⟨c,b,false⟩,[]⟩ 0 storedBlock rfl (by simp only [hopened]; rfl)
    (by simp only [ho.write,hwrite]; exact Buffer.init_wf) (by rw [ho.zst_eq]; rfl)
    (by simp only; omega)
  refine ⟨t,req,hstep,hserved,hwf,?_,by rw [hset,hopened]; rfl,by rw [hrep,ho.id_eq]; rfl⟩
  rw [hlen,replyFrames_length,hzero,hblock]

/-- A stream that is answered before the next one is opened. -/
theorem replies_carry_ownId_alone : ∃ t, run (streamsStep storedEnv 16382)
    (SpdyStreams.new false) [.read openAlone.bytes,.request 0] = some t ∧ t.replies ≠ [] ∧
      ∀ p ∈ t.replies, CarryId p.1 p.2 := by
  obtain ⟨c,b,ho,_,_,hread⟩ := serveRead_alone (SpdyConn.new false) rfl rfl
  obtain ⟨h₁,hreqs⟩ := ho.request
  have hstart : streamsStep storedEnv 16382 (SpdyStreams.new false) (.read openAlone.bytes) =
      some ⟨⟨c,b,false⟩,[]⟩ := by
    simp only [streamsStep,SpdyStreams.new,SpdyServer.new,hread,Option.map_some]
  obtain ⟨t,_,hstep,_,_,_,_,hrep⟩ := stepRequest_alone b ho rfl rfl
  have hnext : streamsStep storedEnv 16382 ⟨⟨c,b,false⟩,[]⟩ (.request 0) = some t := hstep
  have hrun : run (streamsStep storedEnv 16382) (SpdyStreams.new false)
      [.read openAlone.bytes,.request 0] = some t := by
    rw [run_cons hstart,run_cons hnext,run_nil]
  have hguard : Guarded (streamsStep storedEnv 16382) OwnIdLast (SpdyStreams.new false)
      [.read openAlone.bytes,.request 0] := by
    refine ⟨trivial,fun s hs => ⟨?_,fun _ _ => trivial⟩⟩
    obtain rfl := Option.some.inj (hstart.symm.trans hs)
    intro r hr _
    rw [hreqs] at hr
    obtain rfl := Option.some.inj hr
    rw [SpdyConn.ownId,ho.log]
    rfl
  exact ⟨t,hrun,by rw [hrep]; simp,replies_carry_ownId storedEnv 16382 false hguard hrun⟩

/-- In one read stream 1 is opened and then, with the stale cursor, stream 3. -/
theorem serveRead_two_streams : ∃ t, serveRead storedEnv 16382 (SpdyServer.new false)
    (openOne.bytes ++ (longReset.bytes ++ openThree.bytes)) = some t ∧ t.failed = false ∧
      t.conn.ID = 3 ∧ t.conn.synLog = [1,3] ∧ t.conn.bufferWrite = Buffer.init ∧ ∃ h₁ h₃,
        t.conn.requests = [⟨{RequestSpdy.new with header := h₃},true,1⟩,
          ⟨{RequestSpdy.new with header := h₁},true,0⟩] := by
  obtain ⟨b,hb,hwf,hcont,hlen,_⟩ := Buffer.socketReadBuf_spec Buffer.init_wf
    (by decide : (openOne.bytes ++ (longReset.bytes ++ openThree.bytes)).length ≤ 16382) (by decide)
  have hcont : b.content = openOne.bytes ++ (longReset.bytes ++ openThree.bytes) := hcont
  have h85 : b.len = 85 := hlen
  have hinf₁ : storedInflate false (b.buf.drop 18) (cuint ((b.len : ℤ)-(18 : ℕ))) = .ok (.ok,
      Buffer.holding ([0,0,0,0] ++ (longReset.bytes ++ openThree.bytes)),true) := by
    rw [storedInflate_content false hwf (by omega),hcont,h85]
    rfl
  obtain ⟨c₁,ho₁,hturn₁⟩ := scanTurn_opens storedEnv (SpdyConn.new false)
    [] hwf hcont rfl rfl rfl hinf₁ (Buffer.holding_wf (by decide))
    (Buffer.content_holding _ ▸ decodesShort_of_count_zero _)
  have hwf₂ := Buffer.moveToBegin_wf hwf openOne.bytes.length
  have hcont₂ : (b.moveToBegin openOne.bytes.length).content =
      longReset.bytes ++ (openThree.bytes ++ []) := by
    rw [Buffer.moveToBegin_content hwf,hcont,List.drop_left,List.append_nil]
  have h56 : (b.moveToBegin openOne.bytes.length).len = 56 := by
    rw [Buffer.moveToBegin_len,h85]
    rfl
  have hinf₂ : storedInflate c₁.zst ((b.moveToBegin openOne.bytes.length).buf.drop 47)
      (cuint (((b.moveToBegin openOne.bytes.length).len : ℤ)-(47 : ℕ))) =
        .ok (.ok,Buffer.holding ([0,0,0,0] ++ []),true) := by
    rw [storedInflate_content c₁.zst hwf₂ (by omega),hcont₂,h56,ho₁.zst_eq]
    rfl
  obtain ⟨c₂,ho₂,hturn₂⟩ := scanTurn_opens storedEnv c₁ longReset.bytes
    hwf₂ hcont₂ rfl ho₁.away rfl hinf₂ (Buffer.holding_wf (by decide))
    (Buffer.content_holding _ ▸ decodesShort_of_count_zero _)
  let last := (b.moveToBegin openOne.bytes.length).moveToBegin
    (longReset.bytes ++ openThree.bytes).length
  have hturn₃ : scanTurn storedEnv ⟨c₂,last,(longReset.bytes ++ openThree.bytes).length⟩ =
      .stop (.ok (.ok,c₂,last)) := by
    have h0 : last.len = 0 := by
      simp only [last,Buffer.moveToBegin_len,h85]
      rfl
    unfold scanTurn
    exact if_neg (by show ¬ 8 < last.len; omega)
  have hout : spdyProcessBuffer storedEnv (SpdyConn.new false) b = some (.ok (.ok,c₂,last)) := by
    rw [List.nil_append,List.length_nil] at hturn₁
    rw [← show openOne.bytes.length = longReset.bytes.length from rfl] at hturn₂
    rw [spdyProcessBuffer,if_neg (by omega),h85,run_again hturn₁,run_again hturn₂,
      run_stop hturn₃]
  obtain ⟨h₁,hreq₁⟩ := ho₁.request
  obtain ⟨h₃,hreq₃⟩ := ho₂.request
  refine ⟨⟨c₂,last,false⟩,serveRead_ok (s:=SpdyServer.new false) rfl hb (by omega) hout,rfl,
    ho₂.id_eq,?_,?_,h₁,h₃,?_⟩
  · rw [ho₂.log,ho₁.log]
    rfl
  · rw [ho₂.write,ho₁.write]
    rfl
  · rw [hreq₃,hreq₁,ho₁.log]
    rfl

/-- Both requests are stepped after the read, the last one first: the reply of stream 1 goes to
stream 3. -/
theorem replies_carry_foreign_id : ∃ t, run (streamsStep storedEnv 16382) (SpdyStreams.new false)
    [.read (openOne.bytes ++ (longReset.bytes ++ openThree.bytes)),.request 0,.request 1] = some t ∧
      t.replies = [(3,replyFrames 3 storedBlock),(1,replyFrames 3 storedBlock)] ∧
      ¬ ∀ p ∈ t.replies, CarryId p.1 p.2 := by
  obtain ⟨server,hread,hserved,hID,hlog,hbuf,h₁,h₃,hreqs⟩ := serveRead_two_streams
  have hstart : streamsStep storedEnv 16382 (SpdyStreams.new false)
      (.read (openOne.bytes ++ (longReset.bytes ++ openThree.bytes))) = some ⟨server,[]⟩ := by
    simp only [streamsStep,SpdyStreams.new,hread,Option.map_some]
  have hblock := storedBlock_length
  have hempty : Buffer.init.len = 0 := rfl
  obtain ⟨t₁,r₁,hstep₁,hs₁,hID₁,hlog₁,hw₁,hlen₁,hreqs₁,hrep₁⟩ := stepRequest_first
    storedEnv ⟨server,[]⟩ 0 storedBlock hserved
    (by rw [hreqs]; rfl) (by rw [hbuf]; exact Buffer.init_wf) rfl (by rw [hbuf]; omega)
  dsimp only at hID₁ hlog₁ hlen₁ hreqs₁ hrep₁
  rw [hbuf,replyFrames_length] at hlen₁
  obtain ⟨t₂,r₂,hstep₂,_,_,_,_,_,_,hrep₂⟩ := stepRequest_first
    storedEnv t₁ 1 storedBlock hs₁ (by rw [hreqs₁,hreqs]; rfl)
    hw₁ rfl (by omega)
  rw [hrep₁,hID₁,hlog₁,hID,hlog] at hrep₂
  have hall : t₂.replies = [(3,replyFrames 3 storedBlock),(1,replyFrames 3 storedBlock)] := hrep₂
  have hnext : streamsStep storedEnv 16382 ⟨server,[]⟩ (.request 0) = some t₁ := hstep₁
  have hlast : streamsStep storedEnv 16382 t₁ (.request 1) = some t₂ := hstep₂
  refine ⟨t₂,?_,hall,fun hcarry => ?_⟩
  · rw [run_cons hstart,run_cons hnext,run_cons hlast,run_nil]
  · obtain ⟨reply,data,hframes,hid,_⟩ := hcarry (1,replyFrames 3 storedBlock)
      (by rw [hall]; exact List.mem_cons_of_mem _ (List.mem_singleton.mpr rfl))
    obtain rfl := (List.cons.inj hframes).1.symm
    rw [replyId_write] at hid
    exact absurd hid (by decide)

end Http2d
