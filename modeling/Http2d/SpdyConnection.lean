import Http2d.Spdy
import Http2d.NameValueBounds
import Http2d.RequestSpdy
import Http2d.Library.WhileLoop

/-! A SPDY connection: its frame handlers and the loop over the read buffer.
Allocation and the two compression streams are parameters. Their joint state is carried along
with the connection, and a call of the inflater gets the memory from its input on together with
the number of bytes it may read. -/
namespace Http2d

open Bytes WhileLoop

/-- What the connection uses from outside: whether a request can be allocated, and
`http2d_spdy_zlib_inflate` and `http2d_spdy_zlib_deflate`. -/
structure SpdyEnv (Z : Type) where
  newReq : Z → Bool × Z
  inflate : Z → List UInt8 → ℕ → Exec (Ret × Buffer × Z)
  deflate : Z → List UInt8 → List UInt8 × Z

/-- `http2d_connection_spdy_phase_t`. -/
inductive SpdyPhase
  | handshake | io | shutdown | lingerRead
  deriving DecidableEq, Repr

/-- A request in the list of its connection. `live` is false once it was freed; `born` is the
place of its SYN_STREAM frame in the record of those that were read. -/
structure SpdyReq where
  req : RequestSpdy
  live : Bool
  born : ℕ

/-- A frame that reached its handler: its header, the offset of its payload in the buffer and
the bytes there. -/
structure Dispatch where
  ctrl : SpdyCtrl
  offset : ℕ
  payload : List UInt8
  deriving DecidableEq

/-- `http2d_connection_spdy_t`, with the request added last in front. The last three fields record
what happened: the frames that were handled, the stream ids that were read and the frames that were
put into `bufferWrite`. -/
structure SpdyConn (Z : Type) where
  ID : ℕ
  goingAway : Bool
  phase : SpdyPhase
  requests : List SpdyReq
  bufferWrite : Buffer
  zst : Z
  dispatched : List Dispatch
  synLog : List ℕ
  sent : List (List UInt8)

variable {Z : Type}

/-- `http2d_connection_spdy_new`. -/
def SpdyConn.new (zst : Z) : SpdyConn Z := ⟨0,false,.handshake,[],Buffer.init,zst,[],[],[]⟩

/-- `handle_SPDY_SYN_STREAM`. After a GOAWAY the frame is ignored and the cursor stays in front of
its payload. A request whose header block is refused is freed and stays in the list. -/
def handleSynStream (env : SpdyEnv Z) (conn : SpdyConn Z) (buf : Buffer) (ctrl : SpdyCtrl)
    (pos : ℕ) : Exec (Ret × SpdyConn Z × ℕ) :=
  if conn.goingAway then .ok (.ok,conn,pos)
  else
    let (ok,zst) := env.newReq conn.zst
    if ok = false then .ok (.error,{conn with zst := zst},pos)
    else do
      let id ← readUint32 buf.buf pos
      let _assoc ← readUint32 buf.buf (pos+4)
      let _pri ← peekByte buf.buf (pos+8)
      let _slot ← peekByte buf.buf (pos+9)
      let p := pos+10
      let (ret,tmp,zst) ← env.inflate zst (buf.buf.drop p) (cuint ((buf.len : ℤ)-p))
      let (ret,hdr,_) ← readNameValue (ret,tmp) Header.init
      let conn := {conn with ID := maskStreamId id, zst := zst, synLog := conn.synLog ++ [maskStreamId id]}
      let req : SpdyReq := ⟨{RequestSpdy.new with header := hdr},ret = .ok,conn.synLog.length-1⟩
      let conn := {conn with requests := req::conn.requests}
      if ret ≠ .ok then .ok (.error,conn,pos) else .ok (.ok,conn,pos+ctrl.length)

/-- `handle_SPDY_GOAWAY`. -/
def handleGoaway (conn : SpdyConn Z) (buf : Buffer) (ctrl : SpdyCtrl) (pos : ℕ) :
    Exec (Ret × SpdyConn Z × ℕ) := do
  let _lastGoodId ← readUint32 buf.buf pos
  let _statusCode ← readUint32 buf.buf (pos+4)
  .ok (.ok,{conn with phase := .shutdown, goingAway := true},pos+ctrl.length)

/-- `handle_SPDY_RST_STREAM`: the status is only printed. -/
def handleRstStream (conn : SpdyConn Z) (buf : Buffer) (ctrl : SpdyCtrl) (pos : ℕ) :
    Exec (Ret × SpdyConn Z × ℕ) := do
  let _streamId ← readUint32 buf.buf pos
  let _statusCode ← readUint32 buf.buf (pos+4)
  .ok (.ok,conn,pos+ctrl.length)

/-- The connection with one more handled frame in its record. -/
def SpdyConn.record (conn : SpdyConn Z) (buf : Buffer) (ctrl : SpdyCtrl) (pos : ℕ) : SpdyConn Z :=
  {conn with dispatched := conn.dispatched ++ [⟨ctrl,pos,slice buf.buf pos ctrl.length⟩]}

/-- The switch over the frame types in `spdy_process_frame`; the cursor is behind the header. -/
def dispatch (env : SpdyEnv Z) (conn : SpdyConn Z) (buf : Buffer) (ctrl : SpdyCtrl) (pos : ℕ) :
    Exec (Ret × SpdyConn Z × ℕ) :=
  if ctrl.type = spdySynStream then handleSynStream env (conn.record buf ctrl pos) buf ctrl pos
  else if ctrl.type = spdyRstStream then handleRstStream (conn.record buf ctrl pos) buf ctrl pos
  else if ctrl.type = spdyGoaway then handleGoaway (conn.record buf ctrl pos) buf ctrl pos
  else .error (.exit 1)

/-- The frame at the cursor is not complete; the difference is unsigned. -/
def Incomplete (buf : Buffer) (ctrl : SpdyCtrl) (pos : ℕ) : Prop :=
  cuint ((buf.len : ℤ)-(pos+8)) < ctrl.length

instance (buf : Buffer) (ctrl : SpdyCtrl) (pos : ℕ) : Decidable (Incomplete buf ctrl pos) :=
  inferInstanceAs (Decidable (_ < _))

/-- `spdy_process_frame`. -/
def spdyProcessFrame (env : SpdyEnv Z) (conn : SpdyConn Z) (buf : Buffer) (pos : ℕ) :
    Exec (Ret × SpdyConn Z × ℕ) :=
  if buf.len < spdyFrameHeadLength then .ok (.eagain,conn,pos)
  else do
    let ctrl ← spdyReadCtrl buf.buf pos
    if ctrl.version ≠ 3 then .ok (.error,conn,pos)
    else if Incomplete buf ctrl pos then .ok (.ok,conn,pos)
    else dispatch env conn buf ctrl (pos+8)

/-- What the loop of `spdy_process_buffer` works on. -/
structure Scan (Z : Type) where
  conn : SpdyConn Z
  buf : Buffer
  pos : ℕ

/-- One turn of the loop. The cursor is not set back when the buffer is shifted. -/
def scanTurn (env : SpdyEnv Z) (s : Scan Z) : Turn (Scan Z) (Exec (Ret × SpdyConn Z × Buffer)) :=
  if 8 < s.buf.len then
    match spdyProcessFrame env s.conn s.buf s.pos with
    | .error halt => .stop (.error halt)
    | .ok (.ok,conn,pos) => .again ⟨conn,s.buf.moveToBegin pos,pos⟩
    | .ok (.eagain,conn,_) => .stop (.ok (.ok,conn,s.buf))
    | .ok (ret,conn,_) => .stop (.ok (ret,conn,s.buf))
  else .stop (.ok (.ok,s.conn,s.buf))

/-- `spdy_process_buffer`; none means that it does not return. A turn that goes round takes a
byte at least, or none at all and for ever, so the length of the buffer bounds the turns. -/
def spdyProcessBuffer (env : SpdyEnv Z) (conn : SpdyConn Z) (buf : Buffer) :
    Option (Exec (Ret × SpdyConn Z × Buffer)) :=
  if buf.len < 12 then some (.ok (.ok,conn,buf))
  else run (scanTurn env) (buf.len+1) ⟨conn,buf,0⟩

/-- The connection with the request of a SYN_STREAM frame. -/
def SpdyConn.opened (conn : SpdyConn Z) (id : ℕ) (hdr : Header) (live : Bool) (zst : Z) :
    SpdyConn Z :=
  {conn with
    ID := maskStreamId id
    zst := zst
    synLog := conn.synLog ++ [maskStreamId id]
    requests := ⟨{RequestSpdy.new with header := hdr},live,
      (conn.synLog ++ [maskStreamId id]).length-1⟩::conn.requests}

/-- The handler succeeds or reports an error, and the cursor does not go back. It leaves the
connection alone or adds one request. -/
theorem handleSynStream_inv {env : SpdyEnv Z} {conn conn' : SpdyConn Z} {buf : Buffer}
    {ctrl : SpdyCtrl} {pos pos' : ℕ} {ret : Ret}
    (h : handleSynStream env conn buf ctrl pos = .ok (ret,conn',pos')) :
    (ret = .ok ∨ ret = .error) ∧ (pos ≤ pos' ∧ pos' ≤ pos+ctrl.length) ∧
      ∃ zst, conn' = {conn with zst := zst} ∨
        ∃ id hdr live, conn' = conn.opened id hdr live zst := by
  unfold handleSynStream at h
  split_ifs at h with haway
  · cases h
    exact ⟨Or.inl rfl,⟨le_refl _,Nat.le_add_right _ _⟩,conn.zst,Or.inl rfl⟩
  dsimp only at h
  split_ifs at h with hnew
  · cases h
    exact ⟨Or.inr rfl,⟨le_refl _,Nat.le_add_right _ _⟩,_,Or.inl rfl⟩
  obtain ⟨id,_,h⟩ := bind_ok_inv h
  obtain ⟨_,_,h⟩ := bind_ok_inv h
  obtain ⟨_,_,h⟩ := bind_ok_inv h
  obtain ⟨_,_,h⟩ := bind_ok_inv h
  obtain ⟨⟨r,tmp,zst⟩,_,h⟩ := bind_ok_inv h
  obtain ⟨⟨r',hdr,calls⟩,_,h⟩ := bind_ok_inv h
  dsimp only at h
  split_ifs at h
  · cases h
    exact ⟨Or.inr rfl,⟨le_refl _,Nat.le_add_right _ _⟩,zst,Or.inr ⟨id,hdr,_,rfl⟩⟩
  · cases h
    exact ⟨Or.inl rfl,⟨Nat.le_add_right _ _,le_refl _⟩,zst,Or.inr ⟨id,hdr,_,rfl⟩⟩

/-- What a handler does: the frame is recorded, and the connection gets a request, or nothing changes
that is written or read later but the state of the inflater and the phase. -/
theorem dispatch_inv {env : SpdyEnv Z} {conn conn' : SpdyConn Z} {buf : Buffer}
    {ctrl : SpdyCtrl} {pos pos' : ℕ} {ret : Ret}
    (h : dispatch env conn buf ctrl pos = .ok (ret,conn',pos')) :
    (ret = .ok ∨ ret = .error) ∧ (pos ≤ pos' ∧ pos' ≤ pos+ctrl.length) ∧
      ∃ zst phase away,
        conn' = {conn.record buf ctrl pos with zst := zst, phase := phase, goingAway := away} ∨
        ∃ id hdr live, conn' = (conn.record buf ctrl pos).opened id hdr live zst := by
  unfold dispatch at h
  split_ifs at h
  · obtain ⟨hret,hpos,zst,hconn⟩ := handleSynStream_inv h
    exact ⟨hret,hpos,zst,conn.phase,conn.goingAway,hconn⟩
  · obtain ⟨_,_,h⟩ := bind_ok_inv h
    obtain ⟨_,_,h⟩ := bind_ok_inv h
    cases h
    exact ⟨Or.inl rfl,⟨Nat.le_add_right _ _,le_refl _⟩,conn.zst,conn.phase,conn.goingAway,Or.inl rfl⟩
  · obtain ⟨_,_,h⟩ := bind_ok_inv h
    obtain ⟨_,_,h⟩ := bind_ok_inv h
    cases h
    exact ⟨Or.inl rfl,⟨Nat.le_add_right _ _,le_refl _⟩,conn.zst,.shutdown,true,Or.inl rfl⟩

/-- Where a frame leaves the cursor: in front of an incomplete frame, or behind a header. -/
theorem spdyProcessFrame_pos {env : SpdyEnv Z} {conn conn' : SpdyConn Z} {buf : Buffer}
    {pos pos' : ℕ} (h : spdyProcessFrame env conn buf pos = .ok (.ok,conn',pos')) :
    ∃ ctrl, spdyReadCtrl buf.buf pos = .ok ctrl ∧ ctrl.version = 3 ∧
      (Incomplete buf ctrl pos ∧ pos' = pos ∧ conn' = conn ∨
        ¬ Incomplete buf ctrl pos ∧ pos+8 ≤ pos' ∧ pos' ≤ pos+8+ctrl.length) := by
  unfold spdyProcessFrame at h
  split_ifs at h with hlen
  · cases h
  obtain ⟨ctrl,hctrl,h⟩ := bind_ok_inv h
  refine ⟨ctrl,hctrl,?_⟩
  split_ifs at h with hver hinc
  · cases h
  · cases h
    exact ⟨not_not.mp hver,Or.inl ⟨hinc,rfl,rfl⟩⟩
  · exact ⟨not_not.mp hver,Or.inr ⟨hinc,(dispatch_inv h).2.1⟩⟩

/-- A turn goes round exactly when the frame is handled or is not complete. -/
theorem scanTurn_again {env : SpdyEnv Z} {s s' : Scan Z} (h : scanTurn env s = .again s') :
    8 < s.buf.len ∧ spdyProcessFrame env s.conn s.buf s.pos = .ok (.ok,s'.conn,s'.pos) ∧
      s'.buf = s.buf.moveToBegin s'.pos := by
  unfold scanTurn at h
  split_ifs at h with hlen
  rcases hf : spdyProcessFrame env s.conn s.buf s.pos with halt | ⟨ret,conn,pos⟩
  · rw [hf] at h
    cases h
  · rw [hf] at h
    cases ret <;> cases h
    exact ⟨hlen,rfl,rfl⟩

end Http2d
