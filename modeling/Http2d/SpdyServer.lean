import Http2d.SpdyTermination
import Http2d.Library.Transition

/-! How a SPDY connection takes what it reads.
A read without an end has no outcome: a handler may run out of the memory of its buffer, the loop may
hang, and an unknown frame type ends the process. What `do_io` does with a connection on which a
frame was refused is not part of the read. -/
namespace Http2d

open Bytes WhileLoop Transition

variable {Z : Type}

/-- A connection with its read buffer; `failed` when a frame was refused. Nothing is read after
that. -/
structure SpdyServer (Z : Type) where
  conn : SpdyConn Z
  bufferRead : Buffer
  failed : Bool

def SpdyServer.new (zst : Z) : SpdyServer Z := ⟨SpdyConn.new zst,Buffer.init,false⟩

/-- The beginning of `do_io`: at most `count` bytes arrive and the buffer is processed. -/
def serveRead (env : SpdyEnv Z) (count : ℕ) (s : SpdyServer Z) (chunk : List UInt8) :
    Option (SpdyServer Z) :=
  if s.failed then some s
  else
    match s.bufferRead.socketReadBuf count chunk with
    | .error _ => none
    | .ok (_,b) =>
      if b.isEmpty then some {s with bufferRead := b}
      else
        match spdyProcessBuffer env s.conn b with
        | some (.ok (ret,conn,buf)) => some ⟨conn,buf,ret = .error⟩
        | _ => none

theorem readUint32_ok (obj : List UInt8) (off : ℕ) (h : off+4 ≤ obj.length) :
    readUint32 obj off = .ok (beNat (slice obj off 4)) := by
  rw [readUint32,peek_ok obj off _ h,ok_bind]

theorem readUint16_ok (obj : List UInt8) (off : ℕ) (h : off+2 ≤ obj.length) :
    readUint16 obj off = .ok (beNat (slice obj off 2)) := by
  rw [readUint16,peek_ok obj off _ h,ok_bind]

theorem Buffer.buf_eq (b : Buffer) : b.buf = b.content ++ b.buf.drop b.len :=
  (List.take_append_drop b.len b.buf).symm

/-- The header of the frame that the buffer begins with. -/
theorem spdyReadCtrl_front {buf : Buffer} {t n : ℕ} {fl : UInt8} {rest : List UInt8}
    (h : buf.content = spdyWriteCtrl t fl n ++ rest) (ht : t < 2^16) (hn : n < 2^24) :
    spdyReadCtrl buf.buf 0 = .ok ⟨3,t,fl,n⟩ := by
  rw [buf.buf_eq,h,List.append_assoc]
  exact spdyReadCtrl_write fl _ ht hn

/-- A SYN_STREAM frame whose fields and block are there adds a request; it is consumed if the block is
read. -/
theorem handleSynStream_opens (env : SpdyEnv Z) (conn : SpdyConn Z) {buf : Buffer} (ctrl : SpdyCtrl)
    {pos : ℕ} (haway : conn.goingAway = false) (hnew : (env.newReq conn.zst).1 = true)
    (hfit : pos+10 ≤ buf.buf.length) {r r' : Ret} {tmp : Buffer} {zst : Z} {hdr : Header}
    {calls : List AddCall}
    (hinf : env.inflate (env.newReq conn.zst).2 (buf.buf.drop (pos+10))
      (cuint ((buf.len : ℤ)-(pos+10 : ℕ))) = .ok (r,tmp,zst))
    (hread : readNameValue (r,tmp) Header.init = .ok (r',hdr,calls)) :
    handleSynStream env conn buf ctrl pos = .ok (if r' ≠ .ok then .error else .ok,
      conn.opened (beNat (slice buf.buf pos 4)) hdr (r' = .ok) zst,
      if r' ≠ .ok then pos else pos+ctrl.length) := by
  have h0 := readUint32_ok buf.buf pos (by omega)
  have h4 := readUint32_ok buf.buf (pos+4) (by omega)
  have h8 := peekByte_ok buf.buf (pos+8) (by omega)
  have h9 := peekByte_ok buf.buf (pos+9) (by omega)
  push_cast at h4 h8 h9
  unfold handleSynStream
  rw [if_neg (by simp [haway])]
  dsimp only
  rw [if_neg (by simp [hnew])]
  simp only [h0,h4,h8,h9,ok_bind,hinf,hread]
  split_ifs <;> rfl

theorem handleRstStream_returns (conn : SpdyConn Z) {buf : Buffer} (ctrl : SpdyCtrl) {pos : ℕ}
    (h : pos+8 ≤ buf.buf.length) :
    handleRstStream conn buf ctrl pos = .ok (.ok,conn,pos+ctrl.length) := by
  have h0 := readUint32_ok buf.buf pos (by omega)
  have h4 := readUint32_ok buf.buf (pos+4) (by omega)
  push_cast at h4
  simp only [handleRstStream,h0,h4,ok_bind]

theorem handleGoaway_returns (conn : SpdyConn Z) {buf : Buffer} (ctrl : SpdyCtrl) {pos : ℕ}
    (h : pos+8 ≤ buf.buf.length) : handleGoaway conn buf ctrl pos =
      .ok (.ok,{conn with phase := .shutdown, goingAway := true},pos+ctrl.length) := by
  have h0 := readUint32_ok buf.buf pos (by omega)
  have h4 := readUint32_ok buf.buf (pos+4) (by omega)
  push_cast at h4
  simp only [handleGoaway,h0,h4,ok_bind]

/-- A buffer that begins with a header of another version is refused. -/
theorem spdyProcessBuffer_version (env : SpdyEnv Z) (conn : SpdyConn Z) {buf : Buffer}
    {ctrl : SpdyCtrl} (h12 : 12 ≤ buf.len) (hctrl : spdyReadCtrl buf.buf 0 = .ok ctrl)
    (hver : ctrl.version ≠ 3) :
    spdyProcessBuffer env conn buf = some (.ok (.error,conn,buf)) := by
  have hframe : spdyProcessFrame env conn buf 0 = .ok (.error,conn,0) := by
    unfold spdyProcessFrame
    rw [if_neg (by simp only [spdyFrameHeadLength]; omega),Nat.cast_zero,hctrl,ok_bind,
      if_pos hver]
  have hturn : scanTurn env ⟨conn,buf,0⟩ = .stop (.ok (.error,conn,buf)) := by
    unfold scanTurn
    rw [if_pos (by show 8 < buf.len; omega)]
    simp only [hframe]
  rw [spdyProcessBuffer,if_neg (by omega),run_stop hturn]

/-- What holds between the reads. -/
def SpdyServer.Waiting (s : SpdyServer Z) : Prop :=
  s.bufferRead.Wf ∧ (s.failed = true ∨ s.bufferRead.len < 12)

theorem SpdyServer.new_waiting (zst : Z) : (SpdyServer.new zst).Waiting :=
  ⟨Buffer.init_wf,Or.inr (Nat.succ_pos 11)⟩

/-- A read that got something is processed once. -/
theorem serveRead_got {env : SpdyEnv Z} {count : ℕ} {s : SpdyServer Z} {chunk : List UInt8}
    {b : Buffer} {r : Ret} (hfail : s.failed = false)
    (hb : s.bufferRead.socketReadBuf count chunk = .ok (r,b)) (hne : 0 < b.len) :
    serveRead env count s chunk = match spdyProcessBuffer env s.conn b with
      | some (.ok (ret,conn,buf)) => some ⟨conn,buf,ret = .error⟩
      | _ => none := by
  have hempty : ¬ b.isEmpty = true := by simp only [Buffer.isEmpty,beq_iff_eq]; omega
  unfold serveRead
  rw [if_neg (by simp [hfail]),hb]
  dsimp only
  rw [if_neg hempty]

theorem serveRead_ok {env : SpdyEnv Z} {count : ℕ} {s : SpdyServer Z} {chunk : List UInt8}
    {b buf : Buffer} {ret r : Ret} {conn : SpdyConn Z} (hfail : s.failed = false)
    (hb : s.bufferRead.socketReadBuf count chunk = .ok (r,b)) (hne : 0 < b.len)
    (hout : spdyProcessBuffer env s.conn b = some (.ok (ret,conn,buf))) :
    serveRead env count s chunk = some ⟨conn,buf,ret = .error⟩ := by
  rw [serveRead_got hfail hb hne,hout]

section related

variable {env : SpdyEnv Z} {R : SpdyConn Z → SpdyConn Z → Prop} (hrefl : ∀ c, R c c)
  (htrans : ∀ a b c, R a b → R b c → R a c)
  (hframe : ∀ conn conn' buf ctrl pos pos' ret,
    dispatch env conn buf ctrl pos = .ok (ret,conn',pos') → R conn conn')
include hrefl hframe

theorem spdyProcessFrame_related {conn conn' : SpdyConn Z} {buf : Buffer} {pos pos' : ℕ} {ret : Ret}
    (h : spdyProcessFrame env conn buf pos = .ok (ret,conn',pos')) : R conn conn' := by
  unfold spdyProcessFrame at h
  split_ifs at h
  · cases h
    exact hrefl _
  obtain ⟨ctrl,_,h⟩ := bind_ok_inv h
  split_ifs at h
  · cases h
    exact hrefl _
  · cases h
    exact hrefl _
  · exact hframe _ _ _ _ _ _ _ h

include htrans

theorem spdyProcessBuffer_related {conn conn' : SpdyConn Z} {buf buf' : Buffer} {ret : Ret}
    (h : spdyProcessBuffer env conn buf = some (.ok (ret,conn',buf'))) : R conn conn' := by
  unfold spdyProcessBuffer at h
  split_ifs at h
  · cases h
    exact hrefl _
  obtain ⟨u,hv,hstop⟩ := exists_last_turn h
  have hu : R conn u.conn := by
    refine hv.invariant (fun v => R conn v.conn) (fun v v' hv ht => ?_) (hrefl _)
    exact htrans _ _ _ hv (spdyProcessFrame_related hrefl hframe (scanTurn_again ht).2.1)
  unfold scanTurn at hstop
  split_ifs at hstop
  · rcases hf : spdyProcessFrame env u.conn u.buf u.pos with halt | ⟨r,c,p⟩
    · rw [hf] at hstop
      cases hstop
    · have hc := htrans _ _ _ hu (spdyProcessFrame_related hrefl hframe hf)
      rw [hf] at hstop
      cases r <;> cases hstop <;> exact hc
  · cases hstop
    exact hu

/-- What every handled frame does to the connection, a whole read does. -/
theorem serveRead_related {count : ℕ} {s t : SpdyServer Z} {chunk : List UInt8}
    (h : serveRead env count s chunk = some t) : R s.conn t.conn := by
  unfold serveRead at h
  split_ifs at h
  · cases h
    exact hrefl _
  rcases hb : s.bufferRead.socketReadBuf count chunk with halt | ⟨r,b⟩
  · rw [hb] at h
    cases h
  rw [hb] at h
  dsimp only at h
  split_ifs at h
  · cases h
    exact hrefl _
  rcases hout : spdyProcessBuffer env s.conn b with _ | halt | ⟨ret,conn,buf⟩
  · rw [hout] at h
    cases h
  · rw [hout] at h
    cases h
  · rw [hout] at h
    cases h
    exact spdyProcessBuffer_related hrefl htrans hframe hout

end related

end Http2d
