import Http2d.SpdyStreams
import Http2d.ConnectionWrite

/-! The steps of a SPDY connection with both its write buffers, and the shutdown of its socket.
A GOAWAY frame sets the phase in the middle of `do_io`, and the next step shuts the socket down. What
waited then is recorded. The steps end when the connection is recycled. -/
namespace Http2d

open Transition

variable {Z : Type}

/-- What `http2d_socket_read_buf` meets in `do_io`; a failed read counts as one that brings nothing. -/
inductive ReadResult
  | got (chunk : List UInt8)
  | eagain
  | eof

/-- What a step of the connection meets: in the handshake of TLS, at the socket, and in
`_http2d_connection_do_linger_read`. -/
structure StepResults where
  sslInit : Ret
  read : ReadResult
  write : SocketEnv
  shutdown : Ret
  linger : Ret

/-- What waits on a connection: the bytes in `buffer_write` and in `buffer_write_ssl`, and the
requests without a reply. -/
structure Waiting where
  write : ℕ
  ssl : ℕ
  requests : ℕ
  deriving DecidableEq

namespace Connection

/-- How many bytes wait in both buffers. -/
def waiting (c : Connection) : ℕ := c.bufferWrite.len+c.bufferWriteSsl.len

/-- One write takes everything that waits. -/
def TakesAll (c : Connection) (env : SocketEnv) : Prop := cuint (c.taken env) = c.waiting

theorem swapped_waiting (c : Connection) : c.swapped.waiting = c.waiting := by
  unfold swapped waiting
  split_ifs
  · exact Nat.add_comm ..
  · rfl

theorem outgoing_le (c : Connection) : c.outgoing.len ≤ c.waiting := by
  unfold outgoing waiting
  split_ifs <;> omega

theorem setOutgoing_waiting (c : Connection) (pos : ℕ) :
    (c.setOutgoing (c.outgoing.moveToBegin pos)).waiting =
      c.waiting-c.outgoing.len+(c.outgoing.len-pos) := by
  unfold setOutgoing outgoing waiting
  split_ifs
  · simp only [Buffer.moveToBegin_len]
    omega
  · simp only [Buffer.moveToBegin_len]
    omega

theorem cuint_le (n : ℕ) : cuint n ≤ n := by
  simp only [cuint]
  omega

/-- What the socket takes does not wait any longer. -/
theorem doWrite_waiting {c : Connection} {env : SocketEnv} (ha : c.Answered env) :
    (c.doWrite env).2.2.waiting = c.waiting-cuint (c.taken env) ∧
      cuint (c.taken env) ≤ c.waiting := by
  obtain ⟨hw,hle,-⟩ := answer_spec ha
  have hcu := cuint_le (c.taken env)
  have hout : c.offered.len ≤ c.waiting := by
    rw [← swapped_waiting c]
    exact outgoing_le c.swapped
  refine ⟨?_,by omega⟩
  rw [doWrite_answer,hw]
  split_ifs with h0
  · have hset := setOutgoing_waiting {c.swapped with closed := (c.answer env).2} (cuint (c.taken env))
    have hwait : ({c.swapped with closed := (c.answer env).2} : Connection).waiting = c.waiting :=
      swapped_waiting c
    have hoff : ({c.swapped with closed := (c.answer env).2} : Connection).outgoing = c.offered := rfl
    rw [hwait,hoff] at hset
    rw [hset]
    omega
  · rw [show c.taken env = 0 by omega]
    exact swapped_waiting c

/-- Nothing waits after a write exactly when it took everything. -/
theorem doWrite_takesAll {c : Connection} {env : SocketEnv} (ha : c.Answered env) :
    (c.doWrite env).2.2.waiting = 0 ↔ c.TakesAll env := by
  obtain ⟨hwait,hle⟩ := doWrite_waiting ha
  rw [hwait,TakesAll]
  omega

/-- No byte is taken when there is none. -/
theorem takesAll_of_empty {c : Connection} (env : SocketEnv) (h : c.waiting = 0) : c.TakesAll env := by
  have hout : c.offered.len = 0 := by
    have hle := outgoing_le c.swapped
    rw [swapped_waiting,h] at hle
    exact Nat.eq_zero_of_le_zero hle
  have hno : sendable c.offered = false := by
    simp [sendable,hout,cint]
  rw [TakesAll,taken,hno,h]
  rfl

/-- Without TLS, a socket that takes nothing changes nothing. -/
theorem doWrite_stuck {c : Connection} (hplain : c.isTls = false) (ssl : WriteResult) :
    ∃ ret wanted, ret ≠ .eof ∧ c.doWrite ⟨.failed .again,ssl⟩ = (ret,wanted,c) := by
  obtain ⟨isTls,closed,bufferWrite,bufferWriteSsl⟩ := c
  obtain rfl : isTls = false := hplain
  cases hs : sendable bufferWrite with
  | false => exact ⟨.error,none,by decide,by simp [doWrite,swapped,outgoing,socketWrite,hs]⟩
  | true => exact ⟨.eagain,some .write,by decide,by simp [doWrite,swapped,outgoing,socketWrite,hs]⟩

end Connection

/-- A SPDY connection on its socket, with what waited whenever the socket was shut down. Its server
has failed when a frame was refused or the connection was recycled. -/
structure SpdyLink (Z : Type) where
  server : SpdyServer Z
  isTls : Bool
  closed : Bool
  bufferWriteSsl : Buffer
  shutdowns : List Waiting

namespace SpdyLink

def new (zst : Z) (isTls : Bool) : SpdyLink Z := ⟨SpdyServer.new zst,isTls,false,Buffer.init,[]⟩

def conn (s : SpdyLink Z) : SpdyConn Z := s.server.conn

/-- The parts of the connection that writing uses. -/
def output (s : SpdyLink Z) : Connection := ⟨s.isTls,s.closed,s.conn.bufferWrite,s.bufferWriteSsl⟩

def setOutput (s : SpdyLink Z) (c : Connection) : SpdyLink Z :=
  {s with
    server := {s.server with conn := {s.server.conn with bufferWrite := c.bufferWrite}}
    closed := c.closed
    bufferWriteSsl := c.bufferWriteSsl}

def setPhase (s : SpdyLink Z) (phase : SpdyPhase) : SpdyLink Z :=
  {s with server := {s.server with conn := {s.server.conn with phase := phase}}}

/-- `http2d_thread_recycle_conn`. -/
def recycled (s : SpdyLink Z) : SpdyLink Z := {s with server := {s.server with failed := true}}

/-- A request whose reply was not produced. -/
def unanswered (s : SpdyLink Z) : List SpdyReq := s.conn.requests.filter fun r => r.req.phase ≠ .stepping

def waiting (s : SpdyLink Z) : Waiting :=
  ⟨s.conn.bufferWrite.len,s.bufferWriteSsl.len,s.unanswered.length⟩

end SpdyLink

/-- The loop over the requests in `do_io`: `left` of them stand at `place` and behind it. -/
def stepRequests (env : SpdyEnv Z) : ℕ → ℕ → SpdyStreams Z → Option (SpdyStreams Z)
  | 0, _, s => some s
  | left+1, place, s =>
    (stepRequest env s place).bind fun t =>
      stepRequests env left (if t.server.conn.requests.length < s.server.conn.requests.length then place
        else place+1) t

namespace SpdyLink

/-- `do_io` up to its write: the bytes are processed, and the requests are stepped. -/
def serve (env : SpdyEnv Z) (s : SpdyLink Z) (chunk : List UInt8) : Option (SpdyLink Z) :=
  (serveRead env 16382 s.server chunk).bind fun server =>
    if server.failed then some {s with server := server}
    else (stepRequests env server.conn.requests.length 0 ⟨server,[]⟩).map fun t =>
      {s with server := t.server}

/-- The last part of `do_io`. The system does not take more bytes than it is offered. -/
def write (s : SpdyLink Z) (env : SocketEnv) : Option (SpdyLink Z) :=
  if s.conn.bufferWrite.isEmpty ∧ s.bufferWriteSsl.isEmpty then some s
  else if s.output.Answered env then
    let r := s.output.doWrite env
    some (if r.1 = .eof then (s.setOutput r.2.2).recycled else s.setOutput r.2.2)
  else none

/-- `do_io`. -/
def doIo (env : SpdyEnv Z) (s : SpdyLink Z) (r : StepResults) : Option (SpdyLink Z) :=
  match r.read with
  | .eagain => some s
  | .eof => some s.recycled
  | .got chunk => (s.serve env chunk).bind fun t =>
    if t.server.failed then some t else t.write r.write

/-- The end of `conn_spdy_step`: the thread recycles the connection when the peer is done. -/
def lingerRead (s : SpdyLink Z) (r : StepResults) : SpdyLink Z :=
  if r.linger = .eof ∨ r.linger = .error then s.recycled else s

/-- `_http2d_connection_do_shutdown`, and what follows it in `conn_spdy_step`. -/
def shutdown (s : SpdyLink Z) (r : StepResults) : SpdyLink Z :=
  let s := {s with isTls := false, shutdowns := s.shutdowns ++ [s.waiting]}
  if r.shutdown ≠ .ok then s else (s.setPhase .shutdown).lingerRead r

/-- `conn_spdy_step`. -/
def step (env : SpdyEnv Z) (s : SpdyLink Z) (r : StepResults) : Option (SpdyLink Z) :=
  if s.server.failed then none
  else
    match s.conn.phase with
    | .handshake =>
      if s.isTls then
        match r.sslInit with
        | .ok => (s.setPhase .io).doIo env r
        | .eof => some s.recycled
        | _ => some s
      else (s.setPhase .io).doIo env r
    | .io => s.doIo env r
    | .shutdown => some (s.shutdown r)
    | .lingerRead => some (s.lingerRead r)

/-- The connection in front of its `do_io`, when the step comes to it. -/
def beforeIo (s : SpdyLink Z) (r : StepResults) : Option (SpdyLink Z) :=
  match s.conn.phase with
  | .handshake => if s.isTls ∧ r.sslInit ≠ .ok then none else some (s.setPhase .io)
  | .io => some s
  | _ => none

/-- A `do_io` that handles a GOAWAY frame sends all that waits: the socket takes it in one write. -/
def GoawaySendsAll (env : SpdyEnv Z) (s : SpdyLink Z) (r : StepResults) : Prop :=
  ∀ u ∈ s.beforeIo r, ∀ chunk, r.read = .got chunk → ∀ t ∈ u.serve env chunk,
    t.server.failed = false → t.conn.phase = .shutdown → t.output.TakesAll r.write

/-- Whenever the socket was shut down, nothing waited. -/
def NothingDiscarded (s : SpdyLink Z) : Prop := ∀ w ∈ s.shutdowns, w = ⟨0,0,0⟩

end SpdyLink

/-- What a GOAWAY frame changes, and nothing else does. -/
def SameOrAway (c c' : SpdyConn Z) : Prop :=
  c'.phase = c.phase ∧ c'.goingAway = c.goingAway ∨ c'.phase = .shutdown ∧ c'.goingAway = true

theorem dispatch_sameOrAway {env : SpdyEnv Z} {conn conn' : SpdyConn Z} {buf : Buffer}
    {ctrl : SpdyCtrl} {pos pos' : ℕ} {ret : Ret}
    (h : dispatch env conn buf ctrl pos = .ok (ret,conn',pos')) : SameOrAway conn conn' := by
  unfold dispatch at h
  split_ifs at h
  · obtain ⟨_,_,zst,rfl | ⟨id,hdr,live,rfl⟩⟩ := handleSynStream_inv h <;> exact .inl ⟨rfl,rfl⟩
  · obtain ⟨_,_,h⟩ := bind_ok_inv h
    obtain ⟨_,_,h⟩ := bind_ok_inv h
    cases h
    exact .inl ⟨rfl,rfl⟩
  · obtain ⟨_,_,h⟩ := bind_ok_inv h
    obtain ⟨_,_,h⟩ := bind_ok_inv h
    cases h
    exact .inr ⟨rfl,rfl⟩

theorem SameOrAway.trans {a b c : SpdyConn Z} (hab : SameOrAway a b) (hbc : SameOrAway b c) :
    SameOrAway a c := by
  rcases hbc with ⟨hphase,haway⟩ | hshut
  · rw [SameOrAway,hphase,haway]
    exact hab
  · exact .inr hshut

theorem serveRead_sameOrAway {env : SpdyEnv Z} {count : ℕ} {s t : SpdyServer Z} {chunk : List UInt8}
    (h : serveRead env count s chunk = some t) : SameOrAway s.conn t.conn :=
  serveRead_related (fun _ => .inl ⟨rfl,rfl⟩) (fun _ _ _ => .trans)
    (fun _ _ _ _ _ _ _ => dispatch_sameOrAway) h

section Requests
variable {env : SpdyEnv Z}

/-- A request has its reply after its first step. -/
theorem reqSpdyStep_stepping {conn conn' : SpdyConn Z} {req req' : RequestSpdy} {ret : Ret}
    (h : reqSpdyStep env conn req = .ok (ret,req',conn')) : req'.phase = .stepping := by
  unfold reqSpdyStep at h
  split_ifs at h with hphase
  · cases h
    exact hphase
  obtain ⟨_,_,h⟩ := bind_ok_inv h
  obtain ⟨_,_,h⟩ := bind_ok_inv h
  obtain ⟨_,_,h⟩ := bind_ok_inv h
  obtain ⟨_,_,h⟩ := bind_ok_inv h
  cases h
  rfl

/-- A step of a request leaves the read buffer and the phase alone. -/
theorem stepRequest_frame {place : ℕ} {s t : SpdyStreams Z} (h : stepRequest env s place = some t) :
    t.server.failed = s.server.failed ∧ t.server.bufferRead = s.server.bufferRead ∧
      t.server.conn.phase = s.server.conn.phase := by
  obtain ⟨r,_,⟨_,rfl⟩ | ⟨_,req,conn,hstep,rfl⟩⟩ := stepRequest_cases h
  · exact ⟨rfl,rfl,rfl⟩
  · rcases reqSpdyStep_inv hstep with ⟨_,_,rfl⟩ | ⟨_,_,_,_,_,rfl⟩ <;> exact ⟨rfl,rfl,rfl⟩

/-- The loop leaves no request behind without its reply. -/
theorem stepRequests_answered {left place : ℕ} {s t : SpdyStreams Z}
    (h : stepRequests env left place s = some t) (hleft : s.server.conn.requests.length = place+left)
    (hdone : ∀ r ∈ s.server.conn.requests.take place, r.req.phase = .stepping) :
    ∀ r ∈ t.server.conn.requests, r.req.phase = .stepping := by
  induction left generalizing place s with
  | zero =>
    obtain rfl := Option.some.inj h
    rwa [List.take_of_length_le (by omega)] at hdone
  | succ left ih =>
    obtain ⟨u,hu,h⟩ := Option.bind_eq_some_iff.mp h
    have hlt : place < s.server.conn.requests.length := by omega
    obtain ⟨r,hr,⟨_,rfl⟩ | ⟨_,req,conn,hstep,rfl⟩⟩ := stepRequest_cases hu
    -- A finished request goes, and the next one stands in its place.
    · have hlen : (s.server.conn.requests.eraseIdx place).length+1 = s.server.conn.requests.length :=
        List.length_eraseIdx_add_one hlt
      simp only at h
      rw [if_pos (by omega)] at h
      refine ih h (by simp only; omega) ?_
      rwa [List.take_eraseIdx_eq_take_of_le _ _ _ (le_refl place)]
    · have hreq := reqSpdyStep_stepping hstep
      have hconn : conn.requests = s.server.conn.requests := by
        rcases reqSpdyStep_inv hstep with ⟨_,_,rfl⟩ | ⟨_,_,_,_,_,rfl⟩ <;> rfl
      simp only [hconn,List.length_set,lt_irrefl,if_false] at h
      refine ih h (by simp only [List.length_set]; omega) ?_
      rw [List.take_succ_eq_append_getElem (by rw [List.length_set]; exact hlt)]
      simp only [List.getElem_set_self,List.forall_mem_append,List.forall_mem_singleton]
      refine ⟨?_,hreq⟩
      rwa [List.take_set_of_le (le_refl place)]

/-- Requests that have their replies are removed. -/
theorem stepRequests_finish (env : SpdyEnv Z) {s : SpdyStreams Z} (hserved : s.server.failed = false)
    (hdone : ∀ r ∈ s.server.conn.requests, r.live = true ∧ r.req.phase = .stepping) :
    stepRequests env s.server.conn.requests.length 0 s =
      some {s with server := {s.server with conn := {s.server.conn with requests := []}}} := by
  generalize hreqs : s.server.conn.requests = reqs at hdone
  induction reqs generalizing s with
  | nil =>
    rw [List.length_nil,← hreqs]
    rfl
  | cons r reqs ih =>
    obtain ⟨⟨hlive,hphase⟩,hrest⟩ := List.forall_mem_cons.mp hdone
    have hstep : stepRequest env s 0 = some {s with server := {s.server with conn :=
        {s.server.conn with requests := reqs}}} := by
      simp only [stepRequest,hserved,hreqs,List.getElem?_cons_zero,hlive,reqSpdyStep,hphase,if_true]
      rfl
    rw [List.length_cons,stepRequests,hstep,Option.bind_some,hreqs,if_pos (by simp)]
    exact ih hserved rfl hrest

end Requests

namespace SpdyLink

variable {env : SpdyEnv Z} {s t u : SpdyLink Z} {r : StepResults} {chunk : List UInt8}

/-- After the requests were stepped, all of them have their replies. -/
theorem serve_answered (h : s.serve env chunk = some t) (ht : t.server.failed = false) :
    t.shutdowns = s.shutdowns ∧ t.unanswered = [] := by
  obtain ⟨server,_,h⟩ := Option.bind_eq_some_iff.mp h
  split_ifs at h with hfailed
  · obtain rfl := Option.some.inj h
    exact absurd (hfailed.symm.trans ht) (by decide)
  · obtain ⟨streams,hsteps,rfl⟩ := Option.map_eq_some_iff.mp h
    have hall := stepRequests_answered hsteps (Nat.zero_add _).symm (by simp)
    exact ⟨rfl,List.filter_eq_nil_iff.mpr fun q hq => by simpa using hall q hq⟩

theorem serve_shutdowns (h : s.serve env chunk = some t) : t.shutdowns = s.shutdowns := by
  obtain ⟨server,_,h⟩ := Option.bind_eq_some_iff.mp h
  split_ifs at h
  · obtain rfl := Option.some.inj h
    rfl
  · obtain ⟨streams,-,rfl⟩ := Option.map_eq_some_iff.mp h
    rfl

/-- A write changes what waits in the buffers, and may end the connection. -/
theorem write_spec {answer : SocketEnv} (h : s.write answer = some t) :
    t.shutdowns = s.shutdowns ∧ t.conn.phase = s.conn.phase ∧ t.unanswered = s.unanswered ∧
      (t.output.waiting = 0 ↔ s.output.TakesAll answer) := by
  unfold write at h
  by_cases hempty : s.conn.bufferWrite.isEmpty ∧ s.bufferWriteSsl.isEmpty
  · rw [if_pos hempty] at h
    obtain rfl := Option.some.inj h
    have hzero : s.output.waiting = 0 := by
      simp only [Buffer.isEmpty,beq_iff_eq] at hempty
      show s.conn.bufferWrite.len+s.bufferWriteSsl.len = 0
      omega
    exact ⟨rfl,rfl,rfl,iff_of_true hzero (Connection.takesAll_of_empty answer hzero)⟩
  rw [if_neg hempty] at h
  split_ifs at h with hanswered
  have hwritten := Connection.doWrite_takesAll hanswered
  obtain rfl := Option.some.inj h
  split_ifs
  · exact ⟨rfl,rfl,rfl,hwritten⟩
  · exact ⟨rfl,rfl,rfl,hwritten⟩

/-- Nothing waits on the connection. -/
theorem waiting_eq_zero : s.waiting = ⟨0,0,0⟩ ↔ s.output.waiting = 0 ∧ s.unanswered = [] := by
  simp only [waiting,Waiting.mk.injEq,Connection.waiting,output,Nat.add_eq_zero_iff,
    List.length_eq_zero_iff,and_assoc]

/-- What a step comes to: `do_io`, the shutdown, or neither, when the connection is only recycled. -/
theorem step_cases (h : s.step env r = some t) : s.server.failed = false ∧
    ((∃ u, s.beforeIo r = some u ∧ u.doIo env r = some t) ∨
      s.conn.phase = .shutdown ∧ t = s.shutdown r ∨
      s.conn.phase ≠ .shutdown ∧ s.beforeIo r = none ∧ (t = s ∨ t = s.recycled)) := by
  unfold step at h
  by_cases hfailed : s.server.failed = true
  · rw [if_pos hfailed] at h
    cases h
  rw [if_neg hfailed] at h
  refine ⟨by simpa using hfailed,?_⟩
  unfold beforeIo
  cases hphase : s.conn.phase with
  | handshake =>
    simp only [hphase] at h
    by_cases htls : s.isTls = true
    · rw [if_pos htls] at h
      cases hssl : r.sslInit <;> simp only [hssl] at h
      case ok => exact .inl ⟨_,by simp,h⟩
      case eof => exact .inr (.inr ⟨by decide,by simp [htls],.inr (Option.some.inj h).symm⟩)
      all_goals exact .inr (.inr ⟨by decide,by simp [htls],.inl (Option.some.inj h).symm⟩)
    · rw [if_neg htls] at h
      exact .inl ⟨_,by simp [htls],h⟩
  | io =>
    simp only [hphase] at h
    exact .inl ⟨s,rfl,h⟩
  | shutdown =>
    simp only [hphase] at h
    exact .inr (.inl ⟨rfl,(Option.some.inj h).symm⟩)
  | lingerRead =>
    simp only [hphase] at h
    refine .inr (.inr ⟨by decide,rfl,?_⟩)
    rw [← Option.some.inj h,lingerRead]
    split_ifs
    · exact .inr rfl
    · exact .inl rfl

theorem beforeIo_spec (h : s.beforeIo r = some u) :
    u.conn.phase = .io ∧ u.shutdowns = s.shutdowns ∧ u.server.failed = s.server.failed := by
  unfold beforeIo at h
  cases hphase : s.conn.phase <;> simp only [hphase] at h
  case handshake =>
    split_ifs at h
    obtain rfl := Option.some.inj h
    exact ⟨rfl,rfl,rfl⟩
  case io =>
    obtain rfl := Option.some.inj h
    exact ⟨hphase,rfl,rfl⟩
  all_goals cases h

/-- After its write `do_io` leaves nothing waiting exactly when the socket takes everything. -/
theorem written_spec {v : SpdyLink Z} (hv : u.serve env chunk = some v)
    (hserved : v.server.failed = false) {answer : SocketEnv} (h : v.write answer = some t) :
    t.shutdowns = u.shutdowns ∧ t.conn.phase = v.conn.phase ∧
      (t.waiting = ⟨0,0,0⟩ ↔ v.output.TakesAll answer) := by
  obtain ⟨hlog,hphase,hreqs,hwait⟩ := write_spec h
  obtain ⟨hlog',hanswered⟩ := serve_answered hv hserved
  refine ⟨hlog.trans hlog',hphase,?_⟩
  rw [waiting_eq_zero,hreqs,hanswered,hwait]
  exact and_iff_left rfl

theorem doIo_got {v : SpdyLink Z} (hread : r.read = .got chunk) (hv : u.serve env chunk = some v)
    (hserved : v.server.failed = false) : u.doIo env r = v.write r.write := by
  simp only [doIo,hread,hv,Option.bind_some,hserved]
  rfl

/-- How `do_io` ends: the connection is recycled, nothing was read, or what was read is served and the
write is made. -/
theorem doIo_cases (h : u.doIo env r = some t) : t.shutdowns = u.shutdowns ∧
    (t.server.failed = true ∨ t = u ∨ ∃ chunk v, r.read = .got chunk ∧ u.serve env chunk = some v ∧
      v.server.failed = false ∧ v.write r.write = some t) := by
  unfold doIo at h
  cases hread : r.read with
  | eagain =>
    simp only [hread] at h
    obtain rfl := Option.some.inj h
    exact ⟨rfl,.inr (.inl rfl)⟩
  | eof =>
    simp only [hread] at h
    obtain rfl := Option.some.inj h
    exact ⟨rfl,.inl rfl⟩
  | got chunk =>
    simp only [hread] at h
    obtain ⟨v,hv,h⟩ := Option.bind_eq_some_iff.mp h
    by_cases hfailed : v.server.failed = true
    · rw [if_pos hfailed] at h
      obtain rfl := Option.some.inj h
      exact ⟨serve_shutdowns hv,.inl hfailed⟩
    · rw [if_neg hfailed] at h
      have hserved : v.server.failed = false := by simpa using hfailed
      exact ⟨(written_spec hv hserved h).1,.inr (.inr ⟨chunk,v,rfl,hv,hserved,h⟩)⟩

theorem shutdown_shutdowns (s : SpdyLink Z) (r : StepResults) :
    (s.shutdown r).shutdowns = s.shutdowns ++ [s.waiting] := by
  unfold shutdown lingerRead
  split_ifs <;> rfl

/-- In front of a shutdown nothing waits. -/
structure Inv (s : SpdyLink Z) : Prop where
  clean : s.NothingDiscarded
  drained : s.server.failed = false → s.conn.phase = .shutdown → s.waiting = ⟨0,0,0⟩

theorem new_inv (zst : Z) (isTls : Bool) : (new zst isTls).Inv :=
  ⟨by simp [new,NothingDiscarded],fun _ h => by cases h⟩

theorem shutdown_inv (hs : s.Inv) (hserved : s.server.failed = false) (hphase : s.conn.phase = .shutdown)
    (r : StepResults) : (s.shutdown r).Inv := by
  have hzero := hs.drained hserved hphase
  have hclean : ∀ w ∈ s.shutdowns ++ [s.waiting], w = ⟨0,0,0⟩ :=
    List.forall_mem_append.mpr ⟨hs.clean,List.forall_mem_singleton.mpr hzero⟩
  unfold shutdown lingerRead
  split_ifs
  · exact ⟨hclean,fun _ _ => hzero⟩
  · exact ⟨hclean,fun h => by cases h⟩
  · exact ⟨hclean,fun _ _ => hzero⟩

theorem step_inv (hs : s.Inv) (hg : GoawaySendsAll env s r) (h : s.step env r = some t) : t.Inv := by
  obtain ⟨hserved,⟨u,hu,h⟩ | ⟨hphase,rfl⟩ | ⟨hphase,_,rfl | rfl⟩⟩ := step_cases h
  · obtain ⟨hio,hlog,-⟩ := beforeIo_spec hu
    obtain ⟨hlog',hleft⟩ := doIo_cases h
    have hclean : t.NothingDiscarded := by
      rw [NothingDiscarded,hlog',hlog]
      exact hs.clean
    refine ⟨hclean,fun hserved' hphase' => ?_⟩
    rcases hleft with hfailed | rfl | ⟨chunk,v,hread,hv,hvserved,hwrite⟩
    · exact absurd (hfailed.symm.trans hserved') (by decide)
    · exact absurd (hio.symm.trans hphase') (by decide)
    · obtain ⟨-,hvphase,hwait⟩ := written_spec hv hvserved hwrite
      exact hwait.mpr (hg u hu chunk hread v hv hvserved (hvphase.symm.trans hphase'))
  · exact shutdown_inv hs hserved hphase r
  · exact hs
  · exact ⟨hs.clean,fun h => by cases h⟩

/-- In a run in which the socket takes, whenever a GOAWAY frame was handled, all that waits then,
nothing waits when the socket is shut down. -/
theorem run_nothingDiscarded (env : SpdyEnv Z) (zst : Z) (isTls : Bool) {rs : List StepResults}
    (hg : Guarded (step env) (GoawaySendsAll env) (new zst isTls) rs)
    (h : run (step env) (new zst isTls) rs = some s) : s.NothingDiscarded :=
  (guarded_invariant _ Inv (fun _ _ _ hs hg h => step_inv hs hg h) (new_inv zst isTls) hg h).clean

/-- A step that does not meet the condition leaves something waiting, and the next one, if there is
one, discards it. -/
theorem step_discards (hg : ¬ GoawaySendsAll env s r) (h : s.step env r = some t)
    (hserved : t.server.failed = false) (r' : StepResults) :
    ∃ t', t.step env r' = some t' ∧ ¬ t'.NothingDiscarded := by
  simp only [GoawaySendsAll,not_forall] at hg
  obtain ⟨u,hu,chunk,hread,v,hv,hvserved,hvphase,hno⟩ := hg
  have hbefore : s.beforeIo r = some u := hu
  have hv' : u.serve env chunk = some v := hv
  obtain ⟨-,⟨u',hu',h⟩ | ⟨hphase,-⟩ | ⟨-,hnone,-⟩⟩ := step_cases h
  · obtain rfl := Option.some.inj (hbefore.symm.trans hu')
    rw [doIo_got hread hv' hvserved] at h
    obtain ⟨-,hphase,hwait⟩ := written_spec hv' hvserved h
    refine ⟨t.shutdown r',?_,fun hclean => ?_⟩
    · rw [step,if_neg (by simp [hserved]),hphase,hvphase]
    · rw [NothingDiscarded,shutdown_shutdowns] at hclean
      exact hno (hwait.mp (hclean _ (by simp)))
  · rw [beforeIo,hphase] at hbefore
    cases hbefore
  · rw [hbefore] at hnone
    cases hnone

theorem serve_steps {server : SpdyServer Z} (hread : serveRead env 16382 s.server chunk = some server)
    (hserved : server.failed = false) {u : SpdyStreams Z}
    (hloop : stepRequests env server.conn.requests.length 0 ⟨server,[]⟩ = some u) :
    s.serve env chunk = some {s with server := u.server} := by
  rw [serve,hread,Option.bind_some,if_neg (by simp [hserved]),hloop,Option.map_some]

/-- The frame that ends a connection. -/
def goawayFrame : CtrlFrame where
  type := spdyGoaway
  flags := 0
  payload := [0,0,0,1,0,0,0,0]
  fixed := Or.inr ⟨Or.inr rfl,by decide⟩
  short := by decide

/-- With nothing read before it, a GOAWAY frame sets the phase, and the requests that have their
replies are removed. -/
theorem serve_goaway (env : SpdyEnv Z) (hserved : s.server.failed = false)
    (hwf : s.server.bufferRead.Wf) (hempty : s.server.bufferRead.content = [])
    (hdone : ∀ q ∈ s.conn.requests, q.live = true ∧ q.req.phase = .stepping) :
    ∃ t, s.serve env goawayFrame.bytes = some t ∧ t.server.failed = false ∧
      t.conn.phase = .shutdown ∧ t.output = s.output ∧ t.shutdowns = s.shutdowns := by
  have hlen0 : s.server.bufferRead.len = 0 := by rw [← Buffer.content_length hwf,hempty]; rfl
  obtain ⟨b,hb,hbwf,hcont,hlen,_⟩ := Buffer.socketReadBuf_spec hwf
    (by decide : goawayFrame.bytes.length ≤ 16382) (by omega)
  have h16 : goawayFrame.bytes.length = 16 := by decide
  rw [hempty,List.nil_append] at hcont
  have hdisp : dispatch env s.conn b goawayFrame.ctrl 8 = .ok (.ok,
      {s.conn.record b goawayFrame.ctrl 8 with phase := .shutdown, goingAway := true},16) := by
    have hfit := hbwf.len_le
    exact (if_neg (by decide)).trans ((if_neg (by decide)).trans ((if_pos rfl).trans
      (handleGoaway_returns _ goawayFrame.ctrl (by omega))))
  have hcont' : b.content = [] ++ (goawayFrame.bytes ++ []) := by
    rw [hcont,List.nil_append,List.append_nil]
  have hturn := scanTurn_dispatched hbwf hcont' hdisp
  have hout := spdyProcessBuffer_one (by omega) (by simp; omega) hturn
  have hread := serveRead_ok hserved hb (by omega) hout
  have hserve := serve_steps hread rfl (stepRequests_finish env (s:=⟨_,[]⟩) rfl hdone)
  exact ⟨_,hserve,rfl,rfl,rfl,rfl⟩

/-- A step in which the socket takes nothing. -/
def stuckStep (read : ReadResult) : StepResults :=
  ⟨.ok,read,⟨.failed .again,⟨.eagain,0,none⟩⟩,.ok,.eagain⟩

/-- A GOAWAY frame arrives at once. -/
def goawayRun : List StepResults := [stuckStep (.got goawayFrame.bytes),stuckStep .eagain]

/-- Stream 1 is opened before. -/
def openedRun : List StepResults := stuckStep (.got openAlone.bytes)::goawayRun

theorem write_stuck (hplain : s.isTls = false) (read : ReadResult) :
    s.write (stuckStep read).write = some s := by
  obtain ⟨ret,wanted,hret,hwrite⟩ := Connection.doWrite_stuck (c:=s.output) hplain ⟨.eagain,0,none⟩
  have hwrite : s.output.doWrite (stuckStep read).write = (ret,wanted,s.output) := hwrite
  have hanswered : s.output.Answered (stuckStep read).write := fun _ => by
    rw [show s.output.isTls = false from hplain]
    trivial
  unfold write
  split_ifs
  · rfl
  · rw [hwrite]
    exact congrArg some (if_neg hret)

theorem step_new (env : SpdyEnv Z) (zst : Z) (r : StepResults) :
    step env (new zst false) r = ((new zst false).setPhase .io).doIo env r := rfl

/-- The same, and the socket takes the reply of stream 1 in the step of the GOAWAY frame. -/
def takenRun : List StepResults := [stuckStep (.got openAlone.bytes),
  ⟨.ok,.got goawayFrame.bytes,⟨.sent 115,⟨.eagain,0,none⟩⟩,.ok,.eagain⟩,stuckStep .eagain]

/-- Without TLS, a socket that takes all there is leaves nothing waiting. -/
theorem write_taken (hplain : s.isTls = false) (hssl : s.bufferWriteSsl = Buffer.init)
    (hwf : s.conn.bufferWrite.Wf) {n : ℕ} (hlen : s.conn.bufferWrite.len = n) (hpos : 0 < n)
    (hint : n < 2^31) (ssl : WriteResult) : ∃ t, s.write ⟨.sent n,ssl⟩ = some t ∧
      t.server.failed = s.server.failed ∧ s.output.TakesAll ⟨.sent n,ssl⟩ := by
  have hoff : s.output.offered = s.conn.bufferWrite := by
    simp [Connection.offered,Connection.swapped,Connection.outgoing,output,hplain]
  have hle := hwf.len_le
  have hsend : sendable s.conn.bufferWrite = true := by
    have hne : s.conn.bufferWrite.buf ≠ [] := List.ne_nil_of_length_pos (by omega)
    simp [sendable,hne,hlen,cint_of_lt hint,hpos]
  have htake : s.output.taken ⟨.sent n,ssl⟩ = n := by
    have htls : s.output.isTls = false := hplain
    rw [Connection.taken,hoff,if_pos hsend,htls]
    rfl
  have hanswered : s.output.Answered ⟨.sent n,ssl⟩ := fun _ => by
    rw [show s.output.isTls = false from hplain,hoff]
    exact hlen.ge
  have hret : (s.output.doWrite ⟨.sent n,ssl⟩).1 ≠ .eof := by
    obtain ⟨n,rfl⟩ := Nat.exists_eq_succ_of_ne_zero hpos.ne'
    have hswap : s.output.swapped = s.output := by simp [Connection.swapped,output,hplain]
    have hout : s.output.outgoing = s.conn.bufferWrite := by simp [Connection.outgoing,output,hplain]
    have htls : s.output.isTls = false := hplain
    simp [Connection.doWrite,hswap,hout,socketWrite,htls,hsend]
  refine ⟨s.setOutput (s.output.doWrite ⟨.sent n,ssl⟩).2.2,?_,rfl,?_⟩
  · unfold write
    rw [if_neg (by simp [Buffer.isEmpty,hlen,hpos.ne']),if_pos hanswered]
    exact congrArg some (if_neg hret)
  · rw [Connection.TakesAll,htake,cuint_natCast (by omega)]
    simp [Connection.waiting,output,hssl,hlen,Buffer.init]

theorem serve_open : ∃ t, ((new false false).setPhase .io).serve storedEnv openAlone.bytes = some t ∧
    t.server.failed = false ∧ t.conn.phase = .io ∧ t.isTls = false ∧ t.bufferWriteSsl = Buffer.init ∧
      t.conn.bufferWrite.Wf ∧ t.conn.bufferWrite.len = 115 ∧
      (∀ q ∈ t.conn.requests, q.live = true ∧ q.req.phase = .stepping) ∧
      t.server.bufferRead.Wf ∧ t.server.bufferRead.content = [] := by
  obtain ⟨c,b,ho,hbwf,hempty,hread⟩ := serveRead_alone
    {SpdyConn.new false with phase := .io} rfl rfl
  have hphase : c.phase = .io := by
    rcases serveRead_sameOrAway hread with ⟨hphase,-⟩ | ⟨-,haway⟩
    · exact hphase
    · exact absurd (ho.away.symm.trans haway) (by decide)
  obtain ⟨u,req,hstep,hserved,huwf,hulen,hureqs,_⟩ := stepRequest_alone b ho rfl rfl
  obtain ⟨hdr,hreqs⟩ := ho.request
  have hone : c.requests.length = 1 := by rw [hreqs]; rfl
  have hloop : stepRequests storedEnv 1 0 ⟨⟨c,b,false⟩,[]⟩ = some u := by
    rw [stepRequests,hstep]
    rfl
  have hall := stepRequests_answered hloop (by simp only; omega) (by simp)
  obtain ⟨hfailed,hread',huphase⟩ := stepRequest_frame hstep
  have hserver : ((new false false).setPhase .io).server =
      ⟨{SpdyConn.new false with phase := .io},Buffer.init,false⟩ := rfl
  rw [← hserver] at hread
  refine ⟨_,serve_steps hread rfl (by rw [hone]; exact hloop),hserved,huphase.trans hphase,rfl,rfl,
    huwf,hulen,fun q hq => ⟨?_,hall q hq⟩,?_,?_⟩
  · change q ∈ u.server.conn.requests at hq
    rw [hureqs] at hq
    rw [List.mem_singleton.mp hq]
  · exact hread' ▸ hbwf
  · exact (congrArg Buffer.content hread').trans hempty

theorem run_nothingDiscarded_taken : ∃ s, run (step storedEnv) (new false false) takenRun = some s ∧
    s.shutdowns ≠ [] ∧ s.NothingDiscarded := by
  obtain ⟨t,hserve,hserved,hphase,hplain,hssl,hwwf,hlen,hdone,hwf,hempty⟩ := serve_open
  have hfirst : step storedEnv (new false false) (stuckStep (.got openAlone.bytes)) = some t := by
    rw [step_new,doIo_got rfl hserve hserved]
    exact write_stuck hplain _
  obtain ⟨u,hserve',hserved',hphase',hout,-⟩ := serve_goaway storedEnv hserved hwf hempty hdone
  have hwrite : u.conn.bufferWrite = t.conn.bufferWrite := congrArg Connection.bufferWrite hout
  obtain ⟨v,hv,hvserved,htakes⟩ := write_taken (s:=u) ((congrArg Connection.isTls hout).trans hplain)
    ((congrArg Connection.bufferWriteSsl hout).trans hssl) (hwrite ▸ hwwf) (by rw [hwrite,hlen])
    (by norm_num) (by norm_num) ⟨.eagain,0,none⟩
  have hvphase := (written_spec hserve' hserved' hv).2.1
  have hsecond : step storedEnv t
      ⟨.ok,.got goawayFrame.bytes,⟨.sent 115,⟨.eagain,0,none⟩⟩,.ok,.eagain⟩ = some v := by
    rw [step,if_neg (by simp [hserved]),hphase]
    exact (doIo_got rfl hserve' hserved').trans hv
  have hthird : step storedEnv v (stuckStep .eagain) = some (v.shutdown (stuckStep .eagain)) := by
    rw [step,if_neg (by simp [hvserved,hserved']),hvphase,hphase']
  have hrun : run (step storedEnv) (new false false) takenRun =
      some (v.shutdown (stuckStep .eagain)) := by
    rw [takenRun,run_cons hfirst,run_cons hsecond,run_cons hthird,run_nil]
  refine ⟨_,hrun,by rw [shutdown_shutdowns]; simp,run_nothingDiscarded storedEnv false false ?_ hrun⟩
  refine ⟨fun w hw chunk hread x hx _ hxphase => ?_,fun s hs => ⟨fun w hw chunk hread x hx _ _ => ?_,
    fun s hs => ⟨fun w hw chunk hread => ?_,fun _ _ => trivial⟩⟩⟩
  · obtain rfl := Option.some.inj hw
    obtain rfl := ReadResult.got.inj hread
    obtain rfl := Option.some.inj (hserve.symm.trans hx)
    exact absurd (hphase.symm.trans hxphase) (by decide)
  · obtain rfl := Option.some.inj (hfirst.symm.trans hs)
    rw [beforeIo,hphase] at hw
    obtain rfl := Option.some.inj hw
    obtain rfl := ReadResult.got.inj hread
    obtain rfl := Option.some.inj (hserve'.symm.trans hx)
    exact htakes
  · cases hread

/-- The reply of stream 1 waits when the socket is shut down. -/
theorem not_nothingDiscarded_opened : ∃ s, run (step storedEnv) (new false false) openedRun = some s ∧
    ¬ s.NothingDiscarded := by
  obtain ⟨t,hserve,hserved,hphase,hplain,_,_,hlen,hdone,hwf,hempty⟩ := serve_open
  have hfirst : step storedEnv (new false false) (stuckStep (.got openAlone.bytes)) = some t := by
    rw [step_new,doIo_got rfl hserve hserved]
    exact write_stuck hplain _
  obtain ⟨u,hserve',hserved',hphase',hout,-⟩ := serve_goaway storedEnv hserved hwf hempty hdone
  have hsecond : step storedEnv t (stuckStep (.got goawayFrame.bytes)) = some u := by
    rw [step,if_neg (by simp [hserved]),hphase]
    exact (doIo_got rfl hserve' hserved').trans
      (write_stuck ((congrArg Connection.isTls hout).trans hplain) _)
  have hthird : step storedEnv u (stuckStep .eagain) = some (u.shutdown (stuckStep .eagain)) := by
    rw [step,if_neg (by simp [hserved']),hphase']
  refine ⟨_,by rw [openedRun,goawayRun,run_cons hfirst,run_cons hsecond,run_cons hthird,run_nil],
    fun hclean => ?_⟩
  have hwrite : u.conn.bufferWrite.len = 115 := by
    rw [← hlen]
    exact congrArg (fun c => c.bufferWrite.len) hout
  rw [NothingDiscarded,shutdown_shutdowns] at hclean
  have hzero := congrArg Waiting.write (hclean u.waiting (by simp))
  exact absurd (hwrite.symm.trans hzero) (by decide)

end SpdyLink

end Http2d
