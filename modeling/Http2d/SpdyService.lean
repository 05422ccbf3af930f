import Http2d.SpdyShutdown
import Http2d.SpdyOutput
import Http2d.RequestList

/-! What serving a SPDY connection does to the process.
`do_io` recycles a connection on which a frame was refused, and goes on with its requests and its
write buffers. A use of freed memory has no outcome, nor has a second free, a loop that does not end
or a call that ends the process. -/
namespace Http2d

open Bytes PairBlock WhileLoop Transition

variable {Z : Type}

/-- A connection of the thread: in memory, or freed and in no list any longer. -/
inductive ConnMemory (Z : Type)
  | alive (s : SpdyLink Z)
  | freed

/-- `http2d_thread_recycle_conn`, down to `http2d_connection_mrproper`: all requests of the list are
freed, which must not have been freed before. -/
def SpdyLink.recycleConn (s : SpdyLink Z) : Option (ConnMemory Z) :=
  if s.conn.requests.all SpdyReq.live then some .freed else none

namespace ConnMemory

/-- The loop over the requests in `do_io`; the head of their list is part of the connection. -/
def processRequests (env : SpdyEnv Z) : ConnMemory Z → Option (ConnMemory Z)
  | .freed => none
  | .alive s => (stepRequests env s.conn.requests.length 0 ⟨s.server,[]⟩).map fun t =>
      .alive {s with server := t.server}

/-- The last part of `do_io`. -/
def write (socket : SocketEnv) : ConnMemory Z → Option (ConnMemory Z)
  | .freed => none
  | .alive s =>
    if s.conn.bufferWrite.isEmpty ∧ s.bufferWriteSsl.isEmpty then some (.alive s)
    else
      let r := s.output.doWrite socket
      if r.1 = .eof then (s.setOutput r.2.2).recycleConn else some (.alive (s.setOutput r.2.2))

/-- `do_io`. A refused frame only breaks out of the switch behind `spdy_process_buffer`. -/
def doIo (env : SpdyEnv Z) (s : SpdyLink Z) (r : StepResults) : Option (ConnMemory Z) :=
  match r.read with
  | .eagain => some (.alive s)
  | .eof => s.recycleConn
  | .got chunk => do
    let server ← serveRead env 16382 s.server chunk
    let s := {s with server := server}
    let m ← if server.failed then s.recycleConn else some (.alive s)
    let m ← m.processRequests env
    m.write r.write

/-- The end of `conn_spdy_step`; the thread recycles a connection that reports its end. -/
def lingerRead (s : SpdyLink Z) (r : StepResults) : Option (ConnMemory Z) :=
  if r.linger = .eagain then some (.alive s) else s.recycleConn

/-- `_http2d_connection_do_shutdown`, and what follows it in `conn_spdy_step`. -/
def shutdown (s : SpdyLink Z) (r : StepResults) : Option (ConnMemory Z) :=
  let s := {s with isTls := false, shutdowns := s.shutdowns ++ [s.waiting]}
  if r.shutdown ≠ .ok then some (.alive s) else lingerRead (s.setPhase .shutdown) r

/-- `conn_spdy_step`, called by the thread for the connections that it has. -/
def step (env : SpdyEnv Z) : ConnMemory Z → StepResults → Option (ConnMemory Z)
  | .freed, _ => some .freed
  | .alive s, r =>
    match s.conn.phase with
    | .handshake =>
      if s.isTls then
        match r.sslInit with
        | .ok => doIo env (s.setPhase .io) r
        | .eof => s.recycleConn
        | _ => some (.alive s)
      else doIo env (s.setPhase .io) r
    | .io => doIo env s r
    | .shutdown => shutdown s r
    | .lingerRead => lingerRead s r

end ConnMemory

section Frames

variable {env : SpdyEnv Z} {conn conn' : SpdyConn Z} {buf : Buffer} {ctrl : SpdyCtrl} {pos pos' : ℕ}

/-- The requests of a connection are all in memory when no frame is refused. -/
def SpdyConn.AllLive (conn : SpdyConn Z) : Prop := ∀ r ∈ conn.requests, r.live = true

end Frames

/-- What holds of a connection that is served: its buffers are well formed, and every request is in
memory and has its reply still to send, or has sent it. -/
structure SpdyServer.Sound (s : SpdyServer Z) : Prop where
  served : s.failed = false
  read : s.bufferRead.Wf
  write : s.conn.bufferWrite.Wf
  live : s.conn.AllLive
  requests : ∀ r ∈ s.conn.requests, r.req.phase = .stepping ∨ r.req.Untouched

section Requests

variable {env : SpdyEnv Z} {s : SpdyStreams Z} {place : ℕ}

end Requests

/-- What holds between the steps. -/
structure SpdyLink.Sound (s : SpdyLink Z) : Prop where
  server : s.server.Sound
  ssl : s.bufferWriteSsl.Wf
  short : s.server.bufferRead.len < 12

theorem SpdyLink.Sound.setPhase {s : SpdyLink Z} (h : s.Sound) (phase : SpdyPhase) :
    (s.setPhase phase).Sound :=
  ⟨⟨h.server.served,h.server.read,h.server.write,h.server.live,h.server.requests⟩,h.ssl,h.short⟩

theorem SpdyLink.Sound.beforeIo {s u : SpdyLink Z} {r : StepResults} (h : s.Sound)
    (hu : s.beforeIo r = some u) : u.Sound := by
  unfold SpdyLink.beforeIo at hu
  cases hphase : s.conn.phase <;> simp only [hphase] at hu
  case handshake =>
    split_ifs at hu
    obtain rfl := Option.some.inj hu
    exact h.setPhase .io
  case io =>
    obtain rfl := Option.some.inj hu
    exact h
  all_goals cases hu

theorem SpdyLink.Sound.setOutput {s : SpdyLink Z} (h : s.Sound) {c : Connection}
    (hw : c.bufferWrite.Wf) (hs : c.bufferWriteSsl.Wf) : (s.setOutput c).Sound :=
  ⟨⟨h.server.served,h.server.read,hw,h.server.live,h.server.requests⟩,hs,h.short⟩

/-- A connection whose requests are all in memory can be recycled. -/
theorem SpdyLink.Sound.recycleConn {s : SpdyLink Z} (h : s.Sound) : s.recycleConn = some .freed :=
  if_pos (List.all_eq_true.mpr h.server.live)

namespace ConnMemory

/-- The process goes on, and the connection is freed or waits for more bytes. -/
def Sound : ConnMemory Z → Prop
  | .alive s => s.Sound
  | .freed => True

variable {env : SpdyEnv Z} {s : SpdyLink Z} {r : StepResults}

/-- A step that comes to `do_io`. -/
theorem step_io {u : SpdyLink Z} (h : s.beforeIo r = some u) : step env (.alive s) r = doIo env u r := by
  unfold SpdyLink.beforeIo at h
  unfold step
  cases hphase : s.conn.phase <;> simp only [hphase] at h ⊢
  case handshake =>
    split_ifs at h with hwait
    obtain rfl := Option.some.inj h
    by_cases htls : s.isTls = true
    · have hssl : r.sslInit = .ok := by_contra fun hne => hwait ⟨htls,hne⟩
      simp only [htls,if_true,hssl]
    · exact if_neg htls
  case io =>
    obtain rfl := Option.some.inj h
    rfl
  all_goals cases h

/-- A read is survived only if it has an outcome and no frame was refused. -/
theorem step_not_refused {u : SpdyLink Z} {m : ConnMemory Z} {chunk : List UInt8}
    (hu : s.beforeIo r = some u) (hread : r.read = .got chunk) (h : step env (.alive s) r = some m) :
    ∃ server, serveRead env 16382 u.server chunk = some server ∧ server.failed = false := by
  rw [step_io hu,doIo] at h
  simp only [hread,Option.bind_eq_bind] at h
  obtain ⟨server,hserver,h⟩ := Option.bind_eq_some_iff.mp h
  refine ⟨server,hserver,by_contra fun hrefused => ?_⟩
  rw [if_pos (by simpa using hrefused)] at h
  obtain ⟨v,hv,h⟩ := Option.bind_eq_some_iff.mp h
  unfold SpdyLink.recycleConn at hv
  split_ifs at hv
  obtain rfl := Option.some.inj hv
  obtain ⟨_,hnone,_⟩ := Option.bind_eq_some_iff.mp h
  cases hnone

/-- Twelve bytes that begin with the header of another version are not survived: the freed connection
is used. -/
theorem step_version {u : SpdyLink Z} {chunk : List UInt8} {b : Buffer} {ret : Ret} {ctrl : SpdyCtrl}
    (hu : s.beforeIo r = some u) (hserved : u.server.failed = false) (hread : r.read = .got chunk)
    (hb : u.server.bufferRead.socketReadBuf 16382 chunk = .ok (ret,b)) (h12 : 12 ≤ b.len)
    (hctrl : spdyReadCtrl b.buf 0 = .ok ctrl) (hver : ctrl.version ≠ 3) :
    step env (.alive s) r = none := by
  refine Option.eq_none_iff_forall_ne_some.mpr fun m hm => ?_
  obtain ⟨server,hserver,hfailed⟩ := step_not_refused hu hread hm
  rw [serveRead_ok hserved hb (by omega) (spdyProcessBuffer_version env u.conn h12 hctrl hver)] at hserver
  obtain rfl := Option.some.inj hserver
  cases hfailed

section Link

variable {t u : SpdyLink Z}

theorem write_of_link {socket : SocketEnv} (h : u.write socket = some t) (ht : t.server.failed = false) :
    (ConnMemory.alive u).write socket = some (.alive t) := by
  unfold SpdyLink.write at h
  rw [write]
  dsimp only at h ⊢
  split_ifs at h ⊢
  · rw [Option.some.inj h]
  · obtain rfl := Option.some.inj h
    cases ht
  · rw [Option.some.inj h]

theorem doIo_of_link (h : u.doIo env r = some t) (ht : t.server.failed = false) :
    doIo env u r = some (.alive t) := by
  unfold SpdyLink.doIo at h
  unfold doIo
  cases hread : r.read <;> simp only [hread] at h ⊢
  case eagain => rw [Option.some.inj h]
  case eof =>
    obtain rfl := Option.some.inj h
    cases ht
  case got chunk =>
    obtain ⟨v,hv,h⟩ := Option.bind_eq_some_iff.mp h
    obtain ⟨server,hserver,hv⟩ := Option.bind_eq_some_iff.mp hv
    split_ifs at hv with hrefused
    · obtain rfl := Option.some.inj hv
      rw [if_pos hrefused] at h
      obtain rfl := Option.some.inj h
      exact absurd (hrefused.symm.trans ht) (by decide)
    obtain ⟨streams,hsteps,rfl⟩ := Option.map_eq_some_iff.mp hv
    simp only [hserver,Option.bind_eq_bind,Option.bind_some,if_neg hrefused,processRequests,
      SpdyLink.conn,hsteps,Option.map_some]
    split_ifs at h with hfailed
    · obtain rfl := Option.some.inj h
      exact absurd (hfailed.symm.trans ht) (by decide)
    · exact write_of_link h ht

/-- The steps of `SpdyLink` after which the connection is still there are those of the process. -/
theorem step_of_link (hlinger : r.linger = .eagain ∨ r.linger = .eof ∨ r.linger = .error)
    (h : s.step env r = some t) (ht : t.server.failed = false) :
    step env (.alive s) r = some (.alive t) := by
  have hstays (v : SpdyLink Z) (hv : v.lingerRead r = t) : lingerRead v r = some (.alive t) := by
    unfold SpdyLink.lingerRead at hv
    split_ifs at hv with hend
    · rw [← hv] at ht
      cases ht
    · rw [lingerRead,if_pos (hlinger.resolve_right hend),hv]
  unfold SpdyLink.step at h
  by_cases hfailed : s.server.failed = true
  · rw [if_pos hfailed] at h
    cases h
  rw [if_neg hfailed] at h
  unfold step
  cases hphase : s.conn.phase <;> simp only [hphase] at h ⊢
  case handshake =>
    split_ifs at h ⊢
    · cases hssl : r.sslInit <;> simp only [hssl] at h ⊢
      case ok => exact doIo_of_link h ht
      case eof =>
        obtain rfl := Option.some.inj h
        cases ht
      all_goals rw [Option.some.inj h]
    · exact doIo_of_link h ht
  case io => exact doIo_of_link h ht
  case shutdown =>
    have h := Option.some.inj h
    unfold SpdyLink.shutdown at h
    unfold shutdown
    dsimp only at h ⊢
    split_ifs at h ⊢
    · rw [h]
    · exact hstays _ h
  case lingerRead => exact hstays s (Option.some.inj h)

end Link

end ConnMemory

end Http2d
