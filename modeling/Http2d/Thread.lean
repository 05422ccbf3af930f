import Http2d.SpdyConnection
import Http2d.Library.Lifetime
import Http2d.Library.Transition

/-! A worker thread and the steps of its connections.
What the socket, the TLS layer, the frame loop and the requests answer is given from outside. The
trace tells which connection is used, which one is recycled and what its step reported; a function
that goes on with a connection after it was recycled is followed as if the memory were still there. -/
namespace Http2d

open Lifetime

/-- `http2d_connection_http_phase_t`. -/
inductive HttpPhase
  | handshake | step | write | shutdown | lingeringRead
  deriving DecidableEq, Repr

/-- The phase of a connection, by its kind. -/
inductive ConnPhase
  | spdy (phase : SpdyPhase)
  | http (phase : HttpPhase)
  deriving DecidableEq, Repr

structure ThreadConn where
  phase : ConnPhase
  isTls : Bool
  deriving DecidableEq, Repr

/-- What a connection meets in one step. A call that can ask for polling gives `wanted_io` too. -/
structure Results where
  /-- `_http2d_socket_ssl_init` -/
  sslInit : Ret × ℤ
  /-- `http2d_socket_read_buf` -/
  read : Ret × ℤ
  /-- whether `buffer_read` is empty then -/
  readEmpty : Bool
  /-- `spdy_process_buffer`, and whether it read a GOAWAY frame -/
  process : Ret
  goaway : Bool
  /-- `http2d_request_step` of the requests in the list -/
  requests : List Ret
  /-- whether both write buffers are empty then -/
  writeEmpty : Bool
  /-- `http2d_socket_write_buf` -/
  write : Ret × ℤ
  /-- `http2d_request_step` of the request of an HTTP connection -/
  request : Ret × ℤ
  /-- `http2d_socket_shutdown` -/
  shutdown : Ret
  /-- the first and the second `http2d_socket_read` of a lingering read, with the bytes they got -/
  linger : Ret × ℕ × ℤ
  lingerAgain : Ret × ℕ × ℤ

/-- `http2d_thread_t` and its connections, which are numbered as they were added. -/
structure Thread where
  conns : List ThreadConn
  active : List ℕ
  polling : List ℕ
  newConns : List ℕ
  trace : List (Event ℕ (ℕ × Ret))

namespace Thread

/-- `http2d_thread_new`. -/
def new : Thread := ⟨[],[],[],[],[]⟩

/-- A field of the connection is read or written. -/
def use (t : Thread) (c : ℕ) : Thread := {t with trace := t.trace ++ [.use c]}

@[simp] theorem use_active (t : Thread) (c : ℕ) : (t.use c).active = t.active := rfl
@[simp] theorem use_polling (t : Thread) (c : ℕ) : (t.use c).polling = t.polling := rfl
@[simp] theorem use_newConns (t : Thread) (c : ℕ) : (t.use c).newConns = t.newConns := rfl

def setPhase (t : Thread) (c : ℕ) (phase : ConnPhase) : Thread :=
  {t.use c with conns := t.conns.modify c fun k => {k with phase := phase}}

def setPlain (t : Thread) (c : ℕ) : Thread :=
  {t.use c with conns := t.conns.modify c fun k => {k with isTls := false}}

/-- `http2d_list_del`, from the list that the connection is in. -/
def unlink (t : Thread) (c : ℕ) : Thread :=
  {t with
    active := t.active.filter (· ≠ c)
    polling := t.polling.filter (· ≠ c)
    newConns := t.newConns.filter (· ≠ c)}

/-- `http2d_thread_recycle_conn`. -/
def recycleConn (t : Thread) (c : ℕ) : Thread :=
  {t.unlink c with trace := t.trace ++ [.release c]}

@[simp] theorem recycleConn_trace (t : Thread) (c : ℕ) :
    (t.recycleConn c).trace = t.trace ++ [.release c] := rfl

/-- `http2d_connection_move_to_polling`, `http2d_connection_move_to_active`. -/
def moveToPolling (t : Thread) (c : ℕ) : Thread :=
  {(t.use c).unlink c with polling := c::t.polling.filter (· ≠ c)}

def moveToActive (t : Thread) (c : ℕ) : Thread :=
  {(t.use c).unlink c with active := c::t.active.filter (· ≠ c)}

/-- What the step of a connection answered to the thread. -/
def report (t : Thread) (c : ℕ) (ret : Ret) : Thread :=
  {t with trace := t.trace ++ [.note (c,ret)]}

@[simp] theorem report_trace (t : Thread) (c : ℕ) (ret : Ret) :
    (t.report c ret).trace = t.trace ++ [.note (c,ret)] := rfl

/-- The caller of a call that answered `ret_eagain` moves the connection, if something is wanted. -/
def await (t : Thread) (c : ℕ) (wanted : ℤ) : Thread :=
  if wanted ≠ 0 then t.moveToPolling c else t

end Thread

/-- `_http2d_connection_do_read`: an error is not passed on. -/
def connectionDoRead : Ret → Ret
  | .eof => .eof
  | .eagain => .eagain
  | _ => .ok

/-- `_http2d_connection_do_write`. -/
def connectionDoWrite : Ret → Ret
  | .ok => .ok
  | .eof => .eof
  | .eagain => .eagain
  | _ => .error

/-- `_http2d_connection_do_shutdown`. -/
def connectionDoShutdown (ret : Ret) : Ret := if ret ≠ .ok then .error else .ok

/-- `_http2d_connection_do_linger_read`: it reads at most twice, the second time if the first one
filled its buffer of 511 bytes but for one byte. -/
def connectionDoLingerRead (r : Results) : Ret × ℤ :=
  let last (ret : Ret) (wanted : ℤ) : Ret × ℤ :=
    match ret with
    | .ok | .eof => (.eof,wanted)
    | .eagain => (.eagain,wanted)
    | _ => (.error,wanted)
  if r.linger.1 = .ok ∧ 510 ≤ r.linger.2.1 then last r.lingerAgain.1 r.lingerAgain.2.2
  else last r.linger.1 r.linger.2.2

/-- The last part of `do_io`. -/
def doIoWrite (t : Thread) (c : ℕ) (r : Results) : Ret × Thread :=
  let t := t.use c
  if r.writeEmpty then (.ok,t)
  else
    match connectionDoWrite r.write.1 with
    | .eagain => (.ok,t.await c r.write.2)
    | .eof => (.ok,t.recycleConn c)
    | _ => (.ok,t)

/-- The loop over the requests in `do_io`: each of them works on its connection. -/
def doIoRequests (t : Thread) (c : ℕ) : List Ret → Thread
  | [] => t.use c
  | _::rets => doIoRequests (t.use c) c rets

/-- `do_io` behind `spdy_process_buffer`: after an error the connection is recycled, and the function
goes on with the requests. -/
def doIoProcessed (t : Thread) (c : ℕ) (r : Results) : Ret × Thread :=
  match r.process with
  | .ok => doIoWrite (doIoRequests t c r.requests) c r
  | .error => doIoWrite (doIoRequests (t.recycleConn c) c r.requests) c r
  | _ => doIoWrite t c r

/-- `do_io` behind its read. A GOAWAY frame sets the phase. -/
def doIoProcess (t : Thread) (c : ℕ) (r : Results) : Ret × Thread :=
  if r.readEmpty then doIoWrite (doIoRequests t c r.requests) c r
  else if r.goaway then doIoProcessed (t.setPhase c (.spdy .shutdown)) c r
  else doIoProcessed t c r

/-- `do_io`. -/
def doIo (t : Thread) (c : ℕ) (r : Results) : Ret × Thread :=
  let t := t.use c
  match connectionDoRead r.read.1 with
  | .eagain => (.ok,t.await c r.read.2)
  | .eof => (.ok,t.recycleConn c)
  | _ => doIoProcess t c r

/-- The end of `conn_spdy_step`. -/
def spdyLingerRead (t : Thread) (c : ℕ) (r : Results) : Ret × Thread :=
  let t := t.use c
  match connectionDoLingerRead r with
  | (.eagain,wanted) => if wanted ≠ -1 then (.ok,t.moveToPolling c) else (.error,t)
  | _ => (.eof,t)

def spdyShutdown (t : Thread) (c : ℕ) (r : Results) : Ret × Thread :=
  let t := t.setPlain c
  if connectionDoShutdown r.shutdown ≠ .ok then (connectionDoShutdown r.shutdown,t)
  else spdyLingerRead (t.setPhase c (.spdy .shutdown)) c r

def spdyIo (t : Thread) (c : ℕ) (r : Results) : Ret × Thread :=
  match doIo t c r with
  | (.ok,t) => (.ok,t)
  | (.eof,t) => spdyShutdown t c r
  | (.eagain,t) => (.ok,t)
  | (_,t) => (.error,t)

/-- The TLS handshake that both kinds of connections begin with; `next` is what follows it. -/
def handshake (t : Thread) (c : ℕ) (isTls : Bool) (r : Results)
    (next : Thread → Ret × Thread) : Ret × Thread :=
  if isTls then
    match r.sslInit.1 with
    | .ok => next (t.use c)
    | .eof => (.eof,t.use c)
    | .eagain => (.ok,(t.use c).await c r.sslInit.2)
    | _ => (.error,t.use c)
  else next t

/-- `conn_spdy_step`. -/
def connSpdyStep (t : Thread) (c : ℕ) (phase : SpdyPhase) (isTls : Bool) (r : Results) :
    Ret × Thread :=
  match phase with
  | .handshake => handshake t c isTls r fun t => spdyIo (t.setPhase c (.spdy .io)) c r
  | .io => spdyIo t c r
  | .shutdown => spdyShutdown t c r
  | .lingerRead => spdyLingerRead t c r

/-- The end of `conn_http_step`: the connection is recycled here, and `ret_eof` is reported. -/
def httpLingerRead (t : Thread) (c : ℕ) (r : Results) : Ret × Thread :=
  let t := t.use c
  match connectionDoLingerRead r with
  | (.eagain,wanted) => if wanted ≠ -1 then (.ok,t.moveToPolling c) else (.error,t)
  | (.eof,_) => (.eof,t.recycleConn c)
  | (.error,_) => (.eof,t.recycleConn c)
  | _ => (.eof,t)

def httpShutdown (t : Thread) (c : ℕ) (r : Results) : Ret × Thread :=
  let t := t.setPlain c
  if connectionDoShutdown r.shutdown ≠ .ok then (connectionDoShutdown r.shutdown,t)
  else httpLingerRead (t.setPhase c (.http .shutdown)) c r

def httpStep (t : Thread) (c : ℕ) (r : Results) : Ret × Thread :=
  let t := t.use c
  match r.request.1 with
  | .eagain => (.ok,t.await c r.request.2)
  | .eof => httpShutdown (t.setPhase c (.http .shutdown)) c r
  | _ => (.error,t)

/-- `conn_http_step`. -/
def connHttpStep (t : Thread) (c : ℕ) (phase : HttpPhase) (isTls : Bool) (r : Results) :
    Ret × Thread :=
  match phase with
  | .handshake => handshake t c isTls r fun t => httpStep (t.setPhase c (.http .step)) c r
  | .step => httpStep t c r
  | .write => (.error,t)
  | .shutdown => httpShutdown t c r
  | .lingeringRead => httpLingerRead t c r

/-- `http2d_connection_step`. -/
def connectionStep (t : Thread) (c : ℕ) (r : Results) : Ret × Thread :=
  match t.conns[c]? with
  | none => (.error,t)
  | some ⟨.spdy phase,isTls⟩ => connSpdyStep (t.use c) c phase isTls r
  | some ⟨.http phase,isTls⟩ => connHttpStep (t.use c) c phase isTls r

/-- The body of the loop in `thread_main`: `ret_eof` is the only answer that is acted on. -/
def threadConn (t : Thread) (c : ℕ) (r : Results) : Thread :=
  let (ret,t) := connectionStep t c r
  match ret with
  | .eof => (t.report c ret).recycleConn c
  | _ => t.report c ret

/-- One pass over the active connections; a step changes the place of its own connection only. -/
def threadPass (t : Thread) (results : ℕ → Results) : List ℕ → Thread
  | [] => t
  | c::cs => threadPass (threadConn t c (results c)) results cs

/-- `new_conn_cb`. -/
def newConnCb (t : Thread) : List ℕ → Thread
  | [] => t
  | c::cs => newConnCb (t.moveToPolling c) cs

/-- What happens in a thread: a connection is added by the listener, the loop of the event library
runs one of its callbacks, or the active connections are processed. -/
inductive ThreadAct
  | addConn (isSpdy isTls : Bool)
  | newConnCb
  | ioCb (c : ℕ)
  | pass (results : ℕ → Results)

/-- A step of `thread_main`. The callback of a connection comes only while it is polled. -/
def threadStep (t : Thread) : ThreadAct → Option Thread
  | .addConn isSpdy isTls =>
    let phase := if isSpdy then .spdy .handshake else .http .handshake
    some {t.use t.conns.length with
      conns := t.conns ++ [⟨phase,isTls⟩]
      newConns := t.conns.length::t.newConns}
  | .newConnCb => some (newConnCb t t.newConns)
  | .ioCb c => if c ∈ t.polling then some (t.moveToActive c) else none
  | .pass results => some (threadPass t results t.active)

end Http2d
