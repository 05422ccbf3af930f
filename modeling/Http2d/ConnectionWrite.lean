import Http2d.Buffer
import Http2d.Library.Transition

/-! The output of a connection: the buffer that the server fills, the buffer that goes through TLS,
and `_http2d_connection_do_write`.
What the system calls and the TLS library answer comes with the call. A `send` that a signal
interrupted is made again, so its answer is the one of the last try. -/
namespace Http2d

open Transition

/-- The values of `errno` that the code looks at. -/
inductive SocketErrno
  | again | pipe | connReset | notConn | timedOut | hostUnreach | other
  deriving DecidableEq, Repr

/-- What the connection waits for in the event loop. -/
inductive WantedIo
  | read | write
  deriving DecidableEq, Repr

/-- What a write to the socket reports; `wantedIo` is none when it is left as it was. -/
structure WriteResult where
  ret : Ret
  written : ℕ
  wantedIo : Option WantedIo
  deriving DecidableEq, Repr

inductive SendResult
  | sent (n : ℕ)
  | failed (errno : SocketErrno)
  deriving DecidableEq, Repr

/-- `SSL_write`, with the answer of `SSL_get_error` when it fails. -/
inductive SslResult
  | wrote (n : ℕ)
  | wantRead | wantWrite
  | syscall (errno : SocketErrno)
  | failed
  deriving DecidableEq, Repr

/-- `_http2d_socket_ssl_write`. -/
def sslWrite (bufLen : ℕ) : SslResult → WriteResult
  | .wrote n =>
    if 0 < n then
      if n ≠ bufLen then ⟨.error,0,none⟩ else ⟨.ok,bufLen,none⟩
    else ⟨.eof,0,none⟩
  | .wantRead => ⟨.eagain,0,some .read⟩
  | .wantWrite => ⟨.eagain,0,some .write⟩
  | .syscall .again => ⟨.eagain,0,none⟩
  | .syscall .notConn | .syscall .pipe | .syscall .connReset => ⟨.eof,0,none⟩
  | .syscall _ => ⟨.error,0,none⟩
  | .failed => ⟨.error,0,none⟩

/-- What the calls below `http2d_socket_write` answer: `send`, and `_http2d_socket_ssl_write`. -/
structure SocketEnv where
  send : SendResult
  ssl : WriteResult
  deriving DecidableEq, Repr

/-- The parts of `http2d_connection_t` and its socket that writing uses. -/
structure Connection where
  isTls : Bool
  closed : Bool
  bufferWrite : Buffer
  bufferWriteSsl : Buffer
  deriving DecidableEq, Repr

/-- The assertion at the start of `http2d_socket_write`, whose length is an `int`. -/
def sendable (b : Buffer) : Bool := !b.buf.isEmpty && 0 < cint b.len

/-- `http2d_socket_write`, with the new value of `closed`. -/
def socketWrite (isTls closed : Bool) (b : Buffer) (env : SocketEnv) : WriteResult × Bool :=
  if !sendable b then (⟨.error,0,none⟩,closed)
  else if isTls then (env.ssl,closed || env.ssl.ret = .eof)
  else
    match env.send with
    | .sent 0 => (⟨.eagain,0,some .write⟩,closed)
    | .sent n => (⟨.ok,n,none⟩,closed)
    | .failed .again => (⟨.eagain,0,some .write⟩,closed)
    | .failed .pipe | .failed .connReset | .failed .notConn => (⟨.error,0,none⟩,true)
    | .failed _ => (⟨.error,0,none⟩,closed)

namespace Connection

/-- A new connection. -/
def init (isTls : Bool) : Connection := ⟨isTls,false,Buffer.init,Buffer.init⟩

/-- The buffers are swapped when TLS is done with its own and there is new data. -/
def swapped (c : Connection) : Connection :=
  if c.isTls ∧ ¬ c.bufferWrite.isEmpty ∧ c.bufferWriteSsl.isEmpty then
    {c with bufferWrite := c.bufferWriteSsl, bufferWriteSsl := c.bufferWrite}
  else c

/-- The buffer that goes to the socket. -/
def outgoing (c : Connection) : Buffer := if c.isTls then c.bufferWriteSsl else c.bufferWrite

def setOutgoing (c : Connection) (b : Buffer) : Connection :=
  if c.isTls then {c with bufferWriteSsl := b} else {c with bufferWrite := b}

/-- `_http2d_connection_do_write`. -/
def doWrite (c : Connection) (env : SocketEnv) : Ret × Option WantedIo × Connection :=
  let c := c.swapped
  let (r,closed) := socketWrite c.isTls c.closed c.outgoing env
  let c := {c with closed := closed}
  let c := if 0 < r.written then c.setOutgoing (c.outgoing.moveToBegin (cuint r.written)) else c
  match r.ret with
  | .ok | .eof | .eagain => (r.ret,r.wantedIo,c)
  | _ => (.error,r.wantedIo,c)

end Connection

/-- What the system and the TLS library promise about an answer for `len` bytes: no more bytes are
taken than there are, and none at all by a call that fails. -/
def SocketEnv.Answers (env : SocketEnv) (isTls : Bool) (len : ℕ) : Prop :=
  if isTls then
    if env.ssl.ret = .ok then 0 < env.ssl.written ∧ env.ssl.written ≤ len else env.ssl.written = 0
  else
    match env.send with
    | .sent n => n ≤ len
    | .failed _ => True

instance (env : SocketEnv) (isTls : Bool) (len : ℕ) : Decidable (env.Answers isTls len) :=
  match isTls, env with
  | true, env => inferInstanceAs (Decidable (if env.ssl.ret = .ok then
      0 < env.ssl.written ∧ env.ssl.written ≤ len else env.ssl.written = 0))
  | false, ⟨.sent n,_⟩ => inferInstanceAs (Decidable (n ≤ len))
  | false, ⟨.failed _,_⟩ => inferInstanceAs (Decidable True)

/-- How many bytes an answer takes. -/
def SocketEnv.taken (env : SocketEnv) (isTls : Bool) : ℕ :=
  if isTls then env.ssl.written
  else
    match env.send with
    | .sent n => n
    | .failed _ => 0

/-- Without partial writes, the TLS library writes all or nothing. -/
theorem sslWrite_answers (send : SendResult) (bufLen : ℕ) (r : SslResult)
    (hall : ∀ n, r = .wrote n → n = 0 ∨ n = bufLen) :
    (⟨send,sslWrite bufLen r⟩ : SocketEnv).Answers true bufLen := by
  cases r with
  | wrote n =>
    rcases hall n rfl with rfl | rfl
    · rfl
    · by_cases h0 : 0 < n
      · simp [SocketEnv.Answers,sslWrite,h0]
      · simp [SocketEnv.Answers,sslWrite,h0]
  | syscall e => cases e <;> rfl
  | wantRead => rfl
  | wantWrite => rfl
  | failed => rfl

namespace Connection

/-- The buffer that the next `_http2d_connection_do_write` offers to the socket. -/
def offered (c : Connection) : Buffer := c.swapped.outgoing

/-- What was not sent yet, in the order in which it is to go out. -/
def unsent (c : Connection) : List UInt8 := c.bufferWriteSsl.content ++ c.bufferWrite.content

/-- How many bytes of the offered buffer the next write sends. -/
def taken (c : Connection) (env : SocketEnv) : ℕ :=
  if sendable c.offered then env.taken c.isTls else 0

/-- What the answers promise is only about buffers that reach the system calls. -/
def Answered (c : Connection) (env : SocketEnv) : Prop :=
  sendable c.offered → env.Answers c.isTls c.offered.len

instance (c : Connection) (env : SocketEnv) : Decidable (c.Answered env) :=
  inferInstanceAs (Decidable (sendable c.offered → env.Answers c.isTls c.offered.len))

/-- Both buffers are well formed, and without TLS only one of them is used. -/
structure Ok (c : Connection) : Prop where
  write_wf : c.bufferWrite.Wf
  ssl_wf : c.bufferWriteSsl.Wf
  plain : c.isTls = false → c.bufferWriteSsl.content = []

theorem init_ok (isTls : Bool) : (init isTls).Ok :=
  ⟨Buffer.init_wf,Buffer.init_wf,fun _ => rfl⟩

@[simp] theorem swapped_isTls (c : Connection) : c.swapped.isTls = c.isTls := by
  unfold swapped
  split_ifs <;> rfl

theorem swapped_outgoing (c : Connection) : c.swapped.outgoing = c.offered := rfl

/-- The swap does not change the order of the bytes, because the buffer that comes to the end is
empty. -/
theorem swapped_ok {c : Connection} (h : c.Ok) : c.swapped.Ok ∧ c.swapped.unsent = c.unsent := by
  unfold swapped
  split_ifs with hs
  · obtain ⟨htls,_,hempty⟩ := hs
    have hnil : c.bufferWriteSsl.content = [] :=
      Buffer.content_nil (by simpa [Buffer.isEmpty] using hempty)
    refine ⟨⟨h.ssl_wf,h.write_wf,fun hp => ?_⟩,?_⟩
    · exact absurd (htls.symm.trans hp) (by decide)
    · simp [unsent,hnil]
  · exact ⟨h,rfl⟩

@[simp] theorem setOutgoing_isTls (c : Connection) (b : Buffer) :
    (c.setOutgoing b).isTls = c.isTls := by
  unfold setOutgoing
  split_ifs <;> rfl

theorem outgoing_wf {c : Connection} (h : c.Ok) : c.outgoing.Wf := by
  unfold outgoing
  split_ifs
  · exact h.ssl_wf
  · exact h.write_wf

/-- What goes to the socket is the oldest of what was not sent. -/
theorem setOutgoing_spec {c : Connection} (h : c.Ok) {b : Buffer} {n : ℕ} (hb : b.Wf)
    (hc : b.content = c.outgoing.content.drop n) :
    (c.setOutgoing b).Ok ∧ c.outgoing.content.take n ++ (c.setOutgoing b).unsent = c.unsent := by
  cases htls : c.isTls with
  | false =>
    have hnil := h.plain htls
    have hout : c.outgoing = c.bufferWrite := by simp [outgoing,htls]
    have hset : c.setOutgoing b = {c with bufferWrite := b} := by simp [setOutgoing,htls]
    rw [hset]
    refine ⟨⟨hb,h.ssl_wf,fun _ => hnil⟩,?_⟩
    simp only [unsent,hnil,List.nil_append,hc,hout,List.take_append_drop]
  | true =>
    have hout : c.outgoing = c.bufferWriteSsl := by simp [outgoing,htls]
    have hset : c.setOutgoing b = {c with bufferWriteSsl := b} := by simp [setOutgoing,htls]
    rw [hset]
    refine ⟨⟨h.write_wf,hb,fun hp => absurd (htls.symm.trans hp) (by decide)⟩,?_⟩
    simp only [unsent,hc,hout]
    rw [← List.append_assoc,List.take_append_drop]

/-- What a write to the socket does to the offered buffer. -/
theorem socketWrite_spec {isTls : Bool} {b : Buffer} {env : SocketEnv} (closed : Bool)
    (h : sendable b → env.Answers isTls b.len) :
    (socketWrite isTls closed b env).1.written = (if sendable b then env.taken isTls else 0) ∧
      (if sendable b then env.taken isTls else 0) ≤ b.len ∧
      ((socketWrite isTls closed b env).1.ret = .eagain →
        sendable b ∧ (socketWrite isTls closed b env).1.written = 0) := by
  unfold socketWrite
  cases hs : sendable b with
  | false => simp
  | true =>
    have ha := h hs
    cases isTls with
    | true =>
      simp only [SocketEnv.Answers,SocketEnv.taken] at ha ⊢
      split_ifs at ha ⊢ <;> grind
    | false =>
      cases hsend : env.send with
      | sent n =>
        simp only [SocketEnv.Answers,hsend] at ha
        cases n with
        | zero => simp [SocketEnv.taken,hsend]
        | succ n => simpa [SocketEnv.taken,hsend] using ha
      | failed e => cases e <;> simp [SocketEnv.taken,hsend]

theorem sendable_pos {b : Buffer} (h : sendable b) : 0 < b.len := by
  simp only [sendable,Bool.and_eq_true,decide_eq_true_eq] at h
  have := h.2
  by_contra h0
  simp [show b.len = 0 by omega,cint] at this

/-- `closed` is not part of the output. -/
theorem Ok.set_closed {c : Connection} (h : c.Ok) (closed : Bool) : {c with closed := closed}.Ok :=
  ⟨h.write_wf,h.ssl_wf,h.plain⟩

/-- The answer of the socket within `_http2d_connection_do_write`. -/
def answer (c : Connection) (env : SocketEnv) : WriteResult × Bool :=
  socketWrite c.swapped.isTls c.swapped.closed c.offered env

theorem answer_spec {c : Connection} {env : SocketEnv} (ha : c.Answered env) :
    (c.answer env).1.written = c.taken env ∧ c.taken env ≤ c.offered.len ∧
      ((c.answer env).1.ret = .eagain → sendable c.offered ∧ c.taken env = 0) := by
  have ha' : sendable c.offered → env.Answers c.swapped.isTls c.offered.len := by
    rwa [swapped_isTls]
  obtain ⟨hw,hle,hagain⟩ := socketWrite_spec c.swapped.closed ha'
  have htaken : (if sendable c.offered then env.taken c.swapped.isTls else 0) = c.taken env := by
    rw [swapped_isTls,taken]
  rw [htaken] at hw hle
  exact ⟨hw,hle,fun h => ⟨(hagain h).1,hw ▸ (hagain h).2⟩⟩

/-- The connection after the call, whatever the socket answers. -/
theorem doWrite_answer (c : Connection) (env : SocketEnv) : (c.doWrite env).2.2 =
    if 0 < (c.answer env).1.written then
      {c.swapped with closed := (c.answer env).2}.setOutgoing
        (c.offered.moveToBegin (cuint (c.answer env).1.written))
    else {c.swapped with closed := (c.answer env).2} := by
  simp only [doWrite,swapped_outgoing,← answer.eq_1]
  split <;> rfl

/-- The connection after the call: what the socket took is gone from the offered buffer. -/
theorem doWrite_conn {c : Connection} {env : SocketEnv} (h : c.Ok) (ha : c.Answered env) :
    (c.doWrite env).2.2 =
      if 0 < c.taken env then
        {c.swapped with closed := (c.answer env).2}.setOutgoing
          (c.offered.moveToBegin (c.taken env))
      else {c.swapped with closed := (c.answer env).2} := by
  obtain ⟨hw,hle,-⟩ := answer_spec ha
  have hlt := (outgoing_wf (swapped_ok h).1).len_lt
  have hcu : cuint (c.taken env : ℤ) = c.taken env := cuint_natCast (lt_of_le_of_lt hle hlt)
  rw [doWrite_answer,hw,hcu]

/-- The call asks to be made again when the socket does. -/
theorem doWrite_ret {c : Connection} {env : SocketEnv} (h : (c.doWrite env).1 = .eagain) :
    (c.answer env).1.ret = .eagain := by
  simp only [doWrite,swapped_outgoing,← answer.eq_1] at h
  split at h <;> first | exact h | cases h

/-- The call sends the first bytes of what was not sent yet, and keeps the others in order. -/
theorem doWrite_unsent {c : Connection} {env : SocketEnv} (h : c.Ok) (ha : c.Answered env) :
    (c.doWrite env).2.2.Ok ∧ (c.doWrite env).2.2.isTls = c.isTls ∧
      c.offered.content.take (c.taken env) ++ (c.doWrite env).2.2.unsent = c.unsent := by
  obtain ⟨hok,hunsent⟩ := swapped_ok h
  rw [doWrite_conn h ha]
  split_ifs with h0
  · have hwf : c.offered.Wf := outgoing_wf hok
    obtain ⟨hok',hsent⟩ := setOutgoing_spec (hok.set_closed (c.answer env).2)
      (Buffer.moveToBegin_wf hwf (c.taken env)) (Buffer.moveToBegin_content hwf (c.taken env))
    refine ⟨hok',?_,hsent.trans hunsent⟩
    rw [setOutgoing_isTls]
    exact swapped_isTls c
  · refine ⟨hok.set_closed (c.answer env).2,swapped_isTls c,?_⟩
    rw [show c.taken env = 0 by omega]
    exact hunsent

/-- After `ret_eagain` the buffer of TLS is the one that was offered. -/
theorem doWrite_eagain {c : Connection} {env : SocketEnv} (h : c.Ok) (ha : c.Answered env)
    (htls : c.isTls = true) (hret : (c.doWrite env).1 = .eagain) :
    (c.doWrite env).2.2.bufferWriteSsl = c.offered ∧ 0 < c.offered.len := by
  obtain ⟨hs,h0⟩ := (answer_spec ha).2.2 (doWrite_ret hret)
  rw [doWrite_conn h ha,if_neg (by omega)]
  exact ⟨by simp [offered,outgoing,htls],sendable_pos hs⟩

/-- While TLS has bytes of its own, new data does not take their place. -/
theorem offered_eq {c : Connection} (htls : c.isTls = true) (h : 0 < c.bufferWriteSsl.len) :
    c.offered = c.bufferWriteSsl := by
  have hne : c.bufferWriteSsl.isEmpty = false := by simp [Buffer.isEmpty]; omega
  simp [offered,swapped,outgoing,htls,hne]

end Connection

/-- A connection with the history of its output: the bytes that were appended, the bytes that
were sent, and for each write the offered buffer and what the call returned. -/
structure WriteSys where
  conn : Connection
  appended : List UInt8
  sent : List UInt8
  calls : List (Buffer × Ret)
  deriving DecidableEq, Repr

/-- One of the buffer functions appends to `buffer_write` and leaves `b`, or the connection
writes. -/
inductive WriteAct
  | append (txt : List UInt8) (b : Buffer)
  | write (env : SocketEnv)

namespace WriteSys

def init (isTls : Bool) : WriteSys := ⟨Connection.init isTls,[],[],[]⟩

/-- One step of the output. -/
def step (s : WriteSys) : WriteAct → Option WriteSys
  | .append txt b =>
    if b.Wf ∧ b.content = s.conn.bufferWrite.content ++ txt then
      some {s with conn := {s.conn with bufferWrite := b}, appended := s.appended ++ txt}
    else none
  | .write env =>
    if s.conn.Answered env then
      some {
        conn := (s.conn.doWrite env).2.2
        appended := s.appended
        sent := s.sent ++ s.conn.offered.content.take (s.conn.taken env)
        calls := s.calls ++ [(s.conn.offered,(s.conn.doWrite env).1)] }
    else none

/-- `http2d_buffer_add` appends, as long as the sizes fit their types. -/
theorem step_addStr {s : WriteSys} (hwf : s.conn.bufferWrite.Wf) (txt : List UInt8)
    (hlen : s.conn.bufferWrite.len+txt.length+17 < 2^32)
    (hint : min (s.conn.bufferWrite.size-s.conn.bufferWrite.len) txt.length < 2^31) :
    ∃ b t, s.conn.bufferWrite.addStr txt = .ok (.ok,b) ∧ s.step (.append txt b) = some t := by
  obtain ⟨b,hadd,hb,hc,-⟩ := Buffer.addStr_spec hwf txt hlen hint
  exact ⟨b,_,hadd,if_pos ⟨hb,hc⟩⟩

/-- Of two calls one after the other, the second one offers what the first one could not write. -/
def OffersAgain (p q : Buffer × Ret) : Prop := p.2 = .eagain → q.1 = p.1

/-- Nothing is lost, and a write that has to be made again is still possible as it was. -/
structure InOrder (isTls : Bool) (s : WriteSys) : Prop where
  tls : s.conn.isTls = isTls
  ok : s.conn.Ok
  kept : s.sent ++ s.conn.unsent = s.appended
  pending : isTls = true → ∀ p ∈ s.calls.getLast?, p.2 = .eagain →
    s.conn.bufferWriteSsl = p.1 ∧ 0 < p.1.len
  again : isTls = true → s.calls.IsChain OffersAgain

theorem init_inOrder (isTls : Bool) : InOrder isTls (init isTls) :=
  ⟨rfl,Connection.init_ok isTls,rfl,fun _ p hp => by simp [init] at hp,
    fun _ => List.isChain_nil⟩

/-- New data goes behind everything that was not sent. -/
theorem append_inOrder {isTls : Bool} {s t : WriteSys} {txt : List UInt8} {b : Buffer}
    (h : InOrder isTls s) (hstep : s.step (.append txt b) = some t) : InOrder isTls t := by
  simp only [step] at hstep
  split_ifs at hstep with hg
  obtain rfl := Option.some.inj hstep
  refine ⟨h.tls,⟨hg.1,h.ok.ssl_wf,h.ok.plain⟩,?_,h.pending,h.again⟩
  simp only [Connection.unsent,hg.2,← h.kept,List.append_assoc]

theorem write_inOrder {isTls : Bool} {s t : WriteSys} {env : SocketEnv}
    (h : InOrder isTls s) (hstep : s.step (.write env) = some t) : InOrder isTls t := by
  simp only [step] at hstep
  split_ifs at hstep with ha
  obtain rfl := Option.some.inj hstep
  obtain ⟨hok,htls,hunsent⟩ := Connection.doWrite_unsent h.ok ha
  refine ⟨htls.trans h.tls,hok,?_,fun ht p hp hret => ?_,fun ht => ?_⟩
  · rw [List.append_assoc,hunsent]
    exact h.kept
  · obtain rfl : (s.conn.offered,(s.conn.doWrite env).1) = p := by simpa using hp
    exact Connection.doWrite_eagain h.ok ha (h.tls.trans ht) hret
  · refine (h.again ht).append (List.isChain_singleton _) fun p hp q hq hret => ?_
    obtain rfl : (s.conn.offered,(s.conn.doWrite env).1) = q := by simpa using hq
    obtain ⟨hssl,hpos⟩ := h.pending ht p hp hret
    rw [← hssl] at hpos ⊢
    exact Connection.offered_eq (h.tls.trans ht) hpos

/-- On every run, what was sent and then the two buffers are the bytes that were appended, in their
order; and a TLS write that could not be made is made again from the same buffer. -/
theorem output_in_order {isTls : Bool} {as : List WriteAct} {s : WriteSys}
    (h : run step (init isTls) as = some s) :
    s.sent ++ s.conn.bufferWriteSsl.content ++ s.conn.bufferWrite.content = s.appended ∧
      (isTls = true → s.calls.IsChain OffersAgain) := by
  have hinv := run_invariant (InOrder isTls) (fun s a t hs ha => by
    cases a with
    | append txt b => exact append_inOrder hs ha
    | write env => exact write_inOrder hs ha) (init_inOrder isTls) h
  refine ⟨?_,hinv.again⟩
  rw [List.append_assoc]
  exact hinv.kept

/-- Over TLS: two bytes that have to wait, a third one that is appended meanwhile, and the write of
the first two. -/
def waitingRun : List WriteAct :=
  [.append [1,2] ⟨[1,2] ++ List.replicate 17 0,19,2⟩,
    .write ⟨.sent 0,sslWrite 2 .wantWrite⟩,
    .append [3] ⟨[3] ++ List.replicate 17 0,18,1⟩,
    .write ⟨.sent 0,sslWrite 2 (.wrote 2)⟩]

theorem output_in_order_waiting : ∃ s, run step (init true) waitingRun = some s ∧
    s.sent = [1,2] ∧ s.calls.map Prod.snd = [.eagain,.ok] ∧
    s.sent ++ s.conn.bufferWriteSsl.content ++ s.conn.bufferWrite.content = s.appended ∧
      (true = true → s.calls.IsChain OffersAgain) := by
  have hrun : run step (init true) waitingRun = some _ := rfl
  exact ⟨_,hrun,by decide,by decide,output_in_order hrun⟩

end WriteSys
end Http2d
