import Http2d.Thread
import Http2d.SpdyFraming

/-! The lifetime of the connections of a thread.
Recycling is up to whoever sees the end of a connection: the frame loop recycles after an error and
goes on, the lingering read of an HTTP connection recycles and reports the end once more, and an
error that is reported to the thread is not acted on. -/
namespace Http2d

open Lifetime Transition

/-- Every connection is recycled once at most and never used afterwards, and a connection whose step
reported its end or an error is recycled and in no list. -/
structure Thread.Lifetimes (t : Thread) : Prop where
  sound : Sound t.trace
  reported : ∀ c ret, .note (c,ret) ∈ t.trace → ret = .eof ∨ ret = .error →
    .release c ∈ t.trace ∧ c ∉ t.active ∧ c ∉ t.polling

theorem Thread.Lifetimes.recycled {t : Thread} (h : t.Lifetimes) (c : ℕ) :
    t.trace.count (.release c) ≤ 1 ∧
      ∀ past later, t.trace = past ++ .release c::later → .use c ∉ later := by
  refine ⟨h.sound.count_release_le c,fun past later htrace => ?_⟩
  have hsound := h.sound
  rw [htrace] at hsound
  exact hsound.behind.1

/-- The frame loop gets no error. -/
def IoClean (r : Results) : Prop :=
  connectionDoRead r.read.1 = .ok → r.readEmpty = false → r.process ≠ .error

/-- The answers that the connection gets from its own read buffer. -/
structure Results.OfBuffer {Z : Type} (r : Results) (env : SpdyEnv Z) (conn : SpdyConn Z)
    (buf : Buffer) : Prop where
  readEmpty : r.readEmpty = buf.isEmpty
  process : r.readEmpty = false →
    ∃ conn' buf', spdyProcessBuffer env conn buf = some (.ok (r.process,conn',buf'))

/-- One accepted frame in the buffer, with at most eight bytes behind it, gives no error. -/
theorem ioClean_of_front {Z : Type} {env : SpdyEnv Z} {conn : SpdyConn Z} {buf : Buffer}
    {r : Results} (h : r.OfBuffer env conn buf) {f : CtrlFrame} {rest : List UInt8} (hwf : buf.Wf)
    (hcont : buf.content = f.bytes ++ rest) (hrest : rest.length ≤ 8)
    (hsyn : f.type = spdySynStream → SynAccepted env conn buf 8) : IoClean r := by
  intro _ hempty herr
  obtain ⟨conn₁,buf₁,hout₁⟩ := h.process hempty
  obtain ⟨conn₂,buf₂,hout₂,_⟩ := spdyProcessBuffer_front hwf hcont hrest hsyn
  rw [hout₁,herr] at hout₂
  cases hout₂

/-- Bytes that are no frame of version 3 give an error. -/
theorem not_ioClean_of_version {Z : Type} {env : SpdyEnv Z} {conn : SpdyConn Z} {buf : Buffer}
    {r : Results} (h : r.OfBuffer env conn buf) (hread : connectionDoRead r.read.1 = .ok)
    {ctrl : SpdyCtrl} (h12 : 12 ≤ buf.len) (hctrl : spdyReadCtrl buf.buf 0 = .ok ctrl)
    (hver : ctrl.version ≠ 3) : ¬ IoClean r := by
  intro hclean
  have hempty : r.readEmpty = false := by
    rw [h.readEmpty,Buffer.isEmpty,beq_eq_false_iff_ne]
    omega
  obtain ⟨conn₁,buf₁,hout⟩ := h.process hempty
  rw [spdyProcessBuffer_version env conn h12 hctrl hver] at hout
  have herr := (Prod.mk.inj (Except.ok.inj (Option.some.inj hout))).1
  exact hclean hread hempty herr.symm

/-- A lingering read that must wait says for what. -/
def LingerClean (r : Results) : Prop :=
  (connectionDoLingerRead r).1 = .eagain → (connectionDoLingerRead r).2 ≠ -1

/-- The lingering read of an HTTP connection waits for more. -/
def HttpLingerClean (r : Results) : Prop :=
  (connectionDoLingerRead r).1 = .eagain ∧ (connectionDoLingerRead r).2 ≠ -1

/-- The request of an HTTP connection waits, or it has ended and the connection lingers. -/
def RequestClean (r : Results) : Prop :=
  r.request.1 = .eagain ∨ r.request.1 = .eof ∧ r.shutdown = .ok ∧ HttpLingerClean r

/-- A TLS handshake does not fail, and what follows it is clean. -/
def HandshakeClean (isTls : Bool) (r : Results) (next : Prop) : Prop :=
  if isTls then r.sslInit.1 = .eof ∨ r.sslInit.1 = .eagain ∨ r.sslInit.1 = .ok ∧ next else next

/-- What a connection meets does not lead to a branch that leaves its recycling undone, or does it
too early or twice. -/
def StepClean (r : Results) : ThreadConn → Prop
  | ⟨.spdy .handshake,isTls⟩ => HandshakeClean isTls r (IoClean r)
  | ⟨.spdy .io,_⟩ => IoClean r
  | ⟨.spdy .shutdown,_⟩ => r.shutdown = .ok ∧ LingerClean r
  | ⟨.spdy .lingerRead,_⟩ => LingerClean r
  | ⟨.http .handshake,isTls⟩ => HandshakeClean isTls r (RequestClean r)
  | ⟨.http .step,_⟩ => RequestClean r
  | ⟨.http .write,_⟩ => False
  | ⟨.http .shutdown,_⟩ => r.shutdown = .ok ∧ HttpLingerClean r
  | ⟨.http .lingeringRead,_⟩ => HttpLingerClean r

/-- Every connection of a pass meets clean results, in the state in which its step begins. -/
def PassClean (results : ℕ → Results) : Thread → List ℕ → Prop
  | _, [] => True
  | t, c::cs => (∀ k, t.conns[c]? = some k → StepClean (results c) k) ∧
      PassClean results (threadConn t c (results c)) cs

/-- The condition on a step of the thread. -/
def ActClean (t : Thread) : ThreadAct → Prop
  | .pass results => PassClean results t t.active
  | _ => True

namespace Thread

/-- What holds between the steps of the connections. -/
structure Inv (t : Thread) : Prop where
  sound : Sound t.trace
  reported : ∀ c ret, .note (c,ret) ∈ t.trace → ret = .eof ∨ ret = .error → .release c ∈ t.trace
  live : ∀ c, c ∈ t.active ∨ c ∈ t.polling ∨ c ∈ t.newConns →
    .release c ∉ t.trace ∧ c < t.conns.length
  old : ∀ c, .release c ∈ t.trace → c < t.conns.length
  nodup : t.active.Nodup

/-- A connection that may still be used. -/
structure Live (t : Thread) (c : ℕ) : Prop where
  inv : t.Inv
  fresh : .release c ∉ t.trace
  known : c < t.conns.length

theorem Inv.lifetimes {t : Thread} (h : t.Inv) : t.Lifetimes where
  sound := h.sound
  reported c ret hnote hret := by
    have hrel := h.reported c ret hnote hret
    exact ⟨hrel,fun hc => (h.live c (Or.inl hc)).1 hrel,
      fun hc => (h.live c (Or.inr (Or.inl hc))).1 hrel⟩

theorem new_inv : new.Inv where
  sound := sound_nil
  reported := by simp [new]
  live := by simp [new]
  old := by simp [new]
  nodup := List.nodup_nil

theorem use_inv {t : Thread} {c : ℕ} (h : t.Inv) (hc : .release c ∉ t.trace) : (t.use c).Inv where
  sound := h.sound.use hc
  reported := by simpa [use] using h.reported
  live := by simpa [use] using h.live
  old := by simpa [use] using h.old
  nodup := h.nodup

theorem Live.use {t : Thread} {c : ℕ} (h : t.Live c) : (t.use c).Live c :=
  ⟨use_inv h.inv h.fresh,by simpa [Thread.use] using h.fresh,h.known⟩

theorem Live.modify {t : Thread} {c d : ℕ} (h : t.Live c) (f : ThreadConn → ThreadConn) :
    Live {t with conns := t.conns.modify d f} c where
  inv := ⟨h.inv.sound,h.inv.reported,by simpa using h.inv.live,by simpa using h.inv.old,h.inv.nodup⟩
  fresh := h.fresh
  known := by simpa using h.known

theorem Live.setPhase {t : Thread} {c : ℕ} (h : t.Live c) (phase : ConnPhase) :
    (t.setPhase c phase).Live c := h.use.modify _

theorem Live.setPlain {t : Thread} {c : ℕ} (h : t.Live c) : (t.setPlain c).Live c := h.use.modify _

theorem Live.moveToPolling {t : Thread} {c : ℕ} (h : t.Live c) : (t.moveToPolling c).Live c where
  inv := by
    have hu := h.use
    refine ⟨hu.inv.sound,hu.inv.reported,fun d hd => ?_,hu.inv.old,h.inv.nodup.filter _⟩
    by_cases hdc : d = c
    · subst hdc
      exact ⟨hu.fresh,hu.known⟩
    · refine hu.inv.live d ?_
      simpa [Thread.moveToPolling,unlink,hdc] using hd
  fresh := h.use.fresh
  known := h.known

theorem Live.moveToActive {t : Thread} {c : ℕ} (h : t.Live c) : (t.moveToActive c).Live c where
  inv := by
    have hu := h.use
    refine ⟨hu.inv.sound,hu.inv.reported,fun d hd => ?_,hu.inv.old,?_⟩
    · by_cases hdc : d = c
      · subst hdc
        exact ⟨hu.fresh,hu.known⟩
      · refine hu.inv.live d ?_
        simpa [Thread.moveToActive,unlink,hdc] using hd
    · exact List.nodup_cons.mpr ⟨by simp,h.inv.nodup.filter _⟩
  fresh := h.use.fresh
  known := h.known

/-- A connection that was not recycled yet may be recycled. -/
theorem Live.recycleConn {t : Thread} {c : ℕ} (h : t.Live c) : (t.recycleConn c).Inv where
  sound := h.inv.sound.release h.fresh
  reported d ret hnote hret := by
    have := h.inv.reported d ret (by simpa [Thread.recycleConn] using hnote) hret
    simp [Thread.recycleConn,this]
  live d hd := by
    have hd' : (d ∈ t.active ∨ d ∈ t.polling ∨ d ∈ t.newConns) ∧ d ≠ c := by
      simp only [Thread.recycleConn,unlink,List.mem_filter,decide_eq_true_eq] at hd
      tauto
    have := h.inv.live d hd'.1
    exact ⟨by simp [Thread.recycleConn,this.1,hd'.2],this.2⟩
  old d hd := by
    rcases List.mem_append.mp hd with hd | hd
    · exact h.inv.old d hd
    · obtain rfl : d = c := by simpa using hd
      exact h.known
  nodup := h.inv.nodup.filter _

/-- The outcome of a step of a connection that leaves its lifetime in order: the others keep their
places, and the step succeeds, or it reports the end of a connection that was not recycled. -/
structure InOrder (active : List ℕ) (c : ℕ) (out : Ret × Thread) : Prop where
  inv : out.2.Inv
  others : ∀ d, d ≠ c → d ∈ active → d ∈ out.2.active
  ret : out.1 = .ok ∨ out.1 = .eof ∧ out.2.Live c

theorem Live.stays {t : Thread} {c : ℕ} (h : t.Live c) {ret : Ret} (hret : ret = .ok ∨ ret = .eof) :
    InOrder t.active c (ret,t) :=
  ⟨h.inv,fun _ _ hd => hd,hret.imp_right fun he => ⟨he,h⟩⟩

theorem Live.polls {t : Thread} {c : ℕ} (h : t.Live c) :
    InOrder t.active c (.ok,t.moveToPolling c) :=
  ⟨h.moveToPolling.inv,fun d hne hd => List.mem_filter.mpr ⟨hd,by simpa using hne⟩,Or.inl rfl⟩

theorem Live.awaits {t : Thread} {c : ℕ} (h : t.Live c) (wanted : ℤ) :
    InOrder t.active c (.ok,t.await c wanted) := by
  unfold await
  split_ifs
  · exact h.polls
  · exact h.stays (Or.inl rfl)

theorem Live.recycles {t : Thread} {c : ℕ} (h : t.Live c) :
    InOrder t.active c (.ok,t.recycleConn c) :=
  ⟨h.recycleConn,fun d hne hd => List.mem_filter.mpr ⟨hd,by simpa using hne⟩,Or.inl rfl⟩

end Thread

open Thread

theorem doIoWrite_inOrder {t : Thread} {c : ℕ} (h : t.Live c) (r : Results) :
    InOrder t.active c (doIoWrite t c r) := by
  have hu := h.use
  unfold doIoWrite
  dsimp only
  split_ifs
  · exact hu.stays (Or.inl rfl)
  · split
    · exact hu.awaits r.write.2
    · exact hu.recycles
    · exact hu.stays (Or.inl rfl)

theorem doIoRequests_live {t : Thread} {c : ℕ} (h : t.Live c) (rets : List Ret) :
    (doIoRequests t c rets).Live c ∧ (doIoRequests t c rets).active = t.active := by
  induction rets generalizing t with
  | nil => exact ⟨h.use,rfl⟩
  | cons _ rets ih => exact ih h.use

theorem doIoRequests_inOrder {t : Thread} {c : ℕ} (h : t.Live c) (r : Results) :
    InOrder t.active c (doIoWrite (doIoRequests t c r.requests) c r) := by
  obtain ⟨hlive,hactive⟩ := doIoRequests_live h r.requests
  exact hactive ▸ doIoWrite_inOrder hlive r

theorem doIoProcessed_inOrder {t : Thread} {c : ℕ} (h : t.Live c) {r : Results}
    (hr : r.process ≠ .error) : InOrder t.active c (doIoProcessed t c r) := by
  unfold doIoProcessed
  split
  · exact doIoRequests_inOrder h r
  · exact absurd ‹_› hr
  · exact doIoWrite_inOrder h r

theorem doIoProcess_inOrder {t : Thread} {c : ℕ} (h : t.Live c) {r : Results}
    (hr : r.readEmpty = false → r.process ≠ .error) : InOrder t.active c (doIoProcess t c r) := by
  unfold doIoProcess
  split_ifs with hempty
  · exact doIoRequests_inOrder h r
  · exact doIoProcessed_inOrder (h.setPhase _) (hr (by simpa using hempty))
  · exact doIoProcessed_inOrder h (hr (by simpa using hempty))

theorem connectionDoRead_ret (ret : Ret) : connectionDoRead ret = .ok ∨ connectionDoRead ret = .eof ∨
    connectionDoRead ret = .eagain := by
  cases ret <;> simp [connectionDoRead]

/-- Without a processing error `do_io` recycles the connection once at most, and last. -/
theorem doIo_inOrder {t : Thread} {c : ℕ} (h : t.Live c) {r : Results} (hr : IoClean r) :
    InOrder t.active c (doIo t c r) := by
  have hu := h.use
  unfold doIo
  dsimp only
  rcases connectionDoRead_ret r.read.1 with hread | hread | hread <;> rw [hread]
  · exact doIoProcess_inOrder hu (hr hread)
  · exact hu.recycles
  · exact hu.awaits r.read.2

/-- `do_io` succeeds, whatever happened. -/
theorem doIo_ret (t : Thread) (c : ℕ) (r : Results) : (doIo t c r).1 = .ok := by
  have hwrite (t : Thread) : (doIoWrite t c r).1 = .ok := by
    unfold doIoWrite
    dsimp only
    split_ifs
    · rfl
    · split <;> rfl
  have hprocess (t : Thread) : (doIoProcess t c r).1 = .ok := by
    unfold doIoProcess doIoProcessed
    split_ifs
    · exact hwrite _
    · split <;> exact hwrite _
    · split <;> exact hwrite _
  unfold doIo
  dsimp only
  split
  · rfl
  · rfl
  · exact hprocess _

theorem spdyIo_inOrder {t : Thread} {c : ℕ} (h : t.Live c) {r : Results} (hr : IoClean r) :
    InOrder t.active c (spdyIo t c r) := by
  have hret := doIo_ret t c r
  have hio := doIo_inOrder h hr
  unfold spdyIo
  rcases hout : doIo t c r with ⟨ret,t'⟩
  rw [hout] at hret hio
  obtain rfl : ret = .ok := hret
  exact hio

theorem connectionDoLingerRead_ret (r : Results) : (connectionDoLingerRead r).1 = .eof ∨
    (connectionDoLingerRead r).1 = .error ∨ (connectionDoLingerRead r).1 = .eagain := by
  unfold connectionDoLingerRead
  dsimp only
  split_ifs <;> split <;> simp

theorem spdyLingerRead_inOrder {t : Thread} {c : ℕ} (h : t.Live c) {r : Results}
    (hr : LingerClean r) : InOrder t.active c (spdyLingerRead t c r) := by
  have hu := h.use
  unfold spdyLingerRead
  dsimp only
  rcases hout : connectionDoLingerRead r with ⟨ret,wanted⟩
  have hret := connectionDoLingerRead_ret r
  rw [hout] at hret
  rcases hret with rfl | rfl | rfl
  · exact hu.stays (Or.inr rfl)
  · exact hu.stays (Or.inr rfl)
  · have hwanted : wanted ≠ -1 := by
      have := hr (by rw [hout])
      rwa [hout] at this
    simp only [if_pos hwanted]
    exact hu.polls

theorem httpLingerRead_inOrder {t : Thread} {c : ℕ} (h : t.Live c) {r : Results}
    (hr : HttpLingerClean r) : InOrder t.active c (httpLingerRead t c r) := by
  have hu := h.use
  unfold httpLingerRead
  dsimp only
  obtain ⟨hret,hwanted⟩ := hr
  rcases hout : connectionDoLingerRead r with ⟨ret,wanted⟩
  rw [hout] at hret hwanted
  obtain rfl : ret = .eagain := hret
  simp only [if_pos hwanted]
  exact hu.polls

theorem spdyShutdown_inOrder {t : Thread} {c : ℕ} (h : t.Live c) {r : Results}
    (hr : r.shutdown = .ok ∧ LingerClean r) : InOrder t.active c (spdyShutdown t c r) := by
  have hok : connectionDoShutdown r.shutdown = .ok := by rw [hr.1]; rfl
  unfold spdyShutdown
  simp only [hok,ne_eq,not_true_eq_false,if_false]
  exact spdyLingerRead_inOrder (h.setPlain.setPhase _) hr.2

theorem httpShutdown_inOrder {t : Thread} {c : ℕ} (h : t.Live c) {r : Results}
    (hr : r.shutdown = .ok ∧ HttpLingerClean r) : InOrder t.active c (httpShutdown t c r) := by
  have hok : connectionDoShutdown r.shutdown = .ok := by rw [hr.1]; rfl
  unfold httpShutdown
  simp only [hok,ne_eq,not_true_eq_false,if_false]
  exact httpLingerRead_inOrder (h.setPlain.setPhase _) hr.2

theorem httpStep_inOrder {t : Thread} {c : ℕ} (h : t.Live c) {r : Results} (hr : RequestClean r) :
    InOrder t.active c (httpStep t c r) := by
  have hu := h.use
  unfold httpStep
  dsimp only
  rcases hr with hret | ⟨hret,hlinger⟩ <;> rw [hret]
  · exact hu.awaits r.request.2
  · exact httpShutdown_inOrder (hu.setPhase _) hlinger

theorem handshake_inOrder {t : Thread} {c : ℕ} (h : t.Live c) {isTls : Bool} {r : Results}
    {P : Prop} {next : Thread → Ret × Thread} (hr : HandshakeClean isTls r P)
    (hnext : P → ∀ t : Thread, t.Live c → InOrder t.active c (next t)) :
    InOrder t.active c (handshake t c isTls r next) := by
  have hu := h.use
  unfold HandshakeClean at hr
  unfold handshake
  split_ifs at hr ⊢
  · rcases hr with hret | hret | ⟨hret,hP⟩ <;> rw [hret]
    · exact hu.stays (Or.inr rfl)
    · exact hu.awaits r.sslInit.2
    · exact hnext hP _ hu
  · exact hnext hr t h

/-- A step of a connection under the condition. -/
theorem connectionStep_inOrder {t : Thread} {c : ℕ} (h : t.Live c) {r : Results}
    (hr : ∀ k, t.conns[c]? = some k → StepClean r k) : InOrder t.active c (connectionStep t c r) := by
  have hu := h.use
  obtain ⟨⟨phase,isTls⟩,hk⟩ : ∃ k, t.conns[c]? = some k := ⟨_,List.getElem?_eq_getElem h.known⟩
  have hclean := hr _ hk
  unfold connectionStep
  rw [hk]
  rcases phase with phase | phase
  · cases phase with
    | handshake => exact handshake_inOrder hu hclean fun hP _ ht => spdyIo_inOrder (ht.setPhase _) hP
    | io => exact spdyIo_inOrder hu hclean
    | shutdown => exact spdyShutdown_inOrder hu hclean
    | lingerRead => exact spdyLingerRead_inOrder hu hclean
  · cases phase with
    | handshake => exact handshake_inOrder hu hclean fun hP _ ht => httpStep_inOrder (ht.setPhase _) hP
    | step => exact httpStep_inOrder hu hclean
    | write => exact hclean.elim
    | shutdown => exact httpShutdown_inOrder hu hclean
    | lingeringRead => exact httpLingerRead_inOrder hu hclean

theorem Thread.report_inv {t : Thread} (h : t.Inv) (c : ℕ) : (t.report c .ok).Inv where
  sound := h.sound.note _
  reported d ret hnote hret := by
    rcases List.mem_append.mp hnote with hnote | hnote
    · exact List.mem_append_left _ (h.reported d ret hnote hret)
    · simp only [List.mem_singleton,Event.note.injEq,Prod.mk.injEq] at hnote
      rw [hnote.2] at hret
      rcases hret with hret | hret <;> cases hret
  live := by simpa [report] using h.live
  old := by simpa [report] using h.old
  nodup := h.nodup

/-- The thread recycles a connection whose step has reported its end. -/
theorem Thread.Live.recycleReported {t : Thread} {c : ℕ} (h : t.Live c) (ret : Ret) :
    ((t.report c ret).recycleConn c).Inv where
  sound := (h.inv.sound.note _).release (by simpa using h.fresh)
  reported d ret' hnote hret := by
    simp only [recycleConn_trace,report_trace,List.mem_append,List.mem_singleton] at hnote ⊢
    rcases hnote with (hnote | hnote) | hnote
    · exact Or.inl (Or.inl (h.inv.reported d ret' hnote hret))
    · simp only [Event.note.injEq,Prod.mk.injEq] at hnote
      exact Or.inr (by rw [hnote.1])
    · cases hnote
  live d hd := by
    have hd' := h.recycleConn.live d hd
    have hfresh := hd'.1
    simp only [recycleConn_trace,report_trace,List.mem_append,List.mem_singleton] at hfresh ⊢
    exact ⟨by tauto,hd'.2⟩
  old d hd := by
    simp only [recycleConn_trace,report_trace,List.mem_append,List.mem_singleton] at hd
    rcases hd with (hd | hd) | hd
    · exact h.inv.old d hd
    · cases hd
    · obtain rfl := Event.release.inj hd
      exact h.known
  nodup := h.inv.nodup.filter _

theorem threadConn_inOrder {t : Thread} {c : ℕ} (h : t.Live c) {r : Results}
    (hr : ∀ k, t.conns[c]? = some k → StepClean r k) :
    (threadConn t c r).Inv ∧ ∀ d, d ≠ c → d ∈ t.active → d ∈ (threadConn t c r).active := by
  have hstep := connectionStep_inOrder h hr
  unfold threadConn
  rcases hout : connectionStep t c r with ⟨ret,t'⟩
  rw [hout] at hstep
  rcases hstep.ret with hret | ⟨hret,hlive⟩
  · obtain rfl : ret = .ok := hret
    exact ⟨report_inv hstep.inv c,hstep.others⟩
  · obtain rfl : ret = .eof := hret
    exact ⟨hlive.recycleReported .eof,fun d hne hd =>
      List.mem_filter.mpr ⟨hstep.others d hne hd,by simpa using hne⟩⟩

/-- One pass keeps the invariant, as the connections that are still to be stepped stay active. -/
theorem threadPass_inv {results : ℕ → Results} {t : Thread} {cs : List ℕ} (h : t.Inv)
    (hnodup : cs.Nodup) (hactive : ∀ c ∈ cs, c ∈ t.active) (hclean : PassClean results t cs) :
    (threadPass t results cs).Inv := by
  induction cs generalizing t with
  | nil => exact h
  | cons c cs ih =>
    obtain ⟨hnot,hnodup⟩ := List.nodup_cons.mp hnodup
    obtain ⟨hfresh,hknown⟩ := h.live c (Or.inl (hactive c (List.mem_cons_self ..)))
    obtain ⟨hinv,hothers⟩ := threadConn_inOrder ⟨h,hfresh,hknown⟩ hclean.1
    refine ih hinv hnodup (fun d hd => ?_) hclean.2
    exact hothers d (fun hdc => hnot (hdc ▸ hd)) (hactive d (List.mem_cons_of_mem _ hd))

theorem newConnCb_inv {t : Thread} {cs : List ℕ} (h : t.Inv)
    (hcs : ∀ c ∈ cs, .release c ∉ t.trace ∧ c < t.conns.length) : (newConnCb t cs).Inv := by
  induction cs generalizing t with
  | nil => exact h
  | cons c cs ih =>
    obtain ⟨hfresh,hknown⟩ := hcs c (List.mem_cons_self ..)
    have hmoved := Live.moveToPolling ⟨h,hfresh,hknown⟩
    refine ih hmoved.inv fun d hd => ?_
    have hd' := hcs d (List.mem_cons_of_mem _ hd)
    exact ⟨by simpa [moveToPolling,unlink,use] using hd'.1,hd'.2⟩

theorem addConn_inv {t : Thread} (h : t.Inv) (k : ThreadConn) : Inv {t.use t.conns.length with
    conns := t.conns ++ [k], newConns := t.conns.length::t.newConns} := by
  have hfresh : .release t.conns.length ∉ t.trace := fun hrel => lt_irrefl _ (h.old _ hrel)
  have hu := use_inv h hfresh
  refine ⟨hu.sound,hu.reported,fun d hd => ?_,fun d hd => ?_,h.nodup⟩
  · rw [List.length_append]
    by_cases hdn : d = t.conns.length
    · rw [hdn]
      exact ⟨by simpa [use] using hfresh,Nat.lt_succ_self _⟩
    · have hd' := hu.live d (by simpa [hdn] using hd)
      exact ⟨hd'.1,Nat.lt_succ_of_lt hd'.2⟩
  · rw [List.length_append]
    exact Nat.lt_succ_of_lt (hu.old d hd)

theorem threadStep_inv {t t' : Thread} {a : ThreadAct} (h : t.Inv) (ha : ActClean t a)
    (hstep : threadStep t a = some t') : t'.Inv := by
  cases a with
  | addConn isSpdy isTls =>
    cases hstep
    exact addConn_inv h _
  | newConnCb =>
    cases hstep
    exact newConnCb_inv h fun c hc => h.live c (Or.inr (Or.inr hc))
  | ioCb c =>
    simp only [threadStep] at hstep
    split_ifs at hstep with hpoll
    cases hstep
    obtain ⟨hfresh,hknown⟩ := h.live c (Or.inr (Or.inl hpoll))
    exact (Live.moveToActive ⟨h,hfresh,hknown⟩).inv
  | pass results =>
    cases hstep
    exact threadPass_inv h h.nodup (fun _ hc => hc) ha

/-- In every run of clean steps the lifetimes are in order. -/
theorem run_lifetimes {acts : List ThreadAct} {t : Thread}
    (hg : Guarded threadStep ActClean Thread.new acts)
    (h : run threadStep Thread.new acts = some t) : t.Lifetimes :=
  (guarded_invariant ActClean Thread.Inv (fun _ _ _ hi ha hs => threadStep_inv hi ha hs)
    Thread.new_inv hg h).lifetimes

/-- Results of a step in which nothing happens. -/
def idle : Results where
  sslInit := (.ok,0)
  read := (.ok,0)
  readEmpty := true
  process := .ok
  goaway := false
  requests := []
  writeEmpty := true
  write := (.ok,0)
  request := (.eagain,0)
  shutdown := .ok
  linger := (.eagain,0,1)
  lingerAgain := (.eof,0,0)

/-- The peer of a SPDY connection closes it. -/
theorem run_lifetimes_closed : ∃ t, run threadStep Thread.new
    [.addConn true false,.newConnCb,.ioCb 0,.pass fun _ => {idle with read := (.eof,0)}] = some t ∧
      .release 0 ∈ t.trace ∧ t.Lifetimes := by
  have hguard : Guarded threadStep ActClean Thread.new
      [.addConn true false,.newConnCb,.ioCb 0,.pass fun _ => {idle with read := (.eof,0)}] := ?_
  · exact ⟨_,rfl,by decide,run_lifetimes hguard rfl⟩
  refine ⟨trivial,fun s hs => ?_⟩
  obtain rfl := Option.some.inj hs
  refine ⟨trivial,fun s hs => ?_⟩
  obtain rfl := Option.some.inj hs
  refine ⟨trivial,fun s hs => ?_⟩
  obtain rfl := Option.some.inj hs
  refine ⟨⟨fun k hk => ?_,trivial⟩,fun _ _ => trivial⟩
  obtain rfl := Option.some.inj hk
  exact fun h => absurd h (by decide)

/-- The SPDY connection 0 gets bytes that are no frame, the HTTP connection 1 comes to its end, and
the TLS handshake of the SPDY connection 2 fails. -/
def badResults : ℕ → Results
  | 0 => {idle with readEmpty := false, process := .error}
  | 1 => {idle with request := (.eof,0), linger := (.eof,0,0)}
  | _ => {idle with sslInit := (.error,0)}

/-- Connection 0 is used after it was recycled, connection 1 is recycled twice, and connection 2 stays
active after an error was reported. -/
theorem run_lifetimes_broken : ∃ t, run threadStep Thread.new [.addConn true false,
    .addConn false false,.addConn true true,.newConnCb,.ioCb 0,.ioCb 1,.ioCb 2,.pass badResults] =
      some t ∧ .use 0 ∈ t.trace.drop (t.trace.idxOf (.release 0)) ∧
      t.trace.count (.release 1) = 2 ∧ .note (2,.error) ∈ t.trace ∧ 2 ∈ t.active ∧
      ¬ t.Lifetimes :=
  ⟨_,rfl,by decide,by decide,by decide,by decide,fun h => absurd h.sound (by decide)⟩

end Http2d
