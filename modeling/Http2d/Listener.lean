import Http2d.ThreadLists
import Http2d.Library.RoundRobin

/-! The listener and the threads that it hands connections to.
The kernel and the allocator are given from outside: what `accept` answers, whether the calls on the
new descriptor succeed and where a connection is put. A descriptor is new when no connection has it
as its socket, and an address when no connection is there. -/
namespace Http2d

open IntrusiveList RoundRobin Transition

/-- A node of the list of threads: its head, or the `listed` field of a thread. -/
inductive SrvNode
  | threads | thread (i : ℕ)
  deriving DecidableEq, Repr

/-- What happens to client descriptors. -/
inductive FdEvent
  | opened (fd : ℕ) | closed (fd : ℕ)
  deriving DecidableEq, Repr

/-- What a bind gives to its connections. -/
structure BindKind where
  isTls : Bool
  isSpdy : Bool
  deriving DecidableEq, Repr

/-- A connection at an address, with its descriptor and the number of its thread. -/
structure SrvConn where
  id : ℕ
  socket : ℤ
  bind : BindKind
  thread : ℕ
  deriving DecidableEq, Repr

/-- `http2d_connection_spdy_new`, `http2d_connection_http_new`: the address, or what the variable
holds that the call did not write to; none is NULL. -/
inductive NewConn
  | made (id : ℕ) | failed (n : Option ℕ)
  deriving DecidableEq, Repr

/-- What `io_cb` meets. -/
structure Arrival where
  /-- the answer of `accept` that is no `EINTR` -/
  accept : Option ℕ
  /-- `http2d_fd_set_nonblocking` -/
  nonblocking : Bool
  /-- `http2d_fd_set_nodelay` -/
  nodelay : Bool
  conn : NewConn
  /-- whether the address family is one of `AF_INET` and `AF_INET6` -/
  inet : Bool
  deriving DecidableEq, Repr

/-- `http2d_server_t` with its threads. `sending` is the thread whose `ev_async_send` is still to
come in `http2d_thread_add_conn`; `assigned` are the threads that were given a connection. -/
structure Server where
  count : ℕ
  threads : Links SrvNode
  lists : ℕ → ThreadLists
  prev : Option SrvNode
  conns : List SrvConn
  sending : Option ℕ
  fds : List FdEvent
  assigned : List ℕ

/-- `dcc_ncpus` on what `sysconf` answers: an `int` below 2^30, since its double is one as well. -/
def dccNcpus (sysconf : ℤ) : Option ℤ :=
  if sysconf = -1 then none else if sysconf = 0 then some 1 else some sysconf

/-- The loop of `http2d_server_init`: every thread is put in front of the others. -/
def initThreads : ℕ → Links SrvNode
  | 0 => (⟨id,id⟩ : Links SrvNode).init .threads
  | n+1 => (initThreads n).add (.thread n) .threads

/-- `http2d_server_init`. -/
def serverInit (sysconf : ℤ) : Option Server :=
  (dccNcpus sysconf).map fun ncpus =>
    ⟨(ncpus*2).toNat,initThreads (ncpus*2).toNat,fun _ => .new,none,[],none,[],[]⟩

/-- `http2d_fd_close`. -/
def fdClose (fd : ℤ) (fds : List FdEvent) : List FdEvent :=
  if fd < 0 then fds else fds ++ [.closed fd.toNat]

/-- `http2d_socket_accept_fd`; the descriptor is written at the end only. -/
def socketAcceptFd (a : Arrival) (fds : List FdEvent) : Ret × ℤ × List FdEvent :=
  match a.accept with
  | none => (.error,-1,fds)
  | some fd =>
    let fds := fds ++ [.opened fd]
    if ¬ a.nonblocking then (.error,-1,fdClose fd fds)
    else if ¬ a.nodelay then (.error,-1,fdClose fd fds)
    else (.ok,fd,fds)

/-- `http2d_connection_free` of a connection with this socket: `http2d_socket_close` comes first. -/
def connectionFree (socket : ℤ) (fds : List FdEvent) : List FdEvent := fdClose socket fds

/-- `http2d_socket_set_sockaddr` on the socket of a new connection. -/
def socketSetSockaddr (a : Arrival) (socket newFd : ℤ) : Ret × ℤ :=
  if a.inet then (.ok,newFd) else (.error,socket)

namespace Server

/-- The choice of a thread; `prev_thd` is NULL before the first one. -/
def nextThread (s : Server) : SrvNode :=
  match s.prev with
  | none => s.threads.next .threads
  | some prev => nextCircular s.threads .threads prev

/-- `http2d_thread_add_conn` up to its signal, with `prev_thd` set to the thread. -/
def threadAddConn (s : Server) (i : ℕ) (conn : SrvConn) : Server :=
  {s with
    prev := some (.thread i)
    conns := {conn with thread := i}::s.conns
    lists := Function.update s.lists i ((s.lists i).addConn conn.id)
    sending := some i
    assigned := s.assigned ++ [i]}

@[simp] theorem threadAddConn_count (s : Server) (i : ℕ) (conn : SrvConn) :
    (s.threadAddConn i conn).count = s.count := rfl
@[simp] theorem threadAddConn_conns (s : Server) (i : ℕ) (conn : SrvConn) :
    (s.threadAddConn i conn).conns = {conn with thread := i}::s.conns := rfl
@[simp] theorem threadAddConn_lists (s : Server) (i : ℕ) (conn : SrvConn) :
    (s.threadAddConn i conn).lists = Function.update s.lists i ((s.lists i).addConn conn.id) := rfl
@[simp] theorem threadAddConn_sending (s : Server) (i : ℕ) (conn : SrvConn) :
    (s.threadAddConn i conn).sending = some i := rfl
@[simp] theorem threadAddConn_fds (s : Server) (i : ℕ) (conn : SrvConn) :
    (s.threadAddConn i conn).fds = s.fds := rfl
@[simp] theorem threadAddConn_assigned (s : Server) (i : ℕ) (conn : SrvConn) :
    (s.threadAddConn i conn).assigned = s.assigned ++ [i] := rfl

/-- The end of `io_cb`. The head of the list is no thread. -/
def assign (s : Server) (conn : SrvConn) : Exec Server :=
  match s.nextThread with
  | .threads => .error .fault
  | .thread i => .ok (s.threadAddConn i conn)

/-- `io_cb`. Where no connection could be made it frees what its variable holds. -/
def ioCb (s : Server) (bind : BindKind) (a : Arrival) : Exec Server :=
  let (ret,newFd,fds) := socketAcceptFd a s.fds
  if ret ≠ .ok ∨ newFd = -1 then .ok {s with fds := fdClose newFd fds}
  else
    match a.conn with
    | .failed none => .ok {s with fds := fdClose newFd fds}
    | .failed (some _) => .error .fault
    | .made id =>
      let (ret,socket) := socketSetSockaddr a (-1) newFd
      if ret ≠ .ok then .ok {s with fds := connectionFree socket (fdClose newFd fds)}
      else {s with fds := fds}.assign ⟨id,socket,bind,0⟩

/-- `http2d_connection_free` in the thread that has the connection. -/
def free (s : Server) (c : ℕ) : Server :=
  match s.conns.find? (·.id = c) with
  | none => s
  | some conn => {s with conns := s.conns.erase conn, fds := connectionFree conn.socket s.fds}

/-- The descriptor is not open, and nothing is at the address. -/
def fresh (s : Server) (a : Arrival) : Bool :=
  (match a.accept with
    | none => true
    | some fd => (fd : ℤ) ∉ s.conns.map (·.socket)) &&
  match a.conn with
    | .made id => id ∉ s.conns.map (·.id)
    | .failed _ => true

end Server

/-- What the main thread and the others do. -/
inductive ServerAct
  | ioCb (bind : BindKind) (a : Arrival)
  | asyncSend
  | thread (i : ℕ) (act : ListsAct)
  deriving DecidableEq, Repr

/-- A step of the server. The main thread sends its signal before it does anything else; the other
threads do what they do with their lists, and a connection that they recycle is freed. -/
def serverStep (s : Server) : ServerAct → Option Server
  | .ioCb bind a => if s.sending = none ∧ s.fresh a then (s.ioCb bind a).toOption else none
  | .asyncSend => s.sending.bind fun i => (listsStep (s.lists i) .asyncSend).map fun l =>
      {s with lists := Function.update s.lists i l, sending := none}
  | .thread _ (.addConn _) => none
  | .thread _ .asyncSend => none
  | .thread i (.recycleConn c) => if i < s.count then
      (listsStep (s.lists i) (.recycleConn c)).map fun l =>
        {s.free c with lists := Function.update s.lists i l} else none
  | .thread i act => if i < s.count then (listsStep (s.lists i) act).map fun l =>
      {s with lists := Function.update s.lists i l} else none

/-! The turn of a thread. -/

/-- The thread that gets the connection number `k` of `n` threads: the last one was put in front. -/
def turn (n k : ℕ) : ℕ := n-1-k % n

theorem initThreads_ring (n : ℕ) :
    Ring (initThreads n) .threads ((List.range n).reverse.map .thread) := by
  induction n with
  | zero => exact ring_init ..
  | succ n ih =>
    rw [List.range_succ,List.reverse_append,List.map_append]
    exact ih.add (by simp)

/-- The state of the choice after `k` connections. -/
structure InTurn (s : Server) : Prop where
  pos : 0 < s.count
  ring : Ring s.threads .threads ((List.range s.count).reverse.map .thread)
  prev : ∀ k, s.assigned.length = k+1 → s.prev = some (.thread (turn s.count k))
  first : s.assigned = [] → s.prev = none
  assigned : s.assigned = (List.range s.assigned.length).map (turn s.count)

theorem InTurn.next {s : Server} (h : InTurn s) :
    s.nextThread = .thread (turn s.count s.assigned.length) := by
  have hlen : 0 < ((List.range s.count).reverse.map SrvNode.thread).length := by simpa using h.pos
  rcases Nat.eq_zero_or_eq_succ_pred s.assigned.length with h0 | hk
  · have hfirst := next_head h.ring hlen
    rw [Server.nextThread,h.first (List.length_eq_zero_iff.mp h0),h0,turn,Nat.zero_mod]
    simpa using hfirst
  · have hnext := nextCircular_turn h.ring (Nat.mod_lt (s.assigned.length-1) hlen) (Nat.mod_lt _ hlen)
    rw [Server.nextThread,h.prev _ hk,hk]
    simpa [turn,← hk] using hnext

/-- The variable is freed, whatever it holds. -/
theorem ioCb_fault (s : Server) (bind : BindKind) {a : Arrival} {fd p : ℕ} (hacc : a.accept = some fd)
    (hnb : a.nonblocking) (hnd : a.nodelay) (hconn : a.conn = .failed (some p)) :
    s.ioCb bind a = .error .fault := by
  have hnat : (fd : ℤ) ≠ -1 := by omega
  simp [Server.ioCb,socketAcceptFd,hacc,hnb,hnd,hconn,hnat]

/-- What `io_cb` does, by how far it comes. -/
theorem ioCb_cases (s : Server) (bind : BindKind) (a : Arrival) :
    (∃ fds, s.ioCb bind a = .ok {s with fds := fds} ∧
      ((a.accept = none ∧ fds = s.fds) ∨
        ∃ fd, a.accept = some fd ∧ fds = s.fds ++ [.opened fd,.closed fd])) ∨
    (∃ fd p, a.accept = some fd ∧ a.nonblocking ∧ a.nodelay ∧ a.conn = .failed (some p) ∧
      s.ioCb bind a = .error .fault) ∨
    ∃ fd id, a.accept = some fd ∧ a.conn = .made id ∧
      s.ioCb bind a = {s with fds := s.fds ++ [FdEvent.opened fd]}.assign ⟨id,fd,bind,0⟩ := by
  have hopen (fd : ℕ) : fdClose fd (s.fds ++ [.opened fd]) = s.fds ++ [.opened fd,.closed fd] := by
    simp [fdClose]
  have hclosed (fds : List FdEvent) : fdClose (-1) fds = fds := rfl
  have hnat (fd : ℕ) : (fd : ℤ) ≠ -1 := by omega
  unfold Server.ioCb socketAcceptFd
  cases hacc : a.accept with
  | none => exact Or.inl ⟨s.fds,by simp [hclosed],Or.inl ⟨rfl,rfl⟩⟩
  | some fd =>
    have hend : ∃ g, some fd = some g ∧ fdClose fd (s.fds ++ [.opened fd]) =
      s.fds ++ [.opened g,.closed g] := ⟨fd,rfl,hopen fd⟩
    by_cases hnb : a.nonblocking
    · by_cases hnd : a.nodelay
      · simp only [hnb,hnd,not_true,if_false,ne_eq,hnat,or_self]
        cases hconn : a.conn with
        | failed n =>
          cases n with
          | none => exact Or.inl ⟨_,rfl,Or.inr hend⟩
          | some p => exact Or.inr (Or.inl ⟨fd,p,rfl,trivial,trivial,rfl,rfl⟩)
        | made id =>
          by_cases hinet : a.inet
          · refine Or.inr (Or.inr ⟨fd,id,rfl,rfl,?_⟩)
            simp [socketSetSockaddr,hinet]
          · refine Or.inl ⟨_,?_,Or.inr hend⟩
            simp [socketSetSockaddr,hinet,connectionFree,hclosed]
      · refine Or.inl ⟨_,?_,Or.inr hend⟩
        simp [hnb,hnd,hclosed]
    · refine Or.inl ⟨_,?_,Or.inr hend⟩
      simp [hnb,hclosed]

theorem serverInit_inTurn {sysconf : ℤ} {s : Server} (hr : -1 ≤ sysconf)
    (h : serverInit sysconf = some s) : InTurn s := by
  obtain ⟨ncpus,hn,rfl⟩ := Option.map_eq_some_iff.mp h
  have hpos : 0 < ncpus := by
    simp only [dccNcpus] at hn
    split_ifs at hn <;> cases hn <;> omega
  exact ⟨Int.lt_toNat.mpr (by omega),initThreads_ring _,fun k hk => by simp at hk,fun _ => rfl,rfl⟩

/-! Who has a connection and its descriptor. -/

/-- Every open descriptor is the socket of one connection, and every connection is with its own
thread; at most one signal is still to be sent. -/
structure Owned (s : Server) : Prop extends InTurn s where
  ids : (s.conns.map (·.id)).Nodup
  sockets : (s.conns.map (·.socket)).Nodup
  valid : ∀ k ∈ s.conns, ∃ fd : ℕ, k.socket = fd
  place : ∀ k ∈ s.conns, k.thread < s.count
  open_eq : ∀ fd : ℕ, s.fds.count (.opened fd) =
    s.fds.count (.closed fd)+(s.conns.map (·.socket)).count (fd : ℤ)
  handed : ∀ i, ∃ t, HandedOver (s.lists i) t
  held : ∀ i c, c ∈ (s.lists i).conns ↔ ∃ k ∈ s.conns, k.id = c ∧ k.thread = i
  unsent : ∀ i, (s.lists i).unsent = if s.sending = some i then 1 else 0

variable {s s' : Server}

theorem serverInit_owned {sysconf : ℤ} (hr : -1 ≤ sysconf) (h : serverInit sysconf = some s) :
    Owned s := by
  have hturn := serverInit_inTurn hr h
  obtain ⟨ncpus,hn,rfl⟩ := Option.map_eq_some_iff.mp h
  exact ⟨hturn,List.nodup_nil,List.nodup_nil,by simp,by simp,fun _ => rfl,
    fun _ => ⟨_,new_handedOver⟩,fun i c => by simp [ThreadLists.new],fun _ => rfl⟩

/-- A descriptor that is opened and closed again changes nothing. -/
theorem Owned.withFds (h : Owned s) {fds : List FdEvent}
    (hfds : fds = s.fds ∨ ∃ fd, fds = s.fds ++ [.opened fd,.closed fd]) :
    Owned {s with fds := fds} := by
  refine ⟨⟨h.pos,h.ring,h.prev,h.first,h.assigned⟩,h.ids,h.sockets,h.valid,h.place,fun fd => ?_,
    h.handed,h.held,h.unsent⟩
  have hopen := h.open_eq fd
  rcases hfds with rfl | ⟨g,rfl⟩
  · exact hopen
  · simp only [List.count_append,List.count_cons,List.count_nil,beq_iff_eq,FdEvent.opened.injEq,
      FdEvent.closed.injEq,reduceCtorEq,if_false]
    omega

theorem InTurn.assign_eq (h : InTurn s) (conn : SrvConn) :
    s.assign conn = .ok (s.threadAddConn (turn s.count s.assigned.length) conn) := by
  rw [Server.assign,h.next]

theorem InTurn.threadAddConn (h : InTurn s) (conn : SrvConn) :
    InTurn (s.threadAddConn (turn s.count s.assigned.length) conn) := by
  refine ⟨h.pos,h.ring,fun k hk => ?_,by simp [Server.threadAddConn],?_⟩
  · simp only [Server.threadAddConn,List.length_append,List.length_singleton] at hk ⊢
    rw [Nat.succ.inj hk]
  · simp only [Server.threadAddConn,List.length_append,List.length_singleton,List.range_succ,
      List.map_append,← h.assigned]
    rfl

/-- The connection of a new descriptor is put into the lists of the thread whose turn it is. -/
theorem Owned.assign (h : Owned s) {id fd : ℕ} (bind : BindKind) (hid : id ∉ s.conns.map (·.id))
    (hfd : (fd : ℤ) ∉ s.conns.map (·.socket)) (hsent : s.sending = none) :
    ∃ s', {s with fds := s.fds ++ [FdEvent.opened fd]}.assign ⟨id,fd,bind,0⟩ = .ok s' ∧
      Owned s' := by
  have hturn : InTurn {s with fds := s.fds ++ [FdEvent.opened fd]} :=
    ⟨h.pos,h.ring,h.prev,h.first,h.assigned⟩
  have hlt : turn s.count s.assigned.length < s.count := by
    have hpos := h.pos
    simp only [turn]
    omega
  refine ⟨_,hturn.assign_eq _,hturn.threadAddConn _,?_,?_,?_,?_,fun g => ?_,fun i => ?_,
    fun i c => ?_,fun i => ?_⟩
  · exact List.nodup_cons.mpr ⟨hid,h.ids⟩
  · exact List.nodup_cons.mpr ⟨hfd,h.sockets⟩
  · exact List.forall_mem_cons.mpr ⟨⟨fd,rfl⟩,h.valid⟩
  · exact List.forall_mem_cons.mpr ⟨hlt,h.place⟩
  · have hopen := h.open_eq g
    simp only [Server.threadAddConn_fds,Server.threadAddConn_conns,List.count_append,
      List.count_cons,List.count_nil,List.map_cons,beq_iff_eq,FdEvent.opened.injEq,reduceCtorEq,
      if_false,Nat.cast_inj]
    omega
  all_goals
    have hnew : id ∉ (s.lists (turn s.count s.assigned.length)).conns := by
      rw [h.held]
      rintro ⟨k,hk,rfl,_⟩
      exact hid (List.mem_map_of_mem hk)
    simp only [Server.threadAddConn_lists,Server.threadAddConn_conns,Server.threadAddConn_sending]
    by_cases hi : i = turn s.count s.assigned.length
  · obtain ⟨t,ht⟩ := h.handed i
    subst hi
    rw [Function.update_self]
    exact ⟨_,listsStep_handedOver (a:=.addConn id) ht (by simp [listsStep,hnew])⟩
  · rw [Function.update_of_ne hi]
    exact h.handed i
  · subst hi
    simp only [Function.update_self,ThreadLists.addConn,List.mem_cons,h.held]
    simp [eq_comm]
  · simp only [Function.update_of_ne hi,h.held,List.mem_cons]
    simp [Ne.symm hi]
  · have hzero := h.unsent i
    rw [hsent,if_neg (by simp)] at hzero
    subst hi
    simp [ThreadLists.addConn,hzero]
  · have hzero := h.unsent i
    rw [hsent,if_neg (by simp)] at hzero
    simp [Function.update_of_ne hi,Ne.symm hi,hzero]

/-- A step of a thread that neither takes nor gives up a connection, nor sends the signal. -/
theorem listsStep_keeps {l l' : ThreadLists} {act : ListsAct} (hs : listsStep l act = some l')
    (hadd : ∀ c, act ≠ .addConn c) (hsend : act ≠ .asyncSend) (hfree : ∀ c, act ≠ .recycleConn c) :
    l'.conns = l.conns ∧ l'.unsent = l.unsent := by
  cases act with
  | addConn c => exact absurd rfl (hadd c)
  | asyncSend => exact absurd rfl hsend
  | recycleConn c => exact absurd rfl (hfree c)
  | newConnCb =>
    simp only [listsStep,ThreadLists.newConnCb] at hs
    split_ifs at hs
    obtain ⟨_,_,rfl⟩ := Option.map_eq_some_iff.mp hs
    exact ⟨rfl,rfl⟩
  | callbackBegin | callbackEnd | moveToPolling | moveToActive =>
    simp only [listsStep] at hs
    split_ifs at hs
    cases hs
    exact ⟨rfl,rfl⟩

theorem Owned.keeps (h : Owned s) {i : ℕ} {act : ListsAct} {l : ThreadLists}
    (hs : listsStep (s.lists i) act = some l) (hadd : ∀ c, act ≠ .addConn c)
    (hsend : act ≠ .asyncSend) (hfree : ∀ c, act ≠ .recycleConn c) :
    Owned {s with lists := Function.update s.lists i l} := by
  obtain ⟨hconns,hunsent⟩ := listsStep_keeps hs hadd hsend hfree
  refine ⟨⟨h.pos,h.ring,h.prev,h.first,h.assigned⟩,h.ids,h.sockets,h.valid,h.place,h.open_eq,
    fun j => ?_,fun j c => ?_,fun j => ?_⟩
  all_goals
    dsimp only
    by_cases hj : j = i
  · obtain ⟨t,ht⟩ := h.handed i
    rw [hj,Function.update_self]
    exact ⟨_,listsStep_handedOver ht hs⟩
  · rw [Function.update_of_ne hj]
    exact h.handed j
  · rw [hj,Function.update_self,hconns]
    exact h.held i c
  · rw [Function.update_of_ne hj]
    exact h.held j c
  · rw [hj,Function.update_self,hunsent]
    exact h.unsent i
  · rw [Function.update_of_ne hj]
    exact h.unsent j

/-- The signal of the last connection is sent. -/
theorem Owned.sends (h : Owned s) {i : ℕ} {l : ThreadLists} (hi : s.sending = some i)
    (hs : listsStep (s.lists i) .asyncSend = some l) :
    Owned {s with lists := Function.update s.lists i l, sending := none} := by
  obtain ⟨t,ht⟩ := h.handed i
  have hnext := listsStep_handedOver ht hs
  have hone := h.unsent i
  rw [hi,if_pos rfl] at hone
  simp only [listsStep,hone] at hs
  cases hs
  refine ⟨⟨h.pos,h.ring,h.prev,h.first,h.assigned⟩,h.ids,h.sockets,h.valid,h.place,h.open_eq,
    fun j => ?_,fun j c => ?_,fun j => ?_⟩
  all_goals
    dsimp only
    by_cases hj : j = i
  · rw [hj,Function.update_self]
    exact ⟨_,hnext⟩
  · rw [Function.update_of_ne hj]
    exact h.handed j
  · rw [hj,Function.update_self]
    exact h.held i c
  · rw [Function.update_of_ne hj]
    exact h.held j c
  · rw [hj,Function.update_self]
    rfl
  · have hzero := h.unsent j
    rw [hi,if_neg (by simpa using Ne.symm hj)] at hzero
    rw [Function.update_of_ne hj]
    exact hzero

/-- A thread frees a connection that it has, and with it the descriptor is closed. -/
theorem Owned.frees (h : Owned s) {i c : ℕ} {l : ThreadLists}
    (hs : listsStep (s.lists i) (.recycleConn c) = some l) :
    Owned {s.free c with lists := Function.update s.lists i l} := by
  obtain ⟨t,ht⟩ := h.handed i
  have hnext := listsStep_handedOver ht hs
  have hnd := ht.conns_nodup
  simp only [listsStep] at hs
  split_ifs at hs with hc
  cases hs
  have hmem : c ∈ (s.lists i).conns := by
    obtain ⟨_,hl,hm⟩ := ht.listed hc
    exact ht.mem_conns.mpr (Thread.mem_lists.mp ⟨_,hl,hm⟩)
  obtain ⟨k,hk,rfl,rfl⟩ := (h.held i c).mp hmem
  have hfind : s.conns.find? (·.id = k.id) = some k := by
    cases hf : s.conns.find? (·.id = k.id) with
    | none => simpa using List.find?_eq_none.mp hf k hk
    | some k' =>
      have hid : k'.id = k.id := by simpa using List.find?_some hf
      rw [List.inj_on_of_nodup_map h.ids (List.mem_of_find?_eq_some hf) hk hid]
  obtain ⟨fd,hfd⟩ := h.valid k hk
  have hperm := List.perm_cons_erase hk
  have hids := (hperm.map (·.id)).nodup_iff.mp h.ids
  have hsocks := (hperm.map (·.socket)).nodup_iff.mp h.sockets
  have hfree : s.free k.id = {s with conns := s.conns.erase k, fds := s.fds ++ [.closed fd]} := by
    simp [Server.free,hfind,connectionFree,fdClose,hfd]
  rw [hfree]
  rw [List.map_cons,List.nodup_cons] at hids hsocks
  refine ⟨⟨h.pos,h.ring,h.prev,h.first,h.assigned⟩,hids.2,hsocks.2,
    fun k' hk' => h.valid k' (List.mem_of_mem_erase hk'),
    fun k' hk' => h.place k' (List.mem_of_mem_erase hk'),fun g => ?_,fun j => ?_,fun j c => ?_,
    fun j => ?_⟩
  · have hopen := h.open_eq g
    rw [(hperm.map (·.socket)).count_eq,List.map_cons,hfd] at hopen
    simp only [List.count_append,List.count_cons,List.count_nil,beq_iff_eq,FdEvent.closed.injEq,
      reduceCtorEq,if_false,Nat.cast_inj] at hopen ⊢
    omega
  all_goals
    dsimp only
    by_cases hj : j = k.thread
  · rw [hj,Function.update_self]
    exact ⟨_,hnext⟩
  · rw [Function.update_of_ne hj]
    exact h.handed j
  · -- the addresses differ, so that it is the only one that is gone
    rw [hj,Function.update_self]
    simp only [ThreadLists.recycleConn,hnd.mem_erase_iff,h.held]
    constructor
    · rintro ⟨hne,k',hk',rfl,hth⟩
      exact ⟨k',(List.mem_erase_of_ne (fun he => hne (by rw [he]))).mpr hk',rfl,hth⟩
    · rintro ⟨k',hk',rfl,hth⟩
      exact ⟨fun he => hids.1 (he ▸ List.mem_map_of_mem hk'),k',List.mem_of_mem_erase hk',rfl,hth⟩
  · rw [Function.update_of_ne hj,h.held]
    refine exists_congr fun k' => and_congr_left fun hk' => ?_
    exact (List.mem_erase_of_ne (fun he => hj (by rw [← hk'.2,he]))).symm
  · rw [hj,Function.update_self]
    exact h.unsent k.thread
  · rw [Function.update_of_ne hj]
    exact h.unsent j

/-- Every step of the server keeps the connections and the descriptors in order. -/
theorem serverStep_owned {a : ServerAct} (h : Owned s) (hs : serverStep s a = some s') : Owned s' := by
  cases a with
  | ioCb bind a =>
    simp only [serverStep] at hs
    split_ifs at hs with hready
    obtain ⟨hsent,hfresh⟩ := hready
    rcases ioCb_cases s bind a with ⟨fds,hrun,hfds⟩ | ⟨fd,p,_,_,_,_,hrun⟩ | ⟨fd,id,hfd,hid,hrun⟩
    · rw [hrun] at hs
      cases hs
      refine h.withFds ?_
      rcases hfds with ⟨_,rfl⟩ | ⟨fd,_,rfl⟩
      · exact Or.inl rfl
      · exact Or.inr ⟨fd,rfl⟩
    · rw [hrun] at hs
      cases hs
    · simp only [Server.fresh,hfd,hid,Bool.and_eq_true,decide_eq_true_eq] at hfresh
      obtain ⟨s'',hassign,howned⟩ := h.assign bind hfresh.2 hfresh.1 hsent
      rw [hrun,hassign] at hs
      cases hs
      exact howned
  | asyncSend =>
    obtain ⟨i,hi,hmap⟩ := Option.bind_eq_some_iff.mp hs
    obtain ⟨l,hl,rfl⟩ := Option.map_eq_some_iff.mp hmap
    exact h.sends hi hl
  | thread i act =>
    cases act with
    | addConn c => cases hs
    | asyncSend => cases hs
    | recycleConn c =>
      simp only [serverStep] at hs
      split_ifs at hs
      obtain ⟨l,hl,rfl⟩ := Option.map_eq_some_iff.mp hs
      exact h.frees hl
    | callbackBegin | newConnCb | callbackEnd | moveToPolling | moveToActive =>
      simp only [serverStep] at hs
      split_ifs at hs
      obtain ⟨l,hl,rfl⟩ := Option.map_eq_some_iff.mp hs
      exact h.keeps hl (by simp) (by simp) (by simp)

theorem run_owned {sysconf : ℤ} {s₀ : Server} {acts : List ServerAct} (hr : -1 ≤ sysconf)
    (h0 : serverInit sysconf = some s₀) (h : run serverStep s₀ acts = some s) : Owned s :=
  run_invariant Owned (fun _ _ _ hs ha => serverStep_owned hs ha) (serverInit_owned hr h0) h

/-- However the threads interleave, the connections go to the threads in turn, the last one first,
so that no thread has been given two more than another. -/
theorem dispatched_in_turn {sysconf : ℤ} {s₀ : Server} {acts : List ServerAct} (hr : -1 ≤ sysconf)
    (h0 : serverInit sysconf = some s₀) (h : run serverStep s₀ acts = some s) :
    s.assigned = (List.range s.assigned.length).map (turn s.count) ∧
      ∀ i < s.count, s.assigned.count i = s.assigned.length/s.count+
        if s.count-1-i < s.assigned.length % s.count then 1 else 0 := by
  have howned := run_owned hr h0 h
  refine ⟨howned.assigned,fun i hi => ?_⟩
  have hcount := count_turns s.assigned.length (by omega : s.count-1-i < s.count)
  rw [← hcount]
  conv_lhs => rw [howned.assigned]
  rw [List.count,List.count,List.countP_map,List.countP_map]
  refine List.countP_congr fun k _ => ?_
  have hmod := Nat.mod_lt k howned.pos
  simp only [Function.comp,beq_iff_eq,turn]
  omega

/-- Three connections for two threads, and one that fails. The first is recycled, and the third has
its descriptor and its address. -/
def threeArrivals : List ServerAct :=
  [.ioCb ⟨false,true⟩ ⟨some 7,true,true,.made 1,true⟩,.asyncSend,.thread 1 .callbackBegin,
    .ioCb ⟨false,true⟩ ⟨some 8,true,false,.made 2,true⟩,
    .ioCb ⟨true,false⟩ ⟨some 8,true,true,.made 2,true⟩,.thread 1 .newConnCb,.asyncSend,
    .thread 1 (.recycleConn 1),.ioCb ⟨false,true⟩ ⟨some 7,true,true,.made 1,true⟩]

theorem threeArrivals_run : ∃ s₀ s, serverInit 1 = some s₀ ∧
    run serverStep s₀ threeArrivals = some s := by
  obtain ⟨s,hs⟩ := Option.isSome_iff_exists.mp
    (by decide : ((serverInit 1).bind (run serverStep · threeArrivals)).isSome = true)
  exact ⟨_,s,rfl,hs⟩

theorem dispatched_in_turn_two : ∃ s₀ s, serverInit 1 = some s₀ ∧
    run serverStep s₀ threeArrivals = some s ∧
    s.assigned = (List.range s.assigned.length).map (turn s.count) ∧
      ∀ i < s.count, s.assigned.count i = s.assigned.length/s.count+
        if s.count-1-i < s.assigned.length % s.count then 1 else 0 := by
  obtain ⟨s₀,s,h0,h⟩ := threeArrivals_run
  exact ⟨s₀,s,h0,h,dispatched_in_turn (by decide) h0 h⟩

/-- However the threads interleave, a descriptor that was opened and not closed is the socket of
exactly one connection; that connection is in one list of one thread, and while it is new its thread
has a signal to answer. -/
theorem dispatched_owned {sysconf : ℤ} {s₀ : Server} {acts : List ServerAct} (hr : -1 ≤ sysconf)
    (h0 : serverInit sysconf = some s₀) (h : run serverStep s₀ acts = some s) :
    (∀ fd : ℕ, s.fds.count (.opened fd) = s.fds.count (.closed fd)+
      if ∃ k ∈ s.conns, k.socket = fd then 1 else 0) ∧
    (∀ k ∈ s.conns, ∀ k' ∈ s.conns, k.socket = k'.socket → k = k') ∧
    (∀ k ∈ s.conns, k.thread < s.count ∧ ∀ i, k.id ∈ (s.lists i).conns ↔ i = k.thread) ∧
    ∀ i, ∃ newConns polling active, NoneLost (s.lists i) newConns polling active ∧
      (newConns ≠ [] → s.sending ≠ some i →
        (s.lists i).pending = true ∨ (s.lists i).callback = .called) := by
  have howned := run_owned hr h0 h
  refine ⟨fun fd => ?_,fun k hk k' hk' heq => List.inj_on_of_nodup_map howned.sockets hk hk' heq,
    fun k hk => ⟨howned.place k hk,fun i => ?_⟩,fun i => ?_⟩
  · rw [howned.open_eq fd]
    congr 1
    split_ifs with hex
    · obtain ⟨k,hk,heq⟩ := hex
      exact List.count_eq_one_of_mem howned.sockets (heq ▸ List.mem_map_of_mem hk)
    · refine List.count_eq_zero_of_not_mem fun hm => hex ?_
      obtain ⟨k,hk,heq⟩ := List.mem_map.mp hm
      exact ⟨k,hk,heq⟩
  · rw [howned.held]
    constructor
    · rintro ⟨k',hk',hid,rfl⟩
      rw [List.inj_on_of_nodup_map howned.ids hk' hk hid]
    · rintro rfl
      exact ⟨k,hk,rfl,rfl⟩
  · obtain ⟨t,ht⟩ := howned.handed i
    refine ⟨t.newConns,t.polling,t.active,ht.noneLost,fun hne hsent => ht.woken hne ?_⟩
    rw [howned.unsent,if_neg hsent]

theorem dispatched_owned_two : ∃ s₀ s, serverInit 1 = some s₀ ∧
    run serverStep s₀ threeArrivals = some s ∧
    (∀ fd : ℕ, s.fds.count (.opened fd) = s.fds.count (.closed fd)+
      if ∃ k ∈ s.conns, k.socket = fd then 1 else 0) ∧
    (∀ k ∈ s.conns, ∀ k' ∈ s.conns, k.socket = k'.socket → k = k') ∧
    (∀ k ∈ s.conns, k.thread < s.count ∧ ∀ i, k.id ∈ (s.lists i).conns ↔ i = k.thread) ∧
    ∀ i, ∃ newConns polling active, NoneLost (s.lists i) newConns polling active ∧
      (newConns ≠ [] → s.sending ≠ some i →
        (s.lists i).pending = true ∨ (s.lists i).callback = .called) := by
  obtain ⟨s₀,s,h0,h⟩ := threeArrivals_run
  exact ⟨s₀,s,h0,h,dispatched_owned (by decide) h0 h⟩

/-- In every state that is reached, `io_cb` goes wrong for a connection that could not be made and
whose variable held something, and for nothing else. -/
theorem ioCb_fault_iff {sysconf : ℤ} {s₀ : Server} {acts : List ServerAct} (hr : -1 ≤ sysconf)
    (h0 : serverInit sysconf = some s₀) (h : run serverStep s₀ acts = some s) (bind : BindKind)
    (a : Arrival) : s.ioCb bind a = .error .fault ↔
      (∃ fd, a.accept = some fd) ∧ a.nonblocking ∧ a.nodelay ∧ ∃ p, a.conn = .failed (some p) := by
  have hturn := (run_owned hr h0 h).toInTurn
  refine ⟨fun hfault => ?_,?_⟩
  · rcases ioCb_cases s bind a with ⟨fds,hrun,_⟩ | ⟨fd,p,hacc,hnb,hnd,hconn,_⟩ | ⟨fd,id,_,_,hrun⟩
    · rw [hrun] at hfault
      cases hfault
    · exact ⟨⟨fd,hacc⟩,hnb,hnd,p,hconn⟩
    · have hopened : InTurn {s with fds := s.fds ++ [FdEvent.opened fd]} :=
        ⟨hturn.pos,hturn.ring,hturn.prev,hturn.first,hturn.assigned⟩
      rw [hrun,hopened.assign_eq] at hfault
      cases hfault
  · rintro ⟨⟨fd,hacc⟩,hnb,hnd,p,hconn⟩
    exact ioCb_fault s bind hacc hnb hnd hconn

theorem ioCb_fault_iff_two : ∃ s₀ s, serverInit 1 = some s₀ ∧
    run serverStep s₀ threeArrivals = some s ∧
    (s.ioCb ⟨true,true⟩ ⟨some 9,true,true,.failed (some 5),true⟩ = .error .fault ↔
      (∃ fd, some 9 = some fd) ∧ true ∧ true ∧ ∃ p, NewConn.failed (some 5) = .failed (some p)) := by
  obtain ⟨s₀,s,h0,h⟩ := threeArrivals_run
  exact ⟨s₀,s,h0,h,ioCb_fault_iff (by decide) h0 h _ _⟩

end Http2d
