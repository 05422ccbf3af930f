import Http2d.Thread
import Http2d.Library.IntrusiveList

/-! The lists of a thread, link by link, and the hand-over of new connections.
The listener puts a connection into a list that it shares with the thread and then sends a signal;
signals that were not answered yet are one. -/
namespace Http2d

open IntrusiveList Transition

/-- A node: the head of one of the three lists, or the `listed` field of a connection. -/
inductive ThreadNode
  | newConns | polling | active | conn (c : ℕ)
  deriving DecidableEq, Repr

/-- Where `new_conn_cb` is: in front of its critical section or behind it. -/
inductive Callback
  | idle | called | moved
  deriving DecidableEq, Repr

/-- The memory of the lists and the state of the signal. `conns` are the connections that were added
and not recycled, and `unsent` is the number of `http2d_thread_add_conn` calls between their unlock
and their `ev_async_send`. -/
structure ThreadLists where
  links : Links ThreadNode
  conns : List ℕ
  unsent : ℕ
  pending : Bool
  callback : Callback

namespace ThreadLists

/-- `http2d_thread_new`. -/
def new : ThreadLists :=
  ⟨(((⟨id,id⟩ : Links ThreadNode).init .active).init .polling).init .newConns,[],0,false,.idle⟩

/-- The members of a list, as a loop over it meets them. -/
def members (t : ThreadLists) (h : ThreadNode) : List ThreadNode :=
  t.links.walk h t.conns.length (t.links.next h)

/-- The critical section of `http2d_thread_add_conn`. -/
def addConn (t : ThreadLists) (c : ℕ) : ThreadLists :=
  {t with links := t.links.add (.conn c) .newConns, conns := c::t.conns, unsent := t.unsent+1}

/-- `http2d_connection_move_to_polling`, `http2d_connection_move_to_active`. -/
def moveToPolling (t : ThreadLists) (c : ℕ) : ThreadLists :=
  {t with links := t.links.move (.conn c) .polling}

def moveToActive (t : ThreadLists) (c : ℕ) : ThreadLists :=
  {t with links := t.links.move (.conn c) .active}

/-- `http2d_thread_recycle_conn`. -/
def recycleConn (t : ThreadLists) (c : ℕ) : ThreadLists :=
  {t with links := t.links.del (.conn c), conns := t.conns.erase c}

/-- The critical section of `new_conn_cb`. -/
def newConnCb (t : ThreadLists) : Option ThreadLists :=
  (WhileLoop.run (forEachSafe (fun n m => m.move n .polling) .newConns) (t.conns.length+1)
    (t.links,t.links.next .newConns,t.links.next (t.links.next .newConns))).map fun links =>
      {t with links := links, callback := .moved}

end ThreadLists

/-- What the threads do. A new connection can have the address of one that was recycled. -/
inductive ListsAct
  | addConn (c : ℕ)
  | asyncSend
  | callbackBegin
  | newConnCb
  | callbackEnd
  | moveToPolling (c : ℕ)
  | moveToActive (c : ℕ)
  | recycleConn (c : ℕ)
  deriving DecidableEq, Repr

/-- The thread moves and recycles connections that it works on or polls, and it makes those active
that it polls. -/
def listsStep (t : ThreadLists) : ListsAct → Option ThreadLists
  | .addConn c => if c ∈ t.conns then none else some (t.addConn c)
  | .asyncSend => if t.unsent = 0 then none else some {t with unsent := t.unsent-1, pending := true}
  | .callbackBegin =>
    if t.callback = .idle then some {t with pending := false, callback := .called} else none
  | .newConnCb => if t.callback = .called then t.newConnCb else none
  | .callbackEnd => if t.callback = .moved then some {t with callback := .idle} else none
  | .moveToPolling c => if .conn c ∈ t.members .active ∨ .conn c ∈ t.members .polling then
      some (t.moveToPolling c) else none
  | .moveToActive c => if .conn c ∈ t.members .polling then some (t.moveToActive c) else none
  | .recycleConn c => if .conn c ∈ t.members .active ∨ .conn c ∈ t.members .polling then
      some (t.recycleConn c) else none

/-- The same on the lists themselves. -/
def ListsAct.onThread (t : Thread) : ListsAct → Thread
  | .addConn c => {t with newConns := c::t.newConns}
  | .newConnCb => Http2d.newConnCb t t.newConns
  | .moveToPolling c => t.moveToPolling c
  | .moveToActive c => t.moveToActive c
  | .recycleConn c => t.recycleConn c
  | _ => t

def threadHeads : List ThreadNode := [.newConns,.polling,.active]

/-- The members of the lists as nodes. -/
def Thread.items (t : Thread) : ThreadNode → List ThreadNode
  | .newConns => t.newConns.map .conn
  | .polling => t.polling.map .conn
  | .active => t.active.map .conn
  | .conn _ => []

/-- The links show the lists of the thread, in which every connection is that was added and not
recycled. -/
structure ShowsThread (s : ThreadLists) (t : Thread) : Prop where
  rings : Rings s.links threadHeads t.items
  conns : s.conns.Perm (t.newConns ++ t.polling ++ t.active)

theorem conn_injective : Function.Injective ThreadNode.conn := fun _ _ h => ThreadNode.conn.inj h

theorem Thread.mem_items {t : Thread} {h n : ThreadNode} (hn : n ∈ t.items h) :
    ∃ c, n = .conn c ∧ (h = .newConns ∧ c ∈ t.newConns ∨ h = .polling ∧ c ∈ t.polling ∨
      h = .active ∧ c ∈ t.active) := by
  cases h with
  | newConns =>
    obtain ⟨c,hc,rfl⟩ := List.mem_map.mp hn
    exact ⟨c,rfl,Or.inl ⟨rfl,hc⟩⟩
  | polling =>
    obtain ⟨c,hc,rfl⟩ := List.mem_map.mp hn
    exact ⟨c,rfl,Or.inr (Or.inl ⟨rfl,hc⟩)⟩
  | active =>
    obtain ⟨c,hc,rfl⟩ := List.mem_map.mp hn
    exact ⟨c,rfl,Or.inr (Or.inr ⟨rfl,hc⟩)⟩
  | conn c => cases hn

theorem Thread.mem_lists {t : Thread} {c : ℕ} : (∃ l ∈ threadHeads, .conn c ∈ t.items l) ↔
    c ∈ t.newConns ∨ c ∈ t.polling ∨ c ∈ t.active := by
  simp [threadHeads,Thread.items]

section Lists

variable {s s' : ThreadLists} {t : Thread} {c : ℕ}

theorem rings_nodup {m : Links ThreadNode} (hr : Rings m threadHeads t.items) :
    (t.newConns ++ t.polling ++ t.active).Nodup := by
  have hmem (l : ThreadNode) (hl : l = .newConns ∨ l = .polling ∨ l = .active) : l ∈ threadHeads := by
    simpa [threadHeads] using hl
  have hdis (k l : ThreadNode) (hk : k ∈ threadHeads) (hl : l ∈ threadHeads) (hkl : k ≠ l) (x : ℕ)
      (hx : .conn x ∈ t.items k) (hx' : .conn x ∈ t.items l) : False :=
    hr.disjoint k hk l hl hkl (List.mem_cons_of_mem _ hx) (List.mem_cons_of_mem _ hx')
  have hn := hmem .newConns (by simp)
  have hp := hmem .polling (by simp)
  have ha := hmem .active (by simp)
  refine List.nodup_append.mpr ⟨List.nodup_append.mpr ⟨(hr.ring _ hn).members_nodup.of_map,
    (hr.ring _ hp).members_nodup.of_map,?_⟩,(hr.ring _ ha).members_nodup.of_map,?_⟩
  · rintro x hx y hy rfl
    exact hdis _ _ hn hp (by decide) x (List.mem_map_of_mem hx) (List.mem_map_of_mem hy)
  · rintro x hx y hy rfl
    rcases List.mem_append.mp hx with hx | hx
    · exact hdis _ _ hn ha (by decide) x (List.mem_map_of_mem hx) (List.mem_map_of_mem hy)
    · exact hdis _ _ hp ha (by decide) x (List.mem_map_of_mem hx) (List.mem_map_of_mem hy)

theorem map_filter_ne {xs : List ℕ} (h : xs.Nodup) (c : ℕ) :
    (xs.filter (· ≠ c)).map ThreadNode.conn = (xs.map ThreadNode.conn).erase (.conn c) := by
  rw [← List.map_erase conn_injective,h.erase_eq_filter]
  congr 1
  exact List.filter_congr fun x _ => by simp [bne,beq_eq_decide]

/-- Unlinking takes the connection out of whatever list it is in. -/
theorem ShowsThread.items_unlink (h : ShowsThread s t) (c : ℕ) (l : ThreadNode) :
    (t.unlink c).items l = (t.items l).erase (.conn c) := by
  obtain ⟨hnp,ha,_⟩ := List.nodup_append.mp (rings_nodup h.rings)
  obtain ⟨hn,hp,_⟩ := List.nodup_append.mp hnp
  cases l with
  | newConns => exact map_filter_ne hn c
  | polling => exact map_filter_ne hp c
  | active => exact map_filter_ne ha c
  | conn _ => rfl

/-- The members that a loop meets are those of the list. -/
theorem ShowsThread.members_eq (h : ShowsThread s t) {l : ThreadNode} (hl : l ∈ threadHeads) :
    s.members l = t.items l := by
  have hring := h.rings.ring l hl
  refine hring.linked.walk hring.head_notMem ?_
  have hlen := h.conns.length_eq
  simp only [List.length_append] at hlen
  cases l with
  | newConns => simp only [Thread.items,List.length_map]; omega
  | polling => simp only [Thread.items,List.length_map]; omega
  | active => simp only [Thread.items,List.length_map]; omega
  | conn _ => simp [Thread.items]

/-- A connection of the thread is in the ring of one of its lists. -/
theorem ShowsThread.listed (h : ShowsThread s t)
    (hc : .conn c ∈ s.members .active ∨ .conn c ∈ s.members .polling) :
    ∃ l ∈ threadHeads, .conn c ∈ t.items l := by
  rcases hc with hc | hc
  · exact ⟨.active,by simp [threadHeads],h.members_eq (l:=.active) (by simp [threadHeads]) ▸ hc⟩
  · exact ⟨.polling,by simp [threadHeads],h.members_eq (l:=.polling) (by simp [threadHeads]) ▸ hc⟩

theorem ShowsThread.addConn (h : ShowsThread s t) (hc : c ∉ s.conns) :
    ShowsThread (s.addConn c) {t with newConns := c::t.newConns} := by
  have hout : Outside threadHeads t.items (.conn c) := fun l hl hm => by
    rcases List.mem_cons.mp hm with hm | hm
    · subst hm
      simp [threadHeads] at hl
    · obtain ⟨d,hd,hlist⟩ := Thread.mem_items hm
      obtain rfl := ThreadNode.conn.inj hd
      refine hc (h.conns.mem_iff.mpr ?_)
      simp only [List.mem_append]
      tauto
  have hr := h.rings.add (h:=.newConns) (by simp [threadHeads]) hout
  refine ⟨hr.congr fun l _ => ?_,h.conns.cons c⟩
  cases l <;> rfl

/-- Every connection that was added and not recycled is in a list when the lists have no other
members. -/
theorem showsThread_of_mem {m : Links ThreadNode} {conns : List ℕ} (hr : Rings m threadHeads t.items)
    (hnd : conns.Nodup) (hmem : ∀ c, c ∈ conns ↔ c ∈ t.newConns ∨ c ∈ t.polling ∨ c ∈ t.active)
    (unsent : ℕ) (pending : Bool) (callback : Callback) :
    ShowsThread ⟨m,conns,unsent,pending,callback⟩ t := by
  refine ⟨hr,(List.perm_ext_iff_of_nodup hnd (rings_nodup hr)).mpr fun c => ?_⟩
  rw [hmem,List.mem_append,List.mem_append,or_assoc]

theorem ShowsThread.conns_nodup (h : ShowsThread s t) : s.conns.Nodup :=
  h.conns.nodup_iff.mpr (rings_nodup h.rings)

theorem ShowsThread.mem_conns (h : ShowsThread s t) :
    c ∈ s.conns ↔ c ∈ t.newConns ∨ c ∈ t.polling ∨ c ∈ t.active := by
  rw [h.conns.mem_iff,List.mem_append,List.mem_append,or_assoc]

/-- A connection of one of the other lists goes to the front of a list. -/
theorem ShowsThread.move {t' : Thread} {k : ThreadNode} (h : ShowsThread s t) (hk : k ∈ threadHeads)
    (hc : .conn c ∈ s.members .active ∨ .conn c ∈ s.members .polling)
    (hself : t'.items k = .conn c::(t.unlink c).items k)
    (hother : ∀ l, l ≠ k → t'.items l = (t.unlink c).items l) :
    ShowsThread {s with links := s.links.move (.conn c) k} t' := by
  obtain ⟨l,hl,hmem⟩ := h.listed hc
  have hr : Rings (s.links.move (.conn c) k) threadHeads t'.items := by
    refine (h.rings.move hl hk hmem).congr fun l' _ => ?_
    by_cases hl' : l' = k
    · rw [hl',Function.update_self,hself,h.items_unlink]
    · rw [Function.update_of_ne hl',hother l' hl',h.items_unlink]
  refine showsThread_of_mem hr h.conns_nodup (fun d => ?_) _ _ _
  rw [h.mem_conns,← Thread.mem_lists,← Thread.mem_lists]
  by_cases hd : d = c
  · rw [hd]
    exact iff_of_true ⟨l,hl,hmem⟩ ⟨k,hk,hself ▸ List.mem_cons_self⟩
  · have hne : ThreadNode.conn d ≠ .conn c := fun h => hd (ThreadNode.conn.inj h)
    refine exists_congr fun l' => and_congr_right fun _ => ?_
    by_cases hl' : l' = k
    · rw [hl',hself,h.items_unlink,List.mem_cons,List.mem_erase_of_ne hne,or_iff_right hne]
    · rw [hother l' hl',h.items_unlink,List.mem_erase_of_ne hne]

theorem ShowsThread.moveToPolling (h : ShowsThread s t)
    (hc : .conn c ∈ s.members .active ∨ .conn c ∈ s.members .polling) :
    ShowsThread (s.moveToPolling c) (t.moveToPolling c) :=
  h.move (by simp [threadHeads]) hc rfl fun l hl => by
    cases l <;> first | rfl | exact absurd rfl hl

theorem ShowsThread.moveToActive (h : ShowsThread s t)
    (hc : .conn c ∈ s.members .active ∨ .conn c ∈ s.members .polling) :
    ShowsThread (s.moveToActive c) (t.moveToActive c) :=
  h.move (by simp [threadHeads]) hc rfl fun l hl => by
    cases l <;> first | rfl | exact absurd rfl hl

theorem ShowsThread.recycleConn (h : ShowsThread s t)
    (hc : .conn c ∈ s.members .active ∨ .conn c ∈ s.members .polling) :
    ShowsThread (s.recycleConn c) (t.recycleConn c) := by
  obtain ⟨l,hl,hmem⟩ := h.listed hc
  have hr : Rings (s.links.del (.conn c)) threadHeads (t.recycleConn c).items :=
    (h.rings.del hl hmem).congr fun k _ => (h.items_unlink c k).symm
  refine showsThread_of_mem hr (h.conns_nodup.erase c) (fun d => ?_) _ _ _
  rw [h.conns_nodup.mem_erase_iff,h.mem_conns]
  simp only [Thread.recycleConn,Thread.unlink,List.mem_filter,decide_eq_true_eq]
  tauto

/-- `new_conn_cb` moves connections that are in neither of the other lists. -/
theorem newConnCb_lists {cs : List ℕ} (t : Thread) (hnd : cs.Nodup)
    (hp : ∀ c ∈ cs, c ∉ t.polling) (ha : ∀ c ∈ cs, c ∉ t.active) :
    (Http2d.newConnCb t cs).newConns = t.newConns.filter (· ∉ cs) ∧
      (Http2d.newConnCb t cs).polling = cs.reverse ++ t.polling ∧
      (Http2d.newConnCb t cs).active = t.active := by
  induction cs generalizing t with
  | nil => simp [Http2d.newConnCb]
  | cons c cs ih =>
    obtain ⟨hc,hnd⟩ := List.nodup_cons.mp hnd
    have hpc : t.polling.filter (· ≠ c) = t.polling := List.filter_eq_self.mpr fun x hx =>
      decide_eq_true (ne_of_mem_of_not_mem hx (hp c (by simp)))
    have hac : t.active.filter (· ≠ c) = t.active := List.filter_eq_self.mpr fun x hx =>
      decide_eq_true (ne_of_mem_of_not_mem hx (ha c (by simp)))
    have hmoved : (t.moveToPolling c).polling = c::t.polling := congrArg (c::·) hpc
    have hstay : (t.moveToPolling c).active = t.active := hac
    obtain ⟨h1,h2,h3⟩ := ih (t.moveToPolling c) hnd (fun x hx hm => by
        rw [hmoved] at hm
        rcases List.mem_cons.mp hm with rfl | hm
        · exact hc hx
        · exact hp x (List.mem_cons_of_mem _ hx) hm)
      (fun x hx => hstay ▸ ha x (List.mem_cons_of_mem _ hx))
    rw [Http2d.newConnCb,h1,h2,h3,hmoved,hstay]
    refine ⟨?_,by simp,rfl⟩
    show (t.newConns.filter (· ≠ c)).filter (· ∉ cs) = _
    rw [List.filter_filter]
    exact List.filter_congr fun x _ => by simp [Bool.and_comm]

/-- The loop ends, and the new connections are polled. -/
theorem ShowsThread.newConnCb (h : ShowsThread s t) : ∃ s', s.newConnCb = some s' ∧
    ShowsThread s' (Http2d.newConnCb t t.newConns) ∧ s'.conns = s.conns ∧ s'.unsent = s.unsent ∧
      s'.pending = s.pending ∧ s'.callback = .moved := by
  have hnd := rings_nodup h.rings
  obtain ⟨hnp,_,hdis⟩ := List.nodup_append.mp hnd
  obtain ⟨hn,_,hdis'⟩ := List.nodup_append.mp hnp
  obtain ⟨h1,h2,h3⟩ := newConnCb_lists t hn
    (fun c hc hm => hdis' c hc c hm rfl) (fun c hc hm => hdis c (List.mem_append_left _ hc) c hm rfl)
  obtain ⟨m',hrun,hr⟩ := forEachSafe_move (h:=.newConns) (k:=.polling) h.rings (by simp [threadHeads])
    (by simp [threadHeads]) (by decide)
  have hfuel : (t.items .newConns).length+1 ≤ s.conns.length+1 := by
    have hlen := h.conns.length_eq
    simp only [List.length_append] at hlen
    simp only [Thread.items,List.length_map]
    omega
  have hout : s.newConnCb = some {s with links := m', callback := .moved} := by
    rw [ThreadLists.newConnCb,WhileLoop.run_mono hfuel hrun]
    rfl
  refine ⟨_,hout,?_,rfl,rfl,rfl,rfl⟩
  refine showsThread_of_mem (hr.congr fun k hk => ?_) h.conns_nodup (fun c => ?_) _ _ _
  · cases k with
    | newConns => simp [Thread.items,h1]
    | polling => simp [Thread.items,h2]
    | active => simp [Thread.items,h3]
    | conn _ => simp [threadHeads] at hk
  · rw [h.mem_conns,h1,h2,h3]
    simp
    tauto

/-- One step, link by link and on the lists. -/
theorem listsStep_shows {a : ListsAct} (h : ShowsThread s t) (hs : listsStep s a = some s') :
    ShowsThread s' (a.onThread t) := by
  cases a with
  | addConn c =>
    simp only [listsStep] at hs
    split_ifs at hs with hc
    cases hs
    exact h.addConn hc
  | asyncSend =>
    simp only [listsStep] at hs
    split_ifs at hs
    cases hs
    exact ⟨h.rings,h.conns⟩
  | callbackBegin =>
    simp only [listsStep] at hs
    split_ifs at hs
    cases hs
    exact ⟨h.rings,h.conns⟩
  | newConnCb =>
    simp only [listsStep] at hs
    split_ifs at hs
    obtain ⟨s'',hout,hshow,_⟩ := h.newConnCb
    rw [hout] at hs
    cases hs
    exact hshow
  | callbackEnd =>
    simp only [listsStep] at hs
    split_ifs at hs
    cases hs
    exact ⟨h.rings,h.conns⟩
  | moveToPolling c =>
    simp only [listsStep] at hs
    split_ifs at hs with hc
    cases hs
    exact h.moveToPolling hc
  | moveToActive c =>
    simp only [listsStep] at hs
    split_ifs at hs with hc
    cases hs
    exact h.moveToActive (Or.inr hc)
  | recycleConn c =>
    simp only [listsStep] at hs
    split_ifs at hs with hc
    cases hs
    exact h.recycleConn hc

/-- New connections are waited for: as long as every signal was sent, one of them is still to be
answered, or the callback is in front of its critical section. -/
structure HandedOver (s : ThreadLists) (t : Thread) : Prop extends ShowsThread s t where
  woken : t.newConns ≠ [] → s.unsent = 0 → s.pending = true ∨ s.callback = .called

theorem new_handedOver : HandedOver .new .new := by
  refine ⟨⟨⟨fun h hh => ?_,fun h hh k hk hhk => ?_⟩,List.Perm.refl _⟩,fun hne => absurd rfl hne⟩
  · have hring (l : ThreadNode) (hl : ThreadLists.new.links.next l = l)
        (hl' : ThreadLists.new.links.prev l = l) : Ring ThreadLists.new.links l [] :=
      ⟨by simp,hl,hl'⟩
    simp only [threadHeads,List.mem_cons,List.not_mem_nil,or_false] at hh
    rcases hh with rfl | rfl | rfl
    · exact hring _ (by decide) (by decide)
    · exact hring _ (by decide) (by decide)
    · exact hring _ (by decide) (by decide)
  · have hitems (l : ThreadNode) : Thread.new.items l = [] := by cases l <;> rfl
    rw [hitems,hitems]
    simpa using hhk.symm

theorem listsStep_handedOver {a : ListsAct} (h : HandedOver s t) (hs : listsStep s a = some s') :
    HandedOver s' (a.onThread t) := by
  refine ⟨listsStep_shows h.toShowsThread hs,fun hne hsent => ?_⟩
  have hfilter (c : ℕ) (hf : t.newConns.filter (· ≠ c) ≠ []) : t.newConns ≠ [] :=
    fun he => hf (by rw [he,List.filter_nil])
  cases a with
  | addConn c =>
    simp only [listsStep] at hs
    split_ifs at hs
    cases hs
    exact absurd hsent (Nat.succ_ne_zero _)
  | asyncSend =>
    simp only [listsStep] at hs
    split_ifs at hs
    cases hs
    exact Or.inl rfl
  | callbackBegin =>
    simp only [listsStep] at hs
    split_ifs at hs
    cases hs
    exact Or.inr rfl
  | newConnCb =>
    -- every connection of the list is moved
    obtain ⟨hn,_,hdis⟩ := List.nodup_append.mp (List.nodup_append.mp (rings_nodup h.rings)).1
    have hdis' := (List.nodup_append.mp (rings_nodup h.rings)).2.2
    obtain ⟨hempty,_,_⟩ := newConnCb_lists t hn (fun c hc hm => hdis c hc c hm rfl)
      (fun c hc hm => hdis' c (List.mem_append_left _ hc) c hm rfl)
    refine absurd (hempty.trans ?_) hne
    exact List.filter_eq_nil_iff.mpr fun c hc => by simp [hc]
  | callbackEnd =>
    simp only [listsStep] at hs
    split_ifs at hs with hmoved
    cases hs
    rcases h.woken hne hsent with hp | hc
    · exact Or.inl hp
    · rw [hmoved] at hc
      cases hc
  | moveToPolling c =>
    simp only [listsStep] at hs
    split_ifs at hs
    cases hs
    exact h.woken (hfilter c hne) hsent
  | moveToActive c =>
    simp only [listsStep] at hs
    split_ifs at hs
    cases hs
    exact h.woken (hfilter c hne) hsent
  | recycleConn c =>
    simp only [listsStep] at hs
    split_ifs at hs
    cases hs
    exact h.woken (hfilter c hne) hsent

/-- The three lists are well formed, and together they have every connection once that was added and
not recycled. -/
structure NoneLost (s : ThreadLists) (newConns polling active : List ℕ) : Prop where
  newRing : Ring s.links .newConns (newConns.map .conn)
  pollingRing : Ring s.links .polling (polling.map .conn)
  activeRing : Ring s.links .active (active.map .conn)
  once : ∀ c, (newConns ++ polling ++ active).count c = if c ∈ s.conns then 1 else 0

theorem ShowsThread.noneLost (h : ShowsThread s t) : NoneLost s t.newConns t.polling t.active := by
  refine ⟨h.rings.ring _ (by simp [threadHeads]),h.rings.ring _ (by simp [threadHeads]),
    h.rings.ring _ (by simp [threadHeads]),fun c => ?_⟩
  split_ifs with hc
  · exact List.count_eq_one_of_mem (rings_nodup h.rings) (h.conns.mem_iff.mp hc)
  · exact List.count_eq_zero_of_not_mem fun hm => hc (h.conns.mem_iff.mpr hm)

/-- In every interleaving no connection is lost, and none waits without a signal. -/
theorem none_lost {acts : List ListsAct} (h : run listsStep .new acts = some s) :
    ∃ newConns polling active, NoneLost s newConns polling active ∧
      (newConns ≠ [] → s.unsent = 0 → s.pending = true ∨ s.callback = .called) := by
  have hinv : ∃ t, HandedOver s t := run_invariant (fun s => ∃ t, HandedOver s t)
    (fun _ a _ ⟨t,ht⟩ hs => ⟨a.onThread t,listsStep_handedOver ht hs⟩) ⟨.new,new_handedOver⟩ h
  obtain ⟨t,ht⟩ := hinv
  exact ⟨t.newConns,t.polling,t.active,ht.noneLost,ht.woken⟩

/-- A connection is added while the callback runs for another one. -/
theorem none_lost_two : ∃ s, run listsStep .new [.addConn 0,.asyncSend,.callbackBegin,.newConnCb,
      .addConn 1,.moveToActive 0,.callbackEnd,.asyncSend] = some s ∧
    ∃ newConns polling active, NoneLost s newConns polling active ∧
      (newConns ≠ [] → s.unsent = 0 → s.pending = true ∨ s.callback = .called) := by
  have hrun : ∃ s, run listsStep .new [.addConn 0,.asyncSend,.callbackBegin,.newConnCb,
    .addConn 1,.moveToActive 0,.callbackEnd,.asyncSend] = some s := ⟨_,rfl⟩
  obtain ⟨s,hs⟩ := hrun
  exact ⟨s,hs,none_lost hs⟩

end Lists

end Http2d
