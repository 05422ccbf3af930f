import Http2d.SpdyFrame
import Http2d.Library.IntrusiveList

/-! The request list of a connection, link by link.
A request is linked when it is allocated. The destructors that free it do not unlink it. -/
namespace Http2d

open Bytes IntrusiveList

variable {Z : Type}

/-- The requests in memory: the links of the list, whose head is a field of the connection, and which
addresses are allocated. -/
structure ReqHeap where
  links : Links (Option ℕ)
  live : ℕ → Bool

namespace ReqHeap

def init : ReqHeap := ⟨(⟨id,id⟩ : Links (Option ℕ)).init none,fun _ => false⟩

/-- `_http2d_connection_new_req`, with the address that is allocated. -/
def newReq (heap : ReqHeap) (n : ℕ) : ReqHeap :=
  ⟨heap.links.add (some n) none,Function.update heap.live n true⟩

/-- `http2d_request_free`: `req_spdy_free` cleans the buffers up and frees the memory. -/
def requestFree (heap : ReqHeap) (n : ℕ) : ReqHeap :=
  {heap with live := Function.update heap.live n false}

/-- The list has these members. -/
def Lists (heap : ReqHeap) (addrs : List ℕ) : Prop := Ring heap.links none (addrs.map some)

theorem init_lists : init.Lists [] := ring_init _ none

theorem Lists.newReq {heap : ReqHeap} {addrs : List ℕ} {n : ℕ} (h : heap.Lists addrs)
    (hn : n ∉ addrs) : (heap.newReq n).Lists (n::addrs) :=
  Ring.add h (by simpa using hn)

theorem Lists.unique {heap : ReqHeap} {xs ys : List ℕ} (hx : heap.Lists xs) (hy : heap.Lists ys) :
    xs = ys :=
  List.map_injective_iff.mpr (Option.some_injective ℕ) (Ring.unique hx hy)

end ReqHeap

/-- `handle_SPDY_SYN_STREAM` and what it does to the list. -/
def handleSynStreamHeap (env : SpdyEnv Z) (conn : SpdyConn Z) (heap : ReqHeap) (buf : Buffer)
    (ctrl : SpdyCtrl) (pos n : ℕ) : Exec (Ret × SpdyConn Z × ReqHeap × ℕ) := do
  let (ret,conn',pos') ← handleSynStream env conn buf ctrl pos
  if conn.goingAway = true ∨ (env.newReq conn.zst).1 = false then .ok (ret,conn',heap,pos')
  else if ret ≠ .ok then .ok (ret,conn',(heap.newReq n).requestFree n,pos')
  else .ok (ret,conn',heap.newReq n,pos')

/-- The list in memory is the list of the connection, freed requests and all. -/
structure Represents (heap : ReqHeap) (conn : SpdyConn Z) (addrs : List ℕ) : Prop where
  lists : heap.Lists addrs
  live : addrs.map heap.live = conn.requests.map fun r => r.live

/-- The list is well formed, and its members are those that were live in it before. -/
def ListIntact (before after : ReqHeap) (addrs : List ℕ) : Prop :=
  ∃ xs, after.Lists xs ∧ (∀ x ∈ xs, after.live x = true) ∧
    ∀ x, x ∈ xs ↔ x ∈ addrs ∧ before.live x = true

variable {env : SpdyEnv Z} {conn conn' : SpdyConn Z} {heap heap' : ReqHeap} {buf : Buffer}
  {ctrl : SpdyCtrl} {pos pos' n : ℕ} {addrs : List ℕ} {ret : Ret}

/-- What the handler does to the list of the connection. -/
theorem handleSynStream_requests (h : handleSynStream env conn buf ctrl pos = .ok (ret,conn',pos')) :
    (conn.goingAway = true ∨ (env.newReq conn.zst).1 = false) ∧ conn'.requests = conn.requests ∨
      ¬ (conn.goingAway = true ∨ (env.newReq conn.zst).1 = false) ∧ ∃ r : SpdyReq,
        conn'.requests = r::conn.requests ∧ r.live = decide (ret = .ok) := by
  by_cases haway : conn.goingAway = true
  · rw [handleSynStream_away _ _ _ haway] at h
    cases h
    exact Or.inl ⟨Or.inl haway,rfl⟩
  by_cases hnew : (env.newReq conn.zst).1 = false
  · rw [handleSynStream_refused _ _ _ (Bool.eq_false_iff.mpr haway) hnew] at h
    cases h
    exact Or.inl ⟨Or.inr hnew,rfl⟩
  rw [handleSynStream_reads _ _ _ _ (Bool.eq_false_iff.mpr haway) (Bool.not_eq_false _ ▸ hnew)] at h
  obtain ⟨syn,_,h⟩ := bind_ok_inv h
  unfold openStream at h
  obtain ⟨⟨_,_,_⟩,_,h⟩ := bind_ok_inv h
  obtain ⟨⟨r,_,_⟩,_,h⟩ := bind_ok_inv h
  dsimp only at h
  refine Or.inr ⟨not_or.mpr ⟨haway,hnew⟩,?_⟩
  split_ifs at h with hret
  · cases h
    exact ⟨_,rfl,by simpa using hret⟩
  · cases h
    exact ⟨_,rfl,by simpa using hret⟩

/-- The list of the connection is what there is in memory, call by call. -/
theorem handleSynStreamHeap_represents (hr : Represents heap conn addrs) (hn : n ∉ addrs)
    (h : handleSynStreamHeap env conn heap buf ctrl pos n = .ok (ret,conn',heap',pos')) :
    ∃ addrs', Represents heap' conn' addrs' := by
  obtain ⟨⟨ret₁,conn₁,pos₁⟩,hsyn,h⟩ := bind_ok_inv h
  have hsame (b : Bool) : addrs.map (Function.update heap.live n b) = addrs.map heap.live :=
    List.map_congr_left fun x hx => Function.update_of_ne (ne_of_mem_of_not_mem hx hn) ..
  obtain ⟨hstay,hreq⟩ | ⟨hgo,r,hreq,hlive⟩ := handleSynStream_requests hsyn
  · dsimp only at h
    rw [if_pos hstay] at h
    cases h
    exact ⟨addrs,hr.lists,hreq ▸ hr.live⟩
  · dsimp only at h
    rw [if_neg hgo] at h
    split_ifs at h with hret
    · cases h
      refine ⟨n::addrs,hr.lists.newReq hn,?_⟩
      rw [hreq,List.map_cons,List.map_cons,hlive,← hr.live]
      simp only [ReqHeap.requestFree,ReqHeap.newReq,Function.update_idem,Function.update_self,hsame]
      simp [hret]
    · cases h
      refine ⟨n::addrs,hr.lists.newReq hn,?_⟩
      rw [hreq,List.map_cons,List.map_cons,hlive,← hr.live]
      simp only [ReqHeap.newReq,Function.update_self,hsame]
      simp [not_not.mp hret]

/-- A request that was allocated and is freed again is still the first member. -/
theorem lists_requestFree (h : heap.Lists addrs) (hn : n ∉ addrs) :
    ((heap.newReq n).requestFree n).Lists (n::addrs) ∧
      ((heap.newReq n).requestFree n).live n = false :=
  ⟨h.newReq hn,Function.update_self ..⟩

theorem not_listIntact_requestFree (h : heap.Lists addrs) (hn : n ∉ addrs) :
    ¬ ListIntact heap ((heap.newReq n).requestFree n) addrs := by
  rintro ⟨xs,hxs,hlive,_⟩
  obtain ⟨hlists,hdead⟩ := lists_requestFree h hn
  have hmem : n ∈ xs := by
    rw [hxs.unique hlists]
    exact List.mem_cons_self
  rw [hlive n hmem] at hdead
  cases hdead

/-- A SYN_STREAM frame that fails leaves the list as it was exactly when no request was allocated. -/
theorem listIntact_iff (h : heap.Lists addrs) (hlive : ∀ x ∈ addrs, heap.live x = true)
    (hn : n ∉ addrs)
    (hout : handleSynStreamHeap env conn heap buf ctrl pos n = .ok (.error,conn',heap',pos')) :
    ListIntact heap heap' addrs ↔ (env.newReq conn.zst).1 = false := by
  obtain ⟨⟨ret,conn₁,pos₁⟩,hsyn,hout⟩ := bind_ok_inv hout
  dsimp only at hout
  split_ifs at hout with hstay hret
  · cases hout
    have haway : conn.goingAway ≠ true := by
      intro haway
      rw [handleSynStream_away _ _ _ haway] at hsyn
      cases hsyn
    have hintact : ListIntact heap heap addrs :=
      ⟨addrs,h,hlive,fun x => ⟨fun hx => ⟨hx,hlive x hx⟩,And.left⟩⟩
    exact iff_of_true hintact (hstay.resolve_left haway)
  · cases hout
    exact iff_of_false (not_listIntact_requestFree h hn) fun hnew => hstay (Or.inr hnew)
  · cases hout
    exact absurd (not_not.mp hret) (by decide)

/-- The payload of a SYN_STREAM frame whose block is no compressed data. -/
def brokenBuffer : Buffer := Buffer.holding (spdyWriteCtrl spdySynStream 0 12 ++
  [0,0,0,1,0,0,0,0,0,0,255,255])

theorem broken_out : ∃ conn', handleSynStreamHeap storedEnv (SpdyConn.new false) ReqHeap.init
    brokenBuffer ⟨3,spdySynStream,0,12⟩ 8 0 =
      .ok (.error,conn',(ReqHeap.init.newReq 0).requestFree 0,8) := ⟨_,rfl⟩

theorem listIntact_iff_broken : ∃ conn' heap', handleSynStreamHeap storedEnv (SpdyConn.new false)
    ReqHeap.init brokenBuffer ⟨3,spdySynStream,0,12⟩ 8 0 = .ok (.error,conn',heap',8) ∧
      (ListIntact ReqHeap.init heap' [] ↔ (storedEnv.newReq false).1 = false) := by
  obtain ⟨conn',hout⟩ := broken_out
  exact ⟨conn',_,hout,listIntact_iff ReqHeap.init_lists (by simp) (by simp) hout⟩

theorem not_listIntact_broken : ∃ conn' heap', handleSynStreamHeap storedEnv (SpdyConn.new false)
    ReqHeap.init brokenBuffer ⟨3,spdySynStream,0,12⟩ 8 0 = .ok (.error,conn',heap',8) ∧
      ¬ ListIntact ReqHeap.init heap' [] := by
  obtain ⟨conn',hout⟩ := broken_out
  exact ⟨conn',_,hout,not_listIntact_requestFree ReqHeap.init_lists (by simp)⟩

end Http2d
