import Http2d.SpdyFields
import Http2d.SpdyStreams

/-! What one call of `spdy_process_frame` consumes, and which bytes it looks at. -/
namespace Http2d

open Bytes

variable {Z : Type}

theorem handleSynStream_away {env : SpdyEnv Z} {conn : SpdyConn Z} (buf : Buffer) (ctrl : SpdyCtrl)
    (pos : ℕ) (haway : conn.goingAway = true) :
    handleSynStream env conn buf ctrl pos = .ok (.ok,conn,pos) := if_pos haway

theorem handleSynStream_refused {env : SpdyEnv Z} {conn : SpdyConn Z} (buf : Buffer) (ctrl : SpdyCtrl)
    (pos : ℕ) (haway : conn.goingAway = false) (hnew : (env.newReq conn.zst).1 = false) :
    handleSynStream env conn buf ctrl pos =
      .ok (.error,{conn with zst := (env.newReq conn.zst).2},pos) := by
  unfold handleSynStream
  rw [if_neg (by simp [haway])]
  exact if_pos hnew

/-- An accepted frame moves the cursor over its payload, any other leaves it. -/
theorem handleSynStream_pos {env : SpdyEnv Z} {conn conn' : SpdyConn Z} {buf : Buffer}
    {ctrl : SpdyCtrl} {pos pos' : ℕ} {ret : Ret}
    (h : handleSynStream env conn buf ctrl pos = .ok (ret,conn',pos')) :
    ret = .ok ∧ conn.goingAway = true ∧ pos' = pos ∨
      ret = .ok ∧ conn.goingAway = false ∧ pos' = pos+ctrl.length ∨ ret = .error ∧ pos' = pos := by
  unfold handleSynStream at h
  split_ifs at h with haway
  · cases h
    exact Or.inl ⟨rfl,haway,rfl⟩
  dsimp only at h
  split_ifs at h with hnew
  · cases h
    exact Or.inr (Or.inr ⟨rfl,rfl⟩)
  obtain ⟨_,_,h⟩ := bind_ok_inv h
  obtain ⟨_,_,h⟩ := bind_ok_inv h
  obtain ⟨_,_,h⟩ := bind_ok_inv h
  obtain ⟨_,_,h⟩ := bind_ok_inv h
  obtain ⟨⟨_,_,_⟩,_,h⟩ := bind_ok_inv h
  obtain ⟨⟨_,_,_⟩,_,h⟩ := bind_ok_inv h
  dsimp only at h
  split_ifs at h
  · cases h
    exact Or.inr (Or.inr ⟨rfl,rfl⟩)
  · cases h
    exact Or.inr (Or.inl ⟨rfl,Bool.not_eq_true _ ▸ haway,rfl⟩)

theorem handleRstStream_pos {conn conn' : SpdyConn Z} {buf : Buffer} {ctrl : SpdyCtrl} {pos pos' : ℕ}
    {ret : Ret} (h : handleRstStream conn buf ctrl pos = .ok (ret,conn',pos')) :
    ret = .ok ∧ pos' = pos+ctrl.length := by
  rw [handleRstStream_reads] at h
  obtain ⟨_,_,h⟩ := bind_ok_inv h
  cases h
  exact ⟨rfl,rfl⟩

theorem handleGoaway_pos {conn conn' : SpdyConn Z} {buf : Buffer} {ctrl : SpdyCtrl} {pos pos' : ℕ}
    {ret : Ret} (h : handleGoaway conn buf ctrl pos = .ok (ret,conn',pos')) :
    ret = .ok ∧ pos' = pos+ctrl.length := by
  rw [handleGoaway_reads] at h
  obtain ⟨_,_,h⟩ := bind_ok_inv h
  cases h
  exact ⟨rfl,rfl⟩

section Consumed

variable {env : SpdyEnv Z} {conn : SpdyConn Z} {buf : Buffer} {pos : ℕ}

/-- The frame at the cursor, as far as its header says, is in the string. -/
def Whole (buf : Buffer) (pos : ℕ) : Prop :=
  ∃ ctrl, pos+8 ≤ buf.len ∧ spdyReadCtrl buf.buf pos = .ok ctrl ∧ pos+8+ctrl.length ≤ buf.len

/-- The result tells what was consumed: success stands for one handled frame that the cursor is
behind now, and a frame that is not there in full is waited for. -/
structure TellsConsumed (env : SpdyEnv Z) (conn : SpdyConn Z) (buf : Buffer) (pos : ℕ) : Prop where
  handled : ∀ conn' pos', spdyProcessFrame env conn buf pos = .ok (.ok,conn',pos') →
    ∃ ctrl h, spdyReadCtrl buf.buf pos = .ok ctrl ∧ dispatchedTo buf pos = .ok (some h) ∧
      pos+8+ctrl.length ≤ buf.len ∧ pos' = pos+8+ctrl.length
  waits : (∃ conn', spdyProcessFrame env conn buf pos = .ok (.eagain,conn',pos)) ↔ ¬ Whole buf pos
  inside : ∀ ret conn' pos', spdyProcessFrame env conn buf pos = .ok (ret,conn',pos') → pos' ≤ buf.len

/-- The frame at the cursor is a SYN_STREAM frame that is passed over after a GOAWAY. -/
def Ignored (conn : SpdyConn Z) (buf : Buffer) (pos : ℕ) : Prop :=
  ∃ ctrl, spdyReadCtrl buf.buf pos = .ok ctrl ∧ ctrl.version = 3 ∧ ctrl.type = spdySynStream ∧
    conn.goingAway = true ∧ 0 < ctrl.length

/-- Only a buffer of less than a header is waited for. -/
theorem spdyProcessFrame_eagain {conn' : SpdyConn Z} {pos' : ℕ}
    (h : spdyProcessFrame env conn buf pos = .ok (.eagain,conn',pos')) : buf.len < 8 := by
  unfold spdyProcessFrame at h
  split_ifs at h with hlen
  · exact hlen
  obtain ⟨ctrl,_,h⟩ := bind_ok_inv h
  split_ifs at h
  · cases h
  · cases h
  · rcases (dispatch_inv h).1 with hret | hret <;> cases hret

/-- What `spdy_process_frame` does with a frame that is there in full. -/
theorem spdyProcessFrame_whole {ctrl : SpdyCtrl} {conn' : SpdyConn Z} {pos' : ℕ} {ret : Ret}
    (hwf : buf.Wf) (hctrl : spdyReadCtrl buf.buf pos = .ok ctrl) (hfit : pos+8+ctrl.length ≤ buf.len)
    (h : spdyProcessFrame env conn buf pos = .ok (ret,conn',pos')) :
    ret = .error ∧ pos' ≤ pos+8 ∨ ret = .ok ∧ ctrl.version = 3 ∧
      ∃ handler, dispatchedTo buf pos = .ok (some handler) ∧
        (pos' = pos+8+ctrl.length ∨
          ctrl.type = spdySynStream ∧ conn.goingAway = true ∧ pos' = pos+8) := by
  have hlen : ¬ buf.len < spdyFrameHeadLength := by
    simp only [spdyFrameHeadLength]
    omega
  have hsub := cuint_sub (by omega : pos+8 ≤ buf.len) hwf.len_lt
  push_cast at hsub
  have hinc : ¬ Incomplete buf ctrl pos := by
    rw [Incomplete,hsub]
    omega
  by_cases hver : ctrl.version = 3
  swap
  · rw [spdyProcessFrame,if_neg hlen,hctrl,ok_bind,if_pos hver] at h
    cases h
    exact Or.inl ⟨rfl,Nat.le_add_right _ _⟩
  have hto : dispatchedTo buf pos = .ok (handlerOf ctrl.type) := by
    rw [dispatchedTo,if_neg hlen,hctrl,ok_bind,if_neg (not_not.mpr hver),if_neg hinc]
  rw [spdyProcessFrame,if_neg hlen,hctrl,ok_bind,if_neg (not_not.mpr hver),if_neg hinc,dispatch_eq] at h
  rcases hh : handlerOf ctrl.type with _ | handler
  · rw [hh] at h
    cases h
  rw [hh] at h hto
  cases handler with
  | synStream =>
    have htype : ctrl.type = spdySynStream := by
      unfold handlerOf at hh
      split_ifs at hh with h1 <;> first | exact h1 | cases hh
    obtain ⟨rfl,haway,hpos⟩ | ⟨rfl,_,hpos⟩ | ⟨rfl,hpos⟩ := handleSynStream_pos h
    · exact Or.inr ⟨rfl,hver,_,hto,Or.inr ⟨htype,haway,hpos⟩⟩
    · exact Or.inr ⟨rfl,hver,_,hto,Or.inl hpos⟩
    · exact Or.inl ⟨rfl,hpos.le⟩
  | rstStream =>
    obtain ⟨rfl,hpos⟩ := handleRstStream_pos h
    exact Or.inr ⟨rfl,hver,_,hto,Or.inl hpos⟩
  | goaway =>
    obtain ⟨rfl,hpos⟩ := handleGoaway_pos h
    exact Or.inr ⟨rfl,hver,_,hto,Or.inl hpos⟩

/-- The result tells what was consumed exactly for a buffer of less than a header and for a whole
frame that is not ignored. -/
theorem tellsConsumed_iff (env : SpdyEnv Z) (conn : SpdyConn Z) (hwf : buf.Wf) (hpos : pos ≤ buf.len) :
    TellsConsumed env conn buf pos ↔ buf.len < 8 ∨ Whole buf pos ∧ ¬ Ignored conn buf pos := by
  constructor
  · intro h
    by_cases hlen : buf.len < 8
    · exact Or.inl hlen
    have hwhole : Whole buf pos := by
      by_contra hpart
      obtain ⟨conn',hwait⟩ := h.waits.mpr hpart
      exact hlen (spdyProcessFrame_eagain hwait)
    refine Or.inr ⟨hwhole,?_⟩
    rintro ⟨ctrl,hctrl,hver,htype,haway,hlong⟩
    obtain ⟨ctrl',_,hctrl',hfit⟩ := hwhole
    obtain rfl : ctrl' = ctrl := Except.ok.inj (hctrl'.symm.trans hctrl)
    have hsub := cuint_sub (by omega : pos+8 ≤ buf.len) hwf.len_lt
    push_cast at hsub
    have hinc : ¬ Incomplete buf ctrl' pos := by
      rw [Incomplete,hsub]
      omega
    have hstay : (conn.record buf ctrl' (pos+8)).goingAway = true := haway
    have hout : spdyProcessFrame env conn buf pos =
        .ok (.ok,conn.record buf ctrl' (pos+8),pos+8) := by
      rw [spdyProcessFrame,if_neg (show ¬ buf.len < spdyFrameHeadLength from hlen),hctrl,ok_bind,
        if_neg (not_not.mpr hver),if_neg hinc,dispatch,if_pos htype,handleSynStream_away _ _ _ hstay]
    obtain ⟨ctrl,_,hctrl',_,_,hmoved⟩ := h.handled _ _ hout
    obtain rfl : ctrl = ctrl' := Except.ok.inj (hctrl'.symm.trans hctrl)
    omega
  · rintro (hlen | ⟨hwhole,hnot⟩)
    · have hout : spdyProcessFrame env conn buf pos = .ok (.eagain,conn,pos) := if_pos hlen
      refine ⟨fun conn' pos' h => ?_,⟨fun _ hwhole => ?_,fun _ => ⟨conn,hout⟩⟩,
        fun ret conn' pos' h => ?_⟩
      · rw [hout] at h
        cases h
      · obtain ⟨ctrl,hfit,_⟩ := hwhole
        omega
      · rw [hout] at h
        cases h
        exact hpos
    · obtain ⟨ctrl,h8,hctrl,hfit⟩ := hwhole
      refine ⟨fun conn' pos' h => ?_,⟨fun hagain => ?_,fun hpart => ?_⟩,fun ret conn' pos' h => ?_⟩
      · obtain ⟨hret,_⟩ | ⟨_,hver,handler,hto,hmoved⟩ := spdyProcessFrame_whole hwf hctrl hfit h
        · cases hret
        refine ⟨ctrl,handler,hctrl,hto,hfit,?_⟩
        obtain hmoved | ⟨htype,haway,hmoved⟩ := hmoved
        · exact hmoved
        by_contra hne
        exact hnot ⟨ctrl,hctrl,hver,htype,haway,by omega⟩
      · obtain ⟨conn',h⟩ := hagain
        have := spdyProcessFrame_eagain h
        omega
      · exact absurd ⟨ctrl,h8,hctrl,hfit⟩ hpart
      · obtain ⟨_,hle⟩ | ⟨_,_,_,_,hmoved | ⟨_,_,hmoved⟩⟩ := spdyProcessFrame_whole hwf hctrl hfit h <;>
          omega

theorem tellsConsumed_iff_partial :
    TellsConsumed plainEnv (SpdyConn.new ()) (Buffer.holding partialFrame) 0 ↔
      (Buffer.holding partialFrame).len < 8 ∨ Whole (Buffer.holding partialFrame) 0 ∧
        ¬ Ignored (SpdyConn.new ()) (Buffer.holding partialFrame) 0 :=
  tellsConsumed_iff plainEnv (SpdyConn.new ()) (Buffer.holding_wf (by decide)) (by decide)

/-- A frame of which a part arrived is reported as handled. -/
theorem not_tellsConsumed_partial :
    ¬ TellsConsumed plainEnv (SpdyConn.new ()) (Buffer.holding partialFrame) 0 := by
  intro h
  have hout : ∃ conn', spdyProcessFrame plainEnv (SpdyConn.new ()) (Buffer.holding partialFrame) 0 =
    .ok (.ok,conn',0) := ⟨_,rfl⟩
  obtain ⟨conn',hout⟩ := hout
  obtain ⟨ctrl,_,_,_,_,hmoved⟩ := h.handled _ _ hout
  omega

end Consumed

section OwnBytes

/-- An inflater looks only at the bytes it is given. -/
def ReadsGiven (inflate : Z → List UInt8 → ℕ → Exec (Ret × Buffer × Z)) : Prop :=
  ∀ zst mem mem' n, mem.take n = mem'.take n → inflate zst mem n = inflate zst mem' n

/-- The result of `spdy_process_frame`, the headers of the requests and the state of the streams. -/
def frameOutcome (env : SpdyEnv Z) (conn : SpdyConn Z) (buf : Buffer) (pos : ℕ) :
    Exec (Ret × List Header × Z) :=
  (spdyProcessFrame env conn buf pos).map fun out =>
    (out.1,out.2.1.requests.map fun r => r.req.header,out.2.1.zst)

/-- The frame lies in the string at the cursor. The memory can end with the string, so that a look
behind it is a fault. -/
structure Holds (buf : Buffer) (pos : ℕ) (frame : List UInt8) : Prop where
  fit : pos+frame.length ≤ buf.len
  mem : buf.len ≤ buf.buf.length
  len_lt : buf.len < 2^32
  bytes : slice buf.buf pos frame.length = frame

/-- What becomes of a frame does not depend on the bytes around it, whatever the inflater is. -/
def OwnBytesOnly (env : SpdyEnv Z) (conn : SpdyConn Z) (frame : List UInt8) : Prop :=
  ∀ inflate, ReadsGiven inflate → ∀ buf buf' pos, Holds buf pos frame → Holds buf' pos frame →
    frameOutcome {env with inflate := inflate} conn buf pos =
      frameOutcome {env with inflate := inflate} conn buf' pos

/-- The handler of the frame looks behind it: the block of an accepted SYN_STREAM frame is inflated
up to the end of the buffer, and the two words of the other frames are read without a look at the
length. -/
def LooksBehind (env : SpdyEnv Z) (conn : SpdyConn Z) (ctrl : SpdyCtrl) : Prop :=
  ctrl.version = 3 ∧
    (ctrl.type = spdySynStream ∧ conn.goingAway = false ∧ (env.newReq conn.zst).1 = true ∨
      (ctrl.type = spdyRstStream ∨ ctrl.type = spdyGoaway) ∧ ctrl.length < 8)

variable {env : SpdyEnv Z} {conn : SpdyConn Z} {frame : List UInt8} {ctrl : SpdyCtrl} {buf : Buffer}
  {pos : ℕ}

theorem Holds.buf_eq (h : Holds buf pos frame) :
    buf.buf = buf.buf.take pos ++ (frame ++ buf.buf.drop (pos+frame.length)) := by
  conv_lhs => rw [← List.take_append_drop pos buf.buf,
    ← List.take_append_drop frame.length (buf.buf.drop pos)]
  rw [List.drop_drop]
  congr 2
  exact h.bytes

theorem Holds.take_length (h : Holds buf pos frame) : (buf.buf.take pos).length = pos :=
  List.length_take_of_le (by have := h.fit; have := h.mem; omega)

/-- The header of a frame is read from its own bytes. -/
theorem spdyReadCtrl_append_left (hlen : 8 ≤ frame.length) (rest : List UInt8) :
    spdyReadCtrl (frame ++ rest) 0 = spdyReadCtrl frame 0 := by
  have hgo (obj : List UInt8) (h : 8 ≤ obj.length) : spdyReadCtrl obj 0 =
      .ok ⟨maskVersion (beNat (slice obj 0 2)),beNat (slice obj 2 2),obj.getD 4 0,
        maskLength (beNat (slice obj 4 4))⟩ := by
    have h0 := readUint16_ok obj 0 (by omega)
    have h2 := readUint16_ok obj 2 (by omega)
    have h4 := peekByte_ok obj 4 (by omega)
    have h4' := readUint32_ok obj 4 (by omega)
    push_cast at h0 h2 h4 h4'
    simp only [spdyReadCtrl,zero_add,h0,h2,h4,h4',ok_bind]
  rw [hgo frame hlen,hgo (frame ++ rest) (by rw [List.length_append]; omega),
    slice_append_left rest (by omega),slice_append_left rest (by omega),
    slice_append_left rest (by omega)]
  simp [List.getD_eq_getElem?_getD,List.getElem?_append_left (show 4 < frame.length by omega)]

theorem Holds.readCtrl (h : Holds buf pos frame) (hctrl : spdyReadCtrl frame 0 = .ok ctrl)
    (hlen : frame.length = 8+ctrl.length) : spdyReadCtrl buf.buf pos = .ok ctrl := by
  have hread := spdyReadCtrl_append_right (buf.buf.take pos) (frame ++ buf.buf.drop (pos+frame.length))
  rw [h.take_length,← h.buf_eq,spdyReadCtrl_append_left (by omega),hctrl] at hread
  exact hread

/-- A whole frame of version 3 goes to its handler. -/
theorem Holds.dispatched (h : Holds buf pos frame) (hctrl : spdyReadCtrl frame 0 = .ok ctrl)
    (hlen : frame.length = 8+ctrl.length) (hver : ctrl.version = 3) (env : SpdyEnv Z)
    (conn : SpdyConn Z) : spdyProcessFrame env conn buf pos = dispatch env conn buf ctrl (pos+8) := by
  have hfit := h.fit
  have hsub := cuint_sub (by omega : pos+8 ≤ buf.len) h.len_lt
  push_cast at hsub
  have hinc : ¬ Incomplete buf ctrl pos := by
    rw [Incomplete,hsub]
    omega
  rw [spdyProcessFrame,if_neg (by simp only [spdyFrameHeadLength]; omega),h.readCtrl hctrl hlen,ok_bind,
    if_neg (not_not.mpr hver),if_neg hinc]

/-- What becomes of a frame whose handler does not look behind it. -/
theorem frameOutcome_own (h : Holds buf pos frame) (hctrl : spdyReadCtrl frame 0 = .ok ctrl)
    (hlen : frame.length = 8+ctrl.length) (hown : ¬ LooksBehind env conn ctrl) :
    frameOutcome env conn buf pos =
      if ctrl.version ≠ 3 then .ok (.error,conn.requests.map fun r => r.req.header,conn.zst)
      else if ctrl.type = spdySynStream then
        if conn.goingAway then .ok (.ok,conn.requests.map fun r => r.req.header,conn.zst)
        else .ok (.error,conn.requests.map fun r => r.req.header,(env.newReq conn.zst).2)
      else if ctrl.type = spdyRstStream ∨ ctrl.type = spdyGoaway then
        .ok (.ok,conn.requests.map fun r => r.req.header,conn.zst)
      else .error (.exit 1) := by
  by_cases hver : ctrl.version = 3
  swap
  · rw [if_pos hver,frameOutcome,spdyProcessFrame,if_neg (by
      have := h.fit
      simp only [spdyFrameHeadLength]
      omega),h.readCtrl hctrl hlen,ok_bind,if_pos hver]
    rfl
  rw [if_neg (not_not.mpr hver),frameOutcome,h.dispatched hctrl hlen hver,dispatch]
  have hmem : pos+8+ctrl.length ≤ buf.buf.length := by
    have := h.fit
    have := h.mem
    omega
  split_ifs with hsyn haway hrst hword hgoaway hword
  · have hstay : (conn.record buf ctrl (pos+8)).goingAway = true := haway
    rw [handleSynStream_away _ _ _ hstay]
    rfl
  · have hstay : (conn.record buf ctrl (pos+8)).goingAway = false := Bool.eq_false_iff.mpr haway
    have hnew : (env.newReq (conn.record buf ctrl (pos+8)).zst).1 = false :=
      Bool.eq_false_iff.mpr fun hnew => hown ⟨hver,Or.inl ⟨hsyn,hstay,hnew⟩⟩
    rw [handleSynStream_refused _ _ _ hstay hnew]
    rfl
  · have h8 : 8 ≤ ctrl.length := by
      by_contra hshort
      exact hown ⟨hver,Or.inr ⟨Or.inl hrst,by omega⟩⟩
    rw [handleRstStream_returns _ _ (by omega)]
    rfl
  · exact absurd (Or.inl hrst) hword
  · have h8 : 8 ≤ ctrl.length := by
      by_contra hshort
      exact hown ⟨hver,Or.inr ⟨Or.inr hgoaway,by omega⟩⟩
    rw [handleGoaway_returns _ _ (by omega)]
    rfl
  · exact absurd (Or.inr hgoaway) hword
  · rename_i hor
    exact absurd hor (by tauto)
  · rfl

/-- Two words do not fit in what is left of the memory. -/
theorem readUint32_short {α : Type} {obj : List UInt8} (hcut : obj.length < pos+8)
    (f : ℕ → ℕ → Exec α) :
    (readUint32 obj pos >>= fun a => readUint32 obj (pos+4) >>= f a) = .error .fault := by
  have hout (off : ℤ) (h : obj.length < off+4) : readUint32 obj off = .error .fault := by
    rw [readUint32,peek,if_neg (by omega)]
    rfl
  by_cases hfirst : pos+4 ≤ obj.length
  · rw [readUint32_ok obj pos hfirst,ok_bind,hout _ (by omega)]
    rfl
  · rw [hout _ (by omega)]
    rfl

theorem readRstStream_short {obj : List UInt8} (hcut : obj.length < pos+8) :
    readRstStream obj pos = .error .fault := readUint32_short hcut _

theorem readGoaway_short {obj : List UInt8} (hcut : obj.length < pos+8) :
    readGoaway obj pos = .error .fault := readUint32_short hcut _

/-- A string that is a frame and what follows it, with nothing behind in its memory. -/
def behind (frame rest : List UInt8) : Buffer :=
  ⟨frame ++ rest,(frame ++ rest).length,(frame ++ rest).length⟩

theorem holds_behind (frame rest : List UInt8) (hlt : (frame ++ rest).length < 2^32) :
    Holds (behind frame rest) 0 frame :=
  ⟨by simp [behind],le_refl _,hlt,slice_front frame rest⟩

/-- An inflater that refuses inputs of one length and gives an empty block for all others. -/
def lengthInflate (m : ℕ) (zst : Z) (_ : List UInt8) (n : ℕ) : Exec (Ret × Buffer × Z) :=
  .ok (if n = m then .error else .ok,Buffer.holding [0,0,0,0],zst)

theorem lengthInflate_reads (m : ℕ) : ReadsGiven (lengthInflate (Z:=Z) m) := fun _ _ _ _ _ => rfl

theorem frameOutcome_length (env : SpdyEnv Z) (hctrl : spdyReadCtrl frame 0 = .ok ctrl)
    (hlen : frame.length = 8+ctrl.length) (hver : ctrl.version = 3) (hsyn : ctrl.type = spdySynStream)
    (haway : conn.goingAway = false) (hnew : (env.newReq conn.zst).1 = true) (m k : ℕ)
    (hk : k < 2^8) :
    ∃ out, frameOutcome {env with inflate := lengthInflate m} conn
        (behind frame (List.replicate (10+k) 0)) 0 = .ok out ∧
      out.1 = if ctrl.length+k = m then .error else .ok := by
  have hshort := spdyReadCtrl_length_lt hctrl
  have hsize : (frame ++ List.replicate (10+k) (0 : UInt8)).length = 8+ctrl.length+(10+k) := by
    rw [List.length_append,List.length_replicate,hlen]
  have h := holds_behind frame (List.replicate (10+k) 0) (by omega : (frame ++ List.replicate (10+k) 0).length < 2^32)
  have hn : cuint (((behind frame (List.replicate (10+k) 0)).len : ℤ)-(0+8+10 : ℕ)) = ctrl.length+k := by
    rw [cuint_sub (by simp only [behind]; omega) h.len_lt]
    simp only [behind]
    omega
  have hinf : lengthInflate m (env.newReq conn.zst).2 ((behind frame (List.replicate (10+k) 0)).buf.drop (0+8+10))
      (cuint (((behind frame (List.replicate (10+k) 0)).len : ℤ)-(0+8+10 : ℕ))) =
      .ok (if ctrl.length+k = m then .error else .ok,Buffer.holding [0,0,0,0],(env.newReq conn.zst).2) := by
    rw [hn]
    rfl
  have hread : readNameValue (if ctrl.length+k = m then .error else .ok,Buffer.holding [0,0,0,0])
      Header.init = .ok (if ctrl.length+k = m then .error else .ok,Header.init,[]) := by
    split_ifs <;> rfl
  have hout := handleSynStream_opens {env with inflate := lengthInflate m}
    (conn.record (behind frame (List.replicate (10+k) 0)) ctrl (0+8)) ctrl haway hnew
    (by simp only [behind]; omega) hinf hread
  rw [frameOutcome,h.dispatched hctrl hlen hver,dispatch,if_pos hsyn,hout]
  refine ⟨_,rfl,?_⟩
  split_ifs <;> simp_all

/-- A frame is handled from its own bytes exactly when its handler does not look behind it. -/
theorem ownBytesOnly_iff (env : SpdyEnv Z) (conn : SpdyConn Z)
    (hctrl : spdyReadCtrl frame 0 = .ok ctrl) (hlen : frame.length = 8+ctrl.length) :
    OwnBytesOnly env conn frame ↔ ¬ LooksBehind env conn ctrl := by
  have hshort := spdyReadCtrl_length_lt hctrl
  constructor
  · intro hown
    rintro ⟨hver,⟨hsyn,haway,hnew⟩ | ⟨htype,hl⟩⟩
    · -- the input of the inflater is a byte longer in the second buffer
      obtain ⟨out,hout,hret⟩ := frameOutcome_length env hctrl hlen hver hsyn haway hnew ctrl.length 0 (by norm_num)
      obtain ⟨out',hout',hret'⟩ := frameOutcome_length env hctrl hlen hver hsyn haway hnew ctrl.length 1 (by norm_num)
      have heq := hown _ (lengthInflate_reads ctrl.length) _ _ 0
        (holds_behind frame (List.replicate (10+0) 0) (by simp; omega))
        (holds_behind frame (List.replicate (10+1) 0) (by simp; omega))
      rw [hout,hout'] at heq
      rw [Except.ok.inj heq,hret',if_neg (by omega),if_pos (by omega)] at hret
      cases hret
    · -- the second word of the payload lies behind the first buffer
      have h := holds_behind frame [] (by simp; omega)
      have h' := holds_behind frame (List.replicate 8 0) (by simp; omega)
      have heq := hown _ (lengthInflate_reads 0) _ _ 0 h h'
      have hcut : (behind frame []).buf.length < 0+8+8 := by simp only [behind]; simp; omega
      have hrest : 0+8+8 ≤ (behind frame (List.replicate 8 0)).buf.length := by
        simp only [behind]; simp; omega
      rw [frameOutcome,frameOutcome,h.dispatched hctrl hlen hver,h'.dispatched hctrl hlen hver,dispatch,
        dispatch] at heq
      rcases htype with htype | htype
      · rw [if_neg (by rw [htype]; decide),if_pos htype,if_neg (by rw [htype]; decide),if_pos htype,
          handleRstStream_reads,readRstStream_short hcut,handleRstStream_returns _ _ hrest] at heq
        cases heq
      · rw [if_neg (by rw [htype]; decide),if_neg (by rw [htype]; decide),if_pos htype,
          if_neg (by rw [htype]; decide),if_neg (by rw [htype]; decide),if_pos htype,
          handleGoaway_reads,readGoaway_short hcut,handleGoaway_returns _ _ hrest] at heq
        cases heq
  · intro hown inflate _ buf buf' pos h h'
    have hown' : ¬ LooksBehind {env with inflate := inflate} conn ctrl := hown
    rw [frameOutcome_own h hctrl hlen hown',frameOutcome_own h' hctrl hlen hown']

theorem storedInflate_reads : ReadsGiven storedInflate := fun started mem mem' n h => by
  simp only [storedInflate,h]

/-- A SYN_STREAM frame with the id 1 whose block lacks the last byte. -/
def cutFrame : List UInt8 :=
  spdyWriteCtrl spdySynStream 0 35 ++ [0,0,0,1,0,0,0,0,0,0] ++ [0x78,1,0,19,0,236,255] ++
    [0,0,0,1,0,0,0,5,58,112,97,116,104,0,0,0,2,47]

theorem ownBytesOnly_iff_cutFrame : OwnBytesOnly storedEnv (SpdyConn.new false) cutFrame ↔
    ¬ LooksBehind storedEnv (SpdyConn.new false) ⟨3,spdySynStream,0,35⟩ :=
  ownBytesOnly_iff storedEnv (SpdyConn.new false) (by decide) (by decide)

/-- The paths that the requests ask for. -/
def pathsOf : Exec (Ret × List Header × Bool) → List (List UInt8)
  | .ok (_,headers,_) => headers.map fun hdr => (hdr .path).content
  | .error _ => []

/-- The byte behind the frame becomes part of the path. -/
theorem not_ownBytesOnly_cutFrame : ¬ OwnBytesOnly storedEnv (SpdyConn.new false) cutFrame := by
  intro hown
  have heq := congrArg pathsOf (hown _ storedInflate_reads (Buffer.holding (cutFrame ++ [97]))
    (Buffer.holding (cutFrame ++ [98])) 0 ⟨by decide,by decide,by decide,by decide⟩
    ⟨by decide,by decide,by decide,by decide⟩)
  have ha : pathsOf (frameOutcome storedEnv (SpdyConn.new false) (Buffer.holding (cutFrame ++ [97])) 0) =
    [[47,97]] := by decide
  have hb : pathsOf (frameOutcome storedEnv (SpdyConn.new false) (Buffer.holding (cutFrame ++ [98])) 0) =
    [[47,98]] := by decide
  rw [show ({storedEnv with inflate := storedInflate} : SpdyEnv Bool) = storedEnv from rfl,ha,hb] at heq
  revert heq
  decide

end OwnBytes

end Http2d
