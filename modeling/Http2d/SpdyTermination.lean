import Http2d.SpdyConnection

/-! When the loop over the read buffer ends.
The cursor is zero in front of the first frame. Behind it every turn takes at least the eight
bytes of a header; the first turn takes nothing when its frame is not complete. -/
namespace Http2d

open Bytes WhileLoop

variable {Z : Type}

/-- The buffer begins with the header of a frame of version 3 that is not complete. -/
def StalledHead (buf : Buffer) : Prop :=
  12 ≤ buf.len ∧ ∃ ctrl, spdyReadCtrl buf.buf 0 = .ok ctrl ∧ ctrl.version = 3 ∧
    buf.len < 8+ctrl.length

/-- The loop ends, and every turn that goes round has taken a byte at least. -/
def EndsConsuming (env : SpdyEnv Z) (conn : SpdyConn Z) (buf : Buffer) : Prop :=
  12 ≤ buf.len → Terminates (scanTurn env) ⟨conn,buf,0⟩ ∧
    ∀ s s', Visits (scanTurn env) ⟨conn,buf,0⟩ s → scanTurn env s = .again s' →
      s'.buf.len < s.buf.len

theorem incomplete_zero {buf : Buffer} {ctrl : SpdyCtrl} (h8 : 8 ≤ buf.len)
    (hlt : buf.len < 2^32) : Incomplete buf ctrl 0 ↔ buf.len < 8+ctrl.length := by
  have hc : cuint ((buf.len : ℤ)-((0 : ℕ)+8)) = buf.len-8 := by simp only [cuint]; omega
  rw [Incomplete,hc]
  omega

/-- In front of an incomplete first frame the turn restores its own state. -/
theorem scanTurn_stalled {env : SpdyEnv Z} (conn : SpdyConn Z) {buf : Buffer}
    (hlt : buf.len < 2^32) (h : StalledHead buf) :
    scanTurn env ⟨conn,buf,0⟩ = .again ⟨conn,buf,0⟩ := by
  obtain ⟨hlen,ctrl,hctrl,hver,hshort⟩ := h
  have hinc : Incomplete buf ctrl 0 := (incomplete_zero (by omega) hlt).mpr hshort
  have hframe : spdyProcessFrame env conn buf 0 = .ok (.ok,conn,0) := by
    unfold spdyProcessFrame
    rw [if_neg (by simp only [spdyFrameHeadLength]; omega)]
    push_cast
    simp only [hctrl,ok_bind,hver,ne_eq,not_true_eq_false,if_false,if_pos hinc]
  unfold scanTurn
  simp only [if_pos (show 8 < buf.len by omega),hframe,Buffer.moveToBegin_zero
    (show 0 < buf.len by omega)]

/-- The loop heads: the cursor is behind a header, except at the first one. -/
def PastHeader (conn : SpdyConn Z) (buf : Buffer) (s : Scan Z) : Prop :=
  s = ⟨conn,buf,0⟩ ∨ 8 ≤ s.pos

/-- A turn that goes round takes eight bytes or all that are left, unless it stalls. -/
theorem scanTurn_progress {env : SpdyEnv Z} {conn : SpdyConn Z} {buf : Buffer} {s s' : Scan Z}
    (h12 : 12 ≤ buf.len) (hlt : buf.len < 2^32) (hstall : ¬ StalledHead buf)
    (hs : PastHeader conn buf s) (h : scanTurn env s = .again s') :
    PastHeader conn buf s' ∧ s'.buf.len < s.buf.len := by
  obtain ⟨hlen,hframe,hbuf⟩ := scanTurn_again h
  obtain ⟨ctrl,hctrl,hver,hpos⟩ := spdyProcessFrame_pos hframe
  have h8 : 8 ≤ s'.pos := by
    rcases hpos with ⟨hinc,heq,_⟩ | ⟨_,hle,_⟩
    · rcases hs with rfl | hs
      · have hshort := (incomplete_zero (by omega) hlt).mp hinc
        exact absurd ⟨h12,ctrl,by simpa using hctrl,hver,hshort⟩ hstall
      · omega
    · omega
  refine ⟨Or.inr h8,?_⟩
  rw [hbuf,Buffer.moveToBegin_len]
  omega

theorem scan_visits_past {env : SpdyEnv Z} {conn : SpdyConn Z} {buf : Buffer} {s : Scan Z}
    (h12 : 12 ≤ buf.len) (hlt : buf.len < 2^32) (hstall : ¬ StalledHead buf)
    (hv : Visits (scanTurn env) ⟨conn,buf,0⟩ s) : PastHeader conn buf s :=
  hv.invariant (PastHeader conn buf)
    (fun _ _ hs ht => (scanTurn_progress h12 hlt hstall hs ht).1) (Or.inl rfl)

/-- The loop ends and takes bytes with every turn if and only if the first frame is complete, or
is none of version 3. -/
theorem endsConsuming_iff (env : SpdyEnv Z) (conn : SpdyConn Z) {buf : Buffer}
    (hlt : buf.len < 2^32) : EndsConsuming env conn buf ↔ ¬ StalledHead buf := by
  constructor
  · intro h hstall
    exact not_terminates_of_fixed (scanTurn_stalled conn hlt hstall) (h hstall.1).1
  · intro hstall h12
    refine ⟨?_,fun s s' hv ht => ?_⟩
    · exact terminates_of_measure (PastHeader conn buf) (fun s => s.buf.len)
        (fun s s' hs ht => scanTurn_progress h12 hlt hstall hs ht) (Or.inl rfl)
    · exact (scanTurn_progress h12 hlt hstall (scan_visits_past h12 hlt hstall hv) ht).2

/-- The turns that `spdyProcessBuffer` allows suffice whenever the loop ends at all. -/
theorem spdyProcessBuffer_none_iff (env : SpdyEnv Z) (conn : SpdyConn Z) {buf : Buffer}
    (hlt : buf.len < 2^32) : spdyProcessBuffer env conn buf = none ↔ StalledHead buf := by
  constructor
  · intro h
    by_contra hstall
    unfold spdyProcessBuffer at h
    split_ifs at h with h12
    have hrun : ∃ r, run (scanTurn env) (buf.len+1) ⟨conn,buf,0⟩ = some r :=
      run_of_measure (PastHeader conn buf) (fun s => s.buf.len)
        (fun s s' hs ht => scanTurn_progress (by omega) hlt hstall hs ht) (Or.inl rfl)
        (Nat.lt_succ_self buf.len)
    obtain ⟨r,hr⟩ := hrun
    rw [hr] at h
    cases h
  · intro hstall
    rw [spdyProcessBuffer,if_neg (by have := hstall.1; omega)]
    exact run_eq_none (not_terminates_of_fixed (scanTurn_stalled conn hlt hstall)) _

/-- `spdyProcessBuffer` gives the result of the loop, with whatever fuel the loop is run. -/
theorem spdyProcessBuffer_some_iff (env : SpdyEnv Z) (conn : SpdyConn Z) {buf : Buffer}
    (h12 : 12 ≤ buf.len) (hlt : buf.len < 2^32) {r : Exec (Ret × SpdyConn Z × Buffer)} :
    spdyProcessBuffer env conn buf = some r ↔
      ∃ fuel, run (scanTurn env) fuel ⟨conn,buf,0⟩ = some r := by
  have hloop : spdyProcessBuffer env conn buf = run (scanTurn env) (buf.len+1) ⟨conn,buf,0⟩ :=
    if_neg (by omega)
  refine ⟨fun h => ⟨_,hloop ▸ h⟩,?_⟩
  rintro ⟨fuel,hr⟩
  cases hout : spdyProcessBuffer env conn buf with
  | none =>
    have hstall := (spdyProcessBuffer_none_iff env conn hlt).mp hout
    exact absurd ⟨fuel,r,hr⟩ (not_terminates_of_fixed (scanTurn_stalled conn hlt hstall))
  | some out => rw [run_unique (hloop.symm.trans hout) hr]

/-- A cursor that moves by `d ≤ m` keeps below the square root of what was taken. -/
theorem square_le_taken {m pos pos' taken : ℕ} (hle : pos ≤ pos') (hd : pos' ≤ pos+m)
    (h : pos*pos ≤ 2*m*taken) : pos'*pos' ≤ 2*m*(taken+pos') := by
  obtain ⟨d,rfl⟩ := Nat.exists_eq_add_of_le hle
  have hdm : d ≤ m := by omega
  nlinarith [Nat.mul_le_mul_right (pos+d) hdm]

/-- The cursor stays in the range of `int`, although it is never set back. -/
theorem scan_pos_lt {env : SpdyEnv Z} {conn : SpdyConn Z} {buf : Buffer} {s : Scan Z}
    (hlt : buf.len < 2^32) (hv : Visits (scanTurn env) ⟨conn,buf,0⟩ s) : s.pos < 2^31 := by
  let I (s : Scan Z) : Prop := s.pos < 2^31 ∧ s.buf.len ≤ buf.len ∧
    (0 < s.buf.len → s.pos*s.pos ≤ 2*(2^24+8)*(buf.len-s.buf.len))
  have hinv : I s := by
    refine hv.invariant I (fun s s' hs ht => ?_) ⟨Nat.two_pow_pos 31,le_refl _,fun _ => Nat.zero_le _⟩
    obtain ⟨hpos,hlen,hsq⟩ := hs
    obtain ⟨h8,hframe,hbuf⟩ := scanTurn_again ht
    obtain ⟨ctrl,hctrl,_,hmove⟩ := spdyProcessFrame_pos hframe
    have hc := spdyReadCtrl_length_lt hctrl
    have hstep : s.pos ≤ s'.pos ∧ s'.pos ≤ s.pos+(2^24+8) := by omega
    have hlen' : s'.buf.len = s.buf.len-s'.pos := by rw [hbuf,Buffer.moveToBegin_len]
    have hsq' := square_le_taken hstep.1 hstep.2 (hsq (by omega))
    refine ⟨?_,by omega,fun hpos' => ?_⟩
    · have hroot : s.pos < 2^30 := by
        by_contra hge
        have := hsq (by omega)
        have : 2^30*2^30 ≤ s.pos*s.pos := Nat.mul_le_mul (by omega) (by omega)
        omega
      omega
    · rw [show buf.len-s'.buf.len = buf.len-s.buf.len+s'.pos by omega]
      exact hsq'
  exact hinv.1

/-- A first read of twelve bytes: a SYN_STREAM header that announces 256 bytes, and four of
them. -/
def partialFrame : List UInt8 := spdyWriteCtrl spdySynStream 0 256 ++ [0,0,0,1]

/-- An environment without compression, in which everything can be allocated. -/
def plainEnv : SpdyEnv Unit where
  newReq _ := (true,())
  inflate _ mem avail := .ok (.ok,Buffer.holding (mem.take avail),())
  deflate _ bs := (bs,())

theorem endsConsuming_iff_partialFrame :
    EndsConsuming plainEnv (SpdyConn.new ()) (Buffer.holding partialFrame) ↔
      ¬ StalledHead (Buffer.holding partialFrame) :=
  endsConsuming_iff plainEnv (SpdyConn.new ()) (by decide)

/-- The incomplete frame hangs the loop. -/
theorem endsConsuming_fails :
    ¬ EndsConsuming plainEnv (SpdyConn.new ()) (Buffer.holding partialFrame) := by
  intro h
  have hturn : scanTurn plainEnv ⟨SpdyConn.new (),Buffer.holding partialFrame,0⟩ =
      .again ⟨SpdyConn.new (),Buffer.holding partialFrame,0⟩ := rfl
  exact not_terminates_of_fixed hturn (h (by decide)).1

end Http2d
