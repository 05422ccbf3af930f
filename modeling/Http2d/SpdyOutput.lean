import Http2d.SpdyStreams

/-! The output of a SPDY connection as the peer reads it: frames, each with its length in its header.
Every step of a request is recorded with the bytes that it appended to the write buffer. -/
namespace Http2d

open Bytes PairBlock Transition Framing

variable {Z : Type}

/-- How long a frame is by its own header, which a control frame and a data frame have alike. -/
def frameSize (bs : List UInt8) : Option ℕ :=
  if bs.length < spdyFrameHeadLength then none
  else some (spdyFrameHeadLength+beNat (slice bs 5 3))

/-- The frames of a stream as the peer reads them. -/
def splitFrames (bs : List UInt8) : Option (List (List UInt8)) := split frameSize bs

/-- The first bit of a frame tells control frames from data frames. -/
def isControlFrame (f : List UInt8) : Bool := 0x80 ≤ f.getD 0 0

def frameFlags (f : List UInt8) : UInt8 := f.getD 4 0

/-- A SYN_REPLY frame of version 3 whose length is that of its payload. -/
def IsSynReply (f : List UInt8) : Prop :=
  frameSize f = some f.length ∧ isControlFrame f = true ∧ frameFlags f = 0 ∧
    slice f 0 2 = [0x80,3] ∧ beNat (slice f 2 2) = spdySynReply

/-- A data frame that ends its stream, and whose length is that of its payload. -/
def IsFinData (f : List UInt8) : Prop :=
  frameSize f = some f.length ∧ isControlFrame f = false ∧ frameFlags f = spdyCtrlFlagFin

/-- A connection with the record of its output: for each step of a request the request, known by
the place of its SYN_STREAM frame, and the bytes that the step appended to the write buffer; and
the bytes that left the write buffer. -/
structure SpdyOutput (Z : Type) where
  streams : SpdyStreams Z
  log : List (ℕ × List UInt8)
  out : List UInt8

namespace SpdyOutput

def new (zst : Z) : SpdyOutput Z := ⟨SpdyStreams.new zst,[],[]⟩

def conn (s : SpdyOutput Z) : SpdyConn Z := s.streams.server.conn

/-- All bytes that were appended to the write buffer. -/
def appended (s : SpdyOutput Z) : List UInt8 := s.log.flatMap Prod.snd

/-- The requests that were stepped. -/
def stepped (s : SpdyOutput Z) : List ℕ := s.log.map Prod.fst

/-- What a request appended in all its steps. -/
def contributed (s : SpdyOutput Z) (who : ℕ) : List UInt8 :=
  (s.log.filter fun e => e.1 = who).flatMap Prod.snd

end SpdyOutput

/-- The step of `streamsStep`, recorded. -/
def outputStep (env : SpdyEnv Z) (count : ℕ) (s : SpdyOutput Z) (a : SpdyAct) :
    Option (SpdyOutput Z) :=
  (streamsStep env count s.streams a).map fun t =>
    match a with
    | .read _ => {s with streams := t}
    | .request place => {s with
        streams := t
        log := s.log ++ (s.conn.requests[place]?.map fun r =>
          (r.born,(t.server.conn.sent.drop s.conn.sent.length).flatten)).toList}
    | .write n => {s with streams := t, out := s.out ++ s.conn.bufferWrite.content.take n}

/-- The header block of a reply, deflated in a given state of the compressor. -/
def deflatedHeaders (env : SpdyEnv Z) (zst : Z) : List UInt8 :=
  (env.deflate zst (encode 4 replyPairs)).1

/-- The length field of a reply has room for the deflated headers and the stream id. -/
def DeflateFits (env : SpdyEnv Z) (s : SpdyOutput Z) : SpdyAct → Prop
  | .request _ => (deflatedHeaders env s.conn.zst).length+4 < 2^24
  | _ => True

/-- Less than a gigabyte of output waits to be sent when a request is stepped. -/
def HasRoom (s : SpdyOutput Z) : SpdyAct → Prop
  | .request _ => s.conn.bufferWrite.len < 2^30
  | _ => True

theorem frameSize_append {f : List UInt8} (h : frameSize f = some f.length) (rest : List UInt8) :
    frameSize (f ++ rest) = some f.length := by
  unfold frameSize at h ⊢
  split_ifs at h with h8
  rw [if_neg (by rw [List.length_append]; omega),slice_append_left _ (by
    simp only [spdyFrameHeadLength] at h8; omega)]
  exact h

theorem selfDelimiting_of_size {f : List UInt8} (h : frameSize f = some f.length) :
    SelfDelimiting frameSize f := by
  refine ⟨?_,frameSize_append h⟩
  unfold frameSize at h
  split_ifs at h with h8
  simp only [spdyFrameHeadLength] at h8
  omega

/-- The four extra bytes of the stream id are counted in the length of the reply. -/
theorem isSynReply_write (id : ℕ) {block : List UInt8} (h : block.length+4 < 2^24) :
    IsSynReply (spdyWriteSynReply id 0 (cuint block.length) ++ block) := by
  have hn : cuint ((cuint block.length : ℕ)+4) = block.length+4 := by
    simp only [cuint]; omega
  have hhead : spdyWriteSynReply id 0 (cuint block.length) ++ block =
      [0x80,3,0,2,0] ++ (beBytes 3 (block.length+4) ++
        ((beBytes 4 id).modify 0 (· &&& 0x7F) ++ block)) := by
    rw [spdyWriteSynReply,hn,spdyWriteCtrl_eq,show beBytes 2 spdySynReply = [0,2] by decide]
    simp
  have hsize : beNat (slice (spdyWriteSynReply id 0 (cuint block.length) ++ block) 5 3) =
      block.length+4 := by
    rw [hhead,show 5 = ([0x80,3,0,2,0] : List UInt8).length+0 from rfl,slice_append_right,
      slice_front_eq (beBytes_length 3 _),beNat_beBytes_of_lt h]
  refine ⟨?_,?_,?_,?_,?_⟩
  · rw [frameSize,hsize,if_neg (by simp [spdyFrameHeadLength]; omega)]
    simp only [spdyFrameHeadLength,List.length_append,spdyWriteSynReply_length]
    congr 1
    omega
  all_goals rw [hhead]; rfl

/-- The data frame of a reply ends the stream. -/
theorem isFinData_write (id : ℕ) :
    IsFinData (spdyWriteData id spdyCtrlFlagFin helloWorld.length ++ helloWorld) := by
  have hid : (beBytes 4 id).modify 0 (· &&& 0x7F) =
      (UInt8.ofNat (id/256/256/256) &&& 0x7F)::beBytes 3 id := rfl
  have hhead : spdyWriteData id spdyCtrlFlagFin helloWorld.length =
      (UInt8.ofNat (id/256/256/256) &&& 0x7F)::beBytes 3 id ++ [1,0,0,21] := by
    rw [spdyWriteData,hid,List.set_append_right _ _ (by simp)]
    simp only [List.length_cons,beBytes_length]
    rfl
  refine ⟨?_,?_,?_⟩
  · rw [hhead]
    rfl
  · rw [hhead]
    have htop : (UInt8.ofNat (id/256/256/256) &&& 0x7F).toNat < 0x80 := by
      rw [UInt8.toNat_and]
      exact lt_of_le_of_lt Nat.and_le_right (by decide)
    simp only [isControlFrame,List.cons_append,List.getD_cons_zero,decide_eq_false_iff_not,
      UInt8.le_iff_toNat_le]
    exact not_le.mpr htop
  · rw [hhead]
    rfl

/-- A request whose reply was not begun. -/
def RequestSpdy.Untouched (req : RequestSpdy) : Prop :=
  req.phase ≠ .stepping ∧ req.headerBuf = Buffer.init ∧ req.headerNum = 0

theorem RequestSpdy.new_untouched (hdr : Header) :
    ({RequestSpdy.new with header := hdr} : RequestSpdy).Untouched :=
  ⟨by simp [RequestSpdy.new],rfl,rfl⟩

/-- What reading does to the output: nothing. Requests are added, each with a place of its own. -/
structure SpdyConn.OnlyAdds (c c' : SpdyConn Z) : Prop where
  write : c'.bufferWrite = c.bufferWrite
  log_le : c.synLog.length ≤ c'.synLog.length
  added : ∃ rs, c'.requests = rs ++ c.requests ∧ (rs.map SpdyReq.born).Nodup ∧
    ∀ r ∈ rs, r.req.Untouched ∧ c.synLog.length ≤ r.born ∧ r.born < c'.synLog.length

theorem SpdyConn.OnlyAdds.of_eq {c c' : SpdyConn Z} (hw : c'.bufferWrite = c.bufferWrite)
    (hl : c'.synLog = c.synLog) (hr : c'.requests = c.requests) : c.OnlyAdds c' :=
  ⟨hw,hl ▸ le_refl _,[],hr,List.nodup_nil,by simp⟩

theorem SpdyConn.OnlyAdds.trans {a b c : SpdyConn Z} (hab : a.OnlyAdds b) (hbc : b.OnlyAdds c) :
    a.OnlyAdds c := by
  obtain ⟨rs,hrs,hnd,hall⟩ := hab.added
  obtain ⟨qs,hqs,hnd',hall'⟩ := hbc.added
  have hle := hab.log_le
  have hle' := hbc.log_le
  refine ⟨hbc.write.trans hab.write,hle.trans hle',qs ++ rs,by rw [hqs,hrs,List.append_assoc],
    ?_,fun r hr => ?_⟩
  · rw [List.map_append,List.nodup_append]
    refine ⟨hnd',hnd,fun m hm n hn => ?_⟩
    obtain ⟨q,hq,rfl⟩ := List.mem_map.mp hm
    obtain ⟨r,hr,rfl⟩ := List.mem_map.mp hn
    have := (hall' q hq).2.1
    have := (hall r hr).2.2
    omega
  · rcases List.mem_append.mp hr with hr | hr
    · obtain ⟨hu,h1,h2⟩ := hall' r hr
      exact ⟨hu,by omega,h2⟩
    · obtain ⟨hu,h1,h2⟩ := hall r hr
      exact ⟨hu,h1,by omega⟩

theorem SpdyConn.onlyAdds_opened (conn : SpdyConn Z) (id : ℕ) (hdr : Header) (live : Bool)
    (zst : Z) : conn.OnlyAdds (conn.opened id hdr live zst) := by
  refine ⟨rfl,by simp [SpdyConn.opened],[_],rfl,List.nodup_singleton _,fun r hr => ?_⟩
  obtain rfl := List.mem_singleton.mp hr
  exact ⟨RequestSpdy.new_untouched hdr,by simp,by simp [SpdyConn.opened]⟩

theorem dispatch_onlyAdds {env : SpdyEnv Z} {conn conn' : SpdyConn Z} {buf : Buffer}
    {ctrl : SpdyCtrl} {pos pos' : ℕ} {ret : Ret}
    (h : dispatch env conn buf ctrl pos = .ok (ret,conn',pos')) : conn.OnlyAdds conn' := by
  have hrec : conn.OnlyAdds (conn.record buf ctrl pos) := .of_eq rfl rfl rfl
  obtain ⟨_,_,zst,_,_,rfl | ⟨id,hdr,live,rfl⟩⟩ := dispatch_inv h
  · exact .of_eq rfl rfl rfl
  · exact hrec.trans (SpdyConn.onlyAdds_opened _ id hdr live zst)

theorem serveRead_onlyAdds {env : SpdyEnv Z} {count : ℕ} {s t : SpdyServer Z} {chunk : List UInt8}
    (h : serveRead env count s chunk = some t) : s.conn.OnlyAdds t.conn :=
  serveRead_related (fun _ => .of_eq rfl rfl rfl) (fun _ _ _ => .trans)
    (fun _ _ _ _ _ _ _ => dispatch_onlyAdds) h

/-- The two frames that a request contributes. -/
def IsReply (bs : List UInt8) : Prop :=
  ∃ reply data, IsSynReply reply ∧ IsFinData data ∧ bs = reply ++ data

theorem isReply_replyFrames (id : ℕ) {block : List UInt8} (h : block.length+4 < 2^24) :
    IsReply (replyFrames id block).flatten :=
  ⟨_,_,isSynReply_write id h,isFinData_write id,by simp [replyFrames]⟩

namespace SpdyOutput

/-- The state after a request was stepped. -/
def stepDone (s : SpdyOutput Z) (streams : SpdyStreams Z) (who : ℕ) (bs : List UInt8) :
    SpdyOutput Z := {s with streams := streams, log := s.log ++ [(who,bs)]}

theorem contributed_stepDone (s : SpdyOutput Z) (streams : SpdyStreams Z) (w : ℕ) (bs : List UInt8)
    (who : ℕ) : (s.stepDone streams w bs).contributed who =
      s.contributed who ++ if w = who then bs else [] := by
  simp only [stepDone,contributed,List.filter_append,List.flatMap_append]
  split_ifs with h <;> simp [h]

theorem appended_stepDone (s : SpdyOutput Z) (streams : SpdyStreams Z) (who : ℕ) (bs : List UInt8) :
    (s.stepDone streams who bs).appended = s.appended ++ bs := by
  simp [stepDone,appended]

theorem mem_stepped_stepDone {s : SpdyOutput Z} {streams : SpdyStreams Z} {w who : ℕ}
    {bs : List UInt8} : who ∈ (s.stepDone streams w bs).stepped ↔ who ∈ s.stepped ∨ who = w := by
  simp [stepDone,stepped]

theorem contributed_of_not_stepped {s : SpdyOutput Z} {who : ℕ} (h : who ∉ s.stepped) :
    s.contributed who = [] := by
  have hnone : s.log.filter (fun e => e.1 = who) = [] := by
    refine List.filter_eq_nil_iff.mpr fun e he heq => h ?_
    exact List.mem_map.mpr ⟨e,he,of_decide_eq_true heq⟩
  rw [contributed,hnone,List.flatMap_nil]

/-- Every request is either untouched or was stepped and has sent its reply, and the places tell the
requests apart. -/
structure Framed (s : SpdyOutput Z) : Prop where
  steps : ∀ e ∈ s.log, e.2 = [] ∨ IsReply e.2
  answered : ∀ who ∈ s.stepped, IsReply (s.contributed who)
  nodup : (s.conn.requests.map SpdyReq.born).Nodup
  born_lt : ∀ r ∈ s.conn.requests, r.born < s.conn.synLog.length
  stepped_lt : ∀ who ∈ s.stepped, who < s.conn.synLog.length
  state : ∀ r ∈ s.conn.requests, if r.req.phase = .stepping then r.born ∈ s.stepped
    else r.req.Untouched ∧ r.born ∉ s.stepped

theorem Framed.untouched {s : SpdyOutput Z} (h : s.Framed) {place : ℕ} {r : SpdyReq}
    (hr : s.conn.requests[place]? = some r) (hphase : r.req.phase ≠ .stepping) :
    r.req.Untouched ∧ r.born ∉ s.stepped := (if_neg hphase).mp (h.state r (List.mem_of_getElem? hr))

theorem new_framed (zst : Z) : (new zst).Framed :=
  ⟨by simp [new],by simp [new,stepped],List.nodup_nil,by simp [new,conn,SpdyStreams.new,
    SpdyServer.new,SpdyConn.new],by simp [new,stepped],by simp [new,conn,SpdyStreams.new,
    SpdyServer.new,SpdyConn.new]⟩

/-- Reading only brings untouched requests. -/
theorem read_framed {s : SpdyOutput Z} {streams : SpdyStreams Z} (h : s.Framed)
    (ha : s.conn.OnlyAdds streams.server.conn) :
    ({s with streams := streams} : SpdyOutput Z).Framed := by
  obtain ⟨rs,hrs,hnd,hall⟩ := ha.added
  have hle := ha.log_le
  refine ⟨h.steps,h.answered,?_,fun r hr => ?_,fun who hw => ?_,fun r hr => ?_⟩
  · show (streams.server.conn.requests.map SpdyReq.born).Nodup
    rw [hrs,List.map_append,List.nodup_append]
    refine ⟨hnd,h.nodup,fun m hm n hn => ?_⟩
    obtain ⟨q,hq,rfl⟩ := List.mem_map.mp hm
    obtain ⟨r,hr,rfl⟩ := List.mem_map.mp hn
    have := (hall q hq).2.1
    have := h.born_lt r hr
    omega
  · change r ∈ streams.server.conn.requests at hr
    rw [hrs] at hr
    rcases List.mem_append.mp hr with hr | hr
    · exact (hall r hr).2.2
    · exact lt_of_lt_of_le (h.born_lt r hr) hle
  · exact lt_of_lt_of_le (h.stepped_lt who hw) hle
  · change r ∈ streams.server.conn.requests at hr
    rw [hrs] at hr
    rcases List.mem_append.mp hr with hr | hr
    · obtain ⟨hu,hge,_⟩ := hall r hr
      rw [if_neg hu.1]
      refine ⟨hu,fun hw => ?_⟩
      have := h.stepped_lt _ hw
      omega
    · exact h.state r hr

/-- A request that is removed has sent its reply before. -/
theorem removed_framed {s : SpdyOutput Z} (h : s.Framed) {place : ℕ} {r : SpdyReq}
    (hr : s.conn.requests[place]? = some r) (hphase : r.req.phase = .stepping)
    {streams : SpdyStreams Z} (hreq : streams.server.conn.requests = s.conn.requests.eraseIdx place)
    (hlog : streams.server.conn.synLog = s.conn.synLog) :
    (s.stepDone streams r.born []).Framed := by
  have hmem := List.mem_of_getElem? hr
  have hdone : r.born ∈ s.stepped := by simpa [hphase] using h.state r hmem
  have hstepped (who : ℕ) : who ∈ (s.stepDone streams r.born []).stepped ↔ who ∈ s.stepped := by
    rw [mem_stepped_stepDone]
    exact ⟨fun hw => hw.elim id fun hw => hw ▸ hdone,Or.inl⟩
  have hsub (q : SpdyReq) (hq : q ∈ streams.server.conn.requests) : q ∈ s.conn.requests :=
    List.mem_of_mem_eraseIdx (hreq ▸ hq)
  refine ⟨fun e he => ?_,fun who hw => ?_,?_,fun q hq => ?_,fun who hw => ?_,fun q hq => ?_⟩
  · rcases List.mem_append.mp he with he | he
    · exact h.steps e he
    · rw [List.mem_singleton.mp he]
      exact Or.inl rfl
  · rw [contributed_stepDone,ite_self,List.append_nil]
    exact h.answered who ((hstepped who).mp hw)
  · show (streams.server.conn.requests.map SpdyReq.born).Nodup
    rw [hreq]
    exact h.nodup.sublist ((List.eraseIdx_sublist _ _).map _)
  · show q.born < streams.server.conn.synLog.length
    rw [hlog]
    exact h.born_lt q (hsub q hq)
  · show who < streams.server.conn.synLog.length
    rw [hlog]
    exact h.stepped_lt who ((hstepped who).mp hw)
  · simp only [hstepped]
    exact h.state q (hsub q hq)

/-- A step of a request leaves its place in the record alone. -/
theorem map_born_set {rs : List SpdyReq} {place : ℕ} {r : SpdyReq} (hr : rs[place]? = some r)
    (req : RequestSpdy) :
    (rs.set place {r with req := req}).map SpdyReq.born = rs.map SpdyReq.born := by
  obtain ⟨hlt,rfl⟩ := List.getElem?_eq_some_iff.mp hr
  have hlt' : place < (rs.map SpdyReq.born).length := by simpa using hlt
  rw [List.map_set]
  have hborn : ({rs[place] with req := req} : SpdyReq).born = (rs.map SpdyReq.born)[place] := by
    rw [List.getElem_map]
  rw [hborn,List.set_getElem_self hlt']

/-- The places tell the others apart from the request that was stepped. -/
theorem mem_set_requests {rs : List SpdyReq} (hnd : (rs.map SpdyReq.born).Nodup) {place : ℕ}
    {r : SpdyReq} (hr : rs[place]? = some r) (req : RequestSpdy) {q : SpdyReq}
    (hq : q ∈ rs.set place {r with req := req}) :
    q = {r with req := req} ∨ q ∈ rs ∧ q.born ≠ r.born := by
  obtain ⟨j,hj⟩ := List.mem_iff_getElem?.mp hq
  rw [List.getElem?_set] at hj
  split_ifs at hj with hpj hlt
  · exact Or.inl (Option.some.inj hj).symm
  refine Or.inr ⟨List.mem_of_getElem? hj,fun hborn => hpj ?_⟩
  obtain ⟨hlt,_⟩ := List.getElem?_eq_some_iff.mp hr
  refine (List.getElem?_inj (by simpa using hlt) hnd).mp ?_
  rw [List.getElem?_map,List.getElem?_map,hr,hj,Option.map_some,Option.map_some,hborn]

/-- The first step of a request sends its reply. -/
theorem replied_framed {s : SpdyOutput Z} (h : s.Framed) {place : ℕ} {r : SpdyReq}
    (hr : s.conn.requests[place]? = some r) (hphase : r.req.phase ≠ .stepping)
    {streams : SpdyStreams Z} {req : RequestSpdy} (hdone : req.phase = .stepping)
    (hreq : streams.server.conn.requests = s.conn.requests.set place {r with req := req})
    (hlog : streams.server.conn.synLog = s.conn.synLog) {bs : List UInt8} (hbs : IsReply bs) :
    (s.stepDone streams r.born bs).Framed := by
  have hmem := List.mem_of_getElem? hr
  have hfirst := (h.untouched hr hphase).2
  have hborns : streams.server.conn.requests.map SpdyReq.born = s.conn.requests.map SpdyReq.born := by
    rw [hreq]
    exact map_born_set hr req
  have hother (q : SpdyReq) (hq : q ∈ streams.server.conn.requests) :
      q = {r with req := req} ∨ q ∈ s.conn.requests ∧ q.born ≠ r.born :=
    mem_set_requests h.nodup hr req (hreq ▸ hq)
  refine ⟨fun e he => ?_,fun who hw => ?_,?_,fun q hq => ?_,fun who hw => ?_,fun q hq => ?_⟩
  · rcases List.mem_append.mp he with he | he
    · exact h.steps e he
    · rw [List.mem_singleton.mp he]
      exact Or.inr hbs
  · rw [contributed_stepDone]
    rcases mem_stepped_stepDone.mp hw with hw | rfl
    · rw [if_neg (fun he : r.born = who => hfirst (he ▸ hw)),List.append_nil]
      exact h.answered who hw
    · rw [if_pos rfl,contributed_of_not_stepped hfirst]
      exact hbs
  · show (streams.server.conn.requests.map SpdyReq.born).Nodup
    rw [hborns]
    exact h.nodup
  · show q.born < streams.server.conn.synLog.length
    rw [hlog]
    rcases hother q hq with rfl | ⟨hq,_⟩
    · exact h.born_lt r hmem
    · exact h.born_lt q hq
  · show who < streams.server.conn.synLog.length
    rw [hlog]
    rcases mem_stepped_stepDone.mp hw with hw | rfl
    · exact h.stepped_lt who hw
    · exact h.born_lt r hmem
  · simp only [mem_stepped_stepDone]
    rcases hother q hq with rfl | ⟨hq,hne⟩
    · rw [if_pos hdone]
      exact Or.inr rfl
    · have := h.state q hq
      split_ifs at this ⊢ with hp
      · exact Or.inl this
      · exact ⟨this.1,fun hw => hw.elim this.2 hne⟩

/-- A step of a request is recorded under the place of the request. -/
theorem outputStep_request {env : SpdyEnv Z} {count : ℕ} {s t : SpdyOutput Z} {place : ℕ}
    (h : outputStep env count s (.request place) = some t) :
    ∃ r streams, s.conn.requests[place]? = some r ∧
      stepRequest env s.streams place = some streams ∧ t = s.stepDone streams r.born
        (streams.server.conn.sent.drop s.conn.sent.length).flatten := by
  obtain ⟨streams,hstep,rfl⟩ := Option.map_eq_some_iff.mp h
  obtain ⟨r,hr,-⟩ := stepRequest_cases hstep
  change s.conn.requests[place]? = some r at hr
  refine ⟨r,streams,hr,hstep,?_⟩
  simp only [hr]
  rfl

theorem request_framed {env : SpdyEnv Z} {count : ℕ} {s t : SpdyOutput Z} {place : ℕ}
    (h : s.Framed) (hg : (deflatedHeaders env s.conn.zst).length+4 < 2^24)
    (hstep : outputStep env count s (.request place) = some t) : t.Framed := by
  obtain ⟨r,streams,hr,hstream,rfl⟩ := outputStep_request hstep
  obtain ⟨r',hr',hcase⟩ := stepRequest_cases hstream
  obtain rfl := Option.some.inj (hr.symm.trans hr')
  rcases hcase with ⟨hphase,rfl⟩ | ⟨hphase,req,conn,hreq,rfl⟩
  · show (s.stepDone _ r.born (s.conn.sent.drop s.conn.sent.length).flatten).Framed
    rw [List.drop_length,List.flatten_nil]
    exact removed_framed h hr hphase rfl rfl
  · obtain ⟨⟨_,hbuf,hnum⟩,_⟩ := h.untouched hr hphase
    obtain ⟨hdone,b,rfl⟩ := reqSpdyStep_block hreq hphase hbuf hnum rfl
    refine replied_framed h hr hphase hdone (by rfl) (by rfl) ?_
    show IsReply ((s.conn.sent ++ replyFrames s.conn.ID (deflatedHeaders env s.conn.zst)).drop
      s.conn.sent.length).flatten
    rw [List.drop_left]
    exact isReply_replyFrames _ hg

/-- Every step keeps the requests and the record in step with each other. -/
theorem outputStep_framed {env : SpdyEnv Z} {count : ℕ} {s t : SpdyOutput Z} {a : SpdyAct}
    (h : s.Framed) (hg : DeflateFits env s a) (hstep : outputStep env count s a = some t) :
    t.Framed := by
  cases a with
  | read chunk =>
    obtain ⟨streams,hread,rfl⟩ := Option.map_eq_some_iff.mp hstep
    obtain ⟨server,hserve,rfl⟩ := Option.map_eq_some_iff.mp hread
    exact read_framed h (serveRead_onlyAdds hserve)
  | request place => exact request_framed h hg hstep
  | write n =>
    cases hstep
    exact ⟨h.steps,h.answered,h.nodup,h.born_lt,h.stepped_lt,h.state⟩

/-- What the steps of a record appended is one reply after another. -/
theorem replies_of_log {log : List (ℕ × List UInt8)} (h : ∀ e ∈ log, e.2 = [] ∨ IsReply e.2) :
    ∃ replies : List (List UInt8 × List UInt8),
      log.flatMap Prod.snd = (replies.flatMap fun p => [p.1,p.2]).flatten ∧
        ∀ p ∈ replies, IsSynReply p.1 ∧ IsFinData p.2 := by
  induction log with
  | nil => exact ⟨[],rfl,by simp⟩
  | cons e log ih =>
    obtain ⟨replies,hflat,hall⟩ := ih fun e' he => h e' (List.mem_cons_of_mem _ he)
    rw [List.flatMap_cons,hflat]
    rcases h e (List.mem_cons_self ..) with hnil | ⟨reply,data,hr,hd,he⟩
    · exact ⟨replies,by rw [hnil,List.nil_append],hall⟩
    · refine ⟨(reply,data)::replies,by simp [he],fun p hp => ?_⟩
      rcases List.mem_cons.mp hp with rfl | hp
      · exact ⟨hr,hd⟩
      · exact hall p hp

/-- The peer cuts the output into the frames that were written. -/
theorem split_appended {s : SpdyOutput Z} (h : s.Framed) :
    ∃ replies : List (List UInt8 × List UInt8),
      splitFrames s.appended = some (replies.flatMap fun p => [p.1,p.2]) ∧
        ∀ p ∈ replies, IsSynReply p.1 ∧ IsFinData p.2 := by
  obtain ⟨replies,hflat,hall⟩ := replies_of_log h.steps
  refine ⟨replies,?_,hall⟩
  rw [appended,hflat]
  refine split_flatten fun f hf => selfDelimiting_of_size ?_
  obtain ⟨p,hp,hf⟩ := List.mem_flatMap.mp hf
  obtain ⟨hr,hd⟩ := hall p hp
  rcases List.mem_cons.mp hf with rfl | hf
  · exact hr.1
  · rw [List.mem_singleton.mp hf]
    exact hd.1

/-- What was appended has left the write buffer, or is in it. -/
structure Buffered (s : SpdyOutput Z) : Prop where
  wf : s.conn.bufferWrite.Wf
  kept : s.out ++ s.conn.bufferWrite.content = s.appended

theorem new_buffered (zst : Z) : (new zst).Buffered := ⟨Buffer.init_wf,rfl⟩

/-- The first step of a request returns when the write buffer has room for its reply. -/
theorem reqSpdyStep_untouched {env : SpdyEnv Z} {s : SpdyOutput Z} (hb : s.Buffered)
    (hg : (deflatedHeaders env s.conn.zst).length+4 < 2^24) (hroom : s.conn.bufferWrite.len < 2^30)
    {req : RequestSpdy} (hreq : req.Untouched) :
    ∃ req' conn', reqSpdyStep env s.conn req = .ok (.ok,req',conn') ∧ conn'.bufferWrite.Wf ∧
      conn'.bufferWrite.content =
        s.conn.bufferWrite.content ++ (conn'.sent.drop s.conn.sent.length).flatten := by
  obtain ⟨hphase,hbuf,hnum⟩ := hreq
  have hdef : env.deflate s.conn.zst (encode 4 replyPairs) =
    (deflatedHeaders env s.conn.zst,(env.deflate s.conn.zst (encode 4 replyPairs)).2) := rfl
  obtain ⟨req',conn',hstep,_,hwf,_,hsent,hcont⟩ := reqSpdyStep_returns env s.conn req hphase
    hbuf hnum hb.wf hdef (by omega) (by omega)
  exact ⟨req',conn',hstep,hwf,by rw [hsent,List.drop_left]; exact hcont⟩

/-- The reply is in the write buffer, behind what was there. -/
theorem request_buffered {env : SpdyEnv Z} {count : ℕ} {s t : SpdyOutput Z} {place : ℕ}
    (h : s.Framed) (hb : s.Buffered) (hg : (deflatedHeaders env s.conn.zst).length+4 < 2^24)
    (hroom : s.conn.bufferWrite.len < 2^30)
    (hstep : outputStep env count s (.request place) = some t) : t.Buffered := by
  obtain ⟨r,streams,hr,hstream,rfl⟩ := outputStep_request hstep
  obtain ⟨r',hr',hcase⟩ := stepRequest_cases hstream
  obtain rfl := Option.some.inj (hr.symm.trans hr')
  rcases hcase with ⟨hphase,rfl⟩ | ⟨hphase,req,conn,hreq,rfl⟩
  · show (s.stepDone _ r.born (s.conn.sent.drop s.conn.sent.length).flatten).Buffered
    rw [List.drop_length,List.flatten_nil]
    exact ⟨hb.wf,by rw [appended_stepDone,List.append_nil]; exact hb.kept⟩
  · obtain ⟨req',conn',hreq',hwf,hcont⟩ := reqSpdyStep_untouched hb hg hroom
      (h.untouched hr hphase).1
    cases hreq.symm.trans hreq'
    refine ⟨hwf,?_⟩
    rw [appended_stepDone]
    show s.out ++ conn.bufferWrite.content =
      s.appended ++ (conn.sent.drop s.conn.sent.length).flatten
    rw [hcont,← List.append_assoc,hb.kept]

theorem outputStep_buffered {env : SpdyEnv Z} {count : ℕ} {s t : SpdyOutput Z} {a : SpdyAct}
    (h : s.Framed) (hb : s.Buffered) (hg : DeflateFits env s a) (hroom : HasRoom s a)
    (hstep : outputStep env count s a = some t) : t.Buffered := by
  cases a with
  | read chunk =>
    obtain ⟨streams,hread,rfl⟩ := Option.map_eq_some_iff.mp hstep
    obtain ⟨server,hserve,rfl⟩ := Option.map_eq_some_iff.mp hread
    have hw : server.conn.bufferWrite = s.conn.bufferWrite := (serveRead_onlyAdds hserve).write
    refine ⟨?_,?_⟩
    · show server.conn.bufferWrite.Wf
      exact hw ▸ hb.wf
    · show s.out ++ server.conn.bufferWrite.content = s.appended
      exact hw ▸ hb.kept
  | request place => exact request_buffered h hb hg hroom hstep
  | write n =>
    cases hstep
    refine ⟨Buffer.moveToBegin_wf hb.wf n,?_⟩
    show s.out ++ s.conn.bufferWrite.content.take n ++ (s.conn.bufferWrite.moveToBegin n).content =
      s.appended
    rw [Buffer.moveToBegin_content hb.wf,List.append_assoc,List.take_append_drop]
    exact hb.kept

/-- With room in the write buffer, a request that was not freed can always be stepped. -/
theorem request_returns {env : SpdyEnv Z} (count : ℕ) {s : SpdyOutput Z} (h : s.Framed)
    (hb : s.Buffered) (hserved : s.streams.server.failed = false) {place : ℕ}
    (hg : DeflateFits env s (.request place)) (hroom : HasRoom s (.request place)) {r : SpdyReq}
    (hr : s.conn.requests[place]? = some r) (hlive : r.live = true) :
    ∃ t, outputStep env count s (.request place) = some t := by
  obtain ⟨ret,req,conn,hstep⟩ : ∃ ret req conn,
      reqSpdyStep env s.conn r.req = .ok (ret,req,conn) := by
    by_cases hphase : r.req.phase = .stepping
    · exact ⟨_,_,_,if_pos hphase⟩
    obtain ⟨req,conn,hstep,_⟩ := reqSpdyStep_untouched hb hg hroom (h.untouched hr hphase).1
    exact ⟨_,_,_,hstep⟩
  have hstream : ∃ t, stepRequest env s.streams place = some t := by
    change s.streams.server.conn.requests[place]? = some r at hr
    change reqSpdyStep env s.streams.server.conn r.req = _ at hstep
    unfold stepRequest
    rw [if_neg (by simp [hserved]),hr]
    dsimp only
    rw [if_neg (by simp [hlive]),hstep]
    dsimp only
    split_ifs <;> exact ⟨_,rfl⟩
  obtain ⟨t,ht⟩ := hstream
  exact ⟨_,Option.map_eq_some_iff.mpr ⟨t,ht,rfl⟩⟩

/-- What was appended to the write buffer is cut into replies and data frames in turn, each as long
as its header says. A request that was stepped, however often, contributed one of each. While the
buffer can hold the output, all of it is there or has left. -/
theorem output_is_frames (env : SpdyEnv Z) (count : ℕ) (zst : Z) {acts : List SpdyAct}
    {t : SpdyOutput Z} (hg : Guarded (outputStep env count) (DeflateFits env) (new zst) acts)
    (h : run (outputStep env count) (new zst) acts = some t) :
    (∃ replies : List (List UInt8 × List UInt8),
      splitFrames t.appended = some (replies.flatMap fun p => [p.1,p.2]) ∧
        ∀ p ∈ replies, IsSynReply p.1 ∧ IsFinData p.2) ∧
    (∀ who ∈ t.stepped, IsReply (t.contributed who)) ∧
    (Guarded (outputStep env count) HasRoom (new zst) acts →
      t.out ++ t.conn.bufferWrite.content = t.appended) := by
  have hframed : t.Framed := guarded_invariant _ Framed
    (fun s a s' hs ha hstep => outputStep_framed hs ha hstep) (new_framed zst) hg h
  refine ⟨split_appended hframed,hframed.answered,fun hroom => ?_⟩
  have hboth : t.Framed ∧ t.Buffered := guarded_invariant _ (fun s => s.Framed ∧ s.Buffered)
    (fun s a s' hs ha hstep => ⟨outputStep_framed hs.1 ha.1 hstep,
      outputStep_buffered hs.1 hs.2 ha.1 ha.2 hstep⟩) ⟨new_framed zst,new_buffered zst⟩
    (hg.and hroom) h
  exact hboth.2.kept

theorem deflatedHeaders_stored (zst : Bool) : (deflatedHeaders storedEnv zst).length+4 < 2^24 := by
  revert zst
  decide

/-- One stream is opened and its request is stepped. -/
theorem output_is_frames_one : ∃ t, run (outputStep storedEnv 16382) (new false)
    [.read openAlone.bytes,.request 0] = some t ∧ t.stepped = [0] ∧ IsReply (t.contributed 0) ∧
      t.out ++ t.conn.bufferWrite.content = t.appended := by
  obtain ⟨c,b,ho,_,_,hread⟩ := serveRead_alone (SpdyConn.new false) rfl rfl
  obtain ⟨h₁,hreqs⟩ := ho.request
  have hstart : outputStep storedEnv 16382 (new false) (.read openAlone.bytes) =
      some ⟨⟨⟨c,b,false⟩,[]⟩,[],[]⟩ := by
    simp only [outputStep,streamsStep,new,SpdyStreams.new,SpdyServer.new,hread,Option.map_some]
  obtain ⟨streams,_,hstep,_⟩ := stepRequest_alone b ho rfl rfl
  obtain ⟨t,hnext⟩ : ∃ t, outputStep storedEnv 16382 ⟨⟨⟨c,b,false⟩,[]⟩,[],[]⟩ (.request 0) = some t :=
    ⟨_,Option.map_eq_some_iff.mpr ⟨streams,hstep,rfl⟩⟩
  have hrun : run (outputStep storedEnv 16382) (new false)
      [.read openAlone.bytes,.request 0] = some t := by
    rw [run_cons hstart,run_cons hnext,run_nil]
  have hstepped : t.stepped = [0] := by
    obtain ⟨r,_,hr,_,rfl⟩ := outputStep_request hnext
    change c.requests[0]? = some r at hr
    rw [hreqs] at hr
    obtain rfl := Option.some.inj hr
    rfl
  have hroom : Guarded (outputStep storedEnv 16382) HasRoom (new false)
      [.read openAlone.bytes,.request 0] := by
    refine ⟨trivial,fun s hs => ⟨?_,fun _ _ => trivial⟩⟩
    obtain rfl := Option.some.inj (hstart.symm.trans hs)
    show c.bufferWrite.len < 2^30
    rw [ho.write]
    decide
  have hfits : Guarded (outputStep storedEnv 16382) (DeflateFits storedEnv) (new false)
      [.read openAlone.bytes,.request 0] :=
    ⟨trivial,fun s _ => ⟨deflatedHeaders_stored s.conn.zst,fun _ _ => trivial⟩⟩
  obtain ⟨_,hreply,hkept⟩ := output_is_frames storedEnv 16382 false hfits hrun
  exact ⟨t,hrun,hstepped,hreply 0 (by rw [hstepped]; exact List.mem_singleton.mpr rfl),hkept hroom⟩

end SpdyOutput

end Http2d
