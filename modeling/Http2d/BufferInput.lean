import Http2d.BufferRefinement

/-! Reading into a buffer: `http2d_buffer_read_from_fd` and `http2d_buffer_read_file`.
What the system calls answer comes with the call; a `read` that a signal interrupted is made again,
so its answer is the one of the last try. -/
namespace Http2d

open Transition

/-- The values of `errno` that `http2d_buffer_read_from_fd` looks at. -/
inductive ReadErrno
  | again | pipe | badf | connReset | io | other
  deriving DecidableEq, Repr

/-- What `http2d_buffer_read_from_fd` returns for it. -/
def ReadErrno.ret : ReadErrno → Ret
  | .again => .eagain
  | .pipe | .badf | .connReset => .eof
  | .io | .other => .error

inductive ReadAnswer
  | data (bs : List UInt8)
  | failed (errno : ReadErrno)
  deriving DecidableEq, Repr

/-- What `http2d_stat` tells of a file. -/
structure FileStat where
  isReg : Bool
  size : ℕ
  deriving DecidableEq, Repr

namespace Buffer

/-- The end of both functions: the bytes behind the string are its end now. -/
def took (b : Buffer) (bs : List UInt8) : Exec (Ret × Buffer) := do
  let b ← b.append bs
  .ok (.ok,b)

/-- `http2d_buffer_read_from_fd`; what `http2d_buffer_ensure_addlen` returns is not looked at. -/
def readFromFd (mem : Bool) (b : Buffer) (size : ℕ) (answer : ReadAnswer) : Exec (Ret × Buffer) :=
  let b := (b.ensureAddlen mem size).2
  match answer with
  | .failed errno => .ok (errno.ret,b)
  | .data bs => if bs.length = 0 then .ok (.eof,b) else b.took bs

/-- `http2d_buffer_read_file`: what `http2d_stat`, `http2d_open` and `read` answer. -/
def readFile (mem : Bool) (b : Buffer) (info : Option FileStat) (opens : Bool)
    (answer : ReadAnswer) : Exec (Ret × Buffer) :=
  match info with
  | none => .ok (.error,b)
  | some info =>
    if ¬ info.isReg then .ok (.error,b)
    else
      match b.ensure mem (sizeT (b.len+info.size+1)) with
      | (.ok,b) =>
        if ¬ opens then .ok (.error,b)
        else
          match answer with
          | .failed _ => do
            let b ← b.setLen b.len
            .ok (.error,b)
          | .data bs => b.took bs
      | (ret,b) => .ok (ret,b)

end Buffer

/-- A call that reads into the buffer. -/
inductive ReadCall
  | fd (mem : Bool) (size : ℕ) (answer : ReadAnswer)
  | file (mem : Bool) (info : Option FileStat) (opens : Bool) (answer : ReadAnswer)
  deriving DecidableEq, Repr

namespace ReadCall

def exec (b : Buffer) : ReadCall → Exec (Ret × Buffer)
  | .fd mem size answer => b.readFromFd mem size answer
  | .file mem info opens answer => b.readFile mem info opens answer

/-- The bytes that came with the answer. -/
def bytes : ReadCall → List UInt8
  | .fd _ _ (.data bs) | .file _ _ _ (.data bs) => bs
  | _ => []

/-- How many bytes the call asks for. -/
def asked : ReadCall → ℕ
  | .fd _ size _ => size
  | .file _ info _ _ => (info.map (·.size)).getD 0

/-- `read` gives no more than it was asked for and an `int` holds, and the string stays shorter than
a `cuint_t`. -/
def Possible (b : Buffer) (call : ReadCall) : Prop :=
  call.bytes.length ≤ call.asked ∧ call.bytes.length < 2^31 ∧ b.len+call.asked+1 < 2^32

/-- `http2d_buffer_read_from_fd` gets its memory, or the bytes fit into the block as it is. -/
def HasRoom (b : Buffer) : ReadCall → Prop
  | .fd mem _ (.data bs) => bs ≠ [] → mem ∨ b.len+bs.length < b.size
  | _ => True

end ReadCall

namespace Buffer

variable {b : Buffer} {mem : Bool}

/-- There is a block, and it ends the string. -/
def Ended (b : Buffer) : Prop := b.Wf ∧ b.buf ≠ []

theorem ensure_room (mem : Bool) (hb : b.Sized) {n : ℕ} (hn : n < 2^32) :
    ∃ ret g, b.ensure mem n = (ret,g) ∧ g.Sized ∧ g.len = b.len ∧ g.content = b.content ∧
      (b.Ended → g.Ended) ∧ (ret = .ok ∧ n ≤ g.buf.length ∨ ret = .nomem ∧ mem = false ∧ g = b) := by
  have hsz := hb.size_eq
  rcases ensure_cases mem hsz n with ⟨hfit,heq⟩ | ⟨_,hr,heq⟩ | ⟨hlt,_,heq⟩
  · exact ⟨_,_,heq,hb,rfl,rfl,id,Or.inl ⟨rfl,hsz ▸ hfit⟩⟩
  · have hmem : mem = false := hr.resolve_right (by omega)
    exact ⟨_,_,heq,hb,rfl,rfl,id,Or.inr ⟨rfl,hmem,rfl⟩⟩
  · have hsum : b.buf.length+(n-b.size) = n := by omega
    have hle := hb.len_le
    refine ⟨_,_,heq,⟨extend_size (by omega),?_,?_⟩,rfl,extend_content hle _,?_,
      Or.inl ⟨rfl,by rw [extend_length]; omega⟩⟩
    · rw [extend_size (by omega),extend_length]
      omega
    · rw [extend_len,extend_length]
      omega
    · rintro ⟨hwf,hne⟩
      exact ⟨extend_wf hwf hne (by omega),by simp [extend,hne]⟩

theorem took_spec (hb : b.Sized) {bs : List UInt8} (hfit : b.len+bs.length < b.buf.length) :
    ∃ b', b.took bs = .ok (.ok,b') ∧ b'.Ended ∧ b'.content = b.content ++ bs := by
  have hsz := hb.size_eq
  have hlt := hb.size_lt
  obtain ⟨b',happ,hf⟩ := append_filled bs hfit (by omega)
  have hne : b'.buf ≠ [] := List.ne_nil_of_length_pos (by have := hf.length_eq; omega)
  exact ⟨b',by rw [took,happ]; rfl,⟨hf.wf hsz hlt,hne⟩,hf.content_eq⟩

theorem took_fault {bs : List UInt8} (hlt : b.len+bs.length < 2^32) (hno : b.buf.length ≤ b.len+bs.length) :
    b.took bs = .error .fault := by
  rw [took,append,write]
  split_ifs with hw
  · rw [ok_bind,cuint_add hlt,setLen,if_neg]
    · rfl
    · simp only [Bytes.overwrite_length hw]
      omega
  · rfl

end Buffer

namespace ReadCall

open Buffer

variable {b : Buffer}

/-- What a call does: it answers, or it leaves the memory because it has no room. -/
structure Reads (b : Buffer) (call : ReadCall) (ret : Ret) (b' : Buffer) : Prop where
  sized : b'.Sized
  content : b'.content = b.content ++ if ret = .ok then call.bytes else []
  ended : b.Ended ∨ ret = .ok → b'.Ended

theorem exec_ok {call : ReadCall} (hb : b.Sized) (hp : call.Possible b) (hr : call.HasRoom b) :
    ∃ ret b', call.exec b = .ok (ret,b') ∧ Reads b call ret b' := by
  obtain ⟨hle,_,hlt⟩ := hp
  cases call with
  | fd mem size answer =>
    simp only [asked] at hle hlt
    obtain ⟨ret,g,hg,hs,hlen,hcont,hend,hcase⟩ := ensure_room mem hb hlt
    have hadd : b.ensureAddlen mem size = (ret,g) := by rw [ensureAddlen_eq mem (by omega),hg]
    -- no bytes come, and the string stays as it is
    have hnone {r : Ret} (hne : r ≠ .ok) : Reads b (.fd mem size answer) r g :=
      ⟨hs,by rw [if_neg hne,List.append_nil,hcont],fun h => hend (h.resolve_right hne)⟩
    cases answer with
    | failed errno =>
      have hne : errno.ret ≠ .ok := by cases errno <;> decide
      exact ⟨errno.ret,g,by simp only [exec,readFromFd,hadd],hnone hne⟩
    | data bs =>
      simp only [bytes] at hle
      by_cases h0 : bs.length = 0
      · exact ⟨.eof,g,by simp only [exec,readFromFd,hadd,h0,if_true],hnone (by decide)⟩
      · have hfit : g.len+bs.length < g.buf.length := by
          rcases hcase with ⟨_,hroom⟩ | ⟨_,hmem,rfl⟩
          · omega
          · have hsz := hb.size_eq
            rcases hr (fun hnil => h0 (by rw [hnil]; rfl)) with hm | hm
            · rw [hmem] at hm
              cases hm
            · omega
        obtain ⟨b',htook,hended,hcont'⟩ := took_spec hs hfit
        exact ⟨.ok,b',by simp only [exec,readFromFd,hadd,if_neg h0,htook],hended.1.sized,
          by rw [hcont',hcont,if_pos rfl]; rfl,fun _ => hended⟩
  | file mem info opens answer =>
    have hsame {r : Ret} (hne : r ≠ .ok) : Reads b (.file mem info opens answer) r b :=
      ⟨hb,by rw [if_neg hne,List.append_nil],fun h => h.resolve_right hne⟩
    cases info with
    | none => exact ⟨.error,b,rfl,hsame (by decide)⟩
    | some info =>
      cases hreg : info.isReg with
      | false => exact ⟨.error,b,by simp [exec,readFile,hreg],hsame (by decide)⟩
      | true =>
        simp only [asked,Option.map_some,Option.getD_some] at hle hlt
        obtain ⟨ret,g,hg,hs,hlen,hcont,hend,hcase⟩ := ensure_room mem hb hlt
        have hwant : sizeT ((b.len : ℤ)+info.size+1) = b.len+info.size+1 := sizeT_add_succ (by omega)
        rcases hcase with ⟨rfl,hroom⟩ | ⟨rfl,_,rfl⟩
        · cases opens with
          | false =>
            exact ⟨.error,g,by simp [exec,readFile,hreg,hwant,hg],hs,
              by rw [if_neg (by decide),List.append_nil,hcont],fun h => hend (h.resolve_right (by decide))⟩
          | true =>
            cases answer with
            | failed errno =>
              obtain ⟨b',hset,hwf,_,_,hcont'⟩ := setLen_spec g g.len hs.size_eq hs.size_lt (by omega)
              have hne : b'.buf ≠ [] := by
                rw [(setLen_inv hset).2]
                exact List.ne_nil_of_length_pos (by rw [List.length_set]; omega)
              exact ⟨.error,b',by simp [exec,readFile,hreg,hwant,hg,hset],hwf.sized,
                by rw [hcont',if_neg (by decide),List.append_nil,← hcont]; rfl,fun _ => ⟨hwf,hne⟩⟩
            | data bs =>
              simp only [bytes] at hle
              obtain ⟨b',htook,hended,hcont'⟩ := took_spec hs (by omega : g.len+bs.length < g.buf.length)
              exact ⟨.ok,b',by simp [exec,readFile,hreg,hwant,hg,htook],hended.1.sized,
                by rw [hcont',hcont,if_pos rfl]; rfl,fun _ => hended⟩
        · exact ⟨.nomem,g,by simp [exec,readFile,hreg,hwant,hg],hsame (by decide)⟩

theorem exec_fault {call : ReadCall} (hb : b.Sized) (hp : call.Possible b) (hr : ¬ call.HasRoom b) :
    call.exec b = .error .fault := by
  obtain ⟨hle,_,hlt⟩ := hp
  cases call with
  | file mem info opens answer => exact absurd trivial hr
  | fd mem size answer =>
    cases answer with
    | failed errno => exact absurd trivial hr
    | data bs =>
      simp only [HasRoom,Classical.not_imp,not_or,Bool.not_eq_true,not_lt] at hr
      obtain ⟨hne,rfl,hfull⟩ := hr
      simp only [asked,bytes] at hle hlt
      have hsz := hb.size_eq
      have hrefused : b.ensure false (b.len+size+1) = (.nomem,b) := by
        rw [ensure,if_neg (by omega)]
        rfl
      have hadd : b.ensureAddlen false size = (.nomem,b) := by
        rw [ensureAddlen_eq false (by omega),hrefused]
      have hpos : bs.length ≠ 0 := fun h0 => hne (List.length_eq_zero_iff.mp h0)
      simp only [exec,readFromFd,hadd,if_neg hpos]
      exact took_fault (by omega) (by omega)

end ReadCall

/-- A buffer and the pieces that were read into it. -/
structure Reading where
  buffer : Buffer
  taken : List (List UInt8)

namespace Reading

/-- One call; none when it does not return. -/
def step (s : Reading) (call : ReadCall) : Option Reading :=
  match call.exec s.buffer with
  | .ok (.ok,b) => some ⟨b,s.taken ++ [call.bytes]⟩
  | .ok (_,b) => some ⟨b,s.taken⟩
  | .error _ => none

def Possible (s : Reading) (call : ReadCall) : Prop := call.Possible s.buffer

def HasRoom (s : Reading) (call : ReadCall) : Prop := call.HasRoom s.buffer

/-- The pieces stand behind what the buffer `b` held, and the string is ended unless no piece came
into a buffer without a block. -/
structure InOrder (b : Buffer) (s : Reading) : Prop where
  sized : s.buffer.Sized
  content : s.buffer.content = b.content ++ s.taken.flatten
  ended : b.buf ≠ [] ∨ s.taken ≠ [] → s.buffer.Ended

variable {b : Buffer} {s t : Reading} {call : ReadCall}

theorem step_ok (hb : s.buffer.Sized) (hp : s.Possible call) (hr : s.HasRoom call) :
    ∃ ret b', call.Reads s.buffer ret b' ∧
      s.step call = some ⟨b',if ret = .ok then s.taken ++ [call.bytes] else s.taken⟩ := by
  obtain ⟨ret,b',hexec,hreads⟩ := ReadCall.exec_ok hb hp hr
  refine ⟨ret,b',hreads,?_⟩
  rw [step,hexec]
  cases ret <;> rfl

theorem step_inOrder (h : InOrder b s) (hp : s.Possible call) (hs : s.step call = some t) :
    InOrder b t := by
  by_cases hr : s.HasRoom call
  · obtain ⟨ret,b',hreads,hstep⟩ := step_ok h.sized hp hr
    obtain rfl := Option.some.inj (hstep.symm.trans hs)
    by_cases hret : ret = .ok
    · refine ⟨hreads.sized,?_,fun _ => hreads.ended (Or.inr hret)⟩
      rw [hreads.content,h.content,if_pos hret,if_pos hret]
      simp
    · refine ⟨hreads.sized,?_,fun hne => hreads.ended (Or.inl (h.ended ?_))⟩
      · rw [hreads.content,h.content,if_neg hret,if_neg hret,List.append_nil]
      · rwa [if_neg hret] at hne
  · rw [step,ReadCall.exec_fault h.sized hp hr] at hs
    cases hs

theorem step_iff (hb : s.buffer.Sized) (hp : s.Possible call) :
    (∃ t, s.step call = some t) ↔ s.HasRoom call := by
  constructor
  · rintro ⟨t,ht⟩
    by_contra hr
    rw [step,ReadCall.exec_fault hb hp hr] at ht
    cases ht
  · intro hr
    obtain ⟨_,_,_,hstep⟩ := step_ok hb hp hr
    exact ⟨_,hstep⟩

/-- A run of reads goes through exactly when each that brings bytes from a descriptor has room for
them; the buffer then holds what it held and the pieces that were read, in their order. -/
theorem reads_in_order (hb : b.Wf) {calls : List ReadCall} (hp : Guarded step Possible ⟨b,[]⟩ calls) :
    ((∃ t, run step ⟨b,[]⟩ calls = some t) ↔ Guarded step HasRoom ⟨b,[]⟩ calls) ∧
    ∀ t, run step ⟨b,[]⟩ calls = some t → t.buffer.content = b.content ++ t.taken.flatten ∧
      (b.buf ≠ [] ∨ t.taken ≠ [] → t.buffer.Wf) := by
  have hstart : InOrder b ⟨b,[]⟩ :=
    ⟨hb.sized,by simp,fun h => ⟨hb,h.resolve_right fun hne => hne rfl⟩⟩
  have hstep : ∀ s call t, InOrder b s → s.Possible call → s.step call = some t → InOrder b t :=
    fun _ _ _ h hp hs => step_inOrder h hp hs
  refine ⟨guarded_run_iff Possible HasRoom (InOrder b) hstep (fun _ _ h hp => step_iff h.sized hp)
    hstart hp,fun t ht => ?_⟩
  have hend := guarded_invariant Possible (InOrder b) hstep hstart hp ht
  exact ⟨hend.content,fun h => (hend.ended h).1⟩

/-- Two bytes from a descriptor, nothing for now, and a file of one byte. -/
def someReads : List ReadCall :=
  [.fd true 4 (.data [104,105]),.fd true 4 (.failed .again),.file true (some ⟨true,1⟩) true (.data [33])]

theorem reads_in_order_some : ∃ t, run step ⟨Buffer.init,[]⟩ someReads = some t ∧
    t.buffer.content = [104,105,33] ∧ t.buffer.Wf := by
  have hp : Guarded step Possible ⟨Buffer.init,[]⟩ someReads := by
    refine ⟨⟨by decide,by decide,by decide⟩,fun s hs => ?_⟩
    cases hs
    refine ⟨⟨by decide,by decide,by decide⟩,fun s hs => ?_⟩
    cases hs
    exact ⟨⟨by decide,by decide,by decide⟩,fun _ _ => trivial⟩
  have hrun : run step ⟨Buffer.init,[]⟩ someReads =
      some ⟨⟨[104,105,33,0,0,0,0],7,3⟩,[[104,105],[33]]⟩ := rfl
  obtain ⟨hcont,hwf⟩ := (reads_in_order Buffer.init_wf hp).2 _ hrun
  exact ⟨_,hrun,hcont,hwf (Or.inr (by simp))⟩

end Reading

end Http2d
