import Http2d.BufferOps
import Http2d.Strings
import Mathlib.Data.List.DropRight

/-! The deletion of a header from a block of header lines.
The code compares the name with what it takes for the start of a line: behind a line it passes over
every CR and LF, and it does not ask for the colon. -/
namespace Http2d

/-- `end1`, at the line feed `end2` or at the CR in front of it. -/
def textEnd (blk : List UInt8) (string end2 : ℕ) : Exec ℕ :=
  if end2 = string then .ok end2
  else do
    let c ← peekByte blk (end2-1 : ℕ)
    .ok (if c = 13 then end2-1 else end2)

/-- The loop of `http2d_header_get_next_line`, for the string at `string`; NULL is `none`. -/
def nextLineLoop (blk : List UInt8) (string : ℕ) : ℕ → ℕ → Exec (Option ℕ)
  | 0, _ => .error .fault
  | fuel+1, end2 => do
    match ← strchr 10 (blk.drop end2) end2 with
    | none => .ok none
    | some end2 => do
      let end1 ← textEnd blk string end2
      let c ← peekByte blk (end2+1 : ℕ)
      if c = 32 ∨ c = 9 then nextLineLoop blk string fuel (end2+1) else .ok (some end1)

/-- `http2d_header_get_next_line`. -/
def headerGetNextLine (blk : List UInt8) (string : ℕ) : Exec (Option ℕ) :=
  nextLineLoop blk string (blk.length+1) string

/-- The loop over CRs and LFs in the string that stands at `p`. -/
def skipLineEnds : List UInt8 → ℕ → Exec ℕ
  | [], _ => .error .fault
  | c::t, p => if c = 13 ∨ c = 10 then skipLineEnds t (p+1) else .ok p

/-- The loop of `http2d_header_del_entry`. -/
def delEntryLoop (header : Buffer) (headerName : List UInt8) (headerNameLen : ℕ) :
    ℕ → ℕ → Exec (Ret × Buffer)
  | 0, _ => .error .fault
  | fuel+1, start =>
    if header.len ≤ start then .ok (.notFound,header)
    else do
      match ← headerGetNextLine header.buf start with
      | none => .ok (.notFound,header)
      | some fin =>
        if strncasecmp headerNameLen (header.buf.drop start) headerName = 0 then do
          let fin ← skipLineEnds (header.buf.drop fin) fin
          let r ← header.removeChunk (cuint start) (cuint ((fin : ℤ)-start))
          .ok (.ok,r.2)
        else do
          let fin ← skipLineEnds (header.buf.drop fin) fin
          delEntryLoop header headerName headerNameLen fuel fin

/-- `http2d_header_del_entry`. -/
def headerDelEntry (header : Buffer) (headerName : List UInt8) (headerNameLen : ℕ) :
    Exec (Ret × Buffer) :=
  delEntryLoop header headerName headerNameLen (header.len+1) 0

def isLineEnd (c : UInt8) : Bool := c == 13 || c == 10

/-- A text that continues the line in front of it. -/
def StartsBlank (xs : List UInt8) : Prop := xs.head? = some 32 ∨ xs.head? = some 9

/-- A line with its continuations. -/
inductive Folded : List UInt8 → Prop
  | line {t : List UInt8} (hnul : 0 ∉ t) (hlf : 10 ∉ t) : Folded (t ++ [10])
  | fold {t x : List UInt8} (hnul : 0 ∉ t) (hlf : 10 ∉ t) (hblank : StartsBlank x) (hx : Folded x) :
    Folded (t ++ 10::x)

section Lines
variable {x y a b : List UInt8}

theorem not_startsBlank_nil : ¬ StartsBlank [] := by simp [StartsBlank]

theorem startsBlank_append (h : x ≠ []) : StartsBlank (x ++ a) ↔ StartsBlank x := by
  rw [StartsBlank,StartsBlank,List.head?_append_of_ne_nil _ h]

theorem not_startsBlank_lineEnd {c : UInt8} (h : isLineEnd c) : ¬ StartsBlank (c::x) := by
  rcases (by simpa [isLineEnd] using h : c = 13 ∨ c = 10) with rfl | rfl <;> simp [StartsBlank]

theorem Folded.ne_nil (h : Folded x) : x ≠ [] := by cases h <;> simp

theorem Folded.nul (h : Folded x) : 0 ∉ x := by
  induction h with
  | line hnul _ => simpa using hnul
  | fold hnul _ _ _ ih => simpa using ⟨hnul,ih⟩

/-- The first line feed cuts a text in one way. -/
theorem lineFeed_inj {t t' : List UInt8} (ht : 10 ∉ t) (ht' : 10 ∉ t') (h : t ++ 10::x = t' ++ 10::y) :
    t = t' ∧ x = y := by
  have hfront {t x : List UInt8} (ht : 10 ∉ t) : (t ++ 10::x).takeWhile (· ≠ 10) = t := by
    rw [List.takeWhile_append_of_pos (fun c hc => decide_eq_true (ne_of_mem_of_not_mem hc ht)),
      List.takeWhile_cons_of_neg (by simp),List.append_nil]
  obtain rfl : t = t' := by rw [← hfront (x:=x) ht,h,hfront ht']
  exact ⟨rfl,(List.cons.inj (List.append_cancel_left h)).2⟩

/-- A line is the only one that a text begins with. -/
theorem Folded.unique (hx : Folded x) (hy : Folded y) (ha : ¬ StartsBlank a) (hb : ¬ StartsBlank b)
    (h : x ++ a = y ++ b) : x = y ∧ a = b := by
  induction hx generalizing y with
  | line _ hlf =>
    rw [List.append_assoc] at h
    cases hy with
    | line _ hlf' =>
      rw [List.append_assoc] at h
      obtain ⟨rfl,rfl⟩ := lineFeed_inj hlf hlf' h
      exact ⟨rfl,rfl⟩
    | fold _ hlf' hblank hy =>
      rw [List.append_assoc] at h
      obtain ⟨_,rfl⟩ := lineFeed_inj hlf hlf' h
      exact absurd ((startsBlank_append hy.ne_nil).mpr hblank) ha
  | fold _ hlf hblank hx ih =>
    rw [List.append_assoc] at h
    cases hy with
    | line _ hlf' =>
      rw [List.append_assoc] at h
      obtain ⟨_,rfl⟩ := lineFeed_inj hlf hlf' h
      exact absurd ((startsBlank_append hx.ne_nil).mpr hblank) hb
    | fold _ hlf' _ hy =>
      rw [List.append_assoc] at h
      obtain ⟨rfl,hrest⟩ := lineFeed_inj hlf hlf' h
      obtain ⟨rfl,hab⟩ := ih hy hrest
      exact ⟨rfl,hab⟩

/-- What is left of a line behind the line ends in front is nothing or a line. -/
theorem Folded.dropWhile (h : Folded x) (hne : x.dropWhile isLineEnd ≠ []) :
    Folded (x.dropWhile isLineEnd) := by
  have hsub {c : UInt8} {t : List UInt8} (hc : c ∉ t) : c ∉ t.dropWhile isLineEnd :=
    fun hmem => hc ((List.dropWhile_sublist _).subset hmem)
  induction h with
  | line hnul hlf =>
    rw [List.dropWhile_append] at hne ⊢
    split_ifs at hne ⊢ with hall
    · exact absurd rfl hne
    · exact .line (hsub hnul) (hsub hlf)
  | @fold t x hnul hlf hblank hx _ =>
    rw [List.dropWhile_append]
    split_ifs with hall
    · cases x with
      | nil => exact absurd rfl hx.ne_nil
      | cons c x =>
        have hc : isLineEnd c = false := by
          by_contra hend
          exact not_startsBlank_lineEnd (by simpa using hend) hblank
        rwa [List.dropWhile_cons_of_pos (by rfl),List.dropWhile_cons_of_neg (by simp [hc])]
    · exact .fold (hsub hnul) (hsub hlf) hblank hx

end Lines

section Code
variable {blk x r rest w : List UInt8} {c : UInt8} {p string fuel : ℕ}

theorem skipLineEnds_eq (hw : ∀ d ∈ w, isLineEnd d) (hc : isLineEnd c = false) :
    skipLineEnds (w ++ c::rest) p = .ok (p+w.length) := by
  induction w generalizing p with
  | nil => rw [List.nil_append,skipLineEnds,if_neg (by simpa [isLineEnd] using hc)]; rfl
  | cons d w ih =>
    obtain ⟨hd,hw⟩ := List.forall_mem_cons.mp hw
    rw [List.cons_append,skipLineEnds,if_pos (by simpa [isLineEnd] using hd),ih hw,List.length_cons]
    congr 1
    omega

/-- The search for the line feed behind a text, and for the CR in front of it. -/
theorem lineFeed_found (fuel : ℕ) {t : List UInt8} (hnul : 0 ∉ t) (hlf : 10 ∉ t)
    (hblk : blk.drop p = t ++ 10::c::rest) (hsp : string ≤ p) :
    ∃ e w, (∀ d ∈ w, isLineEnd d) ∧ blk.drop e = w ++ c::rest ∧
      e+w.length = p+t.length+1 ∧ nextLineLoop blk string (fuel+1) p =
        if c = 32 ∨ c = 9 then nextLineLoop blk string fuel (p+t.length+1) else .ok (some e) := by
  have hfound : strchr 10 (blk.drop p) p = .ok (some (p+t.length)) := by
    rw [hblk,strchr_append fun d hd => ⟨ne_of_mem_of_not_mem hd hlf,ne_of_mem_of_not_mem hd hnul⟩,strchr,
      if_pos rfl]
  have hlast := drop_of_drop hblk
  obtain ⟨_,hnext,_⟩ := peekByte_drop hlast
  obtain ⟨hc,_⟩ := peekByte_drop hnext
  have hstep (end1 : ℕ) (hend1 : textEnd blk string (p+t.length) = .ok end1) :
      nextLineLoop blk string (fuel+1) p =
        if c = 32 ∨ c = 9 then nextLineLoop blk string fuel (p+t.length+1) else .ok (some end1) := by
    rw [nextLineLoop,hfound,ok_bind]
    dsimp only
    rw [hend1,ok_bind,hc,ok_bind]
  by_cases hfirst : p+t.length = string
  · exact ⟨p+t.length,[10],by simp [isLineEnd],hlast,rfl,hstep _ (if_pos hfirst)⟩
  obtain ⟨q,hq⟩ : ∃ q, p+t.length = q+1 := ⟨p+t.length-1,by omega⟩
  have hlt : q < blk.length := by
    have := (peekByte_drop hlast).2.2
    omega
  have hdrop : blk.drop q = blk[q]::10::c::rest := by
    rw [List.drop_eq_getElem_cons hlt,← hq,hlast]
  by_cases hcr : blk[q] = 13
  · refine ⟨q,[13,10],by simp [isLineEnd],by rw [hdrop,hcr]; rfl,by rw [hq]; rfl,hstep q ?_⟩
    rw [textEnd,if_neg hfirst,hq,Nat.add_sub_cancel,(peekByte_drop hdrop).1]
    simp [hcr]
  · refine ⟨p+t.length,[10],by simp [isLineEnd],hlast,rfl,hstep _ ?_⟩
    rw [textEnd,if_neg hfirst,hq,Nat.add_sub_cancel,(peekByte_drop hdrop).1]
    simp [hcr]

/-- The loop finds the line ends behind a line with its continuations. -/
theorem nextLineLoop_folded (hx : Folded x) (hblk : blk.drop p = x ++ c::rest) (hc : ¬ StartsBlank [c])
    (hsp : string ≤ p) (hfuel : x.length ≤ fuel) : ∃ e w, nextLineLoop blk string fuel p = .ok (some e) ∧
      (∀ d ∈ w, isLineEnd d) ∧ blk.drop e = w ++ c::rest ∧ e+w.length = p+x.length := by
  have hblank {d : UInt8} : StartsBlank [d] ↔ d = 32 ∨ d = 9 := by simp [StartsBlank]
  induction hx generalizing p fuel with
  | line hnul hlf =>
    rw [List.length_append,List.length_singleton] at hfuel
    obtain ⟨fuel,rfl⟩ : ∃ n, fuel = n+1 := ⟨fuel-1,by omega⟩
    rw [List.append_assoc] at hblk
    obtain ⟨e,w,hw,hdrop,hlen,hrun⟩ := lineFeed_found fuel hnul hlf hblk hsp
    rw [if_neg (hblank.not.mp hc)] at hrun
    exact ⟨e,w,hrun,hw,hdrop,by rw [List.length_append,hlen]; rfl⟩
  | @fold t x hnul hlf hcont hx ih =>
    rw [List.length_append,List.length_cons] at hfuel
    obtain ⟨fuel,rfl⟩ : ∃ n, fuel = n+1 := ⟨fuel-1,by omega⟩
    cases x with
    | nil => exact absurd rfl hx.ne_nil
    | cons d x =>
      rw [List.append_assoc] at hblk
      obtain ⟨_,_,_,_,_,hrun⟩ := lineFeed_found fuel hnul hlf hblk hsp
      rw [if_pos (hblank.mp hcont)] at hrun
      have hnext := (peekByte_drop (drop_of_drop hblk)).2.1
      obtain ⟨e,w,hloop,hw,hdrop,hlen⟩ := ih hnext (by omega) (show (d::x).length ≤ fuel by omega)
      refine ⟨e,w,hrun.trans hloop,hw,hdrop,?_⟩
      simp only [hlen,List.length_append,List.length_cons]
      omega

/-- Behind the line ends stands another byte, if only the terminator. -/
theorem stop_behind (r tail : List UInt8) :
    ∃ d rest, r.dropWhile isLineEnd ++ 0::tail = d::rest ∧ isLineEnd d = false := by
  cases hdr : r.dropWhile isLineEnd with
  | nil => exact ⟨0,tail,rfl,rfl⟩
  | cons d r' =>
    have := List.head_dropWhile_not isLineEnd (l:=r) (by simp [hdr])
    exact ⟨d,_,rfl,by simpa [hdr] using this⟩

/-- The end of a line in front of `r`, and the start that the code takes for that of the next line. -/
theorem nextLine_folded {r tail : List UInt8} (hdrop : blk.drop p = x ++ r ++ 0::tail) (hx : Folded x)
    (hr : ¬ StartsBlank r) : ∃ e, headerGetNextLine blk p = .ok (some e) ∧
      skipLineEnds (blk.drop e) e = .ok (p+x.length+(r.takeWhile isLineEnd).length) := by
  obtain ⟨c,rest,hnext⟩ := List.exists_cons_of_ne_nil
    (List.append_ne_nil_of_right_ne_nil r (List.cons_ne_nil 0 tail))
  have hc : ¬ StartsBlank [c] := by
    cases r with
    | nil =>
      obtain ⟨rfl,_⟩ := List.cons.inj hnext
      simp [StartsBlank]
    | cons d r =>
      obtain ⟨rfl,_⟩ := List.cons.inj hnext
      simpa [StartsBlank] using hr
  have hfuel := congrArg List.length hdrop
  simp only [List.length_drop,List.length_append] at hfuel
  obtain ⟨e,w,hget,hw,he,hlenw⟩ := nextLineLoop_folded hx
    (by rw [hdrop,List.append_assoc,hnext]) hc le_rfl (by omega : x.length ≤ blk.length+1)
  refine ⟨e,hget,?_⟩
  obtain ⟨d,rest',hstop,hd⟩ := stop_behind r tail
  have hsplit := List.takeWhile_append_dropWhile (p:=isLineEnd) (l:=r)
  rw [he,← hnext,← hsplit,List.append_assoc,hstop,← List.append_assoc,skipLineEnds_eq (fun b hb => ?_) hd]
  · rw [hsplit,List.length_append]
    congr 1
    omega
  · rcases List.mem_append.mp hb with hb | hb
    · exact hw b hb
    · exact List.mem_takeWhile_imp hb

/-- Line ends behind a text that is more than line ends do not belong to those in front of it. -/
theorem takeWhile_stopped {p : UInt8 → Bool} {l r : List UInt8} (h : l.dropWhile p ≠ []) :
    (l ++ r).takeWhile p = l.takeWhile p := by
  rw [List.takeWhile_append,if_neg]
  intro hlen
  have := congrArg List.length (List.takeWhile_append_dropWhile (p:=p) (l:=l))
  rw [List.length_append,hlen] at this
  exact h (List.length_eq_zero_iff.mp (by omega))

end Code

/-- `s` begins with the name, ignoring case. -/
def Begins (name s : List UInt8) : Prop := name.map tolower <+: s.map tolower

instance (name s : List UInt8) : Decidable (Begins name s) := inferInstanceAs (Decidable (_ <+: _))

section Turn
variable {header : Buffer} {name x r : List UInt8}

/-- One turn of the loop, at a line behind which stands `r`. -/
theorem delEntryLoop_turn (h : header.Wf) (front : List UInt8) (fuel : ℕ)
    (hcont : header.content = front ++ x ++ r) (hx : Folded x) (hr : ¬ StartsBlank r) (hnul : 0 ∉ r)
    (hname : 0 ∉ name) :
    if Begins name (x ++ r) then
      ∃ b, delEntryLoop header name name.length (fuel+1) front.length = .ok (.ok,b) ∧ b.Wf ∧
        b.content = front ++ r.dropWhile isLineEnd
    else delEntryLoop header name name.length (fuel+1) front.length =
      delEntryLoop header name name.length fuel (front ++ x ++ r.takeWhile isLineEnd).length := by
  have hlen : header.len = (front ++ x ++ r).length := by rw [← hcont,Buffer.content_length h]
  have hlt := h.len_lt
  have hxpos := List.length_pos_of_ne_nil hx.ne_nil
  simp only [List.length_append] at hlen
  obtain ⟨tail,hblk⟩ := h.block (h.buf_ne_nil (by omega))
  have hdrop : header.buf.drop front.length = (x ++ r) ++ 0::tail := by
    rw [hblk,hcont,List.append_assoc,List.append_assoc,List.drop_left,← List.append_assoc]
  obtain ⟨e,hget,hskip⟩ := nextLine_folded hdrop hx hr
  have hcmp : strncasecmp name.length (header.buf.drop front.length) name = 0 ↔ Begins name (x ++ r) := by
    rw [hdrop,strncasecmp_front hname (by simpa using ⟨hx.nul,hnul⟩)]
    rfl
  rw [← List.length_append,← List.length_append] at hskip
  have hturn : delEntryLoop header name name.length (fuel+1) front.length =
      if Begins name (x ++ r) then
        header.removeChunk (cuint front.length)
          (cuint (((front ++ x ++ r.takeWhile isLineEnd).length : ℤ)-front.length)) >>= fun a => .ok (.ok,a.2)
      else delEntryLoop header name name.length fuel (front ++ x ++ r.takeWhile isLineEnd).length := by
    rw [delEntryLoop,if_neg (by omega),hget,ok_bind]
    dsimp only
    simp only [hcmp,hskip,ok_bind]
  split_ifs at hturn ⊢
  · obtain ⟨b,hcall,hwf,hb,_⟩ := Buffer.removeChunk_spec h (x:=front) (y:=x ++ r.takeWhile isLineEnd)
      (z:=r.dropWhile isLineEnd) (by
        rw [hcont,List.append_assoc,List.append_assoc,List.append_assoc,List.takeWhile_append_dropWhile])
    have hcut : cuint (((front ++ x ++ r.takeWhile isLineEnd).length : ℤ)-front.length) =
        (x ++ r.takeWhile isLineEnd).length := by
      have := (List.takeWhile_prefix isLineEnd (l:=r)).length_le
      rw [cuint_sub (by simp) (by simp only [List.length_append]; omega)]
      simp only [List.length_append]
      omega
    rw [cuint_natCast (by omega),hcut,hcall] at hturn
    exact ⟨b,hturn,hwf,hb⟩
  · exact hturn

end Turn

/-- A header line: a text that is not empty, with its continuations. -/
structure HeaderLine where
  bytes : List UInt8
  folded : Folded bytes
  not_lf : bytes.head? ≠ some 10
  not_crlf : ¬ [13,10] <+: bytes

/-- The empty line behind the headers. -/
def emptyLine (crlf : Bool) : List UInt8 := if crlf then [13,10] else [10]

/-- The lines and the empty line behind them. -/
def blockBytes (lines : List HeaderLine) (crlf : Bool) : List UInt8 :=
  lines.flatMap (·.bytes) ++ emptyLine crlf

/-- A block of headers; only its first line can start with a blank. -/
structure HeaderBlock where
  lines : List HeaderLine
  crlf : Bool
  starts : ∀ l ∈ lines.tail, ¬ StartsBlank l.bytes

def HeaderBlock.bytes (h : HeaderBlock) : List UInt8 := blockBytes h.lines h.crlf

/-- The text without the line ends. -/
def unfolded : List UInt8 → List UInt8
  | [] => []
  | c::t => if c = 10 ∨ c = 13 ∧ t.head? = some 10 then unfolded t else c::unfolded t

/-- The line, unfolded, is the name followed by a colon. -/
def Named (name : List UInt8) (l : HeaderLine) : Prop := Begins (name ++ [58]) (unfolded l.bytes)

instance (name : List UInt8) (l : HeaderLine) : Decidable (Named name l) :=
  inferInstanceAs (Decidable (Begins _ _))

/-- The block without the first line of that name. -/
def erased (name : List UInt8) (crlf : Bool) : List HeaderLine → Option (List UInt8)
  | [] => none
  | l::rest =>
    if Named name l then some (blockBytes rest crlf) else (erased name crlf rest).map (l.bytes ++ ·)

/-- A call that returns with the header deleted, or with `ret_not_found` and the block as it was. -/
def Leaves (header : Buffer) (result : Exec (Ret × Buffer)) : Option (List UInt8) → Prop
  | some bs => ∃ b, result = .ok (.ok,b) ∧ b.Wf ∧ b.content = bs
  | none => result = .ok (.notFound,header)

/-- What is asked of `http2d_header_del_entry`. -/
def DeletesHeader (h : HeaderBlock) (name : List UInt8) (header : Buffer) : Prop :=
  Leaves header (headerDelEntry header name name.length) (erased name h.crlf h.lines)

/-- What the code passes over in front of a line. -/
def passed (first : Bool) (l : HeaderLine) : List UInt8 :=
  if first then [] else l.bytes.takeWhile isLineEnd

/-- What it sees of the line. -/
def seen (first : Bool) (l : HeaderLine) : List UInt8 :=
  if first then l.bytes else l.bytes.dropWhile isLineEnd

/-- The code takes the line for the header, with `r` behind it. -/
def Takes (name : List UInt8) (first : Bool) (l : HeaderLine) (r : List UInt8) : Prop :=
  seen first l ≠ [] ∧ Begins name (seen first l ++ r)

instance (name : List UInt8) (first : Bool) (l : HeaderLine) (r : List UInt8) :
    Decidable (Takes name first l r) := inferInstanceAs (Decidable (_ ∧ _))

/-- What the code leaves of the block when it takes a line. -/
def cut (name : List UInt8) (crlf : Bool) : Bool → List HeaderLine → Option (List UInt8)
  | first, [] => if first ∧ Begins name (emptyLine crlf) then some [] else none
  | first, l::rest =>
    if Takes name first l (blockBytes rest crlf) then
      some (passed first l ++ (blockBytes rest crlf).dropWhile isLineEnd)
    else (cut name crlf false rest).map (l.bytes ++ ·)

/-- The first line that has the name or that the code takes for the header does both, and a line without a
CR in front follows; or the line that follows it is the same one without the CRs in front, and has the
name. -/
def DeletedWell (name : List UInt8) (crlf : Bool) : Bool → List HeaderLine → Prop
  | first, [] => ¬ (first ∧ Begins name (emptyLine crlf))
  | first, l::rest =>
    if Takes name first l (blockBytes rest crlf) ∨ Named name l then
      Takes name first l (blockBytes rest crlf) ∧
        if Named name l then ∀ c ∈ (blockBytes rest crlf).head?, isLineEnd c = false
        else ∃ l' ∈ rest.head?, l'.bytes = seen first l ∧ Named name l'
    else DeletedWell name crlf false rest

section Block
variable {name r : List UInt8} {crlf first : Bool} {l : HeaderLine} {lines rest : List HeaderLine}

theorem blockBytes_cons : blockBytes (l::rest) crlf = l.bytes ++ blockBytes rest crlf := by
  simp [blockBytes]

theorem HeaderLine.ne_nil (l : HeaderLine) : l.bytes ≠ [] := l.folded.ne_nil

theorem emptyLine_folded : Folded (emptyLine crlf) := by
  cases crlf
  · exact Folded.line (t:=[]) (by decide) (by decide)
  · exact Folded.line (t:=[13]) (by decide) (by decide)

theorem blockBytes_nul : 0 ∉ blockBytes lines crlf := by
  rw [blockBytes,List.mem_append,List.mem_flatMap]
  rintro (⟨l,_,hl⟩ | h)
  · exact l.folded.nul hl
  · exact emptyLine_folded.nul h

theorem blockBytes_start (h : ∀ l ∈ lines, ¬ StartsBlank l.bytes) : ¬ StartsBlank (blockBytes lines crlf) := by
  cases lines with
  | nil => cases crlf <;> simp [blockBytes,emptyLine,StartsBlank]
  | cons l rest =>
    rw [blockBytes_cons,startsBlank_append l.ne_nil]
    exact h l List.mem_cons_self

theorem passed_append_seen : passed first l ++ seen first l = l.bytes := by
  unfold passed seen
  cases first
  · exact List.takeWhile_append_dropWhile
  · rfl

theorem seen_folded (h : seen first l ≠ []) : Folded (seen first l) := by
  unfold seen at h ⊢
  split_ifs at h ⊢
  · exact l.folded
  · exact l.folded.dropWhile h

/-- A line that begins with CRs has no name. -/
theorem Named.seen_eq (hname : Named name l) (htakes : Takes name false l r) :
    l.bytes.dropWhile isLineEnd = l.bytes := by
  obtain ⟨hne,hbegins⟩ := htakes
  simp only [seen,Bool.false_eq_true,if_false] at hne hbegins
  have hlf := l.not_lf
  have hcrlf := l.not_crlf
  unfold Named at hname
  cases hl : l.bytes with
  | nil => exact absurd hl l.ne_nil
  | cons c t =>
    rw [hl] at hne hbegins hname hlf hcrlf
    rw [List.dropWhile_cons_of_neg]
    intro hend
    have hc : c = 13 := by
      rcases (by simpa [isLineEnd] using hend : c = 13 ∨ c = 10) with h | rfl
      · exact h
      · exact absurd rfl hlf
    subst hc
    have ht : t.head? ≠ some 10 := by
      cases t with
      | nil => simp
      | cons d t => simpa using fun hd => hcrlf ⟨t,by rw [hd]; rfl⟩
    rw [unfolded,if_neg (by simp [ht])] at hname
    obtain ⟨s,t',hs⟩ := List.exists_cons_of_ne_nil hne
    have hsend := List.head_dropWhile_not isLineEnd hne
    rw [hs] at hbegins
    simp only [hs,List.head_cons] at hsend
    cases name with
    | nil =>
      obtain ⟨h58,_⟩ := List.cons_prefix_cons.mp hname
      exact absurd h58 (by decide)
    | cons d ds =>
      obtain ⟨hd,_⟩ := List.cons_prefix_cons.mp hname
      obtain ⟨hd',_⟩ := List.cons_prefix_cons.mp hbegins
      have hs13 : s = 13 := (tolower_eq_iff (by decide)).mp (hd'.symm.trans hd)
      rw [hs13] at hsend
      exact absurd hsend (by decide)

theorem unfolded_length (t : List UInt8) : (unfolded t).length ≤ t.length := by
  induction t with
  | nil => exact le_rfl
  | cons c t ih =>
    rw [unfolded]
    split_ifs
    · exact ih.trans (Nat.le_succ _)
    · exact Nat.succ_le_succ ih

/-- A name of the line lies within it, so the code sees it whatever follows. -/
theorem Named.takes (hname : Named name l) {r' : List UInt8} (htakes : Takes name false l r') :
    Takes name first l r := by
  have heq := hname.seen_eq htakes
  have hseen : seen first l = l.bytes := by
    unfold seen
    split_ifs
    · rfl
    · exact heq
  have hlen := List.IsPrefix.length_le hname
  have hle := unfolded_length l.bytes
  have hbegins : Begins name (l.bytes ++ r') := by simpa [Takes,seen,heq] using htakes.2
  refine ⟨by rw [hseen]; exact l.ne_nil,?_⟩
  unfold Begins at hbegins ⊢
  simp only [List.length_map,List.length_append,List.length_singleton] at hlen
  rw [List.map_append] at hbegins
  rw [hseen,List.map_append]
  exact (List.prefix_of_prefix_length_le hbegins (List.prefix_append _ _)
    (by simp only [List.length_map]; omega)).trans (List.prefix_append _ _)

theorem not_named_lineEnds (h : l.bytes.dropWhile isLineEnd = []) : ¬ Named name l := by
  have hall : ∀ c ∈ l.bytes, isLineEnd c := by simpa using h
  have hsub (t : List UInt8) : ∀ c ∈ unfolded t, c ∈ t := by
    induction t with
    | nil => simp [unfolded]
    | cons d t ih =>
      intro c hc
      rw [unfolded] at hc
      split_ifs at hc
      · exact List.mem_cons_of_mem _ (ih c hc)
      · exact List.mem_cons.mpr ((List.mem_cons.mp hc).imp_right (ih c))
  intro hname
  have hcolon : (58 : UInt8) ∈ (unfolded l.bytes).map tolower :=
    List.IsPrefix.subset hname (List.mem_map.mpr ⟨58,by simp,rfl⟩)
  obtain ⟨c,hc,hc58⟩ := List.mem_map.mp hcolon
  rw [(tolower_eq_iff (by decide)).mp hc58] at hc
  exact absurd (hall _ (hsub _ _ hc)) (by decide)

theorem erased_start (h : ∀ l ∈ lines, ¬ StartsBlank l.bytes) {y : List UInt8}
    (hy : erased name crlf lines = some y) : ¬ StartsBlank y := by
  cases lines with
  | nil => cases hy
  | cons l rest =>
    obtain ⟨hl,hrest⟩ := List.forall_mem_cons.mp h
    rw [erased] at hy
    split_ifs at hy
    · exact Option.some.inj hy ▸ blockBytes_start hrest
    · obtain ⟨y,_,rfl⟩ := Option.map_eq_some_iff.mp hy
      exact (startsBlank_append l.ne_nil).not.mpr hl

/-- Lines in front of a text, none of them with the name. -/
def Nameless (name : List UInt8) (q : List HeaderLine) : Prop :=
  ∀ l ∈ q, ¬ Named name l ∧ ¬ StartsBlank l.bytes

theorem Nameless.start {q : List HeaderLine} (hq : Nameless name q) {y : List UInt8} (hy : ¬ StartsBlank y) :
    ¬ StartsBlank (q.flatMap (·.bytes) ++ y) := by
  cases q with
  | nil => exact hy
  | cons l q =>
    rw [List.flatMap_cons,List.append_assoc,startsBlank_append l.ne_nil]
    exact (hq l List.mem_cons_self).2

theorem Nameless.snoc {q : List HeaderLine} (hq : Nameless name q) (hl : ¬ Named name l)
    (hstart : ¬ StartsBlank l.bytes) : Nameless name (q ++ [l]) :=
  List.forall_mem_append.mpr ⟨hq,List.forall_mem_singleton.mpr ⟨hl,hstart⟩⟩

/-- Such lines do not come back when a later line is left out. -/
theorem erased_ne {q : List HeaderLine} (hne : q ≠ []) (hq : Nameless name q)
    (h : ∀ l ∈ lines, ¬ StartsBlank l.bytes) {y : List UInt8} (hy : erased name crlf lines = some y) :
    q.flatMap (·.bytes) ++ y ≠ blockBytes lines crlf := by
  induction lines generalizing q y with
  | nil => cases hy
  | cons m rest ih =>
    intro heq
    obtain ⟨l,q,rfl⟩ := List.exists_cons_of_ne_nil hne
    have hstart := erased_start h hy
    obtain ⟨hm,hrest⟩ := List.forall_mem_cons.mp h
    obtain ⟨⟨hl,_⟩,hq⟩ := List.forall_mem_cons.mp hq
    rw [List.flatMap_cons,List.append_assoc,blockBytes_cons] at heq
    obtain ⟨hlm,hnext⟩ := l.folded.unique m.folded (Nameless.start hq hstart) (blockBytes_start hrest) heq
    have hmname : ¬ Named name m := by rwa [Named,← hlm]
    rw [erased,if_neg hmname] at hy
    obtain ⟨y',hy',rfl⟩ := Option.map_eq_some_iff.mp hy
    exact ih (by simp) (Nameless.snoc hq hmname hm) hrest hy' (by simpa using hnext)

/-- A text that takes the place of the named line behind the line ends is that line, and the first one. -/
theorem erased_seen {x : List UInt8} (hx : Folded x) {q : List HeaderLine} (hq : Nameless name q)
    (h : ∀ l ∈ lines, ¬ StartsBlank l.bytes) {y : List UInt8} (hy : erased name crlf lines = some y)
    (heq : x ++ (q.flatMap (·.bytes) ++ y) = (blockBytes lines crlf).dropWhile isLineEnd) :
    q = [] ∧ ∃ m ∈ lines.head?, m.bytes.dropWhile isLineEnd = x ∧ Named name m := by
  induction lines generalizing q y with
  | nil => cases hy
  | cons m rest ih =>
    have hstart := erased_start h hy
    obtain ⟨hm,hrest⟩ := List.forall_mem_cons.mp h
    rw [blockBytes_cons,List.dropWhile_append] at heq
    by_cases hends : m.bytes.dropWhile isLineEnd = []
    · -- the code passes over a line of CRs, which has no name
      have hmname : ¬ Named name m := not_named_lineEnds hends
      rw [hends,List.isEmpty_nil,if_pos rfl] at heq
      rw [erased,if_neg hmname] at hy
      obtain ⟨y',hy',rfl⟩ := Option.map_eq_some_iff.mp hy
      obtain ⟨hnil,_⟩ := ih (Nameless.snoc hq hmname hm) hrest hy' (by simpa using heq)
      exact absurd hnil (by simp)
    rw [if_neg (by simpa using hends)] at heq
    obtain ⟨hxm,hnext⟩ := hx.unique (m.folded.dropWhile hends) (hq.start hstart) (blockBytes_start hrest) heq
    by_cases hmname : Named name m
    · rw [erased,if_pos hmname] at hy
      obtain rfl := Option.some.inj hy
      have hnil : q.flatMap (·.bytes) = [] := by simpa using hnext
      refine ⟨?_,m,rfl,hxm.symm,hmname⟩
      cases q with
      | nil => rfl
      | cons l q => exact absurd (List.append_eq_nil_iff.mp hnil).1 l.ne_nil
    · rw [erased,if_neg hmname] at hy
      obtain ⟨y',hy',rfl⟩ := Option.map_eq_some_iff.mp hy
      exact absurd (by simpa using hnext) (erased_ne (by simp) (hq.snoc hmname hm) hrest hy')

/-- A line that the code does not take does not come back when it takes a later one. -/
theorem cut_ne (hl : ∀ r, ¬ Takes name false l r) (h : ∀ m ∈ lines, ¬ StartsBlank m.bytes) {y : List UInt8}
    (hy : cut name crlf false lines = some y) : l.bytes ++ y ≠ blockBytes lines crlf := by
  induction lines generalizing y with
  | nil => cases hy
  | cons m rest ih =>
    intro heq
    obtain ⟨hm,hrest⟩ := List.forall_mem_cons.mp h
    have hbehind : ¬ StartsBlank (blockBytes rest crlf) := blockBytes_start hrest
    rw [blockBytes_cons] at heq
    rw [cut] at hy
    by_cases htakes : Takes name false m (blockBytes rest crlf)
    · rw [if_pos htakes] at hy
      obtain rfl := Option.some.inj hy
      -- an equal line would be taken
      have hlm : l.bytes = m.bytes := by
        cases hlead : m.bytes.takeWhile isLineEnd with
        | cons c t =>
          rw [passed,if_neg Bool.false_ne_true,hlead] at heq
          refine (l.folded.unique m.folded ?_ hbehind heq).1
          exact not_startsBlank_lineEnd (List.mem_takeWhile_imp (hlead ▸ List.mem_cons_self))
        | nil =>
          rw [passed,if_neg Bool.false_ne_true,hlead,List.nil_append] at heq
          obtain ⟨z,hz,hz'⟩ : ∃ z, l.bytes = m.bytes ++ z ∧
              blockBytes rest crlf = z ++ (blockBytes rest crlf).dropWhile isLineEnd := by
            rcases List.append_eq_append_iff.mp heq.symm with ⟨z,hz,hz'⟩ | ⟨z,hz,hz'⟩
            · exact ⟨z,hz,hz'⟩
            · have hle := (List.dropWhile_sublist isLineEnd (l:=blockBytes rest crlf)).length_le
              rw [hz',List.length_append] at hle
              obtain rfl : z = [] := List.length_eq_zero_iff.mp (by omega)
              exact ⟨[],by simpa using hz.symm,by simpa using hz'.symm⟩
          have hzstart : ¬ StartsBlank z := by
            by_cases hznil : z = []
            · exact hznil ▸ not_startsBlank_nil
            · rwa [hz',startsBlank_append hznil] at hbehind
          exact (l.folded.unique m.folded (a:=[]) not_startsBlank_nil hzstart (by rw [List.append_nil,hz])).1
      refine hl (blockBytes rest crlf) ?_
      rwa [Takes,seen,hlm]
    · rw [if_neg htakes] at hy
      obtain ⟨y',hy',rfl⟩ := Option.map_eq_some_iff.mp hy
      obtain ⟨hlm,hnext⟩ := l.folded.unique m.folded ((startsBlank_append m.ne_nil).not.mpr hm) hbehind heq
      exact ih hrest hy' (hlm ▸ hnext)

/-- The right line: its line end must be all that goes with it. -/
theorem cut_own_iff (htakes : Takes name first l (blockBytes rest crlf)) (hname : Named name l) :
    cut name crlf first (l::rest) = erased name crlf (l::rest) ↔ DeletedWell name crlf first (l::rest) := by
  have hsplit : passed first l ++ seen first l = l.bytes := passed_append_seen
  rw [cut,erased,DeletedWell]
  have hseen : seen first l = l.bytes := by
    cases first
    · exact hname.seen_eq htakes
    · rfl
  have hlead : passed first l = [] := by
    rw [hseen] at hsplit
    exact List.append_left_eq_self.mp hsplit
  rw [if_pos htakes,if_pos hname,if_pos (Or.inl htakes),if_pos hname,hlead,List.nil_append,Option.some_inj,
    and_iff_right htakes]
  cases hr : blockBytes rest crlf with
  | nil => simp
  | cons c t =>
    rw [List.dropWhile_cons]
    split_ifs with hc
    · refine iff_of_false (fun heq => ?_) (by simp [hc])
      have := (List.dropWhile_sublist isLineEnd (l:=t)).length_le
      rw [heq,List.length_cons] at this
      omega
    · simpa using hc

/-- Another line: what is left can only be right if the next line is the same. -/
theorem cut_other_iff (hrest : ∀ m ∈ rest, ¬ StartsBlank m.bytes)
    (htakes : Takes name first l (blockBytes rest crlf)) (hname : ¬ Named name l) :
    cut name crlf first (l::rest) = erased name crlf (l::rest) ↔ DeletedWell name crlf first (l::rest) := by
  have hsplit : passed first l ++ seen first l = l.bytes := passed_append_seen
  rw [cut,erased,DeletedWell]
  rw [if_pos htakes,if_neg hname,if_pos (Or.inl htakes),if_neg hname,and_iff_right htakes]
  constructor
  · intro heq
    obtain ⟨y,hy,hyeq⟩ := Option.map_eq_some_iff.mp heq.symm
    have hly : l.bytes ++ y = passed first l ++ (seen first l ++ y) := by rw [← List.append_assoc,hsplit]
    obtain ⟨_,m,hm,hseen,hmname⟩ := erased_seen (q:=[]) (seen_folded htakes.1) (by simp [Nameless])
      hrest hy (List.append_cancel_left (hly.symm.trans hyeq))
    refine ⟨m,hm,?_,hmname⟩
    rw [← hseen]
    refine (hmname.seen_eq (r:=blockBytes rest crlf) ?_).symm
    rwa [Takes,seen,if_neg Bool.false_ne_true,hseen]
  · rintro ⟨m,hm,hseen,hmname⟩
    cases rest with
    | nil => cases hm
    | cons m' rest =>
      obtain rfl := Option.some.inj hm
      rw [erased,if_pos hmname,Option.map_some,Option.some_inj]
      have hends : m'.bytes.dropWhile isLineEnd = m'.bytes := by
        rw [hseen]
        cases first
        · exact List.dropWhile_idempotent _ _
        · exact absurd (by rwa [Named,hseen] at hmname) hname
      have hne := m'.ne_nil
      rw [blockBytes_cons,List.dropWhile_append,hends,if_neg (by simpa using hne),hseen,
        ← List.append_assoc,hsplit]

/-- The code leaves what is asked for exactly when the condition holds. -/
theorem cut_eq_erased_iff (first : Bool)
    (h : ∀ l ∈ if first then lines.tail else lines, ¬ StartsBlank l.bytes) :
    cut name crlf first lines = erased name crlf lines ↔ DeletedWell name crlf first lines := by
  induction lines generalizing first with
  | nil =>
    rw [cut,erased,DeletedWell]
    split_ifs with hbegins <;> simp [hbegins]
  | cons l rest ih =>
    have hrest : ∀ m ∈ rest, ¬ StartsBlank m.bytes := by
      cases first
      · exact fun m hm => h m (List.mem_cons_of_mem _ hm)
      · exact h
    by_cases htakes : Takes name first l (blockBytes rest crlf) <;> by_cases hname : Named name l
    · exact cut_own_iff htakes hname
    · exact cut_other_iff hrest htakes hname
    · -- the right line is passed over
      rw [cut,erased,DeletedWell,if_neg htakes,if_pos hname,if_pos (Or.inr hname)]
      refine iff_of_false (fun heq => ?_) fun hand => htakes hand.1
      obtain ⟨y,hy,hyeq⟩ := Option.map_eq_some_iff.mp heq
      exact cut_ne (fun r hr => htakes (hname.takes hr)) hrest hy hyeq
    · rw [cut,erased,DeletedWell,if_neg htakes,if_neg hname,if_neg (not_or.mpr ⟨htakes,hname⟩),
        ← ih false hrest]
      exact (Option.map_injective fun _ _ => List.append_cancel_left).eq_iff

end Block

section Deletion
variable {header : Buffer} {name : List UInt8} {crlf : Bool}

theorem leaves_unique {result : Exec (Ret × Buffer)} {o o' : Option (List UInt8)} (h : Leaves header result o)
    (h' : Leaves header result o') : o = o' := by
  cases o <;> cases o'
  · rfl
  · obtain ⟨b,hb,_⟩ := h'
    cases h.symm.trans hb
  · obtain ⟨b,hb,_⟩ := h
    cases hb.symm.trans h'
  · obtain ⟨b,hb,_,hcont⟩ := h
    obtain ⟨b',hb',_,hcont'⟩ := h'
    obtain ⟨_,rfl⟩ := Prod.mk.inj (Except.ok.inj (hb.symm.trans hb'))
    rw [← hcont,← hcont']

/-- The loop behind the first line. -/
theorem delEntryLoop_run (h : header.Wf) (hname : 0 ∉ name) {lines : List HeaderLine} {front : List UInt8}
    (hstart : ∀ l ∈ lines, ¬ StartsBlank l.bytes) (hcont : header.content = front ++ blockBytes lines crlf)
    {fuel : ℕ} (hfuel : lines.length < fuel) :
    Leaves header (delEntryLoop header name name.length fuel
        (front ++ (blockBytes lines crlf).takeWhile isLineEnd).length)
      ((cut name crlf false lines).map (front ++ ·)) := by
  induction lines generalizing front fuel with
  | nil =>
    obtain ⟨fuel,rfl⟩ : ∃ n, fuel = n+1 := ⟨fuel-1,by omega⟩
    have hends : (blockBytes [] crlf).takeWhile isLineEnd = blockBytes [] crlf := by
      cases crlf <;> rfl
    rw [hends,← hcont,Buffer.content_length h]
    exact if_pos le_rfl
  | cons l rest ih =>
    obtain ⟨hl,hrest⟩ := List.forall_mem_cons.mp hstart
    rw [List.length_cons] at hfuel
    rw [blockBytes_cons] at hcont ⊢
    have hnext : header.content = (front ++ l.bytes) ++ blockBytes rest crlf := by
      rw [hcont,List.append_assoc]
    have hmap : ((cut name crlf false rest).map (l.bytes ++ ·)).map (front ++ ·) =
        (cut name crlf false rest).map ((front ++ l.bytes) ++ ·) := by
      rw [Option.map_map]
      congr 1
      funext y
      exact (List.append_assoc _ _ _).symm
    rw [cut]
    by_cases hends : l.bytes.dropWhile isLineEnd = []
    · have hall : l.bytes.takeWhile isLineEnd = l.bytes :=
        List.takeWhile_eq_self_iff.mpr (List.dropWhile_eq_nil_iff.mp hends)
      rw [if_neg fun htakes => htakes.1 hends,hmap,List.takeWhile_append,hall,if_pos rfl,← List.append_assoc]
      exact ih hrest hnext (by omega)
    have hseen : Folded (seen false l) := seen_folded hends
    have hsplit : passed false l ++ seen false l = l.bytes := passed_append_seen
    have hpassed : (l.bytes ++ blockBytes rest crlf).takeWhile isLineEnd = passed false l :=
      takeWhile_stopped hends
    obtain ⟨fuel,rfl⟩ : ∃ n, fuel = n+1 := ⟨fuel-1,by omega⟩
    have hfront : header.content = front ++ passed false l ++ seen false l ++ blockBytes rest crlf := by
      rw [hcont,List.append_assoc,List.append_assoc,← List.append_assoc (passed false l),hsplit]
    have hturn := delEntryLoop_turn h (front ++ passed false l) fuel hfront hseen (blockBytes_start hrest)
      blockBytes_nul hname
    rw [hpassed]
    by_cases htakes : Takes name false l (blockBytes rest crlf)
    · rw [if_pos htakes.2] at hturn
      rw [if_pos htakes,Option.map_some,← List.append_assoc]
      exact hturn
    · rw [if_neg fun hbegins => htakes ⟨hseen.ne_nil,hbegins⟩] at hturn
      rw [if_neg htakes,hmap,hturn,List.append_assoc front,hsplit]
      exact ih hrest hnext (by omega)

theorem length_lt_blockBytes (lines : List HeaderLine) (crlf : Bool) :
    lines.length < (blockBytes lines crlf).length := by
  induction lines with
  | nil => cases crlf <;> decide
  | cons l rest ih =>
    have := List.length_pos_of_ne_nil l.ne_nil
    rw [blockBytes_cons,List.length_append,List.length_cons]
    omega

/-- What a call leaves of a block of headers. -/
theorem headerDelEntry_cut (hwf : header.Wf) (h : HeaderBlock) (hcont : header.content = h.bytes)
    (hname : 0 ∉ name) :
    Leaves header (headerDelEntry header name name.length) (cut name h.crlf true h.lines) := by
  obtain ⟨lines,crlf,hstarts⟩ := h
  have hlen : header.len = (blockBytes lines crlf).length := by rw [← Buffer.content_length hwf,hcont]; rfl
  have hcount := length_lt_blockBytes lines crlf
  cases lines with
  | nil =>
    have hbytes : blockBytes [] crlf = emptyLine crlf := rfl
    have hturn := delEntryLoop_turn hwf [] header.len (x:=emptyLine crlf) (r:=[])
      (by rw [hcont,List.append_nil]; rfl) emptyLine_folded not_startsBlank_nil List.not_mem_nil hname
    rw [List.append_nil] at hturn
    by_cases hbegins : Begins name (emptyLine crlf)
    · rw [if_pos hbegins] at hturn
      rwa [cut,if_pos ⟨rfl,hbegins⟩]
    · rw [if_neg hbegins] at hturn
      rw [cut,if_neg fun hand => hbegins hand.2]
      obtain ⟨n,hn⟩ : ∃ n, header.len = n+1 := ⟨header.len-1,by omega⟩
      refine hturn.trans ?_
      rw [hn]
      exact if_pos (by rw [hlen,hbytes]; simp)
  | cons l rest =>
    replace hstarts : ∀ l ∈ rest, ¬ StartsBlank l.bytes := hstarts
    have hturn := delEntryLoop_turn hwf [] header.len (x:=l.bytes)
      (by rw [hcont,List.nil_append]; exact blockBytes_cons) l.folded (blockBytes_start hstarts) blockBytes_nul
      hname
    rw [cut]
    by_cases hbegins : Begins name (l.bytes ++ blockBytes rest crlf)
    · rw [if_pos hbegins] at hturn
      rwa [if_pos ⟨l.ne_nil,hbegins⟩]
    · have htakes : ¬ Takes name true l (blockBytes rest crlf) := fun htakes => hbegins htakes.2
      rw [if_neg hbegins] at hturn
      rw [if_neg htakes,headerDelEntry]
      refine hturn ▸ ?_
      rw [List.length_cons] at hcount
      exact delEntryLoop_run hwf hname hstarts (hcont.trans blockBytes_cons) (by omega)

/-- A header is deleted as it should be exactly when the first line that the code takes for it is the first
one of that name, and neither the empty line nor a CR follows. -/
theorem headerDelEntry_deletes_iff (hwf : header.Wf) (h : HeaderBlock) (hcont : header.content = h.bytes)
    (hname : 0 ∉ name) : DeletesHeader h name header ↔ DeletedWell name h.crlf true h.lines := by
  have hcut := headerDelEntry_cut hwf h hcont hname
  rw [← cut_eq_erased_iff true h.starts]
  exact ⟨leaves_unique hcut,fun heq => by rwa [DeletesHeader,← heq]⟩

/-- One header, `Hostname: x`. -/
def hostnameBlock : HeaderBlock where
  lines := [⟨[72,111,115,116,110,97,109,101,58,32,120,13,10],
    .line (t:=[72,111,115,116,110,97,109,101,58,32,120,13]) (by decide) (by decide),by decide,by decide⟩]
  crlf := true
  starts := by simp

/-- `Host` deletes the header `Hostname`, and the empty line with it. -/
theorem hostname_deleted : ¬ DeletesHeader hostnameBlock [72,111,115,116] (.holding hostnameBlock.bytes) := by
  have hcall : headerDelEntry (.holding hostnameBlock.bytes) [72,111,115,116] 4 =
      .ok (.ok,(Buffer.holding hostnameBlock.bytes).clean) := by rfl
  intro h
  cases hcall.symm.trans h

/-- `A:1` and `b:2`, behind a line feed each. -/
def twoHeaders : HeaderBlock where
  lines := [⟨[65,58,49,10],.line (t:=[65,58,49]) (by decide) (by decide),by decide,by decide⟩,
    ⟨[98,58,50,10],.line (t:=[98,58,50]) (by decide) (by decide),by decide,by decide⟩]
  crlf := false
  starts := by simp [StartsBlank]

theorem headerDelEntry_deletes_iff_first : DeletesHeader twoHeaders [97] (.holding twoHeaders.bytes) := by
  refine (headerDelEntry_deletes_iff (Buffer.holding_wf (by decide)) twoHeaders (Buffer.content_holding _)
    (by decide)).mpr ?_
  rw [twoHeaders,DeletedWell,if_pos (by decide),if_pos (by decide)]
  refine ⟨by decide,?_⟩
  rintro _ ⟨⟩
  rfl

end Deletion

end Http2d
