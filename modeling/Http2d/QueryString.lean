import Http2d.AvlBuffer
import Http2d.BufferOps
import Mathlib.Data.List.TakeWhile

/-! The parser of query strings.
A token is cut out of the block by a NUL in the place of the separator, and put back before the next
one is looked for; behind the last token the terminator itself is overwritten. -/
namespace Http2d

open WhileLoop Avl SearchTree

/-- The search of `strsep` in the string that stands at `p`. -/
def findDelim (delims : List UInt8) : List UInt8 → ℕ → Exec (Option ℕ)
  | [], _ => .error .fault
  | b::bs, p =>
    if b = 0 then .ok none else if b ∈ delims then .ok (some p) else findDelim delims bs (p+1)

/-- `strsep`: the token, the block, and where the string goes on. -/
def strsep (delims blk : List UInt8) : Option ℕ → Exec (Option ℕ × List UInt8 × Option ℕ)
  | none => .ok (none,blk,none)
  | some str => do
    match ← findDelim delims (blk.drop str) str with
    | none => .ok (some str,blk,none)
    | some q => .ok (some str,blk.set q 0,some (q+1))

/-- The table of arguments; a value is NULL or a buffer. -/
abbrev Arguments := Avl (List UInt8) (Option Buffer)

/-- `http2d_avl_add_ptr`, for the string that stands at `key`. -/
def avlAddPtr (avl : Arguments) (blk : List UInt8) (key : ℕ) (value : Option Buffer) :
    Exec (Ret × Arguments) := do
  let n ← strlen (blk.drop key)
  let k ← peek blk key (cuint n)
  avl.add nodeIsEmpty (nodeCmp false) k value

/-- What `http2d_parse_query_string` does with a token that is not empty; the allocation of a value
succeeds. -/
def addArgument (blk : List UInt8) (token : ℕ) (arguments : Arguments) :
    Exec (List UInt8 × Arguments) := do
  match ← strchr 61 (blk.drop token) token with
  | some equ => do
    let n ← strlen (blk.drop (equ+1))
    let value ← Buffer.init.add blk (equ+1 : ℕ) n
    let blk := blk.set equ 0
    let r ← avlAddPtr arguments blk token (some value.2)
    .ok (blk.set equ 61,r.2)
  | none => do
    let r ← avlAddPtr arguments blk token none
    .ok (blk,r.2)

/-- The variables of `http2d_parse_query_string`; `string` is NULL behind the last token. -/
structure QueryScan where
  blk : List UInt8
  string : Option ℕ
  arguments : Arguments

/-- One turn of the loop, and what follows it, for a string of length `len`. -/
def queryTurnExec (len : ℕ) (s : QueryScan) :
    Exec (Turn QueryScan (Exec (Ret × List UInt8 × Arguments))) := do
  match ← strsep [38] s.blk s.string with
  | (none,blk,_) =>
    .ok (.stop (if len < blk.length then .ok (.ok,blk.set len 0,s.arguments) else .error .fault))
  | (some token,blk,string) => do
    let c ← peekByte blk token
    if c = 0 then .ok (.again ⟨blk.set token 38,string,s.arguments⟩)
    else do
      let r ← addArgument blk token s.arguments
      let n ← strlen (r.1.drop token)
      .ok (.again ⟨r.1.set (token+n) 38,string,r.2⟩)

def queryTurn (len : ℕ) (s : QueryScan) : Turn QueryScan (Exec (Ret × List UInt8 × Arguments)) :=
  match queryTurnExec len s with
  | .ok t => t
  | .error e => .stop (.error e)

/-- `http2d_parse_query_string` returns, with the block of the query string and the table. -/
def ParsesQuery (qstring : Buffer) (arguments : Arguments) (result : Exec (Ret × List UInt8 × Arguments)) :
    Prop :=
  if qstring.isEmpty then result = .ok (.ok,qstring.buf,arguments)
  else ∃ fuel, run (queryTurn qstring.len) fuel ⟨qstring.buf,some 0,arguments⟩ = some result

/-- The key of a token, up to its first equal sign. -/
def queryKey (tok : List UInt8) : List UInt8 := tok.takeWhile (· ≠ 61)

/-- The text behind the first equal sign. -/
def queryText (tok : List UInt8) : Option (List UInt8) :=
  if 61 ∈ tok then some (tok.dropWhile (· ≠ 61)).tail else none

/-- What a query string says of a key: the first token with it decides. -/
def queryValue (q k : List UInt8) : Option (Option (List UInt8)) :=
  if k = [] then none else ((q.splitOn 38).find? fun tok => queryKey tok = k).map queryText

section Table
variable {t : Arguments} {q : List UInt8 → Option (Option (List UInt8))}

/-- The keys that the table can tell apart. -/
def QueryKeys : Set (List UInt8) := {k | IsKey k ∧ k.length < 32768}

theorem queryKeys_order : StrictOn (narrowed (nodeCmp false)) QueryKeys := by
  refine SameSign.strictOn (bufferCmpBuf_order.mono fun k hk => hk.1) fun a ha b hb => ?_
  refine ((narrowed_sign_iff ha.1 hb.1).mpr ?_).1
  have := ha.2
  have := hb.2
  unfold LengthsNear
  dsimp only
  omega

/-- The table holds the values that `q` says, as the contents of its buffers. -/
def Tabulates (t : Arguments) (q : List UInt8 → Option (Option (List UInt8))) : Prop :=
  ∃ T m, t.Holds (nodeCmp false) QueryKeys T ∧ Stores t T m ∧
    ∀ k, (m k).map (Option.map Buffer.content) = q k

theorem tabulates_init (nodes : ℕ → AvlNode) (key : ℕ → List UInt8) (value : ℕ → Option Buffer) :
    Tabulates (init nodes key value) fun _ => none :=
  ⟨.nil,fun _ => none,holds_init _ _ _ _ _,stores_init _ _ _,fun _ => rfl⟩

/-- What a value says of a key that is not there yet. -/
def queryStep (q : List UInt8 → Option (Option (List UInt8))) (tok : List UInt8) :
    List UInt8 → Option (Option (List UInt8)) :=
  if queryKey tok = [] ∨ (q (queryKey tok)).isSome then q
  else Function.update q (queryKey tok) (some (queryText tok))

/-- The table takes the value of a new key, and no other. -/
theorem Tabulates.add (h : Tabulates t q) {tok : List UInt8} (value : Option Buffer) (hnul : 0 ∉ tok)
    (hshort : (queryKey tok).length < 32768) (hvalue : value.map Buffer.content = queryText tok) :
    ∃ ret t', t.add nodeIsEmpty (nodeCmp false) (queryKey tok) value = .ok (ret,t') ∧
      Tabulates t' (queryStep q tok) := by
  obtain ⟨T,m,hT,hm,hq⟩ := h
  by_cases hnil : queryKey tok = []
  · obtain ⟨t',hadd,hT',hm'⟩ := add_empty hT hm
      (by rw [hnil]; rfl : nodeIsEmpty (queryKey tok) = true) value
    exact ⟨_,t',hadd,T,m,hT',hm',by rwa [queryStep,if_pos (Or.inl hnil)]⟩
  have hkey : queryKey tok ∈ QueryKeys :=
    ⟨⟨hnil,fun h0 => hnul ((List.takeWhile_prefix _).subset h0),by omega⟩,hshort⟩
  have hempty : nodeIsEmpty (queryKey tok) = false := by simpa [nodeIsEmpty] using hnil
  obtain ⟨t',T',hcall,hT',hm'⟩ := call_stores queryKeys_order hT hm
    (a:=.add (queryKey tok) value) hkey hempty
  obtain ⟨⟨ret,t₁⟩,hadd,hret⟩ := bind_ok_inv hcall
  obtain rfl := (Prod.mk.inj (Except.ok.inj hret)).2
  refine ⟨ret,t₁,hadd,T',_,hT',hm',fun k => ?_⟩
  have hsome : (q (queryKey tok)).isSome = (m (queryKey tok)).isSome := by rw [← hq,Option.isSome_map]
  simp only [mapCall,queryStep,hnil,false_or,hsome]
  split_ifs
  · exact hq k
  · dsimp only
    by_cases hk : k = queryKey tok
    · rw [hk,Function.update_self,Function.update_self,← hvalue]
      rfl
    · rw [Function.update_of_ne hk,Function.update_of_ne hk]
      exact hq k

/-- The tokens one after another: the first one with a key decides. -/
theorem foldl_queryStep (toks : List (List UInt8)) (k : List UInt8) :
    toks.foldl queryStep q k = if k = [] then q k
      else (q k).or ((toks.find? fun tok => queryKey tok = k).map queryText) := by
  induction toks generalizing q with
  | nil => simp
  | cons tok toks ih =>
    rw [List.foldl_cons,ih]
    by_cases hnil : k = []
    · subst hnil
      rw [if_pos rfl,if_pos rfl,queryStep]
      split_ifs with h
      · rfl
      · rw [not_or] at h
        exact Function.update_of_ne (Ne.symm h.1) _ _
    rw [if_neg hnil,if_neg hnil]
    by_cases hk : queryKey tok = k
    · subst hk
      rw [List.find?_cons_of_pos (by simp),queryStep]
      split_ifs with h
      · obtain ⟨v,hv⟩ := Option.isSome_iff_exists.mp (h.resolve_left hnil)
        rw [hv]
        rfl
      · rw [not_or,Bool.not_eq_true,Option.isSome_eq_false_iff,Option.isNone_iff_eq_none] at h
        rw [Function.update_self,h.2]
        rfl
    · rw [List.find?_cons_of_neg (by simpa using hk),queryStep]
      split_ifs
      · rfl
      · rw [Function.update_of_ne (Ne.symm hk)]

end Table

section Tokens
variable {blk tok rest : List UInt8} {p : ℕ}

theorem findDelim_append {xs ys : List UInt8} (h : ∀ b ∈ xs, b ≠ 38 ∧ b ≠ 0) :
    findDelim [38] (xs ++ ys) p = findDelim [38] ys (p+xs.length) := by
  induction xs generalizing p with
  | nil => rfl
  | cons b bs ih =>
    obtain ⟨⟨hc,h0⟩,hbs⟩ := List.forall_mem_cons.mp h
    rw [List.cons_append,findDelim,if_neg h0,if_neg (by simpa using hc),ih hbs,List.length_cons]
    congr 1
    omega

/-- A byte of a block is written where a string that stands at `p` ends. -/
theorem drop_set_append {xs ys : List UInt8} {c d : UInt8} (h : blk.drop p = xs ++ c::ys) :
    (blk.set (p+xs.length) d).drop p = xs ++ d::ys := by
  rw [List.drop_set,if_neg (by omega),h,Nat.add_sub_cancel_left,List.set_append_right _ _ le_rfl,
    Nat.sub_self]
  rfl

theorem set_set_self {xs ys : List UInt8} {c d : UInt8} (h : blk.drop p = xs ++ c::ys) :
    (blk.set (p+xs.length) d).set (p+xs.length) c = blk := by
  obtain ⟨_,_,hlt⟩ := peekByte_drop (drop_of_drop h)
  have hc : blk[p+xs.length] = c := by
    have hget := congrArg List.head? (drop_of_drop h)
    rw [List.head?_drop,List.getElem?_eq_getElem hlt] at hget
    exact Option.some.inj hget
  rw [List.set_set,← hc,List.set_getElem_self]

/-- A new buffer takes any text that a block can hold. -/
theorem add_init (obj : List UInt8) (off n : ℕ) (h : off+n ≤ obj.length) (hn : n < 2^32) :
    ∃ b, Buffer.init.add obj off n = .ok (.ok,b) ∧ b.content = Bytes.slice obj off n := by
  by_cases h0 : n = 0
  · subst h0
    exact ⟨.init,rfl,by simp [Buffer.content,Buffer.init,Bytes.slice]⟩
  have hsl : (Bytes.slice obj off n).length = n := Bytes.slice_length h
  have havail : cuint (((0 : ℕ) : ℤ)-(0 : ℕ)) = 0 := by decide
  have hzero : cint 0 = 0 := by decide
  have hwant : sizeT ((n : ℤ)+1) = n+1 := sizeT_succ (by omega)
  have hinc : sizeT (n-0) = n := by rw [sub_zero,sizeT_natCast (by omega)]
  have hnew : sizeT (((0 : ℕ) : ℤ)+n+reallocExtraSize+1) = n+17 := by
    rw [Nat.cast_zero,zero_add]
    exact sizeT_natCast (n:=n+17) (by omega)
  have hroom : Buffer.init.makeRoom n = (.ok,⟨List.replicate (n+17) 0,cuint ((n+17 : ℕ) : ℤ),0⟩) := by
    simp only [Buffer.makeRoom,Buffer.init,havail,hwant,hzero,hinc,Nat.succ_pos,if_true,
      Buffer.reallocIncBufsize,hnew]
    rw [realloc_eq _ _ (by simp) (by omega)]
    simp
  have hlen : cuint (((0 : ℕ) : ℤ)+n) = n := by rw [Nat.cast_zero,zero_add,cuint_natCast hn]
  have hfit : 0+(Bytes.slice obj off n).length ≤ (List.replicate (n+17) (0 : UInt8)).length := by
    rw [hsl,List.length_replicate]; omega
  have hblk := Bytes.overwrite_length hfit
  rw [List.length_replicate] at hblk
  refine ⟨⟨(Bytes.overwrite (List.replicate (n+17) 0) 0 (Bytes.slice obj off n)).set n 0,
    cuint ((n+17 : ℕ) : ℤ),n⟩,?_,?_⟩
  · simp only [Buffer.add,if_neg h0,hroom,peek_ok _ _ _ h,ok_bind]
    rw [Buffer.write_ok hfit,ok_bind]
    dsimp only
    rw [hlen,Buffer.setLen,if_pos (by rw [hblk]; omega)]
    rfl
  · have htake := @Bytes.take_overwrite _ (Bytes.slice obj off n) _
      (by omega : 0 ≤ (List.replicate (n+17) (0 : UInt8)).length)
    rw [Nat.zero_add,hsl,List.take_zero,List.nil_append] at htake
    rw [Buffer.content]
    dsimp only
    rw [List.take_set_of_le le_rfl,htake]

/-- A token with an equal sign is its key, the sign and its text. -/
theorem queryKey_split (h : 61 ∈ tok) :
    ∃ txt, tok = queryKey tok ++ 61::txt ∧ queryText tok = some txt := by
  have hsplit := List.takeWhile_append_dropWhile (p:=(· ≠ (61 : UInt8))) (l:=tok)
  cases hd : tok.dropWhile (· ≠ (61 : UInt8)) with
  | nil =>
    rw [List.dropWhile_eq_nil_iff] at hd
    exact absurd (hd 61 h) (by decide)
  | cons c txt =>
    have hc : c = 61 := by
      have hfirst := List.head?_dropWhile_not (· ≠ (61 : UInt8)) tok
      rw [hd] at hfirst
      simpa using hfirst
    rw [hd,hc] at hsplit
    refine ⟨txt,hsplit.symm,?_⟩
    rw [queryText,if_pos h,hd,List.tail_cons]

theorem queryKey_ne (b : UInt8) (hb : b ∈ queryKey tok) : b ≠ 61 := by
  simpa using List.mem_takeWhile_imp hb

variable {t : Arguments} {q : List UInt8 → Option (Option (List UInt8))}

theorem avlAddPtr_spec {key : List UInt8} {value : Option Buffer} (hp : p ≤ blk.length)
    (hblk : blk.length < 2^32) (hdrop : blk.drop p = key ++ 0::rest) (hnul : 0 ∉ key) :
    avlAddPtr t blk p value = t.add nodeIsEmpty (nodeCmp false) key value := by
  have hlens := congrArg List.length hdrop
  rw [List.length_drop,List.length_append,List.length_cons] at hlens
  have hn : cuint (key.length : ℤ) = key.length := cuint_natCast (by omega)
  rw [avlAddPtr,hdrop,strlen_eq hnul,ok_bind,hn,peek_drop hp hdrop,ok_bind]

/-- A token is added, and the block is again what it was. -/
theorem addArgument_spec (hp : p ≤ blk.length) (hblk : blk.length < 2^32)
    (hdrop : blk.drop p = tok ++ 0::rest) (hnul : 0 ∉ tok) (hshort : (queryKey tok).length < 32768)
    (h : Tabulates t q) :
    ∃ t', addArgument blk p t = .ok (blk,t') ∧ Tabulates t' (queryStep q tok) := by
  have hlens := congrArg List.length hdrop
  rw [List.length_drop,List.length_append,List.length_cons] at hlens
  by_cases heq : 61 ∈ tok
  · obtain ⟨txt,hsplit,htext⟩ := queryKey_split heq
    have hkeynul : 0 ∉ queryKey tok := fun h0 => hnul ((List.takeWhile_prefix _).subset h0)
    have htxtnul : 0 ∉ txt := fun h0 => hnul (by rw [hsplit]; simp [h0])
    have hbytes : ∀ b ∈ queryKey tok, b ≠ 61 ∧ b ≠ 0 := fun b hb =>
      ⟨queryKey_ne b hb,fun h0 => hkeynul (h0 ▸ hb)⟩
    have hfull : blk.drop p = queryKey tok ++ 61::(txt ++ 0::rest) := by
      rw [hdrop]
      conv_lhs => rw [hsplit]
      rw [List.append_assoc,List.cons_append]
    have hequ : strchr 61 (blk.drop p) p = .ok (some (p+(queryKey tok).length)) := by
      rw [hfull,strchr_append hbytes,strchr,if_pos rfl]
    have hval : blk.drop (p+(queryKey tok).length+1) = txt ++ 0::rest :=
      (peekByte_drop (drop_of_drop hfull)).2.1
    have htl := congrArg List.length hsplit
    rw [List.length_append,List.length_cons] at htl
    have hcut := drop_set_append (d:=0) hfull
    obtain ⟨b,hadd,hcontent⟩ := add_init blk (p+(queryKey tok).length+1) txt.length
      (by omega) (by omega)
    rw [Bytes.slice,hval,List.take_left] at hcontent
    obtain ⟨ret,t',htab,ht'⟩ := h.add (some b) hnul hshort (by rw [htext,← hcontent]; rfl)
    refine ⟨t',?_,ht'⟩
    rw [addArgument,hequ,ok_bind]
    dsimp only
    rw [hval,strlen_eq htxtnul,ok_bind,hadd,ok_bind]
    dsimp only
    rw [avlAddPtr_spec (by rw [List.length_set]; exact hp) (by rw [List.length_set]; exact hblk) hcut hkeynul,
      htab,ok_bind,set_set_self hfull]
  · have hbytes : ∀ b ∈ tok, b ≠ 61 ∧ b ≠ 0 := fun b hb =>
      ⟨fun h61 => heq (h61 ▸ hb),fun h0 => hnul (h0 ▸ hb)⟩
    have hkey : queryKey tok = tok := List.takeWhile_eq_self_iff.mpr fun b hb => by
      simpa using (hbytes b hb).1
    have hequ : strchr 61 (blk.drop p) p = .ok none := by
      rw [hdrop,strchr_append hbytes,strchr_nul (by decide)]
    obtain ⟨ret,t',htab,ht'⟩ := h.add none hnul hshort (by rw [queryText,if_neg heq]; rfl)
    refine ⟨t',?_,ht'⟩
    rw [addArgument,hequ,ok_bind]
    dsimp only
    rw [avlAddPtr_spec hp hblk hdrop hnul,← hkey,htab,ok_bind]

end Tokens

section Scan
variable {blk tok y rest : List UInt8} {p len : ℕ} {t : Arguments} {s : QueryScan}
  {q : List UInt8 → Option (Option (List UInt8))}

theorem queryStep_nil : queryStep q [] = q := if_pos (Or.inl rfl)

/-- A turn adds its token and puts a separator behind it. -/
theorem queryTurn_token (len : ℕ) {string : Option ℕ}
    (hsep : strsep [38] s.blk s.string = .ok (some p,blk,string))
    (hblk : blk.length < 2^32) (hdrop : blk.drop p = tok ++ 0::rest) (hnul : 0 ∉ tok)
    (hshort : (queryKey tok).length < 32768) (h : Tabulates s.arguments q) :
    ∃ t, queryTurn len s = .again ⟨blk.set (p+tok.length) 38,string,t⟩ ∧ Tabulates t (queryStep q tok) := by
  cases tok with
  | nil =>
    rw [List.nil_append] at hdrop
    refine ⟨s.arguments,?_,by rwa [queryStep_nil]⟩
    rw [queryTurn,queryTurnExec,hsep,ok_bind]
    dsimp only
    rw [(peekByte_drop hdrop).1,ok_bind,if_pos rfl]
    rfl
  | cons c cs =>
    obtain ⟨hpeek,_,hlt⟩ := peekByte_drop hdrop
    have hc : c ≠ 0 := fun h0 => hnul (h0 ▸ List.mem_cons_self)
    obtain ⟨t',hadd,ht'⟩ := addArgument_spec hlt.le hblk hdrop hnul hshort h
    refine ⟨t',?_,ht'⟩
    rw [queryTurn,queryTurnExec,hsep,ok_bind]
    dsimp only
    rw [hpeek,ok_bind,if_neg hc,hadd,ok_bind]
    dsimp only
    rw [hdrop,strlen_eq hnul,ok_bind]

theorem strsep_found (h : 38 ∉ tok) (hnul : 0 ∉ tok) (hdrop : blk.drop p = tok ++ 38::rest) :
    strsep [38] blk (some p) = .ok (some p,blk.set (p+tok.length) 0,some (p+tok.length+1)) := by
  have hbytes : ∀ b ∈ tok, b ≠ 38 ∧ b ≠ 0 := fun b hb => ⟨fun h38 => h (h38 ▸ hb),fun h0 => hnul (h0 ▸ hb)⟩
  rw [strsep,hdrop,findDelim_append hbytes,findDelim,if_neg (by decide),if_pos (by decide),ok_bind]

theorem strsep_last (h : 38 ∉ tok) (hnul : 0 ∉ tok) (hdrop : blk.drop p = tok ++ 0::rest) :
    strsep [38] blk (some p) = .ok (some p,blk,none) := by
  have hbytes : ∀ b ∈ tok, b ≠ 38 ∧ b ≠ 0 := fun b hb => ⟨fun h38 => h (h38 ▸ hb),fun h0 => hnul (h0 ▸ hb)⟩
  rw [strsep,hdrop,findDelim_append hbytes,findDelim,if_pos rfl,ok_bind]

/-- The last turn puts the terminator back. -/
theorem queryTurn_end (t : Arguments) (hlen : len < blk.length) :
    queryTurn len ⟨blk,none,t⟩ = .stop (.ok (.ok,blk.set len 0,t)) := by
  simp only [queryTurn,queryTurnExec,strsep,ok_bind,if_pos hlen]

/-- The loop takes the tokens one after another and leaves the block as it was. -/
theorem query_run (hblk : blk.length < 2^32) (hdrop : blk.drop p = y ++ 0::rest) (hend : p+y.length = len)
    (hnul : 0 ∉ y) (hshort : ∀ tok ∈ y.splitOn 38, (queryKey tok).length < 32768) (h : Tabulates t q) :
    ∃ fuel t', run (queryTurn len) fuel ⟨blk,some p,t⟩ = some (.ok (.ok,blk,t')) ∧
      Tabulates t' ((y.splitOn 38).foldl queryStep q) := by
  generalize hn : y.length = n
  induction n using Nat.strong_induction_on generalizing y p t q with
  | _ n ih =>
    by_cases hamp : 38 ∈ y
    · obtain ⟨tok,y',rfl,htok⟩ := List.eq_append_cons_of_mem hamp
      rw [List.splitOn_append_cons_self_of_not_mem htok] at hshort ⊢
      rw [List.append_assoc,List.cons_append] at hdrop
      have htoknul : 0 ∉ tok := fun h0 => hnul (List.mem_append_left _ h0)
      have hnul' : 0 ∉ y' := fun h0 => hnul (List.mem_append_right _ (List.mem_cons_of_mem _ h0))
      obtain ⟨t₁,hturn,h₁⟩ := queryTurn_token len (s:=⟨blk,some p,t⟩)
        (strsep_found htok htoknul hdrop) (by rw [List.length_set]; exact hblk) (drop_set_append hdrop)
        htoknul (hshort tok List.mem_cons_self) h
      rw [set_set_self hdrop] at hturn
      rw [List.length_append,List.length_cons] at hend hn
      obtain ⟨fuel,t₂,hrun,h₂⟩ := ih y'.length (by omega) (peekByte_drop (drop_of_drop hdrop)).2.1
        (by omega) hnul' (fun tok' h' => hshort tok' (List.mem_cons_of_mem _ h')) h₁ rfl
      exact ⟨fuel+1,t₂,by rw [run_again hturn,hrun],h₂⟩
    · rw [List.splitOn_eq_singleton hamp] at hshort ⊢
      obtain ⟨t₁,hturn,h₁⟩ := queryTurn_token len (s:=⟨blk,some p,t⟩)
        (strsep_last hamp hnul hdrop) hblk hdrop hnul (hshort y List.mem_cons_self) h
      have hlt := (peekByte_drop (drop_of_drop hdrop)).2.2
      have hstop := queryTurn_end t₁
        (by rw [List.length_set]; exact hlt : p+y.length < (blk.set (p+y.length) 38).length)
      rw [set_set_self hdrop] at hstop
      subst hend
      exact ⟨2,t₁,by rw [run_again hturn,run_stop hstop],h₁⟩

/-- What the table says when it is asked for a key. -/
theorem Tabulates.get (h : Tabulates t q) {k : List UInt8} (hk : k ∈ QueryKeys) :
    ∃ v, t.avlGenericGet nodeIsEmpty (nodeCmp false) k =
        .ok (if (q k).isSome then .ok else .notFound,v) ∧ v.map (Option.map Buffer.content) = q k := by
  obtain ⟨T,m,hT,hm,hq⟩ := h
  obtain ⟨t',T',hcall,_⟩ := call_stores queryKeys_order hT hm (a:=.get k) hk
    (by simpa [nodeIsEmpty] using hk.1.ne_nil : nodeIsEmpty k = false)
  obtain ⟨r,hget,hr⟩ := bind_ok_inv hcall
  obtain ⟨rfl,-⟩ := Prod.mk.inj (Except.ok.inj hr)
  refine ⟨m k,?_,hq k⟩
  have hsome : (q k).isSome = (m k).isSome := by rw [← hq,Option.isSome_map]
  rw [hget,hsome]
  cases hmk : m k <;> simp [mapCall,hmk]

end Scan

/-- Parsing a query string ends, leaves the block as it was, and fills the table with the first value
of each key. -/
theorem parse_query_string {qstring : Buffer} (hq : qstring.Wf) (hnul : 0 ∉ qstring.content)
    (hshort : ∀ tok ∈ qstring.content.splitOn 38, (queryKey tok).length < 32768)
    (nodes : ℕ → AvlNode) (key : ℕ → List UInt8) (value : ℕ → Option Buffer) :
    ∃ t, ParsesQuery qstring (init nodes key value) (.ok (.ok,qstring.buf,t)) ∧
      Tabulates t (queryValue qstring.content) ∧
      ∀ k ∈ QueryKeys, ∃ v, t.avlGenericGet nodeIsEmpty (nodeCmp false) k =
          .ok (if (queryValue qstring.content k).isSome then .ok else .notFound,v) ∧
        v.map (Option.map Buffer.content) = queryValue qstring.content k := by
  have hvalue : (qstring.content.splitOn 38).foldl queryStep (fun _ => none) = queryValue qstring.content := by
    funext k
    rw [foldl_queryStep,queryValue]
    split_ifs <;> rfl
  obtain ⟨t,hparse,ht⟩ : ∃ t, ParsesQuery qstring (init nodes key value) (.ok (.ok,qstring.buf,t)) ∧
      Tabulates t (queryValue qstring.content) := by
    by_cases hempty : qstring.len = 0
    · refine ⟨init nodes key value,?_,?_⟩
      · rw [ParsesQuery,if_pos (by simp [Buffer.isEmpty,hempty])]
      · rw [← hvalue,Buffer.content_nil hempty,List.splitOn_nil,List.foldl_cons,List.foldl_nil,queryStep_nil]
        exact tabulates_init nodes key value
    · obtain ⟨rest,hrest⟩ := hq.block (hq.buf_ne_nil (Nat.pos_of_ne_zero hempty))
      have hsz := hq.size_eq
      have hslt := hq.size_lt
      obtain ⟨fuel,t,hrun,ht⟩ := query_run (p:=0) (by omega : qstring.buf.length < 2^32)
        (by rw [List.drop_zero]; exact hrest) (by rw [Nat.zero_add,Buffer.content_length hq]) hnul hshort
        (tabulates_init nodes key value)
      refine ⟨t,?_,hvalue ▸ ht⟩
      rw [ParsesQuery,if_neg (by simp [Buffer.isEmpty,hempty])]
      exact ⟨fuel,hrun⟩
  exact ⟨t,hparse,ht,fun k hk => ht.get hk⟩

/-- `a=1&&a=2&b`. -/
theorem parse_query_string_twice : ∃ t : Arguments,
    ParsesQuery (.holding [97,61,49,38,38,97,61,50,38,98]) (init (fun _ => .init) (fun _ => []) fun _ => none)
      (.ok (.ok,[97,61,49,38,38,97,61,50,38,98,0],t)) ∧
    Tabulates t (queryValue [97,61,49,38,38,97,61,50,38,98]) ∧
    queryValue [97,61,49,38,38,97,61,50,38,98] [97] = some (some [49]) ∧
    queryValue [97,61,49,38,38,97,61,50,38,98] [98] = some none := by
  obtain ⟨t,hparse,ht,_⟩ := parse_query_string
    (@Buffer.holding_wf [97,61,49,38,38,97,61,50,38,98] (by decide)) (by decide) (by decide)
    (fun _ => .init) (fun _ => []) fun _ => none
  exact ⟨t,hparse,ht,by decide,by decide⟩

end Http2d
