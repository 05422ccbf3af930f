import Http2d.ConfigSort
import Http2d.Library.WhileLoop

/-! The reader of configuration text: the scanner of the lines, on the block of the text's buffer. -/
namespace Http2d

open WhileLoop

/-- `http2d_min_str`. -/
def minStr : Option ℕ → Option ℕ → Option ℕ
  | none, none => none
  | some s1, none => some s1
  | none, some s2 => some s2
  | some s1, some s2 => some (if s1 < s2 then s1 else s2)

/-- The whites at the beginning of a line. -/
def isLineWhite (c : UInt8) : Bool := c = 32 || c = 9 || c = 13 || c = 10

/-- The loop that skips whites while `begin < eof`; `left` bytes are in front of `eof`. -/
def skipWhites (blk : List UInt8) : ℕ → ℕ → Exec ℕ
  | 0, start => .ok start
  | left+1, start => do
    let c ← peekByte blk start
    if isLineWhite c then skipWhites blk left (start+1) else .ok start

/-- `while (*tmp == ' ') tmp--`. -/
def backBlanks (blk : List UInt8) : ℕ → Exec ℕ
  | 0 => do
    let c ← peekByte blk 0
    if c = 32 then .error .fault else .ok 0
  | tmp+1 => do
    let c ← peekByte blk (tmp+1 : ℕ)
    if c = 32 then backBlanks blk tmp else .ok (tmp+1)

/-- `while (*tmp == ' ') tmp++`. -/
def skipBlanks : List UInt8 → ℕ → Exec ℕ
  | [], _ => .error .fault
  | b::bs, tmp => if b = 32 then skipBlanks bs (tmp+1) else .ok tmp

/-- The loop that takes the blanks from the end of the value. -/
def trimBlanks (tmp : List UInt8) : ℕ → ℕ
  | 0 => 0
  | valLen+1 => if tmp.getD valLen 0 = 32 then trimBlanks tmp valLen else valLen+1

/-- `" = "`. -/
def equalSign : List UInt8 := [32,61,32]

/-- The key and the value of the line at `start`, behind what their buffers hold; none without an
equal sign. -/
def readPair (blk : List UInt8) (start : ℕ) (key val : BufText) : Exec (Option (BufText × BufText)) := do
  match ← strstr equalSign (blk.drop start) start with
  | none => .ok none
  | some equal => do
    let tmp ← backBlanks blk equal
    let name ← peek blk start (sizeT ((tmp : ℤ)+1-start))
    let tmp ← skipBlanks (blk.drop (equal+3)) (equal+3)
    let n ← strlen (blk.drop tmp)
    let txt ← peek blk tmp (trimBlanks (blk.drop tmp) (cuint n))
    .ok (some (key.add name,val.add txt))

/-- The variables of `http2d_config_reader_parse_string`; `start` is its `begin`. -/
structure ConfigScan where
  blk : List UInt8
  start : ℕ
  conf : ConfigNode
  key : BufText
  val : BufText

/-- What follows the loop. -/
def finishConfig (conf : ConfigNode) : Exec (Ret × ConfigNode) := do
  let conf ← conf.sortLists
  .ok (conf.checkSanity,conf)

/-- What follows the label `next`. -/
def nextLine (eof eol : ℕ) (s : ConfigScan) : Turn ConfigScan (Exec (Ret × ConfigNode)) :=
  if eof ≤ eol+1 then .stop (finishConfig s.conf)
  else .again {s with start := eol+1, key := s.key.clean, val := s.val.clean}

section Parsing
variable (parse : ConfigNode → BufText → Exec (Ret × ConfigNode))

/-- One turn of the loop. -/
def configTurnExec (eof : ℕ) (s : ConfigScan) : Exec (Turn ConfigScan (Exec (Ret × ConfigNode))) := do
  let start ← skipWhites s.blk (eof-s.start) s.start
  let lf ← strchr 10 (s.blk.drop start) start
  let cr ← strchr 13 (s.blk.drop start) start
  let eol := (minStr lf cr).getD eof
  if eol-start ≤ 4 then .ok (nextLine eof eol {s with start := start})
  else if s.blk.length ≤ eol then .error .fault
  else do
    let s := {s with blk := s.blk.set eol 0, start := start}
    let c ← peekByte s.blk start
    if c = 35 then .ok (nextLine eof eol s)
    else
      match ← readPair s.blk start s.key s.val with
      | none => .ok (.stop (.ok (.error,s.conf)))
      | some (key,val) => do
        let r ← s.conf.addBuf parse key val
        if r.1 = .ok then .ok (nextLine eof eol {s with conf := r.2, key := key, val := val})
        else .ok (.stop (.ok (.error,r.2)))

def configTurn (eof : ℕ) (s : ConfigScan) : Turn ConfigScan (Exec (Ret × ConfigNode)) :=
  match configTurnExec parse eof s with
  | .ok t => t
  | .error e => .stop (.error e)

/-- `http2d_config_reader_parse_string` returns. -/
def ParsesString (conf : ConfigNode) (buf : Buffer) (result : Exec (Ret × ConfigNode)) : Prop :=
  ∃ fuel, run (configTurn parse buf.len) fuel ⟨buf.buf,0,conf,none,none⟩ = some result

end Parsing

/-- Nothing is taken from a value that does not end with a blank. -/
theorem trimBlanks_eq {xs ys : List UInt8} (h : xs.getLast? ≠ some 32) :
    trimBlanks (xs ++ ys) xs.length = xs.length := by
  rcases List.eq_nil_or_concat xs with rfl | ⟨init,b,rfl⟩
  · rfl
  · rw [List.concat_eq_append] at h ⊢
    have hb : b ≠ 32 := by simpa using h
    have hget : ((init ++ [b]) ++ ys).getD init.length 0 = b := by simp
    rw [List.length_append,List.length_singleton,trimBlanks,hget,if_neg hb]

/-- What has to be known of a line that is not a comment. -/
structure PairText (path v : List UInt8) : Prop where
  path_ne_nil : path ≠ []
  path_bytes : ∀ b ∈ path, 32 < b
  value_ne_nil : v ≠ []
  value_bytes : ∀ b ∈ v, b ≠ 0 ∧ b ≠ 10 ∧ b ≠ 13
  value_first : v.head? ≠ some 32
  value_last : v.getLast? ≠ some 32

section Pairs
variable {blk path v rest : List UInt8} {start : ℕ}

/-- The blanks in front of the equal sign are one. -/
theorem backBlanks_eq (hdrop : blk.drop start = path ++ 32::rest) (hne : path ≠ [])
    (hpath : ∀ b ∈ path, 32 < b) : backBlanks blk (start+path.length) = .ok (start+path.length-1) := by
  obtain ⟨init,b,rfl⟩ := (List.eq_nil_or_concat path).resolve_left hne
  rw [List.concat_eq_append] at hdrop hpath ⊢
  have hb : b ≠ 32 := by
    rintro rfl
    exact absurd (hpath 32 (by simp)) (by decide)
  have hblank := (peekByte_drop (drop_of_drop hdrop)).1
  rw [List.append_assoc] at hdrop
  have hlast := (peekByte_drop (drop_of_drop hdrop)).1
  have hlen : start+(init ++ [b]).length = start+init.length+1 := by simp; omega
  rw [hlen] at hblank ⊢
  rw [backBlanks,hblank,ok_bind,if_pos rfl,Nat.add_sub_cancel]
  cases hk : start+init.length with
  | zero =>
    have hzero : peekByte blk 0 = .ok b := by rwa [hk] at hlast
    rw [backBlanks,hzero,ok_bind,if_neg hb]
  | succ k =>
    rw [hk] at hlast
    rw [backBlanks,hlast,ok_bind,if_neg hb]

theorem readPair_eq (h : PairText path v) (hstart : start ≤ blk.length) (hlt : blk.length < 2^32)
    (hdrop : blk.drop start = path ++ (equalSign ++ (v ++ 0::rest))) (key val : BufText) :
    readPair blk start key val = .ok (some (key.add path,val.add v)) := by
  have hne32 : ∀ b ∈ path, b ≠ 32 ∧ b ≠ 0 := fun b hb =>
    ⟨fun h0 => absurd (h0 ▸ h.path_bytes b hb) (by decide),
      fun h0 => absurd (h0 ▸ h.path_bytes b hb) (by decide)⟩
  have hnul : 0 ∉ v := fun h0 => (h.value_bytes 0 h0).1 rfl
  have hpos := List.length_pos_iff.mpr h.path_ne_nil
  have hlens := congrArg List.length hdrop
  simp only [List.length_drop,List.length_append,List.length_cons] at hlens
  have hequal : strstr equalSign (blk.drop start) start = .ok (some (start+path.length)) := by
    rw [hdrop,strstr_append (c:=32) rfl hne32]
    rfl
  have hback : blk.drop start = path ++ 32::(61::32::(v ++ 0::rest)) := hdrop
  have htmp := backBlanks_eq hback h.path_ne_nil h.path_bytes
  have hsize : sizeT (((start+path.length-1 : ℕ) : ℤ)+1-start) = path.length := by
    simp only [sizeT]
    omega
  have hvalue : blk.drop (start+path.length+3) = v ++ 0::rest := by
    rw [← List.drop_drop,drop_of_drop hdrop]
    rfl
  have hblanks : skipBlanks (v ++ 0::rest) (start+path.length+3) = .ok (start+path.length+3) := by
    obtain ⟨c,cs,rfl⟩ := List.exists_cons_of_ne_nil h.value_ne_nil
    have hc : c ≠ 32 := fun h32 => h.value_first (by rw [h32]; rfl)
    rw [List.cons_append,skipBlanks,if_neg hc]
  have htrim : trimBlanks (v ++ 0::rest) (cuint v.length) = v.length := by
    rw [cuint_natCast (by omega),trimBlanks_eq h.value_last]
  have hthree : equalSign.length = 3 := rfl
  have hfit : start+path.length+3 ≤ blk.length := by omega
  rw [readPair,hequal]
  simp only [ok_bind,htmp,hsize,peek_drop hstart hdrop,hvalue,hblanks,strlen_eq hnul,htrim]
  rw [peek_drop hfit hvalue]
  rfl

end Pairs

end Http2d
