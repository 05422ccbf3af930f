import Http2d.Buffer
import Http2d.Library.WhileLoop
import Mathlib.Data.List.TakeWhile

/-! The search for the end of the headers.
The two loops of the search are one scan that takes byte after byte and remembers the run of line ends
it stands in. What the search returns is read off the first run that the scan does not pass. -/
namespace Http2d

open WhileLoop

/-- `MAX_HEADER_LEN`. -/
def maxHeaderLen : ℕ := 16*1024

/-- A result, with `*end` and `*sep_len` where they are set. -/
abbrev HeaderEnd := Ret × Option (ℕ × ℕ)

/-- The inner loop of `http2d_find_header_end_cstr`, with `left` bytes in front of `fin`; where it does
not return it leaves `p`. -/
def lineEndLoop (cStr : List UInt8) (start : ℕ) : ℕ → ℕ → ℕ → ℕ → Exec (ℕ ⊕ HeaderEnd)
  | 0, p, _, _ => .ok (.inl p)
  | left+1, p, crN, lfN => do
    let c ← peekByte cStr p
    if c = 10 ∧ lfN+1 = 2 then .ok (.inr (.ok,some (start,p-start+1)))
    else if c ≠ 10 ∧ c ≠ 13 then .ok (.inl p)
    else
      let crN := if c = 10 then crN else crN+1
      let lfN := if c = 10 then lfN+1 else lfN
      if crN = 1 ∧ lfN = 2 ∨ crN = 2 ∧ lfN = 0 then .ok (.inr (.error,none))
      else lineEndLoop cStr start left (p+1) crN lfN

/-- The outer loop. -/
def headerEndLoop (cStr : List UInt8) (fin : ℕ) : ℕ → ℕ → Exec HeaderEnd
  | 0, _ => .error .fault
  | fuel+1, p =>
    if fin ≤ p then .ok (.notFound,none)
    else do
      let c ← peekByte cStr p
      if c = 13 ∨ c = 10 then
        match ← lineEndLoop cStr p (fin-p) p 0 0 with
        | .inr r => .ok r
        | .inl p => headerEndLoop cStr fin fuel (p+1)
      else headerEndLoop cStr fin fuel (p+1)

/-- `http2d_find_header_end_cstr`; no bytes stand for NULL. -/
def findHeaderEndCstr (cStr : List UInt8) (cLen : ℤ) : Exec HeaderEnd :=
  if cStr = [] ∨ cLen ≤ 0 then .ok (.notFound,none)
  else
    let fin := min cLen.toNat maxHeaderLen
    headerEndLoop cStr fin (fin+1) 0

/-- `http2d_find_header_end`. -/
def findHeaderEnd (b : Buffer) : Exec HeaderEnd := findHeaderEndCstr b.buf (cint b.len)

section Scan

/-- Where the scan stands: in the text, or in a run of line ends that began at `start`. -/
inductive HeaderScan
  | text
  | run (start crN lfN : ℕ)

/-- What a byte in a run of line ends does. -/
def lineEndByte (p : ℕ) (c : UInt8) (start crN lfN : ℕ) : Turn HeaderScan HeaderEnd :=
  if c = 10 ∧ lfN+1 = 2 then .stop (.ok,some (start,p-start+1))
  else if c ≠ 10 ∧ c ≠ 13 then .again .text
  else
    let crN := if c = 10 then crN else crN+1
    let lfN := if c = 10 then lfN+1 else lfN
    if crN = 1 ∧ lfN = 2 ∨ crN = 2 ∧ lfN = 0 then .stop (.error,none)
    else .again (.run start crN lfN)

def headerByte (p : ℕ) (c : UInt8) : HeaderScan → Turn HeaderScan HeaderEnd
  | .text => if c = 13 ∨ c = 10 then lineEndByte p c p 0 0 else .again .text
  | .run start crN lfN => lineEndByte p c start crN lfN

/-- The scan of the bytes from `p` on. -/
def headerScan : HeaderScan → ℕ → List UInt8 → HeaderEnd
  | _, _, [] => (.notFound,none)
  | s, p, c::t =>
    match headerByte p c s with
    | .stop r => r
    | .again s => headerScan s (p+1) t

variable {cStr t : List UInt8} {c : UInt8} {p start crN lfN : ℕ}

theorem headerScan_stop {s : HeaderScan} {r : HeaderEnd} (h : headerByte p c s = .stop r) :
    headerScan s p (c::t) = r := by rw [headerScan,h]

theorem headerScan_again {s s' : HeaderScan} (h : headerByte p c s = .again s') :
    headerScan s p (c::t) = headerScan s' (p+1) t := by rw [headerScan,h]

/-- An answer other than `ret_not_found` does not change when more bytes follow. -/
theorem headerScan_append {s : HeaderScan} {x y : List UInt8} (h : (headerScan s p x).1 ≠ .notFound) :
    headerScan s p (x ++ y) = headerScan s p x := by
  induction x generalizing s p with
  | nil => exact absurd rfl h
  | cons c t ih =>
    rw [List.cons_append]
    cases hb : headerByte p c s with
    | stop r => rw [headerScan_stop hb,headerScan_stop hb]
    | again s' =>
      rw [headerScan_again hb] at h
      rw [headerScan_again hb,headerScan_again hb,ih h]

theorem lineEndLoop_succ {left : ℕ} (h : peekByte cStr p = .ok c) :
    lineEndLoop cStr start (left+1) p crN lfN =
      match lineEndByte p c start crN lfN with
      | .stop r => .ok (.inr r)
      | .again .text => .ok (.inl p)
      | .again (.run _ crN lfN) => lineEndLoop cStr start left (p+1) crN lfN := by
  rw [lineEndLoop,h,ok_bind]
  unfold lineEndByte
  dsimp only
  split_ifs <;> rfl

/-- The bytes of a run stay in the run that they are in. -/
theorem lineEndByte_run {start' crN' lfN' : ℕ}
    (h : lineEndByte p c start crN lfN = .again (.run start' crN' lfN')) : start' = start := by
  unfold lineEndByte at h
  dsimp only at h
  split_ifs at h <;> cases h <;> rfl

/-- The inner loop is the scan of the run; behind the run the scan is in the text again. -/
theorem lineEndLoop_eq (start crN lfN : ℕ) {left : ℕ} {xs rest : List UInt8} (hdrop : cStr.drop p = xs ++ rest)
    (hleft : xs.length = left) : ∃ r, lineEndLoop cStr start left p crN lfN = .ok r ∧
      match r with
      | .inr a => headerScan (.run start crN lfN) p xs = a
      | .inl q => p ≤ q ∧ q ≤ p+left ∧
        headerScan (.run start crN lfN) p xs = headerScan .text (q+1) (xs.drop (q+1-p)) := by
  induction left generalizing p xs crN lfN with
  | zero =>
    obtain rfl := List.length_eq_zero_iff.mp hleft
    exact ⟨.inl p,rfl,le_rfl,le_rfl,by simp [headerScan]⟩
  | succ left ih =>
    obtain ⟨c,t,rfl⟩ := List.exists_cons_of_length_eq_add_one hleft
    rw [List.cons_append] at hdrop
    obtain ⟨hpeek,hnext,_⟩ := peekByte_drop hdrop
    rw [lineEndLoop_succ hpeek]
    cases hb : lineEndByte p c start crN lfN with
    | stop r => exact ⟨.inr r,rfl,headerScan_stop hb⟩
    | again s =>
      cases s with
      | text =>
        refine ⟨.inl p,rfl,le_rfl,by omega,?_⟩
        rw [headerScan_again (s:=.run start crN lfN) hb,Nat.add_sub_cancel_left]
        rfl
      | run start' crN' lfN' =>
        obtain rfl := lineEndByte_run hb
        obtain ⟨r,hr,hscan⟩ := ih crN' lfN' hnext (Nat.succ.inj hleft)
        refine ⟨r,hr,?_⟩
        rw [headerScan_again (s:=.run start' crN lfN) hb]
        cases r with
        | inr a => exact hscan
        | inl q =>
          obtain ⟨hle,hq,heq⟩ := hscan
          refine ⟨by omega,by omega,?_⟩
          rw [heq,show q+1-p = q+1-(p+1)+1 by omega,List.drop_succ_cons]

theorem headerEndLoop_eq {fuel fin : ℕ} (hfin : fin ≤ cStr.length) (hpos : 0 < fuel)
    (hfuel : fin < fuel+p) :
    headerEndLoop cStr fin fuel p = .ok (headerScan .text p ((cStr.take fin).drop p)) := by
  induction fuel generalizing p with
  | zero => omega
  | succ fuel ih =>
    rw [headerEndLoop]
    by_cases hp : fin ≤ p
    · rw [if_pos hp,List.drop_eq_nil_of_le (by simp; omega),headerScan]
    have hlen : ((cStr.take fin).drop p).length = fin-p := by simp; omega
    obtain ⟨c,t,ht⟩ := List.exists_cons_of_length_pos (hlen ▸ (by omega : 0 < fin-p))
    have hsplit : cStr.drop p = (cStr.take fin).drop p ++ cStr.drop fin := by
      conv_lhs => rw [← List.take_append_drop fin cStr]
      exact List.drop_append_of_le_length (by simp; omega)
    have hnext (q : ℕ) : ((cStr.take fin).drop p).drop (q+1-p) = (cStr.take fin).drop (p+(q+1-p)) :=
      List.drop_drop ..
    have hpeek : peekByte cStr p = .ok c := (peekByte_drop (hsplit.trans (by rw [ht]; rfl))).1
    rw [if_neg hp,hpeek,ok_bind]
    by_cases hc : c = 13 ∨ c = 10
    · obtain ⟨r,hr,hscan⟩ := lineEndLoop_eq p 0 0 hsplit hlen
      have hrun : headerScan .text p ((cStr.take fin).drop p) =
          headerScan (.run p 0 0) p ((cStr.take fin).drop p) := by
        rw [ht,headerScan,headerScan,headerByte,if_pos hc,headerByte]
      rw [if_pos hc,hr,ok_bind,hrun]
      cases r with
      | inr a => rw [hscan]
      | inl q =>
        obtain ⟨hle,hq,heq⟩ := hscan
        rw [heq,hnext,show p+(q+1-p) = q+1 by omega]
        exact ih (by omega) (by omega)
    · have htext : headerScan .text p ((cStr.take fin).drop p) =
          headerScan .text (p+1) ((cStr.take fin).drop (p+1)) := by
        rw [ht,headerScan_again (s:=.text) (by rw [headerByte,if_neg hc]),← List.drop_drop,ht]
        rfl
      rw [if_neg hc,htext]
      exact ih (by omega) (by omega)

/-- The search is the scan of the first `MAX_HEADER_LEN` bytes. -/
theorem findHeaderEndCstr_eq {n : ℕ} (h : n ≤ cStr.length) : findHeaderEndCstr cStr n =
    .ok (headerScan .text 0 ((cStr.take n).take maxHeaderLen)) := by
  rw [findHeaderEndCstr]
  by_cases hc : cStr = [] ∨ (n : ℤ) ≤ 0
  · have hnil : cStr.take n = [] := by
      rw [List.take_eq_nil_iff]
      rcases hc with rfl | hn
      · exact Or.inr rfl
      · exact Or.inl (by omega)
    rw [if_pos hc,hnil,List.take_nil,headerScan]
  · have hfin : min (n : ℤ).toNat maxHeaderLen ≤ cStr.length := by omega
    rw [if_neg hc]
    dsimp only
    rw [headerEndLoop_eq hfin (by omega) (by omega),List.drop_zero,List.take_take,Int.toNat_natCast,
      min_comm]

/-- On the whole of a byte string. -/
theorem findHeaderEndCstr_self (x : List UInt8) : findHeaderEndCstr x x.length =
    .ok (headerScan .text 0 (x.take maxHeaderLen)) := by
  rw [findHeaderEndCstr_eq le_rfl,List.take_length]

/-- The string of a buffer is searched, whatever the block holds behind it. -/
theorem findHeaderEnd_eq {b : Buffer} (h : b.Wf) (hlt : b.len < 2^31) :
    findHeaderEnd b = findHeaderEndCstr b.content b.content.length := by
  rw [findHeaderEnd,cint_of_lt hlt,findHeaderEndCstr_eq h.len_le,findHeaderEndCstr_self,Buffer.content]

end Scan

section Pieces

/-- The search after each piece that arrives behind `got`; the first answer other than
`ret_not_found`. -/
def firstHeaderEnd : List (List UInt8) → List UInt8 → Exec HeaderEnd
  | [], _ => .ok (.notFound,none)
  | piece::pieces, got => do
    let r ← findHeaderEndCstr (got ++ piece) (got ++ piece).length
    if r.1 = .notFound then firstHeaderEnd pieces (got ++ piece) else .ok r

variable {x : List UInt8}

theorem headerScan_notFound {s : HeaderScan} {p : ℕ} (h : (headerScan s p x).1 = .notFound) :
    headerScan s p x = (.notFound,none) := by
  induction x generalizing s p with
  | nil => rfl
  | cons c t ih =>
    cases hb : headerByte p c s with
    | again s' =>
      rw [headerScan_again hb] at h ⊢
      exact ih h
    | stop r =>
      rw [headerScan_stop hb] at h
      have hne : r.1 ≠ .notFound := by
        cases s <;>
        · simp only [headerByte,lineEndByte] at hb
          split_ifs at hb <;> cases hb <;> simp
      exact absurd h hne

theorem findHeaderEndCstr_append (y : List UInt8) {r : HeaderEnd}
    (h : findHeaderEndCstr x x.length = .ok r) (hr : r.1 ≠ .notFound) :
    findHeaderEndCstr (x ++ y) (x ++ y).length = .ok r := by
  rw [findHeaderEndCstr_self] at h ⊢
  obtain rfl := Except.ok.inj h
  rw [List.take_append,headerScan_append hr]

theorem firstHeaderEnd_eq (pieces : List (List UInt8)) (got : List UInt8)
    (h : findHeaderEndCstr got got.length = .ok (.notFound,none)) :
    firstHeaderEnd pieces got =
      findHeaderEndCstr (got ++ pieces.flatten) (got ++ pieces.flatten).length := by
  induction pieces generalizing got with
  | nil => rw [List.flatten_nil,List.append_nil,h,firstHeaderEnd]
  | cons piece pieces ih =>
    rw [firstHeaderEnd,List.flatten_cons,← List.append_assoc]
    have hself := findHeaderEndCstr_self (got ++ piece)
    by_cases hr : (headerScan .text 0 ((got ++ piece).take maxHeaderLen)).1 = .notFound
    · rw [hself,ok_bind,if_pos hr]
      exact ih _ (by rw [hself,headerScan_notFound hr])
    · rw [hself,ok_bind,if_neg hr,findHeaderEndCstr_append _ hself hr]

/-- Where the headers end does not depend on the pieces in which they arrive. -/
theorem header_end_of_pieces :
    (∀ (x y : List UInt8) (r : HeaderEnd), findHeaderEndCstr x x.length = .ok r →
      r.1 ≠ .notFound → findHeaderEndCstr (x ++ y) (x ++ y).length = .ok r) ∧
    ∀ pieces : List (List UInt8), firstHeaderEnd pieces [] =
      findHeaderEndCstr pieces.flatten pieces.flatten.length :=
  ⟨fun _ y _ h hr => findHeaderEndCstr_append y h hr,fun pieces => firstHeaderEnd_eq pieces [] rfl⟩

/-- `GET /` in two pieces, cut within the line end. -/
theorem header_end_of_pieces_split :
    findHeaderEndCstr ([71,13,10,13,10] ++ [120]) 6 = .ok (.ok,some (1,4)) ∧
    firstHeaderEnd [[71,13],[10,13],[10,120]] [] = .ok (.ok,some (1,4)) :=
  ⟨header_end_of_pieces.1 [71,13,10,13,10] [120] (.ok,some (1,4)) rfl (by decide),
    header_end_of_pieces.2 [[71,13],[10,13],[10,120]]⟩

/-- The buffer in which the pieces gather has the same answer, once it is found and piece by piece. -/
theorem findHeaderEnd_of_pieces {b : Buffer} (h : b.Wf) (hlt : b.len < 2^31) :
    (∀ (x y : List UInt8) (r : HeaderEnd), b.content = x ++ y → findHeaderEndCstr x x.length = .ok r →
      r.1 ≠ .notFound → findHeaderEnd b = .ok r) ∧
    ∀ pieces : List (List UInt8), b.content = pieces.flatten → findHeaderEnd b = firstHeaderEnd pieces [] := by
  rw [findHeaderEnd_eq h hlt]
  refine ⟨fun x y r hcont hx hr => ?_,fun pieces hcont => ?_⟩
  · rw [hcont]
    exact findHeaderEndCstr_append y hx hr
  · rw [hcont]
    exact (firstHeaderEnd_eq pieces [] rfl).symm

end Pieces

section Separators

/-- A run of line ends that the scan passes: at most one line feed, and in front of it at most one
carriage return. -/
def QuietRun (run : List UInt8) : Prop :=
  run = [] ∨ run = [13] ∨
    ∃ a b, a ≤ 1 ∧ run = List.replicate a 13 ++ 10::List.replicate b 13

/-- A text that the scan passes, up to a byte that is no line end. -/
inductive Passed : List UInt8 → Prop
  | nil : Passed []
  | run {run : List UInt8} {c : UInt8} {t : List UInt8} : QuietRun run → c ≠ 13 → c ≠ 10 → Passed t →
    Passed (run ++ c::t)

/-- A run that ends the search: its first line feed has `a` carriage returns in front of it, its second
one `b`. -/
def separator (a b : ℕ) : List UInt8 := List.replicate a 13 ++ 10::(List.replicate b 13 ++ [10])

theorem separator_length (a b : ℕ) : (separator a b).length = a+b+2 := by
  simp [separator]
  omega

variable {p start crN lfN : ℕ} {t : List UInt8}

theorem headerScan_cr : headerScan (.run start crN lfN) p (13::t) =
    if crN+1 = 1 ∧ lfN = 2 ∨ crN+1 = 2 ∧ lfN = 0 then (.error,none)
    else headerScan (.run start (crN+1) lfN) (p+1) t := by
  have h : (13 : UInt8) ≠ 10 := by decide
  rw [headerScan,headerByte,lineEndByte]
  simp only [h,false_and,if_false,ne_eq,not_true_eq_false,and_false]
  split_ifs <;> rfl

theorem headerScan_lf : headerScan (.run start crN lfN) p (10::t) =
    if lfN = 1 then (.ok,some (start,p-start+1)) else
    if crN = 1 ∧ lfN+1 = 2 ∨ crN = 2 ∧ lfN+1 = 0 then (.error,none)
    else headerScan (.run start crN (lfN+1)) (p+1) t := by
  rw [headerScan,headerByte,lineEndByte]
  simp only [true_and,ne_eq,not_true_eq_false,false_and,if_false,if_true]
  by_cases h : lfN = 1
  · rw [if_pos (by omega),if_pos h]
  · rw [if_neg (by omega),if_neg h]
    split_ifs <;> rfl

theorem headerScan_byte {c : UInt8} (h13 : c ≠ 13) (h10 : c ≠ 10) {s : HeaderScan} :
    headerScan s p (c::t) = headerScan .text (p+1) t := by
  cases s with
  | text => rw [headerScan_again (s:=.text) (by rw [headerByte,if_neg (by tauto)])]
  | run start crN lfN =>
    refine headerScan_again ?_
    rw [headerByte,lineEndByte,if_neg (by tauto),if_pos ⟨h10,h13⟩]

/-- Carriage returns behind the first line feed. -/
theorem headerScan_crs (start crN b : ℕ) : headerScan (.run start crN 1) p (List.replicate b 13 ++ t) =
    headerScan (.run start (crN+b) 1) (p+b) t := by
  induction b generalizing crN p with
  | zero => rfl
  | succ b ih =>
    rw [List.replicate_succ,List.cons_append,headerScan_cr,if_neg (by omega),ih,
      show crN+1+b = crN+(b+1) by omega,show p+1+b = p+(b+1) by omega]

theorem headerScan_text_cr : headerScan .text p (13::t) = headerScan (.run p 0 0) p (13::t) := rfl

theorem headerScan_text_lf : headerScan .text p (10::t) = headerScan (.run p 0 0) p (10::t) := rfl

/-- Up to the first line feed. -/
theorem headerScan_line {a : ℕ} (ha : a ≤ 1) :
    headerScan .text p (List.replicate a 13 ++ 10::t) = headerScan (.run p a 1) (p+a+1) t := by
  have h : a = 0 ∨ a = 1 := by omega
  rcases h with rfl | rfl
  · rw [List.replicate_zero,List.nil_append,headerScan_text_lf,headerScan_lf,if_neg (by omega),
      if_neg (by omega)]
  · rw [List.replicate_one,List.singleton_append,headerScan_text_cr,headerScan_cr,if_neg (by omega),
      headerScan_lf,if_neg (by omega),if_neg (by omega)]

theorem headerScan_separator {a b : ℕ} (ha : a ≤ 1) :
    headerScan .text p (separator a b ++ t) = (.ok,some (p,a+b+2)) := by
  rw [separator,List.append_assoc,List.cons_append,headerScan_line ha,List.append_assoc,headerScan_crs,
    List.singleton_append,headerScan_lf,if_pos rfl]
  congr 3
  omega

theorem headerScan_twoCr : headerScan .text p (13::13::t) = (.error,none) := rfl

theorem headerScan_quiet {run : List UInt8} {c : UInt8} (h : QuietRun run) (h13 : c ≠ 13)
    (h10 : c ≠ 10) : headerScan .text p (run ++ c::t) = headerScan .text (p+run.length+1) t := by
  rcases h with rfl | rfl | ⟨a,b,ha,rfl⟩
  · exact headerScan_byte h13 h10
  · rw [List.singleton_append,headerScan_text_cr,headerScan_cr,if_neg (by omega),
      headerScan_byte h13 h10,List.length_singleton]
  · rw [List.append_assoc,List.cons_append,headerScan_line ha,headerScan_crs,headerScan_byte h13 h10]
    congr 1
    simp
    omega

theorem headerScan_quiet_end {run : List UInt8} (h : QuietRun run) :
    headerScan .text p run = (.notFound,none) := by
  rcases h with rfl | rfl | ⟨a,b,ha,rfl⟩
  · rfl
  · rfl
  · have := headerScan_crs p a b (p:=p+a+1) (t:=[])
    rw [List.append_nil] at this
    rw [headerScan_line ha,this,headerScan]

theorem headerScan_passed {pre : List UInt8} (h : Passed pre) :
    headerScan .text p (pre ++ t) = headerScan .text (p+pre.length) t := by
  induction h generalizing p with
  | nil => rfl
  | run hrun h13 h10 _ ih =>
    rw [List.append_assoc,List.cons_append,headerScan_quiet hrun h13 h10,ih]
    congr 1
    simp
    omega

/-- What may stand where the scan is in the text: a run that it passes at the end of the bytes, two
carriage returns, or a separator. -/
inductive Pending : List UInt8 → Prop
  | quiet {run} : QuietRun run → Pending run
  | twoCr (rest) : Pending (13::13::rest)
  | separator (a b rest) : a ≤ 1 → Pending (separator a b ++ rest)

theorem lineEnds_shape {run : List UInt8} (h : ∀ c ∈ run, c = 13 ∨ c = 10) :
    ∃ b, run = List.replicate b 13 ∨ ∃ t, run = List.replicate b 13 ++ 10::t := by
  induction run with
  | nil => exact ⟨0,Or.inl rfl⟩
  | cons c run ih =>
    obtain ⟨hc,hrun⟩ := List.forall_mem_cons.mp h
    rcases hc with rfl | rfl
    · obtain ⟨b,rfl | ⟨t,rfl⟩⟩ := ih hrun
      · exact ⟨b+1,Or.inl rfl⟩
      · exact ⟨b+1,Or.inr ⟨t,rfl⟩⟩
    · exact ⟨0,Or.inr ⟨run,rfl⟩⟩

/-- Behind the first line feed there are carriage returns only, or there is a second line feed. -/
theorem pending_line {run : List UInt8} {a : ℕ} (ha : a ≤ 1) (h : ∀ c ∈ run, c = 13 ∨ c = 10) :
    QuietRun (List.replicate a 13 ++ 10::run) ∨
      ∃ b t, List.replicate a 13 ++ 10::run = separator a b ++ t := by
  obtain ⟨b,rfl | ⟨t,rfl⟩⟩ := lineEnds_shape h
  · exact Or.inl (Or.inr (Or.inr ⟨a,b,ha,rfl⟩))
  · exact Or.inr ⟨b,t,by simp [separator]⟩

theorem run_cases {run : List UInt8} (h : ∀ c ∈ run, c = 13 ∨ c = 10) :
    QuietRun run ∨ (∃ t, run = 13::13::t) ∨ ∃ a b t, a ≤ 1 ∧ run = separator a b ++ t := by
  match run with
  | [] => exact Or.inl (Or.inl rfl)
  | c::run =>
    obtain ⟨hc,hrun⟩ := List.forall_mem_cons.mp h
    rcases hc with rfl | rfl
    · match run with
      | [] => exact Or.inl (Or.inr (Or.inl rfl))
      | d::tail =>
        obtain ⟨hd,htail⟩ := List.forall_mem_cons.mp hrun
        rcases hd with rfl | rfl
        · exact Or.inr (Or.inl ⟨tail,rfl⟩)
        · rcases pending_line (le_refl 1) htail with hq | ⟨b,t,hs⟩
          · exact Or.inl hq
          · exact Or.inr (Or.inr ⟨1,b,t,le_rfl,hs⟩)
    · rcases pending_line (Nat.zero_le 1) hrun with hq | ⟨b,t,hs⟩
      · exact Or.inl hq
      · exact Or.inr (Or.inr ⟨0,b,t,Nat.zero_le 1,hs⟩)

/-- The scan passes the bytes up to the run that decides. -/
theorem passed_pending (l : List UInt8) : ∃ pre rest, l = pre ++ rest ∧ Passed pre ∧ Pending rest := by
  generalize hn : l.length = n
  induction n using Nat.strong_induction_on generalizing l with
  | _ n ih =>
    let isEnd : UInt8 → Bool := fun c => c = 13 || c = 10
    have hsplit : l.takeWhile isEnd ++ l.dropWhile isEnd = l := List.takeWhile_append_dropWhile
    have hrun : ∀ c ∈ l.takeWhile isEnd, c = 13 ∨ c = 10 := fun c hc => by
      simpa [isEnd] using List.mem_takeWhile_imp hc
    rcases run_cases hrun with hq | ⟨t,ht⟩ | ⟨a,b,t,ha,ht⟩
    · cases htail : l.dropWhile isEnd with
      | nil =>
        rw [htail,List.append_nil] at hsplit
        exact ⟨[],l,rfl,.nil,.quiet (hsplit ▸ hq)⟩
      | cons c t =>
        have hc : isEnd c = false := by
          have := List.dropWhile_get_zero_not isEnd l (by rw [htail]; simp)
          simpa [htail] using this
        rw [htail] at hsplit
        have hlen := congrArg List.length hsplit
        rw [List.length_append,List.length_cons] at hlen
        obtain ⟨pre,rest,rfl,hpre,hrest⟩ := ih t.length (by omega) t rfl
        have hne : c ≠ 13 ∧ c ≠ 10 := by simpa [isEnd] using hc
        exact ⟨l.takeWhile isEnd ++ c::pre,rest,by rw [List.append_assoc,List.cons_append,hsplit],
          .run hq hne.1 hne.2 hpre,hrest⟩
    · rw [ht] at hsplit
      exact ⟨[],l,rfl,.nil,hsplit ▸ .twoCr _⟩
    · rw [ht,List.append_assoc] at hsplit
      exact ⟨[],l,rfl,.nil,hsplit ▸ .separator a b _ ha⟩

/-- The search finds a separator behind a text that it passes, and nothing else. -/
theorem headerScan_ok_iff {l : List UInt8} {e n : ℕ} : headerScan .text 0 l = (.ok,some (e,n)) ↔
    ∃ pre a b t, l = pre ++ (separator a b ++ t) ∧ Passed pre ∧ a ≤ 1 ∧ e = pre.length ∧ n = a+b+2 := by
  constructor
  · intro h
    obtain ⟨pre,rest,rfl,hpre,hrest⟩ := passed_pending l
    rw [headerScan_passed hpre,Nat.zero_add] at h
    cases hrest with
    | quiet hq =>
      rw [headerScan_quiet_end hq] at h
      cases h
    | twoCr t =>
      rw [headerScan_twoCr] at h
      cases h
    | separator a b t ha =>
      rw [headerScan_separator ha] at h
      cases h
      exact ⟨pre,a,b,t,rfl,hpre,ha,rfl,rfl⟩
  · rintro ⟨pre,a,b,t,rfl,hpre,ha,rfl,rfl⟩
    rw [headerScan_passed hpre,Nat.zero_add,headerScan_separator ha]

end Separators

section Exactness

/-- `x` has one of the two sequences that end the headers at `e`, of `n` bytes. -/
def EndsAt (x : List UInt8) (e n : ℕ) : Prop :=
  n = 4 ∧ [13,10,13,10] <+: x.drop e ∨ n = 2 ∧ [10,10] <+: x.drop e

/-- A CR or LF. -/
def EolAt (x : List UInt8) (i : ℕ) : Prop := x[i]? = some 13 ∨ x[i]? = some 10

/-- A CR LF or an LF at `s` with no other CR or LF at either side. -/
def LineEndAt (x : List UInt8) (s n : ℕ) : Prop :=
  (n = 2 ∧ x[s]? = some 13 ∧ x[s+1]? = some 10 ∨ n = 1 ∧ x[s]? = some 10) ∧
    (0 < s → ¬ EolAt x (s-1)) ∧ ¬ EolAt x (s+n)

/-- Every CR or LF in front of `e` belongs to an isolated line end. -/
def IsolatedBefore (x : List UInt8) (e : ℕ) : Prop :=
  ∀ i < e, EolAt x i → ∃ s n, LineEndAt x s n ∧ s ≤ i ∧ i < s+n

/-- What is found is a sequence that ends the headers, and the first one; and it is found where the line
ends in front of it are isolated. -/
def FindsHeaderEnd (x : List UInt8) : Prop :=
  (∀ e n, findHeaderEndCstr x x.length = .ok (.ok,some (e,n)) →
    e+n ≤ maxHeaderLen ∧ EndsAt x e n ∧ ∀ i < e, ∀ k, ¬ EndsAt x i k) ∧
  ∀ e n, EndsAt x e n → e+n ≤ maxHeaderLen → IsolatedBefore x e →
    findHeaderEndCstr x x.length = .ok (.ok,some (e,n))

/-- The run that ends the search has another number of carriage returns in front of its second line
feed than in front of its first. -/
def MixedHeaderEnd (x : List UInt8) : Prop :=
  ∃ pre a b t, x.take maxHeaderLen = pre ++ (separator a b ++ t) ∧ Passed pre ∧ a ≤ 1 ∧ a ≠ b

variable {x pre q w : List UInt8} {e n i : ℕ}

theorem Passed.append (hp : Passed pre) (hq : Passed q) : Passed (pre ++ q) := by
  induction hp with
  | nil => exact hq
  | run hrun h13 h10 _ ih =>
    rw [List.append_assoc,List.cons_append]
    exact .run hrun h13 h10 ih

theorem QuietRun.count_le {run : List UInt8} (h : QuietRun run) : run.count 10 ≤ 1 := by
  rcases h with rfl | rfl | ⟨a,b,_,rfl⟩
  · simp
  · decide
  · have h13 (k : ℕ) : (List.replicate k (13 : UInt8)).count 10 = 0 :=
      List.count_eq_zero.mpr fun h => absurd (List.eq_of_mem_replicate h) (by decide)
    rw [List.count_append,List.count_cons_self,h13,h13]

/-- Line ends that follow one another inside a passed text have at most one line feed. -/
theorem Passed.count_le (hp : Passed pre) (hi : i < pre.length) (hw : ∀ c ∈ w, c = 13 ∨ c = 10)
    (h : w <+: (pre ++ q).drop i) : w.count 10 ≤ 1 := by
  induction hp generalizing i with
  | nil => exact absurd hi (Nat.not_lt_zero _)
  | @run run c t hrun h13 h10 _ ih =>
    rw [List.append_assoc,List.cons_append] at h
    rcases Nat.lt_trichotomy i run.length with hlt | rfl | hgt
    · rw [List.drop_append_of_le_length hlt.le] at h
      have hle : w.length ≤ (run.drop i).length := by
        by_contra hlong
        have hc : (run.drop i ++ [c]) <+: w := by
          have hrun : (run.drop i ++ [c]) <+: run.drop i ++ c::(t ++ q) :=
            (List.prefix_append_right_inj _).mpr ⟨t ++ q,rfl⟩
          exact List.prefix_of_prefix_length_le hrun h
            (by rw [List.length_append,List.length_singleton]; omega)
        rcases hw c (hc.subset (by simp)) with rfl | rfl
        · exact h13 rfl
        · exact h10 rfl
      have hin : w <+: run.drop i := List.prefix_of_prefix_length_le h (List.prefix_append ..) hle
      exact (hin.sublist.trans (List.drop_sublist ..)).count_le 10 |>.trans hrun.count_le
    · rw [List.drop_left] at h
      cases w with
      | nil => simp
      | cons d w =>
        obtain ⟨u,hu⟩ := h
        obtain rfl := (List.cons.inj hu).1
        rcases hw d List.mem_cons_self with rfl | rfl
        · exact absurd rfl h13
        · exact absurd rfl h10
    · have hdrop : (run ++ c::(t ++ q)).drop i = (t ++ q).drop (i-run.length-1) := by
        rw [show i = run.length+(i-run.length-1+1) by omega,← List.drop_drop,List.drop_left,
          List.drop_succ_cons]
        congr 1
        omega
      rw [hdrop] at h
      rw [List.length_append,List.length_cons] at hi
      exact ih (by omega) h

theorem Passed.not_endsAt (hp : Passed pre) (hi : i < pre.length) {k : ℕ} :
    ¬ EndsAt (pre ++ q) i k := by
  rintro (⟨_,h⟩ | ⟨_,h⟩)
  · exact absurd (hp.count_le hi (by simp) h) (by decide)
  · exact absurd (hp.count_le hi (by simp) h) (by decide)

/-- The text in front of isolated line ends is passed. -/
theorem passed_of_isolated (hlen : e ≤ x.length) (hiso : IsolatedBefore x e)
    (hlast : 0 < e → ¬ EolAt x (e-1)) : Passed (x.take e) := by
  induction e using Nat.strong_induction_on with
  | _ e ih =>
    rcases e with _ | k
    · exact .nil
    have hk : k < x.length := by omega
    have hc := hlast (Nat.succ_pos k)
    rw [Nat.add_sub_cancel,EolAt,List.getElem?_eq_getElem hk,Option.some_inj,Option.some_inj,not_or] at hc
    have hbyte (run : List UInt8) (hrun : QuietRun run) : Passed (run ++ [x[k]]) :=
      .run hrun hc.1 hc.2 .nil
    have hiso' {m : ℕ} (hm : m ≤ k) : IsolatedBefore x m := fun i hi => hiso i (by omega)
    rw [List.take_add_one,List.getElem?_eq_getElem hk,Option.toList_some]
    by_cases heol : 0 < k ∧ EolAt x (k-1)
    · obtain ⟨s,n,⟨hline,hbefore,_⟩,hs,hn⟩ := hiso (k-1) (by omega) heol.2
      have hend : s+n = k := by
        by_contra hne
        obtain rfl : k = s+1 := by omega
        rcases hline with ⟨rfl,_,h10⟩ | ⟨rfl,_⟩
        · exact hc.2 (by rwa [List.getElem?_eq_getElem hk,Option.some_inj] at h10)
        · exact hne rfl
      obtain ⟨run,hrun,htake⟩ : ∃ run, QuietRun run ∧ x.take k = x.take s ++ run := by
        subst hend
        rcases hline with ⟨rfl,h13,h10⟩ | ⟨rfl,h10⟩
        · refine ⟨[13,10],Or.inr (Or.inr ⟨1,0,le_rfl,rfl⟩),?_⟩
          rw [show s+2 = s+1+1 by rfl,List.take_add_one,List.take_add_one,h13,h10,List.append_assoc]
          rfl
        · refine ⟨[10],Or.inr (Or.inr ⟨0,0,Nat.zero_le 1,rfl⟩),?_⟩
          rw [List.take_add_one,h10]
          rfl
      rw [htake,List.append_assoc]
      exact (ih s (by omega) (by omega) (hiso' (by omega)) hbefore).append (hbyte run hrun)
    · exact (ih k (by omega) hk.le (hiso' le_rfl) fun hpos h => heol ⟨hpos,h⟩).append (hbyte [] (Or.inl rfl))

/-- The two sequences are separators. -/
theorem endsAt_iff : EndsAt x e n ↔
    ∃ a t, a ≤ 1 ∧ n = a+a+2 ∧ x.drop e = separator a a ++ t := by
  constructor
  · rintro (⟨rfl,t,ht⟩ | ⟨rfl,t,ht⟩)
    · exact ⟨1,t,le_rfl,rfl,ht.symm⟩
    · exact ⟨0,t,Nat.zero_le 1,rfl,ht.symm⟩
  · rintro ⟨a,t,ha,rfl,ht⟩
    have h : a = 0 ∨ a = 1 := by omega
    rcases h with rfl | rfl
    · exact Or.inr ⟨rfl,t,ht.symm⟩
    · exact Or.inl ⟨rfl,t,ht.symm⟩

theorem separator_inj {a b a' : ℕ} (ha : a ≤ 1) (ha' : a' ≤ 1)
    (h : separator a b = separator a' a') : a = b := by
  have hlen := congrArg List.length h
  have hhead := congrArg List.head? h
  rw [separator_length,separator_length] at hlen
  have hcase : (a = 0 ∨ a = 1) ∧ (a' = 0 ∨ a' = 1) := by omega
  rcases hcase with ⟨rfl | rfl,rfl | rfl⟩
  · omega
  · cases hhead
  · cases hhead
  · omega

/-- A sequence behind isolated line ends is found. -/
theorem findHeaderEndCstr_isolated (h : EndsAt x e n) (hmax : e+n ≤ maxHeaderLen)
    (hiso : IsolatedBefore x e) : findHeaderEndCstr x x.length = .ok (.ok,some (e,n)) := by
  obtain ⟨a,t,ha,rfl,ht⟩ := endsAt_iff.mp h
  have hlens := congrArg List.length ht
  rw [List.length_drop,List.length_append,separator_length] at hlens
  have hfit : e ≤ x.length := by omega
  have hget (i : ℕ) : x[e+i]? = (separator a a ++ t)[i]? := by rw [← ht,List.getElem?_drop]
  have heols : EolAt x e ∧ EolAt x (e+1) := by
    have h : a = 0 ∨ a = 1 := by omega
    rcases h with rfl | rfl
    · exact ⟨Or.inr (hget 0),Or.inr (hget 1)⟩
    · exact ⟨Or.inl (hget 0),Or.inr (hget 1)⟩
  have hpassed : Passed (x.take e) := by
    -- an isolated line end in front of the sequence would have one of its bytes beside it
    refine passed_of_isolated hfit hiso fun hpos heol => ?_
    obtain ⟨s,n,⟨hline,_,hafter⟩,hs,hn⟩ := hiso (e-1) (by omega) heol
    have hend : s+n = e ∨ s+n = e+1 := by omega
    rcases hend with hend | hend
    · exact hafter (hend ▸ heols.1)
    · exact hafter (hend ▸ heols.2)
  have hlen : (x.take e).length = e := by rw [List.length_take,min_eq_left hfit]
  have hsplit : x.take maxHeaderLen =
      x.take e ++ (separator a a ++ t.take (maxHeaderLen-e-(a+a+2))) := by
    have htext : (x.take e).take maxHeaderLen = x.take e :=
      List.take_of_length_le (by rw [List.length_take]; omega)
    have hsep : (separator a a).take (maxHeaderLen-e) = separator a a :=
      List.take_of_length_le (by rw [separator_length]; omega)
    conv_lhs => rw [← List.take_append_drop e x]
    rw [ht,List.take_append,htext,hlen,List.take_append,hsep,separator_length]
  rw [findHeaderEndCstr_self,headerScan_ok_iff.mpr ⟨_,a,a,_,hsplit,hpassed,ha,hlen.symm,rfl⟩]

/-- The search does what it should exactly when the run that ends it is one of the two sequences. -/
theorem find_header_end_iff (x : List UInt8) : FindsHeaderEnd x ↔ ¬ MixedHeaderEnd x := by
  constructor
  · rintro ⟨hfound,_⟩ ⟨pre,a,b,t,hsplit,hpre,ha,hne⟩
    have hfind : findHeaderEndCstr x x.length = .ok (.ok,some (pre.length,a+b+2)) := by
      rw [findHeaderEndCstr_self,headerScan_ok_iff.mpr ⟨pre,a,b,t,hsplit,hpre,ha,rfl,rfl⟩]
    obtain ⟨a',t',ha',hn,ht'⟩ := endsAt_iff.mp (hfound _ _ hfind).2.1
    rw [← List.take_append_drop maxHeaderLen x,hsplit,List.append_assoc,List.drop_left,
      List.append_assoc] at ht'
    have hsep := (List.append_inj ht' (by rw [separator_length,separator_length,hn])).1
    exact hne (separator_inj ha ha' hsep)
  · intro hmixed
    refine ⟨fun e n hfind => ?_,fun e n => findHeaderEndCstr_isolated⟩
    rw [findHeaderEndCstr_self] at hfind
    obtain ⟨pre,a,b,t,hsplit,hpre,ha,rfl,rfl⟩ := headerScan_ok_iff.mp (Except.ok.inj hfind)
    obtain rfl : a = b := by
      by_contra hne
      exact hmixed ⟨pre,a,b,t,hsplit,hpre,ha,hne⟩
    have hx : x = pre ++ (separator a a ++ (t ++ x.drop maxHeaderLen)) := by
      rw [← List.append_assoc (separator a a),← List.append_assoc pre,← hsplit,List.take_append_drop]
    have hlens := congrArg List.length hsplit
    rw [List.length_take,List.length_append,List.length_append,separator_length] at hlens
    refine ⟨by omega,endsAt_iff.mpr ⟨a,t ++ x.drop maxHeaderLen,ha,rfl,?_⟩,fun i hi k => ?_⟩
    · conv_lhs => rw [hx]
      exact List.drop_left
    · rw [hx]
      exact hpre.not_endsAt hi

/-- LF CR LF is taken for the end of the headers, three bytes long. -/
theorem find_header_end_mixed : ¬ FindsHeaderEnd [10,13,10] := by
  rintro ⟨h,_⟩
  have hends := (h 0 3 rfl).2.1
  rcases hends with ⟨h4,_⟩ | ⟨h2,_⟩
  · cases h4
  · cases h2

end Exactness

end Http2d
