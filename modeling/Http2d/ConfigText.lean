import Http2d.ConfigScan

/-! Configuration text as it is written, line by line, and what the scanner finds in it: the pairs
of the lines that have one, in their order. -/
namespace Http2d

/-- What a line has behind its indentation. -/
inductive LineBody
  | blank
  | comment (txt : List UInt8)
  | pair (path : List (List UInt8)) (v : List UInt8)

/-- A path as it is written: `a!b!c`. -/
def joinedPath (path : List (List UInt8)) : List UInt8 := [33].intercalate path

namespace LineBody

def bytes : LineBody → List UInt8
  | blank => []
  | comment txt => 35::txt
  | pair path v => joinedPath path ++ (equalSign ++ v)

/-- The path and the value of the line. -/
def setting : LineBody → Option (List (List UInt8) × List UInt8)
  | pair path v => some (path,v)
  | _ => none

/-- A comment does not end before its line does. -/
def Plain : LineBody → Prop
  | comment txt => ∀ b ∈ txt, b ≠ 0 ∧ b ≠ 10 ∧ b ≠ 13
  | _ => True

instance (body : LineBody) : Decidable body.Plain :=
  match body with
  | blank => isTrue trivial
  | comment txt => decidable_of_iff (txt.all fun b => b ≠ 0 ∧ b ≠ 10 ∧ b ≠ 13) (by simp [Plain])
  | pair _ _ => isTrue trivial

/-- A line that the scanner takes for what it is. -/
def Readable : LineBody → Prop
  | pair path v => PairText (joinedPath path) v ∧ (joinedPath path).head? ≠ some 35
  | body => body.Plain

end LineBody

/-- A line without its ending. -/
structure ConfigLine where
  indent : List UInt8
  body : LineBody

def ConfigLine.bytes (l : ConfigLine) : List UInt8 := l.indent ++ l.body.bytes

inductive LineEnding
  | lf
  | crlf

def LineEnding.bytes : LineEnding → List UInt8
  | lf => [10]
  | crlf => [13,10]

theorem LineEnding.white (e : LineEnding) : ∀ b ∈ e.bytes, isLineWhite b := by
  cases e <;> simp [bytes,isLineWhite]

/-- The scanner stops at the first byte of an ending; what is behind it is white. -/
theorem LineEnding.front (e : LineEnding) : ∃ c ws, e.bytes = c::ws ∧ (c = 10 ∨ c = 13) ∧
    ∀ b ∈ ws, isLineWhite b := by
  cases e with
  | lf => exact ⟨10,[],rfl,.inl rfl,by simp⟩
  | crlf => exact ⟨13,[10],rfl,.inr rfl,by simp [isLineWhite]⟩

/-- A text: lines with their endings, and the last line, which has none. -/
structure ConfigText where
  lines : List (ConfigLine × LineEnding)
  last : ConfigLine

namespace ConfigText

def bytes (t : ConfigText) : List UInt8 :=
  (t.lines.flatMap fun l => l.1.bytes ++ l.2.bytes) ++ t.last.bytes

/-- All lines of the text. -/
def all (t : ConfigText) : List ConfigLine := t.lines.map Prod.fst ++ [t.last]

/-- The paths and values of the text. -/
def settings (t : ConfigText) : List (List (List UInt8) × List UInt8) :=
  t.all.filterMap fun l => l.body.setting

/-- Lines are indented with blanks and tabs, and comments are plain. -/
def Plain (t : ConfigText) : Prop :=
  ∀ l ∈ t.all, (∀ b ∈ l.indent, b = 32 ∨ b = 9) ∧ l.body.Plain

instance (t : ConfigText) : Decidable t.Plain :=
  decidable_of_iff (t.all.all fun l => (l.indent.all fun b => b = 32 ∨ b = 9) ∧ l.body.Plain)
    (by simp [Plain])

/-- Lines are indented with blanks and tabs, and can be read. -/
def Readable (t : ConfigText) : Prop :=
  ∀ l ∈ t.all, (∀ b ∈ l.indent, b = 32 ∨ b = 9) ∧ l.body.Readable

end ConfigText

/-- A path and a value as the scanner has them. -/
def scannedPair (s : List (List UInt8) × List UInt8) : BufText × BufText :=
  (some (joinedPath s.1),some s.2)

section Scanning
variable {eof start : ℕ} {s : TextScan} {blk xs ys more rest : List UInt8} {c : UInt8}

theorem skipWhites_append (h : blk.drop start = xs ++ ys) (hxs : ∀ b ∈ xs, isLineWhite b)
    (heof : start+xs.length ≤ eof) :
    skipWhites blk (eof-start) start = skipWhites blk (eof-(start+xs.length)) (start+xs.length) := by
  induction xs generalizing start with
  | nil => rfl
  | cons b bs ih =>
    obtain ⟨hb,hbs⟩ := List.forall_mem_cons.mp hxs
    obtain ⟨hpeek,hnext,-⟩ := peekByte_drop h
    rw [List.length_cons] at heof ⊢
    have hleft : eof-start = eof-(start+1)+1 := by omega
    rw [hleft,skipWhites,hpeek,ok_bind,if_pos hb,ih hnext hbs (by omega)]
    congr 1 <;> omega

/-- Whites in front of a line say nothing. -/
theorem scanLine_whites (h : s.blk.drop s.start = xs ++ ys) (hxs : ∀ b ∈ xs, isLineWhite b)
    (heof : s.start+xs.length ≤ eof) :
    scanLine eof s = scanLine eof {s with start := s.start+xs.length} := by
  simp only [scanLine,skipWhites_append h hxs heof]

theorem scanText_whites (h : s.blk.drop s.start = xs ++ ys) (hxs : ∀ b ∈ xs, isLineWhite b)
    (heof : s.start+xs.length ≤ eof) (lines : ℕ) :
    scanText eof (lines+1) s = scanText eof (lines+1) {s with start := s.start+xs.length} := by
  simp only [scanText,scanLine_whites h hxs heof]

/-- A line ends at the first of its ending's bytes, or with the text. -/
theorem lineEnd_eq (h : blk.drop start = xs ++ c::more) (hxs : ∀ b ∈ xs, b ≠ 0 ∧ b ≠ 10 ∧ b ≠ 13)
    (hc : c = 0 ∧ eof = start+xs.length ∨ (c = 10 ∨ c = 13) ∧ ∃ ys rest, more = ys ++ 0::rest) :
    ∃ lf cr, strchr 10 (blk.drop start) start = .ok lf ∧ strchr 13 (blk.drop start) start = .ok cr ∧
      (minStr lf cr).getD eof = start+xs.length := by
  rw [h,strchr_append fun b hb => ⟨(hxs b hb).2.1,(hxs b hb).1⟩,
    strchr_append fun b hb => ⟨(hxs b hb).2.2,(hxs b hb).1⟩]
  rcases hc with ⟨rfl,heof⟩ | ⟨rfl | rfl,ys,rest,hmore⟩
  · exact ⟨none,none,strchr_nul (by decide),strchr_nul (by decide),heof⟩
  · obtain ⟨cr,hcr,hle⟩ := strchr_ok (c:=13) (10::ys) rest (start+xs.length)
    rw [List.cons_append,← hmore] at hcr
    refine ⟨_,cr,if_pos rfl,hcr,?_⟩
    cases cr with
    | none => rfl
    | some q =>
      have := hle q rfl
      simp only [minStr,Option.getD_some]
      split_ifs <;> omega
  · obtain ⟨lf,hlf,hle⟩ := strchr_ok (c:=10) (13::ys) rest (start+xs.length)
    rw [List.cons_append,← hmore] at hlf
    refine ⟨lf,_,hlf,if_pos rfl,?_⟩
    cases lf with
    | none => rfl
    | some q =>
      have := hle q rfl
      simp only [minStr,Option.getD_some]
      split_ifs <;> omega

theorem drop_set_end (h : blk.drop start = xs ++ c::more) :
    (blk.set (start+xs.length) 0).drop start = xs ++ 0::more := by
  rw [List.drop_set,if_neg (by omega),h,Nat.add_sub_cancel_left,List.set_append_right _ _ (le_refl _),
    Nat.sub_self,List.set_cons_zero]

end Scanning

namespace LineBody

/-- What the line is to the scanner. -/
def scanned : LineBody → ScannedLine
  | pair path v => .pair (some (joinedPath path)) (some v)
  | _ => .passed

section Line
variable {body : LineBody} {eof : ℕ} {s : TextScan} {more : List UInt8} {c : UInt8}

theorem Readable.bytes_plain (h : body.Readable) : ∀ b ∈ body.bytes, b ≠ 0 ∧ b ≠ 10 ∧ b ≠ 13 := by
  cases body with
  | blank => simp [bytes]
  | comment txt =>
    simp only [bytes,List.forall_mem_cons]
    exact ⟨by decide,h⟩
  | pair path v =>
    obtain ⟨h,-⟩ := h
    simp only [bytes,List.forall_mem_append]
    refine ⟨fun b hb => ?_,by simp [equalSign],h.value_bytes⟩
    have hlt := h.path_bytes b hb
    exact ⟨by rintro rfl; exact absurd hlt (by decide),by rintro rfl; exact absurd hlt (by decide),
      by rintro rfl; exact absurd hlt (by decide)⟩

/-- A line that is not blank begins with its first byte. -/
theorem Readable.bytes_front (h : body.Readable) (hne : body ≠ blank) :
    ∃ b bs, body.bytes = b::bs ∧ isLineWhite b = false := by
  cases body with
  | blank => exact absurd rfl hne
  | comment txt => exact ⟨35,txt,rfl,rfl⟩
  | pair path v =>
    obtain ⟨b,bs,hpath⟩ := List.exists_cons_of_ne_nil h.1.path_ne_nil
    refine ⟨b,bs ++ (equalSign ++ v),by rw [bytes,hpath,List.cons_append],?_⟩
    have hlt := h.1.path_bytes b (hpath ▸ List.mem_cons_self ..)
    simp only [isLineWhite,Bool.or_eq_false_iff,decide_eq_false_iff_not]
    exact ⟨⟨⟨by rintro rfl; exact absurd hlt (by decide),by rintro rfl; exact absurd hlt (by decide)⟩,
      by rintro rfl; exact absurd hlt (by decide)⟩,by rintro rfl; exact absurd hlt (by decide)⟩

/-- The scanner reads the line, and what is behind it stays. -/
theorem Readable.scanLine (h : body.Readable) (hne : body ≠ blank)
    (hdrop : s.blk.drop s.start = body.bytes ++ c::more) (hlt : s.blk.length < 2^32)
    (hkey : s.key.bytes = []) (hval : s.val.bytes = []) (heof : s.start+body.bytes.length ≤ eof)
    (hc : c = 0 ∧ eof = s.start+body.bytes.length ∨
      (c = 10 ∨ c = 13) ∧ ∃ ys rest, more = ys ++ 0::rest) :
    ∃ s', Http2d.scanLine eof s = .ok (s.start+body.bytes.length,body.scanned,s') ∧
      s'.blk.drop (s.start+body.bytes.length+1) = more ∧ s'.blk.length = s.blk.length := by
  obtain ⟨b,bs,hbytes,hwhite⟩ := h.bytes_front hne
  have hfirst : s.blk.drop s.start = b::(bs ++ c::more) := by rw [hdrop,hbytes,List.cons_append]
  obtain ⟨hpeek,-,hin⟩ := peekByte_drop hfirst
  have hskip : skipWhites s.blk (eof-s.start) s.start = .ok s.start := by
    rw [hbytes,List.length_cons] at heof
    have hleft : eof-s.start = eof-s.start-1+1 := by omega
    rw [hleft,skipWhites,hpeek,ok_bind,if_neg (by simp [hwhite])]
  obtain ⟨lf,cr,hlf,hcr,heol⟩ := lineEnd_eq hdrop h.bytes_plain hc
  obtain ⟨-,hmore,hend⟩ := peekByte_drop (drop_of_drop hdrop)
  have hset := drop_set_end hdrop
  have hsetfirst : (s.blk.set (s.start+body.bytes.length) 0).drop s.start = b::(bs ++ 0::more) := by
    rw [hset,hbytes,List.cons_append]
  have hrest : (s.blk.set (s.start+body.bytes.length) 0).drop (s.start+body.bytes.length+1) = more :=
    (peekByte_drop (drop_of_drop hset)).2.1
  by_cases hshort : body.bytes.length ≤ 4
  -- Only a comment is as short as that.
  · refine ⟨s,?_,hmore,rfl⟩
    simp only [Http2d.scanLine,hskip,ok_bind,hlf,hcr,heol,Nat.add_sub_cancel_left,if_pos hshort]
    cases body with
    | blank => exact absurd rfl hne
    | comment => rfl
    | pair path v =>
      have hpath := List.length_pos_iff.mpr h.1.path_ne_nil
      have hv := List.length_pos_iff.mpr h.1.value_ne_nil
      simp only [bytes,equalSign,List.length_append,List.length_cons] at hshort
      omega
  · simp only [Http2d.scanLine,hskip,ok_bind,hlf,hcr,heol,Nat.add_sub_cancel_left,if_neg hshort,
      if_neg (not_le.mpr hend),(peekByte_drop hsetfirst).1]
    cases body with
    | blank => exact absurd rfl hne
    | comment txt =>
      rw [if_pos (List.cons.inj hbytes).1.symm]
      exact ⟨_,rfl,hrest,List.length_set⟩
    | pair path v =>
      have hb : b ≠ 35 := by
        obtain ⟨d,ds,hpath⟩ := List.exists_cons_of_ne_nil h.1.path_ne_nil
        have hd : d = b := by
          rw [bytes,hpath] at hbytes
          exact (List.cons.inj hbytes).1
        exact fun h35 => h.2 (by rw [hpath,hd,h35]; rfl)
      rw [if_neg hb,readPair_eq h.1 (List.length_set.symm ▸ hin.le) (List.length_set.symm ▸ hlt)
        (hset.trans (by rw [bytes,List.append_assoc,List.append_assoc])),
        BufText.add_of_ne_nil hkey h.1.path_ne_nil,BufText.add_of_ne_nil hval h.1.value_ne_nil]
      exact ⟨_,rfl,hrest,List.length_set⟩

end Line

end LineBody

namespace ConfigText

section Text
variable {t : ConfigText} {lines : List (ConfigLine × LineEnding)} {last l : ConfigLine} {e : LineEnding}
variable {eof : ℕ} {s : TextScan} {rest : List UInt8}

theorem bytes_cons : (mk ((l,e)::lines) last).bytes =
    l.indent ++ (l.body.bytes ++ (e.bytes ++ (mk lines last).bytes)) := by
  simp only [bytes,ConfigLine.bytes,List.flatMap_cons,List.append_assoc]

theorem settings_cons : (mk ((l,e)::lines) last).settings =
    l.body.setting.toList ++ (mk lines last).settings := by
  simp only [settings,all,List.map_cons,List.cons_append,List.filterMap_cons]
  cases l.body.setting <;> rfl

theorem settings_nil : (mk [] last).settings = last.body.setting.toList := by
  simp only [settings,all,List.map_nil,List.nil_append,List.filterMap_cons,List.filterMap_nil]
  cases last.body.setting <;> rfl

/-- The scanner passes over the indentation of a line. -/
theorem Readable.indent_white (h : t.Readable) (hl : l ∈ t.all) : ∀ b ∈ l.indent, isLineWhite b := by
  intro b hb
  rcases (h l hl).1 b hb with rfl | rfl <;> rfl

theorem Readable.behind (h : (mk ((l,e)::lines) last).Readable) : (mk lines last).Readable :=
  (List.forall_mem_cons.mp h).2

/-- Nothing is set by no bytes. -/
theorem settings_of_empty (h : t.bytes = []) : t.settings = [] := by
  obtain ⟨lines,last⟩ := t
  cases lines with
  | cons l lines =>
    obtain ⟨l,e⟩ := l
    rw [bytes_cons] at h
    cases e <;> simp [LineEnding.bytes] at h
  | nil =>
    obtain ⟨indent,body⟩ := last
    rw [settings_nil]
    cases body with
    | pair path v => simp [bytes,ConfigLine.bytes,LineBody.bytes,equalSign] at h
    | blank => rfl
    | comment => rfl

/-- The pair of a line goes in front of the pairs of the lines behind it. -/
theorem scanText_line {body : LineBody} {eol lines : ℕ} {s' : TextScan}
    (pairs : List (List (List UInt8) × List UInt8))
    (hline : scanLine eof s = .ok (eol,body.scanned,s'))
    (hrest : (if eof ≤ eol+1 then ([],.done) else scanText eof lines (s'.next eol)) =
      (pairs.map scannedPair,ScanEnd.done)) :
    scanText eof (lines+1) s = ((body.setting.toList ++ pairs).map scannedPair,.done) := by
  rw [scanText,hline]
  cases body with
  | blank => exact hrest
  | comment => exact hrest
  | pair path v =>
    simp only [LineBody.scanned,hrest]
    rfl

/-- At the end of the text there is no more line. -/
theorem scanText_end (h : s.blk.drop s.start = 0::rest) (heof : eof = s.start) (lines : ℕ) :
    scanText eof (lines+1) s = ([],.done) := by
  have hline : scanLine eof s = .ok (eof,LineBody.blank.scanned,s) := by
    have hchr (c : UInt8) (hc : c ≠ 0) : strchr c (s.blk.drop s.start) s.start = .ok none := by
      rw [h,strchr_nul hc]
    simp only [scanLine,heof,Nat.sub_self,skipWhites,ok_bind,hchr 10 (by decide),hchr 13 (by decide),
      minStr,Option.getD_none,Nat.zero_le,if_true]
    rfl
  exact scanText_line [] hline (if_pos (Nat.le_succ eof))

/-- The last line is the rest of the text. -/
theorem scanText_last {fuel : ℕ} {ws : List UInt8} (hws : ∀ b ∈ ws, isLineWhite b) (h : (mk [] last).Readable)
    (hdrop : s.blk.drop s.start = ws ++ ((mk [] last).bytes ++ 0::rest))
    (heof : eof = s.start+ws.length+(mk [] last).bytes.length) (hlt : s.blk.length < 2^32)
    (hkey : s.key.bytes = []) (hval : s.val.bytes = []) (hfuel : 0 < fuel) :
    scanText eof fuel s = ((mk [] last).settings.map scannedPair,.done) := by
  obtain ⟨fuel,rfl⟩ := Nat.exists_eq_succ_of_ne_zero hfuel.ne'
  have hindent := h.indent_white List.mem_cons_self
  have hbody := (h last List.mem_cons_self).2
  have hbytes : (mk [] last).bytes = last.indent ++ last.body.bytes := rfl
  rw [hbytes,List.append_assoc,← List.append_assoc] at hdrop
  rw [hbytes,List.length_append] at heof
  have hend : eof = s.start+(ws ++ last.indent).length+last.body.bytes.length := by
    rw [List.length_append]
    omega
  rw [settings_nil,scanText_whites hdrop (List.forall_mem_append.mpr ⟨hws,hindent⟩) (by omega)]
  have hbehind := drop_of_drop hdrop
  by_cases hblank : last.body = .blank
  · rw [hblank] at hbehind hend ⊢
    exact scanText_end hbehind hend fuel
  · obtain ⟨s',hline,-,-⟩ := hbody.scanLine (s:={s with start := s.start+(ws ++ last.indent).length})
      hblank hbehind hlt hkey hval hend.ge (.inl ⟨rfl,hend⟩)
    rw [← List.append_nil last.body.setting.toList]
    exact scanText_line [] hline (if_pos (by simp only; omega))

/-- The scanner finds the pairs of the lines; whites may be left from the line before. -/
theorem scanText_eq {fuel : ℕ} (ws : List UInt8) (hws : ∀ b ∈ ws, isLineWhite b)
    (h : (mk lines last).Readable)
    (hdrop : s.blk.drop s.start = ws ++ ((mk lines last).bytes ++ 0::rest))
    (heof : eof = s.start+ws.length+(mk lines last).bytes.length) (hlt : s.blk.length < 2^32)
    (hkey : s.key.bytes = []) (hval : s.val.bytes = []) (hfuel : lines.length < fuel) :
    scanText eof fuel s = ((mk lines last).settings.map scannedPair,.done) := by
  induction lines generalizing s ws fuel with
  | nil => exact scanText_last hws h hdrop heof hlt hkey hval hfuel
  | cons l lines ih =>
    obtain ⟨l,e⟩ := l
    have hindent := h.indent_white List.mem_cons_self
    have hbody := (h l List.mem_cons_self).2
    obtain ⟨fuel,rfl⟩ := Nat.exists_eq_succ_of_ne_zero (Nat.ne_zero_of_lt hfuel)
    have hlast : lines.length < fuel := Nat.lt_of_succ_lt_succ hfuel
    rw [bytes_cons] at hdrop heof
    by_cases hblank : l.body = .blank
    -- The whites of a blank line are in front of the next one.
    · rw [hblank] at hdrop heof
      rw [settings_cons,hblank]
      refine ih (ws ++ (l.indent ++ e.bytes)) ?_ h.behind ?_ ?_ hlt hkey hval (by omega)
      · simp only [List.forall_mem_append]
        exact ⟨hws,hindent,e.white⟩
      · rw [hdrop]
        simp [LineBody.bytes]
      · rw [heof]
        simp only [LineBody.bytes,List.length_append,List.length_nil]
        omega
    · obtain ⟨c,ws',hending,hc,hws'⟩ := e.front
      have hfront : s.blk.drop s.start = (ws ++ l.indent) ++
          (l.body.bytes ++ c::(ws' ++ ((mk lines last).bytes ++ 0::rest))) := by
        rw [hdrop,hending]
        simp
      simp only [hending,List.length_append,List.length_cons] at heof
      rw [scanText_whites hfront (List.forall_mem_append.mpr ⟨hws,hindent⟩)
        (by rw [List.length_append]; omega)]
      have hbehind := drop_of_drop hfront
      have hfit : s.start+(ws ++ l.indent).length+l.body.bytes.length ≤ eof := by
        rw [List.length_append]
        omega
      obtain ⟨s',hline,hmore,hlen⟩ := hbody.scanLine
        (s:={s with start := s.start+(ws ++ l.indent).length}) hblank hbehind hlt hkey hval
        hfit
        (.inr ⟨hc,ws' ++ (mk lines last).bytes,rest,(List.append_assoc ..).symm⟩)
      rw [settings_cons]
      refine scanText_line _ hline ?_
      simp only [List.length_append] at hmore ⊢
      split_ifs with hend
      · have hempty : (mk lines last).bytes = [] := List.eq_nil_of_length_eq_zero (by omega)
        rw [settings_of_empty hempty]
        rfl
      · exact ih (s:=s'.next _) ws' hws' h.behind hmore (by simp only [TextScan.next]; omega) (hlen ▸ hlt)
          (BufText.bytes_clean _) (BufText.bytes_clean _) hlast

/-- The scanner finds what the text sets. -/
theorem configPairs_eq (h : t.Readable) {buf : Buffer} (hbuf : buf.buf = t.bytes ++ 0::rest)
    (hlen : buf.len = t.bytes.length) (hsize : buf.buf.length < 2^32) :
    configPairs buf = (t.settings.map scannedPair,.done) := by
  obtain ⟨lines,last⟩ := t
  have hlines : lines.length ≤ buf.len := by
    rw [hlen,bytes,List.length_append,List.length_flatMap]
    refine le_trans ?_ (Nat.le_add_right _ _)
    refine (List.length_le_sum_of_one_le _ fun n hn => ?_).trans' (by rw [List.length_map])
    obtain ⟨l,-,rfl⟩ := List.mem_map.mp hn
    cases l.2 <;> simp [LineEnding.bytes]
  exact scanText_eq (s:=⟨buf.buf,0,none,none⟩) [] (by simp) h hbuf
    (by simp only [List.length_nil]; omega) hsize rfl rfl (Nat.lt_succ_of_le hlines)

end Text

end ConfigText

end Http2d
