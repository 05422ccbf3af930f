import Http2d.ConfigReader

/-! The scanner of configuration text without the tree.
What the scanner finds does not depend on the tree: the text is a list of pairs of a key and a
value, and ends well or badly. Parsing adds the pairs to the tree one after another. -/
namespace Http2d

open WhileLoop

/-- What a line is to the scanner: it is passed over, it has no equal sign, or it has a key and a
value. -/
inductive ScannedLine
  | passed
  | bad
  | pair (key val : BufText)

/-- The variables of the scanner. -/
structure TextScan where
  blk : List UInt8
  start : ℕ
  key : BufText
  val : BufText

/-- One turn of `http2d_config_reader_parse_string` up to `http2d_config_node_add_buf`: the end of
the line, and what the line is. -/
def scanLine (eof : ℕ) (s : TextScan) : Exec (ℕ × ScannedLine × TextScan) := do
  let start ← skipWhites s.blk (eof-s.start) s.start
  let lf ← strchr 10 (s.blk.drop start) start
  let cr ← strchr 13 (s.blk.drop start) start
  let eol := (minStr lf cr).getD eof
  if eol-start ≤ 4 then .ok (eol,.passed,{s with start := start})
  else if s.blk.length ≤ eol then .error .fault
  else do
    let s := {s with blk := s.blk.set eol 0, start := start}
    let c ← peekByte s.blk start
    if c = 35 then .ok (eol,.passed,s)
    else
      match ← readPair s.blk start s.key s.val with
      | none => .ok (eol,.bad,s)
      | some (key,val) => .ok (eol,.pair key val,{s with key := key, val := val})

/-- How the text ends for the scanner. -/
inductive ScanEnd
  | done
  | bad
  | halt (e : Halt)

/-- The scanner at the beginning of the next line. -/
def TextScan.next (s : TextScan) (eol : ℕ) : TextScan :=
  {s with start := eol+1, key := s.key.clean, val := s.val.clean}

/-- The pairs of a text, in order, as far as its lines can be read. -/
def scanText (eof : ℕ) : ℕ → TextScan → List (BufText × BufText) × ScanEnd
  | 0, _ => ([],.done)
  | lines+1, s =>
    match scanLine eof s with
    | .error e => ([],.halt e)
    | .ok (_,.bad,_) => ([],.bad)
    | .ok (eol,.passed,s) => if eof ≤ eol+1 then ([],.done) else scanText eof lines (s.next eol)
    | .ok (eol,.pair key val,s) =>
      let rest := if eof ≤ eol+1 then ([],.done) else scanText eof lines (s.next eol)
      ((key,val)::rest.1,rest.2)

/-- The pairs of the text in a buffer. -/
def configPairs (buf : Buffer) : List (BufText × BufText) × ScanEnd :=
  scanText buf.len (buf.len+1) ⟨buf.buf,0,none,none⟩

/-- The pairs go into the tree; what is added last is sorted and checked. -/
def addLines (parse : ConfigNode → BufText → Exec (Ret × ConfigNode)) :
    ConfigNode → List (BufText × BufText) → ScanEnd → Exec (Ret × ConfigNode)
  | conf, [], .done => finishConfig conf
  | conf, [], .bad => .ok (.error,conf)
  | _, [], .halt e => .error e
  | conf, (key,val)::pairs, e => do
    let r ← conf.addBuf parse key val
    if r.1 = .ok then addLines parse r.2 pairs e else .ok (.error,r.2)

/-- `http2d_config_reader_parse_string`; the turns of its loop are no more than the bytes. -/
def parseString (parse : ConfigNode → BufText → Exec (Ret × ConfigNode)) (conf : ConfigNode)
    (buf : Buffer) : Exec (Ret × ConfigNode) :=
  (run (configTurn parse buf.len) (buf.len+1) ⟨buf.buf,0,conf,none,none⟩).getD (.error .fault)

section Scanning
variable {parse : ConfigNode → BufText → Exec (Ret × ConfigNode)} {eof eol : ℕ} {s s' : TextScan}

/-- The scanner and the tree, at the same line. -/
def TextScan.withConf (s : TextScan) (conf : ConfigNode) : ConfigScan :=
  ⟨s.blk,s.start,conf,s.key,s.val⟩

/-- A turn of the loop is one of the scanner, and the tree takes the pair. -/
theorem configTurnExec_eq (parse : ConfigNode → BufText → Exec (Ret × ConfigNode)) (eof : ℕ)
    (s : TextScan) (conf : ConfigNode) : configTurnExec parse eof (s.withConf conf) =
      scanLine eof s >>= fun r =>
        match r with
        | (eol,.passed,s') => .ok (nextLine eof eol (s'.withConf conf))
        | (_,.bad,_) => .ok (.stop (.ok (.error,conf)))
        | (eol,.pair key val,s') => conf.addBuf parse key val >>= fun r =>
          if r.1 = .ok then .ok (nextLine eof eol (s'.withConf r.2))
          else .ok (.stop (.ok (.error,r.2))) := by
  simp only [configTurnExec,scanLine,TextScan.withConf]
  cases skipWhites s.blk (eof-s.start) s.start with
  | error e => rfl
  | ok start =>
    simp only [ok_bind]
    cases strchr 10 (s.blk.drop start) start with
    | error e => rfl
    | ok lf =>
      simp only [ok_bind]
      cases strchr 13 (s.blk.drop start) start with
      | error e => rfl
      | ok cr =>
        simp only [ok_bind]
        generalize (minStr lf cr).getD eof = eol
        by_cases hshort : eol-start ≤ 4
        · rw [if_pos hshort,if_pos hshort]
          rfl
        rw [if_neg hshort,if_neg hshort]
        by_cases hout : s.blk.length ≤ eol
        · rw [if_pos hout]
          exact if_pos hout
        rw [if_neg hout]
        refine (if_neg hout).trans ?_
        cases peekByte (s.blk.set eol 0) start with
        | error e => rfl
        | ok c =>
          simp only [ok_bind]
          by_cases hc : c = 35
          · rw [if_pos hc,if_pos hc]
            rfl
          rw [if_neg hc,if_neg hc]
          cases readPair (s.blk.set eol 0) start s.key s.val with
          | error e => rfl
          | ok r => cases r <;> rfl

theorem skipWhites_le {blk : List UInt8} {left start p : ℕ} (h : skipWhites blk left start = .ok p) :
    start ≤ p := by
  induction left generalizing start with
  | zero => exact (Except.ok.inj h).le
  | succ left ih =>
    obtain ⟨c,_,h⟩ := bind_ok_inv h
    split_ifs at h
    · exact (Nat.le_succ start).trans (ih h)
    · exact (Except.ok.inj h).le

theorem strchr_le {c : UInt8} {xs : List UInt8} {p q : ℕ} (h : strchr c xs p = .ok (some q)) : p ≤ q := by
  induction xs generalizing p with
  | nil => cases h
  | cons b bs ih =>
    rw [strchr] at h
    split_ifs at h
    · exact (Option.some.inj (Except.ok.inj h)).le
    · cases h
    · exact (Nat.le_succ p).trans (ih h)

/-- The end of the line is behind its beginning, or that of the text. -/
theorem scanLine_forward {line : ScannedLine} (h : scanLine eof s = .ok (eol,line,s')) :
    s.start ≤ eol ∨ eof ≤ eol := by
  obtain ⟨start,hstart,h⟩ := bind_ok_inv h
  obtain ⟨lf,hlf,h⟩ := bind_ok_inv h
  obtain ⟨cr,hcr,h⟩ := bind_ok_inv h
  have heol : eol = (minStr lf cr).getD eof := by
    simp only at h
    split_ifs at h
    · exact (congrArg Prod.fst (Except.ok.inj h)).symm
    · obtain ⟨c,_,h⟩ := bind_ok_inv h
      split_ifs at h
      · exact (congrArg Prod.fst (Except.ok.inj h)).symm
      · obtain ⟨r,_,h⟩ := bind_ok_inv h
        cases r with
        | none => exact (congrArg Prod.fst (Except.ok.inj h)).symm
        | some r => exact (congrArg Prod.fst (Except.ok.inj h)).symm
  have hle := skipWhites_le hstart
  subst heol
  cases lf with
  | none =>
    cases cr with
    | none => exact Or.inr (le_refl _)
    | some q =>
      exact Or.inl (hle.trans (strchr_le hcr))
  | some q =>
    have hq := strchr_le hlf
    cases cr with
    | none => exact Or.inl (hle.trans hq)
    | some q' =>
      have hq' := strchr_le hcr
      refine Or.inl ?_
      simp only [minStr,Option.getD_some]
      split_ifs <;> omega

/-- The loop with the tree is the scanner, and the pairs go into the tree. -/
theorem run_eq_addLines (parse : ConfigNode → BufText → Exec (Ret × ConfigNode)) {lines : ℕ} :
    ∀ {s : TextScan} (conf : ConfigNode), eof-s.start < lines →
      run (configTurn parse eof) lines (s.withConf conf) =
        some (addLines parse conf (scanText eof lines s).1 (scanText eof lines s).2) := by
  induction lines with
  | zero => exact fun _ h => absurd h (Nat.not_lt_zero _)
  | succ lines ih =>
    intro s conf hlines
    have hturn := configTurnExec_eq parse eof s conf
    rw [scanText]
    cases hline : scanLine eof s with
    | error e =>
      rw [hline] at hturn
      exact run_stop (by rw [configTurn,hturn]; rfl) lines
    | ok r =>
      obtain ⟨eol,line,s'⟩ := r
      rw [hline] at hturn
      have hforward := scanLine_forward hline
      -- The next line, if there is one, is nearer to the end of the text.
      have hrest (s' : TextScan) (conf' : ConfigNode)
          (hbody : configTurn parse eof (s.withConf conf) = nextLine eof eol (s'.withConf conf')) :
          run (configTurn parse eof) (lines+1) (s.withConf conf) =
            let rest := if eof ≤ eol+1 then ([],.done) else scanText eof lines (s'.next eol)
            some (addLines parse conf' rest.1 rest.2) := by
        by_cases hend : eof ≤ eol+1
        · rw [nextLine,if_pos hend] at hbody
          rw [if_pos hend]
          exact run_stop hbody lines
        · rw [nextLine,if_neg hend] at hbody
          rw [if_neg hend]
          refine (run_again hbody lines).trans (ih (s:=s'.next eol) conf' ?_)
          simp only [TextScan.next]
          omega
      cases line with
      | bad => exact run_stop (by rw [configTurn,hturn]; rfl) lines
      | passed =>
        rw [hrest s' conf (by rw [configTurn,hturn]; rfl)]
      | pair key val =>
        simp only [addLines]
        cases hadd : conf.addBuf parse key val with
        | error e =>
          refine run_stop ?_ lines
          rw [configTurn,hturn]
          simp only [ok_bind,hadd]
          rfl
        | ok r =>
          simp only [ok_bind]
          by_cases hr : r.1 = .ok
          · rw [if_pos hr,hrest s' r.2 (by rw [configTurn,hturn]; simp only [ok_bind,hadd,if_pos hr])]
          · rw [if_neg hr]
            refine run_stop ?_ lines
            rw [configTurn,hturn]
            simp only [ok_bind,hadd,if_neg hr]

theorem parseString_eq (parse : ConfigNode → BufText → Exec (Ret × ConfigNode)) (conf : ConfigNode)
    (buf : Buffer) : parseString parse conf buf =
      addLines parse conf (configPairs buf).1 (configPairs buf).2 := by
  have hrun : run (configTurn parse buf.len) (buf.len+1) ⟨buf.buf,0,conf,none,none⟩ =
      some (addLines parse conf (configPairs buf).1 (configPairs buf).2) :=
    run_eq_addLines (s:=⟨buf.buf,0,none,none⟩) parse conf (Nat.lt_succ_self _)
  rw [parseString]
  exact congrArg (Option.getD · (.error .fault)) hrun

/-- The loop ends, and with that. -/
theorem parsesString (parse : ConfigNode → BufText → Exec (Ret × ConfigNode)) (conf : ConfigNode)
    (buf : Buffer) : ParsesString parse conf buf (parseString parse conf buf) := by
  refine ⟨buf.len+1,?_⟩
  rw [parseString_eq]
  exact run_eq_addLines (s:=⟨buf.buf,0,none,none⟩) parse conf (Nat.lt_succ_self _)

end Scanning

end Http2d
