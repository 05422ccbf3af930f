import Http2d.Access
import Http2d.ConfigNode
import Http2d.StringReplace
import Http2d.Library.WhileLoop

/-! Which trace messages `http2d_trace_do_trace` logs. How a message is put together is left out. -/
namespace Http2d

open Occurrences WhileLoop

/-- The connection of the thread: its descriptor and its address. -/
structure TraceConn where
  socket : ℤ
  addr : SockAddr

/-- `http2d_trace_t` without the format of the messages, and the flag `disabled`. -/
structure Trace where
  modules : BufText
  fromFilter : Option Access
  disabled : Bool

/-- The check of the connection source. -/
def Trace.fromMatches (t : Trace) (conn : Option TraceConn) : Bool :=
  match t.fromFilter with
  | none => true
  | some filter =>
    match conn with
    | none => false
    | some conn => decide (0 ≤ conn.socket) && decide (filter.ipMatch conn.addr = .ok)

/-- The check of the type: the first place of the name in the modules, and the character behind. -/
def traceMatch (modules name : List UInt8) : Exec Bool := do
  match ← strstr name (modules ++ [0]) 0 with
  | none => .ok false
  | some p => do
    let c ← peekByte (modules ++ [0]) (p+name.length : ℕ)
    .ok (c = 0 || c = 44 || c = 32)

/-- The variables of the loop: the block of `entries` and `lentry`. -/
structure TraceScan where
  blk : List UInt8
  lentry : ℕ

def traceTurnExec (modules : List UInt8) (s : TraceScan) : Exec (Turn TraceScan (Exec Bool)) := do
  let lentryEnd ← strchr 44 (s.blk.drop s.lentry) s.lentry
  let blk := lentryEnd.elim s.blk fun e => s.blk.set e 0
  let doLog ← traceMatch modules (cString (blk.drop s.lentry))
  match lentryEnd with
  | none => .ok (.stop (.ok doLog))
  | some e => if doLog then .ok (.stop (.ok doLog)) else .ok (.again ⟨blk,e+1⟩)

/-- One turn of the loop over the in-code entry. -/
def traceTurn (modules : List UInt8) (s : TraceScan) : Turn TraceScan (Exec Bool) :=
  match traceTurnExec modules s with
  | .ok t => t
  | .error e => .stop (.error e)

/-- `all`. -/
def allName : List UInt8 := [97,108,108]

/-- `http2d_trace_do_trace`: whether the message is logged. The flag is cleared on the way out. -/
def Trace.doTrace (fuel : ℕ) (t : Trace) (conn : Option TraceConn) (entry : List UInt8) :
    Option (Exec (Bool × Trace)) :=
  let out (logged : Bool) : Exec (Bool × Trace) := .ok (logged,{t with disabled := false})
  if t.disabled then some (.ok (false,t))
  else if t.modules.bytes = [] then some (out false)
  else if t.fromMatches conn = false then some (out false)
  else
    match strstr allName (t.modules.bytes ++ [0]) 0 with
    | .error e => some (.error e)
    | .ok (some _) => some (out true)
    | .ok none =>
      match BufText.add none entry with
      | none => some (.error .fault)
      | some entries => (run (traceTurn t.modules.bytes) fuel ⟨entries ++ [0],0⟩).map fun r => r.bind out

/-- A comma or a space. -/
def isListSep (b : UInt8) : Bool := b = 44 || b = 32

/-- The names of a module list. -/
def moduleNames (modules : List UInt8) : List (List UInt8) :=
  (modules.splitOnP isListSep).filter fun m => m ≠ []

/-- A name that can stand in a list. -/
def ModuleName (name : List UInt8) : Prop := name ≠ [] ∧ ∀ b ∈ name, b ≠ 0 ∧ isListSep b = false

/-- The list has the name `all`, or a name of the entry. -/
def TraceListed (names es : List (List UInt8)) : Prop := allName ∈ names ∨ ∃ e ∈ es, e ∈ names

/-- The first of the names that has `e` in it ends where its first `e` does. -/
def FirstEndsWith (names : List (List UInt8)) (e : List UInt8) : Prop :=
  ∃ m pre, names.find? (e <:+: ·) = some m ∧ splitFirst e m = some (pre,[])

/-- What the search takes for a name: any name with `all` in it, and the first that has a name of the entry
in it, when it ends with that. -/
def Heard (names es : List (List UInt8)) : Prop :=
  (∃ m ∈ names, allName <:+: m) ∨ ∃ e ∈ es, FirstEndsWith names e

/-- The first of the names that has `e` in it goes on behind its first `e`. -/
def FirstContinues (names : List (List UInt8)) (e : List UInt8) : Prop :=
  ∃ m pre c post, names.find? (e <:+: ·) = some m ∧ splitFirst e m = some (pre,c::post)

/-- Nothing is listed, and a longer name has `all` in it or is the first with a name of the entry and ends
with it. -/
structure FalseHit (names es : List (List UInt8)) : Prop where
  noAll : allName ∉ names
  noEntry : ∀ e ∈ es, e ∉ names
  longer : (∃ m ∈ names, m ≠ allName ∧ allName <:+: m) ∨ ∃ e ∈ es, FirstEndsWith names e

/-- A name of the entry is listed behind one that goes on where the name ends; no name has `all` in it, and
no other name of the entry is found either. -/
structure MissedName (names es : List (List UInt8)) : Prop where
  listed : ∃ e ∈ es, e ∈ names ∧ FirstContinues names e
  noAll : ∀ m ∈ names, ¬ allName <:+: m
  others : ∀ e ∈ es, (∀ m ∈ names, ¬ e <:+: m) ∨ FirstContinues names e

/-- A message is logged exactly if the list says so. -/
def LogsListed (t : Trace) (conn : Option TraceConn) (es : List (List UInt8)) : Prop :=
  ∃ fuel logged t', t.doTrace fuel conn ([44].intercalate es) = some (.ok (logged,t')) ∧
    (logged = true ↔ TraceListed (moduleNames t.modules.bytes) es)

section Differing
variable {names es : List (List UInt8)} {e : List UInt8}

theorem FirstEndsWith.not_continues (h : FirstEndsWith names e) : ¬ FirstContinues names e := by
  obtain ⟨m,pre,hm,hcut⟩ := h
  rintro ⟨m',pre',c,post,hm',hcut'⟩
  cases hm.symm.trans hm'
  cases hcut.symm.trans hcut'

/-- A name that is found in one of the names ends the first of them or is continued in it. -/
theorem found_cases (hne : e ≠ []) :
    (∀ m ∈ names, ¬ e <:+: m) ∨ FirstEndsWith names e ∨ FirstContinues names e := by
  cases hm : names.find? (e <:+: ·) with
  | none =>
    refine Or.inl fun m hmem => ?_
    simpa using List.find?_eq_none.mp hm m hmem
  | some m =>
    have hin : e <:+: m := by simpa using List.find?_some hm
    cases hcut : splitFirst e m with
    | none => exact absurd hin ((splitFirst_eq_none_iff hne).mp hcut)
    | some r =>
      obtain ⟨pre,post⟩ := r
      cases post with
      | nil => exact Or.inr (Or.inl ⟨m,pre,hm,hcut⟩)
      | cons c post => exact Or.inr (Or.inr ⟨m,pre,c,post,hm,hcut⟩)

theorem FirstEndsWith.holder (h : FirstEndsWith names e) : ∃ m ∈ names, e <:+: m := by
  obtain ⟨m,_,hm,_⟩ := h
  exact ⟨m,List.mem_of_find?_eq_some hm,by simpa using List.find?_some hm⟩

/-- What is heard without being listed. -/
theorem falseHit_iff : FalseHit names es ↔ ¬ TraceListed names es ∧ Heard names es := by
  constructor
  · intro h
    refine ⟨fun hl => hl.elim h.noAll fun ⟨e,he,hin⟩ => h.noEntry e he hin,?_⟩
    exact h.longer.imp (fun ⟨m,hm,_,hin⟩ => ⟨m,hm,hin⟩) id
  · rintro ⟨hno,hheard⟩
    have hall : allName ∉ names := fun h => hno (Or.inl h)
    refine ⟨hall,fun e he hin => hno (Or.inr ⟨e,he,hin⟩),?_⟩
    exact hheard.imp (fun ⟨m,hm,hin⟩ => ⟨m,hm,fun h => hall (h ▸ hm),hin⟩) id

/-- What is listed without being heard. -/
theorem missedName_iff (hes : ∀ e ∈ es, ModuleName e) :
    MissedName names es ↔ TraceListed names es ∧ ¬ Heard names es := by
  constructor
  · intro h
    obtain ⟨e,he,hin,_⟩ := h.listed
    refine ⟨Or.inr ⟨e,he,hin⟩,?_⟩
    rintro (⟨m,hm,hwithin⟩|⟨e',he',hends⟩)
    · exact h.noAll m hm hwithin
    · rcases h.others e' he' with hnone|hcont
      · obtain ⟨m,hm,hwithin⟩ := hends.holder
        exact hnone m hm hwithin
      · exact hends.not_continues hcont
  · rintro ⟨hl,hno⟩
    have hnoAll : ∀ m ∈ names, ¬ allName <:+: m := fun m hm hin => hno (Or.inl ⟨m,hm,hin⟩)
    have hothers (e) (he : e ∈ es) : (∀ m ∈ names, ¬ e <:+: m) ∨ FirstContinues names e :=
      (found_cases (hes e he).1).imp_right fun h => h.resolve_left fun hends => hno (Or.inr ⟨e,he,hends⟩)
    refine ⟨?_,hnoAll,hothers⟩
    rcases hl with hall|⟨e,he,hin⟩
    · exact absurd List.infix_rfl (hnoAll allName hall)
    · exact ⟨e,he,hin,(hothers e he).resolve_left fun hnone => hnone e hin List.infix_rfl⟩

end Differing

section Names
variable {modules name : List UInt8}

/-- The name is found in the text, with a separator or the end behind its first place. -/
def textHit (modules name : List UInt8) : Bool :=
  match splitFirst name modules with
  | none => false
  | some (_,post) => post.head?.all isListSep

theorem moduleName_of_all (hne : name ≠ []) (hall : name.all fun b => b ≠ 0 ∧ isListSep b = false) :
    ModuleName name := ⟨hne,fun b hb => by simpa using List.all_eq_true.mp hall b hb⟩

theorem ModuleName.nul (h : ModuleName name) : 0 ∉ name := fun h0 => (h.2 0 h0).1 rfl

theorem find?_moduleNames (hne : name ≠ []) :
    (moduleNames modules).find? (name <:+: ·) = (modules.splitOnP isListSep).find? (name <:+: ·) := by
  rw [moduleNames,List.find?_filter]
  congr 1
  funext m
  have himp : name <:+: m → m ≠ [] := by
    rintro h rfl
    exact hne (List.infix_nil.mp h)
  by_cases h : name <:+: m <;> simp [h]
  exact himp h

theorem textHit_iff (h : ModuleName name) :
    textHit modules name = true ↔ FirstEndsWith (moduleNames modules) name := by
  unfold textHit FirstEndsWith
  rw [find?_moduleNames h.1]
  rcases splitFirst_pieces h.1 (fun x hx => (h.2 x hx).2) modules with
    ⟨hnone,hcut⟩|⟨m,a,b,front,back,hm,hmem,hcutm,hcut,hback⟩
  · simp [hnone,hcut]
  · simp only [hm,hcut,Option.some.injEq,exists_and_left,exists_eq_left',hcutm,Prod.mk.injEq]
    cases b with
    | nil => simpa [Option.all_eq_true] using hback
    | cons x b =>
      have hx : isListSep x = false := hmem x (by rw [splitFirst_some hcutm]; simp)
      simp [hx]

/-- `all` is inside some name when it is in the text. -/
theorem splitFirst_isSome (h : ModuleName name) :
    (splitFirst name modules).isSome ↔ ∃ m ∈ moduleNames modules, name <:+: m := by
  have hfind : (∃ m ∈ moduleNames modules, name <:+: m) ↔
      ((moduleNames modules).find? (name <:+: ·)).isSome := by
    simp [List.find?_isSome]
  rw [hfind,find?_moduleNames h.1]
  rcases splitFirst_pieces h.1 (fun x hx => (h.2 x hx).2) modules with
    ⟨hnone,hcut⟩|⟨m,a,b,front,back,hm,-,-,hcut,-⟩
  · simp [hnone,hcut]
  · simp [hm,hcut]

theorem traceMatch_eq (h : ModuleName name) (hmodules : 0 ∉ modules) :
    traceMatch modules name = .ok (textHit modules name) := by
  unfold traceMatch textHit
  rw [strstr_splitFirst h.1 h.nul hmodules]
  cases hcut : splitFirst name modules with
  | none => rfl
  | some r =>
    obtain ⟨pre,post⟩ := r
    have hsplit := splitFirst_some hcut
    have hpeek : peekByte (modules ++ [0]) (0+pre.length+name.length : ℕ) = .ok ((post ++ [0]).headD 0) := by
      have hright := peekByte_append_right (pre ++ name) (post ++ [0]) 0
      have hbyte : peekByte (post ++ [0]) (0 : ℕ) = .ok ((post ++ [0]).headD 0) := by
        rw [peekByte_ok _ _ (by simp)]
        cases post <;> rfl
      rw [hbyte] at hright
      rw [hsplit,List.append_assoc,← hright]
      congr 1
      rw [List.length_append]
      push_cast
      omega
    simp only [Option.map_some,ok_bind]
    rw [hpeek]
    cases post with
    | nil => rfl
    | cons x post =>
      have hx : x ≠ 0 := fun hx => hmodules (by rw [hsplit]; simp [hx])
      simp [isListSep,hx]

theorem ModuleName.plain (h : ModuleName name) : ∀ b ∈ name, b ≠ 44 ∧ b ≠ 0 := by
  intro b hb
  obtain ⟨h0,hsep⟩ := h.2 b hb
  refine ⟨?_,h0⟩
  rintro rfl
  exact absurd hsep (by decide)

theorem ModuleName.cString (h : ModuleName name) (rest : List UInt8) :
    Http2d.cString (name ++ 0::rest) = name := by
  rw [Http2d.cString,cString_terminated,cString_eq h.nul]

/-- The last name of the entry. -/
theorem traceTurn_last (h : ModuleName name) (hmodules : 0 ∉ modules) (front : List UInt8) :
    traceTurn modules ⟨front ++ (name ++ [0]),front.length⟩ = .stop (.ok (textHit modules name)) := by
  have hchr : strchr 44 (name ++ [0]) front.length = .ok none := by
    rw [strchr_append h.plain]
    exact strchr_nul (by decide)
  rw [traceTurn,traceTurnExec]
  simp only [List.drop_left,hchr,ok_bind,Option.elim_none,h.cString,traceMatch_eq h hmodules]

/-- A name with a comma behind it. -/
theorem traceTurn_next (h : ModuleName name) (hmodules : 0 ∉ modules) (front rest : List UInt8) :
    traceTurn modules ⟨front ++ (name ++ 44::rest),front.length⟩ =
      if textHit modules name then .stop (.ok true)
      else .again ⟨(front ++ name ++ [0]) ++ rest,(front ++ name ++ [0]).length⟩ := by
  have hchr : strchr 44 (name ++ 44::rest) front.length = .ok (some (front.length+name.length)) := by
    rw [strchr_append h.plain]
    exact if_pos rfl
  have hset : (front ++ (name ++ 44::rest)).set (front.length+name.length) 0 =
      front ++ (name ++ 0::rest) := by
    rw [← List.append_assoc,← List.length_append,Lines.set_separator,List.append_assoc]
  rw [traceTurn,traceTurnExec]
  simp only [List.drop_left,hchr,ok_bind,Option.elim_some,hset,h.cString,traceMatch_eq h hmodules]
  cases textHit modules name with
  | true => rfl
  | false => simp [Nat.add_assoc]

theorem traceTurn_run {es : List (List UInt8)} (hes : es ≠ []) (h : ∀ e ∈ es, ModuleName e)
    (hmodules : 0 ∉ modules) (front : List UInt8) :
    ∃ fuel, run (traceTurn modules) fuel ⟨front ++ ([44].intercalate es ++ [0]),front.length⟩ =
      some (.ok (es.any fun e => textHit modules e)) := by
  induction es generalizing front with
  | nil => exact absurd rfl hes
  | cons e es ih =>
    obtain ⟨he,hrest⟩ := List.forall_mem_cons.mp h
    cases es with
    | nil =>
      rw [List.intercalate_singleton]
      refine ⟨1,?_⟩
      rw [run_stop (traceTurn_last he hmodules front)]
      simp
    | cons e' es =>
      have hturn := traceTurn_next he hmodules front ([44].intercalate (e'::es) ++ [0])
      rw [List.intercalate_cons_cons,List.append_assoc,List.append_assoc]
      cases hit : textHit modules e with
      | true =>
        rw [if_pos hit] at hturn
        exact ⟨1,by rw [List.any_cons,hit,Bool.true_or]; exact run_stop hturn 0⟩
      | false =>
        rw [if_neg (by simp [hit])] at hturn
        obtain ⟨fuel,hrun⟩ := ih (List.cons_ne_nil e' es) hrest (front ++ e ++ [0])
        refine ⟨fuel+1,?_⟩
        rw [List.any_cons,hit,Bool.false_or,← hrun]
        exact run_again hturn fuel

end Names

section Logging
variable {t : Trace} {es : List (List UInt8)}

theorem allName_moduleName : ModuleName allName := moduleName_of_all (by decide) (by decide)

theorem heard_iff (h : ∀ e ∈ es, ModuleName e) (modules : List UInt8) :
    Heard (moduleNames modules) es ↔
      ((splitFirst allName modules).isSome ∨ es.any (fun e => textHit modules e) = true) := by
  unfold Heard
  rw [splitFirst_isSome allName_moduleName,List.any_eq_true]
  refine or_congr_right (exists_congr fun e => and_congr_right fun he => ?_)
  exact (textHit_iff (h e he)).symm

theorem intercalate_ne_nil (hne : es ≠ []) (hes : ∀ e ∈ es, ModuleName e) : [44].intercalate es ≠ [] := by
  intro hnil
  obtain ⟨e,es,rfl⟩ := List.exists_cons_of_ne_nil hne
  have hin := Lines.infix_intercalate (x:=44) (List.mem_cons_self (a:=e) (l:=es))
  rw [hnil,List.infix_nil] at hin
  exact (hes e List.mem_cons_self).1 hin

/-- Without a filter and outside another call, what is heard is logged. -/
theorem doTrace_eq (conn : Option TraceConn) (hdis : t.disabled = false) (hfilter : t.fromFilter = none)
    (hmodules : 0 ∉ t.modules.bytes) (hne : es ≠ []) (hes : ∀ e ∈ es, ModuleName e) :
    ∃ fuel logged,
      t.doTrace fuel conn ([44].intercalate es) = some (.ok (logged,{t with disabled := false})) ∧
      (logged = true ↔ Heard (moduleNames t.modules.bytes) es) := by
  obtain ⟨fuel,hrun⟩ := traceTurn_run hne hes hmodules []
  have hentry : BufText.add none ([44].intercalate es) = some ([44].intercalate es) :=
    BufText.add_of_ne_nil rfl (intercalate_ne_nil hne hes)
  have hmatch : t.fromMatches conn = true := by rw [Trace.fromMatches,hfilter]
  rw [heard_iff hes]
  by_cases hempty : t.modules.bytes = []
  · refine ⟨0,false,by simp [Trace.doTrace,hdis,hempty],?_⟩
    rw [hempty]
    simp [splitFirst,textHit]
  · have hall : strstr allName (t.modules.bytes ++ [0]) 0 = .ok ((splitFirst allName t.modules.bytes).map
        fun r => 0+r.1.length) :=
      strstr_splitFirst allName_moduleName.1 allName_moduleName.nul hmodules 0
    cases hcut : splitFirst allName t.modules.bytes with
    | some r =>
      rw [hcut] at hall
      refine ⟨0,true,?_,by simp⟩
      rw [Trace.doTrace,hall]
      simp [hdis,hempty,hmatch]
    | none =>
      rw [hcut] at hall
      refine ⟨fuel,es.any fun e => textHit t.modules.bytes e,?_,by simp⟩
      rw [List.nil_append,List.length_nil] at hrun
      rw [Trace.doTrace,hall,hentry]
      simp [hdis,hempty,hmatch,hrun,Except.bind]

/-- The outcome does not depend on the fuel. -/
theorem doTrace_unique {conn : Option TraceConn} {entry : List UInt8} {fuel fuel' : ℕ}
    {r r' : Exec (Bool × Trace)} (h : t.doTrace fuel conn entry = some r)
    (h' : t.doTrace fuel' conn entry = some r') : r = r' := by
  unfold Trace.doTrace at h h'
  dsimp only at h h'
  split_ifs at h h' <;> try exact Option.some.inj (h.symm.trans h')
  cases hall : strstr allName (t.modules.bytes ++ [0]) 0 with
  | error e =>
    rw [hall] at h h'
    exact Option.some.inj (h.symm.trans h')
  | ok p =>
    rw [hall] at h h'
    cases p with
    | some p => exact Option.some.inj (h.symm.trans h')
    | none =>
      cases hentry : BufText.add none entry with
      | none =>
        rw [hentry] at h h'
        exact Option.some.inj (h.symm.trans h')
      | some entries =>
        rw [hentry] at h h'
        obtain ⟨a,ha,rfl⟩ := Option.map_eq_some_iff.mp h
        obtain ⟨b,hb,rfl⟩ := Option.map_eq_some_iff.mp h'
        rw [run_unique ha hb]

/-- A message is logged as the list says, unless a longer name is taken for one that is not listed or
hides one that is. -/
theorem logsListed_iff (conn : Option TraceConn) (hdis : t.disabled = false) (hfilter : t.fromFilter = none)
    (hmodules : 0 ∉ t.modules.bytes) (hne : es ≠ []) (hes : ∀ e ∈ es, ModuleName e) :
    LogsListed t conn es ↔
      ¬ FalseHit (moduleNames t.modules.bytes) es ∧ ¬ MissedName (moduleNames t.modules.bytes) es := by
  rw [falseHit_iff,missedName_iff hes]
  obtain ⟨fuel,logged,hcall,hheard⟩ := doTrace_eq conn hdis hfilter hmodules hne hes
  constructor
  · rintro ⟨fuel',logged',t',hcall',hlisted⟩
    cases doTrace_unique hcall hcall'
    exact ⟨fun h => h.1 (hlisted.mp (hheard.mpr h.2)),fun h => h.2 (hheard.mp (hlisted.mpr h.1))⟩
  · rintro ⟨hhit,hmiss⟩
    refine ⟨fuel,logged,_,hcall,hheard.trans ⟨fun h => ?_,fun h => ?_⟩⟩
    · exact not_not.mp fun hno => hhit ⟨hno,h⟩
    · exact not_not.mp fun hno => hmiss ⟨h,hno⟩

/-- The list `server,cache` and the entry `cache`. -/
theorem logsListed_cache : LogsListed ⟨some [115,101,114,118,101,114,44,99,97,99,104,101],none,false⟩ none
    [[99,97,99,104,101]] := by
  have hentry : ∀ e ∈ [[99,97,99,104,101]], ModuleName e :=
    List.forall_mem_singleton.mpr (moduleName_of_all (by decide) (by decide))
  refine (logsListed_iff none rfl rfl (by decide) (by decide) hentry).mpr ?_
  have hnames : moduleNames [115,101,114,118,101,114,44,99,97,99,104,101] =
      [[115,101,114,118,101,114],[99,97,99,104,101]] := by decide
  change ¬ FalseHit (moduleNames [115,101,114,118,101,114,44,99,97,99,104,101]) _ ∧
    ¬ MissedName (moduleNames [115,101,114,118,101,114,44,99,97,99,104,101]) _
  rw [hnames]
  refine ⟨fun h => h.noEntry [99,97,99,104,101] (by decide) (by decide),fun h => ?_⟩
  obtain hnone|hcont := h.others [99,97,99,104,101] (by decide)
  · exact hnone [99,97,99,104,101] (by decide) List.infix_rfl
  · exact FirstEndsWith.not_continues ⟨[99,97,99,104,101],[],by decide,by decide⟩ hcont

/-- The list `small` has `all` inside, and the message of `cache` is logged. -/
theorem not_logsListed_small :
    ¬ LogsListed ⟨some [115,109,97,108,108],none,false⟩ none [[99,97,99,104,101]] := by
  rintro ⟨fuel,logged,t',hcall,hlisted⟩
  have hlogged : Trace.doTrace fuel ⟨some [115,109,97,108,108],none,false⟩ none [99,97,99,104,101] =
      some (.ok (true,⟨some [115,109,97,108,108],none,false⟩)) := rfl
  cases hlogged.symm.trans hcall
  have hnone : ¬ TraceListed (moduleNames [115,109,97,108,108]) [[99,97,99,104,101]] := by
    unfold TraceListed
    decide
  exact hnone (hlisted.mp rfl)

end Logging

end Http2d
