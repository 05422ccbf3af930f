import Http2d.ConfigReader

/-! Lists in configuration values: `http2d_config_node_read_list`.
An item is cut off by writing a NUL over the comma behind it, in the value itself, and the comma comes
back when the callback has returned. -/
namespace Http2d

open WhileLoop

/-- The answer of the callback to an entry, after the entries it has seen. -/
abbrev ListFunc := List (List UInt8) → List UInt8 → Ret

/-- The variables of the loop of `http2d_config_node_read_list`, and the entries that the callback has
seen. -/
structure ListScan where
  blk : List UInt8
  ptr : ℕ
  calls : List (List UInt8)

namespace ListScan

variable (func : ListFunc)

/-- The string at an offset, as the callback reads it. -/
def entryAt (blk : List UInt8) (ptr : ℕ) : Exec (List UInt8) := do
  let n ← strlen (blk.drop ptr)
  peek blk ptr n

def turnExec (s : ListScan) : Exec (Turn ListScan (Exec (Ret × ListScan))) := do
  let ptr ← skipBlanks (s.blk.drop s.ptr) s.ptr
  let stop ← strchr 44 (s.blk.drop ptr) ptr
  let blk := stop.elim s.blk fun stop => s.blk.set stop 0
  let entry ← entryAt blk ptr
  let ret := func s.calls entry
  if ret ≠ .ok then .ok (.stop (.ok (ret,⟨blk,ptr,s.calls ++ [entry]⟩)))
  else
    match stop with
    | none => .ok (.stop (.ok (.ok,⟨blk,ptr,s.calls ++ [entry]⟩)))
    | some stop => .ok (.again ⟨blk.set stop 44,stop+1,s.calls ++ [entry]⟩)

/-- One turn of the loop. -/
def turn (s : ListScan) : Turn ListScan (Exec (Ret × ListScan)) :=
  match turnExec func s with
  | .ok t => t
  | .error e => .stop (.error e)

end ListScan

namespace ConfigNode

/-- The node whose value is read. -/
def listNode (conf : ConfigNode) : Option (List UInt8) → Exec (Ret × Option ConfigNode)
  | some key => conf.get key
  | none => .ok (.ok,some conf)

/-- A call of `http2d_config_node_read_list` on a value returns: what it returns, the entries that the
callback has seen, and the block of the value. -/
def ReadsList (func : ListFunc) (val : BufText) (ret : Ret) (calls : List (List UInt8))
    (blk : Option (List UInt8)) : Prop :=
  match val with
  | none => ret = .notFound ∧ calls = [] ∧ blk = none
  | some v =>
    if v = [] then ret = .notFound ∧ calls = [] ∧ blk = some (v ++ [0])
    else ∃ fuel s, run (ListScan.turn func) fuel ⟨v ++ [0],0,[]⟩ = some (.ok (ret,s)) ∧
      calls = s.calls ∧ blk = some s.blk

/-- `http2d_config_node_read_list` returns; there is a block only of a node that is found. -/
def ReadsListAt (func : ListFunc) (conf : ConfigNode) (key : Option (List UInt8)) (ret : Ret)
    (calls : List (List UInt8)) (blk : Option (List UInt8)) : Prop :=
  match conf.listNode key with
  | .ok (.ok,some tmp) => ReadsList func tmp.val ret calls blk
  | .ok (r,_) => ret = r ∧ calls = [] ∧ blk = none
  | .error _ => False

end ConfigNode

/-- The item without the blanks in front. -/
def dropBlanks (x : List UInt8) : List UInt8 := x.dropWhile fun b => b = 32

/-- The items of a list. -/
def listItems (x : List UInt8) : List (List UInt8) := (x.splitOn 44).map dropBlanks

/-- The items are given to the callback until it does not return `ret_ok`. -/
def callItems (func : ListFunc) : List (List UInt8) → List (List UInt8) → Ret × List (List UInt8)
  | [], calls => (.ok,calls)
  | item::items, calls =>
    if func calls item = .ok then callItems func items (calls ++ [item])
    else (func calls item,calls ++ [item])

/-- The callback returns `ret_ok` for all items but perhaps the last. -/
def OkButLast (func : ListFunc) : List (List UInt8) → List (List UInt8) → Prop
  | [], _ => True
  | [_], _ => True
  | item::items, calls => func calls item = .ok ∧ OkButLast func items (calls ++ [item])

section Turns
variable {func : ListFunc} {front x rest : List UInt8} {calls : List (List UInt8)}

theorem blanks_split (x : List UInt8) :
    (x.takeWhile fun b => b = 32) ++ dropBlanks x = x := List.takeWhile_append_dropWhile

theorem skipBlanks_append {c : UInt8} (hc : c ≠ 32) (p : ℕ) :
    skipBlanks (x ++ c::rest) p = .ok (p+(x.takeWhile fun b => b = 32).length) := by
  induction x generalizing p with
  | nil => rw [List.nil_append,skipBlanks,if_neg hc]; rfl
  | cons b x ih =>
    rw [List.cons_append,skipBlanks]
    by_cases hb : b = 32
    · rw [if_pos hb,ih,List.takeWhile_cons_of_pos (by simpa using hb),List.length_cons]
      congr 1
      omega
    · rw [if_neg hb,List.takeWhile_cons_of_neg (by simpa using hb)]
      rfl

theorem entryAt_eq (h0 : 0 ∉ x) (front rest : List UInt8) :
    ListScan.entryAt (front ++ (x ++ 0::rest)) front.length = .ok x := by
  have hdrop : (front ++ (x ++ 0::rest)).drop front.length = x ++ 0::rest := List.drop_left
  rw [ListScan.entryAt,hdrop,strlen_eq h0,ok_bind]
  exact peek_drop (by simp) hdrop

/-- The blanks in front of an item are skipped. -/
theorem blanks_front {c : UInt8} (hc : c ≠ 32) (front rest : List UInt8) (h0 : 0 ∉ x) (h44 : 44 ∉ x) :
    front ++ (x ++ c::rest) =
      (front ++ x.takeWhile fun b => b = 32) ++ (dropBlanks x ++ c::rest) ∧
    skipBlanks (x ++ c::rest) front.length = .ok (front ++ x.takeWhile fun b => b = 32).length ∧
    ∀ b ∈ dropBlanks x, b ≠ 44 ∧ b ≠ 0 := by
  have hsplit := blanks_split x
  refine ⟨?_,by rw [skipBlanks_append hc,List.length_append],fun b hb => ?_⟩
  · rw [List.append_assoc,← List.append_assoc _ (dropBlanks x),hsplit]
  · have hmem : b ∈ x := (List.dropWhile_suffix _).mem hb
    exact ⟨fun h => h44 (h ▸ hmem),fun h => h0 (h ▸ hmem)⟩

/-- The last item ends with the string. -/
theorem turn_last (func : ListFunc) (front rest : List UInt8) (calls : List (List UInt8)) (h0 : 0 ∉ x)
    (h44 : 44 ∉ x) : ∃ ptr,
    ListScan.turn func ⟨front ++ (x ++ 0::rest),front.length,calls⟩ =
      .stop (.ok (func calls (dropBlanks x),⟨front ++ (x ++ 0::rest),ptr,calls ++ [dropBlanks x]⟩)) := by
  obtain ⟨hblk,hskip,hne⟩ := blanks_front (by decide : (0 : UInt8) ≠ 32) front rest h0 h44
  generalize (x.takeWhile fun b => b = 32) = blanks at hblk hskip
  have hdrop : (front ++ (x ++ 0::rest)).drop front.length = x ++ 0::rest := List.drop_left
  have hdrop' : (front ++ (x ++ 0::rest)).drop (front ++ blanks).length = dropBlanks x ++ 0::rest := by
    rw [hblk]
    exact List.drop_left
  have hstop : strchr 44 (dropBlanks x ++ 0::rest) (front ++ blanks).length = .ok none := by
    rw [strchr_append hne]
    exact strchr_nul (by decide)
  have hentry := entryAt_eq (fun h => (hne 0 h).2 rfl) (front ++ blanks) rest
  rw [← hblk] at hentry
  refine ⟨(front ++ blanks).length,?_⟩
  simp only [ListScan.turn,ListScan.turnExec,hdrop,hskip,ok_bind,hdrop',hstop,Option.elim_none,hentry]
  by_cases hret : func calls (dropBlanks x) = .ok
  · rw [if_neg (not_not.mpr hret),hret]
  · rw [if_pos hret]

/-- A comma is cut off, and comes back when the callback is content. -/
theorem turn_comma (func : ListFunc) (front rest : List UInt8) (calls : List (List UInt8)) (h0 : 0 ∉ x)
    (h44 : 44 ∉ x) : ∃ ptr,
    ListScan.turn func ⟨front ++ (x ++ 44::rest),front.length,calls⟩ =
      if func calls (dropBlanks x) = .ok then
        .again ⟨(front ++ (x ++ [44])) ++ rest,(front ++ (x ++ [44])).length,calls ++ [dropBlanks x]⟩
      else .stop (.ok (func calls (dropBlanks x),
        ⟨front ++ (x ++ 0::rest),ptr,calls ++ [dropBlanks x]⟩)) := by
  obtain ⟨hblk,hskip,hne⟩ := blanks_front (by decide : (44 : UInt8) ≠ 32) front rest h0 h44
  have hblk' := (blanks_front (by decide : (0 : UInt8) ≠ 32) front rest h0 h44).1
  generalize (x.takeWhile fun b => b = 32) = blanks at hblk hskip hblk'
  have hdrop : (front ++ (x ++ 44::rest)).drop front.length = x ++ 44::rest := List.drop_left
  have hdrop' : (front ++ (x ++ 44::rest)).drop (front ++ blanks).length = dropBlanks x ++ 44::rest := by
    rw [hblk]
    exact List.drop_left
  have hlen : (front ++ blanks).length+(dropBlanks x).length = (front ++ x).length := by
    have := congrArg List.length hblk
    simp only [List.length_append,List.length_cons] at this ⊢
    omega
  have hstop : strchr 44 (dropBlanks x ++ 44::rest) (front ++ blanks).length =
      .ok (some (front ++ x).length) := by
    rw [strchr_append hne,strchr,if_pos rfl,hlen]
  have hset (d e : UInt8) :
      (front ++ (x ++ d::rest)).set (front ++ x).length e = front ++ (x ++ e::rest) := by
    rw [← List.append_assoc,Lines.set_separator,List.append_assoc]
  have hentry := entryAt_eq (fun h => (hne 0 h).2 rfl) (front ++ blanks) rest
  rw [← hblk'] at hentry
  refine ⟨(front ++ blanks).length,?_⟩
  simp only [ListScan.turn,ListScan.turnExec,hdrop,hskip,ok_bind,hdrop',hstop,Option.elim_some,hset,hentry]
  by_cases hret : func calls (dropBlanks x) = .ok
  · rw [if_neg (not_not.mpr hret),if_pos hret]
    simp [Nat.add_assoc]
  · rw [if_pos hret,if_neg hret]

/-- The loop gives the items to the callback, and what it leaves of the block. -/
theorem run_items (func : ListFunc) {parts : List (List UInt8)} (hne : parts ≠ [])
    (h0 : ∀ x ∈ parts, 0 ∉ x) (h44 : ∀ x ∈ parts, 44 ∉ x) (front rest : List UInt8)
    (calls : List (List UInt8)) : ∃ fuel s,
    run (ListScan.turn func) fuel ⟨front ++ ([44].intercalate parts ++ 0::rest),front.length,calls⟩ =
      some (.ok ((callItems func (parts.map dropBlanks) calls).1,s)) ∧
    s.calls = (callItems func (parts.map dropBlanks) calls).2 ∧
    (s.blk = front ++ ([44].intercalate parts ++ 0::rest) ↔
      OkButLast func (parts.map dropBlanks) calls) := by
  induction parts generalizing front calls with
  | nil => exact absurd rfl hne
  | cons x parts ih =>
    obtain ⟨hx0,h0⟩ := List.forall_mem_cons.mp h0
    obtain ⟨hx44,h44⟩ := List.forall_mem_cons.mp h44
    cases parts with
    | nil =>
      obtain ⟨ptr,hturn⟩ := turn_last func front rest calls hx0 hx44
      have hcall : callItems func ([x].map dropBlanks) calls =
          (func calls (dropBlanks x),calls ++ [dropBlanks x]) := by
        simp only [List.map_cons,List.map_nil,callItems]
        split_ifs with hret
        · rw [hret]
        · rfl
      rw [List.intercalate_singleton,hcall]
      exact ⟨1,_,run_stop hturn 0,rfl,iff_of_true rfl trivial⟩
    | cons y parts =>
      have hjoin : front ++ ([44].intercalate (x::y::parts) ++ 0::rest) =
          front ++ (x ++ 44::([44].intercalate (y::parts) ++ 0::rest)) := by
        rw [List.intercalate_cons_cons]
        simp
      obtain ⟨ptr,hturn⟩ := turn_comma func front ([44].intercalate (y::parts) ++ 0::rest) calls hx0 hx44
      rw [hjoin]
      by_cases hret : func calls (dropBlanks x) = .ok
      · rw [if_pos hret] at hturn
        obtain ⟨fuel,s,hrun,hcalls,hblk⟩ := ih (List.cons_ne_nil _ _) h0 h44 (front ++ (x ++ [44]))
          (calls ++ [dropBlanks x])
        have hcall : callItems func ((x::y::parts).map dropBlanks) calls =
            callItems func ((y::parts).map dropBlanks) (calls ++ [dropBlanks x]) := by
          rw [List.map_cons,callItems,if_pos hret]
        have hback : front ++ (x ++ [44]) ++ ([44].intercalate (y::parts) ++ 0::rest) =
            front ++ (x ++ 44::([44].intercalate (y::parts) ++ 0::rest)) := by simp
        refine ⟨fuel+1,s,?_,?_,?_⟩
        · rw [run_again hturn,hrun,hcall]
        · rw [hcalls,hcall]
        · rw [← hback,hblk]
          exact (and_iff_right hret).symm
      · rw [if_neg hret] at hturn
        have hcall : callItems func ((x::y::parts).map dropBlanks) calls =
            (func calls (dropBlanks x),calls ++ [dropBlanks x]) := by
          rw [List.map_cons,callItems,if_neg hret]
        rw [hcall]
        refine ⟨1,_,run_stop hturn 0,rfl,iff_of_false ?_ fun h => hret h.1⟩
        intro heq
        have hcut := List.append_cancel_left (List.append_cancel_left heq)
        exact absurd (List.cons.inj hcut).1 (by decide)

end Turns

/-- The items of a configuration value; an empty value has none. -/
def valueItems (val : BufText) : List (List UInt8) :=
  if val.bytes = [] then [] else listItems (cString val.bytes)

/-- What the call returns: an empty value is not found. -/
def listAnswer (func : ListFunc) (val : BufText) : Ret :=
  if val.bytes = [] then .notFound else (callItems func (valueItems val) []).1

/-- The call gives the items to the callback in order, up to the first answer other than `ret_ok`, and
leaves the bytes of the value as they were. -/
def ReadsItems (func : ListFunc) (conf : ConfigNode) (key : Option (List UInt8)) (val : BufText) : Prop :=
  ConfigNode.ReadsListAt func conf key (listAnswer func val) (callItems func (valueItems val) []).2
    (val.map fun v => v ++ [0])

section Values
variable {func : ListFunc} {v : List UInt8}

/-- The block of a value is its string, a NUL and what lies behind. -/
theorem value_block (v : List UInt8) : ∃ rest, v ++ [0] = cString v ++ 0::rest := by
  induction v with
  | nil => exact ⟨[],rfl⟩
  | cons b v ih =>
    obtain ⟨rest,hrest⟩ := ih
    by_cases hb : b = 0
    · exact ⟨v ++ [0],by rw [hb]; rfl⟩
    · refine ⟨rest,?_⟩
      rw [cString,List.takeWhile_cons_of_pos (by simpa using hb),List.cons_append,hrest]
      rfl

/-- What the loop does to a value that is not empty. -/
theorem run_value (func : ListFunc) (v : List UInt8) : ∃ fuel s,
    run (ListScan.turn func) fuel ⟨v ++ [0],0,[]⟩ =
      some (.ok ((callItems func (listItems (cString v)) []).1,s)) ∧
    s.calls = (callItems func (listItems (cString v)) []).2 ∧
    (s.blk = v ++ [0] ↔ OkButLast func (listItems (cString v)) []) := by
  have h0 := cString_nul v
  obtain ⟨rest,hblk⟩ := value_block v
  have hparts (x : List UInt8) (hx : x ∈ (cString v).splitOn 44) : 0 ∉ x :=
    fun h => h0 ((Lines.infix_of_mem_splitOn hx).mem h)
  have hrun := run_items func (List.splitOn_ne_nil 44 (cString v)) hparts
    (fun x hx => Lines.not_mem_of_mem_splitOn hx) [] rest []
  rwa [List.intercalate_splitOn,List.nil_append,← hblk] at hrun

end Values

/-- The items are read and the value is left as it was exactly when the callback is content with all
items but perhaps the last. -/
theorem readsItems_iff (func : ListFunc) {conf tmp : ConfigNode} {key : Option (List UInt8)}
    (hnode : conf.listNode key = .ok (.ok,some tmp)) :
    ReadsItems func conf key tmp.val ↔ OkButLast func (valueItems tmp.val) [] := by
  have hat : ReadsItems func conf key tmp.val ↔ ConfigNode.ReadsList func tmp.val
      (listAnswer func tmp.val) (callItems func (valueItems tmp.val) []).2 (tmp.val.map fun v => v ++ [0]) := by
    rw [ReadsItems,ConfigNode.ReadsListAt,hnode]
  rw [hat]
  generalize tmp.val = val
  cases val with
  | none => exact iff_of_true ⟨rfl,rfl,rfl⟩ trivial
  | some v =>
    by_cases hv : v = []
    · subst hv
      exact iff_of_true ⟨rfl,rfl,rfl⟩ trivial
    · have hitems : valueItems (some v) = listItems (cString v) := if_neg hv
      have hanswer : listAnswer func (some v) = (callItems func (listItems (cString v)) []).1 := by
        rw [← hitems]
        exact if_neg hv
      obtain ⟨fuel,s,hrun,hcalls,hblk⟩ := run_value func v
      rw [hitems,hanswer,← hblk]
      simp only [ConfigNode.ReadsList,if_neg hv,Option.map_some,Option.some.injEq]
      constructor
      · rintro ⟨fuel',s',hrun',_,hblk'⟩
        have hsame := run_unique hrun hrun'
        simp only [Except.ok.injEq,Prod.mk.injEq,true_and] at hsame
        rw [hsame,← hblk']
      · intro heq
        exact ⟨fuel,s,hrun,hcalls.symm,heq.symm⟩

/-- The callback gets the items of its own value, and is content. -/
theorem readsItems_iff_own : ReadsItems (fun _ _ => .ok) ⟨none,some [97,44,32,98],[]⟩ none (some [97,44,32,98]) ↔
    OkButLast (fun _ _ => .ok) (valueItems (some [97,44,32,98])) [] :=
  readsItems_iff (fun _ _ => .ok)
    (rfl : ConfigNode.listNode _ none = .ok (.ok,some ⟨none,some [97,44,32,98],[]⟩))

/-- A callback that stops at the first of two items leaves the first of them as the value. -/
theorem not_readsItems_stopped :
    ¬ ReadsItems (fun _ _ => .eof) ⟨none,some [97,44,98],[]⟩ none (some [97,44,98]) := by
  rintro ⟨fuel,s,hrun,_,hblk⟩
  have hone : run (ListScan.turn fun _ _ => .eof) 1 ⟨[97,44,98] ++ [0],0,[]⟩ =
      some (.ok (.eof,⟨[97,0,98,0],0,[[97]]⟩)) := by rfl
  have hsame := run_unique hrun hone
  simp only [Except.ok.injEq,Prod.mk.injEq] at hsame
  rw [hsame.2] at hblk
  exact absurd hblk (by decide)

end Http2d
