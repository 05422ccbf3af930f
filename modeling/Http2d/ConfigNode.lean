import Http2d.AvlBuffer
import Http2d.BufferEscape
import Http2d.Library.Lines

/-! The configuration tree. A buffer of a node counts by its string and by whether it has a block;
every allocation succeeds. -/
namespace Http2d

/-- A `http2d_buffer_t` as the string in it; none when `buf` is NULL. -/
abbrev BufText := Option (List UInt8)

namespace BufText

def bytes (b : BufText) : List UInt8 := b.getD []

/-- `http2d_buffer_add` and `http2d_buffer_add_buffer`: no block is allocated for no bytes. -/
def add (b : BufText) (txt : List UInt8) : BufText := if txt = [] then b else some (b.bytes ++ txt)

/-- `http2d_buffer_clean`. -/
def clean (b : BufText) : BufText := b.map fun _ => []

/-- `buf->buf` as an argument for the functions of `string.h`. -/
def cstr (b : BufText) : Exec (List UInt8) :=
  match b with
  | none => .error .fault
  | some s => .ok (cString s)

@[simp] theorem bytes_clean (b : BufText) : b.clean.bytes = [] := by
  cases b <;> rfl

@[simp] theorem bytes_add (b : BufText) (txt : List UInt8) : (b.add txt).bytes = b.bytes ++ txt := by
  unfold add
  split_ifs with h
  · rw [h,List.append_nil]
  · rfl

theorem add_of_ne_nil {b : BufText} {txt : List UInt8} (hb : b.bytes = []) (h : txt ≠ []) :
    b.add txt = some txt := by
  rw [add,if_neg h,hb,List.nil_append]

theorem cstr_some {s : List UInt8} (h : 0 ∉ s) : cstr (some s) = .ok s := by
  rw [cstr,cString_eq h]

end BufText

/-- `http2d_config_node_t`; the children are in the order of the list. -/
structure ConfigNode where
  key : BufText
  val : BufText
  child : List ConfigNode

namespace ConfigNode

/-- `http2d_config_node_init`. -/
def init : ConfigNode := ⟨none,none,[]⟩

/-- `search_child`: the entry, with those before and behind it in the list. -/
def searchChild (child : BufText) :
    List ConfigNode → Exec (Option (List ConfigNode × ConfigNode × List ConfigNode))
  | [] => .ok none
  | entry::rest => do
    let a ← entry.key.cstr
    let b ← child.cstr
    if a = b then .ok (some ([],entry,rest))
    else do
      let found ← searchChild child rest
      .ok (found.map fun place => (entry::place.1,place.2))

/-- The node that `add_new_child` puts at the end of the list. -/
def newChild (key : BufText) : ConfigNode := {init with key := BufText.add none key.bytes}

/-- What is between the separators of a key. -/
def keyParts (key : List UInt8) : List (List UInt8) := (cString key).splitOn 33

/-- The loop of `http2d_config_node_add_buf`, with its buffer `tmp`. -/
def addParts (val : BufText) : List (List UInt8) → BufText → ConfigNode → Exec ConfigNode
  | [], _, current => .ok current
  | part::parts, tmp, current => do
    let tmp := tmp.add part
    let found ← searchChild tmp current.child
    let (front,child,back) := found.getD (current.child,newChild tmp,[])
    let child := if parts = [] then {child with val := child.val.clean.add val.bytes} else child
    let child ← addParts val parts tmp.clean child
    .ok {current with child := front ++ child::back}

/-- `include`. -/
def includeKey : List UInt8 := [105,110,99,108,117,100,101]

/-- `try_include`. -/
def tryIncludeKey : List UInt8 := [116,114,121,95] ++ includeKey

/-- `http2d_config_node_add_buf`; `parse` is `http2d_config_reader_parse`, which reads files. -/
def addBuf (parse : ConfigNode → BufText → Exec (Ret × ConfigNode)) (conf : ConfigNode)
    (key val : BufText) : Exec (Ret × ConfigNode) :=
  if bufferCmpBuf key.bytes includeKey = 0 then parse conf val
  else do
    let conf ← (if bufferCmpBuf key.bytes tryIncludeKey = 0 then (parse conf val).map (·.2)
      else .ok conf)
    let start ← key.cstr
    let conf ← addParts val (keyParts start) none conf
    .ok (.ok,conf)

/-- The loop of `http2d_config_node_get`. -/
def getParts : List (List UInt8) → BufText → ConfigNode → Exec (Ret × Option ConfigNode)
  | [], _, current => .ok (.ok,some current)
  | part::parts, tmp, current => do
    let tmp := tmp.add part
    match ← searchChild tmp current.child with
    | none => .ok (.notFound,none)
    | some (_,child,_) => getParts parts tmp.clean child

/-- `http2d_config_node_get`. -/
def get (conf : ConfigNode) (key : List UInt8) : Exec (Ret × Option ConfigNode) :=
  getParts (keyParts key) none conf

/-- The node at the end of a path. -/
def find : ConfigNode → List (List UInt8) → Option ConfigNode
  | n, [] => some n
  | n, k::ks => (n.child.find? fun c => c.key = some k).bind fun c => find c ks

/-- The value at the end of a path. -/
def valueAt (n : ConfigNode) (path : List (List UInt8)) : Option (List UInt8) :=
  (n.find path).map fun c => c.val.bytes

/-- A key has a block and is a non-empty C string. -/
def HasKey (n : ConfigNode) : Prop := ∃ k, n.key = some k ∧ k ≠ [] ∧ 0 ∉ k

/-- Below a node all keys are good, and no two siblings have the same. -/
inductive Good : ConfigNode → Prop
  | mk {n : ConfigNode} : (∀ c ∈ n.child, HasKey c) → (n.child.map key).Nodup →
      (∀ c ∈ n.child, Good c) → Good n

theorem init_good : init.Good := ⟨by simp [init],by simp [init],by simp [init]⟩

section Searching
variable {l : List ConfigNode}

theorem find?_place {b : BufText} {front back : List ConfigNode} {c : ConfigNode} (hc : c.key = b)
    (hfront : ∀ x ∈ front, x.key ≠ b) : (front ++ c::back).find? (fun c => c.key = b) = some c := by
  rw [List.find?_append,List.find?_eq_none.mpr (by simpa using hfront),Option.none_or,
    List.find?_cons_of_pos (by simpa using hc)]

theorem find?_none {b : BufText} (h : ∀ c ∈ l, c.key ≠ b) : l.find? (fun c => c.key = b) = none :=
  List.find?_eq_none.mpr (by simpa using h)

/-- With distinct keys it does not matter where a child stands. -/
theorem find?_key_iff (hl : (l.map key).Nodup) {b : BufText} {c : ConfigNode} :
    l.find? (fun c => c.key = b) = some c ↔ c ∈ l ∧ c.key = b := by
  constructor
  · exact fun h => ⟨List.mem_of_find?_eq_some h,by simpa using List.find?_some h⟩
  · rintro ⟨hc,hkey⟩
    have hsome : (l.find? fun c => c.key = b).isSome := by
      rw [List.find?_isSome]
      exact ⟨c,hc,by simpa using hkey⟩
    obtain ⟨d,hd⟩ := Option.isSome_iff_exists.mp hsome
    have hdkey : d.key = b := by simpa using List.find?_some hd
    rw [hd,List.inj_on_of_nodup_map hl (List.mem_of_find?_eq_some hd) hc (hdkey.trans hkey.symm)]

end Searching

/-- The parts of a path can be keys. -/
def PathOk (p : List (List UInt8)) : Prop := ∀ k ∈ p, k ≠ [] ∧ 0 ∉ k

@[simp] theorem valueAt_nil (n : ConfigNode) : n.valueAt [] = some n.val.bytes := rfl

/-- The value at a path after a value is put at `p`: the nodes on the way are there then. -/
def putAt (values : List (List UInt8) → Option (List UInt8)) (p : List (List UInt8)) (v : List UInt8)
    (q : List (List UInt8)) : Option (List UInt8) :=
  if q = p then some v else if q <+: p then some ((values q).getD []) else values q

/-- Buffers are equal for the comparisons only if they have the same length. -/
theorem cmpBufWith_eq_zero {compare : ℕ → List UInt8 → List UInt8 → ℤ} {A B : List UInt8}
    (hA : A.length < 2^32) (hB : B.length < 2^32) :
    cmpBufWith compare A B = 0 ↔ A.length = B.length ∧ compare B.length A B = 0 := by
  unfold cmpBufWith
  split_ifs with hlt hlt'
  · refine iff_of_false ?_ (by omega)
    simp only [cint]
    split_ifs <;> omega
  · refine iff_of_false ?_ (by omega)
    simp only [cuint,cint]
    split_ifs <;> omega
  · rw [and_iff_right (by omega)]

theorem bufferCmpBuf_eq_zero {A B : List UInt8} (hA : A.length < 2^32) (hB : B.length < 2^32)
    (hnul : 0 ∉ A) : bufferCmpBuf A B = 0 ↔ A = B := by
  rw [bufferCmpBuf,cmpBufWith_eq_zero hA hB]
  constructor
  · rintro ⟨hlen,hcmp⟩
    exact (strncmp_eq_zero hlen hnul).mp hcmp
  · rintro rfl
    exact ⟨rfl,(strncmp_eq_zero rfl hnul).mpr rfl⟩

end ConfigNode

end Http2d
