import Http2d.Library.Zlib

/-! Implementations of the streaming interface that keep the manual's promises: every input is put
into stored blocks, and the flush marker is the empty stored block, with or without padding. -/
namespace Zlib

/-- Where a reader of the compressed bytes is: so many bytes before the blocks, or in a block. -/
inductive Reading
  | header (left : ℕ)
  | block
  | lenLow
  | lenHigh (low : UInt8)
  | checkLow (len : ℕ)
  | checkHigh (len : ℕ)
  | data (left : ℕ)
  deriving DecidableEq

namespace Reading

/-- One byte is read. Between two blocks there can be padding. -/
def step : Reading → UInt8 → Reading × List UInt8
  | header 0, _ => (block,[])
  | header (n+1), _ => (header n,[])
  | block, b => if b = 0 then (lenLow,[]) else (block,[])
  | lenLow, b => (lenHigh b,[])
  | lenHigh low, b => (checkLow (low.toNat+256*b.toNat),[])
  | checkLow n, _ => (checkHigh n,[])
  | checkHigh 0, _ => (block,[])
  | checkHigh (n+1), _ => (data n,[])
  | data 0, b => (block,[b])
  | data (n+1), b => (data n,[b])

def readAll : Reading → List UInt8 → Reading × List UInt8
  | r, [] => (r,[])
  | r, b::bs => ((readAll (step r b).1 bs).1,(step r b).2 ++ (readAll (step r b).1 bs).2)

theorem readAll_append (r : Reading) (xs ys : List UInt8) : readAll r (xs ++ ys) =
    ((readAll (readAll r xs).1 ys).1,(readAll r xs).2 ++ (readAll (readAll r xs).1 ys).2) := by
  induction xs generalizing r with
  | nil => rfl
  | cons b bs ih => simp [readAll,ih]

theorem readAll_data (x : UInt8) (xs : List UInt8) : readAll (data xs.length) (x::xs) = (block,x::xs) := by
  induction xs generalizing x with
  | nil => rfl
  | cons y ys ih => rw [readAll,List.length_cons,step,ih y,List.singleton_append]

theorem readAll_header (n : ℕ) (xs : List UInt8) (h : xs.length ≤ n+1) :
    (readAll (header n) xs).2 = [] := by
  induction xs generalizing n with
  | nil => rfl
  | cons b bs ih =>
    rw [List.length_cons] at h
    cases n with
    | zero =>
      rw [List.length_eq_zero_iff.mp (Nat.le_zero.mp (Nat.le_of_succ_le_succ h))]
      rfl
    | succ n => exact ih n (by omega)

end Reading

open Reading

/-- One stored block. -/
def storedBlock (xs : List UInt8) : List UInt8 :=
  let low := UInt8.ofNat xs.length
  let high := UInt8.ofNat (xs.length/256)
  [0,low,high,255-low,255-high] ++ xs

theorem readAll_storedBlock {xs : List UInt8} (h : xs.length < 65536) :
    readAll block (storedBlock xs) = (block,xs) := by
  have hlen : (UInt8.ofNat xs.length).toNat+256*(UInt8.ofNat (xs.length/256)).toNat = xs.length := by
    rw [UInt8.toNat_ofNat',UInt8.toNat_ofNat']
    omega
  cases xs with
  | nil => rfl
  | cons x xs =>
    rw [List.length_cons] at hlen
    simp only [storedBlock,List.cons_append,List.nil_append,List.length_cons,readAll,step,hlen,if_true]
    exact readAll_data x xs

/-- The stored blocks of an input. -/
def stored (xs : List UInt8) : List UInt8 :=
  if xs.length < 65536 then storedBlock xs
  else storedBlock (xs.take 65535) ++ stored (xs.drop 65535)
termination_by xs.length
decreasing_by rw [List.length_drop]; omega

theorem readAll_stored (xs : List UInt8) : readAll block (stored xs) = (block,xs) := by
  induction xs using stored.induct with
  | case1 xs h => rw [stored,if_pos h,readAll_storedBlock h]
  | case2 xs h ih =>
    rw [stored,if_neg h,readAll_append,readAll_storedBlock (by rw [List.length_take]; omega),ih]
    exact Prod.ext rfl (List.take_append_drop 65535 xs)

/-- What can end a flush. -/
def Marker : Type := { m : List UInt8 // readAll block m = (block,[]) ∧ m.length ≤ 6 }

def shortMarker : Marker := ⟨storedBlock [],by decide⟩

def longMarker : Marker := ⟨2::storedBlock [],by decide⟩

/-- The method and the identifier of the dictionary. -/
def streamHeader : List UInt8 := [0x38,0x6e,0xe3,0xc6,0xa7,0xc2]

/-- What stands in a stream of stored blocks. -/
def storedPlain (xs : List UInt8) : List UInt8 := (readAll (header 5) xs).2

theorem storedPlain_mono (xs ys : List UInt8) : storedPlain xs <+: storedPlain (xs ++ ys) := by
  rw [storedPlain,storedPlain,readAll_append]
  exact List.prefix_append ..

/-- The compressor: what it took, what it wrote, and what it has still to write. -/
structure StoredDeflater where
  fed : List UInt8
  gave : List UInt8
  pending : List UInt8
  unfinished : Bool
  inv : readAll (header 5) (gave ++ pending) = (block,fed)

namespace StoredDeflater

variable (m : Marker)

def start : StoredDeflater := ⟨[],[],streamHeader,false,rfl⟩

/-- What there is to write. -/
def toWrite (d : StoredDeflater) (input : List UInt8) (room : ℕ) : List UInt8 :=
  if input ≠ [] then d.pending ++ (stored input ++ m.val)
  else if room ≤ d.pending.length then d.pending
  else d.pending ++ m.val

theorem readAll_toWrite (d : StoredDeflater) (input : List UInt8) (room : ℕ) :
    readAll (header 5) (d.gave ++ d.toWrite m input room) = (block,d.fed ++ input) := by
  have hmark := m.property.1
  unfold toWrite
  split
  · rw [← List.append_assoc,readAll_append,d.inv,readAll_append,readAll_stored,hmark,List.append_nil]
  · rename_i h
    rw [not_not.mp h,List.append_nil]
    split
    · exact d.inv
    · rw [← List.append_assoc,readAll_append,d.inv,hmark,List.append_nil]

def deflate (d : StoredDeflater) (input : List UInt8) (room : ℕ) : Step StoredDeflater :=
  if room = 0 ∨ (input = [] ∧ d.unfinished = false) then ⟨.bufError,d,0,[]⟩
  else
    ⟨.ok,⟨d.fed ++ input,d.gave ++ (d.toWrite m input room).take room,(d.toWrite m input room).drop room,
      decide (room ≤ (d.toWrite m input room).length),
      by rw [List.append_assoc,List.take_append_drop,readAll_toWrite m]⟩,
      input.length,(d.toWrite m input room).take room⟩

/-- How far the flush is from its end. -/
def left (d : StoredDeflater) (input : List UInt8) : ℕ :=
  d.pending.length+(if input = [] then 0 else (stored input).length+7)

variable {m} {d : StoredDeflater} {input : List UInt8} {room : ℕ}

theorem deflate_io (d : StoredDeflater) (input : List UInt8) (room : ℕ) :
    (d.deflate m input room).taken ≤ input.length ∧ (d.deflate m input room).out.length ≤ room ∧
    (d.deflate m input room).state.fed = d.fed ++ input.take (d.deflate m input room).taken ∧
    (d.deflate m input room).state.gave = d.gave ++ (d.deflate m input room).out := by
  unfold deflate
  split
  · exact ⟨Nat.zero_le _,Nat.zero_le _,by simp,by simp⟩
  · exact ⟨le_rfl,by simp,by simp,rfl⟩

theorem deflate_ok (hroom : 0 < room) (h : input ≠ [] ∨ d.unfinished = true) :
    (d.deflate m input room).code = .ok := by
  unfold deflate
  split
  · rename_i hno
    rcases hno with h0 | ⟨hnil,hfin⟩
    · omega
    · rcases h with h | h
      · exact absurd hnil h
      · exact absurd (h.symm.trans hfin) (by decide)
  · rfl

theorem ok_inv (h : (d.deflate m input room).code = .ok) :
    ¬ (room = 0 ∨ (input = [] ∧ d.unfinished = false)) := by
  intro hno
  rw [deflate,if_pos hno] at h
  cases h

theorem deflate_flushed (h : (d.deflate m input room).code = .ok)
    (hroom : (d.deflate m input room).out.length < room) :
    (d.deflate m input room).taken = input.length ∧
      storedPlain (d.deflate m input room).state.gave = (d.deflate m input room).state.fed := by
  rw [deflate,if_neg (ok_inv h)] at hroom ⊢
  simp only [List.length_take] at hroom
  refine ⟨rfl,?_⟩
  change storedPlain (d.gave ++ (d.toWrite m input room).take room) = d.fed ++ input
  rw [List.take_of_length_le (by omega),storedPlain,readAll_toWrite]

theorem deflate_unfinished (h : (d.deflate m input room).code = .ok)
    (hfull : (d.deflate m input room).out.length = room) :
    (d.deflate m input room).state.unfinished = true := by
  rw [deflate,if_neg (ok_inv h)] at hfull ⊢
  simp only [List.length_take] at hfull
  exact decide_eq_true (by omega)

/-- Room for no more than a marker is always used up. -/
theorem deflate_full (h : (d.deflate m input room).code = .ok) (hroom : room ≤ m.val.length) :
    (d.deflate m input room).out.length = room := by
  rw [deflate,if_neg (ok_inv h),List.length_take]
  refine min_eq_left ?_
  unfold toWrite
  split
  · simp only [List.length_append]
    omega
  · split
    · assumption
    · simp only [List.length_append]
      omega

theorem left_lt (h : (d.deflate m input room).code = .ok) (hroom : 6 < room)
    (hfull : (d.deflate m input room).out.length = room) :
    (d.deflate m input room).state.left (input.drop (d.deflate m input room).taken) < d.left input := by
  have hno := ok_inv h
  rw [deflate,if_neg hno] at hfull ⊢
  simp only [List.length_take] at hfull
  simp only [left,List.drop_length,if_true,List.length_drop,Nat.add_zero]
  have hmark := m.property.2
  unfold toWrite at hfull ⊢
  split at hfull
  · rename_i hne
    rw [if_pos hne,if_neg hne]
    simp only [List.length_append] at hfull ⊢
    omega
  · rename_i hnil
    rw [if_neg hnil,if_pos (not_not.mp hnil)]
    split at hfull
    · rename_i hle
      rw [if_pos hle]
      omega
    · rename_i hle
      rw [if_neg hle]
      simp only [List.length_append] at hfull ⊢
      omega

end StoredDeflater

/-- The decompressor: what it took and what it put out. -/
structure StoredInflater where
  got : List UInt8
  put : List UInt8
  dictSet : Bool
  inv : put <+: storedPlain got ∧ (dictSet = false → put = [] ∧ got.length ≤ 6)

namespace StoredInflater

def start : StoredInflater := ⟨[],[],false,List.prefix_refl _,fun _ => ⟨rfl,Nat.zero_le 6⟩⟩

/-- The header is read first, and the dictionary is asked for at its end. -/
def inflateHeader (i : StoredInflater) (hset : i.dictSet = false) (input : List UInt8) :
    Step StoredInflater :=
  let taken := min (6-i.got.length) input.length
  let state : StoredInflater := ⟨i.got ++ input.take taken,i.put,false,
    i.inv.1.trans (storedPlain_mono ..),fun _ => ⟨(i.inv.2 hset).1,by
      have := (i.inv.2 hset).2
      rw [List.length_append,List.length_take]
      omega⟩⟩
  if i.got.length+taken = 6 then ⟨.needDict,state,taken,[]⟩
  else if input = [] then ⟨.bufError,i,0,[]⟩
  else ⟨.ok,state,taken,[]⟩

/-- What there is to put out. -/
def toPut (i : StoredInflater) (input : List UInt8) : List UInt8 :=
  (storedPlain (i.got ++ input)).drop i.put.length

theorem put_append_toPut (i : StoredInflater) (input : List UInt8) :
    i.put ++ i.toPut input = storedPlain (i.got ++ input) := by
  obtain ⟨rest,hrest⟩ := i.inv.1.trans (storedPlain_mono i.got input)
  rw [toPut,← hrest,List.drop_left]

def inflateBlocks (i : StoredInflater) (input : List UInt8) (room : ℕ) : Step StoredInflater :=
  if input = [] ∧ (i.toPut input).take room = [] then ⟨.bufError,i,0,[]⟩
  else
    ⟨.ok,⟨i.got ++ input,i.put ++ (i.toPut input).take room,true,by
      refine ⟨?_,fun h => by cases h⟩
      rw [← put_append_toPut]
      exact (List.prefix_append_right_inj _).mpr (List.take_prefix ..)⟩,
      input.length,(i.toPut input).take room⟩

def inflate (i : StoredInflater) (input : List UInt8) (room : ℕ) : Step StoredInflater :=
  if hset : i.dictSet = false then i.inflateHeader hset input else i.inflateBlocks input room

def setDictionary (i : StoredInflater) (dictionary given : List UInt8) :
    Code × StoredInflater :=
  if given = dictionary then
    (.ok,⟨i.got,i.put,true,i.inv.1,fun h => by cases h⟩)
  else (.dataError,i)

theorem setDictionary_same (i : StoredInflater) {dictionary : List UInt8} :
    i.setDictionary dictionary dictionary = (.ok,⟨i.got,i.put,true,i.inv.1,fun h => by cases h⟩) :=
  if_pos rfl

/-- The header is read and the dictionary is still missing. -/
def WantsDict (i : StoredInflater) : Prop := i.dictSet = false ∧ i.got.length = 6

/-- What a call can do. -/
inductive Outcome (i : StoredInflater) (input : List UInt8) (room : ℕ) : Step StoredInflater → Prop
  | idle : input = [] → Outcome i input room ⟨.bufError,i,0,[]⟩
  | asks (s n) : i.dictSet = false → s.dictSet = false → n ≤ input.length → s.got.length = 6 →
      s.got = i.got ++ input.take n → s.put = i.put → Outcome i input room ⟨.needDict,s,n,[]⟩
  | header (s n) : s.dictSet = false → i.dictSet = false → n = input.length → s.got.length < 6 →
      0 < n → s.got = i.got ++ input.take n → s.put = i.put → Outcome i input room ⟨.ok,s,n,[]⟩
  | blocks (s) : s.dictSet = true → (input ≠ [] ∨ (i.toPut input).take room ≠ []) →
      s.got = i.got ++ input → s.put = i.put ++ (i.toPut input).take room →
      Outcome i input room ⟨.ok,s,input.length,(i.toPut input).take room⟩

theorem inflate_outcome (i : StoredInflater) (input : List UInt8) (room : ℕ) :
    Outcome i input room (i.inflate input room) := by
  unfold inflate
  split
  · rename_i hset
    have hle := (i.inv.2 hset).2
    unfold inflateHeader
    dsimp only
    split
    · rename_i h6
      refine .asks _ _ hset rfl (min_le_right ..) ?_ rfl rfl
      rw [List.length_append,List.length_take]
      omega
    · rename_i h6
      split
      · exact .idle ‹_›
      · rename_i hne
        have := List.length_pos_iff.mpr hne
        refine .header _ _ rfl hset (by omega) ?_ (by omega) rfl rfl
        rw [List.length_append,List.length_take]
        omega
  · unfold inflateBlocks
    split
    · rename_i h
      exact .idle h.1
    · rename_i h
      exact .blocks _ rfl (not_and_or.mp h) rfl rfl

/-- Before the dictionary is set there is nothing but the header. -/
theorem plain_of_unset (i : StoredInflater) (h : i.dictSet = false) : storedPlain i.got = [] :=
  readAll_header 5 i.got (i.inv.2 h).2

variable {i : StoredInflater} {input : List UInt8} {room : ℕ} {r : Step StoredInflater}

theorem Outcome.io (h : Outcome i input room r) : r.taken ≤ input.length ∧ r.out.length ≤ room ∧
    r.state.got = i.got ++ input.take r.taken ∧ r.state.put = i.put ++ r.out := by
  cases h with
  | idle h => exact ⟨Nat.zero_le _,Nat.zero_le _,by simp,by simp⟩
  | asks s n _ _ hn _ hgot hput => exact ⟨hn,Nat.zero_le _,hgot,by simp [hput]⟩
  | header s n _ _ hn _ _ hgot hput => exact ⟨hn.le,Nat.zero_le _,hgot,by simp [hput]⟩
  | blocks s _ _ hgot hput => exact ⟨le_rfl,by simp,by simp [hgot],hput⟩

theorem Outcome.code (h : Outcome i input room r) (hne : input ≠ []) :
    r.code = .ok ∨ r.code = .needDict := by
  cases h with
  | idle h => exact absurd h hne
  | asks => exact .inr rfl
  | header => exact .inl rfl
  | blocks => exact .inl rfl

theorem Outcome.progress (h : Outcome i input room r) (hok : r.code = .ok) :
    0 < r.taken ∨ r.out ≠ [] := by
  cases h with
  | idle => cases hok
  | asks => cases hok
  | header _ _ _ _ _ _ hpos => exact .inl hpos
  | blocks _ _ h => exact h.imp_left List.length_pos_iff.mpr

theorem Outcome.all (h : Outcome i input room r) (hok : r.code = .ok) (hroom : r.out.length < room) :
    r.state.put = storedPlain r.state.got := by
  cases h with
  | idle => cases hok
  | asks => cases hok
  | header s n hset hset' _ _ _ _ hput =>
    rw [s.plain_of_unset hset]
    exact hput.trans (i.inv.2 hset').1
  | blocks s _ _ hgot hput =>
    rw [List.length_take] at hroom
    rw [hgot,hput,List.take_of_length_le (by omega),put_append_toPut]

theorem Outcome.notWants (h : Outcome i input room r) (hok : r.code = .ok) : ¬ r.state.WantsDict := by
  rintro ⟨hset',h6⟩
  cases h with
  | idle => cases hok
  | asks => cases hok
  | header s n _ _ _ hlt => exact absurd h6 (Nat.ne_of_lt hlt)
  | blocks s hset => exact absurd (hset.symm.trans hset') (by decide)

theorem Outcome.keeps (h : Outcome i input room r) (hset : i.dictSet = true) : r.state.dictSet = true := by
  cases h with
  | idle => exact hset
  | asks _ _ h => exact absurd (hset.symm.trans h) (by decide)
  | header _ _ _ h => exact absurd (hset.symm.trans h) (by decide)
  | blocks _ h => exact h

theorem Outcome.needDict (h : Outcome i input room r) (hcode : r.code = .needDict) : r.out = [] ∧
    storedPlain r.state.got = [] ∧ r.state.WantsDict ∧ ¬ i.dictSet = true := by
  cases h with
  | idle => cases hcode
  | asks s n hset hset' _ h6 =>
    exact ⟨rfl,s.plain_of_unset hset',⟨hset',h6⟩,by rw [hset]; decide⟩
  | header => cases hcode
  | blocks => cases hcode

end StoredInflater

/-- zlib with stored blocks only, for a peer with this dictionary. -/
def storedImpl (m : Marker) (dictionary : List UInt8) : Impl where
  D := StoredDeflater
  I := StoredInflater
  deflateStart := .start
  inflateStart := .start
  deflate d := d.deflate m
  inflate := StoredInflater.inflate
  inflateSetDictionary i := i.setDictionary dictionary
  deflateEnd := id
  inflateEnd := id

open StoredDeflater StoredInflater in
/-- It does what the manual says. -/
def storedContract (m : Marker) (dictionary : List UInt8) :
    Contract (storedImpl m dictionary) dictionary where
  plain := storedPlain
  plain_nil := rfl
  plain_mono := storedPlain_mono
  fed := StoredDeflater.fed
  gave := StoredDeflater.gave
  unfinished d := d.unfinished = true
  left := StoredDeflater.left
  deflate_start := ⟨rfl,rfl⟩
  deflate_io d input room := deflate_io d input room
  deflate_ok d input room := deflate_ok
  deflate_flushed d input room := deflate_flushed
  deflate_unfinished d input room := deflate_unfinished
  deflate_progress d input room := left_lt
  got := StoredInflater.got
  put := StoredInflater.put
  dictSet i := i.dictSet = true
  wantsDict := WantsDict
  inflate_start := ⟨rfl,rfl,by rintro ⟨-,h⟩; cases h⟩
  inflate_io i input room := (inflate_outcome i input room).io
  inflate_sound i input room := (inflate i input room).state.inv.1
  inflate_code i input room _ _ hne _ _ := (inflate_outcome i input room).code hne
  inflate_progress i input room := (inflate_outcome i input room).progress
  inflate_all i input room := (inflate_outcome i input room).all
  inflate_notWants i input room := (inflate_outcome i input room).notWants
  inflate_dictSet i input room := (inflate_outcome i input room).keeps
  inflate_needDict i input room := (inflate_outcome i input room).needDict
  setDictionary i _ := by
    have hset : (storedImpl m dictionary).inflateSetDictionary i dictionary = _ :=
      i.setDictionary_same
    rw [hset]
    exact ⟨rfl,rfl,fun h => absurd h.1 Bool.noConfusion,rfl,rfl⟩

end Zlib
