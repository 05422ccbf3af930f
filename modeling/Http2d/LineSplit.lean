import Http2d.BufferOps
import Http2d.Library.Lines

/-! `http2d_buffer_split_lines`.
The text is taken word by word: a line in the making, the next word, and whether the space in front of
that word may still become a newline. -/
namespace Http2d

/-- The loop of `http2d_buffer_split_lines` at offset `p`; `mem` answers the requests of
`http2d_buffer_insert` one after another, and what it returns is not looked at. An iteration leaves one
byte less behind `p`. -/
def splitLoop (columns : ℤ) (indent : Option (List UInt8)) :
    ℕ → (ℕ → Bool) → Buffer → ℕ → Option ℕ → ℤ → Exec Buffer
  | 0, _, _, _, _, _ => .error .fault
  | fuel+1, mem, b, p, prevSpace, sincePrev =>
    if b.len ≤ p then .ok b
    else do
      let sincePrev ← intValue (sincePrev+1)
      let c ← peekByte b.buf p
      if c ≠ 32 then splitLoop columns indent fuel mem b (p+1) prevSpace sincePrev
      else
        let prevSpace := if prevSpace = none ∨ sincePrev ≤ columns then some p else prevSpace
        if sincePrev < columns then splitLoop columns indent fuel mem b (p+1) prevSpace sincePrev
        else do
          let latestNewline := prevSpace.getD p
          let sincePrev := if prevSpace = none then 0 else cint (p-latestNewline)
          let b := {b with buf := b.buf.set latestNewline 10}
          match indent with
          | none => splitLoop columns indent fuel mem b (p+1) none sincePrev
          | some txt => do
            let r ← b.insert (mem 0) txt (latestNewline+1)
            let sincePrev ← intValue (sincePrev+cint txt.length)
            let p := cint p+cint txt.length
            if p < 0 then .error .fault
            else splitLoop columns indent fuel (fun k => mem (k+1)) r.2 (p.toNat+1) none sincePrev

/-- `http2d_buffer_split_lines`. -/
def Buffer.splitLines (mem : ℕ → Bool) (b : Buffer) (columns : Int32) (indent : Option (List UInt8)) :
    Exec (Ret × Buffer) := do
  let b ← splitLoop columns.toInt indent (b.len+1) mem b 0 none 0
  .ok (.ok,b)

section Words

/-- The lines that are made of `front`, a word and the words behind it; `kept` tells whether the space
at the end of `front` may still become a newline. No line can be counted in an `int` that overflows. -/
def wrapWords (columns : ℕ) : List UInt8 → Bool → List UInt8 → List (List UInt8) → Exec (List (List UInt8))
  | front, _, w, [] => if front.length+w.length < 2^31 then .ok [front ++ w] else .error .fault
  | front, kept, w, u::rest =>
    if front.length+w.length+1 < 2^31 then
      if kept = true ∧ columns < front.length+w.length+1 then do
        let ls ← wrapWords columns (w ++ [32]) false u rest
        .ok (front.dropLast::ls)
      else if columns ≤ front.length+w.length+1 then do
        let ls ← wrapWords columns [] false u rest
        .ok ((front ++ w)::ls)
      else wrapWords columns (front ++ w ++ [32]) true u rest
    else .error .fault

variable {columns size len : ℕ} {mem : ℕ → Bool} {w tail : List UInt8}

/-- The letters of a word are counted. -/
theorem splitLoop_word {blk : List UInt8} {fuel p s : ℕ} {prev : Option ℕ} {c : ℤ} (hw : 32 ∉ w)
    (hblk : blk.drop p = w ++ tail) (hp : p+w.length ≤ len) (hs : s < 2^31) :
    splitLoop c none (fuel+w.length) mem ⟨blk,size,len⟩ p prev s =
      if s+w.length < 2^31 then splitLoop c none fuel mem ⟨blk,size,len⟩ (p+w.length) prev (s+w.length : ℕ)
      else .error .fault := by
  induction w generalizing p s with
  | nil => exact (if_pos hs).symm
  | cons x w ih =>
    obtain ⟨hx,hw⟩ := not_or.mp (List.mem_cons.not.mp hw)
    obtain ⟨hpeek,hnext,_⟩ := peekByte_drop hblk
    rw [List.length_cons] at hp
    rw [List.length_cons,← Nat.add_assoc,splitLoop,if_neg (by simp only; omega)]
    by_cases hcount : s+1 < 2^31
    · rw [intValue_ok (by omega) (by omega),ok_bind,hpeek,ok_bind,if_pos (Ne.symm hx)]
      have := ih (p:=p+1) (s:=s+1) hw hnext (by omega) hcount
      rw [show p+(w.length+1) = p+1+w.length by omega,show s+(w.length+1) = s+1+w.length by omega]
      exact_mod_cast this
    · rw [intValue_fault (by omega),if_neg (by omega)]
      rfl

section Space
variable {blk t : List UInt8} {fuel p s : ℕ} {c : ℤ} (hblk : blk.drop p = 32::t) (hp : p < len)
include hblk hp

/-- A space that is counted. -/
theorem splitLoop_space {prev : Option ℕ} (hs : s+1 < 2^31) :
    splitLoop c none (fuel+1) mem ⟨blk,size,len⟩ p prev s =
      if (s : ℤ)+1 < c then splitLoop c none fuel mem ⟨blk,size,len⟩ (p+1) (some p) (s+1 : ℕ)
      else if prev = none ∨ (s : ℤ)+1 ≤ c then
        splitLoop c none fuel mem ⟨blk.set p 10,size,len⟩ (p+1) none (0 : ℕ)
      else
        splitLoop c none fuel mem ⟨blk.set (prev.getD p) 10,size,len⟩ (p+1) none (cint (p-prev.getD p)) := by
  rw [splitLoop,if_neg (not_le.mpr hp),intValue_ok (by omega) (by omega),ok_bind,(peekByte_drop hblk).1,
    ok_bind]
  simp only [ne_eq,not_true_eq_false,if_false]
  by_cases hon : (s : ℤ)+1 < c
  · rw [if_pos hon,if_pos hon,if_pos (Or.inr hon.le)]
    rfl
  rw [if_neg hon,if_neg hon]
  by_cases hkeep : prev = none ∨ (s : ℤ)+1 ≤ c
  · simp only [if_pos hkeep,Option.getD_some,reduceCtorEq,if_false,Nat.sub_self]
    rfl
  · simp only [if_neg hkeep,if_neg (not_or.mp hkeep).1]

omit hblk in
theorem splitLoop_uncounted {prev : Option ℕ} (hs : 2^31 ≤ s+1) :
    splitLoop c none (fuel+1) mem ⟨blk,size,len⟩ p prev s = .error .fault := by
  rw [splitLoop,if_neg (not_le.mpr hp),intValue_fault (by omega)]
  rfl

end Space

theorem wrapWords_ne_nil {front : List UInt8} {kept : Bool} {rest ls : List (List UInt8)}
    (h : wrapWords columns front kept w rest = .ok ls) : ls ≠ [] := by
  induction rest generalizing front kept w ls with
  | nil =>
    rw [wrapWords] at h
    split_ifs at h
    cases h
    exact List.cons_ne_nil _ _
  | cons u rest ih =>
    rw [wrapWords] at h
    split_ifs at h
    · obtain ⟨ls',_,h⟩ := bind_ok_inv h
      cases h
      exact List.cons_ne_nil _ _
    · obtain ⟨ls',_,h⟩ := bind_ok_inv h
      cases h
      exact List.cons_ne_nil _ _
    · exact ih h

/-- One line more in front of the others. -/
theorem map_cons_line {done line front : List UInt8} {kept : Bool} {rest : List (List UInt8)} :
    ((wrapWords columns front kept w rest).map fun ls =>
        (⟨done ++ line ++ [10] ++ [10].intercalate ls ++ tail,size,len⟩ : Buffer)) =
      (do
        let ls ← wrapWords columns front kept w rest
        .ok (line::ls) : Exec (List (List UInt8))).map fun ls =>
          ⟨done ++ [10].intercalate ls ++ tail,size,len⟩ := by
  cases hls : wrapWords columns front kept w rest with
  | error e => rfl
  | ok ls =>
    rw [ok_bind,Except.map,Except.map,List.intercalate_cons_of_ne_nil (wrapWords_ne_nil hls)]
    simp

/-- The space that is kept: the last byte of the line in the making. -/
def keptSpace (kept : Bool) (p : ℕ) : Option ℕ := if kept then some (p-1) else none

@[simp] theorem keptSpace_false (p : ℕ) : keptSpace false p = none := rfl
@[simp] theorem keptSpace_true (p : ℕ) : keptSpace true (p+1) = some p := rfl

section Turns
variable (columns size len mem tail)

/-- The loop behind the lines that are done, with the line in the making and the rest of the text. -/
def lineLoop (fuel : ℕ) (done front : List UInt8) (kept : Bool) (txt : List UInt8) : Exec Buffer :=
  splitLoop columns none fuel mem ⟨done ++ front ++ txt ++ tail,size,len⟩ (done ++ front).length
    (keptSpace kept (done ++ front).length) front.length

variable {columns size len mem tail} {fuel : ℕ} {done front line txt : List UInt8} {kept : Bool} (hw : 32 ∉ w)
include hw

/-- The last word. -/
theorem lineLoop_end (hs : front.length < 2^31) (hlen : (done ++ front).length+w.length = len) :
    lineLoop columns size len mem tail (fuel+1+w.length) done front kept w =
      if front.length+w.length < 2^31 then .ok ⟨done ++ front ++ w ++ tail,size,len⟩ else .error .fault := by
  have hblk : (done ++ front ++ w ++ tail).drop (done ++ front).length = w ++ tail := by
    rw [List.append_assoc (done ++ front),List.drop_left]
  rw [lineLoop,splitLoop_word hw hblk hlen.le hs,splitLoop,if_pos hlen.ge]

variable (hlen : (done ++ front).length+w.length < len)
include hlen

/-- A word in front of a space. -/
theorem lineLoop_word (hs : front.length < 2^31) :
    lineLoop columns size len mem tail (fuel+1+w.length) done front kept (w ++ 32::txt) =
      if front.length+w.length < 2^31 then
        splitLoop columns none (fuel+1) mem ⟨done ++ front ++ (w ++ 32::txt) ++ tail,size,len⟩
          ((done ++ front).length+w.length) (keptSpace kept (done ++ front).length)
          (front.length+w.length : ℕ)
      else .error .fault := by
  have hblk : (done ++ front ++ (w ++ 32::txt) ++ tail).drop (done ++ front).length =
      w ++ (32::txt ++ tail) := by
    rw [List.append_assoc (done ++ front),List.drop_left,List.append_assoc]
  exact splitLoop_word hw hblk hlen.le hs

theorem lineLoop_uncounted (hs : front.length < 2^31) (hcount : 2^31 ≤ front.length+w.length+1) :
    lineLoop columns size len mem tail (fuel+1+w.length) done front kept (w ++ 32::txt) = .error .fault := by
  rw [lineLoop_word hw hlen hs,splitLoop_uncounted hlen hcount,ite_self]

variable (hcount : front.length+w.length+1 < 2^31)
include hcount

/-- A word in front of a space that is counted. -/
theorem lineLoop_space {p : ℕ} {prev : Option ℕ} {blk : List UInt8} (hp : p = (done ++ front).length+w.length)
    (hprev : prev = keptSpace kept (done ++ front).length)
    (hblk : blk = done ++ front ++ w ++ 32::(txt ++ tail)) :
    lineLoop columns size len mem tail (fuel+1+w.length) done front kept (w ++ 32::txt) =
      if front.length+w.length+1 < columns then
        splitLoop columns none fuel mem ⟨blk,size,len⟩ (p+1) (some p) (front.length+w.length+1 : ℕ)
      else if prev = none ∨ front.length+w.length+1 ≤ columns then
        splitLoop columns none fuel mem ⟨blk.set p 10,size,len⟩ (p+1) none (0 : ℕ)
      else
        splitLoop columns none fuel mem ⟨blk.set (prev.getD p) 10,size,len⟩ (p+1) none
          (cint (p-prev.getD p)) := by
  have hdrop : blk.drop p = 32::(txt ++ tail) := by
    rw [hblk,hp,← List.length_append,List.drop_left]
  have hwhole : done ++ front ++ (w ++ 32::txt) ++ tail = blk := by
    rw [hblk]
    simp
  rw [lineLoop_word hw hlen (by omega),if_pos (by omega),hwhole,← hp,← hprev,
    splitLoop_space hdrop (hp ▸ hlen) hcount]
  exact_mod_cast rfl

/-- The space behind the word is kept. -/
theorem lineLoop_on (hon : front.length+w.length+1 < columns) :
    lineLoop columns size len mem tail (fuel+1+w.length) done front kept (w ++ 32::txt) =
      lineLoop columns size len mem tail fuel done (front ++ w ++ [32]) true txt := by
  have hs : (front ++ w ++ [32]).length = front.length+w.length+1 := by
    rw [List.length_append,List.length_append,List.length_singleton]
  have hpos : (done ++ (front ++ w ++ [32])).length = (done ++ front).length+w.length+1 := by
    rw [List.length_append,hs,List.length_append]
    omega
  rw [lineLoop_space hw hlen hcount rfl rfl rfl,if_pos hon,lineLoop,hpos,hs,keptSpace_true]
  simp

/-- The space behind the word becomes the newline. -/
theorem lineLoop_here (hnew : kept = true → front.length+w.length+1 ≤ columns)
    (hhere : columns ≤ front.length+w.length+1) :
    lineLoop columns size len mem tail (fuel+1+w.length) done front kept (w ++ 32::txt) =
      lineLoop columns size len mem tail fuel (done ++ (front ++ w) ++ [10]) [] false txt := by
  have hprev : keptSpace kept (done ++ front).length = none ∨ front.length+w.length+1 ≤ columns := by
    cases kept with
    | false => exact Or.inl rfl
    | true => exact Or.inr (hnew rfl)
  have hpos : (done ++ (front ++ w) ++ [10] ++ []).length = (done ++ front).length+w.length+1 := by
    simp only [List.length_append,List.length_singleton,List.length_nil]
    omega
  rw [lineLoop_space hw hlen hcount rfl rfl rfl,if_neg (not_lt.mpr hhere),if_pos hprev,lineLoop,hpos,
    ← List.length_append,Lines.set_separator]
  simp

/-- The kept space becomes the newline, and the one behind the word is not kept. -/
theorem lineLoop_back (hkept : front = line ++ [32]) (hback : columns < front.length+w.length+1) :
    lineLoop columns size len mem tail (fuel+1+w.length) done front true (w ++ 32::txt) =
      lineLoop columns size len mem tail fuel (done ++ line ++ [10]) (w ++ [32]) false txt := by
  subst hkept
  have hprev : (some (done ++ line).length : Option ℕ) = keptSpace true (done ++ (line ++ [32])).length := by
    have hlast : (done ++ (line ++ [32])).length = (done ++ line).length+1 := by
      simp only [List.length_append,List.length_singleton]
      omega
    rw [hlast,keptSpace_true]
  have hblk : (done ++ line) ++ 32::(w ++ 32::(txt ++ tail)) =
      done ++ (line ++ [32]) ++ w ++ 32::(txt ++ tail) := by simp
  have hpos : (done ++ line ++ [10] ++ (w ++ [32])).length = (done ++ (line ++ [32])).length+w.length+1 := by
    simp only [List.length_append,List.length_singleton]
    omega
  have hsince : (done ++ (line ++ [32])).length+w.length-(done ++ line).length = (w ++ [32]).length := by
    simp only [List.length_append,List.length_singleton]
    omega
  have hint : (w ++ [32]).length < 2^31 := by
    simp only [List.length_append,List.length_singleton] at hcount ⊢
    omega
  rw [lineLoop_space hw hlen hcount rfl hprev hblk,if_neg (not_lt.mpr hback.le),
    if_neg (not_or.mpr ⟨Option.some_ne_none _,not_le.mpr hback⟩),Option.getD_some,hsince,
    cint_of_lt hint,Lines.set_separator,lineLoop,hpos]
  simp

end Turns

variable (columns size len mem tail) in
/-- The loop makes the lines. -/
theorem lineLoop_eq (fuel : ℕ) (done front : List UInt8) (kept : Bool) {rest : List (List UInt8)}
    (hkept : kept = true → ∃ line, front = line ++ [32]) (hw : 32 ∉ w) (hrest : ∀ u ∈ rest, 32 ∉ u)
    (hlen : (done ++ front).length+([32].intercalate (w::rest)).length = len) (hs : front.length < 2^31)
    (hfuel : ([32].intercalate (w::rest)).length < fuel) :
    lineLoop columns size len mem tail fuel done front kept ([32].intercalate (w::rest)) =
      (wrapWords columns front kept w rest).map fun ls => ⟨done ++ [10].intercalate ls ++ tail,size,len⟩ := by
  induction rest generalizing done front kept w fuel with
  | nil =>
    rw [List.intercalate_singleton] at hlen hfuel ⊢
    obtain ⟨k,rfl⟩ : ∃ k, fuel = k+1+w.length := ⟨fuel-w.length-1,by omega⟩
    rw [lineLoop_end hw hs hlen,wrapWords]
    split_ifs
    · simp [Except.map]
    · rfl
  | cons u rest ih =>
    obtain ⟨hu,hrest⟩ := List.forall_mem_cons.mp hrest
    have htxt : [32].intercalate (w::u::rest) = w ++ 32::[32].intercalate (u::rest) := by
      rw [List.intercalate_cons_cons,List.append_assoc,List.singleton_append]
    rw [htxt] at hlen hfuel ⊢
    simp only [List.length_append,List.length_cons] at hlen hfuel
    obtain ⟨k,rfl⟩ : ∃ k, fuel = k+1+w.length := ⟨fuel-w.length-1,by omega⟩
    have hin : (done ++ front).length+w.length < len := by
      rw [List.length_append]
      omega
    rw [wrapWords]
    by_cases hcount : front.length+w.length+1 < 2^31
    swap
    · rw [if_neg hcount,lineLoop_uncounted hw hin hs (not_lt.mp hcount)]
      rfl
    rw [if_pos hcount]
    by_cases hback : kept = true ∧ columns < front.length+w.length+1
    · obtain ⟨rfl,hback'⟩ := hback
      obtain ⟨line,hline⟩ := hkept rfl
      rw [if_pos ⟨rfl,hback'⟩,lineLoop_back hw hin hcount hline hback',hline,List.dropLast_concat]
      refine (ih k _ _ false (by simp) hu hrest ?_ ?_ (by omega)).trans map_cons_line
      · simp [hline] at hlen ⊢
        omega
      · simp
        omega
    rw [if_neg hback]
    by_cases hhere : columns ≤ front.length+w.length+1
    · rw [if_pos hhere,lineLoop_here hw hin hcount (fun h => not_lt.mp fun hc => hback ⟨h,hc⟩) hhere]
      refine (ih k _ _ false (by simp) hu hrest ?_ (by simp) (by omega)).trans map_cons_line
      simp
      omega
    · rw [if_neg hhere,lineLoop_on hw hin hcount (not_le.mp hhere)]
      refine ih k _ _ true (fun _ => ⟨_,rfl⟩) hu hrest ?_ ?_ (by omega)
      · simp
        omega
      · simp
        omega

/-- A space may become a newline. -/
def Broken (x y : UInt8) : Prop := y = x ∨ x = 32 ∧ y = 10

theorem broken_line (line : List UInt8) {s t : List UInt8} (h : List.Forall₂ Broken s t) :
    List.Forall₂ Broken (line ++ 32::s) (line ++ 10::t) := by
  have hline : List.Forall₂ Broken line line := List.forall₂_same.mpr fun _ _ => Or.inl rfl
  have hrest : List.Forall₂ Broken (32::s) (10::t) := .cons (Or.inr ⟨rfl,rfl⟩) h
  exact List.rel_append hline hrest

/-- In the lines only spaces have become newlines. -/
theorem wrapWords_broken {front : List UInt8} {kept : Bool} {rest ls : List (List UInt8)}
    (hkept : kept = true → ∃ line, front = line ++ [32]) (h : wrapWords columns front kept w rest = .ok ls) :
    List.Forall₂ Broken (front ++ [32].intercalate (w::rest)) ([10].intercalate ls) := by
  induction rest generalizing front kept w ls with
  | nil =>
    rw [wrapWords] at h
    split_ifs at h
    cases h
    rw [List.intercalate_singleton,List.intercalate_singleton]
    exact List.forall₂_same.mpr fun _ _ => Or.inl rfl
  | cons u rest ih =>
    rw [wrapWords] at h
    rw [List.intercalate_cons_cons]
    split_ifs at h with _ hback
    · obtain ⟨ls',hls,h⟩ := bind_ok_inv h
      cases h
      obtain ⟨line,rfl⟩ := hkept hback.1
      have hnext := broken_line line (ih (by simp) hls)
      rw [List.dropLast_concat,List.intercalate_cons_of_ne_nil (wrapWords_ne_nil hls)]
      simpa using hnext
    · obtain ⟨ls',hls,h⟩ := bind_ok_inv h
      cases h
      have hnext := broken_line (front ++ w) (ih (by simp) hls)
      rw [List.intercalate_cons_of_ne_nil (wrapWords_ne_nil hls)]
      simpa using hnext
    · have hnext := ih (fun _ => ⟨_,rfl⟩) h
      simpa using hnext

/-- A line that is too long has no space. -/
def LineShort (columns : ℕ) (l : List UInt8) : Prop := columns < l.length → 32 ∉ l

/-- The word fits into the line that it is behind, up to its first newline. -/
def Joins (columns : ℕ) (front w : List UInt8) : Prop :=
  front ≠ [] → (Lines.lastPart 10 front).length+(Lines.firstPart 10 w).length ≤ columns

/-- What is known of a line in the making: it is short enough for its last space to be kept, or it is
one word, whose space is not kept. -/
def InMaking (columns : ℕ) (front : List UInt8) (kept : Bool) : Prop :=
  front = [] ∧ kept = false ∨ ∃ line, front = line ++ [32] ∧
    (kept = true ∧ line.length+1 < columns ∨ kept = false ∧ 32 ∉ line)

/-- A word ends a line well when it fits into it. -/
theorem lines_short_iff {front : List UInt8} {kept : Bool} (hmake : InMaking columns front kept)
    (hw : 32 ∉ w) : (∀ l ∈ (front ++ w).splitOn 10, LineShort columns l) ↔ Joins columns front w := by
  have hword (l : List UInt8) (h : l ∈ w.splitOn 10) : 32 ∉ l :=
    fun h32 => hw ((Lines.infix_of_mem_splitOn h).mem h32)
  rcases hmake with ⟨rfl,_⟩ | ⟨line,rfl,hline⟩
  · rw [List.nil_append]
    exact iff_of_true (fun l hl _ => hword l hl) (fun h => absurd rfl h)
  have hfront (l : List UInt8) (h : l ∈ line.splitOn 10) : LineShort columns l := by
    have hin := Lines.infix_of_mem_splitOn h
    rcases hline with ⟨_,hlen⟩ | ⟨_,hno⟩
    · intro hlong
      have := hin.length_le
      omega
    · exact fun _ h32 => hno (hin.mem h32)
  have hspace : (10 : UInt8) ∉ [32] := by decide
  rw [Lines.splitOn_append,Lines.splitOn_append_of_not_mem hspace,List.dropLast_concat,List.forall_mem_append,
    List.forall_mem_cons,Joins]
  constructor
  · rintro ⟨_,hjoin,_⟩ _
    by_contra hlong
    refine hjoin ?_ ?_
    · rw [List.length_append]
      omega
    · rw [Lines.lastPart_append hspace]
      simp
  · refine fun hjoin => ⟨fun l hl => hfront l (List.mem_of_mem_dropLast hl),fun hlong => ?_,
      fun l hl _ => hword l (List.mem_of_mem_tail hl)⟩
    rw [List.length_append] at hlong
    have := hjoin (by simp)
    omega

/-- The condition on the words, in the order in which the lines are filled: a word that is put behind the
space of another one, and ends the line, fits into it; and every count of a line is an `int`. -/
def LinesFit (columns : ℕ) : List UInt8 → Bool → List UInt8 → List (List UInt8) → Prop
  | front, _, w, [] => front.length+w.length < 2^31 ∧ Joins columns front w
  | front, kept, w, u::rest => front.length+w.length+1 < 2^31 ∧
    if kept = true ∧ columns < front.length+w.length+1 then LinesFit columns (w ++ [32]) false u rest
    else if columns ≤ front.length+w.length+1 then Joins columns front w ∧ LinesFit columns [] false u rest
    else LinesFit columns (front ++ w ++ [32]) true u rest

theorem cons_line_iff {x : Exec (List (List UInt8))} {line : List UInt8} {P : List UInt8 → Prop} :
    (∃ ls, (do
        let ls ← x
        .ok (line::ls)) = Except.ok ls ∧ ∀ s ∈ ls, P s) ↔
      P line ∧ ∃ ls, x = .ok ls ∧ ∀ s ∈ ls, P s := by
  constructor
  · rintro ⟨ls,hls,h⟩
    obtain ⟨ls',hx,hls⟩ := bind_ok_inv hls
    cases hls
    obtain ⟨hline,hrest⟩ := List.forall_mem_cons.mp h
    exact ⟨hline,ls',hx,hrest⟩
  · rintro ⟨hline,ls,hx,h⟩
    exact ⟨line::ls,by rw [hx,ok_bind],List.forall_mem_cons.mpr ⟨hline,h⟩⟩

/-- The lines are short exactly when the words fit. -/
theorem wrapWords_short_iff {front : List UInt8} {kept : Bool} {rest : List (List UInt8)}
    (hmake : InMaking columns front kept) (hw : 32 ∉ w) (hrest : ∀ u ∈ rest, 32 ∉ u) :
    (∃ ls, wrapWords columns front kept w rest = .ok ls ∧
      ∀ s ∈ ls, ∀ l ∈ s.splitOn 10, LineShort columns l) ↔ LinesFit columns front kept w rest := by
  induction rest generalizing front kept w with
  | nil =>
    rw [wrapWords,LinesFit]
    by_cases hcount : front.length+w.length < 2^31
    · rw [if_pos hcount,and_iff_right hcount,← lines_short_iff hmake hw]
      constructor
      · rintro ⟨ls,hls,h⟩
        cases hls
        exact h _ (List.mem_singleton_self _)
      · exact fun h => ⟨_,rfl,fun s hs => List.mem_singleton.mp hs ▸ h⟩
    · rw [if_neg hcount]
      refine iff_of_false ?_ fun h => hcount h.1
      rintro ⟨ls,hls,_⟩
      cases hls
  | cons u rest ih =>
    obtain ⟨hu,hrest⟩ := List.forall_mem_cons.mp hrest
    rw [wrapWords,LinesFit]
    by_cases hcount : front.length+w.length+1 < 2^31
    swap
    · rw [if_neg hcount]
      refine iff_of_false ?_ fun h => hcount h.1
      rintro ⟨ls,hls,_⟩
      cases hls
    rw [if_pos hcount,and_iff_right hcount]
    by_cases hback : kept = true ∧ columns < front.length+w.length+1
    · rw [if_pos hback,if_pos hback,cons_line_iff,ih (Or.inr ⟨w,rfl,Or.inr ⟨rfl,hw⟩⟩) hu hrest]
      refine and_iff_right fun l hl hlong => ?_
      obtain ⟨line,rfl,hshort⟩ : ∃ line, front = line ++ [32] ∧ line.length+1 < columns := by
        rcases hmake with ⟨_,hno⟩ | ⟨line,hline,⟨_,hlen⟩ | ⟨hno,_⟩⟩
        · exact absurd (hback.1.symm.trans hno) (by decide)
        · exact ⟨line,hline,hlen⟩
        · exact absurd (hback.1.symm.trans hno) (by decide)
      rw [List.dropLast_concat] at hl
      have := (Lines.infix_of_mem_splitOn hl).length_le
      omega
    rw [if_neg hback,if_neg hback]
    by_cases hhere : columns ≤ front.length+w.length+1
    · rw [if_pos hhere,if_pos hhere,cons_line_iff,ih (Or.inl ⟨rfl,rfl⟩) hu hrest,lines_short_iff hmake hw]
    · rw [if_neg hhere,if_neg hhere]
      refine ih (Or.inr ⟨front ++ w,rfl,Or.inl ⟨rfl,?_⟩⟩) hu hrest
      rw [List.length_append]
      omega

end Words

namespace Buffer
variable {mem : ℕ → Bool} {b : Buffer} {columns : Int32}

/-- Only spaces become newlines, and a line that is longer than `columns` has no space. -/
def SplitsLines (mem : ℕ → Bool) (b : Buffer) (columns : Int32) : Prop :=
  ∃ d, b.splitLines mem columns none = .ok (.ok,d) ∧ d.Wf ∧ d.len = b.len ∧
    List.Forall₂ Broken b.content d.content ∧
    ∀ l ∈ d.content.splitOn 10, columns.toInt < l.length → 32 ∉ l

/-- The condition for a text. -/
def TextFits (columns : ℕ) (txt : List UInt8) : Prop :=
  LinesFit columns [] false (Lines.firstPart 32 txt) (txt.splitOn 32).tail

/-- The words of a text. -/
theorem words_spec (txt : List UInt8) :
    [32].intercalate (Lines.firstPart 32 txt::(txt.splitOn 32).tail) = txt ∧
    32 ∉ Lines.firstPart 32 txt ∧ ∀ u ∈ (txt.splitOn 32).tail, 32 ∉ u := by
  have hwords := Lines.splitOn_eq_first (x:=32) txt
  refine ⟨by rw [← hwords,List.intercalate_splitOn],Lines.not_mem_of_mem_splitOn (s:=txt) ?_,fun u hu => ?_⟩
  · rw [hwords]
    exact List.mem_cons_self
  · exact Lines.not_mem_of_mem_splitOn (List.mem_of_mem_tail hu)

/-- The call makes the lines. -/
theorem splitLines_eq (hb : b.Wf) {n : ℕ} (hn : columns.toInt = n) : b.splitLines mem columns none =
    (wrapWords n [] false (Lines.firstPart 32 b.content) (b.content.splitOn 32).tail).map fun ls =>
      (.ok,{b with buf := [10].intercalate ls ++ b.buf.drop b.len}) := by
  obtain ⟨htxt,hfirst,htail⟩ := words_spec b.content
  have hcl := content_length hb
  have hrun := lineLoop_eq n b.size b.len mem (b.buf.drop b.len) (b.len+1) [] [] false (by simp) hfirst htail
    (by rw [htxt,hcl]; exact Nat.zero_add _) (by decide) (by rw [htxt]; omega)
  have hblk : [] ++ [] ++ b.content ++ b.buf.drop b.len = b.buf := List.take_append_drop _ _
  rw [lineLoop,htxt,hblk] at hrun
  rw [splitLines,hn]
  refine (congrArg (· >>= fun b => Except.ok (Ret.ok,b)) hrun).trans ?_
  cases wrapWords n [] false (Lines.firstPart 32 b.content) (b.content.splitOn 32).tail with
  | error e => rfl
  | ok ls => rfl

/-- Another string of the same length in the block. -/
theorem same_tail_wf (hb : b.Wf) {txt : List UInt8} (hlen : txt.length = b.len) :
    ({b with buf := txt ++ b.buf.drop b.len} : Buffer).Wf := by
  have hle := hb.len_le
  have hsz := hb.size_eq
  refine ⟨by simp only [List.length_append,List.length_drop]; omega,hb.size_lt,?_⟩
  rcases hb.shape with ⟨hnil,h0⟩ | ⟨hlt,hnul⟩
  · refine Or.inl ⟨?_,h0⟩
    rw [hnil,List.drop_nil,List.append_nil]
    exact List.length_eq_zero_iff.mp (hlen.trans h0)
  · refine Or.inr ⟨by simp only [List.length_append,List.length_drop]; omega,?_⟩
    simp only
    rw [List.getElem?_append_right hlen.le,List.getElem?_drop,hlen,Nat.sub_self]
    exact hnul

/-- Lines are split as they should exactly when the words fit. -/
theorem splitsLines_iff (hb : b.Wf) (hcolumns : 1 ≤ columns.toInt) :
    SplitsLines mem b columns ↔ TextFits columns.toInt.toNat b.content := by
  obtain ⟨n,hn⟩ : ∃ n : ℕ, columns.toInt = n := ⟨columns.toInt.toNat,by omega⟩
  obtain ⟨htxt,hfirst,htail⟩ := words_spec b.content
  have hcl := content_length hb
  rw [hn,Int.toNat_natCast,TextFits,← wrapWords_short_iff (Or.inl ⟨rfl,rfl⟩) hfirst htail,SplitsLines,
    splitLines_eq hb hn,hn]
  cases hls : wrapWords n [] false (Lines.firstPart 32 b.content) (b.content.splitOn 32).tail with
  | error e =>
    refine iff_of_false ?_ ?_
    · rintro ⟨d,h,_⟩
      cases h
    · rintro ⟨ls,h,_⟩
      cases h
  | ok ls =>
    have hbroken := wrapWords_broken (by simp) hls
    rw [htxt,List.nil_append] at hbroken
    have hlen := hbroken.length_eq
    rw [hcl] at hlen
    have hcont : ({b with buf := [10].intercalate ls ++ b.buf.drop b.len} : Buffer).content =
        [10].intercalate ls := List.take_left' hlen.symm
    have hlines := Lines.forall_mem_splitOn_intercalate (x:=(10 : UInt8)) (P:=LineShort n)
      (wrapWords_ne_nil hls)
    constructor
    · rintro ⟨d,h,_,_,_,hshort⟩
      cases h
      rw [hcont] at hshort
      exact ⟨ls,rfl,hlines.mp fun l hl hlong => hshort l hl (by exact_mod_cast hlong)⟩
    · rintro ⟨ls',h,hshort⟩
      cases h
      refine ⟨_,rfl,same_tail_wf hb hlen.symm,rfl,by rw [hcont]; exact hbroken,?_⟩
      · rw [hcont]
        exact fun l hl hlong => hlines.mpr hshort l hl (by exact_mod_cast hlong)

theorem splitsLines_iff_holding : SplitsLines (fun _ => true) (holding [97,32,98]) 3 ↔
    TextFits (3 : Int32).toInt.toNat (holding [97,32,98]).content :=
  splitsLines_iff (holding_wf (by decide)) (by decide)

/-- The last line of "aa bb" is not looked at, as no space is behind it. -/
theorem not_splitsLines_last : ¬ SplitsLines (fun _ => true) (holding [97,97,32,98,98]) 4 := by
  rintro ⟨d,h,_,_,_,hshort⟩
  have hrun : (holding [97,97,32,98,98]).splitLines (fun _ => true) 4 none =
      .ok (.ok,holding [97,97,32,98,98]) := by rfl
  rw [hrun] at h
  cases h
  have hline : (holding [97,97,32,98,98]).content.splitOn 10 = [[97,97,32,98,98]] :=
    List.splitOn_eq_singleton (by decide)
  rw [hline] at hshort
  exact absurd (hshort _ (List.mem_singleton_self _) (by decide)) (by decide)

end Buffer

end Http2d
