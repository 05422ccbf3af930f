import Http2d.UriRoundTrip

/-! What the escaping functions let through, and how they keep count of the bytes.
A character is as long as its first byte announces, whatever the bytes behind it are, and the loops look
at one character in any case. -/
namespace Http2d

open Bytes Buffer

section Safety
variable (table : List ℕ)

/-- `%` and two digits. -/
def StartsEscape (c : UInt8) (s : List UInt8) : Prop := c = 37 ∧ (hexPair s).isSome

/-- No ASCII byte that the table marks is in `out`, but for the `%` of an escape sequence. -/
def Safe (out : List UInt8) : Prop :=
  ∀ u c t, out = u ++ c::t → c.toNat < 128 → isCharEscaped table c = true → StartsEscape c t

/-- A character of several bytes with an ASCII byte in it that the table marks; `back` follows it. -/
def Smuggles (char back : List UInt8) : Prop :=
  2 ≤ char.length ∧ ∃ u c v, char = u ++ c::v ∧ c.toNat < 128 ∧ isCharEscaped table c = true ∧
    ¬ StartsEscape c (v ++ back)

/-- Some character of the string carries an ASCII byte through that the table marks. -/
def CarriesThrough (s : List UInt8) : Prop :=
  ∃ front char back, utf8Chars s = front ++ char::back ∧ Smuggles table char back.flatten

variable {table} {a t : List UInt8}

theorem safe_nil : Safe table [] := fun u c t h => by
  have := congrArg List.length h
  simp at this

theorem safe_append : Safe table (a ++ t) ↔
    (∀ u c v, a = u ++ c::v → c.toNat < 128 → isCharEscaped table c = true → StartsEscape c (v ++ t)) ∧
      Safe table t := by
  constructor
  · refine fun h => ⟨?_,?_⟩
    · rintro u c v rfl
      exact h u c (v ++ t) (by simp)
    · rintro u c v rfl
      exact h (a ++ u) c v (by simp)
  · rintro ⟨hfront,hback⟩ u c v heq hc hm
    rcases List.append_eq_append_iff.mp heq with ⟨w,rfl,ht⟩ | ⟨w,rfl,hw⟩
    · exact hback w c v ht hc hm
    · cases w with
      | nil => exact hback [] c v (by simpa using hw.symm) hc hm
      | cons d w =>
        obtain ⟨rfl,rfl⟩ := List.cons.inj hw
        exact hfront u c w rfl hc hm

end Safety

/-- What is known of the three tables: digits are not marked, NUL and `%` are. -/
structure TableFacts (table : List ℕ) : Prop where
  digit : ∀ c : UInt8, isxdigit c = true → isCharEscaped table c = false
  nul : isCharEscaped table 0 = true
  percent : isCharEscaped table 37 = true

theorem Escaper.tableFacts (f : Escaper) : TableFacts f.table := by
  have hdigit : ∀ n < 256, isxdigit (UInt8.ofNat n) = true →
      isCharEscaped f.table (UInt8.ofNat n) = false := by
    cases f <;> decide +kernel
  refine ⟨fun c hc => ?_,by cases f <;> decide,f.table_facts⟩
  have := hdigit c.toNat c.toNat_lt
  rw [UInt8.ofNat_toNat] at this
  exact this hc

section Characters
variable {table : List ℕ} {char back v : List UInt8} {chars : List (List UInt8)}

theorem hexPair_isSome_iff {s : List UInt8} : (hexPair s).isSome ↔
    ∃ d e t, s = d::e::t ∧ isxdigit d = true ∧ isxdigit e = true := by
  unfold hexPair
  split
  · rename_i d e t
    split_ifs with h
    · rw [Bool.and_eq_true] at h
      exact ⟨fun _ => ⟨d,e,t,rfl,h⟩,fun _ => rfl⟩
    · refine ⟨fun hn => absurd hn (by simp),?_⟩
      rintro ⟨d',e',t',heq,h'⟩
      cases heq
      exact absurd (by rw [Bool.and_eq_true]; exact h') h
  · rename_i hno
    refine ⟨fun hn => absurd hn (by simp),?_⟩
    rintro ⟨d,e,t,rfl,_⟩
    exact absurd rfl (hno d e t)

/-- A byte that is no digit, among the first two. -/
theorem hexPair_eq_none {s : List UInt8} {c : UInt8} (hc : isxdigit c = false) :
    hexPair (c::s) = none ∧ ∀ d, hexPair (d::c::s) = none := by
  constructor
  · cases s <;> simp [hexPair,hc]
  · simp [hexPair,hc]

/-- What is written for a character, and whether it is the character itself. -/
theorem escapeChar_cases (table : List ℕ) (hchar : char ≠ []) :
    (∃ c, char = [c] ∧ isCharEscaped table c = true ∧
      escapeChar table char = [37,hexChars.getD (c.toNat/16) 0,hexChars.getD (c.toNat%16) 0]) ∨
    escapeChar table char = char ∧ (2 ≤ char.length ∨ ∃ c, char = [c] ∧ isCharEscaped table c = false) := by
  match char with
  | [c] =>
    cases hc : isCharEscaped table c with
    | true => exact Or.inl ⟨c,rfl,hc,by simp [escapeChar,hc]⟩
    | false => exact Or.inr ⟨by simp [escapeChar,hc],Or.inr ⟨c,rfl,hc⟩⟩
  | c::d::s => exact Or.inr ⟨rfl,Or.inl (by simp)⟩

/-- Escaping does not change whether two digits come first. -/
theorem hexPair_escaped_iff (ht : TableFacts table) (hchars : ∀ char ∈ chars, char ≠ []) :
    (hexPair (v ++ chars.flatMap (escapeChar table))).isSome ↔ (hexPair (v ++ chars.flatten)).isSome := by
  induction chars generalizing v with
  | nil => rfl
  | cons char chars ih =>
    obtain ⟨hchar,hrest⟩ := List.forall_mem_cons.mp hchars
    rw [List.flatMap_cons,List.flatten_cons]
    rcases escapeChar_cases table hchar with ⟨c,rfl,hc,hesc⟩ | ⟨hesc,_⟩
    · have hmarked : isxdigit c = false := by
        by_contra hd
        rw [ht.digit c (by simpa using hd)] at hc
        cases hc
      have hpct : isxdigit 37 = false := by decide
      rw [hesc]
      match v with
      | [] => simp [(hexPair_eq_none hmarked).1,(hexPair_eq_none hpct).1]
      | [d] => simp [(hexPair_eq_none hmarked).2,(hexPair_eq_none hpct).2]
      | d::e::v => simp [hexPair_isSome_iff]
    · rw [hesc,← List.append_assoc,← List.append_assoc]
      exact ih hrest

/-- The escaped characters are safe exactly when none of them smuggles a byte. -/
theorem safe_escaped_iff (ht : TableFacts table) (hchars : ∀ char ∈ chars, char ≠ []) :
    Safe table (chars.flatMap (escapeChar table)) ↔
      ¬ ∃ front char back, chars = front ++ char::back ∧ Smuggles table char back.flatten := by
  induction chars with
  | nil =>
    refine ⟨fun _ => ?_,fun _ => safe_nil⟩
    rintro ⟨front,char,back,heq,_⟩
    simp at heq
  | cons char chars ih =>
    obtain ⟨hchar,hrest⟩ := List.forall_mem_cons.mp hchars
    have hsplit : (∃ front ch back, char::chars = front ++ ch::back ∧ Smuggles table ch back.flatten) ↔
        Smuggles table char chars.flatten ∨
          ∃ front ch back, chars = front ++ ch::back ∧ Smuggles table ch back.flatten := by
      constructor
      · rintro ⟨front,ch,back,heq,h⟩
        cases front with
        | nil =>
          obtain ⟨rfl,rfl⟩ := List.cons.inj heq
          exact Or.inl h
        | cons _ front => exact Or.inr ⟨front,ch,back,(List.cons.inj heq).2,h⟩
      · rintro (h | ⟨front,ch,back,rfl,h⟩)
        · exact ⟨[],char,chars,rfl,h⟩
        · exact ⟨char::front,ch,back,rfl,h⟩
    rw [List.flatMap_cons,safe_append,ih hrest,hsplit,not_or]
    refine and_congr_left' ?_
    rcases escapeChar_cases table hchar with ⟨c,rfl,hc,hesc⟩ | ⟨hesc,hlong | ⟨c,rfl,hc⟩⟩
    · -- the digits that are written are not marked
      obtain ⟨hhi,hlo,_⟩ := hexChars_digits c.toNat c.toNat_lt
      rw [hesc]
      refine ⟨fun _ h => absurd h.1 (by simp),fun _ u d w heq _ hd => ?_⟩
      match u with
      | [] =>
        simp only [List.nil_append,List.cons.injEq] at heq
        obtain ⟨rfl,rfl⟩ := heq
        exact ⟨rfl,hexPair_isSome_iff.mpr ⟨_,_,_,rfl,hhi,hlo⟩⟩
      | [_] =>
        simp only [List.cons_append,List.nil_append,List.cons.injEq] at heq
        rw [← heq.2.1,ht.digit _ hhi] at hd
        cases hd
      | [_,_] =>
        simp only [List.cons_append,List.nil_append,List.cons.injEq] at heq
        rw [← heq.2.2.1,ht.digit _ hlo] at hd
        cases hd
      | _::_::_::u => simp at heq
    · rw [hesc]
      have hstart (c : UInt8) (w : List UInt8) : StartsEscape c (w ++ chars.flatMap (escapeChar table)) ↔
          StartsEscape c (w ++ chars.flatten) := and_congr_right' (hexPair_escaped_iff ht hrest)
      simp only [Smuggles,hlong,true_and,hstart,not_exists,not_and,not_not]
    · rw [hesc]
      refine ⟨fun _ h => absurd h.1 (by simp),fun _ u d w heq _ hd => ?_⟩
      cases u with
      | nil =>
        obtain ⟨rfl,_⟩ := List.cons.inj heq
        rw [hc] at hd
        cases hd
      | cons _ u => simp at heq

end Characters

theorem utf8Chars_ne_nil (s : List UInt8) : ∀ char ∈ utf8Chars s, char ≠ [] := by
  induction s using utf8Chars.induct with
  | case1 => simp
  | case2 c s ih =>
    rw [utf8Chars_cons]
    exact List.forall_mem_cons.mpr ⟨List.cons_ne_nil _ _,ih⟩

theorem safe_escapeText_iff {table : List ℕ} (ht : TableFacts table) (s : List UInt8) :
    Safe table (escapeText table s) ↔ ¬ CarriesThrough table s :=
  safe_escaped_iff ht (utf8Chars_ne_nil s)

namespace Escaper
variable (mem : Bool) (f : Escaper) (b src : Buffer)

/-- The length that the call gives the destination. -/
def newLen : ℕ := b.len+src.len+2*escapeCount f.table src.content

/-- The block that is asked for has room for the new string and its terminator: it is the one that the
destination has, or the one for three bytes more for each character that is escaped. -/
def HasRoom : Prop :=
  f.newLen b src < ensuredSize mem b (b.len+cuint (src.len+3*escapeCount f.table src.content)+1)

/-- No string that the call puts behind the destination's content has a byte that should be escaped. -/
def AppendsSafely : Prop :=
  ∀ r e, b.escapeWithTable mem f.table src = .ok (r,e) → Safe f.table (cString (e.buf.drop b.len))

variable {mem f b src}

theorem newLen_eq (hsrc : src.Wf) : f.newLen b src = b.len+(escapeText f.table src.content).length := by
  rw [newLen,escapeText_length,content_length hsrc]
  omega

theorem hasRoom_iff (hsrc : src.Wf) : f.HasRoom mem b src ↔
    b.len+(escapeText f.table src.content).length < ensuredSize mem b (b.escapeWant f.table src.content) := by
  have hwant : b.escapeWant f.table src.content =
      b.len+cuint (src.len+3*escapeCount f.table src.content)+1 := by
    rw [escapeWant,content_length hsrc]
    congr 3
    push_cast
    ring
  rw [HasRoom,newLen_eq hsrc,hwant]

/-- With room the escaped text and its terminator are put behind the string of the reserved block. -/
theorem escape_room (hb : b.Wf) (hsrc : src.Wf) (hne : src.content ≠ []) (hroom : f.HasRoom mem b src) :
    ∃ g e : Buffer, g = (b.ensure mem (b.escapeWant f.table src.content)).2 ∧
      b.escapeWithTable mem f.table src = .ok (.ok,e) ∧
      e.buf = overwrite g.buf b.len (escapeText f.table src.content ++ [0]) ∧
      e.len = cuint (f.newLen b src) ∧ f.newLen b src < g.buf.length ∧
      e.buf.take (f.newLen b src) = b.content ++ escapeText f.table src.content ∧
      e.buf[f.newLen b src]? = some 0 := by
  obtain ⟨hgb,hgl,hcont⟩ := ensure_block mem hb (b.escapeWant f.table src.content)
  have hfit := (hasRoom_iff hsrc).mp hroom
  have hcall : b.escapeWithTable mem f.table src = _ := escapeWithTable_eq hb hsrc hne
  rw [← hgb] at hfit
  generalize (b.ensure mem (b.escapeWant f.table src.content)).2 = g at *
  obtain ⟨hfront,hend⟩ := overwrite_terminated _ _ _ hfit
  rw [hgl,write_ok (by rw [List.length_append,List.length_singleton]; omega),ok_bind] at hcall
  rw [newLen_eq hsrc]
  refine ⟨g,_,rfl,hcall,rfl,?_,hfit,?_,hend⟩
  · dsimp only
    rw [hgl]
  · have hbc : b.content = g.buf.take b.len := by rw [← hcont,← hgl,content]
    rw [hbc]
    exact hfront

/-- Without room the call does not return. -/
theorem hasRoom_of_escape (hb : b.Wf) (hsrc : src.Wf) (hne : src.content ≠ []) {r : Ret × Buffer}
    (h : b.escapeWithTable mem f.table src = .ok r) : f.HasRoom mem b src := by
  obtain ⟨hgb,hgl,_⟩ := ensure_block mem hb (b.escapeWant f.table src.content)
  rw [escapeWithTable_eq hb hsrc hne] at h
  obtain ⟨w,hw,_⟩ := bind_ok_inv h
  have hfit := (write_inv hw).1
  rw [List.length_append,List.length_singleton] at hfit
  rw [hasRoom_iff hsrc]
  omega

/-- What is appended is safe exactly when the block is too small, so that the call does not return, or
no character of the source carries a marked byte through. -/
theorem appendsSafely_iff (hb : b.Wf) (hsrc : src.Wf) (hne : src.content ≠ []) (hnul : 0 ∉ src.content) :
    f.AppendsSafely mem b src ↔ (f.HasRoom mem b src → ¬ CarriesThrough f.table src.content) := by
  rw [← safe_escapeText_iff f.tableFacts]
  have hout {g e : Buffer} (hfit : f.newLen b src < g.buf.length)
      (hbuf : e.buf = overwrite g.buf b.len (escapeText f.table src.content ++ [0])) :
      cString (e.buf.drop b.len) = escapeText f.table src.content := by
    rw [newLen_eq hsrc] at hfit
    have hl : (g.buf.take b.len).length = b.len := by rw [List.length_take]; omega
    rw [hbuf,overwrite,List.append_assoc,List.append_assoc,List.drop_left' hl,List.singleton_append,
      cString,cString_terminated,cString_eq (escapeText_ne_zero hnul)]
  constructor
  · intro h hroom
    obtain ⟨g,e,_,hcall,hbuf,_,hfit,_⟩ := escape_room hb hsrc hne hroom
    have hsafe := h _ e hcall
    rwa [hout hfit hbuf] at hsafe
  · intro h r e hcall
    have hroom := hasRoom_of_escape hb hsrc hne hcall
    obtain ⟨g,e',_,hcall',hbuf,_,hfit,_⟩ := escape_room hb hsrc hne hroom
    rw [hcall] at hcall'
    cases hcall'
    rw [hout hfit hbuf]
    exact h hroom

/-- The two bytes of `é`. -/
theorem appendsSafely_iff_encoded : uri.AppendsSafely true init (holding [0xC3,0xA9]) ↔
    (uri.HasRoom true init (holding [0xC3,0xA9]) →
      ¬ CarriesThrough uri.table (holding [0xC3,0xA9]).content) :=
  appendsSafely_iff init_wf (holding_wf (by decide)) (by decide) (by decide)

/-- A first byte that announces another one carries the blank behind it through. -/
theorem not_appendsSafely_blank : ¬ uri.AppendsSafely true init (holding [0xC3,0x20]) := by
  intro h
  obtain ⟨e,hcall,hout⟩ : ∃ e, init.escapeWithTable true uri.table (holding [0xC3,0x20]) = .ok (.ok,e) ∧
      cString (e.buf.drop 0) = [0xC3,0x20] := ⟨_,rfl,rfl⟩
  have hsafe := h _ e hcall
  rw [show init.len = 0 from rfl,hout] at hsafe
  have hstart := (hsafe [0xC3] 0x20 [] rfl (by decide) (by decide)).1
  exact absurd hstart (by decide)

variable (mem f b src)

/-- The block that the call reserves. -/
def reserved : Buffer :=
  (b.ensureAddlen mem (cuint (src.len+escapeCount f.table src.content*3))).2

/-- The call reads nothing behind the source's terminator; it writes as many bytes as the destination
becomes longer, and a terminator, into the block that it reserved; it leaves the content in place, and an
empty source appends nothing. -/
def KeepsBooks : Prop :=
  ∃ e, b.escapeWithTable mem f.table src = .ok (.ok,e) ∧
    b.escapeWithTable mem f.table (holding src.content) = .ok (.ok,e) ∧
    e.len = b.len+src.len+2*escapeCount f.table src.content ∧
    (∃ txt, b.len+txt.length = e.len ∧ e.len < (f.reserved mem b src).buf.length ∧
      e.buf = overwrite (f.reserved mem b src).buf b.len (txt ++ [0])) ∧
    e.content.take b.len = b.content ∧ (src.content = [] → e.content = b.content)

variable {mem f b src}

theorem reserved_eq (hb : b.Wf) (hsrc : src.Wf) :
    f.reserved mem b src = (b.ensure mem (b.escapeWant f.table src.content)).2 := by
  have hbl := hb.len_lt
  have hcast : ((src.content.length+escapeCount f.table src.content*3 : ℕ) : ℤ) =
      src.len+escapeCount f.table src.content*3 := by
    rw [content_length hsrc]
    push_cast
    rfl
  have := cuint_lt (src.len+escapeCount f.table src.content*3)
  rw [reserved,ensureAddlen_eq mem (by omega),escapeWant,hcast]

theorem ensureAddlen_len (mem : Bool) (b : Buffer) (n : ℕ) : (b.ensureAddlen mem n).2.len = b.len := by
  unfold ensureAddlen ensure
  split_ifs
  · rfl
  · rfl
  · cases reallocIf mem b.buf (sizeT (b.len+n+1)) <;> rfl

/-- The NUL of an empty source is escaped, and two of the three bytes are counted. -/
theorem escape_empty (hsrc : src.Wf) (hbuf : src.buf ≠ []) (hnil : src.content = []) {r : Ret × Buffer}
    (h : b.escapeWithTable mem f.table src = .ok r) : r.2.len = cuint (b.len+2) := by
  obtain ⟨rest,hrest⟩ := hsrc.block hbuf
  have hlen : src.len = 0 := by rw [← content_length hsrc,hnil,List.length_nil]
  rw [hnil,List.nil_append] at hrest
  have hloop {α : Type} (turn : α → List UInt8 → α) (acc : α) :
      charLoop turn (0+1) src.buf 0 acc = .ok (turn acc [0]) := by
    rw [hrest]
    rfl
  have hcount : countsEscape f.table [0] = true := f.tableFacts.nul
  have hone : cuint (((0 : ℕ) : ℤ)+1) = 1 := by decide
  simp only [escapeWithTable,if_neg hbuf,hlen,hloop,hcount,if_true,hone,ok_bind] at h
  obtain ⟨w,hw,hr⟩ := bind_ok_inv h
  rw [← Except.ok.inj hr,(write_inv hw).2]
  dsimp only
  rw [ensureAddlen_len]
  rfl

/-- The books are kept exactly when the source is not empty, there is room and the new length is a
`cuint_t`. -/
theorem keepsBooks_iff (hb : b.Wf) (hsrc : src.Wf) (hbuf : src.buf ≠ []) :
    f.KeepsBooks mem b src ↔ src.content ≠ [] ∧ f.HasRoom mem b src ∧ f.newLen b src < 2^32 := by
  have hbl := hb.len_lt
  constructor
  · rintro ⟨e,hcall,_,hlen,_,_,_⟩
    have hne : src.content ≠ [] := fun hnil => by
      have hbad := escape_empty hsrc hbuf hnil hcall
      have hzero : src.len = 0 := by rw [← content_length hsrc,hnil,List.length_nil]
      rw [hnil,hzero] at hlen
      have hcount : escapeCount f.table [] = 0 := by simp [escapeCount]
      rw [hcount] at hlen
      dsimp only at hbad
      rw [hlen] at hbad
      simp only [cuint] at hbad
      omega
    have hroom := hasRoom_of_escape hb hsrc hne hcall
    obtain ⟨g,e',_,hcall',_,hlen',_⟩ := escape_room hb hsrc hne hroom
    rw [hcall] at hcall'
    cases hcall'
    have hsame : f.newLen b src = e.len := hlen.symm
    exact ⟨hne,hroom,by rw [hsame,hlen']; exact cuint_lt _⟩
  · rintro ⟨hne,hroom,hlt⟩
    obtain ⟨g,e,hg,hcall,hblk,hlen,hfit,htake,hend⟩ := escape_room hb hsrc hne hroom
    rw [cuint_natCast hlt] at hlen
    have hcontent : e.content = b.content ++ escapeText f.table src.content := by rw [content,hlen,htake]
    have hhold : (holding src.content).Wf := by
      have := hsrc.size_eq
      have := hsrc.size_lt
      have hin := hsrc.len_lt_length (by rw [← content_length hsrc]; exact List.length_pos_iff.mpr hne)
      exact holding_wf (by rw [content_length hsrc]; omega)
    have hexact : b.escapeWithTable mem f.table (holding src.content) = _ :=
      escapeWithTable_eq hb hhold (by rwa [content_holding])
    rw [content_holding,← escapeWithTable_eq hb hsrc hne,hcall] at hexact
    refine ⟨e,hcall,hexact,hlen,⟨escapeText f.table src.content,?_,?_,?_⟩,?_,fun hnil => absurd hnil hne⟩
    · rw [hlen,newLen_eq hsrc]
    · rw [hlen,reserved_eq hb hsrc,← hg]
      exact hfit
    · rw [reserved_eq hb hsrc,← hg]
      exact hblk
    · rw [hcontent,List.take_left' (content_length hb)]

theorem keepsBooks_iff_letter : uri.KeepsBooks true init (holding [97]) ↔
    (holding [97]).content ≠ [] ∧ uri.HasRoom true init (holding [97]) ∧
      uri.newLen init (holding [97]) < 2^32 :=
  keepsBooks_iff init_wf (holding_wf (by decide)) (by decide)

/-- An empty source with a block: three bytes are written and two of them are counted. -/
theorem not_keepsBooks_empty : ¬ uri.KeepsBooks true init (holding []) := by
  rintro ⟨e,hcall,_,hlen,_⟩
  obtain ⟨e',hcall',hlen'⟩ : ∃ e', init.escapeWithTable true uri.table (holding []) = .ok (.ok,e') ∧
      e'.len = 2 := ⟨_,rfl,rfl⟩
  rw [hcall] at hcall'
  cases hcall'
  have hcount : escapeCount uri.table (holding []).content = 0 := by
    rw [content_holding]
    simp [escapeCount]
  rw [hlen',hcount] at hlen
  exact absurd hlen (by decide)

end Escaper

end Http2d
