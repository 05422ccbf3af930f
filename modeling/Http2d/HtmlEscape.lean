import Http2d.BufferFailure

/-! Whether `http2d_buffer_add_escape_html` is a map on characters.
The characters in front of the first one that `strpbrk` finds are copied as they are, and `strpbrk` does
not look for all the characters that have an entity. -/
namespace Http2d

open Buffer

/-- The entities, one character after another. -/
def htmlEscaped (s : List UInt8) : List UInt8 := s.flatMap htmlEntity

theorem htmlEscaped_append (s t : List UInt8) : htmlEscaped (s ++ t) = htmlEscaped s ++ htmlEscaped t :=
  List.flatMap_append

theorem htmlEscaped_length (s : List UInt8) : (htmlEscaped s).length = s.length+(s.map htmlExtra).sum := by
  induction s with
  | nil => rfl
  | cons c s ih =>
    rw [htmlEscaped,List.flatMap_cons,List.length_append,htmlEntity_length,← htmlEscaped,ih,List.map_cons,
      List.sum_cons,List.length_cons]
    omega

/-- A string without entities. -/
theorem htmlEscaped_eq_self_iff (s : List UInt8) :
    htmlEscaped s = s ↔ ∀ c ∈ s, htmlStarts c = false ∧ c ≠ 35 ∧ c ≠ 39 := by
  have hone (c : UInt8) : htmlExtra c = 0 ↔ htmlStarts c = false ∧ c ≠ 35 ∧ c ≠ 39 := by
    unfold htmlExtra
    simp only [htmlStarts,Bool.or_eq_false_iff,beq_eq_false_iff_ne]
    split_ifs <;> simp_all <;> tauto
  constructor
  · intro h
    have hlen := htmlEscaped_length s
    rw [h] at hlen
    have hsum : (s.map htmlExtra).sum = 0 := by omega
    intro c hc
    exact (hone c).mp (List.sum_eq_zero_iff.mp hsum _ (List.mem_map_of_mem hc))
  · intro h
    have hentity (c : UInt8) (hc : c ∈ s) : htmlEntity c = [c] := by
      have hl := htmlEntity_length c
      rw [(hone c).mpr (h c hc)] at hl
      unfold htmlEntity at hl ⊢
      split_ifs at hl ⊢ <;> simp_all
    induction s with
    | nil => rfl
    | cons c s ih =>
      obtain ⟨_,hs⟩ := List.forall_mem_cons.mp h
      rw [htmlEscaped,List.flatMap_cons,hentity c List.mem_cons_self,← htmlEscaped,
        ih hs fun d hd => hentity d (List.mem_cons_of_mem _ hd)]
      rfl

/-- Where the scan and the entities agree: nothing that has an entity is in front of the first
character that is found. -/
def ScansAll (s : List UInt8) : Prop := ∀ c ∈ s.takeWhile (!htmlStarts ·), c ≠ 35 ∧ c ≠ 39

instance (s : List UInt8) : Decidable (ScansAll s) :=
  inferInstanceAs (Decidable (∀ c ∈ s.takeWhile (!htmlStarts ·), c ≠ 35 ∧ c ≠ 39))

theorem htmlText_eq_escaped_iff (s : List UInt8) : htmlText s = htmlEscaped s ↔ ScansAll s := by
  have hsplit : htmlEscaped s =
      htmlEscaped (s.takeWhile (!htmlStarts ·)) ++ htmlEscaped (s.dropWhile (!htmlStarts ·)) := by
    rw [← htmlEscaped_append,List.takeWhile_append_dropWhile]
  rw [hsplit,htmlText,← htmlEscaped,List.append_cancel_right_eq,eq_comm,htmlEscaped_eq_self_iff]
  refine forall₂_congr fun c hc => and_iff_right ?_
  simpa using List.mem_takeWhile_imp hc

theorem htmlText_length_le_escaped (s : List UInt8) : (htmlText s).length ≤ (htmlEscaped s).length := by
  have hsplit := congrArg (fun t => (t.map htmlExtra).sum)
    (List.takeWhile_append_dropWhile (p:=(!htmlStarts ·)) (l:=s))
  simp only [List.map_append,List.sum_append] at hsplit
  rw [htmlText_length,htmlEscaped_length]
  omega

section Result
variable {mem : Bool} {b g src : Buffer} {full txt : List UInt8}

/-- The call leaves the string `full`, or there was no memory and it leaves the string of `b`. -/
def Produces (b : Buffer) (full : List UInt8) (x : Exec (Ret × Buffer)) : Prop :=
  ∃ r d, x = .ok (r,d) ∧ (d.content = full ∨ r = .nomem ∧ d.content = b.content)

theorem Produces.refused : Produces b full (.ok (.nomem,b)) := ⟨_,_,rfl,Or.inr ⟨rfl,rfl⟩⟩

/-- A text put behind the string of a block that has room for it. -/
theorem produces_append (hgl : g.len = b.len) (hcont : g.content = b.content)
    (hfit : b.len+txt.length < g.buf.length) (hfull : b.len+txt.length ≤ full.length) :
    Produces b full (granted (.ok,g) (·.append txt)) ↔
      b.content ++ txt = full ∧ b.len+txt.length < 2^32 := by
  constructor
  · rintro ⟨r,d,h,hd⟩
    obtain ⟨c,hc,h⟩ := bind_ok_inv h
    cases h
    have hd := hd.resolve_right fun h => by cases h.1
    have hsmall : b.len+txt.length < 2^32 := by
      have hlt := Atomic.append_len hc
      have hle : d.content.length ≤ d.len := List.length_take_le _ _
      rw [hd] at hle
      omega
    obtain ⟨c,hc',hf⟩ := append_filled (g:=g) txt (by omega) (by omega)
    obtain rfl : d = c := Except.ok.inj (hc.symm.trans hc')
    exact ⟨by rw [← hcont,← hf.content_eq,hd],hsmall⟩
  · rintro ⟨rfl,hsmall⟩
    obtain ⟨c,hc,hf⟩ := append_filled (g:=g) txt (by omega) (by omega)
    refine ⟨.ok,c,by simp [granted,hc],Or.inl ?_⟩
    rw [hf.content_eq,hcont]

/-- The allocator refuses the request that the call makes. -/
def HtmlRefused (mem : Bool) (b : Buffer) (s : List UInt8) : Prop :=
  mem = false ∧ if s.any htmlStarts then b.size < b.len+(htmlText s).length+2
    else s ≠ [] ∧ b.size ≤ b.len+s.length

/-- Every character is replaced by its entity. -/
def EscapesHtml (mem : Bool) (b src : Buffer) : Prop :=
  Produces b (b.content ++ htmlEscaped src.content) (b.addEscapeHtml mem src)

theorem refused_iff {n : ℕ} (h : n < 2^63) : Refused mem n ↔ mem = false :=
  or_iff_left (not_le.mpr h)

variable (mem) in
/-- The text that the call puts behind the string, when there is memory. -/
theorem addEscapeHtml_cases (hb : b.Wf) (hsrc : src.Wf) (h0 : 0 ∉ src.content) (hbuf : src.buf ≠ []) :
    HtmlRefused mem b src.content ∧ b.addEscapeHtml mem src = .ok (.nomem,b) ∨
    ¬ HtmlRefused mem b src.content ∧ (src.content = [] ∧ b.addEscapeHtml mem src = .ok (.ok,b) ∨
      ∃ g : Buffer, g.len = b.len ∧ g.content = b.content ∧
        b.len+(htmlText src.content).length < g.buf.length ∧
        b.addEscapeHtml mem src = granted (.ok,g) (·.append (htmlText src.content))) := by
  have hsz := hb.size_eq
  have hlt := hb.len_lt
  have hle := hb.len_le
  have hsl := hsrc.len_lt
  have hcl := content_length hsrc
  have htl := htmlText_length_le src.content
  by_cases hsome : src.content.any htmlStarts = true
  · rw [addEscapeHtml_entities b hsrc hbuf hlt hsome h0,HtmlRefused,if_pos hsome]
    have hone : b.len+(htmlText src.content).length+2 < 2^63 := by omega
    rcases ensure_cases mem hsz (b.len+(htmlText src.content).length+2) with
      ⟨hfit,heq⟩ | ⟨hmore,hr,heq⟩ | ⟨hmore,hr,heq⟩
    · exact Or.inr ⟨fun h => by omega,Or.inr ⟨b,rfl,rfl,by omega,by rw [heq]⟩⟩
    · exact Or.inl ⟨⟨(refused_iff hone).mp hr,hmore⟩,by rw [heq]; rfl⟩
    · refine Or.inr ⟨fun h => hr ((refused_iff hone).mpr h.1),Or.inr ⟨_,extend_len _,extend_content hle _,?_,
        by rw [heq]⟩⟩
      rw [extend_length]
      omega
  · have hplain : htmlText src.content = src.content :=
      (htmlText_eq_iff _).mpr (by simpa using hsome)
    rw [addEscapeHtml_plain b hsrc hbuf (by rw [cString_eq h0]; simpa using hsome),hplain,HtmlRefused,
      if_neg hsome,addText]
    split_ifs with hnone
    · have hnil := List.length_eq_zero_iff.mp hnone
      exact Or.inr ⟨fun h => h.2.1 hnil,Or.inl ⟨hnil,rfl⟩⟩
    have hne : src.content ≠ [] := fun h => hnone (by rw [h]; rfl)
    have hone : b.size+b.shortBy src.content.length+17 < 2^63 := by
      have := hb.size_lt
      rw [shortBy]
      split_ifs <;> omega
    rcases room_cases mem hb (by omega : src.content.length < 2^63) with
      ⟨hfit,heq⟩ | ⟨hmore,hr,heq⟩ | ⟨hmore,hr,heq⟩
    · exact Or.inr ⟨fun h => by omega,Or.inr ⟨b,rfl,rfl,by omega,by rw [heq]⟩⟩
    · exact Or.inl ⟨⟨(refused_iff hone).mp hr,hne,by omega⟩,by rw [heq]; rfl⟩
    · refine Or.inr ⟨fun h => hr ((refused_iff hone).mpr h.1),Or.inr ⟨_,extend_len _,extend_content hle _,?_,
        by rw [heq]⟩⟩
      rw [extend_length,shortBy]
      split_ifs <;> omega

/-- Every character is replaced exactly when the scan finds the first of them, and the length of the
text can be counted. -/
theorem escapesHtml_iff (hb : b.Wf) (hsrc : src.Wf) (h0 : 0 ∉ src.content) :
    EscapesHtml mem b src ↔ HtmlRefused mem b src.content ∨
      ScansAll src.content ∧ b.len+(htmlEscaped src.content).length < 2^32 := by
  have hbl := content_length hb
  have hlt := hb.len_lt
  have hnone (r : Ret) (hnil : src.content = []) (hcall : b.addEscapeHtml mem src = .ok (r,b)) :
      EscapesHtml mem b src ∧ ScansAll src.content ∧ b.len+(htmlEscaped src.content).length < 2^32 := by
    rw [EscapesHtml,hcall,hnil]
    exact ⟨⟨r,b,rfl,Or.inl (by simp [htmlEscaped])⟩,by simp [ScansAll],by simpa [htmlEscaped] using hlt⟩
  by_cases hbuf : src.buf = []
  · have hnil : src.content = [] := by rw [content,hbuf,List.take_nil]
    obtain ⟨hyes,hscan⟩ := hnone .error hnil (by rw [addEscapeHtml,if_pos hbuf])
    exact iff_of_true hyes (Or.inr hscan)
  rcases addEscapeHtml_cases mem hb hsrc h0 hbuf with ⟨hr,heq⟩ | ⟨hr,hdone⟩
  · refine iff_of_true ?_ (Or.inl hr)
    rw [EscapesHtml,heq]
    exact Produces.refused
  rw [or_iff_right hr]
  rcases hdone with ⟨hnil,heq⟩ | ⟨g,hgl,hcont,hfit,heq⟩
  · obtain ⟨hyes,hscan⟩ := hnone .ok hnil heq
    exact iff_of_true hyes hscan
  · have hle := htmlText_length_le_escaped src.content
    rw [EscapesHtml,heq,produces_append hgl hcont hfit (by rw [List.length_append,hbl]; omega),
      List.append_cancel_left_eq,htmlText_eq_escaped_iff]
    refine and_congr_right fun hscan => ?_
    rw [(htmlText_eq_escaped_iff _).mpr hscan]

theorem escapesHtml_iff_holding : EscapesHtml true (holding [97]) (holding [60,35]) ↔
    HtmlRefused true (holding [97]) (holding [60,35]).content ∨ ScansAll (holding [60,35]).content ∧
      (holding [97]).len+(htmlEscaped (holding [60,35]).content).length < 2^32 :=
  escapesHtml_iff (holding_wf (by decide)) (holding_wf (by decide)) (by simp)

/-- A `#` alone is copied as it is. -/
theorem not_escapesHtml_hash : ¬ EscapesHtml true init (holding [35]) := by
  rintro ⟨r,d,h,hd⟩
  have hcall : init.addEscapeHtml true (holding [35]) = .ok (.ok,⟨35::0::List.replicate 16 0,18,1⟩) := by
    rfl
  rw [hcall] at h
  cases h
  rcases hd with hd | ⟨hr,_⟩
  · exact absurd hd (by decide)
  · cases hr

end Result

end Http2d
