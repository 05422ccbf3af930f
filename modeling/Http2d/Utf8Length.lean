import Http2d.UriRoundTrip

/-! The number of characters in a buffer.
A step goes from the first byte of a character to the next one, and stops in front of a NUL. -/
namespace Http2d

namespace Buffer

/-- `http2d_buffer_get_utf8_len`. -/
def getUtf8Len (b : Buffer) : Exec (Ret × ℕ) :=
  if b.buf = [] ∨ b.len = 0 then .ok (.ok,0)
  else do
    let n ← charLoop (fun n _ => cuint (n+1)) (b.len+1) b.buf b.len 0
    .ok (.ok,n)

end Buffer

/-- A step ends behind where it began and not behind the terminator. -/
theorem utf8GetNextChar_inside (s rest : List UInt8) {i : ℕ} (hi : i < s.length) :
    ∃ k, utf8GetNextChar ((s ++ 0::rest).drop i) = .ok k ∧ 1 ≤ k ∧ i+k ≤ s.length := by
  obtain ⟨c,tail,htail⟩ := List.exists_cons_of_ne_nil (List.drop_eq_nil_iff.not.mpr (not_le.mpr hi))
  have hlen := congrArg List.length htail
  rw [List.length_drop,List.length_cons] at hlen
  have hle := following_le c tail
  refine ⟨following c tail+1,?_,Nat.le_add_left 1 _,by omega⟩
  rw [List.drop_append_of_le_length hi.le,htail,List.cons_append]
  exact utf8GetNextChar_eq c tail rest

theorem utf8Chars_length_le (s : List UInt8) : (utf8Chars s).length ≤ s.length := by
  induction s using utf8Chars.induct with
  | case1 => simp
  | case2 c s ih =>
    rw [List.length_drop] at ih
    rw [utf8Chars_cons,List.length_cons,List.length_cons]
    omega

/-- The count is the number of steps over the content. -/
theorem getUtf8Len_eq {b : Buffer} (hb : b.Wf) : b.getUtf8Len = .ok (.ok,(utf8Chars b.content).length) := by
  unfold Buffer.getUtf8Len
  by_cases hempty : b.buf = [] ∨ b.len = 0
  · have hlen : b.len = 0 := hempty.elim hb.len_of_nil id
    rw [if_pos hempty,Buffer.content_nil hlen,utf8Chars_nil]
    rfl
  · obtain ⟨hbuf,hlen⟩ := not_or.mp hempty
    obtain ⟨rest,hrest⟩ := hb.block hbuf
    have hcontent := Buffer.content_length hb
    have hne : b.content ≠ [] := List.ne_nil_of_length_pos (by omega)
    have hshort := utf8Chars_length_le b.content
    have hlt := hb.len_lt
    have hcount := foldl_count (fun _ => true) (utf8Chars b.content) 0 (by rw [List.countP_true]; omega)
    have hloop := charLoop_eq (fun n _ => cuint ((n : ℕ)+1)) hne (by omega : b.content.length ≤ b.len+1) rest 0
    rw [← hrest,hcontent] at hloop
    simp only [if_true,List.countP_true,Nat.zero_add] at hcount
    rw [if_neg hempty,hloop,hcount]
    rfl

/-- Stepping makes progress inside the string, so that counting ends, with the number of characters. -/
theorem utf8_counting :
    (∀ (s rest : List UInt8) (i : ℕ), i < s.length →
      ∃ k, utf8GetNextChar ((s ++ 0::rest).drop i) = .ok k ∧ 1 ≤ k ∧ i+k ≤ s.length) ∧
    ∀ b : Buffer, b.Wf → ∃ n, b.getUtf8Len = .ok (.ok,n) ∧
      ∀ chars : List Char, b.content = chars.flatMap String.utf8EncodeChar → n = chars.length := by
  refine ⟨fun s rest i hi => utf8GetNextChar_inside s rest hi,fun b hb => ⟨_,getUtf8Len_eq hb,?_⟩⟩
  intro chars hchars
  rw [hchars,utf8Chars_encoded,List.length_map]

/-- Two characters in three bytes, and a lead byte that the terminator follows. -/
example : (Buffer.holding [0x61,0xC3,0xA9]).getUtf8Len = .ok (.ok,2) ∧
    (Buffer.holding [0x61,0xE2]).getUtf8Len = .ok (.ok,2) := by decide

end Http2d
