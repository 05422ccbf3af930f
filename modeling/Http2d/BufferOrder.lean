import Http2d.AvlBuffer
import Http2d.Buffer

/-! The comparisons of two buffers.
They compare the lengths first; with equal lengths they read that many bytes of both blocks. -/
namespace Http2d

open SearchTree

namespace Buffer

/-- `http2d_buffer_cmp_buf` and `http2d_buffer_case_cmp_buf`. -/
def cmpBufWith (compare : ℕ → List UInt8 → List UInt8 → ℤ) (A B : Buffer) : ℤ :=
  if B.len < A.len then cint (A.len-B.len)
  else if A.len < B.len then cint (cuint (-((B.len : ℤ)-A.len)))
  else compare B.len A.buf B.buf

def cmpBuf : Buffer → Buffer → ℤ := cmpBufWith strncmp

def caseCmpBuf : Buffer → Buffer → ℤ := cmpBufWith strncasecmp

/-- A buffer with a string in its block, of a length that is no negative `int`. -/
structure HasString (b : Buffer) : Prop where
  inside : b.len ≤ b.buf.length
  length_lt : b.len < 2^31
  nul : 0 ∉ b.content

end Buffer

section Compare
variable {A B : Buffer}

/-- As many bytes are compared as are asked for. -/
theorem strnCompare_take (fold : UInt8 → UInt8) (n : ℕ) (a b : List UInt8) :
    strnCompare fold n (a.take n) (b.take n) = strnCompare fold n a b := by
  induction n generalizing a b with
  | zero => rfl
  | succ n ih =>
    have hhead (s : List UInt8) : (s.take (n+1)).headD 0 = s.headD 0 := by cases s <;> rfl
    have htail (s : List UInt8) : (s.take (n+1)).tail = s.tail.take n := by cases s <;> simp
    rw [strnCompare,strnCompare,hhead,hhead,htail,htail,ih]

/-- The comparison without case is the one of the strings in lower case. -/
theorem strncasecmp_map (n : ℕ) (a b : List UInt8) :
    strncasecmp n a b = strncmp n (a.map tolower) (b.map tolower) := by
  induction n generalizing a b with
  | zero => rfl
  | succ n ih =>
    have hhead (s : List UInt8) : (s.map tolower).headD 0 = tolower (s.headD 0) := by cases s <;> rfl
    have hzero : tolower (a.headD 0) = 0 ↔ a.headD 0 = 0 := tolower_eq_iff (by decide)
    have hfold : strncasecmp (n+1) a b =
        if tolower (a.headD 0) ≠ tolower (b.headD 0) then
          ((tolower (a.headD 0)).toNat : ℤ)-(tolower (b.headD 0)).toNat
        else if a.headD 0 = 0 then 0 else strncasecmp n a.tail b.tail := rfl
    rw [hfold,strncmp_succ,hhead,hhead,ih,List.map_tail,List.map_tail]
    simp only [hzero]

theorem bufferCaseCmpBuf_map (a b : List UInt8) :
    bufferCaseCmpBuf a b = bufferCmpBuf (a.map tolower) (b.map tolower) := by
  simp only [bufferCaseCmpBuf,bufferCmpBuf,Http2d.cmpBufWith,List.length_map,strncasecmp_map]

theorem Buffer.HasString.length_content (h : A.HasString) : A.content.length = A.len := by
  rw [Buffer.content,List.length_take,Nat.min_eq_left h.inside]

/-- Only what the buffers hold is compared. -/
theorem cmpBufWith_content (fold : UInt8 → UInt8) (hA : A.HasString) (hB : B.HasString) :
    Buffer.cmpBufWith (strnCompare fold) A B = cmpBufWith (strnCompare fold) A.content B.content := by
  rw [Buffer.cmpBufWith,cmpBufWith,hA.length_content,hB.length_content]
  by_cases hlt : B.len < A.len
  · rw [if_pos hlt,if_pos hlt]
  · by_cases hlt' : A.len < B.len
    · rw [if_neg hlt,if_neg hlt,if_pos hlt',if_pos hlt']
    · have heq : A.len = B.len := by omega
      rw [if_neg hlt,if_neg hlt,if_neg hlt',if_neg hlt',← strnCompare_take fold B.len A.buf,Buffer.content,
        Buffer.content,heq]

theorem Buffer.HasString.lower (h : A.HasString) : 0 ∉ A.content.map tolower := by
  intro hin
  obtain ⟨c,hc,hzero⟩ := List.mem_map.mp hin
  exact h.nul ((tolower_eq_iff (by decide)).mp hzero ▸ hc)

end Compare

/-- The comparison is a strict total order of the contents, and the one without case is one of the contents
in lower case. -/
theorem buffer_comparisons_order :
    OrderOf Buffer.cmpBuf Buffer.content {b | b.HasString} ∧
    OrderOf Buffer.caseCmpBuf (fun b => b.content.map tolower) {b | b.HasString} := by
  refine ⟨bufferCmpBuf_strings.view (fun b (hb : b.HasString) => ⟨hb.nul,?_⟩) fun a ha b hb => cmpBufWith_content id ha hb,
    bufferCmpBuf_strings.view (fun b (hb : b.HasString) => ⟨hb.lower,?_⟩) fun a ha b hb => ?_⟩
  · rw [hb.length_content]
    exact hb.length_lt
  · rw [List.length_map,hb.length_content]
    exact hb.length_lt
  · exact (cmpBufWith_content tolower ha hb).trans (bufferCaseCmpBuf_map a.content b.content)

end Http2d
