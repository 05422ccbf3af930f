import Http2d.BufferFailure

/-! `http2d_buffer_multiply`.
It reserves room for as many copies as it was asked for and then appends as many to the one that is
there already. -/
namespace Http2d

namespace Buffer

/-- No append of the loop asks for memory: the test of `http2d_buffer_add` fails in every turn. -/
def AppendsFit (n : ℕ) : ℕ → (ℕ → Bool) → Buffer → Prop
  | 0, _, _ => True
  | i+1, mem, b => sizeT (n+1) ≤ cuint ((b.size : ℤ)-b.len) ∧
      ∀ d, b.addSelf (mem 0) n = .ok d → AppendsFit n i (fun k => mem (k+1)) d.2

/-- The string is repeated `num` times, in the memory that is reserved at the start. -/
def Multiplies (mem : ℕ → Bool) (b : Buffer) (num : Int32) : Prop :=
  (∃ d, b.multiply mem num = .ok (.ok,d) ∧
    d.content = (List.replicate num.toInt.toNat b.content).flatten) ∧
  AppendsFit (sizeT (cint b.len)) num.toInt.toNat (fun k => mem (k+1))
    (b.ensure (mem 0) (cuint (b.len*num.toInt+1))).2

variable {b : Buffer} {n : ℕ}

/-- An append that needs no memory. -/
theorem addSelf_fits (hb : b.Wf) (h0 : 0 < n) (hle : n ≤ b.len) (mem : Bool)
    (hfit : sizeT ((n : ℤ)+1) ≤ cuint ((b.size : ℤ)-b.len)) :
    ∃ c, b.addSelf mem n = .ok (.ok,c) ∧ c.Wf ∧ c.len = b.len+n ∧ c.size = b.size := by
  have hsz := hb.size_eq
  have hlt := hb.size_lt
  have hbl := content_length hb
  have havail : cuint ((b.size : ℤ)-b.len) = b.size-b.len :=
    cuint_sub (by have := hb.len_le; omega) hlt
  have hlen := hb.len_lt
  have hwant : sizeT ((n : ℤ)+1) = n+1 := sizeT_succ (by omega)
  rw [havail,hwant] at hfit
  have hpeek := peek_ok b.buf 0 n (by omega)
  have htl : (Bytes.slice b.buf 0 n).length = n := Bytes.slice_length (by omega)
  obtain ⟨c,hc,hf⟩ := append_filled (g:=b) (Bytes.slice b.buf 0 n) (by omega) (by omega)
  refine ⟨c,?_,hf.wf hsz hlt,by rw [hf.len_eq,List.length_append,hbl,htl],hf.size_eq⟩
  simp only [addSelf,if_neg (by omega : ¬ n = 0),havail,hwant]
  rw [if_neg (by omega),show (0 : ℤ) = (0 : ℕ) from rfl,hpeek,ok_bind,granted,hc]
  rfl

/-- Appends that all fit leave one copy more than there are turns. -/
theorem AppendsFit.room {i : ℕ} {mem : ℕ → Bool} (hb : b.Wf) (h0 : 0 < n) (hle : n ≤ b.len)
    (h : AppendsFit n i mem b) : b.len+n*i < b.size := by
  induction i generalizing mem b with
  | zero =>
    have := hb.len_lt_length (by omega)
    have := hb.size_eq
    omega
  | succ i ih =>
    obtain ⟨hfit,hnext⟩ := h
    obtain ⟨c,hc,hwf,hcl,hcs⟩ := addSelf_fits hb h0 hle (mem 0) (by exact_mod_cast hfit)
    have := ih hwf (by omega) (hnext _ hc)
    rw [Nat.mul_succ]
    omega

/-- The string is never repeated as often as asked for in the memory that was reserved: with `num` more
copies there are `num+1`. -/
theorem not_multiplies {mem : ℕ → Bool} (hb : b.Wf) {num : Int32} (hne : 0 < b.len) (hnum : 1 ≤ num.toInt)
    (hsmall : b.len*num.toInt < 2^31) : ¬ Multiplies mem b num := by
  rintro ⟨⟨d,hd,hcont⟩,hfits⟩
  obtain ⟨k,hk⟩ : ∃ k, k = num.toInt.toNat := ⟨_,rfl⟩
  have hnk : num.toInt = k := by omega
  have hone : b.len ≤ b.len*k := Nat.le_mul_of_pos_right _ (by omega)
  have hlen : b.len*k < 2^31 := by rw [hnk] at hsmall; exact_mod_cast hsmall
  have hint : sizeT (cint b.len) = b.len := by
    rw [cint_of_lt (by omega)]
    exact sizeT_natCast (by omega)
  have hwant : cuint ((b.len : ℤ)*num.toInt+1) = b.len*k+1 := by
    rw [hnk]
    exact cuint_natCast (n:=b.len*k+1) (by omega)
  rw [multiply,hint,hwant,← hk] at hd
  rw [hint,hwant,← hk] at hfits
  have hwf := ensure_wf (mem 0) hb (hb.buf_ne_nil hne) (by omega : b.len*k+1 < 2^32)
  obtain ⟨_,hgl,hgc⟩ := ensure_block (mem 0) hb (b.len*k+1)
  have hroom := hfits.room hwf hne hgl.ge
  have hfront : (b.ensure (mem 0) (b.len*k+1)).2.content.take b.len = b.content := by
    rw [hgc,← content_length hb,List.take_length]
  obtain ⟨c,hc,hcont',_⟩ := Atomic.multiplyLoop_filled (content_length hb) hne hwf hfront hgl.ge hroom
  obtain ⟨c',hc',h⟩ := bind_ok_inv hd
  cases h
  obtain rfl : d = c := Except.ok.inj (hc'.symm.trans hc)
  -- There is the string that was there before, too.
  have hcopies := hcont'.symm.trans hcont
  rw [hgc,← hk] at hcopies
  have hlens := congrArg List.length hcopies
  rw [List.length_append,content_length hb] at hlens
  omega

theorem not_multiplies_pair : ¬ Multiplies (fun _ => true) (holding [97,98]) 3 :=
  not_multiplies (holding_wf (by decide)) (by decide) (by decide) (by decide)

/-- In a block with room for more, one copy asked for makes two. -/
theorem not_multiplies_roomy : ¬ Multiplies (fun _ => true) ⟨97::0::List.replicate 10 0,12,1⟩ 1 := by
  rintro ⟨⟨d,hd,hcont⟩,_⟩
  have hcall : multiply (fun _ => true) ⟨97::0::List.replicate 10 0,12,1⟩ 1 =
      .ok (.ok,⟨97::97::List.replicate 10 0,12,2⟩) := by rfl
  rw [hcall] at hd
  cases hd
  exact absurd hcont (by decide)

end Buffer

end Http2d
