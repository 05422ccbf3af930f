import Http2d.BufferEscape

/-! The growing operations of `http2d_buffer_t` when the allocator has no memory.
A call should do all of its work, or give `ret_nomem` and leave the string alone. Which calls do is
decided here, from the sizes before the call. -/
namespace Http2d

open Bytes Buffer

/-- The call does not fault, and it gives the string `full`, or `ret_nomem` and the string of `b`. -/
def Atomic (b : Buffer) (full : List UInt8) (x : Exec (Ret × Buffer)) : Prop :=
  ∃ r b', x = .ok (r,b') ∧
    (r = .ok ∧ b'.content = full ∧ b'.len = full.length ∨
      r = .nomem ∧ b'.content = b.content ∧ b'.len = b.len)

namespace Atomic

variable {mem : Bool} {b g b' : Buffer} {full txt : List UInt8} {use : Buffer → Exec Buffer}

theorem done (h : Filled g b' full) : Atomic b full (.ok (.ok,b')) :=
  ⟨_,_,rfl,Or.inl ⟨rfl,h.content_eq,h.len_eq⟩⟩

theorem unchanged (h : b.Wf) : Atomic b b.content (.ok (.ok,b)) :=
  ⟨_,_,rfl,Or.inl ⟨rfl,rfl,(content_length h).symm⟩⟩

theorem refused : Atomic b full (.ok (.nomem,b)) := ⟨_,_,rfl,Or.inr ⟨rfl,rfl,rfl⟩⟩

theorem not_fault {e : Halt} : ¬ Atomic b full (.error e) := by
  rintro ⟨_,_,h,_⟩
  cases h

/-- A call that returned `ret_ok`. -/
theorem ok_iff : Atomic b full (.ok (.ok,b')) ↔ b'.content = full ∧ b'.len = full.length := by
  refine ⟨?_,fun h => ⟨_,_,rfl,Or.inl ⟨rfl,h⟩⟩⟩
  rintro ⟨r,c,h,hc⟩
  cases h
  rcases hc with ⟨_,hdone⟩ | ⟨hr,_⟩
  · exact hdone
  · cases hr

/-- A call whose last step gives `ret_ok`. -/
theorem bind_iff {x : Exec Buffer} : Atomic b full (x >>= fun c => .ok (.ok,c)) ↔
    ∃ b', x = .ok b' ∧ b'.content = full ∧ b'.len = full.length := by
  cases x with
  | error e => exact ⟨fun h => absurd h not_fault,by rintro ⟨_,h,_⟩; cases h⟩
  | ok c =>
    rw [ok_bind,ok_iff]
    exact ⟨fun h => ⟨c,rfl,h⟩,by rintro ⟨_,h,hc⟩; cases h; exact hc⟩

/-- A call that has its memory. -/
theorem granted_iff : Atomic b full (granted (.ok,g) use) ↔
    ∃ b', use g = .ok b' ∧ b'.content = full ∧ b'.len = full.length := bind_iff

/-- The operations that take their memory from `room`. -/
theorem room_iff (hb : b.Wf) {n : ℕ} (hn : n < 2^63) (hfull : full.length = b.len+n)
    (hok : ∀ g : Buffer, g.len = b.len → g.content = b.content → b.len+n < g.buf.length →
      b.len+n < 2^32 → ∃ b', use g = .ok b' ∧ Filled g b' full)
    (hlen : ∀ g b', use g = .ok b' → b'.len < 2^32) :
    Atomic b full (granted (b.room mem n) use) ↔
      b.len+n < 2^32 ∨ Refused mem (b.size+b.shortBy n+17) := by
  have hsz := hb.size_eq
  have hslt := hb.size_lt
  have hle := hb.len_le
  have hfits {g : Buffer} (hgl : g.len = b.len) (hcont : g.content = b.content)
      (hfit : b.len+n < g.buf.length) :
      Atomic b full (granted (.ok,g) use) ↔ b.len+n < 2^32 := by
    rw [granted_iff]
    constructor
    · rintro ⟨b',huse,_,hbl⟩
      rw [← hfull,← hbl]
      exact hlen g b' huse
    · intro hsmall
      obtain ⟨b',huse,hf⟩ := hok g hgl hcont hfit hsmall
      exact ⟨b',huse,hf.content_eq,hf.len_eq⟩
  rcases room_cases mem hb hn with ⟨hfit,heq⟩ | ⟨_,hr,heq⟩ | ⟨hge,hr,heq⟩
  · rw [heq,hfits rfl rfl (by omega)]
    exact ⟨Or.inl,fun _ => by omega⟩
  · rw [heq]
    exact ⟨fun _ => Or.inr hr,fun _ => refused⟩
  · have hroom : b.len+n < (b.extend (b.shortBy n+17)).buf.length := by
      rw [extend_length,shortBy]
      split_ifs <;> omega
    rw [heq,hfits (extend_len _) (extend_content hle _) hroom]
    exact ⟨Or.inl,fun h => h.resolve_right hr⟩

theorem append_len (h : g.append txt = .ok b') : b'.len < 2^32 := by
  obtain ⟨w,_,hset⟩ := bind_ok_inv h
  rw [setLen_len hset]
  exact cuint_lt _

/-- A text behind the string of the block that was granted. -/
theorem append_iff (hwf : b.Wf) (hgl : g.len = b.len) (hcont : g.content = b.content)
    (hfit : b.len+txt.length < g.buf.length) :
    Atomic b (b.content ++ txt) (granted (.ok,g) (·.append txt)) ↔ b.len+txt.length < 2^32 := by
  have hbl := content_length hwf
  rw [granted_iff]
  constructor
  · rintro ⟨c,hc,_,hlen⟩
    rw [List.length_append,hbl] at hlen
    rw [← hlen]
    exact append_len hc
  · intro hsmall
    obtain ⟨c,hc,hf⟩ := append_filled (g:=g) txt (by omega) (by omega)
    rw [hcont] at hf
    exact ⟨c,hc,hf.content_eq,hf.len_eq⟩

theorem addText (hb : b.Wf) (htxt : txt.length < 2^63) :
    Atomic b (b.content ++ txt) (b.addText mem txt) ↔
      b.len+txt.length < 2^32 ∨ Refused mem (b.size+b.shortBy txt.length+17) := by
  have hbl := content_length hb
  unfold Buffer.addText
  split_ifs with h0
  · have hnil : txt = [] := List.length_eq_zero_iff.mp h0
    have := hb.len_lt
    exact ⟨fun _ => Or.inl (by omega),fun _ => by simpa [hnil] using unchanged hb⟩
  · refine room_iff hb htxt (by rw [List.length_append,hbl]) (fun g hgl hcont hfit hsmall => ?_)
      fun _ _ => append_len
    obtain ⟨c,hc,hf⟩ := append_filled (g:=g) txt (by omega) (by omega)
    exact ⟨c,hc,hcont ▸ hf⟩

theorem addChar (hb : b.Wf) (c : UInt8) : Atomic b (b.content ++ [c]) (b.addChar mem c) := by
  have hsz := hb.size_eq
  have hlt := hb.size_lt
  have hle := hb.len_le
  have hshape : b.len+1 ≤ b.size ∨ b.len = 0 := by
    rcases hb.shape with ⟨_,h0⟩ | ⟨hin,_⟩
    · exact Or.inr h0
    · exact Or.inl (by omega)
  have hnew : cuint ((b.len : ℤ)+1) = b.len+1 := cuint_succ (by omega)
  unfold Buffer.addChar
  rw [hnew]
  split_ifs with hfast
  · exact (append_iff hb rfl rfl (by simp; omega)).mpr (by simp; omega)
  · rcases reallocInc_cases mem hsz (by omega : b.size+1+17 < 2^64) with ⟨_,heq⟩ | ⟨_,heq⟩
    · rw [heq]
      exact refused
    · rw [heq]
      exact (append_iff (g:=b.extend _) hb rfl (extend_content hle _)
        (by simp; omega)).mpr (by simp; omega)

/-- The free space that `http2d_buffer_add_char_n` reckons with. -/
def freeSpace (b : Buffer) : ℤ := cint (b.size-b.len)

theorem addCharN (hb : b.Wf) (c : UInt8) (num : Int32) :
    Atomic b (b.content ++ List.replicate num.toInt.toNat c) (b.addCharN mem c num) ↔
      (0 < num.toInt → num.toInt+1 < 2^31 ∧ (freeSpace b < num.toInt+1 →
        num.toInt-freeSpace b < 2^31 ∧
          (b.len+num.toInt < 2^32 ∨ Refused mem (b.size+(num.toInt-freeSpace b).toNat+17)))) := by
  have hsz := hb.size_eq
  have hslt := hb.size_lt
  have hle := hb.len_le
  have hfr : cint (cuint ((b.size : ℤ)-b.len)) = freeSpace b := by
    rw [cuint_sub (by omega) hslt,freeSpace]
  have hfree : freeSpace b = (b.size-b.len : ℕ) ∧ b.size-b.len < 2^31 ∨
      freeSpace b = (b.size-b.len : ℕ)-2^32 ∧ 2^31 ≤ b.size-b.len := by
    have hm : (b.size-b.len) % 2^32 = b.size-b.len := Nat.mod_eq_of_lt (by omega)
    rw [freeSpace,cint,hm]
    split_ifs with h
    · exact Or.inl ⟨rfl,h⟩
    · exact Or.inr ⟨rfl,by omega⟩
  have hnum := num.toInt_lt
  unfold Buffer.addCharN
  simp only [hfr]
  split_ifs with hpos
  · have h0 : num.toInt.toNat = 0 := by omega
    exact ⟨fun _ h => absurd h (not_lt.mpr hpos),fun _ => by simpa [h0] using unchanged hb⟩
  obtain ⟨n,hn⟩ : ∃ n : ℕ, num.toInt = n := ⟨num.toInt.toNat,by omega⟩
  simp only [hn,Int.toNat_natCast] at hnum hpos ⊢
  by_cases hmax : (n : ℤ)+1 < 2^31
  swap
  · rw [intValue_fault (not_lt.mp hmax),error_bind]
    exact ⟨fun h => absurd h not_fault,fun h => absurd (h (by omega)).1 hmax⟩
  rw [intValue_ok (by omega) hmax,ok_bind]
  split_ifs with hshort
  swap
  · have hin : n < b.size-b.len := by omega
    refine ⟨fun _ _ => ⟨hmax,fun h => absurd h hshort⟩,fun _ => ?_⟩
    exact (append_iff hb rfl rfl (by simp; omega)).mpr (by simp; omega)
  by_cases hdiff : (n : ℤ)-freeSpace b < 2^31
  swap
  · rw [intValue_fault (not_lt.mp hdiff),error_bind]
    exact ⟨fun h => absurd h not_fault,fun h => absurd ((h (by omega)).2 hshort).1 hdiff⟩
  rw [intValue_ok (by omega) hdiff,ok_bind]
  have hinc : sizeT ((n : ℤ)-freeSpace b) = ((n : ℤ)-freeSpace b).toNat := by
    simp only [sizeT]; omega
  rw [hinc]
  have hiff : (0 < (n : ℤ) → (n : ℤ)+1 < 2^31 ∧ (freeSpace b < (n : ℤ)+1 → (n : ℤ)-freeSpace b < 2^31 ∧
      ((b.len : ℤ)+n < 2^32 ∨ Refused mem (b.size+((n : ℤ)-freeSpace b).toNat+17)))) ↔
      b.len+n < 2^32 ∨ Refused mem (b.size+((n : ℤ)-freeSpace b).toNat+17) := by
    refine ⟨fun h => ((h (by omega)).2 hshort).2.imp_left (by omega),
      fun h _ => ⟨hmax,fun _ => ⟨hdiff,h.imp_left (by omega)⟩⟩⟩
  rw [hiff]
  rcases reallocInc_cases mem hsz
    (by omega : b.size+((n : ℤ)-freeSpace b).toNat+17 < 2^64) with ⟨hr,heq⟩ | ⟨hr,heq⟩
  · rw [heq]
    exact ⟨fun _ => Or.inr hr,fun _ => refused⟩
  · rw [heq,append_iff (g:=b.extend _) hb rfl (extend_content hle _)
      (by simp only [List.length_replicate,extend_length]; omega),List.length_replicate]
    exact ⟨Or.inl,fun h => h.resolve_right hr⟩

theorem prependText (hb : b.Wf) (htxt : txt.length < 2^63) :
    Atomic b (txt ++ b.content) (b.prependText mem txt) ↔
      b.len+txt.length < 2^32 ∨ Refused mem (b.size+b.shortBy txt.length+17) := by
  have hbl := content_length hb
  refine room_iff hb htxt (by rw [List.length_append,hbl,Nat.add_comm])
    (fun g hgl hcont hfit hsmall => ?_) fun g b' h => ?_
  · obtain ⟨c,hc,hf⟩ := prepend_filled (g:=g) txt (by omega) (by omega)
    exact ⟨c,hc,hcont ▸ hf⟩
  · obtain ⟨_,_,h⟩ := bind_ok_inv h
    obtain ⟨_,_,h⟩ := bind_ok_inv h
    rw [setLen_len h]
    exact cuint_lt _

theorem insert (hb : b.Wf) (htxt : txt.length < 2^63) {pos : ℕ} (hpos : pos < 2^64) :
    Atomic b (b.content.take pos ++ txt ++ b.content.drop pos) (b.insert mem txt pos) ↔
      pos ≤ b.len ∧ b.len+txt.length < 2^32 ∧
        b.len+txt.length < ensuredSize mem b (b.len+txt.length+1) := by
  have hbl := content_length hb
  have hlt := hb.len_lt
  have hwant : sizeT ((b.len : ℤ)+txt.length+1) = b.len+txt.length+1 := sizeT_add_succ (by omega)
  obtain ⟨hgb,hgl,hcont⟩ := ensure_block mem hb (b.len+txt.length+1)
  have hmax : ensuredSize mem b (b.len+txt.length+1) < 2^64 :=
    ensuredSize_lt (hb.size_lt.trans (by decide)) (by omega)
  have hfull : (b.content.take pos ++ txt ++ b.content.drop pos).length = b.len+txt.length := by
    simp only [List.length_append,List.length_take,List.length_drop,hbl]
    omega
  rw [insert_eq,hwant,bind_iff,hfull]
  constructor
  · rintro ⟨c,hc,_,hcl⟩
    obtain ⟨tail,hpeek,hc⟩ := bind_ok_inv hc
    obtain ⟨w,hw,hc⟩ := bind_ok_inv hc
    obtain ⟨v,hv,hset⟩ := bind_ok_inv hc
    obtain ⟨_,hin,_⟩ := peek_inv hpeek
    have hvb : v.buf.length = ensuredSize mem b (b.len+txt.length+1) ∧ v.len = b.len := by
      obtain ⟨hfit,rfl⟩ := write_inv hw
      obtain ⟨hfit',rfl⟩ := write_inv hv
      exact ⟨by rw [overwrite_length hfit',overwrite_length hfit,hgb],hgl⟩
    obtain ⟨hlast,rfl⟩ := setLen_inv hset
    rw [hvb.2] at hcl hlast
    simp only [sizeT,hgl,hgb] at hin hcl
    have hsmall : b.len+txt.length < 2^32 := hcl ▸ cuint_lt _
    exact ⟨by omega,hsmall,by omega⟩
  · rintro ⟨hle,hsmall,hfit⟩
    obtain ⟨c,hc,hf⟩ := insert_filled (g:=(b.ensure mem (b.len+txt.length+1)).2) txt pos
      (by omega) (by omega) (by omega)
    rw [hcont] at hf
    exact ⟨c,hc,hf.content_eq,hf.len_eq.trans hfull⟩

theorem encodeHex {src : Buffer} (hb : b.Wf) (hsrc : src.Wf) :
    Atomic b (hexText src.content) (src.encodeHex mem b) ↔
      2*src.len < ensuredSize mem b (cuint (src.len*2+1)) := by
  constructor
  · rintro ⟨r,c,hc,_⟩
    exact encodeHex_fits hb hsrc hc
  · intro hfit
    obtain ⟨g,c,hc,hf⟩ := encodeHex_filled hb hsrc hfit
    rw [hc]
    exact done hf

section Multiply

theorem reallocInc_refused {inc : ℕ} {r : Ret} {c : Buffer} (h : b.reallocInc mem inc = (r,c))
    (hr : r ≠ .ok) : c = b := by
  simp only [reallocInc] at h
  split at h
  · exact (congrArg Prod.snd h).symm
  · exact absurd (congrArg Prod.fst h).symm hr

/-- `http2d_buffer_add` of own bytes goes through in the block as it is, or it is refused. -/
theorem addSelf_inv {n : ℕ} {r : Ret × Buffer} (h : b.addSelf mem n = .ok r) :
    r.2.buf.length = b.buf.length ∧ (r.2 = b ∨ r.2.len < b.buf.length) := by
  simp only [addSelf] at h
  split_ifs at h with h0 hshort
  · cases h
    exact ⟨rfl,Or.inl rfl⟩
  · cases hr : b.reallocInc mem (sizeT (n-cint (cuint ((b.size : ℤ)-b.len)))) with
    | mk s c =>
      rw [hr] at h
      have hc := reallocInc_refused hr
      cases s <;> cases h
      all_goals exact ⟨by rw [hc (by decide)],Or.inl (hc (by decide))⟩
  · obtain ⟨txt,_,h⟩ := bind_ok_inv h
    obtain ⟨c,hc,h⟩ := bind_ok_inv h
    cases h
    obtain ⟨w,hw,hset⟩ := bind_ok_inv hc
    obtain ⟨hfit,rfl⟩ := write_inv hw
    obtain ⟨hlast,hcb⟩ := setLen_inv hset
    simp only [overwrite_length hfit] at hlast
    exact ⟨by simp only [hcb,List.length_set,overwrite_length hfit],Or.inr (setLen_len hset ▸ hlast)⟩

theorem multiplyLoop_inv {n i : ℕ} {mems : ℕ → Bool} (h : multiplyLoop n i mems b = .ok b') :
    b' = b ∨ b'.len < b.buf.length := by
  induction i generalizing mems b with
  | zero => exact Or.inl (Except.ok.inj h).symm
  | succ i ih =>
    obtain ⟨r,hr,h⟩ := bind_ok_inv h
    obtain ⟨hlen,hcase⟩ := addSelf_inv hr
    rcases ih h with heq | hlt
    · exact heq ▸ hcase
    · exact Or.inr (hlen ▸ hlt)

/-- The loop while the copies fit in the block. -/
theorem multiplyLoop_filled {n i : ℕ} {mems : ℕ → Bool} {txt : List UInt8} (hn : txt.length = n)
    (h0 : 0 < n) (hb : b.Wf) (hfront : b.content.take n = txt) (hle : n ≤ b.len)
    (hfit : b.len+n*i < b.size) :
    ∃ c, multiplyLoop n i mems b = .ok c ∧ c.content = b.content ++ (List.replicate i txt).flatten ∧
      c.len = b.len+n*i := by
  induction i generalizing mems b with
  | zero => exact ⟨b,rfl,by simp,rfl⟩
  | succ i ih =>
    have hsz := hb.size_eq
    have hlt := hb.size_lt
    have hmul : n*(i+1) = n*i+n := Nat.mul_succ n i
    have hbl := content_length hb
    have havail : cuint ((b.size : ℤ)-b.len) = b.size-b.len := cuint_sub (by omega) hlt
    have hwant : sizeT ((n : ℤ)+1) = n+1 := sizeT_succ (by omega)
    have hpeek : peek b.buf 0 n = .ok txt := by
      have hcut : b.buf.take n = txt := by
        rw [← hfront,content,List.take_take,min_eq_left hle]
      have := peek_ok b.buf 0 n (by omega)
      rwa [slice,List.drop_zero,hcut] at this
    obtain ⟨c,hc,hf⟩ := append_filled (g:=b) txt (by omega) (by omega)
    have hcl : c.len = b.len+n := by rw [hf.len_eq,List.length_append,hbl,hn]
    have hcs := hf.size_eq
    have hself : b.addSelf (mems 0) n = .ok (.ok,c) := by
      simp only [addSelf,if_neg (by omega : ¬ n = 0),havail,hwant,hpeek,ok_bind,granted,hc]
      rw [if_neg (by omega)]
    obtain ⟨d,hd,hcont,hdl⟩ := ih (hf.wf hsz hlt)
      (by rw [hf.content_eq,List.take_append_of_le_length (by omega),hfront]) (by omega) (by omega)
    refine ⟨d,by rw [multiplyLoop,hself,ok_bind]; exact hd,?_,by omega⟩
    rw [hcont,hf.content_eq,List.append_assoc,List.replicate_succ,List.flatten_cons]

theorem multiplyLoop_zero (i : ℕ) (mems : ℕ → Bool) : multiplyLoop 0 i mems b = .ok b := by
  induction i generalizing mems with
  | zero => rfl
  | succ i ih => exact ih _

theorem multiply {mems : ℕ → Bool} (hb : b.Wf) (num : Int32) :
    Atomic b (b.content ++ (List.replicate num.toInt.toNat b.content).flatten) (b.multiply mems num) ↔
      (0 < num.toInt → 0 < b.len → b.len*(num.toInt.toNat+1) < b.size) := by
  have hsz := hb.size_eq
  have hlt := hb.size_lt
  have hbl := content_length hb
  obtain ⟨want,hwant⟩ : ∃ w, w = cuint (b.len*num.toInt+1) := ⟨_,rfl⟩
  obtain ⟨hgb,hgl,hcont⟩ := ensure_block (mems 0) hb want
  obtain ⟨k,hk⟩ : ∃ k, k = num.toInt.toNat := ⟨_,rfl⟩
  have hfull : (b.content ++ (List.replicate k b.content).flatten).length = b.len*(k+1) := by
    simp only [List.length_append,List.length_flatten,List.map_replicate,List.sum_replicate,hbl,
      smul_eq_mul]
    ring
  rw [← hk,Buffer.multiply,← hwant,← hk,bind_iff,hfull]
  constructor
  · rintro ⟨c,hc,_,hcl⟩ hpos h0
    have hgrow : b.len < b.len*(k+1) := by
      have := Nat.mul_lt_mul_of_pos_left (by omega : 1 < k+1) h0
      omega
    rcases multiplyLoop_inv hc with heq | hin
    · rw [heq,hgl] at hcl
      omega
    · rw [hgb,hcl,ensuredSize] at hin
      split_ifs at hin with hkeep
      · exact hin
      · have hsmall : want ≤ b.len*k+1 := by
          have hnum : num.toInt = k := by omega
          rw [hwant,hnum]
          have hcast : (b.len : ℤ)*k+1 = (b.len*k+1 : ℕ) := by push_cast; rfl
          rw [hcast]
          simp only [cuint]
          omega
        have hmul : b.len*(k+1) = b.len*k+b.len := Nat.mul_succ _ _
        omega
  · intro hsafe
    by_cases hnone : k = 0
    · exact ⟨_,by rw [hnone]; rfl,by rw [hcont,hnone]; simp,by rw [hgl,hnone]; simp⟩
    by_cases h0 : b.len = 0
    · have hz : sizeT (cint b.len) = 0 := by rw [h0]; rfl
      rw [hz]
      exact ⟨_,multiplyLoop_zero _ _,by rw [hcont,content_nil h0]; simp,by rw [hgl,h0]; simp⟩
    have hroom := hsafe (by omega) (by omega)
    have hmul : b.len*(k+1) = b.len*k+b.len := Nat.mul_succ _ _
    have hone : b.len ≤ b.len*k := Nat.le_mul_of_pos_right _ (by omega)
    have hint : sizeT (cint b.len) = b.len := by
      rw [cint_of_lt (by omega)]
      exact sizeT_natCast (by omega)
    have hw : want = b.len*k+1 := by
      have hnum : num.toInt = k := by omega
      rw [hwant,hnum]
      exact cuint_natCast (n:=b.len*k+1) (by omega)
    have hkeep : (b.ensure (mems 0) want).2 = b := by
      rw [Buffer.ensure,if_pos (by omega)]
    rw [hint,hkeep]
    obtain ⟨c,hc,hcc,hcl⟩ := multiplyLoop_filled hbl
      (by omega) hb (by rw [← hbl,List.take_length]) le_rfl (by omega : b.len+b.len*k < b.size)
    exact ⟨c,hc,hcc,by omega⟩

end Multiply

/-- `escape_with_table`, for a table that has the NUL among the escaped characters. -/
theorem escapeWithTable {src : Buffer} {table : List ℕ} (hb : b.Wf) (hsrc : src.Wf)
    (hnul : isCharEscaped table 0 = true) :
    Atomic b (b.content ++ escapeText table src.content) (b.escapeWithTable mem table src) ↔
      src.content ≠ [] ∧ b.len+(escapeText table src.content).length < 2^32 ∧
        b.len+(escapeText table src.content).length <
          ensuredSize mem b (b.escapeWant table src.content) := by
  have hbl := content_length hb
  by_cases hbuf : src.buf = []
  · rw [Buffer.escapeWithTable,if_pos hbuf]
    refine ⟨?_,fun h => absurd (by rw [content,hbuf,List.take_nil]) h.1⟩
    rintro ⟨r,c,h,hc⟩
    cases h
    rcases hc with ⟨hr,_⟩ | ⟨hr,_⟩ <;> cases hr
  by_cases hne : src.content = []
  · refine ⟨?_,fun h => absurd hne h.1⟩
    obtain ⟨rest,hrest⟩ := hsrc.block hbuf
    rw [hne,List.nil_append] at hrest
    have h0 : src.len = 0 := by rw [← content_length hsrc,hne]; rfl
    have hloop {α : Type} (turn : α → List UInt8 → α) (acc : α) :
        charLoop turn (0+1) src.buf 0 acc = .ok (turn acc [0]) := by
      rw [hrest]
      rfl
    -- A NUL is counted and written although the string is empty.
    rintro ⟨r,c,h,hc⟩
    simp only [Buffer.escapeWithTable,if_neg hbuf,hloop,countsEscape,hnul,if_true,ok_bind,h0] at h
    obtain ⟨hgb,hgl,_⟩ := ensure_block mem hb 0
    obtain ⟨w,hw,h⟩ := bind_ok_inv h
    cases h
    have hwl : w.len = b.len := by
      rw [(write_inv hw).2]
      have hsame (n : ℕ) : (b.ensure mem n).2.len = b.len := (ensure_block mem hb n).2.1
      simp only [ensureAddlen]
      split_ifs
      · rfl
      · exact hsame _
    have hlt := hb.len_lt
    have hlast : cuint ((w.len : ℤ)+(0+(cuint ((0 : ℕ)+1) : ℕ)*2)) ≠ b.len := by
      rw [hwl]
      simp only [cuint]
      omega
    rcases hc with ⟨_,_,hcl⟩ | ⟨hr,_⟩
    · rw [hne,escapeText,utf8Chars_nil,List.flatMap_nil,List.append_nil,hbl] at hcl
      exact absurd hcl hlast
    · cases hr
  · obtain ⟨hgb,hgl,hcont⟩ := ensure_block mem hb (b.escapeWant table src.content)
    rw [escapeWithTable_eq hb hsrc hne]
    constructor
    · rintro ⟨r,c,h,hc⟩
      obtain ⟨w,hw,h⟩ := bind_ok_inv h
      cases h
      obtain ⟨hfit,rfl⟩ := write_inv hw
      simp only [List.length_append,List.length_singleton,hgl,hgb] at hfit
      rcases hc with ⟨_,_,hcl⟩ | ⟨hr,_⟩
      · rw [List.length_append,hbl] at hcl
        simp only at hcl
        exact ⟨hne,hcl ▸ cuint_lt _,by omega⟩
      · cases hr
    · rintro ⟨_,hsmall,hfit⟩
      obtain ⟨hw,hf⟩ := terminated_filled (g:=(b.ensure mem (b.escapeWant table src.content)).2)
        (escapeText table src.content) (by omega)
      rw [hw,ok_bind]
      simp only
      rw [cuint_natCast (by rw [hgl]; exact hsmall)]
      rw [hcont] at hf
      exact done hf

section Html

/-- With memory `http2d_buffer_add` does its work. -/
theorem addText_done (hb : b.Wf) (hlen : b.len+txt.length < 2^32)
    (hmem : txt = [] ∨ b.len+txt.length < b.size ∨ mem = true) :
    ∃ c, b.addText mem txt = .ok (.ok,c) ∧ c.content = b.content ++ txt ∧
      c.len = b.len+txt.length := by
  have hbl := content_length hb
  have hsz := hb.size_eq
  have hle := hb.len_le
  have hslt := hb.size_lt
  have hdone {g : Buffer} (hgl : g.len = b.len) (hcont : g.content = b.content)
      (hfit : b.len+txt.length < g.buf.length) : ∃ c, granted (.ok,g) (·.append txt) = .ok (.ok,c) ∧
        c.content = b.content ++ txt ∧ c.len = b.len+txt.length := by
    obtain ⟨c,hc,hf⟩ := append_filled (g:=g) txt (by omega) (by omega)
    rw [hcont] at hf
    exact ⟨c,by simp [granted,hc],hf.content_eq,by rw [hf.len_eq,List.length_append,hbl]⟩
  unfold Buffer.addText
  split_ifs with h0
  · have hnil : txt = [] := List.length_eq_zero_iff.mp h0
    exact ⟨b,rfl,by rw [hnil,List.append_nil],by omega⟩
  rcases room_cases mem hb (by omega : txt.length < 2^63) with ⟨hfit,heq⟩ | ⟨hge,hr,_⟩ | ⟨_,_,heq⟩
  · rw [heq]
    exact hdone rfl rfl (by omega)
  · rcases hmem with hnil | hroom | hmem
    · exact absurd (List.length_eq_zero_iff.mpr hnil) h0
    · omega
    · rcases hr with hno | hlarge
      · rw [hmem] at hno
        cases hno
      · unfold shortBy at hlarge
        split_ifs at hlarge <;> omega
  · rw [heq]
    refine hdone rfl (extend_content hle _) ?_
    rw [extend_length,shortBy]
    split_ifs <;> omega

theorem addText_refused (hb : b.Wf) (hsmall : txt.length < 2^63) (hne : txt ≠ [])
    (hfull : b.size ≤ b.len+txt.length) : b.addText false txt = .ok (.nomem,b) := by
  have hle := hb.len_le
  have hsz := hb.size_eq
  rw [Buffer.addText,if_neg (fun h => hne (List.length_eq_zero_iff.mp h))]
  rcases room_cases false hb hsmall with ⟨hfit,_⟩ | ⟨_,_,heq⟩ | ⟨_,hr,_⟩
  · omega
  · rw [heq]
    rfl
  · exact absurd (Or.inl rfl) hr

/-- The condition on `http2d_buffer_escape_html`. It empties the buffer before it asks for memory. -/
def HtmlSafe (mem : Bool) (b src : Buffer) : Prop :=
  src.buf ≠ [] ∧
    if (cString src.content).any htmlStarts then
      0 ∉ src.content ∧
        if (htmlText src.content).length+1 < b.size ∨ mem = true then (htmlText src.content).length < 2^32
        else b.len = 0
    else if src.content = [] ∨ src.len < b.size ∨ mem = true then src.content.any htmlStarts = false
    else b.len = 0

/-- The string of `b` is lost when nothing is put in its place. -/
theorem cleaned_iff : Atomic b full (.ok (.nomem,b.clean)) ↔ b.len = 0 := by
  constructor
  · rintro ⟨r,c,h,hc⟩
    cases h
    rcases hc with ⟨hr,_⟩ | ⟨_,_,hl⟩
    · cases hr
    · exact hl.symm
  · intro h0
    exact ⟨_,_,rfl,Or.inr ⟨rfl,by rw [clean_content,content_nil h0],by rw [clean_len,h0]⟩⟩

/-- Text put into a cleaned block that has room for it. -/
theorem replaced_iff (hgl : g.len = 0) (hgc : g.content = []) (hfit : txt.length < g.buf.length) :
    Atomic b txt (granted (.ok,g) (·.append txt)) ↔ txt.length < 2^32 := by
  rw [granted_iff]
  constructor
  · rintro ⟨c,hc,_,hl⟩
    rw [← hl]
    exact append_len hc
  · intro hsmall
    obtain ⟨c,hc,hf⟩ := append_filled (g:=g) txt (by omega) (by omega)
    rw [hgc,List.nil_append] at hf
    exact ⟨c,hc,hf.content_eq,hf.len_eq⟩

/-- The entities after the buffer was emptied. -/
theorem entities_iff (hb : b.Wf) (hsmall : txt.length+2 < 2^63) :
    Atomic b txt (granted (b.clean.ensure mem (txt.length+2)) (·.append txt)) ↔
      if txt.length+1 < b.size ∨ mem = true then txt.length < 2^32 else b.len = 0 := by
  have hsz := (clean_wf hb).size_eq
  have hcs : b.clean.size = b.size := rfl
  rcases ensure_cases mem hsz (txt.length+2) with ⟨hfit,heq⟩ | ⟨hlt,hr,heq⟩ | ⟨hlt,hr,heq⟩
  · rw [heq,if_pos (Or.inl (by omega)),replaced_iff (clean_len b) (clean_content b) (by omega)]
  · have hmem : mem = false := hr.resolve_right (not_le.mpr hsmall)
    rw [heq,if_neg (by rw [hmem]; simp; omega)]
    exact cleaned_iff
  · have hmem : mem = true := by
      have := (not_or.mp hr).1
      simpa using this
    rw [heq,if_pos (Or.inr hmem),replaced_iff (by rw [extend_len,clean_len])
      ((extend_content (Nat.zero_le _) _).trans (clean_content b)) (by rw [extend_length]; omega)]

theorem escapeHtml {src : Buffer} (hb : b.Wf) (hsrc : src.Wf) :
    Atomic b (htmlText src.content) (b.escapeHtml mem src) ↔ HtmlSafe mem b src := by
  have hc := clean_wf hb
  have hsl := hsrc.len_lt
  have hcl := content_length hsrc
  have hle := htmlText_length_le src.content
  have herror {c : Buffer} : ¬ Atomic b (htmlText src.content) (.ok (.error,c)) := by
    rintro ⟨r,d,h,hd⟩
    cases h
    rcases hd with ⟨hr,_⟩ | ⟨hr,_⟩ <;> cases hr
  unfold Buffer.escapeHtml HtmlSafe
  by_cases hbuf : src.buf = []
  · rw [addEscapeHtml,if_pos hbuf]
    exact ⟨fun h => absurd h herror,fun h => absurd hbuf h.1⟩
  refine Iff.trans ?_ (and_iff_right hbuf).symm
  by_cases hsome : (cString src.content).any htmlStarts = true
  · rw [if_pos hsome]
    by_cases h0 : 0 ∈ src.content
    · rw [addEscapeHtml_nul b.clean hsrc hbuf hsome h0]
      exact ⟨fun h => absurd h herror,fun h => absurd h0 h.1⟩
    have hany : src.content.any htmlStarts = true := cString_eq h0 ▸ hsome
    rw [addEscapeHtml_entities b.clean hsrc hbuf (by rw [clean_len]; decide) hany h0,clean_len,
      Nat.zero_add,entities_iff hb (by omega)]
    exact (and_iff_right h0).symm
  · rw [if_neg hsome,addEscapeHtml_plain b.clean hsrc hbuf (by simpa using hsome)]
    split_ifs with hmem
    · have hroom : b.clean.len+src.content.length < 2^32 := by rw [clean_len]; omega
      obtain ⟨c,heq,hcont,hlen⟩ := addText_done hc hroom
        (by rw [clean_len,hcl,Nat.zero_add]; exact hmem)
      rw [clean_content,List.nil_append] at hcont
      rw [heq,ok_iff,hcont,← htmlText_eq_iff]
      refine ⟨fun h => h.1.symm,fun h => ⟨h.symm,?_⟩⟩
      rw [hlen,clean_len,Nat.zero_add,h]
    · obtain ⟨hne,hrest⟩ := not_or.mp hmem
      obtain ⟨hfull,hno⟩ := not_or.mp hrest
      have hmem : mem = false := by simpa using hno
      rw [hmem,addText_refused hc (by omega) hne (by
        rw [clean_len,hcl,Nat.zero_add]
        exact not_lt.mp hfull)]
      exact cleaned_iff

end Html

end Atomic

/-- The growing operations and their arguments. -/
inductive GrowOp
  | add (txt : List UInt8)
  | addChar (c : UInt8)
  | addCharN (c : UInt8) (num : Int32)
  | prepend (txt : List UInt8)
  | insert (txt : List UInt8) (pos : ℕ)
  | multiply (num : Int32)
  | encodeHex (src : Buffer)
  | escapeUri (src : Buffer)
  | escapeUriDelims (src : Buffer)
  | escapeArg (src : Buffer)
  | escapeHtml (src : Buffer)

namespace GrowOp

/-- The call; `mem` answers its requests for memory one after another. -/
def exec (mem : ℕ → Bool) (b : Buffer) : GrowOp → Exec (Ret × Buffer)
  | .add txt => b.addText (mem 0) txt
  | .addChar c => b.addChar (mem 0) c
  | .addCharN c num => b.addCharN (mem 0) c num
  | .prepend txt => b.prependText (mem 0) txt
  | .insert txt pos => b.insert (mem 0) txt pos
  | .multiply num => b.multiply mem num
  | .encodeHex src => src.encodeHex (mem 0) b
  | .escapeUri src => b.escapeUri (mem 0) src
  | .escapeUriDelims src => b.escapeUriDelims (mem 0) src
  | .escapeArg src => b.escapeArg (mem 0) src
  | .escapeHtml src => b.escapeHtml (mem 0) src

/-- The full result of the call. -/
def full (b : Buffer) : GrowOp → List UInt8
  | .add txt => b.content ++ txt
  | .addChar c => b.content ++ [c]
  | .addCharN c num => b.content ++ List.replicate num.toInt.toNat c
  | .prepend txt => txt ++ b.content
  | .insert txt pos => b.content.take pos ++ txt ++ b.content.drop pos
  | .multiply num => b.content ++ (List.replicate num.toInt.toNat b.content).flatten
  | .encodeHex src => hexText src.content
  | .escapeUri src => b.content ++ escapeText escapeUriTable src.content
  | .escapeUriDelims src => b.content ++ escapeText escapeUriDelimsTable src.content
  | .escapeArg src => b.content ++ escapeText escapeArgTable src.content
  | .escapeHtml src => htmlText src.content

/-- The arguments are what a program can pass: a text is an object, a position is a `size_t` and a
source is a buffer. -/
def Valid : GrowOp → Prop
  | .add txt => txt.length < 2^63
  | .prepend txt => txt.length < 2^63
  | .insert txt pos => txt.length < 2^63 ∧ pos < 2^64
  | .encodeHex src => src.Wf
  | .escapeUri src => src.Wf
  | .escapeUriDelims src => src.Wf
  | .escapeArg src => src.Wf
  | .escapeHtml src => src.Wf
  | _ => True

/-- A text of `n` bytes more can be counted, or there is no memory for it. -/
def GrowSafe (mem : Bool) (b : Buffer) (n : ℕ) : Prop :=
  b.len+n < 2^32 ∨ Refused mem (b.size+b.shortBy n+17)

/-- The source is not empty, and the block that the unchecked request leaves has room for its text. -/
def EscapeSafe (mem : Bool) (table : List ℕ) (b src : Buffer) : Prop :=
  src.content ≠ [] ∧ b.len+(escapeText table src.content).length < 2^32 ∧
    b.len+(escapeText table src.content).length < ensuredSize mem b (b.escapeWant table src.content)

/-- When the call does all or nothing. -/
def Safe (mem : ℕ → Bool) (b : Buffer) : GrowOp → Prop
  | .add txt => GrowSafe (mem 0) b txt.length
  | .addChar _ => True
  | .addCharN _ num => 0 < num.toInt → num.toInt+1 < 2^31 ∧
      (Atomic.freeSpace b < num.toInt+1 → num.toInt-Atomic.freeSpace b < 2^31 ∧
        (b.len+num.toInt < 2^32 ∨ Refused (mem 0) (b.size+(num.toInt-Atomic.freeSpace b).toNat+17)))
  | .prepend txt => GrowSafe (mem 0) b txt.length
  | .insert txt pos => pos ≤ b.len ∧ b.len+txt.length < 2^32 ∧
      b.len+txt.length < ensuredSize (mem 0) b (b.len+txt.length+1)
  | .multiply num => 0 < num.toInt → 0 < b.len → b.len*(num.toInt.toNat+1) < b.size
  | .encodeHex src => 2*src.len < ensuredSize (mem 0) b (cuint (src.len*2+1))
  | .escapeUri src => EscapeSafe (mem 0) escapeUriTable b src
  | .escapeUriDelims src => EscapeSafe (mem 0) escapeUriDelimsTable b src
  | .escapeArg src => EscapeSafe (mem 0) escapeArgTable b src
  | .escapeHtml src => Atomic.HtmlSafe (mem 0) b src

/-- A call does all or nothing exactly when the sizes before it allow it. -/
theorem atomic_iff (mem : ℕ → Bool) {b : Buffer} (hb : b.Wf) {op : GrowOp} (hop : op.Valid) :
    Atomic b (op.full b) (op.exec mem b) ↔ op.Safe mem b := by
  cases op with
  | add txt => exact Atomic.addText hb hop
  | addChar c => exact iff_of_true (Atomic.addChar hb c) trivial
  | addCharN c num => exact Atomic.addCharN hb c num
  | prepend txt => exact Atomic.prependText hb hop
  | insert txt pos => exact Atomic.insert hb hop.1 hop.2
  | multiply num => exact Atomic.multiply hb num
  | encodeHex src => exact Atomic.encodeHex hb hop
  | escapeUri src => exact Atomic.escapeWithTable hb hop (by decide)
  | escapeUriDelims src => exact Atomic.escapeWithTable hb hop (by decide)
  | escapeArg src => exact Atomic.escapeWithTable hb hop (by decide)
  | escapeHtml src => exact Atomic.escapeHtml hb hop

theorem atomic_iff_holding :
    Atomic (holding [98]) [97,98] ((GrowOp.prepend [97]).exec (fun _ => false) (holding [98])) ↔
      (GrowOp.prepend [97]).Safe (fun _ => false) (holding [98]) :=
  atomic_iff (fun _ => false) (holding_wf (by decide))
    (show ([97] : List UInt8).length < 2^63 by decide)

/-- A text inserted into a buffer that has no block, when there is no memory. -/
theorem not_atomic_insert :
    ¬ Atomic init ((GrowOp.insert [97] 0).full init) ((GrowOp.insert [97] 0).exec (fun _ => false) init) :=
  Atomic.not_fault (e:=.fault)

end GrowOp

end Http2d
