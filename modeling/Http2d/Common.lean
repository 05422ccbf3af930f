import Http2d.Library.Bytes

/-! Return codes, C integer conversions and the ways a call can fail to return. -/
namespace Http2d

/-- `ret_t`. -/
inductive Ret
  | noSys | nomem | deny | error | ok | eof | eofHaveData | notFound | fileNotFound | eagain
  | okAndSent
  deriving DecidableEq, Repr

/-- The enumeration's values; the code tests `ret < ret_ok`. -/
def Ret.code : Ret → ℤ
  | .noSys => -4
  | .nomem => -3
  | .deny => -2
  | .error => -1
  | .ok => 0
  | .eof => 1
  | .eofHaveData => 2
  | .notFound => 3
  | .fileNotFound => 4
  | .eagain => 5
  | .okAndSent => 8

/-- Conversion to the 32-bit `cuint_t`. -/
def cuint (n : ℤ) : ℕ := (n % 2^32).toNat

/-- Conversion to the 64-bit `size_t`. -/
def sizeT (n : ℤ) : ℕ := (n % 2^64).toNat

/-- Conversion to the 32-bit `int`. -/
def cint (n : ℕ) : ℤ := if n % 2^32 < 2^31 then (n % 2^32 : ℕ) else (n % 2^32 : ℕ) - 2^32

theorem cuint_lt (n : ℤ) : cuint n < 2^32 := by
  simp only [cuint]; omega

theorem cuint_natCast {n : ℕ} (h : n < 2^32) : cuint n = n := by
  simp only [cuint]; omega

theorem cuint_of_nonneg {n : ℤ} (h0 : 0 ≤ n) (h : n < 2^32) : (cuint n : ℤ) = n := by
  simp only [cuint]; omega

theorem cuint_sub {a b : ℕ} (hab : b ≤ a) (ha : a < 2^32) : cuint ((a : ℤ)-b) = a-b := by
  simp only [cuint]; omega

theorem sizeT_natCast {n : ℕ} (h : n < 2^64) : sizeT n = n := by
  simp only [sizeT]; omega

theorem cuint_add {a b : ℕ} (h : a+b < 2^32) : cuint ((a : ℤ)+b) = a+b := cuint_natCast h

theorem cuint_succ {a : ℕ} (h : a+1 < 2^32) : cuint ((a : ℤ)+1) = a+1 := cuint_natCast h

theorem sizeT_add {a b : ℕ} (h : a+b < 2^64) : sizeT ((a : ℤ)+b) = a+b := sizeT_natCast h

theorem sizeT_succ {a : ℕ} (h : a+1 < 2^64) : sizeT ((a : ℤ)+1) = a+1 := sizeT_natCast h

theorem sizeT_add_succ {a b : ℕ} (h : a+b+1 < 2^64) : sizeT ((a : ℤ)+b+1) = a+b+1 := sizeT_natCast h

/-- A sum that leaves the type is either more than a `cuint_t` or wraps to something small. -/
theorem sizeT_wraps {n k : ℕ} (hn : 2^32 ≤ n) (hk : n < k+2^34) :
    2^32 ≤ sizeT n ∨ 2^64 ≤ n ∧ sizeT n < k := by
  rcases lt_or_ge n (2^64) with hlt | hge
  · exact Or.inl ((sizeT_natCast hlt).symm ▸ hn)
  · refine Or.inr ⟨hge,?_⟩
    simp only [sizeT]
    omega

theorem sizeT_lt (n : ℤ) : sizeT n < 2^64 := by
  simp only [sizeT]; omega

theorem sizeT_sub {a b : ℕ} (hab : b ≤ a) (ha : a < 2^64) : sizeT ((a : ℤ)-b) = a-b := by
  simp only [sizeT]; omega

theorem cint_of_lt {n : ℕ} (h : n < 2^31) : cint n = n := by
  have hm : n % 2^32 = n := Nat.mod_eq_of_lt (by omega)
  rw [cint,hm,if_pos h]

theorem cint_neg {n : ℕ} (h : 2^31 ≤ n) (h' : n < 2^32) : cint n < 0 := by
  have hm : n % 2^32 = n := Nat.mod_eq_of_lt h'
  rw [cint,hm,if_neg (by omega)]
  omega

/-- Why a call does not return to its caller: `exit` ends the process, `fault` is an access to
memory that is not part of any object. -/
inductive Halt
  | exit (status : ℕ) | fault
  deriving DecidableEq, Repr

/-- A call that may end the process instead of returning. -/
abbrev Exec := Except Halt

theorem bind_ok_inv {α β : Type} {x : Exec α} {f : α → Exec β} {b : β}
    (h : (x >>= f) = .ok b) : ∃ a, x = .ok a ∧ f a = .ok b := by
  cases x with
  | error e => cases h
  | ok a => exact ⟨a,rfl,h⟩

@[simp] theorem ok_bind {α β : Type} (a : α) (f : α → Exec β) : ((.ok a : Exec α) >>= f) = f a := rfl

@[simp] theorem error_bind {α β : Type} (e : Halt) (f : α → Exec β) :
    ((.error e : Exec α) >>= f) = .error e := rfl

/-- The `n` bytes at `off` of an object; the pointer may lie before the object or behind it. -/
def peek (obj : List UInt8) (off : ℤ) (n : ℕ) : Exec (List UInt8) :=
  if 0 ≤ off ∧ off+n ≤ obj.length then .ok (Bytes.slice obj off.toNat n) else .error .fault

theorem peek_ok (obj : List UInt8) (off n : ℕ) (h : off+n ≤ obj.length) :
    peek obj off n = .ok (Bytes.slice obj off n) := by
  have hc : (0 : ℤ) ≤ off ∧ (off : ℤ)+n ≤ obj.length := by omega
  simp [peek,hc]

theorem peek_inv {obj : List UInt8} {off : ℤ} {n : ℕ} {bs : List UInt8}
    (h : peek obj off n = .ok bs) :
    0 ≤ off ∧ off+n ≤ obj.length ∧ bs = Bytes.slice obj off.toNat n := by
  unfold peek at h
  split_ifs at h with hc
  exact ⟨hc.1,hc.2,(Except.ok.inj h).symm⟩

/-- One byte of an object. -/
def peekByte (obj : List UInt8) (off : ℤ) : Exec UInt8 :=
  if 0 ≤ off ∧ off < obj.length then .ok (obj.getD off.toNat 0) else .error .fault

theorem peekByte_ok (obj : List UInt8) (off : ℕ) (h : off < obj.length) :
    peekByte obj off = .ok (obj.getD off 0) := by
  have hc : (0 : ℤ) ≤ off ∧ (off : ℤ) < obj.length := by omega
  simp [peekByte,hc]

/-- Reading behind a prefix is reading what follows it. -/
theorem peek_append_right (xs ys : List UInt8) (off n : ℕ) :
    peek (xs ++ ys) (xs.length+off) n = peek ys off n := by
  have hiff : (0 : ℤ) ≤ xs.length+off ∧ (xs.length : ℤ)+off+n ≤ (xs ++ ys).length ↔
      (0 : ℤ) ≤ off ∧ (off : ℤ)+n ≤ ys.length := by
    rw [List.length_append]; omega
  have hoff : ((xs.length : ℤ)+off).toNat = xs.length+off := by omega
  simp only [peek,hiff,hoff,Int.toNat_natCast,Bytes.slice_append_right]

theorem peekByte_append_right (xs ys : List UInt8) (off : ℕ) :
    peekByte (xs ++ ys) (xs.length+off) = peekByte ys off := by
  have hiff : (0 : ℤ) ≤ xs.length+off ∧ (xs.length : ℤ)+off < (xs ++ ys).length ↔
      (0 : ℤ) ≤ off ∧ (off : ℤ) < ys.length := by
    rw [List.length_append]; omega
  have hoff : ((xs.length : ℤ)+off).toNat = xs.length+off := by omega
  have hget : (xs ++ ys).getD (xs.length+off) 0 = ys.getD off 0 := by
    simp [List.getD_eq_getElem?_getD,List.getElem?_append_right]
  simp only [peekByte,hiff,hoff,Int.toNat_natCast,hget]

/-- Copy `txt` over the bytes of an object from `off` on. -/
def poke (obj : List UInt8) (off : ℕ) (txt : List UInt8) : Exec (List UInt8) :=
  if off+txt.length ≤ obj.length then .ok (Bytes.overwrite obj off txt) else .error .fault

theorem poke_ok {obj txt : List UInt8} {off : ℕ} (h : off+txt.length ≤ obj.length) :
    poke obj off txt = .ok (Bytes.overwrite obj off txt) := if_pos h

/-- What is copied behind a text that the object begins with continues the text. -/
theorem poke_next {o x t : List UInt8} (h : o.take x.length = x)
    (hfit : x.length+t.length ≤ o.length) : ∃ o', poke o x.length t = .ok o' ∧
      o'.length = o.length ∧ o'.take (x ++ t).length = x ++ t := by
  refine ⟨_,poke_ok hfit,Bytes.overwrite_length hfit,?_⟩
  rw [List.length_append,Bytes.take_overwrite (by omega),h]

/-- Two texts one after the other fill an object up to its end. -/
theorem poke_last {o x a b : List UInt8} {i j : ℕ} (hi : x.length = i) (hj : (x ++ a).length = j)
    (hlen : (x ++ a ++ b).length = o.length) (htake : o.take i = x) :
    ∃ o', poke o i a = .ok o' ∧ poke o' j b = .ok (x ++ (a ++ b)) := by
  have hsum := hlen
  rw [List.length_append,List.length_append] at hsum
  subst hi hj
  obtain ⟨o₁,hp₁,hl₁,ht₁⟩ := poke_next (t:=a) htake (by omega)
  obtain ⟨o₂,hp₂,hl₂,ht₂⟩ := poke_next (t:=b) ht₁ (by rw [List.length_append]; omega)
  rw [hlen,← hl₁,← hl₂,List.take_length] at ht₂
  exact ⟨o₁,hp₁,by rw [← List.append_assoc,← ht₂]; exact hp₂⟩

theorem drop_of_drop {blk xs ys : List UInt8} {off : ℕ} (h : blk.drop off = xs ++ ys) :
    blk.drop (off+xs.length) = ys := by
  rw [← List.drop_drop,h,List.drop_left]

theorem peekByte_drop {blk t : List UInt8} {off : ℕ} {c : UInt8} (h : blk.drop off = c::t) :
    peekByte blk off = .ok c ∧ blk.drop (off+1) = t ∧ off < blk.length := by
  have hlt : off < blk.length := by
    by_contra hge
    rw [List.drop_eq_nil_of_le (not_lt.mp hge)] at h
    cases h
  rw [List.drop_eq_getElem_cons hlt] at h
  obtain ⟨hc,ht⟩ := List.cons.inj h
  exact ⟨by rw [peekByte_ok _ _ hlt]; simp [hlt,hc],ht,hlt⟩

theorem peek_drop {blk xs ys : List UInt8} {off : ℕ} (hoff : off ≤ blk.length)
    (h : blk.drop off = xs ++ ys) : peek blk off xs.length = .ok xs := by
  have hlen := congrArg List.length h
  rw [List.length_drop,List.length_append] at hlen
  rw [peek_ok _ _ _ (by omega),Bytes.slice,h,List.take_left]

end Http2d
