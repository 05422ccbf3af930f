import Mathlib.Tactic

/-! Byte strings: network-order integers, slices and in-place copies.
An integer of `w` bytes is written most significant byte first. -/
namespace Bytes

/-- The value of a byte string read most significant byte first. -/
def beNat (bs : List UInt8) : ℕ := bs.foldl (fun acc b => acc*256+b.toNat) 0

/-- The `w` low-order bytes of `n`, most significant first. -/
def beBytes : ℕ → ℕ → List UInt8
  | 0, _ => []
  | w+1, n => beBytes w (n/256) ++ [UInt8.ofNat n]

@[simp] theorem beBytes_length (w n : ℕ) : (beBytes w n).length = w := by
  induction w generalizing n with
  | zero => rfl
  | succ w ih => simp [beBytes,ih]

theorem beNat_append_singleton (bs : List UInt8) (b : UInt8) :
    beNat (bs ++ [b]) = beNat bs*256+b.toNat := by simp [beNat]

theorem beNat_cons (b : UInt8) (bs : List UInt8) :
    beNat (b::bs) = b.toNat*256^bs.length+beNat bs := by
  induction bs using List.reverseRecOn with
  | nil => simp [beNat]
  | append_singleton bs c ih =>
    rw [← List.cons_append,beNat_append_singleton,beNat_append_singleton,ih]
    simp only [List.length_append,List.length_singleton,pow_succ]
    ring

theorem beNat_beBytes (w n : ℕ) : beNat (beBytes w n) = n % 256^w := by
  induction w generalizing n with
  | zero => simp [beBytes,beNat,Nat.mod_one]
  | succ w ih =>
    have hb : (UInt8.ofNat n).toNat = n % 256 := UInt8.toNat_ofNat'
    rw [beBytes,beNat_append_singleton,ih,hb,pow_succ',Nat.mod_mul]
    ring

/-- Reading back what was written gives the number, when it fits. -/
theorem beNat_beBytes_of_lt {w n : ℕ} (h : n < 256^w) : beNat (beBytes w n) = n := by
  rw [beNat_beBytes,Nat.mod_eq_of_lt h]

/-- Only the low-order bytes are written. -/
theorem beBytes_eq {w n k : ℕ} (h : n % 256^w = k % 256^w) : beBytes w n = beBytes w k := by
  induction w generalizing n k with
  | zero => rfl
  | succ w ih =>
    rw [pow_succ',Nat.mod_mul,Nat.mod_mul] at h
    have hlow : UInt8.ofNat n = UInt8.ofNat k := by
      apply UInt8.toNat_inj.mp
      rw [UInt8.toNat_ofNat',UInt8.toNat_ofNat']
      omega
    have hrest : n/256 % 256^w = k/256 % 256^w := by omega
    rw [beBytes,beBytes,hlow,ih hrest]

/-- The high-order bytes come first. -/
theorem beBytes_add (v w n : ℕ) : beBytes (v+w) n = beBytes v (n/256^w) ++ beBytes w n := by
  induction w generalizing n with
  | zero => simp [beBytes]
  | succ w ih =>
    rw [← Nat.add_assoc,beBytes,ih,beBytes,Nat.div_div_eq_div_mul,← pow_succ',List.append_assoc]

/-- The value of a byte string read least significant byte first. -/
def leNat : List UInt8 → ℕ
  | [] => 0
  | b::bs => b.toNat+256*leNat bs

/-- The `w` low-order bytes of `n`, least significant first. -/
def leBytes : ℕ → ℕ → List UInt8
  | 0, _ => []
  | w+1, n => UInt8.ofNat n::leBytes w (n/256)

@[simp] theorem leBytes_length (w n : ℕ) : (leBytes w n).length = w := by
  induction w generalizing n with
  | zero => rfl
  | succ w ih => simp [leBytes,ih]

theorem leNat_lt (bs : List UInt8) : leNat bs < 256^bs.length := by
  induction bs with
  | nil => simp [leNat]
  | cons b bs ih =>
    have := b.toNat_lt
    rw [leNat,List.length_cons,pow_succ]
    omega

theorem leNat_leBytes (w n : ℕ) : leNat (leBytes w n) = n % 256^w := by
  induction w generalizing n with
  | zero => simp [leBytes,leNat,Nat.mod_one]
  | succ w ih =>
    have hb : (UInt8.ofNat n).toNat = n % 256 := UInt8.toNat_ofNat'
    rw [leBytes,leNat,ih,hb,pow_succ',Nat.mod_mul]

theorem leNat_inj {xs ys : List UInt8} (hlen : xs.length = ys.length) (h : leNat xs = leNat ys) :
    xs = ys := by
  induction xs generalizing ys with
  | nil => exact (List.length_eq_zero_iff.mp hlen.symm).symm
  | cons x xs ih =>
    cases ys with
    | nil => simp at hlen
    | cons y ys =>
      have := x.toNat_lt
      have := y.toNat_lt
      simp only [leNat] at h
      rw [UInt8.toNat_inj.mp (show x.toNat = y.toNat by omega),
        ih (Nat.succ_injective hlen) (by omega)]

theorem leBytes_eq {w n k : ℕ} (h : n % 256^w = k % 256^w) : leBytes w n = leBytes w k :=
  leNat_inj (by simp) (by rw [leNat_leBytes,leNat_leBytes,h])

/-- The low-order bytes come first. -/
theorem leBytes_add (v w n : ℕ) : leBytes (v+w) n = leBytes v n ++ leBytes w (n/256^v) := by
  induction v generalizing n with
  | zero => simp [leBytes]
  | succ v ih =>
    rw [Nat.add_right_comm,leBytes,ih,leBytes,List.cons_append,Nat.div_div_eq_div_mul,pow_succ']

/-- The `n` bytes from offset `off` on. -/
def slice (bs : List UInt8) (off n : ℕ) : List UInt8 := (bs.drop off).take n

theorem slice_length {bs : List UInt8} {off n : ℕ} (h : off+n ≤ bs.length) :
    (slice bs off n).length = n := by simp [slice]; omega

theorem slice_append_left {xs : List UInt8} {off n : ℕ} (ys : List UInt8)
    (h : off+n ≤ xs.length) : slice (xs ++ ys) off n = slice xs off n := by
  simp only [slice]
  rw [List.drop_append_of_le_length (by omega),List.take_append_of_le_length (by simp; omega)]

theorem slice_append_right (xs ys : List UInt8) (off n : ℕ) :
    slice (xs ++ ys) (xs.length+off) n = slice ys off n := by
  simp [slice,List.drop_append,List.drop_eq_nil_of_le]

theorem slice_front (xs ys : List UInt8) : slice (xs ++ ys) 0 xs.length = xs := by
  simp [slice]

theorem slice_front_eq {xs : List UInt8} {n : ℕ} (h : xs.length = n) (ys : List UInt8) :
    slice (xs ++ ys) 0 n = xs := h ▸ slice_front xs ys

theorem slice_drop (bs : List UInt8) (m off n : ℕ) :
    slice (bs.drop m) off n = slice bs (m+off) n := by simp [slice]

/-- Two strings with a common prefix of `m` bytes agree on every slice inside it. -/
theorem slice_eq_of_take_eq {xs ys : List UInt8} {m off n : ℕ} (h : xs.take m = ys.take m)
    (hle : off+n ≤ m) : slice xs off n = slice ys off n := by
  have cut (zs : List UInt8) : slice zs off n = slice (zs.take m) off n := by
    simp [slice,List.drop_take,List.take_take]; omega
  rw [cut xs,cut ys,h]

/-- Copy `bs` over the bytes from offset `off` on. -/
def overwrite (blk : List UInt8) (off : ℕ) (bs : List UInt8) : List UInt8 :=
  blk.take off ++ bs ++ blk.drop (off+bs.length)

theorem overwrite_length {blk bs : List UInt8} {off : ℕ} (h : off+bs.length ≤ blk.length) :
    (overwrite blk off bs).length = blk.length := by
  simp [overwrite]; omega

theorem take_overwrite {blk bs : List UInt8} {off : ℕ} (h : off ≤ blk.length) :
    (overwrite blk off bs).take (off+bs.length) = blk.take off ++ bs := by
  have hl : off+bs.length = (blk.take off ++ bs).length := by simp [h]
  rw [overwrite,hl,List.take_left]

theorem drop_overwrite {blk bs : List UInt8} {off m : ℕ} (hm : off+bs.length ≤ m)
    (hfit : off+bs.length ≤ blk.length) : (overwrite blk off bs).drop m = blk.drop m := by
  have hl : (blk.take off ++ bs).length = off+bs.length := by simp; omega
  rw [overwrite,List.drop_append,List.drop_eq_nil_of_le (hl.trans_le hm),hl,List.nil_append,List.drop_drop]
  congr 1
  omega

theorem take_set_next {blk : List UInt8} {tgt : ℕ} (h : tgt < blk.length) (v : UInt8) :
    (blk.set tgt v).take (tgt+1) = blk.take tgt ++ [v] := by
  rw [List.take_add_one,List.take_set_of_le le_rfl,List.getElem?_set_self h]
  rfl

/-- A text put into the gap in front of a tail that was moved away. -/
theorem overwrite_gap (blk txt tail : List UInt8) (pos : ℕ)
    (hfit : pos+txt.length+tail.length ≤ blk.length) :
    overwrite (overwrite blk (pos+txt.length) tail) pos txt =
      blk.take pos ++ txt ++ tail ++ blk.drop (pos+txt.length+tail.length) := by
  have htake : (overwrite blk (pos+txt.length) tail).take pos = blk.take pos := by
    rw [overwrite,List.append_assoc,List.take_append_of_le_length (by simp; omega),List.take_take,
      min_eq_left (by omega)]
  have hdrop : (overwrite blk (pos+txt.length) tail).drop (pos+txt.length) =
      tail ++ blk.drop (pos+txt.length+tail.length) := by
    have hl : (blk.take (pos+txt.length)).length = pos+txt.length := by simp; omega
    rw [overwrite,List.append_assoc]
    exact List.drop_left' hl
  rw [overwrite,htake,hdrop,← List.append_assoc]

/-- A text with its terminator, copied to an offset of a block. -/
theorem overwrite_terminated (blk txt : List UInt8) (off : ℕ) (hfit : off+txt.length < blk.length) :
    (overwrite blk off (txt ++ [0])).take (off+txt.length) = blk.take off ++ txt ∧
    (overwrite blk off (txt ++ [0]))[off+txt.length]? = some 0 := by
  have hl : (blk.take off ++ txt).length = off+txt.length := by simp; omega
  have heq : overwrite blk off (txt ++ [0]) =
      (blk.take off ++ txt) ++ ([0] ++ blk.drop (off+(txt ++ [0]).length)) := by
    simp only [overwrite,List.append_assoc]
  rw [heq]
  exact ⟨List.take_left' hl,by rw [List.getElem?_append_right hl.le,hl]; simp⟩

/-- The bits of a byte; the first one is the most significant. -/
def bit (b : UInt8) (j : ℕ) : Bool := b.toNat.testBit (7-j)

theorem bit_and (a b : UInt8) (j : ℕ) : bit (a &&& b) j = (bit a j && bit b j) := by
  simp [bit]

/-- Bytes are equal when their bits are. -/
theorem eq_of_bits {a b : UInt8} (h : ∀ j, j < 8 → bit a j = bit b j) : a = b := by
  apply UInt8.toNat_inj.mp
  refine Nat.eq_of_testBit_eq fun i => ?_
  by_cases hi : i < 8
  · have := h (7-i) (by omega)
    rwa [bit,bit,show 7-(7-i) = i by omega] at this
  · have hbig (c : UInt8) : c.toNat.testBit i = false :=
      Nat.testBit_lt_two_pow (c.toNat_lt.trans_le (Nat.pow_le_pow_right (by decide) (by omega)))
    rw [hbig,hbig]

theorem and_eq_and_iff (a b m : UInt8) :
    a &&& m = b &&& m ↔ ∀ j, j < 8 → bit m j = true → bit a j = bit b j := by
  refine ⟨fun h j _ hm => ?_,fun h => eq_of_bits fun j hj => ?_⟩
  · have := congrArg (bit · j) h
    simpa [bit_and,hm] using this
  · rw [bit_and,bit_and]
    cases hm : bit m j with
    | false => simp
    | true => rw [h j hj hm]

/-- The low-order part of a number that was shifted for it is added to it. -/
theorem shiftLeft_or_eq {a b k : ℕ} (hb : b < 2^k) : (a <<< k ||| b) = a*2^k+b := by
  rw [← Nat.shiftLeft_add_eq_or_of_lt hb,Nat.shiftLeft_eq]

/-- A mask of ones keeps a remainder. -/
theorem and_mask (b m n : ℕ) (hm : m = 2^n-1) : b &&& m = b % 2^n := by
  rw [hm,Nat.and_two_pow_sub_one_eq_mod]

/-- The field of `n` bits from bit `k` on. -/
theorem shiftRight_mask (b m k n : ℕ) (hm : m = (2^n-1) <<< k) :
    (b &&& m) >>> k = b/2^k % 2^n := by
  rw [hm,Nat.shiftRight_and_distrib,Nat.shiftLeft_shiftRight,Nat.and_two_pow_sub_one_eq_mod,
    Nat.shiftRight_eq_div_pow]

/-- A number is put together from its parts above and below a bit. -/
theorem cut_or (a m k : ℕ) (hm : m = 2^k-1) : ((a >>> k) <<< k ||| (a &&& m)) = a := by
  rw [and_mask a m k hm,shiftLeft_or_eq (Nat.mod_lt a (Nat.two_pow_pos k)),
    Nat.shiftRight_eq_div_pow,Nat.div_add_mod']

end Bytes
