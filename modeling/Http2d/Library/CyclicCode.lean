import Http2d.Library.Bytes
import Mathlib.Algebra.Polynomial.Div
import Mathlib.Data.ZMod.Basic

/-! Cyclic redundancy codes with a register that is shifted towards its low-order end.
Bit `i` of a register of width `w` is the coefficient of `X^(w-1-i)`; a message is the list of its
bits in the order they are sent, and a byte is sent lowest bit first. -/
namespace CyclicCode

open Polynomial

variable {w : ℕ} (p : BitVec w)

/-- One shift: the bit that leaves the register feeds the polynomial back into it. -/
def shift (c : BitVec w) : BitVec w := if c.getLsbD 0 then (c >>> 1) ^^^ p else c >>> 1

/-- A bit of the message is added to the low end of the register and shifted out. -/
def feedBit (c : BitVec w) (b : Bool) : BitVec w := shift p (c ^^^ (BitVec.ofBool b).setWidth w)

def feed (c : BitVec w) (bs : List Bool) : BitVec w := bs.foldl (feedBit p) c

/-- The bits of a byte. -/
def byteBits (b : UInt8) : List Bool := (List.range 8).map b.toBitVec.getLsbD

/-- The bits of a byte string. -/
def bits (bs : List UInt8) : List Bool := bs.flatMap byteBits

@[simp] theorem byteBits_length (b : UInt8) : (byteBits b).length = 8 := by simp [byteBits]

@[simp] theorem bits_length (bs : List UInt8) : (bits bs).length = 8*bs.length := by
  simp [bits,List.length_flatMap,Nat.mul_comm]

@[simp] theorem bits_append (xs ys : List UInt8) : bits (xs ++ ys) = bits xs ++ bits ys :=
  List.flatMap_append

theorem bits_cons (b : UInt8) (bs : List UInt8) : bits (b::bs) = byteBits b ++ bits bs := rfl

@[simp] theorem feed_nil (c : BitVec w) : feed p c [] = c := rfl

@[simp] theorem feed_cons (c : BitVec w) (b : Bool) (bs : List Bool) :
    feed p c (b::bs) = feed p (feedBit p c b) bs := rfl

theorem feed_append (c : BitVec w) (xs ys : List Bool) :
    feed p c (xs ++ ys) = feed p (feed p c xs) ys := List.foldl_append

/-! Shifting is linear. -/

@[simp] theorem shift_zero : shift p 0#w = 0#w := by simp [shift]

theorem shift_xor (a b : BitVec w) : shift p (a ^^^ b) = shift p a ^^^ shift p b := by
  have hswap : p ^^^ (b >>> 1 ^^^ p) = b >>> 1 := by
    rw [BitVec.xor_comm (b >>> 1),← BitVec.xor_assoc,BitVec.xor_self,BitVec.zero_xor]
  simp only [shift,BitVec.getLsbD_xor,BitVec.ushiftRight_xor_distrib]
  cases a.getLsbD 0 <;> cases b.getLsbD 0
  · rfl
  · exact BitVec.xor_assoc ..
  · simp only [Bool.xor_false,if_true,Bool.false_eq_true,if_false]
    rw [BitVec.xor_assoc,BitVec.xor_comm (b >>> 1),← BitVec.xor_assoc]
  · simp only [Bool.xor_self,if_true,Bool.false_eq_true,if_false]
    rw [BitVec.xor_assoc (a >>> 1),hswap]

theorem shifts_xor (n : ℕ) (a b : BitVec w) :
    (shift p)^[n] (a ^^^ b) = (shift p)^[n] a ^^^ (shift p)^[n] b := by
  induction n generalizing a b with
  | zero => rfl
  | succ n ih => simp only [Function.iterate_succ_apply,shift_xor,ih]

/-- A shift of the number that the register holds. -/
def shiftNat (p n : ℕ) : ℕ := n/2 ^^^ n%2*p

theorem shift_toNat (c : BitVec w) : (shift p c).toNat = shiftNat p.toNat c.toNat := by
  have hbit : c.getLsbD 0 = decide (c.toNat%2 = 1) := Nat.testBit_zero _
  rw [shift,hbit,shiftNat]
  rcases Nat.mod_two_eq_zero_or_one c.toNat with h | h
  · simp [h,BitVec.toNat_ushiftRight,Nat.shiftRight_eq_div_pow]
  · simp [h,BitVec.toNat_ushiftRight,Nat.shiftRight_eq_div_pow]

theorem shifts_toNat (n : ℕ) (c : BitVec w) :
    ((shift p)^[n] c).toNat = (shiftNat p.toNat)^[n] c.toNat :=
  (Function.Semiconj.iterate_right (f:=BitVec.toNat) (shift_toNat p) n).eq c

/-- Zeros at the low end only move the register down. -/
theorem shifts_low {x : BitVec w} {n : ℕ} (h : ∀ i, i < n → x.getLsbD i = false) :
    (shift p)^[n] x = x >>> n := by
  induction n with
  | zero => simp
  | succ n ih =>
    have hn : (x >>> n).getLsbD 0 = false := by simpa using h n n.lt_succ_self
    rw [Function.iterate_succ_apply',ih fun i hi => h i (hi.trans n.lt_succ_self),shift,hn,
      if_neg Bool.false_ne_true,BitVec.shiftRight_add]

/-- A value that fits above `n` zeros comes back after `n` shifts. -/
theorem shifts_shiftLeft {x : BitVec w} {n : ℕ} (h : ∀ i, w ≤ i+n → x.getLsbD i = false) :
    (shift p)^[n] (x <<< n) = x := by
  rw [shifts_low p fun i hi => by simp [hi]]
  apply BitVec.eq_of_getLsbD_eq
  intro i hi
  rw [BitVec.getLsbD_ushiftRight,BitVec.getLsbD_shiftLeft]
  rcases Nat.lt_or_ge (n+i) w with hlt | hge
  · simp [hlt]
  · rw [h i (by omega)]
    simp [hge]

/-! A polynomial that has its constant term loses nothing in a shift. -/

/-- The highest bit of the register after a shift is the bit that left it. -/
theorem shift_top (hp : p.getLsbD (w-1) = true) (c : BitVec w) :
    (shift p c).getLsbD (w-1) = c.getLsbD 0 := by
  have hw : 0 < w := by
    rcases Nat.eq_zero_or_pos w with h0 | hpos
    · subst h0
      simp at hp
    · exact hpos
  have htop : (c >>> 1).getLsbD (w-1) = false := by
    rw [BitVec.getLsbD_ushiftRight]
    exact BitVec.getLsbD_of_ge _ _ (by omega)
  rw [shift]
  split_ifs with h0
  · rw [BitVec.getLsbD_xor,htop,hp,h0,Bool.false_xor]
  · rw [htop,Bool.eq_false_of_not_eq_true h0]

theorem shift_eq_zero (hp : p.getLsbD (w-1) = true) {c : BitVec w} (h : shift p c = 0#w) :
    c = 0#w := by
  have h0 : c.getLsbD 0 = false := by rw [← shift_top p hp,h,BitVec.getLsbD_zero]
  rw [shift,h0,if_neg Bool.false_ne_true] at h
  apply BitVec.eq_of_getLsbD_eq
  intro i hi
  rw [BitVec.getLsbD_zero]
  cases i with
  | zero => exact h0
  | succ i =>
    have := congrArg (BitVec.getLsbD · i) h
    rwa [BitVec.getLsbD_ushiftRight,BitVec.getLsbD_zero,Nat.add_comm] at this

theorem shift_injective (hp : p.getLsbD (w-1) = true) : Function.Injective (shift p) := by
  intro a b hab
  rw [← BitVec.xor_eq_zero_iff]
  apply shift_eq_zero p hp
  rw [shift_xor,hab,BitVec.xor_self]

theorem feed_injective (hp : p.getLsbD (w-1) = true) (bs : List Bool) :
    Function.Injective (feed p · bs) := by
  induction bs with
  | nil => exact Function.injective_id
  | cons b bs ih =>
    intro c d hcd
    exact (BitVec.xor_left_inj _).mp (shift_injective p hp (ih hcd))

/-! A message that is no longer than the register. -/

/-- The bits of a message side by side, the first one at the low end. -/
def pack : List Bool → BitVec w
  | [] => 0#w
  | b::bs => (BitVec.ofBool b).setWidth w ^^^ (pack bs <<< 1)

theorem pack_getLsbD (bs : List Bool) {i : ℕ} (hi : i < w) :
    (pack (w:=w) bs).getLsbD i = bs[i]?.getD false := by
  induction bs generalizing i with
  | nil => simp [pack]
  | cons b bs ih =>
    rw [pack,BitVec.getLsbD_xor,BitVec.getLsbD_setWidth,BitVec.getLsbD_shiftLeft]
    cases i with
    | zero => simp [hi]
    | succ i => simp [hi,ih (Nat.lt_of_succ_lt hi)]

theorem pack_inj {xs ys : List Bool} (hlen : xs.length = ys.length) (hw : xs.length ≤ w)
    (h : pack (w:=w) xs = pack ys) : xs = ys := by
  refine List.ext_getElem hlen fun i hx hy => ?_
  have hbit := congrArg (BitVec.getLsbD · i) h
  simp only [pack_getLsbD _ (hx.trans_le hw)] at hbit
  simpa [hx,hy] using hbit

/-- Such a message is added to the register as a whole and shifted out. -/
theorem feed_pack {bs : List Bool} (h : bs.length ≤ w) (c : BitVec w) :
    feed p c bs = (shift p)^[bs.length] (c ^^^ pack bs) := by
  induction bs generalizing c with
  | nil => simp [pack]
  | cons b bs ih =>
    rw [List.length_cons] at h
    have hback : (shift p)^[1] (pack bs <<< 1) = pack bs := by
      refine shifts_shiftLeft p fun i hi => ?_
      rcases Nat.lt_or_ge i w with hlt | hge
      · rw [pack_getLsbD bs hlt,List.getElem?_eq_none (by omega),Option.getD_none]
      · exact BitVec.getLsbD_of_ge _ _ hge
    rw [Function.iterate_one] at hback
    rw [feed_cons,ih (by omega),List.length_cons,Function.iterate_succ_apply,pack,
      ← BitVec.xor_assoc,shift_xor,hback,feedBit]

/-- Two messages that differ in a stretch no longer than the register leave different registers. -/
theorem feed_burst (hp : p.getLsbD (w-1) = true) {xs ys : List Bool}
    (hlen : xs.length = ys.length) (hw : xs.length ≤ w) (hne : xs ≠ ys) (c : BitVec w)
    (pre post : List Bool) : feed p c (pre ++ xs ++ post) ≠ feed p c (pre ++ ys ++ post) := by
  intro heq
  simp only [feed_append] at heq
  have hmid := feed_injective p hp post heq
  have hw' : ys.length ≤ w := hlen ▸ hw
  rw [feed_pack p hw (feed p c pre),feed_pack p hw' (feed p c pre),← hlen] at hmid
  have hpack := (BitVec.xor_right_inj _).mp ((shift_injective p hp).iterate _ hmid)
  exact hne (pack_inj hlen hw hpack)

/-- Among the messages of the register's length one leaves the register that all ones would. -/
theorem feed_word_iff (hp : p.getLsbD (w-1) = true) {b : List Bool} (h : b.length = w)
    (c : BitVec w) : feed p c b = (shift p)^[w] (BitVec.allOnes w) ↔ pack b = ~~~c := by
  rw [feed_pack p h.le,h,((shift_injective p hp).iterate w).eq_iff,← BitVec.xor_allOnes,
    ← BitVec.xor_right_inj c,← BitVec.xor_assoc,BitVec.xor_self,BitVec.zero_xor]

theorem pack_byteBits (b : UInt8) : pack (w:=w) (byteBits b) = b.toBitVec.setWidth w := by
  apply BitVec.eq_of_getLsbD_eq
  intro i hi
  rw [pack_getLsbD _ hi,BitVec.getLsbD_setWidth,decide_eq_true hi,Bool.true_and]
  rcases Nat.lt_or_ge i 8 with hlt | hge
  · simp [byteBits,hlt]
  · rw [List.getElem?_eq_none (by simpa using hge),BitVec.getLsbD_of_ge _ _ hge,Option.getD_none]

theorem testBit_leNat (bs : List UInt8) (i : ℕ) :
    (Bytes.leNat bs).testBit i = (bits bs)[i]?.getD false := by
  induction bs generalizing i with
  | nil => simp [Bytes.leNat,bits]
  | cons b bs ih =>
    rw [Bytes.leNat,Nat.add_comm,show (256 : ℕ) = 2^8 from rfl,
      Nat.testBit_two_pow_mul_add _ b.toNat_lt]
    split_ifs with hi
    · rw [bits_cons,List.getElem?_append_left (by simpa using hi)]
      simp [byteBits,hi,BitVec.getLsbD]
    · rw [ih,bits_cons,List.getElem?_append_right (by simpa using hi),byteBits_length]

/-- The bytes of a number, lowest first, lie side by side as the number itself. -/
theorem pack_bits (bs : List UInt8) :
    pack (w:=w) (bits bs) = BitVec.ofNat w (Bytes.leNat bs) := by
  apply BitVec.eq_of_getLsbD_eq
  intro i hi
  rw [pack_getLsbD _ hi,BitVec.getLsbD_ofNat,decide_eq_true hi,Bool.true_and,testBit_leNat]

/-- A byte at a time: the low byte of the sum selects what is added to the rest of the register. -/
theorem feed_byteBits (hw : 8 ≤ w) (c : BitVec w) (b : UInt8) :
    feed p c (byteBits b) =
      (c >>> 8) ^^^ (shift p)^[8] ((c ^^^ b.toBitVec.setWidth w) &&& 255#w) := by
  have hmask (i : ℕ) : (255#w).getLsbD i = (decide (i < w) && decide (i < 8)) := by
    rw [BitVec.getLsbD_ofNat,show (255 : ℕ) = 2^8-1 from rfl,Nat.testBit_two_pow_sub_one]
  have hcut : c ^^^ b.toBitVec.setWidth w =
      ((c ^^^ b.toBitVec.setWidth w) &&& ~~~255#w) ^^^
        ((c ^^^ b.toBitVec.setWidth w) &&& 255#w) := by
    ext i hi
    simp only [BitVec.getElem_xor,BitVec.getElem_and,BitVec.getElem_not]
    cases (255#w)[i] <;> simp
  have hlow : ∀ i, i < 8 → ((c ^^^ b.toBitVec.setWidth w) &&& ~~~255#w).getLsbD i = false := by
    intro i hi
    simp only [BitVec.getLsbD_and,BitVec.getLsbD_not,hmask]
    simp [hi]
  have hhigh : ((c ^^^ b.toBitVec.setWidth w) &&& ~~~255#w) >>> 8 = c >>> 8 := by
    apply BitVec.eq_of_getLsbD_eq
    intro i hi
    simp only [BitVec.getLsbD_ushiftRight,BitVec.getLsbD_and,BitVec.getLsbD_not,BitVec.getLsbD_xor,
      BitVec.getLsbD_setWidth,hmask]
    rcases Nat.lt_or_ge (8+i) w with hlt | hge
    · simp [hlt]
    · simp [BitVec.getLsbD_of_ge c (8+i) hge]
  rw [feed_pack p (by simpa using hw),pack_byteBits,byteBits_length]
  nth_rewrite 1 [hcut]
  rw [shifts_xor,shifts_low p hlow,hhigh]

/-! The register as a polynomial. -/

/-- The polynomial of a register. -/
noncomputable def regPoly (c : BitVec w) : (ZMod 2)[X] :=
  ∑ i ∈ Finset.range w, if c.getLsbD i then X^(w-1-i) else 0

/-- The polynomial that the register is reduced by; its highest term is not kept in `p`. -/
noncomputable def generator : (ZMod 2)[X] := X^w + regPoly p

/-- The polynomial of a message; its first bit is the highest term. -/
noncomputable def msgPoly (bs : List Bool) : (ZMod 2)[X] :=
  bs.foldl (fun m b => X*m + if b then 1 else 0) 0

theorem two_eq_zero (f : (ZMod 2)[X]) : f + f = 0 := CharTwo.add_self_eq_zero f

theorem regPoly_xor (a b : BitVec w) : regPoly (a ^^^ b) = regPoly a + regPoly b := by
  simp only [regPoly,← Finset.sum_add_distrib]
  refine Finset.sum_congr rfl fun i _ => ?_
  rw [BitVec.getLsbD_xor]
  cases a.getLsbD i <;> cases b.getLsbD i <;> simp [two_eq_zero]

theorem regPoly_degree (c : BitVec w) : (regPoly c).degree < w := by
  rw [degree_lt_iff_coeff_zero]
  intro n hn
  rw [regPoly,finsetSum_coeff]
  refine Finset.sum_eq_zero fun i hi => ?_
  have := Finset.mem_range.mp hi
  split_ifs
  · rw [coeff_X_pow,if_neg (by omega)]
  · exact coeff_zero n

theorem generator_monic : (generator p).Monic := monic_X_pow_add (regPoly_degree p)

theorem generator_degree : (generator p).degree = w := by
  rw [generator,degree_add_eq_left_of_degree_lt (by rw [degree_X_pow]; exact regPoly_degree p),
    degree_X_pow]

/-- A shift multiplies by `X`, up to the generator. -/
theorem regPoly_shift (c : BitVec w) :
    regPoly (shift p c) = X*regPoly c + if c.getLsbD 0 then generator p else 0 := by
  cases w with
  | zero => simp [regPoly,BitVec.of_length_zero]
  | succ k =>
    have hdown : X*regPoly c = regPoly (c >>> 1) + if c.getLsbD 0 then X^(k+1) else 0 := by
      rw [regPoly,Finset.sum_range_succ',mul_add,regPoly,Finset.sum_range_succ,Finset.mul_sum]
      have htop : (c >>> 1).getLsbD k = false := by
        rw [BitVec.getLsbD_ushiftRight]
        exact BitVec.getLsbD_of_ge _ _ (by omega)
      have hterm (i : ℕ) (hi : i ∈ Finset.range k) :
          X*(if c.getLsbD (i+1) then X^(k+1-1-(i+1)) else (0 : (ZMod 2)[X])) =
            if (c >>> 1).getLsbD i then X^(k+1-1-i) else 0 := by
        have := Finset.mem_range.mp hi
        rw [BitVec.getLsbD_ushiftRight,Nat.add_comm 1 i,mul_ite,mul_zero,← pow_succ',
          show k+1-1-(i+1)+1 = k+1-1-i by omega]
      rw [Finset.sum_congr rfl hterm,htop,mul_ite,mul_zero,← pow_succ']
      simp
    rw [hdown,shift,generator]
    split_ifs
    · rw [regPoly_xor,add_assoc,← add_assoc (X^(k+1)),two_eq_zero,zero_add]
    · simp

/-- A bit at the low end of the register is its highest term. -/
theorem regPoly_bit (hw : 0 < w) (b : Bool) :
    regPoly ((BitVec.ofBool b).setWidth w) = if b then X^(w-1) else 0 := by
  obtain ⟨k,rfl⟩ := Nat.exists_eq_succ_of_ne_zero hw.ne'
  rw [regPoly,Finset.sum_range_succ']
  have hhigh : ∀ i ∈ Finset.range k, (if ((BitVec.ofBool b).setWidth (k+1)).getLsbD (i+1) then
      X^(k+1-1-(i+1)) else (0 : (ZMod 2)[X])) = 0 := by
    intro i _
    rw [BitVec.getLsbD_setWidth,BitVec.getLsbD_of_ge (BitVec.ofBool b) (i+1) (by omega)]
    simp
  rw [Finset.sum_eq_zero hhigh,zero_add,BitVec.getLsbD_setWidth]
  simp

/-- A register after a message: the start value and the message, both moved up, in one sum. -/
theorem regPoly_feed (hw : 0 < w) (c : BitVec w) (bs : List Bool) :
    generator p ∣ regPoly (feed p c bs) - (X^bs.length*regPoly c + X^w*msgPoly bs) := by
  induction bs using List.reverseRecOn with
  | nil => simp [msgPoly]
  | append_singleton bs b ih =>
    have hpow : (X : (ZMod 2)[X])^w = X*X^(w-1) := by rw [← pow_succ',Nat.sub_add_cancel hw]
    have hbit : generator p ∣ regPoly (feed p c (bs ++ [b])) -
        X*(regPoly (feed p c bs) + if b then X^(w-1) else 0) := by
      rw [feed_append,feed_cons,feed_nil,feedBit,regPoly_shift,regPoly_xor,regPoly_bit hw,
        add_sub_cancel_left]
      split_ifs
      all_goals first | exact dvd_rfl | exact dvd_zero _
    have hmsg : msgPoly (bs ++ [b]) = X*msgPoly bs + if b then 1 else 0 := by
      simp [msgPoly,List.foldl_append]
    rw [hmsg,List.length_append,List.length_singleton]
    convert dvd_add hbit (ih.mul_left X) using 1
    cases b
    · simp only [Bool.false_eq_true,if_false]
      ring
    · simp only [if_true,hpow]
      ring

/-- The register holds the remainder of that sum. -/
theorem regPoly_feed_mod (hw : 0 < w) (c : BitVec w) (bs : List Bool) :
    regPoly (feed p c bs) = (X^bs.length*regPoly c + X^w*msgPoly bs) %ₘ generator p := by
  have hsame := modByMonic_eq_of_dvd_sub (generator_monic p) (regPoly_feed p hw c bs)
  rw [← hsame]
  exact ((modByMonic_eq_self_iff (generator_monic p)).mpr
    (generator_degree p ▸ regPoly_degree _)).symm

end CyclicCode
