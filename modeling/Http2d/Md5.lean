import Http2d.Library.BlockHash
import Http2d.Common

/-! The MD5 of `md5.c` on a machine that keeps the low byte of a word first, where `byteSwap` does
nothing. The digest that the incremental calls give is compared with the one that is defined on
the whole message. -/
namespace Http2d

open Bytes BlockHash

namespace Md5

/-- Four words: `buf` of the context, and the registers of a transformation. -/
structure Words where
  a : UInt32
  b : UInt32
  c : UInt32
  d : UInt32
  deriving DecidableEq, Repr

/-- The names of the registers. -/
inductive Reg
  | a | b | c | d
  deriving DecidableEq, Repr

def Words.get (r : Words) : Reg → UInt32
  | .a => r.a
  | .b => r.b
  | .c => r.c
  | .d => r.d

def Words.set (r : Words) (w : Reg) (v : UInt32) : Words :=
  match w with
  | .a => {r with a := v}
  | .b => {r with b := v}
  | .c => {r with c := v}
  | .d => {r with d := v}

/-- `F1`. -/
def F1 (x y z : UInt32) : UInt32 := z ^^^ (x &&& (y ^^^ z))

/-- `F2`. -/
def F2 (x y z : UInt32) : UInt32 := F1 z x y

/-- `F3`. -/
def F3 (x y z : UInt32) : UInt32 := x ^^^ y ^^^ z

/-- `F4`. -/
def F4 (x y z : UInt32) : UInt32 := y ^^^ (x ||| ~~~z)

/-- Word `i` of the block. -/
def word (inp : List UInt8) (i : ℕ) : UInt32 := UInt32.ofNat (leNat (slice inp (4*i) 4))

/-- The arguments of an `MD5STEP`: the function, the registers, the word of the block and the
constant that is added to it, and the width of the rotation. -/
structure Step where
  f : UInt32 → UInt32 → UInt32 → UInt32
  w : Reg
  x : Reg
  y : Reg
  z : Reg
  i : ℕ
  k : UInt32
  s : UInt32

/-- `MD5STEP`. -/
def md5Step (inp : List UInt8) (r : Words) (t : Step) : Words :=
  let w := r.get t.w + (t.f (r.get t.x) (r.get t.y) (r.get t.z) + (word inp t.i + t.k))
  r.set t.w ((w <<< t.s ||| w >>> (32-t.s)) + r.get t.x)

/-- The steps of `MD5Transform`. -/
def steps : List Step := [
    ⟨F1,.a,.b,.c,.d,0,0xd76aa478,7⟩,
    ⟨F1,.d,.a,.b,.c,1,0xe8c7b756,12⟩,
    ⟨F1,.c,.d,.a,.b,2,0x242070db,17⟩,
    ⟨F1,.b,.c,.d,.a,3,0xc1bdceee,22⟩,
    ⟨F1,.a,.b,.c,.d,4,0xf57c0faf,7⟩,
    ⟨F1,.d,.a,.b,.c,5,0x4787c62a,12⟩,
    ⟨F1,.c,.d,.a,.b,6,0xa8304613,17⟩,
    ⟨F1,.b,.c,.d,.a,7,0xfd469501,22⟩,
    ⟨F1,.a,.b,.c,.d,8,0x698098d8,7⟩,
    ⟨F1,.d,.a,.b,.c,9,0x8b44f7af,12⟩,
    ⟨F1,.c,.d,.a,.b,10,0xffff5bb1,17⟩,
    ⟨F1,.b,.c,.d,.a,11,0x895cd7be,22⟩,
    ⟨F1,.a,.b,.c,.d,12,0x6b901122,7⟩,
    ⟨F1,.d,.a,.b,.c,13,0xfd987193,12⟩,
    ⟨F1,.c,.d,.a,.b,14,0xa679438e,17⟩,
    ⟨F1,.b,.c,.d,.a,15,0x49b40821,22⟩,
    ⟨F2,.a,.b,.c,.d,1,0xf61e2562,5⟩,
    ⟨F2,.d,.a,.b,.c,6,0xc040b340,9⟩,
    ⟨F2,.c,.d,.a,.b,11,0x265e5a51,14⟩,
    ⟨F2,.b,.c,.d,.a,0,0xe9b6c7aa,20⟩,
    ⟨F2,.a,.b,.c,.d,5,0xd62f105d,5⟩,
    ⟨F2,.d,.a,.b,.c,10,0x02441453,9⟩,
    ⟨F2,.c,.d,.a,.b,15,0xd8a1e681,14⟩,
    ⟨F2,.b,.c,.d,.a,4,0xe7d3fbc8,20⟩,
    ⟨F2,.a,.b,.c,.d,9,0x21e1cde6,5⟩,
    ⟨F2,.d,.a,.b,.c,14,0xc33707d6,9⟩,
    ⟨F2,.c,.d,.a,.b,3,0xf4d50d87,14⟩,
    ⟨F2,.b,.c,.d,.a,8,0x455a14ed,20⟩,
    ⟨F2,.a,.b,.c,.d,13,0xa9e3e905,5⟩,
    ⟨F2,.d,.a,.b,.c,2,0xfcefa3f8,9⟩,
    ⟨F2,.c,.d,.a,.b,7,0x676f02d9,14⟩,
    ⟨F2,.b,.c,.d,.a,12,0x8d2a4c8a,20⟩,
    ⟨F3,.a,.b,.c,.d,5,0xfffa3942,4⟩,
    ⟨F3,.d,.a,.b,.c,8,0x8771f681,11⟩,
    ⟨F3,.c,.d,.a,.b,11,0x6d9d6122,16⟩,
    ⟨F3,.b,.c,.d,.a,14,0xfde5380c,23⟩,
    ⟨F3,.a,.b,.c,.d,1,0xa4beea44,4⟩,
    ⟨F3,.d,.a,.b,.c,4,0x4bdecfa9,11⟩,
    ⟨F3,.c,.d,.a,.b,7,0xf6bb4b60,16⟩,
    ⟨F3,.b,.c,.d,.a,10,0xbebfbc70,23⟩,
    ⟨F3,.a,.b,.c,.d,13,0x289b7ec6,4⟩,
    ⟨F3,.d,.a,.b,.c,0,0xeaa127fa,11⟩,
    ⟨F3,.c,.d,.a,.b,3,0xd4ef3085,16⟩,
    ⟨F3,.b,.c,.d,.a,6,0x04881d05,23⟩,
    ⟨F3,.a,.b,.c,.d,9,0xd9d4d039,4⟩,
    ⟨F3,.d,.a,.b,.c,12,0xe6db99e5,11⟩,
    ⟨F3,.c,.d,.a,.b,15,0x1fa27cf8,16⟩,
    ⟨F3,.b,.c,.d,.a,2,0xc4ac5665,23⟩,
    ⟨F4,.a,.b,.c,.d,0,0xf4292244,6⟩,
    ⟨F4,.d,.a,.b,.c,7,0x432aff97,10⟩,
    ⟨F4,.c,.d,.a,.b,14,0xab9423a7,15⟩,
    ⟨F4,.b,.c,.d,.a,5,0xfc93a039,21⟩,
    ⟨F4,.a,.b,.c,.d,12,0x655b59c3,6⟩,
    ⟨F4,.d,.a,.b,.c,3,0x8f0ccc92,10⟩,
    ⟨F4,.c,.d,.a,.b,10,0xffeff47d,15⟩,
    ⟨F4,.b,.c,.d,.a,1,0x85845dd1,21⟩,
    ⟨F4,.a,.b,.c,.d,8,0x6fa87e4f,6⟩,
    ⟨F4,.d,.a,.b,.c,15,0xfe2ce6e0,10⟩,
    ⟨F4,.c,.d,.a,.b,6,0xa3014314,15⟩,
    ⟨F4,.b,.c,.d,.a,13,0x4e0811a1,21⟩,
    ⟨F4,.a,.b,.c,.d,4,0xf7537e82,6⟩,
    ⟨F4,.d,.a,.b,.c,11,0xbd3af235,10⟩,
    ⟨F4,.c,.d,.a,.b,2,0x2ad7d2bb,15⟩,
    ⟨F4,.b,.c,.d,.a,9,0xeb86d391,21⟩]

/-- `MD5Transform`. -/
def md5Transform (buf : Words) (inp : List UInt8) : Words :=
  let r := steps.foldl (md5Step inp) buf
  ⟨buf.a+r.a,buf.b+r.b,buf.c+r.c,buf.d+r.d⟩

/-- `struct MD5Context`: the state, the two halves of the byte count and the 64 bytes of `in`. -/
structure MD5Context where
  buf : Words
  bytes0 : UInt32
  bytes1 : UInt32
  inp : List UInt8
  deriving DecidableEq, Repr

/-- The initial words. -/
def initWords : Words := ⟨0x67452301,0xefcdab89,0x98badcfe,0x10325476⟩

/-- `MD5Init`; the block stays what it was. -/
def md5Init (ctx : MD5Context) : MD5Context := ⟨initWords,0,0,ctx.inp⟩

/-- The loop over the 64-byte chunks of an update; the rest of the input comes back with the context. -/
def md5Chunks : ℕ → MD5Context → List UInt8 → Exec (MD5Context × List UInt8)
  | 0, ctx, buf => .ok (ctx,buf)
  | k+1, ctx, buf =>
    if 64 ≤ buf.length then do
      let inp ← poke ctx.inp 0 (buf.take 64)
      md5Chunks k {ctx with buf := md5Transform ctx.buf inp, inp := inp} (buf.drop 64)
    else .ok (ctx,buf)

/-- `MD5Update` with the bytes that the call is given. -/
def md5Update (ctx : MD5Context) (buf : List UInt8) : Exec MD5Context := do
  let len := UInt32.ofNat buf.length
  let bytes0 := ctx.bytes0+len
  let bytes1 := if bytes0 < ctx.bytes0 then ctx.bytes1+1 else ctx.bytes1
  let t := 64-(ctx.bytes0 &&& 0x3f)
  if len < t then
    let inp ← poke ctx.inp (64-t).toNat buf
    .ok ⟨ctx.buf,bytes0,bytes1,inp⟩
  else
    let inp ← poke ctx.inp (64-t).toNat (buf.take t.toNat)
    let (ctx,rest) ← md5Chunks buf.length ⟨md5Transform ctx.buf inp,bytes0,bytes1,inp⟩ (buf.drop t.toNat)
    let inp ← poke ctx.inp 0 rest
    .ok {ctx with inp := inp}

/-- The bytes of the four words. -/
def Words.bytes (r : Words) : List UInt8 :=
  leBytes 4 r.a.toNat ++ leBytes 4 r.b.toNat ++ leBytes 4 r.c.toNat ++ leBytes 4 r.d.toNat

/-- `MD5Final`: the digest and the context. The `memset` of `sizeof(ctx)` bytes clears what a
pointer needs, the first two words. -/
def md5Final (ctx : MD5Context) : Exec (List UInt8 × MD5Context) := do
  let used := (ctx.bytes0 &&& 0x3f).toNat
  let inp ← poke ctx.inp used [0x80]
  let count : ℤ := 56-1-used
  let (buf,inp,p,count) ←
    if count < 0 then do
      let inp ← poke inp (used+1) (List.replicate (count+8).toNat 0)
      pure (md5Transform ctx.buf inp,inp,0,(56 : ℤ))
    else pure (ctx.buf,inp,used+1,count)
  let inp ← poke inp p (List.replicate count.toNat 0)
  let inp ← poke inp (4*14) (leBytes 4 (ctx.bytes0 <<< 3).toNat)
  let inp ← poke inp (4*15) (leBytes 4 (ctx.bytes1 <<< 3 ||| ctx.bytes0 >>> 29).toNat)
  let buf := md5Transform buf inp
  .ok (buf.bytes,⟨{buf with a := 0, b := 0},ctx.bytes0,ctx.bytes1,inp⟩)

/-! The function of the whole message. -/

/-- The round functions in their plain form. -/
def roundF (i : ℕ) (x y z : UInt32) : UInt32 :=
  match i/16 with
  | 0 => (x &&& y) ||| (~~~x &&& z)
  | 1 => (x &&& z) ||| (y &&& ~~~z)
  | 2 => x ^^^ y ^^^ z
  | _ => y ^^^ (x ||| ~~~z)

/-- The word of the block that step `i` adds. -/
def roundWord (i : ℕ) : ℕ :=
  match i/16 with
  | 0 => i % 16
  | 1 => (5*i+1) % 16
  | 2 => (3*i+5) % 16
  | _ => 7*i % 16

/-- The width of the rotation in step `i`. -/
def roundShift (i : ℕ) : UInt32 :=
  let row : List UInt32 :=
    match i/16 with
    | 0 => [7,12,17,22]
    | 1 => [5,9,14,20]
    | 2 => [4,11,16,23]
    | _ => [6,10,15,21]
  row.getD (i % 4) 0

/-- The constants in the order of the steps. -/
def roundConst : List UInt32 := [
    0xd76aa478,0xe8c7b756,0x242070db,0xc1bdceee,0xf57c0faf,0x4787c62a,0xa8304613,0xfd469501,
    0x698098d8,0x8b44f7af,0xffff5bb1,0x895cd7be,0x6b901122,0xfd987193,0xa679438e,0x49b40821,
    0xf61e2562,0xc040b340,0x265e5a51,0xe9b6c7aa,0xd62f105d,0x02441453,0xd8a1e681,0xe7d3fbc8,
    0x21e1cde6,0xc33707d6,0xf4d50d87,0x455a14ed,0xa9e3e905,0xfcefa3f8,0x676f02d9,0x8d2a4c8a,
    0xfffa3942,0x8771f681,0x6d9d6122,0xfde5380c,0xa4beea44,0x4bdecfa9,0xf6bb4b60,0xbebfbc70,
    0x289b7ec6,0xeaa127fa,0xd4ef3085,0x04881d05,0xd9d4d039,0xe6db99e5,0x1fa27cf8,0xc4ac5665,
    0xf4292244,0x432aff97,0xab9423a7,0xfc93a039,0x655b59c3,0x8f0ccc92,0xffeff47d,0x85845dd1,
    0x6fa87e4f,0xfe2ce6e0,0xa3014314,0x4e0811a1,0xf7537e82,0xbd3af235,0x2ad7d2bb,0xeb86d391]

def rotateLeft (v s : UInt32) : UInt32 := v <<< s ||| v >>> (32-s)

/-- A step moves each register to the place of the next one. -/
def round (inp : List UInt8) (r : Words) (i : ℕ) : Words :=
  ⟨r.d,r.b+rotateLeft (r.a+roundF i r.b r.c r.d+word inp (roundWord i)+roundConst.getD i 0)
    (roundShift i),r.b,r.c⟩

/-- What a block does to the state. -/
def compress (s : Words) (inp : List UInt8) : Words :=
  let r := (List.range 64).foldl (round inp) s
  ⟨s.a+r.a,s.b+r.b,s.c+r.c,s.d+r.d⟩

/-- The digest of a message: its blocks and their padding with the length in bits. -/
def md5 (m : List UInt8) : List UInt8 :=
  (absorb compress 64 initWords (pad 64 0x80 (leBytes 8 (8*m.length)) m)).1.bytes

/-! The unrolled steps are the rounds. -/

theorem F1_eq (x y z : UInt32) : F1 x y z = (x &&& y) ||| (~~~x &&& z) := by
  apply UInt32.toBitVec_inj.mp
  ext i hi
  simp only [F1,UInt32.toBitVec_xor,UInt32.toBitVec_and,UInt32.toBitVec_or,UInt32.toBitVec_not,
    BitVec.getElem_xor,BitVec.getElem_and,BitVec.getElem_or,BitVec.getElem_not]
  cases x.toBitVec[i] <;> cases y.toBitVec[i] <;> cases z.toBitVec[i] <;> rfl

/-- The function that the code uses in step `i`. -/
def stepF (i : ℕ) (x y z : UInt32) : UInt32 :=
  match i/16 with
  | 0 => F1 x y z
  | 1 => F2 x y z
  | 2 => F3 x y z
  | _ => F4 x y z

theorem stepF_eq (i : ℕ) (x y z : UInt32) : stepF i x y z = roundF i x y z := by
  unfold stepF roundF
  split
  · exact F1_eq x y z
  · rw [F2,F1_eq,UInt32.and_comm z x,UInt32.and_comm (~~~z) y]
  · rfl
  · rfl

/-- The value that step `i` gives to a register. -/
def stepValue (inp : List UInt8) (i : ℕ) (w x y z : UInt32) : UInt32 :=
  x+rotateLeft (w+roundF i x y z+word inp (roundWord i)+roundConst.getD i 0) (roundShift i)

/-- Step `i` on four given registers. -/
def stepOn (i : ℕ) (w x y z : Reg) : Step :=
  ⟨stepF i,w,x,y,z,roundWord i,roundConst.getD i 0,roundShift i⟩

theorem md5Step_stepOn (inp : List UInt8) (r : Words) (i : ℕ) (w x y z : Reg) :
    md5Step inp r (stepOn i w x y z) =
      r.set w (stepValue inp i (r.get w) (r.get x) (r.get y) (r.get z)) := by
  rw [md5Step,stepOn,stepValue,rotateLeft]
  simp only [stepF_eq]
  rw [UInt32.add_comm _ (r.get x),← UInt32.add_assoc,← UInt32.add_assoc]

/-- Four steps name each register once in each place. -/
def quad (i : ℕ) : List Step :=
  [stepOn i .a .b .c .d,stepOn (i+1) .d .a .b .c,stepOn (i+2) .c .d .a .b,stepOn (i+3) .b .c .d .a]

theorem steps_quads : steps = (List.range 16).flatMap fun q => quad (4*q) := rfl

theorem range_quads :
    List.range 64 = (List.range 16).flatMap fun q => [4*q,4*q+1,4*q+2,4*q+3] := rfl

theorem quad_rounds (inp : List UInt8) (r : Words) (i : ℕ) :
    (quad i).foldl (md5Step inp) r = [i,i+1,i+2,i+3].foldl (round inp) r := by
  simp only [quad,List.foldl_cons,List.foldl_nil,md5Step_stepOn,Words.get,Words.set,round,stepValue]

/-- `MD5Transform` is the block function. -/
theorem md5Transform_eq : md5Transform = compress := by
  funext buf inp
  have hfold : steps.foldl (md5Step inp) buf = (List.range 64).foldl (round inp) buf := by
    rw [steps_quads,range_quads,List.foldl_flatMap,List.foldl_flatMap]
    simp only [quad_rounds]
  rw [md5Transform,compress,hfold]

/-! The context of a message that comes in pieces. -/

/-- The context has seen `m`: the count is its length, and the words and the block hold it. -/
structure Represents (ctx : MD5Context) (m : List UInt8) : Prop where
  holds : Holds md5Transform 64 initWords m ctx.buf ctx.inp
  count_eq : ctx.bytes0.toNat+2^32*ctx.bytes1.toNat = m.length % 2^64

variable {ctx : MD5Context} {m : List UInt8}

theorem md5Init_represents (h : ctx.inp.length = 64) : Represents (md5Init ctx) [] :=
  ⟨Holds.start h,rfl⟩

theorem used_eq (h : Represents ctx m) : (ctx.bytes0 &&& 0x3f).toNat = m.length % 64 := by
  have hcount := h.count_eq
  have h63 : (0x3f : UInt32).toNat = 2^6-1 := rfl
  rw [UInt32.toNat_and,h63,Nat.and_two_pow_sub_one_eq_mod]
  omega

/-- The carry into the high half keeps the count. -/
theorem count_add (h : Represents ctx m) {n : ℕ} (hn : n < 2^32) :
    (ctx.bytes0+UInt32.ofNat n).toNat+2^32*(if ctx.bytes0+UInt32.ofNat n < ctx.bytes0 then
      ctx.bytes1+1 else ctx.bytes1).toNat = (m.length+n) % 2^64 := by
  have hcount := h.count_eq
  have h0 := ctx.bytes0.toNat_lt
  have h1 := ctx.bytes1.toNat_lt
  have hlt : ctx.bytes0+UInt32.ofNat n < ctx.bytes0 ↔ 2^32 ≤ ctx.bytes0.toNat+n := by
    rw [UInt32.lt_iff_toNat_lt,UInt32.toNat_add,UInt32.toNat_ofNat_of_lt' hn]
    omega
  simp only [hlt,UInt32.toNat_add,UInt32.toNat_ofNat_of_lt' hn]
  split_ifs
  · rw [UInt32.toNat_add,UInt32.toNat_one]
    omega
  · omega

/-- The loop reads the chunks that there are. -/
theorem md5Chunks_spec {k : ℕ} (ctx : MD5Context) (buf : List UInt8)
    (h : Holds md5Transform 64 initWords m ctx.buf ctx.inp) (hm : m.length % 64 = 0)
    (hk : buf.length ≤ k) : ∃ ctx' rest used, md5Chunks k ctx buf = .ok (ctx',rest) ∧
      buf = used ++ rest ∧ rest.length < 64 ∧ (m ++ used).length % 64 = 0 ∧
      Holds md5Transform 64 initWords (m ++ used) ctx'.buf ctx'.inp ∧
      ctx'.bytes0 = ctx.bytes0 ∧ ctx'.bytes1 = ctx.bytes1 := by
  induction k generalizing ctx m buf with
  | zero =>
    exact ⟨ctx,buf,[],rfl,rfl,by omega,by simpa using hm,by simpa using h,rfl,rfl⟩
  | succ k ih =>
    rw [md5Chunks]
    split_ifs with hge
    · have htake : (buf.take 64).length = 64 := by simpa using hge
      have hfit : 0+(buf.take 64).length ≤ ctx.inp.length := by rw [htake,h.length_eq]
      have hlen : (overwrite ctx.inp 0 (buf.take 64)).length = 64 :=
        (overwrite_length hfit).trans h.length_eq
      have hover : overwrite ctx.inp 0 (buf.take 64) = buf.take 64 := by
        rw [overwrite,htake,Nat.zero_add,← h.length_eq,List.drop_length,List.take_zero,
          List.nil_append,List.append_nil]
      rw [poke_ok hfit,ok_bind,hover]
      have hwhole := h.whole (c:=buf.take 64) hm htake (by decide) htake
      obtain ⟨ctx',rest,used,hrun,hcut,hlt,halign,hholds,hb0,hb1⟩ :=
        ih {ctx with buf := md5Transform ctx.buf (buf.take 64), inp := buf.take 64}
          (buf.drop 64) hwhole (by rw [List.length_append]; omega)
          (by rw [List.length_drop]; omega)
      refine ⟨ctx',rest,buf.take 64 ++ used,hrun,?_,hlt,?_,?_,hb0,hb1⟩
      · rw [List.append_assoc,← hcut,List.take_append_drop]
      · rwa [← List.append_assoc]
      · rwa [← List.append_assoc]
    · exact ⟨ctx,buf,[],rfl,rfl,by omega,by simpa using hm,by simpa using h,rfl,rfl⟩

/-- An update appends its bytes to the message. -/
theorem md5Update_spec (h : Represents ctx m) (buf : List UInt8) (hlen : buf.length < 2^32) :
    ∃ ctx', md5Update ctx buf = .ok ctx' ∧ Represents ctx' (m ++ buf) := by
  have hused := used_eq h
  have hmod : m.length % 64 < 64 := Nat.mod_lt _ (by decide)
  have hcount := count_add h hlen
  have ht : (64-(ctx.bytes0 &&& 0x3f)).toNat = 64-m.length % 64 := by
    rw [UInt32.toNat_sub_of_le _ _ (by rw [UInt32.le_iff_toNat_le,hused]; exact hmod.le),hused]
    rfl
  have hoff : (64-(64-(ctx.bytes0 &&& 0x3f))).toNat = m.length % 64 := by
    rw [UInt32.toNat_sub_of_le _ _ (by rw [UInt32.le_iff_toNat_le,ht]; exact Nat.sub_le ..),ht]
    have h64 : (64 : UInt32).toNat = 64 := rfl
    omega
  have hlt : UInt32.ofNat buf.length < 64-(ctx.bytes0 &&& 0x3f) ↔
      m.length % 64+buf.length < 64 := by
    rw [UInt32.lt_iff_toNat_lt,ht,UInt32.toNat_ofNat_of_lt' hlen]
    omega
  simp only [md5Update,hlt,hoff,ht]
  by_cases hshort : m.length % 64+buf.length < 64
  · have hfit : m.length % 64+buf.length ≤ ctx.inp.length := by rw [h.holds.length_eq]; omega
    rw [if_pos hshort,poke_ok hfit,ok_bind]
    exact ⟨_,rfl,h.holds.more hshort,by rw [List.length_append]; exact hcount⟩
  · have htake : (buf.take (64-m.length % 64)).length = 64-m.length % 64 := by
      rw [List.length_take]; omega
    have hfit : m.length % 64+(buf.take (64-m.length % 64)).length ≤ ctx.inp.length := by
      rw [htake,h.holds.length_eq]; omega
    have hfill := h.holds.fill (x:=buf.take (64-m.length % 64)) (by rw [htake]; omega) (by decide)
      ((overwrite_length hfit).trans h.holds.length_eq)
    rw [if_neg hshort,poke_ok hfit,ok_bind]
    obtain ⟨ctx',rest,used,hrun,hcut,hrest,halign,hholds,hb0,hb1⟩ :=
      md5Chunks_spec (k:=buf.length)
        ⟨md5Transform ctx.buf (overwrite ctx.inp (m.length % 64) (buf.take (64-m.length % 64))),
          ctx.bytes0+UInt32.ofNat buf.length,if ctx.bytes0+UInt32.ofNat buf.length < ctx.bytes0 then
            ctx.bytes1+1 else ctx.bytes1,
          overwrite ctx.inp (m.length % 64) (buf.take (64-m.length % 64))⟩
        (buf.drop (64-m.length % 64)) hfill
        (by rw [List.length_append,htake]; omega) (by simp)
    have hall : m ++ buf.take (64-m.length % 64) ++ used ++ rest = m ++ buf := by
      rw [List.append_assoc,List.append_assoc,← hcut,List.take_append_drop]
    have hmore := hholds.more (x:=rest) (by rw [halign]; omega)
    rw [hall,halign] at hmore
    have hrest' : 0+rest.length ≤ ctx'.inp.length := by rw [hholds.length_eq]; omega
    rw [hrun,ok_bind]
    dsimp only
    rw [poke_ok hrest',ok_bind]
    exact ⟨_,rfl,hmore,by rw [hb0,hb1,List.length_append]; exact hcount⟩

/-- The updates of a run append their pieces one after the other. -/
theorem md5Updates_spec (h : Represents ctx m) {bufs : List (List UInt8)}
    (hlen : ∀ buf ∈ bufs, buf.length < 2^32) :
    ∃ ctx', bufs.foldlM md5Update ctx = .ok ctx' ∧ Represents ctx' (m ++ bufs.flatten) := by
  induction bufs generalizing ctx m with
  | nil => exact ⟨ctx,rfl,by simpa using h⟩
  | cons buf bufs ih =>
    obtain ⟨ctx₁,hrun,h₁⟩ := md5Update_spec h buf (hlen buf (List.mem_cons_self ..))
    obtain ⟨ctx₂,hruns,h₂⟩ := ih h₁ fun b hb => hlen b (List.mem_cons_of_mem _ hb)
    refine ⟨ctx₂,?_,by rwa [List.flatten_cons,← List.append_assoc]⟩
    rw [List.foldlM_cons,hrun]
    exact hruns

/-- The two words of the length are the length in bits. -/
theorem length_words (h : Represents ctx m) :
    leBytes 4 (ctx.bytes0 <<< 3).toNat ++ leBytes 4 (ctx.bytes1 <<< 3 ||| ctx.bytes0 >>> 29).toNat =
      leBytes 8 (8*m.length) := by
  have hcount := h.count_eq
  have h0 := ctx.bytes0.toNat_lt
  have h1 := ctx.bytes1.toNat_lt
  have hlow : (ctx.bytes0 <<< 3).toNat = ctx.bytes0.toNat*8 % 2^32 := by
    rw [UInt32.toNat_shiftLeft,Nat.shiftLeft_eq]
    rfl
  have hhigh : (ctx.bytes1 <<< 3 ||| ctx.bytes0 >>> 29).toNat =
      ctx.bytes1.toNat*8 % 2^32+ctx.bytes0.toNat/2^29 := by
    have hsmall : ctx.bytes0.toNat/2^29 < 2^3 := by omega
    have hshift : ctx.bytes1.toNat*8 % 2^32 = ctx.bytes1.toNat % 2^29*2^3 := by omega
    rw [UInt32.toNat_or,UInt32.toNat_shiftLeft,UInt32.toNat_shiftRight,Nat.shiftLeft_eq,
      Nat.shiftRight_eq_div_pow]
    change ctx.bytes1.toNat*8 % 2^32 ||| ctx.bytes0.toNat/2^29 = _
    rw [hshift,← Nat.shiftLeft_eq,shiftLeft_or_eq hsmall,Nat.shiftLeft_eq]
  rw [show 8 = 4+4 from rfl,leBytes_add,hlow,hhigh]
  congr 1
  · exact leBytes_eq (by omega)
  · exact leBytes_eq (by omega)

/-- The final call gives the digest of the message. -/
theorem md5Final_spec (h : Represents ctx m) : ∃ ctx', md5Final ctx = .ok (md5 m,ctx') := by
  have hused := used_eq h
  have hmod : m.length % 64 < 64 := Nat.mod_lt _ (by decide)
  have hlen := h.holds.length_eq
  have hwords := length_words h
  have hstate := h.holds.state_eq
  have htake := h.holds.rest_eq
  have hrest : (absorb md5Transform 64 initWords m).2.length = m.length % 64 := absorb_rest_length ..
  rw [md5,← md5Transform_eq]
  generalize hr : (absorb md5Transform 64 initWords m).2 = rest at hrest htake
  obtain ⟨inp₁,hp₁,hl₁,ht₁⟩ := poke_next (o:=ctx.inp) (x:=rest) (t:=[0x80])
    (by rw [hrest,htake]) (by rw [hrest,hlen]; exact hmod)
  have hx₁ : (rest ++ [0x80]).length = m.length % 64+1 := by simp [hrest]
  rw [hrest] at hp₁
  simp only [md5Final,hused]
  have hlo : (leBytes 4 (ctx.bytes0 <<< 3).toNat).length = 4 := leBytes_length ..
  have hhi : (leBytes 4 (ctx.bytes1 <<< 3 ||| ctx.bytes0 >>> 29).toNat).length = 4 :=
    leBytes_length ..
  generalize leBytes 4 (ctx.bytes0 <<< 3).toNat = lo at hlo hwords ⊢
  generalize leBytes 4 (ctx.bytes1 <<< 3 ||| ctx.bytes0 >>> 29).toNat = hi at hhi hwords ⊢
  rw [hp₁,ok_bind]
  by_cases hroom : m.length % 64 < 56
  · have hpad := absorb_pad_one md5Transform (n:=64) (m:=m) 0x80 (l:=leBytes 8 (8*m.length))
      (by rw [leBytes_length]; omega) initWords
    obtain ⟨inp₂,hp₂,hl₂,ht₂⟩ := poke_next (x:=rest ++ [0x80])
      (t:=List.replicate (55-m.length % 64) 0) ht₁ (by rw [hx₁,List.length_replicate]; omega)
    have hx₂ : (rest ++ [0x80] ++ List.replicate (55-m.length % 64) 0).length = 56 := by
      rw [List.length_append,hx₁,List.length_replicate]
      omega
    rw [hx₂] at ht₂
    obtain ⟨inp₃,hp₃,hp₄⟩ := poke_last (j:=4*15) (a:=lo) (b:=hi) hx₂
      (by rw [List.length_append,hx₂,hlo])
      (by rw [List.length_append,List.length_append,hx₂,hlo,hhi,hl₂,hl₁,hlen]) ht₂
    have hcount : ((56 : ℤ)-1-(m.length % 64 : ℕ)).toNat = 55-m.length % 64 := by omega
    rw [hx₁] at hp₂
    rw [if_neg (by omega),pure_bind]
    dsimp only
    rw [hcount,hp₂,ok_bind,hp₃,ok_bind,hp₄,ok_bind,hpad,hr,hwords,leBytes_length,hstate]
    exact ⟨_,by simp only [List.append_assoc,List.cons_append,List.nil_append]; rfl⟩
  · have hpad := absorb_pad_two md5Transform (n:=64) (m:=m) 0x80 (l:=leBytes 8 (8*m.length))
      (by rw [leBytes_length]; omega) (by rw [leBytes_length]; decide) initWords
    obtain ⟨inp₂,hp₂,hl₂,ht₂⟩ := poke_next (x:=rest ++ [0x80])
      (t:=List.replicate (63-m.length % 64) 0) ht₁ (by rw [hx₁,List.length_replicate]; omega)
    have hx₂ : (rest ++ [0x80] ++ List.replicate (63-m.length % 64) 0).length = inp₂.length := by
      rw [List.length_append,hx₁,List.length_replicate]
      omega
    rw [hx₂,List.take_length] at ht₂
    obtain ⟨inp₃,hp₃,hl₃,ht₃⟩ := poke_next (o:=inp₂) (x:=[]) (t:=List.replicate 56 0) rfl
      (by rw [List.length_replicate,List.length_nil]; omega)
    rw [List.nil_append,List.length_replicate] at ht₃
    obtain ⟨inp₄,hp₄,hp₅⟩ := poke_last (j:=4*15) (a:=lo) (b:=hi) (List.length_replicate ..)
      (by rw [List.length_append,List.length_replicate,hlo])
      (by rw [List.length_append,List.length_append,List.length_replicate,hlo,hhi]; omega) ht₃
    have hcount : ((56 : ℤ)-1-(m.length % 64 : ℕ)+8).toNat = 63-m.length % 64 := by omega
    rw [hx₁] at hp₂
    rw [List.length_nil] at hp₃
    rw [if_pos (by omega),hcount,hp₂,ok_bind,pure_bind]
    dsimp only
    have h56 : (56 : ℤ).toNat = 56 := rfl
    rw [h56,hp₃,ok_bind,hp₄,ok_bind,hp₅,ok_bind,hpad,hr,hwords,leBytes_length,hstate,ht₂]
    exact ⟨_,by simp only [List.append_assoc,List.cons_append,List.nil_append]; rfl⟩

/-- However a message is cut into updates, and whatever the block held before, the calls end with
the digest of the message. -/
theorem md5_pieces (ctx : MD5Context) (h : ctx.inp.length = 64) {bufs : List (List UInt8)}
    (hlen : ∀ buf ∈ bufs, buf.length < 2^32) :
    ∃ ctx₁ ctx₂, bufs.foldlM md5Update (md5Init ctx) = .ok ctx₁ ∧
      md5Final ctx₁ = .ok (md5 bufs.flatten,ctx₂) := by
  obtain ⟨ctx₁,hrun,h₁⟩ := md5Updates_spec (md5Init_represents h) hlen
  obtain ⟨ctx₂,hfinal⟩ := md5Final_spec h₁
  exact ⟨ctx₁,ctx₂,hrun,hfinal⟩

theorem md5_pieces_three :
    ∃ ctx₁ ctx₂, [[97],[],[98,99]].foldlM md5Update
        (md5Init ⟨initWords,5,0,List.replicate 64 7⟩) = .ok ctx₁ ∧
      md5Final ctx₁ = .ok (md5 [[97],[],[98,99]].flatten,ctx₂) :=
  md5_pieces ⟨initWords,5,0,List.replicate 64 7⟩ (by decide) (by decide)

/-- The digest of the three letters `abc`. -/
example : md5 [97,98,99] =
    [0x90,0x01,0x50,0x98,0x3c,0xd2,0x4f,0xb0,0xd6,0x96,0x3f,0x7d,0x28,0xe1,0x7f,0x72] := by
  decide +kernel

end Md5
end Http2d
