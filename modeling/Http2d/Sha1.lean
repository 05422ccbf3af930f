import Http2d.Library.BlockHash
import Http2d.Common

/-! The SHA-1 of `sha1.c` where `BYTE_ORDER` is 1234 and `ULONG` has 64 bits, so that a word is a
64-bit value that the code keeps below `2^32`. The transformation with the rotation unravelled is
compared with the plain loop that the file also has, and both with the function on 32-bit words. -/
namespace Http2d

open Bytes BlockHash

namespace Sha1

/-- `digest` of the context, and the registers `A` to `E`. -/
structure Five where
  a : UInt64
  b : UInt64
  c : UInt64
  d : UInt64
  e : UInt64
  deriving DecidableEq, Repr

/-- `SHA_INFO`. -/
structure ShaInfo where
  digest : Five
  countLo : UInt64
  countHi : UInt64
  data : List UInt8
  localLen : ℤ
  deriving DecidableEq, Repr

/-- `SHA_BLOCKSIZE`. -/
def shaBlocksize : ℕ := 64

/-- The number `n` of `f##n` and `CONST##n`. -/
inductive Round
  | one | two | three | four
  deriving DecidableEq, Repr

/-- `f1` to `f4`. -/
def f (n : Round) (x y z : UInt64) : UInt64 :=
  match n with
  | .one => (x &&& y) ||| (~~~x &&& z)
  | .two => x ^^^ y ^^^ z
  | .three => (x &&& y) ||| (x &&& z) ||| (y &&& z)
  | .four => x ^^^ y ^^^ z

/-- `CONST1` to `CONST4`. -/
def const : Round → UInt64
  | .one => 0x5a827999
  | .two => 0x6ed9eba1
  | .three => 0x8f1bbcdc
  | .four => 0xca62c1d6

/-- `T32`. -/
def t32 (x : UInt64) : UInt64 := x &&& 0xffffffff

/-- `R32`. -/
def r32 (x n : UInt64) : UInt64 := t32 ((x <<< n) ||| (x >>> (32-n)))

/-- The registers of a transformation. -/
inductive Reg
  | t | a | b | c | d | e
  deriving DecidableEq, Repr

structure Regs where
  t : UInt64
  a : UInt64
  b : UInt64
  c : UInt64
  d : UInt64
  e : UInt64
  deriving DecidableEq, Repr

def Regs.get (r : Regs) : Reg → UInt64
  | .t => r.t
  | .a => r.a
  | .b => r.b
  | .c => r.c
  | .d => r.d
  | .e => r.e

def Regs.set (r : Regs) (x : Reg) (v : UInt64) : Regs :=
  match x with
  | .t => {r with t := v}
  | .a => {r with a := v}
  | .b => {r with b := v}
  | .c => {r with c := v}
  | .d => {r with d := v}
  | .e => {r with e := v}

/-- `FG`, for when the overall rotation is not unraveled. -/
def fG (n : Round) (r : Regs) (w : UInt64) : Regs :=
  let t := t32 (r32 r.a 5+f n r.b r.c r.d+r.e+w+const n)
  {t := t, e := r.d, d := r.c, c := r32 r.b 30, b := r.a, a := t}

/-- A step for when it is: `dst` becomes the new value and `x` is rotated. -/
def fStep (dst v x y z u : Reg) (n : Round) (r : Regs) (w : UInt64) : Regs :=
  let r := r.set dst (t32 (r32 (r.get v) 5+f n (r.get x) (r.get y) (r.get z)+r.get u+w+const n))
  r.set x (r32 (r.get x) 30)

/-- `FA`. -/
def fA : Round → Regs → UInt64 → Regs := fStep .t .a .b .c .d .e

/-- `FB`. -/
def fB : Round → Regs → UInt64 → Regs := fStep .e .t .a .b .c .d

/-- `FC`. -/
def fC : Round → Regs → UInt64 → Regs := fStep .d .e .t .a .b .c

/-- `FD`. -/
def fD : Round → Regs → UInt64 → Regs := fStep .c .d .e .t .a .b

/-- `FE`. -/
def fE : Round → Regs → UInt64 → Regs := fStep .b .c .d .e .t .a

/-- `FT`. -/
def fT : Round → Regs → UInt64 → Regs := fStep .a .b .c .d .e .t

/-- Word `i` of the block with its bytes reversed. Eight bytes are read, the last of them from the
`local` that stands behind `data`. -/
def swapped (mem : List UInt8) (i : ℕ) : UInt64 :=
  let t : UInt64 := UInt64.ofNat (leNat (slice mem (4*i) 8))
  ((t <<< (24 : UInt64)) &&& 0xff000000) ||| ((t <<< (8 : UInt64)) &&& 0x00ff0000) |||
    ((t >>> (8 : UInt64)) &&& 0x0000ff00) ||| ((t >>> (24 : UInt64)) &&& 0x000000ff)

/-- The words of `W`. -/
def schedule (first : List UInt64) : List UInt64 :=
  (List.range 64).foldl (fun w _ =>
    let i := w.length
    w ++ [r32 (w.getD (i-3) 0 ^^^ w.getD (i-8) 0 ^^^ w.getD (i-14) 0 ^^^ w.getD (i-16) 0) 1]) first

/-- The steps under `UNRAVEL`. -/
def unraveled : List (Regs → UInt64 → Regs) := [
    fA .one,fB .one,fC .one,fD .one,fE .one,fT .one,fA .one,fB .one,fC .one,fD .one,
    fE .one,fT .one,fA .one,fB .one,fC .one,fD .one,fE .one,fT .one,fA .one,fB .one,
    fC .two,fD .two,fE .two,fT .two,fA .two,fB .two,fC .two,fD .two,fE .two,fT .two,
    fA .two,fB .two,fC .two,fD .two,fE .two,fT .two,fA .two,fB .two,fC .two,fD .two,
    fE .three,fT .three,fA .three,fB .three,fC .three,fD .three,fE .three,fT .three,fA .three,fB .three,
    fC .three,fD .three,fE .three,fT .three,fA .three,fB .three,fC .three,fD .three,fE .three,fT .three,
    fA .four,fB .four,fC .four,fD .four,fE .four,fT .four,fA .four,fB .four,fC .four,fD .four,
    fE .four,fT .four,fA .four,fB .four,fC .four,fD .four,fE .four,fT .four,fA .four,fB .four]

/-- The loops of the code without `UNRAVEL`. -/
def looped : List (Regs → UInt64 → Regs) :=
  List.replicate 20 (fG .one) ++ List.replicate 20 (fG .two) ++ List.replicate 20 (fG .three) ++
    List.replicate 20 (fG .four)

def runSteps (rows : List (Regs → UInt64 → Regs)) (w : List UInt64) (r : Regs) : Regs :=
  (rows.zip w).foldl (fun r p => p.1 r p.2) r

/-- The words of the block of a context. -/
def words (info : ShaInfo) : List UInt64 :=
  schedule ((List.range 16).map (swapped (info.data ++ leBytes 4 (cuint info.localLen))))

/-- The registers at the start; `T` is what the loop over the block left there. -/
def start (digest : Five) (t : UInt64) : Regs := ⟨t,digest.a,digest.b,digest.c,digest.d,digest.e⟩

/-- `T` after the loop over the block. -/
def lastT (info : ShaInfo) : UInt64 :=
  UInt64.ofNat (leNat (slice (info.data ++ leBytes 4 (cuint info.localLen)) 60 8))

/-- `sha_transform` as it is compiled. -/
def shaTransform (info : ShaInfo) : ShaInfo :=
  let h := info.digest
  let r := runSteps unraveled (words info) (start h (lastT info))
  {info with digest := ⟨t32 (h.a+r.e),t32 (h.b+r.t),t32 (h.c+r.a),t32 (h.d+r.b),t32 (h.e+r.c)⟩}

/-- `sha_transform` without `UNRAVEL`. -/
def shaTransformLoop (info : ShaInfo) : ShaInfo :=
  let h := info.digest
  let r := runSteps looped (words info) (start h (lastT info))
  {info with digest := ⟨t32 (h.a+r.a),t32 (h.b+r.b),t32 (h.c+r.c),t32 (h.d+r.d),t32 (h.e+r.e)⟩}

/-- `sha_init`; the block stays what it was. -/
def shaInit (info : ShaInfo) : ShaInfo :=
  ⟨⟨0x67452301,0xefcdab89,0x98badcfe,0x10325476,0xc3d2e1f0⟩,0,0,info.data,0⟩

/-- The loop over the blocks of an update; the first argument bounds the turns. -/
def shaBlocks : ℕ → ShaInfo → List UInt8 → ℤ → Exec (ShaInfo × List UInt8 × ℤ)
  | 0, info, buffer, count => .ok (info,buffer,count)
  | k+1, info, buffer, count =>
    if shaBlocksize ≤ count then do
      let txt ← peek buffer 0 shaBlocksize
      let data ← poke info.data 0 txt
      shaBlocks k (shaTransform {info with data := data}) (buffer.drop shaBlocksize) (count-shaBlocksize)
    else .ok (info,buffer,count)

/-- The end of an update: what is left waits in the block. -/
def shaTail (info : ShaInfo) (buffer : List UInt8) (count : ℤ) : Exec ShaInfo := do
  let (info,buffer,count) ← shaBlocks buffer.length info buffer count
  let txt ← peek buffer 0 (sizeT count)
  let data ← poke info.data 0 txt
  .ok {info with data := data, localLen := count}

/-- The count of bits after an update. -/
def addCount (info : ShaInfo) (count : ℤ) : ShaInfo :=
  let clo := t32 (info.countLo+(UInt64.ofInt count <<< 3))
  let hi := if clo < info.countLo then info.countHi+1 else info.countHi
  {info with countLo := clo, countHi := hi+(UInt64.ofInt count >>> 29)}

/-- `sha_update`; `buffer` is the memory from the pointer on. -/
def shaUpdate (info : ShaInfo) (buffer : List UInt8) (count : ℤ) : Exec ShaInfo :=
  let info := addCount info count
  if info.localLen ≠ 0 then do
    let i : ℤ := min (shaBlocksize-info.localLen) count
    let txt ← peek buffer 0 (sizeT i)
    let data ← poke info.data info.localLen.toNat txt
    let info : ShaInfo := {info with data := data, localLen := info.localLen+i}
    if info.localLen = shaBlocksize then shaTail (shaTransform info) (buffer.drop i.toNat) (count-i)
    else .ok info
  else shaTail info buffer count

/-- The bytes of a word, highest first. -/
def wordBytes (v : UInt64) : List UInt8 :=
  [((v >>> 24) &&& 0xff).toUInt8,((v >>> 16) &&& 0xff).toUInt8,((v >>> 8) &&& 0xff).toUInt8,
    (v &&& 0xff).toUInt8]

/-- `sha_transform_and_copy`. -/
def shaTransformAndCopy (info : ShaInfo) : List UInt8 × ShaInfo :=
  let info := shaTransform info
  let h := info.digest
  (wordBytes h.a ++ wordBytes h.b ++ wordBytes h.c ++ wordBytes h.d ++ wordBytes h.e,info)

/-- `sha_final`. -/
def shaFinal (info : ShaInfo) : Exec (List UInt8 × ShaInfo) := do
  let used := ((info.countLo >>> 3) &&& 0x3f).toNat
  let data ← poke info.data used [0x80]
  let count := used+1
  let info ←
    if shaBlocksize-8 < count then do
      let data ← poke data count (List.replicate (shaBlocksize-count) 0)
      let info := shaTransform {info with data := data}
      let data ← poke info.data 0 (List.replicate (shaBlocksize-8) 0)
      pure {info with data := data}
    else do
      let data ← poke data count (List.replicate (shaBlocksize-8-count) 0)
      pure {info with data := data}
  let data ← poke info.data 56 (wordBytes info.countHi)
  let data ← poke data 60 (wordBytes info.countLo)
  .ok (shaTransformAndCopy {info with data := data})

/-! The function of the whole message on 32-bit words. -/

structure Words where
  a : UInt32
  b : UInt32
  c : UInt32
  d : UInt32
  e : UInt32
  deriving DecidableEq, Repr

def rotateLeft (v n : UInt32) : UInt32 := v <<< n ||| v >>> (32-n)

/-- The function of a round: choice, parity, majority and parity again. -/
def roundF (n : Round) (x y z : UInt32) : UInt32 :=
  match n with
  | .one => (x &&& y) ^^^ (~~~x &&& z)
  | .two => x ^^^ y ^^^ z
  | .three => (x &&& y) ^^^ (x &&& z) ^^^ (y &&& z)
  | .four => x ^^^ y ^^^ z

def roundConst : Round → UInt32
  | .one => 0x5a827999
  | .two => 0x6ed9eba1
  | .three => 0x8f1bbcdc
  | .four => 0xca62c1d6

/-- The round that step `i` belongs to. -/
def roundOf (i : ℕ) : Round :=
  match i/20 with
  | 0 => .one
  | 1 => .two
  | 2 => .three
  | _ => .four

def round (s : Words) (n : Round) (w : UInt32) : Words :=
  ⟨rotateLeft s.a 5+roundF n s.b s.c s.d+s.e+w+roundConst n,s.a,rotateLeft s.b 30,s.c,s.d⟩

/-- The words that a block is expanded to. -/
def expand (blk : List UInt8) : List UInt32 :=
  (List.range 64).foldl (fun w _ =>
    let i := w.length
    w ++ [rotateLeft (w.getD (i-3) 0 ^^^ w.getD (i-8) 0 ^^^ w.getD (i-14) 0 ^^^ w.getD (i-16) 0) 1])
    ((List.range 16).map fun i => UInt32.ofNat (beNat (slice blk (4*i) 4)))

/-- What a block does to the state. -/
def compress (s : Words) (blk : List UInt8) : Words :=
  let r := ((List.range 80).zip (expand blk)).foldl (fun s p => round s (roundOf p.1) p.2) s
  ⟨s.a+r.a,s.b+r.b,s.c+r.c,s.d+r.d,s.e+r.e⟩

def initWords : Words := ⟨0x67452301,0xefcdab89,0x98badcfe,0x10325476,0xc3d2e1f0⟩

def Words.bytes (s : Words) : List UInt8 :=
  beBytes 4 s.a.toNat ++ beBytes 4 s.b.toNat ++ beBytes 4 s.c.toNat ++ beBytes 4 s.d.toNat ++
    beBytes 4 s.e.toNat

/-- The digest of a message: its blocks and their padding with the length in bits. -/
def sha1 (m : List UInt8) : List UInt8 :=
  (absorb compress 64 initWords (pad 64 0x80 (beBytes 8 (8*m.length)) m)).1.bytes

/-! Unravelling the rotation only renames the registers. -/

/-- A step as it is seen by the one that comes after it. -/
def fg (s : Five) (n : Round) (w : UInt64) : Five :=
  ⟨t32 (r32 s.a 5+f n s.b s.c s.d+s.e+w+const n),s.a,r32 s.b 30,s.c,s.d⟩

/-- The registers that step `k` takes for `A` to `E`. -/
def view (k : ℕ) (r : Regs) : Five :=
  match k % 6 with
  | 0 => ⟨r.a,r.b,r.c,r.d,r.e⟩
  | 1 => ⟨r.t,r.a,r.b,r.c,r.d⟩
  | 2 => ⟨r.e,r.t,r.a,r.b,r.c⟩
  | 3 => ⟨r.d,r.e,r.t,r.a,r.b⟩
  | 4 => ⟨r.c,r.d,r.e,r.t,r.a⟩
  | _ => ⟨r.b,r.c,r.d,r.e,r.t⟩

/-- The macro of step `k`. -/
def cyc (k : ℕ) (n : Round) (r : Regs) (w : UInt64) : Regs :=
  match k % 6 with
  | 0 => fA n r w
  | 1 => fB n r w
  | 2 => fC n r w
  | 3 => fD n r w
  | 4 => fE n r w
  | _ => fT n r w

theorem view_cyc (k : ℕ) (n : Round) (r : Regs) (w : UInt64) :
    view (k+1) (cyc k n r w) = fg (view k r) n w := by
  have hlt : k % 6 < 6 := Nat.mod_lt _ (by decide)
  have hnext : (k+1) % 6 = (k % 6+1) % 6 := by omega
  simp only [view,cyc,hnext]
  interval_cases k % 6 <;> rfl

theorem unraveled_eq :
    unraveled = (List.range' 0 80).map fun k => cyc k (roundOf k) := rfl

theorem looped_eq : looped = (List.range' 0 80).map fun k => fG (roundOf k) := rfl

/-- The run of the steps from `k` on. -/
def steps (k : ℕ) (w : List UInt64) (s : Five) : Five :=
  ((List.range' k w.length).zip w).foldl (fun s p => fg s (roundOf p.1) p.2) s

theorem runSteps_unraveled (w : List UInt64) (k : ℕ) (r : Regs) :
    view (k+w.length) (runSteps ((List.range' k w.length).map fun k => cyc k (roundOf k)) w r) =
      steps k w (view k r) := by
  induction w generalizing k r with
  | nil => rfl
  | cons v w ih =>
    have := ih (k+1) (cyc k (roundOf k) r v)
    rw [view_cyc] at this
    rw [List.length_cons,Nat.add_comm w.length 1,← Nat.add_assoc]
    simpa [runSteps,steps,List.range'_succ,Nat.add_comm 1] using this

theorem runSteps_looped (w : List UInt64) (k : ℕ) (r : Regs) :
    view 0 (runSteps ((List.range' k w.length).map fun k => fG (roundOf k)) w r) =
      steps k w (view 0 r) := by
  induction w generalizing k r with
  | nil => rfl
  | cons v w ih =>
    have := ih (k+1) (fG (roundOf k) r v)
    have hview : view 0 (fG (roundOf k) r v) = fg (view 0 r) (roundOf k) v := rfl
    rw [hview] at this
    simpa [runSteps,steps,List.range'_succ] using this

theorem schedule_length (first : List UInt64) : (schedule first).length = first.length+64 := by
  have hfold (l : List ℕ) : ∀ w : List UInt64, (l.foldl (fun w _ =>
      w ++ [r32 (w.getD (w.length-3) 0 ^^^ w.getD (w.length-8) 0 ^^^ w.getD (w.length-14) 0 ^^^
        w.getD (w.length-16) 0) 1]) w).length = w.length+l.length := by
    induction l with
    | nil => exact fun w => rfl
    | cons a l ih =>
      intro w
      rw [List.foldl_cons,ih,List.length_append,List.length_singleton,List.length_cons]
      omega
  rw [schedule,hfold,List.length_range]

theorem words_length (info : ShaInfo) : (words info).length = 80 := by
  rw [words,schedule_length,List.length_map,List.length_range]

/-- The digest after a block with the words `w`. -/
def addSteps (h : Five) (w : List UInt64) : Five :=
  let r := steps 0 w h
  ⟨t32 (h.a+r.a),t32 (h.b+r.b),t32 (h.c+r.c),t32 (h.d+r.d),t32 (h.e+r.e)⟩

/-- Both transformations are the run of the steps. -/
theorem shaTransform_steps (info : ShaInfo) :
    shaTransform info = {info with digest := addSteps info.digest (words info)} := by
  have hrun := runSteps_unraveled (words info) 0 (start info.digest (lastT info))
  have hview : view 0 (start info.digest (lastT info)) = info.digest := rfl
  rw [words_length,← unraveled_eq,hview] at hrun
  simp only [shaTransform,addSteps,← hrun]
  generalize runSteps unraveled (words info) (start info.digest (lastT info)) = r
  rfl

theorem shaTransformLoop_steps (info : ShaInfo) :
    shaTransformLoop info = {info with digest := addSteps info.digest (words info)} := by
  have hrun := runSteps_looped (words info) 0 (start info.digest (lastT info))
  have hview : view 0 (start info.digest (lastT info)) = info.digest := rfl
  rw [words_length,← looped_eq,hview] at hrun
  simp only [shaTransformLoop,addSteps,← hrun]
  generalize runSteps looped (words info) (start info.digest (lastT info)) = r
  rfl

/-- The code with the rotation unravelled computes what the plain loop does. -/
theorem shaTransform_unraveled (info : ShaInfo) : shaTransform info = shaTransformLoop info := by
  rw [shaTransform_steps,shaTransformLoop_steps]

/-! The 64-bit words stand for 32-bit ones. -/

/-- The state of the code. -/
def lift (s : Words) : Five :=
  ⟨s.a.toUInt64,s.b.toUInt64,s.c.toUInt64,s.d.toUInt64,s.e.toUInt64⟩

theorem t32_eq (x : UInt64) : t32 x = x.toUInt32.toUInt64 := by
  apply UInt64.toNat_inj.mp
  have hmask : (0xffffffff : UInt64).toNat = 2^32-1 := rfl
  rw [t32,UInt64.toNat_and,hmask,Nat.and_two_pow_sub_one_eq_mod,UInt32.toNat_toUInt64,
    UInt64.toNat_toUInt32]

theorem r32_lift {x n : UInt32} (h0 : 0 < n.toNat) (h : n.toNat < 32) :
    r32 x.toUInt64 n.toUInt64 = (rotateLeft x n).toUInt64 := by
  have h32 : (32-n.toUInt64).toNat = 32-n.toNat := by
    rw [UInt64.toNat_sub_of_le _ _ (by rw [UInt64.le_iff_toNat_le]; exact h.le)]
    rfl
  have h32' : (32-n).toNat = 32-n.toNat := by
    rw [UInt32.toNat_sub_of_le _ _ (by rw [UInt32.le_iff_toNat_le]; exact h.le)]
    rfl
  have hleft : (x.toUInt64 <<< n.toUInt64).toUInt32 = x <<< n := by
    apply UInt32.toNat_inj.mp
    rw [UInt64.toNat_toUInt32,UInt64.toNat_shiftLeft,UInt32.toNat_shiftLeft,UInt32.toNat_toUInt64,
      UInt32.toNat_toUInt64,Nat.mod_eq_of_lt (b:=64) (by omega),Nat.mod_eq_of_lt (b:=32) h,
      Nat.mod_mod_of_dvd _ (by decide)]
  have hright : (x.toUInt64 >>> (32-n.toUInt64)).toUInt32 = x >>> (32-n) := by
    apply UInt32.toNat_inj.mp
    rw [UInt64.toNat_toUInt32,UInt64.toNat_shiftRight,UInt32.toNat_shiftRight,UInt32.toNat_toUInt64,
      h32,h32',Nat.mod_eq_of_lt (b:=64) (by omega),Nat.mod_eq_of_lt (b:=32) (by omega),
      Nat.shiftRight_eq_div_pow]
    exact Nat.mod_eq_of_lt ((Nat.div_le_self ..).trans_lt x.toNat_lt)
  rw [r32,t32_eq,UInt64.toUInt32_or,hleft,hright,rotateLeft]

/-- The functions of the code, cut to 32 bits. -/
theorem f_lift (n : Round) (x y z : UInt32) :
    (f n x.toUInt64 y.toUInt64 z.toUInt64).toUInt32 = roundF n x y z := by
  cases n
  case two | four => simp [f,roundF]
  case one | three =>
    simp only [f,roundF,UInt64.toUInt32_or,UInt64.toUInt32_and,UInt64.toUInt32_not,
      UInt32.toUInt32_toUInt64]
    apply UInt32.toBitVec_inj.mp
    ext i hi
    simp only [UInt32.toBitVec_xor,UInt32.toBitVec_and,UInt32.toBitVec_or,UInt32.toBitVec_not,
      BitVec.getElem_xor,BitVec.getElem_and,BitVec.getElem_or,BitVec.getElem_not]
    cases x.toBitVec[i] <;> cases y.toBitVec[i] <;> cases z.toBitVec[i] <;> rfl

theorem const_lift (n : Round) : const n = (roundConst n).toUInt64 := by cases n <;> rfl

theorem fg_lift (s : Words) (n : Round) (w : UInt32) :
    fg (lift s) n w.toUInt64 = lift (round s n w) := by
  have h5 : r32 s.a.toUInt64 5 = (rotateLeft s.a 5).toUInt64 :=
    r32_lift (n:=5) (by decide) (by decide)
  have h30 : r32 s.b.toUInt64 30 = (rotateLeft s.b 30).toUInt64 :=
    r32_lift (n:=30) (by decide) (by decide)
  simp only [fg,lift,round,h5,h30,const_lift,t32_eq,UInt64.toUInt32_add,UInt32.toUInt32_toUInt64,
    f_lift]

theorem steps_lift (w : List UInt32) (k : ℕ) (s : Words) :
    steps k (w.map UInt32.toUInt64) (lift s) =
      lift (((List.range' k w.length).zip w).foldl (fun s p => round s (roundOf p.1) p.2) s) := by
  induction w generalizing k s with
  | nil => rfl
  | cons v w ih =>
    have := ih (k+1) (round s (roundOf k) v)
    rw [← fg_lift] at this
    simpa [steps,List.range'_succ] using this

/-- The expansion of the words goes through 32 bits as well. -/
theorem schedule_lift (first : List UInt32) :
    schedule (first.map UInt32.toUInt64) =
      ((List.range 64).foldl (fun w _ => w ++ [rotateLeft (w.getD (w.length-3) 0 ^^^
        w.getD (w.length-8) 0 ^^^ w.getD (w.length-14) 0 ^^^ w.getD (w.length-16) 0) 1])
        first).map UInt32.toUInt64 := by
  rw [schedule]
  generalize List.range 64 = l
  induction l generalizing first with
  | nil => rfl
  | cons a l ih =>
    have hget (i : ℕ) : (first.map UInt32.toUInt64).getD i 0 = (first.getD i 0).toUInt64 := by
      simp only [List.getD_eq_getElem?_getD,List.getElem?_map]
      cases first[i]? <;> rfl
    have hrot (x : UInt32) : r32 x.toUInt64 1 = (rotateLeft x 1).toUInt64 :=
      r32_lift (n:=1) (by decide) (by decide)
    rw [List.foldl_cons,List.foldl_cons,← ih]
    simp only [List.length_map,hget,← UInt32.toUInt64_xor,hrot,List.map_append,List.map_cons,
      List.map_nil]

/-! The words of a block. -/

/-- A mask of eight ones keeps one byte in its place. -/
theorem and_field (x k : ℕ) : x &&& (255 <<< k) = (x/2^k % 256) <<< k := by
  have hand := shiftRight_mask x (255 <<< k) k 8 rfl
  have hlow : (x &&& (255 <<< k)) % 2^k = 0 := by
    rw [← Nat.and_two_pow_sub_one_eq_mod,Nat.and_assoc]
    have : (255 <<< k) &&& (2^k-1) = 0 := by
      rw [Nat.and_two_pow_sub_one_eq_mod,Nat.shiftLeft_eq,Nat.mul_mod_left]
    rw [this,Nat.and_zero]
  rw [Nat.shiftRight_eq_div_pow] at hand
  rw [show (256 : ℕ) = 2^8 from rfl,← hand,Nat.shiftLeft_eq (_/2^k)]
  exact (Nat.div_mul_cancel (Nat.dvd_of_mod_eq_zero hlow)).symm

/-- The value that is read for a word: its four bytes and four more. -/
theorem swap_eq {t : UInt64} {p q : List UInt8} (hp : p.length = 4) (hq : q.length = 4)
    (ht : t = UInt64.ofNat (leNat (p ++ q))) :
    ((t <<< (24 : UInt64)) &&& 0xff000000) ||| ((t <<< (8 : UInt64)) &&& 0x00ff0000) |||
        ((t >>> (8 : UInt64)) &&& 0x0000ff00) ||| ((t >>> (24 : UInt64)) &&& 0x000000ff) =
      (UInt32.ofNat (beNat p)).toUInt64 := by
  rcases p with _ | ⟨b₀,_ | ⟨b₁,_ | ⟨b₂,_ | ⟨b₃,_ | ⟨_,_⟩⟩⟩⟩⟩ <;> simp at hp
  have h₀ := b₀.toNat_lt
  have h₁ := b₁.toNat_lt
  have h₂ := b₂.toNat_lt
  have h₃ := b₃.toNat_lt
  have hq' := leNat_lt q
  rw [hq] at hq'
  have htn : t.toNat = b₀.toNat+256*(b₁.toNat+256*(b₂.toNat+256*(b₃.toNat+256*leNat q))) := by
    have hval : leNat ([b₀,b₁,b₂,b₃] ++ q) =
        b₀.toNat+256*(b₁.toNat+256*(b₂.toNat+256*(b₃.toNat+256*leNat q))) := by
      simp only [List.cons_append,List.nil_append,leNat]
    rw [ht,hval,UInt64.toNat_ofNat']
    omega
  have hbe : beNat [b₀,b₁,b₂,b₃] = ((b₀.toNat*256+b₁.toNat)*256+b₂.toNat)*256+b₃.toNat := by
    simp [beNat]
  have hA : ((t <<< (24 : UInt64)) &&& 0xff000000).toNat = b₀.toNat <<< 24 := by
    rw [UInt64.toNat_and,UInt64.toNat_shiftLeft,Nat.shiftLeft_eq]
    change t.toNat*2^24 % 2^64 &&& (255 <<< 24) = _
    rw [and_field,htn]
    congr 1
    omega
  have hB : ((t <<< (8 : UInt64)) &&& 0x00ff0000).toNat = b₁.toNat <<< 16 := by
    rw [UInt64.toNat_and,UInt64.toNat_shiftLeft,Nat.shiftLeft_eq]
    change t.toNat*2^8 % 2^64 &&& (255 <<< 16) = _
    rw [and_field,htn]
    congr 1
    omega
  have hC : ((t >>> (8 : UInt64)) &&& 0x0000ff00).toNat = b₂.toNat <<< 8 := by
    rw [UInt64.toNat_and,UInt64.toNat_shiftRight,Nat.shiftRight_eq_div_pow]
    change t.toNat/2^8 &&& (255 <<< 8) = _
    rw [and_field,htn]
    congr 1
    omega
  have hD : ((t >>> (24 : UInt64)) &&& 0x000000ff).toNat = b₃.toNat := by
    rw [UInt64.toNat_and,UInt64.toNat_shiftRight,Nat.shiftRight_eq_div_pow]
    have hdiv : t.toNat/2^24 = b₃.toNat+256*leNat q := by omega
    change t.toNat/2^24 &&& (2^8-1) = _
    rw [Nat.and_two_pow_sub_one_eq_mod,hdiv]
    omega
  apply UInt64.toNat_inj.mp
  rw [UInt64.toNat_or,UInt64.toNat_or,UInt64.toNat_or,hA,hB,hC,hD,UInt32.toNat_toUInt64,
    UInt32.toNat_ofNat_of_lt' (by rw [hbe]; simp [UInt32.size]; omega),hbe,Nat.or_assoc,Nat.or_assoc,
    shiftLeft_or_eq (k:=8) (by omega),shiftLeft_or_eq (k:=16) (by omega),
    shiftLeft_or_eq (k:=24) (by omega)]
  ring

theorem swapped_eq {data rest : List UInt8} (hd : data.length = 64) (hr : rest.length = 4) {i : ℕ}
    (hi : i < 16) :
    swapped (data ++ rest) i = (UInt32.ofNat (beNat (slice data (4*i) 4))).toUInt64 := by
  have hcut : slice (data ++ rest) (4*i) 8 =
      slice data (4*i) 4 ++ slice (data ++ rest) (4*i+4) 4 := by
    rw [← slice_append_left rest (by omega : 4*i+4 ≤ data.length)]
    simp only [slice]
    rw [← List.drop_drop,show 8 = 4+4 from rfl,List.take_add]
  rw [swapped]
  exact swap_eq (slice_length (by omega))
    (slice_length (by rw [List.length_append,hd,hr]; omega)) (congrArg _ (congrArg _ hcut))

/-- A transformation is the block function, whatever stands behind the block. -/
theorem shaTransform_eq (info : ShaInfo) {s : Words} (h : info.digest = lift s)
    (hdata : info.data.length = 64) :
    shaTransform info = {info with digest := lift (compress s info.data)} := by
  have hwords : words info = (expand info.data).map UInt32.toUInt64 := by
    rw [words,expand,← schedule_lift,List.map_map]
    congr 1
    refine List.map_congr_left fun i hi => ?_
    exact swapped_eq hdata (leBytes_length ..) (List.mem_range.mp hi)
  have hlen : (expand info.data).length = 80 := by
    rw [← List.length_map UInt32.toUInt64,← hwords,words_length]
  rw [shaTransform_steps,addSteps,h,hwords,steps_lift,hlen]
  simp only [lift,compress,List.range_eq_range',t32_eq,UInt64.toUInt32_add,
    UInt32.toUInt32_toUInt64]

/-! The context of a message that comes in pieces. -/

/-- The digest and the block of the context hold `m`. -/
structure Reads (info : ShaInfo) (m : List UInt8) : Prop where
  digest_eq : info.digest = lift (absorb compress 64 initWords m).1
  holds : Holds compress 64 initWords m (absorb compress 64 initWords m).1 info.data

/-- The context has seen `m`: the count of bits and the fill of the block fit to it as well. -/
structure Represents (info : ShaInfo) (m : List UInt8) : Prop extends Reads info m where
  low_lt : info.countLo.toNat < 2^32
  count_eq : (info.countLo.toNat+2^32*info.countHi.toNat) % 2^64 = 8*m.length % 2^64
  local_eq : info.localLen = (m.length % 64 : ℕ)

variable {info : ShaInfo} {m : List UInt8}

theorem shaInit_represents (h : info.data.length = 64) : Represents (shaInit info) [] :=
  ⟨⟨rfl,Holds.start h⟩,Nat.two_pow_pos 32,rfl,rfl⟩

/-- A block that is complete is read. -/
theorem Reads.fill (h : Reads info m) {x : List UInt8} {u v : UInt64} {n : ℤ}
    (hx : m.length % 64+x.length = 64) :
    ∃ data, poke info.data (m.length % 64) x = .ok data ∧
      Reads (shaTransform ⟨info.digest,u,v,data,n⟩) (m ++ x) := by
  have hfit : m.length % 64+x.length ≤ info.data.length := by rw [h.holds.length_eq,hx]
  have hlen := (overwrite_length hfit).trans h.holds.length_eq
  have hfill := h.holds.fill hx (by decide) hlen
  refine ⟨overwrite info.data (m.length % 64) x,poke_ok hfit,?_⟩
  rw [shaTransform_eq ⟨info.digest,u,v,overwrite info.data (m.length % 64) x,n⟩ h.digest_eq hlen]
  exact ⟨congrArg lift hfill.state_eq,by rw [← hfill.state_eq]; exact hfill⟩

/-- What does not complete the block waits in it. -/
theorem Reads.more (h : Reads info m) {x : List UInt8} {u v : UInt64} {n : ℤ}
    (hx : m.length % 64+x.length < 64) :
    ∃ data, poke info.data (m.length % 64) x = .ok data ∧
      Reads ⟨info.digest,u,v,data,n⟩ (m ++ x) := by
  have hfit : m.length % 64+x.length ≤ info.data.length := by rw [h.holds.length_eq]; omega
  have hmore := h.holds.more hx
  exact ⟨_,poke_ok hfit,h.digest_eq.trans (congrArg lift hmore.state_eq),
    by rw [← hmore.state_eq]; exact hmore⟩

/-- The loop reads the blocks that there are. -/
theorem shaBlocks_spec {k : ℕ} (txt beyond : List UInt8) (h : Reads info m)
    (hm : m.length % 64 = 0) (hk : txt.length ≤ k) :
    ∃ info' used rest, shaBlocks k info (txt ++ beyond) txt.length =
        .ok (info',rest ++ beyond,(rest.length : ℤ)) ∧
      txt = used ++ rest ∧ rest.length < 64 ∧ (m ++ used).length % 64 = 0 ∧
      Reads info' (m ++ used) ∧ info'.countLo = info.countLo ∧ info'.countHi = info.countHi := by
  induction k generalizing info m txt with
  | zero => exact ⟨info,[],txt,rfl,rfl,by omega,by simpa using hm,by simpa using h,rfl,rfl⟩
  | succ k ih =>
    rw [shaBlocks]
    split_ifs with hge
    · have hge' : 64 ≤ txt.length := by simpa [shaBlocksize] using hge
      have htake : (txt.take 64).length = 64 := by simpa using hge'
      have hpeek : peek (txt ++ beyond) 0 shaBlocksize = .ok (txt.take 64) := by
        have hok := peek_ok (txt ++ beyond) 0 64 (by rw [List.length_append]; omega)
        rwa [slice,List.drop_zero,List.take_append_of_le_length hge'] at hok
      obtain ⟨data,hpoke,hreads⟩ := h.fill (x:=txt.take 64) (u:=info.countLo) (v:=info.countHi)
        (n:=info.localLen) (by rw [hm,htake])
      rw [hm] at hpoke
      have hdrop : (txt ++ beyond).drop shaBlocksize = txt.drop 64 ++ beyond :=
        List.drop_append_of_le_length hge'
      have hcount : (txt.length : ℤ)-shaBlocksize = ((txt.drop 64).length : ℕ) := by
        rw [List.length_drop,shaBlocksize]
        omega
      obtain ⟨info',used,rest,hrun,hcut,hlt,halign,hr,hlo,hhi⟩ := ih (txt.drop 64) hreads
        (by rw [List.length_append]; omega) (by rw [List.length_drop]; omega)
      rw [hpeek,ok_bind,hpoke,ok_bind,hdrop,hcount]
      refine ⟨info',txt.take 64 ++ used,rest,hrun,?_,hlt,?_,?_,?_,?_⟩
      · rw [List.append_assoc,← hcut,List.take_append_drop]
      · rwa [← List.append_assoc]
      · rwa [← List.append_assoc]
      · rw [hlo,shaTransform_steps]
      · rw [hhi,shaTransform_steps]
    · have hlt : txt.length < 64 := by simpa [shaBlocksize] using hge
      exact ⟨info,[],txt,rfl,rfl,hlt,by simpa using hm,by simpa using h,rfl,rfl⟩

/-- The end of an update at a block's boundary. -/
theorem shaTail_spec (txt beyond : List UInt8) (h : Reads info m)
    (hm : m.length % 64 = 0) :
    ∃ info', shaTail info (txt ++ beyond) txt.length = .ok info' ∧ Reads info' (m ++ txt) ∧
      info'.localLen = ((m ++ txt).length % 64 : ℕ) ∧ info'.countLo = info.countLo ∧
      info'.countHi = info.countHi := by
  obtain ⟨info',used,rest,hrun,rfl,hlt,halign,hr,hlo,hhi⟩ :=
    shaBlocks_spec (k:=(txt ++ beyond).length) txt beyond h hm (by simp)
  obtain ⟨data,hpoke,hreads⟩ := hr.more (x:=rest) (u:=info'.countLo) (v:=info'.countHi)
    (n:=(rest.length : ℤ)) (by omega)
  have hpeek : peek (rest ++ beyond) 0 (sizeT rest.length) = .ok rest := by
    rw [sizeT_natCast (by omega)]
    have hok := peek_ok (rest ++ beyond) 0 rest.length (by rw [List.length_append]; omega)
    rwa [slice_front] at hok
  rw [halign] at hpoke
  rw [shaTail,hrun,ok_bind]
  dsimp only
  rw [hpeek,ok_bind,hpoke,ok_bind]
  refine ⟨_,rfl,by rwa [← List.append_assoc],?_,hlo,hhi⟩
  rw [← List.append_assoc,List.length_append]
  dsimp only
  omega

/-- The count of bits takes the bits of the update on, with the carry between its halves. -/
theorem addCount_spec (h : Represents info m) {n : ℕ} (hn : n < 2^31) :
    (addCount info n).countLo.toNat < 2^32 ∧
      ((addCount info n).countLo.toNat+2^32*(addCount info n).countHi.toNat) % 2^64 =
        8*(m.length+n) % 2^64 := by
  have hlow := h.low_lt
  have hcount := h.count_eq
  have hof : (UInt64.ofInt (n : ℤ)).toNat = n := by
    rw [UInt64.ofInt,UInt64.toNat_ofNat']
    omega
  have hshift : (UInt64.ofInt (n : ℤ) <<< 3).toNat = 8*n := by
    rw [UInt64.toNat_shiftLeft,hof,Nat.shiftLeft_eq]
    change n*2^3 % 2^64 = 8*n
    omega
  have hhigh : (UInt64.ofInt (n : ℤ) >>> 29).toNat = n/2^29 := by
    rw [UInt64.toNat_shiftRight,hof,Nat.shiftRight_eq_div_pow]
    rfl
  have hclo : (t32 (info.countLo+(UInt64.ofInt (n : ℤ) <<< 3))).toNat =
      (info.countLo.toNat+8*n) % 2^32 := by
    rw [t32_eq,UInt32.toNat_toUInt64,UInt64.toNat_toUInt32,UInt64.toNat_add,hshift]
    omega
  have hlt : t32 (info.countLo+(UInt64.ofInt (n : ℤ) <<< 3)) < info.countLo ↔
      2^32 ≤ info.countLo.toNat+8*n % 2^32 := by
    rw [UInt64.lt_iff_toNat_lt,hclo]
    omega
  simp only [addCount,hlt,hclo]
  refine ⟨Nat.mod_lt _ (by decide),?_⟩
  split_ifs
  · rw [UInt64.toNat_add,UInt64.toNat_add,hhigh,UInt64.toNat_one]
    omega
  · rw [UInt64.toNat_add,hhigh]
    omega

/-- An update appends its bytes to the message. -/
theorem shaUpdate_spec (h : Represents info m) (txt beyond : List UInt8)
    (hlen : txt.length < 2^31) :
    ∃ info', shaUpdate info (txt ++ beyond) txt.length = .ok info' ∧ Represents info' (m ++ txt) := by
  have hmod : m.length % 64 < 64 := Nat.mod_lt _ (by decide)
  have hlocal : (addCount info txt.length).localLen = (m.length % 64 : ℕ) := h.local_eq
  have hreads : Reads (addCount info txt.length) m := ⟨h.digest_eq,h.holds⟩
  obtain ⟨hlow,hcount⟩ := addCount_spec h hlen
  rw [← List.length_append] at hcount
  rw [shaUpdate]
  generalize addCount info (txt.length : ℤ) = info₁ at hlocal hreads hlow hcount
  dsimp only
  by_cases h0 : m.length % 64 = 0
  · obtain ⟨info',hrun,hr,hloc,hlo,hhi⟩ := shaTail_spec txt beyond hreads h0
    rw [if_neg (by rw [hlocal,h0]; simp),hrun]
    exact ⟨info',rfl,⟨hr,hlo ▸ hlow,by rw [hlo,hhi]; exact hcount,hloc⟩⟩
  · rw [if_pos (by rw [hlocal]; exact_mod_cast h0),hlocal,Int.toNat_natCast]
    rcases Nat.lt_or_ge (m.length % 64+txt.length) 64 with hshort | hlong
    · obtain ⟨data,hpoke,hr⟩ := hreads.more (x:=txt) (u:=info₁.countLo) (v:=info₁.countHi)
        (n:=((m.length % 64 : ℕ) : ℤ)+txt.length) hshort
      have hi : min ((shaBlocksize : ℤ)-(m.length % 64 : ℕ)) txt.length = txt.length :=
        min_eq_right (by rw [shaBlocksize]; omega)
      have hpeek : peek (txt ++ beyond) 0 (sizeT txt.length) = .ok txt := by
        rw [sizeT_natCast (by omega)]
        have hok := peek_ok (txt ++ beyond) 0 txt.length (by rw [List.length_append]; omega)
        rwa [slice_front] at hok
      rw [hi,hpeek,ok_bind,hpoke,ok_bind,if_neg (by rw [shaBlocksize]; omega)]
      refine ⟨_,rfl,⟨hr,hlow,hcount,?_⟩⟩
      rw [List.length_append]
      dsimp only
      omega
    · have hk : (txt.take (64-m.length % 64)).length = 64-m.length % 64 := by
        rw [List.length_take]; omega
      obtain ⟨data,hpoke,hr⟩ := hreads.fill (x:=txt.take (64-m.length % 64)) (u:=info₁.countLo)
        (v:=info₁.countHi) (n:=((m.length % 64 : ℕ) : ℤ)+(64-m.length % 64 : ℕ)) (by omega)
      have hi : min ((shaBlocksize : ℤ)-(m.length % 64 : ℕ)) txt.length =
          ((64-m.length % 64 : ℕ) : ℤ) := by
        rw [shaBlocksize]; omega
      have hpeek : peek (txt ++ beyond) 0 (sizeT ((64-m.length % 64 : ℕ) : ℤ)) =
          .ok (txt.take (64-m.length % 64)) := by
        rw [sizeT_natCast (by omega)]
        have hok := peek_ok (txt ++ beyond) 0 (64-m.length % 64) (by rw [List.length_append]; omega)
        rwa [slice,List.drop_zero,List.take_append_of_le_length (by omega)] at hok
      have hdrop : (txt ++ beyond).drop (64-m.length % 64) =
          txt.drop (64-m.length % 64) ++ beyond := List.drop_append_of_le_length (by omega)
      have hleft : (txt.length : ℤ)-((64-m.length % 64 : ℕ) : ℤ) =
          ((txt.drop (64-m.length % 64)).length : ℕ) := by
        rw [List.length_drop]; omega
      obtain ⟨info',hrun,hr',hloc,hlo,hhi⟩ := shaTail_spec (txt.drop (64-m.length % 64)) beyond hr
        (by rw [List.length_append]; omega)
      rw [List.append_assoc,List.take_append_drop] at hr' hloc
      rw [shaTransform_steps] at hlo hhi
      rw [hi,hpeek,ok_bind,hpoke,ok_bind,if_pos (by rw [shaBlocksize]; omega),Int.toNat_natCast,hdrop,
        hleft,hrun]
      exact ⟨info',rfl,⟨hr',hlo ▸ hlow,by rw [hlo,hhi]; exact hcount,hloc⟩⟩

/-- A length that is no `int` asks `memcpy` for more than there is. -/
theorem shaUpdate_neg (h : Represents info m) {buffer : List UInt8} (hbuf : buffer.length < 2^63)
    {count : ℤ} (hneg : count < 0) (hint : -2^31 ≤ count) :
    shaUpdate info buffer count = .error .fault := by
  have hmod : m.length % 64 < 64 := Nat.mod_lt _ (by decide)
  have hpeek : peek buffer 0 (sizeT count) = .error .fault := by
    have hsize : (sizeT count : ℤ) = count+2^64 := by rw [sizeT]; omega
    rw [peek,if_neg (by omega)]
  have hlocal : (addCount info count).localLen = (m.length % 64 : ℕ) := h.local_eq
  rw [shaUpdate]
  generalize addCount info count = info₁ at hlocal
  dsimp only
  by_cases h0 : info₁.localLen ≠ 0
  · have hi : min ((shaBlocksize : ℤ)-info₁.localLen) count = count :=
      min_eq_right (by rw [shaBlocksize,hlocal]; omega)
    rw [if_pos h0,hi,hpeek,error_bind]
  · have hblocks : shaBlocks buffer.length info₁ buffer count = .ok (info₁,buffer,count) := by
      cases buffer.length with
      | zero => rfl
      | succ k => rw [shaBlocks,if_neg (by rw [shaBlocksize]; omega)]
    rw [if_neg h0,shaTail,hblocks,ok_bind]
    dsimp only
    rw [hpeek,error_bind]

/-! The end of a message. -/

theorem wordBytes_eq (v : UInt64) : wordBytes v = beBytes 4 v.toNat := by
  have hbyte (x : UInt64) : (x &&& 0xff).toUInt8 = UInt8.ofNat x.toNat := by
    apply UInt8.toNat_inj.mp
    rw [UInt64.toNat_toUInt8,UInt64.toNat_and,UInt8.toNat_ofNat']
    change (x.toNat &&& (2^8-1)) % 2^8 = x.toNat % 2^8
    rw [Nat.and_two_pow_sub_one_eq_mod,Nat.mod_mod]
  have hshift (k : UInt64) (n : ℕ) (hk : k.toNat = n) (hn : n < 64) :
      (v >>> k).toNat = v.toNat/2^n := by
    rw [UInt64.toNat_shiftRight,hk,Nat.mod_eq_of_lt hn,Nat.shiftRight_eq_div_pow]
  simp only [wordBytes,hbyte,hshift 24 24 rfl (by decide),hshift 16 16 rfl (by decide),
    hshift 8 8 rfl (by decide),beBytes,List.nil_append,List.cons_append,Nat.div_div_eq_div_mul]
  norm_num

/-- The two words of the length are the length in bits. -/
theorem length_words (h : Represents info m) :
    wordBytes info.countHi ++ wordBytes info.countLo = beBytes 8 (8*m.length) := by
  have hlow := h.low_lt
  have hcount := h.count_eq
  rw [wordBytes_eq,wordBytes_eq,show 8 = 4+4 from rfl,beBytes_add]
  congr 1
  · exact beBytes_eq (by omega)
  · exact beBytes_eq (by omega)

/-- The digest bytes of a state. -/
theorem transformAndCopy_eq {s : Words} (h : info.digest = lift s) (hdata : info.data.length = 64) :
    (shaTransformAndCopy info).1 = (compress s info.data).bytes := by
  simp only [shaTransformAndCopy,shaTransform_eq info h hdata,lift,wordBytes_eq,UInt32.toNat_toUInt64,
    Words.bytes]

theorem copied {s : Words} {d : List UInt8} (h : info.digest = lift s)
    (hdata : info.data.length = 64) (hd : (compress s info.data).bytes = d) :
    ∃ info', (.ok (shaTransformAndCopy info) : Exec (List UInt8 × ShaInfo)) = .ok (d,info') :=
  ⟨(shaTransformAndCopy info).2,
    congrArg Except.ok (Prod.ext ((transformAndCopy_eq h hdata).trans hd) rfl)⟩

/-- The final call gives the digest of the message. -/
theorem shaFinal_spec (h : Represents info m) : ∃ info', shaFinal info = .ok (sha1 m,info') := by
  have hmod : m.length % 64 < 64 := Nat.mod_lt _ (by decide)
  have hlen := h.holds.length_eq
  have hwords := length_words h
  have htake := h.holds.rest_eq
  have hlow := h.low_lt
  have hcount := h.count_eq
  have hused : ((info.countLo >>> 3) &&& 0x3f).toNat = m.length % 64 := by
    rw [UInt64.toNat_and,UInt64.toNat_shiftRight,Nat.shiftRight_eq_div_pow]
    change info.countLo.toNat/2^3 &&& (2^6-1) = _
    rw [Nat.and_two_pow_sub_one_eq_mod]
    omega
  have hrest : (absorb compress 64 initWords m).2.length = m.length % 64 := absorb_rest_length ..
  rw [sha1]
  generalize hr : (absorb compress 64 initWords m).2 = rest at hrest htake
  obtain ⟨data₁,hp₁,hl₁,ht₁⟩ := poke_next (o:=info.data) (x:=rest) (t:=[0x80])
    (by rw [hrest,htake]) (by rw [hrest,hlen]; exact hmod)
  have hx₁ : (rest ++ [0x80]).length = m.length % 64+1 := by simp [hrest]
  rw [hrest] at hp₁
  simp only [shaFinal,hused,shaBlocksize]
  rw [hp₁,ok_bind]
  by_cases hroom : m.length % 64 < 56
  · have hpad := absorb_pad_one compress (n:=64) (m:=m) 0x80 (l:=beBytes 8 (8*m.length))
      (by rw [beBytes_length]; omega) initWords
    obtain ⟨data₂,hp₂,hl₂,ht₂⟩ := poke_next (x:=rest ++ [0x80])
      (t:=List.replicate (64-8-(m.length % 64+1)) 0) ht₁
      (by rw [hx₁,List.length_replicate]; omega)
    have hx₂ : (rest ++ [0x80] ++ List.replicate (64-8-(m.length % 64+1)) 0).length = 56 := by
      rw [List.length_append,hx₁,List.length_replicate]
      omega
    rw [hx₂] at ht₂
    obtain ⟨data₃,hp₃,hp₄⟩ := poke_last (a:=wordBytes info.countHi) (b:=wordBytes info.countLo)
      (j:=60) hx₂ (by rw [List.length_append,hx₂]; rfl)
      (by rw [hl₂,hl₁,hlen,List.length_append,List.length_append,hx₂]; rfl) ht₂
    rw [hwords] at hp₄
    have hfull : (rest ++ [0x80] ++ List.replicate (64-8-(m.length % 64+1)) 0 ++
        beBytes 8 (8*m.length)).length = 64 := by rw [List.length_append,hx₂,beBytes_length]
    rw [hx₁] at hp₂
    rw [if_neg (by omega),hp₂]
    simp only [ok_bind,pure_bind]
    rw [hp₃,ok_bind,hp₄,ok_bind,hpad,hr]
    refine copied h.digest_eq hfull ?_
    rw [beBytes_length,show 64-8-(m.length % 64+1) = 64-1-8-m.length % 64 by omega]
    simp only [List.append_assoc,List.cons_append,List.nil_append]
  · have hpad := absorb_pad_two compress (n:=64) (m:=m) 0x80 (l:=beBytes 8 (8*m.length))
      (by rw [beBytes_length]; omega) (by rw [beBytes_length]; decide) initWords
    obtain ⟨data₂,hp₂,hl₂,ht₂⟩ := poke_next (x:=rest ++ [0x80])
      (t:=List.replicate (64-(m.length % 64+1)) 0) ht₁ (by rw [hx₁,List.length_replicate]; omega)
    have hx₂ : (rest ++ [0x80] ++ List.replicate (64-(m.length % 64+1)) 0).length =
        data₂.length := by
      rw [List.length_append,hx₁,List.length_replicate]
      omega
    rw [hx₂,List.take_length] at ht₂
    have hlen₂ : data₂.length = 64 := hl₂.trans (hl₁.trans hlen)
    obtain ⟨data₃,hp₃,hl₃,ht₃⟩ := poke_next (o:=data₂) (x:=[]) (t:=List.replicate 56 0) rfl
      (by rw [List.length_replicate,List.length_nil]; omega)
    rw [List.nil_append,List.length_replicate] at ht₃
    obtain ⟨data₄,hp₄,hp₅⟩ := poke_last (a:=wordBytes info.countHi) (b:=wordBytes info.countLo)
      (j:=60) (List.length_replicate ..) (by rw [List.length_append,List.length_replicate]; rfl)
      (by rw [hl₃,hlen₂,List.length_append,List.length_append,List.length_replicate]; rfl) ht₃
    rw [hwords] at hp₅
    have hfull : (List.replicate 56 0 ++ beBytes 8 (8*m.length)).length = 64 := by
      rw [List.length_append,List.length_replicate,beBytes_length]
    have hfirst := shaTransform_eq {info with data := data₂} h.digest_eq hlen₂
    rw [hx₁] at hp₂
    rw [List.length_nil] at hp₃
    rw [if_pos (by omega),hp₂]
    simp only [ok_bind,pure_bind]
    rw [hfirst,hp₃]
    simp only [ok_bind]
    rw [hp₄,ok_bind,hp₅,ok_bind,hpad,hr]
    refine copied (s:=compress (absorb compress 64 initWords m).1 data₂) rfl hfull ?_
    rw [beBytes_length,ht₂,show 64-(m.length % 64+1) = 64-1-m.length % 64 by omega]
    simp only [List.append_assoc,List.cons_append,List.nil_append]

/-- An update with all the bytes of a text. -/
def updateWith (info : ShaInfo) (buf : List UInt8) : Exec ShaInfo := shaUpdate info buf buf.length

theorem shaUpdates_spec (h : Represents info m) {bufs : List (List UInt8)}
    (hlen : ∀ buf ∈ bufs, buf.length < 2^31) :
    ∃ info', bufs.foldlM updateWith info = .ok info' ∧ Represents info' (m ++ bufs.flatten) := by
  induction bufs generalizing info m with
  | nil => exact ⟨info,rfl,by simpa using h⟩
  | cons buf bufs ih =>
    obtain ⟨info₁,hrun,h₁⟩ := shaUpdate_spec h buf [] (hlen buf (List.mem_cons_self ..))
    obtain ⟨info₂,hruns,h₂⟩ := ih h₁ fun b hb => hlen b (List.mem_cons_of_mem _ hb)
    rw [List.append_nil] at hrun
    refine ⟨info₂,?_,by rwa [List.flatten_cons,← List.append_assoc]⟩
    rw [List.foldlM_cons,updateWith,hrun]
    exact hruns

/-- However a message is cut into updates, and whatever the block held before, the calls end with
the digest of the message. -/
theorem sha1_pieces (info : ShaInfo) (h : info.data.length = 64) {bufs : List (List UInt8)}
    (hlen : ∀ buf ∈ bufs, buf.length < 2^31) :
    ∃ info₁ info₂, bufs.foldlM updateWith (shaInit info) = .ok info₁ ∧
      shaFinal info₁ = .ok (sha1 bufs.flatten,info₂) := by
  obtain ⟨info₁,hrun,h₁⟩ := shaUpdates_spec (shaInit_represents h) hlen
  obtain ⟨info₂,hfinal⟩ := shaFinal_spec h₁
  exact ⟨info₁,info₂,hrun,hfinal⟩

theorem sha1_pieces_three :
    ∃ info₁ info₂, [[97],[],[98,99]].foldlM updateWith
        (shaInit ⟨⟨1,2,3,4,5⟩,6,7,List.replicate 64 8,9⟩) = .ok info₁ ∧
      shaFinal info₁ = .ok (sha1 [[97],[],[98,99]].flatten,info₂) :=
  sha1_pieces ⟨⟨1,2,3,4,5⟩,6,7,List.replicate 64 8,9⟩ (by decide) (by decide)

/-- The digest of the three letters `abc`. -/
example : sha1 [97,98,99] = [0xa9,0x99,0x3e,0x36,0x47,0x06,0x81,0x6a,0xba,0x3e,0x25,0x71,0x78,
    0x50,0xc2,0x6c,0x9c,0xd0,0xd8,0x9d] := by
  decide +kernel

end Sha1
end Http2d
