import Mathlib.Tactic

/-! The streaming interface of zlib, with `Z_SYNC_FLUSH` as the flush mode and a preset dictionary.
What the manual promises of `deflate` and `inflate` is stated about what a stream was given and what
it put out so far. -/
namespace Zlib

/-- The return codes. -/
inductive Code
  | ok | streamEnd | needDict | streamError | dataError | memError | bufError
  deriving DecidableEq, Repr

/-- What a call leaves: the code, the stream, how much of the input was taken and what was written. -/
structure Step (S : Type) where
  code : Code
  state : S
  taken : ℕ
  out : List UInt8

/-- An implementation. A call gets the input and the room for output. -/
structure Impl where
  D : Type
  I : Type
  deflateStart : D
  inflateStart : I
  deflate : D → List UInt8 → ℕ → Step D
  inflate : I → List UInt8 → ℕ → Step I
  inflateSetDictionary : I → List UInt8 → Code × I
  deflateEnd : D → D
  inflateEnd : I → I

/-- What the manual says. -/
structure Contract (z : Impl) (dictionary : List UInt8) where
  /-- What compressed bytes decompress to, as far as they go. -/
  plain : List UInt8 → List UInt8
  plain_nil : plain [] = []
  plain_mono (xs ys : List UInt8) : plain xs <+: plain (xs ++ ys)
  /-- What `deflate` has taken and written since the start. -/
  fed : z.D → List UInt8
  gave : z.D → List UInt8
  /-- The last call has used up all the room. -/
  unfinished : z.D → Prop
  /-- How far the flush is from its end. -/
  left : z.D → List UInt8 → ℕ
  deflate_start : fed z.deflateStart = [] ∧ gave z.deflateStart = []
  deflate_io (d input room) : (z.deflate d input room).taken ≤ input.length ∧
    (z.deflate d input room).out.length ≤ room ∧
    fed (z.deflate d input room).state = fed d ++ input.take (z.deflate d input room).taken ∧
    gave (z.deflate d input room).state = gave d ++ (z.deflate d input room).out
  /-- There is progress to make on new input, and when a flush is to be continued. -/
  deflate_ok (d input room) : 0 < room → input ≠ [] ∨ unfinished d →
    (z.deflate d input room).code = .ok
  /-- A flush is complete when room is left: all input can be decompressed. -/
  deflate_flushed (d input room) : (z.deflate d input room).code = .ok →
    (z.deflate d input room).out.length < room →
      (z.deflate d input room).taken = input.length ∧
        plain (gave (z.deflate d input room).state) = fed (z.deflate d input room).state
  deflate_unfinished (d input room) : (z.deflate d input room).code = .ok →
    (z.deflate d input room).out.length = room → unfinished (z.deflate d input room).state
  /-- With more than six bytes of room there are no repeated flush markers. -/
  deflate_progress (d input room) : (z.deflate d input room).code = .ok → 6 < room →
    (z.deflate d input room).out.length = room →
      left (z.deflate d input room).state (input.drop (z.deflate d input room).taken) < left d input
  /-- What `inflate` has taken and written since the start. -/
  got : z.I → List UInt8
  put : z.I → List UInt8
  /-- The dictionary was set; the last call asked for it. -/
  dictSet : z.I → Prop
  wantsDict : z.I → Prop
  inflate_start : got z.inflateStart = [] ∧ put z.inflateStart = [] ∧ ¬ wantsDict z.inflateStart
  inflate_io (i input room) : (z.inflate i input room).taken ≤ input.length ∧
    (z.inflate i input room).out.length ≤ room ∧
    got (z.inflate i input room).state = got i ++ input.take (z.inflate i input room).taken ∧
    put (z.inflate i input room).state = put i ++ (z.inflate i input room).out
  inflate_sound (i input room) : put (z.inflate i input room).state <+:
    plain (got (z.inflate i input room).state)
  /-- There is progress to make on the output of `deflate`. -/
  inflate_code (i input room) (d) : got i ++ input <+: gave d → input ≠ [] → 0 < room →
    ¬ wantsDict i → (z.inflate i input room).code = .ok ∨ (z.inflate i input room).code = .needDict
  inflate_progress (i input room) : (z.inflate i input room).code = .ok →
    0 < (z.inflate i input room).taken ∨ (z.inflate i input room).out ≠ []
  /-- When room is left, no output is pending. -/
  inflate_all (i input room) : (z.inflate i input room).code = .ok →
    (z.inflate i input room).out.length < room →
      put (z.inflate i input room).state = plain (got (z.inflate i input room).state)
  inflate_notWants (i input room) : (z.inflate i input room).code = .ok →
    ¬ wantsDict (z.inflate i input room).state
  inflate_dictSet (i input room) : dictSet i → dictSet (z.inflate i input room).state
  /-- The dictionary is asked for once, in front of all data. -/
  inflate_needDict (i input room) : (z.inflate i input room).code = .needDict →
    (z.inflate i input room).out = [] ∧ plain (got (z.inflate i input room).state) = [] ∧
      wantsDict (z.inflate i input room).state ∧ ¬ dictSet i
  setDictionary (i) : wantsDict i → (z.inflateSetDictionary i dictionary).1 = .ok ∧
    dictSet (z.inflateSetDictionary i dictionary).2 ∧
    ¬ wantsDict (z.inflateSetDictionary i dictionary).2 ∧
    got (z.inflateSetDictionary i dictionary).2 = got i ∧
    put (z.inflateSetDictionary i dictionary).2 = put i

variable {z : Impl} {dictionary : List UInt8}

/-- A flush was completed by the last call. -/
def Contract.Flushed (_ : Contract z dictionary) (d : z.D) : Prop :=
  ∃ d' input room, d = (z.deflate d' input room).state ∧ (z.deflate d' input room).code = .ok ∧
    (z.deflate d' input room).out.length < room

/-- `inflate` does not read to the end of a flush as long as output is pending. The manual does not
promise it. -/
def Contract.HoldsBack (c : Contract z dictionary) : Prop :=
  ∀ d, c.Flushed d → ∀ i input room, c.got i ++ input = c.gave d →
    (z.inflate i input room).code = .ok → (z.inflate i input room).taken = input.length →
      c.put (z.inflate i input room).state = c.plain (c.got (z.inflate i input room).state)

end Zlib
