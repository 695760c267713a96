/-!
# A 64-bit digest of texts

The number under which a text is filed in a hash. It is a digest, not a name: different texts can
have the same one. Short texts are covered by two overlapping words; longer ones are absorbed
sixteen bytes at a time, and their last sixteen bytes close the digest.
-/

namespace Monkey.Digest

/-- The product of two words, its upper half folded onto its lower half. -/
def mix (x y : UInt64) : UInt64 :=
  let product := x.toNat * y.toNat
  UInt64.ofNat product ^^^ UInt64.ofNat (product / UInt64.size)

/-- The word written by some bytes, the least significant first. -/
def word : List UInt8 → UInt64
  | [] => 0
  | b :: bs => b.toUInt64 + 256 * word bs

/-- The two words that are carried along. -/
structure State where
  /-- The word that the next bytes are folded into. -/
  first : UInt64
  /-- The word whose turn is next. -/
  second : UInt64

/-- The state before the first byte. -/
def initial : State := ⟨0x243f6a8885a308d3, 0x13198a2e03707344⟩

/-- Folds two words into a state, one into each half. -/
def State.fold (s : State) (x y : UInt64) : State := ⟨s.first ^^^ x, s.second ^^^ y⟩

/-- Absorbs the given number of sixteen-byte blocks from the front of some bytes. -/
def State.absorb (s : State) : Nat → List UInt8 → State
  | 0, _ => s
  | blocks + 1, bytes =>
    let x := word (bytes.take 8)
    let y := word ((bytes.drop 8).take 8)
    State.absorb ⟨s.second, mix (s.first ^^^ x) (0xa4093822299f31d0 ^^^ y)⟩ blocks (bytes.drop 16)

/-- The state after at most sixteen bytes: words from both ends, which may overlap. -/
def short (bytes : List UInt8) : State :=
  let n := bytes.length
  if 8 ≤ n then
    initial.fold (word (bytes.take 8)) (word (bytes.drop (n - 8)))
  else if 4 ≤ n then
    initial.fold (word (bytes.take 4)) (word (bytes.drop (n - 4)))
  else if 0 < n then
    let middle := word ((bytes.drop (n / 2)).take 1)
    initial.fold (word (bytes.take 1)) (256 * word (bytes.drop (n - 1)) ||| middle)
  else
    initial

/-- The state after more than sixteen bytes: all full blocks but the end, then the last sixteen
bytes. -/
def long (bytes : List UInt8) : State :=
  let n := bytes.length
  let tail := bytes.drop (n - 16)
  (initial.absorb ((n - 1) / 16) bytes).fold (word (tail.take 8)) (word (tail.drop 8))

/-- The digest of some bytes, before its bits are spread. -/
def ofBytes (bytes : List UInt8) : UInt64 :=
  let s := if bytes.length ≤ 16 then short bytes else long bytes
  mix s.first s.second ^^^ UInt64.ofNat bytes.length

/-- A word turned by the given number of bits to the left, for a number below 64. -/
def rotate (x : UInt64) (bits : UInt64) : UInt64 := x <<< bits ||| x >>> (64 - bits)

/-- The digest of a text, through its UTF-8 bytes. -/
def ofText (text : String) : UInt64 :=
  rotate (ofBytes text.toUTF8.toList * 0xf1357aea2e62a9c5) 26

end Monkey.Digest
