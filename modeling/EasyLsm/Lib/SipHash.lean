import Mathlib.Data.List.Basic
import EasyLsm.Lib.Codec

/-!
# SipHash-1-3

SipHash with one round for each word of the input and three rounds at the end.
-/

namespace EasyLsm.Lib

/-- The state of SipHash. -/
structure SipState where
  v0 : UInt64
  v1 : UInt64
  v2 : UInt64
  v3 : UInt64

namespace SipState

/-- Rotate a word to the left. -/
def rotl (x : UInt64) (n : UInt64) : UInt64 := (x <<< n) ||| (x >>> (64 - n))

/-- The state for a key. -/
def new (key : UInt64 × UInt64) : SipState where
  v0 := key.1 ^^^ 0x736f6d6570736575
  v1 := key.2 ^^^ 0x646f72616e646f6d
  v2 := key.1 ^^^ 0x6c7967656e657261
  v3 := key.2 ^^^ 0x7465646279746573

/-- One round. -/
def round (s : SipState) : SipState :=
  let v0 := s.v0 + s.v1
  let v1 := rotl s.v1 13 ^^^ v0
  let v0 := rotl v0 32
  let v2 := s.v2 + s.v3
  let v3 := rotl s.v3 16 ^^^ v2
  let v0 := v0 + v3
  let v3 := rotl v3 21 ^^^ v0
  let v2 := v2 + v1
  let v1 := rotl v1 17 ^^^ v2
  let v2 := rotl v2 32
  ⟨v0, v1, v2, v3⟩

/-- Take a word of the input. -/
def absorb (s : SipState) (word : UInt64) : SipState :=
  let s := round { s with v3 := s.v3 ^^^ word }
  { s with v0 := s.v0 ^^^ word }

/-- The three rounds at the end. -/
def finish (s : SipState) : UInt64 :=
  let s := round (round (round { s with v2 := s.v2 ^^^ 0xFF }))
  s.v0 ^^^ s.v1 ^^^ s.v2 ^^^ s.v3

end SipState

/-- SipHash-1-3 of a byte string. The last word has the bytes that are left and, in its highest
byte, the length. -/
def sipHash13 (key : UInt64 × UInt64) (bs : Bytes) : UInt64 :=
  let words := (List.range (bs.length / 8)).map fun i =>
    UInt64.ofNat (leNat ((bs.drop (8 * i)).take 8))
  let rest := UInt64.ofNat (leNat (bs.drop (8 * (bs.length / 8))))
  let last := rest ||| (UInt64.ofNat bs.length <<< 56)
  ((words ++ [last]).foldl SipState.absorb (SipState.new key)).finish

/-- The reference key, with the empty input. -/
example : sipHash13 (0x0706050403020100, 0x0F0E0D0C0B0A0908) [] = 0xabac0158050fc4dc := by
  decide +kernel

end EasyLsm.Lib
