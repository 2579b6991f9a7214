import Mathlib.Data.List.Basic
import EasyLsm.Lib.Codec

/-!
# CRC-32

The reflected CRC-32 with polynomial `0xEDB88320`, one bit at a time.
-/

namespace EasyLsm.Lib

/-- Shift the remainder by one bit. -/
def crc32Bit (c : UInt32) : UInt32 :=
  if c &&& 1 = 1 then (c >>> 1) ^^^ 0xEDB88320 else c >>> 1

/-- Take one byte into the remainder. -/
def crc32Byte (c : UInt32) (b : UInt8) : UInt32 :=
  (List.range 8).foldl (fun c _ => crc32Bit c) (c ^^^ b.toUInt32)

/-- The CRC-32 of a byte string. -/
def crc32 (bs : Bytes) : UInt32 := bs.foldl crc32Byte 0xFFFFFFFF ^^^ 0xFFFFFFFF

/-- The check value: the CRC of the digits `1` to `9` in ASCII. -/
example : crc32 [49, 50, 51, 52, 53, 54, 55, 56, 57] = 0xCBF43926 := by decide +kernel

end EasyLsm.Lib
