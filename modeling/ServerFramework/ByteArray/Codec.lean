import ServerFramework.Lib.Digits
import ServerFramework.ByteArray.Basic

/-! # The typed writers and readers

Fixed-width integers are copied in host order, with their bytes swapped when the array's
byte order is not the host's. Variable-length integers are base-128 groups, signed ones
zigzag-mapped first. A string is its length, in one of four encodings, and its bytes.
Arithmetic on fixed-width integers wraps around.
-/

namespace ServerFramework

open Digits

/-- `std::string::max_size()` of a 64-bit libstdc++. -/
def stringMaxSize : ℕ := 2 ^ 62 - 1

/-- A `std::string`. -/
abbrev StdString := { s : List UInt8 // s.length ≤ stringMaxSize }

/-- The bytes of an `n`-byte integer in the memory of the host. -/
def hostBytes (host : Endian) (n v : ℕ) : List UInt8 :=
  match host with
  | .little => leBytes n v
  | .big => (leBytes n v).reverse

/-- The integer that lies in the given bytes of the host's memory. -/
def ofHostBytes (host : Endian) (bs : List UInt8) : ℕ :=
  match host with
  | .little => ofLeBytes bs
  | .big => ofLeBytes bs.reverse

/-- `bswap_16`, `bswap_32` and `bswap_64`, by the number of bytes. -/
def byteswap (n v : ℕ) : ℕ := ofLeBytes (leBytes n v).reverse

def encodeZigzag {w : ℕ} (v : BitVec w) : BitVec w :=
  if v.toInt < 0 then -v * 2#w - 1#w else v * 2#w

def decodeZigzag {w : ℕ} (v : BitVec w) : BitVec w := (v >>> 1) ^^^ -(v &&& 1#w)

def encodeZigzag32 (v : Int32) : UInt32 := .ofBitVec (encodeZigzag v.toBitVec)
def encodeZigzag64 (v : Int64) : UInt64 := .ofBitVec (encodeZigzag v.toBitVec)
def decodeZigzag32 (v : UInt32) : Int32 := .ofBitVec (decodeZigzag v.toBitVec)
def decodeZigzag64 (v : UInt64) : Int64 := .ofBitVec (decodeZigzag v.toBitVec)

/-- The bytes that the loop of `WriteUint32` and `WriteUint64` leaves in `tmp`. -/
def varintBytes {w : ℕ} (value : BitVec w) : List UInt8 :=
  if value.toNat ≥ 0x80 then
    UInt8.ofNat (value &&& 0x7F#w ||| 0x80#w).toNat :: varintBytes (value >>> 7)
  else [UInt8.ofNat value.toNat]
termination_by value.toNat
decreasing_by
  rw [BitVec.toNat_ushiftRight, Nat.shiftRight_eq_div_pow]
  omega

namespace ByteArray

section Write

variable (heap : Heap) (host : Endian)

/-- Write an `n`-byte integer in the array's byte order. -/
def writeFixed (n v : ℕ) : M Unit := do
  let endian := (← get).endian
  write heap (hostBytes host n (if endian ≠ host then byteswap n v else v))

def writeFint8 (value : Int8) : M Unit := write heap [value.toUInt8]
def writeFuint8 (value : UInt8) : M Unit := write heap [value]
def writeFint16 (value : Int16) : M Unit := writeFixed heap host 2 value.toUInt16.toNat
def writeFuint16 (value : UInt16) : M Unit := writeFixed heap host 2 value.toNat
def writeFint32 (value : Int32) : M Unit := writeFixed heap host 4 value.toUInt32.toNat
def writeFuint32 (value : UInt32) : M Unit := writeFixed heap host 4 value.toNat
def writeFint64 (value : Int64) : M Unit := writeFixed heap host 8 value.toUInt64.toNat
def writeFuint64 (value : UInt64) : M Unit := writeFixed heap host 8 value.toNat

def writeUint32 (value : UInt32) : M Unit := write heap (varintBytes value.toBitVec)
def writeInt32 (value : Int32) : M Unit := writeUint32 heap (encodeZigzag32 value)
def writeUint64 (value : UInt64) : M Unit := write heap (varintBytes value.toBitVec)
def writeInt64 (value : Int64) : M Unit := writeUint64 heap (encodeZigzag64 value)

/-- `WriteFloat` on the bit pattern of the number. -/
def writeFloat (value : UInt32) : M Unit := writeFuint32 heap host value

/-- `WriteDouble` on the bit pattern of the number. -/
def writeDouble (value : UInt64) : M Unit := writeFuint64 heap host value

-- the length is converted to the width of its prefix
def writeStringF16 (value : StdString) : M Unit := do
  writeFuint16 heap host (UInt16.ofNat value.1.length)
  write heap value.1

def writeStringF32 (value : StdString) : M Unit := do
  writeFuint32 heap host (UInt32.ofNat value.1.length)
  write heap value.1

def writeStringF64 (value : StdString) : M Unit := do
  writeFuint64 heap host (UInt64.ofNat value.1.length)
  write heap value.1

def writeStringVint (value : StdString) : M Unit := do
  writeUint64 heap (UInt64.ofNat value.1.length)
  write heap value.1

def writeStringWithoutLength (value : StdString) : M Unit := write heap value.1

end Write

section Read

variable (host : Endian)

/-- Read an `n`-byte integer in the array's byte order. -/
def readFixed (n : ℕ) : M ℕ := do
  let v := ofHostBytes host (← read n)
  let endian := (← get).endian
  return if endian = host then v else byteswap n v

def readFuint8 : M UInt8 := do return UInt8.ofNat (ofLeBytes (← read 1))
def readFint8 : M Int8 := do return (UInt8.ofNat (ofLeBytes (← read 1))).toInt8
def readFuint16 : M UInt16 := do return UInt16.ofNat (← readFixed host 2)
def readFint16 : M Int16 := do return (UInt16.ofNat (← readFixed host 2)).toInt16
def readFuint32 : M UInt32 := do return UInt32.ofNat (← readFixed host 4)
def readFint32 : M Int32 := do return (UInt32.ofNat (← readFixed host 4)).toInt32
def readFuint64 : M UInt64 := do return UInt64.ofNat (← readFixed host 8)
def readFint64 : M Int64 := do return (UInt64.ofNat (← readFixed host 8)).toInt64

/-- The loop of `ReadUint32` and `ReadUint64` from shift `i` on. -/
def readVarint {w : ℕ} (i : ℕ) (result : BitVec w) : M (BitVec w) :=
  if i < w then do
    let b ← readFuint8
    if b < 0x80 then return result ||| (BitVec.ofNat w b.toNat <<< i)
    else readVarint (i + 7) (result ||| (BitVec.ofNat w (b &&& 0x7f).toNat <<< i))
  else return result
termination_by w - i

def readUint32 : M UInt32 := do return .ofBitVec (← readVarint 0 0#_)
def readInt32 : M Int32 := do return decodeZigzag32 (← readUint32)
def readUint64 : M UInt64 := do return .ofBitVec (← readVarint 0 0#_)
def readInt64 : M Int64 := do return decodeZigzag64 (← readUint64)

def readFloat : M UInt32 := readFuint32 host
def readDouble : M UInt64 := readFuint64 host

/-- `buff.resize(len); read(&buff[0], len);`, where the resized string has room for `len`
bytes. -/
def readString (len : ℕ) : M StdString :=
  if h : len ≤ stringMaxSize then do
    let bytes ← read len
    return ⟨bytes.take len, (List.length_take_le _ _).trans h⟩
  else throw .lengthError

def readStringF16 : M StdString := do readString (← readFuint16 host).toNat
def readStringF32 : M StdString := do readString (← readFuint32 host).toNat
def readStringF64 : M StdString := do readString (← readFuint64 host).toNat
def readStringVint : M StdString := do readString (← readUint64).toNat

end Read

end ByteArray

end ServerFramework
