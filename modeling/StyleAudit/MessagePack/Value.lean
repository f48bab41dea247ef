/-!
# MessagePack values

The values of the MessagePack format.  Text and binary data are kept as bytes,
since text in a message need not be well formed.
-/

namespace StyleAudit

/-- A run of bytes. -/
abbrev Bytes := List UInt8

namespace Bytes

/-- The first bytes and the rest, if there are so many. -/
def split? : (count : Nat) → Bytes → Option (Bytes × Bytes)
  | 0, rest => some ([], rest)
  | _ + 1, [] => none
  | count + 1, byte :: rest =>
    (split? count rest).map fun parts => (byte :: parts.1, parts.2)

/-- A number in so many bytes, the highest first. -/
def ofNat : (width : Nat) → Nat → Bytes
  | 0, _ => []
  | width + 1, n => ofNat width (n / 256) ++ [UInt8.ofNat n]

/-- The number that bytes stand for, the highest first. -/
def toNat (bytes : Bytes) : Nat :=
  bytes.foldl (fun n byte => 256 * n + byte.toNat) 0

/-- The number that bytes stand for, the highest first, where the first bit
tells the sign. -/
def toInt (bytes : Bytes) : Int :=
  if 2 * toNat bytes < Nat.pow 256 bytes.length then toNat bytes
  else toNat bytes - (Nat.pow 256 bytes.length : Nat)

end Bytes

namespace MessagePack

/-- A value of a message. -/
inductive Value where
  | nil
  | bool (value : Bool)
  /-- A number that is written without a sign. -/
  | unsigned (value : Nat)
  /-- A number that is written with a sign. -/
  | signed (value : Int)
  /-- A floating point number, by its bytes. -/
  | float (bytes : Bytes)
  | text (bytes : Bytes)
  | binary (bytes : Bytes)
  | array (items : List Value)
  | map (entries : List (Value × Value))
  /-- A value that the format leaves open: a byte for its type, then its
  bytes. -/
  | extension (bytes : Bytes)
deriving Repr

/-- What a value with a size consists of. -/
inductive Shape where
  | text
  | binary
  | array
  | map
  | extension
deriving DecidableEq, Repr

/-- What the first byte of a value says. -/
inductive Marker where
  | nil
  | bool (value : Bool)
  /-- The byte holds the number. -/
  | fixed (value : Nat)
  /-- The byte holds the negative number. -/
  | fixedNegative (value : Int)
  /-- A number without sign in so many bytes follows. -/
  | unsigned (width : Nat)
  /-- A number with sign in so many bytes follows. -/
  | signed (width : Nat)
  /-- A floating point number in so many bytes follows. -/
  | float (width : Nat)
  /-- The byte holds the size. -/
  | sized (shape : Shape) (size : Nat)
  /-- The size follows, in so many bytes. -/
  | measured (shape : Shape) (width : Nat)
deriving DecidableEq, Repr

namespace Marker

/-- The markers from `0xc0` to `0xdf`.  The second one has no meaning. -/
def wide? : (offset : Nat) → Option Marker
  | 0x00 => some .nil
  | 0x02 => some (.bool false)
  | 0x03 => some (.bool true)
  | 0x04 => some (.measured .binary 1)
  | 0x05 => some (.measured .binary 2)
  | 0x06 => some (.measured .binary 4)
  | 0x07 => some (.measured .extension 1)
  | 0x08 => some (.measured .extension 2)
  | 0x09 => some (.measured .extension 4)
  | 0x0a => some (.float 4)
  | 0x0b => some (.float 8)
  | 0x0c => some (.unsigned 1)
  | 0x0d => some (.unsigned 2)
  | 0x0e => some (.unsigned 4)
  | 0x0f => some (.unsigned 8)
  | 0x10 => some (.signed 1)
  | 0x11 => some (.signed 2)
  | 0x12 => some (.signed 4)
  | 0x13 => some (.signed 8)
  | 0x14 => some (.sized .extension 1)
  | 0x15 => some (.sized .extension 2)
  | 0x16 => some (.sized .extension 4)
  | 0x17 => some (.sized .extension 8)
  | 0x18 => some (.sized .extension 16)
  | 0x19 => some (.measured .text 1)
  | 0x1a => some (.measured .text 2)
  | 0x1b => some (.measured .text 4)
  | 0x1c => some (.measured .array 2)
  | 0x1d => some (.measured .array 4)
  | 0x1e => some (.measured .map 2)
  | 0x1f => some (.measured .map 4)
  | _ => none

/-- What a first byte says. -/
def ofByte? (byte : UInt8) : Option Marker :=
  let n := byte.toNat
  if n < 0x80 then some (.fixed n)
  else if n < 0x90 then some (.sized .map (n - 0x80))
  else if n < 0xa0 then some (.sized .array (n - 0x90))
  else if n < 0xc0 then some (.sized .text (n - 0xa0))
  else if n < 0xe0 then wide? (n - 0xc0)
  else some (.fixedNegative ((n : Int) - 0x100))

end Marker

end MessagePack

end StyleAudit
