import StyleAudit.MessagePack.Value

/-!
# Writing MessagePack

Numbers without sign and sizes are written as short as possible.
-/

namespace StyleAudit

namespace MessagePack

/-- A number without sign. -/
def encodeUnsigned (n : Nat) : Bytes :=
  if n < 0x80 then [UInt8.ofNat n]
  else if n < 0x100 then 0xcc :: Bytes.ofNat 1 n
  else if n < 0x10000 then 0xcd :: Bytes.ofNat 2 n
  else if n < 0x100000000 then 0xce :: Bytes.ofNat 4 n
  else 0xcf :: Bytes.ofNat 8 n

/-- The beginning of text of so many bytes. -/
def textHeader (size : Nat) : Bytes :=
  if size < 0x20 then [UInt8.ofNat (0xa0 + size)]
  else if size < 0x100 then 0xd9 :: Bytes.ofNat 1 size
  else if size < 0x10000 then 0xda :: Bytes.ofNat 2 size
  else 0xdb :: Bytes.ofNat 4 size

/-- The beginning of binary data of so many bytes. -/
def binaryHeader (size : Nat) : Bytes :=
  if size < 0x100 then 0xc4 :: Bytes.ofNat 1 size
  else if size < 0x10000 then 0xc5 :: Bytes.ofNat 2 size
  else 0xc6 :: Bytes.ofNat 4 size

/-- The beginning of an array of so many items. -/
def arrayHeader (size : Nat) : Bytes :=
  if size < 0x10 then [UInt8.ofNat (0x90 + size)]
  else if size < 0x10000 then 0xdc :: Bytes.ofNat 2 size
  else 0xdd :: Bytes.ofNat 4 size

/-- The beginning of a map of so many entries. -/
def mapHeader (size : Nat) : Bytes :=
  if size < 0x10 then [UInt8.ofNat (0x80 + size)]
  else if size < 0x10000 then 0xde :: Bytes.ofNat 2 size
  else 0xdf :: Bytes.ofNat 4 size

mutual

/-- The bytes of a value. -/
def encode : Value → Bytes
  | .nil => [0xc0]
  | .bool value => [if value then 0xc3 else 0xc2]
  | .unsigned n => encodeUnsigned n
  | .signed n => 0xd3 :: Bytes.ofNat 8 (n % 0x10000000000000000).toNat
  | .float bytes => (if bytes.length = 4 then 0xca else 0xcb) :: bytes
  | .text bytes => textHeader bytes.length ++ bytes
  | .binary bytes => binaryHeader bytes.length ++ bytes
  | .array items => arrayHeader items.length ++ encodeItems items
  | .map entries => mapHeader entries.length ++ encodeEntries entries
  | .extension bytes => 0xc9 :: Bytes.ofNat 4 (bytes.length - 1) ++ bytes

/-- The bytes of values one after another. -/
def encodeItems : List Value → Bytes
  | [] => []
  | item :: rest => encode item ++ encodeItems rest

/-- The bytes of keys and values in turn. -/
def encodeEntries : List (Value × Value) → Bytes
  | [] => []
  | (key, value) :: rest => encode key ++ (encode value ++ encodeEntries rest)

end

end MessagePack

end StyleAudit
