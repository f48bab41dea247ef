import Mathlib.Algebra.Order.Ring.Int
import StyleAudit.MessagePack.Encode

/-!
# The MessagePack format

Which bytes are a message of which value.  A value may have several messages,
since sizes and numbers may be written longer than they need to be.  Writing
takes the shortest form, and for a value that keeps the limits of the format
this is a message of it.
-/

namespace StyleAudit

/-! ## Bytes -/

namespace Bytes

theorem length_ofNat (width n : Nat) : (ofNat width n).length = width := by
  fun_induction ofNat width n with
  | case1 => rfl
  | case2 n width ih => rw [List.length_append, ih, List.length_singleton]

private theorem toNat_concat (bytes : Bytes) (byte : UInt8) :
    toNat (bytes ++ [byte]) = 256 * toNat bytes + byte.toNat := by
  rw [toNat, List.foldl_append]
  rfl

theorem toNat_ofNat {width n : Nat} (fits : n < 256 ^ width) :
    toNat (ofNat width n) = n := by
  induction width generalizing n with
  | zero =>
      have zero : n = 0 := Nat.lt_one_iff.mp fits
      rw [zero]
      rfl
  | succ width ih =>
      have less : n / 256 < 256 ^ width := by
        rw [Nat.div_lt_iff_lt_mul (by decide), ← Nat.pow_succ]
        exact fits
      rw [ofNat, toNat_concat, ih less, UInt8.toNat_ofNat']
      omega

theorem toInt_ofNat {n : Int} (low : -2 ^ 63 ≤ n) (high : n < 2 ^ 63) :
    toInt (ofNat 8 (n % 0x10000000000000000).toNat) = n := by
  have fits : (n % 0x10000000000000000).toNat < 256 ^ 8 := by omega
  rw [toInt, toNat_ofNat fits, length_ofNat]
  have bound : Nat.pow 256 8 = 2 ^ 64 := by decide
  rw [bound]
  split <;> omega

end Bytes

namespace MessagePack

/-! ## Messages -/

/-- The bytes in front of a value of this shape and size. -/
inductive Header (shape : Shape) : Nat → Bytes → Prop where
  | sized {byte : UInt8} {size : Nat} :
      Marker.ofByte? byte = some (.sized shape size) →
      Header shape size [byte]
  | measured {byte : UInt8} {number : Bytes} :
      Marker.ofByte? byte = some (.measured shape number.length) →
      Header shape (Bytes.toNat number) (byte :: number)

/-- The bytes are a message of the value. -/
inductive Spells : Value → Bytes → Prop where
  | nil {byte : UInt8} :
      Marker.ofByte? byte = some .nil → Spells .nil [byte]
  | bool {byte : UInt8} {value : Bool} :
      Marker.ofByte? byte = some (.bool value) → Spells (.bool value) [byte]
  | fixed {byte : UInt8} {n : Nat} :
      Marker.ofByte? byte = some (.fixed n) → Spells (.unsigned n) [byte]
  | fixedNegative {byte : UInt8} {n : Int} :
      Marker.ofByte? byte = some (.fixedNegative n) → Spells (.signed n) [byte]
  | unsigned {byte : UInt8} {number : Bytes} :
      Marker.ofByte? byte = some (.unsigned number.length) →
      Spells (.unsigned (Bytes.toNat number)) (byte :: number)
  | signed {byte : UInt8} {number : Bytes} :
      Marker.ofByte? byte = some (.signed number.length) →
      Spells (.signed (Bytes.toInt number)) (byte :: number)
  | float {byte : UInt8} {number : Bytes} :
      Marker.ofByte? byte = some (.float number.length) →
      Spells (.float number) (byte :: number)
  | text {head bytes : Bytes} :
      Header .text bytes.length head → Spells (.text bytes) (head ++ bytes)
  | binary {head bytes : Bytes} :
      Header .binary bytes.length head → Spells (.binary bytes) (head ++ bytes)
  | extension {size : Nat} {head bytes : Bytes} :
      Header .extension size head → bytes.length = size + 1 →
      Spells (.extension bytes) (head ++ bytes)
  | array {head : Bytes} {items : List (Value × Bytes)} :
      Header .array items.length head →
      (∀ item ∈ items, Spells item.1 item.2) →
      Spells (.array (items.map Prod.fst)) (head ++ items.flatMap Prod.snd)
  | map {head : Bytes} {entries : List ((Value × Bytes) × (Value × Bytes))} :
      Header .map entries.length head →
      (∀ entry ∈ entries, Spells entry.1.1 entry.1.2) →
      (∀ entry ∈ entries, Spells entry.2.1 entry.2.2) →
      Spells (.map (entries.map fun entry => (entry.1.1, entry.2.1)))
        (head ++ entries.flatMap fun entry => entry.1.2 ++ entry.2.2)

namespace Value

mutual

/-- How deep arrays, maps and extensions nest in a value. -/
def depth : Value → Nat
  | .array items => depthOf items + 1
  | .map entries => depthOfEntries entries + 1
  | .extension _ => 1
  | .nil | .bool _ | .unsigned _ | .signed _ | .float _ | .text _
  | .binary _ => 0

/-- How deep they nest in the deepest of the values. -/
def depthOf : List Value → Nat
  | [] => 0
  | item :: rest => max item.depth (depthOf rest)

/-- How deep they nest in the deepest of the keys and values. -/
def depthOfEntries : List (Value × Value) → Nat
  | [] => 0
  | (key, value) :: rest =>
    max (max key.depth value.depth) (depthOfEntries rest)

end

theorem depth_le_depthOf {item : Value} {items : List Value}
    (member : item ∈ items) : item.depth ≤ depthOf items := by
  induction items with
  | nil => exact (List.not_mem_nil member).elim
  | cons first rest ih =>
      rw [depthOf]
      rcases List.mem_cons.mp member with rfl | later
      · exact Nat.le_max_left _ _
      · exact Nat.le_trans (ih later) (Nat.le_max_right _ _)

theorem depth_le_depthOfEntries {entry : Value × Value}
    {entries : List (Value × Value)} (member : entry ∈ entries) :
    entry.1.depth ≤ depthOfEntries entries ∧
      entry.2.depth ≤ depthOfEntries entries := by
  induction entries with
  | nil => exact (List.not_mem_nil member).elim
  | cons first rest ih =>
      rw [depthOfEntries]
      rcases List.mem_cons.mp member with rfl | later
      · omega
      · have := ih later
        omega

/-- The sizes and numbers of a value have a place in the format. -/
inductive Fits : Value → Prop where
  | nil : Fits .nil
  | bool {value : Bool} : Fits (.bool value)
  | unsigned {n : Nat} : n < 2 ^ 64 → Fits (.unsigned n)
  | signed {n : Int} : -2 ^ 63 ≤ n → n < 2 ^ 63 → Fits (.signed n)
  | float {bytes : Bytes} :
      bytes.length = 4 ∨ bytes.length = 8 → Fits (.float bytes)
  | text {bytes : Bytes} : bytes.length < 2 ^ 32 → Fits (.text bytes)
  | binary {bytes : Bytes} : bytes.length < 2 ^ 32 → Fits (.binary bytes)
  | array {items : List Value} :
      items.length < 2 ^ 32 → (∀ item ∈ items, Fits item) →
      Fits (.array items)
  | map {entries : List (Value × Value)} :
      entries.length < 2 ^ 32 → (∀ entry ∈ entries, Fits entry.1) →
      (∀ entry ∈ entries, Fits entry.2) → Fits (.map entries)
  | extension {bytes : Bytes} :
      0 < bytes.length → bytes.length ≤ 2 ^ 32 → Fits (.extension bytes)

end Value

/-! ## The shortest headers -/

theorem ofByte?_fixed {n : Nat} (small : n < 0x80) :
    Marker.ofByte? (UInt8.ofNat n) = some (.fixed n) := by
  have byte : (UInt8.ofNat n).toNat = n := by
    rw [UInt8.toNat_ofNat']
    omega
  rw [Marker.ofByte?, byte, if_pos small]

theorem ofByte?_map {size : Nat} (small : size < 0x10) :
    Marker.ofByte? (UInt8.ofNat (0x80 + size)) = some (.sized .map size) := by
  have byte : (UInt8.ofNat (0x80 + size)).toNat = 0x80 + size := by
    rw [UInt8.toNat_ofNat']
    omega
  rw [Marker.ofByte?, byte, if_neg (by omega), if_pos (by omega),
    Nat.add_sub_cancel_left]

theorem ofByte?_array {size : Nat} (small : size < 0x10) :
    Marker.ofByte? (UInt8.ofNat (0x90 + size)) =
      some (.sized .array size) := by
  have byte : (UInt8.ofNat (0x90 + size)).toNat = 0x90 + size := by
    rw [UInt8.toNat_ofNat']
    omega
  rw [Marker.ofByte?, byte, if_neg (by omega), if_neg (by omega),
    if_pos (by omega), Nat.add_sub_cancel_left]

private theorem ofByte?_text {size : Nat} (small : size < 0x20) :
    Marker.ofByte? (UInt8.ofNat (0xa0 + size)) = some (.sized .text size) := by
  have byte : (UInt8.ofNat (0xa0 + size)).toNat = 0xa0 + size := by
    rw [UInt8.toNat_ofNat']
    omega
  rw [Marker.ofByte?, byte, if_neg (by omega), if_neg (by omega),
    if_neg (by omega), if_pos (by omega), Nat.add_sub_cancel_left]

/-- A size may be written in any width that has a place for it. -/
theorem header_measured {shape : Shape} {byte : UInt8} (width : Nat)
    {size : Nat} (fits : size < 256 ^ width)
    (marked : Marker.ofByte? byte = some (.measured shape width)) :
    Header shape size (byte :: Bytes.ofNat width size) := by
  rw [← Bytes.length_ofNat width size] at marked
  have header := Header.measured marked
  rwa [Bytes.toNat_ofNat fits] at header

theorem header_text {size : Nat} (fits : size < 2 ^ 32) :
    Header .text size (textHeader size) := by
  rw [textHeader]
  split
  · exact .sized (ofByte?_text ‹_›)
  split
  · exact header_measured 1 ‹_› (by decide)
  split
  · exact header_measured 2 ‹_› (by decide)
  · exact header_measured 4 fits (by decide)

theorem header_binary {size : Nat} (fits : size < 2 ^ 32) :
    Header .binary size (binaryHeader size) := by
  rw [binaryHeader]
  split
  · exact header_measured 1 ‹_› (by decide)
  split
  · exact header_measured 2 ‹_› (by decide)
  · exact header_measured 4 fits (by decide)

theorem header_array {size : Nat} (fits : size < 2 ^ 32) :
    Header .array size (arrayHeader size) := by
  rw [arrayHeader]
  split
  · exact .sized (ofByte?_array ‹_›)
  split
  · exact header_measured 2 ‹_› (by decide)
  · exact header_measured 4 fits (by decide)

theorem header_map {size : Nat} (fits : size < 2 ^ 32) :
    Header .map size (mapHeader size) := by
  rw [mapHeader]
  split
  · exact .sized (ofByte?_map ‹_›)
  split
  · exact header_measured 2 ‹_› (by decide)
  · exact header_measured 4 fits (by decide)

/-! ## What is written -/

/-- A number may be written in any width that has a place for it. -/
theorem spells_unsigned {byte : UInt8} (width : Nat) {n : Nat}
    (fits : n < 256 ^ width)
    (marked : Marker.ofByte? byte = some (.unsigned width)) :
    Spells (.unsigned n) (byte :: Bytes.ofNat width n) := by
  rw [← Bytes.length_ofNat width n] at marked
  have spells := Spells.unsigned marked
  rwa [Bytes.toNat_ofNat fits] at spells

theorem spells_encodeUnsigned {n : Nat} (fits : n < 2 ^ 64) :
    Spells (.unsigned n) (encodeUnsigned n) := by
  rw [encodeUnsigned]
  split
  · exact .fixed (ofByte?_fixed ‹_›)
  split
  · exact spells_unsigned 1 ‹_› (by decide)
  split
  · exact spells_unsigned 2 ‹_› (by decide)
  split
  · exact spells_unsigned 4 ‹_› (by decide)
  · exact spells_unsigned 8 fits (by decide)

theorem encodeItems_eq_flatMap (items : List Value) :
    encodeItems items = items.flatMap encode := by
  induction items with
  | nil => rw [encodeItems, List.flatMap_nil]
  | cons item rest ih => rw [encodeItems, List.flatMap_cons, ih]

theorem encodeEntries_eq_flatMap (entries : List (Value × Value)) :
    encodeEntries entries =
      entries.flatMap fun entry => encode entry.1 ++ encode entry.2 := by
  induction entries with
  | nil => rw [encodeEntries, List.flatMap_nil]
  | cons entry rest ih =>
      rw [encodeEntries, List.flatMap_cons, ih, List.append_assoc]

private theorem spells_array {head : Bytes} {items : List Value}
    (header : Header .array items.length head)
    (each : ∀ item ∈ items, Spells item (encode item)) :
    Spells (.array items) (head ++ items.flatMap encode) := by
  have spells := @Spells.array head
    (items.map fun item => (item, encode item))
  simp only [List.length_map, List.forall_mem_map, List.map_map,
    List.flatMap_map, Function.comp_def, List.map_id'] at spells
  exact spells header each

private theorem spells_map {head : Bytes} {entries : List (Value × Value)}
    (header : Header .map entries.length head)
    (keys : ∀ entry ∈ entries, Spells entry.1 (encode entry.1))
    (values : ∀ entry ∈ entries, Spells entry.2 (encode entry.2)) :
    Spells (.map entries)
      (head ++ entries.flatMap fun entry =>
        encode entry.1 ++ encode entry.2) := by
  have spells := @Spells.map head
    (entries.map fun entry =>
      ((entry.1, encode entry.1), (entry.2, encode entry.2)))
  simp only [List.length_map, List.forall_mem_map, List.map_map,
    List.flatMap_map, Function.comp_def, List.map_id'] at spells
  exact spells header keys values

/-- What is written for a value is a message of it. -/
theorem spells_encode {value : Value} (fits : value.Fits) :
    Spells value (encode value) := by
  induction fits with
  | nil => exact .nil (by decide)
  | @bool value =>
      cases value with
      | false => exact .bool (by decide)
      | true => exact .bool (by decide)
  | unsigned small =>
      rw [encode]
      exact spells_encodeUnsigned small
  | @signed n low high =>
      have spells := @Spells.signed 0xd3
        (Bytes.ofNat 8 (n % 0x10000000000000000).toNat)
        (by rw [Bytes.length_ofNat]; decide)
      rw [Bytes.toInt_ofNat low high] at spells
      rw [encode]
      exact spells
  | @float bytes size =>
      rw [encode]
      rcases size with four | eight
      · rw [if_pos four]
        exact .float (by rw [four]; decide)
      · rw [if_neg (by omega)]
        exact .float (by rw [eight]; decide)
  | text size =>
      rw [encode]
      exact .text (header_text size)
  | binary size =>
      rw [encode]
      exact .binary (header_binary size)
  | array size _ ih =>
      rw [encode, encodeItems_eq_flatMap]
      exact spells_array (header_array size) ih
  | map size _ _ keys values =>
      rw [encode, encodeEntries_eq_flatMap]
      exact spells_map (header_map size) keys values
  | @extension bytes filled size =>
      have fits : bytes.length - 1 < 256 ^ 4 := by omega
      have header : Header .extension (bytes.length - 1)
          (0xc9 :: Bytes.ofNat 4 (bytes.length - 1)) :=
        header_measured 4 fits (by decide)
      rw [encode]
      exact .extension header (Nat.sub_add_cancel filled).symm

end MessagePack

end StyleAudit
