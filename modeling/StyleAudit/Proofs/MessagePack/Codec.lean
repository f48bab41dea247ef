import StyleAudit.MessagePack.Decode
import StyleAudit.Proofs.MessagePack.Format

/-!
# Reading takes exactly one message

A message in front of any bytes is read as its value, if it does not nest too
deep, and what is read from any bytes is the value of a message at their front.
So a message tells where it ends: no message is a proper beginning of another.
-/

namespace StyleAudit

theorem Bytes.split?_append (bytes rest : Bytes) :
    split? bytes.length (bytes ++ rest) = some (bytes, rest) := by
  induction bytes with
  | nil => rfl
  | cons byte bytes ih =>
      rw [List.length_cons, List.cons_append, split?, ih]
      rfl

theorem Bytes.of_split? {count : Nat} {bytes first rest : Bytes}
    (found : split? count bytes = some (first, rest)) :
    bytes = first ++ rest ∧ first.length = count := by
  fun_induction split? count bytes generalizing first with
  | case1 bytes =>
      obtain ⟨rfl, rfl⟩ := Prod.mk.inj (Option.some.inj found)
      exact ⟨rfl, rfl⟩
  | case2 => cases found
  | case3 count byte bytes ih =>
      obtain ⟨⟨front, back⟩, split, same⟩ := Option.map_eq_some_iff.mp found
      obtain ⟨rfl, rfl⟩ := Prod.mk.inj same
      obtain ⟨rfl, rfl⟩ := ih split
      exact ⟨rfl, rfl⟩

namespace MessagePack

/-! ## Readers -/

namespace Reader

variable {α β : Type}

/-- The reader takes exactly these bytes and makes `a` of them. -/
def Reads (reader : Reader α) (written : Bytes) (a : α) : Prop :=
  ∀ rest, reader (written ++ rest) = some (a, rest)

/-- What the reader makes of the bytes that it takes is as it should be. -/
def Takes (reader : Reader α) (meant : α → Bytes → Prop) : Prop :=
  ∀ ⦃bytes a rest⦄, reader bytes = some (a, rest) →
    ∃ front, bytes = front ++ rest ∧ meant a front

theorem Takes.mono {reader : Reader α} {meant other : α → Bytes → Prop}
    (takes : Takes reader meant)
    (weaker : ∀ a front, meant a front → other a front) :
    Takes reader other := by
  intro bytes a rest found
  obtain ⟨front, split, isMeant⟩ := takes found
  exact ⟨front, split, weaker a front isMeant⟩

/-- A reader whose outcome is changed. -/
def mapped (reader : Reader α) (change : α → β) : Reader β :=
  fun bytes => (reader bytes).map fun read => (change read.1, read.2)

theorem Reads.mapped {reader : Reader α} {written : Bytes} {a : α}
    (reads : Reads reader written a) (change : α → β) :
    Reads (reader.mapped change) written (change a) := by
  intro rest
  rw [Reader.mapped, reads, Option.map_some]

theorem Takes.mapped {reader : Reader α} {change : α → β}
    {meant : β → Bytes → Prop}
    (takes : Takes reader fun a front => meant (change a) front) :
    Takes (reader.mapped change) meant := by
  intro bytes b rest found
  obtain ⟨⟨a, back⟩, read, same⟩ := Option.map_eq_some_iff.mp found
  obtain ⟨rfl, rfl⟩ := Prod.mk.inj same
  exact takes read

theorem reads_split? (bytes : Bytes) :
    Reads (Bytes.split? bytes.length) bytes bytes :=
  Bytes.split?_append bytes

theorem takes_split? (count : Nat) :
    Takes (Bytes.split? count) fun part front =>
      part = front ∧ front.length = count := by
  intro bytes part rest found
  obtain ⟨split, counted⟩ := Bytes.of_split? found
  exact ⟨part, split, rfl, counted⟩

theorem reads_natural (number : Bytes) :
    Reads (natural number.length) number (Bytes.toNat number) :=
  (reads_split? number).mapped Bytes.toNat

theorem takes_natural (width : Nat) :
    Takes (natural width) fun n front =>
      n = Bytes.toNat front ∧ front.length = width := by
  apply Takes.mapped
  apply (takes_split? width).mono
  rintro part front ⟨rfl, counted⟩
  exact ⟨rfl, counted⟩

/-- Nothing is read. -/
def done (a : α) : Reader α :=
  fun bytes => some (a, bytes)

/-- One thing, and then what it asks for. -/
def andThen (reader : Reader α) (next : α → Reader β) : Reader β :=
  fun bytes => (reader bytes).bind fun read => next read.1 read.2

theorem reads_done (a : α) : Reads (done a) [] a :=
  fun _ => rfl

theorem takes_done {a : α} {meant : α → Bytes → Prop} (isMeant : meant a []) :
    Takes (done a) meant := by
  intro bytes b rest found
  obtain ⟨rfl, rfl⟩ := Prod.mk.inj (Option.some.inj found)
  exact ⟨[], rfl, isMeant⟩

theorem takes_never {meant : α → Bytes → Prop} :
    Takes (fun _ => none) meant :=
  fun _ _ _ found => nomatch found

theorem Reads.andThen {reader : Reader α} {next : α → Reader β}
    {front back : Bytes} {a : α} {b : β} (first : Reads reader front a)
    (second : Reads (next a) back b) :
    Reads (reader.andThen next) (front ++ back) b := by
  intro rest
  rw [Reader.andThen, List.append_assoc, first, Option.bind_some, second]

theorem Takes.andThen {reader : Reader α} {next : α → Reader β}
    {meant : α → Bytes → Prop} {whole : β → Bytes → Prop}
    (first : Takes reader meant)
    (second : ∀ a front, meant a front →
      Takes (next a) fun b back => whole b (front ++ back)) :
    Takes (reader.andThen next) whole := by
  intro bytes b rest found
  obtain ⟨⟨a, between⟩, read, later⟩ := Option.bind_eq_some_iff.mp found
  obtain ⟨front, split, isMeant⟩ := first read
  obtain ⟨back, behind, isWhole⟩ := second a front isMeant later
  have behind : between = back ++ rest := behind
  refine ⟨front ++ back, ?_, isWhole⟩
  rw [split, behind, List.append_assoc]

theorem Reads.andDone {reader : Reader α} {written : Bytes} {a : α}
    (reads : Reads reader written a) (make : α → β) :
    Reads (reader.andThen fun a => done (make a)) written (make a) := by
  rw [← List.append_nil written]
  exact reads.andThen (reads_done (make a))

theorem Takes.andDone {reader : Reader α} {make : α → β}
    {meant : β → Bytes → Prop}
    (takes : Takes reader fun a front => meant (make a) front) :
    Takes (reader.andThen fun a => done (make a)) meant := by
  apply takes.andThen
  intro a front isMeant
  apply takes_done
  rwa [List.append_nil]

theorem many_succ (reader : Reader α) (count : Nat) :
    reader.many (count + 1) =
      reader.andThen fun item =>
        (reader.many count).andThen fun items => done (item :: items) :=
  rfl

theorem pair_eq (first : Reader α) (second : Reader β) :
    first.pair second =
      first.andThen fun a => second.andThen fun b => done (a, b) :=
  rfl

theorem Reads.many {γ : Type} {reader : Reader α} {make : γ → α}
    {write : γ → Bytes} {list : List γ}
    (each : ∀ c ∈ list, Reads reader (write c) (make c)) :
    Reads (reader.many list.length) (list.flatMap write) (list.map make) := by
  induction list with
  | nil => exact reads_done []
  | cons c rest ih =>
      have first := each c List.mem_cons_self
      have later := ih fun other member =>
        each other (List.mem_cons_of_mem c member)
      rw [List.length_cons, many_succ, List.flatMap_cons, List.map_cons]
      exact first.andThen (later.andDone (make c :: ·))

theorem Takes.many {reader : Reader α} {meant : α → Bytes → Prop}
    (takes : Takes reader meant) (count : Nat) :
    Takes (reader.many count) fun list front =>
      ∃ parts : List (α × Bytes), parts.length = count ∧
        list = parts.map Prod.fst ∧ front = parts.flatMap Prod.snd ∧
        ∀ part ∈ parts, meant part.1 part.2 := by
  induction count with
  | zero => exact takes_done ⟨[], rfl, rfl, rfl, List.forall_mem_nil _⟩
  | succ count ih =>
      rw [many_succ]
      apply takes.andThen
      intro a front isMeant
      apply Takes.andDone
      apply ih.mono
      rintro list back ⟨parts, rfl, rfl, rfl, each⟩
      exact ⟨(a, front) :: parts, rfl, rfl, rfl,
        List.forall_mem_cons.mpr ⟨isMeant, each⟩⟩

theorem Reads.pair {first : Reader α} {second : Reader β}
    {front back : Bytes} {a : α} {b : β} (firstReads : Reads first front a)
    (secondReads : Reads second back b) :
    Reads (first.pair second) (front ++ back) (a, b) := by
  rw [pair_eq]
  exact firstReads.andThen (secondReads.andDone (a, ·))

theorem Takes.pair {first : Reader α} {second : Reader β}
    {meantFirst : α → Bytes → Prop} {meantSecond : β → Bytes → Prop}
    (firstTakes : Takes first meantFirst)
    (secondTakes : Takes second meantSecond) :
    Takes (first.pair second) fun pair front =>
      ∃ left right, front = left ++ right ∧ meantFirst pair.1 left ∧
        meantSecond pair.2 right := by
  rw [pair_eq]
  apply firstTakes.andThen
  intro a front isMeant
  apply Takes.andDone
  apply secondTakes.mono
  exact fun b back alsoMeant => ⟨front, back, rfl, isMeant, alsoMeant⟩

end Reader

open Reader (Reads Takes)

/-! ## Messages are read -/

section Messages

variable {inner : Option (Reader Value)}

theorem reads_marked {byte : UInt8} {marker : Marker} {body : Bytes}
    {value : Value} (marked : Marker.ofByte? byte = some marker)
    (reads : Reads (decodeMarked inner marker) body value) :
    Reads (decodeWith inner) (byte :: body) value := by
  intro rest
  rw [List.cons_append, decodeWith, marked]
  exact reads rest

theorem reads_header {shape : Shape} {size : Nat} {head body : Bytes}
    {value : Value} (header : Header shape size head)
    (reads : Reads (decodeSized inner shape size) body value) :
    Reads (decodeWith inner) (head ++ body) value := by
  cases header with
  | sized marked => exact reads_marked marked reads
  | @measured byte number marked =>
      exact reads_marked marked ((Reader.reads_natural number).andThen reads)

/-- A value with nothing inside it is read in the same way at every depth. -/
theorem reads_decode_of_all {value : Value} {bytes : Bytes}
    (reads : ∀ inner, Reads (decodeWith inner) bytes value) (depth : Nat) :
    Reads (decode depth) bytes value := by
  cases depth with
  | zero => exact reads none
  | succ depth => exact reads (some (decode depth))

/-- A message is read as its value, if it does not nest too deep. -/
theorem reads_decode {value : Value} {bytes : Bytes}
    (spells : Spells value bytes) {depth : Nat}
    (shallow : value.depth ≤ depth) : Reads (decode depth) bytes value := by
  induction spells generalizing depth with
  | nil marked =>
      apply reads_decode_of_all
      intro inner
      exact reads_marked marked (Reader.reads_done Value.nil)
  | @bool byte value marked =>
      apply reads_decode_of_all
      intro inner
      exact reads_marked marked (Reader.reads_done (Value.bool value))
  | @fixed byte n marked =>
      apply reads_decode_of_all
      intro inner
      exact reads_marked marked (Reader.reads_done (Value.unsigned n))
  | @fixedNegative byte n marked =>
      apply reads_decode_of_all
      intro inner
      exact reads_marked marked (Reader.reads_done (Value.signed n))
  | @unsigned byte number marked =>
      apply reads_decode_of_all
      intro inner
      exact reads_marked marked
        ((Reader.reads_natural number).mapped Value.unsigned)
  | @signed byte number marked =>
      apply reads_decode_of_all
      intro inner
      exact reads_marked marked
        ((Reader.reads_split? number).mapped fun bytes =>
          Value.signed (Bytes.toInt bytes))
  | @float byte number marked =>
      apply reads_decode_of_all
      intro inner
      exact reads_marked marked
        ((Reader.reads_split? number).mapped Value.float)
  | @text head bytes header =>
      apply reads_decode_of_all
      intro inner
      exact reads_header header ((Reader.reads_split? bytes).mapped Value.text)
  | @binary head bytes header =>
      apply reads_decode_of_all
      intro inner
      exact reads_header header
        ((Reader.reads_split? bytes).mapped Value.binary)
  | @extension size head bytes header counted =>
      cases depth with
      | zero => simp [Value.depth] at shallow
      | succ depth =>
          have reads := (Reader.reads_split? bytes).andDone Value.extension
          rw [counted] at reads
          exact reads_header header reads
  | @array head items header _ ih =>
      cases depth with
      | zero => simp [Value.depth] at shallow
      | succ depth =>
          rw [Value.depth, Nat.add_le_add_iff_right] at shallow
          have each : ∀ item ∈ items, Reads (decode depth) item.2 item.1 := by
            intro item member
            have inside := Value.depth_le_depthOf
              (List.mem_map_of_mem (f := Prod.fst) member)
            exact ih item member (Nat.le_trans inside shallow)
          exact reads_header header ((Reads.many each).andDone Value.array)
  | @map head entries header _ _ keys values =>
      cases depth with
      | zero => simp [Value.depth] at shallow
      | succ depth =>
          rw [Value.depth, Nat.add_le_add_iff_right] at shallow
          have each : ∀ entry ∈ entries,
              Reads ((decode depth).pair (decode depth))
                (entry.1.2 ++ entry.2.2) (entry.1.1, entry.2.1) := by
            intro entry member
            obtain ⟨key, value⟩ := Value.depth_le_depthOfEntries
              (List.mem_map_of_mem (f := fun entry :
                (Value × Bytes) × (Value × Bytes) =>
                  (entry.1.1, entry.2.1)) member)
            exact (keys entry member (Nat.le_trans key shallow)).pair
              (values entry member (Nat.le_trans value shallow))
          exact reads_header header ((Reads.many each).andDone Value.map)

/-! ## Only messages are read -/

/-- What was taken pair by pair, key by key and value by value. -/
theorem exists_entries_of_pairs {pairs : List ((Value × Value) × Bytes)}
    (each : ∀ pair ∈ pairs, ∃ left right, pair.2 = left ++ right ∧
      Spells pair.1.1 left ∧ Spells pair.1.2 right) :
    ∃ entries : List ((Value × Bytes) × (Value × Bytes)),
      entries.length = pairs.length ∧
      entries.map (fun entry => (entry.1.1, entry.2.1)) =
        pairs.map Prod.fst ∧
      entries.flatMap (fun entry => entry.1.2 ++ entry.2.2) =
        pairs.flatMap Prod.snd ∧
      (∀ entry ∈ entries, Spells entry.1.1 entry.1.2) ∧
      ∀ entry ∈ entries, Spells entry.2.1 entry.2.2 := by
  induction pairs with
  | nil =>
      exact ⟨[], rfl, rfl, rfl, List.forall_mem_nil _, List.forall_mem_nil _⟩
  | cons pair rest ih =>
      obtain ⟨⟨left, right, split, key, value⟩, later⟩ :=
        List.forall_mem_cons.mp each
      obtain ⟨entries, counted, values, bytes, keys, spelled⟩ := ih later
      refine ⟨((pair.1.1, left), (pair.1.2, right)) :: entries, ?_, ?_, ?_,
        List.forall_mem_cons.mpr ⟨key, keys⟩,
        List.forall_mem_cons.mpr ⟨value, spelled⟩⟩
      · rw [List.length_cons, List.length_cons, counted]
      · rw [List.map_cons, List.map_cons, values]
      · rw [List.flatMap_cons, List.flatMap_cons, bytes, split]

theorem takes_decodeSized
    (inside : ∀ reader ∈ inner, Takes reader Spells) (shape : Shape)
    (size : Nat) :
    Takes (decodeSized inner shape size) fun value body =>
      ∀ head, Header shape size head → Spells value (head ++ body) := by
  have text : Takes (decodeSized inner .text size) fun value body =>
      ∀ head, Header .text size head → Spells value (head ++ body) := by
    apply Takes.mapped
    apply (Reader.takes_split? size).mono
    rintro part front ⟨rfl, rfl⟩ head header
    exact .text header
  have binary : Takes (decodeSized inner .binary size) fun value body =>
      ∀ head, Header .binary size head → Spells value (head ++ body) := by
    apply Takes.mapped
    apply (Reader.takes_split? size).mono
    rintro part front ⟨rfl, rfl⟩ head header
    exact .binary header
  cases inner with
  | none =>
      cases shape with
      | text => exact text
      | binary => exact binary
      | array => exact Reader.takes_never
      | map => exact Reader.takes_never
      | extension => exact Reader.takes_never
  | some reader =>
      have each : Takes reader Spells := inside reader rfl
      cases shape with
      | text => exact text
      | binary => exact binary
      | extension =>
          apply Takes.andDone
          apply (Reader.takes_split? (size + 1)).mono
          rintro part front ⟨rfl, counted⟩ head header
          exact .extension header counted
      | array =>
          apply Takes.andDone
          apply (each.many size).mono
          rintro list front ⟨items, rfl, rfl, rfl, spelled⟩ head header
          exact .array header spelled
      | map =>
          apply Takes.andDone
          apply ((each.pair each).many size).mono
          rintro list front ⟨pairs, rfl, rfl, rfl, taken⟩ head header
          obtain ⟨entries, counted, values, bytes, keys, spelled⟩ :=
            exists_entries_of_pairs taken
          rw [← values, ← bytes]
          exact .map (counted ▸ header) keys spelled

private theorem takes_decodeMarked
    (inside : ∀ reader ∈ inner, Takes reader Spells) (marker : Marker) :
    Takes (decodeMarked inner marker) fun value body =>
      ∀ byte, Marker.ofByte? byte = some marker →
        Spells value (byte :: body) := by
  cases marker with
  | nil => exact Reader.takes_done fun byte marked => .nil marked
  | bool value => exact Reader.takes_done fun byte marked => .bool marked
  | fixed n => exact Reader.takes_done fun byte marked => .fixed marked
  | fixedNegative n =>
      exact Reader.takes_done fun byte marked => .fixedNegative marked
  | unsigned width =>
      apply Takes.mapped
      apply (Reader.takes_natural width).mono
      rintro n front ⟨rfl, rfl⟩ byte marked
      exact .unsigned marked
  | signed width =>
      change Takes (Reader.mapped (Bytes.split? width) fun part =>
        Value.signed (Bytes.toInt part)) _
      apply Takes.mapped
      apply (Reader.takes_split? width).mono
      rintro part front ⟨rfl, rfl⟩ byte marked
      exact .signed marked
  | float width =>
      apply Takes.mapped
      apply (Reader.takes_split? width).mono
      rintro part front ⟨rfl, rfl⟩ byte marked
      exact .float marked
  | sized shape size =>
      apply (takes_decodeSized inside shape size).mono
      intro value body spelled byte marked
      exact spelled [byte] (.sized marked)
  | measured shape width =>
      change Takes ((Reader.natural width).andThen (decodeSized inner shape)) _
      apply (Reader.takes_natural width).andThen
      rintro size number ⟨rfl, rfl⟩
      apply (takes_decodeSized inside shape _).mono
      intro value body spelled byte marked
      exact spelled (byte :: number) (.measured marked)

theorem takes_decodeWith
    (inside : ∀ reader ∈ inner, Takes reader Spells) :
    Takes (decodeWith inner) Spells := by
  intro bytes value rest found
  cases bytes with
  | nil => cases found
  | cons byte bytes =>
      obtain ⟨marker, marked, read⟩ := Option.bind_eq_some_iff.mp found
      obtain ⟨body, rfl, spelled⟩ := takes_decodeMarked inside marker read
      exact ⟨byte :: body, rfl, spelled byte marked⟩

/-- What is read is the value of a message at the front of the bytes. -/
theorem takes_decode (depth : Nat) : Takes (decode depth) Spells := by
  induction depth with
  | zero => exact takes_decodeWith (fun _ absent => by cases absent)
  | succ depth ih =>
      apply takes_decodeWith
      rintro reader ⟨⟩
      exact ih

end Messages

/-! ## No message begins another -/

/-- A message that another one begins with is the other one. -/
theorem Spells.eq_of_isPrefix {left right : Value} {short long : Bytes}
    (shortSpells : Spells left short) (longSpells : Spells right long)
    (begins : short <+: long) : short = long := by
  obtain ⟨rest, rfl⟩ := begins
  have part := reads_decode shortSpells (Nat.le_max_left _ right.depth) rest
  have whole := reads_decode longSpells (Nat.le_max_right left.depth _) []
  rw [List.append_nil, part] at whole
  obtain ⟨-, rfl⟩ := Prod.mk.inj (Option.some.inj whole)
  rw [List.append_nil]

end MessagePack

end StyleAudit
