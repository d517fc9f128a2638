import IndexingService.Multihash
import Mathlib.Algebra.Group.Int
import Mathlib.Algebra.Group.Nat.Basic
import Mathlib.Data.List.Sort

/-!
# DAG-CBOR

The provider cache keeps provider results as DAG-CBOR, written and read by `go-ipld-prime`
(`dagcbor.Encode` and `dagcbor.Decode` behind `ipld.Marshal` and `ipld.Unmarshal`).  This
file models the part of the IPLD data model and of the codec that the provider-results
schema reaches: null, booleans, integers, byte and text strings, lists, and maps with string
keys.  An item is a head (its major type and argument, in the shortest form) and a payload;
the encoder writes map entries in DAG-CBOR's key order, shorter keys first.  The decoder reads
one item and rejects a head that is not in the shortest form, an item that demands more than
the allocation budget, and trailing bytes.  Nested items are read with one unit of fuel per
level; the buffer's length is always enough fuel, so this is no limit of the decoder's.

The budget is ten mebibytes of gas, which the decoder charges as it reads: the length of each
byte or text string, one per boolean and integer, four per list element and the key's length
plus eight per map entry, and it stops as soon as the gas runs out.  Every charge is
nonnegative, and the early check of a list's or map's declared length against the gas left is
met whenever the charges of its elements are, so a buffer is read within the budget exactly
when the item's total charge, `Node.cost`, is at most the budget: the model reads the item,
then checks its cost.  A buffer that both fails to parse and exceeds the budget is rejected
either way, with one error or the other.

Every node whose lengths fit in 64 bits, whose integers fit in 64 signed bits, whose maps are
in key order and whose cost is within the budget is read back as itself.
-/

namespace Indexing.Cbor

/-- The IPLD data model without floats and links, which the schema does not use. -/
inductive Node
  | null
  | bool (b : Bool)
  | int (i : Int)
  | bytes (b : Bytes)
  | string (s : Bytes)
  | list (items : List Node)
  | map (entries : List (Bytes × Node))
  deriving Repr

/-- The low `8 * k` bits of `n`, big-endian. -/
def beBytes : Nat → Nat → Bytes
  | 0, _ => []
  | k + 1, n => UInt8.ofNat (n / 256 ^ k) :: beBytes k (n % 256 ^ k)

/-- The number a big-endian byte string spells. -/
def beValue : Bytes → Nat
  | [] => 0
  | b :: bs => b.toNat * 256 ^ bs.length + beValue bs

/-- The head of an item with major type `major` and argument `n`, in the shortest form. -/
def encodeHead (major n : Nat) : Bytes :=
  let lead (info : Nat) : UInt8 := UInt8.ofNat (major * 32 + info)
  if n < 24 then [lead n]
  else if n < 2 ^ 8 then lead 24 :: beBytes 1 n
  else if n < 2 ^ 16 then lead 25 :: beBytes 2 n
  else if n < 2 ^ 32 then lead 26 :: beBytes 4 n
  else lead 27 :: beBytes 8 n

/-- Bytewise order of byte strings. -/
def bytesBefore : Bytes → Bytes → Bool
  | [], [] => false
  | [], _ :: _ => true
  | _ :: _, [] => false
  | a :: as, b :: bs => Nat.blt a.toNat b.toNat || (Nat.beq a.toNat b.toNat && bytesBefore as bs)

/-- DAG-CBOR's order of map keys: shorter first, then bytewise. -/
def keyBefore (a b : Bytes) : Bool :=
  Nat.blt a.length b.length || (Nat.beq a.length b.length && bytesBefore a b)

/-- Map entries in DAG-CBOR's key order, as `dagcbor.Encode` sorts them. -/
def sortEntries (entries : List (Bytes × Bytes)) : List (Bytes × Bytes) :=
  entries.insertionSort fun e e' => keyBefore e.1 e'.1 = true

mutual

/-- `dagcbor.Encode` of a node. -/
def Node.encode : Node → Bytes
  | .null => [0xf6]
  | .bool b => if b then [0xf5] else [0xf4]
  | .int i => if 0 ≤ i then encodeHead 0 i.toNat else encodeHead 1 (-1 - i).toNat
  | .bytes b => encodeHead 2 b.length ++ b
  | .string s => encodeHead 3 s.length ++ s
  | .list items => encodeHead 4 items.length ++ encodeItems items
  | .map entries =>
    encodeHead 5 entries.length ++
      ((sortEntries (encodeEntries entries)).map fun e => encodeHead 3 e.1.length ++ e.1 ++ e.2).flatten

/-- The items of a list, one after the other. -/
def encodeItems : List Node → Bytes
  | [] => []
  | n :: ns => n.encode ++ encodeItems ns

/-- Each entry of a map with its value encoded. -/
def encodeEntries : List (Bytes × Node) → List (Bytes × Bytes)
  | [] => []
  | (k, n) :: es => (k, n.encode) :: encodeEntries es

end

/-- The head of an item: major type, additional information and argument. -/
structure Head where
  major : Nat
  info : Nat
  arg : Nat

/-- The least argument a head with additional information `info`, from 24 to 27, may carry:
a smaller one has a shorter head. -/
def leastArgument (info : Nat) : Nat :=
  if info = 24 then 24 else 256 ^ 2 ^ (info - 25)

/-- Read the head of an item.  The argument follows the first byte in 1, 2, 4 or 8 bytes, and
must need them; indefinite lengths and the reserved values are not DAG-CBOR. -/
def readHead : Bytes → Except String (Head × Bytes)
  | [] => .error "unexpected EOF"
  | b :: rest =>
    let major := b.toNat / 32
    let info := b.toNat % 32
    if info < 24 then .ok (⟨major, info, info⟩, rest)
    else if info < 28 then
      let k := 2 ^ (info - 24)
      if rest.length < k then .error "unexpected EOF"
      else if beValue (rest.take k) < leastArgument info then
        .error "cbor: integer not minimally encoded"
      else .ok (⟨major, info, beValue (rest.take k)⟩, rest.drop k)
    else .error "invalid additional information"

/-- The payload of a byte or text string of length `n`. -/
def readPayload (n : Nat) (bytes : Bytes) : Except String (Bytes × Bytes) :=
  if bytes.length < n then .error "unexpected EOF" else .ok (bytes.take n, bytes.drop n)

/-- Read `n` things one after the other with `item`. -/
def decodeMany {α : Type} (item : Bytes → Except String (α × Bytes)) :
    Nat → Bytes → Except String (List α × Bytes)
  | 0, bytes => .ok ([], bytes)
  | n + 1, bytes => do
    let (x, bytes) ← item bytes
    let (xs, bytes) ← decodeMany item n bytes
    return (x :: xs, bytes)

/-- Read a map entry: a text-string key, then a value with `value`. -/
def decodeEntry (value : Bytes → Except String (Node × Bytes)) (bytes : Bytes) :
    Except String ((Bytes × Node) × Bytes) := do
  let (head, rest) ← readHead bytes
  if head.major ≠ 3 then throw "map keys must be strings"
  let (key, rest) ← readPayload head.arg rest
  let (n, rest) ← value rest
  return ((key, n), rest)

/-- Read one item, with `fuel` levels of nesting. -/
def decodeItem : Nat → Bytes → Except String (Node × Bytes)
  | 0, _ => .error "nesting too deep"
  | fuel + 1, bytes => do
    let (head, rest) ← readHead bytes
    match head.major with
    | 0 => if head.arg < 2 ^ 63 then return (.int head.arg, rest) else throw "integer too large"
    | 1 =>
      if head.arg < 2 ^ 63 then return (.int (-1 - head.arg), rest) else throw "integer too large"
    | 2 => do
      let (b, rest) ← readPayload head.arg rest
      return (.bytes b, rest)
    | 3 => do
      let (s, rest) ← readPayload head.arg rest
      return (.string s, rest)
    | 4 => do
      let (items, rest) ← decodeMany (decodeItem fuel) head.arg rest
      return (.list items, rest)
    | 5 => do
      let (entries, rest) ← decodeMany (decodeEntry (decodeItem fuel)) head.arg rest
      return (.map entries, rest)
    | 7 =>
      if head.info = 20 then return (.bool false, rest)
      else if head.info = 21 then return (.bool true, rest)
      else if head.info = 22 then return (.null, rest)
      else throw "unsupported simple value"
    | _ => throw "unsupported major type"

/-- The gas `dagcbor.Decode` starts from. -/
def allocationBudget : Nat :=
  1048576 * 10

mutual

/-- The gas the decoder charges for a node: the length of a byte or text string, one for a
boolean or an integer, nothing for null, and for a list or a map what its elements cost. -/
def Node.cost : Node → Nat
  | .null => 0
  | .bool _ | .int _ => 1
  | .bytes b | .string b => b.length
  | .list items => itemsCost items
  | .map entries => entriesCost entries

/-- Four for each element of a list, and what the element costs. -/
def itemsCost : List Node → Nat
  | [] => 0
  | n :: ns => 4 + n.cost + itemsCost ns

/-- The key's length plus eight for each entry of a map, and what its value costs. -/
def entriesCost : List (Bytes × Node) → Nat
  | [] => 0
  | (k, n) :: es => k.length + 8 + n.cost + entriesCost es

end

/-- Lists whose elements cost the same pointwise cost the same. -/
theorem itemsCost_congr {items items' : List Node}
    (same : List.Forall₂ (fun n n' => n.cost = n'.cost) items items') :
    itemsCost items = itemsCost items' := by
  induction same with
  | nil => rfl
  | cons head _ ih => simp only [itemsCost, head, ih]

/-- What a map costs does not depend on the order of its entries. -/
theorem entriesCost_perm {entries entries' : List (Bytes × Node)} (perm : entries.Perm entries') :
    entriesCost entries = entriesCost entries' := by
  induction perm with
  | nil => rfl
  | cons e _ ih => simp only [entriesCost, ih]
  | swap e e' es =>
    simp only [entriesCost]
    omega
  | trans _ _ ih ih' => exact ih.trans ih'

/-- `dagcbor.Decode` of a whole buffer: one item within the allocation budget, and nothing
after it.  An item takes at least one byte, so the buffer's length is enough fuel. -/
def decode (bytes : Bytes) : Except String Node := do
  let (n, rest) ← decodeItem bytes.length bytes
  if allocationBudget < n.cost then throw "message structure demanded too many resources to process"
  if rest.isEmpty then return n else throw "unexpected content after end of node"

example : decode [0x82, 0xf6, 0x41, 0x07] = .ok (.list [.null, .bytes [7]]) := rfl

example : decode [0x18, 0x05] = .error "cbor: integer not minimally encoded" := rfl

/-! ## The round trip -/

mutual

/-- A node that DAG-CBOR writes and reads back: lengths below `2 ^ 64`, integers in 64
signed bits, and map keys in DAG-CBOR's order. -/
def Node.Encodable : Node → Prop
  | .null | .bool _ => True
  | .int i => -2 ^ 63 ≤ i ∧ i < 2 ^ 63
  | .bytes b | .string b => b.length < 2 ^ 64
  | .list items => items.length < 2 ^ 64 ∧ ItemsEncodable items
  | .map entries =>
    entries.length < 2 ^ 64 ∧ (entries.map Prod.fst).Sorted (fun a b => keyBefore a b = true) ∧
      EntriesEncodable entries

/-- Every item of a list is encodable. -/
def ItemsEncodable : List Node → Prop
  | [] => True
  | n :: ns => n.Encodable ∧ ItemsEncodable ns

/-- Every key of a map is short enough and every value encodable. -/
def EntriesEncodable : List (Bytes × Node) → Prop
  | [] => True
  | (k, n) :: es => k.length < 2 ^ 64 ∧ n.Encodable ∧ EntriesEncodable es

end

theorem itemsEncodable_iff {items : List Node} :
    ItemsEncodable items ↔ ∀ n ∈ items, n.Encodable := by
  induction items with
  | nil => simp [ItemsEncodable]
  | cons n ns ih => simp [ItemsEncodable, ih]

theorem entriesEncodable_iff {entries : List (Bytes × Node)} :
    EntriesEncodable entries ↔ ∀ e ∈ entries, e.1.length < 2 ^ 64 ∧ e.2.Encodable := by
  induction entries with
  | nil => simp [EntriesEncodable]
  | cons e es ih => simp [EntriesEncodable, ih, and_assoc]

theorem encodeItems_eq (items : List Node) : encodeItems items = (items.map Node.encode).flatten := by
  induction items with
  | nil => rfl
  | cons n ns ih => simp [encodeItems, ih]

theorem encodeEntries_eq (entries : List (Bytes × Node)) :
    encodeEntries entries = entries.map fun e => (e.1, e.2.encode) := by
  induction entries with
  | nil => rfl
  | cons e es ih => simp [encodeEntries, ih]

@[simp] theorem length_beBytes (k n : Nat) : (beBytes k n).length = k := by
  induction k generalizing n with
  | zero => rfl
  | succ k ih => simp [beBytes, ih]

theorem beValue_beBytes {k n : Nat} (small : n < 256 ^ k) : beValue (beBytes k n) = n := by
  induction k generalizing n with
  | zero => simp_all [beBytes, beValue]
  | succ k ih =>
    have positive : 0 < 256 ^ k := Nat.pos_pow_of_pos k (by decide)
    have high : n / 256 ^ k < UInt8.size := by
      rw [Nat.div_lt_iff_lt_mul positive]
      calc n < 256 ^ (k + 1) := small
        _ = UInt8.size * 256 ^ k := by rw [Nat.pow_succ, Nat.mul_comm]
    simp only [beBytes, beValue, length_beBytes, UInt8.toNat_ofNat_of_lt high,
      ih (Nat.mod_lt _ positive)]
    exact Nat.div_add_mod' n (256 ^ k)

theorem readHead_long {major info k n : Nat} (majorSmall : major < 8) (long : 24 ≤ info)
    (reserved : info < 28) (width : 2 ^ (info - 24) = k) (small : n < 256 ^ k)
    (minimal : leastArgument info ≤ n) (rest : Bytes) :
    readHead (UInt8.ofNat (major * 32 + info) :: beBytes k n ++ rest) = .ok (⟨major, info, n⟩, rest) := by
  have lead : (UInt8.ofNat (major * 32 + info)).toNat = major * 32 + info :=
    UInt8.toNat_ofNat_of_lt (by show _ < 256; omega)
  have majorOf : (major * 32 + info) / 32 = major := by omega
  have infoOf : (major * 32 + info) % 32 = info := by omega
  simp only [readHead, List.cons_append, lead, majorOf, infoOf, width, List.length_append,
    length_beBytes, List.take_left' (length_beBytes k n), List.drop_left' (length_beBytes k n),
    beValue_beBytes small]
  rw [if_neg (by omega), if_pos reserved, if_neg (by omega), if_neg (Nat.not_lt.mpr minimal)]

/-- The head of every item the encoder writes reads back. -/
theorem readHead_encodeHead {major n : Nat} (majorSmall : major < 8) (small : n < 2 ^ 64)
    (rest : Bytes) : ∃ info, readHead (encodeHead major n ++ rest) = .ok (⟨major, info, n⟩, rest) := by
  unfold encodeHead
  split_ifs with tiny byte short word
  · have lead : (UInt8.ofNat (major * 32 + n)).toNat = major * 32 + n :=
      UInt8.toNat_ofNat_of_lt (by show _ < 256; omega)
    have majorOf : (major * 32 + n) / 32 = major := by omega
    have infoOf : (major * 32 + n) % 32 = n := by omega
    refine ⟨n, ?_⟩
    simp only [readHead, List.singleton_append, lead, majorOf, infoOf]
    rw [if_pos tiny]
  · exact ⟨24, readHead_long majorSmall le_rfl (by decide) rfl (by simpa using byte)
      ((by decide : leastArgument 24 = 24).trans_le (by omega)) rest⟩
  · exact ⟨25, readHead_long majorSmall (by decide) (by decide) rfl (by simpa using short)
      ((by decide : leastArgument 25 = 2 ^ 8).trans_le (by omega)) rest⟩
  · exact ⟨26, readHead_long majorSmall (by decide) (by decide) rfl (by simpa using word)
      ((by decide : leastArgument 26 = 2 ^ 16).trans_le (by omega)) rest⟩
  · exact ⟨27, readHead_long majorSmall (by decide) (by decide) rfl (by simpa using small)
      ((by decide : leastArgument 27 = 2 ^ 32).trans_le (by omega)) rest⟩

theorem encodeHead_ne_nil (major n : Nat) : encodeHead major n ≠ [] := by
  unfold encodeHead
  split_ifs <;> simp

theorem readPayload_append (b rest : Bytes) : readPayload b.length (b ++ rest) = .ok (b, rest) := by
  simp [readPayload]

@[simp] theorem ok_bind {ε α β : Type} (a : α) (f : α → Except ε β) : (Except.ok a >>= f) = f a :=
  rfl

theorem decodeMany_append {α : Type} {item : Bytes → Except String (α × Bytes)} {enc : α → Bytes}
    {xs : List α} (each : ∀ x ∈ xs, ∀ rest, item (enc x ++ rest) = .ok (x, rest)) (rest : Bytes) :
    decodeMany item xs.length ((xs.map enc).flatten ++ rest) = .ok (xs, rest) := by
  induction xs with
  | nil => rfl
  | cons x xs ih =>
    simp only [List.length_cons, List.map_cons, List.flatten_cons, List.append_assoc, decodeMany,
      each x (List.mem_cons_self _ _), ok_bind, ih fun y member => each y (List.mem_cons_of_mem _ member)]
    rfl

/-- A map entry as the encoder writes it: the key as a text string, then the value. -/
def encodeEntry (e : Bytes × Node) : Bytes :=
  encodeHead 3 e.1.length ++ e.1 ++ e.2.encode

theorem encode_ne_nil (n : Node) : n.encode ≠ [] := by
  cases n with
  | bool b => cases b <;> simp [Node.encode]
  | int i => unfold Node.encode; split <;> exact encodeHead_ne_nil _ _
  | _ => simp [Node.encode, encodeHead_ne_nil]

theorem encode_list (items : List Node) :
    (Node.list items).encode = encodeHead 4 items.length ++ (items.map Node.encode).flatten := by
  rw [Node.encode, encodeItems_eq]

/-- With its keys in order, a map is written in the order of its entries. -/
theorem encode_map {entries : List (Bytes × Node)}
    (sorted : (entries.map Prod.fst).Sorted fun a b => keyBefore a b = true) :
    (Node.map entries).encode = encodeHead 5 entries.length ++ (entries.map encodeEntry).flatten := by
  have ordered : sortEntries (encodeEntries entries) = encodeEntries entries := by
    apply List.Sorted.insertionSort_eq
    rw [encodeEntries_eq]
    simpa [List.Sorted, List.pairwise_map] using sorted
  rw [Node.encode, ordered, encodeEntries_eq, List.map_map]
  rfl

/-- A part of a body written after a head is shorter than the whole item. -/
theorem length_lt_of_mem_flatten {head part : Bytes} {parts : List Bytes} (nonempty : head ≠ [])
    (member : part ∈ parts) : part.length < (head ++ parts.flatten).length := by
  have within := (List.sublist_flatten_of_mem member).length_le
  have positive := List.length_pos.mpr nonempty
  rw [List.length_append]
  omega

theorem decodeEntry_encodeEntry {value : Bytes → Except String (Node × Bytes)} {e : Bytes × Node}
    (keyShort : e.1.length < 2 ^ 64) (read : ∀ rest, value (e.2.encode ++ rest) = .ok (e.2, rest))
    (rest : Bytes) : decodeEntry value (encodeEntry e ++ rest) = .ok (e, rest) := by
  obtain ⟨info, head⟩ := @readHead_encodeHead 3 e.1.length (by decide) keyShort (e.1 ++ e.2.encode ++ rest)
  simp only [encodeEntry, decodeEntry, List.append_assoc] at head ⊢
  simp only [head, ok_bind, readPayload_append, read]
  rfl

/-- Every encodable node is read back from its encoding, whatever follows it, with as much
fuel as its encoding has bytes. -/
theorem decodeItem_encode (fuel : Nat) : ∀ n : Node, n.Encodable → n.encode.length ≤ fuel →
    ∀ rest, decodeItem fuel (n.encode ++ rest) = .ok (n, rest) := by
  induction fuel with
  | zero =>
    intro n _ short
    exact absurd (List.length_eq_zero.mp (Nat.le_zero.mp short)) (encode_ne_nil n)
  | succ fuel ih =>
    intro n encodable short rest
    cases n with
    | null => rfl
    | bool b => cases b <;> rfl
    | int i =>
      obtain ⟨low, high⟩ := encodable
      by_cases sign : 0 ≤ i
      · obtain ⟨info, read⟩ := @readHead_encodeHead 0 i.toNat (by decide) (by omega) rest
        simp only [Node.encode, if_pos sign, decodeItem, read, ok_bind]
        rw [if_pos (by omega), Int.toNat_of_nonneg sign]
        rfl
      · obtain ⟨info, read⟩ := @readHead_encodeHead 1 (-1 - i).toNat (by decide) (by omega) rest
        simp only [Node.encode, if_neg sign, decodeItem, read, ok_bind]
        have back : -1 - (-1 - i) = i := by omega
        rw [if_pos (by omega), Int.toNat_of_nonneg (by omega), back]
        rfl
    | bytes b =>
      obtain ⟨info, read⟩ := @readHead_encodeHead 2 b.length (by decide) encodable (b ++ rest)
      simp only [Node.encode, List.append_assoc, decodeItem, read, ok_bind, readPayload_append]
      rfl
    | string s =>
      obtain ⟨info, read⟩ := @readHead_encodeHead 3 s.length (by decide) encodable (s ++ rest)
      simp only [Node.encode, List.append_assoc, decodeItem, read, ok_bind, readPayload_append]
      rfl
    | list items =>
      obtain ⟨count, all⟩ := encodable
      rw [encode_list] at short ⊢
      have each : ∀ x ∈ items, ∀ rest, decodeItem fuel (x.encode ++ rest) = .ok (x, rest) :=
        fun x member => ih x (itemsEncodable_iff.mp all x member) (by
          have := length_lt_of_mem_flatten (encodeHead_ne_nil 4 items.length)
            (List.mem_map_of_mem Node.encode member)
          omega)
      obtain ⟨info, read⟩ := @readHead_encodeHead 4 items.length (by decide) count
        ((items.map Node.encode).flatten ++ rest)
      simp only [List.append_assoc, decodeItem, read, ok_bind, decodeMany_append each]
      rfl
    | map entries =>
      obtain ⟨count, sorted, all⟩ := encodable
      rw [encode_map sorted] at short ⊢
      have each : ∀ e ∈ entries, ∀ rest,
          decodeEntry (decodeItem fuel) (encodeEntry e ++ rest) = .ok (e, rest) := by
        intro e member
        obtain ⟨keyShort, valueOk⟩ := entriesEncodable_iff.mp all e member
        refine decodeEntry_encodeEntry keyShort (ih e.2 valueOk ?_)
        have := length_lt_of_mem_flatten (encodeHead_ne_nil 5 entries.length)
          (List.mem_map_of_mem encodeEntry member)
        simp only [encodeEntry, List.length_append] at this short
        omega
      obtain ⟨info, read⟩ := @readHead_encodeHead 5 entries.length (by decide) count
        ((entries.map encodeEntry).flatten ++ rest)
      simp only [List.append_assoc, decodeItem, read, ok_bind, decodeMany_append each]
      rfl

/-- `dagcbor.Decode` of what `dagcbor.Encode` writes for an encodable node: the node itself,
unless it costs more than the allocation budget. -/
theorem decode_encode_eq {n : Node} (encodable : n.Encodable) :
    decode n.encode = if allocationBudget < n.cost then
      .error "message structure demanded too many resources to process" else .ok n := by
  have read := decodeItem_encode n.encode.length n encodable le_rfl []
  rw [List.append_nil] at read
  simp only [decode, read, ok_bind]
  split <;> rfl

/-- `dagcbor.Decode` reads back what `dagcbor.Encode` writes, for every encodable node within
the budget. -/
theorem decode_encode {n : Node} (encodable : n.Encodable) (budget : n.cost ≤ allocationBudget) :
    decode n.encode = .ok n := by
  rw [decode_encode_eq encodable, if_neg (Nat.not_lt.mpr budget)]

/-- `dagcbor.Encode` tells encodable nodes apart, whatever they cost. -/
theorem encode_injective {n n' : Node} (encodable : n.Encodable) (encodable' : n'.Encodable)
    (same : n.encode = n'.encode) : n = n' := by
  have read := decodeItem_encode n.encode.length n encodable le_rfl []
  rw [same, decodeItem_encode n'.encode.length n' encodable' le_rfl []] at read
  cases read
  rfl

/-! ## What the decoder accepts -/

mutual

/-- A node whose lengths fit in a head: byte and text strings, lists and maps of fewer than
`2 ^ 64` elements, and map keys as short. -/
def Node.Short : Node → Prop
  | .bytes b | .string b => b.length < 2 ^ 64
  | .list items => items.length < 2 ^ 64 ∧ ItemsShort items
  | .map entries => entries.length < 2 ^ 64 ∧ EntriesShort entries
  | .null | .bool _ | .int _ => True

/-- Every item of a list is short. -/
def ItemsShort : List Node → Prop
  | [] => True
  | n :: ns => n.Short ∧ ItemsShort ns

/-- Every key and value of a map is short. -/
def EntriesShort : List (Bytes × Node) → Prop
  | [] => True
  | (k, n) :: es => k.length < 2 ^ 64 ∧ n.Short ∧ EntriesShort es

end

theorem itemsShort_iff {items : List Node} : ItemsShort items ↔ ∀ n ∈ items, n.Short := by
  induction items with
  | nil => simp [ItemsShort]
  | cons n ns ih => simp [ItemsShort, ih]

theorem entriesShort_iff {entries : List (Bytes × Node)} :
    EntriesShort entries ↔ ∀ e ∈ entries, e.1.length < 2 ^ 64 ∧ e.2.Short := by
  induction entries with
  | nil => simp [EntriesShort]
  | cons e es ih => simp [EntriesShort, ih, and_assoc]

/-- A `do` block in `Except` succeeds only when its first step does. -/
theorem bind_eq_ok {ε α β : Type} {x : Except ε α} {f : α → Except ε β} {b : β} :
    (x >>= f) = .ok b ↔ ∃ a, x = .ok a ∧ f a = .ok b := by
  cases x with
  | error e => exact ⟨(fun failed => nomatch failed), fun ⟨_, failed, _⟩ => nomatch failed⟩
  | ok a => exact ⟨fun read => ⟨a, rfl, read⟩, fun ⟨_, same, read⟩ => by cases same; exact read⟩

theorem pure_eq_ok {ε α : Type} {a b : α} : (pure a : Except ε α) = .ok b ↔ a = b :=
  ⟨fun same => by cases same; rfl, fun same => by rw [same]; rfl⟩

theorem map_eq_ok {ε α β : Type} {x : Except ε α} {f : α → β} {b : β} :
    (f <$> x) = .ok b ↔ ∃ a, x = .ok a ∧ f a = b := by
  cases x with
  | error e => exact ⟨(fun failed => nomatch failed), fun ⟨_, failed, _⟩ => nomatch failed⟩
  | ok a => exact ⟨fun read => ⟨a, rfl, by cases read; rfl⟩, fun ⟨_, same, read⟩ => by
      cases same; rw [← read]; rfl⟩

theorem mapError_eq_ok {ε ε' α : Type} {x : Except ε α} {f : ε → ε'} {a : α} :
    x.mapError f = .ok a ↔ x = .ok a := by
  cases x with
  | error e => exact ⟨(fun failed => nomatch failed), fun failed => nomatch failed⟩
  | ok a' => exact ⟨fun read => by cases read; rfl, fun read => by cases read; rfl⟩

/-- `mapM` succeeds with one answer per element, each what the function returns for some
element. -/
theorem mapM_eq_ok {ε α β : Type} {f : α → Except ε β} :
    ∀ {xs : List α} {ys : List β}, xs.mapM f = .ok ys →
      ys.length = xs.length ∧ ∀ y ∈ ys, ∃ x ∈ xs, f x = .ok y := by
  intro xs
  induction xs with
  | nil =>
    intro ys read
    cases read
    exact ⟨rfl, fun _ absent => nomatch absent⟩
  | cons x xs ih =>
    intro ys read
    rw [List.mapM_cons] at read
    obtain ⟨y, first, read⟩ := bind_eq_ok.mp read
    obtain ⟨ys', others, read⟩ := bind_eq_ok.mp read
    cases pure_eq_ok.mp read
    obtain ⟨count, each⟩ := ih others
    refine ⟨by simp [count], ?_⟩
    rintro y' (_ | ⟨_, later⟩)
    · exact ⟨x, List.mem_cons_self _ _, first⟩
    · obtain ⟨x', member, answer⟩ := each y' later
      exact ⟨x', List.mem_cons_of_mem _ member, answer⟩

/-- `mapM` succeeds with, at each position, what the function returns for the element there. -/
theorem forall₂_of_mapM_eq_ok {ε α β : Type} {f : α → Except ε β} :
    ∀ {xs : List α} {ys : List β}, xs.mapM f = .ok ys →
      List.Forall₂ (fun x y => f x = .ok y) xs ys
  | [], _, read => by
    cases read
    exact .nil
  | x :: xs, _, read => by
    rw [List.mapM_cons] at read
    obtain ⟨y, first, read⟩ := bind_eq_ok.mp read
    obtain ⟨ys', others, read⟩ := bind_eq_ok.mp read
    cases pure_eq_ok.mp read
    exact .cons first (forall₂_of_mapM_eq_ok others)

theorem beValue_lt (bs : Bytes) : beValue bs < 256 ^ bs.length := by
  induction bs with
  | nil => decide
  | cons b bs ih =>
    have byte : b.toNat < 256 := b.val.isLt
    calc beValue (b :: bs) = b.toNat * 256 ^ bs.length + beValue bs := rfl
      _ < b.toNat * 256 ^ bs.length + 256 ^ bs.length := Nat.add_lt_add_left ih _
      _ = (b.toNat + 1) * 256 ^ bs.length := (Nat.succ_mul _ _).symm
      _ ≤ 256 * 256 ^ bs.length := Nat.mul_le_mul_right _ byte
      _ = 256 ^ (b :: bs).length := by rw [List.length_cons, Nat.pow_succ, Nat.mul_comm]

/-- A head's argument fits in 64 bits. -/
theorem readHead_arg_lt {bytes rest : Bytes} {head : Head}
    (read : readHead bytes = .ok (head, rest)) : head.arg < 2 ^ 64 := by
  cases bytes with
  | nil => cases read
  | cons b after =>
    simp only [readHead] at read
    split at read
    · cases read
      exact Nat.lt_trans (Nat.mod_lt _ (by decide)) (by decide)
    split at read
    · split at read
      · cases read
      split at read
      · cases read
      · cases read
        have within := beValue_lt (after.take (2 ^ (b.toNat % 32 - 24)))
        have wide : (after.take (2 ^ (b.toNat % 32 - 24))).length ≤ 8 := by
          rw [List.length_take]
          have : 2 ^ (b.toNat % 32 - 24) ≤ 2 ^ 3 := Nat.pow_le_pow_right (by decide) (by omega)
          omega
        calc beValue (after.take (2 ^ (b.toNat % 32 - 24)))
            < 256 ^ (after.take (2 ^ (b.toNat % 32 - 24))).length := within
          _ ≤ 256 ^ 8 := Nat.pow_le_pow_right (by decide) wide
          _ = 2 ^ 64 := by decide
    · cases read

theorem readPayload_length {n : Nat} {bytes b rest : Bytes}
    (read : readPayload n bytes = .ok (b, rest)) : b.length = n := by
  unfold readPayload at read
  split at read
  · cases read
  · cases read
    rw [List.length_take]
    omega

/-- `decodeMany` reads exactly the count it is given, each with `item`. -/
theorem decodeMany_sound {α : Type} {item : Bytes → Except String (α × Bytes)} {P : α → Prop}
    (sound : ∀ {bytes x rest}, item bytes = .ok (x, rest) → P x) :
    ∀ {n : Nat} {bytes : Bytes} {xs : List α} {rest : Bytes},
      decodeMany item n bytes = .ok (xs, rest) → xs.length = n ∧ ∀ x ∈ xs, P x := by
  intro n
  induction n with
  | zero =>
    intro bytes xs rest read
    cases read
    exact ⟨rfl, fun _ absent => nomatch absent⟩
  | succ n ih =>
    intro bytes xs rest read
    obtain ⟨⟨x, after⟩, first, read⟩ := bind_eq_ok.mp read
    obtain ⟨⟨xs', last⟩, others, read⟩ := bind_eq_ok.mp read
    cases pure_eq_ok.mp read
    obtain ⟨count, each⟩ := ih others
    refine ⟨by rw [List.length_cons, count], ?_⟩
    rintro y (_ | ⟨_, later⟩)
    · exact sound first
    · exact each y later

theorem decodeEntry_sound {value : Bytes → Except String (Node × Bytes)}
    (sound : ∀ {bytes n rest}, value bytes = .ok (n, rest) → n.Short) {bytes rest : Bytes}
    {e : Bytes × Node} (read : decodeEntry value bytes = .ok (e, rest)) :
    e.1.length < 2 ^ 64 ∧ e.2.Short := by
  obtain ⟨⟨head, after⟩, headRead, read⟩ := bind_eq_ok.mp read
  dsimp only at read
  split at read
  · cases read
  obtain ⟨_, _, read⟩ := bind_eq_ok.mp read
  obtain ⟨⟨key, after'⟩, payload, read⟩ := bind_eq_ok.mp read
  obtain ⟨⟨n, last⟩, valueRead, read⟩ := bind_eq_ok.mp read
  cases pure_eq_ok.mp read
  exact ⟨readPayload_length payload ▸ readHead_arg_lt headRead, sound valueRead⟩

/-- Every node the decoder reads has lengths that fit in a head. -/
theorem decodeItem_short (fuel : Nat) :
    ∀ {bytes : Bytes} {n : Node} {rest : Bytes}, decodeItem fuel bytes = .ok (n, rest) → n.Short := by
  induction fuel with
  | zero => exact fun read => nomatch read
  | succ fuel ih =>
    intro bytes n rest read
    obtain ⟨⟨head, after⟩, headRead, read⟩ := bind_eq_ok.mp read
    have small := readHead_arg_lt headRead
    dsimp only at read
    split at read
    · split at read
      · cases pure_eq_ok.mp read
        trivial
      · cases read
    · split at read
      · cases pure_eq_ok.mp read
        trivial
      · cases read
    · obtain ⟨⟨b, last⟩, payload, read⟩ := bind_eq_ok.mp read
      cases pure_eq_ok.mp read
      show b.length < 2 ^ 64
      rwa [readPayload_length payload]
    · obtain ⟨⟨b, last⟩, payload, read⟩ := bind_eq_ok.mp read
      cases pure_eq_ok.mp read
      show b.length < 2 ^ 64
      rwa [readPayload_length payload]
    · obtain ⟨⟨items, last⟩, many, read⟩ := bind_eq_ok.mp read
      cases pure_eq_ok.mp read
      obtain ⟨count, each⟩ := decodeMany_sound ih many
      exact ⟨count ▸ small, itemsShort_iff.mpr each⟩
    · obtain ⟨⟨entries, last⟩, many, read⟩ := bind_eq_ok.mp read
      cases pure_eq_ok.mp read
      obtain ⟨count, each⟩ := decodeMany_sound (decodeEntry_sound ih) many
      exact ⟨count ▸ small, entriesShort_iff.mpr each⟩
    · split at read
      · cases pure_eq_ok.mp read
        trivial
      split at read
      · cases pure_eq_ok.mp read
        trivial
      split at read
      · cases pure_eq_ok.mp read
        trivial
      · cases read
    · cases read

/-- Every node `dagcbor.Decode` accepts has lengths that fit in a head and costs at most the
allocation budget. -/
theorem decode_sound {bytes : Bytes} {n : Node} (read : decode bytes = .ok n) :
    n.Short ∧ n.cost ≤ allocationBudget := by
  obtain ⟨⟨n', rest⟩, item, read⟩ := bind_eq_ok.mp read
  dsimp only at read
  split at read
  · cases read
  rename_i within
  split at read
  · cases pure_eq_ok.mp read
    exact ⟨decodeItem_short _ item, Nat.not_lt.mp within⟩
  · cases read

end Indexing.Cbor
