import IndexingService.Cbor
import IndexingService.Types

/-!
# Provider results in the provider cache

`providerresults.MarshalCBOR` and `UnmarshalCBOR` bind a list of `model.ProviderResult` to
the `ProviderResults` type of an embedded IPLD schema and write it as DAG-CBOR; the redis
provider store keeps the bytes as a Go string.  The schema file is not among the sources.
It is modelled from the specification and from the Go types bindnode binds it to: a list of
structs with the byte fields `ContextID` and `Metadata` and a nullable `Provider`, itself a
struct of a peer ID and a list of multiaddrs, both written as bytes by the named-bytes
converters.  Reading a peer ID casts it to a multihash (`peer.IDFromBytes`); reading a
multiaddr validates it (`multiaddr.NewMultiaddrBytes`, whose protocol table is a parameter).

`UnmarshalCBOR` reads back what `MarshalCBOR` writes only within the decoder's allocation
budget, which the encoder does not share: a record with a ten-mebibyte context ID is written
and then rejected.
-/

namespace Indexing.ProviderResults

open Cbor

/-- `peerIDtoBytes`: a peer ID is its bytes. -/
def peerIDtoBytes (id : Bytes) : Bytes :=
  id

/-- `multiaddrToBytes`: `Multiaddr.Bytes()`. -/
def multiaddrToBytes (ma : Bytes) : Bytes :=
  ma

/-- `bytesToPeerID`: `peer.IDFromBytes`, which accepts exactly the multihashes. -/
def bytesToPeerID (data : Bytes) : Except Multihash.DecodeError Bytes :=
  Multihash.cast data

/-- `bytesToMultiaddr`: `multiaddr.NewMultiaddrBytes`, which keeps the bytes once
`validateBytes` accepts them. -/
def bytesToMultiaddr (validateBytes : Bytes → Except String Unit) (data : Bytes) :
    Except String Bytes := do
  validateBytes data
  return data

/-- The errors of `UnmarshalCBOR`: from the codec, from a converter, or from the schema
binding (go-ipld-prime's wrong kind, invalid key, repeated key and missing field). -/
inductive UnmarshalError
  | cbor (message : String)
  | peerID (e : Multihash.DecodeError)
  | multiaddr (message : String)
  | schema (message : String)

/-- Modelled from the spec: the field names of the missing `providerresults.ipldsch`, which
bindnode matches to the fields of the Go structs; this one is `ContextID`. -/
def contextIDField : Bytes :=
  goBytes "ContextID"

/-- Modelled from the spec: the schema field `Metadata`. -/
def metadataField : Bytes :=
  goBytes "Metadata"

/-- Modelled from the spec: the schema field `Provider`. -/
def providerField : Bytes :=
  goBytes "Provider"

/-- Modelled from the spec: the schema field `ID` of `AddrInfo`. -/
def idField : Bytes :=
  goBytes "ID"

/-- Modelled from the spec: the schema field `Addrs` of `AddrInfo`. -/
def addrsField : Bytes :=
  goBytes "Addrs"

/-! ## Writing -/

/-- Modelled from the spec: the node bindnode presents for a `peer.AddrInfo` under the
schema's `AddrInfo` struct, fields in schema order. -/
def addrInfoNode (a : AddrInfo) : Node :=
  .map [(idField, .bytes (peerIDtoBytes a.id)),
    (addrsField, .list (a.addrs.map fun ma => .bytes (multiaddrToBytes ma)))]

/-- Modelled from the spec: the node of the schema's nullable `Provider`. -/
def providerNode : Option AddrInfo → Node
  | some a => addrInfoNode a
  | none => .null

/-- Modelled from the spec: the node bindnode presents for a `model.ProviderResult` under the
schema's `ProviderResult` struct, fields in schema order. -/
def resultNode (r : ProviderResult) : Node :=
  .map [(contextIDField, .bytes r.contextID), (metadataField, .bytes r.metadata),
    (providerField, providerNode r.provider)]

/-- `MarshalCBOR`: `ipld.Marshal` with `dagcbor.Encode`.  Binding never fails on these
values, so neither does the encoder. -/
def marshalCBOR (records : List ProviderResult) : Bytes :=
  (Node.list (records.map resultNode)).encode

/-! ## Reading -/

/-- A struct's fields as bindnode's assembler takes them, in schema order: every key must
name a field, no key may come twice, and every field must be given. -/
def structFields (fields : List Bytes) (entries : List (Bytes × Node)) :
    Except UnmarshalError (List Node) := do
  if entries.any fun e => decide (e.1 ∉ fields) then throw (.schema "invalid key")
  if !decide (entries.map Prod.fst).Nodup then throw (.schema "repeated map key")
  fields.mapM fun field =>
    match entries.find? fun e => decide (e.1 = field) with
    | some e => pure e.2
    | none => throw (.schema "missing required field")

/-- A bytes node. -/
def bytesOfNode : Node → Except UnmarshalError Bytes
  | .bytes b => pure b
  | _ => throw (.schema "wrong kind")

/-- A multiaddr from its node, through `bytesToMultiaddr`. -/
def multiaddrOfNode (validateBytes : Bytes → Except String Unit) (n : Node) :
    Except UnmarshalError Bytes := do
  (bytesToMultiaddr validateBytes (← bytesOfNode n)).mapError .multiaddr

/-- A `peer.AddrInfo` from its node. -/
def addrInfoOfNode (validateBytes : Bytes → Except String Unit) :
    Node → Except UnmarshalError AddrInfo
  | .map entries => do
    match ← structFields [idField, addrsField] entries with
    | [id, .list addrs] => do
      let id ← (bytesToPeerID (← bytesOfNode id)).mapError .peerID
      let addrs ← addrs.mapM (multiaddrOfNode validateBytes)
      return ⟨id, addrs⟩
    | _ => throw (.schema "wrong kind")
  | _ => throw (.schema "wrong kind")

/-- A nullable provider from its node. -/
def providerOfNode (validateBytes : Bytes → Except String Unit) :
    Node → Except UnmarshalError (Option AddrInfo)
  | .null => pure none
  | n => some <$> addrInfoOfNode validateBytes n

/-- A `model.ProviderResult` from its node. -/
def resultOfNode (validateBytes : Bytes → Except String Unit) :
    Node → Except UnmarshalError ProviderResult
  | .map entries => do
    match ← structFields [contextIDField, metadataField, providerField] entries with
    | [contextID, metadata, provider] =>
      return ⟨← bytesOfNode contextID, ← bytesOfNode metadata,
        ← providerOfNode validateBytes provider⟩
    | _ => throw (.schema "wrong kind")
  | _ => throw (.schema "wrong kind")

/-- `UnmarshalCBOR`: `ipld.Unmarshal` with `dagcbor.Decode`. -/
def unmarshalCBOR (validateBytes : Bytes → Except String Unit) (data : Bytes) :
    Except UnmarshalError (List ProviderResult) := do
  match ← (decode data).mapError .cbor with
  | .list items => items.mapM (resultOfNode validateBytes)
  | _ => throw (.schema "wrong kind")

/-- `providerResultsToRedis`: the encoding as a Go string, kept here as its bytes. -/
def providerResultsToRedis (records : List ProviderResult) : Except String Bytes :=
  .ok (marshalCBOR records)

/-- `providerResultsFromRedis`. -/
def providerResultsFromRedis (validateBytes : Bytes → Except String Unit) (data : Bytes) :
    Except UnmarshalError (List ProviderResult) :=
  unmarshalCBOR validateBytes data

/-! ## Equality -/

/-- `equalProvider`: both nil, or both set with the same `String()`. -/
def equalProvider (addrInfoString : AddrInfo → String) : Option AddrInfo → Option AddrInfo → Bool
  | none, b => b.isNone
  | some a, some b => addrInfoString a == addrInfoString b
  | some _, none => false

/-- `Equals`. -/
def equals (addrInfoString : AddrInfo → String) (a b : ProviderResult) : Bool :=
  decide (a.contextID = b.contextID) && decide (a.metadata = b.metadata) &&
    equalProvider addrInfoString a.provider b.provider

/-! ## The round trip -/

/-- The slices of a provider result are shorter than `2 ^ 64`, as every Go slice is. -/
def Fits (r : ProviderResult) : Prop :=
  r.contextID.length < 2 ^ 64 ∧ r.metadata.length < 2 ^ 64 ∧
    ∀ a ∈ r.provider, a.id.length < 2 ^ 64 ∧ a.addrs.length < 2 ^ 64 ∧
      ∀ ma ∈ a.addrs, ma.length < 2 ^ 64

/-- The provider of a record is set, its peer ID is a multihash and `validateBytes` accepts
each of its multiaddrs. -/
def Readable (validateBytes : Bytes → Except String Unit) (r : ProviderResult) : Prop :=
  ∃ a, r.provider = some a ∧ Multihash.WellFormed a.id ∧ ∀ ma ∈ a.addrs, validateBytes ma = .ok ()

/-- The provider of a record, when it is set, has a multihash peer ID and multiaddrs that
`validateBytes` accepts. -/
def ValidProvider (validateBytes : Bytes → Except String Unit) (r : ProviderResult) : Prop :=
  ∀ a ∈ r.provider, Multihash.WellFormed a.id ∧ ∀ ma ∈ a.addrs, validateBytes ma = .ok ()

theorem Readable.validProvider {validateBytes : Bytes → Except String Unit} {r : ProviderResult}
    (readable : Readable validateBytes r) : ValidProvider validateBytes r := by
  obtain ⟨a, owned, peer, valid⟩ := readable
  intro a' provided
  rw [Option.mem_def, owned, Option.some.injEq] at provided
  exact provided ▸ ⟨peer, valid⟩

/-- What `dagcbor.Decode` charges its allocation budget for the node of a list of records. -/
def resultsCost (records : List ProviderResult) : Nat :=
  (Node.list (records.map resultNode)).cost

/-- A result node with its entries in DAG-CBOR's key order. -/
def sortedResultNode (r : ProviderResult) : Node :=
  .map [(metadataField, .bytes r.metadata), (providerField, providerNode r.provider),
    (contextIDField, .bytes r.contextID)]

/-- `dagcbor.Encode` writes the fields of a result in key order. -/
theorem encode_resultNode (r : ProviderResult) :
    (resultNode r).encode = (sortedResultNode r).encode := by
  simp only [resultNode, sortedResultNode, Node.encode, encodeEntries, sortEntries]
  rfl

theorem cost_sortedResultNode (r : ProviderResult) :
    (sortedResultNode r).cost = (resultNode r).cost := by
  simp only [sortedResultNode, resultNode, Node.cost, entriesCost]
  omega

/-- `MarshalCBOR` writes the list of result nodes with their entries sorted. -/
theorem marshalCBOR_eq (records : List ProviderResult) :
    marshalCBOR records = (Node.list (records.map sortedResultNode)).encode := by
  rw [marshalCBOR, encode_list, encode_list, List.map_map, List.map_map]
  simp only [List.length_map, Function.comp_def, encode_resultNode]

theorem sortedResults_cost (records : List ProviderResult) :
    (Node.list (records.map sortedResultNode)).cost = resultsCost records :=
  itemsCost_congr (List.forall₂_map_right_iff.mpr (List.forall₂_map_left_iff.mpr
    (List.forall₂_same.mpr fun r _ => cost_sortedResultNode r)))

theorem mapM_map_eq_ok {α β ε : Type} {f : β → Except ε α} {g : α → β} {l : List α}
    (each : ∀ x ∈ l, f (g x) = .ok x) : (l.map g).mapM f = .ok l := by
  induction l with
  | nil => rfl
  | cons x xs ih =>
    simp only [List.map_cons, List.mapM_cons, each x (List.mem_cons_self _ _), ok_bind,
      ih fun y member => each y (List.mem_cons_of_mem _ member)]
    rfl

theorem addrInfoNode_encodable {a : AddrInfo} (id : a.id.length < 2 ^ 64)
    (count : a.addrs.length < 2 ^ 64) (addrs : ∀ ma ∈ a.addrs, ma.length < 2 ^ 64) :
    (addrInfoNode a).Encodable := by
  have items : ItemsEncodable (a.addrs.map fun ma => Node.bytes (multiaddrToBytes ma)) :=
    itemsEncodable_iff.mpr fun _ member => by
      obtain ⟨ma, listed, rfl⟩ := List.mem_map.mp member
      exact addrs ma listed
  exact ⟨by simp, by simp only [List.map_cons, List.map_nil]; decide, by decide, id, by decide,
    ⟨by simpa using count, items⟩, trivial⟩

theorem sortedResultNode_encodable {r : ProviderResult} (fits : Fits r) :
    (sortedResultNode r).Encodable := by
  obtain ⟨context, metadata, provider⟩ := fits
  have providerOk : (providerNode r.provider).Encodable := by
    cases owned : r.provider with
    | none => trivial
    | some a =>
      obtain ⟨id, count, addrs⟩ := provider a owned
      exact addrInfoNode_encodable id count addrs
  exact ⟨by simp, by simp only [List.map_cons, List.map_nil]; decide, by decide, metadata,
    by decide, providerOk, by decide, context, trivial⟩

theorem sortedResults_encodable {records : List ProviderResult} (count : records.length < 2 ^ 64)
    (fits : ∀ r ∈ records, Fits r) : (Node.list (records.map sortedResultNode)).Encodable :=
  ⟨by simpa using count, itemsEncodable_iff.mpr fun _ member => by
    obtain ⟨r, listed, rfl⟩ := List.mem_map.mp member
    exact sortedResultNode_encodable (fits r listed)⟩

theorem providerNode_injective : Function.Injective providerNode := by
  rintro (_ | ⟨id, addrs⟩) (_ | ⟨id', addrs'⟩) same
  · rfl
  · cases same
  · cases same
  · simp only [providerNode, addrInfoNode, peerIDtoBytes, multiaddrToBytes, Node.map.injEq,
      List.cons.injEq, Prod.mk.injEq, Node.bytes.injEq, Node.list.injEq, true_and, and_true] at same
    obtain ⟨rfl, same⟩ := same
    rw [(List.map_injective_iff.mpr fun _ _ bytes => Node.bytes.inj bytes) same]

theorem sortedResultNode_injective : Function.Injective sortedResultNode := by
  rintro ⟨contextID, metadata, provider⟩ ⟨contextID', metadata', provider'⟩ same
  simp only [sortedResultNode, Node.map.injEq, List.cons.injEq, Prod.mk.injEq, Node.bytes.injEq,
    true_and, and_true] at same
  obtain ⟨rfl, providers, rfl⟩ := same
  rw [providerNode_injective providers]

theorem structFields_addrInfo (id addrs : Node) :
    structFields [idField, addrsField] [(idField, id), (addrsField, addrs)] = .ok [id, addrs] :=
  rfl

theorem structFields_sortedResult (metadata provider contextID : Node) :
    structFields [contextIDField, metadataField, providerField]
      [(metadataField, metadata), (providerField, provider), (contextIDField, contextID)] =
      .ok [contextID, metadata, provider] :=
  rfl

theorem addrInfoOfNode_addrInfoNode {validateBytes : Bytes → Except String Unit} {a : AddrInfo}
    (peer : Multihash.WellFormed a.id) (valid : ∀ ma ∈ a.addrs, validateBytes ma = .ok ()) :
    addrInfoOfNode validateBytes (addrInfoNode a) = .ok a := by
  have addrs : (a.addrs.map fun ma => Node.bytes (multiaddrToBytes ma)).mapM
      (multiaddrOfNode validateBytes) = .ok a.addrs :=
    mapM_map_eq_ok fun ma member => by
      simp only [multiaddrOfNode, bytesOfNode, bytesToMultiaddr, multiaddrToBytes, pure_bind,
        valid ma member, ok_bind]
      rfl
  simp only [addrInfoOfNode, addrInfoNode, structFields_addrInfo, ok_bind, bytesOfNode,
    peerIDtoBytes, bytesToPeerID, pure_bind, Multihash.cast_of_wellFormed peer, addrs]
  rfl

theorem providerOfNode_providerNode {validateBytes : Bytes → Except String Unit}
    {provider : Option AddrInfo}
    (valid : ∀ a ∈ provider, Multihash.WellFormed a.id ∧ ∀ ma ∈ a.addrs, validateBytes ma = .ok ()) :
    providerOfNode validateBytes (providerNode provider) = .ok provider := by
  cases provider with
  | none => rfl
  | some a =>
    obtain ⟨peer, addrs⟩ := valid a rfl
    show some <$> addrInfoOfNode validateBytes (addrInfoNode a) = _
    rw [addrInfoOfNode_addrInfoNode peer addrs]
    rfl

theorem resultOfNode_sortedResultNode_of_valid {validateBytes : Bytes → Except String Unit}
    {r : ProviderResult} (valid : ValidProvider validateBytes r) :
    resultOfNode validateBytes (sortedResultNode r) = .ok r := by
  obtain ⟨contextID, metadata, provider⟩ := r
  simp only [resultOfNode, sortedResultNode, structFields_sortedResult, ok_bind, bytesOfNode,
    pure_bind, providerOfNode_providerNode valid]
  rfl

/-- `UnmarshalCBOR` reads back what `MarshalCBOR` writes, for every list of records whose
providers, where set, have a multihash peer ID and valid multiaddrs, and whose node costs at
most the decoder's allocation budget. -/
theorem unmarshalCBOR_marshalCBOR_of_valid {validateBytes : Bytes → Except String Unit}
    {records : List ProviderResult} (count : records.length < 2 ^ 64)
    (fits : ∀ r ∈ records, Fits r) (budget : resultsCost records ≤ allocationBudget)
    (valid : ∀ r ∈ records, ValidProvider validateBytes r) :
    unmarshalCBOR validateBytes (marshalCBOR records) = .ok records := by
  rw [← sortedResults_cost] at budget
  simp only [unmarshalCBOR, marshalCBOR_eq, decode_encode (sortedResults_encodable count fits) budget]
  exact mapM_map_eq_ok fun r listed => resultOfNode_sortedResultNode_of_valid (valid r listed)

/-- `UnmarshalCBOR` rejects what `MarshalCBOR` writes for records whose node costs more than
the decoder's allocation budget, whatever the records. -/
theorem unmarshalCBOR_marshalCBOR_of_budget_lt {validateBytes : Bytes → Except String Unit}
    {records : List ProviderResult} (count : records.length < 2 ^ 64)
    (fits : ∀ r ∈ records, Fits r) (over : allocationBudget < resultsCost records) :
    unmarshalCBOR validateBytes (marshalCBOR records) =
      .error (.cbor "message structure demanded too many resources to process") := by
  rw [unmarshalCBOR, marshalCBOR_eq, decode_encode_eq (sortedResults_encodable count fits),
    sortedResults_cost, if_pos over]
  rfl

/-- One record with a peer ID that is the identity multihash of `A` and one address fits and
is readable by a validator that accepts every address. -/
theorem single_record_readable :
    let records : List ProviderResult := [⟨[1], [2], some ⟨[0, 1, 0x41], [[4, 127, 0, 0, 1]]⟩⟩]
    records.length < 2 ^ 64 ∧ (∀ r ∈ records, Fits r) ∧ resultsCost records ≤ allocationBudget ∧
      ∀ r ∈ records, Readable (fun _ => .ok ()) r := by
  intro records
  refine ⟨by decide, ?_, by decide, ?_⟩
  · simp only [records, List.mem_singleton, forall_eq, Fits]
    refine ⟨by decide, by decide, ?_⟩
    simp only [Option.mem_def, Option.some.injEq, forall_eq']
    decide
  · simp only [records, List.mem_singleton, forall_eq]
    exact ⟨_, rfl, by decide, fun _ _ => rfl⟩

/-! ## What `UnmarshalCBOR` accepts -/

section Accepted

variable {validateBytes : Bytes → Except String Unit}

theorem bytesOfNode_eq {n : Node} {b : Bytes} (read : bytesOfNode n = .ok b) : n = .bytes b := by
  cases n with
  | bytes b' =>
    cases read
    rfl
  | _ => cases read

/-- Every node of a struct comes from one of the map's entries. -/
theorem structFields_mem {fields : List Bytes} {entries : List (Bytes × Node)}
    {nodes : List Node} (read : structFields fields entries = .ok nodes) :
    ∀ node ∈ nodes, ∃ k, (k, node) ∈ entries := by
  unfold structFields at read
  dsimp only at read
  split at read
  · cases read
  split at read
  · cases read
  intro node member
  obtain ⟨field, _, found⟩ := (mapM_eq_ok read).2 node member
  split at found
  · rename_i e search
    cases found
    exact ⟨e.1, List.mem_of_find?_eq_some search⟩
  · cases found

/-- The nodes of a struct read from a short map are short. -/
theorem structFields_short {fields : List Bytes} {entries : List (Bytes × Node)}
    {nodes : List Node} (read : structFields fields entries = .ok nodes)
    (short : EntriesShort entries) : ∀ node ∈ nodes, node.Short := fun node member =>
  let ⟨_, entry⟩ := structFields_mem read node member
  (entriesShort_iff.mp short _ entry).2

/-- A struct read from a map takes each entry once: the map's entries are the fields paired
with the nodes read, in some order. -/
theorem structFields_perm {fields : List Bytes} {entries : List (Bytes × Node)}
    {nodes : List Node} (distinct : fields.Nodup) (read : structFields fields entries = .ok nodes) :
    entries.Perm (fields.zip nodes) := by
  unfold structFields at read
  dsimp only at read
  split at read
  · cases read
  rename_i known
  split at read
  · cases read
  rename_i keysDistinct
  simp only [List.any_eq_true, decide_eq_true_eq, not_exists, not_and, not_not] at known
  simp only [Bool.not_eq_true', decide_eq_false_iff_not, not_not] at keysDistinct
  obtain ⟨count, found⟩ := List.forall₂_iff_zip.mp (forall₂_of_mapM_eq_ok read)
  have zipped : ∀ p ∈ fields.zip nodes, p ∈ entries := by
    rintro ⟨field, node⟩ member
    have answer := found member
    split at answer
    · rename_i e search
      cases pure_eq_ok.mp answer
      have key : e.1 = field := by simpa using List.find?_some search
      exact key ▸ List.mem_of_find?_eq_some search
    · cases answer
  have fewer : entries.length ≤ (fields.zip nodes).length := by
    rw [List.length_zip, ← count, Nat.min_self, ← List.length_map entries Prod.fst]
    exact (keysDistinct.subperm fun k listed => by
      obtain ⟨e, member, rfl⟩ := List.mem_map.mp listed
      exact known e member).length_le
  have zipDistinct : (fields.zip nodes).Nodup :=
    (List.map_fst_zip _ _ count.le).symm ▸ distinct |>.of_map Prod.fst
  exact ((zipDistinct.subperm zipped).perm_of_length_le fewer).symm

theorem multiaddrOfNode_eq {n : Node} {ma : Bytes}
    (read : multiaddrOfNode validateBytes n = .ok ma) :
    n = .bytes ma ∧ validateBytes ma = .ok () := by
  obtain ⟨b, bytes, read⟩ := bind_eq_ok.mp read
  obtain ⟨u, valid, read⟩ := bind_eq_ok.mp (mapError_eq_ok.mp read)
  cases pure_eq_ok.mp read
  exact ⟨bytesOfNode_eq bytes, valid⟩

/-- What `addrInfoOfNode` reads from a short node: slices shorter than `2 ^ 64`, a peer ID
that is a multihash and multiaddrs that `validateBytes` accepts. -/
theorem addrInfoOfNode_sound {n : Node} {a : AddrInfo}
    (read : addrInfoOfNode validateBytes n = .ok a) (short : n.Short) :
    (a.id.length < 2 ^ 64 ∧ a.addrs.length < 2 ^ 64 ∧ ∀ ma ∈ a.addrs, ma.length < 2 ^ 64) ∧
      Multihash.WellFormed a.id ∧ ∀ ma ∈ a.addrs, validateBytes ma = .ok () := by
  cases n with
  | map entries =>
    obtain ⟨nodes, fields, read⟩ := bind_eq_ok.mp read
    have fieldShort := structFields_short fields short.2
    split at read
    · rename_i idNode addrs
      obtain ⟨idBytes, idRead, read⟩ := bind_eq_ok.mp read
      obtain ⟨id, peer, read⟩ := bind_eq_ok.mp read
      obtain ⟨mas, addrsRead, read⟩ := bind_eq_ok.mp read
      cases pure_eq_ok.mp read
      obtain ⟨rfl, peerOk⟩ := Multihash.eq_of_cast_eq_ok (mapError_eq_ok.mp peer)
      have idShort := fieldShort idNode (by simp)
      rw [bytesOfNode_eq idRead] at idShort
      obtain ⟨count, itemsOk⟩ : addrs.length < 2 ^ 64 ∧ ItemsShort addrs :=
        fieldShort (.list addrs) (by simp)
      obtain ⟨same, each⟩ := mapM_eq_ok addrsRead
      have addr : ∀ ma ∈ mas, ma.length < 2 ^ 64 ∧ validateBytes ma = .ok () := by
        intro ma member
        obtain ⟨node, listed, answer⟩ := each ma member
        obtain ⟨rfl, valid⟩ := multiaddrOfNode_eq answer
        exact ⟨itemsShort_iff.mp itemsOk _ listed, valid⟩
      exact ⟨⟨idShort, same ▸ count, fun ma member => (addr ma member).1⟩, peerOk,
        fun ma member => (addr ma member).2⟩
    · cases read
  | _ => cases read

theorem providerOfNode_sound {n : Node} {provider : Option AddrInfo}
    (read : providerOfNode validateBytes n = .ok provider) (short : n.Short) :
    ∀ a ∈ provider,
      (a.id.length < 2 ^ 64 ∧ a.addrs.length < 2 ^ 64 ∧ ∀ ma ∈ a.addrs, ma.length < 2 ^ 64) ∧
        Multihash.WellFormed a.id ∧ ∀ ma ∈ a.addrs, validateBytes ma = .ok () := by
  unfold providerOfNode at read
  split at read
  · cases read
    exact fun _ absent => nomatch absent
  · obtain ⟨a, addrRead, rfl⟩ := map_eq_ok.mp read
    rintro _ ⟨⟩
    exact addrInfoOfNode_sound addrRead short

/-- Every record `resultOfNode` reads from a short node fits in Go slices and has a valid
provider, when one is set. -/
theorem resultOfNode_sound {n : Node} {r : ProviderResult}
    (read : resultOfNode validateBytes n = .ok r) (short : n.Short) :
    Fits r ∧ ValidProvider validateBytes r := by
  cases n with
  | map entries =>
    obtain ⟨nodes, fields, read⟩ := bind_eq_ok.mp read
    have fieldShort := structFields_short fields short.2
    split at read
    · rename_i contextNode metadataNode providerNode
      obtain ⟨contextID, contextRead, read⟩ := bind_eq_ok.mp read
      obtain ⟨metadata, metadataRead, read⟩ := bind_eq_ok.mp read
      obtain ⟨provider, providerRead, read⟩ := bind_eq_ok.mp read
      cases pure_eq_ok.mp read
      have contextShort := fieldShort contextNode (by simp)
      have metadataShort := fieldShort metadataNode (by simp)
      rw [bytesOfNode_eq contextRead] at contextShort
      rw [bytesOfNode_eq metadataRead] at metadataShort
      have providerOk := providerOfNode_sound providerRead (fieldShort providerNode (by simp))
      exact ⟨⟨contextShort, metadataShort, fun a provided => (providerOk a provided).1⟩,
        fun a provided => (providerOk a provided).2⟩
    · cases read
  | _ => cases read

/-- `addrInfoOfNode` reads every entry of the map, so the node costs what the node of the
`peer.AddrInfo` it reads costs. -/
theorem addrInfoOfNode_cost {n : Node} {a : AddrInfo}
    (read : addrInfoOfNode validateBytes n = .ok a) : n.cost = (addrInfoNode a).cost := by
  cases n with
  | map entries =>
    obtain ⟨nodes, fields, read⟩ := bind_eq_ok.mp read
    have perm := structFields_perm (by decide) fields
    split at read
    · rename_i idNode addrs
      obtain ⟨idBytes, idRead, read⟩ := bind_eq_ok.mp read
      obtain ⟨id, peer, read⟩ := bind_eq_ok.mp read
      obtain ⟨mas, addrsRead, read⟩ := bind_eq_ok.mp read
      cases pure_eq_ok.mp read
      obtain ⟨rfl, -⟩ := Multihash.eq_of_cast_eq_ok (mapError_eq_ok.mp peer)
      have pointwise : List.Forall₂ (· = ·) addrs
          (mas.map fun ma => Node.bytes (multiaddrToBytes ma)) :=
        List.forall₂_map_right_iff.mpr ((forall₂_of_mapM_eq_ok addrsRead).imp
          fun _ _ answer => (multiaddrOfNode_eq answer).1)
      rw [List.forall₂_eq_eq_eq] at pointwise
      rw [Node.cost, entriesCost_perm perm, bytesOfNode_eq idRead, pointwise]
      rfl
    · cases read
  | _ => cases read

theorem providerOfNode_cost {n : Node} {provider : Option AddrInfo}
    (read : providerOfNode validateBytes n = .ok provider) :
    n.cost = (providerNode provider).cost := by
  unfold providerOfNode at read
  split at read
  · cases read
    rfl
  · obtain ⟨a, addrRead, rfl⟩ := map_eq_ok.mp read
    exact addrInfoOfNode_cost addrRead

/-- `resultOfNode` reads every entry of the map, so the node costs what the node of the record
it reads costs. -/
theorem resultOfNode_cost {n : Node} {r : ProviderResult}
    (read : resultOfNode validateBytes n = .ok r) : n.cost = (resultNode r).cost := by
  cases n with
  | map entries =>
    obtain ⟨nodes, fields, read⟩ := bind_eq_ok.mp read
    have perm := structFields_perm (by decide) fields
    split at read
    · obtain ⟨contextID, contextRead, read⟩ := bind_eq_ok.mp read
      obtain ⟨metadata, metadataRead, read⟩ := bind_eq_ok.mp read
      obtain ⟨provider, providerRead, read⟩ := bind_eq_ok.mp read
      cases pure_eq_ok.mp read
      rw [Node.cost, entriesCost_perm perm, bytesOfNode_eq contextRead,
        bytesOfNode_eq metadataRead]
      simp only [resultNode, Node.cost, List.zip_cons_cons, List.zip_nil_right, entriesCost,
        providerOfNode_cost providerRead]
    · cases read
  | _ => cases read

/-- The records read from the nodes of a list are charged what the list was charged. -/
theorem resultsCost_of_mapM {items : List Node} {records : List ProviderResult}
    (read : items.mapM (resultOfNode validateBytes) = .ok records) :
    (Node.list items).cost = resultsCost records :=
  itemsCost_congr (List.forall₂_map_right_iff.mpr
    ((forall₂_of_mapM_eq_ok read).imp fun _ _ => resultOfNode_cost))

/-- Every list `UnmarshalCBOR` accepts has fewer than `2 ^ 64` records, costs at most the
decoder's allocation budget, and has records fitting in Go slices, each with a valid
provider when one is set. -/
theorem unmarshalCBOR_sound {data : Bytes} {records : List ProviderResult}
    (read : unmarshalCBOR validateBytes data = .ok records) :
    records.length < 2 ^ 64 ∧ resultsCost records ≤ allocationBudget ∧
      ∀ r ∈ records, Fits r ∧ ValidProvider validateBytes r := by
  obtain ⟨n, decoded, read⟩ := bind_eq_ok.mp read
  obtain ⟨short, budget⟩ := decode_sound (mapError_eq_ok.mp decoded)
  split at read
  · rename_i items
    obtain ⟨count, itemsOk⟩ := short
    obtain ⟨same, each⟩ := mapM_eq_ok read
    refine ⟨same ▸ count, resultsCost_of_mapM read ▸ budget, fun r member => ?_⟩
    obtain ⟨item, listed, answer⟩ := each r member
    exact resultOfNode_sound answer (itemsShort_iff.mp itemsOk item listed)
  · cases read

end Accepted

/-- Whatever bytes `UnmarshalCBOR` accepts, every record it returns has, when its provider is
set, a peer ID that is a multihash and multiaddrs that `validateBytes` accepts; and
`MarshalCBOR` writes the records to bytes that `UnmarshalCBOR` reads back as the very same
records, so a list the redis provider store has read is written back and read again
unchanged. -/
theorem unmarshalCBOR_accepts_valid_and_reencodes {validateBytes : Bytes → Except String Unit}
    {data : Bytes} {records : List ProviderResult}
    (read : unmarshalCBOR validateBytes data = .ok records) :
    (∀ r ∈ records, ValidProvider validateBytes r) ∧
      unmarshalCBOR validateBytes (marshalCBOR records) = .ok records ∧
      ∃ data', providerResultsToRedis records = .ok data' ∧
        providerResultsFromRedis validateBytes data' = .ok records := by
  obtain ⟨count, budget, each⟩ := unmarshalCBOR_sound read
  have again := unmarshalCBOR_marshalCBOR_of_valid count (fun r member => (each r member).1)
    budget fun r member => (each r member).2
  exact ⟨fun r member => (each r member).2, again, _, rfl, again⟩

/-- The bytes `MarshalCBOR` writes for one record with a multihash peer ID and one address,
read with a validator that accepts every address. -/
theorem single_record_bytes_reencode :
    let records : List ProviderResult := [⟨[1], [2], some ⟨[0, 1, 0x41], [[4, 127, 0, 0, 1]]⟩⟩]
    let validateBytes : Bytes → Except String Unit := fun _ => .ok ()
    unmarshalCBOR validateBytes (marshalCBOR records) = .ok records ∧
      (∀ r ∈ records, ValidProvider validateBytes r) ∧
      unmarshalCBOR validateBytes (marshalCBOR records) = .ok records ∧
      ∃ data', providerResultsToRedis records = .ok data' ∧
        providerResultsFromRedis validateBytes data' = .ok records := by
  intro records validateBytes
  obtain ⟨count, fits, budget, readable⟩ := single_record_readable
  have read := unmarshalCBOR_marshalCBOR_of_valid count fits budget fun r member =>
    (readable r member).validProvider
  exact ⟨read, unmarshalCBOR_accepts_valid_and_reencodes read⟩

theorem equals_self (addrInfoString : AddrInfo → String) (r : ProviderResult) :
    equals addrInfoString r r = true := by
  obtain ⟨contextID, metadata, provider⟩ := r
  cases provider <;> simp [equals, equalProvider]

/-- For every list of provider records whose providers are set, with a multihash peer ID
and multiaddrs that `validateBytes` accepts, and whose node costs at most the decoder's
allocation budget, `MarshalCBOR` succeeds and `UnmarshalCBOR` of its output returns a list of
the same length equal to the input under `Equals`, and so does the redis provider store's
round trip. -/
theorem unmarshalCBOR_marshalCBOR_equals (validateBytes : Bytes → Except String Unit)
    (addrInfoString : AddrInfo → String) (records : List ProviderResult)
    (count : records.length < 2 ^ 64) (fits : ∀ r ∈ records, Fits r)
    (budget : resultsCost records ≤ allocationBudget)
    (readable : ∀ r ∈ records, Readable validateBytes r) :
    (∃ decoded, unmarshalCBOR validateBytes (marshalCBOR records) = .ok decoded ∧
      List.Forall₂ (fun a b => equals addrInfoString a b = true) decoded records) ∧
    ∃ data, providerResultsToRedis records = .ok data ∧
      ∃ decoded, providerResultsFromRedis validateBytes data = .ok decoded ∧
        List.Forall₂ (fun a b => equals addrInfoString a b = true) decoded records := by
  have same : List.Forall₂ (fun a b => equals addrInfoString a b = true) records records :=
    List.forall₂_same.mpr fun r _ => equals_self addrInfoString r
  have read := unmarshalCBOR_marshalCBOR_of_valid count fits budget fun r member =>
    (readable r member).validProvider
  exact ⟨⟨records, read, same⟩, _, rfl, records, read, same⟩

/-- One record with a peer ID that is the identity multihash of `A` and one address, read
with a validator that accepts every address. -/
theorem single_record_round_trip :
    let records : List ProviderResult := [⟨[1], [2], some ⟨[0, 1, 0x41], [[4, 127, 0, 0, 1]]⟩⟩]
    let validateBytes : Bytes → Except String Unit := fun _ => .ok ()
    records.length < 2 ^ 64 ∧ (∀ r ∈ records, Fits r) ∧ resultsCost records ≤ allocationBudget ∧
      (∀ r ∈ records, Readable validateBytes r) ∧
      (∃ decoded, unmarshalCBOR validateBytes (marshalCBOR records) = .ok decoded ∧
        List.Forall₂ (fun a b => equals reprStr a b = true) decoded records) := by
  intro records validateBytes
  obtain ⟨count, fits, budget, readable⟩ := single_record_readable
  exact ⟨count, fits, budget, readable,
    (unmarshalCBOR_marshalCBOR_equals validateBytes reprStr records count fits budget
      readable).1⟩

/-- A record whose context ID is `n` bytes costs more than `n`. -/
theorem replicate_context_cost (n : Nat) :
    n < resultsCost [⟨List.replicate n 0, [], some ⟨[0, 1, 0x41], []⟩⟩] := by
  simp only [resultsCost, resultNode, providerNode, List.map_cons, List.map_nil, Node.cost,
    itemsCost, entriesCost, List.length_replicate]
  omega

/-- One record whose context ID is as long as the decoder's whole allocation budget: its
provider is set, with a multihash peer ID and no address, yet `UnmarshalCBOR` rejects what
`MarshalCBOR` writes for it. -/
theorem oversized_record_round_trip_fails :
    let records : List ProviderResult :=
      [⟨List.replicate allocationBudget 0, [], some ⟨[0, 1, 0x41], []⟩⟩]
    let validateBytes : Bytes → Except String Unit := fun _ => .ok ()
    records.length < 2 ^ 64 ∧ (∀ r ∈ records, Fits r) ∧
      (∀ r ∈ records, Readable validateBytes r) ∧
      unmarshalCBOR validateBytes (marshalCBOR records) =
        .error (.cbor "message structure demanded too many resources to process") := by
  intro records validateBytes
  have fits : ∀ r ∈ records, Fits r := by
    simp only [records, List.mem_singleton, forall_eq, Fits, List.length_replicate,
      Option.mem_def, Option.some.injEq, forall_eq', List.not_mem_nil]
    exact ⟨by decide, by decide, by decide, by decide, fun _ absent => absent.elim⟩
  have over : allocationBudget < resultsCost records := replicate_context_cost allocationBudget
  refine ⟨by decide, fits, ?_, unmarshalCBOR_marshalCBOR_of_budget_lt (by decide) fits over⟩
  simp only [records, List.mem_singleton, forall_eq]
  exact ⟨_, rfl, by decide, fun _ absent => nomatch absent⟩

/-- `MarshalCBOR` tells apart any two lists of records whose providers are set, with a
multihash peer ID and multiaddrs that `validateBytes` accepts: the redis provider store never
caches two such lists under the same bytes.  Only the slice lengths matter: `dagcbor.Encode`
tells apart all the nodes it can write, and the providers' validity is not used. -/
theorem marshalCBOR_injective {validateBytes : Bytes → Except String Unit}
    {records records' : List ProviderResult} (count : records.length < 2 ^ 64)
    (count' : records'.length < 2 ^ 64) (fits : ∀ r ∈ records, Fits r)
    (fits' : ∀ r ∈ records', Fits r) (readable : ∀ r ∈ records, Readable validateBytes r)
    (readable' : ∀ r ∈ records', Readable validateBytes r)
    (same : marshalCBOR records = marshalCBOR records') : records = records' := by
  rw [marshalCBOR_eq, marshalCBOR_eq] at same
  have nodes := encode_injective (sortedResults_encodable count fits)
    (sortedResults_encodable count' fits') same
  exact List.map_injective_iff.mpr sortedResultNode_injective (Node.list.inj nodes)

/-- One record with a multihash peer ID and one address, compared with itself. -/
theorem single_record_marshal_injective :
    let records : List ProviderResult := [⟨[1], [2], some ⟨[0, 1, 0x41], [[4, 127, 0, 0, 1]]⟩⟩]
    let validateBytes : Bytes → Except String Unit := fun _ => .ok ()
    records.length < 2 ^ 64 ∧ (∀ r ∈ records, Fits r) ∧
      (∀ r ∈ records, Readable validateBytes r) ∧ records = records := by
  intro records validateBytes
  obtain ⟨count, fits, -, readable⟩ := single_record_readable
  exact ⟨count, fits, readable,
    marshalCBOR_injective count count fits fits readable readable rfl⟩

end Indexing.ProviderResults
