import IndexingService.Multihash
import Mathlib.Data.Finset.Basic

/-!
# The query engine's data model

Provider records, the claim protocols carried in their metadata, jobs, job keys and the
shared query state of `pkg/service/service.go`, together with the collaborators the
handler calls.  Go maps become functions to `Option`, the visit set a `Finset`, and the
collaborators `Except`-valued functions: the results that assume a stable backend say so
by hypotheses on these functions.
-/

namespace Indexing

/-- `multihash.Multihash`. -/
abbrev Multihash := Bytes

/-- The bytes of a Go string, as `[]byte(s)` gives them. -/
def goBytes (s : String) : Bytes :=
  s.toUTF8.data.toList

/-- `cid.Cid`: version, multicodec and multihash. -/
structure Cid where
  version : Nat
  codec : Nat
  hash : Multihash
  deriving DecidableEq, Repr

/-- `cid.Raw`. -/
def Cid.raw : Nat := 0x55

/-- `cid.NewCidV1`. -/
def Cid.newCidV1 (codec : Nat) (mh : Multihash) : Cid :=
  ⟨1, codec, mh⟩

/-- `peer.AddrInfo`: the peer ID's bytes and the bytes of each multiaddr. -/
structure AddrInfo where
  id : Bytes
  addrs : List Bytes
  deriving DecidableEq, Repr

/-- `model.ProviderResult`; `provider` is the `*peer.AddrInfo` pointer. -/
structure ProviderResult where
  contextID : Bytes
  metadata : Bytes
  provider : Option AddrInfo
  deriving DecidableEq, Repr

/-- `metadata.Range`. -/
structure Range where
  offset : Nat
  length : Option Nat
  deriving DecidableEq, Repr

/-- The multicodec codes of metadata protocols: the three content-claim protocols of the
metadata package (`EqualsClaimID`, `IndexClaimID`, `LocationCommitmentID`) and any other. -/
inductive ProtocolCode
  | equalsClaim
  | indexClaim
  | locationCommitment
  | other (code : Nat)
  deriving DecidableEq, Repr

/-- One protocol of a record's metadata, as `md.Get(code)` returns it. -/
inductive Protocol
  | equalsClaim (equals claim : Cid)
  | indexClaim (index claim : Cid)
  | locationCommitment (shard : Option Cid) (range : Option Range) (claim : Cid)
  | other (code : Nat)
  deriving DecidableEq, Repr

/-- The code a protocol is registered under. -/
def Protocol.code : Protocol → ProtocolCode
  | .equalsClaim .. => .equalsClaim
  | .indexClaim .. => .indexClaim
  | .locationCommitment .. => .locationCommitment
  | .other code => .other code

/-- `metadata.HasClaimCid`: the claim CID of a content-claim protocol. -/
def Protocol.claimCid : Protocol → Option Cid
  | .equalsClaim _ claim | .indexClaim _ claim | .locationCommitment _ _ claim => some claim
  | .other _ => none

/-- `delegation.Delegation`, kept as the bytes the handler stores. -/
structure Delegation where
  bytes : Bytes
  deriving DecidableEq, Repr

/-- `blobindex.ShardedDagIndexView`, as the handler reads it: every shard's multihash with
the multihashes its slice map `Has`. -/
structure ShardedDagIndexView where
  shards : List (Multihash × List Multihash)
  deriving DecidableEq, Repr

/-- `url.URL`; both URL builders of the source return the zero value. -/
structure URL where
  raw : String
  deriving DecidableEq, Repr

/-- `url.URL{}`. -/
def URL.zero : URL := ⟨""⟩

/-- `did.DID`. -/
structure DID where
  str : String
  deriving DecidableEq, Repr

/-- `Match`. -/
structure Match where
  subject : List DID
  deriving DecidableEq, Repr

/-- `Query`. -/
structure Query where
  hashes : List Multihash
  «match» : Match
  deriving DecidableEq, Repr

/-- `QueryResult`: the claims by CID and the indexes by encoded context ID. -/
structure QueryResult where
  claims : Cid → Option Delegation
  indexes : Bytes → Option ShardedDagIndexView

/-- `providerindex.QueryKey`. -/
structure QueryKey where
  hash : Multihash
  spaces : List DID
  targetClaims : List ProtocolCode
  deriving DecidableEq, Repr

/-- `jobType`. -/
inductive JobType
  | standard
  | location
  | equalsOrLocation
  deriving DecidableEq, Repr

/-- The string constant of each job type. -/
def JobType.toString : JobType → String
  | .standard => "standard"
  | .location => "location"
  | .equalsOrLocation => "equals_or_location"

/-- `job`. -/
structure Job where
  mh : Multihash
  indexForMh : Option Multihash
  indexProviderRecord : Option ProviderResult
  jobType : JobType
  deriving DecidableEq, Repr

/-- `jobKey`, a Go string. -/
abbrev JobKey := Bytes

/-- `job.key`: the multihash, the job type and the multihash the job indexes, concatenated. -/
def Job.key (j : Job) : JobKey :=
  let k := j.mh ++ goBytes j.jobType.toString
  match j.indexForMh with
  | some indexForMh => k ++ indexForMh
  | none => k

/-- `targetClaims`. -/
def targetClaims : JobType → List ProtocolCode
  | .standard => [.equalsClaim, .indexClaim, .locationCommitment]
  | .location => [.locationCommitment]
  | .equalsOrLocation => [.indexClaim, .locationCommitment]

/-- `queryState`. -/
structure QueryState where
  q : Query
  qr : QueryResult
  visits : Finset JobKey

/-- The places where the handler dereferences a pointer it has not checked. -/
inductive DerefSite
  | provider
  | indexProviderRecord
  deriving DecidableEq, Repr

/-- The errors a handler ends with: one a collaborator returned, passed on unchanged, or the
runtime panic of a nil pointer dereference. -/
inductive Error
  | backend (message : String)
  | nilDereference (site : DerefSite)
  deriving DecidableEq, Repr

/-- `IndexingService` without its job walker: the collaborators the handler calls, and the
metadata decoder (`metadata.MetadataContext.New().UnmarshalBinary`, then `Protocols` and
`Get`).  Their errors are the messages of the Go errors they return. -/
structure IndexingService where
  blobIndexLookup : Bytes → ProviderResult → URL → Option Range → Except String ShardedDagIndexView
  claimLookup : Cid → URL → Except String Delegation
  providerIndex : QueryKey → Except String (List ProviderResult)
  unmarshalMetadata : Bytes → Except String (List Protocol)

/-- `fetchClaimUrl`, a placeholder in the source. -/
def IndexingService.fetchClaimUrl (_ : IndexingService) (_ : AddrInfo) (_ : Cid) : URL :=
  URL.zero

/-- `fetchRetrievalUrl`, a placeholder in the source. -/
def IndexingService.fetchRetrievalUrl (_ : IndexingService) (_ : AddrInfo) (_ : Cid) : URL :=
  URL.zero

/-- The jobs `Query` starts from: one standard job per hash. -/
def initialJobs (q : Query) : List Job :=
  q.hashes.map fun mh => ⟨mh, none, none, .standard⟩

/-- The state `Query` starts from. -/
def initialState (q : Query) : QueryState :=
  ⟨q, ⟨fun _ => none, fun _ => none⟩, ∅⟩

end Indexing
