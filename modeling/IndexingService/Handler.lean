import IndexingService.Types

/-!
# The job handler

`jobHandler` of `pkg/service/service.go`.  After its visit check the handler touches the
shared state only through `CmpSwap` calls whose results it ignores and through `spawn`,
and its calls to the collaborators depend only on the job and the query.  One invocation is
therefore the job's key, the `ProviderIndex.Find` query it makes, and the list of shared
operations it performs in program order, ending at the first error.  The serial walker
runs such an invocation at once (`Handler.run`); the parallel walker interleaves its
operations with those of other invocations.
-/

namespace Indexing

/-- `WrappedState.CmpSwap`: apply `update` when `predicate` holds, and report whether it
did. -/
def cmpSwap (predicate : QueryState → Bool) (update : QueryState → QueryState)
    (qs : QueryState) : Bool × QueryState :=
  if predicate qs then (true, update qs) else (false, qs)

/-- The visit check's predicate: the key has not been visited. -/
def notVisited (k : JobKey) (qs : QueryState) : Bool :=
  k ∉ qs.visits

/-- The visit check's update: `qs.visits[k] = struct{}{}`. -/
def markVisited (k : JobKey) (qs : QueryState) : QueryState :=
  { qs with visits := insert k qs.visits }

/-- `qs.qr.Claims[claimCid] = claim`. -/
def QueryResult.setClaim (qr : QueryResult) (claimCid : Cid) (claim : Delegation) :
    QueryResult :=
  { qr with claims := Function.update qr.claims claimCid (some claim) }

/-- `qs.qr.Indexes.Set(contextID, index)`. -/
def QueryResult.setIndex (qr : QueryResult) (contextID : Bytes) (index : ShardedDagIndexView) :
    QueryResult :=
  { qr with indexes := Function.update qr.indexes contextID (some index) }

/-- What the handler does to the walk after its visit check. -/
inductive Op
  | putClaim (claimCid : Cid) (claim : Delegation)
  | putIndex (contextID : Bytes) (index : ShardedDagIndexView)
  | spawn (j : Job)
  | fail (e : Error)
  deriving DecidableEq, Repr

/-- The shared-state effect of an operation: the two insert-if-absent `CmpSwap` calls. -/
def Op.update : Op → QueryState → QueryState
  | .putClaim claimCid claim, qs =>
    (cmpSwap (fun qs => (qs.qr.claims claimCid).isNone)
      (fun qs => { qs with qr := qs.qr.setClaim claimCid claim }) qs).2
  | .putIndex contextID index, qs =>
    (cmpSwap (fun qs => !(qs.qr.indexes contextID).isSome)
      (fun qs => { qs with qr := qs.qr.setIndex contextID index }) qs).2
  | .spawn _, qs => qs
  | .fail _, qs => qs

/-- The jobs an operation spawns. -/
def Op.spawned : Op → List Job
  | .spawn j => [j]
  | _ => []

/-- The jobs that follow from one claim of a record, once its claim is stored: the other
side of an equals claim, the index of an index claim, and, for a location commitment of an
index blob, every shard of the fetched index that holds the multihash being indexed. -/
def IndexingService.followUps (is : IndexingService) (j : Job) (result : ProviderResult)
    (provider : AddrInfo) : Protocol → List Op
  | .equalsClaim equals _ =>
    if equals.hash ≠ j.mh then [.spawn ⟨equals.hash, none, none, .location⟩]
    else [.spawn ⟨result.contextID, none, none, .location⟩]
  | .indexClaim index _ => [.spawn ⟨index.hash, some j.mh, some result, .equalsOrLocation⟩]
  | .locationCommitment shard range _ =>
    match j.indexForMh with
    | none => []
    | some indexForMh =>
      let shard := shard.getD (Cid.newCidV1 Cid.raw j.mh)
      let url := is.fetchRetrievalUrl provider shard
      match j.indexProviderRecord with
      | none => [.fail (.nilDereference .indexProviderRecord)]
      | some indexProviderRecord =>
        match is.blobIndexLookup result.contextID indexProviderRecord url range with
        | .error e => [.fail (.backend e)]
        | .ok index =>
          .putIndex result.contextID index ::
            (index.shards.filter fun entry => indexForMh ∈ entry.2).map
              fun entry => .spawn ⟨entry.1, none, none, .equalsOrLocation⟩
  | .other _ => []

/-- The body of the loop over a record's protocols: skip protocols without a claim CID,
fetch and store the claim, then follow it. -/
def IndexingService.protocolOps (is : IndexingService) (j : Job) (result : ProviderResult)
    (protocol : Protocol) : List Op :=
  match protocol.claimCid with
  | none => []
  | some claimCid =>
    match result.provider with
    | none => [.fail (.nilDereference .provider)]
    | some provider =>
      match is.claimLookup claimCid (is.fetchClaimUrl provider claimCid) with
      | .error e => [.fail (.backend e)]
      | .ok claim => .putClaim claimCid claim :: is.followUps j result provider protocol

/-- The body of the loop over the records `Find` returned. -/
def IndexingService.resultOps (is : IndexingService) (j : Job) (result : ProviderResult) :
    List Op :=
  match is.unmarshalMetadata result.metadata with
  | .error e => [.fail (.backend e)]
  | .ok protocols => protocols.flatMap (is.protocolOps j result)

/-- One invocation of the handler, as the walkers see it. -/
structure Handler where
  key : JobKey
  find : QueryKey
  ops : List Op

/-- `jobHandler` for job `j` of query `q`. -/
def IndexingService.jobHandler (is : IndexingService) (q : Query) (j : Job) : Handler :=
  let findKey : QueryKey := ⟨j.mh, q.«match».subject, targetClaims j.jobType⟩
  { key := j.key
    find := findKey
    ops :=
      match is.providerIndex findKey with
      | .error e => [.fail (.backend e)]
      | .ok results => results.flatMap (is.resultOps j) }

@[simp] theorem IndexingService.jobHandler_key (is : IndexingService) (q : Query) (j : Job) :
    (is.jobHandler q j).key = j.key :=
  rfl

/-- Run operations in order until the first error, collecting spawned jobs. -/
def runOps : List Op → QueryState → List Job → QueryState × List Job × Option Error
  | [], qs, spawned => (qs, spawned, none)
  | .fail e :: _, qs, spawned => (qs, spawned, some e)
  | op :: ops, qs, spawned => runOps ops (op.update qs) (spawned ++ op.spawned)

/-- The outcome of a whole invocation: the state it leaves, the jobs it spawned, the error
it returned, and the `Find` query it made. -/
structure Outcome where
  qs : QueryState
  spawned : List Job
  err : Option Error
  find : Option QueryKey

/-- A whole invocation: the visit check and, when it passes, the `Find` query and every
operation up to the first error. -/
def Handler.run (h : Handler) (qs : QueryState) : Outcome :=
  match cmpSwap (notVisited h.key) (markVisited h.key) qs with
  | (false, qs) => ⟨qs, [], none, none⟩
  | (true, qs) =>
    let (qs, spawned, err) := runOps h.ops qs []
    ⟨qs, spawned, err, some h.find⟩

@[simp] theorem Op.mem_spawned {op : Op} {j : Job} : j ∈ op.spawned ↔ op = .spawn j := by
  cases op <;> simp [Op.spawned, eq_comm]

@[simp] theorem Op.update_q (op : Op) (qs : QueryState) : (op.update qs).q = qs.q := by
  cases op <;> simp only [Op.update, cmpSwap] <;> split <;> rfl

@[simp] theorem Op.update_visits (op : Op) (qs : QueryState) :
    (op.update qs).visits = qs.visits := by
  cases op <;> simp only [Op.update, cmpSwap] <;> split <;> rfl

theorem Op.update_claims (op : Op) (qs : QueryState) (c : Cid) :
    (op.update qs).qr.claims c =
      match op with
      | .putClaim claimCid claim =>
        if c = claimCid ∧ qs.qr.claims c = none then some claim else qs.qr.claims c
      | _ => qs.qr.claims c := by
  cases op <;> simp only [Op.update, cmpSwap]
  case putClaim claimCid claim =>
    by_cases same : c = claimCid
    · subst same
      cases present : qs.qr.claims c <;> simp [QueryResult.setClaim, present]
    · split <;> simp [QueryResult.setClaim, Function.update_noteq same, same]
  all_goals split <;> rfl

theorem Op.update_indexes (op : Op) (qs : QueryState) (k : Bytes) :
    (op.update qs).qr.indexes k =
      match op with
      | .putIndex contextID index =>
        if k = contextID ∧ qs.qr.indexes k = none then some index else qs.qr.indexes k
      | _ => qs.qr.indexes k := by
  cases op <;> simp only [Op.update, cmpSwap]
  case putIndex contextID index =>
    by_cases same : k = contextID
    · subst same
      cases present : qs.qr.indexes k <;> simp [QueryResult.setIndex, present]
    · split <;> simp [QueryResult.setIndex, Function.update_noteq same, same]
  all_goals split <;> rfl

@[simp] theorem runOps_q (ops : List Op) (qs : QueryState) (acc : List Job) :
    (runOps ops qs acc).1.q = qs.q := by
  induction ops generalizing qs acc with
  | nil => rfl
  | cons op ops ih => cases op <;> simp [runOps, ih]

@[simp] theorem runOps_visits (ops : List Op) (qs : QueryState) (acc : List Job) :
    (runOps ops qs acc).1.visits = qs.visits := by
  induction ops generalizing qs acc with
  | nil => rfl
  | cons op ops ih => cases op <;> simp [runOps, ih]

theorem mem_runOps_spawned {ops : List Op} {qs : QueryState} {acc : List Job} {j : Job}
    (member : j ∈ (runOps ops qs acc).2.1) : j ∈ acc ∨ .spawn j ∈ ops := by
  induction ops generalizing qs acc with
  | nil => exact .inl member
  | cons op ops ih =>
    cases op with
    | fail e => exact .inl member
    | spawn j' =>
      rcases ih member with earlier | later
      · simp only [Op.spawned, List.mem_append, List.mem_singleton] at earlier
        rcases earlier with earlier | rfl
        · exact .inl earlier
        · simp
      · simp [later]
    | _ => simpa [runOps, Op.spawned, ih] using ih member

theorem fail_mem_of_runOps_err {ops : List Op} {qs : QueryState} {acc : List Job} {e : Error}
    (failed : (runOps ops qs acc).2.2 = some e) : .fail e ∈ ops := by
  induction ops generalizing qs acc with
  | nil => cases failed
  | cons op ops ih =>
    cases op with
    | fail e' =>
      simp only [runOps, Option.some.injEq] at failed
      simp [failed]
    | _ => simpa using ih failed

theorem Handler.run_of_mem {h : Handler} {qs : QueryState} (visited : h.key ∈ qs.visits) :
    h.run qs = ⟨qs, [], none, none⟩ := by
  simp [Handler.run, cmpSwap, notVisited, visited]

theorem Handler.run_of_not_mem {h : Handler} {qs : QueryState} (fresh : h.key ∉ qs.visits) :
    h.run qs = ⟨(runOps h.ops (markVisited h.key qs) []).1,
      (runOps h.ops (markVisited h.key qs) []).2.1,
      (runOps h.ops (markVisited h.key qs) []).2.2, some h.find⟩ := by
  simp [Handler.run, cmpSwap, notVisited, fresh]

/-- Whether or not the visit check passes, the key is visited afterwards. -/
@[simp] theorem Handler.run_visits (h : Handler) (qs : QueryState) :
    (h.run qs).qs.visits = insert h.key qs.visits := by
  by_cases visited : h.key ∈ qs.visits
  · simp [Handler.run_of_mem visited, Finset.insert_eq_of_mem visited]
  · simp [Handler.run_of_not_mem visited, markVisited]

@[simp] theorem Handler.run_q (h : Handler) (qs : QueryState) : (h.run qs).qs.q = qs.q := by
  by_cases visited : h.key ∈ qs.visits
  · simp [Handler.run_of_mem visited]
  · simp [Handler.run_of_not_mem visited, markVisited]

/-! ## What an invocation can do -/

/-- How a protocol of record `result` makes the handler of `j` spawn `j'`. -/
def SpawnRule (is : IndexingService) (j : Job) (result : ProviderResult) :
    Protocol → Job → Prop
  | .equalsClaim equals _, j' =>
    j' = ⟨if equals.hash ≠ j.mh then equals.hash else result.contextID, none, none, .location⟩
  | .indexClaim index _, j' => j' = ⟨index.hash, some j.mh, some result, .equalsOrLocation⟩
  | .locationCommitment _ range _, j' =>
    ∃ indexForMh record index shard, j.indexForMh = some indexForMh ∧
      j.indexProviderRecord = some record ∧
      is.blobIndexLookup result.contextID record URL.zero range = .ok index ∧
      shard ∈ index.shards ∧ indexForMh ∈ shard.2 ∧ j' = ⟨shard.1, none, none, .equalsOrLocation⟩
  | .other _, _ => False

section Inversion

variable {is : IndexingService} {q : Query} {j j' : Job} {result : ProviderResult}
  {provider : AddrInfo} {protocol : Protocol} {op : Op}

theorem spawnRule_of_mem_followUps (member : .spawn j' ∈ is.followUps j result provider protocol) :
    SpawnRule is j result protocol j' := by
  cases protocol with
  | equalsClaim equals claim =>
    simp only [IndexingService.followUps] at member
    split at member <;> simp_all [SpawnRule]
  | indexClaim index claim => simp_all [IndexingService.followUps, SpawnRule]
  | locationCommitment shard range claim =>
    simp only [IndexingService.followUps] at member
    split at member
    · simp at member
    rename_i indexForMh hasIndex
    split at member
    · simp at member
    rename_i record hasRecord
    split at member
    · simp at member
    rename_i index lookup
    simp only [List.mem_cons, Op.spawn.injEq, List.mem_map, List.mem_filter,
      decide_eq_true_eq, reduceCtorEq, false_or] at member
    obtain ⟨entry, ⟨present, holds⟩, rfl⟩ := member
    exact ⟨indexForMh, record, index, entry, hasIndex, hasRecord, lookup, present, holds, rfl⟩
  | other code => simp [IndexingService.followUps] at member

theorem fail_mem_followUps {e : Error}
    (member : .fail e ∈ is.followUps j result provider protocol) :
    (∃ message, e = .backend message) ∨
      (e = .nilDereference .indexProviderRecord ∧ j.indexForMh.isSome ∧
        j.indexProviderRecord = none) := by
  cases protocol with
  | equalsClaim equals claim =>
    simp only [IndexingService.followUps] at member
    split at member <;> simp at member
  | indexClaim index claim => simp [IndexingService.followUps] at member
  | locationCommitment shard range claim =>
    simp only [IndexingService.followUps] at member
    split at member
    · simp at member
    rename_i indexForMh hasIndex
    split at member
    · simp_all
    split at member
    · simp_all
    · simp at member
  | other code => simp [IndexingService.followUps] at member

theorem mem_protocolOps (member : op ∈ is.protocolOps j result protocol) :
    (∃ message, op = .fail (.backend message)) ∨
      (op = .fail (.nilDereference .provider) ∧ result.provider = none) ∨
      ∃ claimCid provider claim, protocol.claimCid = some claimCid ∧
        result.provider = some provider ∧ is.claimLookup claimCid URL.zero = .ok claim ∧
        (op = .putClaim claimCid claim ∨ op ∈ is.followUps j result provider protocol) := by
  unfold IndexingService.protocolOps at member
  split at member
  · simp at member
  rename_i claimCid hasClaim
  split at member
  · simp_all
  rename_i provider hasProvider
  split at member
  · simp_all
  rename_i claim lookup
  exact .inr (.inr ⟨claimCid, provider, claim, hasClaim, hasProvider, lookup, by simpa using member⟩)

/-- Every operation of an invocation, but the error of a failed `Find` or metadata decoding,
comes from one protocol of one record that `Find` returned. -/
theorem mem_jobHandler_ops (member : op ∈ (is.jobHandler q j).ops) :
    (∃ message, op = .fail (.backend message)) ∨
      ∃ results, is.providerIndex (is.jobHandler q j).find = .ok results ∧
        ∃ result ∈ results, ∃ protocols, is.unmarshalMetadata result.metadata = .ok protocols ∧
          ∃ protocol ∈ protocols, op ∈ is.protocolOps j result protocol := by
  simp only [IndexingService.jobHandler] at member ⊢
  split at member
  · simp_all
  rename_i results found
  simp only [List.mem_flatMap] at member
  obtain ⟨result, returned, member⟩ := member
  unfold IndexingService.resultOps at member
  split at member
  · simp_all
  rename_i protocols decoded
  simp only [List.mem_flatMap] at member
  obtain ⟨protocol, listed, member⟩ := member
  exact .inr ⟨results, found, result, returned, protocols, decoded, protocol, listed, member⟩

/-- The jobs an invocation spawns, each with the record and protocol it follows. -/
theorem spawn_mem_jobHandler_ops (member : .spawn j' ∈ (is.jobHandler q j).ops) :
    ∃ results, is.providerIndex (is.jobHandler q j).find = .ok results ∧
      ∃ result ∈ results, ∃ protocols, is.unmarshalMetadata result.metadata = .ok protocols ∧
        ∃ protocol ∈ protocols, SpawnRule is j result protocol j' := by
  rcases mem_jobHandler_ops member with ⟨_, bad⟩ | ⟨results, found, result, returned,
    protocols, decoded, protocol, listed, member⟩
  · cases bad
  refine ⟨results, found, result, returned, protocols, decoded, protocol, listed, ?_⟩
  rcases mem_protocolOps member with ⟨_, bad⟩ | ⟨bad, _⟩ | ⟨_, provider, _, _, _, _, bad | follow⟩
  · cases bad
  · cases bad
  · cases bad
  · exact spawnRule_of_mem_followUps follow

/-- An invocation dereferences `indexProviderRecord` only for a job that indexes a
multihash and has no record. -/
theorem record_missing_of_mem_jobHandler_ops
    (member : .fail (.nilDereference .indexProviderRecord) ∈ (is.jobHandler q j).ops) :
    j.indexForMh.isSome ∧ j.indexProviderRecord = none := by
  rcases mem_jobHandler_ops member with ⟨_, bad⟩ | ⟨_, _, _, _, _, _, _, _, member⟩
  · cases bad
  rcases mem_protocolOps member with ⟨_, bad⟩ | ⟨bad, _⟩ | ⟨_, _, _, _, _, _, bad | follow⟩
  · cases bad
  · cases bad
  · cases bad
  rcases fail_mem_followUps follow with ⟨_, bad⟩ | ⟨_, missing⟩
  · cases bad
  · exact missing

end Inversion

end Indexing
