import IndexingService.ParallelWalk

/-!
# The reference closure

What a query should return, stated without the walker: the least set of job triples that
holds one standard triple per queried hash and is closed under the successor rules of the
claim graph, and the claims and indexes found under those triples.  The graph is what a
stable backend serves (`Serves`): collaborators that never fail and answer as fixed
functions, the index lookup depending only on the context ID that keys its cache.

Under `Serves` one invocation of the handler does exactly what the rules of its triple say
(`mem_jobHandler_ops_iff` and what follows from it); the walkers' results are then read off invariants
of their runs.
-/

namespace Indexing

/-- The claim graph a stable backend serves: the records `Find` returns for each query key,
the protocols of each metadata, the claim behind each claim CID and the index behind each
context ID. -/
structure ClaimGraph where
  records : QueryKey → List ProviderResult
  protocols : Bytes → List Protocol
  claim : Cid → Delegation
  index : Bytes → ShardedDagIndexView

/-- The collaborators of `is` serve `g`: they never fail, every record `Find` returns has a
provider, `LookupClaim` depends only on the claim CID and the index lookup only on the
context ID. -/
structure Serves (is : IndexingService) (g : ClaimGraph) : Prop where
  find : ∀ k, is.providerIndex k = .ok (g.records k)
  provider : ∀ k, ∀ r ∈ g.records k, r.provider.isSome
  metadata : ∀ k, ∀ r ∈ g.records k, is.unmarshalMetadata r.metadata = .ok (g.protocols r.metadata)
  claim : ∀ c, is.claimLookup c URL.zero = .ok (g.claim c)
  index : ∀ contextID record url range,
    is.blobIndexLookup contextID record url range = .ok (g.index contextID)

/-- The `Find` query of a triple. -/
def JobId.findKey (q : Query) (t : JobId) : QueryKey :=
  ⟨t.mh, q.«match».subject, targetClaims t.jobType⟩

@[simp] theorem IndexingService.jobHandler_find (is : IndexingService) (q : Query) (j : Job) :
    (is.jobHandler q j).find = j.id.findKey q :=
  rfl

variable {g : ClaimGraph} {q : Query}

/-- The successor rules: an equals claim leads to the other side (the record's context ID
when the claim was found under the equals side), an index claim to the index, and a location
commitment of an index blob to every shard of the index that holds the indexed multihash. -/
inductive Successor (g : ClaimGraph) (q : Query) (t : JobId) : JobId → Prop
  | equals {r : ProviderResult} {equals claim : Cid} : r ∈ g.records (t.findKey q) →
      .equalsClaim equals claim ∈ g.protocols r.metadata →
      Successor g q t ⟨if equals.hash = t.mh then r.contextID else equals.hash, .location, none⟩
  | index {r : ProviderResult} {index claim : Cid} : r ∈ g.records (t.findKey q) →
      .indexClaim index claim ∈ g.protocols r.metadata →
      Successor g q t ⟨index.hash, .equalsOrLocation, some t.mh⟩
  | shard {r : ProviderResult} {shard : Option Cid} {range : Option Range} {claim : Cid}
      {indexForMh : Multihash} {entry : Multihash × List Multihash} :
      r ∈ g.records (t.findKey q) → .locationCommitment shard range claim ∈ g.protocols r.metadata →
      t.indexForMh = some indexForMh → entry ∈ (g.index r.contextID).shards →
      indexForMh ∈ entry.2 → Successor g q t ⟨entry.1, .equalsOrLocation, none⟩

/-- The reference closure: the least set of triples with a standard triple per queried hash,
closed under `Successor`. -/
inductive Reach (g : ClaimGraph) (q : Query) : JobId → Prop
  | query {h : Multihash} : h ∈ q.hashes → Reach g q ⟨h, .standard, none⟩
  | step {t u : JobId} : Reach g q t → Successor g q t u → Reach g q u

/-- Claim `c` is found under triple `t`. -/
def ClaimOf (g : ClaimGraph) (q : Query) (t : JobId) (c : Cid) : Prop :=
  ∃ r ∈ g.records (t.findKey q), ∃ protocol ∈ g.protocols r.metadata, protocol.claimCid = some c

/-- The index keyed by `contextID` is fetched under triple `t`: a location commitment in a
record with that context ID, for a triple that indexes a multihash. -/
def IndexOf (g : ClaimGraph) (q : Query) (t : JobId) (contextID : Bytes) : Prop :=
  t.indexForMh.isSome ∧ ∃ r ∈ g.records (t.findKey q), r.contextID = contextID ∧
    ∃ shard range claim, .locationCommitment shard range claim ∈ g.protocols r.metadata

/-- `qr` holds exactly the claims and indexes found under the reference closure, each the
one the backend serves. -/
structure IsClosureResult (g : ClaimGraph) (q : Query) (qr : QueryResult) : Prop where
  claims : ∀ c d, qr.claims c = some d ↔ d = g.claim c ∧ ∃ t, Reach g q t ∧ ClaimOf g q t c
  indexes : ∀ contextID index, qr.indexes contextID = some index ↔
    index = g.index contextID ∧ ∃ t, Reach g q t ∧ IndexOf g q t contextID

/-- The reference result is unique. -/
theorem IsClosureResult.unique {qr qr' : QueryResult} (result : IsClosureResult g q qr)
    (result' : IsClosureResult g q qr') : qr = qr' := by
  obtain ⟨claims, indexes⟩ := qr
  obtain ⟨claims', indexes'⟩ := qr'
  have sameClaims : claims = claims' := funext fun c => Option.ext fun d =>
    (result.claims c d).trans (result'.claims c d).symm
  have sameIndexes : indexes = indexes' := funext fun k => Option.ext fun i =>
    (result.indexes k i).trans (result'.indexes k i).symm
  rw [sameClaims, sameIndexes]

/-- Every multihash the walk can meet is well formed: the queried hashes, the targets of
equals and index claims, the context IDs of records with an equals claim, and the shards
of every index. -/
structure WellFormedGraph (g : ClaimGraph) (q : Query) : Prop where
  hashes : ∀ h ∈ q.hashes, Multihash.WellFormed h
  equals : ∀ k, ∀ r ∈ g.records k, ∀ equals claim,
    .equalsClaim equals claim ∈ g.protocols r.metadata →
      Multihash.WellFormed equals.hash ∧ Multihash.WellFormed r.contextID
  index : ∀ k, ∀ r ∈ g.records k, ∀ index claim,
    .indexClaim index claim ∈ g.protocols r.metadata → Multihash.WellFormed index.hash
  shards : ∀ contextID, ∀ entry ∈ (g.index contextID).shards, Multihash.WellFormed entry.1

theorem Reach.wellFormed (wellFormed : WellFormedGraph g q) {t : JobId} (reach : Reach g q t) :
    t.WellFormed := by
  induction reach with
  | query member => exact ⟨wellFormed.hashes _ member, by simp⟩
  | step _ successor ih =>
    cases successor with
    | equals record listed =>
      obtain ⟨target, context⟩ := wellFormed.equals _ _ record _ _ listed
      exact ⟨by split <;> assumption, by simp⟩
    | index record listed => exact ⟨wellFormed.index _ _ record _ _ listed, by simpa using ih.1⟩
    | shard _ _ _ entry _ => exact ⟨wellFormed.shards _ _ entry, by simp⟩

namespace Sample

/-- The claim graph `Sample.service` answers from. -/
def graph : ClaimGraph :=
  ⟨records, protocols, claim, index⟩

theorem service_serves : Serves service graph :=
  ⟨fun _ => rfl, fun _ _ member => by rcases mem_records member with rfl | rfl | rfl | rfl <;> rfl,
    fun _ _ _ => rfl, fun _ => rfl, fun _ _ _ _ => rfl⟩

theorem graph_wellFormed : WellFormedGraph graph query := by
  refine ⟨by decide, fun _ r member equals claim listed => ?_,
    fun _ r member index claim listed => ?_, fun contextID entry listed => ?_⟩
  · rcases mem_records member with rfl | rfl | rfl | rfl <;> simp [graph, protocols] at listed
    all_goals (obtain ⟨rfl, rfl⟩ := listed; decide)
  · rcases mem_records member with rfl | rfl | rfl | rfl <;> simp [graph, protocols] at listed
    obtain ⟨rfl, rfl⟩ := listed
    decide
  · dsimp only [graph, index] at listed
    split_ifs at listed
    · simp only [List.mem_cons, List.not_mem_nil, or_false] at listed
      rcases listed with rfl | rfl <;> decide
    · cases listed

end Sample

/-! ## One invocation under a stable backend -/

section Served

variable {is : IndexingService} {j j' : Job} {r : ProviderResult} {provider : AddrInfo}
  {op : Op}

theorem followUps_locationCommitment (serves : Serves is g) (valid : j.Valid)
    {shard : Option Cid} {range : Option Range} {claim : Cid} {indexForMh : Multihash}
    (indexes : j.indexForMh = some indexForMh) :
    is.followUps j r provider (.locationCommitment shard range claim) =
      .putIndex r.contextID (g.index r.contextID) ::
        ((g.index r.contextID).shards.filter fun entry => indexForMh ∈ entry.2).map
          fun entry => .spawn ⟨entry.1, none, none, .equalsOrLocation⟩ := by
  have carried := valid.record
  rw [indexes] at carried
  obtain ⟨record, hasRecord⟩ := Option.isSome_iff_exists.mp carried.symm
  simp [IndexingService.followUps, indexes, hasRecord, serves.index]

theorem followUps_not_fail (serves : Serves is g) (valid : j.Valid) {e : Error}
    {protocol : Protocol} : .fail e ∉ is.followUps j r provider protocol := by
  cases protocol with
  | equalsClaim => simp only [IndexingService.followUps]; split <;> simp
  | indexClaim => simp [IndexingService.followUps]
  | locationCommitment shard range claim =>
    cases indexes : j.indexForMh with
    | none => simp [IndexingService.followUps, indexes]
    | some indexForMh => simp [followUps_locationCommitment serves valid indexes]
  | other => simp [IndexingService.followUps]

/-- Under `Serves`, the operations of an invocation are, for every record `Find` returns and
every protocol of it that has a claim CID, the claim's insertion and the follow-ups. -/
theorem mem_jobHandler_ops_iff (serves : Serves is g) :
    op ∈ (is.jobHandler q j).ops ↔ ∃ r ∈ g.records (j.id.findKey q), ∃ provider,
      r.provider = some provider ∧ ∃ protocol ∈ g.protocols r.metadata, ∃ c,
        protocol.claimCid = some c ∧
          (op = .putClaim c (g.claim c) ∨ op ∈ is.followUps j r provider protocol) := by
  simp only [IndexingService.jobHandler, serves.find, List.mem_flatMap]
  constructor
  · rintro ⟨r, returned, member⟩
    obtain ⟨provider, hasProvider⟩ :=
      Option.isSome_iff_exists.mp (serves.provider _ r returned)
    simp only [IndexingService.resultOps, serves.metadata _ r returned, List.mem_flatMap] at member
    obtain ⟨protocol, listed, member⟩ := member
    unfold IndexingService.protocolOps at member
    split at member
    · simp at member
    rename_i c hasClaim
    simp only [hasProvider, IndexingService.fetchClaimUrl, serves.claim, List.mem_cons] at member
    exact ⟨r, returned, provider, hasProvider, protocol, listed, c, hasClaim, member⟩
  · rintro ⟨r, returned, provider, hasProvider, protocol, listed, c, hasClaim, member⟩
    refine ⟨r, returned, ?_⟩
    simp only [IndexingService.resultOps, serves.metadata _ r returned, List.mem_flatMap]
    refine ⟨protocol, listed, ?_⟩
    simp only [IndexingService.protocolOps, hasClaim, hasProvider, IndexingService.fetchClaimUrl,
      serves.claim, List.mem_cons]
    exact member

theorem fail_not_mem_jobHandler_ops (serves : Serves is g) (valid : j.Valid) {e : Error} :
    .fail e ∉ (is.jobHandler q j).ops := by
  intro member
  obtain ⟨_, _, _, _, _, _, _, _, inserted | followed⟩ := (mem_jobHandler_ops_iff serves).mp member
  · cases inserted
  · exact followUps_not_fail serves valid followed

theorem putClaim_mem_jobHandler_ops_iff (serves : Serves is g) (valid : j.Valid) {c : Cid}
    {d : Delegation} :
    .putClaim c d ∈ (is.jobHandler q j).ops ↔ d = g.claim c ∧ ClaimOf g q j.id c := by
  rw [mem_jobHandler_ops_iff serves]
  constructor
  · rintro ⟨r, returned, provider, _, protocol, listed, c', hasClaim, inserted | followed⟩
    · simp only [Op.putClaim.injEq] at inserted
      obtain ⟨rfl, rfl⟩ := inserted
      exact ⟨rfl, r, returned, protocol, listed, hasClaim⟩
    · exfalso
      cases protocol with
      | equalsClaim => simp only [IndexingService.followUps] at followed; split at followed <;> simp at followed
      | indexClaim => simp [IndexingService.followUps] at followed
      | locationCommitment shard range claim =>
        cases indexes : j.indexForMh with
        | none => simp [IndexingService.followUps, indexes] at followed
        | some m => simp [followUps_locationCommitment serves valid indexes] at followed
      | other => simp [IndexingService.followUps] at followed
  · rintro ⟨rfl, r, returned, protocol, listed, hasClaim⟩
    obtain ⟨provider, hasProvider⟩ :=
      Option.isSome_iff_exists.mp (serves.provider _ r returned)
    exact ⟨r, returned, provider, hasProvider, protocol, listed, c, hasClaim, .inl rfl⟩

theorem putIndex_mem_jobHandler_ops_iff (serves : Serves is g) (valid : j.Valid) {k : Bytes}
    {i : ShardedDagIndexView} :
    .putIndex k i ∈ (is.jobHandler q j).ops ↔ i = g.index k ∧ IndexOf g q j.id k := by
  rw [mem_jobHandler_ops_iff serves]
  constructor
  · rintro ⟨r, returned, provider, _, protocol, listed, c, _, inserted | followed⟩
    · cases inserted
    cases protocol with
    | equalsClaim => simp only [IndexingService.followUps] at followed; split at followed <;> simp at followed
    | indexClaim => simp [IndexingService.followUps] at followed
    | locationCommitment shard range claim =>
      cases indexes : j.indexForMh with
      | none => simp [IndexingService.followUps, indexes] at followed
      | some m =>
        simp only [followUps_locationCommitment serves valid indexes, List.mem_cons,
          Op.putIndex.injEq, List.mem_map, reduceCtorEq, and_false, exists_false,
          or_false] at followed
        obtain ⟨rfl, rfl⟩ := followed
        exact ⟨rfl, by simp [Job.id, indexes], r, returned, rfl, shard, range, claim, listed⟩
    | other => simp [IndexingService.followUps] at followed
  · rintro ⟨rfl, indexed, r, returned, rfl, shard, range, claim, listed⟩
    obtain ⟨provider, hasProvider⟩ :=
      Option.isSome_iff_exists.mp (serves.provider _ r returned)
    obtain ⟨m, indexes⟩ := Option.isSome_iff_exists.mp indexed
    refine ⟨r, returned, provider, hasProvider, _, listed, claim, rfl, .inr ?_⟩
    simp [followUps_locationCommitment serves valid indexes]

/-- Under `Serves`, a job spawns exactly the successors of its triple. -/
theorem spawn_mem_jobHandler_ops_successor (serves : Serves is g) (valid : j.Valid)
    (member : .spawn j' ∈ (is.jobHandler q j).ops) : Successor g q j.id j'.id := by
  obtain ⟨r, returned, provider, _, protocol, listed, c, _, inserted | followed⟩ :=
    (mem_jobHandler_ops_iff serves).mp member
  · cases inserted
  cases protocol with
  | equalsClaim equals claim =>
    have rule := Successor.equals returned listed
    simp only [IndexingService.followUps] at followed
    by_cases same : equals.hash = j.mh
    · simp only [same, ne_eq, not_true_eq_false, if_false, List.mem_singleton,
        Op.spawn.injEq] at followed
      subst followed
      simpa [Job.id, same] using rule
    · simp only [same, ne_eq, not_false_eq_true, if_true, List.mem_singleton,
        Op.spawn.injEq] at followed
      subst followed
      simpa [Job.id, same] using rule
  | indexClaim index claim =>
    simp only [IndexingService.followUps, List.mem_singleton, Op.spawn.injEq] at followed
    subst followed
    exact Successor.index returned listed
  | locationCommitment shard range claim =>
    cases indexes : j.indexForMh with
    | none => simp [IndexingService.followUps, indexes] at followed
    | some m =>
      simp only [followUps_locationCommitment serves valid indexes, List.mem_cons,
        reduceCtorEq, false_or, List.mem_map, List.mem_filter, decide_eq_true_eq,
        Op.spawn.injEq] at followed
      obtain ⟨entry, ⟨present, holds⟩, rfl⟩ := followed
      exact Successor.shard returned listed indexes present holds
  | other => simp [IndexingService.followUps] at followed

theorem exists_spawn_of_successor (serves : Serves is g) (valid : j.Valid) {t : JobId}
    (successor : Successor g q j.id t) : ∃ j', .spawn j' ∈ (is.jobHandler q j).ops ∧ j'.id = t := by
  cases successor with
  | @equals r equals claim returned listed =>
    obtain ⟨provider, hasProvider⟩ := Option.isSome_iff_exists.mp (serves.provider _ r returned)
    refine ⟨⟨if equals.hash ≠ j.mh then equals.hash else r.contextID, none, none, .location⟩,
      (mem_jobHandler_ops_iff serves).mpr
        ⟨r, returned, provider, hasProvider, _, listed, claim, rfl, .inr ?_⟩, ?_⟩
    · simp only [IndexingService.followUps]
      split <;> simp_all
    · by_cases same : equals.hash = j.mh <;> simp [Job.id, same]
  | @index r index claim returned listed =>
    obtain ⟨provider, hasProvider⟩ := Option.isSome_iff_exists.mp (serves.provider _ r returned)
    exact ⟨⟨index.hash, some j.mh, some r, .equalsOrLocation⟩, (mem_jobHandler_ops_iff serves).mpr
      ⟨r, returned, provider, hasProvider, _, listed, claim, rfl, .inr (by
        simp [IndexingService.followUps])⟩, rfl⟩
  | @shard r shard range claim m entry returned listed indexes present holds =>
    obtain ⟨provider, hasProvider⟩ := Option.isSome_iff_exists.mp (serves.provider _ r returned)
    refine ⟨⟨entry.1, none, none, .equalsOrLocation⟩, (mem_jobHandler_ops_iff serves).mpr
      ⟨r, returned, provider, hasProvider, _, listed, claim, rfl, .inr ?_⟩, rfl⟩
    rw [followUps_locationCommitment serves valid indexes]
    exact List.mem_cons_of_mem _ (List.mem_map_of_mem _ (List.mem_filter.mpr
      ⟨present, by simpa using holds⟩))

end Served

end Indexing
