import IndexingService.Termination

/-!
# What `Query` returns

Under a backend that serves a well-formed claim graph, every serial run of `Query`, whatever
pending job it takes next, and every parallel run, whatever the interleaving of its workers,
that drains returns the reference result.  Serial runs never fail, and when the reference
closure is finite they never run forever and can always go on until they drain; a parallel
run that drains shows the closure finite, so a serial run then drains to the same result.
-/

namespace Indexing

section Served

variable {is : IndexingService} {g : ClaimGraph} {q : Query} {finds : List QueryKey}
  {s : WalkState}

theorem SerialRun.pending_reach (serves : Serves is g) (wellFormed : WellFormedGraph g q)
    (run : SerialRun (· = is) (.init q) finds s) : ∀ j ∈ s.pending, Reach g q j.id :=
  (run.closureInv serves wellFormed).queue

theorem SerialRun.result (serves : Serves is g) (wellFormed : WellFormedGraph g q)
    (run : SerialRun (· = is) (.init q) finds s) (drained : s.pending = []) :
    (∀ k, k ∈ s.qs.visits ↔ ∃ t, Reach g q t ∧ t.key = k) ∧ IsClosureResult g q s.qs.qr :=
  (run.closureInv serves wellFormed).result drained fun _ => rfl

/-- Every job of a serial run has a key of a triple of the closure. -/
theorem SerialRun.key_mem_image (serves : Serves is g) (wellFormed : WellFormedGraph g q)
    {closure : Finset JobId} (spans : ∀ t, Reach g q t → t ∈ closure) :
    ∀ finds s, SerialRun (· = is) (.init q) finds s →
      ∀ j ∈ s.pending, j.key ∈ closure.image JobId.key :=
  fun _ _ run j pending => Finset.mem_image.mpr
    ⟨j.id, spans _ (run.pending_reach serves wellFormed j pending), Job.id_key j⟩

/-- Under a backend that serves a well-formed claim graph, no serial run of `Query`, whatever
job it takes next, fails; every one that drains has visited exactly the keys of the reference
closure and holds the reference result; and when the closure is finite no serial run is
infinite and every one goes on to drain. -/
theorem serial_query_returns_closure (serves : Serves is g) (wellFormed : WellFormedGraph g q) :
    (∀ finds s, SerialRun (· = is) (.init q) finds s → s.err = none ∧
      (s.pending = [] → (∀ k, k ∈ s.qs.visits ↔ ∃ t, Reach g q t ∧ t.key = k) ∧
        IsClosureResult g q s.qs.qr)) ∧
    ∀ closure : Finset JobId, (∀ t, Reach g q t → t ∈ closure) →
      (¬ ∃ f : ℕ → WalkState, f 0 = .init q ∧ ∀ n, SerialStep (· = is) (f n) (f (n + 1))) ∧
      ∀ finds s, SerialRun (· = is) (.init q) finds s →
        ∃ finds' s', SerialRun (· = is) s finds' s' ∧ s'.Drained := by
  refine ⟨fun _ _ run => ⟨run.err_eq_none serves, run.result serves wellFormed⟩,
    fun closure spans => ?_⟩
  have bounded := SerialRun.key_mem_image serves wellFormed spans
  exact ⟨SerialRun.not_infinite bounded, fun _ _ run =>
    run.exists_drained bounded rfl fun _ _ run => run.err_eq_none serves⟩

/-- The sample query: no serial run fails, and its first-pending walk drains with the
reference result. -/
theorem sample_query_returns_closure :
    Serves Sample.service Sample.graph ∧ WellFormedGraph Sample.graph Sample.query ∧
      (∀ finds s, SerialRun (· = Sample.service) (.init Sample.query) finds s → s.err = none ∧
        (s.pending = [] →
          (∀ k, k ∈ s.qs.visits ↔ ∃ t, Reach Sample.graph Sample.query t ∧ t.key = k) ∧
          IsClosureResult Sample.graph Sample.query s.qs.qr)) ∧
      IsClosureResult Sample.graph Sample.query Sample.finalWalk.qs.qr := by
  have serves := Sample.service_serves
  have wellFormed := Sample.graph_wellFormed
  have returns := (serial_query_returns_closure serves wellFormed).1
  obtain ⟨_, run⟩ := Sample.finalWalk_reached
  exact ⟨serves, wellFormed, returns, ((returns _ _ run).2 Sample.finalWalk_drained.1).2⟩

/-- Under a backend that serves a well-formed claim graph, every parallel run of `Query`
that drains, with any number of workers and in any interleaving of their steps, returns the
result of every serial run that drains, and some serial run drains. -/
theorem parallel_query_eq_serial (serves : Serves is g) (wellFormed : WellFormedGraph g q)
    {concurrency : Nat} {s : ParallelState} (run : ParallelRun is concurrency q s)
    (drained : s.Drained) :
    (∃ finds s', SerialRun (· = is) (.init q) finds s' ∧ s'.Drained) ∧
      ∀ finds s', SerialRun (· = is) (.init q) finds s' → s'.pending = [] →
        s'.qs.qr = s.qs.qr := by
  obtain ⟨visited, result⟩ := (run.closureInv serves wellFormed).result drained.1 drained.2.1
  have bounded : ∀ finds s', SerialRun (· = is) (.init q) finds s' →
      ∀ j ∈ s'.pending, j.key ∈ s.qs.visits :=
    fun _ _ serial j pending =>
      (visited _).mpr ⟨j.id, serial.pending_reach serves wellFormed j pending, Job.id_key j⟩
  refine ⟨?_, fun _ _ serial emptied => (serial.result serves wellFormed emptied).2.unique result⟩
  have start : SerialRun (· = is) (.init q) [] (.init q) := .refl _
  obtain ⟨finds, s', serial, done⟩ :=
    start.exists_drained bounded rfl fun _ _ serial => serial.err_eq_none serves
  exact ⟨finds, s', by simpa using serial, done⟩

/-- The end of the sample query's first-pending walk, as a state of a walk with two
workers. -/
theorem sample_parallel_eq_serial :
    Serves Sample.service Sample.graph ∧ WellFormedGraph Sample.graph Sample.query ∧
      ParallelRun Sample.service 2 Sample.query Sample.finalWalk.toParallel ∧
      Sample.finalWalk.toParallel.Drained ∧
      (∃ finds s', SerialRun (· = Sample.service) (.init Sample.query) finds s' ∧ s'.Drained) ∧
      ∀ finds s', SerialRun (· = Sample.service) (.init Sample.query) finds s' →
        s'.pending = [] → s'.qs.qr = Sample.finalWalk.toParallel.qs.qr := by
  have serves := Sample.service_serves
  have wellFormed := Sample.graph_wellFormed
  obtain ⟨_, serial⟩ := Sample.finalWalk_reached
  have run : ParallelRun Sample.service 2 Sample.query Sample.finalWalk.toParallel :=
    serial.toParallel (by decide) Sample.finalWalk_drained.2
  have drained : Sample.finalWalk.toParallel.Drained :=
    ⟨Sample.finalWalk_drained.1, fun _ => rfl, Sample.finalWalk_drained.2⟩
  exact ⟨serves, wellFormed, run, drained, parallel_query_eq_serial serves wellFormed run drained⟩

/-- Under a backend that serves a well-formed claim graph, every state of every parallel run,
drained or not and in any interleaving, has no error and stores only claims and indexes of
the reference result. -/
theorem parallel_run_stores_only_closure (serves : Serves is g) (wellFormed : WellFormedGraph g q)
    {concurrency : Nat} {s : ParallelState} (run : ParallelRun is concurrency q s) :
    s.err = none ∧
      (∀ c d, s.qs.qr.claims c = some d → d = g.claim c ∧ ∃ t, Reach g q t ∧ ClaimOf g q t c) ∧
      ∀ contextID index, s.qs.qr.indexes contextID = some index →
        index = g.index contextID ∧ ∃ t, Reach g q t ∧ IndexOf g q t contextID :=
  have inv := run.closureInv serves wellFormed
  ⟨inv.err, inv.claims, inv.indexes⟩

/-- The sample walk with two workers past their visit checks, once the claims of `A` are
stored. -/
theorem two_workers_store_only_closure :
    Serves Sample.service Sample.graph ∧ WellFormedGraph Sample.graph Sample.query ∧
      ParallelRun Sample.service 2 Sample.query Sample.twoWorkers ∧
      Sample.twoWorkers.err = none ∧
      (∀ c d, Sample.twoWorkers.qs.qr.claims c = some d →
        d = Sample.graph.claim c ∧ ∃ t, Reach Sample.graph Sample.query t ∧
          ClaimOf Sample.graph Sample.query t c) ∧
      ∀ contextID index, Sample.twoWorkers.qs.qr.indexes contextID = some index →
        index = Sample.graph.index contextID ∧ ∃ t, Reach Sample.graph Sample.query t ∧
          IndexOf Sample.graph Sample.query t contextID := by
  have serves := Sample.service_serves
  have wellFormed := Sample.graph_wellFormed
  have run := Sample.twoWorkers_reached
  exact ⟨serves, wellFormed, run, parallel_run_stores_only_closure serves wellFormed run⟩

/-- Under a well-formed claim graph, two triples of the reference closure have the same key
exactly when they are equal, so the visit check never takes one for another. -/
theorem closure_key_injective (wellFormed : WellFormedGraph g q) {t u : JobId}
    (reachT : Reach g q t) (reachU : Reach g q u) : t.key = u.key ↔ t = u :=
  ⟨JobId.key_injective (reachT.wellFormed wellFormed) (reachU.wellFormed wellFormed),
    congrArg JobId.key⟩

/-- The standard triple of `A` and the triple of shard `S`, which the sample closure reaches
through the index claim of `A` and the location commitment of its index `I`. -/
theorem sample_closure_keys_differ :
    let t : JobId := ⟨Sample.hashA, .standard, none⟩
    let u : JobId := ⟨Sample.hashS, .equalsOrLocation, none⟩
    WellFormedGraph Sample.graph Sample.query ∧ Reach Sample.graph Sample.query t ∧
      Reach Sample.graph Sample.query u ∧ t ≠ u ∧ (t.key = u.key ↔ t = u) := by
  intro t u
  have wellFormed := Sample.graph_wellFormed
  have reachT : Reach Sample.graph Sample.query t := .query (List.mem_singleton_self _)
  have reachIndex :
      Reach Sample.graph Sample.query ⟨Sample.hashI, .equalsOrLocation, some Sample.hashA⟩ :=
    reachT.step (.index (r := ⟨Sample.hashA, [1], some Sample.peer⟩) (by decide)
      (show .indexClaim ⟨1, Cid.raw, Sample.hashI⟩ ⟨1, Cid.raw, [12]⟩ ∈ Sample.protocols [1]
        by decide))
  have reachU : Reach Sample.graph Sample.query u :=
    reachIndex.step (.shard (r := ⟨[7], [3], some Sample.peer⟩) (by decide)
      (show .locationCommitment none none ⟨1, Cid.raw, [31]⟩ ∈ Sample.protocols [3] by decide) rfl
      (show (Sample.hashS, [Sample.hashA]) ∈ (Sample.index [7]).shards by decide) (by decide))
  exact ⟨wellFormed, reachT, reachU, by decide, closure_key_injective wellFormed reachT reachU⟩

end Served

/-! ## Keys that collide

`job.key` puts no separator between its parts, and the handler takes an equals record's
context ID for a multihash without decoding it.  A context ID that ends in the start of a
well-formed multihash then gives a location job the key of an `equals_or_location` job, and
whichever of the two is handled second is dropped.
-/

/-- The identity multihash of the bytes of `location`. -/
def locationHash : Multihash := [0x00, 0x08] ++ goBytes "location"

/-- The identity multihash of `A`. -/
def indexHash : Multihash := [0x00, 0x01, 0x41]

/-- A context ID that is not a multihash: `indexHash`, the name of the
`equals_or_location` type and the first two bytes of `locationHash`. -/
def collidingContextID : Bytes := indexHash ++ goBytes "equals_or_location" ++ [0x00, 0x08]

/-- Collaborators under which `locationHash` has an equals claim on itself, found in a
record with context ID `collidingContextID`, and an index claim for `indexHash`, whose own
record is a location commitment. -/
def collisionService : IndexingService where
  blobIndexLookup _ _ _ _ := .ok ⟨[]⟩
  claimLookup _ _ := .ok ⟨[]⟩
  providerIndex k :=
    if k.hash = locationHash then
      .ok [⟨collidingContextID, [1], some ⟨[], []⟩⟩, ⟨[], [2], some ⟨[], []⟩⟩]
    else if k.hash = indexHash then .ok [⟨[], [3], some ⟨[], []⟩⟩]
    else .ok []
  unmarshalMetadata md :=
    if md = [1] then .ok [.equalsClaim ⟨1, Cid.raw, locationHash⟩ ⟨1, Cid.raw, [1]⟩]
    else if md = [2] then .ok [.indexClaim ⟨1, Cid.raw, indexHash⟩ ⟨1, Cid.raw, [2]⟩]
    else if md = [3] then .ok [.locationCommitment none none ⟨1, Cid.raw, [3]⟩]
    else .ok []

/-- On the failing input, a serial run drains without looking up the index job, though it
handled no job with the index job's triple: the index job has the key of the location job
spawned from the equals record's context ID.  The claim of the location commitment that the
index job's `Find` would return is missing from the result. -/
theorem index_job_skipped_on_key_collision :
    let is : IndexingService := collisionService
    let q : Query := ⟨[locationHash], ⟨[]⟩⟩
    let start : Job := ⟨locationHash, none, none, .standard⟩
    let location : Job := ⟨collidingContextID, none, none, .location⟩
    let index : Job := ⟨indexHash, some locationHash, some ⟨[], [2], some ⟨[], []⟩⟩, .equalsOrLocation⟩
    let s := ((((WalkState.init q).handle is start).1.handle is location).1.handle is index).1
    (∃ finds, SerialRun (· = is) (.init q) finds s ∧ index.id.findKey q ∉ finds) ∧ s.Drained ∧
      index.id ≠ start.id ∧ index.id ≠ location.id ∧ index.key = location.key ∧
      .putClaim ⟨1, Cid.raw, [3]⟩ ⟨[]⟩ ∈ (is.jobHandler q index).ops ∧
      s.qs.qr.claims ⟨1, Cid.raw, [3]⟩ = none := by
  intro is q start location index s
  have first : start ∈ (WalkState.init q).pending := List.mem_singleton_self _
  have second : location ∈ ((WalkState.init q).handle is start).1.pending := by decide
  have third : index ∈
      (((WalkState.init q).handle is start).1.handle is location).1.pending := by decide
  have run : SerialRun (· = is) (.init q) _ s :=
    (((SerialRun.refl _ : SerialRun (· = is) _ [] _).step rfl rfl first).step rfl rfl
      second).step rfl rfl third
  exact ⟨⟨_, run, by decide⟩, ⟨by decide, rfl⟩, by decide, by decide, by decide, by decide,
    by decide⟩

end Indexing
