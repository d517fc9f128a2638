import IndexingService.Handler
import IndexingService.JobKey

/-!
# The serial walker

`Query` hands its initial jobs to a job walker; with no concurrency option it is
`singlewalk.SingleWalker`, which is not among the sources.  It is modelled from the
specification: pending jobs are handled one at a time, each to completion, and what they
spawn is enqueued; the walk ends when nothing is pending or a handler fails.  The results
about serial runs hold whichever pending job is taken next, so a step may take any of them.

A run may also draw its collaborators afresh at every step from a set `backend`, which
models collaborators whose answers change over time; the stable case is `(· = is)`.
-/

namespace Indexing

/-- A walk in progress: the jobs waiting to be handled, the shared state, and the error that
ended the walk, if one did. -/
structure WalkState where
  pending : List Job
  qs : QueryState
  err : Option Error

/-- Where `Query` starts the walk. -/
def WalkState.init (q : Query) : WalkState :=
  ⟨initialJobs q, initialState q, none⟩

/-- Handle pending job `j` to completion, and report the `Find` query the handler made. -/
def WalkState.handle (is : IndexingService) (s : WalkState) (j : Job) :
    WalkState × Option QueryKey :=
  let outcome := (is.jobHandler s.qs.q j).run s.qs
  (⟨s.pending.erase j ++ outcome.spawned, outcome.qs, outcome.err⟩, outcome.find)

/-- Modelled from the spec: the runs of `singlewalk.SingleWalker`, which is missing, with
collaborators drawn from `backend` at each step, and the `Find` queries they make. -/
inductive SerialRun (backend : IndexingService → Prop) :
    WalkState → List QueryKey → WalkState → Prop
  | refl (s : WalkState) : SerialRun backend s [] s
  | step {s t : WalkState} {finds : List QueryKey} {is : IndexingService} {j : Job} :
      SerialRun backend s finds t → backend is → t.err = none → j ∈ t.pending →
      SerialRun backend s (finds ++ (t.handle is j).2.toList) (t.handle is j).1

/-- A walk that has ended normally: nothing pending and no error. -/
def WalkState.Drained (s : WalkState) : Prop :=
  s.pending = [] ∧ s.err = none

@[simp] theorem WalkState.handle_q (is : IndexingService) (s : WalkState) (j : Job) :
    (s.handle is j).1.qs.q = s.qs.q := by
  simp [WalkState.handle]

@[simp] theorem WalkState.handle_visits (is : IndexingService) (s : WalkState) (j : Job) :
    (s.handle is j).1.qs.visits = insert j.key s.qs.visits := by
  simp [WalkState.handle, IndexingService.jobHandler]

/-- The pending jobs after a step: the others, and those the handler spawned, which it does
only when its visit check passes. -/
theorem WalkState.mem_handle_pending {is : IndexingService} {s : WalkState} {j j' : Job}
    (member : j' ∈ (s.handle is j).1.pending) :
    j' ∈ s.pending ∨ (j.key ∉ s.qs.visits ∧ .spawn j' ∈ (is.jobHandler s.qs.q j).ops) := by
  simp only [WalkState.handle, List.mem_append] at member
  rcases member with kept | spawned
  · exact .inl (List.mem_of_mem_erase kept)
  · by_cases visited : (is.jobHandler s.qs.q j).key ∈ s.qs.visits
    · simp [Handler.run_of_mem visited] at spawned
    · rw [Handler.run_of_not_mem visited] at spawned
      rcases mem_runOps_spawned spawned with none | made
      · cases none
      · exact .inr ⟨visited, made⟩

/-- A step makes a `Find` query exactly when the job's key was not yet visited, and it is
the query of the job's handler. -/
theorem WalkState.handle_find (is : IndexingService) (s : WalkState) (j : Job) :
    (s.handle is j).2 = if j.key ∈ s.qs.visits then none else some (is.jobHandler s.qs.q j).find := by
  by_cases visited : j.key ∈ s.qs.visits
  · simp [WalkState.handle, IndexingService.jobHandler, Handler.run_of_mem, visited]
  · simp [WalkState.handle, IndexingService.jobHandler, Handler.run_of_not_mem, visited]

/-- A step whose visit check fails only drops the job. -/
theorem WalkState.handle_of_mem {is : IndexingService} {s : WalkState} {j : Job}
    (visited : j.key ∈ s.qs.visits) :
    s.handle is j = (⟨s.pending.erase j, s.qs, none⟩, none) := by
  simp [WalkState.handle, IndexingService.jobHandler, Handler.run_of_mem, visited]

/-- A step ends in an error only through a `fail` operation of the job's handler. -/
theorem WalkState.fail_mem_of_handle_err {is : IndexingService} {s : WalkState} {j : Job}
    {e : Error} (failed : (s.handle is j).1.err = some e) :
    .fail e ∈ (is.jobHandler s.qs.q j).ops := by
  by_cases visited : (is.jobHandler s.qs.q j).key ∈ s.qs.visits
  · simp [WalkState.handle, Handler.run_of_mem visited] at failed
  · simp only [WalkState.handle, Handler.run_of_not_mem visited] at failed
    exact fail_mem_of_runOps_err failed

/-- What every serial step under `backend` keeps holds along every serial run. -/
theorem SerialRun.invariant {backend : IndexingService → Prop} {P : WalkState → Prop}
    {s t : WalkState} {finds : List QueryKey} (run : SerialRun backend s finds t) (start : P s)
    (step : ∀ is u j, backend is → u.err = none → j ∈ u.pending → P u → P (u.handle is j).1) :
    P t := by
  induction run with
  | refl => exact start
  | step _ allowed running pending ih => exact step _ _ _ allowed running pending ih

theorem SerialRun.trans {backend : IndexingService → Prop} {s t u : WalkState}
    {finds finds' : List QueryKey} (first : SerialRun backend s finds t)
    (second : SerialRun backend t finds' u) : SerialRun backend s (finds ++ finds') u := by
  induction second with
  | refl => simpa using first
  | step _ allowed running pending ih => simpa using ih.step allowed running pending

@[simp] theorem SerialRun.q {backend : IndexingService → Prop} {s t : WalkState}
    {finds : List QueryKey} (run : SerialRun backend s finds t) : t.qs.q = s.qs.q :=
  run.invariant (P := fun u => u.qs.q = s.qs.q) rfl fun _ _ _ _ _ _ same => by simp [same]

/-- A serial walk that always takes the first pending job, for at most `fuel` jobs, with the
`Find` queries it makes. -/
def WalkState.walk (is : IndexingService) : Nat → WalkState → WalkState × List QueryKey
  | 0, s => (s, [])
  | fuel + 1, s =>
    match s.err, s.pending with
    | none, j :: _ =>
      let step := s.handle is j
      let rest := step.1.walk is fuel
      (rest.1, step.2.toList ++ rest.2)
    | _, _ => (s, [])

/-- Taking the first pending job is one of the ways a serial run may go on. -/
theorem SerialRun.walk {backend : IndexingService → Prop} {is : IndexingService}
    (allowed : backend is) :
    ∀ (fuel : Nat) {s t : WalkState} {finds : List QueryKey}, SerialRun backend s finds t →
      SerialRun backend s (finds ++ (t.walk is fuel).2) (t.walk is fuel).1
  | 0, _, _, _, run => by simpa [WalkState.walk] using run
  | fuel + 1, _, t, _, run => by
    unfold WalkState.walk
    split
    · rename_i j _ running pending
      simpa using SerialRun.walk allowed fuel
        (run.step allowed running (pending ▸ List.mem_cons_self j _))
    · simpa using run

/-! ## The shape of jobs -/

/-- The shape of every job a run creates: it carries the record of an index claim exactly
when it carries the multihash that index is for, and only `equals_or_location` jobs carry
them. -/
structure Job.Valid (j : Job) : Prop where
  record : j.indexForMh.isSome = j.indexProviderRecord.isSome
  indexed : j.indexForMh.isSome → j.jobType = .equalsOrLocation

theorem SpawnRule.valid {is : IndexingService} {j j' : Job} {result : ProviderResult}
    {protocol : Protocol} (rule : SpawnRule is j result protocol j') : j'.Valid := by
  cases protocol with
  | equalsClaim => subst rule; exact ⟨rfl, by simp⟩
  | indexClaim => subst rule; exact ⟨rfl, fun _ => rfl⟩
  | locationCommitment =>
    obtain ⟨_, _, _, _, _, _, _, _, _, rfl⟩ := rule
    exact ⟨rfl, by simp⟩
  | other => cases rule

/-- Every job a handler spawns has the shape of `Job.Valid`, whatever job it handles. -/
theorem valid_of_spawn_mem {is : IndexingService} {q : Query} {j j' : Job}
    (member : .spawn j' ∈ (is.jobHandler q j).ops) : j'.Valid := by
  obtain ⟨_, _, _, _, _, _, _, _, rule⟩ := spawn_mem_jobHandler_ops member
  exact rule.valid

theorem initialJobs_valid {q : Query} {j : Job} (member : j ∈ initialJobs q) : j.Valid := by
  simp only [initialJobs, List.mem_map] at member
  obtain ⟨_, _, rfl⟩ := member
  exact ⟨rfl, by simp⟩

/-- The jobs of every serial run, with collaborators of any kind, keep the shape of
`Job.Valid`. -/
theorem SerialRun.pending_valid {backend : IndexingService → Prop} {q : Query}
    {finds : List QueryKey} {s : WalkState} (run : SerialRun backend (.init q) finds s) :
    ∀ j ∈ s.pending, j.Valid :=
  run.invariant (P := fun u => ∀ j ∈ u.pending, j.Valid) (fun _ => initialJobs_valid)
    fun _ _ _ _ _ _ valid j member => by
      rcases WalkState.mem_handle_pending member with kept | ⟨_, spawned⟩
      · exact valid j kept
      · exact valid_of_spawn_mem spawned

/-! ## A sample backend

A claim graph with a link of every kind, on which the results are exercised.  Under the
identity multihashes of `A`, `B`, `I`, `S` and `T`: `A` has an equals claim for `B`, an index
claim for `I` and a location commitment; `B` has an equals claim naming itself, in a record
whose context ID is `A`; `I` has a location commitment of the blob whose index lists the shard
`S`, which holds `A`, and the shard `T`, which does not; `S` has a location commitment. -/

namespace Sample

def hashA : Multihash := [0, 1, 0x41]

def hashB : Multihash := [0, 1, 0x42]

def hashI : Multihash := [0, 1, 0x49]

def hashS : Multihash := [0, 1, 0x53]

def hashT : Multihash := [0, 1, 0x54]

/-- The peer that provides every record. -/
def peer : AddrInfo := ⟨[0, 1, 0x50], []⟩

/-- The records `Find` returns for each multihash, whatever the job type. -/
def records (k : QueryKey) : List ProviderResult :=
  if k.hash = hashA then [⟨hashA, [1], some peer⟩]
  else if k.hash = hashB then [⟨hashA, [2], some peer⟩]
  else if k.hash = hashI then [⟨[7], [3], some peer⟩]
  else if k.hash = hashS then [⟨[8], [4], some peer⟩]
  else []

theorem mem_records {k : QueryKey} {r : ProviderResult} (member : r ∈ records k) :
    r = ⟨hashA, [1], some peer⟩ ∨ r = ⟨hashA, [2], some peer⟩ ∨ r = ⟨[7], [3], some peer⟩ ∨
      r = ⟨[8], [4], some peer⟩ := by
  unfold records at member
  split_ifs at member <;> simp_all

/-- The protocols of each record's metadata. -/
def protocols (metadata : Bytes) : List Protocol :=
  if metadata = [1] then
    [.equalsClaim ⟨1, Cid.raw, hashB⟩ ⟨1, Cid.raw, [11]⟩,
      .indexClaim ⟨1, Cid.raw, hashI⟩ ⟨1, Cid.raw, [12]⟩,
      .locationCommitment none none ⟨1, Cid.raw, [13]⟩]
  else if metadata = [2] then
    [.equalsClaim ⟨1, Cid.raw, hashB⟩ ⟨1, Cid.raw, [21]⟩,
      .locationCommitment none none ⟨1, Cid.raw, [22]⟩]
  else if metadata = [3] then [.locationCommitment none none ⟨1, Cid.raw, [31]⟩]
  else if metadata = [4] then [.locationCommitment none none ⟨1, Cid.raw, [41]⟩]
  else []

/-- The index of the blob with context ID `[7]`; every other blob's index is empty. -/
def index (contextID : Bytes) : ShardedDagIndexView :=
  if contextID = [7] then ⟨[(hashS, [hashA]), (hashT, [hashB])]⟩ else ⟨[]⟩

/-- Each claim is the multihash of its CID. -/
def claim (c : Cid) : Delegation :=
  ⟨c.hash⟩

/-- The collaborators that answer from the sample graph and never fail. -/
def service : IndexingService where
  blobIndexLookup contextID _ _ _ := .ok (index contextID)
  claimLookup c _ := .ok (claim c)
  providerIndex k := .ok (records k)
  unmarshalMetadata metadata := .ok (protocols metadata)

/-- A query for `A`. -/
def query : Query :=
  ⟨[hashA], ⟨[]⟩⟩

/-- Where the sample query's first-pending walk ends: it handles seven jobs, the last two of
them already visited. -/
def finalWalk : WalkState :=
  ((WalkState.init query).walk service 7).1

theorem finalWalk_reached : ∃ finds, SerialRun (· = service) (.init query) finds finalWalk := by
  refine ⟨_, SerialRun.walk ?_ 7 (.refl _)⟩
  rfl

theorem finalWalk_drained : finalWalk.Drained :=
  ⟨by decide, by decide⟩

end Sample

end Indexing
