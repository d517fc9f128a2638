import IndexingService.SerialWalk
import Mathlib.Logic.Relation
import Mathlib.Logic.Function.Basic

/-!
# The parallel walker

With `WithConcurrency(n)` the walker is `parallelwalk.NewParallelWalk`, which is not among
the sources either.  It is modelled from the specification: up to `n` workers take jobs from
a shared queue; a worker makes its handler's visit check, then performs the handler's
operations one at a time, each `CmpSwap` atomic, while the steps of other workers interleave
with its own; spawned jobs join the queue; the walk ends when the queue is empty and every
worker idle, or at the first error.  A serial run is a parallel run in which one worker
handles each job to completion (`SerialRun.toParallel`).
-/

namespace Indexing

/-- Where a busy worker is in its handler: before the visit check, or performing the
operations that remain. -/
inductive Phase
  | checking
  | running (ops : List Op)
  deriving DecidableEq, Repr

/-- A busy worker: the job it handles and its phase. -/
structure Worker where
  job : Job
  phase : Phase
  deriving DecidableEq, Repr

/-- A parallel walk in progress: the queue, the worker slots, the shared state and the error
that ended the walk, if one did. -/
structure ParallelState where
  queue : List Job
  workers : Nat → Option Worker
  qs : QueryState
  err : Option Error

/-- Where `Query` starts a parallel walk. -/
def ParallelState.init (q : Query) : ParallelState :=
  ⟨initialJobs q, fun _ => none, initialState q, none⟩

/-- Worker `i` makes the visit check of job `j`: on success it goes on to the handler's
operations, otherwise it is idle again. -/
def ParallelState.check (is : IndexingService) (s : ParallelState) (i : Nat) (j : Job) :
    ParallelState :=
  let h := is.jobHandler s.qs.q j
  match cmpSwap (notVisited h.key) (markVisited h.key) s.qs with
  | (true, qs) => { s with qs, workers := Function.update s.workers i (some ⟨j, .running h.ops⟩) }
  | (false, qs) => { s with qs, workers := Function.update s.workers i none }

/-- Worker `i`, handling `j`, performs `op`, and `ops` remain. -/
def ParallelState.perform (s : ParallelState) (i : Nat) (j : Job) (op : Op) (ops : List Op) :
    ParallelState where
  queue := s.queue ++ op.spawned
  workers := Function.update s.workers i (some ⟨j, .running ops⟩)
  qs := op.update s.qs
  err := match op with
    | .fail e => some e
    | _ => none

/-- Modelled from the spec: one atomic step of `parallelwalk`'s walker, which is missing, with
`concurrency` worker slots. -/
inductive ParallelStep (is : IndexingService) (concurrency : Nat) :
    ParallelState → ParallelState → Prop
  | dequeue {s : ParallelState} {j : Job} {i : Nat} : s.err = none → j ∈ s.queue →
      i < concurrency → s.workers i = none →
      ParallelStep is concurrency s
        { s with queue := s.queue.erase j,
                 workers := Function.update s.workers i (some ⟨j, .checking⟩) }
  | check {s : ParallelState} {i : Nat} {j : Job} : s.err = none →
      s.workers i = some ⟨j, .checking⟩ → ParallelStep is concurrency s (s.check is i j)
  | perform {s : ParallelState} {i : Nat} {j : Job} {op : Op} {ops : List Op} : s.err = none →
      s.workers i = some ⟨j, .running (op :: ops)⟩ →
      ParallelStep is concurrency s (s.perform i j op ops)
  | finish {s : ParallelState} {i : Nat} {j : Job} : s.err = none →
      s.workers i = some ⟨j, .running []⟩ →
      ParallelStep is concurrency s { s with workers := Function.update s.workers i none }

/-- The states a parallel walk of `q` reaches. -/
def ParallelRun (is : IndexingService) (concurrency : Nat) (q : Query) (s : ParallelState) :
    Prop :=
  Relation.ReflTransGen (ParallelStep is concurrency) (.init q) s

/-- A walk that has ended normally: empty queue, idle workers, no error. -/
def ParallelState.Drained (s : ParallelState) : Prop :=
  s.queue = [] ∧ (∀ i, s.workers i = none) ∧ s.err = none

theorem ParallelState.check_of_mem {is : IndexingService} {s : ParallelState} {i : Nat}
    {j : Job} (visited : j.key ∈ s.qs.visits) :
    s.check is i j = { s with workers := Function.update s.workers i none } := by
  simp [ParallelState.check, IndexingService.jobHandler, cmpSwap, notVisited, visited]

theorem ParallelState.check_of_not_mem {is : IndexingService} {s : ParallelState} {i : Nat}
    {j : Job} (fresh : j.key ∉ s.qs.visits) :
    s.check is i j =
      { s with
        qs := markVisited j.key s.qs
        workers := Function.update s.workers i (some ⟨j, .running (is.jobHandler s.qs.q j).ops⟩) } := by
  simp [ParallelState.check, IndexingService.jobHandler, cmpSwap, notVisited, fresh]

/-! ## Serial runs are parallel runs -/

/-- A serial walk state as a parallel one with every worker idle. -/
def WalkState.toParallel (s : WalkState) : ParallelState :=
  ⟨s.pending, fun _ => none, s.qs, s.err⟩

section Simulation

variable {is : IndexingService} {concurrency : Nat}

/-- Worker `0` performs the operations of a run that does not fail, one step each. -/
theorem performs_runOps (j : Job) (queue : List Job) (ops : List Op) (qs : QueryState)
    (acc : List Job) (ok : (runOps ops qs acc).2.2 = none) :
    Relation.ReflTransGen (ParallelStep is concurrency)
      ⟨queue ++ acc, Function.update (fun _ => none) 0 (some ⟨j, .running ops⟩), qs, none⟩
      ⟨queue ++ (runOps ops qs acc).2.1,
        Function.update (fun _ => none) 0 (some ⟨j, .running []⟩), (runOps ops qs acc).1,
        none⟩ := by
  induction ops generalizing qs acc with
  | nil => exact .refl
  | cons op ops ih =>
    have step := @ParallelStep.perform is concurrency
      ⟨queue ++ acc, Function.update (fun _ => none) 0 (some ⟨j, .running (op :: ops)⟩), qs,
        none⟩ 0 j op ops rfl (by simp)
    cases op with
    | fail e => cases ok
    | _ =>
      refine .head step ?_
      simpa [ParallelState.perform, Op.spawned, Function.update_idem, runOps] using ih _ _ ok

/-- Worker `0` performs the operations of a run that fails, one step each, up to the `fail`,
which ends the walk with the run's error. -/
theorem performs_runOps_of_err (j : Job) (queue : List Job) (ops : List Op) (qs : QueryState)
    (acc : List Job) {e : Error} (failed : (runOps ops qs acc).2.2 = some e) :
    ∃ rest, Relation.ReflTransGen (ParallelStep is concurrency)
      ⟨queue ++ acc, Function.update (fun _ => none) 0 (some ⟨j, .running ops⟩), qs, none⟩
      ⟨queue ++ (runOps ops qs acc).2.1,
        Function.update (fun _ => none) 0 (some ⟨j, .running rest⟩), (runOps ops qs acc).1,
        some e⟩ := by
  induction ops generalizing qs acc with
  | nil => cases failed
  | cons op ops ih =>
    have step := @ParallelStep.perform is concurrency
      ⟨queue ++ acc, Function.update (fun _ => none) 0 (some ⟨j, .running (op :: ops)⟩), qs,
        none⟩ 0 j op ops rfl (by simp)
    cases op with
    | fail e' =>
      cases failed
      exact ⟨ops, .single (by simpa [ParallelState.perform, Op.spawned, runOps] using step)⟩
    | _ =>
      obtain ⟨rest, performed⟩ := ih _ _ failed
      refine ⟨rest, .head step ?_⟩
      simpa [ParallelState.perform, Op.spawned, Function.update_idem, runOps] using performed

/-- Worker `0` of an idle walk takes a queued job. -/
theorem WalkState.toParallel_dequeue {s : WalkState} {j : Job} (busy : 0 < concurrency)
    (running : s.err = none) (pending : j ∈ s.pending) :
    ParallelStep is concurrency s.toParallel
      ⟨s.pending.erase j, Function.update (fun _ => none) 0 (some ⟨j, .checking⟩), s.qs, none⟩ := by
  have step := @ParallelStep.dequeue is concurrency s.toParallel j 0 running pending busy rfl
  simpa [WalkState.toParallel, running] using step

/-- One serial step that does not fail is a run of the parallel walker with one worker:
dequeue, visit check, one step per operation, and the worker's return. -/
theorem handle_toParallel {s : WalkState} {j : Job} (busy : 0 < concurrency)
    (running : s.err = none) (pending : j ∈ s.pending) (ok : (s.handle is j).1.err = none) :
    Relation.ReflTransGen (ParallelStep is concurrency) s.toParallel
      (s.handle is j).1.toParallel := by
  let dequeued : ParallelState :=
    ⟨s.pending.erase j, Function.update (fun _ => none) 0 (some ⟨j, .checking⟩), s.qs, none⟩
  have dequeue : ParallelStep is concurrency s.toParallel dequeued :=
    WalkState.toParallel_dequeue busy running pending
  have check := @ParallelStep.check is concurrency dequeued 0 j rfl (by simp [dequeued])
  have idle : Function.update (fun _ => none) 0 (none : Option Worker) = fun _ => none := by
    simp
  by_cases visited : j.key ∈ s.qs.visits
  · have visitedKey : (is.jobHandler s.qs.q j).key ∈ s.qs.visits := visited
    rw [ParallelState.check_of_mem visited] at check
    refine .head dequeue (.single ?_)
    simpa [dequeued, WalkState.handle, WalkState.toParallel, Handler.run_of_mem visitedKey,
      idle, running] using check
  · have fresh : (is.jobHandler s.qs.q j).key ∉ s.qs.visits := visited
    have noError := ok
    simp only [WalkState.handle, Handler.run_of_not_mem fresh,
      IndexingService.jobHandler_key] at noError
    rw [ParallelState.check_of_not_mem visited] at check
    have performed := @performs_runOps is concurrency j (s.pending.erase j) _ _ [] noError
    simp only [List.append_nil] at performed
    have finish := @ParallelStep.finish is concurrency
      ⟨s.pending.erase j ++ (runOps (is.jobHandler s.qs.q j).ops (markVisited j.key s.qs) []).2.1,
        Function.update (fun _ => none) 0 (some ⟨j, .running []⟩),
        (runOps (is.jobHandler s.qs.q j).ops (markVisited j.key s.qs) []).1, none⟩ 0 j rfl
      (by simp)
    refine .head dequeue (.head check ?_)
    convert performed.trans (.single finish) using 1
    · simp [dequeued, Function.update_idem]
    · simp [WalkState.handle, WalkState.toParallel, Handler.run_of_not_mem fresh, idle, noError]

/-- One serial step that fails is a run of the parallel walker with one worker, up to the
`fail`: the queue, the shared state and the error are those of the serial step. -/
theorem handle_toParallel_of_err {s : WalkState} {j : Job} {e : Error} (busy : 0 < concurrency)
    (running : s.err = none) (pending : j ∈ s.pending) (failed : (s.handle is j).1.err = some e) :
    ∃ p, Relation.ReflTransGen (ParallelStep is concurrency) s.toParallel p ∧
      p.queue = (s.handle is j).1.pending ∧ p.qs = (s.handle is j).1.qs ∧ p.err = some e := by
  let dequeued : ParallelState :=
    ⟨s.pending.erase j, Function.update (fun _ => none) 0 (some ⟨j, .checking⟩), s.qs, none⟩
  have check := @ParallelStep.check is concurrency dequeued 0 j rfl (by simp [dequeued])
  have fresh : (is.jobHandler s.qs.q j).key ∉ s.qs.visits := fun visited => by
    simp [WalkState.handle, Handler.run_of_mem visited] at failed
  simp only [WalkState.handle, Handler.run_of_not_mem fresh,
    IndexingService.jobHandler_key] at failed ⊢
  rw [ParallelState.check_of_not_mem fresh] at check
  simp only [dequeued, Function.update_idem] at check
  obtain ⟨rest, performed⟩ :=
    @performs_runOps_of_err is concurrency j (s.pending.erase j) _ _ [] _ failed
  rw [List.append_nil] at performed
  exact ⟨_, .head (WalkState.toParallel_dequeue busy running pending) (.head check performed),
    rfl, rfl, rfl⟩

/-- Every serial run that has not failed is a parallel run with at least one worker slot. -/
theorem SerialRun.toParallel {q : Query} {finds : List QueryKey} {s : WalkState}
    (run : SerialRun (· = is) (.init q) finds s) (busy : 0 < concurrency)
    (ok : s.err = none) : ParallelRun is concurrency q s.toParallel := by
  induction run with
  | refl => exact .refl
  | step run allowed running pending ih =>
    subst allowed
    exact (ih running).trans (handle_toParallel busy running pending ok)

end Simulation

/-! ## The shape of jobs in parallel runs -/

/-- What every state of a parallel run of `q` satisfies, whatever the collaborators: the
query is unchanged, every queued or busy job has the shape of `Job.Valid`, and a running
worker has only operations of its job's handler left. -/
structure ShapeInv (is : IndexingService) (q : Query) (s : ParallelState) : Prop where
  query : s.qs.q = q
  queue : ∀ j ∈ s.queue, j.Valid
  workers : ∀ i w, s.workers i = some w → w.job.Valid
  remaining : ∀ i j ops, s.workers i = some ⟨j, .running ops⟩ →
    ∀ op ∈ ops, op ∈ (is.jobHandler q j).ops

theorem ShapeInv.init {is : IndexingService} {q : Query} : ShapeInv is q (.init q) :=
  ⟨rfl, fun _ => initialJobs_valid, (fun _ _ idle => nomatch idle),
    fun _ _ _ idle => nomatch idle⟩

/-- What every parallel step keeps holds along every parallel run. -/
theorem ParallelRun.invariant {is : IndexingService} {concurrency : Nat} {q : Query}
    {P : ParallelState → Prop} {s : ParallelState} (run : ParallelRun is concurrency q s)
    (start : P (.init q))
    (step : ∀ s s', P s → ParallelRun is concurrency q s → ParallelStep is concurrency s s' → P s') :
    P s := by
  induction run with
  | refl => exact start
  | tail run last ih => exact step _ _ ih run last

theorem update_eq_some {workers : Nat → Option Worker} {i k : Nat} {x : Option Worker}
    {w : Worker} (slot : Function.update workers i x k = some w) :
    (k = i ∧ x = some w) ∨ (k ≠ i ∧ workers k = some w) := by
  rw [Function.update_apply] at slot
  split at slot
  · exact .inl ⟨‹_›, slot⟩
  · exact .inr ⟨‹_›, slot⟩

/-- A step that changes only slot `i` keeps `ShapeInv` when the query is kept, the queue
holds valid jobs and the new occupant has the shape `ShapeInv` asks of workers. -/
theorem ShapeInv.update {is : IndexingService} {q : Query} {s : ParallelState}
    (shape : ShapeInv is q s) {i : Nat} {x : Option Worker} {queue : List Job} {qs : QueryState}
    {err : Option Error} (query : qs.q = q) (queued : ∀ j ∈ queue, j.Valid)
    (valid : ∀ w, x = some w → w.job.Valid)
    (remaining : ∀ j ops, x = some ⟨j, .running ops⟩ → ∀ op ∈ ops, op ∈ (is.jobHandler q j).ops) :
    ShapeInv is q ⟨queue, Function.update s.workers i x, qs, err⟩ := by
  refine ⟨query, queued, fun k w slot => ?_, fun k j ops slot => ?_⟩
  · rcases update_eq_some slot with ⟨_, set⟩ | ⟨_, slot⟩
    · exact valid w set
    · exact shape.workers k w slot
  · rcases update_eq_some slot with ⟨_, set⟩ | ⟨_, slot⟩
    · exact remaining j ops set
    · exact shape.remaining k j ops slot

theorem ShapeInv.step {is : IndexingService} {concurrency : Nat} {q : Query}
    {s s' : ParallelState} (shape : ShapeInv is q s) (step : ParallelStep is concurrency s s') :
    ShapeInv is q s' := by
  cases step with
  | @dequeue j i _ queued _ _ =>
    exact shape.update shape.query (fun j' member => shape.queue j' (List.mem_of_mem_erase member))
      (by rintro _ ⟨⟩; exact shape.queue j queued) (by rintro _ _ ⟨⟩)
  | @check i j _ busy =>
    by_cases visited : j.key ∈ s.qs.visits
    · rw [ParallelState.check_of_mem visited]
      exact shape.update shape.query shape.queue (by rintro _ ⟨⟩) (by rintro _ _ ⟨⟩)
    · rw [ParallelState.check_of_not_mem visited]
      exact shape.update shape.query shape.queue (by rintro _ ⟨⟩; exact (shape.workers i _ busy : j.Valid))
        (by rintro _ _ ⟨⟩; rw [shape.query]; exact fun _ member => member)
  | @perform i j op ops _ busy =>
    have performed : op ∈ (is.jobHandler q j).ops := shape.remaining i j _ busy op (by simp)
    refine shape.update (by simp [shape.query]) ?_ (by rintro _ ⟨⟩; exact (shape.workers i _ busy : j.Valid))
      (by rintro _ _ ⟨⟩; exact fun op' member => shape.remaining i j _ busy op' (by simp [member]))
    intro j' member
    simp only [List.mem_append, Op.mem_spawned] at member
    rcases member with queued | rfl
    · exact shape.queue j' queued
    · exact valid_of_spawn_mem performed
  | finish =>
    exact shape.update shape.query shape.queue (by rintro _ ⟨⟩) (by rintro _ _ ⟨⟩)

theorem ParallelRun.shape {is : IndexingService} {concurrency : Nat} {q : Query}
    {s : ParallelState} (run : ParallelRun is concurrency q s) : ShapeInv is q s :=
  run.invariant .init fun _ _ shape _ step => shape.step step

/-- A job of the shape of `Job.Valid` never makes its handler dereference a missing
`indexProviderRecord`. -/
theorem Job.Valid.no_record_fault {is : IndexingService} {q : Query} {j : Job}
    (valid : j.Valid) : .fail (.nilDereference .indexProviderRecord) ∉ (is.jobHandler q j).ops := by
  intro member
  obtain ⟨indexed, missing⟩ := record_missing_of_mem_jobHandler_ops member
  have carried := valid.record
  simp_all

/-- In every run of `Query`, serial with any collaborators or parallel, every job that
reaches the handler carries `indexForMh` exactly when it carries `indexProviderRecord`, so
the handler never dereferences a missing `indexProviderRecord`. -/
theorem indexForMh_isSome_iff_indexProviderRecord (q : Query) :
    (∀ backend finds s, SerialRun backend (.init q) finds s → ∀ j ∈ s.pending,
      (j.indexForMh.isSome ↔ j.indexProviderRecord.isSome) ∧
        ∀ is : IndexingService,
          .fail (.nilDereference .indexProviderRecord) ∉ (is.jobHandler s.qs.q j).ops) ∧
    (∀ is concurrency s, ParallelRun is concurrency q s → ∀ i w, s.workers i = some w →
      (w.job.indexForMh.isSome ↔ w.job.indexProviderRecord.isSome) ∧
        ∀ ops, w.phase = .running ops → .fail (.nilDereference .indexProviderRecord) ∉ ops) := by
  refine ⟨fun backend finds s run j pending => ?_, fun is concurrency s run i w busy => ?_⟩
  · have valid := run.pending_valid j pending
    exact ⟨by rw [valid.record], fun _ => valid.no_record_fault⟩
  · have shape := run.shape
    have valid := shape.workers i w busy
    refine ⟨by rw [valid.record], fun ops running member => ?_⟩
    obtain ⟨j, phase⟩ := w
    subst running
    exact valid.no_record_fault (shape.remaining i j ops busy _ member)

namespace Sample

/-- The standard job of `A` that the sample query starts from. -/
def standardJob : Job :=
  ⟨hashA, none, none, .standard⟩

/-- The location job that the equals claim of `A` spawns. -/
def locationJob : Job :=
  ⟨hashB, none, none, .location⟩

/-- The job that the index claim of `A` spawns, for the index `I` of `A`. -/
def indexJob : Job :=
  ⟨hashI, some hashA, some ⟨hashA, [1], some peer⟩, .equalsOrLocation⟩

/-- The serial walk after the standard job of `A`. -/
def firstHandled : WalkState :=
  ((WalkState.init query).handle service standardJob).1

/-- The sample walk with two workers once the standard job of `A` has run: worker `0` holds
the location job of `B` and worker `1` the index job of `I`, both past their visit checks. -/
def twoWorkers : ParallelState :=
  let first := firstHandled.toParallel
  let dequeued : ParallelState :=
    ⟨(first.queue.erase locationJob).erase indexJob,
      Function.update (Function.update first.workers 0 (some ⟨locationJob, .checking⟩)) 1
        (some ⟨indexJob, .checking⟩), first.qs, first.err⟩
  (dequeued.check service 0 locationJob).check service 1 indexJob

theorem firstHandled_reached : ∃ finds, SerialRun (· = service) (.init query) finds firstHandled :=
  ⟨_, (SerialRun.refl _).step rfl rfl (by decide)⟩

theorem twoWorkers_reached : ParallelRun service 2 query twoWorkers := by
  obtain ⟨_, serial⟩ := firstHandled_reached
  exact ((((serial.toParallel (by decide) rfl).tail
    (.dequeue (j := locationJob) (i := 0) rfl (by decide) (by decide) rfl)).tail
    (.dequeue (j := indexJob) (i := 1) rfl (by decide) (by decide) rfl)).tail
    (.check (i := 0) (j := locationJob) rfl rfl)).tail (.check (i := 1) (j := indexJob) rfl rfl)

end Sample

/-- The index job of `I`: pending after the standard job of `A`, and past its visit check on
worker `1` of the sample walk with two workers. -/
theorem index_job_indexForMh_isSome_iff :
    Sample.indexJob ∈ Sample.firstHandled.pending ∧
      Sample.twoWorkers.workers 1 = some ⟨Sample.indexJob,
        .running (Sample.service.jobHandler Sample.query Sample.indexJob).ops⟩ ∧
      (Sample.indexJob.indexForMh.isSome ↔ Sample.indexJob.indexProviderRecord.isSome) ∧
      .fail (.nilDereference .indexProviderRecord) ∉
        (Sample.service.jobHandler Sample.query Sample.indexJob).ops := by
  obtain ⟨finds, serial⟩ := Sample.firstHandled_reached
  have pending : Sample.indexJob ∈ Sample.firstHandled.pending := by decide
  have busy : Sample.twoWorkers.workers 1 = some ⟨Sample.indexJob,
      .running (Sample.service.jobHandler Sample.query Sample.indexJob).ops⟩ := rfl
  obtain ⟨serialPart, parallelPart⟩ := indexForMh_isSome_iff_indexProviderRecord Sample.query
  exact ⟨pending, busy, (serialPart _ finds _ serial _ pending).1,
    (parallelPart _ 2 _ Sample.twoWorkers_reached 1 _ busy).2 _ rfl⟩

end Indexing
