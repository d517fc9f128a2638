import IndexingService.ParallelTermination
import IndexingService.Safety

/-!
# The configured service

`NewIndexingService` builds the service with the serial walker and then applies its options
in order; `WithConcurrency(n)` replaces the walker with a parallel walker of `n` workers, so the
last such option decides.  `Query` runs the configured walker from the query's initial jobs
until it can go no further, and returns the result and the error of that walk.

Whichever options of positive concurrency it is built with, a service whose collaborators
serve a well-formed claim graph over finitely many multihashes answers every query, and every
answer is the reference result with no error: the options change how the claims are gathered,
not what `Query` returns.  Under any collaborators at all, every answer of the service on the
serial walker, failed or not, is an answer of the service with `WithConcurrency(n)` for every
`n ≥ 1`, since a one-worker parallel run can replay any serial run up to its last step.

A walk that stops with a nil pointer dereference has panicked: the program ends and `Query`
returns nothing, so such a walk gives no answer.
-/

namespace Indexing

/-- The job walkers the service runs: `singlewalk.SingleWalker`, and
`parallelwalk.NewParallelWalk(concurrency)`. -/
inductive JobWalker
  | single
  | parallel (concurrency : Nat)
  deriving DecidableEq, Repr

/-- `IndexingService` with its `jobWalker`. -/
structure Service where
  lookups : IndexingService
  jobWalker : JobWalker

/-- `Option`. -/
abbrev ServiceOption : Type :=
  Service → Service

/-- `WithConcurrency`.  A negative concurrency is outside the model. -/
def withConcurrency (concurrency : Nat) : ServiceOption :=
  fun is => { is with jobWalker := .parallel concurrency }

/-- `NewIndexingService`, given the collaborators and the metadata decoder the handler calls. -/
def newIndexingService (lookups : IndexingService) (options : List ServiceOption) : Service :=
  options.foldl (fun is option => option is) ⟨lookups, .single⟩

/-- The errors `Query` returns: those of the collaborators.  A nil pointer dereference is a
runtime panic, which ends the program instead. -/
def Error.Returned : Error → Prop
  | .backend _ => True
  | .nilDereference _ => False

instance : DecidablePred Error.Returned
  | .backend _ => isTrue trivial
  | .nilDereference _ => isFalse id

/-- `Query` on a configured service: the result and the error of a walk of its job walker from
the query's initial jobs that can go no further and has not panicked. -/
def Service.query (service : Service) (q : Query) (qr : QueryResult)
    (err : Option Error) : Prop :=
  match service.jobWalker with
  | .single => ∃ finds s, SerialRun (· = service.lookups) (.init q) finds s ∧
      (¬ ∃ t, SerialStep (· = service.lookups) s t) ∧ (∀ e ∈ s.err, e.Returned) ∧
      qr = s.qs.qr ∧ err = s.err
  | .parallel concurrency => ∃ s, ParallelRun service.lookups concurrency q s ∧
      (¬ ∃ t, ParallelStep service.lookups concurrency s t) ∧ (∀ e ∈ s.err, e.Returned) ∧
      qr = s.qs.qr ∧ err = s.err

/-- Options of `WithConcurrency` keep the collaborators, and with positive concurrencies they
leave the serial walker or a parallel one with at least one worker. -/
theorem foldl_withConcurrency {options : List ServiceOption}
    (configured : ∀ option ∈ options, ∃ concurrency, 0 < concurrency ∧
      option = withConcurrency concurrency) :
    ∀ service : Service, (∀ c, service.jobWalker = .parallel c → 0 < c) →
      (options.foldl (fun is option => option is) service).lookups = service.lookups ∧
        ∀ c, (options.foldl (fun is option => option is) service).jobWalker = .parallel c → 0 < c := by
  induction options with
  | nil => exact fun _ busy => ⟨rfl, busy⟩
  | cons option options ih =>
    intro service _
    obtain ⟨concurrency, positive, rfl⟩ := configured option (List.mem_cons_self _ _)
    refine ih (fun o member => configured o (List.mem_cons_of_mem _ member)) _ ?_
    rintro c ⟨⟩
    exact positive

/-- A serial state from which no step is possible and that has no error has drained. -/
theorem WalkState.drained_of_stuck {is : IndexingService} {s : WalkState} (running : s.err = none)
    (stuck : ¬ ∃ t, SerialStep (· = is) s t) : s.pending = [] := by
  cases pending : s.pending with
  | nil => rfl
  | cons j _ =>
    exact absurd ⟨_, is, j, rfl, running, by simp [pending], rfl⟩ stuck

/-- A parallel walk steps only while it has no error. -/
theorem ParallelStep.running {is : IndexingService} {concurrency : Nat} {s t : ParallelState}
    (step : ParallelStep is concurrency s t) : s.err = none := by
  cases step <;> assumption

/-- A serial state that has drained or failed can take no step. -/
theorem WalkState.stuck_of_final {backend : IndexingService → Prop} {s : WalkState}
    (final : s.pending = [] ∨ s.err.isSome) : ¬ ∃ t, SerialStep backend s t := by
  rintro ⟨_, _, _, _, running, pending, _⟩
  rcases final with emptied | failed
  · simp [emptied] at pending
  · simp [running] at failed

/-- A parallel state that has drained or failed can take no step. -/
theorem ParallelState.stuck_of_final {is : IndexingService} {concurrency : Nat}
    {s : ParallelState} (final : s.Drained ∨ s.err.isSome) :
    ¬ ∃ t, ParallelStep is concurrency s t := by
  rcases final with drained | failed
  · exact drained.stuck
  · rintro ⟨_, step⟩
    simp [step.running] at failed

/-- Every serial run that can go no further is matched by a parallel run with at least one
worker slot that can go no further either, with the same shared state and error. -/
theorem SerialRun.parallel_final {is : IndexingService} {concurrency : Nat} {q : Query}
    {finds : List QueryKey} {s : WalkState} (run : SerialRun (· = is) (.init q) finds s)
    (busy : 0 < concurrency) (stuck : ¬ ∃ t, SerialStep (· = is) s t) :
    ∃ p, ParallelRun is concurrency q p ∧ (¬ ∃ t, ParallelStep is concurrency p t) ∧
      p.qs = s.qs ∧ p.err = s.err := by
  cases failed : s.err with
  | none =>
    have drained : s.toParallel.Drained :=
      ⟨WalkState.drained_of_stuck failed stuck, fun _ => rfl, failed⟩
    exact ⟨_, run.toParallel busy failed, drained.stuck, rfl, failed⟩
  | some e =>
    cases run with
    | refl => cases failed
    | @step t _ _ j earlier allowed running pending =>
      subst allowed
      obtain ⟨p, steps, _, sameQs, sameErr⟩ := handle_toParallel_of_err busy running pending failed
      exact ⟨p, (earlier.toParallel busy running).trans steps,
        ParallelState.stuck_of_final (.inr (by simp [sameErr])), sameQs, sameErr⟩

/-- Collaborators whose records all carry a provider. -/
def Provided (is : IndexingService) : Prop :=
  ∀ k results, is.providerIndex k = .ok results → ∀ r ∈ results, r.provider.isSome

/-- Under collaborators whose records all carry a provider, a handler returns only the errors
of the collaborators. -/
theorem HandlerError.returned {is : IndexingService} {q : Query} {visits : Finset JobKey}
    {e : Error} (provided : Provided is) (error : HandlerError is q visits e) : e.Returned := by
  obtain ⟨_, _, _, ⟨_, rfl⟩ | ⟨_, results, found, r, returned, missing⟩⟩ := error
  · trivial
  · have present := provided _ results found r returned
    rw [missing] at present
    cases present

theorem Serves.provided {is : IndexingService} {g : ClaimGraph} (serves : Serves is g) :
    Provided is := fun k _ found => by
  rw [serves.find k] at found
  cases found
  exact serves.provider k

section Answers

variable {g : ClaimGraph} {q : Query} {M : Finset Multihash}

/-- A service with the serial walker or a parallel walker with at least one worker answers
every query whose hashes and collaborators mention only the multihashes of `M`, under any
collaborators whose records all carry a provider. -/
theorem Service.answers_exist {service : Service} (hashes : ∀ h ∈ q.hashes, h ∈ M)
    (mentions : MentionsWithin service.lookups M) (provided : Provided service.lookups)
    (busy : ∀ c, service.jobWalker = .parallel c → 0 < c) :
    ∃ qr err, service.query q qr err := by
  obtain ⟨is, walker⟩ := service
  cases walker with
  | single =>
    have bounded : ∀ finds s, SerialRun (· = is) (.init q) finds s → ∀ j ∈ s.pending,
        j.key ∈ keysWithin M := fun _ _ run j pending =>
      (run.pending_within hashes (by rintro _ rfl; exact mentions) j pending).key_mem
    obtain ⟨finds, s, run, final⟩ := (SerialRun.refl (.init q)).exists_final bounded rfl
    have returned : ∀ e ∈ s.err, e.Returned := fun _ failed => by
      obtain ⟨_, rfl, error⟩ := run.handlerError failed
      exact error.returned provided
    exact ⟨_, _, finds, s, run, WalkState.stuck_of_final final, returned, rfl, rfl⟩
  | parallel concurrency =>
    obtain ⟨s, run, final⟩ := ParallelRun.exists_final hashes mentions (busy concurrency rfl) .refl
    exact ⟨_, _, s, run, ParallelState.stuck_of_final final,
      fun _ failed => (ParallelRun.handlerError run failed).returned provided, rfl, rfl⟩

/-- The answers of a service with the serial walker or a parallel walker with at least one
worker, under collaborators that serve a well-formed claim graph over the multihashes of
`M`. -/
theorem Service.answers {service : Service} (serves : Serves service.lookups g)
    (wellFormed : WellFormedGraph g q) (hashes : ∀ h ∈ q.hashes, h ∈ M)
    (mentions : MentionsWithin service.lookups M)
    (busy : ∀ c, service.jobWalker = .parallel c → 0 < c) :
    (∃ qr err, service.query q qr err) ∧
      ∀ qr err, service.query q qr err → err = none ∧ IsClosureResult g q qr := by
  refine ⟨Service.answers_exist hashes mentions serves.provided busy, ?_⟩
  obtain ⟨is, walker⟩ := service
  cases walker with
  | single =>
    rintro qr err ⟨finds, s, run, stuck, -, rfl, rfl⟩
    have running := run.err_eq_none serves
    exact ⟨running, (run.result serves wellFormed (WalkState.drained_of_stuck running stuck)).2⟩
  | parallel concurrency =>
    rintro qr err ⟨s, run, stuck, -, rfl, rfl⟩
    have drained := run.drained_of_stuck serves wellFormed (busy concurrency rfl) stuck
    exact ⟨drained.2.2, ((run.closureInv serves wellFormed).result drained.1 drained.2.1).2⟩

end Answers

/-- Whatever options of `WithConcurrency` with positive concurrencies `NewIndexingService` is
given, under collaborators that serve a well-formed claim graph and mention only the
multihashes of a finite set `M` with the query's hashes, the service's `Query` answers, and
every answer is the reference result with no error.  Since the reference result is unique,
every configuration answers alike. -/
theorem new_indexing_service_answers_closure {lookups : IndexingService} {g : ClaimGraph}
    {q : Query} {M : Finset Multihash} {options : List ServiceOption} (serves : Serves lookups g)
    (wellFormed : WellFormedGraph g q) (hashes : ∀ h ∈ q.hashes, h ∈ M)
    (mentions : MentionsWithin lookups M)
    (configured : ∀ option ∈ options, ∃ concurrency, 0 < concurrency ∧
      option = withConcurrency concurrency) :
    (∃ qr err, (newIndexingService lookups options).query q qr err) ∧
      ∀ qr err, (newIndexingService lookups options).query q qr err →
        err = none ∧ IsClosureResult g q qr := by
  obtain ⟨same, busy⟩ := foldl_withConcurrency configured ⟨lookups, .single⟩ (by rintro _ ⟨⟩)
  have served : Serves (newIndexingService lookups options).lookups g := by
    rw [newIndexingService, same]
    exact serves
  exact Service.answers served wellFormed hashes (by rw [newIndexingService, same]; exact mentions) busy

/-- The sample service built with two workers. -/
theorem two_worker_service_answers_closure :
    let options : List ServiceOption := [withConcurrency 2]
    Serves Sample.service Sample.graph ∧ WellFormedGraph Sample.graph Sample.query ∧
      (∀ h ∈ Sample.query.hashes, h ∈ Sample.mentioned) ∧
      MentionsWithin Sample.service Sample.mentioned ∧
      (∀ option ∈ options, ∃ concurrency, 0 < concurrency ∧ option = withConcurrency concurrency) ∧
      (∃ qr err, (newIndexingService Sample.service options).query Sample.query qr err) ∧
      ∀ qr err, (newIndexingService Sample.service options).query Sample.query qr err →
        err = none ∧ IsClosureResult Sample.graph Sample.query qr := by
  intro options
  have serves := Sample.service_serves
  have wellFormed := Sample.graph_wellFormed
  have hashes : ∀ h ∈ Sample.query.hashes, h ∈ Sample.mentioned := by decide
  have mentions := Sample.service_mentionsWithin
  have configured : ∀ option ∈ options, ∃ concurrency, 0 < concurrency ∧
      option = withConcurrency concurrency :=
    fun _ listed => ⟨2, by decide, List.mem_singleton.mp listed⟩
  exact ⟨serves, wellFormed, hashes, mentions, configured,
    new_indexing_service_answers_closure serves wellFormed hashes mentions configured⟩

/-- Under any collaborators, every answer that the service `NewIndexingService` builds with no
options, on the serial walker, can give to a query, failed or not, is one that the service
built with `WithConcurrency(n)` can give too, for every `n ≥ 1`: the parallel walker
simulates the serial one. -/
theorem with_concurrency_keeps_serial_answers {lookups : IndexingService} {q : Query}
    {qr : QueryResult} {err : Option Error} {concurrency : Nat} (busy : 0 < concurrency)
    (answered : (newIndexingService lookups []).query q qr err) :
    (newIndexingService lookups [withConcurrency concurrency]).query q qr err := by
  obtain ⟨_, s, run, stuck, returned, rfl, rfl⟩ := answered
  obtain ⟨p, reached, stuck', sameQs, sameErr⟩ := run.parallel_final busy stuck
  exact ⟨p, reached, stuck', sameErr ▸ returned, by rw [sameQs], sameErr.symm⟩

/-- The sample collaborators, but for the lookup of the claim of `B`'s equals record, which
fails. -/
def Sample.failingService : IndexingService :=
  { Sample.service with
    claimLookup := fun c _ =>
      if c.hash = [21] then .error "claim not found" else .ok (Sample.claim c) }

/-- The sample query on the serial service whose lookup of the claim of `B` fails: the
first-pending walk stops with the lookup's error after two jobs, and two workers give the
same answer. -/
theorem failing_claim_two_workers_keep_serial_answer :
    let s := ((WalkState.init Sample.query).walk Sample.failingService 7).1
    s.err = some (.backend "claim not found") ∧ 0 < 2 ∧
      (newIndexingService Sample.failingService []).query Sample.query s.qs.qr s.err ∧
      (newIndexingService Sample.failingService [withConcurrency 2]).query Sample.query
        s.qs.qr s.err := by
  intro s
  have failed : s.err = some (.backend "claim not found") := by decide
  obtain ⟨finds, serial⟩ : ∃ finds, SerialRun (· = Sample.failingService) (.init Sample.query)
      finds s := by
    refine ⟨_, SerialRun.walk ?_ 7 (.refl _)⟩
    rfl
  have answered : (newIndexingService Sample.failingService []).query Sample.query s.qs.qr s.err :=
    ⟨finds, s, serial, WalkState.stuck_of_final (.inr (by simp [failed])),
      fun _ stopped => by rw [failed] at stopped; cases stopped; trivial, rfl, rfl⟩
  exact ⟨failed, by decide, answered, with_concurrency_keeps_serial_answers (by decide) answered⟩

/-- Whatever options of `WithConcurrency` with positive concurrencies `NewIndexingService` is
given, under any collaborators, failing or not, whose records all carry a provider and that
mention only the multihashes of a finite set `M` with the query's hashes, the service's
`Query` returns: it has an answer. -/
theorem new_indexing_service_always_answers {lookups : IndexingService} {q : Query}
    {M : Finset Multihash} {options : List ServiceOption} (hashes : ∀ h ∈ q.hashes, h ∈ M)
    (mentions : MentionsWithin lookups M) (provided : Provided lookups)
    (configured : ∀ option ∈ options, ∃ concurrency, 0 < concurrency ∧
      option = withConcurrency concurrency) :
    ∃ qr err, (newIndexingService lookups options).query q qr err := by
  obtain ⟨same, busy⟩ := foldl_withConcurrency configured ⟨lookups, .single⟩ (by rintro _ ⟨⟩)
  exact Service.answers_exist hashes (by rw [newIndexingService, same]; exact mentions)
    (by rw [newIndexingService, same]; exact provided) busy

/-- The sample query on the service built with three workers whose lookup of the claim of `B`
fails. -/
theorem failing_service_answers :
    let options : List ServiceOption := [withConcurrency 3]
    (∀ h ∈ Sample.query.hashes, h ∈ Sample.mentioned) ∧
      MentionsWithin Sample.failingService Sample.mentioned ∧ Provided Sample.failingService ∧
      (∀ option ∈ options, ∃ concurrency, 0 < concurrency ∧ option = withConcurrency concurrency) ∧
      ∃ qr err, (newIndexingService Sample.failingService options).query Sample.query qr err := by
  intro options
  have hashes : ∀ h ∈ Sample.query.hashes, h ∈ Sample.mentioned := by decide
  have mentions : MentionsWithin Sample.failingService Sample.mentioned :=
    have sample := Sample.service_mentionsWithin
    ⟨sample.equals, sample.index, sample.shards⟩
  have provided : Provided Sample.failingService := fun k _ found => by
    cases found
    exact Sample.service_serves.provider k
  have configured : ∀ option ∈ options, ∃ concurrency, 0 < concurrency ∧
      option = withConcurrency concurrency :=
    fun _ listed => ⟨3, by decide, List.mem_singleton.mp listed⟩
  exact ⟨hashes, mentions, provided, configured,
    new_indexing_service_always_answers hashes mentions provided configured⟩

end Indexing
