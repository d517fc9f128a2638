import IndexingService.Correctness

/-!
# The shared state under any collaborators

Whatever the collaborators answer, and in every interleaving of the parallel walker's
workers, the query state changes in three ways only: the visit check adds a key, and the two
insert-if-absent `CmpSwap` calls add a claim or an index under a CID or context ID that has
none.  Three safety properties follow, none of which needs the collaborators to serve a
well-formed claim graph.  What is stored is authentic: every claim is the claim lookup's
answer for its CID and every index an answer of the blob index lookup for its context ID.
Nothing is lost: along a run the visited keys only grow and a stored claim or index is never
replaced or removed.  And the handlers exclude each other: a worker runs a handler only
after its visit check has marked the key, so no two workers run handlers for one key.
-/

namespace Indexing

/-! ## Authentic results -/

/-- An operation the collaborators back: a claim that the claim lookup returns for its CID, an
index that the blob index lookup returns for its context ID with some provider record and
range. -/
def Op.Authentic (is : IndexingService) : Op → Prop
  | .putClaim claimCid claim => is.claimLookup claimCid URL.zero = .ok claim
  | .putIndex contextID index =>
    ∃ record range, is.blobIndexLookup contextID record URL.zero range = .ok index
  | .spawn _ | .fail _ => True

/-- Every claim and index of a query result is one the collaborators returned. -/
structure Authentic (is : IndexingService) (qr : QueryResult) : Prop where
  claims : ∀ c d, qr.claims c = some d → is.claimLookup c URL.zero = .ok d
  indexes : ∀ contextID index, qr.indexes contextID = some index →
    ∃ record range, is.blobIndexLookup contextID record URL.zero range = .ok index

section Authentic

variable {is : IndexingService} {q : Query} {j : Job} {result : ProviderResult}
  {provider : AddrInfo} {protocol : Protocol} {op : Op}

theorem Op.authentic_of_mem_followUps (member : op ∈ is.followUps j result provider protocol) :
    op.Authentic is := by
  cases protocol with
  | equalsClaim equals claim =>
    simp only [IndexingService.followUps] at member
    split at member <;> rw [List.mem_singleton.mp member] <;> trivial
  | indexClaim index claim =>
    rw [List.mem_singleton.mp member]
    trivial
  | locationCommitment shard range claim =>
    simp only [IndexingService.followUps] at member
    split at member
    · cases member
    split at member
    · rw [List.mem_singleton.mp member]
      trivial
    rename_i record _
    split at member
    · rw [List.mem_singleton.mp member]
      trivial
    rename_i index lookup
    rcases List.mem_cons.mp member with rfl | spawned
    · exact ⟨record, range, lookup⟩
    · obtain ⟨_, _, rfl⟩ := List.mem_map.mp spawned
      trivial
  | other code => cases member

/-- Every operation of an invocation is backed by the collaborators' answers. -/
theorem Op.authentic_of_mem_jobHandler_ops (member : op ∈ (is.jobHandler q j).ops) :
    op.Authentic is := by
  rcases mem_jobHandler_ops member with ⟨_, rfl⟩ | ⟨_, _, _, _, _, _, _, _, member⟩
  · trivial
  rcases mem_protocolOps member with ⟨_, rfl⟩ | ⟨rfl, _⟩ | ⟨_, _, _, _, _, lookup, rfl | follow⟩
  · trivial
  · trivial
  · exact lookup
  · exact Op.authentic_of_mem_followUps follow

theorem Authentic.update {qs : QueryState} (stored : Authentic is qs.qr)
    (backed : op.Authentic is) : Authentic is (op.update qs).qr := by
  refine ⟨fun c d found => ?_, fun k index found => ?_⟩
  · rcases Op.update_claims_eq_some found with old | rfl
    · exact stored.claims c d old
    · exact backed
  · rcases Op.update_indexes_eq_some found with old | rfl
    · exact stored.indexes k index old
    · exact backed

theorem Authentic.runOps {ops : List Op} (backed : ∀ op ∈ ops, op.Authentic is) :
    ∀ {qs : QueryState} (acc : List Job), Authentic is qs.qr →
      Authentic is (runOps ops qs acc).1.qr := by
  induction ops with
  | nil => exact fun _ stored => stored
  | cons op ops ih =>
    intro qs acc stored
    cases op with
    | fail e => exact stored
    | _ =>
      exact ih (fun op' member => backed op' (List.mem_cons_of_mem _ member)) _
        (stored.update (backed _ (List.mem_cons_self _ _)))

/-- A whole invocation of a handler stores only what the collaborators returned. -/
theorem Authentic.run {qs : QueryState} (stored : Authentic is qs.qr) :
    Authentic is ((is.jobHandler q j).run qs).qs.qr := by
  by_cases visited : (is.jobHandler q j).key ∈ qs.visits
  · rwa [Handler.run_of_mem visited]
  · rw [Handler.run_of_not_mem visited]
    exact Authentic.runOps (fun _ => Op.authentic_of_mem_jobHandler_ops) _ stored

theorem Authentic.init : Authentic is (initialState q).qr :=
  ⟨(fun _ _ stored => nomatch stored), fun _ _ stored => nomatch stored⟩

theorem Authentic.parallelStep {concurrency : Nat} {s t : ParallelState}
    (shape : ShapeInv is q s) (stored : Authentic is s.qs.qr)
    (step : ParallelStep is concurrency s t) : Authentic is t.qs.qr := by
  cases step with
  | dequeue => exact stored
  | @check i j _ _ =>
    by_cases visited : j.key ∈ s.qs.visits
    · rw [ParallelState.check_of_mem visited]
      exact stored
    · rw [ParallelState.check_of_not_mem visited]
      exact stored
  | @perform i j op ops _ busy =>
    exact stored.update (Op.authentic_of_mem_jobHandler_ops
      (shape.remaining i j _ busy op (List.mem_cons_self _ _)))
  | finish => exact stored

end Authentic

/-- Under any collaborators, every claim and index that a serial walk or a parallel walk of
`Query` has stored, at every state, failed or not and in any interleaving of the workers, is
one the collaborators returned: a claim is the claim lookup's answer for its CID, and an
index is the blob index lookup's answer for its context ID with some provider record and
range. -/
theorem stored_results_authentic (is : IndexingService) (q : Query) :
    (∀ finds s, SerialRun (· = is) (.init q) finds s → Authentic is s.qs.qr) ∧
      ∀ concurrency s, ParallelRun is concurrency q s → Authentic is s.qs.qr := by
  refine ⟨fun _ _ run => ?_, fun _ _ run => ?_⟩
  · exact run.invariant (P := fun s => Authentic is s.qs.qr) .init
      fun _ _ _ same _ _ stored => same ▸ stored.run
  · exact run.invariant (P := fun s => Authentic is s.qs.qr) .init
      fun _ _ stored reached step => stored.parallelStep reached.shape step

/-! ## Nothing stored is lost -/

/-- What a later query state keeps of an earlier one: the query, every visited key, and every
stored claim and index, unchanged. -/
structure Keeps (qs qs' : QueryState) : Prop where
  query : qs'.q = qs.q
  visits : qs.visits ⊆ qs'.visits
  claims : ∀ c d, qs.qr.claims c = some d → qs'.qr.claims c = some d
  indexes : ∀ contextID index, qs.qr.indexes contextID = some index →
    qs'.qr.indexes contextID = some index

theorem Keeps.refl (qs : QueryState) : Keeps qs qs :=
  ⟨rfl, subset_rfl, fun _ _ => id, fun _ _ => id⟩

theorem Keeps.trans {qs qs' qs'' : QueryState} (first : Keeps qs qs') (second : Keeps qs' qs'') :
    Keeps qs qs'' :=
  ⟨second.query.trans first.query, first.visits.trans second.visits,
    fun c d stored => second.claims c d (first.claims c d stored),
    fun k index stored => second.indexes k index (first.indexes k index stored)⟩

/-- Each insert-if-absent operation keeps what is stored. -/
theorem Keeps.update (op : Op) (qs : QueryState) : Keeps qs (op.update qs) := by
  refine ⟨Op.update_q op qs, by rw [Op.update_visits], fun c d stored => ?_,
    fun k index stored => ?_⟩
  · rw [Op.update_claims]
    cases op <;> simp [stored]
  · rw [Op.update_indexes]
    cases op <;> simp [stored]

theorem Keeps.markVisited (k : JobKey) (qs : QueryState) : Keeps qs (markVisited k qs) :=
  ⟨rfl, Finset.subset_insert _ _, fun _ _ => id, fun _ _ => id⟩

theorem Keeps.runOps (ops : List Op) :
    ∀ (qs : QueryState) (acc : List Job), Keeps qs (runOps ops qs acc).1 := by
  induction ops with
  | nil => exact fun qs _ => .refl qs
  | cons op ops ih =>
    intro qs acc
    cases op with
    | fail e => exact .refl qs
    | _ => exact (Keeps.update _ qs).trans (ih _ _)

theorem Keeps.run (h : Handler) (qs : QueryState) : Keeps qs (h.run qs).qs := by
  by_cases visited : h.key ∈ qs.visits
  · rw [Handler.run_of_mem visited]
    exact .refl qs
  · rw [Handler.run_of_not_mem visited]
    exact (Keeps.markVisited _ qs).trans (Keeps.runOps _ _ _)

theorem Keeps.parallelStep {is : IndexingService} {concurrency : Nat} {s t : ParallelState}
    (step : ParallelStep is concurrency s t) : Keeps s.qs t.qs := by
  cases step with
  | dequeue => exact .refl _
  | @check i j _ _ =>
    by_cases visited : j.key ∈ s.qs.visits
    · rw [ParallelState.check_of_mem visited]
      exact .refl _
    · rw [ParallelState.check_of_not_mem visited]
      exact .markVisited _ _
  | perform => exact .update _ _
  | finish => exact .refl _

/-- In every serial walk, with any collaborators at each step, and along every sequence of
parallel steps, in any interleaving of the workers, the query stays the same, the visited
keys only grow, and a stored claim or index is never replaced or removed. -/
theorem walks_never_lose_stored_results :
    (∀ (backend : IndexingService → Prop) s finds t, SerialRun backend s finds t →
      Keeps s.qs t.qs) ∧
    ∀ (is : IndexingService) concurrency s t,
      Relation.ReflTransGen (ParallelStep is concurrency) s t → Keeps s.qs t.qs := by
  refine ⟨fun _ s _ _ run => ?_, fun _ _ s _ steps => ?_⟩
  · induction run with
    | refl => exact .refl _
    | step _ _ _ _ ih => exact ih.trans (Keeps.run _ _)
  · induction steps with
    | refl => exact .refl _
    | tail _ step ih => exact ih.trans (Keeps.parallelStep step)

/-! ## Handlers exclude each other -/

/-- A running worker's job has its key visited, and no two running workers have jobs with one
key. -/
structure ExclusionInv (s : ParallelState) : Prop where
  visited : ∀ i j ops, s.workers i = some ⟨j, .running ops⟩ → j.key ∈ s.qs.visits
  exclusive : ∀ i k j j' ops ops', s.workers i = some ⟨j, .running ops⟩ →
    s.workers k = some ⟨j', .running ops'⟩ → j.key = j'.key → i = k

section Exclusion

variable {is : IndexingService} {concurrency : Nat}

/-- Putting a worker that does not run into slot `i` keeps the exclusion, whatever the visit
set grows to. -/
theorem ExclusionInv.update_idle {s : ParallelState} (inv : ExclusionInv s) {i : Nat}
    {x : Option Worker} (idle : ∀ j ops, x ≠ some ⟨j, .running ops⟩) {queue : List Job}
    {qs : QueryState} {err : Option Error} (grown : s.qs.visits ⊆ qs.visits) :
    ExclusionInv ⟨queue, Function.update s.workers i x, qs, err⟩ := by
  have old : ∀ k j ops, Function.update s.workers i x k = some ⟨j, .running ops⟩ →
      s.workers k = some ⟨j, .running ops⟩ := by
    intro k j ops slot
    rcases update_eq_some slot with ⟨_, set⟩ | ⟨_, slot⟩
    · exact absurd set (idle j ops)
    · exact slot
  exact ⟨fun k j ops slot => grown (inv.visited k j ops (old k j ops slot)),
    fun k k' j j' ops ops' slot slot' => inv.exclusive k k' j j' ops ops' (old k j ops slot)
      (old k' j' ops' slot')⟩

theorem ExclusionInv.step {s t : ParallelState} (inv : ExclusionInv s)
    (step : ParallelStep is concurrency s t) : ExclusionInv t := by
  cases step with
  | dequeue => exact inv.update_idle (by simp) subset_rfl
  | @check i j _ busy =>
    by_cases visited : j.key ∈ s.qs.visits
    · rw [ParallelState.check_of_mem visited]
      exact inv.update_idle (by simp) subset_rfl
    rw [ParallelState.check_of_not_mem visited]
    have others : ∀ k j' ops, k ≠ i → s.workers k = some ⟨j', .running ops⟩ → j'.key ≠ j.key :=
      fun k j' ops _ slot same => visited (same ▸ inv.visited k j' ops slot)
    have running : ∀ k j' ops, Function.update s.workers i
        (some ⟨j, .running (is.jobHandler s.qs.q j).ops⟩) k = some ⟨j', .running ops⟩ →
        (k = i ∧ j' = j) ∨ (k ≠ i ∧ s.workers k = some ⟨j', .running ops⟩) := by
      intro k j' ops slot
      rcases update_eq_some slot with ⟨here, set⟩ | ⟨there, slot⟩
      · simp only [Option.some.injEq, Worker.mk.injEq] at set
        exact .inl ⟨here, set.1.symm⟩
      · exact .inr ⟨there, slot⟩
    refine ⟨fun k j' ops slot => ?_, fun k k' j₁ j₂ ops ops' slot slot' same => ?_⟩
    · rcases running k j' ops slot with ⟨_, rfl⟩ | ⟨_, slot⟩
      · exact Finset.mem_insert_self _ _
      · exact Finset.mem_insert_of_mem (inv.visited k j' ops slot)
    · rcases running k j₁ ops slot with ⟨rfl, rfl⟩ | ⟨ne, old⟩ <;>
        rcases running k' j₂ ops' slot' with ⟨rfl, rfl⟩ | ⟨ne', old'⟩
      · rfl
      · exact absurd same.symm (others k' j₂ ops' ne' old')
      · exact absurd same (others k j₁ ops ne old)
      · exact inv.exclusive k k' j₁ j₂ ops ops' old old' same
  | @perform i j op ops _ busy =>
    have same : ∀ k j' ops', Function.update s.workers i (some ⟨j, .running ops⟩) k =
        some ⟨j', .running ops'⟩ → ∃ ops'', s.workers k = some ⟨j', .running ops''⟩ := by
      intro k j' ops' slot
      rcases update_eq_some slot with ⟨rfl, set⟩ | ⟨_, slot⟩
      · simp only [Option.some.injEq, Worker.mk.injEq] at set
        exact ⟨_, set.1 ▸ busy⟩
      · exact ⟨_, slot⟩
    refine ⟨fun k j' ops' slot => ?_, fun k k' j₁ j₂ ops₁ ops₂ slot slot' keys => ?_⟩
    · obtain ⟨_, slot⟩ := same k j' ops' slot
      simpa [ParallelState.perform] using inv.visited k j' _ slot
    · obtain ⟨_, slot⟩ := same k j₁ ops₁ slot
      obtain ⟨_, slot'⟩ := same k' j₂ ops₂ slot'
      exact inv.exclusive k k' j₁ j₂ _ _ slot slot' keys
  | finish => exact inv.update_idle (by simp) subset_rfl

theorem ParallelRun.exclusionInv {q : Query} {s : ParallelState}
    (run : ParallelRun is concurrency q s) : ExclusionInv s :=
  run.invariant ⟨(fun _ _ _ idle => nomatch idle), fun _ _ _ _ _ _ idle => nomatch idle⟩
    fun _ _ inv _ step => inv.step step

end Exclusion

/-- In every parallel walk of `Query`, with any collaborators and in any interleaving of the
workers, a worker runs a handler only for a job whose key is visited, and no two workers run
handlers for jobs with one key at the same time. -/
theorem parallel_handlers_exclusive {is : IndexingService} {concurrency : Nat} {q : Query}
    {s : ParallelState} (run : ParallelRun is concurrency q s) :
    (∀ i j ops, s.workers i = some ⟨j, .running ops⟩ → j.key ∈ s.qs.visits) ∧
      ∀ i k j j' ops ops', s.workers i = some ⟨j, .running ops⟩ →
        s.workers k = some ⟨j', .running ops'⟩ → j.key = j'.key → i = k :=
  ⟨run.exclusionInv.visited, run.exclusionInv.exclusive⟩

/-- The sample walk with two workers past their visit checks, on the location job of `B` and
the index job of `I`: both keys are visited. -/
theorem two_workers_handlers_exclusive :
    ParallelRun Sample.service 2 Sample.query Sample.twoWorkers ∧
      (∀ i j ops, Sample.twoWorkers.workers i = some ⟨j, .running ops⟩ →
        j.key ∈ Sample.twoWorkers.qs.visits) ∧
      (∀ i k j j' ops ops', Sample.twoWorkers.workers i = some ⟨j, .running ops⟩ →
        Sample.twoWorkers.workers k = some ⟨j', .running ops'⟩ → j.key = j'.key → i = k) ∧
      Sample.locationJob.key ∈ Sample.twoWorkers.qs.visits ∧
      Sample.indexJob.key ∈ Sample.twoWorkers.qs.visits := by
  have run := Sample.twoWorkers_reached
  obtain ⟨visited, exclusive⟩ := parallel_handlers_exclusive run
  exact ⟨run, visited, exclusive, visited 0 _ _ rfl, visited 1 _ _ rfl⟩

/-! ## Where a walk's error comes from -/

/-- An error that the handler of a visited job returns under `is`: a collaborator's error,
passed on unchanged, or the dereference of the missing provider of a record that `Find`
returned. -/
def HandlerError (is : IndexingService) (q : Query) (visits : Finset JobKey) (e : Error) :
    Prop :=
  ∃ j, j.key ∈ visits ∧ .fail e ∈ (is.jobHandler q j).ops ∧
    ((∃ message, e = .backend message) ∨
      e = .nilDereference .provider ∧ ∃ results,
        is.providerIndex (is.jobHandler q j).find = .ok results ∧ ∃ result ∈ results, result.provider = none)

section Errors

variable {is : IndexingService} {q : Query} {j : Job} {e : Error}

/-- The errors the handler of a job of the shape of `Job.Valid` can return. -/
theorem HandlerError.of_valid {visits : Finset JobKey} (valid : j.Valid) (visited : j.key ∈ visits)
    (member : .fail e ∈ (is.jobHandler q j).ops) : HandlerError is q visits e := by
  refine ⟨j, visited, member, ?_⟩
  rcases mem_jobHandler_ops member with ⟨message, failed⟩ | ⟨results, found, result, returned, _,
    _, _, _, fromProtocol⟩
  · exact .inl ⟨message, Op.fail.inj failed⟩
  rcases mem_protocolOps fromProtocol with ⟨message, failed⟩ | ⟨failed, missing⟩ |
    ⟨_, _, _, _, _, _, bad | follow⟩
  · exact .inl ⟨message, Op.fail.inj failed⟩
  · exact .inr ⟨Op.fail.inj failed, results, found, result, returned, missing⟩
  · cases bad
  rcases fail_mem_followUps follow with ⟨message, rfl⟩ | ⟨rfl, _⟩
  · exact .inl ⟨message, rfl⟩
  · exact absurd member valid.no_record_fault

/-- A serial run under `backend` stops with an error only through the last handler it ran. -/
theorem SerialRun.handlerError {backend : IndexingService → Prop} {finds : List QueryKey}
    {s : WalkState} (run : SerialRun backend (.init q) finds s) (failed : s.err = some e) :
    ∃ is, backend is ∧ HandlerError is q s.qs.visits e := by
  cases run with
  | refl => cases failed
  | @step t _ is j earlier allowed _ pending =>
    have queried : t.qs.q = q := earlier.q
    exact ⟨is, allowed, .of_valid (earlier.pending_valid j pending) (by simp)
      (queried ▸ WalkState.fail_mem_of_handle_err failed)⟩

/-- A parallel run stops with an error only through a `fail` operation that a worker
performs, which its handler has left and whose job's key its visit check marked. -/
theorem ParallelRun.handlerError {concurrency : Nat} {s : ParallelState}
    (run : ParallelRun is concurrency q s) (failed : s.err = some e) :
    HandlerError is q s.qs.visits e := by
  cases run with
  | refl => cases failed
  | tail earlier step =>
    rename_i t
    have earlier : ParallelRun is concurrency q t := earlier
    cases step with
    | dequeue running => cases failed.symm.trans running
    | check running =>
      dsimp only [ParallelState.check] at failed
      split at failed <;> cases failed.symm.trans running
    | @perform i j op ops _ busy =>
      have shape := earlier.shape
      cases op <;> simp only [ParallelState.perform, Option.some.injEq, reduceCtorEq] at failed
      subst failed
      exact .of_valid (shape.workers i _ busy)
        (by simpa [ParallelState.perform] using earlier.exclusionInv.visited i j _ busy)
        (shape.query ▸ shape.remaining i j _ busy _ (List.mem_cons_self _ _))
    | finish running => cases failed.symm.trans running

end Errors

/-- Every error a walk of `Query` stops with, serial with collaborators that change from step
to step or parallel in any interleaving of the workers, is one that the handler of a visited
job returned under the walk's collaborators: an error of a collaborator, passed on unchanged,
or the dereference of the missing provider of a record that `Find` returned.  A walk never
stops with the dereference of a missing `indexProviderRecord`. -/
theorem walk_errors_come_from_handlers (q : Query) :
    (∀ (backend : IndexingService → Prop) finds s e, SerialRun backend (.init q) finds s →
      s.err = some e → ∃ is, backend is ∧ HandlerError is q s.qs.visits e) ∧
    ∀ is concurrency s e, ParallelRun is concurrency q s → s.err = some e →
      HandlerError is q s.qs.visits e :=
  ⟨fun _ _ _ _ run failed => run.handlerError failed,
    fun _ _ _ _ run failed => run.handlerError failed⟩

end Indexing
