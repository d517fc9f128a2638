import IndexingService.ParallelTermination

/-!
# The handler invocations of a parallel walk

A parallel step starts a handler invocation exactly when it is a visit check that passes:
the worker's `CmpSwap` marks the job's key, and the handler goes on to its `Find` call.  A
labelled run records these invocations in order, each with its job's key and its `Find`
query.  Every parallel run has such a record and every record belongs to a run.  Since a
check passes only for a key not yet visited and marks it, the recorded keys are pairwise
distinct and are exactly the visited keys: in any interleaving the handler of a key starts
at most once, and a walk makes one `Find` call per visited key.
-/

namespace Indexing

/-- One parallel step with the handler invocation it starts, if any: a visit check that
passes starts the job's handler, which calls `Find` with its query; a step that marks no key
starts none. -/
inductive LabelledStep (is : IndexingService) (concurrency : Nat) :
    ParallelState → Option (JobKey × QueryKey) → ParallelState → Prop
  | quiet {s t : ParallelState} : ParallelStep is concurrency s t → t.qs.visits = s.qs.visits →
      LabelledStep is concurrency s none t
  | start {s : ParallelState} {i : Nat} {j : Job} : s.err = none →
      s.workers i = some ⟨j, .checking⟩ → j.key ∉ s.qs.visits →
      LabelledStep is concurrency s (some (j.key, (is.jobHandler s.qs.q j).find)) (s.check is i j)

/-- A parallel walk with the handler invocations it started, in order. -/
inductive ParallelTrace (is : IndexingService) (concurrency : Nat) :
    ParallelState → List (JobKey × QueryKey) → ParallelState → Prop
  | refl (s : ParallelState) : ParallelTrace is concurrency s [] s
  | tail {s t u : ParallelState} {calls : List (JobKey × QueryKey)}
      {label : Option (JobKey × QueryKey)} :
      ParallelTrace is concurrency s calls t → LabelledStep is concurrency t label u →
      ParallelTrace is concurrency s (calls ++ label.toList) u

section Labels

variable {is : IndexingService} {concurrency : Nat}

theorem LabelledStep.step {s t : ParallelState} {label : Option (JobKey × QueryKey)}
    (labelled : LabelledStep is concurrency s label t) : ParallelStep is concurrency s t := by
  cases labelled with
  | quiet step _ => exact step
  | start running busy _ => exact .check running busy

/-- Every parallel step is labelled: a passing visit check starts an invocation, and every
other step leaves the visited keys as they are. -/
theorem ParallelStep.labelled {s t : ParallelState} (step : ParallelStep is concurrency s t) :
    ∃ label, LabelledStep is concurrency s label t := by
  cases step with
  | dequeue running queued slot free =>
    exact ⟨none, .quiet (.dequeue running queued slot free) rfl⟩
  | @check i j running busy =>
    by_cases visited : j.key ∈ s.qs.visits
    · refine ⟨none, .quiet (.check running busy) ?_⟩
      rw [ParallelState.check_of_mem visited]
    · exact ⟨_, .start running busy visited⟩
  | perform running busy =>
    exact ⟨none, .quiet (.perform running busy) (Op.update_visits _ _)⟩
  | finish running busy => exact ⟨none, .quiet (.finish running busy) rfl⟩

/-- The visited keys after a labelled step: those before, and the key of the invocation it
started. -/
theorem LabelledStep.visits {s t : ParallelState} {label : Option (JobKey × QueryKey)}
    (labelled : LabelledStep is concurrency s label t) :
    t.qs.visits = s.qs.visits ∪ (label.toList.map Prod.fst).toFinset ∧
      ∀ k ∈ label.toList.map Prod.fst, k ∉ s.qs.visits := by
  cases labelled with
  | quiet _ same => simp [same]
  | @start i j _ _ fresh =>
    rw [ParallelState.check_of_not_mem fresh]
    simpa [markVisited, Finset.insert_eq, Finset.union_comm] using fresh

/-- Along a labelled run the recorded keys are new, pairwise distinct, and make up what the
run adds to the visited keys. -/
theorem ParallelTrace.keys {s t : ParallelState} {calls : List (JobKey × QueryKey)}
    (trace : ParallelTrace is concurrency s calls t) :
    (calls.map Prod.fst).Nodup ∧ (∀ k ∈ calls.map Prod.fst, k ∉ s.qs.visits) ∧
      t.qs.visits = s.qs.visits ∪ (calls.map Prod.fst).toFinset := by
  induction trace with
  | refl => simp
  | @tail _ _ _ label _ labelled ih =>
    obtain ⟨distinct, fresh, visited⟩ := ih
    obtain ⟨grown, new⟩ := labelled.visits
    refine ⟨?_, ?_, ?_⟩
    · rw [List.map_append, List.nodup_append]
      refine ⟨distinct, by cases label <;> simp, fun k earlier later => ?_⟩
      exact new k later (visited ▸ Finset.mem_union_right _ (List.mem_toFinset.mpr earlier))
    · intro k member
      rw [List.map_append, List.mem_append] at member
      rcases member with earlier | later
      · exact fresh k earlier
      · exact fun old => new k later (visited ▸ Finset.mem_union_left _ old)
    · rw [grown, visited, List.map_append, List.toFinset_append, Finset.union_assoc]

theorem ParallelTrace.run {q : Query} {s : ParallelState} {calls : List (JobKey × QueryKey)}
    (trace : ParallelTrace is concurrency (.init q) calls s) : ParallelRun is concurrency q s := by
  induction trace with
  | refl => exact .refl
  | tail _ labelled ih => exact ih.tail labelled.step

theorem ParallelRun.trace {q : Query} {s : ParallelState} (run : ParallelRun is concurrency q s) :
    ∃ calls, ParallelTrace is concurrency (.init q) calls s := by
  induction run with
  | refl => exact ⟨[], .refl _⟩
  | tail _ step ih =>
    obtain ⟨calls, trace⟩ := ih
    obtain ⟨label, labelled⟩ := step.labelled
    exact ⟨_, trace.tail labelled⟩

end Labels

/-- In every parallel walk of `Query`, with any collaborators and in any interleaving of the
workers, the handler of a job key starts at most once: the reached states are those of the
labelled runs, the keys of the invocations a labelled run has started are pairwise distinct
and are exactly the visited keys, and when the query and the collaborators mention only the
multihashes of a finite set `M` the run has made at most `3 * |M| * (|M| + 1)` `Find`
calls. -/
theorem parallel_handler_starts_once {is : IndexingService} {concurrency : Nat} {q : Query} :
    (∀ s, ParallelRun is concurrency q s ↔ ∃ calls, ParallelTrace is concurrency (.init q) calls s) ∧
      ∀ calls s, ParallelTrace is concurrency (.init q) calls s →
        (calls.map Prod.fst).Nodup ∧ (∀ k, k ∈ calls.map Prod.fst ↔ k ∈ s.qs.visits) ∧
        ∀ M : Finset Multihash, (∀ h ∈ q.hashes, h ∈ M) → MentionsWithin is M →
          calls.length ≤ 3 * M.card * (M.card + 1) := by
  refine ⟨fun _ => ⟨ParallelRun.trace, fun ⟨_, trace⟩ => trace.run⟩,
    fun calls s trace => ?_⟩
  obtain ⟨distinct, _, visited⟩ := trace.keys
  have keys : s.qs.visits = (calls.map Prod.fst).toFinset := by
    simpa [ParallelState.init, initialState] using visited
  refine ⟨distinct, fun k => by simp [keys], fun M hashes mentions => ?_⟩
  calc calls.length
      = (calls.map Prod.fst).toFinset.card := by
        rw [List.toFinset_card_of_nodup distinct, List.length_map]
    _ ≤ (keysWithin M).card := Finset.card_le_card (keys ▸ (trace.run.boundInv hashes mentions).visits)
    _ ≤ 3 * M.card * (M.card + 1) := card_keysWithin M

end Indexing
