import IndexingService.Query
import Mathlib.Algebra.BigOperators.Group.Finset

/-!
# Termination of parallel runs

A parallel step either visits a new key, or leaves the visit set as it is and lowers the
work left: a queued job weighs three, a worker before its visit check two, and a running
worker four per remaining operation plus one for finishing.  Dequeuing, a failed visit
check, an operation (which spawns at most one job) and finishing each lower that sum.  When
the query and the collaborators mention only the multihashes of a finite set `M`, every job
has a key over `M`, so the pair (keys over `M` not yet visited, work left) decreases
lexicographically.  No parallel run is infinite, and a state from which no step is possible
has drained or failed.  Under a backend that also serves a well-formed claim graph no run
fails, so every parallel run drains, to the reference result.
-/

namespace Indexing

/-- The work a worker has left in its handler. -/
def Phase.weight : Phase → Nat
  | .checking => 2
  | .running ops => 4 * ops.length + 1

/-- The work left in a worker slot. -/
def slotWeight : Option Worker → Nat
  | none => 0
  | some w => w.phase.weight

/-- The work left in the slots below `concurrency`. -/
def slotsWeight (concurrency : Nat) (workers : Nat → Option Worker) : Nat :=
  ∑ i in Finset.range concurrency, slotWeight (workers i)

/-- How far a parallel walk is from its end, given the keys `K` its jobs can have. -/
def ParallelState.measure (K : Finset JobKey) (concurrency : Nat) (s : ParallelState) :
    ℕ ×ₗ ℕ :=
  toLex (K.card - s.qs.visits.card, 3 * s.queue.length + slotsWeight concurrency s.workers)

/-- Changing one slot below `concurrency` changes the work left by the difference of its
weights. -/
theorem slotsWeight_update {concurrency i : Nat} (workers : Nat → Option Worker)
    (x : Option Worker) (slot : i < concurrency) :
    slotsWeight concurrency (Function.update workers i x) + slotWeight (workers i) =
      slotsWeight concurrency workers + slotWeight x := by
  have mem : i ∈ Finset.range concurrency := Finset.mem_range.mpr slot
  have others : ∀ k ∈ (Finset.range concurrency).erase i,
      slotWeight (Function.update workers i x k) = slotWeight (workers k) :=
    fun k member => by rw [Function.update_noteq (Finset.ne_of_mem_erase member)]
  unfold slotsWeight
  rw [← Finset.add_sum_erase _ _ mem, ← Finset.add_sum_erase _ (fun k => slotWeight (workers k)) mem,
    Finset.sum_congr rfl others, Function.update_same]
  omega

theorem Op.length_spawned_le (op : Op) : op.spawned.length ≤ 1 := by
  cases op <;> simp [Op.spawned]

/-! ## Jobs over finitely many multihashes -/

/-- What every state of a parallel run keeps when the query and the collaborators mention only
the multihashes of `M`: the shape of its jobs, idle slots from `concurrency` on, queued and
busy jobs over `M`, and visited keys of triples over `M`. -/
structure BoundInv (is : IndexingService) (concurrency : Nat) (q : Query) (M : Finset Multihash)
    (s : ParallelState) : Prop where
  shape : ShapeInv is q s
  idle : ∀ i, concurrency ≤ i → s.workers i = none
  queue : ∀ j ∈ s.queue, j.Within M
  workers : ∀ i w, s.workers i = some w → w.job.Within M
  visits : s.qs.visits ⊆ keysWithin M

section Bounded

variable {is : IndexingService} {concurrency : Nat} {q : Query} {M : Finset Multihash}

theorem BoundInv.init (hashes : ∀ h ∈ q.hashes, h ∈ M) : BoundInv is concurrency q M (.init q) where
  shape := .init
  idle _ _ := rfl
  queue j member := by
    obtain ⟨h, hashed, rfl⟩ := List.mem_map.mp member
    exact ⟨hashes h hashed, by simp⟩
  workers _ _ idle := nomatch idle
  visits := Finset.empty_subset _

theorem BoundInv.lt_of_busy {s : ParallelState} (inv : BoundInv is concurrency q M s) {i : Nat}
    {w : Worker} (busy : s.workers i = some w) : i < concurrency := by
  by_contra above
  rw [inv.idle i (Nat.le_of_not_lt above)] at busy
  cases busy

/-- A step that changes only slot `i`, below `concurrency`, keeps `BoundInv` when it keeps the
shape of jobs, queues jobs over `M`, puts a job over `M` into the slot and visits keys over
`M`. -/
theorem BoundInv.update {s : ParallelState} (inv : BoundInv is concurrency q M s) {i : Nat}
    (slot : i < concurrency) {x : Option Worker} {queue : List Job} {qs : QueryState}
    {err : Option Error} (shape : ShapeInv is q ⟨queue, Function.update s.workers i x, qs, err⟩)
    (queued : ∀ j ∈ queue, j.Within M) (within : ∀ w, x = some w → w.job.Within M)
    (visits : qs.visits ⊆ keysWithin M) :
    BoundInv is concurrency q M ⟨queue, Function.update s.workers i x, qs, err⟩ := by
  refine ⟨shape, fun k above => ?_, queued, fun k w busy => ?_, visits⟩
  · show Function.update s.workers i x k = none
    rw [Function.update_noteq (by omega)]
    exact inv.idle k above
  · rcases update_eq_some busy with ⟨_, set⟩ | ⟨_, busy⟩
    · exact within w set
    · exact inv.workers k w busy

theorem BoundInv.step (mentions : MentionsWithin is M) {s s' : ParallelState}
    (inv : BoundInv is concurrency q M s) (step : ParallelStep is concurrency s s') :
    BoundInv is concurrency q M s' := by
  have shape := inv.shape.step step
  cases step with
  | @dequeue j i _ queued slot _ =>
    exact inv.update slot shape (fun j' member => inv.queue j' (List.mem_of_mem_erase member))
      (by rintro _ ⟨⟩; exact inv.queue j queued) inv.visits
  | @check i j _ busy =>
    have within : j.Within M := inv.workers i _ busy
    by_cases visited : j.key ∈ s.qs.visits
    · rw [ParallelState.check_of_mem visited] at shape ⊢
      exact inv.update (inv.lt_of_busy busy) shape inv.queue (by rintro _ ⟨⟩) inv.visits
    · rw [ParallelState.check_of_not_mem visited] at shape ⊢
      exact inv.update (inv.lt_of_busy busy) shape inv.queue (by rintro _ ⟨⟩; exact within)
        (Finset.insert_subset within.key_mem inv.visits)
  | @perform i j op ops _ busy =>
    have within : j.Within M := inv.workers i _ busy
    refine inv.update (inv.lt_of_busy busy) shape ?_ (by rintro _ ⟨⟩; exact within)
      (by simpa using inv.visits)
    intro j' member
    simp only [List.mem_append, Op.mem_spawned] at member
    rcases member with queued | rfl
    · exact inv.queue j' queued
    · exact mentions.spawn within (inv.shape.remaining i j _ busy _ (List.mem_cons_self _ _))
  | finish _ busy =>
    exact inv.update (inv.lt_of_busy busy) shape inv.queue (by rintro _ ⟨⟩) inv.visits

theorem ParallelRun.boundInv (hashes : ∀ h ∈ q.hashes, h ∈ M) (mentions : MentionsWithin is M)
    {s : ParallelState} (run : ParallelRun is concurrency q s) : BoundInv is concurrency q M s :=
  run.invariant (.init hashes) fun _ _ inv _ step => inv.step mentions step

/-- Every parallel step lowers the measure. -/
theorem ParallelStep.measure_lt {s t : ParallelState} (inv : BoundInv is concurrency q M s)
    (step : ParallelStep is concurrency s t) :
    t.measure (keysWithin M) concurrency < s.measure (keysWithin M) concurrency := by
  unfold ParallelState.measure
  rw [Prod.Lex.lt_iff]
  cases step with
  | @dequeue j i _ queued slot free =>
    have weights := slotsWeight_update s.workers (some ⟨j, .checking⟩) slot
    have shorter := List.length_erase_of_mem queued
    have nonempty := List.length_pos_of_mem queued
    rw [free] at weights
    simp only [slotWeight, Phase.weight] at weights
    exact .inr ⟨rfl, by simp only [shorter]; omega⟩
  | @check i j _ busy =>
    by_cases visited : j.key ∈ s.qs.visits
    · have weights := slotsWeight_update s.workers none (inv.lt_of_busy busy)
      rw [busy] at weights
      simp only [slotWeight, Phase.weight] at weights
      rw [ParallelState.check_of_mem visited]
      exact .inr ⟨rfl, by dsimp only; omega⟩
    · have grown : (insert j.key s.qs.visits).card = s.qs.visits.card + 1 :=
        Finset.card_insert_of_not_mem visited
      have within : (insert j.key s.qs.visits).card ≤ (keysWithin M).card :=
        Finset.card_le_card
          (Finset.insert_subset (inv.workers i _ busy : j.Within M).key_mem inv.visits)
      rw [ParallelState.check_of_not_mem visited]
      left
      simp only [markVisited]
      omega
  | @perform i j op ops _ busy =>
    have weights := slotsWeight_update s.workers (some ⟨j, .running ops⟩) (inv.lt_of_busy busy)
    have spawned := op.length_spawned_le
    rw [busy] at weights
    simp only [slotWeight, Phase.weight, List.length_cons] at weights
    exact .inr ⟨by simp [ParallelState.perform], by
      simp only [ParallelState.perform, List.length_append]; omega⟩
  | @finish i j _ busy =>
    have weights := slotsWeight_update s.workers none (inv.lt_of_busy busy)
    rw [busy] at weights
    simp only [slotWeight, Phase.weight, List.length_nil] at weights
    exact .inr ⟨rfl, by dsimp only; omega⟩

end Bounded

/-- With at least one worker, a state that has neither drained nor failed can step. -/
theorem ParallelState.progress {is : IndexingService} {concurrency : Nat} (busy : 0 < concurrency)
    {s : ParallelState} (running : s.err = none) (notDrained : ¬ s.Drained) :
    ∃ t, ParallelStep is concurrency s t := by
  by_cases allIdle : ∀ i, s.workers i = none
  · cases queued : s.queue with
    | nil => exact absurd ⟨queued, allIdle, running⟩ notDrained
    | cons j _ =>
      exact ⟨_, .dequeue running (show j ∈ s.queue by simp [queued]) busy (allIdle 0)⟩
  · push_neg at allIdle
    obtain ⟨i, slot⟩ := allIdle
    obtain ⟨⟨j, phase⟩, slot⟩ := Option.ne_none_iff_exists'.mp slot
    cases phase with
    | checking => exact ⟨_, .check running slot⟩
    | running ops =>
      cases ops with
      | nil => exact ⟨_, .finish running slot⟩
      | cons op ops => exact ⟨_, .perform running slot⟩

section Finite

variable {is : IndexingService} {concurrency : Nat} {q : Query} {M : Finset Multihash}
  (hashes : ∀ h ∈ q.hashes, h ∈ M) (mentions : MentionsWithin is M)
include hashes mentions

/-- No parallel run is infinite. -/
theorem ParallelRun.not_infinite :
    ¬ ∃ f : ℕ → ParallelState, f 0 = .init q ∧ ∀ n, ParallelStep is concurrency (f n) (f (n + 1)) := by
  rintro ⟨f, start, steps⟩
  have reached : ∀ n, ParallelRun is concurrency q (f n) := by
    intro n
    induction n with
    | zero => rw [start]; exact .refl
    | succ n ih => exact ih.tail (steps n)
  refine (RelEmbedding.natGT (fun n => (f n).measure (keysWithin M) concurrency) fun n =>
    (steps n).measure_lt ((reached n).boundInv hashes mentions)).not_wellFounded_of_decreasing_seq
      wellFounded_lt

/-- With at least one worker, every parallel run goes on to a state that has drained or
failed. -/
theorem ParallelRun.exists_final (busy : 0 < concurrency) {s : ParallelState}
    (run : ParallelRun is concurrency q s) :
    ∃ t, Relation.ReflTransGen (ParallelStep is concurrency) s t ∧ (t.Drained ∨ t.err.isSome) := by
  suffices ∀ m : ℕ ×ₗ ℕ, ∀ s, ParallelRun is concurrency q s →
      s.measure (keysWithin M) concurrency = m →
      ∃ t, Relation.ReflTransGen (ParallelStep is concurrency) s t ∧ (t.Drained ∨ t.err.isSome)
    from this _ s run rfl
  intro m
  induction m using WellFoundedLT.induction with
  | _ m ih =>
    intro s run measured
    cases failed : s.err with
    | some e => exact ⟨s, .refl, .inr (by simp [failed])⟩
    | none =>
      by_cases drained : s.Drained
      · exact ⟨s, .refl, .inl drained⟩
      obtain ⟨t, step⟩ := ParallelState.progress busy failed drained
      obtain ⟨u, rest, final⟩ :=
        ih _ (measured ▸ step.measure_lt (run.boundInv hashes mentions)) t (run.tail step) rfl
      exact ⟨u, .head step rest, final⟩

end Finite

/-- When the query and the collaborators mention only the multihashes of a finite set `M`, no
parallel run of `Query` is infinite, whatever the interleaving of its workers; and with at
least one worker, a reached state from which no step is possible has drained or failed, and
every run goes on to such a state. -/
theorem parallel_run_terminates {is : IndexingService} {concurrency : Nat} {q : Query}
    {M : Finset Multihash} (hashes : ∀ h ∈ q.hashes, h ∈ M) (mentions : MentionsWithin is M) :
    (¬ ∃ f : ℕ → ParallelState, f 0 = .init q ∧ ∀ n, ParallelStep is concurrency (f n) (f (n + 1))) ∧
      (0 < concurrency → ∀ s, ParallelRun is concurrency q s →
        ((¬ ∃ t, ParallelStep is concurrency s t) → s.Drained ∨ s.err.isSome) ∧
        ∃ t, Relation.ReflTransGen (ParallelStep is concurrency) s t ∧
          (t.Drained ∨ t.err.isSome)) := by
  refine ⟨ParallelRun.not_infinite hashes mentions, fun busy s run =>
    ⟨fun stuck => ?_, run.exists_final hashes mentions busy⟩⟩
  cases failed : s.err with
  | some e => exact .inr (by simp [failed])
  | none => exact .inl (of_not_not fun drained => stuck (ParallelState.progress busy failed drained))

/-- The sample walk with two workers, from the state where both are past their visit
checks. -/
theorem two_workers_run_terminates :
    (∀ h ∈ Sample.query.hashes, h ∈ Sample.mentioned) ∧
      MentionsWithin Sample.service Sample.mentioned ∧
      (¬ ∃ f : ℕ → ParallelState, f 0 = .init Sample.query ∧
        ∀ n, ParallelStep Sample.service 2 (f n) (f (n + 1))) ∧
      ((¬ ∃ t, ParallelStep Sample.service 2 Sample.twoWorkers t) →
        Sample.twoWorkers.Drained ∨ Sample.twoWorkers.err.isSome) ∧
      ∃ t, Relation.ReflTransGen (ParallelStep Sample.service 2) Sample.twoWorkers t ∧
        (t.Drained ∨ t.err.isSome) := by
  have hashes : ∀ h ∈ Sample.query.hashes, h ∈ Sample.mentioned := by decide
  have mentions := Sample.service_mentionsWithin
  obtain ⟨infinite, final⟩ := parallel_run_terminates hashes mentions
  exact ⟨hashes, mentions, infinite, final (by decide) _ Sample.twoWorkers_reached⟩

section Served

variable {is : IndexingService} {g : ClaimGraph} {concurrency : Nat} {q : Query}
  (serves : Serves is g) (wellFormed : WellFormedGraph g q) (busy : 0 < concurrency)
include serves wellFormed busy

/-- Under a serving backend, a reached state from which no step is possible has drained. -/
theorem ParallelRun.drained_of_stuck {s : ParallelState} (run : ParallelRun is concurrency q s)
    (stuck : ¬ ∃ t, ParallelStep is concurrency s t) : s.Drained :=
  of_not_not fun drained =>
    stuck (ParallelState.progress busy (run.closureInv serves wellFormed).err drained)

/-- Under a serving backend over the multihashes of `M`, every parallel run goes on to drain. -/
theorem ParallelRun.exists_drained {M : Finset Multihash} (hashes : ∀ h ∈ q.hashes, h ∈ M)
    (mentions : MentionsWithin is M) {s : ParallelState} (run : ParallelRun is concurrency q s) :
    ∃ t, Relation.ReflTransGen (ParallelStep is concurrency) s t ∧ t.Drained := by
  obtain ⟨t, rest, drained | failed⟩ := run.exists_final hashes mentions busy
  · exact ⟨t, rest, drained⟩
  · have reached : ParallelRun is concurrency q t := run.trans rest
    rw [(reached.closureInv serves wellFormed).err] at failed
    cases failed

end Served

/-- A drained state is one from which no step is possible. -/
theorem ParallelState.Drained.stuck {is : IndexingService} {concurrency : Nat} {s : ParallelState}
    (drained : s.Drained) : ¬ ∃ t, ParallelStep is concurrency s t := by
  rintro ⟨t, step⟩
  obtain ⟨emptied, idle, _⟩ := drained
  cases step with
  | dequeue _ queued => simp [emptied] at queued
  | check _ slot | perform _ slot | finish _ slot => simp [idle] at slot

/-- Under collaborators that serve a well-formed claim graph and mention only the multihashes
of a finite set `M`, with at least one worker: every parallel run goes on to drain, a reached
state from which no step is possible has drained, and a drained state holds the reference
result. -/
theorem parallel_query_drains_to_closure {is : IndexingService} {g : ClaimGraph}
    {concurrency : Nat} {q : Query} {M : Finset Multihash} (serves : Serves is g)
    (wellFormed : WellFormedGraph g q) (hashes : ∀ h ∈ q.hashes, h ∈ M)
    (mentions : MentionsWithin is M) (busy : 0 < concurrency) {s : ParallelState}
    (run : ParallelRun is concurrency q s) :
    (∃ t, Relation.ReflTransGen (ParallelStep is concurrency) s t ∧ t.Drained) ∧
      ((¬ ∃ t, ParallelStep is concurrency s t) → s.Drained) ∧
      (s.Drained → IsClosureResult g q s.qs.qr) :=
  ⟨run.exists_drained serves wellFormed busy hashes mentions,
    run.drained_of_stuck serves wellFormed busy,
    fun drained => ((run.closureInv serves wellFormed).result drained.1 drained.2.1).2⟩

/-- The sample walk with two workers, from the state where both are past their visit
checks. -/
theorem two_workers_drain_to_closure :
    Serves Sample.service Sample.graph ∧ WellFormedGraph Sample.graph Sample.query ∧
      (∀ h ∈ Sample.query.hashes, h ∈ Sample.mentioned) ∧
      MentionsWithin Sample.service Sample.mentioned ∧
      ParallelRun Sample.service 2 Sample.query Sample.twoWorkers ∧
      (∃ t, Relation.ReflTransGen (ParallelStep Sample.service 2) Sample.twoWorkers t ∧
        t.Drained) ∧
      ((¬ ∃ t, ParallelStep Sample.service 2 Sample.twoWorkers t) → Sample.twoWorkers.Drained) ∧
      (Sample.twoWorkers.Drained →
        IsClosureResult Sample.graph Sample.query Sample.twoWorkers.qs.qr) := by
  have serves := Sample.service_serves
  have wellFormed := Sample.graph_wellFormed
  have hashes : ∀ h ∈ Sample.query.hashes, h ∈ Sample.mentioned := by decide
  have mentions := Sample.service_mentionsWithin
  have run := Sample.twoWorkers_reached
  exact ⟨serves, wellFormed, hashes, mentions, run,
    parallel_query_drains_to_closure serves wellFormed hashes mentions (by decide) run⟩

end Indexing
