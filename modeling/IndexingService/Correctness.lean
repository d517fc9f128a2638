import IndexingService.Closure

/-!
# Query correctness

Every run of the walkers, serial or parallel in any interleaving, that ends normally holds
the reference result in its query state.  The proof is one invariant of parallel runs,
`ClosureInv`: every triple of the walk is in the reference closure, every visited triple's
successors, claims and indexes are either in the shared state already or still owed by a
worker, and the stored claims and indexes are ones the closure finds.  Once the queue is
empty and the workers idle nothing is owed, so the visited triples are closed and are the
whole closure.  Serial runs are parallel runs (`SerialRun.toParallel`), so they inherit the
result.
-/

namespace Indexing

/-- What worker `w` still owes the walk towards triple `u`: the visit check of `u`, or a
spawn of a job with triple `u`. -/
def Worker.Owes (w : Worker) (u : JobId) : Prop :=
  match w.phase with
  | .checking => w.job.id = u
  | .running ops => ∃ j, .spawn j ∈ ops ∧ j.id = u

/-- Worker `w` still owes the insertion of claim `c`. -/
def Worker.OwesClaim (g : ClaimGraph) (w : Worker) (c : Cid) : Prop :=
  match w.phase with
  | .checking => False
  | .running ops => .putClaim c (g.claim c) ∈ ops

/-- Worker `w` still owes the insertion of the index keyed by `contextID`. -/
def Worker.OwesIndex (g : ClaimGraph) (w : Worker) (contextID : Bytes) : Prop :=
  match w.phase with
  | .checking => False
  | .running ops => .putIndex contextID (g.index contextID) ∈ ops

/-- Triple `u` is visited, queued, or owed by a worker. -/
def Covered (s : ParallelState) (u : JobId) : Prop :=
  (u.key ∈ s.qs.visits ∨ ∃ j ∈ s.queue, j.id = u) ∨ ∃ i w, s.workers i = some w ∧ w.Owes u

/-- Claim `c` is stored or owed by a worker. -/
def ClaimDone (g : ClaimGraph) (s : ParallelState) (c : Cid) : Prop :=
  (s.qs.qr.claims c).isSome ∨ ∃ i w, s.workers i = some w ∧ w.OwesClaim g c

/-- The index keyed by `contextID` is stored or owed by a worker. -/
def IndexDone (g : ClaimGraph) (s : ParallelState) (contextID : Bytes) : Prop :=
  (s.qs.qr.indexes contextID).isSome ∨ ∃ i w, s.workers i = some w ∧ w.OwesIndex g contextID

/-- The invariant of parallel runs under a stable backend. -/
structure ClosureInv (is : IndexingService) (g : ClaimGraph) (q : Query) (s : ParallelState) :
    Prop where
  shape : ShapeInv is q s
  err : s.err = none
  queue : ∀ j ∈ s.queue, Reach g q j.id
  workers : ∀ i w, s.workers i = some w → Reach g q w.job.id
  visited : ∀ k ∈ s.qs.visits, ∃ t, Reach g q t ∧ t.key = k
  closed : ∀ t, Reach g q t → t.key ∈ s.qs.visits → ∀ u, Successor g q t u → Covered s u
  initial : ∀ h ∈ q.hashes, Covered s ⟨h, .standard, none⟩
  claims : ∀ c d, s.qs.qr.claims c = some d → d = g.claim c ∧ ∃ t, Reach g q t ∧ ClaimOf g q t c
  claimsDone : ∀ t c, Reach g q t → t.key ∈ s.qs.visits → ClaimOf g q t c → ClaimDone g s c
  indexes : ∀ contextID index, s.qs.qr.indexes contextID = some index →
    index = g.index contextID ∧ ∃ t, Reach g q t ∧ IndexOf g q t contextID
  indexesDone : ∀ t contextID, Reach g q t → t.key ∈ s.qs.visits → IndexOf g q t contextID →
    IndexDone g s contextID

/-- An obligation met in the shared state or owed by a worker stays so across a step that
changes only slot `i`, once what slot `i` owed is accounted for. -/
theorem owed_after {present present' : Prop} {owes : Worker → Prop}
    {workers : Nat → Option Worker} {i : Nat} {x : Option Worker}
    (owed : present ∨ ∃ k w, workers k = some w ∧ owes w)
    (keep : present → present' ∨ ∃ k w, Function.update workers i x k = some w ∧ owes w)
    (acting : ∀ w, workers i = some w → owes w →
      present' ∨ ∃ k w, Function.update workers i x k = some w ∧ owes w) :
    present' ∨ ∃ k w, Function.update workers i x k = some w ∧ owes w := by
  rcases owed with here | ⟨k, w, slot, owing⟩
  · exact keep here
  · by_cases acted : k = i
    · subst acted
      exact acting w slot owing
    · exact .inr ⟨k, w, by rw [Function.update_noteq acted]; exact slot, owing⟩

theorem Op.update_claims_isSome (op : Op) {qs : QueryState} {c : Cid}
    (stored : (qs.qr.claims c).isSome) : ((op.update qs).qr.claims c).isSome := by
  rw [Op.update_claims]
  cases op with
  | putClaim =>
    dsimp only
    rw [if_neg fun fresh => Option.isSome_iff_ne_none.mp stored fresh.2]
    exact stored
  | _ => exact stored

theorem Op.update_indexes_isSome (op : Op) {qs : QueryState} {k : Bytes}
    (stored : (qs.qr.indexes k).isSome) : ((op.update qs).qr.indexes k).isSome := by
  rw [Op.update_indexes]
  cases op with
  | putIndex =>
    dsimp only
    rw [if_neg fun fresh => Option.isSome_iff_ne_none.mp stored fresh.2]
    exact stored
  | _ => exact stored

theorem Op.update_claims_eq_some {op : Op} {qs : QueryState} {c : Cid} {d : Delegation}
    (stored : (op.update qs).qr.claims c = some d) :
    qs.qr.claims c = some d ∨ op = .putClaim c d := by
  rw [Op.update_claims] at stored
  cases op with
  | putClaim =>
    dsimp only at stored
    split at stored
    · obtain ⟨rfl, _⟩ := ‹_ ∧ _›
      cases stored
      exact .inr rfl
    · exact .inl stored
  | _ => exact .inl stored

theorem Op.update_indexes_eq_some {op : Op} {qs : QueryState} {k : Bytes}
    {index : ShardedDagIndexView} (stored : (op.update qs).qr.indexes k = some index) :
    qs.qr.indexes k = some index ∨ op = .putIndex k index := by
  rw [Op.update_indexes] at stored
  cases op with
  | putIndex =>
    dsimp only at stored
    split at stored
    · obtain ⟨rfl, _⟩ := ‹_ ∧ _›
      cases stored
      exact .inr rfl
    · exact .inl stored
  | _ => exact .inl stored

theorem Op.update_putClaim_isSome (qs : QueryState) (c : Cid) (d : Delegation) :
    (((Op.putClaim c d).update qs).qr.claims c).isSome := by
  rw [Op.update_claims]
  cases stored : qs.qr.claims c <;> simp [stored]

theorem Op.update_putIndex_isSome (qs : QueryState) (k : Bytes) (index : ShardedDagIndexView) :
    (((Op.putIndex k index).update qs).qr.indexes k).isSome := by
  rw [Op.update_indexes]
  cases stored : qs.qr.indexes k <;> simp [stored]

section Steps

variable {is : IndexingService} {g : ClaimGraph} {q : Query} {concurrency : Nat}
  {s : ParallelState}

theorem ClosureInv.workers_update (inv : ClosureInv is g q s) {i : Nat} {x : Option Worker}
    (reach : ∀ w, x = some w → Reach g q w.job.id) :
    ∀ k w, Function.update s.workers i x k = some w → Reach g q w.job.id := fun k w slot =>
  (update_eq_some slot).elim (fun ⟨_, set⟩ => reach w set) fun ⟨_, slot⟩ => inv.workers k w slot

theorem ClosureInv.dequeue (inv : ClosureInv is g q s) {j : Job} {i : Nat}
    (queued : j ∈ s.queue) (idle : s.workers i = none) (shape : ShapeInv is q
      { s with queue := s.queue.erase j,
               workers := Function.update s.workers i (some ⟨j, .checking⟩) }) :
    ClosureInv is g q
      { s with queue := s.queue.erase j,
               workers := Function.update s.workers i (some ⟨j, .checking⟩) } := by
  have : ∀ k, k ≠ i →
      Function.update s.workers i (some ⟨j, .checking⟩) k = s.workers k :=
    fun k ne => Function.update_noteq ne _ _
  have covered : ∀ u, Covered s u → Covered
      { s with queue := s.queue.erase j,
               workers := Function.update s.workers i (some ⟨j, .checking⟩) } u := by
    intro u covered
    refine owed_after covered ?_ (fun w busy => by simp [idle] at busy)
    rintro (visited | ⟨j', member, rfl⟩)
    · exact .inl (.inl visited)
    · by_cases same : j' = j
      · subst same
        exact .inr ⟨i, ⟨j', .checking⟩, by simp, rfl⟩
      · exact .inl (.inr ⟨j', List.mem_erase_of_ne same |>.mpr member, rfl⟩)
  have done : ∀ {present : Prop} {owes : Worker → Prop},
      (present ∨ ∃ k w, s.workers k = some w ∧ owes w) →
      present ∨ ∃ k w, Function.update s.workers i (some ⟨j, .checking⟩) k = some w ∧ owes w :=
    fun owed => owed_after owed .inl (fun w busy => by simp [idle] at busy)
  refine ⟨shape, inv.err, fun j' member => inv.queue j' (List.mem_of_mem_erase member),
    inv.workers_update (by rintro _ ⟨⟩; exact inv.queue j queued), inv.visited, fun t reach visited u successor => covered u (inv.closed t reach visited u successor),
    fun h member => covered _ (inv.initial h member), inv.claims,
    fun t c reach visited found => done (inv.claimsDone t c reach visited found), inv.indexes,
    fun t k reach visited found => done (inv.indexesDone t k reach visited found)⟩

theorem ClosureInv.check (serves : Serves is g) (wellFormed : WellFormedGraph g q)
    (inv : ClosureInv is g q s) {i : Nat} {j : Job} (busy : s.workers i = some ⟨j, .checking⟩)
    (shape : ShapeInv is q (s.check is i j)) : ClosureInv is g q (s.check is i j) := by
  have reachJ : Reach g q j.id := inv.workers i _ busy
  have valid : j.Valid := inv.shape.workers i _ busy
  have acting : ∀ {present' : Prop} {owes : Worker → Prop} {workers' : Nat → Option Worker},
      (owes ⟨j, .checking⟩ → present') → ∀ w, s.workers i = some w → owes w →
        present' ∨ ∃ k w, workers' k = some w ∧ owes w := by
    intro _ _ _ checked w slot owing
    rw [busy] at slot
    cases slot
    exact .inl (checked owing)
  by_cases visited : j.key ∈ s.qs.visits
  · rw [ParallelState.check_of_mem visited] at shape ⊢
    have : ∀ k, k ≠ i → Function.update s.workers i none k = s.workers k :=
      fun k ne => Function.update_noteq ne _ _
    have covered : ∀ u, Covered s u → Covered { s with workers := Function.update s.workers i none } u :=
      fun u covered => owed_after covered .inl
        (acting fun owing => .inl (by rw [← owing, Job.id_key]; exact visited))
    have done : ∀ {present : Prop} {owes : Worker → Prop}, ¬ owes ⟨j, .checking⟩ →
        (present ∨ ∃ k w, s.workers k = some w ∧ owes w) →
        present ∨ ∃ k w, Function.update s.workers i none k = some w ∧ owes w :=
      fun idle owed => owed_after owed .inl (acting fun owing => absurd owing idle)
    exact ⟨shape, inv.err, inv.queue, inv.workers_update (by rintro _ ⟨⟩), inv.visited,
      fun t reach visited u successor => covered u (inv.closed t reach visited u successor),
      fun h member => covered _ (inv.initial h member), inv.claims,
      fun t c reach visited found => done id (inv.claimsDone t c reach visited found), inv.indexes,
      fun t k reach visited found => done id (inv.indexesDone t k reach visited found)⟩
  · rw [ParallelState.check_of_not_mem visited] at shape ⊢
    rw [inv.shape.query] at shape ⊢
    have : ∀ k, k ≠ i → Function.update s.workers i
        (some ⟨j, .running (is.jobHandler q j).ops⟩) k = s.workers k :=
      fun k ne => Function.update_noteq ne _ _
    have running : Function.update s.workers i (some ⟨j, .running (is.jobHandler q j).ops⟩) i =
        some ⟨j, .running (is.jobHandler q j).ops⟩ := by simp
    have newly : ∀ t, Reach g q t → t.key ∈ (markVisited j.key s.qs).visits →
        t = j.id ∨ t.key ∈ s.qs.visits := by
      intro t reach member
      rcases Finset.mem_insert.mp member with same | old
      · exact .inl (JobId.key_injective (reach.wellFormed wellFormed)
          (reachJ.wellFormed wellFormed) (by rw [same, Job.id_key]))
      · exact .inr old
    have covered : ∀ u, Covered s u → Covered
        { s with qs := markVisited j.key s.qs,
                 workers := Function.update s.workers i
                   (some ⟨j, .running (is.jobHandler q j).ops⟩) } u :=
      fun u covered => owed_after covered
        (fun present => .inl (present.imp_left fun old => Finset.mem_insert_of_mem old))
        (acting fun owing => .inl (by
          rw [← owing, Job.id_key]
          exact Finset.mem_insert_self _ _))
    have done : ∀ {present : Prop} {owes : Worker → Prop}, ¬ owes ⟨j, .checking⟩ →
        (present ∨ ∃ k w, s.workers k = some w ∧ owes w) →
        present ∨ ∃ k w, Function.update s.workers i
          (some ⟨j, .running (is.jobHandler q j).ops⟩) k = some w ∧ owes w :=
      fun idle owed => owed_after owed .inl (acting fun owing => absurd owing idle)
    refine ⟨shape, inv.err, inv.queue, inv.workers_update (by rintro _ ⟨⟩; exact reachJ), ?_, ?_,
      fun h member => covered _ (inv.initial h member), inv.claims, ?_, inv.indexes, ?_⟩
    · intro k member
      rcases Finset.mem_insert.mp member with rfl | old
      · exact ⟨j.id, reachJ, Job.id_key j⟩
      · exact inv.visited k old
    · intro t reach member u successor
      rcases newly t reach member with rfl | old
      · obtain ⟨j', spawned, rfl⟩ := exists_spawn_of_successor serves valid successor
        exact .inr ⟨i, _, running, j', spawned, rfl⟩
      · exact covered u (inv.closed t reach old u successor)
    · intro t c reach member found
      rcases newly t reach member with rfl | old
      · exact .inr ⟨i, _, running,
          (putClaim_mem_jobHandler_ops_iff serves valid).mpr ⟨rfl, found⟩⟩
      · exact done id (inv.claimsDone t c reach old found)
    · intro t k reach member found
      rcases newly t reach member with rfl | old
      · exact .inr ⟨i, _, running,
          (putIndex_mem_jobHandler_ops_iff serves valid).mpr ⟨rfl, found⟩⟩
      · exact done id (inv.indexesDone t k reach old found)

theorem ClosureInv.perform (serves : Serves is g) (inv : ClosureInv is g q s) {i : Nat} {j : Job}
    {op : Op} {ops : List Op} (busy : s.workers i = some ⟨j, .running (op :: ops)⟩)
    (shape : ShapeInv is q (s.perform i j op ops)) : ClosureInv is g q (s.perform i j op ops) := by
  have reachJ : Reach g q j.id := inv.workers i _ busy
  have valid : j.Valid := inv.shape.workers i _ busy
  have member : op ∈ (is.jobHandler q j).ops :=
    inv.shape.remaining i j _ busy op (List.mem_cons_self _ _)
  have visits : (s.perform i j op ops).qs.visits = s.qs.visits := Op.update_visits op s.qs
  have : ∀ k, k ≠ i → Function.update s.workers i (some ⟨j, .running ops⟩) k = s.workers k :=
    fun k ne => Function.update_noteq ne _ _
  -- what the worker owed through `op` is met by performing it; the rest it still owes
  have acting : ∀ {present' : Prop} {owes : Worker → Prop},
      (owes ⟨j, .running (op :: ops)⟩ → present' ∨ owes ⟨j, .running ops⟩) →
      ∀ w, s.workers i = some w → owes w →
        present' ∨ ∃ k w, (s.perform i j op ops).workers k = some w ∧ owes w := by
    intro _ _ performed w slot owing
    rw [busy] at slot
    cases slot
    exact (performed owing).imp_right fun rest => ⟨i, _, by simp [ParallelState.perform], rest⟩
  have covered : ∀ u, Covered s u → Covered (s.perform i j op ops) u := by
    intro u covered
    refine owed_after covered ?_ (acting ?_)
    · rintro (visited | ⟨j', queued, rfl⟩)
      · exact .inl (.inl (visits ▸ visited))
      · exact .inl (.inr ⟨j', List.mem_append_left _ queued, rfl⟩)
    · rintro ⟨j', listed, rfl⟩
      rcases List.mem_cons.mp listed with here | later
      · exact .inl (.inr ⟨j', List.mem_append_right _ (Op.mem_spawned.mpr here.symm), rfl⟩)
      · exact .inr ⟨j', later, rfl⟩
  have claimDone : ∀ c, ClaimDone g s c → ClaimDone g (s.perform i j op ops) c := by
    intro c done
    refine owed_after done (fun stored => .inl (Op.update_claims_isSome op stored))
      (acting fun owing => ?_)
    rcases List.mem_cons.mp owing with here | later
    · subst here
      exact .inl (Op.update_putClaim_isSome _ _ _)
    · exact .inr later
  have indexDone : ∀ k, IndexDone g s k → IndexDone g (s.perform i j op ops) k := by
    intro k done
    refine owed_after done (fun stored => .inl (Op.update_indexes_isSome op stored))
      (acting fun owing => ?_)
    rcases List.mem_cons.mp owing with here | later
    · subst here
      exact .inl (Op.update_putIndex_isSome _ _ _)
    · exact .inr later
  refine ⟨shape, ?_, ?_, inv.workers_update (by rintro _ ⟨⟩; exact reachJ), visits ▸ inv.visited,
    fun t reach visited u successor => covered u (inv.closed t reach (visits ▸ visited) u successor),
    fun h member => covered _ (inv.initial h member), ?_,
    fun t c reach visited found => claimDone c (inv.claimsDone t c reach (visits ▸ visited) found),
    ?_, fun t k reach visited found => indexDone k (inv.indexesDone t k reach (visits ▸ visited) found)⟩
  · cases op with
    | fail => exact absurd member (fail_not_mem_jobHandler_ops serves valid)
    | _ => rfl
  · intro j' queued
    rcases List.mem_append.mp queued with old | spawned
    · exact inv.queue j' old
    · rw [Op.mem_spawned] at spawned
      subst spawned
      exact .step reachJ (spawn_mem_jobHandler_ops_successor serves valid member)
  · intro c d stored
    rcases Op.update_claims_eq_some stored with old | rfl
    · exact inv.claims c d old
    · obtain ⟨same, found⟩ := (putClaim_mem_jobHandler_ops_iff serves valid).mp member
      exact ⟨same, j.id, reachJ, found⟩
  · intro k index stored
    rcases Op.update_indexes_eq_some stored with old | rfl
    · exact inv.indexes k index old
    · obtain ⟨same, found⟩ := (putIndex_mem_jobHandler_ops_iff serves valid).mp member
      exact ⟨same, j.id, reachJ, found⟩

theorem ClosureInv.finish (inv : ClosureInv is g q s) {i : Nat} {j : Job}
    (busy : s.workers i = some ⟨j, .running []⟩)
    (shape : ShapeInv is q { s with workers := Function.update s.workers i none }) :
    ClosureInv is g q { s with workers := Function.update s.workers i none } := by
  have : ∀ k, k ≠ i → Function.update s.workers i none k = s.workers k :=
    fun k ne => Function.update_noteq ne _ _
  have done : ∀ {present : Prop} {owes : Worker → Prop}, ¬ owes ⟨j, .running []⟩ →
      (present ∨ ∃ k w, s.workers k = some w ∧ owes w) →
      present ∨ ∃ k w, Function.update s.workers i none k = some w ∧ owes w := by
    intro _ _ idle owed
    refine owed_after owed .inl fun w slot owing => ?_
    rw [busy] at slot
    cases slot
    exact absurd owing idle
  exact ⟨shape, inv.err, inv.queue, inv.workers_update (by rintro _ ⟨⟩), inv.visited,
    fun t reach visited u successor => done (by simp [Worker.Owes])
      (inv.closed t reach visited u successor),
    fun h member => done (by simp [Worker.Owes]) (inv.initial h member), inv.claims,
    fun t c reach visited found => done (by simp [Worker.OwesClaim])
      (inv.claimsDone t c reach visited found), inv.indexes,
    fun t k reach visited found => done (by simp [Worker.OwesIndex])
      (inv.indexesDone t k reach visited found)⟩

theorem ClosureInv.step (serves : Serves is g) (wellFormed : WellFormedGraph g q)
    (inv : ClosureInv is g q s) {s' : ParallelState} (step : ParallelStep is concurrency s s') :
    ClosureInv is g q s' := by
  have shape := inv.shape.step step
  cases step with
  | dequeue _ queued _ idle => exact inv.dequeue queued idle shape
  | check _ busy => exact inv.check serves wellFormed busy shape
  | perform _ busy => exact inv.perform serves busy shape
  | finish _ busy => exact inv.finish busy shape

theorem ClosureInv.init : ClosureInv is g q (.init q) where
  shape := .init
  err := rfl
  queue _ member := by
    obtain ⟨h, hashed, rfl⟩ := List.mem_map.mp member
    exact .query hashed
  workers _ _ idle := nomatch idle
  visited _ member := absurd member (Finset.not_mem_empty _)
  closed _ _ visited := absurd visited (Finset.not_mem_empty _)
  initial h member := .inl (.inr ⟨⟨h, none, none, .standard⟩, List.mem_map_of_mem _ member, rfl⟩)
  claims _ _ stored := nomatch stored
  claimsDone _ _ _ visited := absurd visited (Finset.not_mem_empty _)
  indexes _ _ stored := nomatch stored
  indexesDone _ _ _ visited := absurd visited (Finset.not_mem_empty _)

/-- Every state of a parallel run under a backend that serves a well-formed graph satisfies
`ClosureInv`. -/
theorem ParallelRun.closureInv (serves : Serves is g) (wellFormed : WellFormedGraph g q)
    (run : ParallelRun is concurrency q s) : ClosureInv is g q s :=
  run.invariant .init fun _ _ inv _ step => inv.step serves wellFormed step

/-- Once the queue is empty and every worker idle, the visited keys are those of the
reference closure and the shared state holds the reference result. -/
theorem ClosureInv.result (inv : ClosureInv is g q s) (emptied : s.queue = [])
    (idle : ∀ i, s.workers i = none) :
    (∀ k, k ∈ s.qs.visits ↔ ∃ t, Reach g q t ∧ t.key = k) ∧ IsClosureResult g q s.qs.qr := by
  have settled : ∀ {present : Prop} {owes : Worker → Prop},
      (present ∨ ∃ k w, s.workers k = some w ∧ owes w) → present := by
    rintro _ _ (present | ⟨k, w, slot, _⟩)
    · exact present
    · simp [idle k] at slot
  have visitedOf : ∀ u, Covered s u → u.key ∈ s.qs.visits := by
    intro u covered
    rcases settled covered with visited | ⟨_, queued, _⟩
    · exact visited
    · simp [emptied] at queued
  have reached : ∀ t, Reach g q t → t.key ∈ s.qs.visits := by
    intro t reach
    induction reach with
    | query member => exact visitedOf _ (inv.initial _ member)
    | step reach successor ih => exact visitedOf _ (inv.closed _ reach ih _ successor)
  refine ⟨fun k => ⟨inv.visited k, fun ⟨t, reach, same⟩ => same ▸ reached t reach⟩, ?_, ?_⟩
  · intro c d
    refine ⟨inv.claims c d, ?_⟩
    rintro ⟨rfl, t, reach, found⟩
    obtain ⟨d, stored⟩ :=
      Option.isSome_iff_exists.mp (settled (inv.claimsDone t c reach (reached t reach) found))
    rw [stored, (inv.claims c d stored).1]
  · intro k index
    refine ⟨inv.indexes k index, ?_⟩
    rintro ⟨rfl, t, reach, found⟩
    obtain ⟨index, stored⟩ :=
      Option.isSome_iff_exists.mp (settled (inv.indexesDone t k reach (reached t reach) found))
    rw [stored, (inv.indexes k index stored).1]

end Steps

/-! ## Serial runs -/

section Serial

variable {is : IndexingService} {g : ClaimGraph} {q : Query} {finds : List QueryKey}
  {s : WalkState}

/-- Under a backend that serves a graph, no serial run fails. -/
theorem SerialRun.err_eq_none (serves : Serves is g) (run : SerialRun (· = is) (.init q) finds s) :
    s.err = none := by
  induction run with
  | refl => rfl
  | step run allowed _ pending _ =>
    subst allowed
    refine Option.eq_none_iff_forall_not_mem.mpr fun e failed => ?_
    exact fail_not_mem_jobHandler_ops serves (run.pending_valid _ pending)
      (WalkState.fail_mem_of_handle_err failed)

/-- Every state of a serial run satisfies the invariant of the parallel run it is. -/
theorem SerialRun.closureInv (serves : Serves is g) (wellFormed : WellFormedGraph g q)
    (run : SerialRun (· = is) (.init q) finds s) : ClosureInv is g q s.toParallel :=
  ParallelRun.closureInv serves wellFormed
    (run.toParallel (show 0 < 1 from Nat.one_pos) (run.err_eq_none serves))

end Serial

end Indexing
