import IndexingService.Correctness
import Mathlib.Data.Finset.Option
import Mathlib.Data.Finset.Prod
import Mathlib.Data.Fintype.Card
import Mathlib.Data.Prod.Lex
import Mathlib.Order.OrderIsoNat
import Mathlib.Tactic.Ring

/-!
# Termination of serial runs

The visit set only grows, and a step either adds a key to it or drops a pending job without
spawning any.  When every job of every run has its key in a finite set `K`, the pair (keys of
`K` not yet visited, pending jobs) decreases lexicographically at each step: no serial run is
infinite, each makes at most `K.card` `Find` calls, and under collaborators that never fail
each extends to one that drains.  Two sets bound the keys: those of the triples over the
multihashes the collaborators mention, and those of a finite reference closure.
-/

namespace Indexing

/-- One step of a serial run. -/
def SerialStep (backend : IndexingService → Prop) (s t : WalkState) : Prop :=
  ∃ is j, backend is ∧ s.err = none ∧ j ∈ s.pending ∧ t = (s.handle is j).1

theorem SerialRun.tail {backend : IndexingService → Prop} {s t u : WalkState}
    {finds : List QueryKey} (run : SerialRun backend s finds t) (step : SerialStep backend t u) :
    ∃ finds', SerialRun backend s finds' u := by
  obtain ⟨_, _, allowed, running, pending, rfl⟩ := step
  exact ⟨_, run.step allowed running pending⟩

/-- A step makes a `Find` call exactly when it adds a key to the visit set. -/
theorem WalkState.handle_card (is : IndexingService) (s : WalkState) (j : Job) :
    (s.handle is j).1.qs.visits.card = s.qs.visits.card + (s.handle is j).2.toList.length := by
  rw [WalkState.handle_visits, WalkState.handle_find]
  by_cases visited : j.key ∈ s.qs.visits
  · simp [visited]
  · simp [visited, Finset.card_insert_of_not_mem]

/-- Every `Find` call of a serial run visits a key not visited before. -/
theorem SerialRun.card_visits {backend : IndexingService → Prop} {s t : WalkState}
    {finds : List QueryKey} (run : SerialRun backend s finds t) :
    t.qs.visits.card = s.qs.visits.card + finds.length := by
  induction run with
  | refl => rfl
  | step _ _ _ _ ih =>
    rw [WalkState.handle_card, ih, List.length_append]
    omega

/-- How far a walk is from its end, given the keys `K` its jobs can have. -/
def WalkState.measure (K : Finset JobKey) (s : WalkState) : ℕ ×ₗ ℕ :=
  toLex (K.card - s.qs.visits.card, s.pending.length)

section Bounded

variable {backend : IndexingService → Prop} {q : Query} {K : Finset JobKey}
  (bounded : ∀ finds s, SerialRun backend (.init q) finds s → ∀ j ∈ s.pending, j.key ∈ K)
include bounded

theorem SerialRun.visits_subset {finds : List QueryKey} {s : WalkState}
    (run : SerialRun backend (.init q) finds s) : s.qs.visits ⊆ K := by
  induction run with
  | refl => exact Finset.empty_subset _
  | step run _ _ pending ih =>
    rw [WalkState.handle_visits]
    exact Finset.insert_subset (bounded _ _ run _ pending) ih

theorem SerialStep.measure_lt {finds : List QueryKey} {s t : WalkState}
    (run : SerialRun backend (.init q) finds s) (step : SerialStep backend s t) :
    t.measure K < s.measure K := by
  obtain ⟨is, j, _, _, pending, rfl⟩ := step
  rw [WalkState.measure, WalkState.measure, Prod.Lex.lt_iff]
  by_cases visited : j.key ∈ s.qs.visits
  · rw [WalkState.handle_of_mem visited]
    have shorter := List.length_erase_of_mem pending
    have nonempty := List.length_pos_of_mem pending
    exact .inr ⟨rfl, by simp only [shorter]; omega⟩
  · have grown : (insert j.key s.qs.visits).card = s.qs.visits.card + 1 :=
      Finset.card_insert_of_not_mem visited
    have within : (insert j.key s.qs.visits).card ≤ K.card :=
      Finset.card_le_card (Finset.insert_subset (bounded _ _ run j pending) (run.visits_subset bounded))
    left
    simp only [WalkState.handle_visits]
    omega

/-- No serial run is infinite. -/
theorem SerialRun.not_infinite :
    ¬ ∃ f : ℕ → WalkState, f 0 = .init q ∧ ∀ n, SerialStep backend (f n) (f (n + 1)) := by
  rintro ⟨f, start, steps⟩
  have reached : ∀ n, ∃ finds, SerialRun backend (.init q) finds (f n) := by
    intro n
    induction n with
    | zero => exact ⟨[], by rw [start]; exact .refl _⟩
    | succ n ih =>
      obtain ⟨_, run⟩ := ih
      exact run.tail (steps n)
  refine (RelEmbedding.natGT (fun n => (f n).measure K) fun n => ?_).not_wellFounded_of_decreasing_seq
    wellFounded_lt
  obtain ⟨_, run⟩ := reached n
  exact (steps n).measure_lt bounded run

/-- Each serial run makes at most one `Find` call per key of `K`. -/
theorem SerialRun.length_le {finds : List QueryKey} {s : WalkState}
    (run : SerialRun backend (.init q) finds s) : finds.length ≤ K.card := by
  have counted := run.card_visits
  have within := Finset.card_le_card (run.visits_subset bounded)
  simp only [WalkState.init, initialState, Finset.card_empty] at counted
  omega

/-- Under any collaborators, every serial run extends to one that has drained or failed. -/
theorem SerialRun.exists_final {is : IndexingService} (available : backend is)
    {finds : List QueryKey} {s : WalkState} (run : SerialRun backend (.init q) finds s) :
    ∃ finds' s', SerialRun backend s finds' s' ∧ (s'.pending = [] ∨ s'.err.isSome) := by
  suffices ∀ m : ℕ ×ₗ ℕ, ∀ finds s, SerialRun backend (.init q) finds s → s.measure K = m →
      ∃ finds' s', SerialRun backend s finds' s' ∧ (s'.pending = [] ∨ s'.err.isSome) from
    this _ finds s run rfl
  intro m
  induction m using WellFoundedLT.induction with
  | _ m ih =>
    intro finds s run measured
    cases running : s.err with
    | some e => exact ⟨[], s, .refl s, .inr (by simp [running])⟩
    | none =>
    cases pending : s.pending with
    | nil => exact ⟨[], s, .refl s, .inl pending⟩
    | cons j _ =>
      have listed : j ∈ s.pending := by simp [pending]
      have step : SerialStep backend s (s.handle is j).1 := ⟨is, j, available, running, listed, rfl⟩
      obtain ⟨finds', s', rest, final⟩ :=
        ih _ (measured ▸ step.measure_lt bounded run) _ _ (run.step available running listed) rfl
      exact ⟨_, s', ((SerialRun.refl s).step available running listed).trans rest, final⟩

/-- Under collaborators that never fail, every serial run extends to one that drains. -/
theorem SerialRun.exists_drained {is : IndexingService} (available : backend is)
    (noError : ∀ finds s, SerialRun backend (.init q) finds s → s.err = none)
    {finds : List QueryKey} {s : WalkState} (run : SerialRun backend (.init q) finds s) :
    ∃ finds' s', SerialRun backend s finds' s' ∧ s'.Drained := by
  obtain ⟨finds', s', rest, final⟩ := run.exists_final bounded available
  have running := noError _ _ (run.trans rest)
  exact ⟨finds', s', rest, final.resolve_right (by simp [running]), running⟩

end Bounded

/-! ## Runs over finitely many multihashes -/

instance : Fintype JobType :=
  ⟨{.standard, .location, .equalsOrLocation}, fun t => by cases t <;> simp⟩

/-- The multihashes of `M` are all that the collaborators of `is` mention: in every record
`Find` returns, the targets of equals and index claims and the context IDs of records with an
equals claim, and the shards of every index the index lookup returns. -/
structure MentionsWithin (is : IndexingService) (M : Finset Multihash) : Prop where
  equals : ∀ k results, is.providerIndex k = .ok results → ∀ r ∈ results, ∀ protocols,
    is.unmarshalMetadata r.metadata = .ok protocols → ∀ equals claim,
      .equalsClaim equals claim ∈ protocols → equals.hash ∈ M ∧ r.contextID ∈ M
  index : ∀ k results, is.providerIndex k = .ok results → ∀ r ∈ results, ∀ protocols,
    is.unmarshalMetadata r.metadata = .ok protocols → ∀ index claim,
      .indexClaim index claim ∈ protocols → index.hash ∈ M
  shards : ∀ contextID record url range index,
    is.blobIndexLookup contextID record url range = .ok index → ∀ entry ∈ index.shards,
      entry.1 ∈ M

/-- A job whose multihashes are in `M`. -/
def Job.Within (M : Finset Multihash) (j : Job) : Prop :=
  j.mh ∈ M ∧ ∀ m ∈ j.indexForMh, m ∈ M

/-- The keys of the triples over `M`. -/
def keysWithin (M : Finset Multihash) : Finset JobKey :=
  (M ×ˢ (Finset.univ : Finset JobType) ×ˢ M.insertNone).image
    fun (mh, jobType, indexForMh) => JobId.key ⟨mh, jobType, indexForMh⟩

theorem card_keysWithin (M : Finset Multihash) :
    (keysWithin M).card ≤ 3 * M.card * (M.card + 1) :=
  calc (keysWithin M).card
      ≤ (M ×ˢ (Finset.univ : Finset JobType) ×ˢ M.insertNone).card := Finset.card_image_le
    _ = M.card * (3 * (M.card + 1)) := by
      rw [Finset.card_product, Finset.card_product, Finset.card_insertNone, Finset.card_univ]
      rfl
    _ = 3 * M.card * (M.card + 1) := by ring

theorem Job.Within.key_mem {M : Finset Multihash} {j : Job} (within : j.Within M) :
    j.key ∈ keysWithin M := by
  rw [← Job.id_key]
  refine Finset.mem_image.mpr ⟨(j.mh, j.jobType, j.indexForMh), ?_, rfl⟩
  simpa only [Finset.mem_product, Finset.mem_univ, Finset.mem_insertNone, true_and] using within

/-- A job over `M` spawns only jobs over `M`. -/
theorem MentionsWithin.spawn {is : IndexingService} {M : Finset Multihash}
    (mentions : MentionsWithin is M) {q : Query} {j j' : Job} (within : j.Within M)
    (member : .spawn j' ∈ (is.jobHandler q j).ops) : j'.Within M := by
  obtain ⟨_, found, r, returned, _, decoded, protocol, listed, rule⟩ :=
    spawn_mem_jobHandler_ops member
  cases protocol with
  | equalsClaim equals claim =>
    obtain ⟨target, context⟩ := mentions.equals _ _ found r returned _ decoded equals claim listed
    subst rule
    exact ⟨by split <;> assumption, by simp⟩
  | indexClaim index claim =>
    subst rule
    exact ⟨mentions.index _ _ found r returned _ decoded index claim listed, by simpa using within.1⟩
  | locationCommitment =>
    obtain ⟨_, _, _, entry, _, _, lookup, present, _, rfl⟩ := rule
    exact ⟨mentions.shards _ _ _ _ _ lookup entry present, by simp⟩
  | other => cases rule

theorem SerialRun.pending_within {backend : IndexingService → Prop} {q : Query}
    {M : Finset Multihash} (hashes : ∀ h ∈ q.hashes, h ∈ M)
    (mentions : ∀ is, backend is → MentionsWithin is M) {finds : List QueryKey} {s : WalkState}
    (run : SerialRun backend (.init q) finds s) : ∀ j ∈ s.pending, j.Within M := by
  refine run.invariant (P := fun u => ∀ j ∈ u.pending, j.Within M) ?_ ?_
  · intro j member
    obtain ⟨h, hashed, rfl⟩ := List.mem_map.mp member
    exact ⟨hashes h hashed, by simp⟩
  · intro is u j allowed _ pending within j' member
    rcases WalkState.mem_handle_pending member with kept | ⟨_, spawned⟩
    · exact within j' kept
    · exact (mentions is allowed).spawn (within j pending) spawned

/-- When the query and the collaborators of every step mention only the multihashes of a
finite set `M`, no serial run is infinite, and each makes at most `3 * |M| * (|M| + 1)`
`Find` calls. -/
theorem serial_run_terminates_within_bound {backend : IndexingService → Prop} {q : Query}
    {M : Finset Multihash} (hashes : ∀ h ∈ q.hashes, h ∈ M)
    (mentions : ∀ is, backend is → MentionsWithin is M) :
    (¬ ∃ f : ℕ → WalkState, f 0 = .init q ∧ ∀ n, SerialStep backend (f n) (f (n + 1))) ∧
      ∀ finds s, SerialRun backend (.init q) finds s → finds.length ≤ 3 * M.card * (M.card + 1) := by
  have bounded : ∀ finds s, SerialRun backend (.init q) finds s →
      ∀ j ∈ s.pending, j.key ∈ keysWithin M :=
    fun _ _ run j pending => (run.pending_within hashes mentions j pending).key_mem
  exact ⟨SerialRun.not_infinite bounded,
    fun _ _ run => (run.length_le bounded).trans (card_keysWithin M)⟩

/-- The multihashes the sample backend mentions. -/
def Sample.mentioned : Finset Multihash :=
  {Sample.hashA, Sample.hashB, Sample.hashI, Sample.hashS, Sample.hashT}

theorem Sample.service_mentionsWithin : MentionsWithin Sample.service Sample.mentioned := by
  refine ⟨fun _ _ found r returned _ decoded equals claim listed => ?_,
    fun _ _ found r returned _ decoded index claim listed => ?_,
    fun _ _ _ _ _ lookup entry listed => ?_⟩
  · cases found
    cases decoded
    rcases Sample.mem_records returned with rfl | rfl | rfl | rfl <;>
      simp [Sample.protocols] at listed
    all_goals (obtain ⟨rfl, rfl⟩ := listed; decide)
  · cases found
    cases decoded
    rcases Sample.mem_records returned with rfl | rfl | rfl | rfl <;>
      simp [Sample.protocols] at listed
    obtain ⟨rfl, rfl⟩ := listed
    decide
  · cases lookup
    dsimp only [Sample.index] at listed
    split_ifs at listed
    · simp only [List.mem_cons, List.not_mem_nil, or_false] at listed
      rcases listed with rfl | rfl <;> decide
    · cases listed

/-- The sample query, whose backend mentions five multihashes. -/
theorem sample_run_within_bound :
    (∀ h ∈ Sample.query.hashes, h ∈ Sample.mentioned) ∧
      (∀ is, is = Sample.service → MentionsWithin is Sample.mentioned) ∧
      (¬ ∃ f : ℕ → WalkState, f 0 = .init Sample.query ∧
        ∀ n, SerialStep (· = Sample.service) (f n) (f (n + 1))) ∧
      ∀ finds s, SerialRun (· = Sample.service) (.init Sample.query) finds s →
        finds.length ≤ 3 * Sample.mentioned.card * (Sample.mentioned.card + 1) := by
  have hashes : ∀ h ∈ Sample.query.hashes, h ∈ Sample.mentioned := by decide
  have mentions : ∀ is, is = Sample.service → MentionsWithin is Sample.mentioned :=
    fun _ same => same ▸ Sample.service_mentionsWithin
  exact ⟨hashes, mentions, serial_run_terminates_within_bound hashes mentions⟩

end Indexing
