import IndexingService.Types

/-!
# Job keys

`job.key` concatenates a job's multihash, the name of its type and the multihash it
indexes, with no separator between them.  The handler deduplicates on this key, and the
specification wants it to identify the triple `(mh, jobType, indexForMh)`.  On triples whose
multihashes are well formed it does: well-formed multihashes are a prefix code, and the
three type names start with different letters.
-/

namespace Indexing

/-- The triple `(mh, jobType, indexForMh)` that identifies a job for deduplication. -/
structure JobId where
  mh : Multihash
  jobType : JobType
  indexForMh : Option Multihash
  deriving DecidableEq, Repr

/-- A job's triple. -/
def Job.id (j : Job) : JobId :=
  ⟨j.mh, j.jobType, j.indexForMh⟩

/-- The key of every job with this triple. -/
def JobId.key (t : JobId) : JobKey :=
  t.mh ++ goBytes t.jobType.toString ++ t.indexForMh.getD []

@[simp] theorem Job.id_key (j : Job) : j.id.key = j.key := by
  unfold Job.key JobId.key Job.id
  cases j.indexForMh <;> simp

/-- A triple whose multihashes are well formed. -/
def JobId.WellFormed (t : JobId) : Prop :=
  Multihash.WellFormed t.mh ∧ ∀ m ∈ t.indexForMh, Multihash.WellFormed m

theorem jobType_bytes_head_ne :
    ∀ a b : JobType, a ≠ b → (goBytes a.toString).head? ≠ (goBytes b.toString).head? := by
  intro a b
  cases a <;> cases b <;> decide

theorem jobType_bytes_ne_nil (a : JobType) : goBytes a.toString ≠ [] := by
  cases a <;> decide

/-- The type names are a prefix code too: none starts another's first letter. -/
theorem jobType_append_inj {a b : JobType} {x y : Bytes}
    (same : goBytes a.toString ++ x = goBytes b.toString ++ y) : a = b ∧ x = y := by
  have heads := congrArg List.head? same
  obtain ⟨headA, restA, bytesA⟩ := List.exists_cons_of_ne_nil (jobType_bytes_ne_nil a)
  obtain ⟨headB, restB, bytesB⟩ := List.exists_cons_of_ne_nil (jobType_bytes_ne_nil b)
  have sameType : a = b := by
    by_contra different
    apply jobType_bytes_head_ne a b different
    simpa [bytesA, bytesB] using heads
  subst sameType
  exact ⟨rfl, List.append_cancel_left same⟩

/-- `job.key` identifies the triple of a job whose multihashes are well formed. -/
theorem JobId.key_injective {t u : JobId} (wellFormedT : t.WellFormed)
    (wellFormedU : u.WellFormed) (same : t.key = u.key) : t = u := by
  simp only [JobId.key, List.append_assoc] at same
  obtain ⟨sameMh, rest⟩ :=
    Multihash.append_inj_of_wellFormed wellFormedT.1 wellFormedU.1 same
  obtain ⟨sameType, sameIndex⟩ := jobType_append_inj rest
  have indexed : t.indexForMh = u.indexForMh := by
    cases indexT : t.indexForMh <;> cases indexU : u.indexForMh <;>
      simp only [indexT, indexU, Option.getD_none, Option.getD_some] at sameIndex ⊢
    · exact absurd sameIndex.symm (Multihash.ne_nil_of_wellFormed (wellFormedU.2 _ indexU))
    · exact absurd sameIndex (Multihash.ne_nil_of_wellFormed (wellFormedT.2 _ indexT))
    · exact congrArg some sameIndex
  cases t
  cases u
  simp_all

end Indexing
