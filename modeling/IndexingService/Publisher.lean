import IndexingService.Types

/-!
# Reading an advertisement's entries

`publisher.Entries` walks the chain of entry chunks from a root link: it reads each chunk
from the datastore under `/cache/links`, decodes it, hands each multihash to the consumer's
`yield`, and follows `Next` until it is nil.  A failed read or decoding is handed to `yield`
once, as an error, and ends the walk; so does a `yield` that answers false.  A chain may loop,
so the walk is run here with fuel, a bound on the chunks it reads, and a run that has not
returned is one the fuel cut short.  The consumer is any function of the calls it has seen
and the current call.
-/

namespace Indexing.Publisher

/-- The pair handed to `yield`: a multihash with a nil error, or a nil multihash with an
error. -/
inductive Yielded
  | entry (mh : Multihash)
  | error (message : String)
  deriving DecidableEq, Repr

/-- `schema.EntryChunk`, as far as `Entries` reads it. -/
structure EntryChunk (Link : Type) where
  entries : List Multihash
  next : Option Link

/-- `linksCachePath`. -/
def linksCachePath : String :=
  "/cache/links"

/-- `datastore.Key.ChildString`, without the `path.Clean` that leaves CID strings as they
are. -/
def childString (key child : String) : String :=
  key ++ "/" ++ child

section Entries

variable {Link : Type} (get : String → Except String Bytes)
  (bytesToEntryChunk : Link → Bytes → Except String (EntryChunk Link))
  (linkString : Link → String) (yield : List Yielded → Yielded → Bool)

/-- The loop over one chunk's entries, from the calls made so far: the calls after it, and
whether every `yield` answered true. -/
def yieldEntries : List Yielded → List Multihash → List Yielded × Bool
  | calls, [] => (calls, true)
  | calls, d :: ds =>
    if yield calls (.entry d) then yieldEntries (calls ++ [.entry d]) ds
    else (calls ++ [.entry d], false)

/-- `Entries` from link `cur`, reading at most `fuel` chunks: the calls to `yield`, and
whether the walk returned. -/
def entriesLoop : Nat → Option Link → List Yielded → List Yielded × Bool
  | 0, _, calls => (calls, false)
  | _ + 1, none, calls => (calls, true)
  | fuel + 1, some cur, calls =>
    match get (childString linksCachePath (linkString cur)) with
    | .error err => (calls ++ [.error err], true)
    | .ok v =>
      match bytesToEntryChunk cur v with
      | .error err => (calls ++ [.error err], true)
      | .ok ent =>
        match yieldEntries yield calls ent.entries with
        | (calls, false) => (calls, true)
        | (calls, true) => entriesLoop fuel ent.next calls

/-- `Entries(ctx, ds, root)` ranged over by `yield`, reading at most `fuel` chunks. -/
def entries (root : Option Link) (fuel : Nat) : List Yielded × Bool :=
  entriesLoop get bytesToEntryChunk linkString yield fuel root []

end Entries

/-! ## The iterator protocol -/

section Protocol

variable (yield : List Yielded → Yielded → Bool)

/-- Every call so far handed over a multihash and was answered true: the consumer is still
ranging. -/
def Open (calls : List Yielded) : Prop :=
  ∀ i (h : i < calls.length), (∃ mh, calls[i] = .entry mh) ∧ yield (calls.take i) calls[i] = true

/-- The iterator protocol: a call that `yield` answered false, or that handed over an error,
is the last call.  So an error is handed over at most once. -/
def Obeys (calls : List Yielded) : Prop :=
  ∀ i (h : i < calls.length),
    (yield (calls.take i) calls[i] = false ∨ ∃ e, calls[i] = .error e) → i + 1 = calls.length

variable {yield} {calls : List Yielded}

theorem Open.nil : Open yield [] :=
  fun _ bound => absurd bound (Nat.not_lt_zero _)

theorem Open.obeys (opened : Open yield calls) : Obeys yield calls := by
  rintro i bound (stopped | ⟨e, failed⟩)
  · rw [(opened i bound).2] at stopped
    cases stopped
  · obtain ⟨mh, entry⟩ := (opened i bound).1
    rw [entry] at failed
    cases failed

/-- After calls that kept the consumer ranging, any one call more obeys the protocol. -/
theorem Open.obeys_append (opened : Open yield calls) (last : Yielded) :
    Obeys yield (calls ++ [last]) := by
  intro i bound ended
  rw [List.length_append, List.length_singleton] at bound ⊢
  rcases Nat.lt_succ_iff_lt_or_eq.mp bound with earlier | rfl
  · have before := opened i earlier
    rw [List.getElem_append_left earlier, List.take_append_of_le_length earlier.le] at ended
    rcases ended with stopped | ⟨e, failed⟩
    · rw [before.2] at stopped
      cases stopped
    · obtain ⟨mh, entry⟩ := before.1
      rw [entry] at failed
      cases failed
  · rfl

theorem Open.append (opened : Open yield calls) {mh : Multihash}
    (answered : yield calls (.entry mh) = true) : Open yield (calls ++ [.entry mh]) := by
  intro i bound
  rw [List.length_append, List.length_singleton] at bound
  rcases Nat.lt_succ_iff_lt_or_eq.mp bound with earlier | rfl
  · rw [List.getElem_append_left earlier, List.take_append_of_le_length earlier.le]
    exact opened i earlier
  · rw [List.getElem_append_right (le_refl _), List.take_left' rfl]
    simpa using answered

/-- Under the protocol an error is handed over at most once. -/
theorem Obeys.error_unique (obeys : Obeys yield calls) {i j : Nat} (boundI : i < calls.length)
    (boundJ : j < calls.length) (errorI : ∃ e, calls[i] = .error e)
    (errorJ : ∃ e, calls[j] = .error e) : i = j := by
  have lastI := obeys i boundI (.inr errorI)
  have lastJ := obeys j boundJ (.inr errorJ)
  omega

end Protocol

section Walk

variable {Link : Type} {get : String → Except String Bytes}
  {bytesToEntryChunk : Link → Bytes → Except String (EntryChunk Link)}
  {linkString : Link → String} {yield : List Yielded → Yielded → Bool}

/-- The loop over one chunk's entries obeys the protocol, and keeps the consumer ranging when
it reports that every `yield` answered true. -/
theorem yieldEntries_obeys {calls : List Yielded} (opened : Open yield calls)
    (ds : List Multihash) :
    Obeys yield (yieldEntries yield calls ds).1 ∧
      ((yieldEntries yield calls ds).2 = true → Open yield (yieldEntries yield calls ds).1) := by
  induction ds generalizing calls with
  | nil => exact ⟨opened.obeys, fun _ => opened⟩
  | cons d ds ih =>
    unfold yieldEntries
    by_cases answered : yield calls (.entry d)
    · rw [if_pos answered]
      exact ih (opened.append answered)
    · rw [if_neg answered]
      exact ⟨opened.obeys_append _, fun stopped => nomatch stopped⟩

/-- Whatever the fuel, the walk from calls that kept the consumer ranging obeys the
protocol. -/
theorem entriesLoop_obeys (fuel : Nat) :
    ∀ (cur : Option Link) {calls : List Yielded}, Open yield calls →
      Obeys yield (entriesLoop get bytesToEntryChunk linkString yield fuel cur calls).1 := by
  induction fuel with
  | zero => exact fun _ _ opened => opened.obeys
  | succ fuel ih =>
    intro cur calls opened
    cases cur with
    | none => exact opened.obeys
    | some cur =>
      simp only [entriesLoop]
      split
      · exact opened.obeys_append _
      split
      · exact opened.obeys_append _
      rename_i ent _
      have entries := yieldEntries_obeys opened ent.entries
      split
      · rename_i after stopped
        simpa only [stopped] using entries.1
      · rename_i after ranging
        rw [ranging] at entries
        exact ih ent.next (entries.2 rfl)

/-- The loop over one chunk's entries hands the consumer a prefix of them, all of them when
it reports that every `yield` answered true. -/
theorem yieldEntries_prefix_handed (calls : List Yielded) (ds : List Multihash) :
    ∃ handed, (yieldEntries yield calls ds).1 = calls ++ handed ∧ handed <+: ds.map .entry ∧
      ((yieldEntries yield calls ds).2 = true → handed = ds.map .entry) := by
  induction ds generalizing calls with
  | nil => exact ⟨[], by simp [yieldEntries], List.nil_prefix, fun _ => rfl⟩
  | cons d ds ih =>
    unfold yieldEntries
    by_cases answered : yield calls (.entry d)
    · rw [if_pos answered]
      obtain ⟨handed, walked, within, complete⟩ := ih (calls ++ [.entry d])
      exact ⟨.entry d :: handed, by simp [walked], (List.prefix_cons_inj _).mpr within,
        fun ranging => by rw [complete ranging, List.map_cons]⟩
    · rw [if_neg answered]
      exact ⟨[.entry d], rfl, (List.prefix_cons_inj _).mpr List.nil_prefix, fun stopped => nomatch stopped⟩

theorem yieldEntries_of_always (always : ∀ calls y, yield calls y = true)
    (calls : List Yielded) (ds : List Multihash) :
    yieldEntries yield calls ds = (calls ++ ds.map .entry, true) := by
  induction ds generalizing calls with
  | nil => simp [yieldEntries]
  | cons d ds ih => simp [yieldEntries, always, ih]

end Walk

section Chain

variable {Link : Type} (get : String → Except String Bytes)
  (bytesToEntryChunk : Link → Bytes → Except String (EntryChunk Link))
  (linkString : Link → String)

/-- The chain of chunks from a link: the chunks read and decoded in order, and the error of
the read or the decoding that ends it, or none when it ends at a nil `Next`. -/
inductive Chain : Option Link → List (EntryChunk Link) → Option String → Prop
  | last : Chain none [] none
  | missing {cur : Link} {err : String} :
    get (childString linksCachePath (linkString cur)) = .error err →
      Chain (some cur) [] (some err)
  | undecodable {cur : Link} {v : Bytes} {err : String} :
    get (childString linksCachePath (linkString cur)) = .ok v →
      bytesToEntryChunk cur v = .error err → Chain (some cur) [] (some err)
  | chunk {cur : Link} {v : Bytes} {ent : EntryChunk Link} {chunks : List (EntryChunk Link)}
      {err : Option String} :
    get (childString linksCachePath (linkString cur)) = .ok v →
      bytesToEntryChunk cur v = .ok ent → Chain ent.next chunks err →
        Chain (some cur) (ent :: chunks) err

variable {get bytesToEntryChunk linkString} {yield : List Yielded → Yielded → Bool}

/-- Whatever the consumer, with fuel for one step more than the chain has chunks, the walk
returns, having handed over a prefix of the chain's entries in order followed by its error,
and all of them to a consumer that always ranges on. -/
theorem entriesLoop_of_chain {cur : Option Link} {chunks : List (EntryChunk Link)}
    {err : Option String} (chain : Chain get bytesToEntryChunk linkString cur chunks err) :
    ∀ (calls : List Yielded) (fuel : Nat), chunks.length < fuel → ∃ handed,
      entriesLoop get bytesToEntryChunk linkString yield fuel cur calls = (calls ++ handed, true) ∧
        handed <+: (chunks.flatMap EntryChunk.entries).map .entry ++ err.toList.map .error ∧
        ((∀ calls y, yield calls y = true) →
          handed = (chunks.flatMap EntryChunk.entries).map .entry ++ err.toList.map .error) := by
  induction chain with
  | last =>
    rintro calls (_ | fuel) enough
    · cases enough
    · exact ⟨_, by simp [entriesLoop], List.prefix_refl _, fun _ => rfl⟩
  | missing read =>
    rintro calls (_ | fuel) enough
    · cases enough
    · exact ⟨_, by simp [entriesLoop, read], List.prefix_refl _, fun _ => rfl⟩
  | undecodable read decoded =>
    rintro calls (_ | fuel) enough
    · cases enough
    · exact ⟨_, by simp [entriesLoop, read, decoded], List.prefix_refl _, fun _ => rfl⟩
  | @chunk cur v ent chunks err read decoded _ ih =>
    rintro calls (_ | fuel) enough
    · cases enough
    simp only [List.length_cons, Nat.succ_lt_succ_iff] at enough
    obtain ⟨handed, walked, within, complete⟩ := @yieldEntries_prefix_handed yield calls ent.entries
    simp only [entriesLoop, read, decoded, List.flatMap_cons, List.map_append, List.append_assoc]
    rcases result : yieldEntries yield calls ent.entries with ⟨after, _ | _⟩ <;>
      rw [result] at walked complete <;> dsimp only at walked complete
    · refine ⟨handed, by rw [← walked], within.trans (List.prefix_append _ _), fun always => ?_⟩
      rw [yieldEntries_of_always always] at result
      cases result
    · obtain ⟨rest, walkedOn, restWithin, restAll⟩ := ih after fuel enough
      refine ⟨handed ++ rest, ?_, ?_, fun always => by rw [complete rfl, restAll always]⟩
      · show entriesLoop get bytesToEntryChunk linkString yield fuel ent.next after = _
        rw [walkedOn, walked, List.append_assoc]
      · rw [complete rfl]
        exact (List.prefix_append_right_inj _).mpr restWithin

end Chain

/-- A datastore holding two chunks, `a` then `b`, whose `Next` link `c` it lacks. -/
def twoChunkStore (key : String) : Except String Bytes :=
  if key = "/cache/links/a" then .ok [1]
  else if key = "/cache/links/b" then .ok [2]
  else .error "datastore: key not found"

/-- The decoder of the chunks of `twoChunkStore`. -/
def twoChunkDecoder (_ : String) (v : Bytes) : Except String (EntryChunk String) :=
  if v = [1] then .ok ⟨[[0, 1, 0x41], [0, 1, 0x42]], some "b"⟩
  else if v = [2] then .ok ⟨[[0, 1, 0x43]], some "c"⟩
  else .error "not an entry chunk"

theorem twoChunkStore_chain :
    Chain twoChunkStore twoChunkDecoder id (some "a")
      [⟨[[0, 1, 0x41], [0, 1, 0x42]], some "b"⟩, ⟨[[0, 1, 0x43]], some "c"⟩]
      (some "datastore: key not found") :=
  .chunk rfl rfl (.chunk rfl rfl (.missing rfl))

/-- For every datastore, decoder, root and consumer, and whatever fuel, `Entries` calls
`yield` by the iterator protocol; and on a chain that ends after finitely many chunks at a nil
`Next` or at a missing or undecodable chunk, a consumer that always ranges on is handed every
entry in order and then the error, if there is one, and the walk returns. -/
theorem entries_obey_protocol_and_yield_chain {Link : Type}
    (get : String → Except String Bytes)
    (bytesToEntryChunk : Link → Bytes → Except String (EntryChunk Link))
    (linkString : Link → String) (root : Option Link) :
    (∀ yield fuel, Obeys yield (entries get bytesToEntryChunk linkString yield root fuel).1) ∧
    ∀ chunks err, Chain get bytesToEntryChunk linkString root chunks err →
      ∀ yield : List Yielded → Yielded → Bool, (∀ calls y, yield calls y = true) →
        ∀ fuel, chunks.length < fuel →
          entries get bytesToEntryChunk linkString yield root fuel =
            ((chunks.flatMap EntryChunk.entries).map .entry ++ err.toList.map .error, true) :=
  ⟨fun _ fuel => entriesLoop_obeys fuel root Open.nil,
    fun _ _ chain _ always fuel enough => by
      obtain ⟨handed, walked, _, all⟩ := entriesLoop_of_chain chain [] fuel enough
      rw [entries, walked, all always, List.nil_append]⟩

/-- Its walk from `a`: three entries, then the missing chunk. -/
theorem two_chunk_entries_then_missing :
    Chain twoChunkStore twoChunkDecoder id (some "a")
        [⟨[[0, 1, 0x41], [0, 1, 0x42]], some "b"⟩, ⟨[[0, 1, 0x43]], some "c"⟩]
        (some "datastore: key not found") ∧
      entries twoChunkStore twoChunkDecoder id (fun _ _ => true) (some "a") 3 =
        ([.entry [0, 1, 0x41], .entry [0, 1, 0x42], .entry [0, 1, 0x43],
          .error "datastore: key not found"], true) :=
  ⟨twoChunkStore_chain, (entries_obey_protocol_and_yield_chain twoChunkStore twoChunkDecoder id
    (some "a")).2 _ _ twoChunkStore_chain _ (fun _ _ => rfl) 3 (by decide)⟩

/-- Whatever the consumer, on a chain that ends after finitely many chunks at a nil `Next` or
at a missing or undecodable chunk, the walk returns with fuel for one step more than the chain
has chunks, having handed over a prefix of the chain's entries in order followed by its
error. -/
theorem entries_prefix_of_chain {Link : Type} {get : String → Except String Bytes}
    {bytesToEntryChunk : Link → Bytes → Except String (EntryChunk Link)}
    {linkString : Link → String} {root : Option Link} {chunks : List (EntryChunk Link)}
    {err : Option String} (chain : Chain get bytesToEntryChunk linkString root chunks err)
    (yield : List Yielded → Yielded → Bool) {fuel : Nat} (enough : chunks.length < fuel) :
    ∃ handed, entries get bytesToEntryChunk linkString yield root fuel = (handed, true) ∧
      handed <+: (chunks.flatMap EntryChunk.entries).map .entry ++ err.toList.map .error := by
  obtain ⟨handed, walked, within, _⟩ := entriesLoop_of_chain chain [] fuel enough
  exact ⟨handed, by rw [entries, walked, List.nil_append], within⟩

/-- Its walk from `a` for a consumer that stops at the second entry. -/
theorem two_chunk_entries_stopped_early :
    Chain twoChunkStore twoChunkDecoder id (some "a")
        [⟨[[0, 1, 0x41], [0, 1, 0x42]], some "b"⟩, ⟨[[0, 1, 0x43]], some "c"⟩]
        (some "datastore: key not found") ∧
      ∃ handed, entries twoChunkStore twoChunkDecoder id (fun calls _ => calls.length < 1)
          (some "a") 3 = (handed, true) ∧
        handed <+: [.entry [0, 1, 0x41], .entry [0, 1, 0x42], .entry [0, 1, 0x43],
          .error "datastore: key not found"] :=
  ⟨twoChunkStore_chain, entries_prefix_of_chain twoChunkStore_chain _ (by decide)⟩

end Indexing.Publisher
