import Mathlib.Data.List.Basic

/-!
# Multihashes as a prefix code

A multihash is the byte string `varint code ++ varint length ++ digest`.  The query engine
builds job keys by concatenating multihashes with other byte strings, so whether two keys
can collide depends on the multihash format.  This file models the decoder that
`go-multihash` runs when a byte slice is cast to a multihash (`Cast`, `decode`,
`readMultihashFromBuf`, and `go-varint`'s `FromUvarint` underneath), and proves that the
decoder reads only a prefix of its input.  Consequently well-formed multihashes form a
prefix code: `a ++ x = b ++ y` forces `a = b`.
-/

namespace Indexing

/-- Go byte slices and byte strings. -/
abbrev Bytes := List UInt8

namespace Multihash

/-- The errors `FromUvarint` and the multihash decoder report. -/
inductive DecodeError
  | overflow
  | notMinimal
  | underflow
  | tooShort
  | varintBufferShort
  | digestTooLong
  | lengthGreater
  | inconsistentLen
  deriving DecidableEq, Repr

/-- The loop of `varint.FromUvarint` after reading `i` bytes into `x`, next shift `s`;
it returns the value and the number of bytes read.  At most nine bytes are read
(`MaxLenUvarint63`), and a zero final byte after the first is not minimal. -/
def fromUvarintLoop (i s x : Nat) : Bytes → Except DecodeError (Nat × Nat)
  | [] => .error .underflow
  | b :: buf =>
    if (i == 8 && b ≥ 0x80) || i ≥ 9 then .error .overflow
    else if b < 0x80 then
      if b == 0 && s > 0 then .error .notMinimal
      else .ok (x ||| (b.toNat <<< s), i + 1)
    else fromUvarintLoop (i + 1) (s + 7) (x ||| ((b &&& 0x7f).toNat <<< s)) buf

/-- `varint.FromUvarint`. -/
def fromUvarint (buf : Bytes) : Except DecodeError (Nat × Nat) :=
  fromUvarintLoop 0 0 0 buf

/-- `go-multihash`'s `uvarint`: read one varint and return the rest of the buffer.  The
negative-count branch of the source cannot arise from `FromUvarint`. -/
def uvarint (buf : Bytes) : Except DecodeError (Nat × Bytes) := do
  let (n, c) ← fromUvarint buf
  if c = 0 then throw .varintBufferShort
  return (n, buf.drop c)

/-- `readMultihashFromBuf`: the advertised length of the multihash, its code and digest. -/
def readMultihashFromBuf (buf : Bytes) : Except DecodeError (Nat × Nat × Bytes) := do
  if buf.length < 2 then throw .tooShort
  let (code, rest) ← uvarint buf
  let (length, rest) ← uvarint rest
  if length > 2147483647 then throw .digestTooLong
  if length > rest.length then throw .lengthGreater
  return (buf.length - rest.length + length, code, rest.take length)

/-- A decoded multihash (`DecodedMultihash`, without the code's name). -/
structure Decoded where
  code : Nat
  length : Nat
  digest : Bytes
  deriving DecidableEq, Repr

/-- `decode`: a buffer is a multihash when its advertised length is its whole length. -/
def decode (buf : Bytes) : Except DecodeError Decoded := do
  let (rlen, code, digest) ← readMultihashFromBuf buf
  if buf.length ≠ rlen then throw .inconsistentLen
  return ⟨code, digest.length, digest⟩

/-- `multihash.Cast`. -/
def cast (buf : Bytes) : Except DecodeError Bytes := do
  let _ ← decode buf
  return buf

/-- A byte string that `multihash.Cast` accepts. -/
def WellFormed (mh : Bytes) : Prop :=
  (cast mh).toBool = true

instance (mh : Bytes) : Decidable (WellFormed mh) :=
  inferInstanceAs (Decidable (_ = true))

example : WellFormed [0x00, 0x01, 0x41] := by decide

example : ¬ WellFormed [0x00, 0x02, 0x41] := by decide

theorem fromUvarintLoop_append {i s x n c : Nat} {buf : Bytes} (rest : Bytes)
    (read : fromUvarintLoop i s x buf = .ok (n, c)) :
    fromUvarintLoop i s x (buf ++ rest) = .ok (n, c) ∧ i < c ∧ c ≤ i + buf.length := by
  induction buf generalizing i s x with
  | nil => simp [fromUvarintLoop] at read
  | cons b buf ih =>
    rw [List.cons_append]
    simp only [fromUvarintLoop, List.length_cons] at read ⊢
    split at read
    · cases read
    rename_i inRange
    rw [if_neg inRange]
    split at read
    · rename_i last
      rw [if_pos last]
      split at read
      · cases read
      · rename_i minimal
        cases read
        exact ⟨by rw [if_neg minimal], by omega, by omega⟩
    · rename_i more
      obtain ⟨appended, lower, upper⟩ := ih read
      rw [if_neg more]
      exact ⟨appended, by omega, by omega⟩

theorem uvarint_append {n : Nat} {buf rem : Bytes} (rest : Bytes)
    (read : uvarint buf = .ok (n, rem)) :
    uvarint (buf ++ rest) = .ok (n, rem ++ rest) ∧ rem.length < buf.length := by
  simp only [uvarint, fromUvarint, bind, Except.bind] at read ⊢
  split at read
  · cases read
  rename_i result heq
  obtain ⟨appended, lower, upper⟩ := fromUvarintLoop_append rest heq
  rw [appended]
  simp only [pure, Except.pure] at read ⊢
  split at read
  · cases read
  rename_i nonzero
  rw [if_neg nonzero]
  simp only [Except.ok.injEq, Prod.mk.injEq] at read
  obtain ⟨rfl, rfl⟩ := read
  rw [List.drop_append_of_le_length (by omega)]
  exact ⟨rfl, by simp only [List.length_drop]; omega⟩

/-- The decoder reads only the multihash at the front of its buffer. -/
theorem readMultihashFromBuf_append {buf : Bytes} {result : Nat × Nat × Bytes}
    (rest : Bytes) (read : readMultihashFromBuf buf = .ok result) :
    readMultihashFromBuf (buf ++ rest) = .ok result := by
  simp only [readMultihashFromBuf, bind, Except.bind, pure, Except.pure] at read ⊢
  split at read
  · cases read
  rename_i long
  rw [if_neg (by simp only [List.length_append]; omega)]
  split at read
  · cases read
  rename_i first code firstRead
  obtain ⟨codeAppended, codeShorter⟩ := uvarint_append rest firstRead
  rw [codeAppended]
  split at read
  · cases read
  rename_i second length secondRead
  obtain ⟨lengthAppended, lengthShorter⟩ := uvarint_append rest secondRead
  rw [lengthAppended]
  simp only [List.length_append] at read ⊢
  split at read
  · cases read
  rename_i notTooLong
  rw [if_neg notTooLong]
  split at read
  · cases read
  rename_i fits
  rw [if_neg (by omega), ← read, List.take_append_of_le_length (by omega)]
  congr 2
  omega

theorem readMultihashFromBuf_of_wellFormed {mh : Bytes} (wellFormed : WellFormed mh) :
    ∃ code digest, readMultihashFromBuf mh = .ok (mh.length, code, digest) := by
  simp only [WellFormed, cast, decode, bind, Except.bind, pure, Except.pure] at wellFormed
  split at wellFormed
  · cases wellFormed
  rename_i decoded decodeOk
  split at decodeOk
  · cases decodeOk
  rename_i result read
  split at decodeOk
  · cases decodeOk
  rename_i sameLength
  exact ⟨result.2.1, result.2.2, by rw [read, of_not_not sameLength]⟩

/-- Well-formed multihashes form a prefix code. -/
theorem append_inj_of_wellFormed {a b x y : Bytes} (wellFormedA : WellFormed a)
    (wellFormedB : WellFormed b) (same : a ++ x = b ++ y) : a = b ∧ x = y := by
  obtain ⟨codeA, digestA, readA⟩ := readMultihashFromBuf_of_wellFormed wellFormedA
  obtain ⟨codeB, digestB, readB⟩ := readMultihashFromBuf_of_wellFormed wellFormedB
  have lengths : a.length = b.length := by
    have readBoth := (readMultihashFromBuf_append x readA).symm.trans
      (same ▸ readMultihashFromBuf_append y readB)
    simp only [Except.ok.injEq, Prod.mk.injEq] at readBoth
    exact readBoth.1
  exact List.append_inj same lengths

/-- `Cast` returns a well-formed multihash unchanged. -/
theorem cast_of_wellFormed {mh : Bytes} (wellFormed : WellFormed mh) : cast mh = .ok mh := by
  unfold WellFormed cast at *
  cases decoded : decode mh <;> simp_all [bind, Except.bind, Except.toBool, pure, Except.pure]

/-- `Cast` accepts only well-formed multihashes, and returns them unchanged. -/
theorem eq_of_cast_eq_ok {buf mh : Bytes} (read : cast buf = .ok mh) : mh = buf ∧ WellFormed buf := by
  refine ⟨?_, by rw [WellFormed, read]; rfl⟩
  unfold cast at read
  cases decoded : decode buf <;> simp_all [bind, Except.bind, pure, Except.pure]

theorem ne_nil_of_wellFormed {mh : Bytes} (wellFormed : WellFormed mh) : mh ≠ [] := by
  rintro rfl
  exact absurd wellFormed (by decide)

end Multihash

end Indexing
