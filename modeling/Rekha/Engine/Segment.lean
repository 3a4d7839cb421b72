import Mathlib.Data.List.Basic
import Rekha.Core.Types

/-!
# Vector segments

A segment file is a header and one flat row-major block of floats; a row is the
slice its index and the dimension cut out. `SegmentWriter` accumulates the
block; pushing a vector of another length is a panic, modelled by `none`.
-/

namespace Rekha

/-- An immutable vector segment; the block has exactly `count` rows. -/
structure Segment where
  dimension : ℕ
  count : ℕ
  vectors : List F32
  size : vectors.length = count * dimension

/-- A single vector by its sequential index. -/
def Segment.getVector (s : Segment) (index : ℕ) : Option Embedding :=
  if s.count ≤ index then none
  else some ((s.vectors.drop (index * s.dimension)).take s.dimension)

/-- Accumulates vectors of one dimension. -/
structure SegmentWriter where
  dimension : ℕ
  vectors : List F32
  count : ℕ
  size : vectors.length = count * dimension

namespace SegmentWriter

/-- The dimension is truncated to `u32`. -/
def new (dimension : ℕ) : SegmentWriter :=
  ⟨dimension % 2 ^ 32, [], 0, by simp⟩

/-- Append a vector; `none` where the source panics. -/
def push (w : SegmentWriter) (embedding : Embedding) : Option SegmentWriter :=
  if h : embedding.length = w.dimension then
    some ⟨w.dimension, w.vectors ++ embedding, w.count + 1, by
      rw [List.length_append, w.size, h, Nat.add_mul, Nat.one_mul]⟩
  else none

/-- The segment a reader maps after the writer is done. -/
def write (w : SegmentWriter) : Segment := ⟨w.dimension, w.count, w.vectors, w.size⟩

theorem push_eq_some {w w' : SegmentWriter} {e : Embedding} (h : w.push e = some w') :
    e.length = w.dimension ∧ w'.dimension = w.dimension ∧
      w'.vectors = w.vectors ++ e ∧ w'.count = w.count + 1 := by
  rw [push] at h
  split at h
  · rename_i hlen
    obtain rfl := Option.some.inj h
    exact ⟨hlen, rfl, rfl, rfl⟩
  · exact absurd h (by simp)

theorem getVector_push_self {w w' : SegmentWriter} {e : Embedding}
    (h : w.push e = some w') : w'.write.getVector w.count = some e := by
  obtain ⟨hlen, hdim, hvec, hcount⟩ := push_eq_some h
  rw [Segment.getVector, if_neg (by simp [write, hcount])]
  simp only [write, hdim, hvec]
  rw [← w.size, List.drop_left, ← hlen, List.take_length]

theorem getVector_push_of_lt {w w' : SegmentWriter} {e : Embedding}
    (h : w.push e = some w') {i : ℕ} (hi : i < w.count) :
    w'.write.getVector i = w.write.getVector i := by
  obtain ⟨hlen, hdim, hvec, hcount⟩ := push_eq_some h
  have hrow : i * w.dimension + w.dimension ≤ w.vectors.length := by
    rw [w.size, ← Nat.succ_mul]
    exact Nat.mul_le_mul_right _ hi
  rw [Segment.getVector, if_neg (by simp only [write, hcount]; omega),
    Segment.getVector, if_neg (by simp only [write]; omega)]
  simp only [write, hdim, hvec]
  rw [List.drop_append_of_le_length (by omega), List.take_append_of_le_length]
  rw [List.length_drop]
  omega

end SegmentWriter

/-- The loop over the sorted entries: push each vector and record its row. -/
def writeRows (w : SegmentWriter) (idx : FinMap Id ℕ) :
    List (Id × Embedding) → Option (SegmentWriter × FinMap Id ℕ)
  | [] => some (w, idx)
  | (id, emb) :: rest =>
      match w.push emb with
      | none => none
      | some w' => writeRows w' (idx.insert id w.count) rest

theorem getVector_writeRows {w w' : SegmentWriter} {idx idx' : FinMap Id ℕ} {i : ℕ}
    (hi : i < w.count) : ∀ {entries : List (Id × Embedding)},
      writeRows w idx entries = some (w', idx') →
        w'.write.getVector i = w.write.getVector i := by
  intro entries
  induction entries generalizing w idx with
  | nil =>
      intro h
      simp only [writeRows, Option.some.injEq, Prod.mk.injEq] at h
      rw [h.1]
  | cons e rest ih =>
      obtain ⟨id, emb⟩ := e
      intro h
      rw [writeRows] at h
      split at h
      · exact absurd h (by simp)
      · rename_i w₁ hpush
        have hcount := (SegmentWriter.push_eq_some hpush).2.2.2
        rw [ih (by omega) h, SegmentWriter.getVector_push_of_lt hpush hi]

/-- **A written segment reads back**: with distinct ids, the row map and the
block give every id its own vector and leave the other ids' rows alone. -/
theorem lookup_writeRows {w w' : SegmentWriter} {idx idx' : FinMap Id ℕ} :
    ∀ {entries : List (Id × Embedding)}, (entries.map Prod.fst).Nodup →
      writeRows w idx entries = some (w', idx') →
      (∀ id emb, (id, emb) ∈ entries →
        (idx'.lookup id).bind w'.write.getVector = some emb) ∧
      ∀ id, id ∉ entries.map Prod.fst → idx'.lookup id = idx.lookup id := by
  intro entries
  induction entries generalizing w idx with
  | nil =>
      intro _ h
      simp only [writeRows, Option.some.injEq, Prod.mk.injEq] at h
      exact ⟨by simp, fun id _ => by rw [h.2]⟩
  | cons e rest ih =>
      obtain ⟨key, vec⟩ := e
      intro hnodup h
      rw [List.map_cons, List.nodup_cons] at hnodup
      rw [writeRows] at h
      split at h
      · exact absurd h (by simp)
      · rename_i w₁ hpush
        obtain ⟨hrest, hother⟩ := ih hnodup.2 h
        refine ⟨fun id emb hmem => ?_, fun id hid => ?_⟩
        · rcases List.mem_cons.mp hmem with heq | hmem
          · obtain ⟨rfl, rfl⟩ := Prod.mk.inj heq
            have hcount := (SegmentWriter.push_eq_some hpush).2.2.2
            rw [hother id hnodup.1, AList.lookup_insert, Option.bind_some,
              getVector_writeRows (by omega) h, SegmentWriter.getVector_push_self hpush]
          · exact hrest id emb hmem
        · rw [List.map_cons, List.mem_cons, not_or] at hid
          rw [hother id hid.2, AList.lookup_insert_ne hid.1]

theorem exists_writeRows_iff : ∀ {entries : List (Id × Embedding)} {w : SegmentWriter}
    {idx : FinMap Id ℕ}, (∃ p, writeRows w idx entries = some p) ↔
      ∀ e ∈ entries, e.2.length = w.dimension
  | [], w, idx => ⟨fun _ e he => absurd he List.not_mem_nil, fun _ => ⟨(w, idx), rfl⟩⟩
  | (id, emb) :: rest, w, idx => by
      rw [writeRows, List.forall_mem_cons]
      cases hpush : w.push emb with
      | none =>
          rw [SegmentWriter.push] at hpush
          split at hpush
          · exact absurd hpush (by simp)
          · rename_i hlen
            exact ⟨fun ⟨p, hp⟩ => absurd hp (by simp), fun h => absurd h.1 hlen⟩
      | some w' =>
          obtain ⟨hlen, hdim, -, -⟩ := SegmentWriter.push_eq_some hpush
          simp only
          rw [exists_writeRows_iff, hdim]
          exact ⟨fun h => ⟨hlen, h⟩, And.right⟩

theorem getVector_writeRows_add : ∀ {entries : List (Id × Embedding)} {w w' : SegmentWriter}
    {idx idx' : FinMap Id ℕ}, writeRows w idx entries = some (w', idx') → ∀ i,
      w'.write.getVector (w.count + i) = (entries[i]?).map Prod.snd
  | [], w, w', idx, idx', h, i => by
      simp only [writeRows, Option.some.injEq, Prod.mk.injEq] at h
      have hcount : w.write.count ≤ w.count + i := Nat.le_add_right _ _
      rw [← h.1, Segment.getVector, if_pos hcount]
      rfl
  | (id, emb) :: rest, w, w', idx, idx', h, i => by
      rw [writeRows] at h
      split at h
      · exact absurd h (by simp)
      · rename_i w₁ hpush
        have hcount := (SegmentWriter.push_eq_some hpush).2.2.2
        cases i with
        | zero =>
            rw [Nat.add_zero, getVector_writeRows (by omega) h,
              SegmentWriter.getVector_push_self hpush]
            rfl
        | succ i =>
            have ih := getVector_writeRows_add h i
            rw [hcount, Nat.add_right_comm, Nat.add_assoc] at ih
            exact ih

end Rekha
