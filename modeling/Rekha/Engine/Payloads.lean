import Rekha.Engine.Collection
import Rekha.Wal.Bincode

/-!
# The payload format

Operations travel in the log, records in a checkpoint and in a snapshot, both in
the codec of `Rekha.Bincode`. The variants of a metadata value are numbered by
hand on the writing side and by their order in a helper enum on the reading
side. Both payloads read back, and what is left of one after a cut does not
decode (`payload_lossless`).

A hash map is written in its iteration order; the entries of a `FinMap` come in
any order, so a statement about all of them covers every iteration order.
-/

namespace Rekha.Bincode

open Bytes Wire

/-! ## Records -/

def decodeU64 : Decoder ℕ := word 8

/-- The fields of a record: id, embedding, metadata, document, seq. -/
def record : Encoder Record := fun r =>
  string r.id ++ option (sequence f32) r.embedding ++ option metadata r.metadata ++
    option string r.document ++ toLe 8 r.seq

def decodeRecord : Decoder Record := fun l =>
  (decodeString l).bind fun p => (decodeOption (decodeSequence decodeF32) p.2).bind fun v =>
    (decodeOption decodeMetadata v.2).bind fun q => (decodeOption decodeString q.2).bind fun d =>
      decodeMap (fun seq => some ⟨p.1, v.1, q.1, d.1, seq⟩) decodeU64 d.2

/-- Bytes after the record are allowed. -/
def deserializeRecord (l : List UInt8) : Option Record := (decodeRecord l).map Prod.fst

theorem embedding_reads : Reads (sequence f32) (decodeSequence decodeF32) := by
  refine sequence_reads f32_reads ?_
  intro x
  rw [f32, length_toLe]
  decide

theorem record_reads {r : Record} (hseq : r.seq < 2 ^ 64) (rest : List UInt8)
    (hlen : (record r).length < 2 ^ 64) : decodeRecord (record r ++ rest) = some (r, rest) := by
  unfold record at hlen
  simp only [List.length_append] at hlen
  unfold decodeRecord record
  simp only [List.append_assoc]
  rw [string_reads r.id _ (by omega), Option.bind_some,
    option_reads embedding_reads r.embedding _ (by omega), Option.bind_some,
    option_reads metadata_reads r.metadata _ (by omega), Option.bind_some,
    option_reads string_reads r.document _ (by omega), Option.bind_some]
  exact decodeMap_eq (word_toLe (by omega) rest) rfl

/-! ## Decoders take what they need -/

theorem decodeString_extends : Extends decodeString := by
  refine (word_extends 8).bind ?_
  intro n l s r hs x
  dsimp only at hs ⊢
  split at hs
  · rename_i hn
    obtain ⟨s', hs', heq⟩ := Option.map_eq_some_iff.mp hs
    cases heq
    rw [if_pos (by rw [List.length_append]; omega), List.take_append_of_le_length hn,
      List.drop_append_of_le_length hn, hs']
    rfl
  · cases hs

theorem decodeF32_extends : Extends decodeF32 := decodeMap_extends (word_extends 4)

theorem decodeVariant_extends (n : ℕ) : Extends (decodeVariant n) := by
  unfold decodeVariant
  split
  · exact decodeMap_extends decodeString_extends
  · exact decodeMap_extends (word_extends 1)
  · exact decodeMap_extends (word_extends 8)
  · exact decodeMap_extends (word_extends 8)
  · exact fails_extends

theorem decodeMetadataValue_extends : Extends decodeMetadataValue :=
  (word_extends 4).bind decodeVariant_extends

theorem decodeEntry_extends : Extends decodeEntry := by
  apply decodeString_extends.bind
  intro key
  dsimp only
  exact decodeMap_extends decodeMetadataValue_extends

theorem decodeMetadata_extends : Extends decodeMetadata :=
  decodeMap_extends (decodeSequence_extends decodeEntry_extends)

theorem decodeUpdate_extends : Extends decodeUpdate := by
  apply decodeString_extends.bind
  intro id
  dsimp only
  refine (decodeOption_extends decodeMetadata_extends).bind ?_
  intro md
  dsimp only
  exact decodeMap_extends (decodeOption_extends decodeString_extends)

theorem decodePut_extends : Extends decodePut := by
  apply decodeString_extends.bind
  intro id
  dsimp only
  refine (decodeSequence_extends decodeF32_extends).bind ?_
  intro e
  dsimp only
  refine (decodeOption_extends decodeMetadata_extends).bind ?_
  intro md
  dsimp only
  exact decodeMap_extends (decodeOption_extends decodeString_extends)

theorem decodeOperation_extends (n : ℕ) : Extends (decodeOperation n) := by
  unfold decodeOperation
  split
  · exact decodeMap_extends decodePut_extends
  · exact decodeMap_extends decodeUpdate_extends
  · exact decodeMap_extends decodeString_extends
  · exact decodeMap_extends decodePut_extends
  · exact fails_extends

theorem decodeRecord_extends : Extends decodeRecord := by
  apply decodeString_extends.bind
  intro id
  dsimp only
  refine (decodeOption_extends (decodeSequence_extends decodeF32_extends)).bind ?_
  intro e
  dsimp only
  refine (decodeOption_extends decodeMetadata_extends).bind ?_
  intro md
  dsimp only
  refine (decodeOption_extends decodeString_extends).bind ?_
  intro doc
  dsimp only
  exact decodeMap_extends (word_extends 8)

/-! ## Both payloads -/

/-- The encoding decodes to what was encoded, and no proper prefix of it decodes. -/
structure Lossless {α : Type} (encoded : List UInt8) (decode : List UInt8 → Option α) (a : α) :
    Prop where
  back : decode encoded = some a
  cut : ∀ p, p <+: encoded → p ≠ encoded → decode p = none

theorem lossless {α : Type} {dec : Decoder α} (hext : Extends dec) {encoded : List UInt8} {a : α}
    (h : dec encoded = some (a, [])) :
    Lossless encoded (fun l => (dec l).map Prod.fst) a := by
  refine ⟨?_, ?_⟩
  · rw [h]
    rfl
  · intro p hp hne
    rw [hext.cut h hp hne]
    rfl

/-- **The payload format is lossless**, on every operation and every record. -/
theorem payload_lossless {op : Operation} {r : Record} (hop : (serialize op).length < 2 ^ 64)
    (hr : (record r).length < 2 ^ 64) (hseq : r.seq < 2 ^ 64) :
    Lossless (serialize op) deserialize op ∧ Lossless (record r) deserializeRecord r := by
  have hrecord : decodeRecord (record r) = some (r, []) := by
    have h := record_reads hseq [] hr
    rwa [List.append_nil] at h
  refine ⟨?_, lossless decodeRecord_extends hrecord⟩
  exact lossless ((word_extends 4).bind decodeOperation_extends) (operation_decodes hop)

/-- An upsert with metadata of every kind, and the record it makes. -/
theorem payload_lossless_demo :
    ∃ op r, Lossless (serialize op) deserialize op ∧
      Lossless (record r) deserializeRecord r ∧ r.metadata.any fun m => decide (m.size = 4) := by
  let md : Metadata := (((AList.insert "s" (.str "x") ∅).insert "b" (.bool true)).insert "i"
    (.int (-1))).insert "f" (.float ⟨0x7FF8000000000000#64⟩)
  have h := @payload_lossless (.upsert "a" [⟨0x7FC00001#32⟩] (some md) none)
    ⟨"a", none, some md, some "doc", 7⟩ (by decide +kernel) (by decide +kernel) (by decide)
  exact ⟨_, _, h.1, h.2, by decide +kernel⟩

end Rekha.Bincode
