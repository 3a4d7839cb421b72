import Rekha.Lib.Wire
import Rekha.Wal.Log

/-!
# The payload codec

The default configuration of `bincode` on the operation type: integers and
floats in little-endian words of their width, lengths as `u64`, enum variants as
`u32`, one tag byte for an option, the entries of a hash map in its iteration
order. Decoding ignores what follows the operation.

Encoding and decoding are inverse on every operation that a length field can
describe, and the length of an encoding is the one the record-level log counts
with.
-/

namespace Rekha.Bincode

open Bytes Wire

/-! ## Scalars -/

def string : Encoder String := fun s => toLe 8 s.utf8ByteSize ++ s.toByteArray.data.toList

def decodeString : Decoder String := fun l =>
  (word 8 l).bind fun p =>
    if p.1 ≤ p.2.length then
      (String.fromUTF8? ⟨(p.2.take p.1).toArray⟩).map fun s => (s, p.2.drop p.1)
    else none

theorem length_utf8 (s : String) : s.toByteArray.data.toList.length = s.utf8ByteSize := by
  rw [Array.length_toList]
  rfl

@[simp] theorem length_string (s : String) : (string s).length = strBytes s := by
  rw [string, List.length_append, length_toLe, length_utf8, strBytes]

theorem string_reads : Reads string decodeString := by
  intro s rest hlen
  rw [length_string, strBytes] at hlen
  have hvalid : String.fromUTF8? s.toByteArray = some s := by
    unfold String.fromUTF8?
    rw [dif_pos s.isValidUTF8]
    rfl
  unfold decodeString string
  rw [List.append_assoc, word_toLe (by omega), Option.bind_some]
  dsimp only
  rw [if_pos (by rw [List.length_append, length_utf8]; omega),
    List.take_left' (length_utf8 s), List.drop_left' (length_utf8 s), Array.toArray_toList]
  show (String.fromUTF8? s.toByteArray).map _ = _
  rw [hvalid]
  rfl

def f32 : Encoder F32 := fun x => toLe 4 x.bits.toNat

def decodeF32 : Decoder F32 := decodeMap (fun n => some ⟨BitVec.ofNat 32 n⟩) (word 4)

theorem f32_reads : Reads f32 decodeF32 := by
  intro x rest _
  refine decodeMap_eq (word_toLe x.bits.isLt rest) ?_
  rw [BitVec.ofNat_toNat, BitVec.setWidth_eq]

/-! ## Metadata -/

def metadataValue : Encoder MetadataValue
  | .str s => toLe 4 0 ++ string s
  | .bool b => toLe 4 1 ++ toLe 1 b.toNat
  | .int i => toLe 4 2 ++ toLe 8 i.toUInt64.toNat
  | .float f => toLe 4 3 ++ toLe 8 f.bits.toNat

/-- Variant `n` of a metadata value. -/
def decodeVariant : ℕ → Decoder MetadataValue
  | 0 => decodeMap (fun s => some (.str s)) decodeString
  | 1 => decodeMap (fun n => if n = 0 then some (.bool false) else if n = 1 then some (.bool true)
      else none) (word 1)
  | 2 => decodeMap (fun n => some (.int (UInt64.ofNat n).toInt64)) (word 8)
  | 3 => decodeMap (fun n => some (.float ⟨BitVec.ofNat 64 n⟩)) (word 8)
  | _ => fun _ => none

def decodeMetadataValue : Decoder MetadataValue := fun l =>
  (word 4 l).bind fun p => decodeVariant p.1 p.2

@[simp] theorem length_metadataValue (v : MetadataValue) :
    (metadataValue v).length = v.encodedLen := by
  cases v <;> simp [metadataValue, MetadataValue.encodedLen]

theorem decodeMetadataValue_eq {n : ℕ} {l rest : List UInt8} {v : MetadataValue}
    (hn : n < 256 ^ 4) (h : decodeVariant n l = some (v, rest)) :
    decodeMetadataValue (toLe 4 n ++ l) = some (v, rest) := by
  unfold decodeMetadataValue
  rw [word_toLe hn, Option.bind_some]
  exact h

theorem metadataValue_reads : Reads metadataValue decodeMetadataValue := by
  intro v rest hlen
  cases v with
  | str s =>
      rw [metadataValue, List.length_append, length_toLe] at hlen
      rw [metadataValue, List.append_assoc]
      refine decodeMetadataValue_eq (by omega) ?_
      unfold decodeVariant
      exact decodeMap_eq (string_reads s rest (by omega)) rfl
  | bool b =>
      have hb : b.toNat < 256 ^ 1 := by cases b <;> decide
      rw [metadataValue, List.append_assoc]
      refine decodeMetadataValue_eq (by omega) ?_
      unfold decodeVariant
      refine decodeMap_eq (word_toLe hb rest) ?_
      cases b <;> rfl
  | int i =>
      have hi : i.toUInt64.toNat < 256 ^ 8 := i.toUInt64.toNat_lt
      rw [metadataValue, List.append_assoc]
      refine decodeMetadataValue_eq (by omega) ?_
      unfold decodeVariant
      refine decodeMap_eq (word_toLe hi rest) ?_
      rw [UInt64.ofNat_toNat, Int64.toInt64_toUInt64]
  | float f =>
      have hf : f.bits.toNat < 256 ^ 8 := f.bits.isLt
      rw [metadataValue, List.append_assoc]
      refine decodeMetadataValue_eq (by omega) ?_
      unfold decodeVariant
      refine decodeMap_eq (word_toLe hf rest) ?_
      rw [BitVec.ofNat_toNat, BitVec.setWidth_eq]

def entry : Encoder (Sigma fun _ : String => MetadataValue) := fun e =>
  string e.1 ++ metadataValue e.2

def decodeEntry : Decoder (Sigma fun _ : String => MetadataValue) := fun l =>
  (decodeString l).bind fun p => decodeMap (fun v => some ⟨p.1, v⟩) decodeMetadataValue p.2

theorem entry_reads : Reads entry decodeEntry := by
  intro e rest hlen
  rw [entry, List.length_append] at hlen
  unfold decodeEntry entry
  rw [List.append_assoc, string_reads e.1 _ (by omega), Option.bind_some]
  exact decodeMap_eq (metadataValue_reads e.2 rest (by omega)) rfl

theorem length_entry_pos (e : Sigma fun _ : String => MetadataValue) : 0 < (entry e).length := by
  rw [entry, List.length_append, length_string, strBytes]
  omega

/-- A hash map, in one of its iteration orders. -/
def metadata : Encoder Metadata := fun m => sequence entry m.entries.reverse

/-- Insert the entries in the order they come. -/
def ofEntries (l : List (Sigma fun _ : String => MetadataValue)) : Metadata :=
  l.foldl (fun m e => m.insert e.1 e.2) ∅

def decodeMetadata : Decoder Metadata := decodeMap (fun l => some (ofEntries l))
  (decodeSequence decodeEntry)

theorem ofEntries_reverse (m : Metadata) : ofEntries m.entries.reverse = m := by
  obtain ⟨l, hl⟩ := m
  unfold ofEntries
  rw [List.foldl_reverse]
  induction l with
  | nil => rfl
  | cons e l ih =>
      have hnodup := List.nodupKeys_cons.mp hl
      have hrest := ih hnodup.2
      rw [List.foldr_cons, hrest]
      apply AList.ext
      rw [AList.entries_insert, List.kerase_of_notMem_keys hnodup.1]

theorem metadata_reads : Reads metadata decodeMetadata := by
  intro m rest hlen
  refine decodeMap_eq (sequence_reads entry_reads length_entry_pos _ rest hlen) ?_
  rw [ofEntries_reverse]

@[simp] theorem length_metadata (m : Metadata) : (metadata m).length = m.encodedLen := by
  have hperm : ∀ (l : List (Sigma fun _ : String => MetadataValue)) (n : ℕ),
      l.foldl (fun n e => n + strBytes e.1 + e.2.encodedLen) n =
        n + (l.flatMap entry).length := by
    intro l
    induction l with
    | nil => intro n; rfl
    | cons e l ih =>
        intro n
        rw [List.foldl_cons, ih, List.flatMap_cons, List.length_append, entry,
          List.length_append, length_string, length_metadataValue]
        omega
  rw [Metadata.encodedLen, hperm, metadata, Wire.sequence, List.length_append, length_toLe]
  congr 1
  exact ((List.reverse_perm m.entries).flatMap_right entry).length_eq

/-! ## Operations -/

theorem length_option {α : Type} {enc : Encoder α} {len : α → ℕ}
    (h : ∀ a, (enc a).length = len a) (o : Option α) :
    (option enc o).length = optLen len o := by
  cases o with
  | none => rfl
  | some a => rw [option, optLen, List.length_cons, h, Nat.add_comm]

/-- The fields of an update: id, metadata, document. -/
def update : Encoder (Id × Option Metadata × Option Document) := fun u =>
  string u.1 ++ option metadata u.2.1 ++ option string u.2.2

def decodeUpdate : Decoder (Id × Option Metadata × Option Document) := fun l =>
  (decodeString l).bind fun p => (decodeOption decodeMetadata p.2).bind fun q =>
    decodeMap (fun d => some (p.1, q.1, d)) (decodeOption decodeString) q.2

theorem update_reads : Reads update decodeUpdate := by
  intro u rest hlen
  rw [update, List.length_append, List.length_append] at hlen
  unfold decodeUpdate update
  rw [List.append_assoc, List.append_assoc, string_reads u.1 _ (by omega), Option.bind_some,
    option_reads metadata_reads u.2.1 _ (by omega), Option.bind_some]
  exact decodeMap_eq (option_reads string_reads u.2.2 rest (by omega)) rfl

/-- The fields of an add or an upsert: id, embedding, metadata, document. -/
def put : Encoder (Id × Embedding × Option Metadata × Option Document) := fun u =>
  string u.1 ++ sequence f32 u.2.1 ++ option metadata u.2.2.1 ++ option string u.2.2.2

def decodePut : Decoder (Id × Embedding × Option Metadata × Option Document) := fun l =>
  (decodeString l).bind fun p => (decodeSequence decodeF32 p.2).bind fun v =>
    (decodeOption decodeMetadata v.2).bind fun q =>
      decodeMap (fun d => some (p.1, v.1, q.1, d)) (decodeOption decodeString) q.2

theorem put_reads : Reads put decodePut := by
  intro u rest hlen
  rw [put, List.length_append, List.length_append, List.length_append] at hlen
  unfold decodePut put
  rw [List.append_assoc, List.append_assoc, List.append_assoc, string_reads u.1 _ (by omega),
    Option.bind_some,
    sequence_reads f32_reads (fun x => by rw [f32, length_toLe]; decide) u.2.1 _ (by omega),
    Option.bind_some, option_reads metadata_reads u.2.2.1 _ (by omega), Option.bind_some]
  exact decodeMap_eq (option_reads string_reads u.2.2.2 rest (by omega)) rfl

def serialize : Operation → List UInt8
  | .add id e md doc => toLe 4 0 ++ put (id, e, md, doc)
  | .update id md doc => toLe 4 1 ++ update (id, md, doc)
  | .delete id => toLe 4 2 ++ string id
  | .upsert id e md doc => toLe 4 3 ++ put (id, e, md, doc)

/-- Variant `n` of an operation. -/
def decodeOperation : ℕ → Decoder Operation
  | 0 => decodeMap (fun u => some (.add u.1 u.2.1 u.2.2.1 u.2.2.2)) decodePut
  | 1 => decodeMap (fun u => some (.update u.1 u.2.1 u.2.2)) decodeUpdate
  | 2 => decodeMap (fun id => some (.delete id)) decodeString
  | 3 => decodeMap (fun u => some (.upsert u.1 u.2.1 u.2.2.1 u.2.2.2)) decodePut
  | _ => fun _ => none

/-- Bytes after the operation are allowed. -/
def deserialize (l : List UInt8) : Option Operation :=
  ((word 4 l).bind fun p => decodeOperation p.1 p.2).map Prod.fst

theorem decodeOperation_eq {n : ℕ} {l : List UInt8} {op : Operation} (hn : n < 256 ^ 4)
    (h : decodeOperation n l = some (op, [])) :
    ((word 4 (toLe 4 n ++ l)).bind fun p => decodeOperation p.1 p.2) = some (op, []) := by
  rw [word_toLe hn, Option.bind_some]
  exact h

theorem reads_alone {α : Type} {enc : Encoder α} {dec : Decoder α} (h : Reads enc dec) {a : α}
    (hlen : (enc a).length < 2 ^ 64) : dec (enc a) = some (a, []) := by
  have := h a [] hlen
  rwa [List.append_nil] at this

theorem operation_decodes {op : Operation} (hlen : (serialize op).length < 2 ^ 64) :
    ((word 4 (serialize op)).bind fun p => decodeOperation p.1 p.2) = some (op, []) := by
  cases op with
  | add id e md doc =>
      rw [serialize, List.length_append] at hlen
      refine decodeOperation_eq (by omega) ?_
      unfold decodeOperation
      exact decodeMap_eq (reads_alone put_reads (by omega)) rfl
  | update id md doc =>
      rw [serialize, List.length_append] at hlen
      refine decodeOperation_eq (by omega) ?_
      unfold decodeOperation
      exact decodeMap_eq (reads_alone update_reads (by omega)) rfl
  | delete id =>
      rw [serialize, List.length_append] at hlen
      refine decodeOperation_eq (by omega) ?_
      unfold decodeOperation
      exact decodeMap_eq (reads_alone string_reads (by omega)) rfl
  | upsert id e md doc =>
      rw [serialize, List.length_append] at hlen
      refine decodeOperation_eq (by omega) ?_
      unfold decodeOperation
      exact decodeMap_eq (reads_alone put_reads (by omega)) rfl

theorem deserialize_serialize {op : Operation} (hlen : (serialize op).length < 2 ^ 64) :
    deserialize (serialize op) = some op := by
  unfold deserialize
  rw [operation_decodes hlen]
  rfl

theorem length_embedding (e : Embedding) : (sequence f32 e).length = 8 + 4 * e.length := by
  rw [Wire.sequence, List.length_append, length_toLe]
  congr 1
  induction e with
  | nil => rfl
  | cons x e ih =>
      rw [List.flatMap_cons, List.length_append, ih, f32, length_toLe, List.length_cons]
      omega

theorem length_serialize (op : Operation) : (serialize op).length = op.encodedLen := by
  cases op with
  | add id e md doc =>
      simp only [serialize, put, List.length_append, length_toLe, length_string,
        length_embedding, length_option length_metadata, length_option length_string,
        Operation.encodedLen, Nat.add_assoc]
  | update id md doc =>
      simp only [serialize, update, List.length_append, length_toLe, length_string,
        length_option length_metadata, length_option length_string, Operation.encodedLen,
        Nat.add_assoc]
  | delete id =>
      simp only [serialize, List.length_append, length_toLe, length_string, Operation.encodedLen]
  | upsert id e md doc =>
      simp only [serialize, put, List.length_append, length_toLe, length_string,
        length_embedding, length_option length_metadata, length_option length_string,
        Operation.encodedLen, Nat.add_assoc]

end Rekha.Bincode
