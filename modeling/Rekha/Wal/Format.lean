import Rekha.Core.Types
import Rekha.Lib.Bytes
import Rekha.Lib.Frames

/-!
# The write-ahead log, byte by byte

The functions of the log crate on the bytes of the file. A log file is a header
of 18 bytes and a concatenation of records, each a prefix of 24 bytes and a
payload. The handle carries its own idea of the file: the header's epoch, the
last seq, the number of records and the file length.

The checksum and the payload codec are those of other crates and enter as a
`Codec`. Lengths and offsets are naturals, file sizes being far below `2^64`;
the seq an append assigns is a `u64`, and `checks` says whether the build panics
or wraps around when it overflows. Reads and writes succeed as far as the file
reaches, and syncing has no effect on the bytes.
-/

namespace Rekha.Framed

open Bytes

/-- `crc32fast::hash`, `bincode::serialize` and `bincode::deserialize`. -/
structure Codec where
  hash : List UInt8 → UInt32
  serialize : Operation → List UInt8
  deserialize : List UInt8 → Option Operation

structure WalRecord where
  seq : ℕ
  epoch : ℕ
  op : Operation

inductive WalError where
  | io (msg : String)
  | corrupt (msg : String)
  | encode
  | fenced (record file : ℕ)
  | panicked (msg : String)
deriving DecidableEq

def magic : List UInt8 := [82, 75, 87, 49]
def version : ℕ := 1
def headerLen : ℕ := 18
def recordHeaderLen : ℕ := 24

/-- `n` bytes of the file from `offset`, as far as it reaches. -/
def slice (file : List UInt8) (offset n : ℕ) : List UInt8 := (file.drop offset).take n

/-- `seek` and `read_exact`. -/
def readExact (file : List UInt8) (offset n : ℕ) : Except WalError (List UInt8) :=
  if offset + n ≤ file.length then .ok (slice file offset n)
  else .error (.io "failed to fill whole buffer")

/-- `seek` and `write_all`: bytes before `offset` stay, a gap reads as zeros. -/
def writeAt (file : List UInt8) (offset : ℕ) (buf : List UInt8) : List UInt8 :=
  (file ++ List.replicate (offset - file.length) 0).take offset ++ buf ++
    file.drop (offset + buf.length)

/-! ## Header -/

/-- The first 14 bytes of the header, which its checksum covers. -/
def headerFields (epoch : ℕ) : List UInt8 := magic ++ toLe 2 version ++ toLe 8 epoch

def buildHeader (k : Codec) (epoch : ℕ) : List UInt8 :=
  headerFields epoch ++ toLe 4 (k.hash (headerFields epoch)).toNat

/-- Read and validate the file header; returns the file's creation epoch. -/
def readAndVerifyHeader (k : Codec) (file : List UInt8) : Except WalError ℕ :=
  if file.length < headerLen then .error (.corrupt "truncated WAL header")
  else if slice file 0 4 ≠ magic then
    .error (.corrupt
      s!"bad magic: expected RKW1, got {(slice file 0 4).map UInt8.toNat}")
  else if ofLe (slice file 4 2) ≠ version then
    .error (.corrupt
      s!"unsupported WAL version {ofLe (slice file 4 2)} (expected {version})")
  else if ofLe (slice file 14 4) ≠ (k.hash (slice file 0 14)).toNat then
    .error (.corrupt "header CRC mismatch")
  else .ok (ofLe (slice file 6 8))

/-! ## Records -/

structure RecordHeader where
  recordLen : ℕ
  storedCrc : ℕ
  seq : ℕ
  epoch : ℕ

def RecordHeader.parse (hdr : List UInt8) : RecordHeader where
  recordLen := ofLe (slice hdr 0 4)
  storedCrc := ofLe (slice hdr 4 4)
  seq := ofLe (slice hdr 8 8)
  epoch := ofLe (slice hdr 16 8)

/-- The bytes `append` writes for a record. -/
def encodeRecord (k : Codec) (r : WalRecord) : List UInt8 :=
  toLe 4 (recordHeaderLen + (k.serialize r.op).length) ++
    toLe 4 (k.hash (k.serialize r.op)).toNat ++
    toLe 8 r.seq ++ toLe 8 r.epoch ++ k.serialize r.op

/-- What a well-formed record is, given the file's epoch and the seq of the
record before it: its declared length is its length and covers the prefix, its
epoch is not fenced, its seq is above the previous one, the checksum matches the
payload and the payload decodes. -/
structure IsRecord (k : Codec) (epoch : ℕ) (prev : Option ℕ) (bytes : List UInt8)
    (r : WalRecord) : Prop where
  length_ge : recordHeaderLen ≤ bytes.length
  recordLen : (RecordHeader.parse bytes).recordLen = bytes.length
  epoch_ge : epoch ≤ r.epoch
  seq_gt : ∀ p, prev = some p → p < r.seq
  crc : (k.hash (bytes.drop recordHeaderLen)).toNat = (RecordHeader.parse bytes).storedCrc
  op : k.deserialize (bytes.drop recordHeaderLen) = some r.op
  seq : r.seq = (RecordHeader.parse bytes).seq
  epoch_eq : r.epoch = (RecordHeader.parse bytes).epoch

/-! ## Scanning -/

structure ScanState where
  offset : ℕ
  count : ℕ
  lastSeq : ℕ
  prevSeq : Option ℕ

/-- One iteration of the scan: `none` stops at the first invalid record. -/
def scanRecord (k : Codec) (file : List UInt8) (headerEpoch : ℕ) (s : ScanState) :
    Option ScanState :=
  let hdr := RecordHeader.parse (slice file s.offset recordHeaderLen)
  if hdr.recordLen < recordHeaderLen ∨ file.length < s.offset + hdr.recordLen then none
  -- a record of a stale (fenced) writer is discarded like a corrupt tail
  else if hdr.epoch < headerEpoch then none
  else if s.prevSeq.any fun prev => decide (hdr.seq ≤ prev) then none
  else
    let payload := slice file (s.offset + recordHeaderLen) (hdr.recordLen - recordHeaderLen)
    if (k.hash payload).toNat ≠ hdr.storedCrc then none
    else if (k.deserialize payload).isNone then none
    else some ⟨s.offset + hdr.recordLen, s.count + 1, hdr.seq, some hdr.seq⟩

theorem scanRecord_advances {k : Codec} {file : List UInt8} {e : ℕ} {s s' : ScanState}
    (h : scanRecord k file e s = some s') :
    s.offset + recordHeaderLen ≤ s'.offset ∧ s'.offset ≤ file.length := by
  unfold scanRecord at h
  dsimp only at h
  split at h
  · exact absurd h (by simp)
  · rename_i hlen
    rw [not_or, Nat.not_lt, Nat.not_lt] at hlen
    split at h
    · exact absurd h (by simp)
    split at h
    · exact absurd h (by simp)
    split at h
    · exact absurd h (by simp)
    split at h
    · exact absurd h (by simp)
    · obtain rfl := Option.some.inj h
      exact ⟨Nat.add_le_add_left hlen.1 _, hlen.2⟩

def scanFrom (k : Codec) (file : List UInt8) (headerEpoch : ℕ) (s : ScanState) : ScanState :=
  if s.offset + recordHeaderLen ≤ file.length then
    match _hs : scanRecord k file headerEpoch s with
    | none => s
    | some s' => scanFrom k file headerEpoch s'
  else s
termination_by file.length - s.offset
decreasing_by
  have hadv := scanRecord_advances _hs
  have hpos : 0 < recordHeaderLen := by decide
  omega

/-- Scan the file from the header onwards, stopping at the first invalid record. -/
def scan (k : Codec) (file : List UInt8) (headerEpoch : ℕ) : ScanState :=
  scanFrom k file headerEpoch ⟨headerLen, 0, 0, none⟩

/-- What recovery leaves: the bytes, their length, the number of records and the
last seq. -/
structure Recovered where
  file : List UInt8
  validLen : ℕ
  count : ℕ
  lastSeq : ℕ

def recover (k : Codec) (file : List UInt8) (headerEpoch : ℕ) : Recovered :=
  let s := scan k file headerEpoch
  ⟨if s.offset ≠ file.length then file.take s.offset else file, s.offset, s.count, s.lastSeq⟩

end Rekha.Framed
