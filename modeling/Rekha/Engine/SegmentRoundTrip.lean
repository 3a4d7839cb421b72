import Rekha.Engine.SegmentFile
import Rekha.Engine.Vectors

/-!
# Segments round-trip

What the writer puts into a file and what the reader cuts out of it: the header
decodes to what was encoded, and row `i` of the file is row `i` of the block. So
an opened file reads like the segment the engine works with
(`getVector_opened`), and with the id map a checkpoint builds every id gets its
own vector back (`segment_round_trip`).
-/

namespace Rekha.SegmentFile

open Bytes

/-! ## Floats -/

/-- `bytemuck::cast_slice` of floats to bytes, on a little-endian machine. -/
def castBytes (l : List F32) : List UInt8 := l.flatMap fun x => toLe 4 x.bits.toNat

theorem castBytes_append (l₁ l₂ : List F32) :
    castBytes (l₁ ++ l₂) = castBytes l₁ ++ castBytes l₂ := List.flatMap_append

theorem length_castBytes (l : List F32) : (castBytes l).length = 4 * l.length := by
  induction l with
  | nil => rfl
  | cons x l ih =>
      rw [castBytes, List.flatMap_cons, List.length_append, length_toLe, List.length_cons]
      rw [castBytes] at ih
      omega

theorem castSlice_castBytes (l : List F32) : castSlice (castBytes l) = l := by
  induction l with
  | nil => rfl
  | cons x l ih =>
      have hbits : ofLe (toLe 4 x.bits.toNat) = x.bits.toNat := ofLe_toLe 4 _ x.bits.isLt
      have hcons : castSlice (castBytes (x :: l)) =
          ⟨BitVec.ofNat 32 (ofLe (toLe 4 x.bits.toNat))⟩ :: castSlice (castBytes l) := rfl
      rw [hcons, ih, hbits, BitVec.ofNat_toNat, BitVec.setWidth_eq]

theorem field_castBytes (l : List F32) {lo hi : ℕ} (hlo : lo ≤ hi) (hhi : hi ≤ l.length) :
    field (castBytes l) (lo * 4) (hi * 4) = castBytes ((l.drop lo).take (hi - lo)) := by
  have hsplit : l = l.take lo ++ ((l.drop lo).take (hi - lo) ++ (l.drop lo).drop (hi - lo)) := by
    rw [List.take_append_drop, List.take_append_drop]
  have hfront : (castBytes (l.take lo)).length = lo * 4 := by
    rw [length_castBytes, List.length_take]
    omega
  have hmiddle : (castBytes ((l.drop lo).take (hi - lo))).length = hi * 4 - lo * 4 := by
    rw [length_castBytes, List.length_take, List.length_drop]
    omega
  conv_lhs => rw [hsplit, castBytes_append, castBytes_append]
  rw [field, ← hfront, List.drop_left, hfront, ← hmiddle, List.take_left]

/-! ## Header -/

theorem length_encode (h : SegmentHeader) : h.encode.length = headerSize := by
  simp only [SegmentHeader.encode, u32, List.length_append, length_toLe, List.length_replicate]
  rfl

theorem readU32_u32 (n : UInt32) : readU32 (u32 n) = n := by
  have hn : n.toNat < 256 ^ 4 := n.toNat_lt
  rw [readU32, u32, ofLe_toLe 4 _ hn]
  exact UInt32.ofNat_toNat

theorem decode_encode (h : SegmentHeader) : SegmentHeader.decode h.encode = .ok h := by
  have hmagic : field h.encode 0 4 = magic := rfl
  have hversion : field h.encode 4 8 = toLe 4 version := rfl
  have hdimension : field h.encode 8 12 = u32 h.dimension := rfl
  have hcount : field h.encode 12 16 = u32 h.count := rfl
  have hchecksum : field h.encode 16 20 = u32 h.checksum := rfl
  rw [SegmentHeader.decode, hmagic, hversion, hdimension, hcount, hchecksum, if_neg (by simp),
    if_neg (by rw [ofLe_toLe 4 _ (by decide)]; simp), readU32_u32, readU32_u32, readU32_u32]

/-! ## Written files -/

/-- The bytes `SegmentWriter::write` puts into the file. -/
def written (w : SegmentWriter) : List UInt8 :=
  SegmentHeader.encode ⟨UInt32.ofNat w.dimension, UInt32.ofNat w.count,
    crc32 (castBytes w.vectors)⟩ ++ castBytes w.vectors

section Written

variable {w : SegmentWriter}

theorem length_written (w : SegmentWriter) :
    (written w).length = headerSize + w.count * w.dimension * 4 := by
  rw [written, List.length_append, length_encode, length_castBytes, w.size, Nat.mul_comm 4]

/-- A writer whose numbers fit the header and whose file fits a `usize`. -/
structure Fits (w : SegmentWriter) : Prop where
  dimension : w.dimension < 2 ^ 32
  count : w.count < 2 ^ 32
  size : headerSize + w.count * w.dimension * 4 < 2 ^ 64

theorem Fits.length_lt (hw : Fits w) : (written w).length < 2 ^ 64 := by
  rw [length_written]
  exact hw.size

def mapped (w : SegmentWriter) (hw : Fits w) : Mmap := ⟨written w, hw.length_lt⟩

/-- The segment a reader has after opening the file. -/
def opened (w : SegmentWriter) (hw : Fits w) : Segment :=
  ⟨mapped w hw, ⟨UInt32.ofNat w.dimension, UInt32.ofNat w.count, crc32 (castBytes w.vectors)⟩⟩

theorem len_opened (hw : Fits w) : (opened w hw).len = w.count :=
  UInt32.toNat_ofNat_of_lt hw.count

theorem dimension_opened (hw : Fits w) : (opened w hw).dimension = w.dimension :=
  UInt32.toNat_ofNat_of_lt hw.dimension

theorem field_written {lo hi : ℕ} (hlo : lo ≤ hi) (hhi : hi ≤ w.vectors.length) :
    field (written w) (headerSize + lo * 4) (headerSize + hi * 4) =
      castBytes ((w.vectors.drop lo).take (hi - lo)) := by
  rw [← field_castBytes _ hlo hhi, field, field, written, ← length_encode,
    List.drop_length_add_append, Nat.add_sub_add_left]

/-- **A written file opens.** -/
theorem fromFile_mapped (hw : Fits w) : fromFile (mapped w hw) = some (.ok (opened w hw)) := by
  have hread : readHeader (mapped w hw) = .ok (opened w hw).header := by
    have hlong : ¬ (mapped w hw).bytes.length < headerSize := by
      show ¬ (written w).length < headerSize
      rw [length_written]
      omega
    have htake : (mapped w hw).bytes.take headerSize = (opened w hw).header.encode := by
      show (written w).take headerSize = _
      rw [written, ← length_encode, List.take_left]
      rfl
    rw [readHeader, if_neg hlong, htake, decode_encode]
  have hend : (opened w hw).header.dataEnd = headerSize + w.count * w.dimension * 4 := by
    have hlen : (opened w hw).header.count.toNat = w.count := len_opened hw
    have hdim : (opened w hw).header.dimension.toNat = w.dimension := dimension_opened hw
    have hsize := hw.size
    rw [dataEnd_of_fits, hlen, hdim]
    rw [hlen, hdim]
    exact hsize
  have hlength : (mapped w hw).bytes.length = headerSize + w.count * w.dimension * 4 :=
    length_written w
  have hslice : (mapped w hw).slice headerSize (opened w hw).header.dataEnd =
      some (castBytes w.vectors) := by
    have hblock := field_written (w := w) (Nat.zero_le (w.count * w.dimension)) w.size.ge
    rw [Nat.zero_mul, Nat.add_zero, List.drop_zero, Nat.sub_zero, ← w.size,
      List.take_length, w.size] at hblock
    rw [Mmap.slice, hend, if_pos ⟨Nat.le_add_right _ _, hlength.ge⟩]
    exact congrArg some hblock
  exact fromFile_ok hread (hend.trans hlength.symm).le hslice rfl

theorem row_opened (hw : Fits w) {i : ℕ} (hi : i < w.count) :
    (opened w hw).row i = w.write.getVector i := by
  have hrow : (i + 1) * w.dimension ≤ w.vectors.length := by
    rw [w.size]
    exact Nat.mul_le_mul_right _ hi
  have hsize : headerSize + (opened w hw).len * (opened w hw).dimension * 4 =
      (written w).length := by
    rw [len_opened, dimension_opened, length_written]
  have hstart : i * w.dimension ≤ (i + 1) * w.dimension :=
    Nat.mul_le_mul_right _ (Nat.le_succ i)
  rw [Segment.row_of_fits (hsize.trans_lt hw.length_lt) hsize.le ((len_opened hw).symm ▸ hi),
    dimension_opened]
  have hin : ¬ w.write.count ≤ i := not_le.mpr hi
  show some (castSlice (field (written w) _ _)) = _
  rw [field_written hstart hrow, castSlice_castBytes, Rekha.Segment.getVector, if_neg hin,
    Nat.succ_mul, Nat.add_sub_cancel_left]
  rfl

/-- **An opened file reads like the written segment**, at every index. -/
theorem getVector_opened (hw : Fits w) (i : ℕ) :
    (opened w hw).getVector i = some (w.write.getVector i) := by
  rw [Segment.getVector, len_opened]
  by_cases hi : w.count ≤ i
  · have hpast : w.write.count ≤ i := hi
    rw [if_pos hi, Rekha.Segment.getVector, if_pos hpast]
  · have hin : ¬ w.write.count ≤ i := hi
    rw [if_neg hi, row_opened hw (not_le.mp hi), Rekha.Segment.getVector, if_neg hin]
    rfl

theorem iterVectors_opened (hw : Fits w) :
    (opened w hw).iterVectors = (List.range w.count).map w.write.getVector := by
  rw [Segment.iterVectors, len_opened]
  apply List.map_congr_left
  intro i hi
  exact row_opened hw (List.mem_range.mp hi)

end Written

/-! ## With the id map -/

theorem writeRows_shape : ∀ {entries : List (Id × Embedding)} {w w' : SegmentWriter}
    {idx idx' : FinMap Id ℕ}, writeRows w idx entries = some (w', idx') →
      w'.dimension = w.dimension ∧ w'.count = w.count + entries.length
  | [], w, w', idx, idx', h => by
      obtain ⟨rfl, -⟩ := Prod.mk.inj (Option.some.inj h)
      exact ⟨rfl, rfl⟩
  | (id, emb) :: rest, w, w', idx, idx', h => by
      rw [writeRows] at h
      split at h
      · cases h
      · rename_i w₁ hpush
        obtain ⟨-, hdim, -, hcount⟩ := SegmentWriter.push_eq_some hpush
        obtain ⟨hdim', hcount'⟩ := writeRows_shape h
        rw [hcount, Nat.add_assoc, Nat.add_comm 1] at hcount'
        exact ⟨hdim'.trans hdim, hcount'⟩

theorem mem_segmentEntries {c : Collection} {id : Id} {v : Embedding} :
    (id, v) ∈ c.segmentEntries ↔ c.memVector id = some v := by
  rw [Collection.segmentEntries, Collection.mem_sortedVectors, Collection.memVector,
    Option.bind_eq_some_iff]

/-- What a reader gets from a segment and its id map, for the vectors a collection
holds in memory. -/
structure ReadsBack (c : Collection) (idx : FinMap Id ℕ) (s : Segment) : Prop where
  len : s.len = c.segmentEntries.length
  dimension : s.dimension = c.config.dimension
  iter : s.iterVectors = c.segmentEntries.map fun e => some e.2
  own : ∀ id, (idx.lookup id).map s.getVector = (c.memVector id).map fun v => some (some v)
  past : ∀ i, c.segmentEntries.length ≤ i → s.getVector i = some none

theorem readsBack_opened {c : Collection} {w : SegmentWriter} {idx : FinMap Id ℕ} (hw : Fits w)
    (hdim : w.dimension = c.config.dimension) (hcount : w.count = c.segmentEntries.length)
    (hrows : writeRows (SegmentWriter.new c.config.dimension) ∅ c.segmentEntries =
      some (w, idx)) : ReadsBack c idx (opened w hw) := by
  have hzero : (SegmentWriter.new c.config.dimension).count = 0 := rfl
  have hrow : ∀ i, w.write.getVector i = (c.segmentEntries[i]?).map Prod.snd := by
    intro i
    have hadd := getVector_writeRows_add hrows i
    rwa [hzero, Nat.zero_add] at hadd
  obtain ⟨hin, hout⟩ := lookup_writeRows (Collection.nodup_sortedVectors _ _) hrows
  constructor
  · rw [len_opened, hcount]
  · rw [dimension_opened, hdim]
  · rw [iterVectors_opened, hcount]
    apply List.ext_getElem
    · simp
    · intro i h₁ h₂
      have hi : i < c.segmentEntries.length := by simpa using h₂
      rw [List.getElem_map, List.getElem_range, hrow, List.getElem?_eq_getElem hi,
        List.getElem_map]
      rfl
  · intro id
    cases hv : c.memVector id with
    | some v =>
        obtain ⟨i, hi, hget⟩ := Option.bind_eq_some_iff.mp (hin id v (mem_segmentEntries.mpr hv))
        rw [hi, Option.map_some, getVector_opened, hget]
        rfl
    | none =>
        have hnot : id ∉ c.segmentEntries.map Prod.fst := by
          intro hid
          obtain ⟨⟨key, v⟩, he, rfl⟩ := List.mem_map.mp hid
          rw [mem_segmentEntries.mp he] at hv
          cases hv
        have hnone : idx.lookup id = none := hout id hnot
        rw [hnone]
        rfl
  · intro i hi
    rw [getVector_opened, hrow, List.getElem?_eq_none hi]
    rfl

/-- **Segments round-trip together with their id map**: whatever vectors are in
memory, written as a checkpoint does they read back as they were, every id's own. -/
theorem segment_round_trip {c : Collection} (hd : c.config.dimension < 2 ^ 32)
    (hlen : ∀ id v, c.memVector id = some v → v.length = c.config.dimension)
    (hcount : c.segmentEntries.length < 2 ^ 32)
    (hsize : headerSize + c.segmentEntries.length * c.config.dimension * 4 < 2 ^ 64) :
    ∃ w idx m s,
      writeRows (SegmentWriter.new c.config.dimension) ∅ c.segmentEntries = some (w, idx) ∧
      m.bytes = written w ∧ fromFile m = some (.ok s) ∧ ReadsBack c idx s := by
  have hnew : (SegmentWriter.new c.config.dimension).dimension = c.config.dimension :=
    Nat.mod_eq_of_lt hd
  have hzero : (SegmentWriter.new c.config.dimension).count = 0 := rfl
  have hvalid : ∀ e ∈ c.segmentEntries,
      e.2.length = (SegmentWriter.new c.config.dimension).dimension := by
    rintro ⟨id, v⟩ he
    rw [hnew]
    exact hlen id v (mem_segmentEntries.mp he)
  obtain ⟨⟨w, idx⟩, hrows⟩ := exists_writeRows_iff.mpr hvalid
  obtain ⟨hdim, hlast⟩ := writeRows_shape hrows
  rw [hnew] at hdim
  rw [hzero, Nat.zero_add] at hlast
  have hw : Fits w := ⟨hdim ▸ hd, hlast ▸ hcount, by rw [hdim, hlast]; exact hsize⟩
  exact ⟨w, idx, mapped w hw, opened w hw, hrows, rfl, fromFile_mapped hw,
    readsBack_opened hw hdim hlast hrows⟩

/-- Two of three records, one of them with a new vector. -/
theorem segment_round_trip_demo : ∃ c : Collection, c.memVector "a" = some two ∧
    c.memVector "c" = some two ∧ ∃ w idx m s,
      writeRows (SegmentWriter.new c.config.dimension) ∅ c.segmentEntries = some (w, idx) ∧
      m.bytes = written w ∧ fromFile m = some (.ok s) ∧ ReadsBack c idx s := by
  obtain ⟨c, hrun, hP⟩ : ∃ c, runAll [.add true ["a", "b", "c"] [zero, one, two] none none,
      .upsert true ["a"] [two] none none, .delete ["b"]] (Collection.fresh demoConfig) = .ok c ∧
      decide (c.config.dimension = 1 ∧ c.segmentEntries.length = 2 ∧
        (∀ e ∈ c.segmentEntries, e.2.length = 1) ∧ c.memVector "a" = some two ∧
          c.memVector "c" = some two) = true := exists_runAll (by decide +kernel)
  obtain ⟨hdim, hcount, hlength, ha, hc⟩ := of_decide_eq_true hP
  refine ⟨c, ha, hc, segment_round_trip ?_ ?_ ?_ ?_⟩
  · rw [hdim]
    decide
  · intro id v hv
    rw [hdim]
    exact hlength (id, v) (mem_segmentEntries.mpr hv)
  · rw [hcount]
    decide
  · rw [hcount, hdim]
    decide

end Rekha.SegmentFile
