import Rekha.Core.Types
import Rekha.Lib.Bytes

/-!
# Segment files, byte by byte

A segment file is a 32-byte header and one row-major block of floats. Opening
one checks the header, the bounds and the checksum of the block; afterwards rows
are cut out of the mapped bytes with no further check than that of the slice.
Lengths and offsets are `usize` of 64 bits and wrap around as in a release
build. A range outside the file is a panic, modelled by `none`.

The header's two 32-bit fields multiply to more than a `usize` can hold, and
then the checks are made on a remainder. Opening is safe on exactly the files
where they do not overflow or the remainder is rejected (`open_safe_iff`).
-/

namespace Rekha.SegmentFile

open Bytes

def magic : List UInt8 := [82, 75, 83, 71]
def version : ℕ := 1
def headerSize : ℕ := 32

/-- `usize` of a 64-bit release build. -/
def wrap (n : ℕ) : ℕ := n % 2 ^ 64

inductive SegmentError where
  | io (msg : String)
  | serialization (msg : String)

/-! ## Header -/

structure SegmentHeader where
  dimension : UInt32
  count : UInt32
  checksum : UInt32

/-- A `u32` in its four bytes. -/
def u32 (n : UInt32) : List UInt8 := toLe 4 n.toNat

def readU32 (l : List UInt8) : UInt32 := UInt32.ofNat (ofLe l)

def SegmentHeader.encode (h : SegmentHeader) : List UInt8 :=
  magic ++ toLe 4 version ++ u32 h.dimension ++ u32 h.count ++ u32 h.checksum ++
    List.replicate 12 0

/-- `buf[lo..hi]` of a buffer that reaches so far. -/
def field (buf : List UInt8) (lo hi : ℕ) : List UInt8 := (buf.drop lo).take (hi - lo)

def SegmentHeader.decode (buf : List UInt8) : Except SegmentError SegmentHeader :=
  if field buf 0 4 ≠ magic then
    .error (.serialization
      s!"segment bad magic: expected [82, 75, 83, 71], got {(field buf 0 4).map UInt8.toNat}")
  else if ofLe (field buf 4 8) ≠ version then
    .error (.serialization s!"segment unsupported version {ofLe (field buf 4 8)}")
  else .ok ⟨readU32 (field buf 8 12), readU32 (field buf 12 16), readU32 (field buf 16 20)⟩

/-! ## Mapped files -/

/-- The bytes of a file; their number is a `usize`. -/
structure Mmap where
  bytes : List UInt8
  bound : bytes.length < 2 ^ 64

/-- `&mmap[start..end]`. -/
def Mmap.slice (m : Mmap) (start stop : ℕ) : Option (List UInt8) :=
  if start ≤ stop ∧ stop ≤ m.bytes.length then some (field m.bytes start stop) else none

/-- `bytemuck::cast_slice` to floats, of a whole number of them. -/
def castSlice : List UInt8 → List F32
  | a :: b :: c :: d :: rest => ⟨BitVec.ofNat 32 (ofLe [a, b, c, d])⟩ :: castSlice rest
  | _ => []

structure Segment where
  mmap : Mmap
  header : SegmentHeader

/-- `{:#010x}`. -/
def hex (n : ℕ) : String :=
  let digits := Nat.toDigits 16 n
  String.ofList ('0' :: 'x' :: (List.replicate (8 - digits.length) '0' ++ digits))

/-- `read_exact` of the header, then its decoding. -/
def readHeader (m : Mmap) : Except SegmentError SegmentHeader :=
  if m.bytes.length < headerSize then .error (.io "failed to fill whole buffer")
  else SegmentHeader.decode (m.bytes.take headerSize)

def SegmentHeader.dataLen (h : SegmentHeader) : ℕ :=
  wrap (wrap (h.count.toNat * h.dimension.toNat) * 4)

/-- `data_start + data_len`. -/
def SegmentHeader.dataEnd (h : SegmentHeader) : ℕ := wrap (headerSize + h.dataLen)

/-- `Segment::from_file`. -/
def fromFile (m : Mmap) : Option (Except SegmentError Segment) :=
  match readHeader m with
  | .error e => some (.error e)
  | .ok h =>
      if m.bytes.length < h.dataEnd then
        some (.error (.serialization
          (s!"segment truncated: header says {h.dataLen} bytes of vector data, " ++
            s!"file has {m.bytes.length - headerSize}")))
      else (m.slice headerSize h.dataEnd).map fun data =>
        if crc32 data ≠ h.checksum then
          .error (.serialization
            (s!"segment checksum mismatch: expected {hex h.checksum.toNat}, " ++
              s!"got {hex (crc32 data).toNat}"))
        else .ok ⟨m, h⟩

namespace Segment

def len (s : Segment) : ℕ := s.header.count.toNat

def dimension (s : Segment) : ℕ := s.header.dimension.toNat

/-- The row at an index: `offset..offset + dim * 4`. -/
def row (s : Segment) (index : ℕ) : Option (List F32) :=
  let offset := wrap (headerSize + wrap (wrap (index * s.dimension) * 4))
  let stop := wrap (offset + wrap (s.dimension * 4))
  (s.mmap.slice offset stop).map castSlice

/-- A single vector by its sequential index. -/
def getVector (s : Segment) (index : ℕ) : Option (Option (List F32)) :=
  if s.len ≤ index then some none else (s.row index).map some

def iterVectors (s : Segment) : List (Option (List F32)) := (List.range s.len).map s.row

/-- Every row is a slice of `dimension` floats, and there are none past the end. -/
structure Safe (s : Segment) : Prop where
  get : ∀ i < s.len, ∃ v, s.getVector i = some (some v) ∧ v.length = s.dimension
  iter : ∀ r ∈ s.iterVectors, ∃ v, r = some v ∧ v.length = s.dimension
  past : ∀ i, s.len ≤ i → s.getVector i = some none

end Segment

/-- Opening returns an error or a segment all of whose rows can be read. -/
def OpensSafely (m : Mmap) : Prop :=
  ∃ result, fromFile m = some result ∧ ∀ s, result = .ok s → s.Safe

/-- The size in the header overflows, and the remainder passes for a bound and,
if a block is left of it, for the block that was checksummed. -/
def SegmentHeader.Overflows (h : SegmentHeader) (m : Mmap) : Prop :=
  2 ^ 64 ≤ headerSize + h.count.toNat * h.dimension.toNat * 4 ∧ h.dataEnd ≤ m.bytes.length ∧
    ∀ data, m.slice headerSize h.dataEnd = some data → crc32 data = h.checksum

/-! ## Rows -/

theorem length_castSlice (l : List UInt8) : (castSlice l).length = l.length / 4 := by
  induction l using castSlice.induct with
  | case1 a b c d rest ih =>
      rw [castSlice, List.length_cons, ih]
      simp only [List.length_cons]
      omega
  | case2 l hshort =>
      have hlt : l.length < 4 := by
        rcases l with _ | ⟨a, _ | ⟨b, _ | ⟨c, _ | ⟨d, rest⟩⟩⟩⟩
        · exact Nat.zero_lt_succ 3
        · exact Nat.lt_of_sub_pos (Nat.zero_lt_succ 2)
        · exact Nat.lt_of_sub_pos (Nat.zero_lt_succ 1)
        · exact Nat.lt_succ_self 3
        · exact (hshort a b c d rest rfl).elim
      rw [castSlice, Nat.div_eq_of_lt hlt]
      · rfl
      · exact hshort

namespace Segment

variable {s : Segment}

theorem row_of_fits (hfits : headerSize + s.len * s.dimension * 4 < 2 ^ 64)
    (hfile : headerSize + s.len * s.dimension * 4 ≤ s.mmap.bytes.length) {i : ℕ}
    (hi : i < s.len) : s.row i = some (castSlice (field s.mmap.bytes
      (headerSize + i * s.dimension * 4) (headerSize + (i + 1) * s.dimension * 4))) := by
  have hrow : (i + 1) * s.dimension ≤ s.len * s.dimension := Nat.mul_le_mul_right _ hi
  rw [Nat.succ_mul] at hrow ⊢
  have hoffset : wrap (headerSize + wrap (wrap (i * s.dimension) * 4)) =
      headerSize + i * s.dimension * 4 := by
    unfold wrap
    omega
  have hstop : wrap (headerSize + i * s.dimension * 4 + wrap (s.dimension * 4)) =
      headerSize + (i * s.dimension + s.dimension) * 4 := by
    unfold wrap
    omega
  rw [row, hoffset, hstop, Mmap.slice, if_pos ⟨by omega, by omega⟩]
  rfl

theorem exists_row (hfits : headerSize + s.len * s.dimension * 4 < 2 ^ 64)
    (hfile : headerSize + s.len * s.dimension * 4 ≤ s.mmap.bytes.length) {i : ℕ}
    (hi : i < s.len) : ∃ v, s.row i = some v ∧ v.length = s.dimension := by
  have hrow : (i + 1) * s.dimension ≤ s.len * s.dimension := Nat.mul_le_mul_right _ hi
  refine ⟨_, row_of_fits hfits hfile hi, ?_⟩
  rw [Nat.succ_mul] at hrow ⊢
  rw [length_castSlice, field, List.length_take, List.length_drop]
  omega

theorem exists_row_none (hover : 2 ^ 64 ≤ headerSize + s.len * s.dimension * 4)
    (hheader : headerSize ≤ s.mmap.bytes.length) : ∃ i < s.len, s.row i = none := by
  have hbound := s.mmap.bound
  have hdim : s.dimension < 2 ^ 32 := s.header.dimension.toNat_lt
  have hpos : 0 < s.dimension * 4 := by
    rcases Nat.eq_zero_or_pos s.dimension with hz | hpos
    · rw [hz, Nat.mul_zero] at hover
      exact absurd hover (by decide)
    · omega
  have hle := Nat.div_mul_le_self (s.mmap.bytes.length - headerSize) (s.dimension * 4)
  have hlt := Nat.lt_div_mul_add (a := s.mmap.bytes.length - headerSize) hpos
  rw [← Nat.mul_assoc] at hle hlt
  refine ⟨(s.mmap.bytes.length - headerSize) / (s.dimension * 4), ?_, ?_⟩
  · apply Nat.lt_of_mul_lt_mul_right (a := s.dimension * 4)
    rw [← Nat.mul_assoc, ← Nat.mul_assoc]
    omega
  · generalize (s.mmap.bytes.length - headerSize) / (s.dimension * 4) = i at hle hlt ⊢
    have hoffset : wrap (headerSize + wrap (wrap (i * s.dimension) * 4)) =
        headerSize + i * s.dimension * 4 := by
      unfold wrap
      omega
    rw [row, hoffset, Option.map_eq_none_iff]
    apply if_neg
    rintro ⟨hstart, hstop⟩
    unfold wrap at hstart hstop
    omega

theorem safe_of_fits (hfits : headerSize + s.len * s.dimension * 4 < 2 ^ 64)
    (hfile : headerSize + s.len * s.dimension * 4 ≤ s.mmap.bytes.length) : s.Safe where
  get := by
    intro i hi
    obtain ⟨v, hv, hlen⟩ := exists_row hfits hfile hi
    refine ⟨v, ?_, hlen⟩
    rw [getVector, if_neg (not_le.mpr hi), hv]
    rfl
  iter := by
    intro r hr
    obtain ⟨i, hi, rfl⟩ := List.mem_map.mp hr
    exact exists_row hfits hfile (List.mem_range.mp hi)
  past := fun i hi => if_pos hi

theorem not_safe_of_overflow (hover : 2 ^ 64 ≤ headerSize + s.len * s.dimension * 4)
    (hheader : headerSize ≤ s.mmap.bytes.length) : ¬ s.Safe := by
  intro hsafe
  obtain ⟨i, hi, hrow⟩ := exists_row_none hover hheader
  obtain ⟨v, hv, -⟩ := hsafe.get i hi
  rw [getVector, if_neg (not_le.mpr hi), hrow] at hv
  cases hv

end Segment

/-! ## Opening -/

theorem headerSize_le_of_readHeader {m : Mmap} {h : SegmentHeader} (hread : readHeader m = .ok h) :
    headerSize ≤ m.bytes.length := by
  rw [readHeader] at hread
  split at hread
  · cases hread
  · omega

theorem dataEnd_of_fits {h : SegmentHeader}
    (hfits : headerSize + h.count.toNat * h.dimension.toNat * 4 < 2 ^ 64) :
    h.dataEnd = headerSize + h.count.toNat * h.dimension.toNat * 4 := by
  unfold SegmentHeader.dataEnd SegmentHeader.dataLen wrap
  omega

section Open

variable {m : Mmap} {h : SegmentHeader}

theorem fromFile_truncated (hread : readHeader m = .ok h) (hbound : m.bytes.length < h.dataEnd) :
    ∃ e, fromFile m = some (.error e) := by
  rw [fromFile, hread]
  exact ⟨_, if_pos hbound⟩

theorem fromFile_panics (hread : readHeader m = .ok h) (hbound : h.dataEnd ≤ m.bytes.length)
    (hslice : m.slice headerSize h.dataEnd = none) : fromFile m = none := by
  rw [fromFile, hread]
  simp only [if_neg (not_lt.mpr hbound), hslice]
  rfl

theorem fromFile_mismatch {data : List UInt8} (hread : readHeader m = .ok h)
    (hbound : h.dataEnd ≤ m.bytes.length) (hslice : m.slice headerSize h.dataEnd = some data)
    (hcrc : crc32 data ≠ h.checksum) : ∃ e, fromFile m = some (.error e) := by
  rw [fromFile, hread]
  simp only [if_neg (not_lt.mpr hbound), hslice]
  exact ⟨_, congrArg some (if_pos hcrc)⟩

theorem fromFile_ok {data : List UInt8} (hread : readHeader m = .ok h)
    (hbound : h.dataEnd ≤ m.bytes.length) (hslice : m.slice headerSize h.dataEnd = some data)
    (hcrc : crc32 data = h.checksum) : fromFile m = some (.ok ⟨m, h⟩) := by
  rw [fromFile, hread]
  simp only [if_neg (not_lt.mpr hbound), hslice]
  exact congrArg some (if_neg (not_not.mpr hcrc))

theorem opensSafely_of_error {e : SegmentError} (he : fromFile m = some (.error e)) :
    OpensSafely m := by
  refine ⟨_, he, fun s hs => ?_⟩
  cases hs

theorem opensSafely_ok_iff (hread : readHeader m = .ok h) (hbound : h.dataEnd ≤ m.bytes.length)
    (hopen : fromFile m = some (.ok ⟨m, h⟩)) :
    OpensSafely m ↔ headerSize + h.count.toNat * h.dimension.toNat * 4 < 2 ^ 64 := by
  constructor
  · rintro ⟨result, hresult, hsafe⟩
    rw [hopen] at hresult
    obtain rfl := Option.some.inj hresult
    by_contra hover
    exact Segment.not_safe_of_overflow (s := ⟨m, h⟩) (not_lt.mp hover)
      (headerSize_le_of_readHeader hread) (hsafe _ rfl)
  · intro hfits
    refine ⟨_, hopen, ?_⟩
    rintro s hs
    obtain rfl := Except.ok.inj hs
    rw [dataEnd_of_fits hfits] at hbound
    exact Segment.safe_of_fits hfits hbound

end Open

/-- **Opening a file is safe exactly when the size in its header does not
overflow**, or the checks reject what is left of it. -/
theorem open_safe_iff (m : Mmap) :
    OpensSafely m ↔ ¬ ∃ h, readHeader m = .ok h ∧ h.Overflows m := by
  cases hread : readHeader m with
  | error e =>
      have hopen : fromFile m = some (.error e) := by rw [fromFile, hread]
      refine iff_of_true (opensSafely_of_error hopen) ?_
      rintro ⟨h, hok, -⟩
      cases hok
  | ok h =>
      simp only [Except.ok.injEq, exists_eq_left']
      by_cases hbound : m.bytes.length < h.dataEnd
      · obtain ⟨e, hopen⟩ := fromFile_truncated hread hbound
        exact iff_of_true (opensSafely_of_error hopen) fun hover =>
          absurd hbound (not_lt.mpr hover.2.1)
      have hbound := not_lt.mp hbound
      cases hslice : m.slice headerSize h.dataEnd with
      | none =>
          have hover : 2 ^ 64 ≤ headerSize + h.count.toNat * h.dimension.toNat * 4 := by
            by_contra hfits
            have hend := dataEnd_of_fits (not_le.mp hfits)
            have hsome : m.slice headerSize h.dataEnd = some _ :=
              if_pos ⟨hend ▸ Nat.le_add_right _ _, hbound⟩
            rw [hslice] at hsome
            cases hsome
          have hopen := fromFile_panics hread hbound hslice
          refine iff_of_false ?_ fun hnot => hnot ⟨hover, hbound, ?_⟩
          · rintro ⟨result, hresult, -⟩
            rw [hopen] at hresult
            cases hresult
          · intro data hdata
            rw [hslice] at hdata
            cases hdata
      | some data =>
          by_cases hcrc : crc32 data = h.checksum
          · rw [opensSafely_ok_iff hread hbound (fromFile_ok hread hbound hslice hcrc), ← not_le,
              not_iff_not]
            refine ⟨fun hover => ⟨hover, hbound, fun l hl => ?_⟩, And.left⟩
            rw [hslice] at hl
            rw [← Option.some.inj hl, hcrc]
          · obtain ⟨e, hopen⟩ := fromFile_mismatch hread hbound hslice hcrc
            exact iff_of_true (opensSafely_of_error hopen) fun hover =>
              hcrc (hover.2.2 data hslice)

/-- A header that promises `2 ^ 31` vectors of dimension `2 ^ 31`, and no data. -/
def hugeFile : Mmap :=
  ⟨SegmentHeader.encode ⟨0x80000000, 0x80000000, 0⟩, by decide⟩

/-- **A file of 32 bytes opens as a segment of `2 ^ 31` vectors**, and reading the
first of them is out of bounds. -/
theorem huge_segment_opens : ∃ s, fromFile hugeFile = some (.ok s) ∧ s.len = 2 ^ 31 ∧
    s.getVector 0 = none ∧ ¬ OpensSafely hugeFile := by
  have hread : readHeader hugeFile = .ok ⟨0x80000000, 0x80000000, 0⟩ := by rfl
  have hopen := fromFile_ok hread (by decide) (by rfl) (by decide)
  refine ⟨_, hopen, by decide, by decide, ?_⟩
  rw [opensSafely_ok_iff hread (by decide) hopen]
  decide

end Rekha.SegmentFile
