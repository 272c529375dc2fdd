import InvariantFs.DeltaRecord

namespace InvariantFs.DeltaSegment

open ByteCodec DeltaRecord List

def blockSize : Nat := 4096

def segBlocks : Nat := 32

def segBytes : Nat := segBlocks * blockSize

def segHdrLen : Nat := 44

structure SegHdr where
  segSeq : Nat
  prevPba : Nat
  deriving DecidableEq, Repr

/-- The magic `DSG3`, the version, the header length and the segment's block count. -/
def hdrFixed : List Byte := [0x44, 0x53, 0x47, 0x33] ++ wr32be 1 ++ wr32be segHdrLen ++ wr32be segBlocks

variable (crc : List Byte → UInt32)

def hdrBody (segSeq prevPba : Nat) : List Byte :=
  hdrFixed ++ wr64be segSeq ++ wr64be prevPba ++ wr64be 0

/-- `delta_hdr_encode`: the checksum covers the header with its own four bytes zeroed. -/
def hdrEncode (segSeq prevPba : Nat) : List Byte :=
  hdrBody segSeq prevPba ++ wr32 (crc (hdrBody segSeq prevPba ++ replicate 4 0))

def hdrDecode (raw : List Byte) : Option SegHdr :=
  if raw.length < segHdrLen ∨ raw.take 16 ≠ hdrFixed then none
  else if (raw.drop 40).take 4 ≠ wr32 (crc (raw.take 40 ++ replicate 4 0)) then none
  else some ⟨rd64be ((raw.drop 16).take 8), rd64be ((raw.drop 24).take 8)⟩

/-- `delta_read_hdr` on a volume of `total` blocks. -/
def readHdr (total : Nat) (m : Nat → List Byte) (pba : Nat) : Option SegHdr :=
  if pba = 0 ∨ total ≤ pba then none else hdrDecode crc ((m pba).take segHdrLen)

/-- The image `delta_new_segment` writes: a header and a zeroed payload. -/
def emptySegment (segSeq prevPba : Nat) : List Byte :=
  hdrEncode crc segSeq prevPba ++ replicate (segBytes - segHdrLen) 0

/-- The records `delta_replay_segment` accepts from a segment image, pads included. -/
def segRecords (image : List Byte) : List Rec := scanValid crc (image.drop segHdrLen)

@[simp]
theorem length_hdrFixed : hdrFixed.length = 16 := rfl

@[simp]
theorem length_hdrBody (q p : Nat) : (hdrBody q p).length = 40 := rfl

@[simp]
theorem length_hdrEncode (q p : Nat) : (hdrEncode crc q p).length = segHdrLen := by
  simp [hdrEncode, segHdrLen]

theorem hdrBody_fields (q p : Nat) (tail : List Byte) : (hdrBody q p ++ tail).take 16 = hdrFixed ∧
      ((hdrBody q p ++ tail).drop 16).take 8 = wr64be q ∧ ((hdrBody q p ++ tail).drop 24).take 8 = wr64be p := by
  have h1 : hdrBody q p ++ tail = hdrFixed ++ (wr64be q ++ (wr64be p ++ (wr64be 0 ++ tail))) := by simp [hdrBody]
  have h2 : hdrBody q p ++ tail = (hdrFixed ++ wr64be q) ++ (wr64be p ++ (wr64be 0 ++ tail)) := by simp [hdrBody]
  refine ⟨?_, ?_, ?_⟩
  · rw [h1]
    exact take_left' rfl
  · rw [h1, drop_left' length_hdrFixed]
    exact take_left' (length_wr64be q)
  · rw [h2, drop_left' (by simp)]
    exact take_left' (length_wr64be p)

theorem hdrDecode_hdrEncode {q p : Nat} (hp : p < 2 ^ 64) :
    hdrDecode crc (hdrEncode crc q p) = some ⟨rd64be (wr64be q), p⟩ := by
  obtain ⟨hfix, hseq, hprev⟩ := hdrBody_fields q p (wr32 (crc (hdrBody q p ++ replicate 4 0)))
  rw [← hdrEncode] at hfix hseq hprev
  have hlen : ¬ (hdrEncode crc q p).length < segHdrLen := by simp
  have ht : (hdrEncode crc q p).take 40 = hdrBody q p := take_left' rfl
  have hd : (hdrEncode crc q p).drop 40 = wr32 (crc (hdrBody q p ++ replicate 4 0)) := drop_left' rfl
  have hc : ((hdrEncode crc q p).drop 40).take 4 =
      wr32 (crc ((hdrEncode crc q p).take 40 ++ replicate 4 0)) := by
    rw [ht, hd]
    exact take_of_length_le (by simp)
  rw [hdrDecode, if_neg (not_or.mpr ⟨hlen, not_not.mpr hfix⟩), if_neg (not_not.mpr hc), hseq, hprev,
    rd64be_wr64be hp]

theorem readHdr_encoded {total pba q p : Nat} {m : Nat → List Byte} {rest : List Byte}
    (h0 : pba ≠ 0) (ht : pba < total) (hp : p < 2 ^ 64) (hm : m pba = hdrEncode crc q p ++ rest) :
    readHdr crc total m pba = some ⟨rd64be (wr64be q), p⟩ := by
  have htake : (m pba).take segHdrLen = hdrEncode crc q p := by rw [hm, ← length_hdrEncode crc q p, take_left]
  rw [readHdr, if_neg (by omega), htake, hdrDecode_hdrEncode crc hp]

theorem segRecords_encoded (q p : Nat) (rs : List Rec) (rest : List Byte) (hs : Stops crc rest) :
    segRecords crc (hdrEncode crc q p ++ (rs.flatMap (recBytes crc) ++ rest)) = rs := by
  rw [segRecords, ← length_hdrEncode crc q p, drop_left, scanValid_records crc rs rest hs]

end InvariantFs.DeltaSegment
