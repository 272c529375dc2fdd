import InvariantFs.ByteCodec
import InvariantFs.Spans

namespace InvariantFs.FileRead

open ByteCodec Spans

inductive Zone where
  | raw | text | binary
  deriving DecidableEq

/-- What an entry's payload is coded with. `pack` is an algorithm of a codec pack. -/
inductive Algo where
  | none | zstd | ppmd | ape | jxl | lz4 | wv | flacr | tarr | gzr | pngr | pmp | zipr | zstdBcj
  | exer | windowSrc | nbli | child | pack (id : Nat)
  deriving DecidableEq

structure Entry where
  fileOffset : UInt64
  length : UInt64
  zone : Zone
  algo : Algo
  blockId : Nat
  blockOffset : Nat
  pba : Nat
  deriving DecidableEq

def Entry.lo (e : Entry) : Nat := e.fileOffset.toNat

def Entry.hi (e : Entry) : Nat := (e.fileOffset + e.length).toNat

def Entry.len (e : Entry) : Nat := e.length.toNat

structure Window where
  srcOff : Nat
  srcLen : Nat
  transform : Nat
  windowBits : Int
  deriving DecidableEq

/-- The section behind the entries. A child is given by its entries; `none` is a child whose recipe
does not load or has children of its own. -/
inductive Tail where
  | none
  | windows (ws : List Window)
  | children (cs : List (Option (List Entry)))
  deriving DecidableEq

/-- A recipe blob that `vol_ast_recipe_parse` and `vol_ast_recipe_tail` accept. -/
structure Recipe where
  size : Nat
  ents : List Entry
  tail : Tail
  deriving DecidableEq

inductive Kind where
  | dir | file | link
  deriving DecidableEq

/-- What stands behind the recipe address of a row: the zero address, a blob that does not load or
parse, the target of a link, or a recipe. -/
inductive Blob where
  | zero
  | lost
  | raw (bs : List Byte)
  | ast (r : Recipe)
  deriving DecidableEq

/-- The fields of a row that no read looks at. -/
structure Attrs where
  mode : Nat := 0
  uid : Nat := 0
  gid : Nat := 0
  mtime : Int := 0
  atime : Int := 0
  nlink : Nat := 0
  rdev : Nat := 0
  deriving DecidableEq

structure Row where
  type : Kind
  size : Nat
  blob : Blob
  attrs : Attrs
  deriving DecidableEq

/-- A byte of a buffer; `none` if nobody has written it since it was allocated. -/
abbrev Cell := Option Byte

def determined (cs : List Cell) : Option (List Byte) :=
  if cs.all Option.isSome then some (cs.filterMap id) else none

structure Codec where
  container : Bool
  seek : Bool
  wholeFile : Bool

/-- The codecs, and what of the reader is not recipe code: `lane` rebuilds a whole file out of its blob and its
siblings, `mapRead` is `cpack_map_read`, `rescue` recovers a segment whose own frame is damaged. -/
structure Codecs where
  crc : List Byte → UInt32
  lz4 : List Byte → Nat → Option (List Byte)
  zstd : List Byte → Nat → Option (List Byte)
  ppmd : List Byte → Nat → Option (List Byte)
  bcj : List Byte → List Byte
  bcj_length : ∀ bs, (bcj bs).length = bs.length
  inflate : Int → List Byte → Option (List Byte)
  packs : Nat → Option Codec
  lane : Algo → (String → Option (List Byte)) → List Byte → Nat → Option (List Byte)
  mapRead : Nat → Nat → Nat → Nat → Option (List Byte)
  rescue : Nat → Option (List Byte)

def bareCodecs : Codecs where
  crc _ := 0
  lz4 _ _ := none
  zstd _ _ := none
  ppmd _ _ := none
  bcj := id
  bcj_length _ := rfl
  inflate _ _ := none
  packs _ := none
  lane _ _ _ _ := none
  mapRead _ _ _ _ := none
  rescue _ := none

/-- A volume as the readers see it. `sibling` looks up the path of an inode with a suffix. -/
structure Vol where
  codecs : Codecs
  total : Nat
  dev : Nat → Byte
  row : Nat → Option Row
  named : Nat → Bool
  sibling : Nat → String → Option Nat

def blockSize : Nat := 4096

def Vol.bytes (v : Vol) (off n : Nat) : List Byte := (List.range n).map fun k => v.dev (off + k)

def Vol.csize (v : Vol) (pba : Nat) : Nat := leNat (v.bytes (pba * blockSize) 4)

/-- `seg_read_once` with an unknown extent -/
def Vol.segReadOnce (v : Vol) (pba least : Nat) : Option (List Byte) :=
  let csize := v.csize pba
  let crcHdr := leNat (v.bytes (pba * blockSize + 4) 4)
  let blob := v.bytes (pba * blockSize + 8) csize
  if csize < least ∨ (v.total - pba) * blockSize < csize + 8 then none
  else if crcHdr ≠ 0 ∧ (v.codecs.crc blob).toNat ≠ crcHdr then none
  else some blob

def Vol.segReadChecked (v : Vol) (pba least : Nat) : Option (List Byte) :=
  (v.segReadOnce pba least).or ((v.codecs.rescue pba).filter fun bs => least ≤ bs.length)

def exactly (n : Nat) (x : Option (List Byte)) : Option (List Byte) := x.filter fun bs => bs.length = n

/-- A count as an `int`. -/
def toInt (n : Nat) : Int := Int.bmod n 0x100000000

/-- `LZ4_decompress_safe` as its callers take it, which hand over the length as an `int` and compare the answer
with it. A negative capacity is answered with -1. -/
def Codecs.lz4Into (c : Codecs) (blob : List Byte) (len : Nat) : Option (List Byte) :=
  if toInt len = -1 then some []
  else if toInt len < 0 then none
  else exactly (toInt len).toNat (c.lz4 blob (toInt len).toNat)

/-- A segment's buffer, behind the bytes that were written to it as it was allocated. -/
def behind (len : Nat) (bs : List Byte) : List Cell := bs.map some ++ List.replicate (len - bs.length) none

def batchAlgo : Algo → Bool
  | .ppmd | .zstd | .zstdBcj => true
  | _ => false

def frameOk (algo : Algo) (hdr len : Nat) : Bool :=
  match algo with
  | .none => hdr = len
  | .lz4 | .zstd => hdr < len ∧ hdr ≠ 0
  | _ => true

def Vol.batch (v : Vol) (e : Entry) : Option (List Byte) :=
  if e.pba = 0 ∨ v.total ≤ e.pba then none
  else (v.segReadChecked e.pba 6).bind fun blob =>
    let usize := leNat (blob.take 4)
    if usize = 0 ∨ 2 ^ 26 < usize then none
    else match e.algo with
      | .ppmd => exactly usize (v.codecs.ppmd (blob.drop 4) usize)
      | .zstd | .zstdBcj => exactly usize (v.codecs.zstd (blob.drop 4) usize)
      | _ => none

/-- `vol_read_text_slice`: `want` bytes from `off` on of a member of a batch. The filter of a BCJ
member is undone over the member as a whole. -/
def Vol.textSlice (v : Vol) (e : Entry) (off want : Nat) : Option (List Byte) :=
  if want = 0 then some []
  else if e.len < off + want then none
  else (v.batch e).bind fun batch =>
    if e.algo = .zstdBcj then
      if batch.length < e.blockOffset + e.len then none
      else some (((v.codecs.bcj ((batch.drop e.blockOffset).take e.len)).drop off).take want)
    else
      if batch.length < e.blockOffset + off + want then none
      else some ((batch.drop (e.blockOffset + off)).take want)

/-- The bytes that decoding a segment writes. -/
def Vol.plainSegment (v : Vol) (e : Entry) : Option (List Byte) :=
  if e.pba = 0 ∨ v.total ≤ e.pba then none
  else (v.segReadChecked e.pba 1).bind fun blob =>
    match e.algo with
    | .lz4 => v.codecs.lz4Into blob e.len
    | .zstd => exactly e.len (v.codecs.zstd blob e.len)
    | .none => exactly e.len (some blob)
    | _ => none

/-- `invfs_codec_by_algo_vol`: a row of the registry, if there is one. -/
def Vol.codec (v : Vol) : Algo → Option Codec
  | .windowSrc | .child | .zstdBcj => none
  | .pack id => v.codecs.packs id
  | _ => some ⟨false, false, false⟩

def laneAlgo : Algo → Bool
  | .flacr | .tarr | .gzr | .pngr | .nbli | .pmp | .ape | .jxl | .exer => true
  | _ => false

def Vol.algoIsWholeFile (v : Vol) (algo : Algo) : Bool :=
  laneAlgo algo ||
    match v.codec algo with
    | none => false
    | some c => c.wholeFile && !(c.seek && c.container)

def Vol.hasMap (v : Vol) (i : Nat) : Bool := (v.sibling i "mbrmap").isSome

def Vol.maybeMapped (v : Vol) (algo : Algo) : Bool :=
  match v.codec algo with
  | none => true
  | some c => c.container && c.seek

/-- Where the first index is whose entry ends behind a position. Short recipes are walked. -/
def startIdx (ents : List Entry) (off : Nat) : Nat :=
  if 8 < ents.length then
    bisect (fun m => decide ((ents[m]?.map Entry.hi).getD 0 ≤ off)) ents.length 0 ents.length
  else 0

def inBounds (size : Nat) (e : Entry) : Bool := e.lo ≤ size ∧ e.hi ≤ size ∧ e.lo ≤ e.hi

/-- What `vol_decode_ast_entries` asks of the entries before it decodes one. -/
def laid (size : Nat) (ents : List Entry) : Bool :=
  ents.all (inBounds size) && decide (ents.IsChain fun x y => x.hi ≤ y.lo)

section Range

variable (v : Vol)

def childStep (e : Entry) (a b : Nat) (f : Filled Cell) : Option (Filled Cell) :=
  if e.algo = .child then none
  else if e.zone = .text ∧ batchAlgo e.algo then
    (v.textSlice e (a - e.lo) (b - a)).map fun bs => f.put a (bs.map some)
  else (v.plainSegment e).map fun bs => f.put a (((behind e.len bs).drop (a - e.lo)).take (b - a))

/-- One entry in a ranged read. `noMap` is set if the file is a container that has lost its map. -/
def rangeStep (whole : Nat → Option (List Cell)) (noMap : Bool) (i : Nat) (tail : Tail) (e : Entry)
    (a b : Nat) (f : Filled Cell) : Option (Filled Cell) :=
  if e.algo = .child then
    match tail with
    | .children cs =>
      match cs[e.blockId]? with
      | some (some ents) =>
        fill Entry.lo Entry.hi (childStep v) a b (ents.drop (startIdx ents a)) f
      | _ => none
    | _ => none
  else if e.zone = .text ∧ batchAlgo e.algo then
    (v.textSlice e (a - e.lo) (b - a)).map fun bs => f.put a (bs.map some)
  else if noMap ∨ v.algoIsWholeFile e.algo then
    (whole i).map fun all => f.put a ((all.drop a).take (b - a))
  else (v.plainSegment e).map fun bs => f.put a (((behind e.len bs).drop (a - e.lo)).take (b - a))

/-- The part of `read_range` behind the load of the recipe. A count that falls short is an error. -/
def Vol.rangeAst (whole : Nat → Option (List Cell)) (i : Nat) (r : Recipe) (size off len : Nat) :
    Option (List Cell) :=
  if r.size ≠ size ∨ ¬ r.ents.all (inBounds size) then none
  else
    let maybe := match r.ents with
      | [] => false
      | e :: _ => v.maybeMapped e.algo && v.named i
    let container := match r.ents with
      | [] => false
      | e :: _ => (v.codec e.algo).any Codec.container
    if maybe && v.hasMap i then (exactly len (v.codecs.mapRead i size off len)).map (·.map some)
    else
      (fill Entry.lo Entry.hi (rangeStep v whole (maybe && container) i r.tail) off (off + len)
        (r.ents.drop (startIdx r.ents off)) ⟨fun _ => none, 0⟩).bind fun f =>
          if f.got = len then some ((List.range len).map fun k => f.buf (off + k)) else none

/-- `read_range`, given the reader of whole files. -/
def Vol.readRange (whole : Nat → Option (List Cell)) (i off len : Nat) : Option (List Cell) :=
  (v.row i).bind fun row =>
    let len := min len (row.size - off)
    if row.size = 0 ∨ row.blob = .zero ∨ row.size ≤ off ∨ len = 0 then some []
    else match row.type, row.blob with
      | .link, .raw bs => some ((((bs.take row.size).drop off).take len).map some)
      | .link, _ => none
      | _, .ast r => v.rangeAst whole i r row.size off len
      | _, _ => none

/-- What `vol_read_range` returns, -1 for a failure. -/
def rangeRet : Option (List Cell) → Int
  | none => -1
  | some cs => toInt cs.length

end Range

section Whole

variable (v : Vol) (range : Nat → Nat → Nat → Option (List Cell)) (sib : String → Option (List Byte))

/-- A window entry: a range of another file, whose inode stands in the place of the block. -/
def windowBytes (r : Recipe) (e : Entry) : Option (List Byte) :=
  match r.tail with
  | .windows ws =>
    (ws[e.blockId]?).bind fun w =>
      if e.pba = 0 ∨ v.row e.pba = none then none
      else
        let src := range e.pba w.srcOff w.srcLen
        if rangeRet src ≠ w.srcLen then none
        else (src.bind determined).bind fun bs =>
          match w.transform with
          | 0 => if w.srcLen < e.len then none else some (bs.take e.len)
          | 1 => exactly e.len (v.codecs.inflate w.windowBits bs)
          | _ => none
  | _ => none

def segmentBytes (i : Nat) (e : Entry) : Option (List Byte) :=
  if e.pba = 0 ∨ v.total ≤ e.pba then none
  else (v.segReadChecked e.pba 1).bind fun blob =>
    if ¬ frameOk e.algo blob.length e.len then none
    else match e.algo with
      | .lz4 => v.codecs.lz4Into blob e.len
      | .zstd => exactly e.len (v.codecs.zstd blob e.len)
      | .none => some blob
      | a =>
        if laneAlgo a then exactly e.len (v.codecs.lane a sib blob e.len)
        else if v.maybeMapped a ∧ v.hasMap i then
          exactly e.len (v.codecs.mapRead i e.len e.lo e.len)
        else if (v.codec a).isNone then none
        else exactly e.len (v.codecs.lane a sib blob e.len)

/-- `vol_decode_child_full`: the answer is compared as an `int`, so a span of 2^32 - 1 bytes takes the
failure for its length. -/
def childCells (i : Nat) (e : Entry) : Option (List Cell) :=
  if e.len = 0 then some []
  else
    let got := range i e.lo e.len
    if rangeRet got ≠ toInt e.len then none else some (got.getD (List.replicate e.len none))

/-- One entry of `vol_decode_ast_entries`: where its bytes go, and the bytes. The parts of an
executable are put together from the start of the file. -/
def decodeEntry (i : Nat) (r : Recipe) (e : Entry) : Option (Nat × List Cell) :=
  if e.algo = .child then (childCells range i e).map fun cs => (e.lo, cs)
  else if e.zone = .text ∧ batchAlgo e.algo then
    (v.textSlice e 0 e.len).map fun bs => (e.lo, bs.map some)
  else if e.algo = .windowSrc then
    (windowBytes v range r e).map fun bs => (e.lo, bs.map some)
  else
    (segmentBytes v sib i e).map fun bs => (if e.algo = .exer then 0 else e.lo, behind e.len bs)

def decodeAll (dec : Entry → Option (Nat × List Cell)) : List Entry → (Nat → Cell) → Option (Nat → Cell)
  | [], d => some d
  | e :: es, d => (dec e).bind fun p => decodeAll dec es (place d p.1 p.2)

/-- `vol_decode_ast_entries` into a buffer that has just been allocated. -/
def decodeEntries (i : Nat) (r : Recipe) : Option (List Cell) :=
  if ¬ laid r.size r.ents then none
  else (decodeAll (decodeEntry v range sib i r) r.ents fun _ => none).map fun d =>
    (List.range r.size).map d

end Whole

/-- `vol_read_inode`. Windows and siblings are read in turn, `n` of them nested at most. -/
def Vol.readInode (v : Vol) : Nat → Nat → Option (List Cell)
  | 0, _ => none
  | n + 1, i => (v.row i).bind fun row =>
    if row.size = 0 ∨ row.blob = .zero then some []
    else match row.type, row.blob with
      | .link, .raw bs => some (bs.map some)
      | .link, _ => none
      | _, .ast r =>
        if r.size ≠ row.size then none
        else decodeEntries v (v.readRange (v.readInode n))
          (fun s => ((v.sibling i s).bind (v.readInode n)).bind determined) i r
      | _, _ => none

/-- `vol_read_file` ends with the bytes `d`. -/
def Vol.ReadsFile (v : Vol) (i : Nat) (d : List Cell) : Prop :=
  ∃ N, ∀ n, N ≤ n → v.readInode n i = some d

/-- `vol_read_range` returns `ret`, with `cs` in the caller's buffer. -/
def Vol.ReadsRange (v : Vol) (i off len : Nat) (ret : Int) (cs : List Cell) : Prop :=
  ∃ N, ∀ n, N ≤ n → ∃ x, v.readRange (v.readInode n) i off len = x ∧ ret = rangeRet x ∧
    cs = x.getD []

theorem decodeAll_none {dec : Entry → Option (Nat × List Cell)} {e : Entry} {es : List Entry} (he : e ∈ es)
    (h : dec e = none) (d : Nat → Cell) : decodeAll dec es d = none := by
  induction es generalizing d with
  | nil => simp at he
  | cons x xs ih =>
    rw [decodeAll]
    obtain rfl | he := List.mem_cons.mp he
    · simp [h]
    · simp [ih he]

end InvariantFs.FileRead
