import InvariantFs.Retire

namespace InvariantFs.Dedupe

open ByteCodec FileRead Retire

variable {H : Type} [LinearOrder H]

/-- `dedup_seg`: a stored segment, by the entry that names it. -/
structure Seg (H : Type) where
  hash : H
  inode : Nat
  lba : Nat
  pba : Nat

/-- `merge_ent`: the entry `lba` of an inode goes from one segment to another. -/
structure Merge where
  inode : Nat
  lba : Nat
  cur : Nat
  canon : Nat
  deriving DecidableEq

def stored (v : Vol) (pba : Nat) : List Byte := v.bytes (pba * blockSize) (8 + v.csize pba)

/-- The entries `dedup_v3_walk_cb` takes up. -/
def eligible (v : Vol) (e : Entry) : Bool :=
  e.zone ≠ .text ∧ e.algo ≠ .jxl ∧ e.algo ≠ .ape ∧ e.algo ≠ .exer ∧ e.pba ≠ 0 ∧ e.pba < v.total ∧
    v.csize e.pba ≠ 0 ∧ v.csize e.pba + 8 ≤ (v.total - e.pba) * blockSize ∧
    v.csize e.pba ≤ 16 * 1024 * 1024

/-- `dedup_v3_walk_cb` -/
def walk (hash : List Byte → H) (v : Vol) (name : List Byte × Nat) : List (Seg H) :=
  match v.row name.2 with
  | none => []
  | some row =>
    if ¬ countedRow name.2 row ∨ ownerName name.1 then []
    else match row.blob with
      | .ast r => (r.ents.filter (eligible v)).map fun e =>
          ⟨hash (stored v e.pba), name.2, e.blockId, e.pba⟩
      | _ => []

/-- `dedup_cmp` -/
def Seg.key (s : Seg H) : H ×ₗ Nat ×ₗ Nat := toLex (s.hash, toLex (s.inode, s.lba))

def sortSegs (segs : List (Seg H)) : List (Seg H) :=
  segs.insertionSort fun a b => a.key ≤ b.key

def curPba (v : Vol) (i lba : Nat) : Nat :=
  match v.row i with
  | some ⟨.file, _, .ast r, _⟩ | some ⟨.dir, _, .ast r, _⟩ =>
    let first := ((r.ents.find? fun e => e.blockId = lba).map Entry.pba).getD 0
    match r.ents[lba]? with
    | some e => if e.blockId = lba then e.pba else first
    | none => first
  | _ => 0

def mergeOf (v : Vol) (canon s : Seg H) : List Merge :=
  let cur := curPba v s.inode s.lba
  if cur = 0 ∨ cur = canon.pba then [] else [⟨s.inode, s.lba, cur, canon.pba⟩]

def scan (v : Vol) : Option (Seg H) → List (Seg H) → List Merge
  | _, [] => []
  | none, s :: ss => scan v (some s) ss
  | some c, s :: ss => if s.hash = c.hash then mergeOf v c s ++ scan v (some c) ss else scan v (some s) ss

/-- `merge_ent_cmp` -/
def Merge.key (m : Merge) : Nat ×ₗ Nat := toLex (m.inode, m.lba)

def sortMerges (ms : List Merge) : List Merge := ms.insertionSort fun a b => a.key ≤ b.key

/-- Move the first entry with the number of a merge, if it is still where the merge has seen it. -/
def patch (m : Merge) : List Entry → List Entry
  | [] => []
  | e :: es =>
    if e.blockId = m.lba then
      if e.pba = m.cur ∧ m.cur ≠ m.canon then { e with pba := m.canon } :: es else e :: es
    else e :: patch m es

def applies (m : Merge) (es : List Entry) : Bool :=
  (es.find? fun e => e.blockId = m.lba).any fun e => e.pba = m.cur ∧ m.cur ≠ m.canon

def patchAll (ms : List Merge) (es : List Entry) : List Entry × List Merge :=
  ms.foldl (fun p m => (patch m p.1, if applies m p.1 then p.2 ++ [m] else p.2)) (es, [])

/-- What the volume answers to the rewrite of one file: the recipe is stored and the row put, and a
fence comes behind it. `map` is the reference map that the fence finds. -/
structure Env where
  put : Bool
  fence : Bool
  map : Option (List Nat)

/-- `dedup_remap_file_v3`. The new recipe is made of the size of the row and the entries. -/
def remapFile (env : Env) (d : Disk) (i : Nat) (ms : List Merge) : Option Disk :=
  (d.vol.row i).bind fun row =>
    match row.type, row.blob with
    | .link, _ => some d
    | _, .ast r =>
      let p := patchAll ms r.ents
      if p.2 = [] then some d
      else if ¬ env.put then none
      else
        some (retirePbas (putRow d i { row with blob := .ast ⟨row.size, p.1, .none⟩ }) i
          (p.2.map Merge.cur) (p.2.map Merge.canon))
    | _, _ => none

/-- One file after the other. An error ends the pass and leaves what has been merged. -/
def remapAll : List (List Merge) → List Env → Disk → Disk
  | [], _, d => d
  | _, [], d => d
  | ms :: rest, env :: envs, d =>
    match ms with
    | [] => remapAll rest envs d
    | m :: _ =>
      match remapFile env d m.inode ms with
      | none => d
      | some d' => remapAll rest envs (if env.fence then fence env.map d' else d')

def merges (hash : List Byte → H) (d : Disk) : List Merge :=
  scan d.vol none (sortSegs (d.names.flatMap (walk hash d.vol)))

/-- `vol_sweep_dedupe_ex` on a writable volume. -/
def sweepDedupe (hash : List Byte → H) (envs : List Env) (d : Disk) : Disk :=
  remapAll ((sortMerges (merges hash d)).splitBy fun a b => a.inode = b.inode) envs d

end InvariantFs.Dedupe
