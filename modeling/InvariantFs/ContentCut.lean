import InvariantFs.RangedRead

namespace InvariantFs.ContentCut

open ByteCodec Spans FileRead

def cutDecodeSpan (v : Vol) (e : Entry) : Option (List Byte) :=
  if e.zone = .text ∨ e.algo = .windowSrc then none
  else if e.pba = 0 ∨ v.total ≤ e.pba then none
  else (v.segReadChecked e.pba 1).bind fun blob =>
    if ¬ frameOk e.algo blob.length e.len then none
    else if e.len = 0 ∨ 128 * 1024 * 1024 < e.len then none
    else match e.algo with
      | .none => some blob
      | .lz4 => exactly e.len (v.codecs.lz4 blob e.len)
      | .zstd => exactly e.len (v.codecs.zstd blob e.len)
      | _ => none

inductive Coh where
  | ok | size | bounds | overlap | coverage
  deriving DecidableEq

def engineName : Option (List Byte) → Bool
  | some (b :: _) => b = 1
  | _ => false

/-- The loop of `vol_recipe_coherence`: where the entry before ends, and what is covered so far. -/
def coherenceGo (size : Nat) : List Entry → Option Nat → UInt64 → Coh
  | [], _, cov => if cov.toNat ≠ size then .coverage else .ok
  | e :: es, prev, cov =>
    if ¬ inBounds size e then .bounds
    else if prev.any (fun p => e.lo < p) then .overlap
    else if cov + e.length < cov then .coverage
    else coherenceGo size es (some e.hi) (cov + e.length)

/-- `vol_recipe_coherence` of a recipe that parses. -/
def recipeCoherence (name : Option (List Byte)) (row : Row) (r : Recipe) : Coh :=
  if engineName name then .ok
  else if r.size ≠ row.size then .size
  else coherenceGo r.size r.ents none 0

/-- How the calls end that the pass makes for one inode: the read of its row, that of the row and the recipe in
the probe, the store of the new recipe, the read of the row to be replaced, and its write. -/
structure Answers where
  row : Bool
  probe : Bool
  store : Bool
  again : Bool
  put : Bool

/-- An inode that the walk over the live inodes hands to the pass, with the name it found for it. -/
structure Delivery where
  id : Nat
  name : Option (List Byte)
  answers : Answers

structure Probe where
  rowSize : Nat
  ents : List Entry
  firstBad : Nat
  goodPrefix : UInt64
  goodTail : Nat
  spans : List (Option (List Byte))

/-- The loop of `cut_probe_run`. As long as no span was bad, `firstBad` is the number of entries. -/
def probeGo (v : Vol) (nEnts : Nat) : List Entry → Nat → Probe → Probe
  | [], _, p => p
  | e :: es, i, p =>
    let p := { p with spans := p.spans ++ [cutDecodeSpan v e] }
    probeGo v nEnts es (i + 1)
      (if (cutDecodeSpan v e).isSome then
        if p.firstBad = nEnts then { p with goodPrefix := p.goodPrefix + e.length }
        else { p with goodTail := p.goodTail + 1 }
      else if p.firstBad = nEnts then { p with firstBad := i }
      else p)

def noRecipe (row : Row) : Bool :=
  row.type = .dir ∨ row.size = 0 ∨ row.blob = .zero ∨ row.type = .link

def cutProbeRun (v : Vol) (d : Delivery) : Option Probe :=
  (if d.answers.probe then v.row d.id else none).bind fun row =>
    if noRecipe row then none
    else match row.blob with
      | .ast r =>
        if recipeCoherence d.name row r ≠ .ok then none
        else some (probeGo v r.ents.length r.ents 0 ⟨row.size, r.ents, r.ents.length, 0, 0, []⟩)
      | _ => none

structure CutRow where
  id : Nat
  kept : Nat
  dropped : Nat
  badOff : Nat
  badLen : Nat
  badPba : Nat
  badSeg : Nat
  cut : Bool

structure Report where
  scanned : Nat := 0
  clean : Nat := 0
  torn : Nat := 0
  otherBad : Nat := 0
  cut : Nat := 0
  wouldCut : Nat := 0
  verifyFailed : Nat := 0
  cutBytes : Nat := 0
  dropBytes : Nat := 0
  ncut : Nat := 0
  nuncut : Nat := 0
  rows : List CutRow := []

/-- `cut_report_add`: past the last row of the table only the two counters move. -/
def cutReportAdd (rep : Report) (r : CutRow) : Report :=
  let rep := if r.cut then { rep with ncut := rep.ncut + 1 } else { rep with nuncut := rep.nuncut + 1 }
  if rep.rows.length = 32 then rep
  else { rep with
    rows := rep.rows ++ [r]
    cutBytes := if r.cut then rep.cutBytes + r.kept else rep.cutBytes
    dropBytes := rep.dropBytes + r.dropped }

def setRow (v : Vol) (i : Nat) (row : Row) : Vol := { v with row := Function.update v.row i (some row) }

def cutRewrite (v : Vol) (d : Delivery) (p : Probe) : Option Vol :=
  if ¬ d.answers.store then none
  else (if d.answers.again then v.row d.id else none).bind fun row =>
    if ¬ d.answers.put then none
    else some (setRow v d.id { row with
      size := p.goodPrefix.toNat
      blob := .ast ⟨p.goodPrefix.toNat, p.ents.take p.firstBad, .none⟩ })

def expectGo : List (Entry × Option (List Byte)) → (Nat → Cell) → Nat → Cell
  | [], d => d
  | (e, bs) :: rest, d => expectGo rest (place d e.lo ((bs.getD []).map some))

def expected (p : Probe) : List Cell :=
  (List.range p.goodPrefix.toNat).map
    (expectGo ((p.ents.zip p.spans).take p.firstBad) fun _ => none)

structure St where
  vol : Vol
  rep : Report

/-- The part of `cut_walk_cb` behind the probe. -/
def cutProbed (n : Nat) (dry : Bool) (v : Vol) (rep : Report) (d : Delivery) (p : Probe) : St :=
  match p.ents[p.firstBad]? with
  | none => ⟨v, cutReportAdd rep ⟨d.id, 0, p.rowSize, 0, 0, 0, 0, false⟩⟩
  | some bad =>
    let row (kept : Nat) (cut : Bool) : CutRow :=
      ⟨d.id, kept, p.rowSize - kept, bad.lo, bad.len, bad.pba, p.firstBad, cut⟩
    let kept := p.goodPrefix.toNat
    if p.goodPrefix = 0 then ⟨v, cutReportAdd rep (row 0 false)⟩
    else if dry then ⟨v, { cutReportAdd rep (row kept false) with wouldCut := rep.wouldCut + 1 }⟩
    else match cutRewrite v d p with
      | none => ⟨v, cutReportAdd rep (row 0 false)⟩
      | some w =>
        if w.readInode n d.id = some (expected p) then
          ⟨w, { cutReportAdd rep (row kept true) with cut := rep.cut + 1 }⟩
        else ⟨w, { cutReportAdd rep (row kept false) with verifyFailed := rep.verifyFailed + 1 }⟩

/-- `cut_walk_cb`, with reads that nest `n` files deep at most. -/
def cutWalkCb (n : Nat) (dry : Bool) (s : St) (d : Delivery) : St :=
  match if d.answers.row then s.vol.row d.id else none with
  | none => s
  | some row =>
    if noRecipe row then s
    else
      let rep := { s.rep with scanned := s.rep.scanned + 1 }
      if (s.vol.readInode n d.id).isSome then ⟨s.vol, { rep with clean := rep.clean + 1 }⟩
      else match cutProbeRun s.vol d with
        | none => ⟨s.vol, { rep with otherBad := rep.otherBad + 1 }⟩
        | some p => cutProbed n dry s.vol { rep with torn := rep.torn + 1 } d p

/-- `vol_content_cut`. `walked` tells whether the walk came to its end; the callback never stops
it. -/
def contentCut (n : Nat) (readonly dry walked : Bool) (ds : List Delivery) (s : St) : Int × St :=
  if readonly then (-1, s)
  else (if walked then 0 else -1, ds.foldl (cutWalkCb n dry) ⟨s.vol, {}⟩)

end InvariantFs.ContentCut
