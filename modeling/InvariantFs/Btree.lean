import InvariantFs.BtreeSplit
import InvariantFs.CachedStore
import InvariantFs.Fallible

namespace InvariantFs.Btree

open ByteCodec CachedStore BtreePage BtreeSplit Fallible

/-- One answer of the allocator: the block it picks, and whether the two page writes that follow,
of the empty page and of the sealed one, go through. -/
structure Ticket where
  pba : UInt64
  initOk : Bool
  writeOk : Bool

/-- The part of a volume the base tree uses: the block bitmap with the range of its bytes that has
yet to be written out, the blocks, and the answers the allocator is going to give. -/
structure Vol where
  total : UInt64
  bit : UInt64 → Bool
  bmLo : Nat
  bmHi : Nat
  dev : Store UInt64 (List Byte)
  supply : List Ticket

def Vol.bmDirty (v : Vol) (i : UInt64) : Vol :=
  let byte := i.toNat / 8
  if v.bmHi < v.bmLo then { v with bmLo := byte, bmHi := byte + 1 }
  else { v with bmLo := min v.bmLo byte, bmHi := max v.bmHi (byte + 1) }

/-- `bit_set` and `bit_clr`, with the byte marked for writing. -/
def Vol.setBit (v : Vol) (i : UInt64) (b : Bool) : Vol :=
  { v.bmDirty i with bit := Function.update v.bit i b }

def maxDepth : Nat := 32

def minFill : Nat := pageSize / 2

def maxLevels : Nat := 65535

variable (crc : List Byte → UInt32)

/-- `mbuf_read_ptr`: a block that the bitmap calls free is not read. -/
def readPage (v : Vol) (p : Ptr) : Option (List Byte) :=
  if p.pba = 0 ∨ v.total ≤ p.pba ∨ v.bit p.pba = false ∨ ¬ PtrMatches crc p (v.dev.view p.pba) then none
  else some (v.dev.view p.pba)

def readNode (v : Vol) (p : Ptr) : Option (Nat × List Ent) := (readPage crc v p).bind decodeNode

def btRead (p : Ptr) : Act Vol (Nat × List Ent) := act fun v => (readNode crc v p, v)

def firstKey (p : Ptr) : Act Vol Key := act fun v => ((readPage crc v p).bind pageFirstKey, v)

/-- `mbuf_alloc`: the block is marked and an empty page is written into it; when that write fails
the block is free again. -/
def mbufAlloc (gen : UInt64) : Act Vol Ticket := act fun v =>
  match v.supply with
  | [] => (none, v)
  | t :: ts =>
    if t.pba = 0 ∨ v.total ≤ t.pba ∨ v.bit t.pba = true then (none, { v with supply := ts })
    else if t.initOk = false then (none, { v with supply := ts }.bmDirty t.pba)
    else
      (some t,
        { v.setBit t.pba true with
          supply := ts, dev := v.dev.write t.pba fun _ => pageBytes crc 0 gen [] })

/-- `mbuf_write` into a block just allocated, and `mbuf_free` of it when the write fails. -/
def mbufWrite (t : Ticket) (page : List Byte) : Act Vol Unit := act fun v =>
  if t.writeOk then (some (), { v with dev := v.dev.write t.pba fun _ => page })
  else (none, v.setBit t.pba false)

def place (gen : UInt64) (page : List Byte) : Act Vol UInt64 := do
  let t ← mbufAlloc crc gen
  mbufWrite t page
  pure t.pba

def btWrite (level : Nat) (gen : UInt64) (es : List Ent) : Act Vol Ptr :=
  if maxEntries < es.length ∨ pageSize < used level es ∨ level ≠ 0 ∧ ∃ e ∈ es, e.child.pba = 0 then
    failure
  else do
    let page := pageBytes crc level gen es
    let pba ← place crc gen page
    pure (ptrSet pba page (if level = 0 then bpLeaf else bpInternal))

def recopy (p : Ptr) (gen : UInt64) : Act Vol Ptr := do
  let page ← act fun v => (readPage crc v p, v)
  let pba ← place crc gen (pageRegen crc gen page)
  pure (ptrSet pba (pageRegen crc gen page) p.flags)

def searchLoop (v : Vol) (key : Key) : Nat → Ptr → Option (Option Val)
  | 0, _ => none
  | depth + 1, cur =>
    match readNode crc v cur with
    | none => none
    | some (level, es) =>
      if level ≠ 0 then
        match es[childIndex es key]? with
        | none => none
        | some e => if e.child.pba = 0 then none else searchLoop v key depth e.child
      else
        match es[lowerBound es key]? with
        | none => some none
        | some e => if e.k = key then some (some e.v) else some none

/-- `btree_search`: `none` is an error, otherwise the value if the key was found. -/
def search (v : Vol) (root : Ptr) (key : Key) : Option (Option Val) :=
  if root.pba = 0 then some none else searchLoop crc v key maxDepth root

def writeAll (level : Nat) (gen : UInt64) : List (List Ent) → Act Vol (List Ptr)
  | [] => pure []
  | es :: ps => do
    let p ← btWrite crc level gen es
    let qs ← writeAll level gen ps
    pure (p :: qs)

/-- The tail of `bt_ins_rec`: one page, or the pieces of `bt_split3_point`. -/
def writePieces (level : Nat) (gen : UInt64) (es : List Ent) : Act Vol (List Ptr) :=
  if used level es ≤ pageSize then writeAll crc level gen [es]
  else
    match split3 level es with
    | none => failure
    | some ps => writeAll crc level gen ps

def separators : List Ptr → Act Vol (List Ent)
  | [] => pure []
  | p :: ps => do
    let k ← firstKey crc p
    let es ← separators ps
    pure (⟨k, [], p⟩ :: es)

/-- `bt_ins_rec`: the pages the node turned into, leftmost first, and their level. -/
def insRec (key : Key) (val : Val) (gen : UInt64) : Nat → Ptr → Act Vol (List Ptr × Nat)
  | 0, _ => failure
  | fuel + 1, node => do
    let (level, es) ← btRead crc node
    if level = 0 then
      let pos := lowerBound es key
      if (es[pos]?.map Ent.k) = some key then
        let ps ← writePieces crc level gen (es.set pos ⟨key, val, .null⟩)
        pure (ps, level)
      else if maxEntries ≤ es.length then failure
      else
        let ps ← writePieces crc level gen (es.take pos ++ ⟨key, val, .null⟩ :: es.drop pos)
        pure (ps, level)
    else
      let i := childIndex es key
      match es[i]? with
      | none => failure
      | some e =>
        let (cs, _) ← insRec key val gen fuel e.child
        let k := if key < e.k then key else e.k
        match cs with
        | [] => failure
        | c :: more =>
          let seps ← separators crc more
          if maxEntries < es.length + more.length then failure
          else
            let ps ← writePieces crc level gen (es.take i ++ ⟨k, [], c⟩ :: (seps ++ es.drop (i + 1)))
            pure (ps, level)

def Ptr.asRoot (p : Ptr) : Ptr := { p with flags := p.flags ||| bpRoot }

def upsert (root : Ptr) (key : Key) (val : Val) : Act Vol Ptr :=
  let gen := (if root.pba = 0 then 0 else root.gen) + 1
  if root.pba = 0 then do
    let p ← btWrite crc 0 gen [⟨key, val, .null⟩]
    pure (Ptr.asRoot p)
  else do
    let (ps, level) ← insRec crc key val gen maxLevels root
    match ps with
    | [p] => pure (Ptr.asRoot p)
    | ps =>
      let es ← separators crc ps
      let p ← btWrite crc (level + 1) gen es
      pure (Ptr.asRoot p)

/-- The end of `bt_rebalance`: the records of two neighbours of a parent become one page, or are cut
into two anew. The result are the parent's records. -/
def regroup (pe : List Ent) (base level : Nat) (gen : UInt64) (comb : List Ent) : Act Vol (List Ent) :=
  match comb with
  | [] => failure
  | first :: _ =>
    if used level comb ≤ pageSize then do
      let m ← btWrite crc level gen comb
      pure (pe.take base ++ ⟨first.k, [], m⟩ :: pe.drop (base + 2))
    else
      match splitPoint level comb with
      | none => failure
      | some s =>
        if s = 0 ∨ comb.length ≤ s then failure
        else do
          let l ← btWrite crc level gen (comb.take s)
          let r ← btWrite crc level gen (comb.drop s)
          match comb[s]? with
          | none => failure
          | some second =>
            pure (pe.take base ++ ⟨first.k, [], l⟩ :: ⟨second.k, [], r⟩ :: pe.drop (base + 2))

/-- `bt_rebalance`: the deficient child `i` and its sibling, the right one where there is one. -/
def rebalance (pe : List Ent) (i : Nat) (gen : UInt64) : Act Vol (List Ent) :=
  if pe.length < 2 then pure pe
  else
    let j := if i + 1 < pe.length then i + 1 else i - 1
    let base := if i < j then i else j
    match pe[i]?, pe[j]? with
    | some c, some s => do
      let (clevel, ce) ← btRead crc c.child
      let (slevel, se) ← btRead crc s.child
      if slevel ≠ clevel then failure
      else regroup crc pe base clevel gen (if j = i + 1 then ce ++ se else se ++ ce)
    | _, _ => pure pe

/-- `bt_dn`: nothing was deleted, the subtree is empty, or its new root and whether it is deficient. -/
inductive Dn where
  | same
  | gone
  | node (p : Ptr) (underflow : Bool)

/-- The end of `bt_del_rec`: write the remaining records of a node. -/
def delFinish (level : Nat) (gen : UInt64) (isRoot : Bool) (es : List Ent) : Act Vol Dn :=
  if es = [] then pure .gone
  else do
    let p ← btWrite crc level gen es
    pure (.node p (!isRoot && used level es < minFill))

def delRec (key : Key) (gen : UInt64) : Nat → Bool → Ptr → Act Vol Dn
  | 0, _, _ => failure
  | fuel + 1, isRoot, node => do
    let (level, es) ← btRead crc node
    if level = 0 then
      let pos := lowerBound es key
      if (es[pos]?.map Ent.k) = some key then
        delFinish crc level gen isRoot (es.take pos ++ es.drop (pos + 1))
      else pure .same
    else
      let i := childIndex es key
      match es[i]? with
      | none => failure
      | some e => do
        let cd ← delRec key gen fuel false e.child
        match cd with
        | .same => pure .same
        | .gone => delFinish crc level gen isRoot (es.take i ++ es.drop (i + 1))
        | .node p underflow =>
          if underflow then
            let es' ← rebalance crc (es.take i ++ ⟨e.k, [], p⟩ :: es.drop (i + 1)) i gen
            delFinish crc level gen isRoot es'
          else if key = e.k then
            let k ← firstKey crc p
            delFinish crc level gen isRoot (es.take i ++ ⟨k, [], p⟩ :: es.drop (i + 1))
          else delFinish crc level gen isRoot (es.take i ++ ⟨e.k, [], p⟩ :: es.drop (i + 1))

/-- The collapse of single-child roots at the end of `btree_delete`. -/
def collapse : Nat → Ptr → Act Vol Ptr
  | 0, r => pure r
  | guard + 1, r =>
    if r.pba = 0 then pure r
    else do
      let page ← act fun v => (readPage crc v r, v)
      if (pageHdr page).level = 0 ∨ (pageHdr page).nentries ≠ 1 then pure r
      else collapse guard (pageFirstChild page)

def delete (root : Ptr) (key : Key) : Act Vol Ptr :=
  if root.pba = 0 then pure root
  else do
    let gen := root.gen + 1
    let dn ← delRec crc key gen maxLevels true root
    match dn with
    | .same => pure root
    | .gone => pure ⟨0, 0, gen, 0⟩
    | .node p _ =>
      let r ← collapse crc maxDepth p
      if r.pba = 0 then failure
      else if r.gen ≠ gen then
        let r' ← recopy crc r gen
        pure (Ptr.asRoot r')
      else pure (Ptr.asRoot r)

section

variable {σ : Type}

def scanLeaf (cb : σ → Key → Val → σ × Int) (lo hi : Key) : List Ent → σ → σ × Int
  | [], s => (s, 0)
  | e :: es, s =>
    if lo ≠ [] ∧ e.k < lo then scanLeaf cb lo hi es s
    else if hi ≠ [] ∧ hi ≤ e.k then (s, 0)
    else
      let (s, rc) := cb s e.k e.v
      if rc ≠ 0 then (s, rc) else scanLeaf cb lo hi es s

def scanKids (rec : Ptr → σ → σ × Int) (lo hi : Key) : List Ent → σ → σ × Int
  | [], s => (s, 0)
  | e :: es, s =>
    if hi ≠ [] ∧ hi ≤ e.k then (s, 0)
    else if lo ≠ [] ∧ ∃ x ∈ es.head?, x.k ≤ lo then scanKids rec lo hi es s
    else
      let (s, rc) := rec e.child s
      if rc ≠ 0 then (s, rc) else scanKids rec lo hi es s

def scanRec (v : Vol) (cb : σ → Key → Val → σ × Int) (lo hi : Key) : Nat → Ptr → σ → σ × Int
  | 0, _, s => (s, -1)
  | fuel + 1, p, s =>
    match readNode crc v p with
    | none => (s, -1)
    | some (level, es) =>
      if level = 0 then scanLeaf cb lo hi es s
      else scanKids (scanRec v cb lo hi fuel) lo hi es s

/-- `btree_scan`: the callback's state and the return code. An empty bound is no bound. -/
def scan (v : Vol) (root : Ptr) (lo hi : Key) (cb : σ → Key → Val → σ × Int) (s : σ) : σ × Int :=
  if root.pba = 0 then (s, 0) else scanRec crc v cb lo hi (maxLevels + 1) root s

end

/-- The messages of `bt_check_rec`. -/
inductive CheckErr where
  | childRange
  | shared
  | unreadable
  | level
  | depth
  | emptyLeaf
  | leafOrder
  | leafLow
  | leafHigh
  | fewChildren
  | sepOrder
  | sepLow
  | sepHigh
  deriving DecidableEq

def CheckErr.text : CheckErr → String
  | .childRange => "null/out-of-range child pba"
  | .shared => "cycle or shared child"
  | .unreadable => "unreadable page (bad CRC/gen/encoding)"
  | .level => "level not monotone"
  | .depth => "leaves at differing depths"
  | .emptyLeaf => "empty leaf"
  | .leafOrder => "leaf keys not strictly ordered"
  | .leafLow => "leaf key below parent bound"
  | .leafHigh => "leaf key above parent bound"
  | .fewChildren => "internal node with fewer than 2 children"
  | .sepOrder => "separators not strictly ordered"
  | .sepLow => "separator below parent bound"
  | .sepHigh => "separator above parent bound"

/-- `bt_ck`: the pages seen so far and the statistics. -/
structure Ck where
  seen : List UInt64
  pages : Nat
  keys : Nat
  height : Nat

/-- The key loop of `bt_check_rec` with the messages of the level. -/
def checkKeys (order low high : CheckErr) (lo hi : Key) : Option Key → List Ent → Except CheckErr Unit
  | _, [] => .ok ()
  | prev, e :: es =>
    if ∃ k ∈ prev, e.k ≤ k then .error order
    else if lo ≠ [] ∧ e.k < lo then .error low
    else if hi ≠ [] ∧ hi ≤ e.k then .error high
    else checkKeys order low high lo hi (some e.k) es

def checkKids (rec : Ptr → Key → Key → Ck → Except CheckErr Ck) (hi : Key) : List Ent → Ck → Except CheckErr Ck
  | [], ck => .ok ck
  | e :: es, ck => do
    let ck ← rec e.child e.k ((es.head?.map Ent.k).getD hi) ck
    checkKids rec hi es ck

def checkRec (v : Vol) : Nat → Ptr → Option Nat → Key → Key → Nat → Ck → Except CheckErr Ck
  | 0, _, _, _, _, _, _ => .error .level
  | fuel + 1, p, expect, lo, hi, depth, ck =>
    if p.pba = 0 ∨ v.total ≤ p.pba then .error .childRange
    else if p.pba ∈ ck.seen then .error .shared
    else
      let ck := { ck with seen := p.pba :: ck.seen, pages := ck.pages + 1 }
      match readNode crc v p with
      | none => .error .unreadable
      | some (level, es) =>
        if ∃ x ∈ expect, level ≠ x then .error .level
        else if level = 0 then
          if ck.height ≠ 0 ∧ ck.height ≠ depth then .error .depth
          else if es = [] then .error .emptyLeaf
          else do
            checkKeys .leafOrder .leafLow .leafHigh lo hi none es
            .ok { ck with height := depth, keys := ck.keys + es.length }
        else if es.length < 2 then .error .fewChildren
        else do
          checkKeys .sepOrder .sepLow .sepHigh lo hi none es
          checkKids (fun q lo hi ck => checkRec v fuel q (some (level - 1)) lo hi (depth + 1) ck) hi es ck

/-- `btree_check`: the statistics, or why the tree is refused. -/
def check (v : Vol) (root : Ptr) : Except CheckErr Ck :=
  if root.pba = 0 then .ok ⟨[], 0, 0, 0⟩
  else checkRec crc v (maxLevels + 1) root none [] [] 1 ⟨[], 0, 0, 0⟩

end InvariantFs.Btree
