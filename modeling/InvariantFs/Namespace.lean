import InvariantFs.DeltaGroup
import InvariantFs.Fallible
import InvariantFs.PathLookup

namespace InvariantFs.Namespace

open ByteCodec Fallible DeltaGroup Function

/-- A name or a path, without the closing zero. -/
abbrev Name := List Byte

export PathLookup (slash maxName pathMax targetMax)

def bang : Byte := 0x21

/-- `INVFS_ROOT_INO`. The root directory has no row. -/
def rootIno : Nat := 1

inductive IType where
  | reg
  | dir
  | lnk
  | fifo
  | sock
  | chr
  | blk
  deriving DecidableEq

/-- `invfs_inode`, without the reserved block pointer. The empty address stands for the zero one. -/
structure Row where
  type : IType
  mode : Nat
  uid : Nat
  gid : Nat
  mtime : Nat
  atime : Nat
  nlink : Nat
  rdev : Nat
  size : Nat
  addr : List Byte
  deriving DecidableEq

/-- The row `memset` makes. -/
def Row.zero : Row := ⟨.reg, 0, 0, 0, 0, 0, 0, 0, 0, []⟩

/-- The keys of the metadata: inode rows, directory entries, and the chunks of extended attributes. -/
inductive Key where
  | row (id : Nat)
  | dirent (parent : Nat) (name : Name)
  | xattr (id : Nat) (chunk : List Byte)
  deriving DecidableEq

inductive Val where
  | row (r : Row)
  | child (id : Nat)
  | blob (b : List Byte)
  deriving DecidableEq

/-- The merged view of the metadata. -/
abbrev View := Key → Option Val

/-- A record of the log: a key and its new value, or its removal. -/
abbrev Change := Key × Option Val

def Key.len : Key → Nat
  | .row _ => 8
  | .dirent _ name => 10 + name.length
  | .xattr _ chunk => 9 + chunk.length

def Val.len : Val → Nat
  | .row _ => 114
  | .child _ => 8
  | .blob b => b.length

def Change.size (c : Change) : Nat := DeltaRecord.recHdrLen + c.1.len + (c.2.map Val.len).getD 0

def apply (g : View) (c : Change) : View := update g c.1 c.2

def replay (g : View) (cs : List Change) : View := cs.foldl apply g

/-- What a lookup reads besides the keys: the recipes, and the bytes that its buffer for the path holds
before, which the source leaves as it finds them. -/
structure Store where
  blobs : List Byte → Option (List Byte)
  stack : Name → List Byte
  stack_length : ∀ name, (stack name).length = pathMax + 1

theorem length_zeros (_ : Name) : (List.replicate (pathMax + 1) (0 : Byte)).length = pathMax + 1 :=
  List.length_replicate

/-- No recipes, and a buffer of zeros. -/
def Store.empty : Store := ⟨fun _ => none, fun _ => List.replicate (pathMax + 1) 0, length_zeros⟩

/-- A mounted volume, as far as names and rows go. `reads` and `replies` are the device's coming answers to
lookups and to appends; with none left it answers well. `log` are the records of the log in their order. -/
structure Ns where
  readonly : Bool
  lazyReclaim : Bool
  tier : Tier Key Val
  base : AList fun _ : Key => Val
  store : Store
  log : List Change
  recovered : Bool
  nextId : Nat
  reads : List Bool
  replies : List Reply

def Ns.view (s : Ns) : View := s.tier.view fun k => s.base.lookup k

def Ns.doom (s : Ns) : Ns := { s with tier := { s.tier with ram := s.tier.ram.doom } }

def skipSlash (p : Name) : Name := p.dropWhile (· = slash)

def stripSlash (p : Name) : Name := (p.reverse.dropWhile (· = slash)).reverse

/-- `invfs_split_path`: the parent and the leaf. -/
def splitPath (name : Name) : Option (Name × Name) :=
  let p := stripSlash (skipSlash name)
  let leaf := (p.reverse.takeWhile (· ≠ slash)).reverse
  let parent := stripSlash (p.take (p.length - leaf.length))
  if leaf = [] ∨ maxName < leaf.length ∨ 600 ≤ parent.length then none else some (parent, leaf)

/-- What `vol_dirent_get` makes of a view: `none` is an error, `some none` an absent entry. -/
def direntAt (g : View) (parent : Nat) (name : Name) : Option (Option Nat) :=
  if maxName < name.length then none
  else
    match g (.dirent parent name) with
    | none => some none
    | some (.child id) => some (some id)
    | some _ => none

/-- What `vol_inode_get` makes of a view. -/
def rowAt (g : View) (id : Nat) : Option (Option Row) :=
  match g (.row id) with
  | none => some none
  | some (.row r) => some (some r)
  | some _ => none

/-- What the walk of a path reads of a view. -/
def dirs (g : View) (blobs : List Byte → Option (List Byte)) : PathLookup.Dirs where
  root := rootIno
  dirent := direntAt g
  link id :=
    match rowAt g id with
    | some (some row) => if row.type = .lnk then (blobs row.addr).map some else some none
    | _ => none

def answer : PathLookup.Res → Option (Option Nat)
  | .found ino => some (some ino)
  | .absent => some none
  | .fail => none

/-- `vol_path_lookup` on a view. -/
def pathLookup (g : View) (store : Store) (name : Name) : Option (Option Nat) :=
  answer (PathLookup.volPathLookup (dirs g store.blobs) (store.stack name) name)

/-- `vol_path_is_dir` on a view. -/
def pathIsDir (g : View) (store : Store) (name : Name) : Bool :=
  if skipSlash name = [] then true
  else
    match pathLookup g store name with
    | some (some id) =>
      match rowAt g id with
      | some (some row) => row.type = .dir
      | _ => false
    | _ => false

section

variable {α : Type}

def read (f : Ns → Option α) : Act Ns α := act fun s =>
  (if s.reads.headD true then f s else none, { s with reads := s.reads.tail })

/-- A function of the volume that reads nothing from the device. -/
def peek (f : Ns → Option α) : Act Ns α := act fun s => (f s, s)

def readOr (f : Ns → Option α) : Act Ns (Option α) := act fun s =>
  (some (if s.reads.headD true then f s else none), { s with reads := s.reads.tail })

def current : Act Ns Ns := act fun s => (some s, s)

def must : Option α → Act Ns α
  | some a => pure a
  | none => failure

def demand (b : Bool) : Act Ns Unit := if b then pure () else failure

def onFail (f : Ns → Ns) (x : Act Ns α) : Act Ns α := act fun s =>
  ((runs x s).1, if (runs x s).1.isSome then (runs x s).2 else f (runs x s).2)

def ignore (x : Act Ns α) : Act Ns Unit := act fun s => (some (), (runs x s).2)

end

/-- For a path without components, which is the root's, nothing is read. -/
def lookupPath (name : Name) : Act Ns Nat := do
  let r ← (if skipSlash name = [] then peek else read) fun s => pathLookup s.view s.store name
  must r

def isDir (name : Name) : Act Ns Unit :=
  if skipSlash name = [] then pure ()
  else do
    let r ← readOr fun s => some (pathIsDir s.view s.store name)
    demand (r.getD false)

def direntGet (parent : Nat) (name : Name) : Act Ns (Option Nat) := read fun s => direntAt s.view parent name

def inodeGet (id : Nat) : Act Ns (Option Row) := read fun s => rowAt s.view id

def willing : Reply := ⟨true, none, true, true, true, true⟩

def append (c : Change) : Act Ns Unit := act fun s =>
  if s.readonly then (none, s)
  else
    let r := s.tier.append (s.replies.headD willing) c.size c.1 (c.2.getD (.blob [])) c.2.isNone
    (if r.2 then some () else none,
      { s with tier := r.1, replies := s.replies.tail, log := if r.2 then s.log ++ [c] else s.log })

/-- `vol_dirent_delta_put` -/
def direntPut (parent : Nat) (name : Name) (child : Nat) : Act Ns Unit :=
  if maxName < name.length ∨ child = 0 then failure else append (.dirent parent name, some (.child child))

/-- `vol_dirent_delta_del` -/
def direntDel (parent : Nat) (name : Name) : Act Ns Unit :=
  if maxName < name.length then failure
  else do
    let old ← read fun s => some (s.view (.dirent parent name))
    match old with
    | none => pure ()
    | some _ => append (.dirent parent name, none)

/-- `vol_inode_delta_put`. A row without a link is deleted, not stored. -/
def inodePut (id : Nat) (row : Row) : Act Ns Unit :=
  if row.nlink = 0 then failure else append (.row id, some (.row row))

def appendAll : List Change → Act Ns Unit
  | [] => pure ()
  | c :: cs => do
    append c
    appendAll cs

def Key.isXattr (id : Nat) : Key → Bool
  | .xattr i _ => i = id
  | _ => false

/-- The keys `delta_shadow_xattr_keys` deletes: those of the base, then those of the log. -/
def Ns.xattrKeys (s : Ns) (id : Nat) : List Key :=
  -- the upper end of the range is the key of the next number, which wraps at the last one
  if id + 1 = 2 ^ 64 then [] else (s.base.keys ++ s.tier.ram.index.keys).filter (Key.isXattr id)

/-- `vol_inode_delta_delete`: the attributes go first. -/
def inodeDelete (id : Nat) : Act Ns Unit := do
  let old ← read fun s => some (s.view (.row id))
  match old with
  | none => pure ()
  | some _ =>
    let keys ← read fun s => some (s.xattrKeys id)
    appendAll (keys.map fun k => (k, none))
    append (.row id, none)

def Key.rowId : Key → Option Nat
  | .row id => some id
  | _ => none

def Ns.maxId (s : Ns) : Nat :=
  ((s.base.keys ++ s.tier.ram.index.keys).filterMap Key.rowId).foldl max 0

/-- `vol_inode_alloc`: the first call of a mount looks for the highest number in use. -/
def inodeAlloc : Act Ns Nat := act fun s =>
  if s.recovered then (some s.nextId, { s with nextId := s.nextId + 1 })
  else if s.reads.headD true = false then (none, { s with reads := s.reads.tail })
  else
    let id := max (max s.nextId (s.maxId + 1)) (rootIno + 1)
    (some id, { s with reads := s.reads.tail, recovered := true, nextId := id + 1 })

/-- `invfs_meta_pub` -/
structure Meta where
  type : IType
  mode : Nat
  uid : Nat
  gid : Nat
  mtime : Nat
  atime : Nat
  nlink : Nat
  rdev : Nat
  target : List Byte

/-- The row `vol_create_node` makes of the row that is there, before its content. -/
def Row.with (row : Row) (now : Nat) (info : Option Meta) : Row :=
  let row :=
    match info with
    | some m =>
      { row with
        type := m.type, mode := m.mode, uid := m.uid, gid := m.gid, mtime := m.mtime, atime := m.atime
        nlink := if m.nlink = 0 then 1 else m.nlink
        rdev := m.rdev }
    | none =>
      if row.type = .reg then { row with mode := 0o644, nlink := 1, mtime := now, atime := now } else row
  if row.nlink = 0 then { row with nlink := 1 } else row

def target (existing : Option Nat) : Act Ns (Nat × Row) :=
  match existing with
  | some id => do
    let row ← readOr fun s => (rowAt s.view id).join
    pure (id, row.getD .zero)
  | none => do
    let id ← inodeAlloc
    demand (id ≠ 0)
    pure (id, .zero)

def place (name : Name) : Act Ns (Nat × Name × Option Nat) := do
  let (parent, leaf) ← must (splitPath name)
  let pino ← lookupPath parent
  isDir parent
  let existing ← direntGet pino leaf
  pure (pino, leaf, existing)

section

variable (blake3 : List Byte → List Byte) (parses : List Byte → Bool)

def recipeStore (blob : List Byte) : Act Ns (List Byte) := act fun s =>
  if blob = [] ∨ s.reads.headD true = false then (none, { s with reads := s.reads.tail })
  else
    (some (blake3 blob),
      { s with
        reads := s.reads.tail
        store := { s.store with blobs := update s.store.blobs (blake3 blob) (some blob) } })

def content (info : Option Meta) (row : Row) : Act Ns Row :=
  let link := ((info.map Meta.target).getD []).takeWhile (· ≠ 0)
  if row.type = .lnk ∧ link ≠ [] then
    if targetMax ≤ link.length then failure
    else do
      let addr ← recipeStore blake3 link
      pure { row with size := link.length, addr := addr }
  else pure { row with size := 0, addr := [] }

/-- `vol_create_node`: the row goes before the entry. -/
def createNode (now : Nat) (name : Name) (info : Option Meta) : Act Ns Nat := do
  let (pino, leaf, existing) ← place name
  let (id, old) ← target existing
  let row ← content blake3 info (old.with now info)
  inodePut id row
  direntPut pino leaf id
  if row.type = .dir then ignore (direntPut id [] id)
  pure id

/-- The row `vol_create_content_node` makes of the row that is there. -/
def Row.filled (row : Row) (now size : Nat) (addr : List Byte) : Row :=
  { row with
    mode := if row.mode = 0 then 0o644 else row.mode
    nlink := if row.nlink = 0 then 1 else row.nlink
    mtime := now, atime := now, size := size, addr := addr }

/-- `vol_create_content_node`: an entry that is there stays as it is. -/
def createContentNode (now : Nat) (name : Name) (size : Nat) (addr : List Byte) : Act Ns Nat := do
  let (pino, leaf, existing) ← place name
  let (id, old) ← target existing
  inodePut id (old.filled now size addr)
  if existing = none then direntPut pino leaf id
  pure id

def mkdir (now : Nat) (name : Name) : Act Ns Nat := do
  demand (bang ∉ name)
  let (pino, leaf, existing) ← place name
  demand (existing = none)
  let (id, _) ← target none
  inodePut id { Row.zero with type := .dir, mode := 0o755, nlink := 2, mtime := now, atime := now }
  direntPut id [] id
  direntPut pino leaf id
  pure id

def resolves (row : Row) : Act Ns Bool := act fun s =>
  if row.addr = [] then (some true, s)
  else
    (some (s.reads.headD true && ((s.store.blobs row.addr).map parses).getD false), { s with reads := s.reads.tail })

/-- `vol_unlink` without the siblings of a container: the row as it was. -/
def unlinkName (name : Name) : Act Ns Row := do
  let (parent, leaf) ← must (splitPath name)
  let id ← lookupPath name
  let row ← inodeGet id
  let row ← must row
  demand (row.type ≠ .dir)
  let pino ← lookupPath parent
  if row.nlink ≤ 1 then do
    direntDel pino leaf
    onFail Ns.doom (inodeDelete id)
    let s ← current
    if row.type = .reg ∧ s.lazyReclaim = false then do
      let ok ← resolves parses row
      if ok then pure row
      else do
        -- both are put back, and the call fails all the same
        ignore (do inodePut id row; direntPut pino leaf id)
        failure
    else pure row
  else do
    direntDel pino leaf
    onFail Ns.doom (inodePut id { row with nlink := row.nlink - 1 })
    pure row

def cascade : List Name → Act Ns Unit
  | [] => pure ()
  | n :: ns => do
    ignore (unlinkName parses n)
    cascade ns

/-- `vol_unlink`, with the names the walk for the siblings of a container comes back with. -/
def unlink (siblings : List Name) (name : Name) : Act Ns Unit := do
  let row ← unlinkName parses name
  if row.nlink ≤ 1 ∧ row.type = .reg ∧ 0 < row.size ∧ bang ∉ name then cascade parses (siblings.filter (bang ∈ ·))

/-- The end of `vol_rename`: the old name goes. -/
def dropSource (fparent fleaf : Name) : Act Ns Unit := do
  let fpino ← lookupPath fparent
  direntDel fpino fleaf

def dropLink (id : Nat) (row : Row) : Act Ns Unit :=
  if 1 < row.nlink then inodePut id { row with nlink := row.nlink - 1 } else inodeDelete id

def below (fn tn : Name) : Bool := fn.isPrefixOf tn ∧ (tn.drop fn.length).head? = some slash

/-- What `vol_rename` finds out before it appends anything: the source, the directory of the target,
and the victim. -/
structure Plan where
  fparent : Name
  fleaf : Name
  fid : Nat
  tpino : Nat
  tleaf : Name
  victim : Option (Nat × Row)

/-- The checks of `vol_rename`: `.inl` is the code of a call that ends there. -/
def renamePlan (src dst : Name) : Act Ns (Int ⊕ Plan) := do
  demand (¬ (src = [] ∨ dst = []))
  let s ← current
  demand (s.readonly = false ∧ bang ∉ dst)
  let (fparent, fleaf) ← must (splitPath src)
  let (tparent, tleaf) ← must (splitPath dst)
  let fid ← lookupPath src
  let frow ← inodeGet fid
  let frow ← must frow
  let tpino ← lookupPath tparent
  isDir tparent
  if fparent = tparent ∧ fleaf = tleaf then pure (.inl 0)
  else do
    demand (¬ (frow.type = .dir ∧ below (skipSlash src) (skipSlash dst)))
    let existing ← direntGet tpino tleaf
    match existing with
    | none => pure (.inr ⟨fparent, fleaf, fid, tpino, tleaf, none⟩)
    | some tid => do
      let trow ← inodeGet tid
      let trow ← must trow
      if trow.type = .dir then pure (.inl (-2))
      else do
        demand (frow.type ≠ .dir)
        pure (.inr ⟨fparent, fleaf, fid, tpino, tleaf, some (tid, trow)⟩)

/-- The records of `vol_rename`. Once the first one is staged, a failure dooms what is staged. -/
def renameApply (p : Plan) : Act Ns Unit :=
  match p.victim with
  | none => do
    direntPut p.tpino p.tleaf p.fid
    onFail Ns.doom (dropSource p.fparent p.fleaf)
  | some (tid, trow) => do
    direntDel p.tpino p.tleaf
    onFail Ns.doom (do
      dropLink tid trow
      direntPut p.tpino p.tleaf p.fid
      dropSource p.fparent p.fleaf)

def rename (src dst : Name) : Act Ns Int := do
  let plan ← renamePlan src dst
  match plan with
  | .inl code => pure code
  | .inr p => do
    renameApply p
    pure 0

/-- `vol_hardlink`: the count goes up before the name is there, and down again when it cannot be
made. -/
def hardlink (src dst : Name) : Act Ns Int := do
  demand (¬ (src = [] ∨ dst = []))
  let s ← current
  demand (s.readonly = false ∧ bang ∉ dst)
  let (tparent, tleaf) ← must (splitPath dst)
  let id ← lookupPath src
  let row ← inodeGet id
  let row ← must row
  if row.type = .dir then pure (-3)
  else do
    let tpino ← lookupPath tparent
    isDir tparent
    let existing ← direntGet tpino tleaf
    if existing ≠ none then pure (-2)
    else do
      demand (row.nlink ≠ 0 ∧ row.nlink ≠ 0xffffffff)
      inodePut id { row with nlink := row.nlink + 1 }
      let t ← current
      match runs (direntPut tpino tleaf id) t with
      | (some _, u) => act fun _ => (some 0, u)
      | (none, u) => act fun _ => (none, (runs (inodePut id row) u).2)

/-- The row of the file a write session was opened on, or a new name. -/
def writeRow (now : Nat) (old : Option Nat) (name : Name) (size : Nat) (addr : List Byte) : Act Ns Nat :=
  match old with
  | some id => do
    let row ← inodeGet id
    let row ← must row
    inodePut id
      { row with size := size, addr := addr, nlink := if row.nlink = 0 then 1 else row.nlink, mtime := now }
    pure id
  | none => createContentNode now name size addr

/-- The end of `vol_write_commit`. Where the old content was a container (`owns_siblings`), the names that
the walk for its siblings comes back with go. -/
def writeCommit (now : Nat) (old : Option Nat) (name : Name) (size : Nat) (addr : List Byte) (owns : Bool)
    (siblings : List Name) : Act Ns Nat := do
  let id ← writeRow now old name size addr
  if owns then cascade parses (siblings.filter (bang ∈ ·))
  pure id

end

end InvariantFs.Namespace
