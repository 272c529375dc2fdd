import InvariantFs.BtreeExcise
import InvariantFs.Namespace

namespace InvariantFs.ExciseSafety

open ByteCodec BtreePage BtreeExcise
open Namespace (rootIno)
open List Function

/-- One range of `btree_quarantine_has` -/
def rangeHas (r : Range) (k : Key) : Bool := ¬ (r.lo ≠ [] ∧ k < r.lo) ∧ ¬ (r.hi ≠ [] ∧ r.hi ≤ k)

/-- One range of `btree_quarantine_overlaps` -/
def rangeMeets (r : Range) (lo hi : Key) : Bool :=
  ¬ (hi ≠ [] ∧ r.lo ≠ [] ∧ hi ≤ r.lo) ∧ ¬ (r.hi ≠ [] ∧ lo ≠ [] ∧ r.hi ≤ lo)

def quarantineHas (q : List Range) (k : Key) : Bool := q.any (rangeHas · k)

def quarantineOverlaps (q : List Range) (lo hi : Key) : Bool := q.any (rangeMeets · lo hi)

abbrev Addr := List Byte

/-- `invfs_inode`. A zero recipe address is `none`. -/
structure Row where
  isDir : Bool
  size : Nat
  recipe : Option Addr

/-- A damaged volume as far as it still reads: the live inodes with a name each, their rows and extended
attributes, and the directories. The scans and the walk say whether they came to their end, the last three which
records belong to what they find. -/
structure View where
  live : List (Nat × List Byte)
  liveOk : Bool
  row : Nat → Option Row
  xattrs : Nat → List (List Byte)
  xattrOk : Nat → Bool
  dirents : Nat → List (List Byte × Nat)
  direntsOk : Nat → Bool
  chunks : Addr → Nat
  children : Addr → List Addr
  xattrChunks : Nat → List Byte → Nat

variable (id : Nat)

def inoKey : Key := wr64be id

/-- `recipe_key` and `recipe_chunk_key` -/
def recipeKey (addr : Addr) : Key := 0x04 :: addr

def recipeChunkKey (addr : Addr) (idx : Nat) : Key := recipeKey addr ++ 0 :: wr16be idx

/-- `xattr_key` and `xattr_chunk_key` -/
def xattrKey (name : List Byte) : Key := 0x03 :: wr64be id ++ wr16be name.length ++ name

def xattrChunkKey (name : List Byte) (idx : Nat) : Key := xattrKey id name ++ 0 :: wr16be idx

inductive Kind where
  | recipe | xattr | row
  deriving DecidableEq

structure Fault where
  id : Nat
  size : Nat
  kind : Kind
  name : List Byte

/-- `fsck_live_ctx` -/
structure Live where
  refused : Nat → Bool
  faults : List Fault
  nfaultTotal : Nat
  live : Nat
  xaUnknown : Nat

/-- What `fsck_excise_mark` asks about a key, or about the keys from `lo` up to `hi`. -/
def asks (q : List Range) (lo hi : Key) : Bool :=
  if hi ≠ [] then quarantineOverlaps q lo hi else quarantineHas q lo

/-- The loop of `fsck_excise_mark`. It runs over the ranges, but each turn asks the whole set. -/
def refuse (n : Nat) (hit : Bool) (refused : Nat → Bool) : Nat → Bool :=
  (range n).foldl (fun r j => if hit then update r j true else r) refused

def mark (q : List Range) (c : Live) (f : Fault) (lo hi : Key) : Live :=
  let c := { c with refused := refuse q.length (asks q lo hi) c.refused }
  if q = [] ∨ ¬ asks q lo hi then c
  else
    { c with
      faults :=
        if c.faults.any (fun g => g.id = f.id ∧ g.kind = f.kind) ∨ 32 ≤ c.faults.length then c.faults
        else c.faults ++ [f]
      nfaultTotal := c.nfaultTotal + 1 }

/-- The upper bound that `fsck_excise_xattr_cb` passes: it points behind the name, and its length takes
in as many bytes of the stack as the name has. -/
def xattrEnd (stack : Nat → Byte) (name : List Byte) : Key :=
  [0x00, 0xff, 0xff, 0x00] ++ (range name.length).map stack

def xattrCb (q : List Range) (stack : Nat → Byte) (f : Fault) (c : Live) (name : List Byte) : Live :=
  if name = [] ∨ 255 < name.length then c
  else mark q c f (xattrKey f.id name) (xattrEnd stack name)

def xattrLo : Key := 0x03 :: wr64be id ++ [0, 0]

def xattrHi : Key := 0x03 :: wr64be (id + 1) ++ [0, 0]

def markRecipe (q : List Range) (c : Live) (x : Nat × List Byte) (row : Row) : Live :=
  match row.recipe with
  | none => c
  | some addr =>
    if row.isDir ∨ row.size = 0 then c
    else mark q c ⟨x.1, row.size, .recipe, x.2⟩ (recipeKey addr) (recipeKey addr ++ [0xff, 0xff, 0xff])

/-- The extended attributes of an inode, if a range meets their part of the keys. A scan that fails
refuses for all of them. -/
def markXattrs (v : View) (q : List Range) (stack : Nat → Byte) (c : Live) (f : Fault) : Live :=
  if quarantineOverlaps q (xattrLo f.id) (xattrHi f.id) then
    if v.xattrOk f.id then (v.xattrs f.id).foldl (xattrCb q stack f) c
    else mark q { c with xaUnknown := c.xaUnknown + 1 } f (xattrLo f.id) (xattrHi f.id)
  else c

/-- `fsck_excise_live_cb`. A path that is too long has no name here. -/
def liveCb (v : View) (q : List Range) (stack : Nat → Byte) (c : Live) (x : Nat × List Byte) : Live :=
  match v.row x.1 with
  | none => c
  | some row =>
    markXattrs v q stack (markRecipe q { c with live := c.live + 1 } x row) ⟨x.1, row.size, .xattr, x.2⟩

def counted (x : List Byte × Nat) : Bool := x.1 ≠ [] ∧ x.2 ≠ 0 ∧ x.1.head? ≠ some 0x01

def dirsMax : Nat := 1024

def isDir (v : View) (id : Nat) : Bool := (v.row id).any Row.isDir

def enqueue (v : View) (queue : List Nat) (x : List Byte × Nat) : List Nat :=
  if counted x ∧ queue.length < dirsMax ∧ isDir v x.2 ∧ x.2 ∉ queue then queue ++ [x.2] else queue

def markChild (q : List Range) (c : Live) (x : List Byte × Nat) : Live :=
  if counted x then mark q c ⟨x.2, 0, .row, x.1⟩ (inoKey x.2) [] else c

def dirCb (v : View) (q : List Range) (s : Live × List Nat) (x : List Byte × Nat) : Live × List Nat :=
  (markChild q s.1 x, enqueue v s.2 x)

/-- The loop of `fsck_excise_dir_walk`. The queue never has more than `dirsMax` directories. -/
def dirLoop (v : View) (q : List Range) : Nat → Nat → Live × List Nat → Live × Bool
  | 0, _, s => (s.1, true)
  | fuel + 1, qi, s =>
    match s.2[qi]? with
    | none => (s.1, true)
    | some dir =>
      let s := (v.dirents dir).foldl (dirCb v q) s
      if v.direntsOk dir then dirLoop v q fuel (qi + 1) s else (s.1, false)

/-- What `fsck_excise_safety` leaves, and the fields of the report. -/
structure Verdict where
  safe : List Range
  rc : Int
  incomplete : Bool
  live : Nat
  refused : Nat
  blocked : Nat
  faults : List Fault

def exciseSafety (v : View) (q : List Range) (stack : Nat → Byte) (discardReachable : Bool) : Verdict :=
  if q = [] then ⟨[], 0, false, 0, 0, 0, []⟩
  else if discardReachable then ⟨q, 0, false, 0, 0, 0, []⟩
  else
    let c := v.live.foldl (liveCb v q stack) ⟨fun _ => false, [], 0, 0, 0⟩
    let w := dirLoop v q dirsMax 0 (c, [rootIno])
    let c := w.1
    let safe := (q.zipIdx.filter fun x => !c.refused x.2).map Prod.fst
    let refused := q.length - safe.length
    ⟨safe, if refused = 0 ∨ safe ≠ [] then 0 else -1, !v.liveOk || !w.2, c.live, refused, c.nfaultTotal,
      c.faults⟩

variable {v : View} {q : List Range} {stack : Nat → Byte} {c : Live} {a : Bool}

def Uniform (q : List Range) (c : Live) (a : Bool) : Prop := ∀ j < q.length, c.refused j = a

theorem refuse_apply (n : Nat) (hit : Bool) (r : Nat → Bool) (j : Nat) :
    refuse n hit r j = (r j || (hit && decide (j < n))) := by
  unfold refuse
  cases hit with
  | false => induction n <;> simp_all [range_succ]
  | true =>
    induction n with
    | zero => simp
    | succ n ih =>
      rw [range_succ, foldl_append, foldl_cons, foldl_nil, if_pos rfl]
      by_cases hj : j = n
      · simp [hj]
      · have hlt : j < n + 1 ↔ j < n := by omega
        rw [update_of_ne hj, ih, decide_eq_decide.mpr hlt]

theorem mark_uniform (h : Uniform q c a) (f : Fault) (lo hi : Key) :
    Uniform q (mark q c f lo hi) (a || asks q lo hi) := by
  have hrefused : (mark q c f lo hi).refused = refuse q.length (asks q lo hi) c.refused := by
    unfold mark
    split_ifs <;> rfl
  intro j hj
  rw [hrefused, refuse_apply, h j hj]
  simp [hj]

theorem fold_uniform {α : Type} {f : Live → α → Live} {alarm : α → Bool}
    (hf : ∀ c a x, Uniform q c a → Uniform q (f c x) (a || alarm x)) (xs : List α)
    (h : Uniform q c a) : Uniform q (xs.foldl f c) (a || xs.any alarm) := by
  induction xs generalizing c a with
  | nil => simpa using h
  | cons x xs ih =>
    rw [any_cons, ← Bool.or_assoc]
    exact ih (hf c a x h)

def xattrAlarm (v : View) (q : List Range) (stack : Nat → Byte) (id : Nat) : Bool :=
  quarantineOverlaps q (xattrLo id) (xattrHi id) &&
    (!v.xattrOk id || (v.xattrs id).any fun name =>
      decide (name ≠ [] ∧ name.length ≤ 255) && quarantineOverlaps q (xattrKey id name) (xattrEnd stack name))

def recipeAlarm (q : List Range) (row : Row) : Bool :=
  row.recipe.any fun addr => !row.isDir && decide (row.size ≠ 0) &&
    quarantineOverlaps q (recipeKey addr) (recipeKey addr ++ [0xff, 0xff, 0xff])

def rowAlarm (v : View) (q : List Range) (stack : Nat → Byte) (x : Nat × List Byte) : Bool :=
  (v.row x.1).any fun row => recipeAlarm q row || xattrAlarm v q stack x.1

def childAlarm (q : List Range) (x : List Byte × Nat) : Bool := counted x && quarantineHas q (inoKey x.2)

theorem asks_overlaps {lo hi : Key} (h : hi ≠ []) : asks q lo hi = quarantineOverlaps q lo hi := if_pos h

theorem xattrCb_uniform (f : Fault) (c : Live) (a : Bool) (name : List Byte) (h : Uniform q c a) :
    Uniform q (xattrCb q stack f c name) (a || (decide (name ≠ [] ∧ name.length ≤ 255) &&
      quarantineOverlaps q (xattrKey f.id name) (xattrEnd stack name))) := by
  unfold xattrCb
  by_cases hskip : name = [] ∨ 255 < name.length
  · have hno : ¬ (name ≠ [] ∧ name.length ≤ 255) := by
      rintro ⟨h0, h255⟩
      exact hskip.elim h0 (by omega)
    rw [if_pos hskip, decide_eq_false hno]
    simpa using h
  · have hyes : name ≠ [] ∧ name.length ≤ 255 := by
      rw [not_or] at hskip
      exact ⟨hskip.1, by omega⟩
    rw [if_neg hskip, decide_eq_true hyes, Bool.true_and]
    exact mark_uniform h f _ _

theorem markRecipe_uniform (h : Uniform q c a) (x : Nat × List Byte) (row : Row) :
    Uniform q (markRecipe q c x row) (a || recipeAlarm q row) := by
  unfold markRecipe recipeAlarm
  cases row.recipe with
  | none => simpa using h
  | some addr =>
    dsimp only [Option.any_some]
    split_ifs with hskip
    · obtain hdir | hsize := hskip
      · simpa [hdir] using h
      · simpa [hsize] using h
    · rw [not_or, Bool.not_eq_true] at hskip
      rw [hskip.1, decide_eq_true hskip.2]
      exact mark_uniform h _ _ _

theorem markXattrs_uniform (h : Uniform q c a) (f : Fault) :
    Uniform q (markXattrs v q stack c f) (a || xattrAlarm v q stack f.id) := by
  unfold markXattrs xattrAlarm
  cases hspace : quarantineOverlaps q (xattrLo f.id) (xattrHi f.id) with
  | false => simpa using h
  | true =>
    cases v.xattrOk f.id with
    | true =>
      exact fold_uniform (xattrCb_uniform f) _ h
    | false =>
      have hlive : Uniform q { c with xaUnknown := c.xaUnknown + 1 } a := h
      have hall := mark_uniform hlive f (xattrLo f.id) (xattrHi f.id)
      rw [asks_overlaps (by simp [xattrHi]), hspace] at hall
      simpa using hall

theorem liveCb_uniform (v : View) (stack : Nat → Byte) (c : Live) (a : Bool) (x : Nat × List Byte)
    (h : Uniform q c a) :
    Uniform q (liveCb v q stack c x) (a || rowAlarm v q stack x) := by
  unfold liveCb rowAlarm
  cases v.row x.1 with
  | none => simpa using h
  | some row =>
    have hlive : Uniform q { c with live := c.live + 1 } a := h
    rw [Option.any_some, ← Bool.or_assoc]
    exact markXattrs_uniform (markRecipe_uniform hlive x row) _

theorem markChild_uniform (c : Live) (a : Bool) (x : List Byte × Nat) (h : Uniform q c a) :
    Uniform q (markChild q c x) (a || childAlarm q x) := by
  unfold markChild childAlarm
  cases counted x with
  | false => simpa using h
  | true => exact mark_uniform h ⟨x.2, 0, .row, x.1⟩ (inoKey x.2) []

def scanned (v : View) : Nat → Nat → List Nat → List Nat
  | 0, _, _ => []
  | fuel + 1, qi, queue =>
    match queue[qi]? with
    | none => []
    | some dir =>
      dir :: if v.direntsOk dir then scanned v fuel (qi + 1) ((v.dirents dir).foldl (enqueue v) queue) else []

def visited (v : View) : List Nat := scanned v dirsMax 0 [rootIno]

theorem dirCb_fold (xs : List (List Byte × Nat)) (c : Live) (queue : List Nat) :
    xs.foldl (dirCb v q) (c, queue) = (xs.foldl (markChild q) c, xs.foldl (enqueue v) queue) := by
  induction xs generalizing c queue with
  | nil => rfl
  | cons x xs ih => exact ih _ _

theorem dirLoop_uniform (v : View) (fuel qi : Nat) (queue : List Nat) (h : Uniform q c a) :
    Uniform q (dirLoop v q fuel qi (c, queue)).1
      (a || (scanned v fuel qi queue).any fun d => (v.dirents d).any (childAlarm q)) := by
  induction fuel generalizing qi queue c a with
  | zero => simpa [dirLoop, scanned] using h
  | succ fuel ih =>
    unfold dirLoop scanned
    cases queue[qi]? with
    | none => simpa using h
    | some dir =>
      have hdir := fold_uniform markChild_uniform (v.dirents dir) h
      dsimp only
      rw [dirCb_fold, any_cons, ← Bool.or_assoc]
      split_ifs
      · exact ih (qi + 1) _ hdir
      · simpa using hdir

def Alarmed (v : View) (q : List Range) (stack : Nat → Byte) : Prop :=
  (∃ x ∈ v.live, rowAlarm v q stack x) ∨ ∃ d ∈ visited v, ∃ x ∈ v.dirents d, childAlarm q x

theorem uniform_safe (h : Uniform q c a) :
    (q.zipIdx.filter fun x => !c.refused x.2).map Prod.fst = if a then [] else q := by
  have hrefused : ∀ x ∈ q.zipIdx, c.refused x.2 = a := by
    intro x hx
    exact h x.2 (by simpa using (mem_zipIdx hx).2.1)
  cases a with
  | true =>
    rw [filter_eq_nil_iff.mpr fun x hx => by simp [hrefused x hx]]
    rfl
  | false =>
    rw [filter_eq_self.mpr fun x hx => by simp [hrefused x hx]]
    exact zipIdx_map_fst 0 q

theorem safety_safe (v : View) (q : List Range) (stack : Nat → Byte) :
    (Alarmed v q stack → (exciseSafety v q stack false).safe = []) ∧
      (¬ Alarmed v q stack → (exciseSafety v q stack false).safe = q) := by
  by_cases hq : q = []
  · simp [exciseSafety, hq]
  · have hstart : Uniform q ⟨fun _ => false, [], 0, 0, 0⟩ false := fun _ _ => rfl
    have hrows := fold_uniform (liveCb_uniform v stack) v.live hstart
    have hall := dirLoop_uniform v dirsMax 0 [rootIno] hrows
    have halarm : Alarmed v q stack ↔ (false || v.live.any (rowAlarm v q stack) ||
        (scanned v dirsMax 0 [rootIno]).any fun d => (v.dirents d).any (childAlarm q)) = true := by
      simp only [Alarmed, visited, Bool.false_or, Bool.or_eq_true, any_eq_true]
    rw [halarm]
    unfold exciseSafety
    rw [if_neg hq]
    dsimp only
    rw [uniform_safe hall]
    exact ⟨fun h => if_pos h, fun h => if_neg h⟩

def RecipeKey (v : View) (addr : Addr) (k : Key) : Prop :=
  k = recipeKey addr ∨ ∃ idx < v.chunks addr, k = recipeChunkKey addr idx

inductive Below (v : View) : Nat → Prop where
  | root : Below v rootIno
  | child {d : Nat} {x : List Byte × Nat} (hd : Below v d) (hx : x ∈ v.dirents d) (hc : counted x)
      (hdir : isDir v x.2) : Below v x.2

inductive Needs (v : View) (k : Key) : Prop where
  | recipe {x : Nat × List Byte} {row : Row} {addr : Addr} (hx : x ∈ v.live) (hrow : v.row x.1 = some row)
      (haddr : row.recipe = some addr) (hk : RecipeKey v addr k)
  | child {x : Nat × List Byte} {row : Row} {addr child : Addr} (hx : x ∈ v.live)
      (hrow : v.row x.1 = some row) (haddr : row.recipe = some addr) (hchild : child ∈ v.children addr)
      (hk : RecipeKey v child k)
  | xattr {x : Nat × List Byte} {row : Row} {name : List Byte} (hx : x ∈ v.live)
      (hrow : v.row x.1 = some row) (hname : name ∈ v.xattrs x.1)
      (hk : k = xattrKey x.1 name ∨ ∃ idx < v.xattrChunks x.1 name, k = xattrChunkKey x.1 name idx)
  | row {d : Nat} {x : List Byte × Nat} (hd : Below v d) (hx : x ∈ v.dirents d) (hname : x.1 ≠ [])
      (hchild : x.2 ≠ 0) (hk : k = inoKey x.2)

/-- The walks and the scans that are made come to their end, and every directory is scanned. -/
structure Complete (v : View) (q : List Range) : Prop where
  live : v.liveOk = true
  xattrs : ∀ x ∈ v.live, (v.row x.1).isSome → quarantineOverlaps q (xattrLo x.1) (xattrHi x.1) →
    v.xattrOk x.1 = true
  dirs : ∀ d, Below v d → d ∈ visited v ∧ v.direntsOk d = true

def Clean (v : View) (r : Range) : Prop := ∀ k, Needs v k → rangeHas r k = false

/-- A range is cleared exactly if it holds no needed key, and none is if the walk is not complete. -/
def Right (v : View) (q : List Range) (stack : Nat → Byte) : Prop :=
  (Complete v q → ∀ r ∈ q, r ∈ (exciseSafety v q stack false).safe ↔ Clean v r) ∧
    (¬ Complete v q → (exciseSafety v q stack false).safe = [])

/-- The gate is right only where it cannot matter which range a needed key lies in, and where what it
asks about is what is needed. -/
theorem safety_right_iff (v : View) (q : List Range) (stack : Nat → Byte) : Right v q stack ↔ q = [] ∨
      (Complete v q ∧ ¬ Alarmed v q stack ∧ ∀ r ∈ q, Clean v r) ∨
      (Complete v q ∧ Alarmed v q stack ∧ ∀ r ∈ q, ¬ Clean v r) ∨ (¬ Complete v q ∧ Alarmed v q stack) := by
  obtain ⟨halarmed, hquiet⟩ := safety_safe v q stack
  by_cases hq : q = []
  · exact iff_of_true ⟨by simp [hq], fun _ => by simp [exciseSafety, hq]⟩ (.inl hq)
  · constructor
    · rintro ⟨hcomplete, hincomplete⟩
      refine .inr ?_
      by_cases hc : Complete v q <;> by_cases ha : Alarmed v q stack
      · rw [halarmed ha] at hcomplete
        exact .inr (.inl ⟨hc, ha, fun r hr hclean => by simpa using (hcomplete hc r hr).mpr hclean⟩)
      · rw [hquiet ha] at hcomplete
        exact .inl ⟨hc, ha, fun r hr => (hcomplete hc r hr).mp hr⟩
      · exact .inr (.inr ⟨hc, ha⟩)
      · exact absurd ((hquiet ha).symm.trans (hincomplete hc)) hq
    · rintro (h | ⟨hc, ha, hclean⟩ | ⟨hc, ha, hdirty⟩ | ⟨hc, ha⟩)
      · exact absurd h hq
      · exact ⟨fun _ r hr => iff_of_true (by rwa [hquiet ha]) (hclean r hr), fun hno => absurd hc hno⟩
      · exact ⟨fun _ r hr => iff_of_false (by simp [halarmed ha]) (hdirty r hr), fun hno => absurd hc hno⟩
      · exact ⟨fun h => absurd h hc, fun _ => halarmed ha⟩

section

def lostRow : View where
  live := []
  liveOk := true
  row := fun _ => none
  xattrs := fun _ => []
  xattrOk := fun _ => true
  dirents := fun d => if d = rootIno then [([97], 5)] else []
  direntsOk := fun _ => true
  chunks := fun _ => 0
  children := fun _ => []
  xattrChunks := fun _ _ => 0

def tagged : View where
  live := [(7, [97])]
  liveOk := true
  row := fun i => if i = 7 then some ⟨false, 0, none⟩ else none
  xattrs := fun i => if i = 7 then [[117]] else []
  xattrOk := fun _ => true
  dirents := fun _ => []
  direntsOk := fun _ => true
  chunks := fun _ => 0
  children := fun _ => []
  xattrChunks := fun _ _ => 0

theorem lostRow_below {d : Nat} (h : Below lostRow d) : d = rootIno := by
  obtain _ | ⟨-, -, -, hdir⟩ := h
  · rfl
  · simp [isDir, lostRow] at hdir

theorem lostRow_complete (q : List Range) : Complete lostRow q := by
  refine ⟨rfl, fun x hx => by simp [lostRow] at hx, fun d hd => ?_⟩
  obtain rfl := lostRow_below hd
  exact ⟨by decide, rfl⟩

theorem lostRow_needs {k : Key} (h : Needs lostRow k) : k = inoKey 5 := by
  obtain ⟨hx, -⟩ | ⟨hx, -⟩ | ⟨hx, -⟩ | ⟨hd, hx, -, -, rfl⟩ := h
  · simp [lostRow] at hx
  · simp [lostRow] at hx
  · simp [lostRow] at hx
  · obtain rfl := lostRow_below hd
    obtain rfl := mem_singleton.mp hx
    rfl

/-- The first of two ranges holds the row of a named inode. The second holds nothing that is needed and is
refused with it. On the other volume a range with an extended attribute is cleared. -/
theorem gate_misjudges : (Complete lostRow [⟨inoKey 5, inoKey 6⟩, ⟨[5], [6]⟩] ∧ Clean lostRow ⟨[5], [6]⟩ ∧
        (exciseSafety lostRow [⟨inoKey 5, inoKey 6⟩, ⟨[5], [6]⟩] (fun _ => 0) false).safe = []) ∧
      Needs tagged (xattrKey 7 [117]) ∧ rangeHas ⟨xattrLo 7, []⟩ (xattrKey 7 [117]) = true ∧
        (exciseSafety tagged [⟨xattrLo 7, []⟩] (fun _ => 0) false).safe = [⟨xattrLo 7, []⟩] := by
  refine ⟨⟨lostRow_complete _, fun k hk => ?_, by decide +kernel⟩, ?_, by decide +kernel, by decide +kernel⟩
  · rw [lostRow_needs hk]
    decide +kernel
  · exact .xattr (mem_singleton.mpr rfl) rfl (mem_singleton.mpr rfl) (.inl rfl)

end

end InvariantFs.ExciseSafety
