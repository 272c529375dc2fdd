import InvariantFs.BtreeMap

namespace InvariantFs.BtreeExcise

open ByteCodec BtreePage Btree Fallible BtreeShape

/-- `bt_range`: the keys from `lo` on that lie below `hi`, where an empty `hi` is no bound. -/
structure Range where
  lo : Key
  hi : Key
  deriving DecidableEq

def Range.covers (r : Range) (lo hi : Key) : Bool :=
  ¬ (r.lo ≠ [] ∧ lo < r.lo) ∧ (r.hi ≠ [] → hi ≠ [] ∧ hi ≤ r.hi)

structure Quarantine where
  ranges : List Range
  qfull : Bool

/-- `bt_excise`: what a page has become. An empty `minKey` leaves the separator in front of it. -/
structure Excised where
  node : Ptr
  minKey : Key
  dropped : Nat
  changed : Bool

structure Kept where
  ents : List Ent
  dropped : Nat
  changed : Bool

def Kept.drop (kept : Kept) : Kept := { kept with dropped := kept.dropped + 1, changed := true }

/-- A record whose child has been walked. Only a child that is gone counts as a change. -/
def Kept.add (e : Ent) (sub : Excised) (kept : Kept) : Kept :=
  if sub.changed = false then ⟨e :: kept.ents, kept.dropped + sub.dropped, kept.changed⟩
  else if sub.node.pba = 0 then ⟨kept.ents, kept.dropped + sub.dropped, true⟩
  else
    ⟨⟨if sub.minKey = [] then e.k else sub.minKey, e.v, sub.node⟩ :: kept.ents,
      kept.dropped + sub.dropped, kept.changed⟩

/-- The loop of `bt_excise_rec` over the records of a page. -/
def exciseKids (rec : Ptr → Key → Act Vol Excised) (q : List Range) (hi : Key) : List Ent → Act Vol Kept
  | [] => pure ⟨[], 0, false⟩
  | e :: es =>
    let chi := (es.head?.map Ent.k).getD hi
    if q.any fun r => r.covers e.k chi then do
      let kept ← exciseKids rec q hi es
      pure kept.drop
    else do
      let sub ← rec e.child chi
      let kept ← exciseKids rec q hi es
      pure (kept.add e sub)

variable (crc : List Byte → UInt32)

/-- What `bt_excise_rec` makes of the records that are left. -/
def finish (node : Ptr) (level : Nat) (gen : UInt64) (kept : Kept) : Act Vol Excised :=
  if kept.changed = false then pure ⟨node, [], kept.dropped, false⟩
  else
    match kept.ents with
    | [] => pure ⟨.null, [], 0, true⟩
    | [e] => pure ⟨e.child, e.k.take keyMax, kept.dropped, true⟩
    | e :: f :: es => do
      let p ← btWrite crc level gen (e :: f :: es)
      pure ⟨p, [], kept.dropped, true⟩

def exciseRec (q : List Range) (gen : UInt64) : Nat → Ptr → Key → Option Nat → Act Vol Excised
  | 0, _, _, _ => failure
  | fuel + 1, node, hi, expect => do
    let (level, es) ← btRead crc node
    if ∃ x ∈ expect, level ≠ x then failure
    else if level = 0 then pure ⟨node, [], 0, false⟩
    else do
      let kept ← exciseKids (fun p hi => exciseRec q gen fuel p hi (some (level - 1))) q hi es
      finish crc node level gen kept

/-- `btree_excise`: whether there was something to drop, and the root. -/
def excise (root : Ptr) (q : Quarantine) : Act Vol (Bool × Ptr) :=
  if root.pba = 0 ∨ q.ranges = [] then pure (false, root)
  else if q.qfull then failure
  else do
    let gen := root.gen + 1
    let top ← exciseRec crc q.ranges gen (maxLevels + 1) root [] none
    if top.dropped = 0 ∧ top.changed = false then pure (false, root)
    else if top.node.pba = 0 then do
      let page := pageBytes crc 0 gen []
      let pba ← place crc gen page
      pure (true, ptrSet pba page (bpLeaf ||| bpRoot))
    else if top.minKey ≠ [] then do
      let p ← recopy crc top.node gen
      pure (true, Ptr.asRoot p)
    else pure (true, top.node)

section

variable {rec : Ptr → Key → Act Vol Excised} {q : List Range} {hi : Key} {e : Ent} {es : List Ent}
  {v v' : Vol} {kept : Kept}

theorem exciseKids_cons : runs (exciseKids rec q hi (e :: es)) v = (some kept, v') ↔
    if q.any fun r => r.covers e.k ((es.head?.map Ent.k).getD hi) then
      ∃ rest, runs (exciseKids rec q hi es) v = (some rest, v') ∧ kept = rest.drop else
      ∃ sub u rest, runs (rec e.child ((es.head?.map Ent.k).getD hi)) v = (some sub, u) ∧
        runs (exciseKids rec q hi es) u = (some rest, v') ∧ kept = rest.add e sub := by
  rw [exciseKids]
  split_ifs with hc
  · refine ⟨fun h => ?_, fun ⟨rest, hrest, hk⟩ => bind_some.mpr ⟨rest, v', hrest, hk ▸ rfl⟩⟩
    obtain ⟨rest, u, hrest, hpure⟩ := bind_some.mp h
    obtain ⟨hk, rfl⟩ := Prod.mk.inj hpure
    exact ⟨rest, hrest, (Option.some.inj hk).symm⟩
  · refine ⟨fun h => ?_, fun ⟨sub, u, rest, hsub, hrest, hk⟩ =>
      bind_some.mpr ⟨sub, u, hsub, bind_some.mpr ⟨rest, v', hrest, hk ▸ rfl⟩⟩⟩
    obtain ⟨sub, u, hsub, h⟩ := bind_some.mp h
    obtain ⟨rest, w, hrest, hpure⟩ := bind_some.mp h
    obtain ⟨hk, rfl⟩ := Prod.mk.inj hpure
    exact ⟨sub, u, rest, hsub, hrest, (Option.some.inj hk).symm⟩

end

section

variable {q : List Range} {gen : UInt64} {fuel level : Nat} {node : Ptr} {hi : Key} {expect : Option Nat}
  {es : List Ent} {v : Vol}

theorem exciseRec_leaf (hread : readNode crc v node = some (0, es)) (hexp : ∀ x ∈ expect, 0 = x) :
    runs (exciseRec crc q gen (fuel + 1) node hi expect) v = (some ⟨node, [], 0, false⟩, v) := by
  have hno : ¬ ∃ x ∈ expect, 0 ≠ x := fun ⟨x, hx, hne⟩ => hne (hexp x hx)
  refine bind_some.mpr ⟨(0, es), v, ?_, ?_⟩
  · rw [btRead, runs_act, hread]
  · dsimp only
    rw [if_neg hno, if_pos rfl, runs_pure]

theorem exciseRec_page (hread : readNode crc v node = some (level, es)) (hexp : ∀ x ∈ expect, level = x)
    (hlevel : level ≠ 0) : runs (exciseRec crc q gen (fuel + 1) node hi expect) v =
      runs (exciseKids (fun p hi => exciseRec crc q gen fuel p hi (some (level - 1))) q hi es >>=
        finish crc node level gen) v := by
  have hno : ¬ ∃ x ∈ expect, level ≠ x := fun ⟨x, hx, hne⟩ => hne (hexp x hx)
  rw [exciseRec, runs_bind, btRead, runs_act, hread]
  dsimp only
  rw [if_neg hno, if_neg hlevel]

theorem exciseRec_reads {out : Excised} {v' : Vol}
    (h : runs (exciseRec crc q gen (fuel + 1) node hi expect) v = (some out, v')) :
    ∃ level es, readNode crc v node = some (level, es) ∧ ∀ x ∈ expect, level = x := by
  rw [exciseRec] at h
  obtain ⟨⟨level, es⟩, u, hbt, h⟩ := bind_some.mp h
  rw [btRead, runs_act] at hbt
  obtain ⟨hread, rfl⟩ := Prod.mk.inj hbt
  refine ⟨level, es, hread, fun x hx => by_contra fun hne => ?_⟩
  dsimp only at h
  rw [if_pos ⟨x, hx, hne⟩] at h
  simp at h

end

end InvariantFs.BtreeExcise
