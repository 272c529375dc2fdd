import InvariantFs.DeltaLog

namespace InvariantFs.DeltaGroup

open DeltaRecord DeltaSegment DeltaIndex DeltaLog List Function AList

/-- The writer's side of the recent tier: the active segment, the caps of a group and what is kept in
memory. -/
structure Tier (K V : Type) where
  segPba : Nat
  bump : Nat
  groupMax : Nat
  groupBytes : Nat
  ram : Ram K V

/-- What the allocator and the device answer during one append. `ready` is the part before the
rollover, which marks the volume dirty. -/
structure Reply where
  ready : Bool
  alloc : Option Nat
  header : Bool
  publish : Bool
  write : Bool
  close : Bool

variable {K V : Type} [DecidableEq K]

def Tier.full (t : Tier K V) (ram : Ram K V) : Bool :=
  t.groupMax = 0 ∨ t.groupBytes = 0 ∨ t.groupMax ≤ ram.pending ∨ t.groupBytes ≤ ram.pendingBytes

def Tier.stage (t : Tier K V) (a : Reply) (size : Nat) (key : K) (val : V) (del : Bool) : Tier K V × Bool :=
  if a.write = false then ({ t with ram := t.ram.doom }, false)
  else
    let ram := t.ram.keep key val del t.segPba t.bump size
    if t.full ram then
      if a.close then
        ({ t with ram := ram.close.put key val del t.segPba t.bump, bump := t.bump + size }, true)
      else ({ t with ram := ram.doom, bump := t.bump + size }, false)
    else ({ t with ram := ram.put key val del t.segPba t.bump, bump := t.bump + size }, true)

/-- `vol_delta_append` on what is kept in memory. -/
def Tier.append (t : Tier K V) (a : Reply) (size : Nat) (key : K) (val : V) (del : Bool) : Tier K V × Bool :=
  if segBytes - segHdrLen < size ∨ a.ready = false then (t, false)
  else if t.segPba = 0 ∨ segBytes < t.bump + size then
    match a.alloc with
    | none => (t, false)
    | some pba =>
      if a.header = false ∨ a.publish = false then ({ t with ram := t.ram.doom }, false)
      else Tier.stage { t with segPba := pba, bump := segHdrLen, ram := t.ram.close } a size key val del
  else t.stage a size key val del

def Tier.view (t : Tier K V) (base : K → Option V) (key : K) : Option V :=
  match t.ram.index.lookup key with
  | none => base key
  | some s => if s.del then none else some s.val

section

variable (crc : List ByteCodec.Byte → UInt32)

def tierOf (l : Log) : Tier (List ByteCodec.Byte) (List ByteCodec.Byte) :=
  ⟨l.segPba, l.bump, l.groupMax, l.groupBytes, l.ram⟩

def granted : Barrier → Bool
  | .ok => true
  | .refused _ _ => false

def replyOf (env : Env) (l : Log) : Reply where
  ready := true
  alloc := env.alloc.filter fun pba => ¬ (pba = 0 ∨ l.total ≤ pba ∨ pba ∈ l.taken)
  header := granted env.header
  publish := granted env.publish
  write := true
  close := granted env.close

theorem stageRecord_tier (env : Env) (l : Log) (r : Rec) (a : Reply) (hw : a.write = true)
    (hc : a.close = granted env.close) : (tierOf (stageRecord crc env l r).2.1, (stageRecord crc env l r).2.2) =
      (tierOf l).stage a r.size r.key r.val (r.kind = .delete) := by
  have hfull : (tierOf l).full = groupFull l := rfl
  unfold stageRecord Tier.stage
  rw [hw, hc, hfull]
  dsimp only [tierOf]
  by_cases hf : groupFull l (l.ram.keep r.key r.val (r.kind = .delete) l.segPba l.bump r.size) = true
  · cases hb : env.close <;> simp [hf, granted]
  · simp [hf]

theorem append_tier (env : Env) (l : Log) (r : Rec) (hr : r.kind ≠ .pad) :
    (tierOf (append crc env l r).2.1, (append crc env l r).2.2) =
      (tierOf l).append (replyOf env l) r.size r.key r.val (r.kind = .delete) := by
  unfold append Tier.append
  by_cases hs : segBytes - segHdrLen < r.size
  · simp [hs]
  · have hready : ¬ (segBytes - segHdrLen < r.size ∨ (replyOf env l).ready = false) := by simp [hs, replyOf]
    rw [if_neg hready, if_neg (by simp [hr, hs])]
    by_cases hroll : rollsOver l r
    · have hroll' : (tierOf l).segPba = 0 ∨ segBytes < (tierOf l).bump + r.size := hroll
      rw [if_pos hroll, if_pos hroll']
      unfold rollover newSegment
      cases ha : env.alloc with
      | none => simp [replyOf, ha]
      | some pba =>
        by_cases hbad : pba = 0 ∨ l.total ≤ pba ∨ pba ∈ l.taken
        · simp [replyOf, ha, hbad, Option.filter]
        · have halloc : (replyOf env l).alloc = some pba := by simp [replyOf, ha, hbad, Option.filter]
          rw [halloc]
          simp only [hbad, if_false]
          cases hh : env.header with
          | refused x y => simp [replyOf, hh, granted, tierOf]
          | ok =>
            cases hp : env.publish with
            | refused x y => simp [replyOf, hp, granted, tierOf]
            | ok =>
              have hgo : ¬ ((replyOf env l).header = false ∨ (replyOf env l).publish = false) := by
                simp [replyOf, hh, hp, granted]
              rw [if_neg hgo]
              exact stageRecord_tier crc env _ r (replyOf env l) rfl rfl
    · have hroll' : ¬ ((tierOf l).segPba = 0 ∨ segBytes < (tierOf l).bump + r.size) := hroll
      rw [if_neg hroll, if_neg hroll']
      exact stageRecord_tier crc env l r (replyOf env l) rfl rfl

end

variable (r : Ram K V)

theorem lookup_put (key : K) (val : V) (del : Bool) (seg off : Nat) :
    (fun k => (r.put key val del seg off).index.lookup k) =
      update (fun k => r.index.lookup k) key (some ⟨seg, off, r.seq + 1, del, val⟩) := by
  funext k
  by_cases hk : k = key
  · rw [hk, update_self]
    exact lookup_insert _
  · rw [update_of_ne hk]
    exact lookup_insert_ne hk

variable {t : Tier K V} {key : K} {t' : Tier K V}

theorem view_update {s : Slot V} (base : K → Option V)
    (h : (fun k => t'.ram.index.lookup k) = update (fun k => t.ram.index.lookup k) key (some s)) :
    t'.view base = update (t.view base) key (if s.del then none else some s.val) := by
  funext k
  have hk : t'.ram.index.lookup k = _ := congrFun h k
  unfold Tier.view
  rw [hk]
  by_cases he : k = key
  · rw [he, update_self, update_self]
  · rw [update_of_ne he, update_of_ne he]

variable {size : Nat} {val : V} {del : Bool}

theorem append_view {a : Reply} (h : t.append a size key val del = (t', true)) (base : K → Option V) :
    t'.view base = update (t.view base) key (if del then none else some val) := by
  have hstage : ∀ u : Tier K V, u.ram.index = t.ram.index → u.stage a size key val del = (t', true) →
      t'.view base = update (t.view base) key (if del then none else some val) := by
    intro u hu hs
    unfold Tier.stage at hs
    have hput : ∀ (r : Ram K V) (b : Nat), r.index = t.ram.index →
        Tier.view { u with ram := r.put key val del u.segPba u.bump, bump := b } base =
          update (t.view base) key (if del then none else some val) := by
      intro r b hr
      refine view_update base (s := ⟨u.segPba, u.bump, r.seq + 1, del, val⟩) ?_
      rw [lookup_put, hr]
    split at hs
    · cases hs
    · dsimp only at hs
      split at hs
      · split at hs
        · cases hs
          exact hput _ _ hu
        · cases hs
      · cases hs
        exact hput _ _ hu
  unfold Tier.append at h
  split at h
  · cases h
  split at h
  · split at h
    · cases h
    · split at h
      · cases h
      · refine hstage _ ?_ h
        rfl
  · exact hstage t rfl h

/-- What an append asks of the allocator and the device: a new segment where the active one is full, a write, and
a barrier where the record fills its group. -/
def Tier.Takes (t : Tier K V) (a : Reply) (size : Nat) : Prop :=
  let rolls := t.segPba = 0 ∨ segBytes < t.bump + size
  let pending := if rolls then 0 else t.ram.pending
  let bytes := if rolls then 0 else t.ram.pendingBytes
  size ≤ segBytes - segHdrLen ∧ a.ready = true ∧
    (rolls → a.alloc.isSome = true ∧ a.header = true ∧ a.publish = true) ∧ a.write = true ∧
    (t.groupMax = 0 ∨ t.groupBytes = 0 ∨ t.groupMax ≤ pending + 1 ∨ t.groupBytes ≤ bytes + size → a.close = true)

instance (t : Tier K V) (a : Reply) (size : Nat) : Decidable (t.Takes a size) := inferInstanceAs (Decidable (_ ∧ _))

theorem stage_takes (t : Tier K V) (a : Reply) (size : Nat) (key : K) (val : V) (del : Bool) :
    (t.stage a size key val del).2 = true ↔ a.write = true ∧ (t.groupMax = 0 ∨ t.groupBytes = 0 ∨
      t.groupMax ≤ t.ram.pending + 1 ∨ t.groupBytes ≤ t.ram.pendingBytes + size → a.close = true) := by
  have hfull : t.full (t.ram.keep key val del t.segPba t.bump size) = true ↔ t.groupMax = 0 ∨ t.groupBytes = 0 ∨
      t.groupMax ≤ t.ram.pending + 1 ∨ t.groupBytes ≤ t.ram.pendingBytes + size := decide_eq_true_iff
  unfold Tier.stage
  by_cases hw : a.write = false
  · simp [hw]
  rw [if_neg hw]
  dsimp only
  rw [Bool.not_eq_false] at hw
  by_cases hf : t.full (t.ram.keep key val del t.segPba t.bump size) = true
  · rw [if_pos hf]
    by_cases hc : a.close = true
    · simp [hw, hc]
    · simp only [hc, hw, Bool.false_eq_true, if_false, true_and, imp_false, false_iff, not_not]
      exact hfull.1 hf
  · rw [if_neg hf]
    exact ⟨fun _ => ⟨hw, fun h => absurd (hfull.2 h) hf⟩, fun _ => rfl⟩

theorem append_takes (t : Tier K V) (a : Reply) (size : Nat) (key : K) (val : V) (del : Bool) :
    (t.append a size key val del).2 = true ↔ t.Takes a size := by
  unfold Tier.append Tier.Takes
  dsimp only
  by_cases hready : segBytes - segHdrLen < size ∨ a.ready = false
  · rw [if_pos hready]
    refine ⟨by simp, ?_⟩
    rintro ⟨hsize, hr, -⟩
    obtain h | h := hready
    · omega
    · simp [hr] at h
  rw [if_neg hready]
  rw [not_or, not_lt, Bool.not_eq_false] at hready
  simp only [hready, true_and]
  by_cases hroll : t.segPba = 0 ∨ segBytes < t.bump + size
  · simp only [if_pos hroll]
    cases ha : a.alloc with
    | none => simp [hroll]
    | some pba =>
      dsimp only
      by_cases hh : a.header = false ∨ a.publish = false
      · rw [if_pos hh]
        obtain h | h := hh <;> simp [h, hroll]
      · rw [if_neg hh, stage_takes]
        rw [not_or, Bool.not_eq_false, Bool.not_eq_false] at hh
        simp [hh, Ram.close]
  · simp only [if_neg hroll, stage_takes]
    exact ⟨fun h => ⟨fun h' => absurd h' hroll, h⟩, And.right⟩

def Reply.Served (a : Reply) : Prop :=
  a.ready = true ∧ a.alloc.isSome = true ∧ a.header = true ∧ a.publish = true ∧ a.write = true ∧ a.close = true

instance (a : Reply) : Decidable a.Served := inferInstanceAs (Decidable (_ ∧ _))

omit [DecidableEq K] in
theorem takes_of_served {a : Reply} (h : a.Served) (t : Tier K V) {size : Nat} (hsize : size ≤ segBytes - segHdrLen) :
    t.Takes a size := by
  obtain ⟨hready, halloc, hheader, hpublish, hwrite, hclose⟩ := h
  exact ⟨hsize, hready, fun _ => ⟨halloc, hheader, hpublish⟩, hwrite, fun _ => hclose⟩

def undo (e : Staged K V) (f : K → Option (Slot V)) : K → Option (Slot V) :=
  match f e.key with
  | none => f
  | some s =>
    if s.seg = (e.seg * blockSize + e.off) / blockSize ∧ s.off = (e.seg * blockSize + e.off) % blockSize then
      update f e.key e.prev
    else f

end InvariantFs.DeltaGroup
