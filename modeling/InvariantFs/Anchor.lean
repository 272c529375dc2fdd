import InvariantFs.ByteCodec

namespace InvariantFs.Anchor

open ByteCodec List

/-- `invfs_rt` or `invfs_spt0`: the bytes in front of the checksum, and the checksum. -/
structure Desc where
  body : List Byte
  crc32c : UInt32
  deriving DecidableEq

/-- The superblock, as far as an anchor is matched with it. -/
structure Sb where
  totalBlocks : Nat
  blockSize : Nat
  formatVersion : Nat
  uuid : List Byte
  deriving DecidableEq

/-- `invfs_anc0` -/
structure Anc0 where
  magic : List Byte
  version : Nat
  fp : Sb
  rt : Desc
  spt0 : Desc
  crc32c : UInt32

inductive State where
  | ok
  | absent
  | refusedGeometry
  | refusedDamage
  | io
  deriving DecidableEq

/-- The descriptors in memory, those in block 0, and the last block. -/
structure Vol where
  sb : Sb
  rt : Desc
  spt0 : Desc
  anchorState : State
  refreshFailed : Bool
  diskRt : Desc
  diskSpt0 : Desc
  tail : Anc0

def magic : List Byte := [0x41, 0x4e, 0x43, 0x30]

def version : Nat := 1

def blockSize : Nat := 4096

section

variable (crc : List Byte → UInt32)

/-- The checksum of an RT30. -/
def rtCrc (d : Desc) : UInt32 := crc d.body

/-- `spt0_crc`, over the whole descriptor -/
def spt0Crc (d : Desc) : UInt32 := crc (d.body ++ [0, 0, 0, 0])

def wr (n : Nat) : List Byte := wr32 (.ofNat n)

def Desc.bytes (d : Desc) : List Byte := d.body ++ wr32 d.crc32c

def anchorCrc (a : Anc0) : UInt32 :=
  crc (a.magic ++ wr a.version ++ wr a.fp.totalBlocks ++ wr (a.fp.totalBlocks / 2 ^ 32) ++ wr a.fp.blockSize ++
    wr a.fp.formatVersion ++ a.fp.uuid ++ a.rt.bytes ++ a.spt0.bytes)

def anchorStateOf (a : Anc0) : State :=
  if a.magic ≠ magic then .absent
  else if a.version ≠ version ∨ anchorCrc crc a ≠ a.crc32c then .refusedDamage
  else .ok

def anchorBuild (v : Vol) : Anc0 :=
  let a : Anc0 := ⟨magic, version, { v.sb with blockSize := blockSize }, v.rt, v.spt0, 0⟩
  { a with crc32c := anchorCrc crc a }

/-- `anchor_probe`, on a device that reads the last block or does not -/
def anchorProbe (readable : Bool) (v : Vol) : State :=
  if v.sb.totalBlocks < 2 then .absent
  else if readable = false then .io
  else if anchorStateOf crc v.tail ≠ .ok then anchorStateOf crc v.tail
  else if v.tail.fp ≠ v.sb then .refusedGeometry
  else .ok

/-- `anchor_refresh`, and whether it returns 0. -/
def anchorRefresh (wrote : Bool) (v : Vol) : Bool × Vol :=
  if v.anchorState ≠ .ok ∨ v.sb.totalBlocks < 2 then (true, v)
  else if wrote then (true, { v with tail := anchorBuild crc v })
  else (false, { v with refreshFailed := true })

/-- `mbuf_rt30_store`: the checksum goes into the descriptor in memory. -/
def mbufRt30Store (wrote wroteTail : Bool) (v : Vol) : Bool × Vol :=
  let rt := { v.rt with crc32c := rtCrc crc v.rt }
  if wrote then (true, (anchorRefresh crc wroteTail { v with rt := rt, diskRt := rt }).2) else
    (false, { v with rt := rt })

/-- `spt0_store`: the checksum goes into a copy. -/
def spt0Store (wrote wroteTail : Bool) (v : Vol) : Bool × Vol :=
  if wrote then
    (true, (anchorRefresh crc wroteTail { v with diskSpt0 := { v.spt0 with crc32c := spt0Crc crc v.spt0 } }).2)
  else (false, v)

/-- A store that succeeds, of what its caller has made of the descriptor in memory. -/
inductive Store where
  | rt (d : Desc) (wroteTail : Bool)
  | spt0 (d : Desc) (wroteTail : Bool)

def step (v : Vol) : Store → Vol
  | .rt d wroteTail => (mbufRt30Store crc true wroteTail { v with rt := d }).2
  | .spt0 d wroteTail => (spt0Store crc true wroteTail { v with spt0 := d }).2

/-- The anchor is accepted, and each descriptor in it passes its check and equals the one in block 0. -/
structure Mirrors (v : Vol) : Prop where
  probe : anchorProbe crc true v = .ok
  rtCrc : rtCrc crc v.tail.rt = v.tail.rt.crc32c
  rt : v.tail.rt = v.diskRt
  spt0Crc : spt0Crc crc v.tail.spt0 = v.tail.spt0.crc32c
  spt0 : v.tail.spt0 = v.diskSpt0

def RtStamped (v : Vol) : Prop := v.rt = v.diskRt ∧ rtCrc crc v.rt = v.rt.crc32c

def Spt0Stamped (v : Vol) : Prop := v.spt0 = v.diskSpt0 ∧ spt0Crc crc v.spt0 = v.spt0.crc32c

/-- The descriptor of the last SPT0 store had its checksum before the store. -/
def LastStamped (v : Vol) (ops : List Store) : Prop :=
  match (ops.filterMap fun | .spt0 d _ => some d | _ => none).getLast? with
  | some d => spt0Crc crc d = d.crc32c
  | none => Spt0Stamped crc v

end

variable {crc : List Byte → UInt32} {v : Vol} {ops : List Store}

variable (crc) in
theorem refresh_frame (b : Bool) (v : Vol) :
    ∃ t f, (anchorRefresh crc b v).2 = { v with tail := t, refreshFailed := f } := by
  unfold anchorRefresh
  split_ifs
  · exact ⟨v.tail, v.refreshFailed, rfl⟩
  · exact ⟨_, v.refreshFailed, rfl⟩
  · exact ⟨v.tail, true, rfl⟩

theorem run_stores (v : Vol) (ops : List Store) :
    (ops.foldl (step crc) v).sb = v.sb ∧ (ops.foldl (step crc) v).anchorState = v.anchorState ∧
      (RtStamped crc (ops.foldl (step crc) v) ↔ (∃ d b, .rt d b ∈ ops) ∨ RtStamped crc v) ∧
      (Spt0Stamped crc (ops.foldl (step crc) v) ↔ LastStamped crc v ops) := by
  induction ops using reverseRecOn with
  | nil => simp [LastStamped]
  | append_singleton ops op ih =>
    rw [foldl_append, foldl_cons]
    generalize ops.foldl (step crc) v = u at ih
    obtain ⟨hsb, hstate, hrt, hspt0⟩ := ih
    cases op with
    | rt d b =>
      obtain ⟨t, f, h⟩ := refresh_frame crc b
        { u with rt := { d with crc32c := rtCrc crc d }, diskRt := { d with crc32c := rtCrc crc d } }
      rw [step, mbufRt30Store, if_pos rfl, h]
      refine ⟨hsb, hstate, iff_of_true ⟨rfl, rfl⟩ (.inl ⟨d, b, by simp⟩), ?_⟩
      simpa [LastStamped, Spt0Stamped] using hspt0
    | spt0 d b =>
      obtain ⟨t, f, h⟩ := refresh_frame crc b { u with spt0 := d, diskSpt0 := { d with crc32c := spt0Crc crc d } }
      rw [step, spt0Store, if_pos rfl, h]
      refine ⟨hsb, hstate, by simpa [RtStamped] using hrt, ?_⟩
      simp only [LastStamped, filterMap_append, filterMap_cons, filterMap_nil, getLast?_concat]
      exact ⟨fun h => h.2, fun h => ⟨h ▸ rfl, h⟩⟩

/-- On a volume with an anchor, the anchor of a refresh mirrors block 0 just where the last stored save point
had its checksum in memory before the store. -/
theorem mirrors_iff (hstate : v.anchorState = .ok) (htotal : 2 ≤ v.sb.totalBlocks)
    (hblock : v.sb.blockSize = blockSize)
    {w : Vol} {b : Bool} (h : anchorRefresh crc b (ops.foldl (step crc) v) = (true, w)) :
    Mirrors crc w ↔ ((∃ d b, .rt d b ∈ ops) ∨ RtStamped crc v) ∧ LastStamped crc v ops := by
  obtain ⟨hsb, hok, hrt, hspt0⟩ := run_stores (v := v) ops
  generalize ops.foldl (step crc) v = u at *
  have htwo : ¬ u.sb.totalBlocks < 2 := by
    rw [hsb]
    exact Nat.not_lt.mpr htotal
  rw [anchorRefresh, if_neg (by simp only [hok, hstate, htwo, ne_eq, not_true, or_self, not_false_eq_true])] at h
  split_ifs at h with hb
  · cases h
    have hprobe : anchorProbe crc true { u with tail := anchorBuild crc u } = .ok := by
      have hself : anchorStateOf crc (anchorBuild crc u) = .ok := by simp [anchorStateOf, anchorBuild, anchorCrc]
      have hfp : (anchorBuild crc u).fp = u.sb := by simp [anchorBuild, hsb, ← hblock]
      simp only [anchorProbe, hself, hfp, htwo, ne_eq, not_true, if_false, reduceCtorEq]
    rw [← hrt, ← hspt0]
    exact ⟨fun h => ⟨⟨h.rt, h.rtCrc⟩, h.spt0, h.spt0Crc⟩, fun h => ⟨hprobe, h.1.2, h.1.1, h.2.2, h.2.1⟩⟩
  · cases h

/-- A volume with an anchor, and the save point that is going to be captured. -/
def anchored : Vol :=
  let rt : Desc := ⟨[0x52, 0x54, 0x33, 0x30], crc32c [0x52, 0x54, 0x33, 0x30]⟩
  let v : Vol := ⟨⟨100, 4096, 3, []⟩, rt, ⟨[], spt0Crc crc32c ⟨[], 0⟩⟩, .ok, false, rt, ⟨[], spt0Crc crc32c ⟨[], 0⟩⟩,
    ⟨[], 0, ⟨0, 0, 0, []⟩, rt, rt, 0⟩⟩
  { v with tail := anchorBuild crc32c v }

def captured : Desc := ⟨[0x53, 0x50, 0x54, 0x30], 0⟩

theorem mirror_unstamped : let w := anchorRefresh crc32c true (step crc32c anchored (.spt0 captured true))
    Mirrors crc32c anchored ∧ w.1 = true ∧ w.2.tail.spt0 = captured ∧ w.2.tail.spt0 ≠ w.2.diskSpt0 ∧
      spt0Crc crc32c captured ≠ captured.crc32c := by
  refine ⟨⟨?_, ?_, rfl, ?_, rfl⟩, rfl, rfl, ?_⟩ <;> decide +kernel

theorem mirrors_captured :
    ¬ Mirrors crc32c (anchorRefresh crc32c true ([.spt0 captured true].foldl (step crc32c) anchored)).2 := by
  rw [mirrors_iff (v := anchored) rfl (by decide) rfl (b := true) (Prod.ext rfl rfl)]
  rintro ⟨-, h⟩
  exact absurd (show spt0Crc crc32c captured = captured.crc32c from h) (by decide +kernel)

end InvariantFs.Anchor
