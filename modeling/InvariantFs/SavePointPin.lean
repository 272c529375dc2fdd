import InvariantFs.DeltaSegment
import InvariantFs.FreshBlocks

namespace InvariantFs.SavePointPin

open FileRead Retire FreshBlocks List Nat

/-- A volume at a capture. `pages` is what the base root reaches and `walks` whether all of it verifies. `reg`
is the registry of the batches, `chain` the segments of the delta and `session` what open write sessions have
allocated. -/
structure Gen where
  disk : Disk
  inodes : List Nat
  root : Nat
  pages : List Nat
  root_mem : root ≠ 0 → root ∈ pages
  walks : Bool
  reg : Option (List (Nat × Nat))
  chain : List Nat
  session : List (Nat × Nat)

def Gen.total (g : Gen) : Nat := g.disk.vol.total

def Gen.rows (g : Gen) : List Row := g.inodes.filterMap g.disk.vol.row

def within (b : Nat) (x : Nat × Nat) : Bool := x.1 ≤ b ∧ b < x.1 + x.2

/-- `spn_set_rc`, with the entries of a recipe that parses. -/
inductive BlockSet where
  | named (ents : List Entry)
  | none
  | unknown

def inodeBlockSet (row : Row) : BlockSet :=
  match row.blob, row.type with
  | .zero, _ => .none
  | .lost, _ => .unknown
  | _, .link => .none
  | .raw _, _ => .unknown
  | .ast r, _ => .named r.ents

/-- `spn_walk_ctx` -/
structure Walk where
  map : Nat → Bool
  indeterminate : Nat
  broken : Nat

/-- The entries whose `pba` is the address of a segment. -/
def addressed (total : Nat) (e : Entry) : Bool := e.pba ≠ 0 ∧ e.algo ≠ .windowSrc ∧ e.pba < total

/-- The blocks that are marked for a segment: only its head if the extent does not verify. -/
def marked (d : Disk) (pba : Nat) : Nat × Nat := (pba, (segExtentChecked d pba).getD 1)

def walkEntry (d : Disk) (w : Walk) (e : Entry) : Walk :=
  if addressed d.vol.total e then
    { w with
      map := fun b => within b (marked d e.pba) || w.map b
      broken := if (segExtentChecked d e.pba).isSome then w.broken else w.broken + 1 }
  else w

def walkIno (d : Disk) (w : Walk) (row : Row) : Walk :=
  match inodeBlockSet row with
  | .unknown => { w with indeterminate := w.indeterminate + 1 }
  | .none => w
  | .named ents => ents.foldl (walkEntry d) w

def walk (g : Gen) : Walk := g.rows.foldl (walkIno g.disk) ⟨fun _ => false, 0, 0⟩

/-- `spn_reg_owns`: the extents are in order, so the search ends at the last one that starts at or
before the block. -/
def regOwns (reg : List (Nat × Nat)) (b : Nat) : Bool :=
  (reg.filter fun x => x.1 ≤ b).getLast?.any (within b)

/-- `vol_free_blocks`. A run with a pinned block is not freed at all; the loop over its blocks that
follows in the source is never reached. -/
def freeBlocks (total : Nat) (release : Bool) (pin : Nat → Bool) (bit : Nat → Bool) (run : Nat × Nat) : Nat → Bool :=
  let end' := min (run.1 + run.2) total
  if ¬ release ∧ (range' run.1 (end' - run.1)).any pin then bit
  else fun b => if run.1 ≤ b ∧ b < end' then false else bit b

theorem freeSegment_bit {d : Disk} {pba n : Nat} (h : segExtentChecked d pba = some n) :
    (freeSegment d pba).bit = freeBlocks d.vol.total false (fun _ => false) d.bit (pba, n) := by
  have hin : pba + n ≤ d.vol.total := by
    obtain ⟨hext, -⟩ := Option.filter_eq_some_iff.mp h
    simp only [segExtent, Option.ite_none_left_eq_some, Option.some.injEq] at hext
    omega
  simp [freeSegment, h, freeBlocks, min_eq_left hin]

/-- The loop of `spn_reclaim`: the run that is open, and where it starts. -/
structure Sweep where
  bit : Nat → Bool
  start : Nat
  run : Nat

def Sweep.flush (total : Nat) (s : Sweep) : Sweep :=
  if s.run = 0 then s
  else { s with bit := freeBlocks total true (fun _ => false) s.bit (s.start, s.run), run := 0 }

def sweepBlock (total : Nat) (garbage : Nat → Bool) (s : Sweep) (b : Nat) : Sweep :=
  if garbage b && s.bit b then { s with start := if s.run = 0 then b else s.start, run := s.run + 1 }
  else s.flush total

def sweep (total : Nat) (garbage bit : Nat → Bool) : Nat → Bool :=
  (((range total).foldl (sweepBlock total garbage) ⟨bit, 0, 0⟩).flush total).bit

/-- `spn_reclaim`, up to the number of blocks that it reports. -/
def reclaim (g : Gen) (old : Option (Nat → Bool)) (new : Walk) : Nat → Bool :=
  match old, g.reg with
  | some old, some reg =>
    if new.indeterminate = 0 ∧ new.broken = 0 ∧ g.walks then
      sweep g.total (fun b => old b && !new.map b && !regOwns reg b && !g.pages.contains b) g.disk.bit
    else g.disk.bit
  | _, _ => g.disk.bit

variable {g : Gen} {d : Disk} {w : Walk} {row : Row} {e : Entry} {b : Nat}

def Walked (rows : List Row) (total : Nat) (e : Entry) : Prop :=
  ∃ row ∈ rows, ∃ ents, inodeBlockSet row = .named ents ∧ e ∈ ents ∧ addressed total e

/-- What a stretch of the walk adds: the segments of the entries of `E`, and whether some recipe is unknown. -/
structure Saw (d : Disk) (E : Entry → Prop) (U : Prop) (w w' : Walk) : Prop where
  map : ∀ b, w'.map b = true ↔ w.map b = true ∨ ∃ e, E e ∧ within b (marked d e.pba)
  broken : w'.broken = 0 ↔ w.broken = 0 ∧ ∀ e, E e → (segExtentChecked d e.pba).isSome
  indeterminate : w'.indeterminate = 0 ↔ w.indeterminate = 0 ∧ ¬ U

variable {E E' F : Entry → Prop} {U U' V : Prop} {w' w'' : Walk}

theorem Saw.nothing (hE : ∀ e, ¬ E e) (hU : ¬ U) : Saw d E U w w := by
  constructor <;> simp [hE, hU]

theorem Saw.trans (h : Saw d E U w w') (h' : Saw d E' U' w' w'') (hE : ∀ e, F e ↔ E e ∨ E' e) (hU : V ↔ U ∨ U') :
    Saw d F V w w'' where
  map b := by simp only [h'.map, h.map, hE, or_and_right, exists_or, or_assoc]
  broken := by simp only [h'.broken, h.broken, hE, or_imp, forall_and, and_assoc]
  indeterminate := by simp only [h'.indeterminate, h.indeterminate, hU, not_or, and_assoc]

theorem saw_entry : Saw d (fun x => x = e ∧ addressed d.vol.total x) False w (walkEntry d w e) := by
  unfold walkEntry
  by_cases h : addressed d.vol.total e = true
  · rw [if_pos h]
    by_cases hx : (segExtentChecked d e.pba).isSome <;> constructor <;> simp [h, hx, or_comm]
  · rw [if_neg h]
    exact .nothing (fun x hx => h (hx.1 ▸ hx.2)) id

theorem saw_entries (ents : List Entry) :
    Saw d (fun x => x ∈ ents ∧ addressed d.vol.total x) False w (ents.foldl (walkEntry d) w) := by
  induction ents generalizing w with
  | nil => exact .nothing (by simp) id
  | cons e ents ih => exact saw_entry.trans ih (by simp [or_and_right]) (by simp)

theorem saw_ino : Saw d (Walked [row] d.vol.total) (inodeBlockSet row = .unknown) w (walkIno d w row) := by
  unfold walkIno
  split <;> rename_i h
  · constructor <;> simp [Walked, h]
  · exact .nothing (by simp [Walked, h]) (by simp [h])
  next ents =>
    have hents := saw_entries (d := d) (w := w) ents
    constructor <;> simp [Walked, h, hents.map, hents.broken, hents.indeterminate]

theorem saw_rows (rows : List Row) : Saw d (Walked rows d.vol.total) (∃ row ∈ rows, inodeBlockSet row = .unknown) w
    (rows.foldl (walkIno d) w) := by
  induction rows generalizing w with
  | nil => exact .nothing (by simp [Walked]) (by simp)
  | cons row rows ih => exact saw_ino.trans ih (by simp [Walked]) (by simp)

section Loop

variable {total : Nat} {garbage bit : Nat → Bool} {s : Sweep} {k : Nat}

/-- After `k` blocks the runs that have ended are free, and the open run is still to be freed. -/
structure Swept (garbage bit : Nat → Bool) (k : Nat) (s : Sweep) : Prop where
  fits : s.run ≤ k
  start : s.run ≠ 0 → s.start + s.run = k
  done : ∀ b, b + s.run < k → s.bit b = (bit b && !garbage b)
  ahead : ∀ b, k ≤ b + s.run → s.bit b = bit b
  open' : ∀ b, k ≤ b + s.run → b < k → garbage b = true ∧ bit b = true

theorem Swept.flush (h : Swept garbage bit k s) (hk : k ≤ total) :
    Swept garbage bit k (s.flush total) ∧ (s.flush total).run = 0 := by
  unfold Sweep.flush
  split_ifs with hrun
  · exact ⟨h, hrun⟩
  · have hstart := h.start hrun
    have hbit : ∀ b, freeBlocks total true (fun _ => false) s.bit (s.start, s.run) b =
        if s.start ≤ b ∧ b < k then false else s.bit b := by
      intro b
      simp only [freeBlocks, not_true_eq_false, false_and, if_false]
      rw [hstart, min_eq_left hk]
    refine ⟨⟨zero_le k, by simp, fun b hb => ?_, fun b hb => ?_, fun b hb hb' => ?_⟩, rfl⟩
    · refine (hbit b).trans ?_
      by_cases hin : s.start ≤ b ∧ b < k
      · obtain ⟨hg, -⟩ := h.open' b (by omega) hin.2
        rw [if_pos hin, hg]
        simp
      · rw [if_neg hin]
        exact h.done b (by simp only [Nat.add_zero] at hb; omega)
    · simp only [Nat.add_zero] at hb
      refine (hbit b).trans ?_
      rw [if_neg (by omega)]
      exact h.ahead b (by omega)
    · simp only [Nat.add_zero] at hb
      omega

theorem Swept.step (h : Swept garbage bit k s) (hk : k ≤ total) :
    Swept garbage bit (k + 1) (sweepBlock total garbage s k) := by
  have hhere : s.bit k = bit k := h.ahead k (le_add_right k s.run)
  unfold sweepBlock
  by_cases hg : (garbage k && s.bit k) = true
  · rw [if_pos hg]
    rw [Bool.and_eq_true, hhere] at hg
    refine ⟨succ_le_succ h.fits, fun _ => ?_, fun b hb => h.done b (by dsimp only at hb; omega),
      fun b hb => h.ahead b (by dsimp only at hb; omega), fun b hb hb' => ?_⟩
    · dsimp only
      split_ifs with hrun
      · omega
      · have := h.start hrun
        omega
    · dsimp only at hb
      obtain rfl | hlt := eq_or_lt_of_le (le_of_lt_succ hb')
      · exact hg
      · exact h.open' b (by omega) hlt
  · rw [if_neg hg]
    obtain ⟨h', hrun⟩ := h.flush hk
    have hhere' := h'.ahead k (le_add_right k _)
    refine ⟨by omega, fun hne => absurd hrun hne, fun b hb => ?_, fun b hb => h'.ahead b (by omega),
      fun b hb hb' => by omega⟩
    obtain rfl | hlt := eq_or_lt_of_le (le_of_lt_succ (by omega : b < k + 1))
    · rw [hhere'] at *
      cases hgb : garbage b <;> cases hbb : bit b <;> simp_all
    · exact h'.done b (by omega)

theorem swept_range (hk : k ≤ total) :
    Swept garbage bit k ((range k).foldl (sweepBlock total garbage) ⟨bit, 0, 0⟩) := by
  induction k with
  | zero =>
    exact ⟨le_refl 0, fun h => absurd rfl h, fun b hb => absurd hb (by simp), fun b _ => rfl,
      fun b _ hb => absurd hb (by simp)⟩
  | succ k ih =>
    rw [range_succ, foldl_append]
    exact (ih (le_of_succ_le hk)).step (le_of_succ_le hk)

theorem sweep_bit : sweep total garbage bit b = (bit b && !(decide (b < total) && garbage b)) := by
  have hend : Swept garbage bit total _ := swept_range (le_refl total)
  obtain ⟨h, hrun⟩ := hend.flush (le_refl total)
  unfold sweep
  by_cases hb : b < total
  · rw [h.done b (by omega)]
    simp [hb]
  · rw [h.ahead b (by omega)]
    simp [hb]

end Loop

def InSegment (v : Vol) (pba b : Nat) : Prop :=
  b = pba ∨ ∃ plen, segExtent v pba = some plen ∧ within b (pba, plen)

def AtTop (r : Recipe) (e : Entry) : Prop := e ∈ r.ents

def InChild (r : Recipe) (e : Entry) : Prop :=
  ∃ cs es, r.tail = .children cs ∧ some es ∈ cs ∧ e ∈ es

/-- The recipe of one of the rows names the block by an entry of `P`. -/
def NamedBy (P : Recipe → Entry → Prop) (v : Vol) (rows : List Row) (b : Nat) : Prop :=
  ∃ row ∈ rows, row.type ≠ .link ∧ ∃ r, row.blob = .ast r ∧
    ∃ e, P r e ∧ addressed v.total e ∧ InSegment v e.pba b

/-- A block of a delta segment or of an open write session, or one that only children name: the
walk of a capture looks at none of them. -/
inductive Unwalked (g : Gen) (b : Nat) : Prop where
  | delta {p : Nat} (hp : p ∈ g.chain) (hb : within b (p, DeltaSegment.segBlocks))
  | child (h : NamedBy InChild g.disk.vol g.rows b)
  | session {x : Nat × Nat} (hx : x ∈ g.session) (hb : within b x)

inductive Owned (g : Gen) (b : Nat) : Prop where
  | page (h : b ∈ g.pages)
  | delta {p : Nat} (hp : p ∈ g.chain) (hb : within b (p, DeltaSegment.segBlocks))
  | named (h : NamedBy Names g.disk.vol g.rows b)
  | session {x : Nat × Nat} (hx : x ∈ g.session) (hb : within b x)

theorem names_cases {r : Recipe} : Names r e ↔ AtTop r e ∨ InChild r e := by
  constructor
  · rintro (h | ⟨htail, hc, he⟩)
    · exact .inl h
    · exact .inr ⟨_, _, htail, hc, he⟩
  · rintro (h | ⟨cs, es, htail, hc, he⟩)
    · exact .top h
    · exact .child htail hc he

theorem named_cases {v : Vol} {rows : List Row} :
    NamedBy Names v rows b ↔ NamedBy AtTop v rows b ∨ NamedBy InChild v rows b := by
  simp only [NamedBy, names_cases, or_and_right, and_or_left, exists_or]

theorem owned_cases : Owned g b ↔ b ∈ g.pages ∨ NamedBy AtTop g.disk.vol g.rows b ∨ Unwalked g b := by
  constructor
  · rintro (h | ⟨hp, hb⟩ | h | ⟨hx, hb⟩)
    · exact .inl h
    · exact .inr (.inr (.delta hp hb))
    · exact .inr ((named_cases.mp h).imp_right .child)
    · exact .inr (.inr (.session hx hb))
  · rintro (h | h | ⟨hp, hb⟩ | h | ⟨hx, hb⟩)
    · exact .page h
    · exact .named (named_cases.mpr (.inl h))
    · exact .delta hp hb
    · exact .named (named_cases.mpr (.inr h))
    · exact .session hx hb

/-- Every live recipe loads, every segment it names at its top verifies, the registry can be read and
so can the base tree. -/
structure Runs (g : Gen) : Prop where
  known : ∀ row ∈ g.rows, inodeBlockSet row ≠ .unknown
  whole : ∀ e, Walked g.rows g.total e → (segExtentChecked g.disk e.pba).isSome
  reg : g.reg.isSome
  tree : g.walks = true

theorem blockSet_named {ents : List Entry} :
    inodeBlockSet row = .named ents ↔ row.type ≠ .link ∧ ∃ r, row.blob = .ast r ∧ r.ents = ents := by
  obtain ⟨type, size, blob⟩ := row
  cases blob <;> cases type <;> simp [inodeBlockSet]

theorem extent_head {v : Vol} {pba plen : Nat} (h : segExtent v pba = some plen) : 0 < plen := by
  unfold segExtent at h
  dsimp only at h
  split_ifs at h
  cases h
  unfold blockSize
  omega

theorem segment_marked {pba : Nat} (h : (segExtentChecked d pba).isSome) :
    within b (marked d pba) = true ↔ InSegment d.vol pba b := by
  obtain ⟨plen, hlen⟩ := Option.isSome_iff_exists.mp h
  have hext : segExtent d.vol pba = some plen := (Option.filter_eq_some_iff.mp hlen).1
  simp only [marked, hlen, InSegment, hext, Option.some.injEq, exists_eq_left']
  constructor
  · exact .inr
  · rintro (rfl | hin)
    · simp [within, extent_head hext]
    · exact hin

theorem named_top : NamedBy AtTop g.disk.vol g.rows b ↔
    ∃ e, Walked g.rows g.total e ∧ InSegment g.disk.vol e.pba b := by
  constructor
  · rintro ⟨row, hrow, hfile, r, hr, e, hmem, ha, hb⟩
    exact ⟨e, ⟨row, hrow, r.ents, blockSet_named.mpr ⟨hfile, r, hr, rfl⟩, hmem, ha⟩, hb⟩
  · rintro ⟨e, ⟨row, hrow, ents, hents, hmem, ha⟩, hb⟩
    obtain ⟨hfile, r, hr, rfl⟩ := blockSet_named.mp hents
    exact ⟨row, hrow, hfile, r, hr, e, hmem, ha, hb⟩

def Marked (g : Gen) (b : Nat) : Prop :=
  ∃ e, Walked g.rows g.total e ∧ within b (marked g.disk e.pba)

theorem walk_marked : (walk g).map b = true ↔ Marked g b := by
  unfold walk
  rw [(saw_rows _).map]
  simp [Marked, Gen.total]

theorem walk_named (h : ∀ e, Walked g.rows g.total e → (segExtentChecked g.disk e.pba).isSome) :
    (walk g).map b = true ↔ NamedBy AtTop g.disk.vol g.rows b := by
  rw [walk_marked, named_top]
  exact exists_congr fun e => and_congr_right fun he => segment_marked (h e he)

theorem reclaim_refuses {old : Nat → Bool} (h : ¬ Runs g) : reclaim g (some old) (walk g) = g.disk.bit := by
  unfold reclaim
  split
  · rename_i reg _ hreg
    refine if_neg fun hrun => h ⟨?_, ?_, by simp [hreg], hrun.2.2⟩
    · simpa using ((saw_rows _).indeterminate.mp hrun.1).2
    · exact ((saw_rows _).broken.mp hrun.2.1).2
  · rfl

def Registered (g : Gen) (b : Nat) : Prop := g.reg.any (regOwns · b)

theorem reclaim_bit {old : Nat → Bool} (h : Runs g) (hbit : g.disk.bit b = true) :
    reclaim g (some old) (walk g) b = true ↔
      (b < g.total → old b = true → NamedBy AtTop g.disk.vol g.rows b ∨ Registered g b ∨ b ∈ g.pages) := by
  obtain ⟨reg, hreg⟩ := Option.isSome_iff_exists.mp h.reg
  have hcomplete : (walk g).indeterminate = 0 ∧ (walk g).broken = 0 ∧ g.walks = true :=
    ⟨(saw_rows _).indeterminate.mpr ⟨rfl, by simpa using h.known⟩, (saw_rows _).broken.mpr ⟨rfl, h.whole⟩, h.tree⟩
  simp only [reclaim, hreg]
  rw [if_pos hcomplete, sweep_bit, ← walk_named h.whole]
  simp only [Registered, hreg, Option.any_some]
  by_cases hlt : b < g.total <;> cases old b <;> cases (walk g).map b <;> cases regOwns reg b <;>
    simp [hbit, hlt]

section

/-- A file whose single byte lies in a child, at block 10 of a volume with its base root at block 5. The
last pin was taken when the entry still stood at the top of the recipe. -/
def childFile : Gen where
  disk :=
    { vol :=
        { codecs := bareCodecs
          total := 64
          dev := fun n => if n = 10 * 4096 then 1 else if n = 10 * 4096 + 8 then 65 else 0
          row := fun i =>
            if i = 2 then
              some ⟨.file, 1, .ast ⟨1, [⟨0, 1, .raw, .child, 0, 0, 0⟩],
                .children [some [⟨0, 1, .raw, .none, 0, 0, 10⟩]]⟩, {}⟩
            else none
          named := fun _ => true
          sibling := fun _ _ => none }
      names := [([97], 2)]
      bit := fun b => b = 5 ∨ b = 10 ∨ 20 ≤ b
      seq := fun _ => 0
      retire := [] }
  inodes := [2]
  root := 5
  pages := [5]
  root_mem := by decide
  walks := true
  reg := some []
  chain := [20]
  session := []

set_option maxRecDepth 20000 in
theorem childFile_reads : childFile.disk.vol.readInode 2 2 = some [some 65] := by rfl

end

/-- What the device answers during a capture: whether the base root, its tree and the inodes can be read, the run
of the pin be allocated and written, its descriptor be stored, the map be read back and the save point's
descriptor be stored, and the barriers. -/
structure Env where
  nopin : Bool
  live : Bool
  rootRead : Bool
  check : Bool
  iter : Bool
  alloc : Bool
  runWrite : Bool
  pinBarrier : Bool
  descStore : Bool
  descBarrier : Bool
  mapLoad : Bool
  store : Bool
  barrier : Bool

/-- `spt0_pin_take`: the bitmap of the volume, and the pin if it is armed. -/
def pinTake (env : Env) (g : Gen) (old : Option (Nat → Bool)) : (Nat → Bool) × Option (Nat → Bool) :=
  if ¬ env.iter then (g.disk.bit, none)
  else
    let w := walk g
    let bit := reclaim g old w
    if g.root ≠ 0 ∧ ¬ bit g.root then (bit, none)
    else if ¬ env.alloc then (bit, none)
    else if ¬ env.runWrite then (bit, none)
    else if ¬ env.pinBarrier then (bit, none)
    else if ¬ env.descStore then (bit, none)
    else if ¬ env.descBarrier then (bit, none)
    else if env.nopin then (bit, none)
    else if ¬ env.mapLoad then (bit, none)
    else (bit, some w.map)

/-- `spt0_capture` on a volume with metadata: the return code, and what `spt0_pin_take` leaves. -/
def capture (env : Env) (g : Gen) (old : Option (Nat → Bool)) : Int × (Nat → Bool) × Option (Nat → Bool) :=
  if env.live then (1, g.disk.bit, none)
  else if ¬ env.rootRead then (-1, g.disk.bit, none)
  -- `spt0_tree_ok`, otherwise `SPT0_RC_DAMAGED`
  else if ¬ (g.root ≠ 0 ∧ g.disk.bit g.root ∧ g.walks ∧ env.check) then (3, g.disk.bit, none)
  else
    -- the answer of `spt0_pin_take` is not looked at
    let taken := pinTake env g old
    if ¬ env.store then (-1, taken)
    else if ¬ env.barrier then (-1, taken)
    else (0, taken)

/-- What `spt0_block_pinned` finds, and the bitmap at that time. -/
def pinned (env : Env) (g : Gen) (old : Option (Nat → Bool)) : Nat → Bool :=
  (capture env g old).2.2.getD fun _ => false

def bitmap (env : Env) (g : Gen) (old : Option (Nat → Bool)) : Nat → Bool := (capture env g old).2.1

/-- Every block that a recipe names is in the pin, so that no free takes it. -/
structure PinsData (env : Env) (g : Gen) (old : Option (Nat → Bool)) : Prop where
  pinned : ∀ b, NamedBy Names g.disk.vol g.rows b → pinned env g old b = true
  kept : ∀ (runs : List (Nat × Nat)) (b : Nat), NamedBy Names g.disk.vol g.rows b → bitmap env g old b = true →
    runs.foldl (freeBlocks g.total false (SavePointPin.pinned env g old)) (bitmap env g old) b = true

structure Arms (env : Env) : Prop where
  wanted : env.nopin = false
  iter : env.iter = true
  alloc : env.alloc = true
  runWrite : env.runWrite = true
  pinBarrier : env.pinBarrier = true
  descStore : env.descStore = true
  descBarrier : env.descBarrier = true
  mapLoad : env.mapLoad = true

section Capture

variable {env : Env} {old : Option (Nat → Bool)}

theorem reclaim_page (w : Walk) (hb : b ∈ g.pages) (hbit : g.disk.bit b = true) : reclaim g old w b = true := by
  cases old with
  | none => exact hbit
  | some old =>
    unfold reclaim
    cases g.reg with
    | none => exact hbit
    | some reg =>
      split_ifs
      · simp [sweep_bit, hbit, hb]
      · exact hbit

theorem capture_zero (h : (capture env g old).1 = 0) :
    g.root ∈ g.pages ∧ g.disk.bit g.root = true ∧ capture env g old = (0, pinTake env g old) := by
  unfold capture at h ⊢
  split_ifs at h ⊢ with hlive hroot htree hstore hbarrier
  all_goals first
    | exact ⟨g.root_mem htree.1, htree.2.1, rfl⟩
    | simp at h

theorem pinTake_pin (env : Env) (old : Option (Nat → Bool)) (hroot : g.root ∈ g.pages)
    (hbit : g.disk.bit g.root = true) :
    (Arms env → (pinTake env g old).2 = some (walk g).map) ∧ (¬ Arms env → (pinTake env g old).2 = none) := by
  have hkept : reclaim g old (walk g) g.root = true := reclaim_page (walk g) hroot hbit
  constructor
  · rintro ⟨h1, h2, h3, h4, h5, h6, h7, h8⟩
    simp [pinTake, hkept, h1, h2, h3, h4, h5, h6, h7, h8]
  · intro h
    unfold pinTake
    dsimp only
    split_ifs with h2 _ h3 h4 h5 h6 h7 h1 h8
    all_goals first
      | rfl
      | exact h ⟨by simpa using h1, h2, h3, h4, h5, h6, h7, h8⟩

theorem freeBlocks_pinned {total : Nat} {pin bit : Nat → Bool} (run : Nat × Nat) (hpin : pin b = true)
    (hbit : bit b = true) : freeBlocks total false pin bit run b = true := by
  by_cases hin : run.1 ≤ b ∧ b < min (run.1 + run.2) total
  · have hheld : (range' run.1 (min (run.1 + run.2) total - run.1)).any pin = true :=
      any_eq_true.mpr ⟨b, mem_range'_1.mpr ⟨hin.1, by omega⟩, hpin⟩
    simp [freeBlocks, hheld, hbit]
  · unfold freeBlocks
    split
    · exact hbit
    · exact (if_neg hin).trans hbit

theorem frees_pinned {total : Nat} {pin bit : Nat → Bool} (runs : List (Nat × Nat)) (hpin : pin b = true)
    (hbit : bit b = true) : runs.foldl (freeBlocks total false pin) bit b = true := by
  induction runs generalizing bit with
  | nil => exact hbit
  | cons run runs ih => exact ih (freeBlocks_pinned run hpin hbit)

end Capture

section

def smooth : Env where
  nopin := false
  live := false
  rootRead := true
  check := true
  iter := true
  alloc := true
  runWrite := true
  pinBarrier := true
  descStore := true
  descBarrier := true
  mapLoad := true
  store := true
  barrier := true

/-- The file of `childFile` with its entry at the top. -/
def flatFile : Gen where
  disk :=
    { childFile.disk with
      vol :=
        { childFile.disk.vol with
          row := fun i =>
            if i = 2 then some ⟨.file, 1, .ast ⟨1, [⟨0, 1, .raw, .none, 0, 0, 10⟩], .none⟩, {}⟩ else none } }
  inodes := [2]
  root := 5
  pages := [5]
  root_mem := by decide
  walks := true
  reg := some []
  chain := [20]
  session := []

end

end InvariantFs.SavePointPin
