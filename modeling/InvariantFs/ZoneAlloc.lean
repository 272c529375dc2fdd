import InvariantFs.SavePointPin

namespace InvariantFs.ZoneAlloc

open List Function

inductive ZoneId where
  | raw
  | shadow
  | arena
  deriving DecidableEq

inductive AllocType where
  | data
  | metadata
  deriving DecidableEq

structure Zone where
  start : Nat
  len : Nat

structure Geometry where
  total : Nat
  zone : ZoneId → Zone
  twoDev : Bool
  dev0 : Nat
  reserved : Nat
  hardMin : Nat
  metaPct : Nat

/-- What the allocator keeps in memory. `dirty` is the window of the bitmap, in bytes, that the next
flush writes; it is empty when it ends below its start. -/
structure Volume where
  geo : Geometry
  bit : Nat → Bool
  cursor : ZoneId → Nat
  zoneFree : ZoneId → Nat
  failRun : ZoneId → Nat
  free : Nat
  readonly : Bool
  roSpace : Bool
  dirty : Nat × Nat

/-- The clear bits of a stretch of the bitmap. -/
def clear (bit : Nat → Bool) (a l : Nat) : Nat := (range' a l).countP fun b => !bit b

def setRun (bit : Nat → Bool) (x : Bool) (p e : Nat) : Nat → Bool :=
  fun b => if p ≤ b ∧ b < e then x else bit b

/-- Subtraction of 64-bit words. -/
def wsub (a b : Nat) : Nat := (a + 2 ^ 64 - b) % 2 ^ 64

/-- `vol_bm_dirty` -/
def bmDirty (w : Nat × Nat) (i : Nat) : Nat × Nat :=
  if w.2 < w.1 then (i / 8, i / 8 + 1) else (min w.1 (i / 8), max w.2 (i / 8 + 1))

variable (g : Geometry)

def Geometry.anchorPba : Nat := if g.total < 2 then 0 else g.total - 1

def Volume.usable (v : Volume) (b : Nat) : Bool :=
  !v.bit b && !(v.geo.total ≠ 0 && b = v.geo.anchorPba)

/-- The cursor, count and hint that `alloc_blocks` uses for a zone. -/
def Geometry.slot (zoneStart : Nat) : ZoneId :=
  if zoneStart = (g.zone .shadow).start then .shadow
  else if g.twoDev ∧ (g.zone .arena).len ≠ 0 ∧ zoneStart = (g.zone .arena).start then .arena
  else .raw

def Volume.reserveFails (v : Volume) (useReserve : Bool) : Bool :=
  v.free ≤ (if useReserve then 0 else v.geo.reserved) + v.geo.hardMin

def Volume.metaFails (v : Volume) (type : AllocType) (n : Nat) : Bool :=
  type = .data ∧ 0 < v.geo.metaPct ∧ wsub v.free n < v.geo.total * v.geo.metaPct / 100

/-- The loop of `alloc_blocks` over `count` more blocks from `i` on. `start` is where the run of usable
blocks before `i` begins, 0 if there is none. -/
def scan (usable : Nat → Bool) (zoneStart zoneEnd n : Nat) : Nat → Nat → Nat → Option Nat
  | 0, _, _ => none
  | count + 1, i, start =>
    let at' := if zoneEnd ≤ i then (zoneStart, 0) else (i, start)
    if usable at'.1 then
      let start := if at'.2 = 0 then at'.1 else at'.2
      if at'.1 - start + 1 = n then some start
      else scan usable zoneStart zoneEnd n count (at'.1 + 1) start
    else scan usable zoneStart zoneEnd n count (at'.1 + 1) 0

/-- Where the scan begins. -/
def Volume.entry (v : Volume) (zoneStart zoneEnd : Nat) : Nat :=
  let i := v.cursor (v.geo.slot zoneStart)
  if i < zoneStart ∨ zoneEnd ≤ i then zoneStart else i

def Volume.take (v : Volume) (zoneStart zoneEnd n p : Nat) : Volume :=
  let z := v.geo.slot zoneStart
  { v with
    bit := setRun v.bit true p (p + n)
    dirty := bmDirty (bmDirty v.dirty p) (p + n - 1)
    cursor := update v.cursor z (if p + n < zoneEnd then p + n else zoneStart)
    free := wsub v.free n
    zoneFree := update v.zoneFree z (wsub (v.zoneFree z) n) }

def Volume.allocBlocks (v : Volume) (zoneStart zoneLen n : Nat) (useReserve : Bool) (type : AllocType) :
    Nat × Volume :=
  let z := v.geo.slot zoneStart
  if v.readonly then (0, v)
  else if v.zoneFree z < n then (0, v)
  else if v.failRun z ≠ 0 ∧ v.failRun z ≤ n then (0, v)
  else if v.reserveFails useReserve then
    (0, if v.free ≤ v.geo.hardMin then { v with readonly := true, roSpace := true } else v)
  else if v.metaFails type n then (0, v)
  else
    let zoneEnd := zoneStart + zoneLen
    match scan v.usable zoneStart zoneEnd n zoneLen (v.entry zoneStart zoneEnd) 0 with
    | some p => (p, v.take zoneStart zoneEnd n p)
    | none => (0, { v with
        failRun := update v.failRun z (if v.failRun z = 0 ∨ n < v.failRun z then n else v.failRun z) })

/-- The zone that `vol_free_run` gives a run back to. -/
def Geometry.home (pba : Nat) : Option ZoneId :=
  if (g.zone .shadow).start ≤ pba then some .shadow
  else if g.twoDev ∧ g.dev0 ≤ pba then none
  else if g.twoDev ∧ (g.zone .arena).start ≤ pba then some .arena
  else if (g.zone .raw).start ≤ pba then some .raw
  else none

def Volume.giveBack (v : Volume) (pba n : Nat) : Volume :=
  match v.geo.home pba with
  | none => v
  | some z => { v with
      zoneFree := update v.zoneFree z ((v.zoneFree z + n) % 2 ^ 64)
      failRun := update v.failRun z 0
      cursor := update v.cursor z (min pba (v.cursor z)) }

def Volume.readonlyUnlatch (v : Volume) : Volume :=
  if v.readonly ∧ v.roSpace ∧ v.geo.hardMin + v.geo.total / 50 < v.free then
    { v with readonly := false, roSpace := false }
  else v

def Volume.clearRun (v : Volume) (pba e : Nat) : Volume :=
  { v with
    bit := setRun v.bit false pba e
    dirty := if pba < e then bmDirty (bmDirty v.dirty pba) (e - 1) else v.dirty
    free := (v.free + wsub e pba) % 2 ^ 64 }

/-- `vol_free_run` up to the end `e` of the run, behind `wp25_on_free`. -/
def Volume.freeRun (v : Volume) (pba e : Nat) : Volume :=
  ((v.clearRun pba e).giveBack pba (wsub e pba)).readonlyUnlatch

/-- `vol_free_blocks` of a run that has no second copy. The second test of the pins never fails, so that
the loop over the parts of the run that are not pinned is not reached. -/
def Volume.freeBlocks (v : Volume) (release : Bool) (pin : Nat → Bool) (pba n : Nat) : Volume :=
  let e := min (pba + n) v.geo.total
  if ¬ release ∧ (range' pba (e - pba)).any pin then v else v.freeRun pba e

/-- An entry of `rawm` (the mirror on dev1 of a segment of the raw zone) or of `tier` (the copy on dev0
of a segment of the shadow zone). -/
structure Copy where
  tier : Bool
  key : Nat
  pba : Nat
  plen : Nat
  deriving DecidableEq

/-- The second copies of a volume. A copy is a run of its own, in which no segment begins that has a copy
itself. -/
structure Copies where
  table : List Copy
  apart : ∀ c ∈ table, ∀ d ∈ table, ¬ (c.pba ≤ d.key ∧ d.key < c.pba + c.plen)

/-- `wp25_on_free` drops the copies of the segments that begin in the run. -/
def Geometry.drops (pba e : Nat) (c : Copy) : Bool :=
  g.twoDev ∧ pba ≤ c.key ∧ c.key < e ∧ if c.tier then (g.zone .shadow).start ≤ pba
    else (g.zone .raw).start ≤ pba ∧ pba < (g.zone .raw).start + (g.zone .raw).len

def Copies.dropped (s : Copies) (pba e : Nat) : List Copy :=
  s.table.filter (fun c => !c.tier && g.drops pba e c) ++ s.table.filter (fun c => c.tier && g.drops pba e c)

def Copies.drop (s : Copies) (pba e : Nat) : Copies where
  table := s.table.filter (fun c => !g.drops pba e c)
  apart := fun c hc d hd => s.apart c (mem_of_mem_filter hc) d (mem_of_mem_filter hd)

/-- `vol_free_blocks` -/
def Volume.volFreeBlocks (v : Volume) (s : Copies) (release : Bool) (pin : Nat → Bool) (pba n : Nat) :
    Volume × Copies :=
  let e := min (pba + n) v.geo.total
  if ¬ release ∧ (range' pba (e - pba)).any pin then (v, s)
  else (((s.dropped v.geo pba e).foldl (fun v c => v.freeBlocks release pin c.pba c.plen) v).freeRun pba e,
    s.drop v.geo pba e)

def Geometry.reserveHome (b : Nat) : Option ZoneId :=
  if (g.zone .shadow).start ≤ b then some .shadow
  else if (g.zone .raw).start ≤ b then some .raw
  else none

/-- The body of the loop of `dl_reserve_segment`. -/
def Volume.reserveBlock (live : Bool) (v : Volume) (b : Nat) : Volume :=
  if v.bit b then v
  else { v with
    bit := setRun v.bit true b (b + 1)
    dirty := bmDirty v.dirty b
    free := if live then v.free - 1 else v.free
    zoneFree := if live then (v.geo.reserveHome b).elim v.zoneFree fun z => update v.zoneFree z (v.zoneFree z - 1)
      else v.zoneFree }

def Volume.live (v : Volume) : Prop := v.cursor .shadow ≠ 0 ∨ v.cursor .raw ≠ 0

instance (v : Volume) : Decidable v.live := inferInstanceAs (Decidable (_ ∨ _))

def Volume.reserveSegment (v : Volume) (pba : Nat) : Volume :=
  (range' pba (min (pba + DeltaSegment.segBlocks) v.geo.total - pba)).foldl (Volume.reserveBlock v.live) v

def Volume.zoneCountFree (v : Volume) (z : Zone) : Nat :=
  clear v.bit z.start (min (z.start + z.len) v.geo.total - z.start)

def Volume.allocStateReset (v : Volume) : Volume :=
  { v with
    cursor := fun z => (v.geo.zone z).start
    zoneFree := fun z => v.zoneCountFree (v.geo.zone z)
    failRun := fun _ => 0
    dirty := (1, 0) }

section Scan

variable {usable : Nat → Bool} {zoneStart zoneEnd lo i k r n start : Nat}

/-- A run of `n` usable blocks in `[a, e)`. -/
def HasRun (usable : Nat → Bool) (a e n : Nat) : Prop :=
  ∃ p, a ≤ p ∧ p + n ≤ e ∧ ∀ b, p ≤ b → b < p + n → usable b = true

/-- The usable blocks before `i` begin at `start`, not further left unless `lo` is reached. -/
def Open (usable : Nat → Bool) (lo i n start : Nat) : Prop :=
  let s := if start = 0 then i else start
  lo ≤ s ∧ s ≤ i ∧ i < s + n ∧ (∀ b, s ≤ b → b < i → usable b = true) ∧
    ∀ p, lo ≤ p → (∀ b, p ≤ b → b < i → usable b = true) → p ≤ i → s ≤ p

theorem scan_step {c : Nat} (hlo : 0 < lo) (hi : i < zoneEnd) (h : Open usable lo i n start) :
    (∃ s, scan usable zoneStart zoneEnd n (c + 1) i start = some s ∧ lo ≤ s ∧ s + n = i + 1 ∧
      ∀ b, s ≤ b → b < s + n → usable b = true) ∨ ∃ start', scan usable zoneStart zoneEnd n (c + 1) i start =
        scan usable zoneStart zoneEnd n c (i + 1) start' ∧ Open usable lo (i + 1) n start' ∧
      ∀ p, lo ≤ p → p + n = i + 1 → ¬ ∀ b, p ≤ b → b < p + n → usable b = true := by
  obtain ⟨hs, hsi, hin, hrun, hmax⟩ := h
  rw [scan, if_neg (by omega : ¬ zoneEnd ≤ i)]
  generalize (if start = 0 then i else start) = s at *
  by_cases hu : usable i
  · have hall : ∀ b, s ≤ b → b < i + 1 → usable b = true := by
      intro b h₁ h₂
      obtain h | rfl := Nat.lt_succ_iff_lt_or_eq.1 h₂
      · exact hrun b h₁ h
      · exact hu
    rw [if_pos hu]
    by_cases hn : i - s + 1 = n
    · exact .inl ⟨s, if_pos hn, hs, by omega, fun b h₁ h₂ => hall b h₁ (by omega)⟩
    · have hback : ∀ p, lo ≤ p → (∀ b, p ≤ b → b < i + 1 → usable b = true) → p ≤ i → s ≤ p :=
        fun p hp hb => hmax p hp fun b h₁ h₂ => hb b h₁ (by omega)
      refine .inr ⟨s, if_neg hn, ?_, fun p hp he hb => ?_⟩
      · rw [Open, if_neg (by omega)]
        exact ⟨hs, by omega, by omega, hall, fun p hp hb _ => by
          by_cases h : p ≤ i
          · exact hback p hp hb h
          · omega⟩
      · have := hback p hp (fun b h₁ h₂ => hb b h₁ (by omega)) (by omega)
        omega
  · rw [if_neg hu]
    refine .inr ⟨0, rfl, ?_, fun p _ he hb => hu (hb i (by omega) (by omega))⟩
    rw [Open, if_pos rfl]
    refine ⟨by omega, le_rfl, by omega, fun b h₁ h₂ => by omega, fun p _ hb _ => ?_⟩
    by_contra h
    exact hu (hb i (by omega) (by omega))

/-- A run in a stretch is found, or there is none and the scan goes on behind it. -/
theorem scan_stretch (hlo : 0 < lo) (hi : i + k ≤ zoneEnd) (h : Open usable lo i n start) :
    (∃ s, scan usable zoneStart zoneEnd n (k + r) i start = some s ∧ lo ≤ s ∧ s + n ≤ i + k ∧
      ∀ b, s ≤ b → b < s + n → usable b = true) ∨
    (∀ p, lo ≤ p → i < p + n → p + n ≤ i + k → ¬ ∀ b, p ≤ b → b < p + n → usable b = true) ∧
      ∃ start', scan usable zoneStart zoneEnd n (k + r) i start =
        scan usable zoneStart zoneEnd n r (i + k) start' := by
  induction k generalizing i start with
  | zero => exact .inr ⟨fun p _ _ _ => by omega, start, by simp⟩
  | succ k ih =>
    rw [show k + 1 + r = k + r + 1 by omega, show i + (k + 1) = i + 1 + k by omega]
    obtain ⟨s, hs, h₁, h₂, h₃⟩ | ⟨next, hnext, hopen, hno⟩ := scan_step hlo (by omega : i < zoneEnd) h
    · exact .inl ⟨s, hs, h₁, by omega, h₃⟩
    rw [hnext]
    obtain hfound | ⟨hnone, hrest⟩ := ih (by omega) hopen
    · exact .inl hfound
    · refine .inr ⟨fun p hp h₁ h₂ => ?_, hrest⟩
      by_cases he : p + n = i + 1
      · exact hno p hp he
      · exact hnone p hp (by omega) h₂

theorem open_zero (hn : 0 < n) : Open usable lo lo n 0 :=
  ⟨le_rfl, le_rfl, by simpa using hn, fun _ h₁ h₂ => absurd h₂ (by simpa using h₁), fun _ h _ _ => h⟩

theorem scan_wrap (h : zoneEnd ≤ i) :
    scan usable zoneStart zoneEnd n k i start = scan usable zoneStart zoneEnd n k zoneStart 0 := by
  cases k with
  | zero => rfl
  | succ k => simp only [scan, if_pos h, ite_self]

/-- The scan from `i` finds a run on one side of `i`, and fails if neither side has one. -/
theorem scan_spec (hn : 0 < n) (hz : 0 < zoneStart) (hi : zoneStart ≤ i) (he : i ≤ zoneEnd) :
    (∃ s, scan usable zoneStart zoneEnd n (zoneEnd - zoneStart) i 0 = some s ∧
      zoneStart ≤ s ∧ s + n ≤ zoneEnd ∧ (i ≤ s ∨ s + n ≤ i) ∧ ∀ b, s ≤ b → b < s + n → usable b = true) ∨
    scan usable zoneStart zoneEnd n (zoneEnd - zoneStart) i 0 = none ∧
      ¬ HasRun usable i zoneEnd n ∧ ¬ HasRun usable zoneStart i n := by
  rw [show zoneEnd - zoneStart = zoneEnd - i + (i - zoneStart) by omega]
  obtain ⟨s, hs, h₁, h₂, h₃⟩ | ⟨hright, start', hs⟩ := scan_stretch (r := i - zoneStart) (by omega)
    (by omega : i + (zoneEnd - i) ≤ zoneEnd) (open_zero hn)
  · exact .inl ⟨s, hs, by omega, by omega, .inl h₁, h₃⟩
  rw [hs, scan_wrap (by omega)]
  obtain ⟨s, hs, h₁, h₂, h₃⟩ | ⟨hleft, start', hs⟩ := scan_stretch (r := 0) hz
    (by omega : zoneStart + (i - zoneStart) ≤ zoneEnd) (open_zero hn)
  · exact .inl ⟨s, hs, h₁, by omega, .inr (by omega), h₃⟩
  · exact .inr ⟨hs, fun ⟨p, hp, hpe, hb⟩ => hright p hp (by omega) (by omega) hb,
      fun ⟨p, hp, hpe, hb⟩ => hleft p hp (by omega) (by omega) hb⟩

end Scan

section Count

variable {bit bit' : Nat → Bool} {x : Bool} {a l m p n : Nat}

theorem clear_append : clear bit a (l + m) = clear bit a l + clear bit (a + l) m := by
  rw [clear, ← range'_append_1, countP_append]
  rfl

theorem clear_congr (h : ∀ b, a ≤ b → b < a + l → bit b = bit' b) : clear bit a l = clear bit' a l := by
  apply countP_congr
  intro b hb
  rw [mem_range'_1] at hb
  rw [h b hb.1 hb.2]

theorem clear_run (h : ∀ b, p ≤ b → b < p + n → bit b = x) : clear bit p n = if x then 0 else n := by
  rw [show clear bit p n = clear (fun _ => x) p n from clear_congr h]
  cases x <;> simp [clear]

theorem clear_setRun_off (h : p + n ≤ a ∨ a + l ≤ p) : clear (setRun bit x p (p + n)) a l = clear bit a l :=
  clear_congr fun b h₁ h₂ => if_neg (by omega)

theorem clear_setRun (hp : a ≤ p) (he : p + n ≤ a + l) (hb : ∀ b, p ≤ b → b < p + n → bit b = !x) :
    clear (setRun bit x p (p + n)) a l + (if x then n else 0) = clear bit a l + if x then 0 else n := by
  obtain ⟨d, rfl⟩ := Nat.exists_eq_add_of_le hp
  obtain ⟨r, rfl⟩ : ∃ r, l = d + n + r := ⟨l - d - n, by omega⟩
  have hset : clear (setRun bit x (a + d) (a + d + n)) (a + d) n = if x then 0 else n :=
    clear_run fun b h₁ h₂ => if_pos ⟨h₁, h₂⟩
  rw [clear_append, clear_append, clear_append, clear_append, clear_setRun_off (.inr le_rfl), hset,
    ← Nat.add_assoc, clear_setRun_off (.inl le_rfl), clear_run hb]
  cases x <;> simp <;> omega

theorem usable_iff {v : Volume} {b : Nat} :
    v.usable b = true ↔ v.bit b = false ∧ (v.geo.total = 0 ∨ b ≠ v.geo.anchorPba) := by
  simp [Volume.usable]

theorem le_clear (hp : a ≤ p) (he : p + n ≤ a + l) (hb : ∀ b, p ≤ b → b < p + n → bit b = false) :
    n ≤ clear bit a l := by
  have := clear_setRun (x := true) hp he hb
  rw [if_pos rfl, if_pos rfl] at this
  omega

end Count

section Alloc

variable {v : Volume} {zoneStart zoneLen n : Nat} {useReserve : Bool} {type : AllocType}

/-- What a call of `alloc_blocks` is to answer. -/
def Allocated (v : Volume) (zoneStart zoneEnd n : Nat) (r : Nat × Volume) : Prop :=
  if r.1 = 0 then ¬ HasRun v.usable zoneStart zoneEnd n
  else zoneStart ≤ r.1 ∧ r.1 + n ≤ zoneEnd ∧
    (∀ b, r.1 ≤ b → b < r.1 + n → v.bit b = false ∧ b ≠ v.geo.anchorPba) ∧
    r.2.bit = setRun v.bit true r.1 (r.1 + n)

theorem entry_mem (v : Volume) (zoneStart zoneLen : Nat) : zoneStart ≤ v.entry zoneStart (zoneStart + zoneLen) ∧
      v.entry zoneStart (zoneStart + zoneLen) ≤ zoneStart + zoneLen := by
  simp only [Volume.entry]
  split_ifs <;> omega

/-- With an exact count and the guards passed, an allocation is right unless it misses a run of the zone:
because of the hint of an earlier failure, or because every run lies across the cursor. -/
theorem allocBlocks_iff (hz : 0 < zoneStart) (hin : zoneStart + zoneLen ≤ v.geo.total) (hn : 0 < n)
    (hx : v.zoneFree (v.geo.slot zoneStart) = v.zoneCountFree ⟨zoneStart, zoneLen⟩)
    (hw : v.readonly = false) (hr : v.reserveFails useReserve = false) (hm : v.metaFails type n = false) :
    Allocated v zoneStart (zoneStart + zoneLen) n (v.allocBlocks zoneStart zoneLen n useReserve type) ↔
      (HasRun v.usable zoneStart (zoneStart + zoneLen) n →
        (v.failRun (v.geo.slot zoneStart) = 0 ∨ n < v.failRun (v.geo.slot zoneStart)) ∧
        (HasRun v.usable (v.entry zoneStart (zoneStart + zoneLen)) (zoneStart + zoneLen) n ∨
          HasRun v.usable zoneStart (v.entry zoneStart (zoneStart + zoneLen)) n)) := by
  have hcount : HasRun v.usable zoneStart (zoneStart + zoneLen) n → n ≤ v.zoneFree (v.geo.slot zoneStart) := by
    intro h
    rw [hx, Volume.zoneCountFree, Nat.min_eq_left hin, Nat.add_sub_cancel_left]
    obtain ⟨p, hp, he, hb⟩ := h
    exact le_clear hp he fun b h₁ h₂ => (usable_iff.1 (hb b h₁ h₂)).1
  obtain ⟨hlo, hhi⟩ := entry_mem v zoneStart zoneLen
  simp only [Volume.allocBlocks, hw, hr, hm, Bool.false_eq_true, if_false]
  by_cases hfree : v.zoneFree (v.geo.slot zoneStart) < n
  · rw [if_pos hfree, Allocated, if_pos rfl]
    exact ⟨fun h hrun => absurd hrun h, fun _ hrun => absurd (hcount hrun) (by omega)⟩
  rw [if_neg hfree]
  by_cases hhint : v.failRun (v.geo.slot zoneStart) ≠ 0 ∧ v.failRun (v.geo.slot zoneStart) ≤ n
  · rw [if_pos hhint, Allocated, if_pos rfl]
    exact ⟨fun h hrun => absurd hrun h, fun h hrun => absurd (h hrun).1 (by omega)⟩
  rw [if_neg hhint]
  have hspec := @scan_spec v.usable _ _ _ _ hn hz hlo hhi
  rw [Nat.add_sub_cancel_left] at hspec
  obtain ⟨s, hs, h₁, h₂, hside, hb⟩ | ⟨hs, hright, hleft⟩ := hspec
  · simp only [hs, Allocated, if_neg (by omega : ¬ s = 0)]
    refine ⟨fun _ _ => ⟨by omega, ?_⟩, fun _ => ⟨h₁, h₂, fun b h₃ h₄ => ?_, rfl⟩⟩
    · exact hside.imp (fun h => ⟨s, h, h₂, hb⟩) (fun h => ⟨s, h₁, h, hb⟩)
    · obtain ⟨hclear, htotal | hne⟩ := usable_iff.1 (hb b h₃ h₄)
      · omega
      · exact ⟨hclear, hne⟩
  · simp only [hs, Allocated, if_true]
    refine ⟨fun h hrun => absurd hrun h, fun h hrun => ?_⟩
    obtain h | h := (h hrun).2
    · exact hright h
    · exact hleft h

theorem allocBlocks_cases (v : Volume) (zoneStart zoneLen n : Nat) (useReserve : Bool) (type : AllocType) :
    (∃ f a b, (v.allocBlocks zoneStart zoneLen n useReserve type).2 =
      { v with failRun := f, readonly := a, roSpace := b }) ∨
    ∃ p, scan v.usable zoneStart (zoneStart + zoneLen) n zoneLen (v.entry zoneStart (zoneStart + zoneLen)) 0 =
        some p ∧
      (v.allocBlocks zoneStart zoneLen n useReserve type).2 = v.take zoneStart (zoneStart + zoneLen) n p := by
  simp only [Volume.allocBlocks]
  split
  · exact .inl ⟨_, _, _, rfl⟩
  split
  · exact .inl ⟨_, _, _, rfl⟩
  split
  · exact .inl ⟨_, _, _, rfl⟩
  split
  · split
    · exact .inl ⟨_, _, _, rfl⟩
    · exact .inl ⟨_, _, _, rfl⟩
  split
  · exact .inl ⟨_, _, _, rfl⟩
  split
  · exact .inr ⟨_, ‹_›, rfl⟩
  · exact .inl ⟨_, _, _, rfl⟩

/-- A shadow zone of eight blocks and the anchor after three allocations and two frees. -/
def worn : Volume :=
  let zone : ZoneId → Zone
    | .raw => ⟨4, 6⟩
    | .shadow => ⟨10, 9⟩
    | .arena => ⟨0, 0⟩
  let fresh : Volume :=
    ⟨⟨19, zone, false, 0, 0, 0, 0⟩, fun _ => false, fun _ => 0, fun _ => 0, fun _ => 0, 19, false, false, (0, 0)⟩
  let alloc (v : Volume) (n : Nat) := (v.allocBlocks 10 9 n false .data).2
  let freed (v : Volume) (pba : Nat) := v.freeBlocks false (fun _ => false) pba 2
  freed (alloc (freed (alloc (alloc fresh.allocStateReset 2) 2) 10) 3) 12

theorem allocBlocks_worn : Allocated worn 10 19 2 (worn.allocBlocks 10 9 2 false .data) := by
  refine (allocBlocks_iff (by decide) (by decide) (by decide) (by decide) (by decide) (by decide)
    (by decide)).2 fun _ => ⟨by decide, .inl ⟨12, by decide, by decide, fun b h₁ h₂ => ?_⟩⟩
  exact (by decide : ∀ b ∈ range' 12 2, worn.usable b = true) b (mem_range'_1.2 ⟨h₁, h₂⟩)

/-- The free run from 10 to 13 lies across the cursor. -/
theorem run_missed : worn.zoneFree .shadow = worn.zoneCountFree ⟨10, 9⟩ ∧ worn.readonly = false ∧
    worn.reserveFails false = false ∧ worn.metaFails .data 4 = false ∧
    ¬ Allocated worn 10 19 4 (worn.allocBlocks 10 9 4 false .data) := by
  refine ⟨by decide, by decide, by decide, by decide, fun h => ?_⟩
  rw [Allocated, if_pos (by decide)] at h
  refine h ⟨10, by decide, by decide, fun b h₁ h₂ => ?_⟩
  exact (by decide : ∀ b ∈ range' 10 4, worn.usable b = true) b (mem_range'_1.2 ⟨h₁, h₂⟩)

end Alloc

section Free

variable {v : Volume} {pba e n : Nat}

theorem readonlyUnlatch_eq (v : Volume) : ∃ a b, v.readonlyUnlatch = { v with readonly := a, roSpace := b } := by
  rw [Volume.readonlyUnlatch]
  split_ifs
  · exact ⟨_, _, rfl⟩
  · exact ⟨_, _, rfl⟩

theorem freeRun_frame : (v.freeRun pba e).geo = v.geo ∧ (v.freeRun pba e).bit = setRun v.bit false pba e ∧
    (v.freeRun pba e).dirty = (v.clearRun pba e).dirty ∧ (v.freeRun pba e).free = (v.clearRun pba e).free := by
  obtain ⟨a, b, h⟩ := readonlyUnlatch_eq ((v.clearRun pba e).giveBack pba (wsub e pba))
  rw [Volume.freeRun, h, Volume.giveBack]
  cases (v.clearRun pba e).geo.home pba <;> exact ⟨rfl, rfl, rfl, rfl⟩

theorem any_pin_iff {pin : Nat → Bool} :
    (range' pba (e - pba)).any pin = true ↔ ∃ b, pba ≤ b ∧ b < e ∧ pin b = true := by
  simp only [any_eq_true, mem_range'_1]
  constructor
  · rintro ⟨b, hb, hpin⟩
    exact ⟨b, hb.1, by omega, hpin⟩
  · rintro ⟨b, h₁, h₂, hpin⟩
    exact ⟨b, ⟨h₁, by omega⟩, hpin⟩

/-- The bits of a free depend on the bits alone. -/
theorem freeBlocks_frame {release : Bool} {pin : Nat → Bool} : (v.freeBlocks release pin pba n).geo = v.geo ∧
    (v.freeBlocks release pin pba n).bit = SavePointPin.freeBlocks v.geo.total release pin v.bit (pba, n) := by
  unfold Volume.freeBlocks SavePointPin.freeBlocks
  dsimp only
  split_ifs
  · exact ⟨rfl, rfl⟩
  · exact ⟨freeRun_frame.1, freeRun_frame.2.1⟩

/-- A run with a pinned block. -/
def Held (pin : Nat → Bool) (pba e : Nat) : Prop := ∃ b, pba ≤ b ∧ b < e ∧ pin b = true

theorem freeBlocks_clear {pin : Nat → Bool} {b : Nat} : (v.freeBlocks false pin pba n).bit b = false ↔
    v.bit b = false ∨ pba ≤ b ∧ b < min (pba + n) v.geo.total ∧ ¬ Held pin pba (min (pba + n) v.geo.total) := by
  rw [freeBlocks_frame.2, SavePointPin.freeBlocks]
  by_cases h : Held pin pba (min (pba + n) v.geo.total)
  · rw [if_pos ⟨by decide, any_pin_iff.2 h⟩]
    simp [h]
  · rw [if_neg fun hx => h (any_pin_iff.1 hx.2)]
    by_cases hb : pba ≤ b ∧ b < min (pba + n) v.geo.total
    · simp [hb, h]
    · rw [if_neg hb]
      simp only [← and_assoc, hb, false_and, or_false]

theorem freeCopies_clear {pin : Nat → Bool} {b : Nat} (cs : List Copy) :
    let w := cs.foldl (fun v c => v.freeBlocks false pin c.pba c.plen) v
    w.geo = v.geo ∧ (w.bit b = false ↔ v.bit b = false ∨ ∃ c ∈ cs, c.pba ≤ b ∧
      b < min (c.pba + c.plen) v.geo.total ∧ ¬ Held pin c.pba (min (c.pba + c.plen) v.geo.total)) := by
  induction cs generalizing v with
  | nil => simp
  | cons c cs ih =>
    obtain ⟨hgeo, hbit⟩ := @ih (v.freeBlocks false pin c.pba c.plen)
    rw [freeBlocks_frame.1] at hgeo hbit
    refine ⟨hgeo, hbit.trans ?_⟩
    rw [freeBlocks_clear, or_assoc]
    simp only [mem_cons, exists_eq_or_imp]

/-- The copies are freed as runs without second copies. -/
theorem volFreeBlocks_copy {s : Copies} {c : Copy} (hc : c ∈ s.table) (release : Bool) (pin : Nat → Bool) :
    (v.volFreeBlocks s release pin c.pba c.plen).1 = v.freeBlocks release pin c.pba c.plen := by
  have hnone : s.dropped v.geo c.pba (min (c.pba + c.plen) v.geo.total) = [] := by
    apply eq_nil_iff_forall_not_mem.2
    intro d hd
    simp only [Copies.dropped, Geometry.drops, mem_append, mem_filter, Bool.and_eq_true, decide_eq_true_eq] at hd
    obtain ⟨hd, -, -, h₁, h₂, -⟩ | ⟨hd, -, -, h₁, h₂, -⟩ := hd <;> exact s.apart c hc d hd ⟨h₁, by omega⟩
  unfold Volume.volFreeBlocks Volume.freeBlocks
  dsimp only
  rw [hnone]
  split_ifs <;> rfl

/-- A second copy whose release changes nothing outside of the run: a pin holds it, or its blocks are in
the run or free already. -/
def Copy.Spared (v : Volume) (pin : Nat → Bool) (pba e : Nat) (c : Copy) : Prop :=
  Held pin c.pba (min (c.pba + c.plen) v.geo.total) ∨
    ∀ b, c.pba ≤ b → b < min (c.pba + c.plen) v.geo.total → pba ≤ b ∧ b < e ∨ v.bit b = false

end Free

theorem reserveBlocks_frame (live : Bool) (bs : List Nat) (v : Volume) :
    (bs.foldl (Volume.reserveBlock live) v).geo = v.geo ∧
      (bs.foldl (Volume.reserveBlock live) v).cursor = v.cursor := by
  induction bs generalizing v with
  | nil => exact ⟨rfl, rfl⟩
  | cons b bs ih =>
    obtain ⟨hg, hc⟩ := ih (v.reserveBlock live b)
    rw [foldl_cons, hg, hc, Volume.reserveBlock]
    split_ifs <;> exact ⟨rfl, rfl⟩

end InvariantFs.ZoneAlloc
