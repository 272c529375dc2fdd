import InvariantFs.ZoneAlloc

namespace InvariantFs.ZoneAlloc

open List Relation

variable {v w : Volume} {g : Geometry} {disk : Nat → Bool} {p q x i : Nat}

/-- The bitmap in memory, in bytes. -/
def Geometry.bmBytes (g : Geometry) : Nat := (g.total / 8 + 4095) / 4096 * 4096

/-- `vol_bitmap_flush`: whether it succeeds, and the bits on the disk after it. A write that fails leaves
`torn` in the window. -/
def Volume.bitmapFlush (v : Volume) (disk : Nat → Bool) (torn : Option (Nat → Bool)) : Bool × Volume × (Nat → Bool) :=
  if v.dirty.2 < v.dirty.1 then (true, v, disk)
  else
    let lo := v.dirty.1 - v.dirty.1 % 4096
    let hi := min ((min v.dirty.2 v.geo.bmBytes + 4095) / 4096 * 4096) v.geo.bmBytes
    let write (bits : Nat → Bool) : Nat → Bool := fun b => if lo ≤ b / 8 ∧ b / 8 < hi then bits b else disk b
    if lo < hi then
      match torn with
      | some bits => (false, v, write bits)
      | none => (true, { v with dirty := (1, 0) }, write v.bit)
    else (true, { v with dirty := (1, 0) }, disk)

/-- `vol_open`, as far as the bitmap goes: the reservations of the delta mount, then the reset. -/
def Volume.opened (v : Volume) (disk : Nat → Bool) (segments : List Nat) : Volume :=
  let v := segments.foldl Volume.reserveSegment { v with bit := disk, cursor := fun _ => 0, dirty := (0, 0) }
  { v with free := clear v.bit 0 v.geo.total }.allocStateReset

/-- A mounted volume and its bitmap on the disk. -/
inductive Life : Volume × (Nat → Bool) → Volume × (Nat → Bool) → Prop where
  | alloc (v : Volume) (disk : Nat → Bool) (zoneStart zoneLen n : Nat) (useReserve : Bool) (type : AllocType) :
    Life (v, disk) ((v.allocBlocks zoneStart zoneLen n useReserve type).2, disk)
  | free (v : Volume) (disk : Nat → Bool) (release : Bool) (pin : Nat → Bool) (pba n : Nat) :
    Life (v, disk) (v.freeBlocks release pin pba n, disk)
  | flush (v : Volume) (disk : Nat → Bool) (torn : Option (Nat → Bool)) :
    Life (v, disk) (v.bitmapFlush disk torn).2

/-- A byte in one of the blocks of the bitmap that the window touches. -/
def InWindow (w : Nat × Nat) (x : Nat) : Prop := w.1 ≤ w.2 ∧ w.1 / 4096 ≤ x / 4096 ∧ x / 4096 * 4096 < w.2

/-- The window covers every block whose bit differs from the one on the disk, and the bitmap has a bit for
every block. -/
structure Tracked (g : Geometry) (s : Volume × (Nat → Bool)) : Prop where
  geo : s.1.geo = g
  cover : g.total ≤ 8 * g.bmBytes
  window : ∀ b < g.total, s.1.bit b ≠ s.2 b → InWindow s.1.dirty (b / 8)

theorem bmDirty_keeps {w : Nat × Nat} (h : InWindow w x) : InWindow (bmDirty w i) x := by
  obtain ⟨h₁, h₂, h₃⟩ := h
  rw [bmDirty, if_neg (by omega)]
  simp only [InWindow]
  omega

theorem bmDirty_ends {w : Nat × Nat} (hp : p ≤ x) (hq : x ≤ q) : InWindow (bmDirty (bmDirty w p) q) (x / 8) := by
  have h : (bmDirty w p).1 ≤ p / 8 ∧ p / 8 < (bmDirty w p).2 := by
    rw [bmDirty]
    split_ifs <;> simp only <;> omega
  rw [bmDirty, if_neg (by omega)]
  simp only [InWindow]
  omega

theorem written_iff {d : Nat × Nat} (hd : ¬ d.2 < d.1) (hx : x < g.bmBytes) :
    d.1 - d.1 % 4096 ≤ x ∧ x < min ((min d.2 g.bmBytes + 4095) / 4096 * 4096) g.bmBytes ↔ InWindow d x := by
  simp only [InWindow, Geometry.bmBytes] at *
  generalize (g.total / 8 + 4095) / 4096 = k at *
  constructor <;> intro h <;> omega

theorem Tracked.run {b : Bool} (h : Tracked g (v, disk)) (hgeo : w.geo = v.geo)
    (hbit : w.bit = setRun v.bit b p q) (hold : ∀ x, InWindow v.dirty x → InWindow w.dirty x)
    (hnew : ∀ x, p ≤ x → x < q → InWindow w.dirty (x / 8)) : Tracked g (w, disk) := by
  refine ⟨hgeo.trans h.geo, h.cover, fun x hx hne => ?_⟩
  simp only [hbit, setRun] at hne
  by_cases hin : p ≤ x ∧ x < q
  · exact hnew x hin.1 hin.2
  · rw [if_neg hin] at hne
    exact hold _ (h.window x hx hne)

/-- A flush that succeeds leaves the bitmap of the memory on the disk; one that fails leaves the window and writes
nothing outside of it. -/
theorem bitmapFlush_cases (torn : Option (Nat → Bool)) (h : Tracked g (v, disk)) :
    (∃ d s, v.bitmapFlush disk torn = (true, { v with dirty := d }, s) ∧ ∀ b < g.total, v.bit b = s b) ∨
    ∃ s, v.bitmapFlush disk torn = (false, v, s) ∧ ∀ b < g.total, s b ≠ disk b → InWindow v.dirty (b / 8) := by
  obtain ⟨rfl, hcover, htrack⟩ := h
  dsimp only at hcover htrack
  have hbyte : ∀ b < v.geo.total, b / 8 < v.geo.bmBytes := fun b hb => by omega
  simp only [Volume.bitmapFlush]
  split
  · refine .inl ⟨_, _, rfl, fun b hb => ?_⟩
    by_contra hne
    have := (htrack b hb hne).1
    omega
  split
  · cases torn with
    | some bits =>
      refine .inr ⟨_, rfl, fun b hb hne => ?_⟩
      by_cases hw : v.dirty.1 - v.dirty.1 % 4096 ≤ b / 8 ∧
          b / 8 < min ((min v.dirty.2 v.geo.bmBytes + 4095) / 4096 * 4096) v.geo.bmBytes
      · exact (written_iff ‹_› (hbyte b hb)).1 hw
      · exact absurd (if_neg hw) hne
    | none =>
      refine .inl ⟨_, _, rfl, fun b hb => ?_⟩
      split_ifs with hw
      · rfl
      · by_contra hne
        exact hw ((written_iff ‹_› (hbyte b hb)).2 (htrack b hb hne))
  · refine .inl ⟨_, _, rfl, fun b hb => ?_⟩
    by_contra hne
    have := (written_iff ‹_› (hbyte b hb)).2 (htrack b hb hne)
    omega

theorem Tracked.life {s t : Volume × (Nat → Bool)} (h : Tracked g s) (hl : Life s t) : Tracked g t := by
  cases hl with
  | alloc v disk zoneStart zoneLen n useReserve type =>
    obtain ⟨f, a, b, he⟩ | ⟨p, -, he⟩ := allocBlocks_cases v zoneStart zoneLen n useReserve type
    · rw [he]
      exact ⟨h.geo, h.cover, h.window⟩
    · rw [he]
      exact h.run rfl rfl (fun x hx => bmDirty_keeps (bmDirty_keeps hx))
        fun x h₁ h₂ => bmDirty_ends h₁ (Nat.le_sub_one_of_lt h₂)
  | free v disk release pin pba n =>
    rw [Volume.freeBlocks]
    split_ifs
    · exact h
    · obtain ⟨hgeo, hbit, hdirty, -⟩ := @freeRun_frame v pba (min (pba + n) v.geo.total)
      rw [Volume.clearRun] at hdirty
      refine h.run hgeo hbit (fun x hx => ?_) fun x h₁ h₂ => ?_
      · rw [hdirty]
        split_ifs
        · exact bmDirty_keeps (bmDirty_keeps hx)
        · exact hx
      · rw [hdirty, if_pos (h₁.trans_lt h₂)]
        exact bmDirty_ends h₁ (Nat.le_sub_one_of_lt h₂)
  | flush v disk torn =>
    obtain ⟨d, s, he, hs⟩ | ⟨s, he, hs⟩ := bitmapFlush_cases torn h
    · rw [he]
      exact ⟨h.geo, h.cover, fun b hb hne => absurd (hs b hb) hne⟩
    · rw [he]
      refine ⟨h.geo, h.cover, fun b hb hne => ?_⟩
      by_cases hd : s b = disk b
      · exact h.window b hb fun heq => hne (heq.trans hd.symm)
      · exact hs b hb hd

theorem reserveBlock_bit (live : Bool) (v : Volume) (p x : Nat) :
    (v.reserveBlock live p).bit x = (v.bit x || x == p) := by
  rw [Volume.reserveBlock]
  by_cases hp : v.bit p = true
  · rw [if_pos hp]
    by_cases hx : x = p <;> simp [hx, hp]
  · rw [if_neg hp]
    by_cases hx : x = p
    · simp [setRun, hx]
    · simp only [setRun, beq_eq_false_iff_ne.2 hx, Bool.or_false]
      exact if_neg (by omega)

theorem reserveBlocks_bit (live : Bool) (bs : List Nat) (v : Volume) (x : Nat) :
    (bs.foldl (Volume.reserveBlock live) v).bit x = (v.bit x || bs.contains x) := by
  induction bs generalizing v with
  | nil => simp
  | cons b bs ih => rw [foldl_cons, ih, reserveBlock_bit, contains_cons, Bool.or_assoc]

/-- The blocks that the delta mount reserves. -/
def Reserved (total : Nat) (segments : List Nat) (x : Nat) : Prop :=
  ∃ pba ∈ segments, pba ≤ x ∧ x < min (pba + DeltaSegment.segBlocks) total

theorem reserveSegments_bit (segments : List Nat) (v : Volume) (x : Nat) :
    (segments.foldl Volume.reserveSegment v).geo = v.geo ∧ ((segments.foldl Volume.reserveSegment v).bit x = true ↔
        v.bit x = true ∨ Reserved v.geo.total segments x) := by
  induction segments generalizing v with
  | nil => simp [Reserved]
  | cons pba segments ih =>
    obtain ⟨hgeo, hbit⟩ := ih (v.reserveSegment pba)
    have hg : (v.reserveSegment pba).geo = v.geo := (reserveBlocks_frame _ _ v).1
    rw [foldl_cons, hbit, hgeo, hg, Volume.reserveSegment, reserveBlocks_bit]
    refine ⟨rfl, ?_⟩
    have : (range' pba (min (pba + DeltaSegment.segBlocks) v.geo.total - pba)).contains x = true ↔
        pba ≤ x ∧ x < min (pba + DeltaSegment.segBlocks) v.geo.total := by
      rw [contains_iff_mem, mem_range'_1]
      omega
    rw [Bool.or_eq_true, this, or_assoc, Reserved, Reserved, exists_mem_cons_iff]

/-- After an open, every flush that succeeds leaves the bitmap of the memory on the disk just where the mount
had nothing to reserve: the reset behind it forgets what the reservations made dirty. -/
theorem flush_synced_iff (v : Volume) (disk : Nat → Bool) (segments : List Nat)
    (hcover : v.geo.total ≤ 8 * v.geo.bmBytes) :
    (∀ s, ReflTransGen Life (v.opened disk segments, disk) s → ∀ torn, (s.1.bitmapFlush s.2 torn).1 = true →
      ∀ b < v.geo.total, (s.1.bitmapFlush s.2 torn).2.2 b = (s.1.bitmapFlush s.2 torn).2.1.bit b) ↔
      ∀ b, Reserved v.geo.total segments b → disk b = true := by
  have hopen := reserveSegments_bit segments { v with bit := disk, cursor := fun _ => 0, dirty := (0, 0) }
  constructor
  · intro h b hb
    have hclean : (v.opened disk segments).bitmapFlush disk none = (true, v.opened disk segments, disk) :=
      if_pos (by decide : 0 < 1)
    obtain ⟨pba, -, -, hlt⟩ := id hb
    have := h _ .refl none (by rw [hclean]) b (by omega)
    rw [hclean] at this
    exact this.trans ((hopen b).2.2 (.inr hb))
  · intro h s hs torn hok
    have htrack : Tracked v.geo s := by
      clear hok
      induction hs with
      | refl =>
        refine ⟨(hopen 0).1, hcover, fun b _ hne => absurd ?_ hne⟩
        apply Bool.eq_iff_iff.2
        exact (hopen b).2.trans ⟨fun hb => hb.elim id (h b), .inl⟩
      | tail _ hstep ih => exact ih.life hstep
    obtain ⟨d, t, he, ht⟩ | ⟨t, he, -⟩ := bitmapFlush_cases torn htrack
    · rw [he]
      exact fun b hb => (ht b hb).symm
    · rw [he] at hok
      cases hok

/-- A volume with a segment of the delta at its blocks 20 to 51. -/
def small : Volume :=
  ⟨⟨64, fun _ => ⟨10, 54⟩, false, 0, 0, 0, 0⟩, fun _ => false, fun _ => 0, fun _ => 0, fun _ => 0, 0, false,
    false, (0, 0)⟩

/-- With the segment's bits on the disk every run keeps the two bitmaps in step. -/
theorem flush_synced_small :
    let disk : Nat → Bool := fun b => 20 ≤ b ∧ b < 52
    ∀ s, ReflTransGen Life (small.opened disk [20], disk) s → ∀ torn, (s.1.bitmapFlush s.2 torn).1 = true →
      ∀ b < 64, (s.1.bitmapFlush s.2 torn).2.2 b = (s.1.bitmapFlush s.2 torn).2.1.bit b := by
  apply (flush_synced_iff small _ [20] (by decide)).2
  rintro b ⟨pba, hpba, h₁, h₂⟩
  rw [mem_singleton] at hpba
  subst hpba
  exact decide_eq_true ⟨h₁, h₂.trans_le (min_le_left _ _)⟩

/-- The first flush after the open finds nothing to write. -/
theorem reservation_forgotten :
    let r := (small.opened (fun _ => false) [20]).bitmapFlush (fun _ => false) none
    r.1 = true ∧ r.2.2 20 = false ∧ r.2.1.bit 20 = true := by
  decide

end InvariantFs.ZoneAlloc
