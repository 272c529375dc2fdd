import InvariantFs.ZoneAlloc

namespace InvariantFs.ZoneAlloc

open List Function Relation

variable {v w : Volume} {p q n a l : Nat} {x : Bool}

theorem wsub_of_le (h : n ≤ a) (ha : a < 2 ^ 64) : wsub a n = a - n := by
  rw [wsub, Nat.sub_add_comm h, Nat.add_mod_right, Nat.mod_eq_of_lt (by omega)]

/-- The layout of a volume on one device. -/
structure Geometry.Single (g : Geometry) : Prop where
  one : g.twoDev = false
  raw_pos : 0 < (g.zone .raw).start
  shadow_start : (g.zone .shadow).start = (g.zone .raw).start + (g.zone .raw).len
  shadow_end : (g.zone .shadow).start + (g.zone .shadow).len = g.total
  total_lt : g.total < 2 ^ 64

structure Volume.Exact (v : Volume) : Prop where
  free : v.free = clear v.bit 0 v.geo.total
  zone : ∀ z, z ≠ .arena → v.zoneFree z = v.zoneCountFree (v.geo.zone z)

theorem Geometry.Single.zone_le {g : Geometry} {z : ZoneId} (h : g.Single) (hz : z ≠ .arena) :
    0 < (g.zone z).start ∧ (g.zone z).start + (g.zone z).len ≤ g.total := by
  obtain ⟨-, hpos, hstart, hend, -⟩ := h
  cases z with
  | raw => omega
  | shadow => omega
  | arena => exact absurd rfl hz

/-- A run of blocks in one zone, the metadata zone for `none`. -/
def Geometry.Within (g : Geometry) (p n : Nat) : Option ZoneId → Prop
  | some z => z ≠ .arena ∧ (g.zone z).start ≤ p ∧ p + n ≤ (g.zone z).start + (g.zone z).len
  | none => p + n ≤ (g.zone .raw).start

theorem Geometry.Single.within_le {g : Geometry} {o : Option ZoneId} (h : g.Single) (ho : g.Within p n o) :
    p + n ≤ g.total := by
  cases o with
  | none => exact Nat.le_trans ho (Nat.le_trans (Nat.le_add_right _ _) (h.zone_le (by decide)).2)
  | some z => exact ho.2.2.trans (h.zone_le ho.1).2

theorem clear_le {bit : Nat → Bool} : clear bit a l ≤ l := by
  simpa [clear] using countP_le_length (p := fun b => !bit b) (l := range' a l)

theorem add_le_of_set {bit : Nat → Bool} (hp : a ≤ p) (he : p + n ≤ a + l)
    (hb : ∀ b, p ≤ b → b < p + n → bit b = true) : clear bit a l + n ≤ l :=
  (clear_setRun (x := false) hp he hb).symm.trans_le clear_le

theorem Volume.Exact.zone_eq {z : ZoneId} (hx : v.Exact) (hs : v.geo.Single) (hz : z ≠ .arena) :
    v.zoneFree z = clear v.bit (v.geo.zone z).start (v.geo.zone z).len := by
  rw [hx.zone z hz, Volume.zoneCountFree, Nat.min_eq_left (hs.zone_le hz).2, Nat.add_sub_cancel_left]

/-- One step of the counters: a run of blocks in one zone changes its state. -/
theorem Volume.Exact.toggle {o : Option ZoneId} {c : Nat} (hs : v.geo.Single) (hx : v.Exact)
    (hg : w.geo = v.geo) (hb : w.bit = setRun v.bit x p (p + n))
    (hrun : ∀ b, p ≤ b → b < p + n → v.bit b = !x) (ho : v.geo.Within p n o)
    (hf : v.free + (if x then 0 else n) = w.free + if x then n else 0)
    (hz : w.zoneFree = o.elim v.zoneFree fun z => update v.zoneFree z c)
    (hc : ∀ z, o = some z → v.zoneFree z + (if x then 0 else n) = c + if x then n else 0) : w.Exact := by
  have hin := hs.within_le ho
  refine ⟨?_, fun z hne => ?_⟩
  · have := clear_setRun (Nat.zero_le p) (by omega : p + n ≤ 0 + v.geo.total) hrun
    rw [hb, hg]
    have := hx.free
    omega
  have hzone := hx.zone z hne
  simp only [Volume.zoneCountFree, hg, hb, Nat.min_eq_left (hs.zone_le hne).2, Nat.add_sub_cancel_left] at hzone ⊢
  by_cases hoz : o = some z
  · subst hoz
    have := clear_setRun ho.2.1 ho.2.2 hrun
    have := hc z rfl
    rw [hz, Option.elim_some, update_self]
    omega
  · have hother : w.zoneFree z = v.zoneFree z := by
      cases o with
      | none => rw [hz, Option.elim_none]
      | some y => rw [hz, Option.elim_some, update_of_ne fun h : z = y => hoz (by rw [h])]
    rw [hother, hzone, clear_setRun_off]
    obtain ⟨-, -, hstart, -, -⟩ := hs
    cases o with
    | none =>
      have : p + n ≤ (v.geo.zone .raw).start := ho
      cases z <;> first | omega | exact absurd rfl hne
    | some y =>
      obtain ⟨hy, h₁, h₂⟩ := ho
      cases y <;> cases z <;> first | omega | exact absurd rfl hne | exact absurd rfl hy | exact absurd rfl hoz

/-- What the counters go through. -/
inductive Step : Volume → Volume → Prop where
  | alloc (v : Volume) (z : ZoneId) (hz : z ≠ .arena) (n : Nat) (useReserve : Bool) (type : AllocType) :
    Step v (v.allocBlocks (v.geo.zone z).start (v.geo.zone z).len n useReserve type).2
  | free (v : Volume) (copies : Copies) (release : Bool) (pin : Nat → Bool) (o : Option ZoneId) (pba n : Nat)
    (hn : 0 < n) (hset : ∀ b, pba ≤ b → b < pba + n → v.bit b = true) (ho : v.geo.Within pba n o) :
    Step v (v.volFreeBlocks copies release pin pba n).1
  | reserve (v : Volume) (pba : Nat) : Step v (v.reserveSegment pba)

theorem scan_some {usable : Nat → Bool} {zoneStart zoneLen i : Nat} (hz : 0 < zoneStart)
    (hi : zoneStart ≤ i ∧ i ≤ zoneStart + zoneLen)
    (h : scan usable zoneStart (zoneStart + zoneLen) n zoneLen i 0 = some p) :
    0 < n ∧ zoneStart ≤ p ∧ p + n ≤ zoneStart + zoneLen ∧ ∀ b, p ≤ b → b < p + n → usable b = true := by
  have hn : 0 < n := by
    rw [Nat.pos_iff_ne_zero]
    rintro rfl
    have hnone : ∀ count i start, scan usable zoneStart (zoneStart + zoneLen) 0 count i start = none := by
      intro count
      induction count with
      | zero => exact fun _ _ => rfl
      | succ count ih => simp [scan, ih]
    rw [hnone] at h
    cases h
  have hspec := @scan_spec usable _ _ _ _ hn hz hi.1 hi.2
  rw [Nat.add_sub_cancel_left, h] at hspec
  obtain ⟨s, hs, h₁, h₂, -, hb⟩ | ⟨hnone, -⟩ := hspec
  · cases hs
    exact ⟨hn, h₁, h₂, hb⟩
  · cases hnone

theorem Volume.Exact.take {z : ZoneId} (hs : v.geo.Single) (hx : v.Exact) (hz : z ≠ .arena)
    (h₁ : (v.geo.zone z).start ≤ p) (h₂ : p + n ≤ (v.geo.zone z).start + (v.geo.zone z).len) (hn : 0 < n)
    (hb : ∀ b, p ≤ b → b < p + n → v.bit b = false) :
    (v.take (v.geo.zone z).start ((v.geo.zone z).start + (v.geo.zone z).len) n p).Exact := by
  obtain ⟨hpos, htop⟩ := hs.zone_le hz
  have hslot : v.geo.slot (v.geo.zone z).start = z := by
    obtain ⟨hone, -, hstart, -, -⟩ := hs
    cases z with
    | raw => rw [Geometry.slot, if_neg (by omega), if_neg (by simp [hone])]
    | shadow => exact if_pos rfl
    | arena => exact absurd rfl hz
  have hzone := hx.zone_eq hs hz
  have hfree : n ≤ v.free := hx.free ▸ le_clear (Nat.zero_le p) (by omega) hb
  have hle : v.free ≤ v.geo.total := hx.free ▸ clear_le
  have hzf : n ≤ v.zoneFree z := hzone ▸ le_clear h₁ h₂ hb
  have hzl : v.zoneFree z ≤ (v.geo.zone z).len := hzone ▸ clear_le
  have hlt := hs.total_lt
  refine hx.toggle (o := some z) (c := wsub (v.zoneFree z) n) hs rfl rfl hb ⟨hz, h₁, h₂⟩ ?_ ?_ fun y hy => ?_
  · change v.free + 0 = wsub v.free n + n
    rw [wsub_of_le hfree (by omega)]
    omega
  · simp only [Volume.take, hslot, Option.elim_some]
  · cases hy
    rw [if_pos rfl, if_pos rfl, wsub_of_le hzf (by omega)]
    omega

theorem Volume.Exact.freeRun {o : Option ZoneId} (hs : v.geo.Single) (hx : v.Exact) (hn : 0 < n)
    (hset : ∀ b, p ≤ b → b < p + n → v.bit b = true) (ho : v.geo.Within p n o) :
    (v.freeRun p (p + n)).Exact := by
  have hhome : v.geo.home p = o := by
    obtain ⟨hone, -, hstart, -, -⟩ := hs
    simp only [Geometry.home, hone, Bool.false_eq_true, false_and, if_false]
    cases o with
    | none =>
      have : p + n ≤ (v.geo.zone .raw).start := ho
      rw [if_neg (by omega), if_neg (by omega)]
    | some z =>
      obtain ⟨hz, h₁, h₂⟩ := ho
      cases z with
      | raw => rw [if_neg (by omega), if_pos h₁]
      | shadow => rw [if_pos h₁]
      | arena => exact absurd rfl hz
  have hin : p + n ≤ v.geo.total := hs.within_le ho
  have hlt := hs.total_lt
  have hlen : wsub (p + n) p = n := by rw [wsub_of_le (by omega) (by omega), Nat.add_sub_cancel_left]
  obtain ⟨hgeo, hbit, -, hfree⟩ := @freeRun_frame v p (p + n)
  refine hx.toggle (x := false) (c := (o.elim 0 v.zoneFree + n) % 2 ^ 64) hs hgeo hbit hset ho ?_ ?_ fun z hz => ?_
  · have hmax : v.free + n ≤ v.geo.total := hx.free ▸ add_le_of_set (Nat.zero_le p) (by omega) hset
    rw [if_neg Bool.false_ne_true, if_neg Bool.false_ne_true, hfree, Volume.clearRun]
    simp only [hlen]
    rw [Nat.mod_eq_of_lt (by omega), Nat.add_zero]
  · obtain ⟨a, b, h⟩ := readonlyUnlatch_eq ((v.clearRun p (p + n)).giveBack p (wsub (p + n) p))
    have hhome : (v.clearRun p (p + n)).geo.home p = o := hhome
    rw [Volume.freeRun, h, hlen, Volume.giveBack, hhome]
    cases o <;> simp only [Volume.clearRun, Option.elim_none, Option.elim_some]
  · subst hz
    obtain ⟨hz, h₁, h₂⟩ := ho
    have hle := (hs.zone_le hz).2
    have hmax : v.zoneFree z + n ≤ (v.geo.zone z).len := hx.zone_eq hs hz ▸ add_le_of_set h₁ h₂ hset
    rw [if_neg Bool.false_ne_true, if_neg Bool.false_ne_true, Option.elim_some, Nat.mod_eq_of_lt (by omega),
      Nat.add_zero]

theorem Volume.Exact.reserveBlock {b : Nat} (hs : v.geo.Single) (hx : v.Exact) (hb : b < v.geo.total) :
    (v.reserveBlock true b).Exact := by
  by_cases hset : v.bit b = true
  · rwa [Volume.reserveBlock, if_pos hset]
  rw [Volume.reserveBlock, if_neg hset]
  have hrun : ∀ c, b ≤ c → c < b + 1 → v.bit c = false := by
    intro c h₁ h₂
    obtain rfl : c = b := by omega
    exact Bool.eq_false_iff.2 hset
  have ho : v.geo.Within b 1 (v.geo.reserveHome b) := by
    have hstart := hs.shadow_start
    have hend := hs.shadow_end
    rw [Geometry.reserveHome]
    split_ifs with h₁ h₂
    · exact ⟨by decide, h₁, by omega⟩
    · exact ⟨by decide, h₂, by omega⟩
    · exact Nat.lt_of_not_le h₂
  have hfree : 1 ≤ v.free := hx.free ▸ le_clear (Nat.zero_le b) (by omega) hrun
  refine hx.toggle (x := true) (c := (v.geo.reserveHome b).elim 0 v.zoneFree - 1) hs rfl rfl hrun ho ?_ ?_
    fun z hz => ?_
  · exact (Nat.sub_add_cancel hfree).symm
  · cases v.geo.reserveHome b <;> rfl
  · rw [hz] at ho ⊢
    have : 1 ≤ v.zoneFree z := hx.zone_eq hs ho.1 ▸ le_clear ho.2.1 ho.2.2 hrun
    exact (Nat.sub_add_cancel this).symm

theorem Volume.Exact.reserveBlocks (bs : List Nat) (hs : v.geo.Single) (hx : v.Exact)
    (hb : ∀ b ∈ bs, b < v.geo.total) : (bs.foldl (Volume.reserveBlock true) v).Exact := by
  induction bs generalizing v with
  | nil => exact hx
  | cons b bs ih =>
    have hg := (reserveBlocks_frame true [b] v).1
    rw [foldl_cons, foldl_nil] at hg
    exact ih (hg ▸ hs) (hx.reserveBlock hs (hb b (by simp))) fun c hc => hg ▸ hb c (mem_cons_of_mem _ hc)

/-- A volume on one device whose counters are exact, with a cursor set. -/
structure Volume.Counted (v : Volume) : Prop where
  single : v.geo.Single
  live : v.live
  count : v.Exact

theorem live_update {z : ZoneId} {c : Nat} (hl : v.live) (hw : w.cursor = update v.cursor z c)
    (hc : v.cursor z ≠ 0 → c ≠ 0) : w.live := by
  have hkeep : ∀ y, v.cursor y ≠ 0 → w.cursor y ≠ 0 := by
    intro y hy
    rw [hw]
    by_cases h : y = z
    · subst h
      rw [update_self]
      exact hc hy
    · rwa [update_of_ne h]
  exact hl.imp (hkeep _) (hkeep _)

theorem freeRun_live (hs : v.geo.Single) (hl : v.live) : (v.freeRun p q).live := by
  obtain ⟨a, b, h⟩ := readonlyUnlatch_eq ((v.clearRun p q).giveBack p (wsub q p))
  rw [Volume.freeRun, h, Volume.giveBack]
  cases hhome : (v.clearRun p q).geo.home p with
  | none => exact hl
  | some z =>
    refine live_update (z := z) (c := min p (v.cursor z)) hl rfl fun hz => ?_
    have hp : (v.geo.zone .raw).start ≤ p := by
      have hstart := hs.shadow_start
      by_contra hlow
      change v.geo.home p = some z at hhome
      rw [Geometry.home, if_neg (by omega), if_neg (by simp [hs.one]), if_neg (by simp [hs.one]), if_neg hlow]
        at hhome
      cases hhome
    have hpos := hs.raw_pos
    omega

theorem Volume.Counted.step (h : v.Counted) (hw : Step v w) : w.Counted := by
  obtain ⟨hs, hl, hx⟩ := h
  cases hw with
  | alloc z hz n useReserve type =>
    obtain ⟨hpos, -⟩ := hs.zone_le hz
    obtain ⟨f, a, b, h⟩ | ⟨p, hp, h⟩ := allocBlocks_cases v (v.geo.zone z).start (v.geo.zone z).len n useReserve type
    · rw [h]
      exact ⟨hs, hl, hx.free, hx.zone⟩
    · obtain ⟨hn, h₁, h₂, hb⟩ := scan_some hpos (entry_mem v _ _) hp
      rw [h]
      refine ⟨hs, live_update hl rfl fun _ => ?_, hx.take hs hz h₁ h₂ hn fun b h₃ h₄ => (usable_iff.1 (hb b h₃ h₄)).1⟩
      split_ifs <;> omega
  | free copies release pin o pba n hn hset ho =>
    have hnone : copies.dropped v.geo pba (pba + n) = [] := by simp [Copies.dropped, Geometry.drops, hs.one]
    simp only [Volume.volFreeBlocks, Nat.min_eq_left (hs.within_le ho), hnone, foldl_nil]
    split_ifs
    · exact ⟨hs, hl, hx⟩
    · exact ⟨(freeRun_frame (v := v)).1.symm ▸ hs, freeRun_live hs hl, hx.freeRun hs hn hset ho⟩
  | reserve pba =>
    obtain ⟨hg, hc⟩ := reserveBlocks_frame v.live
      (range' pba (min (pba + DeltaSegment.segBlocks) v.geo.total - pba)) v
    refine ⟨hg ▸ hs, ?_, ?_⟩
    · rw [Volume.live, Volume.reserveSegment, hc]
      exact hl
    · rw [Volume.reserveSegment, decide_eq_true hl]
      exact hx.reserveBlocks _ hs fun b hb => by
        rw [mem_range'_1] at hb
        omega

end InvariantFs.ZoneAlloc
