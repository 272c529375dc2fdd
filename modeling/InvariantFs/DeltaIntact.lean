import InvariantFs.DeltaLog

namespace InvariantFs.DeltaIntact

open DeltaSegment DeltaLog List Relation Nat

/-- The walk of `spt0_capture` from segment `cur`: how many segments it sees and how many bytes it counts.
`prev` is what `delta_read_hdr` says of the segment before. -/
def captureWalk (prev : Nat → Option Nat) (bump : Nat) : Nat → Nat → Nat → Nat → Nat × Nat
  | 0, _, nsegs, bytes => (nsegs, bytes)
  | fuel + 1, cur, nsegs, bytes =>
    if cur = 0 then (nsegs, bytes)
    else
      match prev cur with
      | none => (nsegs + 1, bytes)
      | some p =>
        let bytes := if nsegs = 0 then if segHdrLen < bump then bytes + bump else bytes else bytes + segBytes
        if p = cur then (nsegs + 1, bytes) else captureWalk prev bump fuel p (nsegs + 1) bytes

/-- `spn_delta_segs` and `spn_delta_head` -/
def capture (prev : Nat → Option Nat) (bump segPba : Nat) : Nat × Nat :=
  let r := captureWalk prev bump deltaMaxSegments segPba 0 0
  if r.2 = 0 ∨ r.1 = 0 then (0, 0) else (r.1, segPba)

/-- The loop of `spt0_delta_intact` -/
def intactWalk (prev : Nat → Option Nat) (headPba : Nat) : Nat → Nat → Bool
  | 0, _ => false
  | fuel + 1, cur =>
    if cur = 0 then false
    else
      match prev cur with
      | none => false
      | some p => if cur = headPba then true else if p = cur then false else intactWalk prev headPba fuel p

def spt0DeltaIntact (prev : Nat → Option Nat) (segPba deltaSegs headPba : Nat) : Bool :=
  if deltaSegs = 0 then true else if headPba = 0 then false else intactWalk prev headPba deltaSegs segPba

/-- A segment: its first block, and when it was made. -/
structure Seg where
  pba : Nat
  born : Nat
  deriving DecidableEq

/-- The delta chain, newest segment first, and how far the newest is filled. -/
structure Chain where
  segs : List Seg
  bump : Nat
  clock : Nat

def Chain.head (s : Chain) : Nat := (s.segs.map Seg.pba).headD 0

/-- A mount: the chain, the geometry of the captured log that it has in memory, and what the pin's descriptor
`SPN0` on the device says of it. A capture whose pin cannot be taken leaves the descriptor as it was. -/
structure Mount extends Chain where
  geo : Nat × Nat
  desc : Option (Nat × Nat)

/-- Appends, rollovers to blocks that are free, folds and cuts that drop the newest segments or all, and a new
mount: `spt0_load` has the geometry from the descriptor, and none where that, or the save point's own one, is not
read. -/
inductive Step : Mount → Mount → Prop
  | append (s : Mount) (bump : Nat) : Step s { s with bump := bump }
  | rollover (s : Mount) (pba bump : Nat) (h0 : pba ≠ 0) (hfree : pba ∉ s.segs.map Seg.pba) :
    Step s { s with segs := ⟨pba, s.clock⟩ :: s.segs, bump := bump, clock := s.clock + 1 }
  | drop (s : Mount) (n bump : Nat) : Step s { s with segs := s.segs.drop n, bump := bump }
  | reopen (s : Mount) (d : Option (Nat × Nat)) (hd : d = s.desc ∨ d = none) : Step s { s with geo := d.getD (0, 0) }

/-- The headers on the device lead along the chain. -/
def Linked (prev : Nat → Option Nat) : List Nat → Prop
  | [] => True
  | p :: ps => prev p = some (ps.headD 0) ∧ Linked prev ps

variable {prev : Nat → Option Nat} {ps : List Nat} {s t : Mount}

def Apart (ps : List Nat) : Prop := ps.Nodup ∧ 0 ∉ ps

theorem Apart.tail {p : Nat} (h : Apart (p :: ps)) : Apart ps :=
  ⟨(nodup_cons.mp h.1).2, fun h0 => h.2 (mem_cons_of_mem _ h0)⟩

theorem Apart.head {p : Nat} (h : Apart (p :: ps)) : p ≠ 0 ∧ ps.headD 0 ≠ p := by
  refine ⟨fun h0 => h.2 (h0 ▸ mem_cons_self), ?_⟩
  cases ps with
  | nil => exact fun h0 => h.2 (mem_cons.mpr (.inl h0))
  | cons q qs => exact fun hq => (nodup_cons.mp h.1).1 (hq ▸ mem_cons_self)

theorem run_apart (h : ReflTransGen Step s t) (hs : Apart (s.segs.map Seg.pba)) : Apart (t.segs.map Seg.pba) := by
  induction h with
  | refl => exact hs
  | tail _ hstep ih =>
    cases hstep with
    | append => exact ih
    | rollover pba bump h0 hfree => exact ⟨nodup_cons.mpr ⟨hfree, ih.1⟩, by simpa [h0.symm] using ih.2⟩
    | drop n bump =>
      rw [map_drop]
      exact ⟨ih.1.sublist (drop_sublist _ _), fun h => ih.2 (drop_subset _ _ h)⟩
    | reopen => exact ih

/-- Later mounts know of the log what the capture knew, what the descriptor says, or nothing. -/
theorem run_geo (h : ReflTransGen Step s t) :
    t.desc = s.desc ∧ (t.geo = s.geo ∨ t.geo = (0, 0) ∨ s.desc = some t.geo) := by
  induction h with
  | refl => exact ⟨rfl, .inl rfl⟩
  | tail _ hstep ih =>
    cases hstep with
    | append => exact ih
    | rollover => exact ih
    | drop => exact ih
    | reopen d hd =>
      refine ⟨ih.1, .inr ?_⟩
      cases d with
      | none => exact .inl rfl
      | some g => exact .inr (ih.1.symm.trans (hd.resolve_right (by simp)).symm)

section

variable (ha : Apart ps) (hl : Linked prev ps)

include ha hl

theorem intactWalk_linked (head fuel : Nat) :
    intactWalk prev head fuel (ps.headD 0) = true ↔ head ∈ ps.take fuel := by
  induction fuel generalizing ps with
  | zero => simp [intactWalk]
  | succ fuel ih =>
    cases ps with
    | nil => simp [intactWalk]
    | cons p ps =>
      obtain ⟨h0, hne⟩ := ha.head
      rw [headD_cons, intactWalk, if_neg h0, hl.1]
      dsimp only
      rw [take_succ_cons, mem_cons]
      split_ifs with hp
      · exact iff_of_true rfl (.inl hp.symm)
      · rw [ih ha.tail hl.2, or_iff_right (Ne.symm hp)]

theorem captureWalk_linked (bump fuel bytes : Nat) {nsegs : Nat} (hn : nsegs ≠ 0) :
    captureWalk prev bump fuel (ps.headD 0) nsegs bytes =
      (nsegs + min ps.length fuel, bytes + min ps.length fuel * segBytes) := by
  induction fuel generalizing ps nsegs bytes with
  | zero => simp [captureWalk]
  | succ fuel ih =>
    cases ps with
    | nil => simp [captureWalk]
    | cons p ps =>
      obtain ⟨h0, hne⟩ := ha.head
      rw [headD_cons, captureWalk, if_neg h0, hl.1]
      dsimp only
      rw [if_neg hn, if_neg hne, ih ha.tail hl.2 _ (succ_ne_zero _), length_cons, Nat.add_min_add_right,
        succ_mul]
      exact Prod.ext (by omega) (by omega)

theorem capture_linked (hne : ps ≠ []) (bump : Nat) : capture prev bump (ps.headD 0) =
      if ps.length = 1 ∧ bump ≤ segHdrLen then (0, 0) else (min ps.length deltaMaxSegments, ps.headD 0) := by
  obtain ⟨p, ps, rfl⟩ := exists_cons_of_ne_nil hne
  obtain ⟨h0, hp⟩ := ha.head
  have hwalk : captureWalk prev bump (2 ^ 20 - 1 + 1) p 0 0 = (min ps.length (2 ^ 20 - 1) + 1,
      (if segHdrLen < bump then bump else 0) + min ps.length (2 ^ 20 - 1) * segBytes) := by
    rw [captureWalk, if_neg h0, hl.1]
    dsimp only
    rw [if_neg hp, captureWalk_linked ha.tail hl.2 _ _ _ (succ_ne_zero 0)]
    exact Prod.ext (Nat.add_comm _ _) (by simp)
  rw [capture, show deltaMaxSegments = 2 ^ 20 - 1 + 1 by decide, headD_cons, hwalk, length_cons,
    Nat.add_min_add_right]
  refine if_congr ?_ rfl rfl
  constructor
  · intro h
    obtain ⟨hbump, hsegs⟩ := Nat.add_eq_zero_iff.mp (h.resolve_right (succ_ne_zero _))
    have := (Nat.mul_eq_zero.mp hsegs).resolve_right (by decide)
    split_ifs at hbump <;> omega
  · rintro ⟨hlen, hbump⟩
    simp [Nat.succ.inj hlen, not_lt.mpr hbump]

end

theorem mem_take_pba {segs : List Seg} (hnd : (segs.map Seg.pba).Nodup) {h : Seg} (hmem : h ∈ segs) (n : Nat) :
    h.pba ∈ (segs.map Seg.pba).take n ↔ segs.idxOf h < n := by
  rw [← map_take, ← mem_take_iff_idxOf_lt hmem]
  refine ⟨fun hp => ?_, mem_map_of_mem⟩
  obtain ⟨g, hg, he⟩ := mem_map.mp hp
  rwa [← inj_on_of_nodup_map hnd (mem_of_mem_take hg) hmem he]

/-- The check accepts just where the captured segment is still in the chain. -/
def Right (prev : Nat → Option Nat) (t : Mount) (h : Seg) : Prop :=
  (h ∈ t.segs → spt0DeltaIntact prev t.head t.geo.1 t.geo.2 = true) ∧
    (h ∉ t.segs → spt0DeltaIntact prev t.head t.geo.1 t.geo.2 = false)

theorem right_iff (ha : Apart (t.segs.map Seg.pba)) (hl : Linked prev (t.segs.map Seg.pba)) (h : Seg) :
    Right prev t h ↔ if t.geo.1 = 0 then h ∈ t.segs
      else (h ∈ t.segs → t.geo.2 ∈ (t.segs.map Seg.pba).take t.geo.1) ∧
        (h ∉ t.segs → t.geo.2 ∉ (t.segs.map Seg.pba).take t.geo.1) := by
  unfold Right spt0DeltaIntact
  split_ifs with h0 hp
  · simp
  · -- no segment of the chain lies at block 0
    have hnone : t.geo.2 ∉ (t.segs.map Seg.pba).take t.geo.1 := fun hmem => ha.2 (hp ▸ mem_of_mem_take hmem)
    simp [hnone]
  · rw [← Bool.not_eq_true, Chain.head, intactWalk_linked ha hl]

/-- In the mount of the capture, and wherever its geometry was stored, the check is right just where fewer
segments have come since than the chain had, none of them in the captured head's block; without records at the
capture, just where that head is still there. A later mount with another descriptor looks for that one's head. -/
theorem intact_iff {prev₀ : Nat → Option Nat} {h : Seg} {rest : List Seg} (hs : s.segs = h :: rest)
    (ha : Apart (s.segs.map Seg.pba)) (hl₀ : Linked prev₀ (s.segs.map Seg.pba)) (hrun : ReflTransGen Step s t)
    (hl : Linked prev (t.segs.map Seg.pba)) (hc : s.geo = capture prev₀ s.bump s.head) :
    (t.geo = s.geo → (Right prev t h ↔ if s.segs.length = 1 ∧ s.bump ≤ segHdrLen then h ∈ t.segs
      else (h ∈ t.segs → t.segs.idxOf h < min s.segs.length deltaMaxSegments) ∧
        (h ∉ t.segs → h.pba ∉ (t.segs.map Seg.pba).take (min s.segs.length deltaMaxSegments)))) ∧
    (t.geo ≠ s.geo → (t.geo = (0, 0) ∨ s.desc = some t.geo) ∧ (Right prev t h ↔ if t.geo.1 = 0 then h ∈ t.segs
      else (h ∈ t.segs → t.geo.2 ∈ (t.segs.map Seg.pba).take t.geo.1) ∧
        (h ∉ t.segs → t.geo.2 ∉ (t.segs.map Seg.pba).take t.geo.1))) := by
  have hat := run_apart hrun ha
  refine ⟨fun hgeo => ?_, fun hgeo => ⟨(run_geo hrun).2.resolve_left hgeo, right_iff hat hl h⟩⟩
  have hhead : (s.segs.map Seg.pba).headD 0 = h.pba := by rw [hs]; rfl
  have hpos : min s.segs.length deltaMaxSegments ≠ 0 := by
    rw [hs, length_cons]
    unfold deltaMaxSegments
    omega
  rw [right_iff hat hl, hgeo, hc, Chain.head, capture_linked ha hl₀ (by simp [hs]), length_map, hhead]
  by_cases hempty : s.segs.length = 1 ∧ s.bump ≤ segHdrLen
  · rw [if_pos hempty, if_pos hempty]
    rfl
  · rw [if_neg hempty, if_neg hempty, if_neg hpos]
    exact and_congr_left' (forall_congr' fun hmem => mem_take_pba hat.1 hmem _)

/-- A log of one segment in block 10 with a record, and the log one rollover later. -/
def one : Mount := ⟨⟨[⟨10, 0⟩], 100, 1⟩, (1, 10), none⟩

def two : Mount := ⟨⟨[⟨20, 1⟩, ⟨10, 0⟩], 100, 2⟩, (1, 10), none⟩

/-- The first log folded and mounted again, where the capture has not stored its pin. -/
def folded : Mount := ⟨⟨[], 100, 1⟩, (0, 0), none⟩

def heads (p : Nat) : Option Nat := if p = 20 then some 10 else if p = 10 then some 0 else none

theorem head_missed : Step one two ∧ capture heads one.bump one.head = one.geo ∧ (⟨10, 0⟩ : Seg) ∈ two.segs ∧
    spt0DeltaIntact heads two.head 1 10 = false := by
  refine ⟨.rollover one 20 100 (by decide) (by decide), ?_⟩
  decide +kernel

theorem intact_two : ¬ Right heads two ⟨10, 0⟩ ∧ ¬ Right heads folded ⟨10, 0⟩ := by
  have hstep : Step one two := .rollover one 20 100 (by decide) (by decide)
  have hl : Linked heads (two.segs.map Seg.pba) := ⟨rfl, rfl, trivial⟩
  have hc : one.geo = capture heads one.bump one.head := by decide +kernel
  have hfold : ReflTransGen Step one folded := .tail (.single (.drop one 1 100)) (.reopen _ none (.inr rfl))
  have htwo := (intact_iff (s := one) rfl ⟨by decide, by decide⟩ hl.2 (.single hstep) hl hc).1 rfl
  have hnone : Linked heads (folded.segs.map Seg.pba) := trivial
  have hfolded := ((intact_iff (s := one) rfl ⟨by decide, by decide⟩ hl.2 hfold hnone hc).2 (by decide)).2
  refine ⟨fun hright => ?_, fun hright => ?_⟩
  · exact absurd ((htwo.mp hright).1 (by decide)) (by decide)
  · exact absurd (hfolded.mp hright) (by decide)

end InvariantFs.DeltaIntact
