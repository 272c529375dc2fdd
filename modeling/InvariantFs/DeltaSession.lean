import InvariantFs.DeltaReplay

namespace InvariantFs.DeltaSession

open ByteCodec CachedStore DeltaRecord DeltaSegment DeltaIndex DeltaLog DeltaReplay List Function

/-- What the superblock, the allocator and the environment fix for a handle: `taken` are the segments
that are allocated apart from the chain. -/
structure Handle where
  total : Nat
  total_lt : total < 2 ^ 64
  anchor : Bool
  taken : List Nat
  groupMax : Nat
  groupBytes : Nat

/-- A device nobody has open: the descriptor, and 128 KiB of whatever bytes at each address. -/
structure Image where
  rt : Rt
  seg : Nat → List Byte
  whole : ∀ pba, (seg pba).length = segBytes

def Image.medium (d : Image) : Medium := ⟨⟨fun _ => d.rt, []⟩, ⟨d.seg, []⟩⟩

variable (crc : List Byte → UInt32)

def chain (total : Nat) (d : Image) : List Nat :=
  chainFrom crc total d.seg deltaMaxSegments d.rt.deltaPba

/-- The end of the last record that `delta_replay_segment` accepts, within the segment. -/
def validEnd (image : List Byte) : Nat :=
  segHdrLen + ((segRecords crc image).flatMap (recBytes crc)).length

/-- `vol_delta_mount`: the first segment of the chain becomes the active one, and the next record goes
right behind the last one that parsed. Nothing is written. -/
def mount (hd : Handle) (d : Image) : Log :=
  { total := hd.total
    total_lt := hd.total_lt
    med := d.medium
    rt := d.rt
    anchor := hd.anchor
    taken := chain crc hd.total d ++ hd.taken
    segPba := (chain crc hd.total d).headD 0
    bump := (chain crc hd.total d).head?.elim 0 fun pba => validEnd crc (d.seg pba)
    segGen := (chain crc hd.total d).foldr
      (fun pba gen => max ((readHdr crc hd.total d.seg pba).elim 0 SegHdr.segSeq) gen) 0
    segments := (chain crc hd.total d).length
    groupMax := hd.groupMax
    groupBytes := hd.groupBytes
    ram := mountRam crc hd.total d.medium }

def fenced (alloc : Option Nat) : Env := ⟨alloc, .ok, .ok, .ok, .ok⟩

/-- Appends that all return 0, each with the segment the allocator would hand out during it. -/
def appends : Log → List (Option Nat × Rec) → Option Log
  | l, [] => some l
  | l, (alloc, r) :: calls =>
    match append crc (fenced alloc) l r with
    | (_, l', true) => appends l' calls
    | (_, _, false) => none

def session (hd : Handle) (d : Image) (calls : List (Option Nat × Rec)) : Option Log :=
  (appends crc (mount crc hd d) calls).map fun l => (drain crc (fenced none) l).2.1

/-- How records fall on segments: those that fit the room of the active segment, and one list for each
segment opened after it. -/
def lay : Nat → List Rec → List Rec × List (List Rec)
  | _, [] => ([], [])
  | room, r :: rs =>
    if r.size ≤ room then
      (r :: (lay (room - r.size) rs).1, (lay (room - r.size) rs).2)
    else
      ([], (r :: (lay (segBytes - segHdrLen - r.size) rs).1) ::
        (lay (segBytes - segHdrLen - r.size) rs).2)

/-- Between calls the group has no doomed record, and what is not fenced is counted as pending. -/
structure Quiet (l : Log) : Prop where
  rewrite : l.ram.rewriteNeeded = false
  idle : l.ram.pending = 0 → l.med.rt.pending = [] ∧ l.med.seg.pending = []

theorem healed_quiet {ram : Recent} (h : ram.rewriteNeeded = false) (m : Medium) : healed crc ram m = m := by
  simp [healed, h]

structure Stored (l l' : Log) (r : Rec) : Prop where
  quiet : Quiet l'
  total_eq : l'.total = l.total
  pba_eq : l'.segPba = l.segPba
  bump_eq : l'.bump = l.bump + r.size
  taken_eq : l'.taken = l.taken
  rt_eq : l'.med.rt.view = l.med.rt.view
  seg_eq : l'.med.seg.view = update l.med.seg.view l.segPba
    (splice l.bump (recBytes crc r) (l.med.seg.view l.segPba))
  ram_eq : ∀ key, answer l'.ram key = (effect [r] key).or (answer l.ram key)

variable {l : Log}

theorem stageRecord_fenced (alloc : Option Nat) (h : Quiet l) (r : Rec) :
    (stageRecord crc (fenced alloc) l r).2.2 = true ∧ Stored crc l (stageRecord crc (fenced alloc) l r).2.1 r := by
  have hkeep : (l.ram.keep r.key r.val (decide (r.kind = .delete)) l.segPba l.bump
      r.size).rewriteNeeded = false := h.rewrite
  by_cases hg : groupFull l (l.ram.keep r.key r.val (r.kind = .delete) l.segPba l.bump r.size) = true
  · simp only [stageRecord, hg, if_true, fenced, healed_quiet crc hkeep]
    exact ⟨trivial,
      { quiet := ⟨rfl, fun _ => ⟨rfl, rfl⟩⟩, total_eq := rfl, pba_eq := rfl, bump_eq := rfl
        taken_eq := rfl, rt_eq := rfl, seg_eq := view_write _ _ _, ram_eq := answer_put _ r _ _ }⟩
  · simp only [stageRecord, hg, Bool.false_eq_true, if_false]
    exact ⟨trivial,
      { quiet := ⟨h.rewrite, fun h0 => by simp [Ram.put, Ram.keep] at h0⟩, total_eq := rfl
        pba_eq := rfl, bump_eq := rfl, taken_eq := rfl, rt_eq := rfl, seg_eq := view_write _ _ _
        ram_eq := answer_put _ r _ _ }⟩

/-- What a rollover changes: a zeroed segment in front of the chain, and the descriptor naming it. -/
structure Opened (l l' : Log) (pba : Nat) : Prop where
  quiet : Quiet l'
  total_eq : l'.total = l.total
  pba_eq : l'.segPba = pba
  bump_eq : l'.bump = segHdrLen
  taken_eq : l'.taken = pba :: l.taken
  pba_ne : pba ≠ 0
  pba_lt : pba < l.total
  pba_new : pba ∉ l.taken
  rt_eq : (l'.med.rt.view ()).deltaPba = pba
  seg_eq : ∃ gen, l'.med.seg.view = update l.med.seg.view pba (emptySegment crc gen l.segPba)
  ram_eq : l'.ram.index = l.ram.index

variable {alloc : Option Nat}

theorem rollover_fenced (hok : (rollover crc (fenced alloc) l).2.2 = true) :
    ∃ pba, Opened crc l (rollover crc (fenced alloc) l).2.1 pba := by
  cases alloc with
  | none => simp [rollover, newSegment, fenced] at hok
  | some pba =>
    by_cases hbad : pba = 0 ∨ l.total ≤ pba ∨ pba ∈ l.taken
    · simp [rollover, newSegment, fenced, hbad] at hok
    · push Not at hbad
      refine ⟨pba, ?_⟩
      have hno : ¬ (pba = 0 ∨ l.total ≤ pba ∨ pba ∈ l.taken) := by
        push Not
        exact hbad
      simp only [rollover, newSegment, fenced, hno, if_false, rt30Store]
      cases l.anchor
      all_goals
        exact
          { quiet := ⟨rfl, fun _ => ⟨rfl, rfl⟩⟩, total_eq := rfl, pba_eq := rfl, bump_eq := rfl
            taken_eq := rfl, pba_ne := hbad.1, pba_lt := hbad.2.1, pba_new := hbad.2.2
            rt_eq := congrArg Rt.deltaPba (view_write_self _ _ _), seg_eq := ⟨_, view_write _ _ _⟩, ram_eq := rfl }

variable {l' : Log} {r : Rec}

theorem append_fenced {ev : List Event} (h : Quiet l) (hok : append crc (fenced alloc) l r = (ev, l', true)) :
    r.kind ≠ .pad ∧ r.size ≤ segBytes - segHdrLen ∧ ((¬ rollsOver l r ∧ Stored crc l l' r) ∨
        (rollsOver l r ∧ ∃ pba mid, Opened crc l mid pba ∧ Stored crc mid l' r)) := by
  by_cases hbad : r.kind = .pad ∨ segBytes - segHdrLen < r.size
  · simp [append, hbad] at hok
  · rw [append, if_neg hbad] at hok
    push Not at hbad
    refine ⟨hbad.1, hbad.2, ?_⟩
    by_cases hroll : rollsOver l r
    · refine .inr ⟨hroll, ?_⟩
      rw [if_pos hroll] at hok
      split at hok
      · simp at hok
      · next ev' mid heq =>
        have hdone : (rollover crc (fenced alloc) l).2.2 = true := by rw [heq]
        obtain ⟨pba, hopen⟩ := rollover_fenced crc hdone
        rw [heq] at hopen
        obtain ⟨-, hst⟩ := stageRecord_fenced crc alloc hopen.quiet r
        simp only [Prod.mk.injEq] at hok
        rw [hok.2.1] at hst
        exact ⟨pba, mid, hopen, hst⟩
    · rw [if_neg hroll] at hok
      obtain ⟨-, hst⟩ := stageRecord_fenced crc alloc h r
      rw [hok] at hst
      exact .inl ⟨hroll, hst⟩

/-- The segments opened behind `prev`, oldest first, each with the records that went into it. -/
def Grown (total : Nat) (m : Nat → List Byte) : Nat → List Nat → List (List Rec) → Prop
  | _, [], [] => True
  | prev, f :: fs, g :: gs =>
    f ≠ 0 ∧ f < total ∧ prev ≠ f ∧ prev < 2 ^ 64 ∧
      (∃ gen n, m f = hdrEncode crc gen prev ++ (g.flatMap (recBytes crc) ++ replicate n 0)) ∧
      Grown total m f fs gs
  | _, _, _ => False

def roomOf (l : Log) : Nat := if l.segPba = 0 then 0 else segBytes - l.bump

structure Active (l : Log) : Prop where
  pba_lt : l.segPba < 2 ^ 64
  taken : l.segPba ≠ 0 → l.segPba ∈ l.taken
  bump_lo : l.segPba ≠ 0 → segHdrLen ≤ l.bump
  bump_hi : l.segPba ≠ 0 → l.bump ≤ segBytes
  whole : l.segPba ≠ 0 → (l.med.seg.view l.segPba).length = segBytes

theorem fits_iff (r : Rec) : r.size ≤ roomOf l ↔ ¬ rollsOver l r := by
  have hpos := size_pos r
  rw [roomOf, rollsOver]
  split <;> omega

theorem splice_emptySegment (gen prev : Nat) (data : List Byte) : splice segHdrLen data (emptySegment crc gen prev) =
      hdrEncode crc gen prev ++ (data ++ replicate (segBytes - segHdrLen - data.length) 0) := by
  have hlen := length_hdrEncode crc gen prev
  rw [splice, emptySegment, take_left' hlen, ← hlen, drop_length_add_append, drop_replicate, append_assoc]

theorem length_emptySegment (gen prev : Nat) : (emptySegment crc gen prev).length = segBytes := by
  rw [emptySegment, length_append, length_hdrEncode, length_replicate]
  rfl

theorem Stored.active (h : Stored crc l l' r) (ha : Active l) (hfit : ¬ rollsOver l r) : Active l' := by
  rw [rollsOver] at hfit
  push Not at hfit
  refine ⟨?_, fun h0 => ?_, fun h0 => ?_, fun h0 => ?_, fun h0 => ?_⟩
  · rw [h.pba_eq]
    exact ha.pba_lt
  · rw [h.pba_eq, h.taken_eq]
    exact ha.taken hfit.1
  · have hlo := ha.bump_lo hfit.1
    rw [h.bump_eq]
    omega
  · rw [h.bump_eq]
    exact hfit.2
  · rw [h.pba_eq, h.seg_eq, update_self, length_splice, ha.whole hfit.1]
    rw [length_recBytes, ha.whole hfit.1]
    exact hfit.2

theorem Opened.active {pba : Nat} (h : Opened crc l l' pba) : Active l' := by
  obtain ⟨gen, hseg⟩ := h.seg_eq
  refine ⟨?_, fun _ => ?_, fun _ => ?_, fun _ => ?_, fun _ => ?_⟩
  · rw [h.pba_eq]
    exact Nat.lt_trans h.pba_lt l.total_lt
  · rw [h.pba_eq, h.taken_eq]
    exact mem_cons_self
  · exact Nat.le_of_eq h.bump_eq.symm
  · rw [h.bump_eq]
    decide
  · rw [h.pba_eq, hseg, update_self, length_emptySegment]

structure Ran (l l' : Log) (rs : List Rec) (fresh : List Nat) : Prop where
  quiet : Quiet l'
  grown : Grown crc l.total l'.med.seg.view l.segPba fresh (lay (roomOf l) rs).2
  fresh_ne : ∀ f ∈ fresh, f ≠ 0 ∧ f ∉ l.taken
  active_eq : l'.med.seg.view l.segPba =
    splice l.bump ((lay (roomOf l) rs).1.flatMap (recBytes crc)) (l.med.seg.view l.segPba)
  other_eq : ∀ p, p ≠ l.segPba → p ∉ fresh → l'.med.seg.view p = l.med.seg.view p
  rt_eq : (l'.med.rt.view ()).deltaPba = fresh.getLast?.getD (l.med.rt.view ()).deltaPba
  kinds : ∀ r ∈ rs, r.kind ≠ .pad
  ram_eq : ∀ key, answer l'.ram key = (effect rs key).or (answer l.ram key)

variable {rs : List Rec} {fresh : List Nat}

theorem Ran.stored {mid : Log} (ha : Active l) (hfit : ¬ rollsOver l r) (hkind : r.kind ≠ .pad)
    (hst : Stored crc l mid r) (h : Ran crc mid l' rs fresh) : Ran crc l l' (r :: rs) fresh := by
  have hroom : roomOf mid = roomOf l - r.size := by
    have h0 := (not_or.mp hfit).1
    rw [roomOf, roomOf, hst.pba_eq, hst.bump_eq, if_neg h0, if_neg h0]
    omega
  have hlay : lay (roomOf l) (r :: rs) = (r :: (lay (roomOf mid) rs).1, (lay (roomOf mid) rs).2) := by
    rw [lay, if_pos ((fits_iff r).mpr hfit), hroom]
  have hlen : l.bump ≤ (l.med.seg.view l.segPba).length := by
    rw [ha.whole (not_or.mp hfit).1]
    exact ha.bump_hi (not_or.mp hfit).1
  refine ⟨h.quiet, ?_, ?_, ?_, ?_, ?_, ?_, ?_⟩
  · rw [hlay, ← hst.total_eq, ← hst.pba_eq]
    exact h.grown
  · rw [← hst.taken_eq]
    exact h.fresh_ne
  · have hact := h.active_eq
    rw [hst.pba_eq, hst.bump_eq, hst.seg_eq, update_self, ← length_recBytes crc r, splice_splice _ _ hlen] at hact
    rw [hlay, flatMap_cons]
    exact hact
  · intro p hp hf
    rw [h.other_eq p (hst.pba_eq ▸ hp) hf, hst.seg_eq, update_of_ne hp]
  · rw [h.rt_eq, hst.rt_eq]
  · exact forall_mem_cons.mpr ⟨hkind, h.kinds⟩
  · intro key
    rw [h.ram_eq, hst.ram_eq, ← Option.or_assoc, ← effect_append, singleton_append]

theorem Ran.opened {opn mid : Log} {pba : Nat} (ha : Active l) (hroll : rollsOver l r) (hkind : r.kind ≠ .pad)
    (hop : Opened crc l opn pba) (hst : Stored crc opn mid r) (h : Ran crc mid l' rs fresh) :
    Ran crc l l' (r :: rs) (pba :: fresh) := by
  obtain ⟨gen, hseg⟩ := hop.seg_eq
  have hmid : mid.segPba = pba := hst.pba_eq.trans hop.pba_eq
  have hbump : mid.bump = segHdrLen + r.size := by rw [hst.bump_eq, hop.bump_eq]
  have htaken : mid.taken = pba :: l.taken := by rw [hst.taken_eq, hop.taken_eq]
  have htotal : mid.total = l.total := hst.total_eq.trans hop.total_eq
  have hroom : roomOf mid = segBytes - segHdrLen - r.size := by
    rw [roomOf, hmid, if_neg hop.pba_ne, hbump, Nat.sub_sub]
  have hlay : lay (roomOf l) (r :: rs) = ([], (r :: (lay (roomOf mid) rs).1) :: (lay (roomOf mid) rs).2) := by
    rw [lay, if_neg (fun hle => (fits_iff r).mp hle hroll), hroom]
  have hview : mid.med.seg.view = update l.med.seg.view pba
      (splice segHdrLen (recBytes crc r) (emptySegment crc gen l.segPba)) := by
    rw [hst.seg_eq, hop.pba_eq, hop.bump_eq, hseg, update_self, update_idem]
  have hne : l.segPba ≠ pba := by
    intro he
    by_cases h0 : l.segPba = 0
    · exact hop.pba_ne (he ▸ h0)
    · exact hop.pba_new (he ▸ ha.taken h0)
  have hsegFresh : l.segPba ∉ fresh := by
    intro hf
    obtain ⟨hf0, hfnew⟩ := h.fresh_ne _ hf
    rw [htaken] at hfnew
    exact hfnew (mem_cons_of_mem _ (ha.taken hf0))
  have hram (key : List Byte) : answer opn.ram key = answer l.ram key := by rw [answer, hop.ram_eq, answer]
  refine ⟨h.quiet, ?_, ?_, ?_, ?_, ?_, ?_, ?_⟩
  · have hgrown := h.grown
    have himage := h.active_eq
    rw [htotal, hmid] at hgrown
    rw [hmid, hbump, hview, update_self, ← length_recBytes crc r,
      splice_splice _ _ (by rw [length_emptySegment]; decide), splice_emptySegment,
      ← flatMap_cons] at himage
    rw [hlay]
    exact ⟨hop.pba_ne, hop.pba_lt, hne, ha.pba_lt, ⟨gen, _, himage⟩, hgrown⟩
  · refine forall_mem_cons.mpr ⟨⟨hop.pba_ne, hop.pba_new⟩, fun f hf => ?_⟩
    obtain ⟨hf0, hfnew⟩ := h.fresh_ne f hf
    rw [htaken] at hfnew
    exact ⟨hf0, fun hmem => hfnew (mem_cons_of_mem _ hmem)⟩
  · rw [hlay, h.other_eq _ (hmid ▸ hne) hsegFresh, hview, update_of_ne hne]
    exact (splice_nil _ _).symm
  · intro p hp hf
    obtain ⟨hpba, hfresh⟩ := not_or.mp (fun hm => hf (mem_cons.mpr hm))
    rw [h.other_eq p (hmid ▸ hpba) hfresh, hview, update_of_ne hpba]
  · rw [h.rt_eq, hst.rt_eq, hop.rt_eq, getLast?_cons, Option.getD_some]
  · exact forall_mem_cons.mpr ⟨hkind, h.kinds⟩
  · intro key
    rw [h.ram_eq, hst.ram_eq, hram, ← Option.or_assoc, ← effect_append, singleton_append]

theorem appends_ran {calls : List (Option Nat × Rec)} (hq : Quiet l) (ha : Active l)
    (h : appends crc l calls = some l') : ∃ fresh, Ran crc l l' (calls.map Prod.snd) fresh := by
  induction calls generalizing l with
  | nil =>
    cases h
    exact ⟨[], hq, trivial, by simp, (splice_nil _ _).symm, fun _ _ _ => rfl, rfl, by simp, fun _ => rfl⟩
  | cons call calls ih =>
    obtain ⟨alloc, r⟩ := call
    rw [appends] at h
    split at h
    · next ev mid heq =>
      obtain ⟨hkind, -, ⟨hfit, hst⟩ | ⟨hroll, pba, opn, hop, hst⟩⟩ := append_fenced crc hq heq
      · obtain ⟨fresh, hran⟩ := ih hst.quiet (Stored.active crc hst ha hfit) h
        exact ⟨fresh, Ran.stored crc ha hfit hkind hst hran⟩
      · have hfit : ¬ rollsOver opn r := by
          have hsize := (append_fenced crc hq heq).2.1
          rw [rollsOver, hop.pba_eq, hop.bump_eq]
          exact not_or.mpr ⟨hop.pba_ne, by simp only [segHdrLen, segBytes, segBlocks, blockSize] at *; omega⟩
        obtain ⟨fresh, hran⟩ := ih hst.quiet (Stored.active crc hst (Opened.active crc hop) hfit) h
        exact ⟨pba :: fresh, Ran.opened crc ha hroll hkind hop hst hran⟩
    · cases h

theorem appends_single (h : (append crc (fenced alloc) l r).2.2 = true) :
    appends crc l [(alloc, r)] = some (append crc (fenced alloc) l r).2.1 := by
  rw [appends]
  generalize append crc (fenced alloc) l r = res at h
  obtain ⟨ev, l', ok⟩ := res
  obtain rfl : ok = true := h
  rfl

end InvariantFs.DeltaSession
