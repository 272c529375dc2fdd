import InvariantFs.DeltaFence

namespace InvariantFs.DeltaHistory

open ByteCodec CachedStore DeltaRecord DeltaSegment DeltaIndex DeltaLog DeltaReplay DeltaFence

inductive Call where
  | append (env : Env) (r : Rec)
  | drain (env : Env)

def Ledger.all (g : Ledger) : List Rec := g.safe ++ g.staged

variable (crc : List Byte → UInt32)

def call (l : Log) : Call → List Event × Log × Bool
  | .append env r => append crc env l r
  | .drain env => drain crc env l

/-- What a call tells its caller: a success adds the record of the call, a failure adds nothing and at
most reports the staged records lost. -/
def Reports (g g' : Ledger) : Call → Bool → Prop
  | .append _ r, true => Ledger.all g' = Ledger.all g ++ [r]
  | .drain _, true => Ledger.all g' = Ledger.all g
  | _, false => Ledger.all g' = Ledger.all g ∨ Ledger.all g' = g.safe

/-- Along a sequence of calls, every barrier that succeeds leaves a medium whose mount answers from the
records of the appends that returned success and were not reported lost. -/
def Honest : Ledger → Log → List Call → Prop
  | _, _, [] => True
  | g, l, c :: cs =>
    Exact crc l.total g (call crc l c).1 ∧ Reports g (g.after (call crc l c).1) c (call crc l c).2.2 ∧
      Honest (g.after (call crc l c).1) (call crc l c).2.1 cs

/-- Every rollover along the calls finds no doomed record without its pad, no failing anchor barrier
and a chain that a mount can walk. -/
def Careful : Log → List Call → Prop
  | _, [] => True
  | l, c :: cs =>
    (∀ env r, c = .append env r → rollsOver l r → RollsClean env l) ∧ Careful (call crc l c).2.1 cs

/-- A log with nothing staged or buffered, whose chain ends in zeros after its last record. -/
structure Settled (l : Log) (segs : List (Nat × List Rec)) : Prop where
  chain : Linked crc l.total l.med.seg.durable l.segPba segs
  taken : ∀ p ∈ segs.map Prod.fst, p ∈ l.taken
  segments_eq : l.segments = segs.length
  segments_lt : l.segments < deltaMaxSegments
  descriptor : (l.med.rt.durable ()).deltaPba = l.segPba
  rt_pending : l.med.rt.pending = []
  seg_pending : l.med.seg.pending = []
  staged_eq : l.ram.staged = []
  doomed_eq : l.ram.doomed = 0
  pending_eq : l.ram.pending = 0
  tail : ∀ seg ∈ segs.head?, (l.med.seg.durable seg.1).length = segBytes ∧
    l.bump = segHdrLen + (seg.2.flatMap (recBytes crc)).length

variable {l : Log}

theorem settled_inv {segs : List (Nat × List Rec)} (h : Settled crc l segs) : Inv crc l ⟨logRecords segs, []⟩ := by
  cases segs with
  | nil =>
    exact .inl
      { pba_eq := h.chain, segments_eq := h.segments_eq, rt_pending := h.rt_pending,
        seg_pending := h.seg_pending, rt_names := .inl h.descriptor, staged_eq := h.staged_eq,
        doomed_eq := h.doomed_eq, pending_eq := h.pending_eq, ledger_eq := rfl }
  | cons seg older =>
    obtain ⟨hpba, h0, hlt, hnew, q, prev, n, himg, hold⟩ := h.chain
    obtain ⟨hlen, hbump⟩ := h.tail seg rfl
    have hview : l.med.seg.view = l.med.seg.durable := by rw [Store.view, h.seg_pending]; rfl
    have hfb : (fencedBytes crc q prev seg.2).length = l.bump := by
      rw [fencedBytes, List.length_append, length_hdrEncode, hbump]
    rw [himg] at hlen
    simp only [List.length_append, length_hdrEncode, List.length_replicate] at hlen
    have hn : n = segBytes - l.bump := by omega
    have himg' : l.med.seg.durable l.segPba =
        fencedBytes crc q prev seg.2 ++ List.replicate (segBytes - l.bump) 0 := by
      rw [hpba, himg, hn, fencedBytes, List.append_assoc]
    refine .inr ⟨older, q, prev, seg.2,
      { chain := hold, pba_pos := hpba ▸ h0, pba_lt := hpba ▸ hlt, pba_new := hpba ▸ hnew,
        pba_taken := h.taken _ (by simp [hpba]), older_taken := fun p hp => h.taken p (by simp [hp]),
        segments_eq := h.segments_eq, segments_lt := h.segments_lt, rt_pending := h.rt_pending,
        rt_names := .inl h.descriptor, doomed_le := by simp [h.doomed_eq],
        rewriting := by simp [h.doomed_eq], contig := by simp [h.staged_eq, Contig],
        live := by simp [h.staged_eq], bump_eq := by simp [h.staged_eq, span, hfb],
        bump_le := by omega, within := by simp [h.seg_pending],
        durable_image := ⟨[], by simp [h.staged_eq, span], by simpa using himg'⟩,
        view_image := ⟨[], by simp [h.staged_eq, span], by simpa [hview] using himg'⟩,
        safe_eq := by rw [hpba], staged_kind := by simp }⟩

theorem after_append (g : Ledger) (es fs : List Event) : g.after (es ++ fs) = (g.after es).after fs :=
  List.foldl_append

theorem rollover_reports (env : Env) (l : Log) (g : Ledger) :
    ((rollover crc env l).2.2 = true → g.after (rollover crc env l).1 = ⟨Ledger.all g, []⟩) ∧
    ((rollover crc env l).2.2 = false → Ledger.all (g.after (rollover crc env l).1) = Ledger.all g ∨
        Ledger.all (g.after (rollover crc env l).1) = g.safe) := by
  rcases newSegment_cases crc env l with hn | ⟨pba, -, -, -, ⟨a, b, hn⟩ | hn⟩
  · simp [rollover, hn, Ledger.after]
  · simp [rollover, hn, Ledger.after, Ledger.step, Ledger.all]
  · cases hp : env.publish <;> cases ha : env.anchor <;> cases hl : l.anchor <;>
      simp [rollover, hn, hp, withSegment, rt30Store, ha, hl, Ledger.after, Ledger.step, Ledger.all]

theorem stageRecord_reports (env : Env) (l : Log) (r : Rec) (g : Ledger) :
    Reports g (g.after (stageRecord crc env l r).1) (.append env r) (stageRecord crc env l r).2.2 := by
  by_cases hg : groupFull l (l.ram.keep r.key r.val (r.kind = .delete) l.segPba l.bump r.size) = true
  · cases hcl : env.close <;>
      simp [stageRecord, hg, hcl, Reports, Ledger.after, Ledger.step, Ledger.all]
  · simp [stageRecord, hg, Reports, Ledger.after, Ledger.step, Ledger.all]

theorem append_reports (env : Env) (l : Log) (r : Rec) (g : Ledger) :
    Reports g (g.after (append crc env l r).1) (.append env r) (append crc env l r).2.2 := by
  obtain ⟨htrue, hfalse⟩ := rollover_reports crc env l g
  unfold append
  split
  · exact .inl rfl
  · split
    · split
      · next ev l' heq =>
        rw [heq] at hfalse
        exact hfalse rfl
      · next ev l' heq =>
        rw [heq] at htrue
        have hst := stageRecord_reports crc env l' r (g.after ev)
        simp only [htrue rfl] at hst
        simp only [after_append, htrue rfl]
        cases hok : (stageRecord crc env l' r).2.2 with
        | true => simpa [hok, Reports, Ledger.all] using hst
        | false =>
          rw [hok] at hst
          exact .inl (hst.elim (fun h => by simpa [Ledger.all] using h) id)
    · exact stageRecord_reports crc env l r g

theorem call_reports (l : Log) (c : Call) (g : Ledger) :
    Reports g (g.after (call crc l c).1) c (call crc l c).2.2 := by
  cases c with
  | append env r => exact append_reports crc env l r g
  | drain env =>
    show Reports g (g.after (drain crc env l).1) _ (drain crc env l).2.2
    unfold drain
    split
    · exact rfl
    · cases env.close <;> simp [Reports, Ledger.after, Ledger.step, Ledger.all]

theorem call_step {g : Ledger} (h : Inv crc l g) {c : Call}
    (hc : ∀ env r, c = .append env r → rollsOver l r → RollsClean env l) : Exact crc l.total g (call crc l c).1 ∧
      Inv crc (call crc l c).2.1 (g.after (call crc l c).1) ∧ (call crc l c).2.1.total = l.total := by
  cases c with
  | append env r => exact append_step crc h r (hc env r rfl)
  | drain env => exact drain_step crc h

theorem honest_of_inv {g : Ledger} (h : Inv crc l g) (cs : List Call)
    (hc : Careful crc l cs) : Honest crc g l cs := by
  induction cs generalizing l g with
  | nil => trivial
  | cons c cs ih =>
    obtain ⟨hfirst, hrest⟩ := hc
    obtain ⟨hexact, hinv, -⟩ := call_step crc h hfirst
    exact ⟨hexact, call_reports crc l c g, ih hinv hrest⟩

/-- Careful sequences of appends and drains are honest. -/
theorem careful_honest {l : Log} {segs : List (Nat × List Rec)} (h : Settled crc l segs)
    (cs : List Call) (hc : Careful crc l cs) : Honest crc ⟨logRecords segs, []⟩ l cs :=
  honest_of_inv crc (settled_inv crc h) cs hc

def blank : Rt := ⟨(0, 0), 0, 0⟩

def freshLog : Log :=
  { total := 4096, total_lt := page_lt, med := ⟨⟨fun _ => blank, []⟩, ⟨fun _ => [], []⟩⟩, rt := blank
    anchor := false, taken := [], segPba := 0, bump := 0, segGen := 0, segments := 0, groupMax := 64
    groupBytes := 262144, ram := Ram.empty }

def granting (pba : Nat) : Env := ⟨some pba, .ok, .ok, .ok, .ok⟩

def tearing : Env := ⟨none, .ok, .ok, .ok, .refused [] [true]⟩

def smallRec : Rec := ⟨.put, [1], [2], by decide, by decide, by decide, by decide⟩

theorem length_zeros {n : Nat} (h : n < 2 ^ 16) : (List.replicate n (0 : Byte)).length < 2 ^ 16 := by
  rwa [List.length_replicate]

def zeroRec (k v : Nat) (hk : 0 < k ∧ k < 2 ^ 16) (hv : v < 2 ^ 16) : Rec :=
  ⟨.put, List.replicate k 0, List.replicate v 0, by simp [List.replicate_eq_nil_iff]; omega,
    length_zeros hk.2, length_zeros hv, by simp⟩

theorem size_zeroRec (k v : Nat) (hk : 0 < k ∧ k < 2 ^ 16) (hv : v < 2 ^ 16) :
    (zeroRec k v hk hv).size = recHdrLen + k + v := by
  simp [Rec.size, zeroRec]

def largeRec : Rec := zeroRec 65535 65480 (by decide) (by decide)

theorem fresh_settled : Settled crc freshLog [] :=
  { chain := rfl, taken := by simp, segments_eq := rfl, segments_lt := by decide, descriptor := rfl,
    rt_pending := rfl, seg_pending := rfl, staged_eq := rfl, doomed_eq := rfl, pending_eq := rfl,
    tail := by simp }

theorem careful_honest_fresh : Settled crc32c freshLog [] ∧
      Honest crc32c ⟨[], []⟩ freshLog [.append (granting 100) smallRec, .drain tearing] :=
  ⟨fresh_settled crc32c, careful_honest crc32c (fresh_settled crc32c) _ ⟨fun env r he _ => by
      obtain ⟨rfl, -⟩ := Call.append.inj he
      exact ⟨rfl, fun _ => rfl, by decide⟩,
    fun _ _ he => by simp at he, trivial⟩⟩

/-- The log after one staged record whose closing barrier failed with the record on the medium. -/
def tornLog : Log := (call crc (call crc freshLog (.append (granting 100) smallRec)).2.1 (.drain tearing)).2.1

theorem tornLog_ledger : (Ledger.after ⟨[], []⟩ (call crc freshLog (.append (granting 100) smallRec)).1).after
      (call crc (call crc freshLog (.append (granting 100) smallRec)).2.1 (.drain tearing)).1 = ⟨[], []⟩ := rfl

theorem rollover_events {env : Env} {l' : Log} {ev : List Event} {pba : Nat}
    (h : newSegment crc env l = (ev, l', some pba)) : ∃ es, (rollover crc env l).1 = ev ++ es := by
  rw [rollover, h]
  cases env.publish <;> simp only [List.append_assoc] <;> exact ⟨_, rfl⟩

variable {r : Rec}

theorem append_events {env : Env} (hkind : r.kind ≠ .pad) (hfits : r.size ≤ segBytes - segHdrLen)
    (hroll : rollsOver l r) : ∃ es, (append crc env l r).1 = (rollover crc env l).1 ++ es := by
  rw [append, if_neg (not_or.mpr ⟨hkind, Nat.not_lt.mpr hfits⟩), if_pos hroll]
  split
  · next ev l' heq => exact ⟨[], by rw [heq, List.append_nil]⟩
  · next ev l' heq => exact ⟨_, by rw [heq]⟩

theorem tornLog_total : (tornLog crc).total = 4096 := rfl

theorem tornLog_head : ((withSegment crc (tornLog crc) 200).med.fence.rt.view ()).deltaPba = 100 := rfl

theorem tornLog_append (hkind : r.kind ≠ .pad) (hlo : segBytes < 56 + r.size)
    (hhi : r.size ≤ segBytes - segHdrLen) : ∃ es, (call crc (tornLog crc) (.append (granting 200) r)).1 =
      .fenced (withSegment crc (tornLog crc) 200).med.fence :: es := by
  have hn : newSegment crc (granting 200) (tornLog crc) = ([.fenced (withSegment crc (tornLog crc) 200).med.fence],
        { withSegment crc (tornLog crc) 200 with
          med := (withSegment crc (tornLog crc) 200).med.fence }, some 200) := rfl
  obtain ⟨es, hes⟩ := append_events crc hkind hhi (.inr hlo : rollsOver (tornLog crc) r)
  obtain ⟨es', hes'⟩ := rollover_events crc hn
  exact ⟨es' ++ es, hes.trans (by rw [hes']; rfl)⟩

theorem tornLog_image : (withSegment crc (tornLog crc) 200).med.seg.view 100 =
    fencedBytes crc 1 0 [smallRec] ++ List.replicate (segBytes - segHdrLen - 12) 0 := by
  have hz : (List.replicate (segBytes - segHdrLen) 0 : List Byte) =
      List.replicate 12 0 ++ List.replicate (segBytes - segHdrLen - 12) 0 := by
    rw [List.replicate_append_replicate]
    rfl
  have hsp := splice_middle (hdrEncode crc 1 0) (List.replicate 12 0)
    (List.replicate (segBytes - segHdrLen - 12) 0) (recBytes crc smallRec)
    (length_hdrEncode crc 1 0).symm rfl
  show splice segHdrLen (recBytes crc smallRec) (emptySegment crc 1 0) = _
  rw [emptySegment, hz, ← List.append_assoc, hsp]
  simp [fencedBytes]

theorem rollover_not_honest (hkind : r.kind ≠ .pad) (hlo : segBytes < 56 + r.size)
    (hhi : r.size ≤ segBytes - segHdrLen) : ¬ Honest crc ⟨[], []⟩ freshLog
      [.append (granting 100) smallRec, .drain tearing, .append (granting 200) r] := by
  rintro ⟨-, -, -, -, hexact, -⟩
  obtain ⟨es, hes⟩ := tornLog_append crc hkind hlo hhi
  rw [tornLog_ledger] at hexact
  change Exact crc (tornLog crc).total _ (call crc (tornLog crc) (.append (granting 200) r)).1 at hexact
  rw [hes, tornLog_total] at hexact
  have hlink : Linked crc 4096 (withSegment crc (tornLog crc) 200).med.fence.seg.view
      ((withSegment crc (tornLog crc) 200).med.fence.rt.view ()).deltaPba [(100, [smallRec])] := by
    refine ⟨tornLog_head crc, by decide, by decide, by simp, 1, 0, segBytes - segHdrLen - 12, ?_, rfl⟩
    rw [← List.append_assoc, Medium.fence, view_fence]
    exact tornLog_image crc
  have hmount := answer_mount crc (by decide) hlink (by decide) [1]
  exact absurd (hmount.symm.trans (hexact.1 [1])) (by decide)

theorem torn_not_honest : Settled crc32c freshLog [] ∧ ¬ Honest crc32c ⟨[], []⟩ freshLog
      [.append (granting 100) smallRec, .drain tearing, .append (granting 200) largeRec] :=
  ⟨fresh_settled crc32c, rollover_not_honest crc32c (by decide) (by rw [largeRec, size_zeroRec]; decide)
    (by rw [largeRec, size_zeroRec]; decide)⟩

end InvariantFs.DeltaHistory
