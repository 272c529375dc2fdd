import InvariantFs.DeltaReplay

namespace InvariantFs.DeltaFence

open ByteCodec CachedStore DeltaRecord DeltaSegment DeltaIndex DeltaLog DeltaReplay List Prod

/-- What the callers of the log may rely on: records released as durable, and records whose append
returned success while a later fence can still report them lost. -/
structure Ledger where
  safe : List Rec
  staged : List Rec

def Ledger.step (g : Ledger) : Event → Ledger
  | .staged r => ⟨g.safe, g.staged ++ [r]⟩
  | .fenced _ => g
  | .closed => ⟨g.safe ++ g.staged, []⟩
  | .lost => ⟨g.safe, []⟩

variable (crc : List Byte → UInt32)

/-- At every barrier that succeeds, a mount of the medium answers every key from the ledger. -/
def Exact (total : Nat) : Ledger → List Event → Prop
  | _, [] => True
  | g, .fenced m :: es =>
    (∀ key, answer (mountRam crc total m) key = effect (g.safe ++ g.staged) key) ∧ Exact total g es
  | g, e :: es => Exact total (g.step e) es

def Ledger.after (g : Ledger) (es : List Event) : Ledger := es.foldl Ledger.step g

abbrev StagedRec := Staged (List Byte) (List Byte)

def span (es : List StagedRec) : Nat := (es.map Staged.len).sum

def Contig (seg : Nat) : Nat → List StagedRec → Prop
  | _, [] => True
  | off, e :: es => e.seg = seg ∧ e.off = off ∧ recHdrLen < e.len ∧ Contig seg (off + e.len) es

def Within (seg lo hi : Nat) (p : Patch Nat (List Byte)) : Prop :=
  p.cell = seg ∧ ∃ off data, p.edit = splice off data ∧ lo ≤ off ∧ off + data.length ≤ hi

def fencedBytes (q prev : Nat) (rs : List Rec) : List Byte :=
  hdrEncode crc q prev ++ rs.flatMap (recBytes crc)

/-- The descriptor names the chain's head, or an empty segment in front of it that a refused publish
left behind. -/
def Names (l : Log) (segs : List (Nat × List Rec)) (d : Nat) : Prop :=
  d = l.segPba ∨ d ≠ 0 ∧ d < l.total ∧ d ∈ l.taken ∧ d ∉ segs.map fst ∧
    ∃ q, l.med.seg.durable d = emptySegment crc q l.segPba

/-- The log with an open segment: `older` are the sealed ones, `rs` the fenced records of the open one. The
staged records follow, first the doomed ones, whose bytes on the medium are unknown. -/
structure Open (l : Log) (g : Ledger) (older : List (Nat × List Rec)) (q prev : Nat) (rs : List Rec) : Prop where
  chain : Linked crc l.total l.med.seg.durable prev older
  pba_pos : l.segPba ≠ 0
  pba_lt : l.segPba < l.total
  pba_new : l.segPba ∉ older.map fst
  pba_taken : l.segPba ∈ l.taken
  older_taken : ∀ p ∈ older.map fst, p ∈ l.taken
  segments_eq : l.segments = older.length + 1
  segments_lt : l.segments < deltaMaxSegments
  rt_pending : l.med.rt.pending = []
  rt_names : Names crc l ((l.segPba, rs) :: older) (l.med.rt.durable ()).deltaPba
  doomed_le : l.ram.doomed ≤ l.ram.staged.length
  rewriting : 0 < l.ram.doomed → l.ram.rewriteNeeded = true
  contig : Contig l.segPba (fencedBytes crc q prev rs).length l.ram.staged
  live : Forall₂ (fun e r => stagedBytes crc e = recBytes crc r ∧ e.len = r.size)
    (l.ram.staged.drop l.ram.doomed) g.staged
  bump_eq : l.bump = (fencedBytes crc q prev rs).length + span l.ram.staged
  bump_le : l.bump ≤ segBytes
  within : ∀ p ∈ l.med.seg.pending,
    Within l.segPba (fencedBytes crc q prev rs).length l.bump p
  durable_image : ∃ mid, mid.length = span l.ram.staged ∧ l.med.seg.durable l.segPba =
    fencedBytes crc q prev rs ++ mid ++ replicate (segBytes - l.bump) 0
  view_image : ∃ dead, dead.length = span (l.ram.staged.take l.ram.doomed) ∧
    l.med.seg.view l.segPba = fencedBytes crc q prev rs ++
      (dead ++ g.staged.flatMap (recBytes crc)) ++ replicate (segBytes - l.bump) 0
  safe_eq : logRecords ((l.segPba, rs) :: older) = g.safe
  staged_kind : ∀ r ∈ g.staged, r.kind ≠ .pad

structure Fresh (l : Log) (g : Ledger) : Prop where
  pba_eq : l.segPba = 0
  segments_eq : l.segments = 0
  rt_pending : l.med.rt.pending = []
  seg_pending : l.med.seg.pending = []
  rt_names : Names crc l [] (l.med.rt.durable ()).deltaPba
  staged_eq : l.ram.staged = []
  doomed_eq : l.ram.doomed = 0
  pending_eq : l.ram.pending = 0
  ledger_eq : g = ⟨[], []⟩

def Inv (l : Log) (g : Ledger) : Prop :=
  Fresh crc l g ∨ ∃ older q prev rs, Open crc l g older q prev rs

theorem span_append (es fs : List StagedRec) : span (es ++ fs) = span es + span fs := by
  simp [span]

theorem span_split (es : List StagedRec) (n : Nat) : span es = span (es.take n) + span (es.drop n) := by
  rw [← span_append, take_append_drop]

theorem contig_append (seg off : Nat) (es fs : List StagedRec) :
    Contig seg off (es ++ fs) ↔ Contig seg off es ∧ Contig seg (off + span es) fs := by
  induction es generalizing off with
  | nil => simp [Contig, span]
  | cons e es ih => simp [Contig, ih, span, and_assoc, Nat.add_assoc]

variable {seg : Nat} {p : Patch Nat (List Byte)}

theorem within_mono {lo hi lo' hi' : Nat}
    (h : Within seg lo hi p) (hl : lo' ≤ lo) (hh : hi ≤ hi') : Within seg lo' hi' p := by
  obtain ⟨hc, off, data, he, h1, h2⟩ := h
  exact ⟨hc, off, data, he, by omega, by omega⟩

theorem within_keeps {pre post : List Byte} {n : Nat} (h : Within seg pre.length (pre.length + n) p) (v : List Byte)
    (hv : ∃ mid, mid.length = n ∧ v = pre ++ mid ++ post) :
    ∃ mid, mid.length = n ∧ p.edit v = pre ++ mid ++ post := by
  obtain ⟨-, off, data, he, h1, h2⟩ := h
  obtain ⟨mid, hmid, rfl⟩ := hv
  obtain ⟨mid', hlen, heq⟩ := splice_inside pre mid post data h1 (by omega)
  exact ⟨mid', hlen.trans hmid, by rw [he, heq]⟩

theorem foldl_splice (f : StagedRec → List Byte) (seg : Nat) (es : List StagedRec) (off : Nat)
    (hc : Contig seg off es) (hf : ∀ e ∈ es, (f e).length = e.len) (s : Store Nat (List Byte))
    (pre mid post : List Byte) (hpre : pre.length = off) (hmid : mid.length = span es)
    (hv : s.view seg = pre ++ mid ++ post) : let s' := es.foldl (fun s e => s.write e.seg (splice e.off (f e))) s
    s'.view seg = pre ++ es.flatMap f ++ post ∧ (∀ c, c ≠ seg → s'.view c = s.view c) ∧ s'.durable = s.durable ∧
      ∀ p ∈ s'.pending, p ∈ s.pending ∨ Within seg off (off + span es) p := by
  induction es generalizing off s pre mid with
  | nil =>
    have hm : mid = [] := length_eq_zero_iff.mp (by simpa [span] using hmid)
    subst hm
    exact ⟨by simpa using hv, fun _ _ => rfl, rfl, fun p hp => .inl hp⟩
  | cons e es ih =>
    obtain ⟨hseg, hoff, hlen, hrest⟩ := hc
    have hfe : (f e).length = e.len := hf e (by simp)
    have hsum : mid.length = e.len + span es := by simpa [span] using hmid
    let s1 := s.write e.seg (splice e.off (f e))
    have hm : mid = mid.take e.len ++ mid.drop e.len := (take_append_drop _ _).symm
    have hv1 : s1.view seg = (pre ++ f e) ++ mid.drop e.len ++ post := by
      have hsp := splice_middle pre (mid.take e.len) (mid.drop e.len ++ post) (f e)
        (hoff.trans hpre.symm) (by rw [hfe, length_take]; omega)
      have hsplit : pre ++ mid ++ post = pre ++ mid.take e.len ++ (mid.drop e.len ++ post) := by
        conv_lhs => rw [hm]
        simp only [append_assoc]
      show (s.write e.seg (splice e.off (f e))).view seg = _
      rw [hseg, view_write_self, hv, hsplit, hsp]
      simp only [append_assoc]
    obtain ⟨h1, h2, h3, h4⟩ := ih (off + e.len) hrest (fun e' he' => hf e' (by simp [he'])) s1
      (pre ++ f e) (mid.drop e.len) (by simp [hpre, hfe]) (by rw [length_drop]; omega) hv1
    refine ⟨?_, ?_, h3, ?_⟩
    · simpa [append_assoc] using h1
    · intro c hcne
      rw [← view_write_ne s (hseg.symm ▸ hcne) (splice e.off (f e))]
      exact h2 c hcne
    · intro p hp
      rcases h4 p hp with hp | hp
      · rcases mem_append.mp hp with hp | hp
        · exact .inl hp
        · rw [mem_singleton.mp hp]
          exact .inr ⟨hseg, e.off, f e, rfl, by omega, by omega⟩
      · exact .inr (within_mono hp (by omega) (by omega))

variable {l : Log} {g : Ledger} {older : List (Nat × List Rec)} {q prev : Nat} {rs : List Rec}

theorem view_other (h : Open crc l g older q prev rs) {c : Nat} (hc : c ≠ l.segPba) :
    l.med.seg.view c = l.med.seg.durable c :=
  settle_other c _ _ fun p hp he => hc (he ▸ (h.within p hp).1)

variable {m : Nat → List Byte} {segs : List (Nat × List Rec)} {d total : Nat}

theorem linked_front {head : Nat} (h : Linked crc total m head segs)
    (hd : d = head ∨ d ≠ 0 ∧ d < total ∧ d ∉ segs.map fst ∧ ∃ q, m d = emptySegment crc q head) :
    ∃ segs', Linked crc total m d segs' ∧ logRecords segs' = logRecords segs ∧ segs'.length ≤ segs.length + 1 := by
  rcases hd with rfl | ⟨h0, hlt, hnot, q, himg⟩
  · exact ⟨segs, h, rfl, by omega⟩
  · refine ⟨(d, []) :: segs, ⟨rfl, h0, hlt, hnot, q, head, segBytes - segHdrLen, ?_, h⟩, ?_, by simp⟩
    · simpa [emptySegment] using himg
    · simp [logRecords_cons]

theorem exact_fenced (ht : total < 2 ^ 64) {m : Medium} (h : Linked crc total m.seg.view (m.rt.view ()).deltaPba segs)
    (hlen : segs.length ≤ deltaMaxSegments) (hrec : logRecords segs = g.safe ++ g.staged) (key : List Byte) :
    answer (mountRam crc total m.fence) key = effect (g.safe ++ g.staged) key := by
  rw [← hrec]
  exact answer_mount crc ht (m := m.fence) h hlen key

variable {es : List StagedRec}

theorem contig_len {off : Nat} (h : Contig seg off es) : ∀ e ∈ es, recHdrLen < e.len := by
  induction es generalizing off with
  | nil => simp
  | cons e es ih =>
    obtain ⟨-, -, hlen, hrest⟩ := h
    intro e' he'
    rcases mem_cons.mp he' with rfl | he'
    · exact hlen
    · exact ih hrest e' he'

theorem flatMap_live (h : Forall₂ (fun e r => stagedBytes crc e = recBytes crc r ∧ e.len = r.size) es rs) :
    es.flatMap (stagedBytes crc) = rs.flatMap (recBytes crc) ∧
      (rs.flatMap (recBytes crc)).length = span es ∧ ∀ e ∈ es, (stagedBytes crc e).length = e.len := by
  induction h with
  | nil => simp [span]
  | @cons e r es rs her _ ih =>
    obtain ⟨h1, h2, h3⟩ := ih
    refine ⟨by simp [her.1, h1], ?_, ?_⟩
    · simp [h2, span, her.2]
    · intro e' he'
      rcases mem_cons.mp he' with rfl | he'
      · rw [her.1, length_recBytes, her.2]
      · exact h3 e' he'

theorem foldl_padSpan (es : List StagedRec) (s : Store Nat (List Byte)) (h : ∀ e ∈ es, recHdrLen < e.len) :
    es.foldl (fun s e => padSpan crc e s) s =
      es.foldl (fun s e => s.write e.seg (splice e.off ((padBuild e.len).flatMap (recBytes crc)))) s := by
  induction es generalizing s with
  | nil => rfl
  | cons e es ih =>
    have he : ¬ e.len < recHdrLen + 1 := Nat.not_lt.mpr (h e (by simp))
    rw [foldl_cons, foldl_cons, ih _ fun e' he' => h e' (by simp [he']), padSpan, if_neg he]

theorem fencedBytes_append (q prev : Nat) (rs ss : List Rec) :
    fencedBytes crc q prev (rs ++ ss) = fencedBytes crc q prev rs ++ ss.flatMap (recBytes crc) := by
  simp [fencedBytes]

theorem healed_open (h : Open crc l g older q prev rs) : ∃ pads : List Rec, (∀ r ∈ pads, r.kind = .pad) ∧
      (healed crc l.ram l.med).seg.view l.segPba =
        fencedBytes crc q prev (rs ++ (pads ++ g.staged)) ++ replicate (segBytes - l.bump) 0 ∧
      (∀ c, c ≠ l.segPba → (healed crc l.ram l.med).seg.view c = l.med.seg.durable c) ∧
      (healed crc l.ram l.med).seg.durable = l.med.seg.durable ∧ (healed crc l.ram l.med).rt = l.med.rt ∧
      (∀ p ∈ (healed crc l.ram l.med).seg.pending, Within l.segPba (fencedBytes crc q prev rs).length l.bump p) ∧
      (fencedBytes crc q prev (rs ++ (pads ++ g.staged))).length = l.bump := by
  obtain ⟨dead, hdead, hview⟩ := h.view_image
  obtain ⟨hbytes, hlive, hlens⟩ := flatMap_live crc h.live
  have hspan := span_split l.ram.staged l.ram.doomed
  by_cases hneed : l.ram.rewriteNeeded ∧ l.ram.staged ≠ []
  · -- pads over the doomed prefix first, then the live records over their own spans
    have hcontig := h.contig
    rw [← take_append_drop l.ram.doomed l.ram.staged, contig_append] at hcontig
    obtain ⟨hc1, hc2⟩ := hcontig
    obtain ⟨hv1, ho1, hd1, hp1⟩ := foldl_splice (fun e => (padBuild e.len).flatMap (recBytes crc)) l.segPba _ _ hc1
      (fun e he => padBuild_bytes crc e.len (contig_len hc1 e he)) l.med.seg
      (fencedBytes crc q prev rs) dead
      (g.staged.flatMap (recBytes crc) ++ replicate (segBytes - l.bump) 0) rfl hdead
      (by rw [hview]; simp only [append_assoc])
    rw [← foldl_padSpan crc _ _ (contig_len hc1)] at hv1 ho1 hd1 hp1
    have hpadlen : ((l.ram.staged.take l.ram.doomed).flatMap
        fun e => (padBuild e.len).flatMap (recBytes crc)).length = span (l.ram.staged.take l.ram.doomed) := by
      rw [length_flatMap, span]
      congr 1
      exact map_congr_left fun e he => padBuild_bytes crc e.len (contig_len hc1 e he)
    obtain ⟨hv2, ho2, hd2, hp2⟩ := foldl_splice (stagedBytes crc) l.segPba _ _ hc2 hlens
      ((l.ram.staged.take l.ram.doomed).foldl (fun s e => padSpan crc e s) l.med.seg)
      (fencedBytes crc q prev rs ++ (l.ram.staged.take l.ram.doomed).flatMap
        fun e => (padBuild e.len).flatMap (recBytes crc))
      (g.staged.flatMap (recBytes crc)) (replicate (segBytes - l.bump) 0)
      (by rw [length_append, hpadlen]) hlive (by rw [hv1]; simp only [append_assoc])
    rw [show healed crc l.ram l.med = stagedHeal crc l.ram l.med from if_pos hneed]
    refine ⟨(l.ram.staged.take l.ram.doomed).flatMap fun e => padBuild e.len, ?_, ?_, ?_, hd2.trans hd1, rfl, ?_, ?_⟩
    · intro r hr
      obtain ⟨e, -, hr⟩ := mem_flatMap.mp hr
      exact padBuild_kind e.len r hr
    · refine hv2.trans ?_
      rw [hbytes, fencedBytes_append, flatMap_append, flatMap_assoc]
      simp only [append_assoc]
    · intro c hc
      rw [← view_other crc h hc, ← ho1 c hc]
      exact ho2 c hc
    · intro p hp
      rcases hp2 p hp with hp | hp
      · rcases hp1 p hp with hp | hp
        · exact h.within p hp
        · exact within_mono hp le_rfl (by rw [h.bump_eq]; omega)
      · exact within_mono hp (by omega) (by rw [h.bump_eq]; omega)
    · rw [fencedBytes_append, flatMap_append, flatMap_assoc, length_append,
        length_append, hpadlen, hlive, h.bump_eq, hspan]
  · -- nothing was doomed, so every staged record is live and its write is intact
    have hz : l.ram.doomed = 0 := by
      by_contra hpos
      refine hneed ⟨h.rewriting (by omega), fun he => hpos ?_⟩
      have hle := h.doomed_le
      simpa [he] using hle
    rw [show healed crc l.ram l.med = l.med from if_neg hneed]
    have hnil : dead = [] := length_eq_zero_iff.mp (by rw [hdead, hz]; rfl)
    refine ⟨[], by simp, ?_, fun c hc => view_other crc h hc, rfl, rfl, h.within, ?_⟩
    · rw [hview, hnil, fencedBytes_append]
      simp only [nil_append]
    · rw [nil_append, fencedBytes_append, length_append, hlive, h.bump_eq, hz]
      simp [span]

theorem exact_append (total : Nat) (g : Ledger) (es fs : List Event) :
    Exact crc total g (es ++ fs) ↔ Exact crc total g es ∧ Exact crc total (g.after es) fs := by
  induction es generalizing g with
  | nil => simp [Exact, Ledger.after]
  | cons e es ih => cases e <;> simp [Exact, Ledger.after, Ledger.step, ih, and_assoc]

variable {r : Rec}

theorem stagedBytes_of_rec (hr : r.kind ≠ .pad) (seg off : Nat) (prev : Option (Slot (List Byte))) :
    stagedBytes crc ⟨r.key, r.val, r.kind = .delete, seg, off, r.size, prev⟩ = recBytes crc r := by
  have hk : (if (decide (r.kind = .delete)) then Kind.delete else Kind.put) = r.kind := by
    cases h : r.kind <;> simp_all
  simp only [stagedBytes, hk, make?_self]

theorem zeros_split {a b : Nat} (h : a + b ≤ segBytes) : (replicate (segBytes - a) 0 : List Byte) =
      replicate b 0 ++ replicate (segBytes - (a + b)) 0 := by
  rw [replicate_append_replicate]
  congr 1
  omega

theorem open_stage (h : Open crc l g older q prev rs) (hr : r.kind ≠ .pad) (hfit : l.bump + r.size ≤ segBytes) :
    Open crc
      { l with
        med := { l.med with seg := l.med.seg.write l.segPba (splice l.bump (recBytes crc r)) }
        ram := l.ram.keep r.key r.val (r.kind = .delete) l.segPba l.bump r.size
        bump := l.bump + r.size }
      (g.step (.staged r)) older q prev rs := by
  obtain ⟨mid, hmid, hdur⟩ := h.durable_image
  obtain ⟨dead, hdead, hview⟩ := h.view_image
  obtain ⟨-, hlive, -⟩ := flatMap_live crc h.live
  have hspan := span_split l.ram.staged l.ram.doomed
  have hsize := size_pos r
  have hz := zeros_split (a := l.bump) hfit
  refine
    { h with
      doomed_le := ?_, contig := ?_, live := ?_, bump_eq := ?_, bump_le := hfit, within := ?_
      durable_image := ?_, view_image := ?_, staged_kind := ?_ }
  · simpa [Ram.keep] using h.doomed_le.trans (Nat.le_succ _)
  · simp only [Ram.keep, contig_append]
    exact ⟨h.contig, rfl, h.bump_eq, hsize, trivial⟩
  · simp only [Ram.keep, drop_append_of_le_length h.doomed_le, Ledger.step]
    exact rel_append h.live (.cons ⟨stagedBytes_of_rec crc hr l.segPba l.bump _, rfl⟩ .nil)
  · simp only [Ram.keep, span_append, h.bump_eq]
    simp [span, Nat.add_assoc]
  · intro p hp
    rcases mem_append.mp hp with hp | hp
    · exact within_mono (h.within p hp) le_rfl (Nat.le_add_right _ _)
    · rw [mem_singleton.mp hp]
      exact ⟨rfl, l.bump, recBytes crc r, rfl, by rw [h.bump_eq]; omega, by simp⟩
  · refine ⟨mid ++ replicate r.size 0, ?_, ?_⟩
    · simp only [Ram.keep, span_append, length_append, hmid]
      simp [span]
    · simp only [durable_write, hdur, hz, append_assoc]
  · refine ⟨dead, ?_, ?_⟩
    · simp only [Ram.keep, take_append_of_le_length h.doomed_le, hdead]
    · have hpre : l.bump = (fencedBytes crc q prev rs ++ (dead ++ g.staged.flatMap (recBytes crc))).length := by
        rw [h.bump_eq, length_append, length_append, hdead, hlive, hspan]
      rw [view_write_self, hview, hz, ← append_assoc _ (replicate r.size 0),
        splice_middle _ _ _ _ hpre (by simp)]
      simp [Ledger.step]
  · intro r' hr'
    rcases mem_append.mp hr' with hr' | hr'
    · exact h.staged_kind r' hr'
    · rw [mem_singleton.mp hr']
      exact hr

theorem filter_notPad (h : ∀ r ∈ rs, r.kind ≠ .pad) : rs.filter notPad = rs :=
  filter_eq_self.mpr fun r hr => by simpa [notPad] using h r hr

theorem filter_pads (h : ∀ r ∈ rs, r.kind = .pad) : rs.filter notPad = [] :=
  filter_eq_nil_iff.mpr fun r hr => by simp [notPad, h r hr]

theorem open_linked (h : Open crc l g older q prev rs) {rs' : List Rec}
    {n : Nat} (himg : m l.segPba = fencedBytes crc q prev rs' ++ replicate n 0)
    (hm : ∀ c, c ≠ l.segPba → m c = l.med.seg.durable c) :
    Linked crc l.total m l.segPba ((l.segPba, rs') :: older) := by
  refine ⟨rfl, h.pba_pos, h.pba_lt, h.pba_new, q, prev, n, ?_, ?_⟩
  · simpa [fencedBytes] using himg
  · exact linked_congr crc h.chain fun p hp => hm p fun he => h.pba_new (he ▸ hp)

variable {segs' : List (Nat × List Rec)}

theorem names_linked (hn : Names crc l segs d) (hl : Linked crc l.total m l.segPba segs')
    (hfst : segs'.map fst = segs.map fst)
    (hm : ∀ c, c ≠ l.segPba → m c = l.med.seg.durable c) (hhead : ∀ c, c ∉ segs.map fst →
      c ≠ 0 → c ≠ l.segPba) : ∃ segs'', Linked crc l.total m d segs'' ∧ logRecords segs'' = logRecords segs' ∧
      segs''.length ≤ segs'.length + 1 := by
  refine linked_front crc hl ?_
  rcases hn with rfl | ⟨h0, hlt, -, hnot, q, himg⟩
  · exact .inl rfl
  · exact .inr ⟨h0, hlt, by rwa [hfst], q, by rw [hm d (hhead d hnot h0), himg]⟩

theorem open_fence (h : Open crc l g older q prev rs) (ram : Recent) (hst : ram.staged = [])
    (hdo : ram.doomed = 0) : (∀ key, answer (mountRam crc l.total (healed crc l.ram l.med).fence) key =
      effect (g.safe ++ g.staged) key) ∧ ∃ rs', Open crc { l with med := (healed crc l.ram l.med).fence, ram := ram }
      ⟨g.safe ++ g.staged, []⟩ older q prev rs' := by
  obtain ⟨pads, hpads, hview, hother, hdur, hrt, -, hlen⟩ := healed_open crc h
  have hlink := open_linked crc h hview hother
  have hrec : logRecords ((l.segPba, rs ++ (pads ++ g.staged)) :: older) = g.safe ++ g.staged := by
    rw [← h.safe_eq, logRecords_cons, logRecords_cons, filter_append, filter_append,
      filter_pads hpads, filter_notPad h.staged_kind, nil_append, append_assoc]
  have hd : ((healed crc l.ram l.med).rt.view ()).deltaPba = (l.med.rt.durable ()).deltaPba := by
    rw [hrt, Store.view, h.rt_pending]; rfl
  obtain ⟨segs, hsegs, hsrec, hslen⟩ := names_linked crc (hd ▸ h.rt_names) hlink rfl hother
    (fun c hc _ => fun he => hc (by simp [he]))
  refine ⟨exact_fenced crc l.total_lt hsegs ?_ (hsrec.trans hrec), rs ++ (pads ++ g.staged), ?_⟩
  · have h1 := h.segments_eq
    have h2 := h.segments_lt
    simp only [length_cons] at hslen
    omega
  · refine
      { h with
        chain := ?_, rt_pending := rfl, rt_names := ?_, doomed_le := by simp [hdo], rewriting := by simp [hdo]
        contig := by simp [hst, Contig], live := by simp [hst], bump_eq := by simp [hst, span, hlen]
        within := by simp [Medium.fence], durable_image := ⟨[], by simp [hst, span], ?_⟩
        view_image := ⟨[], by simp [hst, span], ?_⟩, safe_eq := hrec, staged_kind := by simp }
    · exact linked_congr crc h.chain fun p hp => hother p fun he => h.pba_new (he ▸ hp)
    · show Names crc _ _ ((healed crc l.ram l.med).rt.view ()).deltaPba
      rw [hd]
      rcases h.rt_names with hn | ⟨h0, hlt, htk, hnot, q', himg⟩
      · exact .inl hn
      · exact .inr ⟨h0, hlt, htk, hnot, q', by
          show (healed crc l.ram l.med).seg.view _ = _
          rw [hother _ (fun he => hnot (by simp [he])), himg]⟩
    · simpa [Medium.fence] using hview
    · simpa [Medium.fence] using hview

variable {a b : List Bool} {taken : List Nat}

theorem open_lost (h : Open crc l g older q prev rs) {m : Medium} (hdur : m.seg.durable = l.med.seg.durable)
    (hp : ∀ p ∈ m.seg.pending, Within l.segPba (fencedBytes crc q prev rs).length l.bump p ∨ p.cell ∉ l.taken)
    (hd : Names crc l ((l.segPba, rs) :: older) ((m.rt.tear a).durable ()).deltaPba)
    (htk : ∀ x ∈ l.taken, x ∈ taken) (segGen : Nat) (rt : Rt) : Open crc
      { l with taken := taken, segGen := segGen, rt := rt, med := m.tear a b, ram := l.ram.doom }
      (g.step .lost) older q prev rs := by
  -- a cell the allocator handed out earlier is hit by the writes into the open segment only
  have hkeep : ∀ c ∈ l.taken, c ≠ l.segPba → (m.seg.tear b).durable c = l.med.seg.durable c := by
    intro c hc hne
    rw [← hdur]
    refine tear_keeps (fun v => v = m.seg.durable c) m.seg b c rfl fun p hpm hcell => ?_
    rcases hp p hpm with hw | hw
    · exact absurd (hcell.symm.trans hw.1) hne
    · exact absurd (hcell ▸ hc) hw
  obtain ⟨mid, hmid, himg⟩ := h.durable_image
  have hbump := h.bump_eq
  have hopen : ∃ mid, mid.length = span l.ram.staged ∧ (m.seg.tear b).durable l.segPba =
      fencedBytes crc q prev rs ++ mid ++ replicate (segBytes - l.bump) 0 := by
    refine tear_keeps (fun v => ∃ mid, mid.length = span l.ram.staged ∧ v =
      fencedBytes crc q prev rs ++ mid ++ replicate (segBytes - l.bump) 0) m.seg b l.segPba
      ⟨mid, hmid, by rw [hdur, himg]⟩ fun p hpm hcell v hv => ?_
    rcases hp p hpm with hw | hw
    · exact within_keeps (hbump ▸ hw) v hv
    · exact absurd (hcell ▸ h.pba_taken) hw
  refine
    { h with
      chain := ?_, pba_taken := htk _ h.pba_taken, older_taken := fun p hm => htk _ (h.older_taken p hm)
      rt_pending := rfl, rt_names := ?_, doomed_le := le_rfl, rewriting := fun _ => rfl
      live := by simp [Ram.doom, Ledger.step], within := by simp [Medium.tear], durable_image := hopen
      view_image := ?_, staged_kind := by simp [Ledger.step] }
  · exact linked_congr crc h.chain fun p hm =>
      hkeep p (h.older_taken p hm) fun he => h.pba_new (he ▸ hm)
  · rcases hd with hn | ⟨h0, hlt, hin, hnot, q', hq⟩
    · exact .inl hn
    · exact .inr ⟨h0, hlt, htk _ hin, hnot, q', (hkeep _ hin fun he => hnot (by simp [he])).trans hq⟩
  · obtain ⟨mid, hlen, heq⟩ := hopen
    exact ⟨mid, by simp [Ram.doom, hlen], by simpa [Medium.tear, Ledger.step] using heq⟩

/-- The log right after a segment header was fenced: every chain segment is sealed, the new empty
segment lies in front of it, and nothing is buffered. -/
structure Sealed (l : Log) (g : Ledger) (segs : List (Nat × List Rec)) (pba : Nat) : Prop where
  chain : Linked crc l.total l.med.seg.durable l.segPba segs
  taken : ∀ p ∈ segs.map fst, p ∈ l.taken
  segments_eq : l.segments = segs.length
  segments_le : l.segments + 2 ≤ deltaMaxSegments
  rt_pending : l.med.rt.pending = []
  seg_pending : l.med.seg.pending = []
  rt_names : Names crc l segs (l.med.rt.durable ()).deltaPba
  records : logRecords segs = g.safe ++ g.staged
  pba_pos : pba ≠ 0
  pba_lt : pba < l.total
  pba_taken : pba ∈ l.taken
  pba_new : pba ∉ segs.map fst
  image : ∃ q, l.med.seg.durable pba = emptySegment crc q l.segPba

variable {pba : Nat}

theorem sealed_names (h : Sealed crc l g segs pba) : Names crc l segs pba :=
  .inr ⟨h.pba_pos, h.pba_lt, h.pba_taken, h.pba_new, h.image⟩

theorem sealed_exact (h : Sealed crc l g segs pba) {m : Medium} (hseg : m.seg.view = l.med.seg.durable)
    (hn : Names crc l segs (m.rt.view ()).deltaPba) (key : List Byte) :
    answer (mountRam crc l.total m.fence) key = effect (g.safe ++ g.staged) key := by
  have hfront : (m.rt.view ()).deltaPba = l.segPba ∨ (m.rt.view ()).deltaPba ≠ 0 ∧
      (m.rt.view ()).deltaPba < l.total ∧ (m.rt.view ()).deltaPba ∉ segs.map fst ∧
      ∃ q, l.med.seg.durable (m.rt.view ()).deltaPba = emptySegment crc q l.segPba := by
    rcases hn with hn | ⟨h0, hlt, -, hnot, hq⟩
    · exact .inl hn
    · exact .inr ⟨h0, hlt, hnot, hq⟩
  obtain ⟨segs', hl, hrec, hlen⟩ := linked_front crc h.chain hfront
  refine exact_fenced crc l.total_lt (hseg ▸ hl) ?_ (hrec.trans h.records) key
  have h1 := h.segments_eq
  have h2 := h.segments_le
  omega

def withSegment (l : Log) (pba : Nat) : Log :=
  { l with
    taken := pba :: l.taken
    segGen := l.segGen + 1
    med := { l.med with
      seg := l.med.seg.write pba fun _ => emptySegment crc (l.segGen + 1) l.segPba } }

abbrev headed (l : Log) (pba : Nat) : Log :=
  { withSegment crc l pba with med := (withSegment crc l pba).med.fence }

theorem newSegment_cases (env : Env) (l : Log) : newSegment crc env l = ([], l, none) ∨
    ∃ pba, pba ≠ 0 ∧ pba < l.total ∧ pba ∉ l.taken ∧ ((∃ a b, newSegment crc env l = ([.lost],
        { withSegment crc l pba with med := (withSegment crc l pba).med.tear a b, ram := l.ram.doom }, none)) ∨
      newSegment crc env l = ([.fenced (withSegment crc l pba).med.fence],
        (headed crc l pba), some pba)) := by
  unfold newSegment
  cases env.alloc with
  | none => exact .inl rfl
  | some pba =>
    by_cases hbad : pba = 0 ∨ l.total ≤ pba ∨ pba ∈ l.taken
    · exact .inl (by simp only [hbad, if_true])
    · refine .inr ⟨pba, fun h => hbad (.inl h), by omega, fun h => hbad (.inr (.inr h)), ?_⟩
      simp only [hbad]
      cases env.header with
      | ok => exact .inr rfl
      | refused a b => exact .inl ⟨a, b, rfl⟩

theorem names_write (hn : Names crc l segs d)
    (hpba : pba ∉ l.taken) {l' : Log} (htotal : l'.total = l.total) (hseg : l'.segPba = l.segPba)
    (htk : ∀ x ∈ l.taken, x ∈ l'.taken) (hd : ∀ c ∈ l.taken, c ∉ segs.map fst → c ≠ pba →
      l'.med.seg.durable c = l.med.seg.durable c) : Names crc l' segs d := by
  rcases hn with hn | ⟨h0, hlt, hin, hnot, q, hq⟩
  · exact .inl (hn.trans hseg.symm)
  · refine .inr ⟨h0, htotal ▸ hlt, htk _ hin, hnot, q, ?_⟩
    rw [hd d hin hnot (fun he => hpba (he ▸ hin)), hq, hseg]

theorem fresh_doom (h : Fresh crc l g) {m : Medium} {segGen : Nat} {rt : Rt}
    (hn : Names crc { l with taken := taken, segGen := segGen, rt := rt, med := m.tear a b } []
      ((m.rt.tear a).durable ()).deltaPba) :
    Fresh crc { l with taken := taken, segGen := segGen, rt := rt, med := m.tear a b, ram := l.ram.doom }
      (g.step .lost) :=
  { h with
    rt_pending := rfl, seg_pending := rfl, rt_names := hn, doomed_eq := by simp [Ram.doom, h.staged_eq]
    pending_eq := by simp [Ram.doom, h.pending_eq], ledger_eq := by rw [h.ledger_eq]; rfl }

theorem fresh_lost (h : Fresh crc l g) (hpba : pba ∉ l.taken) (a b : List Bool) :
    Fresh crc { withSegment crc l pba with
      med := (withSegment crc l pba).med.tear a b, ram := l.ram.doom } (g.step .lost) := by
  refine fresh_doom crc h ?_
  show Names crc _ [] ((l.med.rt.tear a).durable ()).deltaPba
  rw [tear_idle h.rt_pending]
  refine names_write crc h.rt_names hpba rfl rfl (fun x hx => mem_cons_of_mem _ hx) ?_
  intro c hc _ hne
  refine tear_keeps (fun v => v = l.med.seg.durable c) _ b c rfl fun p hp hcell => ?_
  have hpm : p ∈ l.med.seg.pending ++ [⟨pba, fun _ => emptySegment crc (l.segGen + 1) l.segPba⟩] := hp
  rw [h.seg_pending, nil_append, mem_singleton] at hpm
  exact absurd (hcell.symm.trans (by rw [hpm])) hne

theorem open_header_lost (h : Open crc l g older q prev rs) (hpba : pba ∉ l.taken) (a b : List Bool) :
    Open crc { withSegment crc l pba with
      med := (withSegment crc l pba).med.tear a b, ram := l.ram.doom } (g.step .lost)
      older q prev rs := by
  refine open_lost crc h (m := (withSegment crc l pba).med) rfl ?_ ?_ (fun x hx =>
    mem_cons_of_mem _ hx) (l.segGen + 1) l.rt
  · intro p hp
    rcases mem_append.mp hp with hp | hp
    · exact .inl (h.within p hp)
    · rw [mem_singleton.mp hp]
      exact .inr hpba
  · show Names crc l _ ((l.med.rt.tear a).durable ()).deltaPba
    rw [tear_idle h.rt_pending]
    exact h.rt_names

theorem fresh_header (h : Fresh crc l g) (h0 : pba ≠ 0) (hlt : pba < l.total) (hpba : pba ∉ l.taken) :
    Fresh crc (headed crc l pba) g ∧ Sealed crc (headed crc l pba) g [] pba := by
  have hview : ∀ c, c ≠ pba → (withSegment crc l pba).med.seg.view c = l.med.seg.durable c := by
    intro c hc
    show (l.med.seg.write pba _).view c = _
    rw [view_write_ne _ hc, Store.view, h.seg_pending]
    rfl
  have hnames : Names crc (headed crc l pba) []
      ((l.med.rt.fence).durable ()).deltaPba := by
    rw [fence_idle h.rt_pending]
    exact names_write crc h.rt_names hpba rfl rfl (fun x hx => mem_cons_of_mem _ hx) fun c _ _ hne => hview c hne
  refine ⟨⟨h.pba_eq, h.segments_eq, rfl, rfl, hnames, h.staged_eq, h.doomed_eq, h.pending_eq, h.ledger_eq⟩, ?_⟩
  refine
    { chain := h.pba_eq, taken := by simp, segments_eq := h.segments_eq, segments_le := ?_,
      rt_pending := rfl, seg_pending := rfl, rt_names := hnames, records := ?_, pba_pos := h0,
      pba_lt := hlt, pba_taken := mem_cons_self, pba_new := by simp, image := ?_ }
  · show l.segments + 2 ≤ _
    rw [h.segments_eq]
    decide
  · rw [h.ledger_eq]; rfl
  · refine ⟨l.segGen + 1, ?_⟩
    show (l.med.seg.write pba _).view pba = _
    rw [view_write_self]
    rfl

theorem open_header (h : Open crc l g older q prev rs) (hz : l.ram.doomed = 0)
    (hroom : l.segments + 2 ≤ deltaMaxSegments) (h0 : pba ≠ 0) (hlt : pba < l.total) (hpba : pba ∉ l.taken) :
    Open crc (headed crc l pba) g older q prev rs ∧ Sealed crc (headed crc l pba) g
      ((l.segPba, rs ++ g.staged) :: older) pba := by
  have hne : l.segPba ≠ pba := fun he => hpba (he ▸ h.pba_taken)
  have hview : ∀ c, c ≠ pba → (withSegment crc l pba).med.seg.view c = l.med.seg.view c :=
    fun c hc => view_write_ne _ hc _
  have hother : ∀ c, c ≠ pba → c ≠ l.segPba → (withSegment crc l pba).med.seg.view c = l.med.seg.durable c :=
    fun c hc hs => (hview c hc).trans (view_other crc h hs)
  have hold : ∀ c ∈ older.map fst, (withSegment crc l pba).med.seg.view c = l.med.seg.durable c := fun c hc =>
    hother c (fun he => hpba (he ▸ h.older_taken c hc)) fun he => h.pba_new (he ▸ hc)
  obtain ⟨dead, hdead, himg⟩ := h.view_image
  obtain ⟨-, hlive, -⟩ := flatMap_live crc h.live
  have hnil : dead = [] := length_eq_zero_iff.mp (by rw [hdead, hz]; rfl)
  have hopen : (withSegment crc l pba).med.seg.view l.segPba =
      fencedBytes crc q prev (rs ++ g.staged) ++ replicate (segBytes - l.bump) 0 := by
    rw [hview _ hne, himg, hnil, fencedBytes_append, nil_append]
  have hnames : Names crc (headed crc l pba)
      ((l.segPba, rs) :: older) (l.med.rt.fence.durable ()).deltaPba := by
    rw [fence_idle h.rt_pending]
    exact names_write crc h.rt_names hpba rfl rfl (fun x hx => mem_cons_of_mem _ hx)
      fun c _ hc hcp => hother c hcp fun he => hc (by simp [he])
  have hchain : Linked crc l.total (withSegment crc l pba).med.seg.view prev older := linked_congr crc h.chain hold
  refine ⟨?_, ?_⟩
  · refine
      { h with
        chain := hchain, pba_taken := mem_cons_of_mem _ h.pba_taken
        older_taken := fun p hp => mem_cons_of_mem _ (h.older_taken p hp), rt_pending := rfl
        rt_names := hnames, within := by simp [Medium.fence], durable_image := ?_, view_image := ?_ }
    · refine ⟨g.staged.flatMap (recBytes crc), ?_, ?_⟩
      · show _ = span l.ram.staged
        rw [hlive, hz, drop_zero]
      · rw [fencedBytes_append] at hopen
        exact hopen
    · exact ⟨dead, hdead, (hview _ hne).trans himg⟩
  · refine
      { chain := ?_, taken := ?_, segments_eq := h.segments_eq, segments_le := hroom,
        rt_pending := rfl, seg_pending := rfl, rt_names := ?_, records := ?_, pba_pos := h0,
        pba_lt := hlt, pba_taken := mem_cons_self, pba_new := ?_, image := ?_ }
    · rw [fencedBytes] at hopen
      exact ⟨rfl, h.pba_pos, h.pba_lt, h.pba_new, q, prev, segBytes - l.bump, hopen, hchain⟩
    · intro p hp
      rcases mem_cons.mp hp with rfl | hp
      · exact mem_cons_of_mem _ h.pba_taken
      · exact mem_cons_of_mem _ (h.older_taken p hp)
    · exact hnames
    · rw [← h.safe_eq, logRecords_cons, logRecords_cons, filter_append, filter_notPad h.staged_kind, append_assoc]
    · intro hp
      rcases mem_cons.mp hp with he | hp
      · exact hne he.symm
      · exact hpba (h.older_taken pba hp)
    · refine ⟨l.segGen + 1, ?_⟩
      show (l.med.seg.write pba _).view pba = _
      rw [view_write_self]
      rfl

theorem rt30Store_spec (env : Env) (anchor : Bool) (rt : Rt) (med : Medium)
    (hrt : med.rt.pending = []) (hseg : med.seg.pending = []) (hok : anchor = true → env.anchor = .ok) :
    ∃ m : Medium, m.seg.view = med.seg.durable ∧ m.rt.view () = rt ∧ (rt30Store env anchor rt med = ([], m) ∨
        rt30Store env anchor rt med = ([.fenced m.fence], m.fence)) ∧
      (rt30Store env anchor rt med).2.seg.durable = med.seg.durable ∧
      (rt30Store env anchor rt med).2.seg.pending = [] ∧
      ∀ a, ((rt30Store env anchor rt med).2.rt.tear a).durable () = med.rt.durable () ∨
        ((rt30Store env anchor rt med).2.rt.tear a).durable () = rt := by
  have hv : med.seg.view = med.seg.durable := by rw [Store.view, hseg]; rfl
  refine ⟨{ med with rt := med.rt.write () fun _ => rt }, hv, view_write_self _ _ _, ?_⟩
  cases anchor with
  | false =>
    refine ⟨.inl rfl, rfl, hseg, fun a => ?_⟩
    show ((med.rt.write () fun _ => rt).tear a).durable () = _ ∨ _
    refine tear_keeps (fun v => v = med.rt.durable () ∨ v = rt) _ a () (.inl rfl) fun p hp _ _ _ => ?_
    rw [pending_write, hrt, nil_append, mem_singleton] at hp
    exact .inr (by rw [hp])
  | true =>
    simp only [rt30Store, if_true, hok rfl]
    refine ⟨.inr trivial, hv, rfl, fun a => .inr ?_⟩
    cases a <;> exact view_write_self _ _ _

section

variable (h : Sealed crc l g segs pba)

include h

theorem sealed_open (med : Medium) (rt : Rt)
    (hseg : med.seg.view = l.med.seg.durable) (hrt : (med.rt.view ()).deltaPba = pba) :
    ∃ q, Open crc
      { l with
        rt := rt, med := med.fence, ram := l.ram.close
        segments := l.segments + 1, segPba := pba, bump := segHdrLen }
      ⟨g.safe ++ g.staged, []⟩ segs q l.segPba [] := by
  obtain ⟨q, himg⟩ := h.image
  have hbytes : fencedBytes crc q l.segPba [] = hdrEncode crc q l.segPba := by simp [fencedBytes]
  have hopen : med.seg.view pba = fencedBytes crc q l.segPba [] ++ replicate (segBytes - segHdrLen) 0 := by
    rw [hseg, himg, hbytes]
    rfl
  refine ⟨q,
    { chain := ?_, pba_pos := h.pba_pos, pba_lt := h.pba_lt, pba_new := h.pba_new,
      pba_taken := h.pba_taken, older_taken := h.taken, segments_eq := by simp [h.segments_eq],
      segments_lt := ?_, rt_pending := rfl, rt_names := .inl hrt, doomed_le := le_rfl,
      rewriting := by simp [Ram.close], contig := trivial, live := .nil, bump_eq := ?_,
      bump_le := (by decide : segHdrLen ≤ segBytes), within := by simp [Medium.fence],
      durable_image := ⟨[], rfl, ?_⟩,
      view_image := ⟨[], rfl, ?_⟩, safe_eq := ?_, staged_kind := by simp }⟩
  · show Linked crc l.total med.seg.view _ _
    rw [hseg]
    exact h.chain
  · show l.segments + 1 < _
    have := h.segments_le
    omega
  · rw [hbytes]
    rfl
  · simpa [Medium.fence] using hopen
  · simpa [Medium.fence] using hopen
  · rw [logRecords_cons, h.records]
    simp

theorem tear_names (hfst : segs'.map fst = segs.map fst)
    (hd : d = (l.med.rt.durable ()).deltaPba ∨ d = pba) : Names crc l segs' d := by
  have hn : Names crc l segs d := by
    rcases hd with rfl | rfl
    · exact h.rt_names
    · exact sealed_names crc h
  rcases hn with hn | ⟨h0, hlt, htk, hnot, hq⟩
  · exact .inl hn
  · exact .inr ⟨h0, hlt, htk, hfst ▸ hnot, hq⟩

theorem sealed_lost (hi : Fresh crc l g ∧ segs = [] ∨
      ∃ older q prev rs rs', Open crc l g older q prev rs ∧ segs = (l.segPba, rs') :: older)
    {med : Medium} (hdur : med.seg.durable = l.med.seg.durable) (hpend : med.seg.pending = [])
    (a b : List Bool) (hd : ((med.rt.tear a).durable ()).deltaPba = (l.med.rt.durable ()).deltaPba ∨
      ((med.rt.tear a).durable ()).deltaPba = pba) (rt : Rt) :
    Inv crc { l with rt := rt, med := med.tear a b, ram := l.ram.doom } (g.step .lost) := by
  rcases hi with ⟨hf, rfl⟩ | ⟨older, q, prev, rs, rs', ho, rfl⟩
  · refine .inl (fresh_doom crc hf ?_)
    have hsame : (med.seg.tear b).durable = l.med.seg.durable := by rw [tear_idle hpend, hdur]
    rcases tear_names crc h rfl hd with hn | ⟨h0, hlt, htk, hnot, q, hq⟩
    · exact .inl hn
    · exact .inr ⟨h0, hlt, htk, hnot, q, (congrFun hsame _).trans hq⟩
  · exact .inr ⟨older, q, prev, rs, open_lost crc ho hdur (by simp [hpend])
      (tear_names crc h rfl hd) (fun x hx => hx) l.segGen rt⟩

end

/-- What a rollover may rely on: no doomed record is left without its pad, the anchor's own barrier
does not fail, and the chain stays within what a mount walks. -/
def RollsClean (env : Env) (l : Log) : Prop :=
  l.ram.doomed = 0 ∧ (l.anchor = true → env.anchor = .ok) ∧ l.segments + 2 ≤ deltaMaxSegments

variable {env : Env}

theorem rollover_step (h : Inv crc l g) (hc : RollsClean env l) : Exact crc l.total g (rollover crc env l).1 ∧
      Inv crc (rollover crc env l).2.1 (g.after (rollover crc env l).1) ∧ (rollover crc env l).2.1.total = l.total ∧
      ((rollover crc env l).2.2 = true → (rollover crc env l).2.1.bump = segHdrLen ∧
        ∃ older q prev, Open crc (rollover crc env l).2.1 (g.after (rollover crc env l).1) older q prev []) := by
  obtain ⟨hz, hanchor, hroom⟩ := hc
  rcases newSegment_cases crc env l with hn | ⟨pba, h0, hlt, hpba, ⟨a, b, hn⟩ | hn⟩
  · simp only [rollover, hn]
    exact ⟨trivial, h, trivial, by simp⟩
  · simp only [rollover, hn]
    refine ⟨trivial, ?_, rfl, by simp⟩
    rcases h with hf | ⟨older, q, prev, rs, ho⟩
    · exact .inl (fresh_lost crc hf hpba a b)
    · exact .inr ⟨older, q, prev, rs, open_header_lost crc ho hpba a b⟩
  · -- the header is on the medium; what remains is the descriptor
    let l1 : Log := headed crc l pba
    obtain ⟨segs, hs, hi⟩ : ∃ segs, Sealed crc l1 g segs pba ∧ (Fresh crc l1 g ∧ segs = [] ∨
        ∃ older q prev rs rs', Open crc l1 g older q prev rs ∧ segs = (l1.segPba, rs') :: older) := by
      rcases h with hf | ⟨older, q, prev, rs, ho⟩
      · obtain ⟨h1, h2⟩ := fresh_header crc hf h0 hlt hpba
        exact ⟨[], h2, .inl ⟨h1, rfl⟩⟩
      · obtain ⟨h1, h2⟩ := open_header crc ho hz hroom h0 hlt hpba
        exact ⟨_, h2, .inr ⟨older, q, prev, rs, _, h1, rfl⟩⟩
    have hhdr : ∀ key, answer (mountRam crc l.total (withSegment crc l pba).med.fence) key =
        effect (g.safe ++ g.staged) key :=
      sealed_exact crc hs (m := (withSegment crc l pba).med) rfl hs.rt_names
    obtain ⟨m, hmseg, hmrt, hev, hdur, hpend, htear⟩ := rt30Store_spec env l1.anchor
      { l1.rt with deltaPba := pba } l1.med hs.rt_pending hs.seg_pending hanchor
    have hmex : ∀ key, answer (mountRam crc l.total m.fence) key = effect (g.safe ++ g.staged) key :=
      sealed_exact crc hs hmseg (by rw [hmrt]; exact sealed_names crc hs)
    have hd : ∀ a, (((rt30Store env l1.anchor { l1.rt with deltaPba := pba } l1.med).2.rt.tear
        a).durable ()).deltaPba = (l1.med.rt.durable ()).deltaPba ∨
        (((rt30Store env l1.anchor { l1.rt with deltaPba := pba } l1.med).2.rt.tear
        a).durable ()).deltaPba = pba := by
      intro a
      rcases htear a with ht | ht <;> rw [ht]
      · exact .inl rfl
      · exact .inr rfl
    cases hp : env.publish with
    | refused a b =>
      have hlost := sealed_lost crc hs hi hdur hpend a b (hd a)
        { l1.rt with deltaPba := l1.segPba }
      rcases hev with hev | hev <;> simp only [l1] at hev hlost <;>
        simp only [rollover, hn, hp, hev] at hlost ⊢
      · exact ⟨⟨hhdr, trivial⟩, hlost, rfl, by simp⟩
      · exact ⟨⟨hhdr, hmex, trivial⟩, hlost, rfl, by simp⟩
    | ok =>
      rcases hev with hev | hev <;> simp only [l1] at hev <;> simp only [rollover, hn, hp, hev]
      · obtain ⟨q, ho⟩ := sealed_open crc hs m { l1.rt with deltaPba := pba } hmseg
          (by rw [hmrt])
        exact ⟨⟨hhdr, hmex, trivial⟩, .inr ⟨_, _, _, _, ho⟩, rfl, fun _ => ⟨trivial, _, _, _, ho⟩⟩
      · obtain ⟨q, ho⟩ := sealed_open crc hs m.fence { l1.rt with deltaPba := pba }
          hmseg (congrArg Rt.deltaPba hmrt)
        exact ⟨⟨hhdr, hmex, hmex, trivial⟩, .inr ⟨_, _, _, _, ho⟩, rfl, fun _ => ⟨trivial, _, _, _, ho⟩⟩

theorem open_ram (h : Open crc l g older q prev rs) {ram : Recent}
    (hs : ram.staged = l.ram.staged) (hd : ram.doomed = l.ram.doomed)
    (hr : ram.rewriteNeeded = l.ram.rewriteNeeded) : Open crc { l with ram := ram } g older q prev rs :=
  { h with
    doomed_le := by rw [hs, hd]; exact h.doomed_le
    rewriting := by rw [hd, hr]; exact h.rewriting
    contig := by rw [hs]; exact h.contig
    live := by rw [hs, hd]; exact h.live
    bump_eq := by rw [hs]; exact h.bump_eq
    durable_image := by rw [hs]; exact h.durable_image
    view_image := by rw [hs, hd]; exact h.view_image }

theorem open_refused (h : Open crc l g older q prev rs) (a b : List Bool) :
    Open crc { l with med := (healed crc l.ram l.med).tear a b, ram := l.ram.doom } (g.step .lost)
      older q prev rs := by
  obtain ⟨-, -, -, -, hdur, hrt, hwithin, -⟩ := healed_open crc h
  refine open_lost crc h hdur (fun p hp => .inl (hwithin p hp)) ?_ (fun x hx => hx) l.segGen l.rt
  rw [hrt, tear_idle h.rt_pending]
  exact h.rt_names

theorem stageRecord_step (env : Env) (h : Open crc l g older q prev rs)
    (hr : r.kind ≠ .pad) (hfit : l.bump + r.size ≤ segBytes) : Exact crc l.total g (stageRecord crc env l r).1 ∧
      Inv crc (stageRecord crc env l r).2.1 (g.after (stageRecord crc env l r).1) ∧
      (stageRecord crc env l r).2.1.total = l.total := by
  have ho := open_stage crc h hr hfit
  by_cases hg : groupFull l (l.ram.keep r.key r.val (r.kind = .delete) l.segPba l.bump r.size) = true
  · cases hcl : env.close with
    | refused a b =>
      simp only [stageRecord, hg, hcl, if_true]
      exact ⟨trivial, .inr ⟨_, _, _, _, open_refused crc ho a b⟩, trivial⟩
    | ok =>
      simp only [stageRecord, hg, hcl, if_true]
      obtain ⟨hex, rs', hf⟩ := open_fence crc ho
        ((l.ram.keep r.key r.val (r.kind = .delete) l.segPba l.bump r.size).close.put
          r.key r.val (r.kind = .delete) l.segPba l.bump) rfl rfl
      exact ⟨⟨hex, trivial⟩, .inr ⟨_, _, _, _, hf⟩, trivial⟩
  · simp only [stageRecord, hg]
    exact ⟨trivial, .inr ⟨_, _, _, _, open_ram crc ho rfl rfl rfl⟩, rfl⟩

theorem append_step (h : Inv crc l g) (r : Rec) (hc : rollsOver l r → RollsClean env l) :
    Exact crc l.total g (append crc env l r).1 ∧ Inv crc (append crc env l r).2.1 (g.after (append crc env l r).1) ∧
      (append crc env l r).2.1.total = l.total := by
  unfold append
  split
  · exact ⟨trivial, h, rfl⟩
  · next hok =>
    have hkind : r.kind ≠ .pad := fun he => hok (.inl he)
    split
    · next hroll =>
      obtain ⟨hex, hinv, htot, hopen⟩ := rollover_step crc h (hc hroll)
      split
      · next ev l' heq =>
        rw [heq] at hex hinv htot
        exact ⟨hex, hinv, htot⟩
      · next ev l' heq =>
        rw [heq] at hex hinv htot hopen
        obtain ⟨hbump, older, q, prev, ho⟩ := hopen rfl
        have hfit : l'.bump + r.size ≤ segBytes := by
          have hle : segHdrLen ≤ segBytes := by decide
          simp only at hbump
          omega
        obtain ⟨hex', hinv', htot'⟩ := stageRecord_step crc env ho hkind hfit
        simp only at htot hex hex'
        rw [htot] at hex' htot'
        refine ⟨(exact_append crc l.total g ev _).mpr ⟨hex, hex'⟩, ?_, htot'⟩
        simpa only [Ledger.after, foldl_append] using hinv'
    · next hroll =>
      rcases h with hf | ⟨older, q, prev, rs, ho⟩
      · exact absurd (.inl hf.pba_eq) hroll
      · exact stageRecord_step crc env ho hkind (not_lt.mp fun he => hroll (.inr he))

theorem drain_step (h : Inv crc l g) : Exact crc l.total g (drain crc env l).1 ∧
      Inv crc (drain crc env l).2.1 (g.after (drain crc env l).1) ∧ (drain crc env l).2.1.total = l.total := by
  unfold drain
  split
  · next hq =>
    refine ⟨trivial, ?_, rfl⟩
    rcases h with hf | ⟨older, q, prev, rs, ho⟩
    · exact .inl { hf with }
    · have hz : l.ram.doomed = 0 := by
        have hle := ho.doomed_le
        rw [hq.2] at hle
        simpa using hle
      exact .inr ⟨older, q, prev, rs,
        { ho with rewriting := fun hpos => absurd hpos (by simp [hz]) }⟩
  · next hq =>
    rcases h with hf | ⟨older, q, prev, rs, ho⟩
    · exact absurd ⟨hf.pending_eq, hf.staged_eq⟩ hq
    · cases env.close with
      | ok =>
        obtain ⟨hex, rs', hf⟩ := open_fence crc ho l.ram.close rfl rfl
        exact ⟨⟨hex, trivial⟩, .inr ⟨_, _, _, _, hf⟩, rfl⟩
      | refused a b => exact ⟨trivial, .inr ⟨_, _, _, _, open_refused crc ho a b⟩, rfl⟩

end InvariantFs.DeltaFence
