import InvariantFs.FoldMerge

namespace InvariantFs.FoldCrash

open ByteCodec CachedStore BtreePage Btree Fallible CrashTrace BtreeShape DeltaLog BaseRoot BaseCrash
open List

variable (crc : List Byte → UInt32)

def Safe (want : Key → Option (Option Val)) (s : Fs) : Prop :=
  ∀ l k, overlayGet crc (recover crc l s) k = want k

/-- Two volumes agree on the blocks `ps`, and have the same bytes in the blocks `qs`. -/
structure Alike (ps qs : List UInt64) (v v' : Vol) : Prop where
  agree : Agree ps v v'
  same : ∀ p ∈ qs, v'.dev.view p = v.dev.view p

/-- A descriptor and a log that give the wanted lookups on every volume like `v`. -/
def Good (ps qs : List UInt64) (v : Vol) (want : Key → Option (Option Val)) (rt : Rt)
    (seg : Nat → List Byte) : Prop :=
  ∀ v', Alike ps qs v v' → ∀ k,
    overlaid (answer (replayed crc v.total seg rt.deltaPba) k) (baseGet crc v' rt k) = want k

/-- A power cut does not touch the blocks `ps` and writes nothing to `qs`, and whatever it leaves of the
descriptor and of the log is good. -/
structure Steady (ps qs : List UInt64) (v : Vol) (good : Rt → (Nat → List Byte) → Prop) (s : Fs) : Prop where
  firm : ∀ p ∈ ps, Firm s p
  still : ∀ p ∈ qs, ∀ q ∈ s.vol.dev.pending, q.cell ≠ p
  alike : Alike ps qs v s.vol
  good : ∀ a b, good ((s.med.rt.tear a).view ()) (s.med.seg.tear b).view

variable {crc} {ps qs : List UInt64} {v : Vol} {want : Key → Option (Option Val)}
variable {good : Rt → (Nat → List Byte) → Prop}

theorem alike_trans {u w : Vol} (h : Alike ps qs u v) (h' : Alike ps qs v w) : Alike ps qs u w :=
  ⟨agree_trans h.agree h'.agree, fun p hp => (h'.same p hp).trans (h.same p hp)⟩

variable {s : Fs}

theorem alike_recover (hfirm : ∀ p ∈ ps, Firm s p) (hstill : ∀ p ∈ qs, ∀ q ∈ s.vol.dev.pending, q.cell ≠ p)
    (l : Loss) : Alike ps qs s.vol (recover crc l s).vol := by
  refine ⟨firm_recover hfirm l, fun p hp => ?_⟩
  exact (congrFun (congrArg Store.view (dev_recover l s)) p).trans (dev_torn (hstill p hp) l.dev)

theorem steady_safe (h : Steady ps qs v (Good crc ps qs v want) s) : Safe crc want s := by
  intro l k
  rw [overlay_recover, h.alike.agree.total]
  exact h.good l.rt l.seg _ (alike_trans h.alike (alike_recover h.firm h.still l)) k

theorem steady_frame (h : Steady ps [] v good s) {v' : Vol} (hf : Frame s.vol v') :
    Steady ps [] v good { s with vol := v' } :=
  ⟨fun p hp => firm_frame (h.firm p hp) hf, by simp,
    alike_trans h.alike ⟨agree_frame hf fun p hp => (h.firm p hp).set, by simp⟩, h.good⟩

section

variable (h : Steady ps qs v good s)

include h

theorem steady_flush : Steady ps qs v good (bitmapFlush s) := by
  have hsame : (bitmapFlush s).vol.total = s.vol.total ∧ (bitmapFlush s).vol.bit = s.vol.bit ∧
      (bitmapFlush s).vol.dev = s.vol.dev ∧ (bitmapFlush s).med = s.med := by
    unfold bitmapFlush
    split_ifs <;> exact ⟨rfl, rfl, rfl, rfl⟩
  obtain ⟨h1, h2, h3, h4⟩ := hsame
  refine ⟨fun p hp => firm_flush (h.firm p hp), ?_, alike_trans h.alike ⟨⟨h1, fun p _ => by rw [h2],
    fun p _ => by rw [h3]⟩, fun p _ => by rw [h3]⟩, ?_⟩
  · rw [h3]
    exact h.still
  · rw [h4]
    exact h.good

theorem steady_free {p : UInt64} (hp : p ∉ ps) : Steady ps qs v good (mbufFree s p) := by
  have hne : ∀ q ∈ ps, q ≠ p := fun q hq he => hp (he ▸ hq)
  have hfirm : ∀ q ∈ ps, Firm (mbufFree s p) q := fun q hq => firm_free (h.firm q hq) (hne q hq)
  have hsame : (mbufFree s p).vol.total = s.vol.total ∧ (mbufFree s p).vol.dev = s.vol.dev ∧
      (mbufFree s p).med = s.med := by
    unfold mbufFree
    split_ifs
    · exact ⟨rfl, rfl, rfl⟩
    · exact ⟨total_bmDirty _ _, dev_bmDirty _ _, rfl⟩
  obtain ⟨h1, h2, h3⟩ := hsame
  refine ⟨hfirm, ?_, alike_trans h.alike ⟨⟨h1, fun q hq => ?_, fun q _ => by rw [h2]⟩, fun q _ => by rw [h2]⟩, ?_⟩
  · rw [h2]
    exact h.still
  · rw [(hfirm q hq).set, (h.firm q hq).set]
  · rw [h3]
    exact h.good

theorem steady_freeAll {bs : List UInt64} (hb : ∀ p ∈ bs, p ∉ ps) : Steady ps qs v good (bs.foldl mbufFree s) := by
  induction bs generalizing s with
  | nil => exact h
  | cons b bs ih =>
    exact ih (steady_free h (hb b mem_cons_self)) fun p hp => hb p (mem_cons_of_mem _ hp)

theorem steady_fence : Steady ps qs v good s.fence := by
  refine ⟨fun p hp => firm_fence (h.firm p hp), by simp [Fs.fence],
    alike_trans h.alike ⟨⟨rfl, fun _ _ => rfl, fun _ _ => rfl⟩, fun _ _ => rfl⟩, fun a b => ?_⟩
  have hrt : s.fence.med.rt.tear a = s.med.rt.tear (replicate s.med.rt.pending.length true) := by
    rw [tear_idle rfl, tear_all]
    rfl
  have hseg : s.fence.med.seg.tear b = s.med.seg.tear (replicate s.med.seg.pending.length true) := by
    rw [tear_idle rfl, tear_all]
    rfl
  rw [hrt, hseg]
  exact h.good _ _

theorem steady_tear (l : Loss) : Steady ps qs v good (s.tear l) := by
  refine ⟨fun p hp => firm_tear (h.firm p hp) l, by simp [Fs.tear], alike_trans h.alike ⟨⟨rfl, fun _ _ => rfl,
    fun p hp => firm_dev_torn (h.firm p hp) l.dev⟩, fun p hp => dev_torn (h.still p hp) l.dev⟩, fun a b => ?_⟩
  have hrt : (s.tear l).med.rt.tear a = s.med.rt.tear l.rt := tear_idle rfl a
  have hseg : (s.tear l).med.seg.tear b = s.med.seg.tear l.seg := tear_idle rfl b
  rw [hrt, hseg]
  exact h.good _ _

theorem steady_store (hg : ∀ b, good s.rt (s.med.seg.tear b).view) : Steady ps qs v good (rtWrite s) := by
  refine ⟨fun p hp => ⟨(h.firm p hp).set, (h.firm p hp).home, (h.firm p hp).kept, (h.firm p hp).still⟩,
    h.still, h.alike, fun a b => ?_⟩
  change good (((s.med.rt.write () fun _ => s.rt).tear a).view ()) _
  rw [tear_write]
  split_ifs
  · rw [view_fence, view_write_self]
    exact hg b
  · exact h.good a b

end

section

variable {S P : Fs → Prop}

theorem triple_barrier (a : Answer) (h : ∀ s, P s → S s) :
    Triple S P (barrier a) (fun _ t => ∃ s, P s ∧ a = .ok ∧ t = s.fence) (fun t => ∃ s l, P s ∧ t = s.tear l) := by
  cases a with
  | ok =>
    exact triple_bind (M := fun _ => P) (triple_mark h fun _ hs => hs)
      fun _ => triple_change fun s hs => ⟨s, hs, rfl, rfl⟩
  | refused l =>
    refine triple_bind (M := fun _ => P) (triple_mark h fun _ hs => hs) fun _ => ?_
    refine triple_bind (M := fun _ t => ∃ s, P s ∧ t = s.tear l)
      (triple_change fun s hs => ⟨s, hs, rfl⟩) fun _ => ?_
    intro r hr
    obtain ⟨s, hs, ht⟩ := hr
    exact ⟨fun _ ht => .inl ht, fun _ ha => absurd ha (by simp), fun _ => ⟨s, l, hs, ht⟩⟩

theorem triple_flush (ok : Bool) : Triple S P (flush ok) (fun _ t => ∃ s, P s ∧ t = bitmapFlush s) P :=
  triple_bind (M := fun _ => P) (triple_look (fun _ _ hs _ => hs) fun _ hs _ => hs)
    fun _ => triple_change fun s hs => ⟨s, hs, rfl⟩

structure At (rt : Rt) (seg : Nat → List Byte) (s : Fs) : Prop where
  rt : s.rt = rt
  seg : s.med.seg = ⟨seg, []⟩

variable {rt : Rt} {seg : Nat → List Byte}

theorem at_fence (h : At rt seg s) : At rt seg s.fence := ⟨h.rt, (congrArg Store.fence h.seg).trans rfl⟩

theorem at_tear (h : At rt seg s) (l : Loss) : At rt seg (s.tear l) :=
  ⟨h.rt, (congrArg (fun m => m.tear l.seg) h.seg).trans (tear_idle rfl _)⟩

def Calm (ps qs : List UInt64) (v : Vol) (good : Rt → (Nat → List Byte) → Prop) (rt : Rt)
    (seg : Nat → List Byte) (s : Fs) : Prop := Steady ps qs v good s ∧ At rt seg s

theorem calm_store (hgood : good rt seg) (h : Calm ps qs v good rt seg s) : Calm ps qs v good rt seg (rtWrite s) := by
  refine ⟨steady_store h.1 fun b => ?_, h.2.rt, h.2.seg⟩
  rw [h.2.rt, h.2.seg, tear_idle rfl]
  exact hgood

theorem triple_fence (a : Answer) (hsafe : ∀ s, Steady ps qs v good s → S s) :
    Triple S (Calm ps qs v good rt seg) (barrier a)
      (fun _ t => Calm ps qs v good rt seg t ∧ a = .ok ∧ t.med.rt.pending = []) (Calm ps qs v good rt seg) := by
  refine triple_mono (triple_barrier a fun s hs => hsafe s hs.1) (fun _ hs => hs) ?_ ?_
  · rintro _ _ ⟨s, hs, rfl, rfl⟩
    exact ⟨⟨steady_fence hs.1, at_fence hs.2⟩, rfl, rfl⟩
  · rintro _ ⟨s, l, hs, rfl⟩
    exact ⟨steady_tear hs.1 l, at_tear hs.2 l⟩

theorem triple_rt30Store (ok : Bool) (mirror : Answer) (hsafe : ∀ s, Steady ps qs v good s → S s)
    (hgood : good rt seg) :
    Triple S (Calm ps qs v good rt seg) (rt30Store ok mirror) (fun _ => Calm ps qs v good rt seg)
      (Calm ps qs v good rt seg) := by
  refine triple_bind (M := fun _ => Calm ps qs v good rt seg) (triple_demand (fun _ hs _ => hs) fun _ hs => hs)
    fun _ => ?_
  refine triple_bind (M := fun _ => Calm ps qs v good rt seg)
    (triple_change fun s hs => calm_store hgood hs) fun _ => ?_
  refine triple_bind (M := fun _ => Calm ps qs v good rt seg)
    (triple_look (fun _ _ hs _ => hs) fun _ hs _ => hs) fun s => ?_
  split_ifs
  · exact triple_ignore (triple_fence mirror hsafe) (fun _ hs => hs.1) fun _ hs => hs
  · exact triple_pure fun _ hs => hs

theorem triple_commit (ok : Bool) (mirror final : Answer) (hsafe : ∀ s, Steady ps qs v good s → S s)
    (hgood : good rt seg) : Triple S (Calm ps qs v good rt seg) (rtCommit ok mirror final)
      (fun _ t => Calm ps qs v good rt seg t ∧ final = .ok ∧ t.med.rt.pending = []) (Calm ps qs v good rt seg) :=
  triple_bind (triple_rt30Store ok mirror hsafe hgood) fun _ => triple_fence final hsafe

end

theorem grows_barrier (a : Answer) : Keeps Grows (barrier a) := by
  cases a with
  | ok => exact grows_bind grows_mark fun _ => grows_change _
  | refused l => exact grows_bind grows_mark fun _ => grows_bind (grows_change _) fun _ _ _ ht => ht

end InvariantFs.FoldCrash
