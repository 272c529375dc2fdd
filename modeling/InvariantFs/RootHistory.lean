import InvariantFs.FoldCrash

namespace InvariantFs.RootHistory

open ByteCodec CachedStore BtreePage Btree Fallible CrashTrace BtreeShape BtreeKeeps BtreeMap DeltaLog Prod
open BtreeSplit BtreeRow BtreeSupply BaseRoot BaseCrash Fold FoldMerge FoldCrash List Option

structure Commit where
  flush : Bool
  pages : Answer
  root : Publish

variable (crc : List Byte → UInt32)

/-- `publish`: the pages and the bitmap are durable before the descriptor names the root. -/
def publish (env : Commit) (old root : Ptr) : Act (Run Fs) Ptr := do
  let root ← zoom Fs.vol (fun v s => { s with vol := v }) (rootPage crc old root)
  flush env.flush
  barrier env.pages
  rootPublish crc env.root root.pba root.gen
  pure root

/-- A sequence of `btree_upsert` and `btree_delete`. -/
def edits : List Edit → Ptr → Act Vol Ptr
  | [], root => pure root
  | e :: es, root => do
    let root ← e.call crc root
    edits es root

/-- The root is read, edited and published. The result are the root read and the root published. -/
def round (es : List Edit) (env : Commit) : Act (Run Fs) (Ptr × Ptr) := do
  let old ← look fun s => baseRoot crc s.vol s.rt
  let root ← zoom Fs.vol (fun v s => { s with vol := v }) (edits crc es old)
  let root ← publish crc env old root
  pure (old, root)

structure Fresh (s : Fs) : Prop where
  slots : s.rt.rootSlot = (0, 0)
  home : s.med.rt = ⟨fun _ => s.rt, []⟩

def Outgrows (old root : Ptr) : Prop := old.pba = 0 ∨ old.gen < root.gen ∨ root.pba = old.pba

/-- The volumes a history of publishes leads to, with the root published last. Each root outgrows the one before
it and its page reads, the mirror's barrier is not refused, and a publish that fails does so before it has
changed the descriptor in memory. -/
inductive History (s₀ : Fs) : Fs → Option Ptr → Prop where
  | start : History s₀ s₀ none
  | published {s : Fs} {last : Option Ptr} {es : List Edit} {env : Commit} {r r' : Run Fs} {old root : Ptr} :
      History s₀ s last → r.now = s → runs (round crc es env) r = (some (old, root), r') →
      Outgrows old root → (s.anchor = true → env.root.mirror = .ok) →
      slotPage crc r'.now.vol root.pba ≠ none → History s₀ r'.now (some root)
  | failed {s : Fs} {last : Option Ptr} {es : List Edit} {env : Commit} {r r' : Run Fs} :
      History s₀ s last → r.now = s → runs (round crc es env) r = (none, r') → r'.now.rt = s.rt →
      History s₀ r'.now last

/-- The root is the one `mbuf_root_read` returns, on this mount, and after a remount that finds its
page readable, however the power went. -/
def ReadBack (s : Fs) (root : Ptr) : Prop :=
  rootRead crc s.vol s.rt = some (some root.pba) ∧
    ∀ l, slotPage crc (recover crc l s).vol root.pba ≠ none →
      rootRead crc (recover crc l s).vol (recover crc l s).rt = some (some root.pba)

/-- The blocks `ps` are allocated and no write to them is under way; they read as in `v`. -/
structure Rests (ps : List UInt64) (v : Vol) (s : Fs) : Prop where
  total : s.vol.total = v.total
  set : ∀ p ∈ ps, s.vol.bit p = true
  view : ∀ p ∈ ps, s.vol.dev.view p = v.dev.view p
  still : ∀ p ∈ ps, ∀ q ∈ s.vol.dev.pending, q.cell ≠ p

/-- The root published last lies in the slot the next publish leaves alone, and outranks what the
other slot names. -/
structure Newest (s : Fs) (root : Ptr) : Prop where
  slot : Rt.slot s.rt (s.rt.seq + 1) = root.pba
  page : slotPage crc s.vol root.pba = some (s.vol.dev.view root.pba)
  gen : (pageHdr (s.vol.dev.view root.pba)).gen = root.gen
  spare : Rt.slot s.rt s.rt.seq = 0 ∨ Rt.slot s.rt s.rt.seq = root.pba ∨
    (pageHdr (s.vol.dev.view (Rt.slot s.rt s.rt.seq))).gen < root.gen

def named (rt : Rt) : List UInt64 := [Rt.slot rt rt.seq, Rt.slot rt (rt.seq + 1)].filter (· ≠ 0)

structure Current (s : Fs) (last : Option Ptr) : Prop where
  home : s.med.rt = ⟨fun _ => s.rt, []⟩
  rests : Rests (named s.rt) s.vol s
  fresh : last = none → s.rt.rootSlot = (0, 0)
  newest : ∀ root ∈ last, Newest crc s root

variable {crc}

section

variable {ps : List UInt64} {v : Vol} {s : Fs}

theorem rests_frame (h : Rests ps v s) {v' : Vol} (hf : Frame s.vol v') : Rests ps v { s with vol := v' } := by
  refine ⟨hf.total.trans h.total, fun p hp => hf.bits p (h.set p hp),
    fun p hp => (frame_view hf (h.set p hp)).trans (h.view p hp), fun p hp q hq hc => ?_⟩
  obtain ⟨qs, hqs, hfree⟩ := hf.pending
  rw [hqs] at hq
  obtain hq | hq := mem_append.mp hq
  · exact h.still p hp q hq hc
  · have hb := hfree q hq
    rw [hc, h.set p hp] at hb
    cases hb

theorem flush_frame (s : Fs) : (bitmapFlush s).vol.total = s.vol.total ∧ (bitmapFlush s).vol.bit = s.vol.bit ∧
      (bitmapFlush s).vol.dev = s.vol.dev ∧ (bitmapFlush s).med = s.med ∧ (bitmapFlush s).rt = s.rt ∧
      (bitmapFlush s).anchor = s.anchor ∧ (bitmapFlush s).vol.supply = s.vol.supply := by
  unfold bitmapFlush
  split_ifs <;> exact ⟨rfl, rfl, rfl, rfl, rfl, rfl, rfl⟩

theorem rests_flush (h : Rests ps v s) : Rests ps v (bitmapFlush s) := by
  obtain ⟨h1, h2, h3, -⟩ := flush_frame s
  exact ⟨h1.trans h.total, h2 ▸ h.set, h3 ▸ h.view, h3 ▸ h.still⟩

theorem rests_fence (h : Rests ps v s) : Rests ps v s.fence := ⟨h.total, h.set, h.view, by simp [Fs.fence]⟩

theorem rests_tear (h : Rests ps v s) (l : Loss) : Rests ps v (s.tear l) :=
  ⟨h.total, h.set, fun p hp => (dev_torn (h.still p hp) l.dev).trans (h.view p hp), by simp [Fs.tear]⟩

end

variable {r r' : Run Fs}

theorem barrier_some {a : Answer} (h : runs (barrier a) r = (some (), r')) : a = .ok ∧ r'.now = r.now.fence := by
  cases a with
  | ok =>
    obtain ⟨_, r1, hmark, hchange⟩ := bind_some.mp h
    obtain ⟨-, rfl⟩ := mk.inj hmark
    obtain ⟨-, rfl⟩ := mk.inj hchange
    exact ⟨rfl, rfl⟩
  | refused l =>
    obtain ⟨_, r2, -, h⟩ := bind_some.mp h
    exact absurd (mk.inj h).1 (by simp)

theorem look_some {α : Type} {f : Fs → Option α} {a : α}
    (h : runs (look f) r = (some a, r')) : f r.now = some a ∧ r = r' :=
  mk.inj h

theorem flush_some {ok : Bool} (h : runs (flush ok) r = (some (), r')) : r'.now = bitmapFlush r.now := by
  obtain ⟨_, r1, hlook, hchange⟩ := bind_some.mp h
  obtain ⟨-, rfl⟩ := look_some hlook
  cases hchange
  rfl

theorem commit_some {ok : Bool} {mirror final : Answer}
    (h : runs (rtCommit ok mirror final) r = (some (), r')) (hdev : r.now.vol.dev.pending = []) :
    r'.now.vol = r.now.vol ∧ r'.now.rt = r.now.rt ∧ r'.now.anchor = r.now.anchor ∧
      ((r.now.anchor = true → mirror = .ok) → r'.now.med.rt = ⟨fun _ => r.now.rt, []⟩) := by
  obtain ⟨_, r1, hstore, hfinal⟩ := bind_some.mp h
  obtain ⟨-, hr'⟩ := barrier_some hfinal
  obtain ⟨_, r2, hdemand, hrest⟩ := bind_some.mp hstore
  obtain ⟨-, rfl⟩ := look_some hdemand
  obtain ⟨_, r3, hwrite, hrest⟩ := bind_some.mp hrest
  cases hwrite
  obtain ⟨s, r4, hlook, hmirror⟩ := bind_some.mp hrest
  obtain ⟨hs, rfl⟩ := look_some hlook
  obtain rfl := some.inj hs
  have hdone : (rtWrite r.now).med.rt.fence = ⟨fun _ => r.now.rt, []⟩ := by
    refine congrArg (fun f => (⟨f, []⟩ : Store Unit Rt)) (funext fun u => ?_)
    exact view_write_self r.now.med.rt () fun _ => r.now.rt
  have hvol : ∀ t : Fs, t.vol = r.now.vol → t.fence.vol = r.now.vol := by
    intro t ht
    change { t.vol with dev := t.vol.dev.fence } = _
    rw [ht, fence_idle hdev]
  split_ifs at hmirror with ha
  · obtain ⟨-, rfl⟩ := mk.inj hmirror
    cases mirror with
    | ok =>
      rw [hr']
      have hnow : (runs (barrier .ok) ⟨rtWrite r.now, r.past⟩).2.now = (rtWrite r.now).fence := rfl
      rw [hnow]
      exact ⟨hvol _ (hvol _ rfl), rfl, rfl, fun _ => (congrArg Store.fence hdone).trans rfl⟩
    | refused l =>
      rw [hr']
      have hnow : (runs (barrier (.refused l)) ⟨rtWrite r.now, r.past⟩).2.now = (rtWrite r.now).tear l := rfl
      rw [hnow]
      refine ⟨hvol _ ?_, rfl, rfl, fun hm => absurd (hm ha) (by simp)⟩
      change { r.now.vol with dev := r.now.vol.dev.tear l.dev } = _
      rw [tear_idle hdev]
  · obtain ⟨-, rfl⟩ := mk.inj hmirror
    rw [hr']
    exact ⟨hvol _ rfl, rfl, rfl, fun _ => hdone⟩

theorem edits_keeps (es : List Edit) (root : Ptr) : Keeps Frame (edits crc es root) := by
  induction es generalizing root with
  | nil => exact keeps_pure _
  | cons e es ih =>
    cases e with
    | put k x => exact keeps_seq (upsert_keeps crc _ _ _) fun _ => ih _
    | del k => exact keeps_seq (delete_keeps crc _ _) fun _ => ih _

variable (crc) in
theorem copies_keeps (es : List Edit) (old : Ptr) :
    Keeps Frame (do let root ← edits crc es old; rootPage crc old root) :=
  keeps_seq (edits_keeps es old) fun root => rootPage_keeps old root

variable (crc) in
structure Rounded (s t : Fs) (es : List Edit) (env : Commit) (old root : Ptr) : Prop where
  read : baseRoot crc s.vol s.rt = some old
  valid : (wholePage crc t.vol root.pba).map (fun page => (pageHdr page).gen) = some root.gen
  made : ∃ v, runs (do let root ← edits crc es old; rootPage crc old root) s.vol = (some root, v) ∧
    t.vol.total = v.total ∧ t.vol.bit = v.bit ∧ t.vol.dev = v.dev.fence ∧ t.vol.supply = v.supply
  rt : t.rt = Rt.publish s.rt root.pba
  anchor : t.anchor = s.anchor
  home : (s.anchor = true → env.root.mirror = .ok) → t.med.rt = ⟨fun _ => t.rt, []⟩
  firm : Covered s.vol → ∀ p < t.vol.total, s.vol.bit p = false → t.vol.bit p = true → Firm t p

variable {pba gen : UInt64}

theorem commit_keeps {P : Fs → Prop} (hfence : ∀ s, P s → P s.fence) (htear : ∀ s l, P s → P (s.tear l))
    (hwrite : ∀ s, P s → P (rtWrite s)) (ok : Bool) (mirror final : Answer) :
    Keeps (fun r r' : Run Fs => P r.now → P r'.now) (rtCommit ok mirror final) := by
  have htrans : ∀ r s t : Run Fs, (P r.now → P s.now) → (P s.now → P t.now) → P r.now → P t.now :=
    fun _ _ _ h h' hr => h' (h hr)
  have hbar : ∀ a, Keeps (fun r r' : Run Fs => P r.now → P r'.now) (barrier a) := by
    intro a r
    cases a with
    | ok => exact hfence r.now
    | refused l => exact htear r.now l
  refine keeps_bind htrans (keeps_bind htrans (fun _ => id) fun _ => ?_) fun _ => hbar final
  refine keeps_bind htrans (fun r => hwrite r.now) fun _ => keeps_bind htrans (fun _ => id) fun s => ?_
  split_ifs
  · exact hbar mirror
  · exact fun _ => id

theorem rootPublish_some {env : Publish}
    (h : runs (rootPublish crc env pba gen) r = (some (), r')) (hdev : r.now.vol.dev.pending = []) :
    (wholePage crc r.now.vol pba).map (fun page => (pageHdr page).gen) = some gen ∧
      r'.now.vol = (bitmapFlush r.now).vol ∧ r'.now.rt = Rt.publish r.now.rt pba ∧ r'.now.anchor = r.now.anchor ∧
      ((r.now.anchor = true → env.mirror = .ok) → r'.now.med.rt = ⟨fun _ => r'.now.rt, []⟩) ∧
      ∀ p, Firm r.now p → Firm r'.now p := by
  obtain ⟨_, r1, hlook, k1⟩ := bind_some.mp h
  obtain ⟨hpage, rfl⟩ := look_some hlook
  obtain ⟨_, r2, hflush, k2⟩ := bind_some.mp k1
  have h2 := flush_some hflush
  obtain ⟨_, r3, hswitch, k3⟩ := bind_some.mp k2
  obtain ⟨-, rfl⟩ := mk.inj hswitch
  obtain ⟨-, -, f3, -, f5, f6, -⟩ := flush_frame r.now
  obtain ⟨c1, c2, c3, c4⟩ := commit_some k3 (by
    rw [h2, f3, hdev])
  dsimp only at c1 c2 c3 c4
  refine ⟨?_, ?_, ?_, ?_, fun hm => ?_, fun p hp => ?_⟩
  · rw [ite_none_right_eq_some] at hpage
    exact hpage.1.2
  · exact c1.trans (congrArg Fs.vol h2)
  · exact c2.trans (by rw [h2, f5])
  · exact c3.trans ((congrArg Fs.anchor h2).trans f6)
  · rw [c2]
    refine c4 fun ha => hm ?_
    rw [← f6, ← h2]
    exact ha
  · have hkept := commit_keeps (P := fun s => Firm s p) (fun _ => firm_fence) (fun _ l h => firm_tear h l)
      (fun _ h => ⟨h.set, h.home, h.kept, h.still⟩) env.store env.mirror env.barrier
      ⟨{ r2.now with rt := Rt.publish r2.now.rt pba }, r2.past⟩
    rw [k3] at hkept
    have h2firm : Firm r2.now p := h2 ▸ firm_flush hp
    exact hkept ⟨h2firm.set, h2firm.home, h2firm.kept, h2firm.still⟩

variable {es : List Edit} {root old : Ptr} {env : Commit}

theorem round_some
    (h : runs (round crc es env) r = (some (old, root), r')) : Rounded crc r.now r'.now es env old root := by
  obtain ⟨old', r1, hlook, k1⟩ := bind_some.mp h
  obtain ⟨hread, rfl⟩ := look_some hlook
  obtain ⟨root1, r2, hedits, k2⟩ := bind_some.mp k1
  obtain ⟨root2, r3, hpub, hpure⟩ := bind_some.mp k2
  obtain ⟨heq, rfl⟩ := mk.inj hpure
  obtain ⟨rfl, rfl⟩ := mk.inj (some.inj heq)
  obtain ⟨root3, r4, hpage, k3⟩ := bind_some.mp hpub
  obtain ⟨_, r5, hflush, k4⟩ := bind_some.mp k3
  have h5 := flush_some hflush
  obtain ⟨_, r6, hbar, k5⟩ := bind_some.mp k4
  obtain ⟨-, h6⟩ := barrier_some hbar
  obtain ⟨_, r7, hroot, hpure⟩ := bind_some.mp k5
  obtain ⟨rfl, rfl⟩ := ended hpure
  obtain ⟨e1, rfl⟩ := mk.inj hedits
  obtain ⟨e2, rfl⟩ := mk.inj hpage
  let v1 := (runs (edits crc es old') r.now.vol).2
  let v2 := (runs (rootPage crc old' root1) v1).2
  have hmade : runs (do let root ← edits crc es old'; rootPage crc old' root) r.now.vol = (some root3, v2) :=
    bind_some.mpr ⟨root1, v1, Prod.ext e1 rfl, Prod.ext e2 rfl⟩
  have hnow : r6.now = (bitmapFlush { r.now with vol := v2 }).fence := by rw [h6, h5]
  obtain ⟨f1, f2, f3, -, f5, f6, f7⟩ := flush_frame { r.now with vol := v2 }
  obtain ⟨p1, p2, p3, p4, p5, p6⟩ := rootPublish_some hroot (by rw [hnow]; rfl)
  obtain ⟨g1, g2, g3, -, -, -, g7⟩ := flush_frame r6.now
  have hrt : r6.now.rt = r.now.rt := by rw [hnow]; exact f5
  have hanchor : r6.now.anchor = r.now.anchor := by rw [hnow]; exact f6
  have hvol : r7.now.vol.total = v2.total ∧ r7.now.vol.bit = v2.bit ∧ r7.now.vol.dev = v2.dev.fence ∧
      r7.now.vol.supply = v2.supply := by
    rw [p2, g1, g2, g3, g7, hnow]
    exact ⟨f1, f2, congrArg Store.fence f3, f7⟩
  refine ⟨hread, ?_, ⟨v2, hmade, hvol⟩, by rw [p3, hrt], by rw [p4, hanchor], fun hm => p5 (hanchor ▸ hm), ?_⟩
  · rw [← p1, p2]
    simp only [wholePage, g1, g3]
  · intro hc p hp hfree hset
    have hf : Frame r.now.vol v2 := by
      have := copies_keeps crc es old' r.now.vol
      rwa [hmade] at this
    rw [hvol.1] at hp
    rw [hvol.2.1] at hset
    refine p6 p (hnow ▸ firm_fresh ?_ hp hset (hf.fresh p hfree hset))
    change v2.total.toNat ≤ _
    rw [hf.total]
    exact hc

theorem commit_rt (ok : Bool) (mirror final : Answer) (r : Run Fs) :
    (runs (rtCommit ok mirror final) r).2.now.rt = r.now.rt :=
  commit_keeps (P := fun s => s.rt = r.now.rt) (fun _ => id) (fun _ _ => id) (fun _ => id) ok mirror final r rfl

theorem round_failed {ps : List UInt64} {v : Vol}
    (h : runs (round crc es env) r = (none, r')) (hrt : r'.now.rt = r.now.rt) (hr : Rests ps v r.now)
    (hidle : r.now.med.rt.pending = []) : Rests ps v r'.now ∧ r'.now.med.rt = r.now.med.rt := by
  let P (t : Fs) : Prop := Rests ps v t ∧ t.rt = r.now.rt ∧ t.med.rt = r.now.med.rt
  let E (t : Fs) : Prop := t.rt = r.now.rt → P t
  have hE : ∀ t, P t → E t := fun _ ht _ => ht
  have hzoom : ∀ {x : Act Vol Ptr}, Keeps Frame x → Triple (fun _ => True) P
      (zoom Fs.vol (fun v s => { s with vol := v }) x) (fun _ => P) E := fun hx =>
    triple_zoom fun s hs => ⟨fun _ _ => ⟨rests_frame hs.1 (hx s.vol), hs.2⟩,
      fun _ => hE _ ⟨rests_frame hs.1 (hx s.vol), hs.2⟩⟩
  have hflush : ∀ ok, Triple (fun _ => True) P (flush ok) (fun _ => P) E := by
    refine fun ok => triple_mono (triple_flush ok) (fun _ hs => hs) ?_ hE
    rintro - _ ⟨s, ⟨hs, hs', hs''⟩, rfl⟩
    obtain ⟨-, -, -, f4, f5, -⟩ := flush_frame s
    exact ⟨rests_flush hs, f5.trans hs', (congrArg Medium.rt f4).trans hs''⟩
  have hall : Triple (fun _ => True) P (round crc es env) (fun _ _ => True) E := by
    refine triple_bind (M := fun _ => P) (triple_look (fun _ _ hs _ => hs) fun s hs _ => hE s hs) fun old => ?_
    refine triple_bind (hzoom (edits_keeps es old)) fun root => ?_
    refine triple_bind (M := fun _ _ => True) ?_ fun _ => triple_pure fun _ _ => trivial
    refine triple_bind (hzoom (rootPage_keeps old root)) fun root => ?_
    refine triple_bind (hflush _) fun _ => ?_
    refine triple_bind (M := fun _ => P) (triple_mono (triple_barrier env.pages fun _ _ => trivial)
      (fun _ hs => hs) ?_ ?_) fun _ => ?_
    · rintro - _ ⟨s, ⟨hs, hs', hs''⟩, -, rfl⟩
      exact ⟨rests_fence hs, hs', (congrArg Store.fence hs'').trans (fence_idle hidle)⟩
    · rintro _ ⟨s, l, ⟨hs, hs', hs''⟩, rfl⟩ -
      exact ⟨rests_tear hs l, hs', (congrArg (fun m => m.tear l.rt) hs'').trans (tear_idle hidle _)⟩
    refine triple_bind (M := fun _ _ => True) ?_ fun _ => triple_pure fun _ _ => trivial
    refine triple_bind (M := fun _ => P) (triple_look (fun _ _ hs _ => hs) fun s hs _ => hE s hs) fun _ => ?_
    refine triple_bind (hflush _) fun _ => ?_
    -- from here on the sequence number in memory is the next one
    refine triple_bind (M := fun _ t => t.rt ≠ r.now.rt) (triple_change fun s hs heq => ?_) fun _ => ?_
    · have hseq : s.rt.seq + 1 = s.rt.seq := congrArg Rt.seq (heq.trans hs.2.1.symm)
      omega
    · intro q hq
      refine ⟨fun _ _ => .inr trivial, fun _ _ => trivial, fun _ hback => absurd ?_ hq⟩
      rw [← hback]
      exact (commit_rt _ _ _ q).symm
  obtain ⟨-, -, hfail⟩ := hall r ⟨hr, rfl, rfl⟩
  rw [h] at hfail
  exact ⟨(hfail rfl hrt).1, (hfail rfl hrt).2.2⟩

variable {rt : Rt} {p : UInt64}

theorem mem_named : p ∈ named rt ↔ (p = Rt.slot rt rt.seq ∨ p = Rt.slot rt (rt.seq + 1)) ∧ p ≠ 0 := by
  simp [named]

theorem slot_zero (h : rt.rootSlot = (0, 0)) (i : Nat) : Rt.slot rt i = 0 := by
  simp [Rt.slot, h]

theorem slotPage_ne {v : Vol} (h : slotPage crc v p ≠ none) :
    slotPage crc v p = some (v.dev.view p) ∧ p ≠ 0 ∧ v.bit p = true := by
  obtain ⟨page, hpage⟩ := ne_none_iff_exists'.mp h
  obtain ⟨h0, rfl⟩ := slotPage_some hpage
  refine ⟨hpage, h0, ?_⟩
  simp only [slotPage, ite_none_left_eq_some, not_or] at hpage
  simpa using hpage.1.2.2

variable {last : Option Ptr}

theorem current_old {s : Fs} (hs : Current crc s last)
    (hold : baseRoot crc s.vol s.rt = some old) : old.pba = Rt.slot s.rt (s.rt.seq + 1) ∧
      (old.pba ≠ 0 → slotPage crc s.vol old.pba = some (s.vol.dev.view old.pba) ∧
        (pageHdr (s.vol.dev.view old.pba)).gen = old.gen) := by
  cases last with
  | none =>
    have hz := hs.fresh rfl
    obtain rfl := some.inj ((baseRoot_none hz).symm.trans hold)
    exact ⟨(slot_zero hz _).symm, fun h => absurd rfl h⟩
  | some root =>
    obtain ⟨hslot, hpage, hgen, hspare⟩ := hs.newest root rfl
    have hread : rootRead crc s.vol s.rt = some (some root.pba) := by
      refine rootRead_kept hslot hpage fun a ha => ?_
      obtain ⟨h0, rfl⟩ := slotPage_some ha
      obtain hz | heq | hlt := hspare
      · exact absurd hz h0
      · exact .inr heq
      · exact .inl (hgen ▸ hlt)
    rw [baseRoot, hread] at hold
    cases hold
    exact ⟨hslot.symm, fun _ => ⟨hpage, rfl⟩⟩

theorem current_failed {s : Fs} (hs : Current crc s last) (hr : r.now = s)
    (h : runs (round crc es env) r = (none, r')) (hrt : r'.now.rt = s.rt) : Current crc r'.now last := by
  subst hr
  obtain ⟨hrest, hmed⟩ := round_failed h hrt hs.rests (by rw [hs.home])
  refine ⟨by rw [hmed, hrt, hs.home], ?_, fun hl => hrt ▸ hs.fresh hl, fun root hroot => ?_⟩
  · rw [hrt]
    exact ⟨rfl, hrest.set, fun _ _ => rfl, hrest.still⟩
  · obtain ⟨hslot, hpage, hgen, hspare⟩ := hs.newest root hroot
    have h0 : root.pba ∈ named r.now.rt := mem_named.mpr ⟨.inr hslot.symm, (slotPage_some hpage).1⟩
    have hagree : Agree [root.pba] r.now.vol r'.now.vol := by
      refine ⟨hrest.total, fun p hp => ?_, fun p hp => ?_⟩ <;> obtain rfl := mem_singleton.mp hp
      · rw [hrest.set _ h0, hs.rests.set _ h0]
      · exact hrest.view _ h0
    refine ⟨by rw [hrt, hslot], ?_, ?_, ?_⟩
    · rw [slotPage_agree hagree, hpage, hrest.view _ h0]
    · rw [hrest.view _ h0, hgen]
    · rw [hrt]
      by_cases hz : Rt.slot r.now.rt r.now.rt.seq = 0
      · exact .inl hz
      · rwa [hrest.view _ (mem_named.mpr ⟨.inl rfl, hz⟩)]

section

variable {s t : Fs}

variable (crc) in
structure Beside (t : Fs) (old root : Ptr) : Prop where
  idle : t.vol.dev.pending = []
  kept : Rt.slot t.rt t.rt.seq = old.pba
  slot : Rt.slot t.rt (t.rt.seq + 1) = root.pba
  old : old.pba ≠ 0 → slotPage crc t.vol old.pba = some (t.vol.dev.view old.pba) ∧
    (pageHdr (t.vol.dev.view old.pba)).gen = old.gen
  gen : (pageHdr (t.vol.dev.view root.pba)).gen = root.gen

theorem beside_of_rounded (hs : Current crc s last) (hr : Rounded crc s t es env old root) :
    Beside crc t old root := by
  obtain ⟨hkept, hpage⟩ := current_old hs hr.read
  obtain ⟨v, hmade, htotal, hbit, hdev, -⟩ := hr.made
  have hf : Frame s.vol v := by
    have := copies_keeps crc es old s.vol
    rwa [hmade] at this
  obtain ⟨h1, h2⟩ := slots_publish s.rt root.pba
  have hseq : t.rt.seq = s.rt.seq + 1 := congrArg Rt.seq hr.rt
  refine ⟨by rw [hdev]; rfl, by rw [hseq, hr.rt, h1, hkept], by rw [hseq, hr.rt, h2], fun h0 => ?_, ?_⟩
  · obtain ⟨hp, hgen⟩ := hpage h0
    have hset := (slotPage_ne (p := old.pba) (by rw [hp]; simp)).2.2
    have hview : t.vol.dev.view old.pba = s.vol.dev.view old.pba := by
      rw [hdev]
      exact frame_view hf hset
    have hagree : Agree [old.pba] s.vol t.vol := by
      refine ⟨htotal.trans hf.total, fun p hp => ?_, fun p hp => ?_⟩ <;> obtain rfl := mem_singleton.mp hp
      · rw [hbit, hf.bits _ hset, hset]
      · exact hview
    rw [slotPage_agree hagree, hview]
    exact ⟨hp, hgen⟩
  · obtain ⟨page, hpage, hgen⟩ := map_eq_some_iff.mp hr.valid
    simp only [wholePage, ite_none_left_eq_some, some.injEq] at hpage
    rw [hpage.2, hgen]

theorem beside_read (hb : Beside crc t old root) (hout : Outgrows old root) {v : Vol}
    (hview : v.dev.view = t.vol.dev.view) (hpage : slotPage crc v root.pba ≠ none) :
    rootRead crc v t.rt = some (some root.pba) := by
  refine rootRead_kept hb.slot (slotPage_ne hpage).1 fun a ha => ?_
  rw [hb.kept] at ha ⊢
  obtain ⟨h0, rfl⟩ := slotPage_some ha
  rw [hview, hb.gen, (hb.old h0).2]
  obtain hz | hlt | heq := hout
  · exact absurd hz h0
  · exact .inl hlt
  · exact .inr heq.symm

section

variable (hb : Beside crc t old root) (hhome : t.med.rt = ⟨fun _ => t.rt, []⟩)
  (hpage : slotPage crc t.vol root.pba ≠ none)

include hb hhome hpage

theorem readBack_iff : ReadBack crc t root ↔ Outgrows old root := by
  constructor
  · rintro ⟨hread, -⟩
    by_contra hout
    simp only [Outgrows, not_or] at hout
    obtain ⟨h0, hle, hne⟩ := hout
    have hother : rootRead crc t.vol t.rt = some (some old.pba) := by
      refine rootRead_next hb.kept (hb.old h0).1 fun b hpb => ?_
      rw [hb.slot] at hpb
      rw [(slotPage_some hpb).2, hb.gen, (hb.old h0).2]
      exact UInt64.not_lt.mp hle
    exact hne (by simpa using hread.symm.trans hother)
  · intro hout
    refine ⟨beside_read hb hout rfl hpage, fun l hl => ?_⟩
    have hrt : (recover crc l t).rt = t.rt := by
      change (t.med.rt.tear l.rt).view () = t.rt
      rw [hhome, tear_idle rfl]
      rfl
    rw [hrt]
    refine beside_read hb hout ?_ hl
    rw [dev_recover, tear_idle hb.idle]

theorem current_published (hout : Outgrows old root) : Current crc t (some root) := by
  obtain ⟨hp, h0, hset⟩ := slotPage_ne hpage
  refine ⟨hhome, ⟨rfl, fun p hp => ?_, fun _ _ => rfl, by simp [hb.idle]⟩, by simp, ?_⟩
  · obtain ⟨rfl | rfl, hp0⟩ := mem_named.mp hp
    · rw [hb.kept] at hp0 ⊢
      exact (slotPage_ne (by rw [(hb.old hp0).1]; simp)).2.2
    · rwa [hb.slot]
  · rintro _ ⟨rfl⟩
    refine ⟨hb.slot, hp, hb.gen, ?_⟩
    rw [hb.kept]
    by_cases hz : old.pba = 0
    · exact .inl hz
    · rw [(hb.old hz).2]
      exact hout.imp_right fun h => h.symm.imp_left Eq.symm

end

end

theorem current_fresh {s : Fs} (h : Fresh s) : Current crc s none := by
  refine ⟨h.home, ⟨rfl, ?_, fun _ _ => rfl, ?_⟩, fun _ => h.slots, by simp⟩ <;>
    simp [named, slot_zero h.slots]

theorem history_current {s₀ s : Fs} (h0 : Fresh s₀) (h : History crc s₀ s last) : Current crc s last := by
  induction h with
  | start => exact current_fresh h0
  | published _ hnow hrun hout hm hpage ih =>
    subst hnow
    have hr := round_some hrun
    exact current_published (beside_of_rounded ih hr) (hr.home hm) hpage hout
  | failed _ hnow hrun hrt ih => exact current_failed ih hnow hrun hrt

def willing : Commit := ⟨true, .ok, ⟨true, true, true, .ok, .ok⟩⟩

theorem commit_willing (r : Run Fs) : ∃ r', runs (rtCommit true .ok .ok) r = (some (), r') := by
  by_cases ha : r.now.anchor = true
  · simp [rtCommit, BaseRoot.rt30Store, runs_bind, demand, look, change, ignore, barrier, mark, rtWrite, ha]
  · simp [rtCommit, BaseRoot.rt30Store, runs_bind, demand, look, change, barrier, mark, rtWrite, ha]

theorem rootPublish_willing (hpage : (wholePage crc r.now.vol pba).map (fun page => (pageHdr page).gen) = some gen) :
    ∃ r', runs (rootPublish crc willing.root pba gen) r = (some (), r') := by
  let t : Fs := { bitmapFlush r.now with rt := Rt.publish (bitmapFlush r.now).rt pba }
  obtain ⟨r', hr'⟩ := commit_willing ⟨t, r.past⟩
  refine ⟨r', bind_some.mpr ⟨(), r, ?_, bind_some.mpr ⟨(), ⟨bitmapFlush r.now, r.past⟩, ?_, ?_⟩⟩⟩
  · simpa [look, willing] using hpage
  · simp [flush, runs_bind, look, change, willing]
  · exact bind_some.mpr ⟨(), ⟨t, r.past⟩, rfl, hr'⟩

theorem round_willing {s : Fs} {v : Vol}
    (hread : baseRoot crc s.vol s.rt = some old) (hedits : runs (edits crc es old) s.vol = (some root, v))
    (h0 : root.pba ≠ 0) (hpage : (wholePage crc v root.pba).map (fun page => (pageHdr page).gen) = some root.gen)
    (past : List Fs) : ∃ r', runs (round crc es willing) ⟨s, past⟩ = (some (old, root), r') := by
  let s1 : Fs := { s with vol := v }
  have hsame : wholePage crc (bitmapFlush s1).fence.vol root.pba = wholePage crc v root.pba := by
    obtain ⟨f1, -, f3, -⟩ := flush_frame s1
    have htotal : (bitmapFlush s1).fence.vol.total = v.total := f1
    have hview : (bitmapFlush s1).fence.vol.dev.view = v.dev.view := by
      change (bitmapFlush s1).vol.dev.view = v.dev.view
      rw [f3]
    simp only [wholePage, htotal, hview]
  obtain ⟨r', hr'⟩ := rootPublish_willing (r := ⟨(bitmapFlush s1).fence, past ++ [bitmapFlush s1]⟩)
    ((congrArg _ hsame).trans hpage)
  refine ⟨r', bind_some.mpr ⟨old, ⟨s, past⟩, Prod.ext hread rfl, bind_some.mpr ⟨root, ⟨s1, past⟩, ?_, ?_⟩⟩⟩
  · simp [zoom, hedits, s1]
  refine bind_some.mpr ⟨root, r', bind_some.mpr ⟨root, ⟨s1, past⟩, ?_, ?_⟩, rfl⟩
  · simp [zoom, rootPage, h0, s1]
  refine bind_some.mpr ⟨(), ⟨bitmapFlush s1, past⟩, ?_, ?_⟩
  · simp [flush, runs_bind, look, change, willing]
  · exact bind_some.mpr ⟨(), _, rfl, bind_some.mpr ⟨(), r', hr', rfl⟩⟩

variable {k : Key} {x : Val}

theorem delete_last {v : Vol} (h0 : root.pba ≠ 0) (hr : readNode crc v root = some (0, [⟨k, x, .null⟩])) :
    runs (delete crc root k) v = (some ⟨0, 0, root.gen + 1, 0⟩, v) := by
  have hrec : runs (delRec crc k (root.gen + 1) maxLevels true root) v = (some .gone, v) := by
    rw [maxLevels, delRec]
    simp [runs_bind, btRead, hr, lowerBound, lowerBoundLoop, delFinish]
  rw [delete, if_neg h0]
  exact bind_some.mpr ⟨.gone, v, hrec, rfl⟩

def blankFs : Fs where
  vol := blankVol
  bits := ⟨fun _ _ => false, []⟩
  med := ⟨⟨fun _ => ⟨(0, 0), 0, 0⟩, []⟩, ⟨fun _ => [], []⟩⟩
  rt := ⟨(0, 0), 0, 0⟩
  anchor := false
  hold := fun _ => false
  pinned := .null
  taken := []
  segPba := 0
  bump := 0
  segGen := 0
  segments := 0
  groupMax := 0
  groupBytes := 0
  ram := DeltaIndex.Ram.empty

theorem fresh_blankFs : Fresh blankFs := ⟨rfl, rfl⟩

theorem tree_null_root (v : Vol) (g : UInt64) : Tree crc v ⟨0, 0, g, 0⟩ 0 [] [] :=
  ⟨[], .inl ⟨rfl, rfl⟩, ⟨by simp, trivial, le_top, rfl, nodup_nil⟩, rfl⟩

theorem wholePage_tree {v : Vol} {h : Nat} {m : List (Key × Val)} {ps : List UInt64} (ht : Tree crc v root h m ps)
    (h0 : root.pba ≠ 0) : (wholePage crc v root.pba).map (fun page => (pageHdr page).gen) = some root.gen := by
  have hp := (tree_slot ht h0).2.1
  simp only [slotPage, ite_none_left_eq_some] at hp
  rw [hp.2, map_some, tree_gen ht h0]

variable (crc) in
theorem upsert_single {v : Vol} {n : Nat} (ha : Ample (n + 1) v) (hs : recSize 0 (entOf 0 (k, x)) ≤ 4076)
    (g : UInt64) : ∃ root v', runs (upsert crc ⟨0, 0, g, 0⟩ k x) v = (some root, v') ∧ root.pba ≠ 0 ∧ root.gen = 1 ∧
      v.bit root.pba = false ∧ readNode crc v' root = some (0, [⟨k, x, .null⟩]) ∧
      Tree crc v' root 0 [(k, x)] [root.pba] ∧ Ample n v' := by
  obtain ⟨root, v', hrun, h0, hrow, ha'⟩ := upsert_first crc ha hs
  have hsame : upsert crc ⟨0, 0, g, 0⟩ k x = upsert crc .null k x := by simp [upsert, Ptr.null]
  obtain ⟨-, hgen, h, ps, ht, hfrom⟩ := upsert_tree (tree_null_root v 0) hrun
  have htree : Tree crc v' root 0 [(k, x)] [root.pba] := ⟨[([], (root, [(k, x)]))], .inr ⟨h0, _, rfl, rfl⟩, hrow, rfl⟩
  refine ⟨root, v', hsame ▸ hrun, h0, hgen, ?_, (hrow.held _ mem_cons_self).1, htree, ha'⟩
  exact (hfrom _ (tree_slot ht h0).1).resolve_left (by simp)

variable (crc) in
/-- The tree holds the map, and a search comes to its leaves. -/
def Stands (v : Vol) (root : Ptr) (m : List (Key × Val)) : Prop :=
  ∃ (h : Nat) (rs : List (Key × Item (h + 1))), h < maxDepth ∧ BtreeInsert.Rooted root rs ∧
    Row crc v [] ⊤ m rs ∧ Neat rs

section

variable {v v' : Vol}

theorem stands_nil (h0 : root.pba = 0) : Stands crc v root [] :=
  ⟨0, [], by decide, .inl ⟨h0, rfl⟩, ⟨by simp, trivial, le_top, rfl, nodup_nil⟩, by simp [Neat]⟩

variable (hkey : ∀ e ∈ es, e.key.length ≤ keyMax) (hrun : runs (edits crc es old) v = (some root, v'))

include hkey hrun

theorem stands_edits {m : List (Key × Val)} (hs : Stands crc v old m)
    (hlen : m.length + es.length < 2 ^ maxDepth) : Stands crc v' root (es.foldl Edit.apply m) := by
  induction es generalizing old v m with
  | nil =>
    obtain ⟨rfl, rfl⟩ := ended hrun
    exact hs
  | cons e es ih =>
    obtain ⟨h, rs, hh, hroot, hr, hn⟩ := hs
    obtain ⟨_, v1, hone, hrun⟩ := bind_some.mp hrun
    obtain ⟨-, h1, rs1, -, -, hroot1, hr1, -, hn1⟩ := edit_row hroot hr hh hone
    have hle : (e.apply m).length ≤ m.length + 1 := by
      cases e with
      | put k x => exact SortedMap.length_put_le m k x
      | del k => exact (length_filter_le ..).trans (Nat.le_succ _)
    rw [length_cons] at hlen
    refine ih (fun e he => hkey e (mem_cons_of_mem _ he)) hrun ?_ (by omega)
    obtain ⟨h0, rfl⟩ | ⟨-, t, -, rfl⟩ := id hroot1
    · rw [← hr1.contents]
      exact stands_nil h0
    · have hn1 := hn1 hn (hkey e mem_cons_self)
      have hmost := (wide_most hr1.chain.1 (hn1 _ mem_cons_self).2.2).1
      have hflat : contents (h1 + 1) [] t = e.apply m := by simpa [SepChain.flat] using hr1.contents
      rw [hflat] at hmost
      exact ⟨h1, _, (Nat.pow_lt_pow_iff_right Nat.one_lt_two).mp (by omega), hroot1, hr1, hn1⟩

/-- What edits have made reads as the map with these edits and passes the check, also after other edits of this or
any other tree, whether they succeed or fail. -/
theorem edits_persist (h0 : old.pba = 0) (hlen : es.length < 2 ^ maxDepth) (fs : List Edit) (root' : Ptr) :
    Reads crc (runs (edits crc fs root') v').2 root (es.foldl Edit.apply []) ∧
      ∃ ck, check crc (runs (edits crc fs root') v').2 root = .ok ck := by
  obtain ⟨h, rs, hh, hroot, hr, hn⟩ := stands_edits hkey hrun (stands_nil h0) (by simpa)
  have hr := row_frame (@edits_keeps crc fs root' v') hr
  obtain ⟨ck, hck, -⟩ := row_check (hh.trans (by decide)) hroot hr fun x hx => (hn x hx).2.2
  exact ⟨reads_row hh hroot hr, ck, hck⟩

end

theorem edits_persist_first : ∃ v root, Reads crc32c (runs (edits crc32c [.del [1]] root) v).2 root [([1], [2])] := by
  obtain ⟨root, v, hrun, -⟩ := upsert_single crc32c (k := [1]) (x := [2]) ample_blankVol (by decide) 0
  have hes : runs (edits crc32c [.put [1] [2]] .null) blankVol = (some root, v) := bind_some.mpr ⟨_, _, hrun, rfl⟩
  exact ⟨v, root, (edits_persist (by decide) hes rfl (by decide) [.del [1]] root).1⟩

section

variable {v v' : Vol} {h : Nat} {m : List (Key × Val)} {ps : List UInt64} (ht : Tree crc v old h m ps)

include ht

theorem edit_tree {e : Edit} (hrun : runs (e.call crc old) v = (some root, v')) :
    Frame v v' ∧ (m ≠ [] → root = old ∨ root.gen = old.gen + 1) ∧
      ∃ h' ps', Tree crc v' root h' (e.apply m) ps' ∧ From v ps ps' := by
  cases e with
  | put k x =>
    obtain ⟨hf, hgen, hrest⟩ := upsert_tree ht hrun
    exact ⟨hf, fun hne => .inr (by rw [hgen, if_neg hne]), hrest⟩
  | del k =>
    obtain ⟨rs, hroot, hr, rfl⟩ := ht
    obtain ⟨hf, hgen, h', rs', -, hroot', hr', hmade, -⟩ := BtreeDelete.delete_row hroot hr hrun
    exact ⟨hf, fun _ => hgen.imp_left And.left, h', rowPages rs', ⟨rs', hroot', hr', rfl⟩, hmade⟩

/-- Edits that never empty the tree do not lower its generation, and one that makes a page raises it. -/
theorem edits_gen (hrun : runs (edits crc es old) v = (some root, v'))
    (hfull : ∀ fs, fs <+: es → fs.foldl Edit.apply m ≠ []) (hgen : old.gen.toNat + es.length < 2 ^ 64) :
    root.pba ≠ 0 ∧ root.gen.toNat ≤ old.gen.toNat + es.length ∧ (root = old ∨ old.gen < root.gen) := by
  induction es generalizing old v h m ps with
  | nil =>
    obtain ⟨rfl, rfl⟩ := ended hrun
    exact ⟨fun h0 => hfull [] nil_prefix (tree_null ht h0).1, le_rfl, .inl rfl⟩
  | cons e es ih =>
    obtain ⟨root1, v1, hone, hes⟩ := bind_some.mp hrun
    obtain ⟨-, hstep, h', ps', ht', -⟩ := edit_tree ht hone
    have hrest : ∀ fs, fs <+: es → fs.foldl Edit.apply (e.apply m) ≠ [] :=
      fun fs hfs => hfull (e :: fs) (cons_prefix_cons.mpr ⟨rfl, hfs⟩)
    rw [length_cons] at hgen ⊢
    obtain rfl | hnext := hstep (hfull [] nil_prefix)
    · obtain ⟨h0, hle, hlt⟩ := ih ht' hes hrest (by omega)
      exact ⟨h0, by omega, hlt⟩
    · have hone : root1.gen.toNat = old.gen.toNat + 1 := by
        rw [hnext, UInt64.toNat_add]
        exact Nat.mod_eq_of_lt (by change _ + 1 < _; omega)
      obtain ⟨h0, hle, hlt⟩ := ih ht' hes hrest (by omega)
      refine ⟨h0, by omega, .inr (UInt64.lt_iff_toNat_lt.mpr ?_)⟩
      obtain rfl | hlt := hlt
      · omega
      · have := UInt64.lt_iff_toNat_lt.mp hlt
        omega

/-- A round whose edits never empty the tree publishes a root that outgrows the one it was made from. -/
theorem round_outgrows {s t : Fs} (hr : Rounded crc s t es env old root) (hv : s.vol = v)
    (hfull : ∀ fs, fs <+: es → fs.foldl Edit.apply m ≠ []) (hgen : old.gen.toNat + es.length < 2 ^ 64) :
    Outgrows old root := by
  subst hv
  obtain ⟨v, hmade, -⟩ := hr.made
  obtain ⟨root1, v1, hedits, hpage⟩ := bind_some.mp hmade
  obtain ⟨h0, -, hgrown⟩ := edits_gen ht hedits hfull hgen
  rw [rootPage, if_neg h0] at hpage
  obtain ⟨rfl, rfl⟩ := ended hpage
  obtain rfl | hlt := hgrown
  · exact .inr (.inr rfl)
  · exact .inr (.inl hlt)

end

theorem rounded_agree {s t : Fs} {v : Vol} (hr : Rounded crc s t es env old root)
    (hedits : runs (edits crc es old) s.vol = (some root, v)) (h0 : root.pba ≠ 0) :
    t.vol.supply = v.supply ∧ t.vol.bit = v.bit ∧ ∀ ps, Agree ps v t.vol := by
  obtain ⟨v', hmade, htotal, hbit, hdev, hsupply⟩ := hr.made
  have hpage : runs (do let root ← edits crc es old; rootPage crc old root) s.vol = (some root, v) :=
    bind_some.mpr ⟨root, v, hedits, by simp [rootPage, h0]⟩
  obtain rfl := (mk.inj (hmade.symm.trans hpage)).2
  exact ⟨hsupply, hbit, fun ps => ⟨htotal, fun p _ => congrFun hbit p, fun p _ => by rw [hdev, view_fence]⟩⟩

variable (crc) in
/-- The first record goes into a volume on which nothing has been published. -/
theorem first_round {s : Fs} (hf : Fresh s) (hample : Ample 9 s.vol) : ∃ r' root,
    runs (round crc [.put [1] [1]] willing) ⟨s, []⟩ = (some (.null, root), r') ∧ root.pba ≠ 0 ∧ root.gen = 1 ∧
      readNode crc r'.now.vol root = some (0, [⟨[1], [1], .null⟩]) ∧
      Tree crc r'.now.vol root 0 [([1], [1])] [root.pba] ∧ Ample 8 r'.now.vol ∧
      ∀ p, s.vol.bit p = true → r'.now.vol.bit p = true ∧ p ≠ root.pba := by
  obtain ⟨root, v, hrun, h0, hgen, hnew, hnode, htree, ha⟩ := upsert_single crc (n := 8)
    (k := [1]) (x := [1]) hample (by decide) 0
  have hedits : runs (edits crc [.put [1] [1]] .null) s.vol = (some root, v) := bind_some.mpr ⟨root, v, hrun, rfl⟩
  have hframe := @edits_keeps crc [.put [1] [1]] .null s.vol
  rw [hedits] at hframe
  obtain ⟨r', hr'⟩ := round_willing (baseRoot_none hf.slots) hedits h0 (wholePage_tree htree h0) []
  obtain ⟨hsupply, hbit, hagree⟩ := rounded_agree (round_some hr') hedits h0
  refine ⟨r', root, hr', h0, hgen, (readNode_agree (hagree _)).trans hnode, tree_agree (hagree _) htree, ?_, ?_⟩
  · obtain ⟨ts, rest, h1, h2, h3, h4⟩ := ha
    exact ⟨ts, rest, hsupply.trans h1, h2, h3, by rw [(hagree []).total, hbit]; exact h4⟩
  · intro p hp
    refine ⟨hbit ▸ hframe.bits p hp, fun heq => ?_⟩
    rw [heq, hnew] at hp
    cases hp

/-- After a history of publishes, the next root is the one that is read if and only if it outgrows the
one it was made from. -/
theorem publish_readBack {s₀ s : Fs} {last : Option Ptr} (h0 : Fresh s₀) (hist : History crc s₀ s last)
    {es : List Edit} {env : Commit} {r r' : Run Fs} {old root : Ptr} (hnow : r.now = s)
    (hrun : runs (round crc es env) r = (some (old, root), r'))
    (hmirror : s.anchor = true → env.root.mirror = .ok) (hpage : slotPage crc r'.now.vol root.pba ≠ none) :
    ReadBack crc r'.now root ↔ Outgrows old root := by
  subst hnow
  have hr := round_some hrun
  exact readBack_iff (beside_of_rounded (history_current h0 hist) hr) (hr.home hmirror) hpage

/-- The root of the first round is read by the second one. -/
theorem first_history : ∃ r' root, runs (round crc32c [.put [1] [1]] willing) ⟨blankFs, []⟩ =
    (some (.null, root), r') ∧ root.pba ≠ 0 ∧ root.gen = 1 ∧ History crc32c blankFs r'.now (some root) ∧
      baseRoot crc32c r'.now.vol r'.now.rt = some { root with flags := bpRoot } ∧
      Row crc32c r'.now.vol (h := 1) [] ⊤ [([1], [1])] [([], ({ root with flags := bpRoot }, [([1], [1])]))] ∧
      Tree crc32c r'.now.vol { root with flags := bpRoot } 0 [([1], [1])] [root.pba] ∧ Ample 8 r'.now.vol ∧
      Covered r'.now.vol := by
  obtain ⟨r', root, hrun, h0, hgen, -, htree, ha, -⟩ := first_round crc32c fresh_blankFs ample_blankVol
  have hr := round_some hrun
  have hpage : slotPage crc32c r'.now.vol root.pba ≠ none := by simp [(tree_slot htree h0).2.1]
  have hb := beside_of_rounded (current_fresh fresh_blankFs) hr
  have hread : baseRoot crc32c r'.now.vol r'.now.rt = some { root with flags := bpRoot } := by
    rw [baseRoot, beside_read hb (.inl rfl) rfl hpage]
    exact congrArg some ((tree_slot htree h0).2.2 bpRoot)
  refine ⟨r', root, hrun, h0, hgen, .published .start rfl hrun (.inl rfl) (by simp [blankFs]) hpage, hread, ?_,
    tree_flags htree bpRoot, ha, ?_⟩
  · obtain ⟨rs, ⟨hz, -⟩ | ⟨-, t, heq, rfl⟩, hrow, -⟩ := tree_flags htree bpRoot
    · exact absurd hz h0
    have hflat : t.2 = [([1], [1])] := by
      have hc := hrow.contents
      rw [SepChain.flat_cons, SepChain.flat_nil, append_nil] at hc
      exact (BtreeRow.flat_leaf t.2).symm.trans hc
    obtain ⟨p, es⟩ := t
    subst heq hflat
    exact hrow
  · obtain ⟨v, hmade, htotal, -⟩ := hr.made
    have hf := copies_keeps crc32c [.put [1] [1]] .null blankFs.vol
    rw [hmade] at hf
    rw [Covered, htotal.trans hf.total]
    decide

/-- A second publish after the first one, and a remount after any power cut. -/
theorem publish_readBack_second : ∃ (r₁ r₂ : Run Fs) (old root root' : Ptr),
    runs (round crc32c [.put [1] [1]] willing) ⟨blankFs, []⟩ = (some (.null, root), r₁) ∧
      runs (round crc32c [.put [2] [2]] willing) r₁ = (some (old, root'), r₂) ∧ old.pba = root.pba ∧
      root'.pba ≠ root.pba ∧ (ReadBack crc32c r₂.now root' ↔ Outgrows old root') ∧
      ∀ l, rootRead crc32c (recover crc32c l r₂.now).vol (recover crc32c l r₂.now).rt = some (some root'.pba) := by
  obtain ⟨r₁, root, hrun, h0, hgen, hist, hread, hrow, htree, ha, hcover⟩ := first_history
  let old : Ptr := { root with flags := bpRoot }
  obtain ⟨root', v, hup, h0', hnew, hrow', -⟩ := upsert_leaf (n := 7) ha hrow h0 (k := [2]) (x := [2])
    (by decide) ⟨by decide, by decide, by decide⟩
  have hedits : runs (edits crc32c [.put [2] [2]] old) r₁.now.vol = (some root', v) := bind_some.mpr ⟨_, _, hup, rfl⟩
  have htree' : Tree crc32c v root' 0 [([1], [1]), ([2], [2])] [root'.pba] := ⟨_, .inr ⟨h0', _, rfl, rfl⟩, hrow', rfl⟩
  obtain ⟨r₂, hrun₂⟩ := round_willing hread hedits h0' (wholePage_tree htree' h0') r₁.past
  have hr := round_some hrun₂
  obtain ⟨-, -, hagree⟩ := rounded_agree hr hedits h0'
  obtain ⟨-, hlt, hset⟩ := tree_pages (tree_agree (hagree _) htree') _ mem_cons_self
  have hslot : slotPage crc32c r₂.now.vol root'.pba ≠ none := by
    rw [slotPage_agree (hagree _), (tree_slot htree' h0').2.1]
    simp
  have hout : Outgrows old root' := by
    refine round_outgrows htree hr rfl (fun fs hfs => ?_) (by change root.gen.toNat + 1 < _; rw [hgen]; decide)
    obtain rfl | ⟨gs, rfl, hgs⟩ := prefix_cons_iff.mp hfs
    · simp
    · simp [prefix_nil.mp hgs, Edit.apply, SortedMap.put]
  have hiff := publish_readBack fresh_blankFs hist rfl hrun₂ (fun _ => rfl) hslot
  refine ⟨r₁, r₂, old, root, root', hrun, hrun₂, rfl, fun heq => ?_, hiff, fun l => (hiff.mpr hout).2 l ?_⟩
  · rw [heq, (tree_pages htree root.pba mem_cons_self).2.2] at hnew
    cases hnew
  · have hfirm := hr.firm hcover root'.pba hlt hnew hset
    rwa [slotPage_agree (firm_recover (by simpa using hfirm) l)]

/-- The tree is emptied and refilled. Its new root has the generation of the old one, and the old one
is read. -/
theorem refilled_root_lost : ∃ (r₁ r₂ : Run Fs) (old root root' : Ptr),
    runs (round crc32c [.put [1] [1]] willing) ⟨blankFs, []⟩ = (some (.null, root), r₁) ∧
      runs (round crc32c [.del [1], .put [2] [2]] willing) r₁ = (some (old, root'), r₂) ∧
      old.pba = root.pba ∧ slotPage crc32c r₂.now.vol root'.pba ≠ none ∧
      rootRead crc32c r₂.now.vol r₂.now.rt = some (some root.pba) ∧ root.pba ≠ root'.pba := by
  obtain ⟨r₁, root, hrun, h0, hgen, hist, hread, hrow, htree, ha, -⟩ := first_history
  -- the second round starts from the first one's root
  let old : Ptr := { root with flags := bpRoot }
  obtain ⟨root', v, hup, h0', hgen', hnew, -, htree', -⟩ := upsert_single crc32c (n := 7) (k := [2]) (x := [2]) ha
    (by decide) (old.gen + 1)
  have hdel : runs (delete crc32c old [1]) r₁.now.vol = (some ⟨0, 0, old.gen + 1, 0⟩, r₁.now.vol) :=
    delete_last h0 (hrow.held _ mem_cons_self).1
  have hedits : runs (edits crc32c [.del [1], .put [2] [2]] old) r₁.now.vol = (some root', v) :=
    bind_some.mpr ⟨_, _, hdel, bind_some.mpr ⟨root', v, hup, rfl⟩⟩
  obtain ⟨r₂, hr2⟩ := round_willing hread hedits h0' (wholePage_tree htree' h0') r₁.past
  have hb2 := beside_of_rounded (history_current fresh_blankFs hist) (round_some hr2)
  have hne : root'.pba ≠ root.pba := by
    intro heq
    rw [heq, (tree_pages htree root.pba mem_cons_self).2.2] at hnew
    cases hnew
  have hpage' : slotPage crc32c r₂.now.vol root'.pba ≠ none := by
    rw [slotPage_agree ((rounded_agree (round_some hr2) hedits h0').2.2 _), (tree_slot htree' h0').2.1]
    simp
  refine ⟨r₁, r₂, old, root, root', hrun, hr2, rfl, hpage', ?_, hne.symm⟩
  refine rootRead_next hb2.kept (hb2.old h0).1 fun b hpb => ?_
  rw [hb2.slot] at hpb
  rw [(slotPage_some hpb).2, hb2.gen, (hb2.old h0).2, hgen']
  exact UInt64.le_of_eq hgen.symm

end InvariantFs.RootHistory
