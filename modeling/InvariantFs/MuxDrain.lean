import InvariantFs.DeltaGroup
import InvariantFs.Mux

namespace InvariantFs.MuxDrain

open DeltaSegment DeltaIndex DeltaGroup Mux

variable {K V : Type} [DecidableEq K]

/-- The recent tier of a two-device volume. `rtSeq` is the counter of the root descriptor. -/
structure Tiered (K V : Type) where
  tier : Tier K V
  mux : Vol
  anchor : Bool
  rtSeq : Nat

def Tiered.doom (s : Tiered K V) : Tiered K V := { s with tier := { s.tier with ram := s.tier.ram.doom } }

structure AppendEnv where
  ready : Bool
  alloc : Option Nat
  header : Barrier
  root0 : Bool
  root1 : Bool
  anchor : Barrier
  publish : Barrier
  write : Bool
  close : Barrier

def AppendEnv.reply (env : AppendEnv) (header publish close : Bool) : Reply :=
  ⟨env.ready, env.alloc, header, publish, env.write, close⟩

def stage (env : AppendEnv) (s : Tiered K V) (size : Nat) (key : K) (val : V) (del : Bool) : Tiered K V × Bool :=
  let closes := env.write && s.tier.full (s.tier.ram.keep key val del s.tier.segPba s.tier.bump size)
  let b := if closes then barrier env.close s.mux else (s.mux, 0)
  let t := s.tier.stage (env.reply true true (decide (0 ≤ b.2))) size key val del
  ({ s with tier := t.1, mux := b.1 }, t.2)

/-- `vol_delta_append`. A barrier that only reports device 0 as dropped counts as done. -/
def append (env : AppendEnv) (s : Tiered K V) (size : Nat) (key : K) (val : V) (del : Bool) : Tiered K V × Bool :=
  if s.mux.latched ∨ segBytes - segHdrLen < size ∨ env.ready = false then (s, false)
  else if s.tier.segPba = 0 ∨ segBytes < s.tier.bump + size then
    match env.alloc with
    | none => (s, false)
    | some pba =>
      let b := barrier env.header s.mux
      if b.2 < 0 then ({ s with mux := b.1 }.doom, false)
      else
        let w := metaWrite env.root0 env.root1 .root (some s.rtSeq) b.1
        if w.2 = false then ({ s with mux := w.1 }.doom, false)
        else
          -- nobody looks at the answer of the anchor's barrier
          let mux := if s.anchor then (barrier env.anchor w.1).1 else w.1
          let p := barrier env.publish mux
          if p.2 < 0 then ({ s with mux := p.1 }.doom, false)
          else
            stage env
              { s with
                mux := p.1, tier := { s.tier with segPba := pba, bump := segHdrLen, ram := s.tier.ram.close } }
              size key val del
  else stage env s size key val del

/-- `vol_delta_drain`. Here only the answer 0 counts as done. -/
def drain (a : Barrier) (s : Tiered K V) : Tiered K V × Int :=
  if s.tier.ram.pending = 0 ∧ s.tier.ram.staged = [] then
    ({ s with tier := { s.tier with ram := { s.tier.ram with rewriteNeeded := false } } }, 0)
  else
    let b := barrier a s.mux
    if b.2 = 0 then ({ s with mux := b.1, tier := { s.tier with ram := s.tier.ram.close } }, 0)
    else ({ s with mux := b.1 }.doom, b.2)

structure Entry (K V : Type) where
  env : AppendEnv
  size : Nat
  key : K
  val : V
  del : Bool

def Entry.append (e : Entry K V) (s : Tiered K V) : Tiered K V × Bool :=
  MuxDrain.append e.env s e.size e.key e.val e.del

def appendAll : List (Entry K V) → Tiered K V → Tiered K V × Bool
  | [], s => (s, true)
  | e :: es, s => if (e.append s).2 then appendAll es (e.append s).1 else ((e.append s).1, false)

/-- An index of second copies that a flush finds changed. Its bytes go into new blocks, then what names
them is appended. -/
structure Owner (K V : Type) where
  stored : Bool
  recs : List (Entry K V)

/-- `wp25_owner_sync`. -/
def ownerSync : List (Owner K V) → Tiered K V → Tiered K V × Bool
  | [], s => (s, true)
  | o :: os, s =>
    if o.stored = false then (s, false)
    else
      let r := appendAll o.recs s
      if r.2 then ownerSync os r.1 else r

structure SyncEnv (K V : Type) where
  bitmap : Bool
  flush : Barrier
  owners : List (Owner K V)
  commit : Commit
  drain : Barrier
  last : Barrier

def Tiered.latch (s : Tiered K V) : Tiered K V := { s with mux := { s.mux with latched := true } }

/-- `vol_sync` with `vol_flush` in front. -/
def sync (env : SyncEnv K V) (s : Tiered K V) : Tiered K V × Int :=
  if env.bitmap = false then (s.latch, -1)
  else
    let b := barrier env.flush s.mux
    if b.2 < 0 then ({ s with mux := b.1 }.doom, -1)
    else
      -- what is staged here is behind the barrier of the flush and has to wait for the drain
      let o := ownerSync env.owners { s with mux := b.1 }
      if o.2 = false then (o.1.latch, -1)
      else
        let c := commitMirror env.commit o.1.mux
        if c.2 = false then ({ o.1 with mux := c.1 }, -1)
        else
          let d := drain env.drain { o.1 with mux := c.1 }
          if d.2 ≠ 0 then (d.1.latch, -1)
          else
            let l := barrier env.last d.1.mux
            if l.2 < 0 then ({ d.1 with mux := l.1 }.doom.latch, -1) else ({ d.1 with mux := l.1 }, 0)

theorem append_refines (env : AppendEnv) (s : Tiered K V) (size : Nat) (key : K) (val : V) (del : Bool)
    (hl : s.mux.latched = false) :
    ∃ header publish close, ((append env s size key val del).1.tier, (append env s size key val del).2) =
      s.tier.append (env.reply header publish close) size key val del := by
  unfold append Tier.append
  by_cases hready : segBytes - segHdrLen < size ∨ env.ready = false
  · refine ⟨true, true, true, ?_⟩
    rw [if_pos (.inr hready)]
    exact (if_pos hready).symm
  · have hgo : ¬ (s.mux.latched = true ∨ segBytes - segHdrLen < size ∨ env.ready = false) := by
      simpa [hl] using hready
    have hgo' : ∀ h p c, ¬ (segBytes - segHdrLen < size ∨ (env.reply h p c).ready = false) := fun _ _ _ => hready
    simp only [if_neg hgo, if_neg (hgo' _ _ _)]
    by_cases hroll : s.tier.segPba = 0 ∨ segBytes < s.tier.bump + size
    · simp only [if_pos hroll, AppendEnv.reply]
      cases env.alloc with
      | none => exact ⟨true, true, true, rfl⟩
      | some pba =>
        dsimp only
        by_cases hh : (barrier env.header s.mux).2 < 0
        · exact ⟨false, true, true, by simp [hh, Tiered.doom]⟩
        · rw [if_neg hh]
          generalize metaWrite env.root0 env.root1 .root (some s.rtSeq) (barrier env.header s.mux).1 = w
          by_cases hw : w.2 = false
          · exact ⟨false, true, true, by simp [hw, Tiered.doom]⟩
          · rw [if_neg hw]
            generalize barrier env.publish (if s.anchor then (barrier env.anchor w.1).1 else w.1) = q
            by_cases hp : q.2 < 0
            · exact ⟨true, false, true, by simp [hp, Tiered.doom]⟩
            · rw [if_neg hp]
              exact ⟨true, true, _, rfl⟩
    · simp only [if_neg hroll]
      exact ⟨true, true, _, rfl⟩

inductive Op (K V : Type) where
  | append (env : AppendEnv) (size : Nat) (key : K) (val : V) (del : Bool)
  | drain (a : Barrier)
  | sync (env : SyncEnv K V)

def Op.run (s : Tiered K V) : Op K V → Tiered K V × Int
  | .append env size key val del =>
    let r := MuxDrain.append env s size key val del
    (r.1, if r.2 then 0 else -1)
  | .drain a => MuxDrain.drain a s
  | .sync env => MuxDrain.sync env s

def AppendEnv.Fair (env : AppendEnv) : Prop :=
  env.write = true ∧ env.root0 = true ∧ env.root1 = true ∧ env.header.devt = true ∧
    env.anchor.devt = true ∧ env.publish.devt = true ∧ env.close.devt = true

def Entry.Fair (e : Entry K V) : Prop :=
  e.env.Fair ∧ e.size ≤ segBytes - segHdrLen ∧ e.env.ready = true ∧ e.env.alloc ≠ none

def Op.Fair : Op K V → Prop
  | .append env _ _ _ _ => env.Fair
  | .drain a => a.devt = true
  | .sync env =>
    env.bitmap = true ∧ env.flush.devt = true ∧
      (∀ o ∈ env.owners, o.stored = true ∧ ∀ e ∈ o.recs, e.Fair) ∧
      (env.commit.devt0 = true ∧ env.commit.devt1 = true) ∧ env.drain.devt = true ∧ env.last.devt = true

def Idle (s : Tiered K V) : Prop := s.tier.ram.pending = 0 ∧ s.tier.ram.staged = []

def Closes (env : AppendEnv) (t : Tier K V) (size : Nat) (key : K) (val : V) (del : Bool) : Prop :=
  t.full (t.ram.keep key val del t.segPba t.bump size) = true → env.close.flush1 = .ok

/-- The drain finds nothing staged, or device 0 is in use and both devices answer. -/
def Drains (a : Barrier) (s : Tiered K V) : Prop :=
  Idle s ∨ s.mux.skip0 = false ∧ a.flush0 = .ok ∧ a.flush1 = .ok

/-- Device 1 answers to every barrier the append waits for. -/
def Entry.Taken (s : Tiered K V) (e : Entry K V) : Prop :=
  if s.tier.segPba = 0 ∨ segBytes < s.tier.bump + e.size then
    ∀ pba, e.env.alloc = some pba → (e.env.header.flush1 = .ok ∧ e.env.publish.flush1 = .ok) ∧
      Closes e.env { s.tier with segPba := pba, bump := segHdrLen, ram := s.tier.ram.close } e.size e.key e.val e.del
  else Closes e.env s.tier e.size e.key e.val e.del

/-- Each record is taken in the state it comes to, and so is the drain that follows them. -/
def TakesAll (a : Barrier) : List (Entry K V) → Tiered K V → Prop
  | [], s => Drains a s
  | e :: es, s => e.Taken s ∧ TakesAll a es (e.append s).1

/-- Device 1 answers to every barrier that covers staged records, and a drain or a sync that finds staged
records, or stages some, comes while device 0 is in use and answers, too. -/
def Op.Careful (s : Tiered K V) : Op K V → Prop
  | .append env size key val del =>
    (s.mux.latched = true ∨ segBytes - segHdrLen < size ∨ env.ready = false) ∨
      if s.tier.segPba = 0 ∨ segBytes < s.tier.bump + size then
        ∀ pba, env.alloc = some pba →
          if env.header.flush1 = .ok ∧ env.publish.flush1 = .ok then
            Closes env { s.tier with segPba := pba, bump := segHdrLen, ram := s.tier.ram.close } size key val del
          else s.tier.ram.staged = []
      else Closes env s.tier size key val del
  | .drain a => Drains a s
  | .sync env =>
    env.flush.flush1 = .ok ∧ env.last.flush1 = .ok ∧
      TakesAll env.drain (env.owners.flatMap Owner.recs) { s with mux := (barrier env.flush s.mux).1 }

def Op.Kept (s : Tiered K V) (op : Op K V) : Prop :=
  (match op with
    | .append _ _ _ _ _ => True
    | _ => (op.run s).2 = 0) ∧ (op.run s).1.tier.ram.doomed = 0

def Always (P : Tiered K V → Op K V → Prop) : List (Op K V) → Tiered K V → Prop
  | [], _ => True
  | op :: ops, s => P s op ∧ Always P ops (op.run s).1

structure Sound (s : Tiered K V) : Prop where
  steady : Steady s.mux
  doomed : s.tier.ram.doomed = 0

variable {s : Tiered K V} {env : AppendEnv} {size : Nat} {key : K} {val : V} {del : Bool}

theorem doom_kept_iff (s : Tiered K V) : s.doom.tier.ram.doomed = 0 ↔ s.tier.ram.staged = [] :=
  List.length_eq_zero_iff

section

variable (h : Sound s)

include h

theorem stage_kept_iff (hw : env.write = true) (hc : env.close.devt = true) :
    Steady (stage env s size key val del).1.mux ∧
      ((stage env s size key val del).1.tier.ram.doomed = 0 ↔ Closes env s.tier size key val del) ∧
      ((stage env s size key val del).2 = true ↔ Closes env s.tier size key val del) := by
  obtain ⟨hst, hdoom⟩ := h
  obtain ⟨hst', -, hneg, -⟩ := barrier_steady hst hc
  unfold stage Tier.stage Closes
  simp only [hw, Bool.true_and, AppendEnv.reply, Bool.true_eq_false, if_false]
  by_cases hfull : s.tier.full (s.tier.ram.keep key val del s.tier.segPba s.tier.bump size) = true
  · simp only [hfull, if_true, true_imp_iff, decide_eq_true_eq]
    refine ⟨hst', ?_⟩
    by_cases hpos : 0 ≤ (barrier env.close s.mux).2
    · have hok : env.close.flush1 = .ok := not_not.mp fun hne => absurd (hneg.mpr hne) (not_lt.mpr hpos)
      rw [if_pos hpos]
      exact ⟨⟨fun _ => hok, fun _ => rfl⟩, fun _ => hok, fun _ => rfl⟩
    · rw [if_neg hpos]
      simp [Ram.doom, Ram.keep, hneg.mp (not_le.mp hpos)]
  · simp only [hfull, Bool.false_eq_true, if_false, false_imp_iff, iff_true]
    exact ⟨hst, hdoom, trivial⟩

theorem append_kept_iff (hf : env.Fair) : Steady (append env s size key val del).1.mux ∧
      ((append env s size key val del).1.tier.ram.doomed = 0 ↔ (Op.append env size key val del).Careful s) ∧
      ((⟨env, size, key, val, del⟩ : Entry K V).Fair →
        ((append env s size key val del).2 = true ↔ (⟨env, size, key, val, del⟩ : Entry K V).Taken s)) := by
  obtain ⟨hw, hr0, hr1, hh, ha, hp, hc⟩ := hf
  unfold append Op.Careful Entry.Fair Entry.Taken
  by_cases hready : s.mux.latched = true ∨ segBytes - segHdrLen < size ∨ env.ready = false
  · rw [if_pos hready]
    refine ⟨h.steady, ⟨fun _ => .inl hready, fun _ => h.doomed⟩, fun ⟨_, hsize, hgo, _⟩ => absurd hready ?_⟩
    simpa [h.steady.latched] using ⟨hsize, hgo⟩
  simp only [hready, if_false, false_or]
  by_cases hroll : s.tier.segPba = 0 ∨ segBytes < s.tier.bump + size
  · simp only [if_pos hroll]
    cases env.alloc with
    | none => exact ⟨h.steady, ⟨fun _ _ hn => by simp at hn, fun _ => h.doomed⟩, fun hg => absurd rfl hg.2.2.2⟩
    | some pba =>
      simp only [Option.some.injEq, forall_eq', hr0, hr1]
      obtain ⟨hst1, -, hneg1, -⟩ := barrier_steady h.steady hh
      by_cases hlow1 : (barrier env.header s.mux).2 < 0
      · have hbad : ¬ (env.header.flush1 = .ok ∧ env.publish.flush1 = .ok) := fun hok => hneg1.mp hlow1 hok.1
        rw [if_pos hlow1, if_neg hbad]
        exact ⟨hst1, doom_kept_iff _, fun _ => iff_of_false Bool.false_ne_true (mt And.left hbad)⟩
      obtain ⟨hok, hst2, -⟩ := metaWrite_steady hst1 .root (some s.rtSeq)
      rw [if_neg hlow1, if_neg (ne_false_of_eq_true hok)]
      generalize (metaWrite true true .root (some s.rtSeq) (barrier env.header s.mux).1).1 = m at hst2
      have hst3 : Steady (if s.anchor then (barrier env.anchor m).1 else m) := by
        split_ifs
        · exact (barrier_steady hst2 ha).1
        · exact hst2
      obtain ⟨hst4, -, hneg4, -⟩ := barrier_steady hst3 hp
      by_cases hlow4 : (barrier env.publish (if s.anchor then (barrier env.anchor m).1 else m)).2 < 0
      · have hbad : ¬ (env.header.flush1 = .ok ∧ env.publish.flush1 = .ok) := fun hok => hneg4.mp hlow4 hok.2
        rw [if_pos hlow4, if_neg hbad]
        exact ⟨hst4, doom_kept_iff _, fun _ => iff_of_false Bool.false_ne_true (mt And.left hbad)⟩
      · have hgood : env.header.flush1 = .ok ∧ env.publish.flush1 = .ok :=
          ⟨not_not.mp (mt hneg1.mpr hlow1), not_not.mp (mt hneg4.mpr hlow4)⟩
        rw [if_neg hlow4, if_pos hgood]
        rw [and_iff_right hgood]
        exact (stage_kept_iff ⟨hst4, rfl⟩ hw hc).imp_right fun hkept => hkept.imp_right fun hret _ => hret
  · simp only [if_neg hroll]
    obtain ⟨hst5, hdoom, hret⟩ := stage_kept_iff h hw hc
    exact ⟨hst5, hdoom, fun _ => hret⟩

theorem Entry.append_sound {e : Entry K V} (hf : e.Fair) :
    ((e.append s).2 = true ↔ e.Taken s) ∧ (e.Taken s → Sound (e.append s).1) := by
  obtain ⟨hst, hdoom, hret⟩ := append_kept_iff h hf.1
  refine ⟨hret hf, fun ht => ⟨hst, hdoom.mpr (.inr ?_)⟩⟩
  -- a record that is taken leaves the staged ones alone
  unfold Entry.Taken at ht
  by_cases hroll : s.tier.segPba = 0 ∨ segBytes < s.tier.bump + e.size
  · rw [if_pos hroll] at ht ⊢
    intro pba halloc
    obtain ⟨hok, hcl⟩ := ht pba halloc
    rw [if_pos hok]
    exact hcl
  · rw [if_neg hroll] at ht ⊢
    exact ht

theorem drain_zero_iff {a : Barrier} (ha : a.devt = true) : (drain a s).2 = 0 ↔ Drains a s := by
  obtain ⟨-, -, -, hzero⟩ := barrier_steady h.steady ha
  unfold drain Drains Idle
  by_cases hidle : s.tier.ram.pending = 0 ∧ s.tier.ram.staged = []
  · rw [if_pos hidle]
    simp [hidle]
  · rw [if_neg hidle, ← hzero]
    dsimp only
    split_ifs with hz <;> simp [hz, hidle]

theorem drain_sound {a : Barrier} (ha : a.devt = true) (hz : (drain a s).2 = 0) : Sound (drain a s).1 := by
  have hst := (barrier_steady h.steady ha).1
  unfold drain at hz ⊢
  split_ifs at hz ⊢ with hidle
  · exact ⟨h.steady, h.doomed⟩
  · dsimp only at hz ⊢
    split_ifs at hz ⊢ with hrc
    · exact ⟨hst, rfl⟩
    · exact absurd hz hrc

omit h in
theorem appendAll_append (es fs : List (Entry K V)) (s : Tiered K V) : appendAll (es ++ fs) s =
      if (appendAll es s).2 then appendAll fs (appendAll es s).1 else appendAll es s := by
  induction es generalizing s with
  | nil => rfl
  | cons e es ih =>
    simp only [List.cons_append, appendAll]
    by_cases he : (e.append s).2 = true
    · simp only [if_pos he]
      exact ih _
    · simp only [if_neg he, Bool.false_eq_true, if_false]

omit h in
theorem ownerSync_eq {os : List (Owner K V)} (hos : ∀ o ∈ os, o.stored = true) (s : Tiered K V) :
    ownerSync os s = appendAll (os.flatMap Owner.recs) s := by
  induction os generalizing s with
  | nil => rfl
  | cons o os ih =>
    have hstored : ¬ o.stored = false := ne_false_of_eq_true (hos o List.mem_cons_self)
    rw [List.flatMap_cons, appendAll_append, ← ih fun o' ho' => hos o' (List.mem_cons_of_mem o ho')]
    dsimp only [ownerSync]
    rw [if_neg hstored]

/-- The records of the owners succeed and the drain does after the mirrors are in step. -/
theorem takesAll_iff {a : Barrier} {c : Commit} (ha : a.devt = true) (h0 : c.devt0 = true) (h1 : c.devt1 = true)
    {es : List (Entry K V)} (hes : ∀ e ∈ es, e.Fair) :
    (TakesAll a es s ↔ (appendAll es s).2 = true ∧
      (drain a { (appendAll es s).1 with mux := (commitMirror c (appendAll es s).1.mux).1 }).2 = 0) ∧
    ((appendAll es s).2 = true → Sound (appendAll es s).1) := by
  induction es generalizing s with
  | nil =>
    obtain ⟨-, hst, hskip⟩ := commit_steady h.steady h0 h1
    have hsound : Sound { s with mux := (commitMirror c s.mux).1 } := ⟨hst, h.doomed⟩
    have hzero := drain_zero_iff hsound ha
    refine ⟨?_, fun _ => h⟩
    dsimp only [appendAll, TakesAll]
    rw [hzero]
    unfold Drains Idle
    rw [hskip]
    exact (and_iff_right rfl).symm
  | cons e es ih =>
    obtain ⟨hret, hnext⟩ := e.append_sound h (hes e List.mem_cons_self)
    dsimp only [appendAll, TakesAll]
    by_cases ht : e.Taken s
    · rw [if_pos (hret.mpr ht), and_iff_right ht]
      exact ih (hnext ht) fun e' he' => hes e' (List.mem_cons_of_mem e he')
    · rw [if_neg (mt hret.mp ht)]
      exact ⟨iff_of_false (mt And.left ht) fun hb => Bool.false_ne_true hb.1, fun hb => absurd hb Bool.false_ne_true⟩

theorem sync_zero {env : SyncEnv K V} (hf : (Op.sync env).Fair) :
    ((sync env s).2 = 0 ↔ (Op.sync env).Careful s) ∧ ((sync env s).2 = 0 → Sound (sync env s).1) := by
  obtain ⟨hb, hfl, hos, ⟨hc0, hc1⟩, hd, hla⟩ := hf
  obtain ⟨hst1, -, hneg1, -⟩ := barrier_steady h.steady hfl
  unfold sync Op.Careful
  rw [if_neg (ne_false_of_eq_true hb)]
  dsimp only
  by_cases hlow : (barrier env.flush s.mux).2 < 0
  · rw [if_pos hlow]
    simp [hneg1.mp hlow]
  have hflush : env.flush.flush1 = .ok := not_not.mp (mt hneg1.mpr hlow)
  have hes : ∀ e ∈ env.owners.flatMap Owner.recs, e.Fair := fun e he => by
    obtain ⟨o, ho, heo⟩ := List.mem_flatMap.mp he
    exact (hos o ho).2 e heo
  have hsound1 : Sound { s with mux := (barrier env.flush s.mux).1 } := ⟨hst1, h.doomed⟩
  obtain ⟨htakes, hkept⟩ := takesAll_iff hsound1 hd hc0 hc1 hes
  rw [if_neg hlow, ownerSync_eq fun o ho => (hos o ho).1, htakes, and_iff_right hflush]
  generalize appendAll (env.owners.flatMap Owner.recs) { s with mux := (barrier env.flush s.mux).1 } = o at hkept
  by_cases ho : o.2 = true
  · obtain ⟨hok, hst2, -⟩ := commit_steady (hkept ho).steady hc0 hc1
    have hsound2 : Sound { o.1 with mux := (commitMirror env.commit o.1.mux).1 } := ⟨hst2, (hkept ho).doomed⟩
    have hkeeps := drain_sound hsound2 hd
    rw [if_neg (ne_false_of_eq_true ho), if_neg (ne_false_of_eq_true hok), and_iff_right ho]
    generalize drain env.drain { o.1 with mux := (commitMirror env.commit o.1.mux).1 } = d at hkeeps
    by_cases hz : d.2 = 0
    · obtain ⟨hst3, -, hneg3, -⟩ := barrier_steady (hkeeps hz).steady hla
      rw [if_neg (not_not.mpr hz), and_iff_left hz]
      by_cases hlow3 : (barrier env.last d.1.mux).2 < 0
      · rw [if_pos hlow3]
        simp [hneg3.mp hlow3]
      · rw [if_neg hlow3]
        exact ⟨by simp [not_not.mp (mt hneg3.mpr hlow3)], fun _ => ⟨hst3, (hkeeps hz).doomed⟩⟩
    · rw [if_pos hz]
      simp [hz]
  · rw [if_pos (eq_false_of_ne_true ho)]
    simp [ho]

theorem op_kept_iff {op : Op K V} (hf : op.Fair) :
    (op.Kept s ↔ op.Careful s) ∧ (op.Careful s → Sound (op.run s).1) := by
  cases op with
  | append env size key val del =>
    obtain ⟨hst, hiff, -⟩ := append_kept_iff h hf
    exact ⟨⟨fun hk => hiff.mp hk.2, fun hc => ⟨trivial, hiff.mpr hc⟩⟩, fun hc => ⟨hst, hiff.mpr hc⟩⟩
  | drain a =>
    have hiff := drain_zero_iff h hf
    refine ⟨⟨fun hk => hiff.mp hk.1, fun hc => ?_⟩, fun hc => drain_sound h hf (hiff.mpr hc)⟩
    exact ⟨hiff.mpr hc, (drain_sound h hf (hiff.mpr hc)).doomed⟩
  | sync env =>
    obtain ⟨hiff, hkeeps⟩ := sync_zero h hf
    refine ⟨⟨fun hk => hiff.mp hk.1, fun hc => ?_⟩, fun hc => hkeeps (hiff.mpr hc)⟩
    exact ⟨hiff.mpr hc, (hkeeps (hiff.mpr hc)).doomed⟩

end

/-- In a run in which nothing fails but flushes, all drains and syncs succeed and no record is doomed if
and only if every operation of the run is careful. -/
theorem drains_succeed_iff (h : Sound s) (ops : List (Op K V)) (hf : ∀ op ∈ ops, op.Fair) :
    Always (fun s op => op.Kept s) ops s ↔ Always (fun s op => op.Careful s) ops s := by
  induction ops generalizing s with
  | nil => simp [Always]
  | cons op ops ih =>
    obtain ⟨hiff, hnext⟩ := op_kept_iff h (hf op (by simp))
    have hrest := fun op' h' => hf op' (List.mem_cons_of_mem op h')
    constructor
    · rintro ⟨hk, hall⟩
      exact ⟨hiff.mp hk, (ih (hnext (hiff.mp hk)) hrest).mp hall⟩
    · rintro ⟨hc, hall⟩
      exact ⟨hiff.mpr hc, (ih (hnext hc) hrest).mpr hall⟩

section

def calm : Barrier := ⟨.ok, true, .ok⟩

def dropping : Barrier := ⟨.refused [], true, .ok⟩

def calmAppend : AppendEnv := ⟨true, none, calm, true, true, calm, calm, true, calm⟩

def freshTiered : Tiered Nat Nat :=
  ⟨⟨5, segHdrLen, 8, 4096, Ram.empty⟩, ⟨⟨fun _ => some 0, []⟩, ⟨fun _ => some 0, []⟩, false, false, none, 0, false⟩,
    false, 0⟩

theorem freshTiered_sound : Sound freshTiered := ⟨⟨rfl, rfl, rfl⟩, rfl⟩

/-- The record that names the second copies. -/
def copies : Owner Nat Nat := ⟨true, [⟨{ calmAppend with alloc := some 9 }, 20, 2, 6, false⟩]⟩

/-- A sync that stages the names of second copies drains them. Device 0 is lost after that, and the sync
that loses it finds nothing staged. -/
theorem drains_succeed_idle : Always (fun s op => op.Kept s)
      [.append calmAppend 20 1 7 false, .drain calm, .sync ⟨true, calm, [copies], ⟨.done, true, true⟩, calm, calm⟩,
        .sync ⟨true, dropping, [], ⟨.done, true, true⟩, calm, calm⟩]
      freshTiered := by
  refine (drains_succeed_iff freshTiered_sound _ ?_).mpr ?_
  · simp [Op.Fair, Entry.Fair, AppendEnv.Fair, copies, calmAppend, calm, dropping, segBytes, segHdrLen, segBlocks,
      blockSize]
  · exact ⟨.inr fun _ => rfl, .inr ⟨rfl, rfl, rfl⟩, ⟨rfl, rfl, fun _ => rfl, .inr ⟨rfl, rfl, rfl⟩⟩,
      ⟨rfl, rfl, .inl ⟨rfl, rfl⟩⟩, trivial⟩

/-- One record is staged. With device 0 failing, the drain answers 1 and takes the record away again, and
a sync fails. A sync fails in the same way where nothing is staged but an index of second copies is
waiting for it. -/
theorem dropped_device_dooms : let s := (append calmAppend freshTiered 20 1 7 false).1
    s.tier.view (fun _ => none) 1 = some 7 ∧ (drain dropping s).2 = 1 ∧ (drain dropping s).1.tier.ram.doomed = 1 ∧
      (drain dropping s).1.tier.view (fun _ => none) 1 = none ∧
      (sync ⟨true, dropping, [], ⟨.done, true, true⟩, calm, calm⟩ s).2 = -1 ∧
      (sync ⟨true, dropping, [], ⟨.done, true, true⟩, calm, calm⟩ s).1.tier.ram.doomed = 1 ∧
      (sync ⟨true, dropping, [copies], ⟨.done, true, true⟩, calm, calm⟩ freshTiered).2 = -1 ∧
      (sync ⟨true, dropping, [copies], ⟨.done, true, true⟩, calm, calm⟩ freshTiered).1.tier.ram.doomed = 1 := by
  decide +kernel

end

end InvariantFs.MuxDrain
