import InvariantFs.Mux

namespace InvariantFs.MuxMirror

open CachedStore Mux List Option Function Nat

/-- A two-device volume over its sessions, with what the last acknowledged barrier covered and what was
written behind it. -/
structure Mirror where
  vol : Vol
  said : Place → Option Nat
  later : List (Place × Option Nat)

def Mirror.now (s : Mirror) : Place → Option Nat :=
  s.later.foldl (fun c e => update c e.1 e.2) s.said

/-- Where the power is cut: between two calls, between the two flushes of a barrier, or while a stale span
is copied. -/
inductive Point where
  | rest
  | half (a : Barrier)
  | copying (c : Copy)

def Point.reach (pt : Point) (v : Vol) : Vol :=
  match pt with
  | .rest => v
  | .half a => (barrier0 a v).1
  | .copying c =>
    match v.resync with
    | none => v
    | some winner => mirrorResync c winner v

def left0 (pt : Point) (kept : List Bool) (v : Vol) : Place → Option Nat :=
  ((pt.reach v).dev0.tear kept).durable

def left1 (pt : Point) (kept : List Bool) (v : Vol) : Place → Option Nat :=
  ((pt.reach v).dev1.tear kept).durable

def source (c0 c1 : Place → Option Nat) : Place → Option Nat :=
  match mirrorCompare c0 c1 with
  | some false => c1
  | _ => c0

inductive Step where
  | write (ok0 ok1 : Bool) (p : Place) (x : Option Nat)
  | barrier (a : Barrier)
  | commit (a : Commit)
  | crash (pt : Point) (kept0 kept1 : List Bool)

def Step.run (s : Mirror) : Step → Mirror
  | .write ok0 ok1 p x =>
    let r := metaWrite ok0 ok1 p x s.vol
    { s with vol := r.1, later := if r.2 then s.later ++ [(p, x)] else s.later }
  | .barrier a =>
    let r := Mux.barrier a s.vol
    if r.2 < 0 then { s with vol := r.1 } else ⟨r.1, s.now, []⟩
  | .commit a => { s with vol := (commitMirror a s.vol).1 }
  | .crash pt kept0 kept1 =>
    let c0 := left0 pt kept0 s.vol
    let c1 := left1 pt kept1 s.vol
    match openVol c0 c1 with
    | none => s
    | some v => ⟨v, source c0 c1, []⟩

/-- Every acknowledged write is there, or a later one to the same place. The table is the mux's own. -/
def Holds (s : Mirror) (c : Place → Option Nat) : Prop :=
  ∀ p, p ≠ .devt → c p = s.said p ∨ (p, c p) ∈ s.later

def KnownStale (v : Vol) : Bool → Prop
  | false => v.skip0 = true ∨ v.resync = some true
  | true => v.skip1 = true ∨ v.resync = some false

def ReadsFresh (v : Vol) : Prop :=
  ∀ io0 io1 p dev x, metaRead io0 io1 v p = some (dev, x) → ¬ KnownStale v dev

/-- What is promised of a step: about the reads in front of it, and about the next open if it is a
power cut. -/
def Step.Kept (s : Mirror) (step : Step) : Prop :=
  ReadsFresh s.vol ∧
    match step with
    | .crash pt kept0 kept1 =>
      let c0 := left0 pt kept0 s.vol
      let c1 := left1 pt kept1 s.vol
      match mirrorCompare c0 c1 with
      | none => c0 = c1
      | some _ => Holds s (source c0 c1)
    | _ => True

/-- The copy of a stale span takes over nothing that is still buffered, and if it breaks off, it has not
reached the table. -/
def Copies (v : Vol) : Copy → Prop
  | .done => v.dev1.pending = []
  | .broken _ copied => copied .devt = false

def SameLoss (v : Vol) (kept0 kept1 : List Bool) : Prop :=
  marked kept0 v.dev0.pending = marked kept1 v.dev1.pending

def Step.Careful (s : Mirror) : Step → Prop
  | .write ok0 ok1 p _ => p ≠ .devt ∧ ok1 = true ∧ (s.vol.skip0 = true ∨ ok0 = true)
  | .barrier a => a.devt = true ∧ a.flush1 = .ok
  | .commit a =>
    a.devt0 = true ∧ a.devt1 = true ∧
      (s.vol.resync = none ∨
        Copies s.vol a.copy ∧ ∀ n, s.vol.dev1.durable .devt = some n → n ≤ s.vol.seq + 1)
  | .crash .rest kept0 kept1 => s.vol.skip0 = true ∨ SameLoss s.vol kept0 kept1
  | .crash (.half a) _ kept1 =>
    a.devt = true ∧
      (s.vol.skip0 = true ∨
        marked kept1 (barrier0 a s.vol).1.dev1.pending = (barrier0 a s.vol).1.dev1.pending)
  | .crash (.copying c) kept0 kept1 =>
    match s.vol.resync with
    | none => s.vol.skip0 = true ∨ SameLoss s.vol kept0 kept1
    | some _ => Copies s.vol c

def Always (P : Mirror → Step → Prop) : List Step → Mirror → Prop
  | [], _ => True
  | step :: steps, s => P s step ∧ Always P steps (step.run s)

section

variable {v : Vol} {p : Place} {x : Option Nat}

theorem metaWrite_both (h0 : v.skip0 = false) (h1 : v.skip1 = false) : metaWrite true true p x v =
      ({ v with dev0 := v.dev0.write p fun _ => x, dev1 := v.dev1.write p fun _ => x }, true) := by
  simp [metaWrite, h0, h1]

theorem metaWrite_one (h0 : v.skip0 = true) (h1 : v.skip1 = false) (ok0 : Bool) :
    metaWrite ok0 true p x v = ({ v with dev1 := v.dev1.write p fun _ => x }, true) := by
  simp [metaWrite, h0, h1]

theorem barrier0_refused {a : Barrier} {kept : List Bool} (h0 : v.skip0 = false) (h1 : v.skip1 = false)
    (hf : a.flush0 = .refused kept) (hdevt : a.devt = true) :
    barrier0 a v =
      ({ v with
          dev0 := v.dev0.tear kept, skip0 := true, seq := v.seq + 1,
          dev1 := v.dev1.write .devt fun _ => some (v.seq + 1) }, true) := by
  simp [barrier0, h0, hf, hdevt, writeDevt, metaWrite, h1]

end

structure Tabled (P : Nat → Prop) (d : Span) : Prop where
  durable : ∃ n, d.durable .devt = some n ∧ P n
  pending : ∀ q ∈ d.pending, q.cell = .devt → ∀ x, ∃ n, q.edit x = some n ∧ P n

section

variable {P Q : Nat → Prop} {d : Span}

theorem Tabled.mono (h : Tabled P d) (hpq : ∀ n, P n → Q n) : Tabled Q d := by
  obtain ⟨⟨n, hn, hp⟩, hpend⟩ := h
  refine ⟨⟨n, hn, hpq n hp⟩, fun q hq hc x => ?_⟩
  obtain ⟨m, hm, hp'⟩ := hpend q hq hc x
  exact ⟨m, hm, hpq m hp'⟩

theorem Tabled.tear (h : Tabled P d) (kept : List Bool) : ∃ n, (d.tear kept).durable .devt = some n ∧ P n :=
  tear_keeps (fun x => ∃ n, x = some n ∧ P n) d kept .devt h.durable fun q hq hc x _ => h.pending q hq hc x

theorem Tabled.fence (h : Tabled P d) : Tabled P d.fence :=
  ⟨view_keeps (fun x => ∃ n, x = some n ∧ P n) d .devt h.durable fun q hq hc x _ => h.pending q hq hc x, by simp⟩

theorem Tabled.write (h : Tabled P d) {p : Place} {x : Option Nat}
    (hx : p = .devt → ∃ n, x = some n ∧ P n) : Tabled P (d.write p fun _ => x) := by
  refine ⟨h.durable, fun q hq hc y => ?_⟩
  obtain hq | hq := mem_append.mp hq
  · exact h.pending q hq hc y
  · obtain rfl := mem_singleton.mp hq
    exact hx hc

end

/-- A device that has missed nothing: it holds what was said, and has buffered what was written later. -/
structure Fresh (s : Mirror) (d : Span) : Prop where
  durable : ∀ p, p ≠ .devt → d.durable p = s.said p
  view : ∀ p, p ≠ .devt → d.view p = s.now p
  pending : ∀ q ∈ d.pending, q.cell ≠ .devt → ∃ x, q.edit = (fun _ => x) ∧ (q.cell, x) ∈ s.later

section

variable {s : Mirror} {d : Span}

theorem Fresh.holds (h : Fresh s d) (kept : List Bool) : Holds s (d.tear kept).durable := by
  intro p hp
  refine tear_keeps (fun x => x = s.said p ∨ (p, x) ∈ s.later) d kept p (.inl (h.durable p hp)) ?_
  rintro q hq rfl y -
  obtain ⟨x, hx, hmem⟩ := h.pending q hq hp
  rw [hx]
  exact .inr hmem

theorem Fresh.write_devt (h : Fresh s d) (x : Option Nat) (v : Vol) :
    Fresh { s with vol := v } (d.write .devt fun _ => x) := by
  refine ⟨h.durable, fun p hp => ?_, fun q hq hc => ?_⟩
  · rw [view_write_ne _ hp]
    exact h.view p hp
  · obtain hq | hq := mem_append.mp hq
    · exact h.pending q hq hc
    · obtain rfl := mem_singleton.mp hq
      exact absurd rfl hc

theorem Fresh.write (h : Fresh s d) (p : Place) (x : Option Nat) (v : Vol) :
    Fresh ⟨v, s.said, s.later ++ [(p, x)]⟩ (d.write p fun _ => x) := by
  refine ⟨h.durable, fun q hq => ?_, fun q hq hc => ?_⟩
  · have hnow : Mirror.now ⟨v, s.said, s.later ++ [(p, x)]⟩ = update s.now p x := by simp [Mirror.now]
    rw [hnow, view_write]
    by_cases hqp : q = p
    · rw [hqp, update_self, update_self]
    · rw [update_of_ne hqp, update_of_ne hqp, h.view q hq]
  · obtain hq | hq := mem_append.mp hq
    · obtain ⟨y, hy, hmem⟩ := h.pending q hq hc
      exact ⟨y, hy, mem_append_left _ hmem⟩
    · obtain rfl := mem_singleton.mp hq
      exact ⟨x, rfl, by simp⟩

theorem Fresh.fence (h : Fresh s d) (v : Vol) : Fresh ⟨v, s.now, []⟩ d.fence := ⟨h.view, h.view, by simp⟩

theorem fresh_opened (v : Vol) (c : Place → Option Nat) : Fresh ⟨v, c, []⟩ ⟨c, []⟩ :=
  ⟨fun _ _ => rfl, fun _ _ => rfl, by simp⟩

end

structure InStep (v : Vol) : Prop where
  skip0 : v.skip0 = false
  resync : v.resync = none
  same : v.dev0 = v.dev1
  tabled : Tabled (· ≤ v.seq) v.dev1

/-- Device 0 is dropped, and whatever a power cut leaves of the table on device 1 is newer. -/
structure Behind (v : Vol) (t : Nat) : Prop where
  skip0 : v.skip0 = true
  resync : v.resync ≠ some false
  idle : v.dev0.pending = []
  table : v.dev0.durable .devt = some t
  seq : t ≤ v.seq
  tabled : Tabled (t < ·) v.dev1

structure Sound (s : Mirror) : Prop where
  skip1 : s.vol.skip1 = false
  fresh : Fresh s s.vol.dev1
  state : InStep s.vol ∨ ∃ t, Behind s.vol t

variable {s : Mirror}

theorem Sound.resync (h : Sound s) : s.vol.resync ≠ some false := by
  obtain hin | ⟨t, hb⟩ := h.state
  · simp [hin.resync]
  · exact hb.resync

theorem Sound.readsFresh (h : Sound s) : ReadsFresh s.vol := by
  intro io0 io1 p dev x hread
  have hdev1 : ¬ KnownStale s.vol true := by simp [KnownStale, h.skip1, h.resync]
  unfold metaRead at hread
  split_ifs at hread with h0 h1
  · obtain ⟨rfl, -⟩ := Prod.mk.inj (some.inj hread)
    obtain hin | ⟨t, hb⟩ := h.state
    · simp [KnownStale, hin.skip0, hin.resync]
    · exact absurd hb.skip0 h0.1
  · obtain ⟨rfl, -⟩ := Prod.mk.inj (some.inj hread)
    exact hdev1

theorem sound_write {ok0 ok1 : Bool} {p : Place} {x : Option Nat} (h : Sound s)
    (hc : (Step.write ok0 ok1 p x).Careful s) : Sound ((Step.write ok0 ok1 p x).run s) := by
  obtain ⟨hp, rfl, hok0⟩ := hc
  have hx : ∀ P : Nat → Prop, p = .devt → ∃ n, x = some n ∧ P n := fun _ he => absurd he hp
  obtain hin | ⟨t, hb⟩ := h.state
  · obtain rfl : ok0 = true := hok0.resolve_left (by simp [hin.skip0])
    simp only [Step.run, metaWrite_both hin.skip0 h.skip1]
    refine ⟨h.skip1, h.fresh.write p x _, .inl ⟨hin.skip0, hin.resync, ?_, hin.tabled.write (hx _)⟩⟩
    rw [hin.same]
  · simp only [Step.run, metaWrite_one hb.skip0 h.skip1, if_true]
    exact ⟨h.skip1, h.fresh.write p x _,
      .inr ⟨t, hb.skip0, hb.resync, hb.idle, hb.table, hb.seq, hb.tabled.write (hx _)⟩⟩

theorem behind_dropped {v : Vol} (h : InStep v) (kept : List Bool) :
    ∃ t, (v.dev0.tear kept).durable .devt = some t ∧ t < v.seq + 1 := by
  obtain ⟨t, ht, hle⟩ := h.tabled.tear kept
  exact ⟨t, by rw [h.same, ht], lt_succ_of_le hle⟩

theorem sound_barrier {a : Barrier} (h : Sound s) (hc : (Step.barrier a).Careful s) :
    Sound ((Step.barrier a).run s) := by
  obtain ⟨hdevt, hflush1⟩ := hc
  obtain hin | ⟨t, hb⟩ := h.state
  · cases hf : a.flush0 with
    | ok =>
      have hrun : Mux.barrier a s.vol =
          ({ s.vol with dev0 := s.vol.dev0.fence, dev1 := s.vol.dev1.fence }, 0) := by
        simp [Mux.barrier, barrier0, hin.skip0, hf, hflush1]
      simp only [Step.run, hrun, Int.lt_irrefl, if_false]
      refine ⟨h.skip1, h.fresh.fence _, .inl ⟨hin.skip0, hin.resync, ?_, hin.tabled.fence⟩⟩
      rw [hin.same]
    | refused kept =>
      have hrun : Mux.barrier a s.vol =
          ({ s.vol with
              dev0 := s.vol.dev0.tear kept, skip0 := true, seq := s.vol.seq + 1,
              dev1 := (s.vol.dev1.write .devt fun _ => some (s.vol.seq + 1)).fence }, 1) := by
        simp [Mux.barrier, barrier0_refused hin.skip0 h.skip1 hf hdevt, hflush1]
      simp only [Step.run, hrun]
      obtain ⟨t, ht, hlt⟩ := behind_dropped hin kept
      have hdev1 : Tabled (t < ·) (s.vol.dev1.write .devt fun _ => some (s.vol.seq + 1)).fence :=
        ⟨⟨_, view_write_self _ _ _, hlt⟩, by simp⟩
      exact ⟨h.skip1, (h.fresh.write_devt _ s.vol).fence _,
        .inr ⟨t, rfl, by simp [hin.resync], rfl, ht, Nat.le_of_lt hlt, hdev1⟩⟩
  · have hrun : Mux.barrier a s.vol = ({ s.vol with dev1 := s.vol.dev1.fence }, 1) := by
      simp [Mux.barrier, barrier0, hb.skip0, hflush1]
    simp only [Step.run, hrun, (by decide : ¬ (1 : Int) < 0), if_false]
    exact ⟨h.skip1, h.fresh.fence _, .inr ⟨t, hb.skip0, hb.resync, hb.idle, hb.table, hb.seq, hb.tabled.fence⟩⟩

theorem resync_behind {v : Vol} {t : Nat} {c : Copy} (hb : Behind v t) (hcopy : Copies v c) :
    (c = .done ∧ mirrorResync c true v = { v with dev0 := v.dev1, skip0 := false, resync := none }) ∨
      ∃ d, mirrorResync c true v = { v with dev0 := d } ∧ d.pending = [] ∧ d.durable .devt = some t := by
  cases c with
  | done =>
    refine .inl ⟨rfl, ?_⟩
    have hsame : v.dev1.fence = v.dev1 := fence_idle hcopy
    have hrun : mirrorResync .done true v = { v with dev0 := v.dev1.fence, skip0 := false, resync := none } := rfl
    rw [hrun, hsame]
  | broken kept copied =>
    refine .inr ⟨_, rfl, rfl, ?_⟩
    have hnot : copied .devt = false := hcopy
    simp [Copy.apply, hnot, tear_idle hb.idle, hb.table]

theorem commit_vol {a : Commit} {v w : Vol} (hw : (Point.copying a.copy).reach v = w) (hskip : w.skip1 = false)
    (h0 : a.devt0 = true) (h1 : a.devt1 = true) :
    (commitMirror a v).1 =
      { w with
        seq := w.seq + 1
        dev0 := if w.skip0 then w.dev0 else w.dev0.write .devt fun _ => some (w.seq + 1)
        dev1 := w.dev1.write .devt fun _ => some (w.seq + 1) } := by
  have hdevt : (writeDevt a.devt0 a.devt1 { w with seq := w.seq + 1 }).2 = true := by
    simp [h0, h1, writeDevt, metaWrite, hskip]
  have hcommit : (commitMirror a v).1 = (writeDevt a.devt0 a.devt1 { w with seq := w.seq + 1 }).1 := by
    subst hw
    cases hr : v.resync with
    | none | some winner => grind [commitMirror, Point.reach]
  rw [hcommit, h0, h1, writeDevt]
  cases hs : w.skip0 with
  | false => simp [metaWrite, hskip]
  | true => simp [metaWrite, hskip]

theorem sound_commit {a : Commit} (h : Sound s) (hc : (Step.commit a).Careful s) : Sound ((Step.commit a).run s) := by
  obtain ⟨h0, h1, hcopy⟩ := hc
  unfold Step.run
  obtain hin | ⟨t, hb⟩ := h.state
  · have hreach : (Point.copying a.copy).reach s.vol = s.vol := by simp [Point.reach, hin.resync]
    dsimp only
    rw [commit_vol hreach h.skip1 h0 h1, hin.skip0]
    refine ⟨h.skip1, h.fresh.write_devt _ _, .inl ⟨rfl, hin.resync, ?_, ?_⟩⟩
    · simp [hin.same]
    · exact (hin.tabled.mono fun n hn => Nat.le_succ_of_le hn).write fun _ => ⟨_, rfl, Nat.le_refl _⟩
  · -- the counter that goes to device 1 is newer than the one on device 0 as long as that is dropped
    have hnew : t < s.vol.seq + 1 := lt_succ_of_le hb.seq
    have hstays : ∀ d : Span, d.pending = [] → d.durable .devt = some t →
        (Point.copying a.copy).reach s.vol = { s.vol with dev0 := d } →
        Sound { s with vol := (commitMirror a s.vol).1 } := by
      intro d hidle htable hreach
      rw [commit_vol hreach h.skip1 h0 h1]
      refine ⟨h.skip1, h.fresh.write_devt _ _, .inr ⟨t, hb.skip0, hb.resync, ?_, ?_, Nat.le_of_lt hnew, ?_⟩⟩
      · simpa [hb.skip0] using hidle
      · simpa [hb.skip0] using htable
      · exact hb.tabled.write fun _ => ⟨_, rfl, hnew⟩
    cases hr : s.vol.resync with
    | none =>
      have hreach : (Point.copying a.copy).reach s.vol = s.vol := by simp [Point.reach, hr]
      exact hstays s.vol.dev0 hb.idle hb.table hreach
    | some winner =>
      obtain rfl := eq_true_of_ne_false fun hno => hb.resync (hno ▸ hr)
      have hreach : (Point.copying a.copy).reach s.vol = mirrorResync a.copy true s.vol := by simp [Point.reach, hr]
      obtain ⟨hcopy, hseq⟩ := hcopy.resolve_left (by simp [hr])
      obtain ⟨hdone, hrun⟩ | ⟨d, hrun, hidle, htable⟩ := resync_behind hb hcopy
      · have hidle : s.vol.dev1.pending = [] := by
          rw [hdone] at hcopy
          exact hcopy
        obtain ⟨n, hn, -⟩ := hb.tabled.durable
        have hle : Tabled (· ≤ s.vol.seq + 1) s.vol.dev1 := ⟨⟨n, hn, hseq n hn⟩, by simp [hidle]⟩
        dsimp only
        rw [commit_vol (hreach.trans hrun) h.skip1 h0 h1]
        exact ⟨h.skip1, h.fresh.write_devt _ _, .inl ⟨rfl, rfl, rfl, hle.write fun _ => ⟨_, rfl, Nat.le_refl _⟩⟩⟩
      · exact hstays d hidle htable (hreach.trans hrun)

variable {pt : Point} {kept0 kept1 : List Bool}

theorem crash_cases (h : Sound s) (hc : (Step.crash pt kept0 kept1).Careful s) :
    (∃ n, left0 pt kept0 s.vol .devt = some n ∧ left0 pt kept0 s.vol = left1 pt kept1 s.vol) ∨
      ∃ t n, left0 pt kept0 s.vol .devt = some t ∧ left1 pt kept1 s.vol .devt = some n ∧ t < n ∧
        Holds s (left1 pt kept1 s.vol) := by
  have hrest : (s.vol.skip0 = true ∨ SameLoss s.vol kept0 kept1) → ∀ u : Vol, u.dev0 = s.vol.dev0 →
      u.dev1 = s.vol.dev1 →
      (∃ n, (u.dev0.tear kept0).durable .devt = some n ∧
        (u.dev0.tear kept0).durable = (u.dev1.tear kept1).durable) ∨
      ∃ t n, (u.dev0.tear kept0).durable .devt = some t ∧ (u.dev1.tear kept1).durable .devt = some n ∧ t < n ∧
        Holds s (u.dev1.tear kept1).durable := by
    intro hcare u hu0 hu1
    rw [hu0, hu1]
    obtain hin | ⟨t, hb⟩ := h.state
    · have hloss : SameLoss s.vol kept0 kept1 := hcare.resolve_left (by simp [hin.skip0])
      obtain ⟨n, hn, -⟩ := hin.tabled.tear kept1
      have hsame : (s.vol.dev0.tear kept0).durable = (s.vol.dev1.tear kept1).durable := by
        rw [Store.tear, Store.tear, hloss, hin.same]
      exact .inl ⟨n, by rw [hsame, hn], hsame⟩
    · obtain ⟨n, hn, hlt⟩ := hb.tabled.tear kept1
      exact .inr ⟨t, n, by rw [tear_idle hb.idle, hb.table], hn, hlt, h.fresh.holds kept1⟩
  cases pt with
  | rest => exact hrest hc s.vol rfl rfl
  | half a =>
    obtain ⟨hdevt, hall⟩ := hc
    simp only [left0, left1, Point.reach]
    obtain hin | ⟨t, hb⟩ := h.state
    · have hall := hall.resolve_left (by simp [hin.skip0])
      cases hf : a.flush0 with
      | ok =>
        have hrun : (barrier0 a s.vol).1 = { s.vol with dev0 := s.vol.dev0.fence } := by
          simp [barrier0, hin.skip0, hf]
        rw [hrun] at hall ⊢
        obtain ⟨n, hn, -⟩ := hin.tabled.fence.durable
        rw [tear_marked hall, tear_idle (pending_fence _), hin.same]
        exact .inl ⟨n, hn, rfl⟩
      | refused kept =>
        rw [barrier0_refused hin.skip0 h.skip1 hf hdevt] at hall ⊢
        obtain ⟨t, ht, hlt⟩ := behind_dropped hin kept
        refine .inr ⟨t, s.vol.seq + 1, ?_, ?_, hlt, (h.fresh.write_devt _ s.vol).holds kept1⟩
        · rw [tear_idle (pending_tear _ _), ht]
        · dsimp only at hall ⊢
          rw [tear_marked hall]
          exact view_write_self _ _ _
    · have hrun : (barrier0 a s.vol).1 = s.vol := by simp [barrier0, hb.skip0]
      exact hrest (.inl hb.skip0) _ (by rw [hrun]) (by rw [hrun])
  | copying c =>
    simp only [left0, left1, Point.reach]
    unfold Step.Careful at hc
    cases hr : s.vol.resync with
    | none =>
      rw [hr] at hc
      exact hrest hc s.vol rfl rfl
    | some winner =>
      rw [hr] at hc
      obtain rfl := eq_true_of_ne_false fun hno => h.resync (hno ▸ hr)
      obtain hin | ⟨t, hb⟩ := h.state
      · exact absurd hin.resync (by simp [hr])
      dsimp only
      obtain ⟨hdone, hrun⟩ | ⟨d, hrun, hidle, htable⟩ := resync_behind hb hc
      · have hidle : s.vol.dev1.pending = [] := by
          rw [hdone] at hc
          exact hc
        obtain ⟨n, hn, -⟩ := hb.tabled.durable
        rw [hrun]
        refine .inl ⟨n, ?_, ?_⟩
        · rw [tear_idle hidle, hn]
        · rw [tear_idle hidle, tear_idle hidle]
      · obtain ⟨n, hn, hlt⟩ := hb.tabled.tear kept1
        rw [hrun]
        exact .inr ⟨t, n, by rw [tear_idle hidle, htable], hn, hlt, h.fresh.holds kept1⟩

theorem compare_behind {c0 c1 : Place → Option Nat} {t n : Nat} (h0 : c0 .devt = some t) (h1 : c1 .devt = some n)
    (h : t < n) : mirrorCompare c0 c1 = some false := by
  have hne : t ≠ n := Nat.ne_of_lt h
  have hle : ¬ n < t := Nat.lt_asymm h
  simp [mirrorCompare, behind, h0, h1, hne, hle]

theorem crash_kept (h : Sound s) (hc : (Step.crash pt kept0 kept1).Careful s) :
    (Step.crash pt kept0 kept1).Kept s ∧ Sound ((Step.crash pt kept0 kept1).run s) := by
  unfold Step.Kept Step.run
  obtain ⟨n, hn, hsame⟩ | ⟨t, n, h0, h1, hlt, hholds⟩ := crash_cases h hc
  · have hsource : source (left0 pt kept0 s.vol) (left1 pt kept1 s.vol) = left1 pt kept1 s.vol := by
      simp [source, hsame, mirrorCompare_self]
    rw [hsame] at hn
    have hopen : openVol (left0 pt kept0 s.vol) (left1 pt kept1 s.vol) =
        some ⟨⟨left1 pt kept1 s.vol, []⟩, ⟨left1 pt kept1 s.vol, []⟩, false, false, none, n, false⟩ := by
      simp [openVol, hsame, hn, mirrorCompare_self]
    dsimp only
    rw [hopen, hsource, hsame, mirrorCompare_self]
    refine ⟨⟨h.readsFresh, rfl⟩, rfl, fresh_opened _ _, .inl ⟨rfl, rfl, rfl, ⟨n, hn, Nat.le_refl n⟩, by simp⟩⟩
  · have hcmp := compare_behind h0 h1 hlt
    have hsource : source (left0 pt kept0 s.vol) (left1 pt kept1 s.vol) = left1 pt kept1 s.vol := by
      simp [source, hcmp]
    have hopen : openVol (left0 pt kept0 s.vol) (left1 pt kept1 s.vol) =
        some ⟨⟨left0 pt kept0 s.vol, []⟩, ⟨left1 pt kept1 s.vol, []⟩, true, false, some true, t, false⟩ := by
      simp [openVol, h0, h1, hcmp]
    dsimp only
    rw [hopen, hsource, hcmp]
    refine ⟨⟨h.readsFresh, hholds⟩, rfl, fresh_opened _ _, .inr ⟨t, rfl, by simp, rfl, h0, Nat.le_refl t, ?_⟩⟩
    exact ⟨⟨n, h1, hlt⟩, by simp⟩

theorem step_kept {step : Step} (h : Sound s) (hc : step.Careful s) : step.Kept s ∧ Sound (step.run s) := by
  cases step with
  | write ok0 ok1 p x => exact ⟨⟨h.readsFresh, trivial⟩, sound_write h hc⟩
  | barrier a => exact ⟨⟨h.readsFresh, trivial⟩, sound_barrier h hc⟩
  | commit a => exact ⟨⟨h.readsFresh, trivial⟩, sound_commit h hc⟩
  | crash pt kept0 kept1 => exact crash_kept h hc

theorem run_kept (h : Sound s) (steps : List Step) (hc : Always (fun s step => step.Careful s) steps s) :
    Always (fun s step => step.Kept s) steps s := by
  induction steps generalizing s with
  | nil => trivial
  | cons step steps ih =>
    obtain ⟨hk, hnext⟩ := step_kept h hc.1
    exact ⟨hk, ih hnext hc.2⟩

/-- The mirror's promise along every careful run from an open that finds equal spans, over any number of
power cuts and opens. -/
theorem mirror_kept {c : Place → Option Nat} {v : Vol} (hopen : openVol c c = some v) (steps : List Step)
    (hc : Always (fun s step => step.Careful s) steps ⟨v, c, []⟩) :
    Always (fun s step => step.Kept s) steps ⟨v, c, []⟩ := by
  refine run_kept ?_ steps hc
  obtain ⟨n, hn, hv⟩ := map_eq_some_iff.mp hopen
  simp only [hn, mirrorCompare_self] at hv
  rw [← hv]
  exact ⟨rfl, fresh_opened _ _, .inl ⟨rfl, rfl, rfl, ⟨n, hn, Nat.le_refl n⟩, by simp⟩⟩

section

def mirrored : Vol := ⟨⟨fun _ => some 0, []⟩, ⟨fun _ => some 0, []⟩, false, false, none, 0, false⟩

/-- Device 0 is lost in a barrier and after the power cut copied again. -/
theorem mirror_kept_resync : Always (fun s step => step.Kept s)
      [.write true true (.block 0) (some 1), .barrier ⟨.refused [], true, .ok⟩, .crash .rest [] [],
        .commit ⟨.done, true, true⟩, .barrier ⟨.ok, true, .ok⟩, .crash .rest [] []]
      ⟨mirrored, fun _ => some 0, []⟩ := by
  refine mirror_kept rfl _ ⟨⟨by decide, rfl, .inr rfl⟩, ⟨rfl, rfl⟩, .inl rfl, ⟨rfl, rfl, .inr ⟨rfl, ?_⟩⟩,
    ⟨rfl, rfl⟩, .inr rfl, trivial⟩
  intro n hn
  have hone : (some 1 : Option Nat) = some n := hn
  exact Nat.le_of_eq (some.inj hone).symm

/-- A write that device 0 refuses is acknowledged with the next barrier and goes unnoticed when the power is
cut: the spans differ and neither is found stale. And a device 1 that is found stale still serves the reads that
fail on device 0. -/
theorem dropped_write_unseen :
    let w := metaWrite false true (.block 0) (some 1) mirrored
    let b := Mux.barrier ⟨.ok, true, .ok⟩ w.1
    w.2 = true ∧ b.2 = 1 ∧
      mirrorCompare (left0 .rest [] b.1) (left1 .rest [] b.1) = none ∧
      left0 .rest [] b.1 (.block 0) = some 0 ∧ left1 .rest [] b.1 (.block 0) = some 1 ∧
      (openVol (fun _ => some 1) fun _ => some 0).map (fun v => (v.resync, metaRead false true v (.block 0))) =
        some (some false, some (true, some 0)) := by
  decide

end

end InvariantFs.MuxMirror
