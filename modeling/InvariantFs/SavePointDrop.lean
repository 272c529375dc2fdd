import InvariantFs.Mux

namespace InvariantFs.SavePointDrop

open CachedStore
open Mux (Flush)
open List Option Function

/-- The two places that can hold a save-point descriptor: block 0 and the anchor in the last block. -/
inductive Spot where
  | desc
  | tail
  deriving DecidableEq

/-- Save points are told apart by a number. In block 0, `some none` is a cleared descriptor and `none` one that
fails its check; at the tail, `none` is no anchor of this volume and `some none` an anchor whose copy fails its
check. -/
abbrev Disk := Store Spot (Option (Option Nat))

/-- `anchored` is the verdict of the probe at open. The descriptor in memory comes with the mark
whether its checksum field is filled in. -/
structure Vol where
  disk : Disk
  anchored : Bool
  spt0 : Option (Nat × Bool)

def Vol.flush (f : Flush) (v : Vol) : Vol × Bool :=
  match f with
  | .ok => ({ v with disk := v.disk.fence }, true)
  | .refused kept => ({ v with disk := v.disk.tear kept }, false)

/-- The copy that `anchor_build` puts into the anchor. `spt0_store` fills in the checksum of what it
writes and not the one in memory, so the copy is valid only if the descriptor was loaded. -/
def Vol.copied (v : Vol) : Option Nat :=
  match v.spt0 with
  | some (d, true) => some d
  | _ => none

structure Refresh where
  write : Bool
  flush : Flush

/-- `anchor_refresh`. Nobody looks at the answer to its barrier. -/
def anchorRefresh (r : Refresh) (v : Vol) : Vol :=
  if v.anchored ∧ r.write then
    (Vol.flush r.flush { v with disk := v.disk.write .tail fun _ => some v.copied }).1
  else v

structure StoreEnv where
  desc : Bool
  refresh : Refresh

def spt0Store (a : StoreEnv) (v : Vol) : Vol × Bool :=
  if a.desc = false then (v, false)
  else
    (anchorRefresh a.refresh { v with disk := v.disk.write .desc fun _ => some (v.spt0.map Prod.fst) }, true)

def clear (a : StoreEnv) (last : Flush) (v : Vol) : Vol × Bool :=
  let r := spt0Store a { v with spt0 := none }
  if r.2 = false then r else r.1.flush last

/-- The part of `spt0_drop` that disarms the pin descriptor, if there is an armed one. -/
def releasePin (release : Option (Bool × Flush)) (v : Vol) : Vol × Bool :=
  match release with
  | none => (v, true)
  | some (written, f) => if written = false then (v, false) else v.flush f

/-- `mbuf_root_publish` or the cut of the delta chain: the root descriptor is stored, which refreshes
the anchor, and a barrier follows. -/
def rootPublish (r : Option Refresh) (f : Flush) (v : Vol) : Vol × Bool :=
  match r with
  | none => v.flush f
  | some r => (anchorRefresh r v).flush f

/-- How a save point goes. A restore gives what its checks and the devices answer: `publish` is `none`
if it fails before the root descriptor is written, `cut` if no delta segment exists. -/
inductive Way where
  | drop (release : Option (Bool × Flush))
  | restore (checks : Bool) (publish : Option (Refresh × Flush)) (cut : Option (Option Refresh × Flush))
    (mount : Bool)

def Way.reach (w : Way) (v : Vol) : Vol × Bool :=
  match w with
  | .drop release => releasePin release { v with spt0 := none }
  | .restore checks publish cut mount =>
    if v.spt0 = none ∨ checks = false then (v, false)
    else
      match publish with
      | none => (v, false)
      | some (r, f) =>
        let p := rootPublish (some r) f v
        if p.2 = false then p
        else
          let c := match cut with
            | none => p
            | some (r, f) => rootPublish r f p.1
          if c.2 = false then c else (c.1, mount)

/-- `spt0_drop` and `spt0_restore` -/
def remove (w : Way) (a : StoreEnv) (last : Flush) (v : Vol) : Vol × Bool :=
  let r := w.reach v
  if r.2 = false then r else clear a last r.1

/-- `spt0_capture`, as far as the descriptor goes. -/
def capture (d : Nat) (a : StoreEnv) (last : Flush) (v : Vol) : Vol × Bool :=
  if v.spt0.isSome then (v, false)
  else
    let r := spt0Store a { v with spt0 := some (d, false) }
    if r.2 = false then r else r.1.flush last

/-- `anchor_probe` and `spt0_load` at open. -/
def openVol (probe : Bool) (c : Spot → Option (Option Nat)) : Vol :=
  let anchored := probe && (c .tail).isSome
  let spt0 := match c .desc with
    | some (some d) => some (d, true)
    | _ => if anchored then (c .tail).join.map (fun d => (d, true)) else none
  ⟨⟨c, []⟩, anchored, spt0⟩

/-- What can happen to a volume afterwards: the save-point calls, any store of the root descriptor,
barriers, damage to one of the places, and a power cut with the next open. -/
inductive Event where
  | rootStore (r : Refresh)
  | flush (f : Flush)
  | capture (d : Nat) (a : StoreEnv) (last : Flush)
  | remove (w : Way) (a : StoreEnv) (last : Flush)
  | damage (s : Spot)
  | reopen (kept : List Bool) (probe : Bool)

def Event.run (v : Vol) : Event → Vol
  | .rootStore r => anchorRefresh r v
  | .flush f => (v.flush f).1
  | .capture d a last => (SavePointDrop.capture d a last v).1
  | .remove w a last => (SavePointDrop.remove w a last v).1
  | .damage s => { v with disk := ⟨update v.disk.durable s none, v.disk.pending⟩ }
  | .reopen kept probe => openVol probe (v.disk.tear kept).durable

def run (es : List Event) (v : Vol) : Vol := es.foldl Event.run v

def Event.Fresh (d : Nat) : Event → Prop
  | .capture d' _ _ => d' ≠ d
  | _ => True

def Finds (d : Nat) (v : Vol) : Prop := ∃ stamped, v.spt0 = some (d, stamped)

def Gone (d : Nat) (c : Spot → Option (Option Nat)) : Prop := ∀ s, c s ≠ some (some d)

/-- Whether a barrier leaves the write that is number `i` of those on their way. -/
def leavesWrite : Flush → Nat → Bool
  | .ok, _ => true
  | .refused kept, i => kept.getD i false

/-- What a barrier leaves in the two places. -/
def leaves (f : Flush) (disk : Disk) : Spot → Option (Option Nat) :=
  match f with
  | .ok => disk.view
  | .refused kept => (disk.tear kept).durable

/-- The barrier of a refresh; there is none where the anchor is not refreshed. -/
def Refresh.barrier (r : Refresh) (v : Vol) : Flush := if v.anchored ∧ r.write then r.flush else .ok

/-- The refresh replaces the anchor, its write being number `i` of those on their way. -/
def Refresh.Reaches (r : Refresh) (v : Vol) (i : Nat) : Prop :=
  v.anchored = true ∧ r.write = true ∧ leavesWrite r.flush i = true

/-- The first barrier that the writes on their way before the call meet. -/
def Way.firstBarrier (w : Way) (r : Refresh) (v : Vol) : Flush :=
  match w with
  | .drop none => r.barrier v
  | .restore _ (some (r, _)) _ _ => r.barrier v
  | _ => .ok

/-- How many writes are on their way when the descriptor is cleared. -/
def Way.waiting (w : Way) (v : Vol) : Nat :=
  match w with
  | .drop none => v.disk.pending.length
  | _ => 0

/-- A restore's own stores of the root put the descriptor in memory into the anchor. -/
def Way.Copies (w : Way) (v : Vol) : Prop :=
  match w with
  | .drop _ => False
  | .restore _ publish cut _ =>
    (∃ r ∈ publish, r.1.Reaches v v.disk.pending.length) ∨ ∃ r ∈ cut.bind Prod.fst, r.Reaches v 0

/-- Both places are cleared, or hold no valid copy of the save point: block 0 unless the refresh's own barrier
loses the cleared descriptor, the anchor where its refresh is written and not lost. -/
structure Erases (d : Nat) (w : Way) (r : Refresh) (v : Vol) : Prop where
  desc : leavesWrite (r.barrier v) (w.waiting v) = true ∨ leaves (w.firstBarrier r v) v.disk .desc ≠ some (some d)
  tail : r.Reaches v (w.waiting v + 1) ∨ (w.Copies v ∧ v.copied ≠ some d) ∨
    ¬ w.Copies v ∧ leaves (w.firstBarrier r v) v.disk .tail ≠ some (some d)

structure Absent (d : Nat) (v : Vol) : Prop where
  durable : Gone d v.disk.durable
  pending : ∀ q ∈ v.disk.pending, ∀ x, q.edit x ≠ some (some d)
  memory : ¬ Finds d v

section

variable {d : Nat} {v : Vol}

theorem Absent.view (h : Absent d v) : Gone d v.disk.view := fun s =>
  view_keeps (· ≠ some (some d)) v.disk s (h.durable s) fun q hq _ x _ => h.pending q hq x

theorem Absent.tear (h : Absent d v) (kept : List Bool) : Gone d (v.disk.tear kept).durable := fun s =>
  tear_keeps (· ≠ some (some d)) v.disk kept s (h.durable s) fun q hq _ x _ => h.pending q hq x

section

variable (h : Absent d v)

include h

theorem absent_flush (f : Flush) : Absent d (v.flush f).1 := by
  cases f with
  | ok => exact ⟨h.view, by simp [Vol.flush], h.memory⟩
  | refused kept => exact ⟨h.tear kept, by simp [Vol.flush], h.memory⟩

theorem absent_write (s : Spot) {x : Option Nat} (hx : x ≠ some d) :
    Absent d { v with disk := v.disk.write s fun _ => some x } := by
  refine ⟨h.durable, fun q hq y => ?_, h.memory⟩
  obtain hq | hq := mem_append.mp hq
  · exact h.pending q hq y
  · obtain rfl := mem_singleton.mp hq
    simpa using hx

theorem absent_refresh (r : Refresh) : Absent d (anchorRefresh r v) := by
  have hcopied : v.copied ≠ some d := by
    unfold Vol.copied
    split
    next d' heq =>
      intro hd
      exact h.memory ⟨true, by rw [heq, some.inj hd]⟩
    next => simp
  unfold anchorRefresh
  split_ifs
  · exact absent_flush (absent_write h .tail hcopied) r.flush
  · exact h

theorem absent_store (a : StoreEnv) : Absent d (spt0Store a v).1 := by
  have hmap : v.spt0.map Prod.fst ≠ some d := by
    intro hd
    obtain ⟨⟨d', stamped⟩, hv, rfl⟩ := map_eq_some_iff.mp hd
    exact h.memory ⟨stamped, hv⟩
  unfold spt0Store
  split_ifs
  · exact h
  · exact absent_refresh (absent_write h .desc hmap) a.refresh

theorem absent_memory {m : Option (Nat × Bool)} (hm : ∀ stamped, m ≠ some (d, stamped)) :
    Absent d { v with spt0 := m } :=
  ⟨h.durable, h.pending, fun ⟨stamped, hs⟩ => hm stamped hs⟩

theorem absent_clear (a : StoreEnv) (last : Flush) : Absent d (clear a last v).1 := by
  have hstore := absent_store (absent_memory h (m := none) (by simp)) a
  unfold clear
  dsimp only
  split_ifs
  · exact hstore
  · exact absent_flush hstore last

theorem absent_publish (r : Option Refresh) (f : Flush) : Absent d (rootPublish r f v).1 := by
  cases r with
  | none => exact absent_flush h f
  | some r => exact absent_flush (absent_refresh h r) f

theorem absent_reach (w : Way) : Absent d (w.reach v).1 := by
  cases w with
  | drop release =>
    have hnone : Absent d { v with spt0 := none } := absent_memory h (by simp)
    obtain _ | ⟨written, f⟩ := release
    · exact hnone
    · unfold Way.reach releasePin
      dsimp only
      split_ifs
      · exact hnone
      · exact absent_flush hnone f
  | restore checks publish cut mount =>
    unfold Way.reach
    dsimp only
    split_ifs
    · exact h
    · obtain _ | ⟨r, f⟩ := publish
      · exact h
      · have hp := absent_publish h (some r) f
        have hc : Absent d (match cut with
            | none => rootPublish (some r) f v
            | some (r', f') => rootPublish r' f' (rootPublish (some r) f v).1).1 := by
          obtain _ | ⟨r', f'⟩ := cut
          · exact hp
          · exact absent_publish hp r' f'
        dsimp only
        split_ifs
        · exact hp
        · exact hc
        · exact hc

theorem absent_remove (w : Way) (a : StoreEnv) (last : Flush) : Absent d (remove w a last v).1 := by
  unfold remove
  dsimp only
  split_ifs
  · exact absent_reach h w
  · exact absent_clear (absent_reach h w) a last

theorem absent_capture {d' : Nat} (hd : d' ≠ d) (a : StoreEnv) (last : Flush) : Absent d (capture d' a last v).1 := by
  have hstore := absent_store (absent_memory h (m := some (d', false)) (by simp [hd])) a
  unfold capture
  dsimp only
  split_ifs
  · exact h
  · exact hstore
  · exact absent_flush hstore last

end

theorem absent_open {c : Spot → Option (Option Nat)} (h : Gone d c) (probe : Bool) : Absent d (openVol probe c) := by
  refine ⟨h, by simp [openVol], ?_⟩
  rintro ⟨stamped, hs⟩
  unfold openVol at hs
  dsimp only at hs
  split at hs
  next d' heq =>
    obtain ⟨rfl, -⟩ := Prod.mk.inj (some.inj hs)
    exact h .desc heq
  next =>
    split_ifs at hs
    obtain ⟨d', hd', heq⟩ := map_eq_some_iff.mp hs
    obtain ⟨rfl, -⟩ := Prod.mk.inj heq
    exact h .tail (join_eq_some_iff.mp hd')

theorem absent_event (h : Absent d v) {e : Event} (he : e.Fresh d) : Absent d (e.run v) := by
  cases e with
  | rootStore r => exact absent_refresh h r
  | flush f => exact absent_flush h f
  | capture d' a last => exact absent_capture h he a last
  | remove w a last => exact absent_remove h w a last
  | damage s =>
    refine ⟨fun s' => ?_, h.pending, h.memory⟩
    change update v.disk.durable s none s' ≠ some (some d)
    by_cases hs : s' = s
    · rw [hs, update_self]
      simp
    · rw [update_of_ne hs]
      exact h.durable s'
  | reopen kept probe => exact absent_open (h.tear kept) probe

theorem absent_run (h : Absent d v) (es : List Event) (hes : ∀ e ∈ es, e.Fresh d) : Absent d (run es v) := by
  induction es generalizing v with
  | nil => exact h
  | cons e es ih =>
    exact ih (absent_event h (hes e (by simp))) fun e' he' => hes e' (mem_cons_of_mem e he')

theorem finds_of_left (hidle : v.disk.pending = []) (h : ¬ Gone d v.disk.durable) :
    Finds d (run [.reopen [] true] v) ∨ Finds d (run [.damage .desc, .reopen [] true] v) := by
  have hcases : v.disk.durable .desc = some (some d) ∨ v.disk.durable .tail = some (some d) := by
    by_contra hnot
    refine h fun s hs => hnot ?_
    cases s with
    | desc => exact .inl hs
    | tail => exact .inr hs
  obtain hdesc | htail := hcases
  · refine .inl ⟨true, ?_⟩
    simp [run, Event.run, tear_idle hidle, openVol, hdesc]
  · refine .inr ⟨true, ?_⟩
    have hidle' : (⟨update v.disk.durable .desc none, v.disk.pending⟩ : Disk).pending = [] := hidle
    simp [run, Event.run, tear_idle hidle', openVol, htail]

theorem flush_disk (f : Flush) (v : Vol) : (v.flush f).1 = { v with disk := ⟨leaves f v.disk, []⟩ } := by
  cases f <;> rfl

theorem flush_true {f : Flush} (h : (v.flush f).2 = true) : f = .ok := by
  cases f with
  | ok => rfl
  | refused kept => cases h

theorem leaves_write (f : Flush) (disk : Disk) (s : Spot) (x : Option (Option Nat)) :
    leaves f (disk.write s fun _ => x) =
      if leavesWrite f disk.pending.length then update (leaves f disk) s x else leaves f disk := by
  cases f with
  | ok => exact view_write disk s fun _ => x
  | refused kept =>
    change ((disk.write s fun _ => x).tear kept).durable = ite (kept.getD _ false = true) _ _
    rw [tear_write]
    split_ifs
    · rw [durable_fence, view_write]
      rfl
    · rfl

theorem leaves_idle {disk : Disk} (h : disk.pending = []) (f : Flush) : leaves f disk = disk.durable := by
  cases f with
  | ok =>
    change disk.view = _
    rw [Store.view, h]
    rfl
  | refused kept =>
    change (disk.tear kept).durable = _
    rw [tear_idle h]

/-- A refresh of the anchor and the barrier behind it. -/
theorem refresh_flush (r : Refresh) (v : Vol) : ((anchorRefresh r v).flush .ok).1 =
      { v with disk := ⟨fun s => if s = .tail ∧ v.anchored = true ∧ r.write = true ∧
          leavesWrite r.flush v.disk.pending.length = true then some v.copied
        else leaves (r.barrier v) v.disk s, []⟩ } := by
  unfold anchorRefresh Refresh.barrier
  by_cases hr : v.anchored = true ∧ r.write = true
  · rw [if_pos hr, if_pos hr, flush_disk, flush_disk, leaves_idle rfl, leaves_write]
    dsimp only
    congr 2
    funext s
    by_cases hk : leavesWrite r.flush v.disk.pending.length = true
    · rw [if_pos hk]
      by_cases hs : s = .tail
      · rw [hs, update_self, if_pos ⟨rfl, hr.1, hr.2, hk⟩]
      · rw [update_of_ne hs, if_neg fun h => hs h.1]
    · rw [if_neg hk, if_neg fun h => hk h.2.2.2]
  · rw [if_neg hr, if_neg hr, flush_disk]
    congr 2
    funext s
    rw [if_neg fun h => hr ⟨h.2.1, h.2.2.1⟩]

/-- What is in the two places when the descriptor is cleared. -/
structure Reached (w : Way) (r : Refresh) (v u : Vol) : Prop where
  anchored : u.anchored = v.anchored
  waiting : u.disk.pending.length = w.waiting v
  desc : leaves (r.barrier u) u.disk .desc = leaves (w.firstBarrier r v) v.disk .desc
  copied : w.Copies v → leaves (r.barrier u) u.disk .tail = some v.copied
  tail : ¬ w.Copies v → leaves (r.barrier u) u.disk .tail = leaves (w.firstBarrier r v) v.disk .tail

theorem barrier_anchored {u : Vol} (h : u.anchored = v.anchored) (r : Refresh) : r.barrier u = r.barrier v := by
  unfold Refresh.barrier
  rw [h]

/-- What the two places hold after a refresh and the barrier behind it. -/
structure Published (r : Refresh) (v u : Vol) : Prop where
  anchored : u.anchored = v.anchored
  memory : u.spt0 = v.spt0
  idle : u.disk.pending = []
  desc : u.disk.durable .desc = leaves (r.barrier v) v.disk .desc
  there : r.Reaches v v.disk.pending.length → u.disk.durable .tail = some v.copied
  not : ¬ r.Reaches v v.disk.pending.length → u.disk.durable .tail = leaves (r.barrier v) v.disk .tail

theorem refresh_published (r : Refresh) (v : Vol) : Published r v ((anchorRefresh r v).flush .ok).1 := by
  rw [refresh_flush]
  refine ⟨rfl, rfl, rfl, ?_, fun h => ?_, fun h => ?_⟩
  · dsimp only
    rw [if_neg fun h => by cases h.1]
  · exact if_pos ⟨rfl, h⟩
  · exact if_neg fun h' => h h'.2

def afterCut (cut : Option (Option Refresh × Flush)) (v : Vol) : Vol :=
  match cut with
  | none => v
  | some (none, _) => (v.flush .ok).1
  | some (some r, _) => ((anchorRefresh r v).flush .ok).1

theorem reach_restore {checks mount : Bool} {publish : Option (Refresh × Flush)}
    {cut : Option (Option Refresh × Flush)} (h : ((Way.restore checks publish cut mount).reach v).2 = true) :
    ∃ r f, publish = some (r, f) ∧ ((Way.restore checks publish cut mount).reach v).1 =
      afterCut cut ((anchorRefresh r v).flush .ok).1 := by
  unfold Way.reach at h ⊢
  dsimp only at h ⊢
  by_cases hno : v.spt0 = none ∨ checks = false
  · rw [if_pos hno] at h
    cases h
  rw [if_neg hno] at h ⊢
  obtain _ | ⟨r, _ | kept⟩ := publish
  · cases h
  · refine ⟨r, .ok, rfl, ?_⟩
    obtain _ | ⟨_ | r', _ | kept⟩ := cut
    · rfl
    · rfl
    · cases h
    · rfl
    · cases h
  · cases h

section

variable {checks mount : Bool} {r₁ : Refresh} {f₁ : Flush} {u : Vol}

theorem reached_uncut {cut : Option (Option Refresh × Flush)} (hp : Published r₁ v u)
    (hcut : cut.bind Prod.fst = none) (r : Refresh) : Reached (.restore checks (some (r₁, f₁)) cut mount) r v u := by
  have hiff : (Way.restore checks (some (r₁, f₁)) cut mount).Copies v ↔ r₁.Reaches v v.disk.pending.length := by
    simp [Way.Copies, hcut]
  refine ⟨hp.anchored, by rw [hp.idle]; rfl, ?_, fun hc => ?_, fun hc => ?_⟩ <;> rw [leaves_idle hp.idle]
  · exact hp.desc
  · exact hp.there (hiff.mp hc)
  · exact hp.not fun hr => hc (hiff.mpr hr)

theorem reached_cut {r₂ : Refresh} {f₂ : Flush} {x : Vol} (hp : Published r₁ v u) (hp' : Published r₂ u x)
    (r : Refresh) : Reached (.restore checks (some (r₁, f₁)) (some (some r₂, f₂)) mount) r v x := by
  have hiff : (Way.restore checks (some (r₁, f₁)) (some (some r₂, f₂)) mount).Copies v ↔
      r₁.Reaches v v.disk.pending.length ∨ r₂.Reaches u u.disk.pending.length := by
    simp [Way.Copies, Refresh.Reaches, hp.anchored, hp.idle]
  have hcopy : u.copied = v.copied := by
    unfold Vol.copied
    rw [hp.memory]
  refine ⟨hp'.anchored.trans hp.anchored, by rw [hp'.idle]; rfl, ?_, fun hc => ?_, fun hc => ?_⟩ <;>
    rw [leaves_idle hp'.idle]
  · rw [hp'.desc, leaves_idle hp.idle, hp.desc]
    rfl
  · by_cases hr : r₂.Reaches u u.disk.pending.length
    · rw [hp'.there hr, hcopy]
    · rw [hp'.not hr, leaves_idle hp.idle]
      exact hp.there ((hiff.mp hc).resolve_right hr)
  · rw [hp'.not fun hr => hc (hiff.mpr (.inr hr)), leaves_idle hp.idle, hp.not fun hr => hc (hiff.mpr (.inl hr))]
    rfl

end

theorem reach_reached {w : Way} (r : Refresh) (h : (w.reach v).2 = true) : Reached w r v (w.reach v).1 := by
  cases w with
  | drop release =>
    obtain _ | ⟨written, f⟩ := release
    · exact ⟨rfl, rfl, rfl, False.elim, fun _ => rfl⟩
    · unfold Way.reach releasePin at h ⊢
      dsimp only at h ⊢
      split_ifs at h ⊢
      obtain rfl := flush_true h
      rw [flush_disk]
      refine ⟨rfl, rfl, ?_, False.elim, fun _ => ?_⟩
      · rw [leaves_idle rfl]
        rfl
      · rw [leaves_idle rfl]
        rfl
  | restore checks publish cut mount =>
    obtain ⟨r₁, f₁, rfl, hrun⟩ := reach_restore h
    have hp := refresh_published r₁ v
    rw [hrun]
    obtain _ | ⟨_ | r₂, f₂⟩ := cut
    · exact reached_uncut hp rfl r
    · rw [afterCut, flush_disk, leaves_idle hp.idle]
      exact reached_uncut ⟨hp.anchored, hp.memory, rfl, hp.desc, hp.there, hp.not⟩ rfl r
    · exact reached_cut hp (refresh_published r₂ _) r

theorem clear_gone_iff {w : Way} {u : Vol} {a : StoreEnv} {last : Flush} (hu : Reached w a.refresh v u)
    (hok : (clear a last u).2 = true) :
    (clear a last u).1.disk.pending = [] ∧ (clear a last u).1.spt0 = none ∧
      (Gone d (clear a last u).1.disk.durable ↔ Erases d w a.refresh v) := by
  have hdesc : ¬ a.desc = false := by
    intro hfail
    simp [clear, spt0Store, hfail] at hok
  have hstore : spt0Store a { u with spt0 := none } =
      (anchorRefresh a.refresh { u with spt0 := none, disk := u.disk.write .desc fun _ => some none }, true) := by
    rw [spt0Store, if_neg hdesc]
    rfl
  unfold clear at hok ⊢
  simp only [hstore, Bool.true_eq_false, if_false] at hok ⊢
  obtain rfl := flush_true hok
  obtain ⟨-, hmem, hpending, hleft, hthere, hnot⟩ := refresh_published a.refresh
    { u with spt0 := none, disk := u.disk.write .desc fun _ => some none }
  refine ⟨hpending, hmem, ?_⟩
  generalize ((anchorRefresh a.refresh _).flush .ok).1 = x at hleft hthere hnot
  have hbar : a.refresh.barrier { u with spt0 := none, disk := u.disk.write .desc fun _ => some none } =
      a.refresh.barrier u := rfl
  have hbar' := barrier_anchored hu.anchored a.refresh
  have hreach : a.refresh.Reaches { u with spt0 := none, disk := u.disk.write .desc fun _ => some none }
      (u.disk.write .desc fun _ => some none).pending.length ↔ a.refresh.Reaches v (w.waiting v + 1) := by
    unfold Refresh.Reaches
    rw [pending_write, length_append, hu.waiting]
    dsimp only
    rw [hu.anchored]
    rfl
  rw [hbar, leaves_write, hu.waiting, hbar'] at hleft hnot
  have hdescIff : x.disk.durable .desc ≠ some (some d) ↔ leavesWrite (a.refresh.barrier v) (w.waiting v) = true ∨
      leaves (w.firstBarrier a.refresh v) v.disk .desc ≠ some (some d) := by
    rw [hleft]
    split_ifs with hk
    · simp [hk]
    · rw [← hu.desc, hbar']
      simp [hk]
  have htailIff : x.disk.durable .tail ≠ some (some d) ↔ a.refresh.Reaches v (w.waiting v + 1) ∨
      leaves (a.refresh.barrier u) u.disk .tail ≠ some (some d) := by
    by_cases hr : a.refresh.Reaches v (w.waiting v + 1)
    · rw [hthere (hreach.mpr hr)]
      simp [hr, Vol.copied]
    · rw [hnot fun h => hr (hreach.mp h), or_iff_right hr, hbar']
      split_ifs
      · rw [update_of_ne (by simp)]
      · rfl
  have hcases : leaves (a.refresh.barrier u) u.disk .tail ≠ some (some d) ↔ (w.Copies v ∧ v.copied ≠ some d) ∨
      ¬ w.Copies v ∧ leaves (w.firstBarrier a.refresh v) v.disk .tail ≠ some (some d) := by
    by_cases hc : w.Copies v
    · rw [hu.copied hc]
      simp [hc]
    · rw [hu.tail hc]
      simp [hc]
  rw [hcases] at htailIff
  constructor
  · exact fun hgone => ⟨hdescIff.mp (hgone .desc), htailIff.mp (hgone .tail)⟩
  · rintro ⟨h₁, h₂⟩ (_ | _)
    · exact hdescIff.mpr h₁
    · exact htailIff.mpr h₂

end

/-- Once a drop or a restore has succeeded, no later open finds the save point if and only if the refresh
of the anchor has erased it there. -/
theorem removed_stays_gone_iff {d : Nat} {v : Vol} {w : Way} {a : StoreEnv} {last : Flush}
    (hok : (remove w a last v).2 = true) :
    (∀ es, (∀ e ∈ es, e.Fresh d) → ¬ Finds d (run es (remove w a last v).1)) ↔
      Erases d w a.refresh v := by
  have hreach : ¬ (w.reach v).2 = false := by
    intro hfail
    rw [remove, if_pos hfail, hfail] at hok
    simp at hok
  rw [remove, if_neg hreach] at hok ⊢
  have hreached := reach_reached a.refresh (Bool.eq_true_of_not_eq_false hreach)
  obtain ⟨hidle, hmem, hiff⟩ := clear_gone_iff (d := d) hreached hok
  rw [← hiff]
  constructor
  · intro hall
    by_contra hleft
    obtain hfinds | hfinds := finds_of_left hidle hleft
    · exact hall _ (by simp [Event.Fresh]) hfinds
    · exact hall _ (by simp [Event.Fresh]) hfinds
  · intro hgone es hes
    have habsent : Absent d (clear a last (w.reach v).1).1 := ⟨hgone, by simp [hidle], by simp [Finds, hmem]⟩
    exact (absent_run habsent es hes).memory

section

def written : Refresh := ⟨true, .ok⟩

/-- A save point is captured on an anchored volume, and in the next session a root store copies it into
the anchor. -/
def savedVol : Vol :=
  run [.capture 1 ⟨true, written⟩ .ok, .reopen [] true, .rootStore written] (openVol true fun _ => some none)

/-- A drop, and a restore whose last refresh has its barrier refused after both writes. -/
theorem removed_stays_gone_both : ((remove (.drop none) ⟨true, written⟩ .ok savedVol).2 = true ∧
        ∀ es, (∀ e ∈ es, e.Fresh 1) → ¬ Finds 1 (run es (remove (.drop none) ⟨true, written⟩ .ok savedVol).1)) ∧
      ∀ es, (∀ e ∈ es, e.Fresh 1) → ¬ Finds 1 (run es (remove (.restore true (some (written, .ok)) none true)
        ⟨true, true, .refused [true, true]⟩ .ok savedVol).1) :=
  ⟨⟨rfl, (removed_stays_gone_iff rfl).mpr ⟨.inl rfl, .inl ⟨rfl, rfl, rfl⟩⟩⟩,
    (removed_stays_gone_iff rfl).mpr ⟨.inl rfl, .inl ⟨rfl, rfl, rfl⟩⟩⟩

/-- The tail refuses its write during the drop. The drop succeeds, and the next open takes the save point
from the anchor. -/
theorem dropped_save_point_back : let r := remove (.drop none) ⟨true, false, .ok⟩ .ok savedVol
    r.2 = true ∧ r.1.disk.view .desc = some none ∧ (run [.reopen [] true] r.1).spt0 = some (1, true) := by
  decide

end

end InvariantFs.SavePointDrop
