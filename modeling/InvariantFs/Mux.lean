import InvariantFs.CachedStore

namespace InvariantFs.Mux

open CachedStore

/-- The places of the metadata span: the device table, the root descriptor, and the rest. -/
inductive Place where
  | devt
  | root
  | block (n : Nat)
  deriving DecidableEq

/-- The metadata span of a device. A descriptor is given by its counter, `none` if it fails its
check. -/
abbrev Span := Store Place (Option Nat)

/-- The answer of a device to a flush. A refused one has let the marked writes through. -/
inductive Flush where
  | ok
  | refused (kept : List Bool)
  deriving DecidableEq

/-- A two-device volume with both devices present. `resync` names the device whose span is newer,
`true` for device 1, until the spans are equal again; `seq` is the counter of the table in memory. -/
structure Vol where
  dev0 : Span
  dev1 : Span
  skip0 : Bool
  skip1 : Bool
  resync : Option Bool
  seq : Nat
  latched : Bool

/-- `vmux_pread1` on the metadata span: the device that serves the read, and what it returns. -/
def metaRead (io0 io1 : Bool) (v : Vol) (p : Place) : Option (Bool × Option Nat) :=
  if ¬ v.skip0 ∧ io0 then some (false, v.dev0.view p)
  else if ¬ v.skip1 ∧ io1 then some (true, v.dev1.view p)
  else none

/-- `vmux_pwrite1` on the metadata span. Device 0 is dropped when it fails, device 1 latches. -/
def metaWrite (ok0 ok1 : Bool) (p : Place) (x : Option Nat) (v : Vol) : Vol × Bool :=
  let v' :=
    if v.skip0 then v
    else if ok0 then { v with dev0 := v.dev0.write p fun _ => x }
    else { v with skip0 := true }
  if v.skip1 then (v', !v.skip0 && ok0)
  else if ok1 then ({ v' with dev1 := v'.dev1.write p fun _ => x }, true)
  else ({ v' with latched := true }, false)

def writeDevt (ok0 ok1 : Bool) (v : Vol) : Vol × Bool := metaWrite ok0 ok1 .devt (some v.seq) v

/-- What the devices answer to a barrier. `devt` is the write of the table when device 0 is dropped. -/
structure Barrier where
  flush0 : Flush
  devt : Bool
  flush1 : Flush
  deriving DecidableEq

/-- The first half of `vmux_barrier`. -/
def barrier0 (a : Barrier) (v : Vol) : Vol × Bool :=
  if v.skip0 then (v, true)
  else match a.flush0 with
    | .ok => ({ v with dev0 := v.dev0.fence }, true)
    | .refused kept =>
      writeDevt true a.devt { v with dev0 := v.dev0.tear kept, skip0 := true, seq := v.seq + 1 }

def barrier (a : Barrier) (v : Vol) : Vol × Int :=
  match barrier0 a v with
  | (v, false) => (v, -1)
  | (v, true) =>
    match a.flush1 with
    | .refused kept => ({ v with dev1 := v.dev1.tear kept }, -1)
    | .ok => ({ v with dev1 := v.dev1.fence }, if v.skip0 then 1 else 0)

inductive Copy where
  | done
  | broken (kept : List Bool) (copied : Place → Bool)

def Copy.apply (c : Copy) (src dst : Span) : Span :=
  match c with
  | .done => ⟨src.view, []⟩
  | .broken kept copied => ⟨fun p => if copied p then src.view p else (dst.tear kept).durable p, []⟩

/-- `mirror_resync`, `winner` being the source. -/
def mirrorResync (c : Copy) (winner : Bool) (v : Vol) : Vol :=
  match winner, c with
  | true, .done => { v with dev0 := c.apply v.dev1 v.dev0, skip0 := false, resync := none }
  | true, .broken _ _ => { v with dev0 := c.apply v.dev1 v.dev0 }
  | false, .done => { v with dev1 := c.apply v.dev0 v.dev1, skip1 := false, resync := none }
  | false, .broken _ _ => { v with dev1 := c.apply v.dev0 v.dev1, latched := true }

structure Commit where
  copy : Copy
  devt0 : Bool
  devt1 : Bool

def commitMirror (a : Commit) (v : Vol) : Vol × Bool :=
  let v := match v.resync with
    | none => v
    | some winner => mirrorResync a.copy winner v
  match writeDevt a.devt0 a.devt1 { v with seq := v.seq + 1 } with
  | (v, true) => (v, true)
  | (v, false) => ({ v with latched := true }, false)

/-- Which of two counters is behind, `true` for the second. -/
def behind : Option Nat → Option Nat → Option Bool
  | some a, some b => if a = b then none else some (decide (b < a))
  | some _, none => some true
  | none, some _ => some false
  | none, none => none

/-- `vol_mirror_compare` on the spans of the two devices: the one that is stale. -/
def mirrorCompare (c0 c1 : Place → Option Nat) : Option Bool :=
  (behind (c0 .devt) (c1 .devt)).or (behind (c0 .root) (c1 .root))

/-- `vol_open` with `wp25_open_dev1`. The table in memory is the one of device 0. -/
def openVol (c0 c1 : Place → Option Nat) : Option Vol :=
  (c0 .devt).map fun seq =>
    let v : Vol := ⟨⟨c0, []⟩, ⟨c1, []⟩, false, false, none, seq, false⟩
    match c1 .devt with
    | none => { v with skip1 := true, resync := some false }
    | some _ =>
      match mirrorCompare c0 c1 with
      | none => v
      | some false => { v with skip0 := true, resync := some true }
      | some true => { v with resync := some false }

theorem behind_self (a : Option Nat) : behind a a = none := by
  cases a <;> simp [behind]

theorem mirrorCompare_self (c : Place → Option Nat) : mirrorCompare c c = none := by
  simp [mirrorCompare, behind_self]

structure Steady (v : Vol) : Prop where
  skip1 : v.skip1 = false
  resync : v.resync = none
  latched : v.latched = false

variable {v : Vol}

theorem metaWrite_steady (h : Steady v) (p : Place) (x : Option Nat) :
    (metaWrite true true p x v).2 = true ∧ Steady (metaWrite true true p x v).1 ∧
      (metaWrite true true p x v).1.skip0 = v.skip0 := by
  unfold metaWrite
  have hskip1 : ¬ v.skip1 = true := by simp [h.skip1]
  simp only [if_true, if_neg hskip1, true_and]
  cases hs : v.skip0 with
  | false => exact ⟨⟨h.skip1, h.resync, h.latched⟩, rfl⟩
  | true => exact ⟨⟨h.skip1, h.resync, h.latched⟩, hs⟩

theorem barrier_steady {a : Barrier} (h : Steady v) (hdevt : a.devt = true) : Steady (barrier a v).1 ∧
      ((barrier a v).1.skip0 = false ↔ v.skip0 = false ∧ a.flush0 = .ok) ∧ ((barrier a v).2 < 0 ↔ a.flush1 ≠ .ok) ∧
      ((barrier a v).2 = 0 ↔ v.skip0 = false ∧ a.flush0 = .ok ∧ a.flush1 = .ok) := by
  have hfirst : (barrier0 a v).2 = true ∧ Steady (barrier0 a v).1 ∧
      ((barrier0 a v).1.skip0 = false ↔ v.skip0 = false ∧ a.flush0 = .ok) := by
    unfold barrier0
    cases hs : v.skip0 with
    | true => simp [h, hs]
    | false =>
      cases hf : a.flush0 with
      | ok => simpa [hs] using ⟨h.skip1, h.resync, h.latched⟩
      | refused kept =>
        have hst : Steady { v with dev0 := v.dev0.tear kept, skip0 := true, seq := v.seq + 1 } :=
          ⟨h.skip1, h.resync, h.latched⟩
        have hw := metaWrite_steady hst .devt (some (v.seq + 1))
        simp only [Bool.false_eq_true, if_false, hdevt, writeDevt, reduceCtorEq, and_false, iff_false]
        exact ⟨hw.1, hw.2.1, by rw [hw.2.2]; simp⟩
  obtain ⟨hgo, hst, hskip⟩ := hfirst
  unfold barrier
  generalize barrier0 a v = r at hgo hst hskip
  obtain ⟨u, go⟩ := r
  dsimp only at hgo hst hskip
  subst hgo
  rw [← and_assoc (a := v.skip0 = false), ← hskip]
  cases a.flush1 with
  | refused kept => exact ⟨⟨hst.skip1, hst.resync, hst.latched⟩, Iff.rfl, by simp, by simp⟩
  | ok =>
    refine ⟨⟨hst.skip1, hst.resync, hst.latched⟩, Iff.rfl, ?_, ?_⟩
    · cases hs : u.skip0 <;> simp [hs]
    · cases hs : u.skip0 <;> simp [hs]

theorem commit_steady {a : Commit} (h : Steady v) (h0 : a.devt0 = true) (h1 : a.devt1 = true) :
    (commitMirror a v).2 = true ∧ Steady (commitMirror a v).1 ∧ (commitMirror a v).1.skip0 = v.skip0 := by
  have hst : Steady { v with seq := v.seq + 1 } := ⟨h.skip1, h.resync, h.latched⟩
  have hw := metaWrite_steady hst .devt (some (v.seq + 1))
  unfold commitMirror
  rw [h.resync, h0, h1]
  dsimp only [writeDevt]
  generalize metaWrite true true .devt (some (v.seq + 1)) { v with seq := v.seq + 1 } = r at hw
  obtain ⟨u, ok⟩ := r
  obtain ⟨rfl, hu⟩ := hw
  exact ⟨rfl, hu⟩

end InvariantFs.Mux
