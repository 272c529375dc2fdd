import Mathlib.Data.Set.Finite.List
import InvariantFs.BtreePage
import InvariantFs.LinearProbe
import InvariantFs.Spans

namespace InvariantFs.DeltaTable

open BtreePage LinearProbe LinearProbe.Table List Option Function Nat

variable {R : Type}

/-- `dl_hash`: FNV-1a of 32 bits, never zero. -/
def dlHash (key : Key) : UInt32 :=
  let h := key.foldl (fun h b => (h ^^^ UInt32.ofNat b.val) * 16777619) 2166136261
  if h = 0 then 1 else h

def home (key : Key) : Nat := (dlHash key).toNat

/-- `delta_index`. A slot's record is the position, number, flags and value length that the index only copies.
The mask `cap - 1` of the source is the remainder by the capacity, a power of two. -/
structure Index (R : Type) where
  table : Table Key R
  used : Nat
  inst : Nat
  epoch : Nat

variable (count : Nat)

/-- `di_new`, under the instance counter of the process. -/
def diNew : Index R := ⟨Table.empty 64, 0, count + 1, 0⟩

/-- `di_find`. The outer `none` is a probe that never ends. -/
def diFind (di : Index R) (key : Key) : Option (Option Nat) :=
  (di.table.seek home key).map fun i => if (di.table.slot i).isSome then some i else none

/-- `di_grow`, and whether it found the memory. -/
def diGrow (memory : Bool) (di : Index R) : Option (Index R × Bool) :=
  if memory then
    (di.table.rehash home (di.table.cap * 2)).map fun t => ({ di with table := t, epoch := di.epoch + 1 }, true)
  else some (di, false)

structure Alloc where
  grow : Bool
  key : Bool

def diPut (a : Alloc) (di : Index R) (key : Key) (r : R) : Option (Index R × Bool) :=
  (if di.table.cap * 7 ≤ di.used * 10 then diGrow a.grow di else some (di, true)).bind fun p =>
    if p.2 then
      (p.1.table.seek home key).map fun i =>
        if (p.1.table.slot i).isSome then
          -- The key is there and its latest record wins. The key set does not change.
          ({ p.1 with table := p.1.table.set i (some (key, r)) }, true)
        else if a.key then
          (⟨p.1.table.set i (some (key, r)), p.1.used + 1, p.1.inst, p.1.epoch + 1⟩, true)
        else (p.1, false)
    else some (p.1, false)

/-- `di_delete_at`. The backward shift takes as many entries out of `used` as it puts back. -/
def diDeleteAt (di : Index R) (idx : Nat) : Option (Index R) :=
  if di.table.cap ≤ idx ∨ (di.table.slot idx).isNone then some di
  else (di.table.eraseAt home idx).map fun t => ⟨t, di.used - 1, di.inst, di.epoch + 1⟩

/-- `di_sorted`: a thread's view of the keys in order, each with its slot, and the state of the index it
was built from. -/
structure View where
  inst : Nat
  epoch : Nat
  keys : List (Key × Nat)

def keysOf (di : Index R) : List (Key × Nat) :=
  ((range di.table.cap).filterMap fun i => (di.table.slot i).map fun e => (e.1, i)).insertionSort
    fun a b => a.1 ≤ b.1

def diSortedBuild (di : Index R) : View := ⟨di.inst, di.epoch, keysOf di⟩

def Within (lo hi key : Key) : Prop := (lo = [] ∨ lo ≤ key) ∧ (hi = [] ∨ key < hi)

instance (lo hi key : Key) : Decidable (Within lo hi key) := inferInstanceAs (Decidable (_ ∧ _))

def firstKey (keys : List (Key × Nat)) (lo : Key) : Nat :=
  if lo = [] then 0
  else Spans.bisect (fun m => (keys[m]?).any fun e => e.1 < lo) keys.length 0 keys.length

/-- The walk over the view. The record is read from the slot at the time of the call. -/
def walkView (di : Index R) (keys : List (Key × Nat)) (lo hi : Key) : List (Key × R) :=
  ((keys.drop (firstKey keys lo)).takeWhile fun e => hi = [] ∨ e.1 < hi).filterMap fun e =>
    (di.table.slot e.2).map fun x => (e.1, x.2)

def scanSlots (di : Index R) (lo hi : Key) : List (Key × R) :=
  (di.table.entries.filter fun e => Within lo hi e.1).insertionSort fun a b => a.1 ≤ b.1

def emits (room : Nat → Bool) : Nat → Nat → List (Key × R) → Bool
  | _, _, [] => true
  | n, cap, _ :: l =>
    if n = cap then
      let ncap := if cap = 0 then 32 else cap * 2
      room ncap && emits room (n + 1) ncap l
    else emits room (n + 1) cap l

def each {σ : Type} (cb : σ → Key → R → σ × Int) : List (Key × R) → σ → σ × Int
  | [], s => (s, 0)
  | e :: l, s =>
    let p := cb s e.1 e.2
    if p.2 = 0 then each cb l p.1 else p

/-- What the allocator answers in one range call: the thread's view, the view's array and the array of
collected entries. -/
structure Memory where
  view : Bool
  build : Bool
  room : Nat → Bool

def currentView (m : Memory) (di : Index R) (v : View) : Option View × View :=
  if m.view = false then (none, v)
  else if v.inst ≠ di.inst ∨ v.epoch ≠ di.epoch then
    if m.build then (some (diSortedBuild di), diSortedBuild di) else (none, v)
  else (some v, v)

/-- `vol_delta_range` on a mounted index, with the caller's state, the code and the thread's view. -/
def volDeltaRange {σ : Type} (m : Memory) (di : Index R) (v : View) (lo hi : Key) (cb : σ → Key → R → σ × Int)
    (s : σ) : (σ × Int) × View :=
  let l := match (currentView m di v).1 with
    | some v => walkView di v.keys lo hi
    | none => scanSlots di lo hi
  (if emits m.room 0 0 l then each cb l s else (s, -1), (currentView m di v).2)

/-- What happens to an index and to the views of the threads. A range call on another volume leaves a view
of that volume's index. -/
inductive Call (R : Type) where
  | put (a : Alloc) (key : Key) (r : R)
  | grow (memory : Bool)
  | deleteAt (idx : Nat)
  | range (thread : Nat) (m : Memory)
  | other (thread : Nat) (v : View)

structure State (R : Type) where
  index : Index R
  view : Nat → View

/-- `++g_index_inst` and views out of `calloc`. -/
def start : State R := ⟨diNew count, fun _ => ⟨0, 0, []⟩⟩

def step (σ : State R) : Call R → Option (State R)
  | .put a key r => (diPut a σ.index key r).map fun p => { σ with index := p.1 }
  | .grow memory => (diGrow memory σ.index).map fun p => { σ with index := p.1 }
  | .deleteAt idx => (diDeleteAt σ.index idx).map fun di => { σ with index := di }
  | .range thread m =>
    some { σ with view := update σ.view thread (currentView m σ.index (σ.view thread)).2 }
  | .other thread v =>
    some (if v.inst = σ.index.inst then σ else { σ with view := update σ.view thread v })

/-- The map of the latest records. A put that reports success updates it, and a deletion takes out the key
of the slot it is given. -/
def latest (di : Index R) (f : Key → Option R) : Call R → Key → Option R
  | .put a key r => if (diPut a di key r).any Prod.snd then update f key (some r) else f
  | .deleteAt idx =>
    if idx < di.table.cap then (di.table.slot idx).elim f fun e => update f e.1 none else f
  | _ => f

def run : List (Call R) → State R → (Key → Option R) → Option (State R × (Key → Option R))
  | [], σ, f => some (σ, f)
  | c :: cs, σ, f => (step σ c).bind fun σ' => run cs σ' (latest σ.index f c)

structure Listing (f : Key → Option R) (lo hi : Key) (l : List (Key × R)) : Prop where
  sorted : l.Pairwise fun a b => a.1 < b.1
  mem : ∀ key r, (key, r) ∈ l ↔ f key = some r ∧ Within lo hi key

structure Holds (di : Index R) (f : Key → Option R) : Prop where
  rep : Rep home di.table f
  used : di.used = di.table.entries.length
  load : di.used * 10 < di.table.cap * 7 + 10
  cap : ∃ n, di.table.cap = 2 ^ (n + 6)

structure Fresh (di : Index R) (v : View) : Prop where
  le : v.inst = di.inst → v.epoch ≤ di.epoch
  keys : v.inst = di.inst → v.epoch = di.epoch → v.keys = keysOf di

variable {di : Index R} {f : Key → Option R} {lo hi : Key}

namespace Holds

section

variable (h : Holds di f)

include h

theorem large : 64 ≤ di.table.cap := by
  obtain ⟨n, hn⟩ := h.cap
  have := Nat.one_le_two_pow (n := n)
  rw [hn, pow_add]
  omega

theorem mask (i : Nat) : i &&& (di.table.cap - 1) = i % di.table.cap := by
  obtain ⟨n, hn⟩ := h.cap
  rw [hn, and_two_pow_sub_one_eq_mod]

theorem find (key : Key) : diFind di key = some none ∧ f key = none ∨
    ∃ i r, diFind di key = some (some i) ∧ i < di.table.cap ∧ di.table.slot i = some (key, r) ∧ f key = some r := by
  cases hf : f key with
  | none =>
    obtain ⟨d, hd, hseek, hnone, -⟩ := h.rep.seek_none hf
    exact .inl ⟨by simp [diFind, hseek, hnone], rfl⟩
  | some r =>
    obtain ⟨i, hi, hseek, hslot⟩ := h.rep.seek_some hf
    exact .inr ⟨i, r, by simp [diFind, hseek, hslot], hi, hslot, rfl⟩

theorem grow : ∃ di', diGrow true di = some (di', true) ∧ Holds di' f ∧ di'.inst = di.inst ∧
    di'.epoch = di.epoch + 1 ∧ di'.used * 10 < di'.table.cap * 7 := by
  have hlarge := h.large
  have hload := h.load
  have hused := h.used
  have hfits : di.table.entries.length < di.table.cap * 2 := by omega
  obtain ⟨t, hrehash, hrep, hcap, hlen⟩ := h.rep.rehash hfits
  obtain ⟨n, hn⟩ := h.cap
  refine ⟨{ di with table := t, epoch := di.epoch + 1 }, by simp [diGrow, hrehash],
    ⟨hrep, h.used.trans hlen.symm, ?_, n + 1, ?_⟩, rfl, rfl, ?_⟩
  · change di.used * 10 < t.cap * 7 + 10
    omega
  · change t.cap = _
    rw [hcap, hn, ← pow_succ]
  · change di.used * 10 < t.cap * 7
    omega

theorem store (hroom : di.used * 10 < di.table.cap * 7) (key : Key) (r : R) : ∃ i, di.table.seek home key = some i ∧
      ((di.table.slot i).isSome ∧ Holds { di with table := di.table.set i (some (key, r)) }
          (update f key (some r)) ∧ keysOf { di with table := di.table.set i (some (key, r)) } = keysOf di ∨
        di.table.slot i = none ∧ Holds ⟨di.table.set i (some (key, r)), di.used + 1, di.inst, di.epoch + 1⟩
            (update f key (some r))) := by
  have hlarge := h.large
  have hused := h.used
  cases hf : f key with
  | none =>
    obtain ⟨d, hd, hseek, hnone, hreach⟩ := h.rep.seek_none hf
    have hlen := length_set (t := di.table) (mod_lt (home key + d) h.rep.pos) (some (key, r))
    rw [hnone] at hlen
    refine ⟨_, hseek, .inr ⟨hnone, h.rep.fill hd hnone hreach hf (by omega) r, ?_, ?_, h.cap⟩⟩
    · simp only [isSome_none, Bool.false_eq_true, if_false, isSome_some, if_true] at hlen
      change di.used + 1 = (di.table.set _ _).entries.length
      omega
    · change (di.used + 1) * 10 < di.table.cap * 7 + 10
      omega
  | some r0 =>
    obtain ⟨i, hi, hseek, hslot⟩ := h.rep.seek_some hf
    have hlen := length_set (t := di.table) hi (some (key, r))
    rw [hslot] at hlen
    refine ⟨i, hseek, .inl ⟨by simp [hslot], ⟨h.rep.replace hi hslot r, ?_, h.load, h.cap⟩, ?_⟩⟩
    · simp only [isSome_some] at hlen
      change di.used = (di.table.set _ _).entries.length
      omega
    · unfold keysOf
      have hsame : (fun j => ((di.table.set i (some (key, r))).slot j).map fun e => (e.1, j)) =
          fun j => (di.table.slot j).map fun e => (e.1, j) := by
        funext j
        rw [set_slot]
        split_ifs with hj
        · rw [hj, hslot]
          rfl
        · rfl
      exact congrArg (fun g => ((range di.table.cap).filterMap g).insertionSort _) hsame

theorem put (a : Alloc) (key : Key) (r : R) : ∃ di' ok, diPut a di key r = some (di', ok) ∧
      Holds di' (if ok then update f key (some r) else f) ∧ di'.inst = di.inst ∧
      (di.epoch < di'.epoch ∨ di'.epoch = di.epoch ∧ keysOf di' = keysOf di) ∧
      (a.grow = true → a.key = true → ok = true) := by
  -- The growth comes first, and what follows is the same with and without it.
  have hstore : ∀ {d : Index R}, Holds d f → d.used * 10 < d.table.cap * 7 → ∃ di' ok,
      ((d.table.seek home key).map fun i =>
        if (d.table.slot i).isSome then ({ d with table := d.table.set i (some (key, r)) }, true)
        else if a.key then
          ((⟨d.table.set i (some (key, r)), d.used + 1, d.inst, d.epoch + 1⟩ : Index R), true)
        else (d, false)) = some (di', ok) ∧ Holds di' (if ok then update f key (some r) else f) ∧
      di'.inst = d.inst ∧ (d.epoch < di'.epoch ∨ di'.epoch = d.epoch ∧ keysOf di' = keysOf d) ∧
      (a.grow = true → a.key = true → ok = true) := by
    intro d hd hroom
    obtain ⟨i, hseek, ⟨hsome, hholds, hkeys⟩ | ⟨hnone, hholds⟩⟩ := hd.store hroom key r
    · exact ⟨_, true, by simp [hseek, hsome], hholds, rfl, .inr ⟨rfl, hkeys⟩, fun _ _ => rfl⟩
    · by_cases hkey : a.key = true
      · exact ⟨_, true, by simp [hseek, hnone, hkey], hholds, rfl, .inl (lt_succ_self _), fun _ _ => rfl⟩
      · exact ⟨d, false, by simp [hseek, hnone, hkey], hd, rfl, .inr ⟨rfl, rfl⟩, fun _ habs => absurd habs hkey⟩
  by_cases hfull : di.table.cap * 7 ≤ di.used * 10
  · by_cases hgrow : a.grow = true
    · obtain ⟨d, hd, hholds, hinst, hepoch, hroom⟩ := h.grow
      obtain ⟨di', ok, hput, hholds', hinst', hview, hok⟩ := hstore hholds hroom
      refine ⟨di', ok, ?_, hholds', hinst'.trans hinst, .inl ?_, hok⟩
      · rw [diPut, if_pos hfull, hgrow, hd]
        exact hput
      · obtain hlt | ⟨heq, -⟩ := hview
        · omega
        · omega
    · refine ⟨di, false, ?_, h, rfl, .inr ⟨rfl, rfl⟩, fun habs => absurd habs hgrow⟩
      rw [diPut, if_pos hfull, diGrow, if_neg hgrow]
      rfl
  · obtain ⟨di', ok, hput, hrest⟩ := hstore h (not_le.mp hfull)
    refine ⟨di', ok, ?_, hrest⟩
    rw [diPut, if_neg hfull]
    exact hput

theorem deleteAt {idx : Nat} {key : Key} {r : R} (hidx : idx < di.table.cap)
    (hslot : di.table.slot idx = some (key, r)) :
    ∃ di', diDeleteAt di idx = some di' ∧ Holds di' (update f key none) ∧ di'.inst = di.inst ∧
      di'.epoch = di.epoch + 1 := by
  obtain ⟨t, herase, hrep, hcap, hlen⟩ := h.rep.eraseAt hidx hslot
  have hused := h.used
  have hload := h.load
  have hguard : ¬ (di.table.cap ≤ idx ∨ (di.table.slot idx).isNone) := by simp [hslot, not_le.mpr hidx]
  refine ⟨⟨t, di.used - 1, di.inst, di.epoch + 1⟩, ?_, ⟨hrep, ?_, ?_, ?_⟩, rfl, rfl⟩
  · rw [diDeleteAt, if_neg hguard, herase]
    rfl
  · change di.used - 1 = t.entries.length
    omega
  · change (di.used - 1) * 10 < t.cap * 7 + 10
    omega
  · change ∃ n, t.cap = _
    rw [hcap]
    exact h.cap

end

end Holds

theorem diNew_holds : Holds (diNew count : Index R) fun _ => none := by
  refine ⟨Rep.empty home (by decide), ?_, ?_, 0, rfl⟩
  · simp [diNew, Table.empty, entries]
  · simp [diNew, Table.empty]

theorem Fresh.build (di : Index R) : Fresh di (diSortedBuild di) := ⟨fun _ => le_rfl, fun _ _ => rfl⟩

variable {v : View}

theorem Fresh.foreign (h : v.inst ≠ di.inst) : Fresh di v := ⟨fun heq => absurd heq h, fun heq => absurd heq h⟩

theorem Fresh.step {di' : Index R} (h : Fresh di v) (hinst : di'.inst = di.inst)
    (hstep : di.epoch < di'.epoch ∨ di'.epoch = di.epoch ∧ keysOf di' = keysOf di) : Fresh di' v := by
  refine ⟨fun heq => ?_, fun heq hepoch => ?_⟩
  · have hle := h.le (heq.trans hinst)
    obtain hlt | ⟨hsame, -⟩ := hstep
    · omega
    · omega
  · have hle := h.le (heq.trans hinst)
    obtain hlt | ⟨hsame, hkeys⟩ := hstep
    · omega
    · rw [hkeys]
      exact h.keys (heq.trans hinst) (hepoch.trans hsame)

theorem Fresh.current (h : Fresh di v) (m : Memory) :
    Fresh di (currentView m di v).2 ∧ ∀ w ∈ (currentView m di v).1, w.keys = keysOf di := by
  unfold currentView
  split_ifs with hview hstale hbuild
  · exact ⟨h, by simp⟩
  · exact ⟨Fresh.build di, by simp [diSortedBuild]⟩
  · exact ⟨h, by simp⟩
  · push Not at hstale
    refine ⟨h, fun w hw => ?_⟩
    obtain rfl := mem_some.mp hw
    exact h.keys hstale.1 hstale.2

theorem sorted_of_ne {α : Type} {l : List (Key × α)} (h : l.Pairwise fun a b => a.1 ≠ b.1) :
    (l.insertionSort fun a b => a.1 ≤ b.1).Pairwise fun a b => a.1 < b.1 := by
  have hperm := perm_insertionSort (fun a b : Key × α => a.1 ≤ b.1) l
  have hne : (l.insertionSort fun a b => a.1 ≤ b.1).Pairwise fun a b => a.1 ≠ b.1 :=
    hperm.symm.pairwise h fun hab => Ne.symm hab
  have : IsTrans (Key × α) fun a b => a.1 ≤ b.1 := ⟨fun _ _ _ => le_trans⟩
  have hle := pairwise_insertionSort (fun a b : Key × α => a.1 ≤ b.1) l
  exact hle.imp₂ (fun _ _ hab hn => lt_of_le_of_ne hab hn) hne

theorem mem_takeWhile_iff {α : Type} {l : List (Key × α)} (hs : l.Pairwise fun a b => a.1 < b.1) (hi : Key)
    {e : Key × α} : e ∈ l.takeWhile (fun e => hi = [] ∨ e.1 < hi) ↔ e ∈ l ∧ (hi = [] ∨ e.1 < hi) := by
  induction l with
  | nil => simp
  | cons a l ih =>
    obtain ⟨ha, hl⟩ := pairwise_cons.mp hs
    by_cases hp : hi = [] ∨ a.1 < hi
    · rw [takeWhile_cons_of_pos (by simpa using hp), mem_cons, mem_cons, ih hl]
      constructor
      · rintro (rfl | ⟨he, hlt⟩)
        · exact ⟨.inl rfl, hp⟩
        · exact ⟨.inr he, hlt⟩
      · rintro ⟨rfl | he, hlt⟩
        · exact .inl rfl
        · exact .inr ⟨he, hlt⟩
    · rw [takeWhile_cons_of_neg (by simpa using hp)]
      refine iff_of_false not_mem_nil ?_
      push Not at hp
      rintro ⟨he, hnil | hlt⟩
      · exact hp.1 hnil
      · obtain rfl | he := mem_cons.mp he
        · exact absurd hlt (not_lt.mpr hp.2)
        · exact absurd ((ha e he).trans hlt) (not_lt.mpr hp.2)

variable {e : Key × Nat}

theorem mem_drop_firstKey {keys : List (Key × Nat)} (hs : keys.Pairwise fun a b => a.1 < b.1) (lo : Key)
    : e ∈ keys.drop (firstKey keys lo) ↔ e ∈ keys ∧ (lo = [] ∨ lo ≤ e.1) := by
  unfold firstKey
  split_ifs with hlo
  · simp [hlo]
  · have hlt : ∀ {i j : Nat} (hj : j < keys.length) (hij : i < j), keys[i].1 < keys[j].1 := fun hj hij =>
      pairwise_iff_getElem.mp hs _ _ _ hj hij
    have hbelow : ∀ {i : Nat} (hi : i < keys.length),
        ((keys[i]?).any fun e => decide (e.1 < lo)) = true ↔ keys[i].1 < lo := fun hi => by
      simp [getElem?_eq_getElem hi]
    have hmono : ∀ i k, i ≤ k → k < keys.length → ((keys[k]?).any fun e => decide (e.1 < lo)) = true →
        ((keys[i]?).any fun e => decide (e.1 < lo)) = true := by
      intro i k hik hk hp
      obtain rfl | hik := eq_or_lt_of_le hik
      · exact hp
      · exact (hbelow (hik.trans hk)).mpr ((hlt hk hik).trans ((hbelow hk).mp hp))
    obtain ⟨hle, hstop⟩ := Spans.bisect_found (p := fun m => (keys[m]?).any fun e => decide (e.1 < lo))
      (n := keys.length) (l := 0) (r := keys.length) (by omega) (zero_le _)
    rw [mem_drop_iff_getElem]
    constructor
    · rintro ⟨i, hi, rfl⟩
      refine ⟨getElem_mem _, .inr (not_lt.mp fun habs => ?_)⟩
      have hstop' := hstop (by omega)
      refine absurd (hmono _ _ (le_add_right _ i) (by omega) ((hbelow (by omega)).mpr habs)) ?_
      rw [hstop']
      simp
    · rintro ⟨he, hnil | hge⟩
      · exact absurd hnil hlo
      · obtain ⟨j, hj, rfl⟩ := getElem_of_mem he
        have hfirst : ¬ j < Spans.bisect (fun m => (keys[m]?).any fun e => decide (e.1 < lo)) keys.length 0
            keys.length := fun hjb => by
          have hp := Spans.bisect_before hmono (fun i hi => absurd hi (not_lt_zero i)) hjb
          exact not_lt.mpr hge ((hbelow hj).mp hp)
        obtain ⟨i, rfl⟩ := Nat.exists_eq_add_of_le (Nat.not_lt.mp hfirst)
        exact ⟨i, by omega, rfl⟩

theorem scanSlots_listing (h : Holds di f) (lo hi : Key) : Listing f lo hi (scanSlots di lo hi) := by
  refine ⟨sorted_of_ne (h.rep.entries_nodup.filter _), fun key r => ?_⟩
  rw [scanSlots, (perm_insertionSort _ _).mem_iff, mem_filter, mem_entries, h.rep.map]
  simp

theorem keysOf_sorted (h : Holds di f) : (keysOf di).Pairwise fun a b => a.1 < b.1 := by
  refine sorted_of_ne ?_
  have hrange : (range di.table.cap).Pairwise fun i j => i < di.table.cap ∧ j < di.table.cap ∧ i ≠ j :=
    List.Pairwise.imp_of_mem (fun hi hj hne => ⟨mem_range.mp hi, mem_range.mp hj, hne⟩) nodup_range
  refine hrange.filterMap _ ?_
  rintro i j ⟨hi, hj, hne⟩ a ha b hb heq
  obtain ⟨e, he, rfl⟩ := map_eq_some_iff.mp ha
  obtain ⟨e', he', rfl⟩ := map_eq_some_iff.mp hb
  obtain ⟨k, r⟩ := e
  obtain ⟨k', r'⟩ := e'
  obtain rfl : k = k' := heq
  exact hne (h.rep.once i hi j hj k r r' he he')

theorem mem_keysOf : e ∈ keysOf di ↔ e.2 < di.table.cap ∧ ∃ r, di.table.slot e.2 = some (e.1, r) := by
  rw [keysOf, (perm_insertionSort _ _).mem_iff, mem_filterMap]
  constructor
  · rintro ⟨i, hi, he⟩
    obtain ⟨⟨k, r⟩, hslot, rfl⟩ := map_eq_some_iff.mp he
    exact ⟨mem_range.mp hi, r, hslot⟩
  · rintro ⟨hi, r, hslot⟩
    exact ⟨e.2, mem_range.mpr hi, by rw [hslot]; rfl⟩

theorem walkView_listing (h : Holds di f) (lo hi : Key) : Listing f lo hi (walkView di (keysOf di) lo hi) := by
  have hs := keysOf_sorted h
  have hdrop : ((keysOf di).drop (firstKey (keysOf di) lo)).Pairwise fun a b => a.1 < b.1 := hs.drop
  refine ⟨?_, fun key r => ?_⟩
  · refine (hdrop.sublist (takeWhile_sublist _)).filterMap _ ?_
    intro a b hab x hx y hy
    obtain ⟨e, -, rfl⟩ := map_eq_some_iff.mp hx
    obtain ⟨e', -, rfl⟩ := map_eq_some_iff.mp hy
    exact hab
  · rw [walkView, mem_filterMap, h.rep.map]
    constructor
    · rintro ⟨e, he, hx⟩
      obtain ⟨hmem, hhi⟩ := (mem_takeWhile_iff hdrop hi).mp he
      obtain ⟨hkey, hlo⟩ := (mem_drop_firstKey hs lo).mp hmem
      obtain ⟨hlt, r', hslot⟩ := mem_keysOf.mp hkey
      rw [hslot] at hx
      cases hx
      exact ⟨⟨e.2, hlt, hslot⟩, hlo, hhi⟩
    · rintro ⟨⟨i, hlt, hslot⟩, hlo, hhi⟩
      refine ⟨(key, i), (mem_takeWhile_iff hdrop hi).mpr ⟨(mem_drop_firstKey hs lo).mpr ⟨?_, hlo⟩, hhi⟩, ?_⟩
      · exact mem_keysOf.mpr ⟨hlt, r, hslot⟩
      · rw [hslot]
        rfl

theorem volDeltaRange_listing (h : Holds di f) (hv : Fresh di v) (m : Memory) (lo hi : Key) :
    ∃ l, Listing f lo hi l ∧ ∀ (σ : Type) (cb : σ → Key → R → σ × Int) (s : σ),
      (volDeltaRange m di v lo hi cb s).1 = if emits m.room 0 0 l then each cb l s else (s, -1) := by
  have hkeys := (hv.current m).2
  unfold volDeltaRange
  cases hcur : (currentView m di v).1 with
  | none => exact ⟨scanSlots di lo hi, scanSlots_listing h lo hi, fun _ _ _ => rfl⟩
  | some w =>
    rw [hcur] at hkeys
    refine ⟨walkView di (keysOf di) lo hi, walkView_listing h lo hi, fun _ cb s => ?_⟩
    dsimp only
    rw [hkeys w rfl]

structure Sound (σ : State R) (f : Key → Option R) : Prop where
  holds : Holds σ.index f
  fresh : ∀ t, Fresh σ.index (σ.view t)

theorem Sound.step {σ : State R} (h : Sound σ f) (c : Call R) :
    ∃ σ', DeltaTable.step σ c = some σ' ∧ Sound σ' (latest σ.index f c) := by
  cases c with
  | put a key r =>
    obtain ⟨di', ok, hput, hholds, hinst, hview, -⟩ := h.holds.put a key r
    refine ⟨{ σ with index := di' }, by simp [DeltaTable.step, hput], ?_, fun t => (h.fresh t).step hinst hview⟩
    simpa [latest, hput] using hholds
  | grow memory =>
    cases memory with
    | false => exact ⟨σ, rfl, h⟩
    | true =>
      obtain ⟨di', hgrow, hholds, hinst, hepoch, -⟩ := h.holds.grow
      refine ⟨{ σ with index := di' }, by simp [DeltaTable.step, hgrow], hholds, fun t => ?_⟩
      exact (h.fresh t).step hinst (.inl (hepoch ▸ lt_succ_self _))
  | deleteAt idx =>
    by_cases hidx : idx < σ.index.table.cap
    · cases hslot : σ.index.table.slot idx with
      | none =>
        refine ⟨σ, by simp [DeltaTable.step, diDeleteAt, hslot], ?_⟩
        simpa [latest, hidx, hslot] using h
      | some e =>
        obtain ⟨di', hdel, hholds, hinst, hepoch⟩ := h.holds.deleteAt hidx hslot
        refine ⟨{ σ with index := di' }, by simp [DeltaTable.step, hdel], ?_, fun t => ?_⟩
        · simpa [latest, hidx, hslot] using hholds
        · exact (h.fresh t).step hinst (.inl (hepoch ▸ lt_succ_self _))
    · refine ⟨σ, by simp [DeltaTable.step, diDeleteAt, not_lt.mp hidx], ?_⟩
      simpa [latest, hidx] using h
  | range thread m =>
    refine ⟨_, rfl, h.holds, fun t => ?_⟩
    dsimp only
    by_cases ht : t = thread
    · rw [ht, update_self]
      exact ((h.fresh thread).current m).1
    · rw [update_of_ne ht]
      exact h.fresh t
  | other thread v =>
    refine ⟨_, rfl, ?_⟩
    split_ifs with hinst
    · exact h
    · refine ⟨h.holds, fun t => ?_⟩
      dsimp only
      by_cases ht : t = thread
      · rw [ht, update_self]
        exact Fresh.foreign hinst
      · rw [update_of_ne ht]
        exact h.fresh t

theorem Sound.run {σ : State R} (h : Sound σ f) (cs : List (Call R)) :
    ∃ σ' f', DeltaTable.run cs σ f = some (σ', f') ∧ Sound σ' f' := by
  induction cs generalizing σ f with
  | nil => exact ⟨σ, f, rfl, h⟩
  | cons c cs ih =>
    obtain ⟨σ1, hstep, h1⟩ := h.step c
    obtain ⟨σ', f', hrun, h'⟩ := ih h1
    exact ⟨σ', f', by rw [DeltaTable.run, hstep]; exact hrun, h'⟩

theorem start_sound : Sound (start count : State R) fun _ => none :=
  ⟨diNew_holds count, fun _ => Fresh.foreign (succ_ne_zero count).symm⟩

theorem Holds.finite (h : Holds di f) : {key | f key ≠ none}.Finite := by
  refine (di.table.entries.map Prod.fst).finite_toSet.subset fun key hkey => ?_
  obtain ⟨r, hr⟩ := ne_none_iff_exists'.mp hkey
  exact mem_map.mpr ⟨(key, r), mem_entries.mpr ((h.rep.map key r).mp hr), rfl⟩

/-- Over any calls every probe ends, the index is the finite map of the latest records, a put that finds memory
is one of them, and a range call of any thread gives the callback that map's bindings in the range. -/
theorem index_is_map (count : Nat) (cs : List (Call R)) :
    ∃ σ f, run cs (start count) (fun _ => none) = some (σ, f) ∧ {key | f key ≠ none}.Finite ∧
      (∀ key, diFind σ.index key = some none ∧ f key = none ∨
        ∃ i r, diFind σ.index key = some (some i) ∧ σ.index.table.slot i = some (key, r) ∧ f key = some r) ∧
      (∀ key r, (diPut ⟨true, true⟩ σ.index key r).any Prod.snd = true) ∧
      ∀ thread m lo hi, ∃ l, Listing f lo hi l ∧ ∀ (τ : Type) (cb : τ → Key → R → τ × Int) (s : τ),
        (volDeltaRange m σ.index (σ.view thread) lo hi cb s).1 =
          if emits m.room 0 0 l then each cb l s else (s, -1) := by
  obtain ⟨σ, f, hrun, hsound⟩ := (start_sound count).run cs
  refine ⟨σ, f, hrun, hsound.holds.finite, fun key => ?_, fun key r => ?_, fun thread m lo hi => ?_⟩
  · obtain habsent | ⟨i, r, hfind, -, hslot, hf⟩ := hsound.holds.find key
    · exact .inl habsent
    · exact .inr ⟨i, r, hfind, hslot, hf⟩
  · obtain ⟨di', ok, hput, -, -, -, hok⟩ := hsound.holds.put ⟨true, true⟩ key r
    simp [hput, hok rfl rfl]
  · exact volDeltaRange_listing hsound.holds (hsound.fresh thread) m lo hi

end InvariantFs.DeltaTable
