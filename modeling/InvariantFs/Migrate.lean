import InvariantFs.FreshBlocks
import Mathlib.Data.Set.Finite.Lemmas

namespace InvariantFs.Migrate

open ByteCodec Spans FileRead Retire FreshBlocks List Option Nat Bool

structure SegEnv where
  alloc : Option Nat
  write : Bool
  verify : Bool

/-- The shadow zone, the copies kept elsewhere, and what the volume answers. `junk` is what stands in
the member `new_pba` of the recorded moves, which is never assigned. -/
structure Env where
  zoneStart : Nat
  zoneBlocks : Nat
  tiered : Nat → Bool
  enospc : Bool
  budget : Nat
  segs : Nat → SegEnv
  store : Bool
  put : Bool
  junk : Nat → Nat

/-- `migrate_move`, with the place the copy really has. -/
structure Move where
  old : Nat
  new : Nat
  plen : Nat

def framed (pay : List Byte) : Nat := (pay.length + 8 + blockSize - 1) / blockSize

def frame (v : Vol) (pay : List Byte) : List Byte :=
  leBytes 4 pay.length ++ leBytes 4 (v.codecs.crc pay).toNat ++ pay ++
    replicate (framed pay * blockSize - 8 - pay.length) 0

def candidate (env : Env) (d : Disk) (e : Entry) : Bool :=
  e.pba ≠ 0 ∧ e.zone ≠ .text ∧ e.algo ≠ .windowSrc ∧ refCount d.vol d.names e.pba = 1 ∧
    ¬ env.tiered e.pba ∧ (segExtentChecked d e.pba).isSome

/-- `alloc_blocks` hands out free blocks of the zone. -/
def granted (env : Env) (d : Disk) (k n : Nat) : Option Nat :=
  (env.segs k).alloc.filter fun p =>
    p ≠ 0 ∧ env.zoneStart ≤ p ∧ p + n ≤ env.zoneStart + env.zoneBlocks ∧ p + n ≤ d.vol.total ∧
      (range' p n).all fun b => !d.bit b

def attempt (env : Env) (d : Disk) (budget k : Nat) (e : Entry) : Option (Nat × List Byte) :=
  if ¬ candidate env d e then none
  else (d.vol.segReadChecked e.pba 1).bind fun pay =>
    if budget < framed pay then none
    else (granted env d k (framed pay)).bind fun p => if (env.segs k).write then some (p, pay) else none

structure Scan where
  disk : Disk
  budget : Nat
  moves : List Move

def setRun (bit : Nat → Bool) (p n : Nat) : Nat → Bool := fun b => if p ≤ b ∧ b < p + n then true else bit b

def writeFrame (d : Disk) (p : Nat) (pay : List Byte) : Disk :=
  { d with vol := redev d.vol (place d.vol.dev (p * blockSize) (frame d.vol pay)) }

/-- One entry. A copy that does not compare equal or does not lie below the old segment is given back. -/
def scanEntry (env : Env) (k : Nat) (e : Entry) (s : Scan) : Scan × Entry :=
  match attempt env s.disk s.budget k e with
  | none => (s, e)
  | some (p, pay) =>
    let d := writeFrame s.disk p pay
    if (env.segs k).verify ∧ p < e.pba then
      (⟨{ d with bit := setRun d.bit p (framed pay) }, s.budget - framed pay,
        s.moves ++ [⟨e.pba, p, framed pay⟩]⟩, { e with pba := p })
    else ({ s with disk := d }, e)

def scan (env : Env) : Nat → List Entry → Scan → Scan × List Entry
  | _, [], s => (s, [])
  | k, e :: es, s =>
    let r := scanEntry env k e s
    let rest := scan env (k + 1) es r.1
    (rest.1, r.2 :: rest.2)

/-- `vol_free_blocks` without a save point. -/
def clearRun (total : Nat) (bit : Nat → Bool) (p n : Nat) : Nat → Bool :=
  fun b => if p ≤ b ∧ b < min (p + n) total then false else bit b

def rollback (env : Env) (total : Nat) : Nat → List Move → (Nat → Bool) → Nat → Bool
  | _, [], bit => bit
  | r, m :: ms, bit => rollback env total (r + 1) ms (clearRun total bit (env.junk r) m.plen)

/-- `vol_ast_recipe_windows`: a recipe with a table of children is refused. -/
def recipeWindows : Tail → Option (List Window)
  | .none => some []
  | .windows ws => some ws
  | .children _ => none

/-- The part of `migrate_file` behind the loop: the new recipe is published or the moves are undone. -/
def finish (env : Env) (total i : Nat) (row : Row) (s : Scan × List Entry) : Disk × Nat :=
  if s.1.moves = [] then (s.1.disk, 0)
  else if env.store ∧ env.put then
    (retirePbas (putRow s.1.disk i { row with blob := .ast ⟨row.size, s.2, .none⟩ }) i
      (s.1.moves.map Move.old) ((range s.1.moves.length).map env.junk), 1)
  else ({ s.1.disk with bit := rollback env total 0 s.1.moves s.1.disk.bit }, 0)

/-- `migrate_file`, with what it returns. -/
def migrateFile (env : Env) (d : Disk) (i : Nat) : Disk × Nat :=
  match d.vol.row i with
  | none => (d, 0)
  | some row =>
    match row.blob with
    | .ast r =>
      if row.size = 0 ∨ r.ents = [] ∨ recipeWindows r.tail = none then (d, 0)
      else if recipeWindows r.tail ≠ some [] then (d, 2)
      else if ¬ r.ents.any (candidate env d) ∨ env.enospc then (d, 0)
      else finish env d.vol.total i row (scan env 0 r.ents ⟨d, env.budget, []⟩)
    | _ => (d, 0)

def pbas (v : Vol) (i : Nat) : List Nat :=
  match v.row i with
  | some ⟨_, _, .ast r, _⟩ => r.ents.map Entry.pba
  | _ => []

def HandedOver (d d' : Disk) (p : Nat) : Prop :=
  ∃ e ∈ d'.retire.drop d.retire.length, p ∈ e.pbas ∧ p ∉ e.keep

/-- Either the file has moved: it reads as before, its new segments lie in the zone, and those it has no longer
are handed over; or the call has failed and nothing has changed. -/
def Kept (env : Env) (d : Disk) (i : Nat) : Prop :=
  let d' := (migrateFile env d i).1
  (∀ cs, d.vol.ReadsFile i cs → d'.vol.ReadsFile i cs) ∧
    if (migrateFile env d i).2 = 1 then
      ∀ k p p' : Nat, (pbas d.vol i)[k]? = some p → (pbas d'.vol i)[k]? = some p' → p ≠ p' →
        env.zoneStart ≤ p' ∧ p' < env.zoneStart + env.zoneBlocks ∧ HandedOver d d' p
    else d'.vol.row = d.vol.row ∧ d'.bit = d.bit

def Goes (env : Env) (d : Disk) (k : Nat) (e : Entry) : Prop :=
  ∃ p pay, attempt env d env.budget k e = some (p, pay) ∧ (env.segs k).verify = true ∧ p < e.pba

def Moves (env : Env) (d : Disk) (i : Nat) : Prop :=
  ∃ row r, d.vol.row i = some row ∧ row.blob = .ast r ∧ row.size ≠ 0 ∧ recipeWindows r.tail = some [] ∧
    env.enospc = false ∧ ∃ k e, r.ents[k]? = some e ∧ Goes env d k e

variable {env : Env} {d : Disk} {i k : Nat} {p : Nat}

theorem granted_free {n : Nat} (h : granted env d k n = some p) :
    p ≠ 0 ∧ env.zoneStart ≤ p ∧ p + n ≤ env.zoneStart + env.zoneBlocks ∧ p + n ≤ d.vol.total ∧
      ∀ b, p ≤ b → b < p + n → d.bit b = false := by
  obtain ⟨-, hp⟩ := Option.filter_eq_some_iff.mp h
  simp only [decide_and, and_eq_true, decide_eq_true_eq, List.all_eq_true, mem_range'_1,
    not_eq_true'] at hp
  obtain ⟨h0, hlo, hhi, htot, hfree⟩ := hp
  exact ⟨h0, hlo, hhi, htot, fun b hb hb' => hfree b ⟨hb, hb'⟩⟩

theorem framed_pos (pay : List Byte) : 0 < framed pay := by
  unfold framed blockSize
  omega

theorem length_frame (v : Vol) (pay : List Byte) : (frame v pay).length = framed pay * blockSize := by
  simp only [frame, length_append, length_leBytes, length_replicate]
  unfold framed blockSize
  omega

variable {e : Entry} {pay : List Byte}

theorem attempt_cases {budget : Nat} (h : attempt env d budget k e = some (p, pay)) :
    candidate env d e = true ∧ granted env d k (framed pay) = some p := by
  unfold attempt at h
  by_cases hc : candidate env d e = true
  · rw [if_neg (not_not.mpr hc)] at h
    obtain ⟨pay', -, h⟩ := bind_eq_some_iff.mp h
    by_cases hfit : budget < framed pay'
    · rw [if_pos hfit] at h
      exact absurd h (by simp)
    · rw [if_neg hfit] at h
      obtain ⟨p', hp', h⟩ := bind_eq_some_iff.mp h
      split_ifs at h
      cases h
      exact ⟨hc, hp'⟩
  · rw [if_pos hc] at h
    exact absurd h (by simp)

theorem scribbled_writeFrame (h : granted env d k (framed pay) = some p) :
    Scribbled d.bit d.vol.dev (place d.vol.dev (p * blockSize) (frame d.vol pay)) := by
  obtain ⟨-, -, -, -, hfree⟩ := granted_free h
  intro a ha
  refine place_outside fun hin => ?_
  rw [length_frame] at hin
  have hblock : d.bit (a / blockSize) = false := by
    refine hfree _ ?_ ?_
    · unfold blockSize at hin ⊢
      omega
    · unfold blockSize at hin ⊢
      omega
  rw [ha] at hblock
  simp at hblock

/-- What the scan of some entries does: it changes bytes of the device and the bitmap, and records moves from
blocks of the entries down to blocks that were free. -/
structure Scanned (s : Scan) (es : List Entry) (r : Scan × List Entry) (ms : List Move) : Prop where
  disk : ∃ dev' bit', r.1.disk = { s.disk with vol := redev s.disk.vol dev', bit := bit' }
  moves : r.1.moves = s.moves ++ ms
  taken : ∀ b, s.disk.bit b = true → r.1.disk.bit b = true
  fresh : ∀ m ∈ ms, s.disk.bit m.new = false ∧ r.1.disk.bit m.new = true
  down : ∀ m ∈ ms, ∃ (j : Nat) (e e' : Entry), es[j]? = some e ∧ r.2[j]? = some e' ∧ e.pba = m.old ∧ e'.pba = m.new ∧
    m.new < m.old

theorem scanned_entry (env : Env) (k : Nat) (e : Entry) (s : Scan) :
    ∃ ms, Scanned s [e] ((scanEntry env k e s).1, [(scanEntry env k e s).2]) ms := by
  unfold scanEntry
  cases ha : attempt env s.disk s.budget k e with
  | none => exact ⟨[], ⟨_, _, rfl⟩, by simp, fun _ h => h, by simp, by simp⟩
  | some w =>
    obtain ⟨p, pay⟩ := w
    obtain ⟨-, -, -, -, hfree⟩ := granted_free (attempt_cases ha).2
    have hpos := framed_pos pay
    dsimp only
    split_ifs with hmove
    · refine ⟨[⟨e.pba, p, framed pay⟩], ⟨_, _, rfl⟩, rfl, fun b hb => ?_, ?_, ?_⟩
      · dsimp only [setRun, writeFrame]
        split_ifs
        · rfl
        · exact hb
      · intro m hm
        obtain rfl := mem_singleton.mp hm
        refine ⟨hfree p (le_refl p) (by omega), ?_⟩
        dsimp only [setRun, writeFrame]
        rw [if_pos (by omega)]
      · intro m hm
        obtain rfl := mem_singleton.mp hm
        exact ⟨0, e, _, rfl, rfl, rfl, rfl, hmove.2⟩
    · exact ⟨[], ⟨_, _, rfl⟩, by simp, fun _ h => h, by simp, by simp⟩

theorem scanned (env : Env) (es : List Entry) (k : Nat) (s : Scan) : ∃ ms, Scanned s es (scan env k es s) ms := by
  induction es generalizing k s with
  | nil => exact ⟨[], ⟨_, _, rfl⟩, by simp [scan], fun _ h => h, by simp, by simp⟩
  | cons e es ih =>
    obtain ⟨ms, hms⟩ := scanned_entry env k e s
    obtain ⟨ms', hms'⟩ := ih (k + 1) (scanEntry env k e s).1
    obtain ⟨dev', bit', hdisk⟩ := hms.disk
    obtain ⟨dev'', bit'', hdisk'⟩ := hms'.disk
    refine ⟨ms ++ ms', ⟨dev'', bit'', ?_⟩, ?_, fun b hb => hms'.taken b (hms.taken b hb), ?_, ?_⟩
    · change (scan env (k + 1) es (scanEntry env k e s).1).1.disk = _
      rw [hdisk', hdisk]
      rfl
    · change (scan env (k + 1) es (scanEntry env k e s).1).1.moves = _
      have hm : (scanEntry env k e s).1.moves = s.moves ++ ms := hms.moves
      rw [hms'.moves, hm, append_assoc]
    · intro m hm
      obtain hm | hm := mem_append.mp hm
      · exact ⟨(hms.fresh m hm).1, hms'.taken _ (hms.fresh m hm).2⟩
      · refine ⟨eq_false_iff.mpr fun hb => ?_, (hms'.fresh m hm).2⟩
        exact eq_false_iff.mp (hms'.fresh m hm).1 (hms.taken _ hb)
    · intro m hm
      obtain hm | hm := mem_append.mp hm
      · obtain ⟨j, e1, e2, h1, h2, hrest⟩ := hms.down m hm
        obtain ⟨hj, -⟩ := List.getElem?_eq_some_iff.mp h1
        obtain rfl : j = 0 := lt_one_iff.mp hj
        exact ⟨0, e1, e2, h1, h2, hrest⟩
      · obtain ⟨j, e1, e2, h1, h2, hrest⟩ := hms'.down m hm
        exact ⟨j + 1, e1, e2, h1, h2, hrest⟩

def Owned (d : Disk) (e : Entry) : Prop :=
  e.algo ≠ .windowSrc → e.pba ≠ 0 → e.pba < d.vol.total → Allocated d.bit d.vol e.pba

variable {r : Recipe} {row : Row}

theorem held_owned (hheld : Held d) (hrow : d.vol.row i = some row)
    (hblob : row.blob = .ast r) : ∀ e ∈ r.ents, Owned d e :=
  fun e he hw hp hlt => hheld i row r e hrow hblob (.top he) hw hp hlt

theorem attempt_scribbled {dev' : Nat → Byte} (h : Scribbled d.bit d.vol.dev dev') (he : Owned d e) (budget : Nat) :
    attempt env { d with vol := redev d.vol dev' } budget k e = attempt env d budget k e := by
  by_cases hplain : e.algo = .windowSrc ∨ e.pba = 0
  · -- such an entry is no candidate, whatever the device holds
    have hno : ∀ d' : Disk, candidate env d' e = false := by
      obtain hw | hp := hplain
      · simp [candidate, hw]
      · simp [candidate, hp]
    simp [attempt, hno]
  obtain ⟨hw, hp⟩ := not_or.mp hplain
  have hext : segExtent (redev d.vol dev') e.pba = segExtent d.vol e.pba := by
    unfold segExtent
    by_cases hlt : e.pba < d.vol.total
    · rw [csize_scribbled h (he hw hp hlt).1, redev_total]
    · simp [Nat.le_of_not_lt hlt]
  have hcand : candidate env { d with vol := redev d.vol dev' } e = candidate env d e := by
    unfold candidate segExtentChecked
    rw [hext]
    rfl
  have hchecked : candidate env d e = true →
      (redev d.vol dev').segReadChecked e.pba 1 = d.vol.segReadChecked e.pba 1 := by
    intro hc
    have hlt : e.pba < d.vol.total := by
      by_contra hge
      have hnone : segExtent d.vol e.pba = none := by
        unfold segExtent
        simp [Nat.le_of_not_lt hge]
      simp [candidate, segExtentChecked, hnone] at hc
    unfold Vol.segReadChecked
    rw [segReadOnce_scribbled h hp hlt (he hw hp hlt)]
    rfl
  unfold attempt
  rw [hcand]
  by_cases hc : candidate env d e = true
  · rw [if_neg (not_not.mpr hc), if_neg (not_not.mpr hc), ← hchecked hc]
    rfl
  · rw [if_pos hc, if_pos hc]

def Unmoved (env : Env) (d : Disk) (s : Scan) : Prop :=
  ∃ dev', Scribbled d.bit d.vol.dev dev' ∧ s = ⟨{ d with vol := redev d.vol dev' }, env.budget, []⟩

theorem unmoved_start (env : Env) (d : Disk) : Unmoved env d ⟨d, env.budget, []⟩ := ⟨_, fun _ _ => rfl, rfl⟩

theorem scanEntry_unmoved {s : Scan} (hs : Unmoved env d s) (he : Owned d e) :
    (¬ Goes env d k e ∧ Unmoved env d (scanEntry env k e s).1) ∨
      Goes env d k e ∧ (scanEntry env k e s).1.moves ≠ [] := by
  obtain ⟨dev', hscr, rfl⟩ := hs
  unfold scanEntry Goes
  rw [attempt_scribbled hscr he]
  cases ha : attempt env d env.budget k e with
  | none => exact .inl ⟨by simp, dev', hscr, rfl⟩
  | some w =>
    obtain ⟨p, pay⟩ := w
    dsimp only
    split_ifs with hmove
    · exact .inr ⟨⟨p, pay, rfl, hmove⟩, by simp⟩
    · refine .inl ⟨?_, _, ?_, rfl⟩
      · rintro ⟨p', pay', heq, hmove'⟩
        cases heq
        exact hmove hmove'
      · -- the extent lies in free blocks, so the allocated ones are still as they were
        have hgrant : granted env { d with vol := redev d.vol dev' } k (framed pay) = some p := (attempt_cases ha).2
        intro a hbit
        exact (scribbled_writeFrame hgrant a hbit).trans (hscr a hbit)

variable {es : List Entry}

theorem scan_unmoved_iff {s : Scan} (hs : Unmoved env d s) (hes : ∀ e ∈ es, Owned d e) :
    ((∀ (j : Nat) (e : Entry), es[j]? = some e → ¬ Goes env d (k + j) e) ∧ Unmoved env d (scan env k es s).1) ∨
      (∃ (j : Nat) (e : Entry), es[j]? = some e ∧ Goes env d (k + j) e) ∧ (scan env k es s).1.moves ≠ [] := by
  induction es generalizing k s with
  | nil => exact .inl ⟨by simp, hs⟩
  | cons e es ih =>
    have hrest := fun x hx => hes x (mem_cons_of_mem e hx)
    obtain ⟨hstays, hs'⟩ | ⟨hgoes, hmoved⟩ := scanEntry_unmoved (k := k) hs (hes e mem_cons_self)
    · obtain ⟨hnone, hun⟩ | ⟨⟨j, x, hx, hgoes⟩, hmoved⟩ := ih (k := k + 1) hs' hrest
      · refine .inl ⟨fun j x hx => ?_, hun⟩
        cases j with
        | zero =>
          cases hx
          exact hstays
        | succ j =>
          have := hnone j x hx
          rwa [add_right_comm] at this
      · refine .inr ⟨⟨j + 1, x, hx, ?_⟩, hmoved⟩
        rwa [add_right_comm] at hgoes
    · refine .inr ⟨⟨0, e, rfl, hgoes⟩, ?_⟩
      obtain ⟨ms, hms⟩ := scanned env es (k + 1) (scanEntry env k e s).1
      change (scan env (k + 1) es (scanEntry env k e s).1).1.moves ≠ []
      rw [hms.moves]
      simp [hmoved]

variable {ms : List Move}

theorem rollback_keeps {total : Nat} {bit : Nat → Bool} {b r : Nat}
    (h : ∀ j, j < ms.length → b < env.junk (r + j)) : rollback env total r ms bit b = bit b := by
  induction ms generalizing r bit with
  | nil => rfl
  | cons m ms ih =>
    rw [rollback, ih fun j hj => ?_]
    · have hb : b < env.junk r := h 0 (by simp)
      exact if_neg fun hin => absurd hin.1 (not_le.mpr hb)
    · have hb := h (j + 1) (by simpa using hj)
      rwa [← add_assoc, add_right_comm] at hb

/-- The old segments of the moves, as a choice of what the member holds that is never assigned. -/
def olds (ms : List Move) : Nat → Nat := fun r => (ms.map Move.old).getD r 0

theorem map_olds (ms : List Move) : (range ms.length).map (olds ms) = ms.map Move.old := by
  refine ext_getElem (by simp) fun j hj hj' => ?_
  have hlt : j < ms.length := by simpa using hj
  simp [olds, hlt]

theorem scan_junk (junk : Nat → Nat) (es : List Entry) (s : Scan) :
    scan { env with junk := junk } k es s = scan env k es s := by
  induction es generalizing k s with
  | nil => rfl
  | cons e es ih =>
    have hentry : scanEntry { env with junk := junk } k e s = scanEntry env k e s := rfl
    simp only [scan, hentry, ih]

theorem pbas_row {v : Vol} (row : Row) (hrow : v.row i = some row) (hblob : row.blob = .ast r) :
    pbas v i = r.ents.map Entry.pba := by
  obtain ⟨type, size, blob⟩ := row
  obtain rfl : blob = .ast r := hblob
  simp [pbas, hrow]

theorem published_not_kept {s : Scan × List Entry} (hrow : d.vol.row i = some row) (hblob : row.blob = .ast r)
    (hs : Scanned ⟨d, env.budget, []⟩ r.ents s ms) (hms : ms ≠ []) :
    let d' := retirePbas (putRow s.1.disk i { row with blob := .ast ⟨row.size, s.2, .none⟩ }) i
      (ms.map Move.old) (ms.map Move.old)
    ∃ k p p' : Nat, (pbas d.vol i)[k]? = some p ∧ (pbas d'.vol i)[k]? = some p' ∧ p ≠ p' ∧ ¬ HandedOver d d' p := by
  intro d'
  obtain ⟨m, hm⟩ := exists_mem_of_ne_nil ms hms
  obtain ⟨j, e, e', he, he', hold, hnew, hlt⟩ := hs.down m hm
  obtain ⟨dev', bit', hdisk⟩ := hs.disk
  have hpbas : pbas d'.vol i = s.2.map Entry.pba := by
    refine pbas_row { row with blob := .ast ⟨row.size, s.2, .none⟩ } ?_ rfl
    simp [d', retirePbas, hms, putRow]
  have hretire : d'.retire = d.retire ++ [⟨i, d'.seq i, false, ms.map Move.old, ms.map Move.old⟩] := by
    simp [d', retirePbas, hms, putRow, hdisk]
  refine ⟨j, m.old, m.new, ?_, ?_, by omega, ?_⟩
  · rw [pbas_row row hrow hblob, getElem?_map, he, map_some, hold]
  · rw [hpbas, getElem?_map, he', map_some, hnew]
  · rintro ⟨x, hx, hin, hout⟩
    rw [hretire, drop_left] at hx
    obtain rfl := mem_singleton.mp hx
    exact hout hin

theorem rollback_not_kept {s : Scan × List Entry} (hs : Scanned ⟨d, env.budget, []⟩ es s ms) (hms : ms ≠ [])
    (total : Nat) : rollback { env with junk := olds ms } total 0 ms s.1.disk.bit ≠ d.bit := by
  obtain ⟨m, hm, hlow⟩ := Set.exists_min_image {m | m ∈ ms} Move.new ms.finite_toSet (exists_mem_of_ne_nil ms hms)
  obtain ⟨hfree, htaken⟩ := hs.fresh m hm
  intro heq
  have hkeeps : rollback { env with junk := olds ms } total 0 ms s.1.disk.bit m.new = s.1.disk.bit m.new := by
    refine rollback_keeps fun j hj => ?_
    obtain ⟨_, _, _, _, _, _, _, hlt⟩ := hs.down ms[j] (getElem_mem hj)
    have hold : olds ms (0 + j) = ms[j].old := by simp [olds, hj]
    change m.new < olds ms (0 + j)
    rw [hold]
    exact lt_of_le_of_lt (hlow _ (getElem_mem hj)) hlt
  rw [heq, htaken] at hkeeps
  rw [hkeeps] at hfree
  cases hfree

theorem migrate_scans (env : Env) (hrow : d.vol.row i = some row) (hblob : row.blob = .ast r) (hsize : row.size ≠ 0)
    (hwin : recipeWindows r.tail = some []) (hspace : env.enospc = false)
    (hany : r.ents.any (candidate env d) = true) :
    migrateFile env d i = finish env d.vol.total i row (scan env 0 r.ents ⟨d, env.budget, []⟩) := by
  have hents : r.ents ≠ [] := by
    intro hnil
    simp [hnil] at hany
  unfold migrateFile
  rw [hrow]
  dsimp only
  rw [hblob]
  dsimp only
  rw [if_neg (by simp [hsize, hents, hwin]), if_neg (by simp [hwin]), if_neg (by simp [hany, hspace])]

theorem migrate_unmoved (hheld : Held d) (h : ¬ Moves env d i) (junk : Nat → Nat) :
    (∃ dev', Scribbled d.bit d.vol.dev dev' ∧
      (migrateFile { env with junk := junk } d i).1 = { d with vol := redev d.vol dev' }) ∧
      (migrateFile { env with junk := junk } d i).2 ≠ 1 := by
  have hsame : Scribbled d.bit d.vol.dev d.vol.dev := fun _ _ => rfl
  unfold migrateFile
  cases hrow : d.vol.row i with
  | none => exact ⟨⟨_, hsame, rfl⟩, by simp⟩
  | some row =>
    dsimp only
    cases hblob : row.blob with
    | zero => exact ⟨⟨_, hsame, rfl⟩, by simp⟩
    | lost => exact ⟨⟨_, hsame, rfl⟩, by simp⟩
    | raw bs => exact ⟨⟨_, hsame, rfl⟩, by simp⟩
    | ast r =>
      dsimp only
      split_ifs with hsize hwin hspace
      · exact ⟨⟨_, hsame, rfl⟩, by simp⟩
      · exact ⟨⟨_, hsame, rfl⟩, by simp⟩
      · exact ⟨⟨_, hsame, rfl⟩, by simp⟩
      · obtain ⟨-, dev', hscr, hscan⟩ | ⟨⟨j, e, he, hgoes⟩, -⟩ :=
          scan_unmoved_iff (k := 0) (unmoved_start env d) (held_owned hheld hrow hblob)
        · rw [scan_junk]
          simp only [finish, hscan]
          exact ⟨⟨dev', hscr, rfl⟩, by simp⟩
        · refine absurd ⟨row, r, hrow, hblob, ?_, ?_, ?_, j, e, he, ?_⟩ h
          · exact (not_or.mp hsize).1
          · simpa using hwin
          · simpa using (not_or.mp hspace).2
          · rwa [zero_add] at hgoes

/-- Whatever stands in the member that is never assigned, the call keeps its promise, if and only if no
segment of the file is moved. -/
theorem migrate_kept_iff (hheld : Held d) : (∀ junk, Kept { env with junk := junk } d i) ↔ ¬ Moves env d i := by
  constructor
  · rintro hkept ⟨row, r, hrow, hblob, hsize, hwin, hspace, j, e, he, hgoes⟩
    have hany : r.ents.any (candidate env d) = true := by
      obtain ⟨p, pay, hatt, -⟩ := hgoes
      exact any_eq_true.mpr ⟨e, mem_of_getElem? he, (attempt_cases hatt).1⟩
    have hmoves : (scan env 0 r.ents ⟨d, env.budget, []⟩).1.moves ≠ [] := by
      obtain ⟨hnone, -⟩ | ⟨-, hmoved⟩ :=
        scan_unmoved_iff (k := 0) (unmoved_start env d) (held_owned hheld hrow hblob)
      · exact absurd hgoes (by simpa using hnone j e he)
      · exact hmoved
    obtain ⟨ms, hms⟩ := scanned env r.ents 0 ⟨d, env.budget, []⟩
    have heq : (scan env 0 r.ents ⟨d, env.budget, []⟩).1.moves = ms := by simpa using hms.moves
    rw [heq] at hmoves
    obtain ⟨-, hkept⟩ := hkept (olds ms)
    have hrun := migrate_scans { env with junk := olds ms } hrow hblob hsize hwin hspace hany
    rw [scan_junk] at hrun
    rw [hrun] at hkept
    simp only [finish, heq, if_neg hmoves, map_olds] at hkept
    by_cases hpub : env.store = true ∧ env.put = true
    · simp only [if_pos hpub, if_true] at hkept
      obtain ⟨k, p, p', hp, hp', hne, hnot⟩ := published_not_kept hrow hblob hms hmoves
      exact hnot (hkept k p p' hp hp' hne).2.2
    · simp only [if_neg hpub] at hkept
      exact rollback_not_kept hms hmoves d.vol.total hkept.2
  · intro hstays junk
    obtain ⟨⟨dev', hscr, hdisk⟩, hret⟩ := migrate_unmoved hheld hstays junk
    unfold Kept
    simp only [hdisk, if_neg hret]
    refine ⟨?_, rfl, trivial⟩
    rintro cs ⟨N, hN⟩
    refine ⟨N, fun n hn => ?_⟩
    rw [readInode_same (unseen_scribbled hscr hheld)]
    exact hN n hn

section

def oneEntry : Entry := ⟨0, 1, .raw, .none, 0, 0, 10⟩

def oneFile : Disk where
  vol :=
    { codecs := bareCodecs
      total := 32
      dev := fun n => if n = 10 * 4096 then 1 else if n = 10 * 4096 + 8 then 65 else 0
      row := fun i => if i = 2 then some ⟨.file, 1, .ast ⟨1, [oneEntry], .none⟩, {}⟩ else none
      named := fun _ => true
      sibling := fun _ _ => none }
  names := [([97], 2)]
  bit := fun b => b = 10
  seq := fun _ => 0
  retire := []

/-- The zone has all blocks from 4 on, and the copy comes to `p`. -/
def copyTo (p junk : Nat) (store : Bool) : Env where
  zoneStart := 4
  zoneBlocks := 28
  tiered := fun _ => false
  enospc := false
  budget := 8
  segs := fun _ => ⟨some p, true, true⟩
  store := store
  put := true
  junk := fun _ => junk

theorem oneFile_row (hrow : oneFile.vol.row i = some row)
    (hblob : row.blob = .ast r) : r = ⟨1, [oneEntry], .none⟩ := by
  simp only [oneFile] at hrow
  split_ifs at hrow
  cases hrow
  exact (Blob.ast.inj hblob).symm

theorem oneFile_held : Held oneFile := by
  intro i row r e hrow hblob he _ _ _
  obtain rfl := oneFile_row hrow hblob
  obtain he | ⟨htail, -, -⟩ := he
  · obtain rfl := mem_singleton.mp he
    have hext : segExtent oneFile.vol oneEntry.pba = some 1 := by decide +kernel
    refine ⟨rfl, fun plen hplen b hb hb' => ?_⟩
    rw [hext] at hplen
    cases hplen
    obtain rfl : b = 10 := le_antisymm (le_of_lt_succ hb') hb
    rfl
  · simp at htail

theorem oneFile_stays : ¬ Moves (copyTo 12 0 true) oneFile 2 := by
  rintro ⟨row, r, hrow, hblob, -, -, -, k, e, he, p, pay, hatt, -, hlt⟩
  obtain rfl := oneFile_row hrow hblob
  obtain rfl := mem_singleton.mp (mem_of_getElem? he)
  obtain ⟨halloc, -⟩ := filter_eq_some_iff.mp (attempt_cases hatt).2
  cases halloc
  simp [oneEntry] at hlt

theorem migrate_kept_upward :
    (∀ junk, Kept { copyTo 12 0 true with junk := junk } oneFile 2) ∧ ¬ Moves (copyTo 12 0 true) oneFile 2 :=
  ⟨(migrate_kept_iff oneFile_held).mpr oneFile_stays, oneFile_stays⟩

/-- The copy goes to block 5 and the new recipe cannot be stored. The move should name block 5 and happens to
hold 10: the rollback frees the block of the live file and leaves block 5 taken. -/
theorem rollback_frees_live : (migrateFile (copyTo 5 10 false) oneFile 2).2 = 0 ∧
      pbas (migrateFile (copyTo 5 10 false) oneFile 2).1.vol 2 = [10] ∧
      (migrateFile (copyTo 5 10 false) oneFile 2).1.bit 10 = false ∧
      (migrateFile (copyTo 5 10 false) oneFile 2).1.bit 5 = true ∧ oneFile.bit 5 = false := by
  decide +kernel

end

end InvariantFs.Migrate
