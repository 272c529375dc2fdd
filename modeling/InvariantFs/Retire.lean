import InvariantFs.FileRead

namespace InvariantFs.Retire

open ByteCodec FileRead List Option

/-- Segments that a published row has given up. They are freed behind the fence that covers the row. `recipe`
says that they are all those of a recipe, level by level. -/
structure RetireEnt where
  inode : Nat
  seq : Nat
  recipe : Bool
  pbas : List Nat
  keep : List Nat

/-- A volume with its namespace, its bitmap and the segments that wait for a fence. `seq` is the
number of the put a row comes from. -/
structure Disk where
  vol : Vol
  names : List (List Byte × Nat)
  bit : Nat → Bool
  seq : Nat → Nat
  retire : List RetireEnt

def ownerName (path : List Byte) : Bool := path.head? = some 1

def countedRow (i : Nat) (row : Row) : Bool := row.type = .file ∧ i ≠ 0 ∧ row.size ≠ 0

/-- `pba_ref_v3_walk_cb`: a row that cannot be read makes the map useless. -/
def refsOf (v : Vol) (name : List Byte × Nat) : Option (List Nat) :=
  (v.row name.2).bind fun row =>
    if ¬ countedRow name.2 row ∨ ownerName name.1 then some []
    else match row.blob with
      | .ast r => some ((r.ents.filter fun e => e.zone ≠ .text ∧ e.pba ≠ 0).map Entry.pba)
      | _ => none

/-- The references of the live recipes, `pba_ref_ensure`. -/
def refs (v : Vol) (names : List (List Byte × Nat)) : Option (List Nat) :=
  (names.mapM (refsOf v)).map flatten

/-- `pba_ref_count`: without a map everything counts as shared. -/
def countIn (map : Option (List Nat)) (pba : Nat) : Nat := (map.map fun ps => ps.count pba).getD 2

def refCount (v : Vol) (names : List (List Byte × Nat)) (pba : Nat) : Nat := countIn (refs v names) pba

/-- `seg_extent`: how many blocks a segment takes, by its own header. -/
def segExtent (v : Vol) (pba : Nat) : Option Nat :=
  let plen := (v.csize pba + 8 + blockSize - 1) / blockSize
  if pba = 0 ∨ v.total ≤ pba ∨ v.csize pba = 0 ∨ v.total - pba < plen then none else some plen

/-- `seg_extent_checked`: all of them must be allocated. -/
def segExtentChecked (d : Disk) (pba : Nat) : Option Nat :=
  (segExtent d.vol pba).filter fun plen => (range' pba plen).all d.bit

/-- `vol_free_blocks` -/
def freeSegment (d : Disk) (pba : Nat) : Disk :=
  match segExtentChecked d pba with
  | none => d
  | some plen => { d with bit := fun b => if pba ≤ b ∧ b < pba + plen then false else d.bit b }

/-- The free of one segment in `free_recipe_level`: it gives back the recipe's own reference first. -/
def release (s : Option (List Nat) × Disk) (pba : Nat) : Option (List Nat) × Disk :=
  let map := s.1.map (·.erase pba)
  (map, if countIn map pba = 0 then freeSegment s.2 pba else s.2)

def discharge (s : Option (List Nat) × Disk) (e : RetireEnt) : Option (List Nat) × Disk :=
  if e.recipe then (e.pbas.filter (· ≠ 0)).foldl release s
  else (s.1, (e.pbas.eraseDups.filter fun p => p ≠ 0 ∧ p ∉ e.keep ∧ countIn s.1 p = 0).foldl freeSegment s.2)

/-- What a successful fence does with the retired segments, `dl_retire_collect` and
`dl_retire_free_list`: an entry whose row has been put again is dropped. The map is built anew if there is a list
of segments to free, and is the one at hand otherwise. -/
def fence (map : Option (List Nat)) (d : Disk) : Disk :=
  let live := d.retire.filter fun e => d.seq e.inode = e.seq
  let map := if live.any fun e => ¬ e.recipe ∧ e.pbas ≠ [] then refs d.vol d.names else map
  { (live.foldl discharge (map, d)).2 with retire := [] }

/-- `vol_inode_delta_put` -/
def putRow (d : Disk) (i : Nat) (row : Row) : Disk :=
  { d with
    vol := { d.vol with row := fun j => if j = i then some row else d.vol.row j }
    seq := fun j => if j = i then d.seq j + 1 else d.seq j }

/-- `vol_retire_pbas`, after the put it belongs to. -/
def retirePbas (d : Disk) (i : Nat) (pbas keep : List Nat) : Disk :=
  if pbas = [] then d else { d with retire := d.retire ++ [⟨i, d.seq i, false, pbas, keep⟩] }

/-- A step that only frees: everything but the bitmap is as before, and each block that is free now
lies in a segment of `P`. -/
structure FreesOnly (P : Nat → Prop) (d d' : Disk) : Prop where
  vol : d'.vol = d.vol
  names : d'.names = d.names
  seq : d'.seq = d.seq
  fewer : ∀ b, d'.bit b = true → d.bit b = true
  freed : ∀ b, d.bit b = true → d'.bit b = false →
    ∃ p plen, P p ∧ segExtent d.vol p = some plen ∧ p ≤ b ∧ b < p + plen

variable {P : Nat → Prop} {d d' d'' : Disk}

theorem FreesOnly.refl (P : Nat → Prop) (d : Disk) : FreesOnly P d d :=
  ⟨rfl, rfl, rfl, fun _ h => h, fun b h h' => by simp [h] at h'⟩

theorem FreesOnly.trans (h : FreesOnly P d d') (h' : FreesOnly P d' d'') : FreesOnly P d d'' where
  vol := h'.vol.trans h.vol
  names := h'.names.trans h.names
  seq := h'.seq.trans h.seq
  fewer b hb := h.fewer b (h'.fewer b hb)
  freed b hb hb'' := by
    cases hb' : d'.bit b with
    | false => exact h.freed b hb hb'
    | true =>
      have := h'.freed b hb' hb''
      rwa [h.vol] at this

theorem freeSegment_frees {p : Nat} (hp : P p) : FreesOnly P d (freeSegment d p) := by
  unfold freeSegment
  split
  · exact .refl P d
  · rename_i plen hlen
    have hext : segExtent d.vol p = some plen := (filter_eq_some_iff.mp hlen).1
    refine ⟨rfl, rfl, rfl, fun b hb => ?_, fun b hb hb' => ⟨p, plen, hp, hext, ?_⟩⟩
    · dsimp only at hb
      split_ifs at hb
      exact hb
    · by_contra hout
      dsimp only at hb'
      rw [if_neg hout, hb] at hb'
      simp at hb'

theorem freeAll_frees {ps : List Nat} (h : ∀ p ∈ ps, P p) : FreesOnly P d (ps.foldl freeSegment d) := by
  induction ps generalizing d with
  | nil => exact .refl P d
  | cons p ps ih =>
    exact (freeSegment_frees (h p (by simp))).trans (ih fun q hq => h q (by simp [hq]))

/-- What the map has lost since it was `map₀` was lost to segments of `P`. -/
def Lost (P : Nat → Prop) (map₀ map : Option (List Nat)) : Prop :=
  ∀ p, countIn map p = 0 → countIn map₀ p = 0 ∨ P p

theorem countIn_erase {map : Option (List Nat)} {p q : Nat} (h : q ≠ p) :
    countIn (map.map (·.erase p)) q = countIn map q := by
  cases map with
  | none => rfl
  | some ps => exact count_erase_of_ne h

variable {map₀ : Option (List Nat)} {s : Option (List Nat) × Disk}

theorem release_frees {p : Nat} (hp : P p) (hlost : Lost P map₀ s.1) (hs : FreesOnly P d s.2) :
    Lost P map₀ (release s p).1 ∧ FreesOnly P d (release s p).2 := by
  refine ⟨fun q hq => ?_, ?_⟩
  · by_cases he : q = p
    · exact .inr (he ▸ hp)
    · exact hlost q ((countIn_erase he).symm.trans hq)
  · dsimp only [release]
    split_ifs
    · exact hs.trans (freeSegment_frees hp)
    · exact hs

theorem discharge_frees {e : RetireEnt} (hlist : e.recipe = false → ∀ p ∈ e.pbas, p ≠ 0 → countIn map₀ p = 0 → P p)
    (hwhole : e.recipe = true → ∀ p ∈ e.pbas, P p) (hlost : Lost P map₀ s.1) (hs : FreesOnly P d s.2) :
    Lost P map₀ (discharge s e).1 ∧ FreesOnly P d (discharge s e).2 := by
  unfold discharge
  split_ifs with hrec
  · have hall := hwhole hrec
    have hmem : ∀ p ∈ e.pbas.filter (· ≠ 0), P p := fun p hp => hall p (mem_of_mem_filter hp)
    generalize e.pbas.filter (· ≠ 0) = ps at hmem
    induction ps generalizing s with
    | nil => exact ⟨hlost, hs⟩
    | cons p ps ih =>
      obtain ⟨hlost', hs'⟩ := release_frees (hmem p mem_cons_self) hlost hs
      exact ih hlost' hs' fun q hq => hmem q (mem_cons_of_mem p hq)
  · refine ⟨hlost, hs.trans (freeAll_frees fun p hp => ?_)⟩
    simp only [mem_filter, mem_eraseDups, Bool.decide_and, Bool.and_eq_true, decide_eq_true_eq] at hp
    obtain ⟨hp, h0, -, hcount⟩ := hp
    obtain hcount | hp' := hlost p hcount
    · exact hlist (Bool.eq_false_of_not_eq_true hrec) p hp h0 hcount
    · exact hp'

theorem fence_frees (map : Option (List Nat))
    (hlist : ∀ e ∈ d.retire, e.recipe = false → ∀ p ∈ e.pbas, p ≠ 0 → refCount d.vol d.names p = 0 → P p)
    (hwhole : ∀ e ∈ d.retire, e.recipe = true → ∀ p ∈ e.pbas, P p) :
    FreesOnly P d { fence map d with retire := d.retire } := by
  unfold fence
  dsimp only
  have hlive : ∀ e ∈ d.retire.filter fun e => d.seq e.inode = e.seq, e ∈ d.retire := fun e he => mem_of_mem_filter he
  generalize d.retire.filter (fun e => d.seq e.inode = e.seq) = live at hlive
  -- where the map is not built anew, no list of segments waits
  have hcounts : ∀ e ∈ live, e.recipe = false → ∀ p ∈ e.pbas, p ≠ 0 →
      countIn (if live.any fun e => ¬ e.recipe ∧ e.pbas ≠ [] then refs d.vol d.names else map) p = 0 → P p := by
    intro e he hrec p hp h0 hcount
    have hany : (live.any fun e => ¬ e.recipe ∧ e.pbas ≠ []) = true :=
      any_eq_true.mpr ⟨e, he, by simpa [hrec] using ne_nil_of_mem hp⟩
    rw [if_pos hany] at hcount
    exact hlist e (hlive e he) hrec p hp h0 hcount
  generalize (if live.any fun e => ¬ e.recipe ∧ e.pbas ≠ [] then refs d.vol d.names else map) = map₀ at hcounts
  have hrun : ∀ es : List RetireEnt, (∀ e ∈ es, e ∈ live) → ∀ s, Lost P map₀ s.1 → FreesOnly P d s.2 →
      FreesOnly P d (es.foldl discharge s).2 := by
    intro es
    induction es with
    | nil => exact fun _ s _ hs => hs
    | cons e es ih =>
      intro hes s hlost hs
      have he := hes e mem_cons_self
      obtain ⟨hlost', hs'⟩ := discharge_frees (hcounts e he) (hwhole e (hlive e he)) hlost hs
      exact ih (fun x hx => hes x (mem_cons_of_mem e hx)) _ hlost' hs'
  have hall := hrun live (fun e he => he) (map₀, d) (fun p hp => .inl hp) (.refl P d)
  exact ⟨hall.vol, hall.names, hall.seq, hall.fewer, hall.freed⟩

theorem fence_vol (map : Option (List Nat)) (d : Disk) : (fence map d).vol = d.vol :=
  (fence_frees (P := fun _ => True) map (fun _ _ _ _ _ _ _ => trivial) fun _ _ _ _ _ => trivial).vol

theorem refCount_pos {i : Nat} {row : Row} {r : Recipe} {e : Entry} {path : List Byte}
    (hname : (path, i) ∈ d.names) (hown : ownerName path = false) (hrow : d.vol.row i = some row)
    (hcount : countedRow i row = true) (hblob : row.blob = .ast r) (he : e ∈ r.ents)
    (hzone : e.zone ≠ .text) (hpba : e.pba ≠ 0) : refCount d.vol d.names e.pba ≠ 0 := by
  unfold refCount refs countIn
  cases hm : d.names.mapM (refsOf d.vol) with
  | none => simp
  | some pss =>
    have hrefs : refsOf d.vol (path, i) =
        some ((r.ents.filter fun e => e.zone ≠ .text ∧ e.pba ≠ 0).map Entry.pba) := by
      simp [refsOf, hrow, hcount, hown, hblob]
    obtain ⟨ps, hps, hval⟩ := Spans.forall₂_right (Spans.mapM_iff.mp hm).flip hname
    have hmem : e.pba ∈ pss.flatten := by
      refine mem_flatten.mpr ⟨ps, hps, ?_⟩
      rw [hrefs, some.injEq] at hval
      rw [← hval]
      exact mem_map.mpr ⟨e, by simp [he, hzone, hpba], rfl⟩
    exact Nat.ne_of_gt (count_pos_iff.mpr hmem)

end InvariantFs.Retire
