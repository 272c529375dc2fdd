import InvariantFs.FoldReaders
import InvariantFs.FoldSafe
import InvariantFs.Orphans

namespace InvariantFs.FoldReaders

open ByteCodec CachedStore BtreePage Btree Fallible BtreeShape BtreeRow BtreeInsert Nat Rt
open DeltaLog BaseRoot BaseCrash Fold FoldMerge FoldSafe Marking
open ReclaimDiff (kids markRoots mbufFree Reaches held_reached reaches_held mem_markRoots)
open List Option Relation

variable {crc : List Byte → UInt32}

/-- A root on the way of a merge with `n` records ahead: the one it began with, one of a higher generation, or
one that shares no page with what was there before. -/
def Lineage (v : Vol) (old root : Ptr) (ps : List UInt64) (n : Nat) : Prop :=
  (root = old ∨ old.gen < root.gen) ∧ root.gen.toNat + n < 2 ^ 64 ∨ ∀ p ∈ ps, v.bit p = false

variable {v v' : Vol}

variable {ps : List UInt64} {m : List (Key × Val)} {h n : Nat} {root old root' : Ptr} {v₀ : Vol}

theorem lineage_step {ps' : List UInt64} (hf : Frame v₀ v) (hl : Lineage v₀ old root ps (n + 1))
    (ht : Tree crc v root h m ps) (hfrom : From v ps ps')
    (hgen : root'.gen = (if m = [] then 0 else root.gen) + 1) : Lineage v₀ old root' ps' n := by
  have hfresh : (∀ p ∈ ps, v₀.bit p = false) → ∀ p ∈ ps', v₀.bit p = false := by
    intro hps p hp
    obtain hp | hp := hfrom p hp
    · exact hps p hp
    · exact frame_free hf hp
  by_cases hm : m = []
  · -- an emptied tree has no page to share
    refine .inr (hfresh fun p hp => ?_)
    obtain ⟨rs, hroot, hr, rfl⟩ := ht
    have h0 : root.pba = 0 := (rooted_nil hroot hr).mpr hm
    obtain ⟨-, rfl⟩ | ⟨h1, -⟩ := hroot
    · cases hp
    · exact absurd h0 h1
  · obtain ⟨hroot, hroom⟩ | hps := hl
    · rw [if_neg hm] at hgen
      have hnat : root'.gen.toNat = root.gen.toNat + 1 := by
        rw [hgen, UInt64.toNat_add]
        exact mod_eq_of_lt (by change root.gen.toNat + 1 < 2 ^ 64; omega)
      refine .inl ⟨.inr (UInt64.lt_iff_toNat_lt.mpr ?_), by omega⟩
      obtain rfl | hlt := hroot
      · omega
      · have := UInt64.lt_iff_toNat_lt.mp hlt
        omega
    · exact .inr (hfresh hps)

variable {recs : List (Key × Bool × Val)}

theorem merge_lineage (hf : Frame v₀ v) (hl : Lineage v₀ old root ps recs.length)
    (ht : Tree crc v root h m ps) (hrun : runs (merge crc recs root) v = (some root', v')) :
    ∃ h' m' ps', Tree crc v' root' h' m' ps' ∧ From v ps ps' ∧ Lineage v₀ old root' ps' 0 := by
  induction recs generalizing root v h m ps with
  | nil =>
    obtain ⟨rfl, rfl⟩ := ended hrun
    exact ⟨h, m, ps, ht, fun p hp => .inl hp, hl⟩
  | cons r recs ih =>
    obtain ⟨-, -, hrest⟩ | ⟨-, root1, v1, h1, ps1, hf1, hgen, ht1, hfrom, hrest⟩ := merge_cons ht hrun
    · refine ih hf ?_ ht hrest
      obtain ⟨hroot, hroom⟩ | hps := hl
      · exact .inl ⟨hroot, by simp only [length_cons] at hroom; omega⟩
      · exact .inr hps
    · obtain ⟨h', m', ps', ht', hfrom', hl'⟩ := ih (frame_trans hf hf1) (lineage_step hf hl ht hfrom hgen) ht1 hrest
      exact ⟨h', m', ps', ht', from_trans hf1 hfrom hfrom', hl'⟩

theorem copy_lineage {ck : Ck} (hroom : old.gen.toNat + recs.length < 2 ^ 64)
    (ht : Tree crc v old h m ps) (hrun : runs (copy crc recs old) v = (some root, v'))
    (hck : check crc v' root = .ok ck) : root.pba ≠ 0 ∧ Frame v v' ∧
      ∃ h' m' ps', Tree crc v' root h' m' ps' ∧ From v ps ps' ∧ Lineage v old root ps' 0 := by
  obtain ⟨h0, hmerge⟩ := copy_merge hrun fun hr => BtreeMap.empty_refused hr ck hck
  obtain ⟨hf, -⟩ := merge_tree ht hmerge
  exact ⟨h0, hf, merge_lineage (frame_refl v) (.inl ⟨.inl rfl, hroom⟩) ht hmerge⟩

variable {rt : Rt} {log log' : List UInt64} {x b : UInt64}

theorem tree_empty (v : Vol) : Tree crc v .null 0 [] [] :=
  ⟨[], .inl ⟨rfl, rfl⟩, ⟨by simp, trivial, le_top, rfl, nodup_nil⟩, rfl⟩

theorem tree_reaches (ht : Tree crc v root h m ps) : Reaches crc v root b ↔ b ∈ ps := by
  obtain ⟨rs, ⟨h0, rfl⟩ | ⟨h0, t, rfl, rfl⟩, hr, rfl⟩ := ht
  · exact ⟨fun hreach => absurd h0 hreach.1, fun hb => absurd hb not_mem_nil⟩
  · have hheld := hr.held _ mem_cons_self
    rw [rowPages_single]
    constructor
    · rintro ⟨-, q, hreach, rfl⟩
      obtain ⟨g, u, -, rfl, hsub⟩ := held_reached hheld hreach
      exact hsub mem_cons_self
    · intro hb
      exact ⟨h0, reaches_held hheld hb⟩

theorem reaches_flags (f : UInt32) (h : Reaches crc v root b) : Reaches crc v { root with flags := f } b := by
  obtain ⟨h0, q, hreach, hq⟩ := h
  refine ⟨h0, ?_⟩
  obtain rfl | ⟨r, ⟨ps, hps, hr⟩, hrest⟩ := Relation.ReflTransGen.cases_head hreach
  · exact ⟨_, .refl, hq⟩
  · exact ⟨q, .head ⟨ps, hps, hr⟩ hrest, hq⟩

structure Fewer (v v' : Vol) : Prop where
  total : v'.total = v.total
  view : ∀ b, v'.dev.view b = v.dev.view b
  bit : ∀ b, v'.bit b = true → v.bit b = true

theorem fewer_free (hold : UInt64 → Bool) (v : Vol) (c : UInt64) : Fewer v (mbufFree hold v c) := by
  unfold ReclaimDiff.mbufFree
  split
  · exact ⟨rfl, fun _ => rfl, fun _ hb => hb⟩
  · refine ⟨total_bmDirty _ _, fun b => by rw [Vol.setBit, dev_bmDirty], fun b hb => ?_⟩
    by_cases hbc : b = c
    · subst hbc
      simp [Vol.setBit] at hb
    · simpa [Vol.setBit, hbc] using hb

variable {p : Ptr} {q : Ptr}

theorem fewer_edge (hf : Fewer v v') (h : Edge (kids crc v') p q) : Edge (kids crc v) p q := by
  obtain ⟨ps, hps, hq⟩ := h
  obtain ⟨page, hpage, hkids⟩ := bind_eq_some_iff.mp hps
  obtain ⟨h0, hlt, hb, hm, hview⟩ := readPage_some crc hpage
  refine ⟨ps, bind_eq_some_iff.mpr ⟨page, ?_, hkids⟩, hq⟩
  rw [hf.view] at hview
  rw [hf.total] at hlt
  rw [hview] at hm
  rw [readPage, if_neg, hview]
  simp only [not_or, not_not]
  exact ⟨h0, UInt64.not_le.mpr hlt, by simp [hf.bit _ hb], hm⟩

theorem fewer_below (hf : Fewer v v') (h : ReflTransGen (Edge (kids crc v')) p q) :
    ReflTransGen (Edge (kids crc v)) p q := by
  induction h with
  | refl => exact .refl
  | tail _ hedge ih => exact ih.tail (fewer_edge hf hedge)

theorem fewer_reaches (hf : Fewer v v') (h : Reaches crc v' root b) : Reaches crc v root b := by
  obtain ⟨h0, q, hreach, hq⟩ := h
  exact ⟨h0, q, fewer_below hf hreach, hq⟩

variable (crc) in
structure Intact (v : Vol) (log : List UInt64) (x : UInt64) : Prop where
  ne : x ≠ 0
  tree : ∃ h m ps, Tree crc v (rootOf v x) h m ps
  apart : ∀ b, Reaches crc v (rootOf v x) b → b ∉ log

variable (crc) in
/-- What a slot may name: an allocated block outside of the log, with a page that does not read or with a
whole tree below it. -/
def Held (v : Vol) (log : List UInt64) (x : UInt64) : Prop :=
  x = 0 ∨ v.bit x = true ∧ x ∉ log ∧ (slotPage crc v x = none ∨ Intact crc v log x)

/-- Allocated blocks stay as they are, those that are touched apart, and only free blocks come to the log. -/
structure Moves (v v' : Vol) (log log' : List UInt64) (touched : UInt64 → Prop) : Prop where
  total : v'.total = v.total
  kept : ∀ b, v.bit b = true → ¬ touched b → v'.bit b = true ∧ v'.dev.view b = v.dev.view b
  log : ∀ b ∈ log', b ∈ log ∨ v.bit b = false

variable {touched : UInt64 → Prop}

theorem intact_slot (hi : Intact crc v log x) :
    Reaches crc v (rootOf v x) x ∧ slotPage crc v x = some (v.dev.view x) := by
  obtain ⟨h, m, ps, ht⟩ := hi.tree
  obtain ⟨hmem, hpage, -⟩ := tree_slot ht hi.ne
  exact ⟨(tree_reaches ht).mpr hmem, hpage⟩

theorem intact_bit (hi : Intact crc v log x) (hb : Reaches crc v (rootOf v x) b) : v.bit b = true := by
  obtain ⟨h, m, ps, ht⟩ := hi.tree
  exact (tree_pages ht b ((tree_reaches ht).mp hb)).2.2

variable {page : List Byte}

theorem held_intact (hh : Held crc v log x) (hpage : slotPage crc v x = some page) : Intact crc v log x := by
  obtain rfl | ⟨-, -, hnone | hi⟩ := hh
  · rw [slotPage_zero] at hpage
    cases hpage
  · rw [hpage] at hnone
    cases hnone
  · exact hi

theorem intact_held (hi : Intact crc v log x) : Held crc v log x :=
  .inr ⟨intact_bit hi (intact_slot hi).1, hi.apart x (intact_slot hi).1, .inr hi⟩

theorem intact_moves (hi : Intact crc v log x) (hm : Moves v v' log log' touched)
    (ht : ∀ b, Reaches crc v (rootOf v x) b → ¬ touched b) : Intact crc v' log' x ∧ rootOf v' x = rootOf v x ∧
      ∀ b, Reaches crc v' (rootOf v' x) b ↔ Reaches crc v (rootOf v x) b := by
  obtain ⟨h, m, ps, htree⟩ := hi.tree
  have hkept : ∀ p ∈ ps, v'.bit p = true ∧ v'.dev.view p = v.dev.view p := fun p hp =>
    hm.kept p (tree_pages htree p hp).2.2 (ht p ((tree_reaches htree).mpr hp))
  have hagree : Agree ps v v' :=
    ⟨hm.total, fun p hp => (hkept p hp).1.trans (tree_pages htree p hp).2.2.symm, fun p hp => (hkept p hp).2⟩
  have hroot : rootOf v' x = rootOf v x := by
    rw [rootOf, rootOf, (hkept x ((tree_reaches htree).mp (intact_slot hi).1)).2]
  have htree' : Tree crc v' (rootOf v' x) h m ps := hroot ▸ tree_agree hagree htree
  have hreach : ∀ b, Reaches crc v' (rootOf v' x) b ↔ Reaches crc v (rootOf v x) b := fun b =>
    (tree_reaches htree').trans (tree_reaches htree).symm
  refine ⟨⟨hi.ne, ⟨h, m, ps, htree'⟩, fun b hb hlog => ?_⟩, hroot, hreach⟩
  have hb' := (hreach b).mp hb
  obtain hlog | hfree := hm.log b hlog
  · exact hi.apart b hb' hlog
  · rw [intact_bit hi hb'] at hfree
    cases hfree

theorem held_moves (hh : Held crc v log x) (hm : Moves v v' log log' touched) (hx : x ≠ 0 → ¬ touched x)
    (ht : Intact crc v log x → ∀ b, Reaches crc v (rootOf v x) b → ¬ touched b) :
    Held crc v' log' x ∧ slotPage crc v' x = slotPage crc v x := by
  by_cases h0 : x = 0
  · subst h0
    exact ⟨.inl rfl, by rw [slotPage_zero, slotPage_zero]⟩
  · obtain ⟨hbit, hlog, hcase⟩ := hh.resolve_left h0
    have hkept := hm.kept x hbit (hx h0)
    have hpage : slotPage crc v' x = slotPage crc v x := slotPage_agree
      ⟨hm.total, by simpa using hkept.1.trans hbit.symm, by simpa using hkept.2⟩
    refine ⟨.inr ⟨hkept.1, fun hlog' => ?_, ?_⟩, hpage⟩
    · obtain hlog' | hfree := hm.log x hlog'
      · exact hlog hlog'
      · rw [hbit] at hfree
        cases hfree
    · obtain hnone | hi := hcase
      · exact .inl (hpage.trans hnone)
      · exact .inr (intact_moves hi hm (ht hi)).1

def last (rt : Rt) : UInt64 := Rt.slot rt (rt.seq + 1)

variable (crc)

/-- Where readers do not get the root that was published last, that root does not read or shares no page with
the one they get. -/
def Apart (v : Vol) (rt : Rt) : Prop :=
  ∀ w, rootRead crc v rt = some (some w) → w = last rt ∨ slotPage crc v (last rt) = none ∨
    ∀ b, Reaches crc v (rootOf v w) b → ¬ Reaches crc v (rootOf v (last rt)) b

def Clear (v : Vol) (rt : Rt) (log : List UInt64) (old : Ptr) (kept : UInt64 → Prop) : Prop :=
  old.pba = 0 ∨ InSlot rt old.pba ∨ (∀ b, Reaches crc v old b → b ∉ log) ∧
    ∀ x, InSlot rt x → Intact crc v log x → kept x ∨ ∀ b, Reaches crc v old b → ¬ Reaches crc v (rootOf v x) b

def Top (v : Vol) (rt : Rt) (x : UInt64) : Prop := rootRead crc v rt = some (some x)

def Points (v : Vol) (root : Ptr) (x : UInt64) : Prop := ∃ f, root = { rootOf v x with flags := f }

structure Walk (v : Vol) (rt : Rt) (log : List UInt64) (stack : List Ptr) (seen : List UInt64) : Prop where
  apart : ∀ p ∈ stack, ∀ q, ReflTransGen (Edge (kids crc v)) p q → q.pba ∉ log
  kept : ∀ x, InSlot rt x → Intact crc v log x → (∀ b, Reaches crc v (rootOf v x) b → b ∈ seen) ∨
    ∀ p ∈ stack, ∀ q, ReflTransGen (Edge (kids crc v)) p q → ¬ Reaches crc v (rootOf v x) q.pba

structure Spare (v : Vol) (rt : Rt) (log : List UInt64) (c : UInt64) : Prop where
  apart : c ∉ log
  slot : ∀ x, InSlot rt x → x ≠ 0 → x ≠ c
  kept : ∀ x, InSlot rt x → Intact crc v log x → ¬ Reaches crc v (rootOf v x) c

def Rest (s : Sys) (old : Ptr) : Prop :=
  Apart crc s.vol s.rt ∧ Clear crc s.vol s.rt s.log old (Top crc s.vol s.rt)

structure Base (s : Sys) : Prop where
  held : ∀ x, InSlot s.rt x → Held crc s.vol s.log x
  taken : ∀ b ∈ s.chain.flatMap (segBlocks s.vol.total), s.vol.bit b = true
  plain : ∀ b ∈ s.log, Plain crc (s.vol.dev.view b)

structure Plan (s : Sys) (v : Vol) (recs : List (Key × Bool × Val)) (old : Ptr) : Prop where
  base : Base crc { s with vol := v, pc := .idle }
  apart : Apart crc v s.rt
  root : baseRoot crc v s.rt = some old
  room : old.gen.toNat + recs.length < 2 ^ 64
  frame : Frame v s.vol

def At (s : Sys) : Prop :=
  match s.pc with
  | .idle => Apart crc s.vol s.rt
  | .building v recs old => Plan crc s v recs old
  | .slotted old root => Rest crc { s with rt := bump s.rt } old ∧ Clear crc s.vol s.rt s.log old (Points s.vol root)
  | .published old root | .draining old root | .sweeping old root =>
    Rest crc s old ∧ Clear crc s.vol s.rt s.log old (Points s.vol root)
  | .unlogging old root _ => s.chain = [] ∧ Rest crc s old ∧ Clear crc s.vol s.rt s.log old (Points s.vol root)
  | .diffing old stack seen => Rest crc s old ∧ Walk crc s.vol s.rt s.log stack seen
  | .collecting old todo => Rest crc s old ∧ ∀ c ∈ todo, Spare crc s.vol s.rt s.log c
  | .resuming old => Rest crc s old

def Inv (s : Sys) : Prop := Base crc s ∧ At crc s

/-- What the folds owe to a reader: the root it may choose is whole, and behind the drain it is in a slot. -/
def Safe (s : Sys) : Local → Prop
  | .looking _ best => ∀ p ∈ best, (s.pc.sweeps = true → InSlot s.rt p.1) ∧ Intact crc s.vol s.log p.1
  | .peeked _ x best => ((s.pc.sweeps = true → InSlot s.rt x) ∧ Held crc s.vol s.log x) ∧
      ∀ p ∈ best, (s.pc.sweeps = true → InSlot s.rt p.1) ∧ Intact crc s.vol s.log p.1
  | .chosen x => (s.pc.sweeps = true → InSlot s.rt x) ∧ Intact crc s.vol s.log x
  | .walking root pages => ∃ x, ((s.pc.sweeps = true → InSlot s.rt x) ∧ Intact crc s.vol s.log x) ∧
      root = rootOf s.vol x ∧ ∀ b ∈ pages, Reaches crc s.vol root b
  | .rootless => True

variable {s s' : Sys} {c : UInt64}

structure Calm (s s' : Sys) (touched : UInt64 → Prop) : Prop where
  moves : Moves s.vol s'.vol s.log s'.log touched
  slot : ∀ x, (s.pc.sweeps = true → InSlot s.rt x) → Held crc s.vol s.log x → x ≠ 0 → ¬ touched x
  tree : ∀ x, (s.pc.sweeps = true → InSlot s.rt x) → Intact crc s.vol s.log x →
    ∀ b, Reaches crc s.vol (rootOf s.vol x) b → ¬ touched b

variable {crc}

theorem calm_log (hm : Moves s.vol s'.vol s.log s'.log (· ∈ s.log)) : Calm crc s s' (· ∈ s.log) := by
  refine ⟨hm, fun x _ hh h0 => ?_, fun x _ hi => hi.apart⟩
  obtain h1 | ⟨-, hlog, -⟩ := hh
  · exact absurd h1 h0
  · exact hlog

theorem calm_same (hvol : s'.vol = s.vol) (hlog : ∀ b ∈ s'.log, b ∈ s.log) : Calm crc s s' fun _ => False :=
  ⟨⟨by rw [hvol], fun b hb _ => by rw [hvol]; exact ⟨hb, rfl⟩, fun b hb => .inl (hlog b hb)⟩,
    fun _ _ _ _ h => h, fun _ _ _ _ _ h => h⟩

theorem free_other (hold : UInt64 → Bool) (v : Vol) (hb : v.bit b = true) (hne : b ≠ c) :
    (mbufFree hold v c).bit b = true ∧ (mbufFree hold v c).dev.view b = v.dev.view b := by
  refine ⟨?_, (fewer_free hold v c).view b⟩
  unfold ReclaimDiff.mbufFree
  split
  · exact hb
  · simpa [Vol.setBit, hne] using hb

theorem calm_free (hpc : s.pc.sweeps = true) (hc : Spare crc s.vol s.rt s.log c)
    (hvol : s'.vol = mbufFree s.hold s.vol c) (hlog : ∀ b ∈ s'.log, b ∈ s.log) : Calm crc s s' (· = c) := by
  refine ⟨⟨?_, fun b hb hne => ?_, fun b hb => .inl (hlog b hb)⟩, fun x hin _ h0 => hc.slot x (hin hpc) h0,
    fun x hin hi b hb heq => hc.kept x (hin hpc) hi (heq ▸ hb)⟩
  · rw [hvol]
    exact (fewer_free s.hold s.vol c).total
  · rw [hvol]
    exact free_other s.hold s.vol hb hne

theorem safe_calm (hc : Calm crc s s' touched)
    (hw : s'.pc.sweeps = true → s.pc.sweeps = true ∧ s'.rt.rootSlot = s.rt.rootSlot) {l : Local}
    (hs : Safe crc s l) : Safe crc s' l := by
  have hin : ∀ x, (s.pc.sweeps = true → InSlot s.rt x) → s'.pc.sweeps = true → InSlot s'.rt x := by
    intro x hx hsw
    obtain ⟨hsw, hrt⟩ := hw hsw
    unfold InSlot at hx ⊢
    rw [hrt]
    exact hx hsw
  have hgood : ∀ x, (s.pc.sweeps = true → InSlot s.rt x) ∧ Intact crc s.vol s.log x →
      (s'.pc.sweeps = true → InSlot s'.rt x) ∧ Intact crc s'.vol s'.log x := fun x hx =>
    ⟨hin x hx.1, (intact_moves hx.2 hc.moves (hc.tree x hx.1 hx.2)).1⟩
  cases l with
  | looking i best => exact fun p hp => hgood p.1 (hs p hp)
  | peeked i x best =>
    obtain ⟨⟨hx, hheld⟩, hbest⟩ := hs
    refine ⟨⟨hin x hx, ?_⟩, fun p hp => hgood p.1 (hbest p hp)⟩
    exact (held_moves hheld hc.moves (hc.slot x hx hheld) (hc.tree x hx)).1
  | chosen x => exact hgood x hs
  | walking root pages =>
    obtain ⟨x, hx, rfl, hpages⟩ := hs
    obtain ⟨-, hroot, hreach⟩ := intact_moves hx.2 hc.moves (hc.tree x hx.1 hx.2)
    rw [hroot] at hreach
    exact ⟨x, hgood x hx, hroot.symm, fun b hb => (hreach b).mpr (hpages b hb)⟩
  | rootless => trivial

variable (crc) in
structure Still (s s' : Sys) : Prop where
  slots : s'.rt.rootSlot = s.rt.rootSlot
  held : ∀ x, InSlot s.rt x → Held crc s'.vol s'.log x
  page : ∀ x, InSlot s.rt x → slotPage crc s'.vol x = slotPage crc s.vol x
  tree : ∀ x, InSlot s.rt x → Intact crc s.vol s.log x → rootOf s'.vol x = rootOf s.vol x ∧
    ∀ b, Reaches crc s'.vol (rootOf s'.vol x) b ↔ Reaches crc s.vol (rootOf s.vol x) b

theorem still_calm (hb : Base crc s) (hc : Calm crc s s' touched)
    (hrt : s'.rt.rootSlot = s.rt.rootSlot) : Still crc s s' := by
  have hmoved : ∀ x, InSlot s.rt x → Held crc s'.vol s'.log x ∧ slotPage crc s'.vol x = slotPage crc s.vol x :=
    fun x hx => held_moves (hb.held x hx) hc.moves (hc.slot x (fun _ => hx) (hb.held x hx)) (hc.tree x fun _ => hx)
  exact ⟨hrt, fun x hx => (hmoved x hx).1, fun x hx => (hmoved x hx).2,
    fun x hx hi => (intact_moves hi hc.moves (hc.tree x (fun _ => hx) hi)).2⟩

theorem still_intact (hb : Base crc s) (hs : Still crc s s') (hx : InSlot s.rt x)
    (hi : Intact crc s'.vol s'.log x) : Intact crc s.vol s.log x :=
  held_intact (hb.held x hx) ((hs.page x hx).symm.trans (intact_slot hi).2)

theorem still_inSlot (hs : Still crc s s') : InSlot s'.rt x ↔ InSlot s.rt x := by
  unfold InSlot
  rw [hs.slots]

theorem still_rootRead (hs : Still crc s s') (hseq : s'.rt.seq = s.rt.seq) :
    rootRead crc s'.vol s'.rt = rootRead crc s.vol s.rt := by
  unfold rootRead
  rw [hs.slots, hseq, hs.page _ (.inl rfl), hs.page _ (.inr rfl)]

theorem inSlot_slot (rt : Rt) (i : Nat) : InSlot rt (Rt.slot rt i) := by
  unfold Rt.slot
  split
  · exact .inl rfl
  · exact .inr rfl

theorem inSlot_last (rt : Rt) : InSlot rt (last rt) := inSlot_slot rt _

section

variable (hb : Base crc s) (hs : Still crc s s')

include hb hs

theorem apart_still (hseq : s'.rt.seq = s.rt.seq) (ha : Apart crc s.vol s.rt) : Apart crc s'.vol s'.rt := by
  have hlast : last s'.rt = last s.rt := by
    unfold last Rt.slot
    rw [hs.slots, hseq]
  have hin := inSlot_last s.rt
  intro w hw
  rw [still_rootRead hs hseq] at hw
  rw [hlast, hs.page _ hin]
  obtain heq | hnone | hdisj := ha w hw
  · exact .inl heq
  · exact .inr (.inl hnone)
  · cases hpage : slotPage crc s.vol (last s.rt) with
    | none => exact .inr (.inl rfl)
    | some page =>
      obtain ⟨hslot, hwpage⟩ := Orphans.rootRead_slot hw
      have hwi := held_intact (hb.held w hslot) hwpage
      have hli := held_intact (hb.held _ hin) hpage
      refine .inr (.inr fun b hb hb' => ?_)
      exact hdisj b (((hs.tree w hslot hwi).2 b).mp hb) (((hs.tree _ hin hli).2 b).mp hb')

theorem clear_still {kept kept' : UInt64 → Prop} (hfew : ∀ b, Reaches crc s'.vol old b → Reaches crc s.vol old b)
    (hlog : ∀ b ∈ s'.log, b ∈ s.log) (hk : ∀ x, InSlot s.rt x → Intact crc s.vol s.log x → kept x → kept' x)
    (hc : Clear crc s.vol s.rt s.log old kept) : Clear crc s'.vol s'.rt s'.log old kept' := by
  obtain h0 | hin | ⟨hapart, hslots⟩ := hc
  · exact .inl h0
  · exact .inr (.inl ((still_inSlot hs).mpr hin))
  · refine .inr (.inr ⟨fun b hb hmem => hapart b (hfew b hb) (hlog b hmem), fun x hx hi => ?_⟩)
    have hx' := (still_inSlot hs).mp hx
    have hi' := still_intact hb hs hx' hi
    obtain hkept | hdisj := hslots x hx' hi'
    · exact .inl (hk x hx' hi' hkept)
    · exact .inr fun b hb hreach => hdisj b (hfew b hb) (((hs.tree x hx' hi').2 b).mp hreach)

theorem rest_still (hseq : s'.rt.seq = s.rt.seq) (hfew : ∀ b, Reaches crc s'.vol old b → Reaches crc s.vol old b)
    (hlog : ∀ b ∈ s'.log, b ∈ s.log) (hr : Rest crc s old) : Rest crc s' old := by
  refine ⟨apart_still hb hs hseq hr.1, clear_still hb hs hfew hlog (fun x _ _ hx => ?_) hr.2⟩
  exact (still_rootRead hs hseq).trans hx

end

theorem points_still (hs : Still crc s s') (hx : InSlot s.rt x) (hi : Intact crc s.vol s.log x)
    (hp : Points s.vol root x) : Points s'.vol root x := by
  unfold Points
  rw [(hs.tree x hx hi).1]
  exact hp

/-- No segment of the log is being freed. -/
@[simp] def Pc.Whole (pc : Pc) : Prop := ∀ old root todo, pc ≠ .unlogging old root todo

variable {ck : Ck} {pc : Pc}

theorem log_open (hpc : s.pc = pc) (hno : pc.Whole) : s.log = s.chain.flatMap (segBlocks s.vol.total) := by
  unfold Sys.log
  rw [hpc]
  cases pc with
  | unlogging old root todo => exact absurd rfl (hno old root todo)
  | _ => exact append_nil _

theorem calm_frame (hf : Frame s.vol v') (hlog : ({ s with vol := v', pc := pc } : Sys).log = s.log) :
    Calm crc s { s with vol := v', pc := pc } (· ∈ s.log) := by
  refine calm_log ⟨hf.total, fun b hb _ => ⟨hf.bits b hb, frame_view hf hb⟩, fun b hb => .inl ?_⟩
  rwa [hlog] at hb

section

variable (hpc : s.pc = .building v recs old) (hp : Plan crc s v recs old)

include hpc hp

theorem plan_still :
    ({ s with vol := v, pc := .idle } : Sys).log = s.log ∧ Still crc { s with vol := v, pc := .idle } s := by
  have hlog : ({ s with vol := v, pc := .idle } : Sys).log = s.log := by
    rw [log_open hpc (by simp), log_open rfl (by simp)]
    rw [hp.frame.total]
  have hcalm : Calm crc { s with vol := v, pc := .idle } { s with vol := s.vol, pc := s.pc } (· ∈ _) :=
    calm_frame (s := { s with vol := v, pc := .idle }) hp.frame hlog.symm
  exact ⟨hlog, still_calm hp.base hcalm rfl⟩

theorem plan_old : old = .null ∧ s.rt.rootSlot = (0, 0) ∨
      ∃ w, Top crc v s.rt w ∧ old = rootOf v w ∧ InSlot s.rt w ∧ Intact crc v s.log w := by
  obtain ⟨o, hread, hroot⟩ := map_eq_some_iff.mp hp.root
  cases o with
  | none =>
    refine .inl ⟨hroot.symm, ?_⟩
    unfold rootRead at hread
    split at hread
    · split_ifs at hread with hz
      exact hz
    · cases hread
    · cases hread
    · split_ifs at hread <;> cases hread
  | some w =>
    obtain ⟨hin, hpage⟩ := Orphans.rootRead_slot hread
    refine .inr ⟨w, hread, hroot.symm, hin, ?_⟩
    rw [← (plan_still hpc hp).1]
    exact held_intact (hp.base.held w hin) hpage

end

theorem top_gen {w : UInt64} (hw : Top crc v rt w) (hpage : slotPage crc v (last rt) = some page) :
    (pageHdr page).gen ≤ (rootOf v w).gen := by
  unfold Top at hw
  unfold last at hpage
  rw [rootRead_eq, hpage] at hw
  cases hnext : slotPage crc v (Rt.slot rt rt.seq) with
  | none =>
    rw [hnext] at hw
    cases hw
    rw [(slotPage_some hpage).2]
    exact UInt64.le_refl _
  | some next =>
    rw [hnext] at hw
    dsimp only at hw
    split_ifs at hw with hlt
    · obtain rfl := some.inj (some.inj hw)
      rw [(slotPage_some hpage).2]
      exact UInt64.le_refl _
    · obtain rfl := some.inj (some.inj hw)
      rw [(slotPage_some hnext).2] at hlt
      exact UInt64.not_lt.mp hlt

theorem publish_top (rt : Rt) (hpage : slotPage crc v x = some (v.dev.view x)) :
    Top crc v (bump (name rt x)) x ∨ Top crc v (bump (name rt x)) (last rt) ∧
        ∃ page, slotPage crc v (last rt) = some page ∧ (rootOf v x).gen ≤ (pageHdr page).gen := by
  obtain ⟨hnext, hlast⟩ := slots_publish rt x
  change Rt.slot (Rt.bump (Rt.name rt x)) (Rt.bump (Rt.name rt x)).seq = last rt at hnext
  change Rt.slot (Rt.bump (Rt.name rt x)) ((Rt.bump (Rt.name rt x)).seq + 1) = x at hlast
  unfold Top
  rw [rootRead_eq, hnext, hlast, hpage]
  cases ha : slotPage crc v (last rt) with
  | none => exact .inl rfl
  | some page =>
    dsimp only
    split_ifs with hlt
    · exact .inl rfl
    · exact .inr ⟨rfl, page, rfl, UInt64.not_lt.mp hlt⟩

theorem inSlot_name (rt : Rt) (pba : UInt64) : InSlot (name rt pba) x ↔ x = pba ∨ x = last rt := by
  unfold InSlot Rt.name last Rt.slot
  obtain hpar | hpar := mod_two_eq_zero_or_one rt.seq
  · simp [hpar, add_mod]
  · simp [hpar, add_mod, or_comm]

/-- The root that a fold publishes, next to the one it started from and the one that stays in its slot. -/
structure Named (crc : List Byte → UInt32) (s : Sys) (old root : Ptr) : Prop where
  intact : Intact crc s.vol s.log root.pba
  points : rootOf s.vol root.pba = { root with flags := bpRoot }
  /-- If the root that stays has at least the generation of the new one, the new one is the old one or shares
  no page with what the slots held. -/
  behind : ∀ page, slotPage crc s.vol (last s.rt) = some page → root.gen ≤ (pageHdr page).gen →
    root = old ∨ ∀ y, InSlot s.rt y → Intact crc s.vol s.log y →
      ∀ b, Reaches crc s.vol (rootOf s.vol y) b → ¬ Reaches crc s.vol (rootOf s.vol root.pba) b

section

variable (hpc : s.pc = .building v recs old) (hp : Plan crc s v recs old)

include hpc hp

theorem name_named (hrun : runs (copy crc recs old) v = (some root, s.vol)) (hck : check crc s.vol root = .ok ck) :
    Named crc s old root := by
  obtain ⟨hlog, hstill⟩ := plan_still hpc hp
  have hold := plan_old hpc hp
  -- the tree that the fold starts from has no page in the log
  obtain ⟨h, m, ps, ht, hps⟩ : ∃ h m ps, Tree crc v old h m ps ∧ ∀ b ∈ ps, b ∉ s.log := by
    obtain ⟨rfl, -⟩ | ⟨w, -, rfl, -, hi⟩ := hold
    · exact ⟨0, [], [], tree_empty v, by simp⟩
    · obtain ⟨h, m, ps, ht⟩ := hi.tree
      exact ⟨h, m, ps, ht, fun b hb => hi.apart b ((tree_reaches ht).mpr hb)⟩
  obtain ⟨h0, hf, h', m', ps', ht', hfrom, hline⟩ := copy_lineage hp.room ht hrun hck
  have hpoints := (tree_slot ht' h0).2.2 bpRoot
  have htree : Tree crc s.vol (rootOf s.vol root.pba) h' m' ps' := by
    rw [rootOf, hpoints]
    exact tree_flags ht' bpRoot
  refine ⟨⟨h0, ⟨h', m', ps', htree⟩, fun b hb hmem => ?_⟩, hpoints, fun page hpage hle => ?_⟩
  · obtain hb | hfree := hfrom b ((tree_reaches htree).mp hb)
    · exact hps b hb hmem
    · rw [← hlog, log_open rfl (by simp)] at hmem
      rw [hp.base.taken b hmem] at hfree
      cases hfree
  · rw [hstill.page _ (inSlot_last s.rt)] at hpage
    obtain ⟨rfl, hzero⟩ | ⟨w, htop, rfl, hin, hi⟩ := hold
    · have hlast : last s.rt = 0 := by
        unfold last Rt.slot
        rw [hzero]
        split <;> rfl
      rw [hlast, slotPage_zero] at hpage
      cases hpage
    · have hgen : root.gen ≤ (rootOf v w).gen := UInt64.le_trans hle (top_gen htop hpage)
      obtain ⟨hroot | hlt, -⟩ | hfresh := hline
      · exact .inl hroot
      · exact absurd hlt (UInt64.not_lt.mpr hgen)
      · refine .inr fun y hy hyi b hb hb' => ?_
        have hyi' := still_intact hp.base hstill hy hyi
        have hbit := intact_bit hyi' (((hstill.tree y hy hyi').2 b).mp hb)
        have hfree := hfresh b ((tree_reaches htree).mp hb')
        exact absurd (hbit.symm.trans hfree) (by simp)

theorem name_clear {kept : UInt64 → Prop}
    (hslots : ∀ y, InSlot rt y ↔ y = root.pba ∨ y = last s.rt) (hnew : kept root.pba ∨ root.pba = old.pba ∨
      ∀ b, Reaches crc s.vol old b → ¬ Reaches crc s.vol (rootOf s.vol root.pba) b) :
    Clear crc s.vol rt s.log old kept := by
  obtain ⟨hlog, hstill⟩ := plan_still hpc hp
  obtain ⟨rfl, -⟩ | ⟨w, htop, rfl, hin, hi⟩ := plan_old hpc hp
  · exact .inl rfl
  by_cases hw : InSlot rt w
  · exact .inr (.inl hw)
  rw [hslots, not_or] at hw
  rw [← hlog] at hi
  obtain ⟨hroot, hreach⟩ := hstill.tree w hin hi
  refine .inr (.inr ⟨fun b hb => ?_, fun y hy hyi => ?_⟩)
  · rw [← hlog]
    exact hi.apart b ((hreach b).mp (hroot ▸ hb))
  · obtain rfl | rfl := (hslots y).mp hy
    · obtain hkept | heq | hdisj := hnew
      · exact .inl hkept
      · exact absurd heq.symm hw.1
      · exact .inr hdisj
    · have hlast := inSlot_last s.rt
      have hyi' := still_intact hp.base hstill hlast hyi
      obtain heq | hnone | hdisj := hp.apart w htop
      · exact absurd heq hw.2
      · rw [(intact_slot hyi').2] at hnone
        cases hnone
      · refine .inr fun b hb hb' => hdisj b ((hreach b).mp (hroot ▸ hb)) ?_
        exact ((hstill.tree _ hlast hyi').2 b).mp hb'

theorem name_rest (hn : Named crc s old root) : Apart crc s.vol (bump (name s.rt root.pba)) ∧
      Clear crc s.vol (bump (name s.rt root.pba)) s.log old (Top crc s.vol (bump (name s.rt root.pba))) ∧
      Clear crc s.vol (name s.rt root.pba) s.log old (Points s.vol root) := by
  obtain ⟨hlog, hstill⟩ := plan_still hpc hp
  have hlast : last (Rt.bump (Rt.name s.rt root.pba)) = root.pba := (slots_publish s.rt root.pba).2
  have hslots : ∀ y, InSlot (name s.rt root.pba) y ↔ y = root.pba ∨ y = last s.rt := fun y =>
    inSlot_name s.rt root.pba
  have hgen : (rootOf s.vol root.pba).gen = root.gen := by rw [hn.points]
  have hpoints : Points s.vol root root.pba := ⟨root.flags, by rw [hn.points]⟩
  have hin := inSlot_last s.rt
  -- where the other root wins, what it reaches is apart from the new root
  have hwin : ∀ page, slotPage crc s.vol (last s.rt) = some page → (rootOf s.vol root.pba).gen ≤ (pageHdr page).gen →
      root = old ∨ ∀ y, InSlot s.rt y → Intact crc s.vol s.log y →
        ∀ b, Reaches crc s.vol (rootOf s.vol y) b → ¬ Reaches crc s.vol (rootOf s.vol root.pba) b := by
    rw [hgen]
    exact hn.behind
  refine ⟨fun w hw => ?_, name_clear hpc hp hslots ?_, name_clear hpc hp hslots (.inl hpoints)⟩
  · rw [hlast]
    obtain htop | ⟨htop, page, hpage, hle⟩ := publish_top s.rt (intact_slot hn.intact).2
    · exact .inl (some.inj (some.inj (hw.symm.trans htop)))
    · obtain rfl : w = last s.rt := some.inj (some.inj (hw.symm.trans htop))
      have hli := held_intact (hstill.held _ hin) hpage
      obtain rfl | hdisj := hwin page hpage hle
      · -- the fold has published the root it started from
        obtain ⟨h0, -⟩ | ⟨w, hwtop, rfl, hwin, hwi⟩ := plan_old hpc hp
        · exact absurd (congrArg Ptr.pba h0) hn.intact.ne
        rw [← hlog] at hwi
        obtain ⟨-, hreach⟩ := hstill.tree w hwin hwi
        have hli' := still_intact hp.base hstill hin hli
        obtain heq | hnone | hdisj := hp.apart w hwtop
        · exact .inl heq.symm
        · rw [(intact_slot hli').2] at hnone
          cases hnone
        · refine .inr (.inr fun b hb hb' => hdisj b ((hreach b).mp hb') ?_)
          exact ((hstill.tree _ hin hli').2 b).mp hb
      · exact .inr (.inr (hdisj _ hin hli))
  · obtain htop | ⟨-, page, hpage, hle⟩ := publish_top s.rt (intact_slot hn.intact).2
    · exact .inl htop
    · obtain rfl | hdisj := hwin page hpage hle
      · exact .inr (.inl rfl)
      · refine .inr (.inr ?_)
        obtain ⟨rfl, -⟩ | ⟨w, -, rfl, hwin, hwi⟩ := plan_old hpc hp
        · exact fun b hb => absurd rfl hb.1
        · rw [← hlog] at hwi
          obtain ⟨hroot, -⟩ := hstill.tree w hwin hwi
          rw [← hroot]
          exact hdisj w hwin (held_intact (hstill.held w hwin) ((hstill.page w hwin).trans (intact_slot hwi).2))

end

variable {cand : List UInt64}

theorem orphans_spare (hb : Base crc s)
    (hc : c ∈ orphans crc s.vol s.rt s.pinned cand) : Spare crc s.vol s.rt s.log c := by
  unfold orphans at hc
  split at hc
  · cases hc
  · exact absurd hc not_mem_nil
  rename_i roots _ hroots
  split at hc
  · exact absurd hc not_mem_nil
  rename_i marked hmarked
  obtain ⟨hlooks, hunmarked⟩ : looksFreeable crc s.vol roots c ∧ c ∉ marked := by
    simpa using (mem_filter.mp hc).2
  have hpage : pageValidate crc (s.vol.dev.view c) := by
    simp only [looksFreeable, decide_eq_true_eq] at hlooks
    exact hlooks.2.2.2.1
  have hlive : ∀ x, InSlot s.rt x → x ≠ 0 → Intact crc s.vol s.log x ∧ ¬ Reaches crc s.vol (rootOf s.vol x) c := by
    intro x hx h0
    have hin : x ∈ [s.rt.rootSlot.1, s.rt.rootSlot.2].filter (· ≠ 0) := by
      refine mem_filter.mpr ⟨?_, decide_eq_true h0⟩
      obtain rfl | rfl := hx
      · simp
      · simp
    obtain ⟨r, hr, hptr⟩ := Spans.forall₂_right (Spans.mapM_iff.mp hroots).flip hin
    obtain ⟨page, hpage, rfl⟩ := map_eq_some_iff.mp hptr
    refine ⟨held_intact (hb.held x hx) hpage, fun hreach => hunmarked ?_⟩
    refine (mem_markRoots hmarked).mpr ⟨_, mem_append_left _ hr, ?_⟩
    rw [(slotPage_some hpage).2]
    exact reaches_flags (bpLeaf ||| bpRoot) hreach
  refine ⟨fun hmem => ?_, fun x hx h0 heq => ?_, fun x hx hi => (hlive x hx hi.ne).2⟩
  · exact hb.plain c hmem hpage
  · obtain ⟨hi, hno⟩ := hlive x hx h0
    exact hno (heq ▸ (intact_slot hi).1)

theorem spare_still (hb : Base crc s) (hs : Still crc s s') (hlog : ∀ b ∈ s'.log, b ∈ s.log)
    (hc : Spare crc s.vol s.rt s.log c) : Spare crc s'.vol s'.rt s'.log c := by
  refine ⟨fun hmem => hc.apart (hlog c hmem), fun x hx => hc.slot x ((still_inSlot hs).mp hx), fun x hx hi => ?_⟩
  have hx' := (still_inSlot hs).mp hx
  have hi' := still_intact hb hs hx' hi
  rw [(hs.tree x hx' hi').2 c]
  exact hc.kept x hx' hi'

theorem readPage_slot (h : readPage crc v p = some page) : slotPage crc v p.pba = some (v.dev.view p.pba) := by
  obtain ⟨h0, hlt, hb, ⟨hlen, -, -, hval⟩, rfl⟩ := readPage_some crc h
  have hle := UInt64.not_le.mpr hlt
  simp [slotPage, wholePage, h0, hle, hb, hlen, hval]

variable {stack : List Ptr} {seen : List UInt64}

theorem walk_spare (hb : Base crc s) {ps : List Ptr} (hw : Walk crc s.vol s.rt s.log (p :: stack) seen)
    (hp : p.pba ∉ seen) (hps : kids crc s.vol p = some ps) : Spare crc s.vol s.rt s.log p.pba := by
  have hkept : ∀ x, InSlot s.rt x → Intact crc s.vol s.log x → ¬ Reaches crc s.vol (rootOf s.vol x) p.pba := by
    intro x hx hi hreach
    obtain hseen | hbelow := hw.kept x hx hi
    · exact hp (hseen _ hreach)
    · exact hbelow p mem_cons_self p .refl hreach
  refine ⟨hw.apart p mem_cons_self p .refl, fun x hx _ heq => ?_, hkept⟩
  obtain ⟨page, hpage, -⟩ := bind_eq_some_iff.mp hps
  have hi := held_intact (hb.held x hx) (heq ▸ readPage_slot hpage)
  exact hkept x hx hi (heq ▸ (intact_slot hi).1)

theorem walk_free (hb : Base crc s) (hs : Still crc s s') (hf : Fewer s.vol s'.vol) (hlog : ∀ b ∈ s'.log, b ∈ s.log)
    {ps : List Ptr} (hw : Walk crc s.vol s.rt s.log (p :: stack) seen)
    (hps : kids crc s.vol p = some ps) : Walk crc s'.vol s'.rt s'.log (ps ++ stack) (p.pba :: seen) := by
  -- what lies below the new stack lay below the old one
  have hbelow : ∀ r ∈ ps ++ stack, ∀ q, ReflTransGen (Edge (kids crc s'.vol)) r q →
      ∃ r' ∈ p :: stack, ReflTransGen (Edge (kids crc s.vol)) r' q := by
    intro r hr q hq
    obtain hr | hr := mem_append.mp hr
    · exact ⟨p, mem_cons_self, .head ⟨ps, hps, hr⟩ (fewer_below hf hq)⟩
    · exact ⟨r, mem_cons_of_mem _ hr, fewer_below hf hq⟩
  refine ⟨fun r hr q hq hmem => ?_, fun x hx hi => ?_⟩
  · obtain ⟨r', hr', hq'⟩ := hbelow r hr q hq
    exact hw.apart r' hr' q hq' (hlog _ hmem)
  · have hx' := (still_inSlot hs).mp hx
    have hi' := still_intact hb hs hx' hi
    have hreach := (hs.tree x hx' hi').2
    obtain hseen | hno := hw.kept x hx' hi'
    · exact .inl fun b hb => mem_cons_of_mem _ (hseen b ((hreach b).mp hb))
    · refine .inr fun r hr q hq hq' => ?_
      obtain ⟨r', hr', hqr⟩ := hbelow r hr q hq
      exact hno r' hr' q hqr ((hreach _).mp hq')

variable (crc) in
structure Sheds (s s' : Sys) : Prop where
  slots : s'.rt.rootSlot = s.rt.rootSlot
  seq : s'.rt.seq = s.rt.seq
  vol : Fewer s.vol s'.vol
  log : ∀ b ∈ s'.log, b ∈ s.log
  calm : ∃ touched, Calm crc s s' touched
  taken : ∀ b ∈ s'.chain.flatMap (segBlocks s'.vol.total), s'.vol.bit b = true

section

variable (hb : Base crc s)

include hb

theorem sheds_still (h : Sheds crc s s') : Still crc s s' := by
  obtain ⟨touched, hcalm⟩ := h.calm
  exact still_calm hb hcalm h.slots

theorem sheds_base (h : Sheds crc s s') : Base crc s' := by
  have hs := sheds_still hb h
  refine ⟨fun x hx => hs.held x ((still_inSlot hs).mp hx), h.taken, fun b hmem => ?_⟩
  rw [h.vol.view]
  exact hb.plain b (h.log b hmem)

theorem sheds_rest (h : Sheds crc s s') (hr : Rest crc s old) : Rest crc s' old :=
  rest_still hb (sheds_still hb h) h.seq (fun _ => fewer_reaches h.vol) h.log hr

theorem sheds_clear (h : Sheds crc s s') (hc : Clear crc s.vol s.rt s.log old (Points s.vol root)) :
    Clear crc s'.vol s'.rt s'.log old (Points s'.vol root) := by
  have hs := sheds_still hb h
  exact clear_still hb hs (fun _ => fewer_reaches h.vol) h.log (fun _ hx hi => points_still hs hx hi) hc

end

theorem log_sub (hno : s'.pc.Whole) (hchain : s'.chain = s.chain) (htotal : s'.vol.total = s.vol.total) :
    ∀ b ∈ s'.log, b ∈ s.log := by
  intro b hb
  rw [log_open rfl hno, hchain, htotal] at hb
  exact mem_append_left _ hb

theorem sheds_pc (hb : Base crc s) (hno : pc.Whole) : Sheds crc s { s with pc := pc } :=
  ⟨rfl, rfl, ⟨rfl, fun _ => rfl, fun _ h => h⟩, log_sub hno rfl rfl,
    ⟨_, calm_same rfl (log_sub hno rfl rfl)⟩, hb.taken⟩

theorem sheds_free (hb : Base crc s) (hsw : s.pc.sweeps = true) (hc : Spare crc s.vol s.rt s.log c)
    (hno : pc.Whole) : Sheds crc s { s with vol := mbufFree s.hold s.vol c, pc := pc } := by
  have hf := fewer_free s.hold s.vol c
  have hlog : ∀ b ∈ ({ s with vol := mbufFree s.hold s.vol c, pc := pc } : Sys).log, b ∈ s.log :=
    log_sub hno rfl hf.total
  refine ⟨rfl, rfl, hf, hlog, ⟨_, calm_free hsw hc rfl hlog⟩, fun b hmem => ?_⟩
  rw [hf.total] at hmem
  refine (free_other s.hold s.vol (hb.taken b hmem) fun heq => hc.apart ?_).1
  rw [← heq]
  exact mem_append_left _ hmem

theorem sheds_unlog {todo : List UInt64} (hpc : s.pc = .unlogging old root (b :: todo)) (hchain : s.chain = []) :
    Sheds crc s { s with vol := mbufFree s.hold s.vol b, pc := .unlogging old root todo } := by
  have hf := fewer_free s.hold s.vol b
  have hs : s.log = b :: todo := by
    unfold Sys.log
    rw [hchain, hpc]
    rfl
  have hs' : ({ s with vol := mbufFree s.hold s.vol b, pc := .unlogging old root todo } : Sys).log = todo := by
    unfold Sys.log
    rw [hchain]
    rfl
  have hlog : ∀ a ∈ ({ s with vol := mbufFree s.hold s.vol b, pc := .unlogging old root todo } : Sys).log,
      a ∈ s.log := by
    rw [hs, hs']
    exact fun a => mem_cons_of_mem b
  refine ⟨rfl, rfl, hf, hlog, ⟨_, calm_log ⟨hf.total, fun a ha hout => ?_, fun a ha => .inl (hlog a ha)⟩⟩, ?_⟩
  · refine free_other s.hold s.vol ha fun heq => hout ?_
    rw [hs, heq]
    exact mem_cons_self
  · dsimp only
    rw [hchain]
    exact fun a ha => absurd ha not_mem_nil

theorem sheds_reset (hpc : s.pc = .published old root) : Sheds crc s { s with
      rt := { s.rt with deltaPba := 0 }, chain := []
      pc := .unlogging old root (s.chain.flatMap (segBlocks s.vol.total)) } := by
  have hlog : ∀ b ∈ s.chain.flatMap (segBlocks s.vol.total), b ∈ s.log := by
    rw [log_open hpc (by simp)]
    exact fun b hb => hb
  exact ⟨rfl, rfl, ⟨rfl, fun _ => rfl, fun _ h => h⟩, hlog, ⟨_, calm_same rfl hlog⟩,
    fun b hb => absurd hb not_mem_nil⟩

theorem enter_open (s : Sys) : ∀ o r todo, enter crc s old root cand ≠ .unlogging o r todo := by
  unfold enter
  split_ifs
  · simp
  · split <;> simp

theorem collecting_at (hb : Base crc s) (hr : Rest crc s old) :
    At crc { s with pc := .collecting old (orphans crc s.vol s.rt s.pinned cand) } := by
  have hsheds : Sheds crc s { s with pc := .collecting old (orphans crc s.vol s.rt s.pinned cand) } :=
    sheds_pc hb (by simp)
  refine ⟨sheds_rest hb hsheds hr, fun c hc => ?_⟩
  exact spare_still hb (sheds_still hb hsheds) hsheds.log (orphans_spare hb hc)

theorem enter_at (hb : Base crc s) (hpc : s.pc = .sweeping old root) (hr : Rest crc s old)
    (hc : Clear crc s.vol s.rt s.log old (Points s.vol root)) :
    At crc { s with pc := enter crc s old root cand } := by
  have hlog : ∀ {pc : Pc}, (pc.Whole) → ({ s with pc := pc } : Sys).log = s.log := by
    intro pc hno
    rw [log_open hpc (by simp), log_open rfl hno]
  have hcollect := @collecting_at crc _ s cand hb hr
  unfold enter
  split_ifs with hold
  · exact hcollect
  split
  · exact hcollect
  rename_i seen hseen
  rw [not_or] at hold
  obtain ⟨hlogs, hslots⟩ : (∀ b, Reaches crc s.vol old b → b ∉ s.log) ∧ ∀ x, InSlot s.rt x →
      Intact crc s.vol s.log x → Points s.vol root x ∨
        ∀ b, Reaches crc s.vol old b → ¬ Reaches crc s.vol (rootOf s.vol x) b :=
    (hc.resolve_left hold.1).resolve_left hold.2
  unfold At Rest
  rw [hlog (by simp)]
  refine ⟨hr, fun p hp q hq => ?_, fun x hx hi => ?_⟩
  · obtain rfl := mem_singleton.mp hp
    exact hlogs _ ⟨hold.1, q, hq, rfl⟩
  · obtain ⟨f, rfl⟩ | hdisj := hslots x hx hi
    · refine .inl fun b hb => (mem_markRoots hseen).mpr ⟨_, mem_cons_self, reaches_flags f hb⟩
    · refine .inr fun p hp q hq => ?_
      obtain rfl := mem_singleton.mp hp
      exact hdisj _ ⟨hold.1, q, hq, rfl⟩

theorem visit_step (hi : Inv crc s) (hpc : s.pc = .diffing old (p :: stack) seen) :
    Sheds crc s (visit crc s old p stack seen cand) ∧ At crc (visit crc s old p stack seen cand) := by
  obtain ⟨hb, hat⟩ := hi
  unfold At at hat
  rw [hpc] at hat
  obtain ⟨hr, hw⟩ : Rest crc s old ∧ Walk crc s.vol s.rt s.log (p :: stack) seen := hat
  unfold visit
  split_ifs with hp
  · have hsheds : Sheds crc s { s with pc := .diffing old stack seen } := sheds_pc hb (by simp)
    refine ⟨hsheds, sheds_rest hb hsheds hr, fun q hq r hr hmem => ?_, fun x hx hi => ?_⟩
    · exact hw.apart q (mem_cons_of_mem p hq) r hr (hsheds.log _ hmem)
    · obtain hseen | hbelow := hw.kept x hx (still_intact hb (sheds_still hb hsheds) hx hi)
      · exact .inl hseen
      · exact .inr fun q hq => hbelow q (mem_cons_of_mem p hq)
  · split
    · exact ⟨sheds_pc hb (by simp), collecting_at hb hr⟩
    · rename_i ps hps
      have hsheds : Sheds crc s
          { s with vol := mbufFree s.hold s.vol p.pba, pc := .diffing old (ps ++ stack) (p.pba :: seen) } :=
        sheds_free hb (by rw [hpc]; rfl) (walk_spare hb hw hp hps) (by simp)
      exact ⟨hsheds, sheds_rest hb hsheds hr, walk_free hb (sheds_still hb hsheds) hsheds.vol hsheds.log hw hps⟩

section

variable (hi : Inv crc s)

include hi

theorem grow_step {pba : Nat} (hpc : s.pc = .idle) (hg : Grows s.vol v' pba)
    (hplain : ∀ b ∈ segBlocks s.vol.total pba, Plain crc (v'.dev.view b)) :
    (∃ touched, Calm crc s { s with vol := v', chain := pba :: s.chain } touched) ∧
      Inv crc { s with vol := v', chain := pba :: s.chain } := by
  obtain ⟨hb, hat⟩ := hi
  have hkept : ∀ b, s.vol.bit b = true → v'.bit b = true ∧ v'.dev.view b = s.vol.dev.view b := by
    intro b hbit
    have hout : b ∉ segBlocks s.vol.total pba := by
      intro hmem
      rw [hg.free b hmem] at hbit
      cases hbit
    rw [(hg.other b hout).1]
    exact ⟨hbit, (hg.other b hout).2⟩
  have hblocks : (pba :: s.chain).flatMap (segBlocks v'.total) =
      segBlocks s.vol.total pba ++ s.chain.flatMap (segBlocks s.vol.total) := by
    rw [hg.total, flatMap_cons]
  have hpc' : ({ s with vol := v', chain := pba :: s.chain } : Sys).pc = .idle := hpc
  have hcalm : Calm crc s { s with vol := v', chain := pba :: s.chain } (· ∈ s.log) := by
    refine calm_log ⟨hg.total, fun b hbit _ => hkept b hbit, fun b hmem => ?_⟩
    rw [log_open hpc' (by simp)] at hmem
    rw [hblocks] at hmem
    obtain hmem | hmem := mem_append.mp hmem
    · exact .inr (hg.free b hmem)
    · exact .inl (mem_append_left _ hmem)
  have hs := still_calm hb hcalm rfl
  refine ⟨⟨_, hcalm⟩, ⟨fun x hx => hs.held x hx, fun b hmem => ?_, fun b hmem => ?_⟩, ?_⟩
  · dsimp only at hmem
    rw [hblocks] at hmem
    obtain hmem | hmem := mem_append.mp hmem
    · exact hg.taken b hmem
    · exact (hkept b (hb.taken b hmem)).1
  · rw [log_open hpc' (by simp)] at hmem
    rw [hblocks] at hmem
    obtain hmem | hmem := mem_append.mp hmem
    · exact hplain b hmem
    · rw [(hkept b (hb.taken b hmem)).2]
      exact hb.plain b (mem_append_left _ hmem)
  · unfold At at hat ⊢
    dsimp only
    rw [hpc] at hat ⊢
    exact apart_still hb hs rfl hat

theorem start_step {supply : List Ticket} (hpc : s.pc = .idle)
    (hold : baseRoot crc s.vol s.rt = some old) (hroom : old.gen.toNat + recs.length < 2 ^ 64)
    (hs' : s' = { s with
      vol := { s.vol with supply := supply }, pc := .building { s.vol with supply := supply } recs old }) :
    (∃ touched, Calm crc s s' touched) ∧ Inv crc s' := by
  subst hs'
  obtain ⟨hb, hat⟩ := hi
  unfold At at hat
  rw [hpc] at hat
  have hsheds : ∀ pc : Pc, pc.Whole → Sheds crc s { s with vol := { s.vol with supply := supply }, pc := pc } := by
    intro pc hno
    have hlog : ∀ b ∈ ({ s with vol := { s.vol with supply := supply }, pc := pc } : Sys).log, b ∈ s.log :=
      log_sub hno rfl rfl
    exact ⟨rfl, rfl, ⟨rfl, fun _ => rfl, fun _ h => h⟩, hlog, ⟨_, calm_log ⟨rfl, fun b hbit _ => ⟨hbit, rfl⟩,
      fun b hmem => .inl (hlog b hmem)⟩⟩, hb.taken⟩
  have hbuild := hsheds (.building { s.vol with supply := supply } recs old) (by simp)
  have hidle := hsheds .idle (by simp)
  have hapart := apart_still hb (sheds_still hb hidle) rfl hat
  exact ⟨hbuild.calm, sheds_base hb hbuild, sheds_base hb hidle, hapart, hold, hroom, frame_refl _⟩

theorem place_step (hpc : s.pc = .building v recs old) (hf : Frame s.vol v') :
    (∃ touched, Calm crc s { s with vol := v' } touched) ∧ Inv crc { s with vol := v' } := by
  obtain ⟨hb, hat⟩ := hi
  have hlog : ({ s with vol := v', pc := s.pc } : Sys).log = s.log := by
    unfold Sys.log
    rw [hf.total]
  have hcalm : Calm crc s { s with vol := v' } (· ∈ s.log) := calm_frame hf hlog
  refine ⟨⟨_, hcalm⟩, ⟨(still_calm hb hcalm rfl).held, fun b hmem => hf.bits b (hb.taken b ?_), fun b hmem => ?_⟩, ?_⟩
  · rw [← hf.total]
    exact hmem
  · change b ∈ ({ s with vol := v', pc := s.pc } : Sys).log at hmem
    rw [hlog] at hmem
    rw [frame_view hf (hb.taken b (log_open hpc (by simp) ▸ hmem))]
    exact hb.plain b hmem
  · unfold At at hat ⊢
    dsimp only
    rw [hpc] at hat ⊢
    exact ⟨hat.base, hat.apart, hat.root, hat.room, frame_trans hat.frame hf⟩

theorem fail_at (hpc : s.pc = .building v recs old) : At crc { s with pc := .resuming old } := by
  obtain ⟨hb, hat⟩ := hi
  unfold At at hat
  rw [hpc] at hat
  have hp : Plan crc s v recs old := hat
  have hapart : Apart crc s.vol s.rt := apart_still hp.base (plan_still hpc hp).2 rfl hp.apart
  refine ⟨hapart, ?_⟩
  obtain ⟨rfl, -⟩ | ⟨w, -, rfl, hin, -⟩ := plan_old hpc hp
  · exact .inl rfl
  · exact .inr (.inl hin)

theorem name_step (hpc : s.pc = .building v recs old) (hrun : runs (copy crc recs old) v = (some root, s.vol))
    (hck : check crc s.vol root = .ok ck) : Inv crc { s with rt := name s.rt root.pba, pc := .slotted old root } := by
  obtain ⟨hb, hat⟩ := hi
  unfold At at hat
  rw [hpc] at hat
  have hp : Plan crc s v recs old := hat
  have hn := name_named hpc hp hrun hck
  have hlog : ∀ rt : Rt, ({ s with rt := rt, pc := .slotted old root } : Sys).log = s.log := by
    intro rt
    rw [log_open hpc (by simp), log_open rfl (by simp)]
  obtain ⟨hapart, htop, hpoints⟩ := name_rest hpc hp hn
  refine ⟨⟨fun x hx => ?_, hb.taken, ?_⟩, ⟨hapart, ?_⟩, ?_⟩
  · rw [hlog]
    obtain rfl | rfl := (inSlot_name s.rt root.pba).mp hx
    · exact intact_held hn.intact
    · exact hb.held _ (inSlot_last s.rt)
  · rw [hlog]
    exact hb.plain
  · rw [hlog]
    exact htop
  · rw [hlog]
    exact hpoints

theorem bump_step (hpc : s.pc = .slotted old root) :
    (∃ touched, Calm crc s { s with rt := bump s.rt, pc := .published old root } touched) ∧
      Inv crc { s with rt := bump s.rt, pc := .published old root } := by
  obtain ⟨hb, hat⟩ := hi
  unfold At at hat
  rw [hpc] at hat
  have hlog : ({ s with rt := bump s.rt, pc := .published old root } : Sys).log = s.log := by
    rw [log_open hpc (by simp), log_open rfl (by simp)]
  obtain ⟨⟨hapart, htop⟩, hpoints⟩ := hat
  refine ⟨⟨_, calm_same rfl fun b hmem => hlog ▸ hmem⟩, ⟨fun x hx => ?_, hb.taken, ?_⟩, ⟨hapart, ?_⟩, ?_⟩
  · rw [hlog]
    exact hb.held x hx
  · rw [hlog]
    exact hb.plain
  · rw [hlog, log_open hpc (by simp)]
    rw [log_open rfl (by simp)] at htop
    exact htop
  · rw [hlog]
    exact hpoints

end

theorem again_clear (hr : Rest crc s old) (hroot : baseRoot crc s.vol s.rt = some root) :
    Clear crc s.vol s.rt s.log old (Points s.vol root) := by
  obtain h0 | hin | ⟨hapart, hslots⟩ := hr.2
  · exact .inl h0
  · exact .inr (.inl hin)
  · refine .inr (.inr ⟨hapart, fun x hx hi => ?_⟩)
    obtain htop | hdisj := hslots x hx hi
    · unfold baseRoot at hroot
      rw [htop] at hroot
      exact .inl ⟨bpRoot, (some.inj hroot).symm⟩
    · exact .inr hdisj

theorem folds_step (hi : Inv crc s) (h : Folds crc (Plain crc) n s s') :
    (∃ touched, Calm crc s s' touched) ∧ Inv crc s' := by
  obtain ⟨hb, hat⟩ := hi
  have hsheds : Sheds crc s s' → (Sheds crc s s' → At crc s') → (∃ touched, Calm crc s s' touched) ∧ Inv crc s' :=
    fun h h' => ⟨h.calm, sheds_base hb h, h' h⟩
  cases h with
  | grow hpc hg hplain => exact grow_step ⟨hb, hat⟩ hpc hg hplain
  | start recs supply hpc hold hroom => exact start_step ⟨hb, hat⟩ hpc hold hroom rfl
  | place hpc hf _ => exact place_step ⟨hb, hat⟩ hpc hf
  | fail hpc => exact hsheds (sheds_pc hb (by simp)) fun _ => fail_at ⟨hb, hat⟩ hpc
  | name hpc hrun hck =>
    exact ⟨⟨_, calm_same rfl (log_sub (by simp) rfl rfl)⟩, name_step ⟨hb, hat⟩ hpc hrun hck⟩
  | bump hpc => exact bump_step ⟨hb, hat⟩ hpc
  | unstored hpc =>
    rw [At, hpc] at hat
    exact hsheds (sheds_pc hb (by simp)) fun h' => sheds_rest hb h' hat.1
  | reset hpc =>
    rw [At, hpc] at hat
    exact hsheds (sheds_reset hpc) fun h' => ⟨rfl, sheds_rest hb h' hat.1, sheds_clear hb h' hat.2⟩
  | unlog hpc =>
    rw [At, hpc] at hat
    exact hsheds (sheds_unlog hpc hat.1) fun h' => ⟨hat.1, sheds_rest hb h' hat.2.1, sheds_clear hb h' hat.2.2⟩
  | unlogged hpc =>
    rw [At, hpc] at hat
    exact hsheds (sheds_pc hb (by simp)) fun h' => ⟨sheds_rest hb h' hat.2.1, sheds_clear hb h' hat.2.2⟩
  | drained hpc =>
    rw [At, hpc] at hat
    exact hsheds (sheds_pc hb (by simp)) fun h' => ⟨sheds_rest hb h' hat.1, sheds_clear hb h' hat.2⟩
  | timeout hpc =>
    rw [At, hpc] at hat
    exact hsheds (sheds_pc hb (by simp)) fun h' => sheds_rest hb h' hat.1
  | enter cand hpc =>
    rw [At, hpc] at hat
    exact hsheds (sheds_pc hb (enter_open s)) fun _ => enter_at hb hpc hat.1 hat.2
  | visit cand hpc =>
    obtain ⟨h', hat'⟩ := visit_step ⟨hb, hat⟩ hpc
    exact hsheds h' fun _ => hat'
  | visited cand hpc =>
    rw [At, hpc] at hat
    exact hsheds (sheds_pc hb (by simp)) fun _ => collecting_at hb hat.1
  | collect hpc =>
    rw [At, hpc] at hat
    refine hsheds (sheds_free hb (by rw [hpc]; rfl) (hat.2 _ mem_cons_self) (by simp)) fun h' => ?_
    refine ⟨sheds_rest hb h' hat.1, fun c hc => ?_⟩
    exact spare_still hb (sheds_still hb h') h'.log (hat.2 c (mem_cons_of_mem _ hc))
  | collected hpc =>
    rw [At, hpc] at hat
    exact hsheds (sheds_pc hb (by simp)) fun h' => sheds_rest hb h' hat.1
  | again hpc hroot =>
    rw [At, hpc] at hat
    exact hsheds (sheds_pc hb (by simp)) fun h' => ⟨sheds_rest hb h' hat, sheds_clear hb h' (again_clear hat hroot)⟩
  | settle hpc =>
    rw [At, hpc] at hat
    exact hsheds (sheds_pc hb (by simp)) fun h' => apart_still hb (sheds_still hb h') rfl hat.1

theorem folds_sweeps {logs : List Byte → Prop} (hn : n ≠ 0) (h : Folds crc logs n s s') (hsw : s'.pc.sweeps = true) :
    s.pc.sweeps = true ∧ s'.rt.rootSlot = s.rt.rootSlot := by
  cases h with
  | grow _ _ _ => exact ⟨hsw, rfl⟩
  | place _ _ _ => exact ⟨hsw, rfl⟩
  | drained _ => exact absurd rfl hn
  | enter _ hpc => exact ⟨by rw [hpc]; rfl, rfl⟩
  | @visit _ _ old p stack seen cand hpc =>
    refine ⟨by rw [hpc]; rfl, ?_⟩
    unfold visit
    split_ifs
    · rfl
    · split <;> rfl
  | visited _ hpc => exact ⟨by rw [hpc]; rfl, rfl⟩
  | collect hpc => exact ⟨by rw [hpc]; rfl, rfl⟩
  | _ => cases hsw

theorem look_safe (hi : Inv crc s) {l l' : Local} (hs : Safe crc s l) (h : Looks crc s l l') : Safe crc s l' := by
  cases h with
  | @peek i best _ => exact ⟨⟨fun _ => inSlot_slot s.rt i, hi.1.held _ (inSlot_slot s.rt i)⟩, hs⟩
  | judge i x best =>
    obtain ⟨⟨hx, hheld⟩, hbest⟩ := hs
    intro p hp
    unfold judge at hp
    split at hp
    · exact hbest p hp
    · rename_i page hpage
      have hnew : (s.pc.sweeps = true → InSlot s.rt x) ∧ Intact crc s.vol s.log x := ⟨hx, held_intact hheld hpage⟩
      split at hp
      · cases hp
        exact hnew
      · split_ifs at hp
        · obtain rfl := some.inj hp
          exact hnew
        · exact hbest p hp
  | choose x gen => exact hs (x, gen) rfl
  | lose => trivial
  | capture x => exact ⟨x, hs, rfl, fun b hb => hb⟩

theorem guards (crc : List Byte → UInt32) : ReaderEpoch.Guards (protocol crc (Plain crc)) (Inv crc) (Safe crc) where
  start := fun s _ p hp => by cases hp
  look := fun s l l' hi hs h => look_safe hi hs h
  write := fun n s s' hi h => (folds_step hi h).2
  keep := by
    intro n s s' hi h hn l hl
    obtain ⟨touched, hcalm⟩ := (folds_step hi h).1
    exact safe_calm hcalm (folds_sweeps hn h) hl

variable (crc) in
/-- A volume between two folds: what the slots name is whole and apart from the log, and where readers do not
get the root published last, that root shares no page with theirs. -/
structure Settled (s : Sys) : Prop extends Base crc s where
  idle : s.pc = .idle
  apart : Apart crc s.vol s.rt

theorem settled_inv : Settled crc s ↔ s.pc = .idle ∧ Inv crc s := by
  constructor
  · intro h
    refine ⟨h.idle, h.toBase, ?_⟩
    rw [At, h.idle]
    exact h.apart
  · rintro ⟨hpc, hb, hat⟩
    rw [At, hpc] at hat
    exact ⟨hb, hpc, hat⟩

end InvariantFs.FoldReaders
