import InvariantFs.FileRead
import InvariantFs.TierIndex

namespace InvariantFs.TierReads

open ByteCodec CachedStore SortedMap TierIndex List Option Nat

variable {g : Geo} {crc : List Byte → UInt32} {s t : St}

/-- With no copies in the way a segment is read as on one device. -/
theorem segReadChecked_bare {v : FileRead.Vol} {pba least : Nat} (hdev : v.dev = byteAt s.dev.view)
    (htotal : v.total = g.total) (hcrc : v.codecs.crc = crc) (hraw : g.raw pba = false) :
    segReadChecked g crc s false (fun _ => none) v.codecs.rescue pba 0 least = v.segReadChecked pba least := by
  have hblock : FileRead.blockSize = blockSize := rfl
  have hbytes : v.bytes = bytes s.dev.view := by
    funext off n
    rw [FileRead.Vol.bytes, hdev, bytes]
  have hsize : v.csize pba = csize s.dev.view pba := by rw [FileRead.Vol.csize, hbytes, hblock, csize]
  have honce : segReadOnce g crc s.dev.view (fun _ => none) pba 0 least =
      (v.segReadOnce pba least).elim (.error true) .ok := by
    simp only [segReadOnce, FileRead.Vol.segReadOnce, hbytes, hsize, htotal, hcrc, hblock, payload, crcHdr]
    rw [if_neg (not_not.mpr rfl)]
    split_ifs with _ hcrc
    · rfl
    · exact if_pos hcrc
    · exact if_neg hcrc
  rw [segReadChecked, if_neg (by simp), readCanonical, honce, FileRead.Vol.segReadChecked]
  cases v.segReadOnce pba least with
  | none => simp [hraw]
  | some blob => rfl

structure Runs (g : Geo) (s : St) : Prop where
  within : ∀ {b r}, s.own b = some r → r.start ≤ b ∧ b < r.start + r.len
  total : ∀ {b r}, s.own b = some r → r.start + r.len ≤ g.total
  bit : ∀ {b r}, s.own b = some r → s.bit b = true
  whole : ∀ {b r}, s.own b = some r → ∀ c, r.start ≤ c → c < r.start + r.len → s.own c = some r

variable {b : Nat} {r : Run}

theorem Runs.start (h : Runs g s) (hb : s.own b = some r) : s.own r.start = some r := by
  obtain ⟨h1, h2⟩ := h.within hb
  exact h.whole hb _ le_rfl (by omega)

theorem Runs.inside (h : Runs g s) {k : Nat} (hb : s.own b = some r) (hk : k < r.len) :
    s.own (r.start + k) = some r :=
  h.whole hb _ (Nat.le_add_right _ _) (Nat.add_lt_add_left hk _)

def Clean (s : St) (b : Nat) : Prop :=
  (∀ m ∈ s.bitDisk.1 :: s.bitDisk.2, m b = true) ∧ ∀ p ∈ s.dev.pending, p.cell ≠ b

/-- What a step leaves alone: the runs that satisfy `P`. -/
structure Keeps (P : Run → Prop) (s t : St) : Prop where
  own : ∀ {b r}, s.own b = some r → P r → t.own b = some r
  view : ∀ {b r}, s.own b = some r → P r → t.dev.view b = s.dev.view b
  clean : ∀ {b r}, s.own b = some r → P r → Clean s b → Clean t b

def copyRun (c : Copy) : Run := ⟨c.pba, c.plen, true⟩

structure Twin (s : St) (e : Nat × Copy) : Prop where
  pos : 0 < e.2.plen
  key : ∃ n, e.2.plen ≤ n ∧ s.own e.1 = some ⟨e.1, n, false⟩
  copy : s.own e.2.pba = some (copyRun e.2)
  same : ∀ k < e.2.plen, s.dev.view (e.2.pba + k) = s.dev.view (e.1 + k)

def Involved (e : Nat × Copy) (r : Run) : Prop := r.start = e.1 ∨ r.start = e.2.pba

def Firm (s : St) (e : Nat × Copy) : Prop := ∀ b r, s.own b = some r → Involved e r → Clean s b

structure IndexOk (zone : Nat × Copy → Prop) (s : St) (idx : Index) (dirty : Bool) : Prop where
  sorted : Sorted idx
  twin : ∀ e ∈ idx, Twin s e
  zone : ∀ e ∈ idx, zone e
  apart : ∀ e ∈ idx, ∀ f ∈ idx, e.2.pba = f.2.pba → e = f
  firm : dirty = false → ∀ e ∈ idx, Firm s e

def tierZone (g : Geo) (e : Nat × Copy) : Prop :=
  g.shadowStart ≤ e.1 ∧ g.arenaStart ≤ e.2.pba ∧ e.2.pba + e.2.plen ≤ g.arenaStart + g.arenaBlocks

def rawmZone (g : Geo) (e : Nat × Copy) : Prop := g.raw e.1 = true ∧ g.shadowStart ≤ e.2.pba

def Live (crc : List Byte → UInt32) (s : St) : Prop :=
  ∀ pba n blob, s.own pba = some ⟨pba, n, false⟩ → s.last pba = some blob →
    blob.length < 2 ^ 32 ∧ n = (blob.length + 8 + blockSize - 1) / blockSize ∧
      ∀ k < n, s.dev.view (pba + k) = segmentBlocks crc blob k

structure Inv (g : Geo) (crc : List Byte → UInt32) (s : St) : Prop where
  runs : Runs g s
  tier : IndexOk (tierZone g) s s.tier s.tierDirty
  rawm : IndexOk (rawmZone g) s s.rawm s.rawmDirty
  live : Live crc s

variable {P : Run → Prop} {e : Nat × Copy}

theorem Twin.keeps (hr : Runs g s) (h : Twin s e) (hk : Keeps P s t)
    (hP : ∀ b r, s.own b = some r → Involved e r → P r) : Twin t e := by
  obtain ⟨n, hn, hkey⟩ := h.key
  have hPkey := hP _ _ hkey (.inl rfl)
  have hPcopy := hP _ _ h.copy (.inr rfl)
  refine ⟨h.pos, ⟨n, hn, hk.own hkey hPkey⟩, hk.own h.copy hPcopy, fun k hlt => ?_⟩
  have h1 : s.own (e.1 + k) = some ⟨e.1, n, false⟩ := hr.inside hkey (hlt.trans_le hn)
  have h2 : s.own (e.2.pba + k) = some (copyRun e.2) := hr.inside h.copy hlt
  rw [hk.view h1 hPkey, hk.view h2 hPcopy, h.same k hlt]

theorem own_back (hs : Runs g s) (ht : Runs g t) (h : Twin s e)
    (hk : Keeps P s t) (hP : ∀ b r, s.own b = some r → Involved e r → P r)
    (hb : t.own b = some r) (hi : Involved e r) : s.own b = some r := by
  obtain ⟨q, hq, hqi⟩ : ∃ q, s.own r.start = some q ∧ Involved e q := by
    obtain ⟨n, -, hkey⟩ := h.key
    obtain he | he := hi
    · exact ⟨⟨e.1, n, false⟩, by rw [he, hkey], .inl rfl⟩
    · exact ⟨copyRun e.2, by rw [he, h.copy], .inr rfl⟩
  have hqt := hk.own hq (hP _ _ hq hqi)
  rw [ht.start hb] at hqt
  cases hqt
  obtain ⟨h1, h2⟩ := ht.within hb
  exact hs.whole hq _ h1 h2

variable {zone : Nat × Copy → Prop} {idx : Index} {d : Bool}

theorem IndexOk.keeps {sub : Index} {d' : Bool} (hs : Runs g s) (ht : Runs g t) (h : IndexOk zone s idx d)
    (hk : Keeps P s t) (hsub : ∀ e ∈ sub, e ∈ idx) (hsorted : Sorted sub)
    (hP : ∀ e ∈ sub, ∀ b r, s.own b = some r → Involved e r → P r) (hd : d' = false → d = false) :
    IndexOk zone t sub d' where
  sorted := hsorted
  twin e he := (h.twin e (hsub e he)).keeps hs hk (hP e he)
  zone e he := h.zone e (hsub e he)
  apart e he f hf := h.apart e (hsub e he) f (hsub f hf)
  firm hd' e he b r hb hi := by
    have hsb := own_back hs ht (h.twin e (hsub e he)) hk (hP e he) hb hi
    exact hk.clean hsb (hP e he b r hsb hi) (h.firm (hd hd') e (hsub e he) b r hsb hi)

variable {pba n lo hi : Nat}

theorem mem_of_lookup {c : Copy} (h : lookup idx pba = some c) : (pba, c) ∈ idx := by
  obtain ⟨⟨k, c'⟩, he, rfl⟩ := map_eq_some_iff.mp h
  obtain rfl : k = pba := by simpa using find?_some he
  exact mem_of_find?_eq_some he

section Laying

variable {block : Nat → Block}

theorem inRun_iff : inRun pba n b = true ↔ pba ≤ b ∧ b < pba + n := by simp [inRun]

theorem writeRun_succ (dev : Store Nat Block) (pba : Nat) (block : Nat → Block) (n : Nat) :
    writeRun dev pba block (n + 1) = (writeRun dev pba block n).write (pba + n) fun _ => block n := by
  simp [writeRun, range_succ]

theorem view_writeRun (dev : Store Nat Block) (pba : Nat) (block : Nat → Block) (n b : Nat) :
    (writeRun dev pba block n).view b = if inRun pba n b then block (b - pba) else dev.view b := by
  induction n with
  | zero =>
    have hout : ¬ (pba ≤ b ∧ b < pba) := by omega
    simp [writeRun, inRun, hout]
  | succ n ih =>
    rw [writeRun_succ]
    by_cases hb : b = pba + n
    · subst hb
      rw [view_write_self, if_pos (inRun_iff.mpr (by omega)), Nat.add_sub_cancel_left]
    · rw [view_write_ne _ hb, ih]
      have hiff : inRun pba (n + 1) b = inRun pba n b := by
        rw [Bool.eq_iff_iff, inRun_iff, inRun_iff]
        omega
      rw [hiff]

theorem pending_writeRun {dev : Store Nat Block} {p : Patch Nat Block}
    (hp : p ∈ (writeRun dev pba block n).pending) : p ∈ dev.pending ∨ inRun pba n p.cell = true := by
  induction n with
  | zero => exact .inl (by simpa [writeRun] using hp)
  | succ n ih =>
    rw [writeRun_succ] at hp
    obtain hp | hp := mem_append.mp hp
    · obtain h | h := ih hp
      · exact .inl h
      · rw [inRun_iff] at h
        exact .inr (inRun_iff.mpr (by omega))
    · rw [mem_singleton.mp hp]
      exact .inr (inRun_iff.mpr (by simp))

theorem Runs.none_of_fresh (h : Runs g s) (hf : fresh s lo hi pba n = true)
    (hb : inRun pba n b = true) : s.own b = none := by
  simp only [fresh, decide_eq_true_eq] at hf
  rw [inRun_iff] at hb
  have hbit := hf.2.2.2 (b - pba) (by omega)
  rw [Nat.add_sub_cancel' hb.1] at hbit
  cases ho : s.own b with
  | none => rfl
  | some q => simp [h.bit ho] at hbit

theorem Runs.take (h : Runs g s) (hfree : ∀ b, inRun r.start r.len b = true → s.own b = none)
    (htot : r.start + r.len ≤ g.total) (hown : t.own = (s.take r).own) (hbit : t.bit = (s.take r).bit) :
    Runs g t := by
  have cases : ∀ {b q}, t.own b = some q →
      (inRun r.start r.len b = true ∧ q = r) ∨ (inRun r.start r.len b = false ∧ s.own b = some q) := by
    intro b q hb
    rw [hown] at hb
    by_cases hin : inRun r.start r.len b = true
    · have hq : r = q := by simpa [St.take, hin] using hb
      exact .inl ⟨hin, hq.symm⟩
    · exact .inr ⟨by simpa using hin, by simpa [St.take, hin] using hb⟩
  refine ⟨fun hb => ?_, fun hb => ?_, fun hb => ?_, fun hb c h1 h2 => ?_⟩
  · obtain ⟨hin, rfl⟩ | ⟨-, hb⟩ := cases hb
    · exact inRun_iff.mp hin
    · exact h.within hb
  · obtain ⟨-, rfl⟩ | ⟨-, hb⟩ := cases hb
    · exact htot
    · exact h.total hb
  · rw [hbit]
    obtain ⟨hin, -⟩ | ⟨hin, hb⟩ := cases hb
    · simp [St.take, hin]
    · simp [St.take, hin, h.bit hb]
  · rw [hown]
    obtain ⟨-, rfl⟩ | ⟨-, hb⟩ := cases hb
    · simp [St.take, inRun_iff.mpr ⟨h1, h2⟩]
    · have hc := h.whole hb c h1 h2
      have hout : inRun r.start r.len c ≠ true := fun hin => by simp [hfree c hin] at hc
      simp [St.take, hout, hc]

theorem Keeps.lay (hfree : ∀ b, inRun r.start r.len b = true → s.own b = none)
    (hown : t.own = (s.take r).own) (hdisk : t.bitDisk = s.bitDisk)
    (hdev : t.dev = writeRun s.dev r.start block r.len) : Keeps (fun _ => True) s t := by
  have out : ∀ {b q}, s.own b = some q → inRun r.start r.len b ≠ true := fun hb hin => by
    simp [hfree _ hin] at hb
  refine ⟨fun hb _ => ?_, fun hb _ => ?_, fun hb _ hc => ⟨by rw [hdisk]; exact hc.1, fun p hp he => ?_⟩⟩
  · rw [hown]
    simp [St.take, out hb, hb]
  · rw [hdev, view_writeRun, if_neg (out hb)]
  · rw [hdev] at hp
    obtain hp | hp := pending_writeRun hp
    · exact hc.2 p hp he
    · exact out hb (he ▸ hp)

end Laying

theorem IndexOk.same (hs : Runs g s) (ht : Runs g t)
    (h : IndexOk zone s idx d) (hk : Keeps (fun _ => True) s t) : IndexOk zone t idx d :=
  h.keeps hs ht hk (fun _ he => he) h.sorted (fun _ _ _ _ _ _ => trivial) id

theorem IndexOk.put (hs : Runs g s) (ht : Runs g t) (h : IndexOk zone s idx d) (hk : Keeps (fun _ => True) s t)
    (htwin : Twin t e) (hzone : zone e) (hnew : s.own e.2.pba = none) : IndexOk zone t (put idx e.1 e.2) true := by
  have hold := h.same hs ht hk
  have other : ∀ f ∈ idx, e.2.pba ≠ f.2.pba := fun f hf he => by
    have hc := (h.twin f hf).copy
    simp [← he, hnew] at hc
  refine ⟨sorted_put h.sorted _ _, fun f hf => ?_, fun f hf => ?_, fun f hf f' hf' he => ?_, fun hd => ?_⟩
  · obtain rfl | hf := mem_put hf
    · exact htwin
    · exact hold.twin f hf
  · obtain rfl | hf := mem_put hf
    · exact hzone
    · exact hold.zone f hf
  · obtain rfl | hf := mem_put hf <;> obtain rfl | hf' := mem_put hf'
    · rfl
    · exact absurd he (other f' hf')
    · exact absurd he.symm (other f hf)
    · exact h.apart f hf f' hf' he
  · exact absurd hd (by simp)

theorem Live.mono (h : Live crc s) (hown : ∀ pba n, t.own pba = some ⟨pba, n, false⟩ →
      s.own pba = some ⟨pba, n, false⟩ ∧ ∀ k < n, t.dev.view (pba + k) = s.dev.view (pba + k))
    (hlast : ∀ pba blob, t.last pba = some blob → s.last pba = some blob) : Live crc t := by
  intro pba n blob ho hl
  obtain ⟨hs, hv⟩ := hown pba n ho
  obtain ⟨hlen, hn, hseg⟩ := h pba n blob hs (hlast pba blob hl)
  exact ⟨hlen, hn, fun k hk => (hv k hk).trans (hseg k hk)⟩

variable {c : Copy}

section Freeing

structure Frees (g : Geo) (r : Run) (s t : St) : Prop where
  runs : Runs g t
  keeps : Keeps (fun q => q ≠ r) s t
  own : ∀ {b q}, t.own b = some q → s.own b = some q
  dev : t.dev = s.dev
  last : t.last = s.last
  tier : t.tier = s.tier
  rawm : t.rawm = s.rawm
  tierDirty : t.tierDirty = s.tierDirty
  rawmDirty : t.rawmDirty = s.rawmDirty

theorem Frees.refl (h : Runs g s) : Frees g r s s where
  runs := h
  keeps := ⟨fun hb _ => hb, fun _ _ => rfl, fun _ _ hc => hc⟩
  own hb := hb
  dev := rfl
  last := rfl
  tier := rfl
  rawm := rfl
  tierDirty := rfl
  rawmDirty := rfl

variable {q : Run}

theorem own_clear : (s.clear pba n).own b = some q ↔ inRun pba n b = false ∧ s.own b = some q := by
  by_cases hin : inRun pba n b = true <;> simp [St.clear, hin]

theorem Frees.clear (h : Runs g s) (hr : s.own r.start = some r) : Frees g r s (s.clear r.start r.len) := by
  -- a block outside the run that is given back belongs to another run, and so do all of its blocks
  have other : ∀ {b q}, s.own b = some q → q ≠ r → inRun r.start r.len b = false := by
    intro b q hb hq
    by_contra hin
    have hin := inRun_iff.mp (by simpa using hin)
    rw [h.whole hr b hin.1 hin.2] at hb
    exact hq (some.inj hb).symm
  refine ⟨⟨fun hb => h.within (own_clear.mp hb).2, fun hb => h.total (own_clear.mp hb).2, fun hb => ?_,
    fun hb c h1 h2 => ?_⟩, ⟨fun hb hq => own_clear.mpr ⟨other hb hq, hb⟩, fun _ _ => rfl, fun _ _ hc => hc⟩,
    fun hb => (own_clear.mp hb).2, rfl, rfl, rfl, rfl, rfl, rfl⟩
  · obtain ⟨hin, hb⟩ := own_clear.mp hb
    simp [St.clear, hin, h.bit hb]
  · obtain ⟨hin, hb⟩ := own_clear.mp hb
    have hc := h.whole hb c h1 h2
    refine own_clear.mpr ⟨other hc fun hq => ?_, hc⟩
    rw [hq] at hb
    have hbin := inRun_iff.mpr (h.within hb)
    simp [hin] at hbin

theorem Inv.freeCopy (h : Inv g crc s) (hc : s.own c.pba = some (copyRun c)) (hz : g.arenaStart ≤ c.pba)
    (pin : Nat → Bool) (depth : Nat) : Frees g (copyRun c) s (freeBlocks g pin (depth + 1) c.pba c.plen s) := by
  have hn : min (c.pba + c.plen) g.total - c.pba = c.plen := by
    have := h.runs.total hc
    simp only [copyRun] at this
    omega
  have hraw : g.raw c.pba = false := by
    have := g.raw_arena
    simp only [Geo.raw, decide_eq_false_iff_not]
    omega
  have hnone : s.tier.filter (fun e => inRun c.pba c.plen e.1) = [] := by
    refine filter_eq_nil_iff.mpr fun e he hin => ?_
    have hin := inRun_iff.mp hin
    obtain ⟨n, -, hkey⟩ := (h.tier.twin e he).key
    rw [h.runs.whole hc e.1 hin.1 hin.2] at hkey
    simp [copyRun] at hkey
  simp only [freeBlocks, hn, hraw, Bool.false_eq_true, if_false, hnone, foldl_nil, ite_self]
  by_cases hheld : held pin c.pba c.plen = true
  · rw [if_pos hheld]
    exact Frees.refl h.runs
  · rw [if_neg hheld]
    exact Frees.clear h.runs hc

variable {f : Nat × Copy}

theorem Twin.involved_ne_copy (hr : Runs g s) (h : Twin s f)
    (hne : f.2.pba ≠ c.pba) (hb : s.own b = some q) (hi : Involved f q) : q ≠ copyRun c := by
  rintro rfl
  have hstart := hr.start hb
  obtain he | he := hi
  · obtain ⟨n, -, hkey⟩ := h.key
    rw [he, hkey] at hstart
    simp [copyRun] at hstart
  · exact hne he.symm

theorem Twin.involved_ne_file (hr : Runs g s) (h : Twin s f)
    (hne : f.1 ≠ pba) (hb : s.own b = some q) (hi : Involved f q) : q ≠ ⟨pba, n, false⟩ := by
  rintro rfl
  have hstart := hr.start hb
  obtain he | he := hi
  · exact hne he.symm
  · rw [he, h.copy] at hstart
    simp [copyRun] at hstart

theorem Live.frees (h : Live crc s) (hf : Frees g r s t) : Live crc t :=
  h.mono (fun pba n ho => ⟨hf.own ho, fun k _ => by rw [hf.dev]⟩) fun pba blob hl => by rw [← hf.last]; exact hl

structure Drops (s t : St) : Prop where
  file : ∀ {b r}, s.own b = some r → r.copy = false → t.own b = some r
  tier : ∀ f ∈ t.tier, f ∈ s.tier
  rawm : ∀ f ∈ t.rawm, f ∈ s.rawm

theorem mem_del {k : Nat} : f ∈ del idx k ↔ f ∈ idx ∧ f.1 ≠ k := by
  simp [del, mem_filter]

section

variable (hs : Runs g s) (ht : Runs g t) (h : IndexOk zone s idx d)

include hs ht h

theorem IndexOk.drop (he : e ∈ idx) (hk : Keeps (fun q => q ≠ copyRun e.2) s t) :
    IndexOk zone t (del idx e.1) true := by
  refine h.keeps hs ht hk (fun f hf => (mem_del.mp hf).1) (sorted_del h.sorted _)
    (fun f hf b q hb hi => ?_) (fun hd => absurd hd (by simp))
  obtain ⟨hmem, hne⟩ := mem_del.mp hf
  exact (h.twin f hmem).involved_ne_copy hs (fun hp => hne (congrArg Prod.fst (h.apart f hmem e he hp))) hb hi

theorem IndexOk.other (hk : Keeps (fun q => q ≠ copyRun c) s t) (hne : ∀ f ∈ idx, f.2.pba ≠ c.pba) :
    IndexOk zone t idx d :=
  h.keeps hs ht hk (fun _ hf => hf) h.sorted
    (fun f hf _ _ hb hi => (h.twin f hf).involved_ne_copy hs (hne f hf) hb hi) id

end

theorem Inv.dropTier (h : Inv g crc s) (he : e ∈ s.tier) (pin : Nat → Bool) (depth : Nat) :
    let t := (freeBlocks g pin (depth + 1) e.2.pba e.2.plen s).delTier e.1
    Inv g crc t ∧ Drops s t ∧ t.tier = del s.tier e.1 := by
  intro t
  have hz := h.tier.zone e he
  have htwin := h.tier.twin e he
  have hf := h.freeCopy htwin.copy hz.2.1 pin depth
  have hruns : Runs g t := ⟨hf.runs.within, hf.runs.total, hf.runs.bit, hf.runs.whole⟩
  have hkeeps : Keeps (fun q => q ≠ copyRun e.2) s t := ⟨hf.keeps.own, hf.keeps.view, hf.keeps.clean⟩
  have htier : t.tier = del s.tier e.1 := congrArg (del · e.1) hf.tier
  refine ⟨⟨hruns, htier ▸ h.tier.drop h.runs hruns he hkeeps, ?_, ?_⟩,
    ⟨fun hb hq => hf.keeps.own hb fun hc => by simp [hc, copyRun] at hq,
      fun f hf' => (mem_del.mp (htier ▸ hf')).1, fun f hf' => hf.rawm ▸ hf'⟩, htier⟩
  · change IndexOk _ t (freeBlocks g pin (depth + 1) e.2.pba e.2.plen s).rawm
      (freeBlocks g pin (depth + 1) e.2.pba e.2.plen s).rawmDirty
    rw [hf.rawm, hf.rawmDirty]
    refine h.rawm.other h.runs hruns hkeeps fun f hf' => ?_
    have := (h.rawm.zone f hf').2
    have := htwin.pos
    have := g.arena_shadow
    have := hz.2.2
    omega
  · exact (h.live.frees hf).mono (fun _ _ ho => ⟨ho, fun _ _ => rfl⟩) fun _ _ hl => hl

theorem Inv.dropRawm (h : Inv g crc s) (he : e ∈ s.rawm) (pin : Nat → Bool) (depth : Nat) :
    let t := (freeBlocks g pin (depth + 1) e.2.pba e.2.plen s).delRawm e.1
    Inv g crc t ∧ Drops s t ∧ t.rawm = del s.rawm e.1 := by
  intro t
  have hz := h.rawm.zone e he
  have htwin := h.rawm.twin e he
  have hf := h.freeCopy htwin.copy (by have := g.arena_shadow; have := hz.2; omega) pin depth
  have hruns : Runs g t := ⟨hf.runs.within, hf.runs.total, hf.runs.bit, hf.runs.whole⟩
  have hkeeps : Keeps (fun q => q ≠ copyRun e.2) s t := ⟨hf.keeps.own, hf.keeps.view, hf.keeps.clean⟩
  have hrawm : t.rawm = del s.rawm e.1 := congrArg (del · e.1) hf.rawm
  refine ⟨⟨hruns, ?_, hrawm ▸ h.rawm.drop h.runs hruns he hkeeps, ?_⟩,
    ⟨fun hb hq => hf.keeps.own hb fun hc => by simp [hc, copyRun] at hq, fun f hf' => hf.tier ▸ hf',
      fun f hf' => (mem_del.mp (hrawm ▸ hf')).1⟩, hrawm⟩
  · change IndexOk _ t (freeBlocks g pin (depth + 1) e.2.pba e.2.plen s).tier
      (freeBlocks g pin (depth + 1) e.2.pba e.2.plen s).tierDirty
    rw [hf.tier, hf.tierDirty]
    refine h.tier.other h.runs hruns hkeeps fun f hf' => ?_
    have := (h.tier.zone f hf').2.2
    have := (h.tier.twin f hf').pos
    have := g.arena_shadow
    have := hz.2
    omega
  · exact (h.live.frees hf).mono (fun _ _ ho => ⟨ho, fun _ _ => rfl⟩) fun _ _ hl => hl

theorem Drops.trans {u : St} (h : Drops s t) (h' : Drops t u) : Drops s u :=
  ⟨fun hb hq => h'.file (h.file hb hq) hq, fun f hf => h.tier f (h'.tier f hf),
    fun f hf => h.rawm f (h'.rawm f hf)⟩

variable {drop : St → Nat × Copy → St}

theorem Inv.dropAll (proj : St → Index) (hstep : ∀ {s : St}, Inv g crc s → ∀ e ∈ proj s,
      Inv g crc (drop s e) ∧ Drops s (drop s e) ∧ proj (drop s e) = del (proj s) e.1) :
    ∀ (l : Index) (s : St), Inv g crc s → (∀ e ∈ l, e ∈ proj s) → Sorted l →
      Inv g crc (l.foldl drop s) ∧ Drops s (l.foldl drop s) ∧
        ∀ f ∈ proj (l.foldl drop s), f ∈ proj s ∧ ∀ e ∈ l, f.1 ≠ e.1
  | [], s, h, _, _ => ⟨h, ⟨fun hb _ => hb, fun _ hf => hf, fun _ hf => hf⟩, fun f hf => ⟨hf, by simp⟩⟩
  | e :: l, s, h, hl, hsorted => by
    obtain ⟨hhead, htail⟩ := pairwise_cons.mp hsorted
    obtain ⟨h₁, hd₁, hp₁⟩ := hstep h e (hl e mem_cons_self)
    have hrest : ∀ f ∈ l, f ∈ proj (drop s e) := fun f hf => by
      rw [hp₁]
      exact mem_del.mpr ⟨hl f (mem_cons_of_mem _ hf), (hhead f hf).ne'⟩
    obtain ⟨h₂, hd₂, hp₂⟩ := Inv.dropAll proj hstep l (drop s e) h₁ hrest htail
    refine ⟨h₂, hd₁.trans hd₂, fun f hf => ?_⟩
    obtain ⟨hmem, hne⟩ := hp₂ f hf
    rw [hp₁] at hmem
    obtain ⟨hmem, hhd⟩ := mem_del.mp hmem
    exact ⟨hmem, forall_mem_cons.mpr ⟨hhd, hne⟩⟩

theorem Inv.dropKeyed (proj : St → Index) (hstep : ∀ {s : St}, Inv g crc s → ∀ e ∈ proj s,
      Inv g crc (drop s e) ∧ Drops s (drop s e) ∧ proj (drop s e) = del (proj s) e.1)
    (h : Inv g crc s) (hsorted : Sorted (proj s)) (hself : inRun pba n pba = true) {c : Prop}
    [Decidable c] (hc : ¬ c → ∀ f ∈ proj s, f.1 ≠ pba) :
    let u := if c then ((proj s).filter fun e => inRun pba n e.1).foldl drop s else s
    Inv g crc u ∧ Drops s u ∧ ∀ f ∈ proj u, f.1 ≠ pba := by
  intro u
  by_cases h' : c
  · obtain ⟨hi, hd, hp⟩ := Inv.dropAll proj hstep _ s h (fun e he => (mem_filter.mp he).1)
      (List.Pairwise.filter (fun e => inRun pba n e.1) hsorted)
    simp only [u, if_pos h']
    refine ⟨hi, hd, fun f hf hk => ?_⟩
    obtain ⟨hmem, hne⟩ := hp f hf
    exact hne f (mem_filter.mpr ⟨hmem, by rw [hk]; exact hself⟩) rfl
  · simp only [u, if_neg h']
    exact ⟨h, ⟨fun hb _ => hb, fun _ hf => hf, fun _ hf => hf⟩, hc h'⟩

section

variable (h : Inv g crc s) (ho : s.own pba = some ⟨pba, n, false⟩)

include h ho

theorem Inv.clearFile (ht : ∀ f ∈ s.tier, f.1 ≠ pba) (hm : ∀ f ∈ s.rawm, f.1 ≠ pba) : Inv g crc (s.clear pba n) := by
  have hf : Frees g ⟨pba, n, false⟩ s (s.clear pba n) := Frees.clear h.runs ho
  refine ⟨hf.runs, ?_, ?_, h.live.frees hf⟩
  · exact h.tier.keeps h.runs hf.runs hf.keeps (fun _ hf' => hf') h.tier.sorted
      (fun f hf' b q hb hi => (h.tier.twin f hf').involved_ne_file h.runs (ht f hf') hb hi) id
  · exact h.rawm.keeps h.runs hf.runs hf.keeps (fun _ hf' => hf') h.rawm.sorted
      (fun f hf' b q hb hi => (h.rawm.twin f hf').involved_ne_file h.runs (hm f hf') hb hi) id

theorem Inv.freeFile (pin : Nat → Bool) (depth : Nat) : Inv g crc (freeBlocks g pin (depth + 2) pba n s) := by
  have hn : min (pba + n) g.total - pba = n := by
    have := h.runs.total ho
    simp only at this
    omega
  have hpos : 0 < n := by
    have := (h.runs.within ho).2
    simp only at this
    omega
  have hself : inRun pba n pba = true := inRun_iff.mpr (by omega)
  rw [freeBlocks, hn]
  by_cases hheld : held pin pba n = true
  · rw [if_pos hheld]
    exact h
  rw [if_neg hheld]
  obtain ⟨h1, hd1, hm1⟩ := Inv.dropKeyed St.rawm (fun h e he => h.dropRawm he pin depth) h h.rawm.sorted hself
    (c := g.raw pba = true) fun hraw f hf hk => hraw (hk ▸ (h.rawm.zone f hf).1)
  obtain ⟨h2, hd2, ht2⟩ := Inv.dropKeyed St.tier (fun h e he => h.dropTier he pin depth) h1 h1.tier.sorted hself
    (c := g.shadowStart ≤ pba) fun hsh f hf hk => hsh (hk ▸ (h1.tier.zone f hf).1)
  exact h2.clearFile (hd2.file (hd1.file ho rfl) rfl) ht2 fun f hf => hm1 f (hd2.rawm f hf)

end

end Freeing

variable {blob : List Byte}

section Writing

theorem fresh_iff : fresh s lo hi pba n = true ↔
    0 < n ∧ lo ≤ pba ∧ pba + n ≤ hi ∧ ∀ k < n, s.bit (pba + k) = false := by simp [fresh]

theorem fresh_self (hf : fresh s lo hi pba n = true) : inRun pba n pba = true :=
  inRun_iff.mpr ⟨le_rfl, Nat.lt_add_of_pos_right (fresh_iff.mp hf).1⟩

theorem Inv.lay (h : Inv g crc s) (hf : fresh s lo hi pba n = true)
    (hhi : hi ≤ g.total) (hlen : blob.length < 2 ^ 32) (hn : n = (blob.length + 8 + blockSize - 1) / blockSize) :
    let named := { s.take ⟨pba, n, false⟩ with last := fun b => if b = pba then some blob else s.last b }
    Inv g crc (named.write pba (segmentBlocks crc blob) n) := by
  intro named
  have hfree : ∀ b, inRun pba n b = true → s.own b = none := fun b => h.runs.none_of_fresh hf
  have htot : pba + n ≤ g.total := (fresh_iff.mp hf).2.2.1.trans hhi
  have hruns : Runs g (named.write pba (segmentBlocks crc blob) n) :=
    h.runs.take (r := ⟨pba, n, false⟩) hfree htot rfl rfl
  have hk : Keeps (fun _ => True) s (named.write pba (segmentBlocks crc blob) n) :=
    Keeps.lay (r := ⟨pba, n, false⟩) hfree rfl rfl rfl
  refine ⟨hruns, h.tier.same h.runs hruns hk, h.rawm.same h.runs hruns hk, fun q m b ho hl => ?_⟩
  have hview : ∀ c, (named.write pba (segmentBlocks crc blob) n).dev.view c =
      if inRun pba n c then segmentBlocks crc blob (c - pba) else s.dev.view c := view_writeRun _ _ _ _
  by_cases hq : q = pba
  · subst hq
    have hb : blob = b := by simpa [named, St.write] using hl
    subst hb
    have hm : n = m := by simpa [named, St.write, St.take, fresh_self hf] using ho
    subst hm
    refine ⟨hlen, hn, fun k hkn => ?_⟩
    rw [hview, if_pos (inRun_iff.mpr (by omega)), Nat.add_sub_cancel_left]
  · have hout : inRun pba n q ≠ true := fun hin => by
      have hrun : (⟨pba, n, false⟩ : Run) = ⟨q, m, false⟩ := by simpa [named, St.write, St.take, hin] using ho
      exact hq (congrArg Run.start hrun).symm
    have hso : s.own q = some ⟨q, m, false⟩ := by simpa [named, St.write, St.take, hout] using ho
    have hsl : s.last q = some b := by simpa [named, St.write, hq] using hl
    obtain ⟨h1, h2, h3⟩ := h.live q m b hso hsl
    refine ⟨h1, h2, fun k hkm => ?_⟩
    rw [hk.view (h.runs.inside hso hkm) trivial, h3 k hkm]

theorem Inv.layCopy (h : Inv g crc s) {block : Nat → Block} {key m : Nat}
    (hf : fresh s lo hi pba n = true) (hhi : hi ≤ g.total) (hkey : s.own key = some ⟨key, m, false⟩) (hle : n ≤ m)
    (hblock : ∀ k < n, s.dev.view (key + k) = block k) (hown : t.own = (s.take ⟨pba, n, true⟩).own)
    (hbit : t.bit = (s.take ⟨pba, n, true⟩).bit) (hdisk : t.bitDisk = s.bitDisk)
    (hdev : t.dev = writeRun s.dev pba block n) (hlast : t.last = s.last) :
    Runs g t ∧ Keeps (fun _ => True) s t ∧ Live crc t ∧ s.own pba = none ∧ ∀ ord, Twin t (key, ⟨pba, n, ord⟩) := by
  have hfree : ∀ b, inRun pba n b = true → s.own b = none := fun b => h.runs.none_of_fresh hf
  have hin := fresh_self hf
  have hruns : Runs g t := h.runs.take (r := ⟨pba, n, true⟩) hfree ((fresh_iff.mp hf).2.2.1.trans hhi) hown hbit
  have hk : Keeps (fun _ => True) s t := Keeps.lay (r := ⟨pba, n, true⟩) hfree hown hdisk hdev
  refine ⟨hruns, hk, h.live.mono (fun q m ho => ?_) (fun _ _ hl => hlast ▸ hl), hfree pba hin,
    fun ord => ⟨(fresh_iff.mp hf).1, ⟨m, hle, hk.own hkey trivial⟩, ?_, fun k hkn => ?_⟩⟩
  · rw [hown] at ho
    have hout : inRun pba n q ≠ true := fun hq => by simp [St.take, hq] at ho
    have hso : s.own q = some ⟨q, m, false⟩ := by simpa [St.take, hout] using ho
    exact ⟨hso, fun k hkm => hk.view (h.runs.inside hso hkm) trivial⟩
  · simp [hown, St.take, hin, copyRun]
  · rw [hk.view (h.runs.inside hkey (hkn.trans_le hle)) trivial, hdev, view_writeRun,
      if_pos (inRun_iff.mpr (by simp only at hkn ⊢; omega)), Nat.add_sub_cancel_left, hblock k hkn]

variable {pin : Nat → Bool} {mirror : Nat}

theorem Inv.rawmWrite (h : Inv g crc s) {block : Nat → Block} (ho : s.own pba = some ⟨pba, n, false⟩)
    (hraw : g.raw pba = true) (hnone : ∀ f ∈ s.rawm, f.1 ≠ pba) (hblock : ∀ k < n, s.dev.view (pba + k) = block k)
    (hw : rawmWrite g pin s pba block n mirror = some t) : Inv g crc t := by
  have hlook : lookup s.rawm pba = none := lookup_absent hnone
  simp only [TierIndex.rawmWrite, hlook] at hw
  split_ifs at hw with h1 h2 h3
  · exact some.inj hw ▸ h
  · exact some.inj hw ▸ h
  have ht := some.inj hw
  have hdev : t.dev = writeRun s.dev mirror block n := by rw [← ht]; rfl
  obtain ⟨hruns, hk, hlive, hnew, htwin⟩ := h.layCopy h3 le_rfl ho le_rfl hblock (by rw [← ht]; rfl)
    (by rw [← ht]; rfl) (by rw [← ht]; rfl) hdev (by rw [← ht]; rfl)
  subst ht
  exact ⟨hruns, h.tier.same h.runs hruns hk,
    h.rawm.put h.runs hruns hk (htwin _) ⟨hraw, (fresh_iff.mp h3).2.1⟩ hnew, hlive⟩

theorem Inv.promoteOne (h : Inv g crc s) {cpba plen dpba : Nat} (ho : s.own cpba = some ⟨cpba, n, false⟩)
    (hle : plen ≤ n) (hsh : g.shadowStart ≤ cpba) (hp : promoteOne g s cpba plen dpba = some t) : Inv g crc t := by
  simp only [TierIndex.promoteOne] at hp
  split_ifs at hp with h1 h2
  · exact some.inj hp ▸ h
  have ht := some.inj hp
  have hdev : t.dev = writeRun s.dev dpba (fun k => s.dev.view (cpba + k)) plen := by rw [← ht]; rfl
  obtain ⟨hruns, hk, hlive, hnew, htwin⟩ := h.layCopy h2 (g.arena_shadow.trans g.shadow_total) ho hle
    (fun _ _ => rfl) (by rw [← ht]; rfl) (by rw [← ht]; rfl) (by rw [← ht]; rfl) hdev (by rw [← ht]; rfl)
  subst ht
  exact ⟨hruns, h.tier.put h.runs hruns hk (htwin _) ⟨hsh, (fresh_iff.mp h2).2.1, (fresh_iff.mp h2).2.2.1⟩ hnew,
    h.rawm.same h.runs hruns hk, hlive⟩

theorem Inv.writeSegment (h : Inv g crc s)
    (hw : writeSegment g crc s pba blob true mirror pin = some t) : Inv g crc t := by
  have hzone : g.rawStart + g.rawBlocks ≤ g.total := by
    have := g.raw_arena
    have := g.arena_shadow
    have := g.shadow_total
    omega
  simp only [TierIndex.writeSegment, if_true] at hw
  generalize hn : (blob.length + 8 + blockSize - 1) / blockSize = n at hw
  split_ifs at hw with hbig hraw hf hm hf
  · have hi := h.lay hf hzone (not_le.mp hbig) hn.symm
    have hin := fresh_self hf
    refine hi.rawmWrite ?_ hraw (fun f hmem hk => ?_) (fun k hkn => ?_) hw
    · simp [St.write, St.take, hin]
    · -- the raw run was free, so no entry can be left from the segment before
      obtain ⟨m, -, hkey⟩ := (h.rawm.twin f hmem).key
      rw [hk, h.runs.none_of_fresh hf hin] at hkey
      cases hkey
    · change (writeRun s.dev pba (segmentBlocks crc blob) n).view (pba + k) = _
      rw [view_writeRun, if_pos (inRun_iff.mpr (by omega)), Nat.add_sub_cancel_left]
  · obtain rfl := some.inj hw
    exact h.lay hf hzone (not_le.mp hbig) hn.symm
  · obtain rfl := some.inj hw
    exact h.lay hf le_rfl (not_le.mp hbig) hn.symm

theorem Inv.demote (h : Inv g crc s) (key : Nat) : Inv g crc (demote g s key) := by
  rw [TierIndex.demote]
  cases hl : lookup s.tier key with
  | none => exact h
  | some c => exact (h.dropTier (mem_of_lookup hl) (fun _ => false) 2).1

end Writing

section Flushing

theorem Inv.bitmapFlush (h : Inv g crc s) : Inv g crc s.bitmapFlush := by
  have hruns : Runs g s.bitmapFlush := ⟨h.runs.within, h.runs.total, h.runs.bit, h.runs.whole⟩
  have hk : Keeps (fun _ => True) s s.bitmapFlush :=
    ⟨fun hb _ => hb, fun _ _ => rfl, fun hb _ hc =>
      ⟨by simpa [St.bitmapFlush, or_imp, forall_and, h.runs.bit hb] using hc.1, hc.2⟩⟩
  exact ⟨hruns, h.tier.same h.runs hruns hk, h.rawm.same h.runs hruns hk, h.live⟩

theorem Inv.barrier (h : Inv g crc s) : Inv g crc s.barrier := by
  have hruns : Runs g s.barrier := ⟨h.runs.within, h.runs.total, h.runs.bit, h.runs.whole⟩
  have hk : Keeps (fun _ => True) s s.barrier :=
    ⟨fun hb _ => hb, fun _ _ => rfl, fun _ _ hc =>
      ⟨forall_mem_singleton.mpr (hc.1 _ (getLastD_mem_cons ..)), fun _ hp => by cases hp⟩⟩
  exact ⟨hruns, h.tier.same h.runs hruns hk, h.rawm.same h.runs hruns hk, h.live⟩

theorem Inv.flush (h : Inv g crc s) : Inv g crc s.flush := by
  have hb := h.bitmapFlush.barrier
  have firm : ∀ e, Firm s.flush e := fun e b r ho _ =>
    ⟨by simpa [St.flush, St.ownerSync, St.barrier, St.bitmapFlush] using h.runs.bit ho, fun _ hp => by cases hp⟩
  have index : ∀ {zone idx d}, IndexOk zone s.bitmapFlush.barrier idx d → IndexOk zone s.flush idx false := fun hi =>
    ⟨hi.sorted, fun e he => ⟨(hi.twin e he).pos, (hi.twin e he).key, (hi.twin e he).copy, (hi.twin e he).same⟩,
      hi.zone, hi.apart, fun _ e _ => firm e⟩
  exact ⟨⟨hb.runs.within, hb.runs.total, hb.runs.bit, hb.runs.whole⟩, index hb.tier, index hb.rawm, hb.live⟩

end Flushing

section Crashing

structure Settled (s : St) : Prop where
  tierDirty : s.tierDirty = false
  rawmDirty : s.rawmDirty = false
  tierStaged : s.tierStaged = none
  rawmStaged : s.rawmStaged = none
  tierOwner : s.tierOwner = s.tier
  rawmOwner : s.rawmOwner = s.rawm

theorem load_spec (isRawm : Bool) (idx : Index) : Sorted (load g isRawm idx) ∧ ∀ e ∈ load g isRawm idx, e ∈ idx := by
  have fold : ∀ (l acc : Index), Sorted acc → (∀ e ∈ acc, e ∈ idx) → (∀ e ∈ l, e ∈ idx) →
      Sorted (l.foldl (fun t e => put t e.1 e.2) acc) ∧ ∀ e ∈ l.foldl (fun t e => put t e.1 e.2) acc, e ∈ idx := by
    intro l
    induction l with
    | nil => exact fun acc hs ha _ => ⟨hs, ha⟩
    | cons e l ih =>
      intro acc hs ha hl
      refine ih _ (sorted_put hs _ _) (fun f hf => ?_) fun f hf => hl f (mem_cons_of_mem _ hf)
      obtain rfl | hf := mem_put hf
      · exact hl _ mem_cons_self
      · exact ha f hf
  exact fold _ [] List.Pairwise.nil (fun _ he => by cases he) fun e he => (mem_filter.mp he).1

theorem tear_clean {dev : Store Nat Block} (h : ∀ p ∈ dev.pending, p.cell ≠ b) (mask : List Bool) :
    (dev.tear mask).view b = dev.view b := by
  have hd : dev.view b = dev.durable b := settle_other b _ _ h
  exact tear_keeps (fun v => v = dev.view b) dev mask b hd.symm fun p hp he => absurd he (h p hp)

theorem Clean.cut (h : Clean s b) (c : Cut) : c.bit s b = true := by
  refine h.1 (s.bitDisk.2.getD (c.bitLate (b / (8 * blockSize))) s.bitDisk.1) ?_
  rw [getD_eq_getElem?_getD]
  cases hi : s.bitDisk.2[c.bitLate (b / (8 * blockSize))]? with
  | none => exact mem_cons_self
  | some m => exact mem_cons_of_mem _ (mem_of_getElem? hi)

theorem keptOwn_iff {c : Cut} : s.keptOwn g c b = some r ↔ s.own b = some r ∧ kept g s c r = true := by
  simp [St.keptOwn, filter_eq_some_iff]

theorem own_crash {c : Cut} (hb : (s.crash g c).own b = some r) : s.keptOwn g c b = some r ∨
      s.keptOwn g c b = none ∧ c.back.find? (fun q => inRun q.start q.len b) = some r := by
  simpa [St.crash, or_eq_some_iff] using hb

theorem Runs.crash (h : Runs g s) {c : Cut} (hback : backOk g s c = true) : Runs g (s.crash g c) := by
  simp only [backOk, decide_eq_true_eq] at hback
  obtain ⟨hall, hapart⟩ := hback
  have hkept : ∀ {b r}, s.keptOwn g c b = some r → ∀ k < r.len, c.bit s (r.start + k) = true := by
    intro b r hb k hk
    have := (keptOwn_iff.mp hb).2
    simp only [kept, decide_eq_true_eq, List.all_eq_true, mem_range] at this
    exact this.1 k hk
  have hfound : ∀ {b r}, c.back.find? (fun q => inRun q.start q.len b) = some r →
      r ∈ c.back ∧ r.start ≤ b ∧ b < r.start + r.len := fun hb =>
    ⟨mem_of_find?_eq_some hb, inRun_iff.mp (by simpa using find?_some hb)⟩
  refine ⟨fun hb => ?_, fun hb => ?_, fun {b r} hb => ?_, fun {b r} hb d h1 h2 => ?_⟩
  · obtain hb | ⟨-, hb⟩ := own_crash hb
    · exact h.within (keptOwn_iff.mp hb).1
    · exact (hfound hb).2
  · obtain hb | ⟨-, hb⟩ := own_crash hb
    · exact h.total (keptOwn_iff.mp hb).1
    · exact (hall _ (hfound hb).1).2.1
  · change c.bit s b = true
    obtain hb | ⟨-, hb⟩ := own_crash hb
    · have hw := h.within (keptOwn_iff.mp hb).1
      have := hkept hb (b - r.start) (by omega)
      rwa [Nat.add_sub_cancel' hw.1] at this
    · obtain ⟨hmem, hlo, hhi⟩ := hfound hb
      have := ((hall r hmem).2.2 (b - r.start) (by omega)).1
      rwa [Nat.add_sub_cancel' hlo] at this
  · change (s.keptOwn g c d).or _ = some r
    obtain hb | ⟨-, hb⟩ := own_crash hb
    · obtain ⟨ho, hk⟩ := keptOwn_iff.mp hb
      rw [keptOwn_iff.mpr ⟨h.whole ho d h1 h2, hk⟩]
      rfl
    · obtain ⟨hmem, -, -⟩ := hfound hb
      have hnone := ((hall r hmem).2.2 (d - r.start) (by omega)).2
      rw [Nat.add_sub_cancel' h1] at hnone
      rw [hnone]
      obtain ⟨q, hq⟩ : ∃ q, c.back.find? (fun q => inRun q.start q.len d) = some q :=
        Option.isSome_iff_exists.mp (List.find?_isSome.mpr ⟨r, hmem, inRun_iff.mpr ⟨h1, h2⟩⟩)
      obtain ⟨hqmem, hq1, hq2⟩ := hfound hq
      rw [hq]
      -- two runs that come back and share a block are one
      by_contra hne
      have hne : q ≠ r := fun he => hne (congrArg some he)
      have : Std.Symm fun r q : Run => r.start + r.len ≤ q.start ∨ q.start + q.len ≤ r.start :=
        ⟨fun _ _ hxy => hxy.symm⟩
      have := hapart.forall hqmem hmem hne
      omega

theorem Inv.crash (h : Inv g crc s) (hs : Settled s) {c : Cut} (hback : backOk g s c = true) :
    Inv g crc (s.crash g c) := by
  have hto : c.tierOwner s = s.tier := by simp [Cut.tierOwner, hs.tierStaged, hs.tierOwner]
  have hro : c.rawmOwner s = s.rawm := by simp [Cut.rawmOwner, hs.rawmStaged, hs.rawmOwner]
  have hruns := h.runs.crash hback
  have hfirm : ∀ {b r e}, s.own b = some r → (e ∈ s.tier ∨ e ∈ s.rawm) → Involved e r → Clean s b := by
    intro b r e hb he hi
    obtain he | he := he
    · exact h.tier.firm hs.tierDirty e he b r hb hi
    · exact h.rawm.firm hs.rawmDirty e he b r hb hi
  let P : Run → Prop := fun r => ∃ e, (e ∈ load g false s.tier ∨ e ∈ load g true s.rawm) ∧ Involved e r
  have hclean : ∀ {b r}, s.own b = some r → P r → Clean s b := fun hb ⟨e, he, hi⟩ =>
    hfirm hb (he.imp ((load_spec _ _).2 e) ((load_spec _ _).2 e)) hi
  have hk : Keeps P s (s.crash g c) := by
    refine ⟨fun {b r} hb hP => ?_, fun hb hP => tear_clean (hclean hb hP).2 _,
      fun hb hP hc => ⟨forall_mem_singleton.mpr (hc.cut c), fun _ hp => by cases hp⟩⟩
    have hkept : s.keptOwn g c b = some r := by
      refine keptOwn_iff.mpr ⟨hb, ?_⟩
      simp only [kept, decide_eq_true_eq, List.all_eq_true, mem_range, hto, hro]
      refine ⟨fun k hk => (hclean (h.runs.whole hb (r.start + k) (by omega) (by omega)) hP).cut c, Or.inr ?_⟩
      obtain ⟨e, he, hi⟩ := hP
      have hm : ∀ idx : Index, e ∈ idx → mentions idx r = true := fun idx hmem =>
        List.any_eq_true.mpr ⟨e, hmem, by simpa [Involved] using hi⟩
      exact he.imp (hm _) (hm _)
    change (s.keptOwn g c b).or _ = some r
    rw [hkept]
    rfl
  refine ⟨hruns, ?_, ?_, fun pba n blob ho hl => ?_⟩
  · change IndexOk _ _ (load g false (c.tierOwner s)) false
    rw [hto]
    exact h.tier.keeps h.runs hruns hk (load_spec _ _).2 (load_spec _ _).1
      (fun e he b r _ hi => ⟨e, Or.inl he, hi⟩) fun _ => hs.tierDirty
  · change IndexOk _ _ (load g true (c.rawmOwner s)) false
    rw [hro]
    exact h.rawm.keeps h.runs hruns hk (load_spec _ _).2 (load_spec _ _).1
      (fun e he b r _ hi => ⟨e, Or.inr he, hi⟩) fun _ => hs.rawmDirty
  · -- the segment is known only where its run was kept and none of its blocks was pending
    simp only [St.crash] at hl
    split_ifs at hl with hany
    obtain ⟨r, hr, hset⟩ : ∃ r, s.keptOwn g c pba = some r ∧ settled s r = true := by
      cases hr : s.keptOwn g c pba with
      | none => simp [hr] at hany
      | some r => exact ⟨r, rfl, by simpa [hr] using hany⟩
    have hrun : (⟨pba, n, false⟩ : Run) = r := by
      obtain ho | ⟨hnone, -⟩ := own_crash ho
      · exact Option.some.inj (ho.symm.trans hr)
      · rw [hnone] at hr
        cases hr
    subst hrun
    obtain ⟨h1, h2, h3⟩ := h.live pba n blob (keptOwn_iff.mp hr).1 hl
    refine ⟨h1, h2, fun k hkn => ?_⟩
    rw [← h3 k hkn]
    refine tear_clean (fun p hp he => ?_) _
    have := List.all_eq_true.mp hset p hp
    simp [he, inRun] at this
    omega

end Crashing

section Reading

/-- What the frame on the blocks at `pba` states. -/
def Framed (crc : List Byte → UInt32) (dev : Nat → Block) (pba : Nat) (blob : List Byte) : Prop :=
  blob = payload dev pba ∧ (crcHdr dev pba = 0 ∨ (crc blob).toNat = crcHdr dev pba)

theorem byteAt_add (dev : Nat → Block) (pba x : Nat) : byteAt dev (pba * blockSize + x) =
      dev (pba + x / blockSize) ⟨x % blockSize, mod_lt _ (by decide)⟩ := by
  have hdiv : (pba * blockSize + x) / blockSize = pba + x / blockSize := by
    rw [Nat.add_comm, add_mul_div_right _ _ (by decide), Nat.add_comm]
  have hmod : (pba * blockSize + x) % blockSize = x % blockSize := by rw [Nat.add_comm, add_mul_mod_self_right]
  simp only [byteAt, hdiv, hmod]

variable {dev : Nat → Block} {x m : Nat}

theorem bytes_twin {a : Nat} (h : ∀ k < n, dev (a + k) = dev (b + k))
    (hx : x + m ≤ n * blockSize) : bytes dev (a * blockSize + x) m = bytes dev (b * blockSize + x) m := by
  refine map_congr_left fun k hk => ?_
  have hk := mem_range.mp hk
  rw [Nat.add_assoc, Nat.add_assoc, byteAt_add, byteAt_add, h _ ((Nat.div_lt_iff_lt_mul (by decide)).mpr (by omega))]

variable {fault : Nat → Option Bool} {least : Nat}

theorem segReadOnce_framed {plen : Nat} (h : segReadOnce g crc dev fault pba plen least = .ok blob) :
    Framed crc dev pba blob ∧ (plen ≠ 0 → csize dev pba + 8 ≤ plen * blockSize) := by
  simp only [segReadOnce] at h
  split at h
  · cases h
  by_cases hlim : csize dev pba < least ∨
      (if plen ≠ 0 then plen * blockSize else (g.total - pba) * blockSize) < csize dev pba + 8
  · rw [if_pos hlim] at h
    cases h
  rw [if_neg hlim] at h
  by_cases hcrc : crcHdr dev pba ≠ 0 ∧ (crc (payload dev pba)).toNat ≠ crcHdr dev pba
  · rw [if_pos hcrc] at h
    cases h
  rw [if_neg hcrc] at h
  cases h
  refine ⟨⟨rfl, by tauto⟩, fun hne => ?_⟩
  rw [if_pos hne] at hlim
  omega

theorem Twin.framed (h : Twin s e) (hr : segReadOnce g crc s.dev.view fault e.2.pba e.2.plen least = .ok blob) :
    Framed crc s.dev.view e.1 blob := by
  obtain ⟨⟨hpay, hcrc⟩, hlim⟩ := segReadOnce_framed hr
  have hlim := hlim h.pos.ne'
  have hsize : csize s.dev.view e.2.pba = csize s.dev.view e.1 := by
    have hb := bytes_twin h.same (x := 0) (m := 4) (by omega)
    rw [Nat.add_zero, Nat.add_zero] at hb
    rw [csize, csize, hb]
  have hhdr : crcHdr s.dev.view e.2.pba = crcHdr s.dev.view e.1 := by
    rw [crcHdr, crcHdr, bytes_twin h.same (by omega)]
  have hload : payload s.dev.view e.2.pba = payload s.dev.view e.1 := by
    rw [payload, payload, ← hsize, bytes_twin h.same (by omega)]
  exact ⟨hpay.trans hload, hhdr ▸ hcrc⟩

variable {rescue : Nat → Option (List Byte)} {plen : Nat}

theorem Inv.readCanonical (h : Inv g crc s)
    (hrescue : ∀ pba blob, rescue pba = some blob → Framed crc s.dev.view pba blob)
    (hr : readCanonical g crc s fault rescue pba plen least = some blob) : Framed crc s.dev.view pba blob := by
  rw [TierIndex.readCanonical] at hr
  split at hr
  · rename_i hok
    obtain rfl := some.inj hr
    exact (segReadOnce_framed hok).1
  split_ifs at hr
  · obtain ⟨m, hm, hread⟩ := bind_eq_some_iff.mp hr
    cases hone : segReadOnce g crc s.dev.view fault m.pba m.plen least with
    | error bad => simp [hone, Except.toOption] at hread
    | ok b =>
      obtain rfl : b = blob := by simpa [hone, Except.toOption] using hread
      exact (h.rawm.twin _ (mem_of_lookup hm)).framed hone
  · exact hrescue _ _ (filter_eq_some_iff.mp hr).1

theorem Inv.read (h : Inv g crc s) {dev0 : Bool}
    (hrescue : ∀ pba blob, rescue pba = some blob → Framed crc s.dev.view pba blob)
    (hr : segReadChecked g crc s dev0 fault rescue pba plen least = some blob) : Framed crc s.dev.view pba blob := by
  rw [segReadChecked] at hr
  split_ifs at hr
  · split at hr
    · exact h.readCanonical hrescue hr
    · rename_i c hl
      split at hr
      · rename_i hok
        cases hr
        exact (h.tier.twin _ (mem_of_lookup hl)).framed hok
      · exact h.readCanonical hrescue hr
  · exact h.readCanonical hrescue hr

theorem bytes_segment (h : ∀ k < n, dev (pba + k) = segmentBlocks crc blob k) (hx : x + m ≤ n * blockSize) :
    bytes dev (pba * blockSize + x) m = (range m).map fun k =>
      (leBytes 4 blob.length ++ leBytes 4 (crc blob).toNat ++ blob).getD (x + k) 0 := by
  refine map_congr_left fun k hk => ?_
  have hk := mem_range.mp hk
  rw [Nat.add_assoc, byteAt_add, h _ ((Nat.div_lt_iff_lt_mul (by decide)).mpr (by omega)), segmentBlocks]
  rw [div_add_mod' (x + k) blockSize]

theorem map_getD_middle {a b c : List Byte} :
    ((range b.length).map fun k => (a ++ b ++ c).getD (a.length + k) 0) = b := by
  refine ext_getElem (by simp) fun i h1 h2 => ?_
  simp [getD_eq_getElem?_getD, getElem?_append_right, getElem?_append_left, h2]

theorem Live.framed (h : Live crc s) {w : List Byte} (ho : s.own pba = some ⟨pba, n, false⟩)
    (hl : s.last pba = some w) (hf : Framed crc s.dev.view pba blob) : blob = w := by
  obtain ⟨hlen, hn, hseg⟩ := h pba n w ho hl
  have hroom : w.length + 8 ≤ n * blockSize := by
    simp only [blockSize] at hn ⊢
    omega
  have hsize : csize s.dev.view pba = w.length := by
    have hb := bytes_segment hseg (x := 0) (m := 4) (by omega)
    have hm := map_getD_middle (a := []) (b := leBytes 4 w.length) (c := leBytes 4 (crc w).toNat ++ w)
    simp only [nil_append, length_leBytes, length_nil, ← append_assoc] at hm
    rw [csize, ← Nat.add_zero (pba * blockSize), hb, hm, leNat_leBytes (by omega)]
  rw [hf.1, payload, hsize, bytes_segment hseg (by omega)]
  have hm := map_getD_middle (a := leBytes 4 w.length ++ leBytes 4 (crc w).toNat) (b := w) (c := [])
  simpa using hm

end Reading

section Whole

structure Blank (s : St) : Prop where
  own : ∀ b, s.own b = none
  tier : s.tier = []
  rawm : s.rawm = []

theorem Blank.inv (h : Blank s) : Inv g crc s := by
  have hno : ∀ {b r}, s.own b ≠ some r := fun {b r} hb => by simp [h.own b] at hb
  have empty : ∀ zone d, IndexOk zone s [] d := fun zone d =>
    ⟨List.Pairwise.nil, by simp, by simp, by simp, by simp⟩
  exact ⟨⟨fun hb => (hno hb).elim, fun hb => (hno hb).elim, fun hb => (hno hb).elim, fun hb => (hno hb).elim⟩,
    h.tier ▸ empty _ _, h.rawm ▸ empty _ _, fun _ _ _ ho => (hno ho).elim⟩

instance (s : St) : Decidable (Settled s) :=
  decidable_of_iff (s.tierDirty = false ∧ s.rawmDirty = false ∧ s.tierStaged = none ∧ s.rawmStaged = none ∧
      s.tierOwner = s.tier ∧ s.rawmOwner = s.rawm)
    ⟨fun ⟨h₁, h₂, h₃, h₄, h₅, h₆⟩ => ⟨h₁, h₂, h₃, h₄, h₅, h₆⟩,
      fun h => ⟨h.tierDirty, h.rawmDirty, h.tierStaged, h.rawmStaged, h.tierOwner, h.rawmOwner⟩⟩

/-- The first device takes the raw segments, and the power fails only where the owner records name
what the volume has. -/
def safe (g : Geo) (s : St) : Op → Bool
  | .write pba _ dev0 _ _ => dev0 || !g.raw pba
  | .crash _ => decide (Settled s)
  | _ => true

def safeRun (g : Geo) (crc : List Byte → UInt32) : St → List Op → Bool
  | _, [] => true
  | s, op :: ops => safe g s op && match step g crc s op with
    | none => true
    | some t => safeRun g crc t ops

theorem Inv.step (h : Inv g crc s) {op : Op} (hsafe : safe g s op = true)
    (hstep : step g crc s op = some t) : Inv g crc t := by
  cases op with
  | write pba blob dev0 mirror pin =>
    have hw : TierIndex.writeSegment g crc s pba blob true mirror pin = some t := by
      cases dev0 with
      | true => exact hstep
      | false =>
        have hraw : g.raw pba = false := by simpa [safe] using hsafe
        simpa [TierIndex.step, TierIndex.writeSegment, hraw] using hstep
    exact h.writeSegment hw
  | free pba pin =>
    simp only [TierIndex.step] at hstep
    split at hstep
    · rename_i start n ho
      split_ifs at hstep with he
      obtain rfl := some.inj hstep
      subst he
      exact h.freeFile ho pin 1
    · cases hstep
  | promote cpba dpba =>
    simp only [TierIndex.step] at hstep
    split at hstep
    · rename_i start n plen ho _
      split_ifs at hstep with hg
      obtain ⟨rfl, hsh, hle⟩ := hg
      exact h.promoteOne ho hle hsh hstep
    · cases hstep
  | demote key => exact some.inj hstep ▸ h.demote key
  | flush => exact some.inj hstep ▸ h.flush
  | bitmapFlush => exact some.inj hstep ▸ h.bitmapFlush
  | barrier => exact some.inj hstep ▸ h.barrier
  | crash cut =>
    simp only [TierIndex.step] at hstep
    split_ifs at hstep with hb
    exact some.inj hstep ▸ h.crash (by simpa [safe] using hsafe) hb

theorem Inv.run {ops : List Op} (h : Inv g crc s) (hsafe : safeRun g crc s ops = true)
    (hrun : run g crc s ops = some t) : Inv g crc t := by
  induction ops generalizing s with
  | nil => exact some.inj hrun ▸ h
  | cons op ops ih =>
    simp only [TierIndex.run, foldlM_cons] at hrun
    obtain ⟨u, hu, hrest⟩ := bind_eq_some_iff.mp hrun
    simp only [safeRun, hu, Bool.and_eq_true] at hsafe
    exact ih (h.step hsafe.1 hu) hsafe.2 hrest

/-- Over every safe run a read gives what the segment's own blocks frame, and for a live segment that
is what was written there last. -/
theorem read_last_written {ops : List Op} {dev0 : Bool} {fault : Nat → Option Bool}
    {rescue : Nat → Option (List Byte)} {pba plen least : Nat} {blob : List Byte} (hblank : Blank s)
    (hsafe : safeRun g crc s ops = true) (hrun : run g crc s ops = some t)
    (hrescue : ∀ pba blob, rescue pba = some blob → Framed crc t.dev.view pba blob)
    (hread : segReadChecked g crc t dev0 fault rescue pba plen least = some blob) :
    Framed crc t.dev.view pba blob ∧ ∀ n w, t.own pba = some ⟨pba, n, false⟩ → t.last pba = some w → blob = w := by
  have hstart : Inv g crc s := hblank.inv
  have hi := hstart.run hsafe hrun
  have hf := hi.read hrescue hread
  exact ⟨hf, fun n w ho hl => hi.live.framed ho hl hf⟩

def smallGeo : Geo := ⟨1, 1, 2, 1, 3, 6, true, by decide, by decide, by decide, by decide⟩

def blankSt : St :=
  ⟨fun _ => false, (fun _ => false, []), ⟨fun _ _ => 0, []⟩, [], [], false, false, [], [], none, none, fun _ => none,
    fun _ => none⟩

def unpinned : Nat → Bool := fun _ => false

def powerCut : Op := .crash ⟨[], fun _ => 0, false, false, fun _ => false, []⟩

def copied : List Op := [.write 3 [1] true 0 unpinned, .promote 3 2, .flush, .barrier]

theorem read_after_settled_cut : ∃ t, run smallGeo crc32c blankSt (copied ++ [powerCut]) = some t ∧
    segReadChecked smallGeo crc32c t true (fun _ => none) (fun _ => none) 3 1 1 = some [1] ∧
    Framed crc32c t.dev.view 3 [1] ∧ ∀ n w, t.own 3 = some ⟨3, n, false⟩ → t.last 3 = some w → [1] = w := by
  have hread : (run smallGeo crc32c blankSt (copied ++ [powerCut])).map (fun t =>
      segReadChecked smallGeo crc32c t true (fun _ => none) (fun _ => none) 3 1 1) = some (some [1]) := by
    decide +kernel
  obtain ⟨t, ht, hr⟩ := map_eq_some_iff.mp hread
  exact ⟨t, ht, hr, read_last_written ⟨fun _ => rfl, rfl, rfl⟩ (by decide +kernel) ht (by simp) hr⟩

/-- The copy of a freed segment is out of the index, but the owner record on the medium still names it
when the power fails: the segment written since reads as the one before. -/
theorem stale_copy_read : Blank blankSt ∧ (run smallGeo crc32c blankSt
      (copied ++ [.free 3 unpinned, .write 3 [2] true 0 unpinned, .bitmapFlush, .barrier, powerCut])).map
      (fun t => (segReadChecked smallGeo crc32c t true (fun _ => none) (fun _ => none) 3 1 1, t.own 3, t.last 3,
        payload t.dev.view 3)) = some (some [1], some ⟨3, 1, false⟩, some [2], [2]) :=
  ⟨⟨fun _ => rfl, rfl, rfl⟩, by decide +kernel⟩

end Whole

end InvariantFs.TierReads
