import InvariantFs.Dedupe
import InvariantFs.SegmentSwap
import Mathlib.Data.List.SplitBy

namespace InvariantFs.DedupeSafe

open ByteCodec FileRead Retire Dedupe SegmentSwap List Option Function
open Spans (forall₂_right)

theorem bytes_take (v : Vol) {off n k : Nat} (h : k ≤ n) : (v.bytes off n).take k = v.bytes off k := by
  simp [Vol.bytes, ← map_take, Nat.min_eq_left h]

theorem bytes_drop (v : Vol) (off n k : Nat) : (v.bytes off n).drop k = v.bytes (off + k) (n - k) := by
  refine ext_getElem? fun j => ?_
  by_cases hj : k + j < n
  · have hj' : j < n - k := by omega
    simp [Vol.bytes, hj', Nat.add_assoc]
  · rw [getElem?_eq_none (by simp [Vol.bytes]; omega), getElem?_eq_none (by simp [Vol.bytes]; omega)]

variable {p q : Nat} {v : Vol}

theorem frame_of_stored (h : stored v p = stored v q) : v.csize p = v.csize q ∧
    v.bytes (p * blockSize + 4) 4 = v.bytes (q * blockSize + 4) 4 ∧
    v.bytes (p * blockSize + 8) (v.csize p) = v.bytes (q * blockSize + 8) (v.csize q) := by
  unfold stored at h
  have hhead := congrArg (List.take 4) h
  rw [bytes_take v (by omega), bytes_take v (by omega)] at hhead
  have hsize : v.csize p = v.csize q := congrArg leNat hhead
  have htail := congrArg (List.drop 8) h
  rw [bytes_drop, bytes_drop, Nat.add_sub_cancel_left, Nat.add_sub_cancel_left] at htail
  have hcrc := congrArg (fun bs => (bs.drop 4).take 4) h
  rw [bytes_drop, bytes_drop, bytes_take v (by omega), bytes_take v (by omega)] at hcrc
  exact ⟨hsize, hcrc, htail⟩

theorem segRead_of_stored (h : stored v p = stored v q)
    (hp : v.csize p + 8 ≤ (v.total - p) * blockSize) (hq : v.csize q + 8 ≤ (v.total - q) * blockSize)
    (hok : (v.segReadOnce p 1).isSome) : v.segReadChecked q 1 = v.segReadChecked p 1 := by
  obtain ⟨hsize, hcrc, hblob⟩ := frame_of_stored h
  have hrange : (v.csize q < 1 ∨ (v.total - q) * blockSize < v.csize q + 8) ↔
      (v.csize p < 1 ∨ (v.total - p) * blockSize < v.csize p + 8) := by omega
  have hsame : v.segReadOnce q 1 = v.segReadOnce p 1 := by
    unfold Vol.segReadOnce
    dsimp only
    rw [if_congr hrange rfl rfl, hcrc, hblob]
  obtain ⟨blob, hblob⟩ := isSome_iff_exists.mp hok
  unfold Vol.segReadChecked
  rw [hsame, hblob]
  rfl

def Named (d : Disk) (i : Nat) : Prop := ∃ path, (path, i) ∈ d.names ∧ ownerName path = false

structure Candidate (d : Disk) (i : Nat) (row : Row) (r : Recipe) (e : Entry) : Prop where
  named : Named d i
  has : d.vol.row i = some row
  counted : countedRow i row = true
  blob : row.blob = .ast r
  mem : e ∈ r.ents
  taken : eligible d.vol e = true

/-- Segments the pass may set free: those of candidates, and those that wait for a fence already. -/
def Target (d : Disk) (p : Nat) : Prop :=
  (∃ i row r e, Candidate d i row r e ∧ e.algo ≠ .windowSrc ∧ e.pba = p) ∨ ∃ x ∈ d.retire, p ∈ x.pbas

def childPbas (r : Recipe) : List Nat :=
  match r.tail with
  | .children cs => cs.flatMap fun c => (c.getD []).map Entry.pba
  | _ => []

def mentions (r : Recipe) : List Nat :=
  (r.ents.filter fun e => e.algo ≠ .windowSrc ∧ e.algo ≠ .child).map Entry.pba ++ childPbas r

structure Prior (d : Disk) (e : Entry) (i : Nat) (row : Row) (r : Recipe) (c : Entry) : Prop where
  cand : Candidate d i row r c
  bytes : stored d.vol c.pba = stored d.vol e.pba
  least : ∀ i' row' r' c', Candidate d i' row' r' c' → stored d.vol c'.pba = stored d.vol e.pba →
    i < i' ∨ i = i' ∧ c.blockId ≤ c'.blockId

def GivesWay (d : Disk) (e : Entry) : Prop := ∃ i row r c, Prior d e i row r c ∧ c.pba ≠ e.pba

def Wanted (d : Disk) (q : Nat) : Prop :=
  (∃ i row r, d.vol.row i = some row ∧ row.blob = .ast r ∧ q ∈ mentions r) ∨
    ∃ i row r e, Candidate d i row r e ∧ ∃ ci crow cr c, Prior d e ci crow cr c ∧ c.pba ≠ e.pba ∧ c.pba = q

/-- A volume in order. A recipe with candidates has no children, a tail only for its windows, the size of its
row, and every number once. The frames of the candidates are sound, and their segments, like those that wait for
a fence, are counted wherever they are named and lie apart from the others. Those of a whole recipe that waits are
named by no other, since its release takes one reference more than the map has for it. -/
structure Healthy (d : Disk) : Prop where
  flat : ∀ i row r e, Candidate d i row r e → ∀ x ∈ r.ents, x.algo ≠ .child
  tailed : ∀ i row r e, Candidate d i row r e → r.tail ≠ .none → ∃ x ∈ r.ents, x.algo = .windowSrc
  sized : ∀ i row r e, Candidate d i row r e → r.size = row.size
  numbered : ∀ i row r e, Candidate d i row r e → (r.ents.map Entry.blockId).Nodup
  sound : ∀ i row r e, Candidate d i row r e → e.algo ≠ .windowSrc →
    (d.vol.segReadOnce e.pba 1).isSome
  counted : ∀ p, Target d p → ∀ i row r, d.vol.row i = some row → row.blob = .ast r →
    p ∈ mentions r → Named d i ∧ countedRow i row = true ∧ p ∉ childPbas r ∧
      ∀ e ∈ r.ents, e.pba = p → e.zone ≠ .text
  apart : ∀ p plen, Target d p → segExtent d.vol p = some plen →
    ∀ q qlen, Wanted d q → segExtent d.vol q = some qlen → q ≠ p →
    ∀ b, p ≤ b → b < p + plen → ¬ (q ≤ b ∧ b < q + qlen)
  reads : ∀ i row r e, Candidate d i row r e → ∃ x, d.vol.ReadsFile i x
  whole : ∀ x ∈ d.retire, x.recipe = true → ∀ p ∈ x.pbas, ¬ Wanted d p

def WindowsStay (d : Disk) : Prop :=
  ∀ i row r e, Candidate d i row r e → GivesWay d e → ∀ x ∈ r.ents, x.algo ≠ .windowSrc

variable {H : Type} [LinearOrder H] {hash : List Byte → H} {d : Disk}

variable {i : Nat} {row : Row} {r : Recipe} {e : Entry}

theorem Candidate.pba (h : Candidate d i row r e) : e.zone ≠ .text ∧ e.pba ≠ 0 ∧ e.pba < d.vol.total ∧
      d.vol.csize e.pba + 8 ≤ (d.vol.total - e.pba) * blockSize := by
  have := h.taken
  simp only [eligible, ne_eq, decide_eq_true_eq] at this
  exact ⟨this.1, this.2.2.2.2.1, this.2.2.2.2.2.1, this.2.2.2.2.2.2.2.1⟩

def SegOf (hash : List Byte → H) (d : Disk) (s : Seg H) : Prop :=
  ∃ row r e, Candidate d s.inode row r e ∧ s = ⟨hash (stored d.vol e.pba), s.inode, e.blockId, e.pba⟩

def sorted (hash : List Byte → H) (d : Disk) : List (Seg H) :=
  sortSegs (d.names.flatMap (walk hash d.vol))

theorem segOf_sorted {s : Seg H} (h : s ∈ sorted hash d) : SegOf hash d s := by
  have hmem : s ∈ d.names.flatMap (walk hash d.vol) := (perm_insertionSort _ _).mem_iff.mp h
  obtain ⟨⟨path, i⟩, hname, hs⟩ := mem_flatMap.mp hmem
  unfold walk at hs
  split at hs
  · simp at hs
  · rename_i row hrow
    split_ifs at hs with hskip
    · simp at hs
    · simp only [not_or, Bool.not_eq_true, Bool.not_eq_false] at hskip
      split at hs
      · rename_i r hblob
        obtain ⟨e, he, rfl⟩ := mem_map.mp hs
        obtain ⟨he, hel⟩ := mem_filter.mp he
        exact ⟨row, r, e, ⟨⟨path, hname, hskip.2⟩, hrow, hskip.1, hblob, he, hel⟩, rfl⟩
      · simp at hs

theorem candidate_sorted (h : Candidate d i row r e) :
    (⟨hash (stored d.vol e.pba), i, e.blockId, e.pba⟩ : Seg H) ∈ sorted hash d := by
  obtain ⟨path, hname, hown⟩ := h.named
  refine (perm_insertionSort _ _).mem_iff.mpr (mem_flatMap.mpr ⟨(path, i), hname, ?_⟩)
  have hskip : ¬ (¬ countedRow i row = true ∨ ownerName path = true) := by simp [h.counted, hown]
  simp only [walk, h.has, if_neg hskip, h.blob]
  exact mem_map.mpr ⟨e, mem_filter.mpr ⟨h.mem, h.taken⟩, rfl⟩

theorem sorted_key : (sorted hash d).Pairwise fun a b => a.key ≤ b.key :=
  pairwise_insertionSort (fun a b : Seg H => a.key ≤ b.key) _

theorem sorted_hash : (sorted hash d).Pairwise fun a b => a.hash ≤ b.hash := by
  refine sorted_key.imp fun {a b} hab => ?_
  obtain hlt | ⟨heq, -⟩ := Prod.Lex.le_iff.mp hab
  · exact hlt.le
  · exact heq.le

theorem find_least {L : List (Seg H)} {c t : Seg H} {k : H} (hsort : L.Pairwise fun a b => a.key ≤ b.key)
    (hc : L.find? (fun x => x.hash = k) = some c) (ht : t ∈ L) (hk : t.hash = k) :
    c.inode < t.inode ∨ c.inode = t.inode ∧ c.lba ≤ t.lba := by
  have hle : c.key ≤ t.key := by
    induction L with
    | nil => simp at ht
    | cons x xs ih =>
      rw [find?_cons] at hc
      split at hc
      · cases hc
        obtain rfl | ht := mem_cons.mp ht
        · exact le_rfl
        · exact rel_of_pairwise_cons hsort ht
      · rename_i hx
        obtain rfl | ht := mem_cons.mp ht
        · simp [hk] at hx
        · exact ih hsort.of_cons hc ht
  have hck : c.hash = t.hash := by
    rw [hk]
    simpa using find?_some hc
  obtain hlt | ⟨-, hle⟩ := Prod.Lex.le_iff.mp hle
  · exact absurd hck hlt.ne
  · exact Prod.Lex.le_iff.mp hle

variable {m : Merge}

theorem scan_first {ss : List (Seg H)} {c : Seg H}
    (hsort : (c :: ss).Pairwise fun a b => a.hash ≤ b.hash) (hm : m ∈ scan v (some c) ss) :
    ∃ s ∈ ss, ∃ c', (c :: ss).find? (fun x => x.hash = s.hash) = some c' ∧ m ∈ mergeOf v c' s := by
  induction ss generalizing c with
  | nil => simp [scan] at hm
  | cons s ss ih =>
    have hcs : c.hash ≤ s.hash := rel_of_pairwise_cons hsort (by simp)
    rw [scan] at hm
    split_ifs at hm with heq
    · obtain hm | hm := mem_append.mp hm
      · exact ⟨s, by simp, c, by simp [heq], hm⟩
      · have hsort' : (c :: ss).Pairwise fun a b => a.hash ≤ b.hash :=
          hsort.sublist ((sublist_cons_self s ss).cons_cons c)
        obtain ⟨t, ht, c', hc', hm⟩ := ih hsort' hm
        refine ⟨t, by simp [ht], c', ?_, hm⟩
        by_cases hct : c.hash = t.hash
        · simpa [find?_cons, hct] using hc'
        · simpa [find?_cons, hct, heq] using hc'
    · obtain ⟨t, ht, c', hc', hm⟩ := ih hsort.of_cons hm
      refine ⟨t, by simp [ht], c', ?_, hm⟩
      have hst : s.hash ≤ t.hash := rel_of_pairwise_cons hsort.of_cons ht
      have hct : c.hash ≠ t.hash := by
        intro hct
        exact heq (le_antisymm (hct ▸ hst) hcs)
      simpa [find?_cons, hct] using hc'

theorem merges_first (hm : m ∈ merges hash d) :
    ∃ s ∈ sorted hash d, ∃ c, (sorted hash d).find? (fun x => x.hash = s.hash) = some c ∧ m ∈ mergeOf d.vol c s := by
  change m ∈ scan d.vol none (sorted hash d) at hm
  have hsort : (sorted hash d).Pairwise fun a b => a.hash ≤ b.hash := sorted_hash
  generalize sorted hash d = L at hm hsort ⊢
  cases L with
  | nil => simp [scan] at hm
  | cons c ss =>
    obtain ⟨s, hs, rest⟩ := scan_first hsort hm
    exact ⟨s, by simp [hs], rest⟩

variable {e' : Entry}

section

variable (hd : Healthy d) (h : Candidate d i row r e)

include hd h

theorem Candidate.unique {row' : Row} {r' : Recipe} (h' : Candidate d i row' r' e')
    (hid : e.blockId = e'.blockId) : r = r' ∧ e = e' := by
  obtain rfl : row = row' := some.inj (h.has.symm.trans h'.has)
  obtain rfl : r = r' := Blob.ast.inj (h.blob.symm.trans h'.blob)
  exact ⟨rfl, inj_on_of_nodup_map (hd.numbered i row r e h) h.mem h'.mem hid⟩

theorem find_candidate : r.ents.find? (fun x => x.blockId = e.blockId) = some e := by
  cases hf : r.ents.find? fun x => x.blockId = e.blockId with
  | none => simpa using List.find?_eq_none.mp hf e h.mem
  | some x =>
    have hx : x.blockId = e.blockId := by simpa using find?_some hf
    rw [inj_on_of_nodup_map (hd.numbered i row r e h) (mem_of_find?_eq_some hf) h.mem hx]

theorem curPba_candidate : curPba d.vol i e.blockId = e.pba := by
  have htype : row.type = .file := by
    have := h.counted
    simp only [countedRow, ne_eq, decide_eq_true_eq] at this
    exact this.1
  have hrow : d.vol.row i = some ⟨.file, row.size, .ast r, row.attrs⟩ := by rw [h.has, ← htype, ← h.blob]
  unfold curPba
  rw [hrow]
  dsimp only
  rw [find_candidate hd h]
  cases hx : r.ents[e.blockId]? with
  | none => rfl
  | some x =>
    dsimp only
    split_ifs with hid
    · have hmem : x ∈ r.ents := mem_of_getElem? hx
      rw [inj_on_of_nodup_map (hd.numbered i row r e h) hmem h.mem hid]
    · rfl

end

/-- What a merge says: the candidate `e` goes to the segment of the candidate `ce`, which holds the
same bytes. -/
structure Intent (hash : List Byte → H) (d : Disk) (m : Merge) (row : Row) (r : Recipe) (e : Entry)
    (ci : Nat) (crow : Row) (cr : Recipe) (ce : Entry) : Prop where
  moved : Candidate d m.inode row r e
  lba : m.lba = e.blockId
  cur : m.cur = e.pba
  stays : Candidate d ci crow cr ce
  canon : m.canon = ce.pba
  alike : hash (stored d.vol e.pba) = hash (stored d.vol ce.pba)
  first : (sorted hash d).find? (fun x => x.hash = hash (stored d.vol e.pba)) =
    some ⟨hash (stored d.vol ce.pba), ci, ce.blockId, ce.pba⟩
  differ : e.pba ≠ ce.pba

theorem merges_intent (hd : Healthy d) (hm : m ∈ merges hash d) :
    ∃ row r e ci crow cr ce, Intent hash d m row r e ci crow cr ce := by
  obtain ⟨s, hs, c, hc, hm⟩ := merges_first hm
  obtain ⟨row, r, e, hcand, heq⟩ := segOf_sorted hs
  obtain ⟨crow, cr, ce, hccand, hceq⟩ := segOf_sorted (mem_of_find?_eq_some hc)
  have hhash : c.hash = s.hash := by simpa using find?_some hc
  have hsh : s.hash = hash (stored d.vol e.pba) := congrArg Seg.hash heq
  have hsl : s.lba = e.blockId := congrArg Seg.lba heq
  have hch : c.hash = hash (stored d.vol ce.pba) := congrArg Seg.hash hceq
  have hcp : c.pba = ce.pba := congrArg Seg.pba hceq
  unfold mergeOf at hm
  rw [hsl, curPba_candidate hd hcand, hcp] at hm
  dsimp only at hm
  split_ifs at hm with hskip
  · simp at hm
  · obtain rfl := mem_singleton.mp hm
    refine ⟨row, r, e, c.inode, crow, cr, ce, hcand, rfl, rfl, hccand, rfl, ?_, ?_, ?_⟩
    · rw [← hsh, ← hch, hhash]
    · rw [← hsh, hc, ← hceq]
    · exact fun h => hskip (.inr h)

variable {crow : Row} {cr : Recipe} {ce : Entry} {ci : Nat}

theorem Intent.prior (hinj : Injective hash)
    (h : Intent hash d m row r e ci crow cr ce) : Prior d e ci crow cr ce where
  cand := h.stays
  bytes := hinj h.alike.symm
  least _ _ _ _ hcand hbytes :=
    find_least sorted_key h.first (candidate_sorted hcand) (congrArg hash hbytes)

theorem Intent.plain (hd : Healthy d) (hinj : Injective hash) (hstay : WindowsStay d)
    (h : Intent hash d m row r e ci crow cr ce) :
    (e.algo ≠ .windowSrc ∧ e.algo ≠ .child) ∧ r.tail = .none ∧ r.size = row.size := by
  have hwin := hstay _ _ _ _ h.moved ⟨ci, crow, cr, ce, h.prior hinj, h.differ.symm⟩
  refine ⟨⟨hwin e h.moved.mem, hd.flat _ _ _ _ h.moved e h.moved.mem⟩, ?_, hd.sized _ _ _ _ h.moved⟩
  by_contra htail
  obtain ⟨x, hx, hxw⟩ := hd.tailed _ _ _ _ h.moved htail
  exact hwin x hx hxw

theorem merge_unique {m' : Merge} (hd : Healthy d) (hm : m ∈ merges hash d)
    (hm' : m' ∈ merges hash d) (hi : m.inode = m'.inode) (hl : m.lba = m'.lba) : m = m' := by
  obtain ⟨row, r, e, ci, crow, cr, ce, h⟩ := merges_intent hd hm
  obtain ⟨row', r', e', ci', crow', cr', ce', h'⟩ := merges_intent hd hm'
  have hcand := hi ▸ h.moved
  obtain ⟨-, rfl⟩ := hcand.unique hd h'.moved (by rw [← h.lba, ← h'.lba, hl])
  have hfirst : ce.pba = ce'.pba := congrArg Seg.pba (some.inj (h.first.symm.trans h'.first))
  have hcanon : m.canon = m'.canon := by rw [h.canon, h'.canon, hfirst]
  have hcur : m.cur = m'.cur := by rw [h.cur, h'.cur]
  cases m
  simp_all

theorem canon_stays {m' : Merge} (hd : Healthy d) (h : Intent hash d m row r e ci crow cr ce)
    (hm' : m' ∈ merges hash d) (hi : m'.inode = ci) : m'.lba ≠ ce.blockId := by
  intro hl
  obtain ⟨row', r', e', ci', crow', cr', ce', h'⟩ := merges_intent hd hm'
  have hcand := hi ▸ h'.moved
  obtain ⟨-, rfl⟩ := hcand.unique hd h.stays (by rw [← h'.lba, hl])
  have hfirst := h'.first
  rw [← h.alike, h.first] at hfirst
  exact h'.differ (congrArg Seg.pba (some.inj hfirst))

def Moved (hash : List Byte → H) (d : Disk) (i : Nat) (e e' : Entry) : Prop :=
  e' = e ∨ ∃ m ∈ merges hash d, m.inode = i ∧ m.lba = e.blockId ∧ m.cur = e.pba ∧
    e' = { e with pba := m.canon }

variable {es : List Entry} {es₀ : List Entry}

theorem patch_moved (hd : Healthy d) (hm : m ∈ merges hash d) (hi : m.inode = i)
    (h : Forall₂ (Moved hash d i) es₀ es) : Forall₂ (Moved hash d i) es₀ (patch m es) := by
  induction h with
  | nil => exact .nil
  | @cons e0 e es₀ es he hes ih =>
    rw [patch]
    split_ifs with hid hcur
    · refine .cons ?_ hes
      obtain rfl | ⟨m', hm', hi', hl', -, rfl⟩ := he
      · exact .inr ⟨m, hm, hi, hid.symm, hcur.1.symm, rfl⟩
      · -- it has been moved before, by the same merge
        obtain rfl := merge_unique hd hm hm' (hi.trans hi'.symm) (hid.symm.trans hl'.symm)
        exact absurd hcur.1.symm hcur.2
    · exact .cons he hes
    · exact .cons he ih

variable {ms : List Merge}

theorem patchAll_rule {P : List Entry × List Merge → Prop} (h : P (es, []))
    (hstep : ∀ p, P p → ∀ m ∈ ms, P (patch m p.1, if applies m p.1 then p.2 ++ [m] else p.2)) : P (patchAll ms es) :=
  foldlRecOn ms _ h hstep

theorem patchAll_moved (hd : Healthy d) (hms : ∀ m ∈ ms, m ∈ merges hash d ∧ m.inode = i)
    (h : Forall₂ (Moved hash d i) es₀ es) :
    Forall₂ (Moved hash d i) es₀ (patchAll ms es).1 ∧ ∀ m ∈ (patchAll ms es).2, m ∈ ms := by
  refine patchAll_rule (P := fun p => Forall₂ (Moved hash d i) es₀ p.1 ∧ ∀ m ∈ p.2, m ∈ ms) ⟨h, by simp⟩ ?_
  rintro p ⟨hp, hq⟩ x hx
  refine ⟨patch_moved hd (hms x hx).1 (hms x hx).2 hp, fun m hm => ?_⟩
  dsimp only at hm
  split_ifs at hm
  · obtain hm | hm := mem_append.mp hm
    · exact hq m hm
    · exact (mem_singleton.mp hm) ▸ hx
  · exact hq m hm

theorem patch_mem (h : e ∈ patch m es) : e ∈ es ∨ e.pba = m.canon := by
  induction es with
  | nil => simp [patch] at h
  | cons x xs ih =>
    rw [patch] at h
    split_ifs at h
    · obtain rfl | h := mem_cons.mp h
      · exact .inr rfl
      · exact .inl (by simp [h])
    · exact .inl h
    · obtain rfl | h := mem_cons.mp h
      · exact .inl (by simp)
      · exact (ih h).imp_left fun h => by simp [h]

theorem patchAll_mem (h : e ∈ (patchAll ms es).1) : e ∈ es ∨ ∃ m ∈ ms, e.pba = m.canon := by
  refine patchAll_rule (P := fun p => ∀ e ∈ p.1, e ∈ es ∨ ∃ m ∈ ms, e.pba = m.canon) (fun e => .inl) ?_ e h
  intro p hp x hx e he
  obtain he | he := patch_mem he
  · exact hp e he
  · exact .inr ⟨x, hx, he⟩

inductive RowMoved (hash : List Byte → H) (d : Disk) (i : Nat) : Option Row → Option Row → Prop where
  | same (o : Option Row) : RowMoved hash d i o o
  | moved (type : Kind) (size size' : Nat) (tail : Tail) (attrs : Attrs) {es es' : List Entry}
      (h : Forall₂ (Moved hash d i) es es') :
      RowMoved hash d i (some ⟨type, size, .ast ⟨size', es, tail⟩, attrs⟩)
        (some ⟨type, size, .ast ⟨size', es', tail⟩, attrs⟩)

variable {o : Option Row}

theorem RowMoved.ast (h : RowMoved hash d i o (some row)) (hblob : row.blob = .ast r) :
    ∃ es, o = some ⟨row.type, row.size, .ast ⟨r.size, es, r.tail⟩, row.attrs⟩ ∧
      Forall₂ (Moved hash d i) es r.ents := by
  cases h with
  | same =>
    refine ⟨r.ents, ?_, forall₂_same.mpr fun e _ => .inl rfl⟩
    rw [← hblob]
  | moved type size size' tail attrs h =>
    cases hblob
    exact ⟨_, rfl, h⟩

theorem forall₂_of_mem {α β : Type} {R S : α → β → Prop} {xs : List α} {ys : List β}
    (h : Forall₂ R xs ys) (hRS : ∀ x ∈ xs, ∀ y, R x y → S x y) : Forall₂ S xs ys := by
  induction h with
  | nil => exact .nil
  | cons hx _ ih => exact .cons (hRS _ (by simp) _ hx) (ih fun x hx => hRS x (by simp [hx]))

theorem moved_swap (hd : Healthy d) (hinj : Injective hash) (hstay : WindowsStay d) (hrow : d.vol.row i = some row)
    (hblob : row.blob = .ast r) (he : e ∈ r.ents) (h : Moved hash d i e e') : Swap d.vol e e' := by
  obtain rfl | ⟨m, hm, rfl, hl, hc, rfl⟩ := h
  · exact Swap.refl e'
  · obtain ⟨row', r', e1, ci, crow, cr, ce, hint⟩ := merges_intent hd hm
    obtain rfl : row = row' := some.inj (hrow.symm.trans hint.moved.has)
    obtain rfl : r = r' := Blob.ast.inj (hblob.symm.trans hint.moved.blob)
    -- the entry of this number is the candidate
    obtain rfl : e = e1 := inj_on_of_nodup_map (hd.numbered _ _ _ _ hint.moved) he
      hint.moved.mem (by rw [← hl, hint.lba])
    obtain ⟨hz, h0, hlt, hfit⟩ := hint.moved.pba
    obtain ⟨-, hc0, hclt, hcfit⟩ := hint.stays.pba
    obtain ⟨⟨hw, hch⟩, -⟩ := hint.plain hd hinj hstay
    refine ⟨rfl, .inr ⟨⟨hz, hw, hch⟩, ⟨h0, hlt⟩, ?_, ?_⟩⟩
    · rw [hint.canon]
      exact ⟨hc0, hclt⟩
    · rw [hint.canon]
      exact segRead_of_stored (hinj hint.alike) hfit hcfit (hd.sound _ _ _ _ hint.moved hw)

theorem rowMoved_swap (hd : Healthy d) (hinj : Injective hash) (hstay : WindowsStay d)
    (h : RowMoved hash d i (d.vol.row i) o) : RowSwap d.vol (d.vol.row i) o := by
  generalize hrow : d.vol.row i = o0 at h ⊢
  cases h with
  | same => exact .same _
  | moved type size size' tail attrs h =>
    exact .swap type size size' tail attrs (forall₂_of_mem h fun e he e' hm =>
      moved_swap hd hinj hstay hrow rfl he hm)

def Gone (hash : List Byte → H) (d₀ d : Disk) (p : Nat) : Prop :=
  (∀ i row r, d.vol.row i = some row → row.blob = .ast r → p ∉ mentions r) ∧
    ∀ m ∈ merges hash d₀, m.canon ≠ p

/-- Where a pass has come to from the volume `d₀`. -/
structure Inv (hash : List Byte → H) (d₀ d : Disk) : Prop where
  vol : d.vol = { d₀.vol with row := d.vol.row }
  names : d.names = d₀.names
  rows : ∀ i, RowMoved hash d₀ i (d₀.vol.row i) (d.vol.row i)
  retire : ∀ x ∈ d.retire, ∀ p ∈ x.pbas, Target d₀ p
  whole : ∀ x ∈ d.retire, x.recipe = true → x ∈ d₀.retire
  freed : ∀ b, d₀.bit b = true → d.bit b = false →
    ∃ p plen, Target d₀ p ∧ segExtent d₀.vol p = some plen ∧ (p ≤ b ∧ b < p + plen) ∧ Gone hash d₀ d p

variable {d₀ : Disk}

theorem Inv.ast (h : Inv hash d₀ d) (hrow : d.vol.row i = some row) (hblob : row.blob = .ast r) :
    ∃ es, d₀.vol.row i = some ⟨row.type, row.size, .ast ⟨r.size, es, r.tail⟩, row.attrs⟩ ∧
      Forall₂ (Moved hash d₀ i) es r.ents :=
  (hrow ▸ h.rows i).ast hblob

theorem inv_init (hash : List Byte → H) (d : Disk) : Inv hash d d :=
  ⟨rfl, rfl, fun _ => .same _, fun x hx p hp => .inr ⟨x, hx, hp⟩, fun _ hx _ => hx, fun b h h' => by simp [h] at h'⟩

section

variable (hd : Healthy d₀) (hinj : Injective hash) (hstay : WindowsStay d₀)
  (hms : ∀ m ∈ ms, m ∈ merges hash d₀ ∧ m.inode = i) (hinv : Inv hash d₀ d)

include hd hinj hstay hms hinv

theorem remap_row (hrow : d.vol.row i = some row) (hblob : row.blob = .ast r) (happ : (patchAll ms r.ents).2 ≠ []) :
    RowMoved hash d₀ i (d₀.vol.row i) (some { row with blob := .ast ⟨row.size, (patchAll ms r.ents).1, .none⟩ }) := by
  obtain ⟨es, hes, hmoved⟩ := hinv.ast hrow hblob
  obtain ⟨hpatched, hsub⟩ := patchAll_moved hd hms hmoved
  obtain ⟨m, hm⟩ := exists_mem_of_ne_nil _ happ
  obtain ⟨hmm, rfl⟩ := hms m (hsub m hm)
  obtain ⟨row', r', e, ci, crow, cr, ce, hint⟩ := merges_intent hd hmm
  -- a merge has taken effect, so the recipe has nothing behind its entries
  obtain ⟨-, htail, hsize⟩ := hint.plain hd hinj hstay
  obtain rfl := some.inj (hes.symm.trans hint.moved.has)
  obtain rfl := Blob.ast.inj hint.moved.blob
  rw [hes, htail, hsize]
  exact .moved row.type row.size row.size .none row.attrs hpatched

theorem inv_remap {env : Env} {d' : Disk} (h : remapFile env d i ms = some d') : Inv hash d₀ d' := by
  obtain ⟨row, hrow, h⟩ := bind_eq_some_iff.mp h
  split at h
  · obtain rfl := some.inj h
    exact hinv
  · rename_i r hblob htype
    dsimp only at h
    split_ifs at h with hnone hput
    · obtain rfl := some.inj h
      exact hinv
    · obtain rfl := some.inj h
      have hsub : ∀ m ∈ (patchAll ms r.ents).2, m ∈ ms := by
        obtain ⟨es, -, hmoved⟩ := hinv.ast hrow hblob
        exact (patchAll_moved hd hms hmoved).2
      unfold retirePbas
      rw [if_neg (by simpa using hnone)]
      refine ⟨?_, hinv.names, fun j => ?_, fun x hx p hp => ?_, fun x hx hrec => ?_, fun b hb hb' => ?_⟩
      · change ({ d.vol with row := _ } : Vol) = _
        rw [hinv.vol]
        rfl
      · change RowMoved hash d₀ j (d₀.vol.row j) (if j = i then _ else d.vol.row j)
        split_ifs with hj
        · rw [hj]
          exact remap_row hd hinj hstay hms hinv hrow hblob hnone
        · exact hinv.rows j
      · obtain hx | hx := mem_append.mp hx
        · exact hinv.retire x hx p hp
        · obtain rfl := mem_singleton.mp hx
          obtain ⟨m, hm, rfl⟩ := mem_map.mp hp
          obtain ⟨row', r', e, ci, crow, cr, ce, hint⟩ := merges_intent hd (hms m (hsub m hm)).1
          exact .inl ⟨m.inode, row', r', e, hint.moved, (hint.plain hd hinj hstay).1.1, hint.cur.symm⟩
      · obtain hx | hx := mem_append.mp hx
        · exact hinv.whole x hx hrec
        · obtain rfl := mem_singleton.mp hx
          cases hrec
      · obtain ⟨p, plen, htarget, hext, hin, hgone, hcanon⟩ := hinv.freed b hb hb'
        refine ⟨p, plen, htarget, hext, hin, fun j row' r' hrow' hblob' hmem => ?_, hcanon⟩
        change (if j = i then _ else d.vol.row j) = some row' at hrow'
        split_ifs at hrow' with hj
        · -- what the new recipe names was named before, or is a segment that stays
          obtain rfl := some.inj hrow'
          obtain rfl := Blob.ast.inj hblob'
          simp only [mentions, childPbas, append_nil] at hmem
          obtain ⟨e, he, rfl⟩ := mem_map.mp hmem
          obtain ⟨he, halgo⟩ := mem_filter.mp he
          obtain he | ⟨m, hm, hpba⟩ := patchAll_mem he
          · refine hgone i row r hrow hblob (mem_append.mpr (.inl ?_))
            exact mem_map.mpr ⟨e, mem_filter.mpr ⟨he, halgo⟩, rfl⟩
          · exact hcanon m (hms m hm).1 hpba.symm
        · exact hgone j row' r' hrow' hblob' hmem
  · simp at h

end

section

variable (hd : Healthy d₀) (hinv : Inv hash d₀ d)

include hd hinv

theorem named_entry (htarget : Target d₀ p) (hrow : d.vol.row i = some row)
    (hblob : row.blob = .ast r) (he : e ∈ r.ents) (halgo : e.algo ≠ .windowSrc ∧ e.algo ≠ .child)
    (hp : e.pba = p) : Named d₀ i ∧ countedRow i row = true ∧ e.zone ≠ .text := by
  obtain ⟨es, hes, hmoved⟩ := hinv.ast hrow hblob
  obtain ⟨e0, he0, rfl | ⟨m, hm, rfl, hl, -, rfl⟩⟩ := forall₂_right hmoved he
  · have hmem : p ∈ mentions ⟨r.size, es, r.tail⟩ := by
      refine mem_append.mpr (.inl (mem_map.mpr ⟨e, mem_filter.mpr ⟨he0, ?_⟩, hp⟩))
      simpa using halgo
    obtain ⟨hname, hc, -, hz⟩ := hd.counted p htarget i _ _ hes rfl hmem
    exact ⟨hname, hc, hz e he0 hp⟩
  · obtain ⟨row', r', e1, ci, crow, cr, ce, hint⟩ := merges_intent hd hm
    obtain rfl := some.inj (hes.symm.trans hint.moved.has)
    obtain rfl := Blob.ast.inj hint.moved.blob
    obtain rfl : e0 = e1 := inj_on_of_nodup_map (hd.numbered _ _ _ _ hint.moved) he0
      hint.moved.mem (by rw [← hl, hint.lba])
    exact ⟨hint.moved.named, hint.moved.counted, hint.moved.pba.1⟩

theorem canon_named (h : Intent hash d₀ m row r e ci crow cr ce) :
    ∃ row' r', d.vol.row ci = some row' ∧ row'.blob = .ast r' ∧ countedRow ci row' = true ∧ ce ∈ r'.ents := by
  have hrm := hinv.rows ci
  have hhas := h.stays.has
  have hblob := h.stays.blob
  have hmem := h.stays.mem
  have hc := h.stays.counted
  generalize hd0 : d₀.vol.row ci = o0, hdr : d.vol.row ci = o at hrm
  rw [hd0] at hhas
  cases hrm with
  | same => exact ⟨crow, cr, hhas, hblob, hc, hmem⟩
  | moved type size size' tail attrs hes =>
    cases hhas
    obtain rfl := Blob.ast.inj hblob
    obtain ⟨e', he', rfl | ⟨m', hm', hi', hl', -⟩⟩ := forall₂_right hes.flip hmem
    · exact ⟨_, _, rfl, rfl, hc, he'⟩
    · exact absurd hl' (canon_stays hd h hm' hi')

theorem gone_of_uncounted
    (htarget : Target d₀ p) (h0 : p ≠ 0) (hcount : refCount d.vol d.names p = 0) : Gone hash d₀ d p := by
  have hcounted : ∀ i row r, d.vol.row i = some row → row.blob = .ast r → Named d₀ i →
      countedRow i row = true → ∀ e ∈ r.ents, e.zone ≠ .text → e.pba ≠ p := by
    rintro i row r hrow hblob ⟨path, hname, hown⟩ hc e he hz rfl
    exact refCount_pos (hinv.names ▸ hname) hown hrow hc hblob he hz h0 hcount
  constructor
  · intro i row r hrow hblob hmem
    obtain hmem | hmem := mem_append.mp hmem
    · obtain ⟨e, he, hp⟩ := mem_map.mp hmem
      obtain ⟨he, halgo⟩ := mem_filter.mp he
      obtain ⟨hname, hc, hz⟩ := named_entry hd hinv htarget hrow hblob he (by simpa using halgo) hp
      exact hcounted i row r hrow hblob hname hc e he hz hp
    · -- the children are those of the volume the pass has started from
      obtain ⟨es, hes, -⟩ := hinv.ast hrow hblob
      have hchild : p ∈ childPbas ⟨r.size, es, r.tail⟩ := hmem
      exact (hd.counted p htarget i _ _ hes rfl (mem_append.mpr (.inr hchild))).2.2.1 hchild
  · rintro m hm rfl
    obtain ⟨row, r, e, ci, crow, cr, ce, hint⟩ := merges_intent hd hm
    obtain ⟨row', r', hrow', hblob', hc, hmem⟩ := canon_named hd hinv hint
    exact hcounted ci row' r' hrow' hblob' hint.stays.named hc ce hmem hint.stays.pba.1 hint.canon.symm

theorem wanted_of_mentions (hinj : Injective hash) (hrow : d.vol.row i = some row)
    (hblob : row.blob = .ast r) (hq : q ∈ mentions r) : Wanted d₀ q := by
  obtain ⟨es, hes, hmoved⟩ := hinv.ast hrow hblob
  obtain hq | hq := mem_append.mp hq
  · obtain ⟨e, he, rfl⟩ := mem_map.mp hq
    obtain ⟨he, halgo⟩ := mem_filter.mp he
    obtain ⟨e0, he0, rfl | ⟨m, hm, rfl, hl, -, rfl⟩⟩ := forall₂_right hmoved he
    · refine .inl ⟨i, _, _, hes, rfl, mem_append.mpr (.inl ?_)⟩
      exact mem_map.mpr ⟨e, mem_filter.mpr ⟨he0, halgo⟩, rfl⟩
    · obtain ⟨row', r', e1, ci, crow, cr, ce, hint⟩ := merges_intent hd hm
      exact .inr ⟨m.inode, row', r', e1, hint.moved, ci, crow, cr, ce, hint.prior hinj,
        hint.differ.symm, hint.canon.symm⟩
  · exact .inl ⟨i, _, _, hes, rfl, mem_append.mpr (.inr hq)⟩

theorem gone_of_unwanted (hinj : Injective hash) (h : ¬ Wanted d₀ p) : Gone hash d₀ d p := by
  refine ⟨fun i row r hrow hblob hmem => h (wanted_of_mentions hd hinv hinj hrow hblob hmem), ?_⟩
  rintro m hm rfl
  obtain ⟨row, r, e, ci, crow, cr, ce, hint⟩ := merges_intent hd hm
  exact h (.inr ⟨m.inode, row, r, e, hint.moved, ci, crow, cr, ce, hint.prior hinj, hint.differ.symm,
    hint.canon.symm⟩)

theorem inv_fence (hinj : Injective hash) (map : Option (List Nat)) : Inv hash d₀ (fence map d) := by
  have hfrees := fence_frees (P := fun p => Target d₀ p ∧ Gone hash d₀ d p) map
    (fun x hx _ p hp h0 hcount =>
      ⟨hinv.retire x hx p hp, gone_of_uncounted hd hinv (hinv.retire x hx p hp) h0 hcount⟩)
    fun x hx hrec p hp =>
      ⟨hinv.retire x hx p hp, gone_of_unwanted hd hinv hinj (hd.whole x (hinv.whole x hx hrec) hrec p hp)⟩
  have hvol : (fence map d).vol = d.vol := hfrees.vol
  refine ⟨?_, hfrees.names.trans hinv.names, ?_, ?_, ?_, fun b hb hb' => ?_⟩
  · rw [hvol]
    exact hinv.vol
  · rw [hvol]
    exact hinv.rows
  · simp [fence]
  · simp [fence]
  · cases hbd : d.bit b with
    | false =>
      obtain ⟨p, plen, htarget, hext, hin, hgone⟩ := hinv.freed b hb hbd
      refine ⟨p, plen, htarget, hext, hin, ?_⟩
      rw [Gone, hvol]
      exact hgone
    | true =>
      obtain ⟨p, plen, ⟨htarget, hgone⟩, hext, hin⟩ := hfrees.freed b hbd hb'
      refine ⟨p, plen, htarget, ?_, hin, ?_⟩
      · rw [hinv.vol] at hext
        exact hext
      · rw [Gone, hvol]
        exact hgone

end

theorem inv_remapAll {groups : List (List Merge)} {envs : List Env} (hd : Healthy d₀) (hinj : Injective hash)
    (hstay : WindowsStay d₀) (hgroups : ∀ g ∈ groups, ∀ m ∈ g, m ∈ merges hash d₀ ∧ ∀ x ∈ g.head?, m.inode = x.inode)
    (hinv : Inv hash d₀ d) : Inv hash d₀ (remapAll groups envs d) := by
  induction groups generalizing envs d with
  | nil => simpa [remapAll] using hinv
  | cons g groups ih =>
    have hrest := fun g' hg' => hgroups g' (mem_cons_of_mem g hg')
    cases envs with
    | nil => simpa [remapAll] using hinv
    | cons env envs =>
      cases g with
      | nil => exact ih hrest hinv
      | cons m ms =>
        rw [remapAll]
        cases hr : remapFile env d m.inode (m :: ms) with
        | none => exact hinv
        | some d' =>
          have hinv' := inv_remap hd hinj hstay (fun x hx => by
            have := hgroups _ (by simp) x hx
            exact ⟨this.1, this.2 m (by simp)⟩) hinv hr
          split_ifs
          · exact ih hrest (inv_fence hd hinv' hinj env.map)
          · exact ih hrest hinv'

end InvariantFs.DedupeSafe
