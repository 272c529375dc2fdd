import InvariantFs.ContentCut
import InvariantFs.ReadFrame
import Mathlib.Data.List.TakeWhile

namespace InvariantFs.CutPrefix

open ByteCodec Spans FileRead RangedRead ReadFrame ContentCut List Option Function Entry

variable {v w : Vol} {e : Entry} {i n : Nat}

/-- A segment of the file itself that the writer stores as it is or compresses on its own. -/
def plain (e : Entry) : Bool :=
  e.zone ≠ .text ∧ (e.algo = .none ∨ e.algo = .lz4 ∨ e.algo = .zstd) ∧ 0 < e.len ∧
    e.len ≤ 128 * 1024 * 1024

def survives (v : Vol) (e : Entry) : Option (List Byte) :=
  if plain e then segmentBytes v (fun _ => none) 0 e else none

def kept (v : Vol) (es : List Entry) : List Entry := es.takeWhile fun e => (survives v e).isSome

def held (v : Vol) (es : List Entry) : List Byte :=
  (kept v es).flatMap fun e => (survives v e).getD []

variable {sib : String → Option (List Byte)}

theorem segmentBytes_own (h : plain e = true) : segmentBytes v sib i e = survives v e := by
  rw [survives, if_pos h]
  simp only [plain, decide_eq_true_eq] at h
  unfold segmentBytes
  obtain halgo | halgo | halgo := h.2.1 <;> simp only [halgo]

theorem cutDecodeSpan_survives : cutDecodeSpan v e = survives v e := by
  unfold survives
  split
  next h =>
    simp only [plain, decide_eq_true_eq] at h
    obtain ⟨hzone, halgo, hpos, hmax⟩ := h
    have hlen : ¬ (e.len = 0 ∨ 128 * 1024 * 1024 < e.len) := by omega
    have hsmall (blob : List Byte) : v.codecs.lz4Into blob e.len = _ := lz4Into_small v.codecs (by omega)
    unfold cutDecodeSpan segmentBytes
    simp only [hsmall]
    obtain halgo | halgo | halgo := halgo <;> simp [halgo, hzone, hlen]
  next h =>
    simp only [plain, Bool.decide_and, Bool.and_eq_true, decide_eq_true_eq, not_and] at h
    unfold cutDecodeSpan
    by_cases hkind : e.zone = .text ∨ e.algo = .windowSrc
    · rw [if_pos hkind]
    by_cases hpba : e.pba = 0 ∨ v.total ≤ e.pba
    · rw [if_neg hkind, if_pos hpba]
    rw [if_neg hkind, if_neg hpba, bind_eq_none_iff]
    intro blob _
    by_cases hlen : e.len = 0 ∨ 128 * 1024 * 1024 < e.len
    · simp [hlen]
    rw [not_or] at hkind
    -- an entry that gets as far as the decoders is one of the others
    have halgo : ¬ (e.algo = .none ∨ e.algo = .lz4 ∨ e.algo = .zstd) := fun halgo => by
      have := h hkind.1 halgo
      omega
    split_ifs
    · split <;> simp_all
    · rfl

theorem survives_length {bs : List Byte} (h : survives v e = some bs) : bs.length = e.len := by
  unfold survives at h
  split_ifs at h with hp
  simp only [plain, decide_eq_true_eq] at hp
  exact segmentBytes_length (fun _ => by omega) h

variable {es : List Entry} {r : Recipe}

section Probe

def lengths (es : List Entry) : UInt64 := (es.map Entry.length).foldl (· + ·) 0

theorem probeGo_fixed (m : Nat) (es : List Entry) (k : Nat) (p : Probe) :
    (probeGo v m es k p).ents = p.ents ∧ (probeGo v m es k p).rowSize = p.rowSize ∧
    (probeGo v m es k p).spans = p.spans ++ es.map (survives v) := by
  induction es generalizing k p with
  | nil => simp [probeGo]
  | cons e es ih =>
    rw [probeGo, cutDecodeSpan_survives]
    refine ⟨(ih _ _).1.trans ?_, (ih _ _).2.1.trans ?_, (ih _ _).2.2.trans ?_⟩
    · dsimp only
      split_ifs <;> rfl
    · dsimp only
      split_ifs <;> rfl
    · dsimp only
      split_ifs <;> simp

variable {m k : Nat}

theorem probeGo_bad {p : Probe} (h : p.firstBad ≠ m) :
    (probeGo v m es k p).firstBad = p.firstBad ∧ (probeGo v m es k p).goodPrefix = p.goodPrefix := by
  induction es generalizing k p with
  | nil => simp [probeGo]
  | cons e es ih =>
    rw [probeGo]
    split_ifs
    · exact ih h
    · exact ih h

theorem probeGo_good (p : Probe) (h : p.firstBad = m)
    (hk : k + es.length = m) : (probeGo v m es k p).firstBad = k + (kept v es).length ∧
    (probeGo v m es k p).goodPrefix = ((kept v es).map Entry.length).foldl (· + ·) p.goodPrefix := by
  induction es generalizing k p with
  | nil => simp_all [probeGo, kept]
  | cons e es ih =>
    rw [length_cons] at hk
    rw [probeGo, cutDecodeSpan_survives]
    rw [if_pos h, if_pos h]
    by_cases hs : (survives v e).isSome = true
    · rw [if_pos hs]
      have hkept : kept v (e :: es) = e :: kept v es := by simp [kept, hs]
      obtain ⟨h1, h2⟩ := ih (k := k + 1)
        { p with spans := p.spans ++ [survives v e], goodPrefix := p.goodPrefix + e.length } h (by omega)
      rw [h2, hkept]
      exact ⟨by simp only [length_cons]; omega, rfl⟩
    · rw [if_neg hs]
      have hkept : kept v (e :: es) = [] := by simp [kept, hs]
      have hbad : k ≠ m := by omega
      rw [hkept]
      exact probeGo_bad (p := { p with spans := p.spans ++ [survives v e], firstBad := k }) hbad

theorem cutProbeRun_some {d : Delivery} {p : Probe} (h : cutProbeRun v d = some p) :
    ∃ row r, v.row d.id = some row ∧ noRecipe row = false ∧ row.blob = .ast r ∧
      recipeCoherence d.name row r = .ok ∧ p.rowSize = row.size ∧ p.ents = r.ents ∧
      p.firstBad = (kept v r.ents).length ∧ p.goodPrefix = lengths (kept v r.ents) ∧
      p.spans = r.ents.map (survives v) := by
  obtain ⟨row, hrow, h⟩ := bind_eq_some_iff.mp h
  split_ifs at hrow with hget
  split_ifs at h with hno
  split at h
  next r hblob =>
    split_ifs at h with hcoh
    cases h
    let start : Probe := ⟨row.size, r.ents, r.ents.length, 0, 0, []⟩
    obtain ⟨hents, hsize, hspans⟩ := probeGo_fixed (v := v) r.ents.length r.ents 0 start
    obtain ⟨hbad, hgood⟩ := probeGo_good (v := v) start rfl (Nat.zero_add r.ents.length)
    refine ⟨row, r, hrow, by simpa using hno, hblob, by simpa using hcoh, hsize, hents, ?_, hgood, ?_⟩
    · rw [hbad, Nat.zero_add]
    · rw [hspans, nil_append]
  next => simp at h

theorem cutProbeRun_probes {d : Delivery} {row : Row} (hans : d.answers.probe = true)
    (hrow : v.row d.id = some row) (hno : noRecipe row = false) (hblob : row.blob = .ast r)
    (hcoh : recipeCoherence d.name row r = .ok) : (cutProbeRun v d).isSome = true := by
  rw [cutProbeRun, if_pos hans, hrow, bind_some, if_neg (by simp [hno]), hblob]
  dsimp only
  rw [if_neg (by simp [hcoh])]
  rfl

end Probe

section Tiles

/-- A recipe that passes the check covers the file: the lengths add up to the size, and no entry starts before the
end of the one before it. -/
theorem coherenceGo_tiles {size p : Nat} {prev : Option Nat} {cov : UInt64} (h : coherenceGo size es prev cov = .ok)
    (hprev : prev.getD 0 = p) (hcov : cov.toNat ≤ p) (hp : p ≤ size) : cov.toNat = p ∧ Tiles lo hi p size es := by
  induction es generalizing prev cov p with
  | nil =>
    rw [coherenceGo] at h
    split_ifs at h with hsum
    exact ⟨by omega, by rw [Tiles]; omega⟩
  | cons e es ih =>
    rw [coherenceGo] at h
    split_ifs at h with hin hover hwrap
    simp only [inBounds, Bool.decide_and, Bool.and_eq_true, decide_eq_true_eq] at hin
    obtain ⟨-, hhi, hle⟩ := hin
    have hplo : p ≤ e.lo := by
      cases prev <;> simp_all
      omega
    have hlen := hi_eq hle
    have hsum : (cov + e.length).toNat = cov.toNat + e.len := by
      rw [UInt64.lt_iff_toNat_lt, UInt64.toNat_add] at hwrap
      have h2 := e.length.toNat_lt
      rw [UInt64.toNat_add]
      unfold len
      omega
    obtain ⟨heq, htiles⟩ := ih h rfl (by simp only [getD_some]; omega) hhi
    simp only [getD_some] at heq htiles
    exact ⟨by omega, by omega, by omega, htiles⟩

theorem lengths_tiles {p q : Nat} {acc : UInt64} (h : Tiles lo hi p q es) (hacc : acc.toNat = p) :
    ((es.map Entry.length).foldl (· + ·) acc).toNat = q := by
  induction es generalizing p acc with
  | nil => exact hacc.trans h
  | cons e es ih =>
    obtain ⟨hlo, -, hrest⟩ := h
    obtain rfl : acc = e.fileOffset := UInt64.toNat_inj.mp (hacc.trans hlo.symm)
    exact ih hrest rfl

end Tiles

section Read

theorem plain_of_survives (h : (survives v e).isSome = true) : plain e = true := by
  unfold survives at h
  split_ifs at h with hp
  · exact hp
  · simp at h

theorem decodeEntry_plain {range : Nat → Nat → Nat → Option (List Cell)} (h : plain e = true) :
    decodeEntry v range sib i r e = (survives v e).map fun bs => (e.lo, bs.map some) := by
  have hown : segmentBytes v sib i e = survives v e := segmentBytes_own h
  simp only [plain, decide_eq_true_eq] at h
  obtain ⟨hzone, halgo, -⟩ := h
  have hfull : ((survives v e).map fun bs => (e.lo, behind e.len bs)) =
      (survives v e).map fun bs => (e.lo, bs.map some) := by
    cases hs : survives v e with
    | none => rfl
    | some bs => rw [map_some, map_some, behind_full (survives_length hs)]
  rw [← hfull]
  unfold decodeEntry
  rw [hown]
  obtain halgo | halgo | halgo := halgo <;> simp [halgo, hzone]

theorem mem_kept (h : e ∈ kept v es) : e ∈ es ∧ (survives v e).isSome = true :=
  ⟨(takeWhile_sublist _).subset h, mem_takeWhile_imp (p := fun e => (survives v e).isSome) h⟩

variable {row : Row}

def cutRow (v : Vol) (row : Row) (r : Recipe) : Row :=
  { row with
    size := (held v r.ents).length
    blob := .ast ⟨(held v r.ents).length, kept v r.ents, .none⟩ }

theorem kept_tiles (h : Tiles Entry.lo Entry.hi 0 row.size r.ents) :
    Tiles Entry.lo Entry.hi 0 (lengths (kept v r.ents)).toNat (kept v r.ents) := by
  have happ : r.ents = kept v r.ents ++ r.ents.dropWhile fun e => (survives v e).isSome :=
    takeWhile_append_dropWhile.symm
  rw [happ] at h
  obtain ⟨m, hm, -⟩ := tiles_append.mp h
  rwa [lengths, lengths_tiles hm rfl]

theorem decoded_kept (range : Nat → Nat → Nat → Option (List Cell)) (sib : String → Option (List Byte))
    (r' : Recipe) (es : List Entry) : ∀ e ∈ kept v es, decodeEntry v range sib i r' e =
      some (e.lo, ((survives v e).getD []).map some) ∧ ((survives v e).getD []).length = e.len := by
  intro e he
  obtain ⟨-, hs⟩ := mem_kept he
  obtain ⟨bs, hbs⟩ := isSome_iff_exists.mp hs
  rw [decodeEntry_plain (plain_of_survives hs), hbs]
  exact ⟨rfl, survives_length hbs⟩

theorem held_length (h : Tiles Entry.lo Entry.hi 0 row.size r.ents) :
    (held v r.ents).length = (lengths (kept v r.ents)).toNat := by
  have hdec := decoded_kept (v := v) (i := 0) (fun _ _ _ => none) (fun _ => none) r r.ents
  obtain ⟨d, -, -, hcells⟩ := decodeAll_tiles (kept_tiles h) hdec fun _ => none
  have hlen := congrArg List.length hcells
  rw [length_map, length_range', length_map] at hlen
  exact hlen.symm

theorem readInode_cutRow (h : Tiles lo hi 0 row.size r.ents) (htype : row.type = .file) (hpos : held v r.ents ≠ [])
    (hrow : v.row i = some (cutRow v row r)) (n : Nat) : v.readInode (n + 1) i = some ((held v r.ents).map some) := by
  have htiles := kept_tiles (v := v) h
  rw [← held_length h] at htiles
  have hlaid := tiles_laid htiles
  have hsize : (cutRow v row r).size ≠ 0 := by simpa [cutRow] using hpos
  rw [readInode_entries hrow rfl, if_neg hsize, if_neg (by simp [cutRow, htype]), decodeEntries,
    if_neg (by simpa using hlaid)]
  obtain ⟨d, hd, -, hcells⟩ := decodeAll_tiles htiles (decoded_kept _ _ _ _) fun _ => none
  rw [hd, range_eq_range']
  exact congrArg some hcells

def Torn (v : Vol) (r : Recipe) : Prop :=
  ∃ e ∈ r.ents, plain e = true ∧ survives v e = none ∨
    e.zone = .text ∧ batchAlgo e.algo = true ∧ v.textSlice e 0 e.len = none

theorem readInode_torn (hrow : v.row i = some row) (hblob : row.blob = .ast r)
    (hpos : row.size ≠ 0) (h : Torn v r) (n : Nat) : v.readInode n i = none := by
  obtain ⟨e, he, h⟩ := h
  cases n with
  | zero => rfl
  | succ n =>
    cases hread : v.readInode (n + 1) i with
    | none => rfl
    | some d =>
      obtain ⟨-, -, -, D, hD, -⟩ := readInode_ast hrow hblob hpos hread
      rw [decodeAll_none he] at hD
      · simp at hD
      · obtain ⟨hp, hs⟩ | ⟨hzone, halgo, hslice⟩ := h
        · rw [decodeEntry_plain hp, hs]
          rfl
        · have hchild : e.algo ≠ .child := fun hc => by simp [hc, batchAlgo] at halgo
          rw [decodeEntry, if_neg hchild, if_pos ⟨hzone, halgo⟩, hslice]
          rfl

end Read

section Step

variable {s : St} {d : Delivery} {dry : Bool} {row : Row} {p : Probe}

theorem cutProbed_vol {rep : Report} : (cutProbed n dry v rep d p).vol = v ∨
    dry = false ∧ p.goodPrefix ≠ 0 ∧ p.firstBad < p.ents.length ∧
      cutRewrite v d p = some (cutProbed n dry v rep d p).vol := by
  unfold cutProbed
  split
  · exact .inl rfl
  next bad hbad =>
    have hlt : p.firstBad < p.ents.length := (List.getElem?_eq_some_iff.mp hbad).1
    by_cases hz : p.goodPrefix = 0
    · rw [if_pos hz]
      exact .inl rfl
    rw [if_neg hz]
    cases dry with
    | true => exact .inl rfl
    | false =>
      rw [if_neg (by simp)]
      cases hw : cutRewrite v d p with
      | none => exact .inl rfl
      | some w =>
        refine .inr ⟨rfl, hz, hlt, ?_⟩
        dsimp only
        split_ifs <;> rfl

theorem cutRewrite_some (h : cutRewrite v d p = some w) (hrow : v.row d.id = some row) :
    w = setRow v d.id { row with
      size := p.goodPrefix.toNat
      blob := .ast ⟨p.goodPrefix.toNat, p.ents.take p.firstBad, .none⟩ } := by
  unfold cutRewrite at h
  split_ifs at h
  · rw [hrow] at h
    exact (some.inj h).symm
  all_goals simp at h

theorem take_kept (es : List Entry) : es.take (kept v es).length = kept v es :=
  (prefix_iff_eq_take.mp ( takeWhile_prefix _)).symm

/-- The pass does nothing for an inode, or it replaces the row of a file that does not read, whose recipe is
coherent and has a kept part. -/
theorem cutWalkCb_vol (n : Nat) (dry : Bool) (s : St) (d : Delivery) : (cutWalkCb n dry s d).vol = s.vol ∨
    dry = false ∧ s.vol.readInode n d.id = none ∧ ∃ row r, s.vol.row d.id = some row ∧
      noRecipe row = false ∧ row.blob = .ast r ∧ recipeCoherence d.name row r = .ok ∧
      lengths (kept s.vol r.ents) ≠ 0 ∧ (kept s.vol r.ents).length < r.ents.length ∧
      (cutWalkCb n dry s d).vol = setRow s.vol d.id { row with
        size := (lengths (kept s.vol r.ents)).toNat
        blob := .ast ⟨(lengths (kept s.vol r.ents)).toNat, kept s.vol r.ents, .none⟩ } := by
  unfold cutWalkCb
  split
  · exact .inl rfl
  · split_ifs with hno hread
    · exact .inl rfl
    · exact .inl rfl
    · split
      · exact .inl rfl
      next p hp =>
        obtain hsame | ⟨hdry, hz, hlt, hw⟩ := cutProbed_vol (v := s.vol) (p := p)
        · exact .inl hsame
        obtain ⟨row, r, hrow, hno', hblob, hcoh, -, hents, hbad, hgood, -⟩ := cutProbeRun_some hp
        refine .inr ⟨hdry, by simpa using hread, row, r, hrow, hno', hblob, hcoh, by rwa [← hgood],
          by rwa [← hbad, ← hents], ?_⟩
        rw [cutRewrite_some hw hrow, hgood, hbad, hents, take_kept]

/-- A file that the pass may cut: its recipe is coherent with its row, and some but not all of its
entries are kept. -/
structure Cuttable (v : Vol) (row : Row) (r : Recipe) : Prop where
  type : row.type = .file
  size : row.size ≠ 0
  blob : row.blob = .ast r
  coherent : recipeCoherence none row r = .ok
  nonempty : kept v r.ents ≠ []
  less : (kept v r.ents).length < r.ents.length

theorem noRecipe_false : noRecipe row = false ↔ row.type = .file ∧ row.size ≠ 0 ∧ row.blob ≠ .zero := by
  cases htype : row.type <;> simp [noRecipe, htype]

theorem coherence_name {name : Option (List Byte)} (h : engineName name = false) :
    recipeCoherence name row r = recipeCoherence none row r := by
  have hnone : engineName none = false := rfl
  simp only [recipeCoherence, h, hnone]

theorem coherent_tiles (h : recipeCoherence none row r = .ok) :
    r.size = row.size ∧ Tiles lo hi 0 row.size r.ents := by
  simp only [recipeCoherence, engineName, Bool.false_eq_true, if_false] at h
  split_ifs at h with hsize
  rw [not_not] at hsize
  exact ⟨hsize, hsize ▸ (coherenceGo_tiles h rfl (Nat.zero_le _) (Nat.zero_le _)).2⟩

theorem held_pos (h : kept v r.ents ≠ []) : held v r.ents ≠ [] := by
  obtain ⟨e, he⟩ := exists_mem_of_ne_nil _ h
  obtain ⟨-, hs⟩ := mem_kept he
  obtain ⟨bs, hbs⟩ := isSome_iff_exists.mp hs
  have hp := plain_of_survives hs
  simp only [plain, decide_eq_true_eq] at hp
  have hlen := survives_length hbs
  intro hnil
  have hb := flatMap_eq_nil_iff.mp hnil e he
  rw [hbs, getD_some] at hb
  rw [hb, length_nil] at hlen
  omega

theorem Cuttable.reads (h : Cuttable v row r) (hrow : v.row i = some (cutRow v row r)) (n : Nat) :
    v.readInode (n + 1) i = some ((held v r.ents).map some) :=
  readInode_cutRow (coherent_tiles h.coherent).2 h.type (held_pos h.nonempty) hrow n

def Same (v w : Vol) : Prop := w = { v with row := w.row }

theorem Same.survives (h : Same v w) : survives w = survives v := by
  rw [h]
  rfl

theorem Same.kept (h : Same v w) : kept w = kept v := by
  unfold CutPrefix.kept
  rw [h.survives]

theorem Same.held (h : Same v w) : held w = held v := by
  unfold CutPrefix.held
  rw [h.survives, h.kept]

theorem Same.cuttable (h : Same v w) : Cuttable w row r ↔ Cuttable v row r := by
  constructor
  · rintro ⟨h1, h2, h3, h4, h5, h6⟩
    rw [h.kept] at h5 h6
    exact ⟨h1, h2, h3, h4, h5, h6⟩
  · rintro ⟨h1, h2, h3, h4, h5, h6⟩
    rw [← h.kept] at h5 h6
    exact ⟨h1, h2, h3, h4, h5, h6⟩

theorem Same.cutRow (h : Same v w) : cutRow w row r = cutRow v row r := by
  unfold CutPrefix.cutRow
  rw [h.held, h.kept]

/-- What the pass may have made of the file `i` of `v`. -/
def CutTo (v w : Vol) (i : Nat) : Prop :=
  ∃ row r, v.row i = some row ∧ Cuttable v row r ∧ w.row i = some (cutRow v row r)

theorem cutRow_reads (hs : Same v w) (hc : Cuttable v row r) (hw : w.row i = some (cutRow v row r))
    (n : Nat) : w.readInode (n + 1) i = some ((held v r.ents).map some) := by
  rw [← hs.cutRow] at hw
  rw [(hs.cuttable.mpr hc).reads hw n, hs.held]

theorem cutWalkCb_row (n : Nat) (dry : Bool) (s : St) (hname : engineName d.name = false) :
    (cutWalkCb n dry s d).vol = s.vol ∨ dry = false ∧ s.vol.readInode n d.id = none ∧
      ∃ row r, s.vol.row d.id = some row ∧ Cuttable s.vol row r ∧
        (cutWalkCb n dry s d).vol = setRow s.vol d.id (cutRow s.vol row r) := by
  obtain hsame | ⟨hdry, hread, row, r, hrow, hno, hblob, hcoh, hz, hlt, hvol⟩ := cutWalkCb_vol n dry s d
  · exact .inl hsame
  rw [coherence_name hname] at hcoh
  obtain ⟨htype, hsize, -⟩ := noRecipe_false.mp hno
  have hkept : kept s.vol r.ents ≠ [] := fun h => hz (by rw [h]; rfl)
  refine .inr ⟨hdry, hread, row, r, hrow, ⟨htype, hsize, hblob, hcoh, hkept, hlt⟩, ?_⟩
  rw [hvol, cutRow, held_length (coherent_tiles hcoh).2]

theorem cutWalkCb_cuts (hname : engineName d.name = false) (hans : d.answers = ⟨true, true, true, true, true⟩)
    (hrow : s.vol.row d.id = some row) (hc : Cuttable s.vol row r) (hread : s.vol.readInode n d.id = none) :
    (cutWalkCb n false s d).vol = setRow s.vol d.id (cutRow s.vol row r) := by
  have hno : noRecipe row = false := noRecipe_false.mpr ⟨hc.type, hc.size, by simp [hc.blob]⟩
  have hcoh : recipeCoherence d.name row r = .ok := (coherence_name hname).trans hc.coherent
  have hlen := held_length (v := s.vol) (coherent_tiles hc.coherent).2
  have hz : lengths (kept s.vol r.ents) ≠ 0 := fun h => by
    rw [h] at hlen
    exact held_pos hc.nonempty (length_eq_zero_iff.mp hlen)
  obtain ⟨p, hp⟩ := isSome_iff_exists.mp (cutProbeRun_probes (by rw [hans]) hrow hno hc.blob hcoh)
  obtain ⟨row', r', hrow', -, hblob', -, -, hents, hbad, hgood, -⟩ := cutProbeRun_some hp
  obtain rfl := some.inj (hrow.symm.trans hrow')
  obtain rfl := Blob.ast.inj (hc.blob.symm.trans hblob')
  have hrew : cutRewrite s.vol d p = some (setRow s.vol d.id (cutRow s.vol row r)) := by
    rw [cutRewrite, hans, if_neg (by simp), if_pos rfl, hrow, bind_some, if_neg (by simp),
      hgood, hbad, hents, take_kept, cutRow, hlen]
  rw [cutWalkCb, if_pos (by rw [hans]), hrow]
  dsimp only
  rw [if_neg (by simp [hno]), if_neg (by simp [hread]), hp]
  dsimp only
  rw [cutProbed, hbad, hents, getElem?_eq_getElem hc.less]
  dsimp only
  rw [hgood, if_neg hz, if_neg (by simp), hrew]
  dsimp only
  split_ifs <;> rfl

end Step

section Run

variable {s : St} {d : Delivery} {dry : Bool} {row : Row} {ds : List Delivery}

theorem same_refl : Same v v := rfl

theorem Same.step (h : Same v s.vol) : Same v (cutWalkCb n dry s d).vol := by
  obtain hsame | ⟨-, -, row, r, -, -, -, -, -, -, hvol⟩ := cutWalkCb_vol n dry s d
  · rwa [hsame]
  · rw [hvol, h]
    rfl

theorem Same.run (h : Same v s.vol) : Same v (ds.foldl (cutWalkCb n dry) s).vol := by
  induction ds generalizing s with
  | nil => exact h
  | cons d ds ih => exact ih h.step

theorem step_other (h : d.id ≠ i) : (cutWalkCb n dry s d).vol.row i = s.vol.row i := by
  obtain hsame | ⟨-, -, row, r, -, -, -, -, -, -, hvol⟩ := cutWalkCb_vol n dry s d
  · rw [hsame]
  · rw [hvol]
    exact update_of_ne (Ne.symm h) _ _

theorem step_readable (h : (s.vol.readInode n d.id).isSome = true) : (cutWalkCb n dry s d).vol = s.vol := by
  obtain hsame | ⟨-, hread, -⟩ := cutWalkCb_vol n dry s d
  · exact hsame
  · simp [hread] at h

theorem CutTo.step (hs : Same v s.vol) (h : CutTo v s.vol i) : CutTo v (cutWalkCb (n + 1) dry s d).vol i := by
  by_cases hid : d.id = i
  · obtain ⟨row, r, hrow, hc, hw⟩ := h
    rw [step_readable (by rw [hid, cutRow_reads hs hc hw n]; rfl)]
    exact ⟨row, r, hrow, hc, hw⟩
  · obtain ⟨row, r, hrow, hc, hw⟩ := h
    exact ⟨row, r, hrow, hc, (step_other hid).trans hw⟩

theorem CutTo.run (hs : Same v s.vol) (h : CutTo v s.vol i) : CutTo v (ds.foldl (cutWalkCb (n + 1) dry) s).vol i := by
  induction ds generalizing s with
  | nil => exact h
  | cons d ds ih => exact ih hs.step (h.step hs)

theorem left_step (hname : d.id = i → engineName d.name = false) (hs : Same v s.vol) (h : s.vol.row i = v.row i) :
    (cutWalkCb n dry s d).vol.row i = v.row i ∨ CutTo v (cutWalkCb n dry s d).vol i := by
  by_cases hid : d.id = i
  · obtain hsame | ⟨-, -, row, r, hrow, hc, hvol⟩ := cutWalkCb_row n dry s (hname hid)
    · rw [hsame]
      exact .inl h
    · subst hid
      refine .inr ⟨row, r, h ▸ hrow, hs.cuttable.mp hc, ?_⟩
      rw [hvol, hs.cutRow]
      exact update_self _ _ _
  · rw [step_other hid]
    exact .inl h

section

variable (hname : ∀ d ∈ ds, d.id = i → engineName d.name = false)

include hname

theorem left_run (hs : Same v s.vol)
    (h : s.vol.row i = v.row i ∨ CutTo v s.vol i) : (ds.foldl (cutWalkCb (n + 1) dry) s).vol.row i = v.row i ∨
      CutTo v (ds.foldl (cutWalkCb (n + 1) dry) s).vol i := by
  induction ds generalizing s with
  | nil => exact h
  | cons d ds ih =>
    refine ih (fun x hx => hname x (by simp [hx])) hs.step ?_
    obtain h | h := h
    · exact left_step (hname d (by simp)) hs h
    · exact .inr (h.step hs)

theorem torn_run (hd : d ∈ ds) (hid : d.id = i) (hans : d.answers = ⟨true, true, true, true, true⟩)
    (hs : Same v s.vol) (hrow : v.row i = some row) (hc : Cuttable v row r) (htorn : Torn v r)
    (h : s.vol.row i = v.row i ∨ CutTo v s.vol i) : CutTo v (ds.foldl (cutWalkCb (n + 1) false) s).vol i := by
  induction ds generalizing s with
  | nil => simp at hd
  | cons x xs ih =>
    rw [foldl_cons]
    obtain h | h := h
    · obtain rfl | hd := mem_cons.mp hd
      · have hrow' : s.vol.row d.id = some row := by rw [hid, h, hrow]
        have htorn' : Torn s.vol r := by
          rw [hs]
          exact htorn
        have hcut := cutWalkCb_cuts (n := n + 1) (hname d (by simp) hid) hans hrow'
          (hs.cuttable.mpr hc) (readInode_torn hrow' hc.blob hc.size htorn' _)
        have hnew : CutTo v (cutWalkCb (n + 1) false s d).vol i := by
          refine ⟨row, r, hrow, hc, ?_⟩
          rw [hcut, hs.cutRow, hid]
          exact update_self _ _ _
        exact hnew.run hs.step
      · exact ih (fun y hy => hname y (by simp [hy])) hd hs.step (left_step (hname x (by simp)) hs h)
    · exact (h.step hs).run hs.step

end

theorem dry_run : (ds.foldl (cutWalkCb n true) s).vol = s.vol := by
  induction ds generalizing s with
  | nil => rfl
  | cons d ds ih =>
    obtain hsame | ⟨hdry, -⟩ := cutWalkCb_vol n true s d
    · exact ih.trans hsame
    · simp at hdry

end Run

theorem apart_run {S : Set Nat} (h : Apart v S) (hread : ∀ j ∈ S, (v.readInode n j).isSome = true) {s : St}
    {dry : Bool} {ds : List Delivery} (hs : Same v s.vol) (hrow : ∀ j ∈ S, s.vol.row j = v.row j) :
    ∀ j ∈ S, (ds.foldl (cutWalkCb n dry) s).vol.row j = v.row j := by
  induction ds generalizing s with
  | nil => exact hrow
  | cons d ds ih =>
    refine ih hs.step fun j hj => ?_
    by_cases hid : d.id = j
    · have hsome : (s.vol.readInode n d.id).isSome = true := by
        rw [hid, hs, h.readInode hrow n j hj]
        exact hread j hj
      rw [step_readable hsome, hrow j hj]
    · rw [step_other hid, hrow j hj]

theorem contentCut_vol {readonly dry walked : Bool} {ds : List Delivery} {s : St} :
    (contentCut n readonly dry walked ds s).2.vol =
      if readonly then s.vol else (ds.foldl (cutWalkCb n dry) ⟨s.vol, {}⟩).vol := by
  unfold contentCut
  split_ifs <;> rfl

/-- The pass changes rows only, and none in a dry run or on a read-only volume. It leaves a row as it is, or
cuts the file to the entries before the first one that does not survive, and then exactly their bytes are read.
Every torn file that the walk delivers and that has such entries is cut. Files that read, alone or with those
they take bytes from, stay, and so do reads that need no file that is cut. -/
theorem content_cut_prefix (n : Nat) (readonly dry walked : Bool) (ds : List Delivery) (s : St) :
    let v := s.vol
    let w := (contentCut (n + 1) readonly dry walked ds s).2.vol
    ((readonly = true ∨ dry = true) → w = v) ∧ w = { v with row := w.row } ∧
    (∀ i, (∀ d ∈ ds, d.id = i → engineName d.name = false) →
      (w.row i = v.row i ∨ ∃ row r, v.row i = some row ∧ Cuttable v row r ∧
        w.row i = some { row with
          size := (held v r.ents).length
          blob := .ast ⟨(held v r.ents).length, kept v r.ents, .none⟩ } ∧
        ∀ m, w.readInode (m + 1) i = some ((held v r.ents).map some)) ∧
      ∀ d ∈ ds, d.id = i → d.answers = ⟨true, true, true, true, true⟩ → readonly = false →
        dry = false → ∀ row r, v.row i = some row → Cuttable v row r → Torn v r →
          ∀ m, w.readInode (m + 1) i = some ((held v r.ents).map some)) ∧
    ∀ S, Apart v S →
      ((∀ j ∈ S, (v.readInode (n + 1) j).isSome = true) → ∀ j ∈ S, w.row j = v.row j) ∧
      ((∀ j ∈ S, w.row j = v.row j) → ∀ m, ∀ j ∈ S, w.readInode m j = v.readInode m j) := by
  intro v w
  have hw : w = if readonly then v else (ds.foldl (cutWalkCb (n + 1) dry) ⟨v, {}⟩).vol :=
    contentCut_vol
  have hsame : Same v w := by
    rw [hw]
    split_ifs
    · exact same_refl
    · exact Same.run same_refl
  refine ⟨?_, hsame, fun i hname => ⟨?_, ?_⟩, fun S hS => ⟨?_, fun hrow m j hj => ?_⟩⟩
  · rintro (rfl | rfl)
    · exact hw
    · rw [hw, dry_run, ite_self]
  · have hleft : w.row i = v.row i ∨ CutTo v w i := by
      rw [hw]
      split_ifs
      · exact .inl rfl
      · exact left_run hname same_refl (.inl rfl)
    obtain h | ⟨row, r, hrow, hc, hcut⟩ := hleft
    · exact .inl h
    · exact .inr ⟨row, r, hrow, hc, hcut, cutRow_reads hsame hc hcut⟩
  · rintro d hd hid hans rfl rfl row r hrow hc htorn m
    have hcut : CutTo v w i := by
      exact torn_run hname hd hid hans same_refl hrow hc htorn (.inl rfl)
    obtain ⟨row', r', hrow', hc', hcut⟩ := hcut
    obtain rfl := some.inj (hrow.symm.trans hrow')
    obtain rfl := Blob.ast.inj (hc.blob.symm.trans hc'.blob)
    exact cutRow_reads hsame hc hcut m
  · intro hread
    rw [hw]
    split_ifs
    · exact fun _ _ => rfl
    · exact apart_run hS hread same_refl fun _ _ => rfl
  · rw [hsame]
    exact hS.readInode hrow m j hj

/-- One file, of whole segments of one byte. The segment in block 1 holds a byte, that in block 2
has no frame. -/
def tornVol (es : List Entry) : Vol where
  codecs := bareCodecs
  total := 3
  dev k := if k = 4096 then 1 else if k = 4104 then 7 else 0
  row i := if i = 5 then some ⟨.file, es.length, .ast ⟨es.length, es, .none⟩, { mode := 0o644 }⟩ else none
  named _ := true
  sibling _ _ := none

def tornDelivery : Delivery := ⟨5, some [97], ⟨true, true, true, true, true⟩⟩

/-- The second of two segments is torn: the file is cut to the first one. -/
theorem content_cut_prefix_torn : let v := tornVol [⟨0, 1, .raw, .none, 0, 0, 1⟩, ⟨1, 1, .raw, .none, 1, 0, 2⟩]
    v.readInode 1 5 = none ∧
    (contentCut 1 false false true [tornDelivery] ⟨v, {}⟩).2.vol.readInode 1 5 = some [some 7] := by
  intro v
  let r : Recipe := ⟨2, [⟨0, 1, .raw, .none, 0, 0, 1⟩, ⟨1, 1, .raw, .none, 1, 0, 2⟩], .none⟩
  have hc : Cuttable v ⟨.file, 2, .ast r, { mode := 0o644 }⟩ r :=
    ⟨rfl, by decide, rfl, by decide +kernel, by decide +kernel, by decide +kernel⟩
  have htorn : Torn v r := ⟨⟨1, 1, .raw, .none, 1, 0, 2⟩, by simp [r], .inl ⟨by decide +kernel, by decide +kernel⟩⟩
  have hheld : (held v r.ents).map some = [some 7] := by decide +kernel
  have hcut := content_cut_prefix 0 false false true [tornDelivery] ⟨v, {}⟩
  refine ⟨readInode_torn (i := 5) rfl hc.blob hc.size htorn 1, ?_⟩
  rw [← hheld]
  exact (hcut.2.2.1 5 (by decide)).2 tornDelivery (by simp) rfl rfl rfl rfl _ r rfl hc htorn 0

/-- A file whose first segment is torn keeps its size and does not read. -/
theorem torn_start_left : ∃ (v : Vol) (r : Recipe), v.row 5 = some ⟨.file, r.size, .ast r, { mode := 0o644 }⟩ ∧
    recipeCoherence none ⟨.file, r.size, .ast r, { mode := 0o644 }⟩ r = .ok ∧ Torn v r ∧ held v r.ents = [] ∧
    ∀ n m, (contentCut n false false true [tornDelivery] ⟨v, {}⟩).2.vol.readInode m 5 ≠
      some ((held v r.ents).map some) ∧ v.readInode m 5 = none := by
  let e : Entry := ⟨0, 1, .raw, .none, 0, 0, 2⟩
  have hkept : kept (tornVol [e]) [e] = [] := by decide +kernel
  have htorn : Torn (tornVol [e]) ⟨1, [e], .none⟩ :=
    ⟨e, by simp, .inl ⟨by decide +kernel, by decide +kernel⟩⟩
  have hrow : (tornVol [e]).row 5 = some ⟨.file, 1, .ast ⟨1, [e], .none⟩, { mode := 0o644 }⟩ := rfl
  have hnone : ∀ m, (tornVol [e]).readInode m 5 = none := fun m =>
    readInode_torn hrow rfl (by decide) htorn m
  refine ⟨tornVol [e], ⟨1, [e], .none⟩, rfl, by decide +kernel, htorn, by simp [held, hkept],
    fun n m => ⟨?_, hnone m⟩⟩
  have hsame : (cutWalkCb n false ⟨tornVol [e], {}⟩ tornDelivery).vol = tornVol [e] := by
    obtain h | ⟨-, -, row, r, hrow, hc, -⟩ :=
      cutWalkCb_row (d := tornDelivery) n false ⟨tornVol [e], {}⟩ rfl
    · exact h
    · obtain rfl : row = ⟨.file, 1, .ast ⟨1, [e], .none⟩, { mode := 0o644 }⟩ := (some.inj hrow).symm
      obtain rfl : r = ⟨1, [e], .none⟩ := (Blob.ast.inj hc.blob).symm
      exact absurd hkept hc.nonempty
  rw [contentCut_vol, if_neg (by simp), foldl_cons, foldl_nil, hsame, hnone m]
  simp

end InvariantFs.CutPrefix
