import InvariantFs.BtreeDamage
import InvariantFs.BtreeRoom
import InvariantFs.ExciseSafety

namespace InvariantFs.BtreeTolerant

open ByteCodec BtreePage BtreeSplit Btree SortedMap SepChain BtreeShape BtreeRead BtreeCheck BtreeMap BtreeExcise
  BtreeDamage Nat Prod
open BtreeWrite BtreeRow BtreeInsert
open ExciseSafety (rangeHas quarantineHas)
open List hiding after span
open Option

/-- `bt_ck` with the fields of the tolerant walk. -/
structure Tol where
  ck : Ck
  bad : Nat
  q : Quarantine
  err : Option CheckErr

/-- `bt_ck_err`: the first message stays. -/
def Tol.note (s : Tol) (e : CheckErr) : Tol := { s with err := s.err.or (some e) }

def quarantineMax : Nat := 64

/-- `bt_ck_quarantine_add`, and what its caller makes of a range that cannot be recorded. -/
def quarantineAdd (q : Quarantine) (r : Range) : Quarantine :=
  if quarantineMax ≤ q.ranges.length ∨ keyMax < r.lo.length ∨ keyMax < r.hi.length then { q with qfull := true }
  else { q with ranges := q.ranges ++ [r] }

def Tol.enter (s : Tol) (p : UInt64) : Tol :=
  { s with ck := { s.ck with seen := p :: s.ck.seen, pages := s.ck.pages + 1 } }

def Tol.lost (s : Tol) (lo hi : Key) : Tol :=
  { s.note .unreadable with bad := s.bad + 1, q := quarantineAdd s.q ⟨lo, hi⟩ }

def tolKids (rec : Ptr → Key → Key → Tol → Except Tol Tol) (hi : Key) : List Ent → Tol → Except Tol Tol
  | [], s => .ok s
  | e :: es, s => do
    let s ← rec e.child e.k ((es.head?.map Ent.k).getD hi) s
    tolKids rec hi es s

variable (crc : List Byte → UInt32)

/-- `bt_check_tol_rec`. A failure comes with the state it was met in. -/
def checkTolRec (v : Vol) : Nat → Ptr → Option Nat → Key → Key → Nat → Tol → Except Tol Tol
  | 0, _, _, _, _, _, s => .error (s.note .level)
  | fuel + 1, p, expect, lo, hi, depth, s =>
    if p.pba = 0 ∨ v.total ≤ p.pba then .error (s.note .childRange)
    else if p.pba ∈ s.ck.seen then .error (s.note .shared)
    else
      let s := s.enter p.pba
      match readNode crc v p with
      | none => .ok (s.lost lo hi)
      | some (level, es) =>
        if ∃ x ∈ expect, level ≠ x then .error (s.note .level)
        else if level = 0 then
          if s.ck.height ≠ 0 ∧ s.ck.height ≠ depth then .error (s.note .depth)
          else
            let s := { s with ck := { s.ck with height := depth } }
            if es = [] then .error (s.note .emptyLeaf)
            else
              match checkKeys .leafOrder .leafLow .leafHigh lo hi none es with
              | .error e => .error (s.note e)
              | .ok _ => .ok { s with ck := { s.ck with keys := s.ck.keys + es.length } }
        else if es.length < 2 then .error (s.note .fewChildren)
        else
          match checkKeys .sepOrder .sepLow .sepHigh lo hi none es with
          | .error e => .error (s.note e)
          | .ok _ =>
            tolKids (fun q lo hi s => checkTolRec v fuel q (some (level - 1)) lo hi (depth + 1) s) hi es s

/-- `btree_check_tolerant`: the return code with the statistics and the quarantine. -/
def checkTolerant (v : Vol) (root : Ptr) : Int × Tol :=
  let s : Tol := ⟨⟨[], 0, 0, 0⟩, 0, ⟨[], false⟩, none⟩
  if root.pba = 0 then (0, s)
  else
    match checkTolRec crc v (maxLevels + 1) root none [] [] 1 s with
    | .ok s => (0, s)
    | .error s => (-1, s)

def Met (v : Vol) : (h : Nat) → Item h → Prop
  | 0, _ => True
  | h + 1, t =>
    (if t.2 = [] then readNode crc v t.1 = none else readNode crc v t.1 = some (h, t.2.map (entOf h))) ∧
      ∀ r ∈ t.2, Met v h r.2

/-- What the walk has recorded on its way: the missing ranges, one for each bad page. -/
def Grew (s s' : Tol) (gs : List (Key × WithTop Key)) : Prop :=
  s'.bad = s.bad + gs.length ∧ ∃ rs : List Range, rs.map span = gs ∧ s'.q = rs.foldl quarantineAdd s.q

def Link (v : Vol) (p q : Ptr) : Prop :=
  ∃ level es, readNode crc v p = some (level, es) ∧ level ≠ 0 ∧ ∃ e ∈ es, e.child = q

def Shows (v : Vol) (root : Ptr) (k : Key) : Prop :=
  ∃ p es, Relation.ReflTransGen (Link crc v) root p ∧ readNode crc v p = some (0, es) ∧ ∃ e ∈ es, e.k = k

structure Before (v v' : Vol) (root : Ptr) : Prop where
  accepted : ∃ ck, check crc v' root = .ok ck
  same : ∀ p n, Relation.ReflTransGen (Link crc v) root p → readNode crc v p = some n → readNode crc v' p = some n

variable {crc} {v : Vol}

theorem grew_refl (s : Tol) (ck : Ck) : Grew s { s with ck := ck } [] := ⟨rfl, [], rfl, rfl⟩

theorem grew_trans {s₁ s₂ s₃ : Tol} {gs hs : List (Key × WithTop Key)} (h : Grew s₁ s₂ gs) (h' : Grew s₂ s₃ hs) :
    Grew s₁ s₃ (gs ++ hs) := by
  obtain ⟨hb, rs, rfl, hq⟩ := h
  obtain ⟨hb', rs', rfl, hq'⟩ := h'
  refine ⟨?_, rs ++ rs', map_append, ?_⟩
  · rw [hb', hb, length_append, add_assoc]
  · rw [hq', hq, foldl_append]

variable {fuel depth : Nat} {expect : Option Nat} {s s' : Tol} {lo hi : Key} {p : Ptr}

theorem tolRec_step : checkTolRec crc v (fuel + 1) p expect lo hi depth s = .ok s' ↔
      p.pba ≠ 0 ∧ p.pba < v.total ∧ p.pba ∉ s.ck.seen ∧ (readNode crc v p = none ∧ s' = (s.enter p.pba).lost lo hi ∨
          ∃ level es, readNode crc v p = some (level, es) ∧ (∀ x ∈ expect, level = x) ∧
            (level = 0 ∧ (s.ck.height = 0 ∨ s.ck.height = depth) ∧ es ≠ [] ∧
                checkKeys .leafOrder .leafLow .leafHigh lo hi none es = .ok () ∧
                s' = { s with ck := after s.ck [p.pba] es.length depth } ∨
              level ≠ 0 ∧ 2 ≤ es.length ∧ checkKeys .sepOrder .sepLow .sepHigh lo hi none es = .ok () ∧
                tolKids (fun q lo hi s => checkTolRec crc v fuel q (some (level - 1)) lo hi (depth + 1) s) hi es
                  { s with ck := after s.ck [p.pba] 0 s.ck.height } = .ok s')) := by
  rw [checkTolRec, ite_error_ok, ite_error_ok, not_or, and_assoc, UInt64.not_le]
  refine and_congr_right fun _ => and_congr_right fun _ => and_congr_right fun _ => ?_
  cases hread : readNode crc v p with
  | none => simp [eq_comm]
  | some n =>
    obtain ⟨level, es⟩ := n
    simp only [reduceCtorEq, false_and, false_or, some.injEq, mk.injEq, and_assoc, exists_and_left,
      exists_eq_left', ite_error_ok]
    refine and_congr (by simp) ?_
    by_cases hleaf : level = 0
    · rw [if_pos hleaf, ite_error_ok, ite_error_ok, not_and_or, not_not, not_not]
      cases checkKeys .leafOrder .leafLow .leafHigh lo hi none es with
      | error e => simp [hleaf]
      | ok u => simp [hleaf, eq_comm, after, Tol.enter]
    · rw [if_neg hleaf, ite_error_ok, not_lt]
      cases checkKeys .sepOrder .sepLow .sepHigh lo hi none es with
      | error e => simp [hleaf]
      | ok u => simp [hleaf, after, Tol.enter]

variable {es : List Ent} {rec : Ptr → Key → Key → Tol → Except Tol Tol} {e : Ent}

theorem tolKids_cons : tolKids rec hi (e :: es) s = .ok s' ↔
      ∃ s₁, rec e.child e.k ((es.head?.map Ent.k).getD hi) s = .ok s₁ ∧ tolKids rec hi es s₁ = .ok s' := by
  rw [tolKids]
  cases rec e.child e.k ((es.head?.map Ent.k).getD hi) s with
  | error s₁ => simp [bind, Except.bind]
  | ok s₁ => simp [bind, Except.bind]

variable {ck ck' : Ck}

theorem checkKids_cons {rec : Ptr → Key → Key → Ck → Except CheckErr Ck} : checkKids rec hi (e :: es) ck = .ok ck' ↔
      ∃ ck₁, rec e.child e.k ((es.head?.map Ent.k).getD hi) ck = .ok ck₁ ∧ checkKids rec hi es ck₁ = .ok ck' := by
  rw [checkKids]
  cases rec e.child e.k ((es.head?.map Ent.k).getD hi) ck with
  | error err => simp [bind, Except.bind]
  | ok ck₁ => simp [bind, Except.bind]

theorem tolRec_of_check (h : checkRec crc v fuel p expect lo hi depth s.ck = .ok ck') :
    checkTolRec crc v fuel p expect lo hi depth s = .ok { s with ck := ck' } := by
  induction fuel generalizing p expect lo hi depth s ck' with
  | zero => simp [checkRec] at h
  | succ fuel ih =>
    obtain ⟨level, es, hread⟩ := checkRec_reads crc h
    obtain ⟨page, hpage, -⟩ := readNode_some crc hread
    obtain ⟨h0, hlt, -⟩ := readPage_some crc hpage
    obtain ⟨hseen, hexp, hcase⟩ := (checkRec_step crc hread).mp h
    refine tolRec_step.mpr ⟨h0, hlt, hseen, .inr ⟨level, es, hread, hexp, hcase.imp ?_ ?_⟩⟩
    · rintro ⟨h1, h2, h3, h4, rfl⟩
      exact ⟨h1, h2, h3, h4, rfl⟩
    · rintro ⟨hinner, htwo, hkeys, hkids⟩
      refine ⟨hinner, htwo, hkeys, ?_⟩
      have hloop : ∀ (es : List Ent) (s : Tol), checkKids (fun q lo hi ck =>
          checkRec crc v fuel q (some (level - 1)) lo hi (depth + 1) ck) hi es s.ck = .ok ck' →
          tolKids (fun q lo hi s => checkTolRec crc v fuel q (some (level - 1)) lo hi (depth + 1) s) hi es s =
            .ok { s with ck := ck' } := by
        intro es
        induction es with
        | nil =>
          rintro s hkids
          obtain rfl : s.ck = ck' := Except.ok.inj hkids
          rfl
        | cons e es ihs =>
          intro s hkids
          obtain ⟨ck1, hfirst, hrest⟩ := checkKids_cons.mp hkids
          exact tolKids_cons.mpr ⟨_, ih hfirst, ihs { s with ck := ck1 } hrest⟩
      exact hloop es { s with ck := after s.ck [p.pba] 0 s.ck.height } hkids

theorem check_of_tolRec (h : checkTolRec crc v fuel p expect lo hi depth s = .ok s') :
    s.bad ≤ s'.bad ∧ (s'.bad = s.bad → checkRec crc v fuel p expect lo hi depth s.ck = .ok s'.ck) := by
  induction fuel generalizing p expect lo hi depth s s' with
  | zero => simp [checkTolRec] at h
  | succ fuel ih =>
    obtain ⟨h0, hlt, hseen, ⟨-, rfl⟩ | ⟨level, es, hread, hexp, hcase⟩⟩ := tolRec_step.mp h
    · exact ⟨le_succ _, fun hb => absurd hb (succ_ne_self _)⟩
    have hloop : ∀ (es : List Ent) (s : Tol),
        tolKids (fun q lo hi s => checkTolRec crc v fuel q (some (level - 1)) lo hi (depth + 1) s) hi es s = .ok s' →
        s.bad ≤ s'.bad ∧ (s'.bad = s.bad → checkKids (fun q lo hi ck =>
          checkRec crc v fuel q (some (level - 1)) lo hi (depth + 1) ck) hi es s.ck = .ok s'.ck) := by
      intro es
      induction es with
      | nil =>
        intro s hkids
        obtain rfl : s = s' := Except.ok.inj hkids
        exact ⟨le_refl _, fun _ => rfl⟩
      | cons e es ihs =>
        intro s hkids
        obtain ⟨s1, hfirst, hrest⟩ := tolKids_cons.mp hkids
        obtain ⟨hle1, hck1⟩ := ih hfirst
        obtain ⟨hle2, hck2⟩ := ihs s1 hrest
        refine ⟨hle1.trans hle2, fun hb => checkKids_cons.mpr ⟨_, hck1 ?_, hck2 ?_⟩⟩
        · exact le_antisymm (hb ▸ hle2) hle1
        · exact le_antisymm (hb ▸ hle1) hle2
    obtain ⟨h1, h2, h3, h4, rfl⟩ | ⟨hinner, htwo, hkeys, hkids⟩ := hcase
    · refine ⟨le_refl _, fun _ => (checkRec_step crc hread).mpr ⟨hseen, hexp, .inl ⟨h1, h2, h3, h4, rfl⟩⟩⟩
    · obtain ⟨hle, hck⟩ := hloop es _ hkids
      exact ⟨hle, fun hb => (checkRec_step crc hread).mpr ⟨hseen, hexp, .inr ⟨hinner, htwo, hkeys, hck hb⟩⟩⟩

theorem accepts_iff (v : Vol) (root : Ptr) : (∃ ck, check crc v root = .ok ck) ↔
    (checkTolerant crc v root).1 = 0 ∧ (checkTolerant crc v root).2.bad = 0 := by
  unfold check checkTolerant
  by_cases h0 : root.pba = 0
  · simp [h0]
  simp only [if_neg h0]
  constructor
  · rintro ⟨ck, hck⟩
    rw [tolRec_of_check (s := ⟨⟨[], 0, 0, 0⟩, 0, ⟨[], false⟩, none⟩) hck]
    exact ⟨rfl, rfl⟩
  · cases h : checkTolRec crc v (maxLevels + 1) root none [] [] 1 ⟨⟨[], 0, 0, 0⟩, 0, ⟨[], false⟩, none⟩ with
    | error s => simp
    | ok s => exact fun hb => ⟨_, (check_of_tolRec h).2 hb.2⟩

variable {h : Nat}

theorem tolKids_sound
    (hrec : ∀ p (lo hi : Key) s s', (lo : WithTop Key) < hiOf hi → rec p lo hi s = .ok s' →
      ∃ t : Item (h + 1), t.1 = p ∧
      Met crc v (h + 1) t ∧ Fits (h + 1) lo (hiOf hi) t ∧ Grew s s' (gaps (h + 1) lo (hiOf hi) t))
    (hp : ∀ e ∈ es, Plain (h + 1) e) (hs : es.Pairwise fun a b => a.k < b.k)
    (hb : ∀ e ∈ es, (e.k : WithTop Key) < hiOf hi) (hok : tolKids rec hi es s = .ok s') :
    ∃ rs : List (Key × Item (h + 1)), es = rs.map (entOf (h + 1)) ∧ (∀ r ∈ rs, Met crc v (h + 1) r.2) ∧
      Chain (Fits (h + 1)) rs (hiOf hi) ∧ Grew s s' (along (gaps (h + 1)) rs (hiOf hi)) := by
  induction es generalizing s with
  | nil =>
    obtain rfl : s = s' := Except.ok.inj hok
    exact ⟨[], rfl, by simp, trivial, grew_refl s s.ck⟩
  | cons e es ih =>
    obtain ⟨s1, hfirst, hrest⟩ := tolKids_cons.mp hok
    obtain ⟨rs, hes, hmet, hchain, hgrew⟩ := ih (fun x hx => hp x (mem_cons_of_mem _ hx)) hs.of_cons
      (fun x hx => hb x (mem_cons_of_mem _ hx)) hrest
    have hlt : (e.k : WithTop Key) < hiOf ((es.head?.map Ent.k).getD hi) := by
      cases es with
      | nil => exact hb e mem_cons_self
      | cons x es =>
        have hx : e.k < x.k := rel_of_pairwise_cons hs mem_cons_self
        have hne : x.k ≠ [] := fun he => absurd (he ▸ hx) (not_lt_nil e.k)
        simpa [hiOf, hne] using hx
    obtain ⟨t, htp, ht, hfit, hg⟩ := hrec _ _ _ _ _ hlt hfirst
    obtain ⟨hent, hsorted⟩ := kids_cons (hp e mem_cons_self) htp (hes ▸ hs)
    rw [hes, hiOf_next hsorted] at hfit hg
    exact ⟨(e.k, t) :: rs, by rw [map_cons, ← hes, ← hent],
      forall_mem_cons.mpr ⟨ht, hmet⟩, ⟨hfit, hchain⟩, grew_trans hg hgrew⟩

theorem tolRec_sound
    (hlt : (lo : WithTop Key) < hiOf hi) (hok : checkTolRec crc v fuel p expect lo hi depth s = .ok s') :
    ∃ (h : Nat) (t : Item (h + 1)), t.1 = p ∧ (∀ x ∈ expect, h = x) ∧ Met crc v (h + 1) t ∧
      Fits (h + 1) lo (hiOf hi) t ∧ Grew s s' (gaps (h + 1) lo (hiOf hi) t) := by
  induction fuel generalizing p expect lo hi depth s s' with
  | zero => simp [checkTolRec] at hok
  | succ fuel ih =>
    obtain ⟨-, -, -, ⟨hnone, rfl⟩ | ⟨level, es, hread, hexp, hcase⟩⟩ := tolRec_step.mp hok
    · -- an unreadable page has the level that is expected of it
      refine ⟨expect.getD 0, (p, []), rfl, fun x hx => by rw [mem_def.mp hx]; rfl, ⟨?_, by simp⟩,
        ⟨hlt, hlt.le, trivial, fun _ h => absurd rfl h⟩, ?_⟩
      · rwa [if_pos rfl]
      · rw [gaps, if_pos rfl]
        exact ⟨rfl, [⟨lo, hi⟩], rfl, rfl⟩
    have hplain := (readNode_fits crc hread).2
    obtain ⟨rfl, -, hne, hkeys, rfl⟩ | ⟨hinner, htwo, hkeys, hkids⟩ := hcase
    · obtain ⟨hb, hs⟩ := checkKeys_ok.mp hkeys
      obtain ⟨rs, rfl, hc, hlo, -⟩ := chain_leaf hplain (fun e he => (hb e he).2) hs
      have hrs : rs ≠ [] := by simpa using hne
      refine ⟨0, (p, rs), rfl, hexp, ⟨?_, fun _ _ => trivial⟩, ⟨hlt, hlo hne, hc, fun h => absurd rfl h⟩, ?_⟩
      · rwa [if_neg hrs]
      · rw [gaps, if_neg hrs, along_leaf]
        exact grew_refl s _
    · obtain ⟨h, rfl⟩ := exists_eq_succ_of_ne_zero hinner
      obtain ⟨hb, hs⟩ := checkKeys_ok.mp hkeys
      obtain ⟨rs, rfl, hmet, hc, hgrew⟩ := tolKids_sound (fun q lo hi s s' hlt hq => by
        obtain ⟨h', t, htp, hh, ht⟩ := ih hlt hq
        obtain rfl : h' = h := hh _ rfl
        exact ⟨t, htp, ht⟩) hplain hs (fun e he => (hb e he).2.2) hkids
      have hne : rs ≠ [] := by
        rintro rfl
        simp at htwo
      have hlo := next_low hne (fun e he => (hb e he).2.1) (hiOf hi)
      refine ⟨h + 1, (p, rs), rfl, hexp, ⟨?_, hmet⟩, ⟨hlt, hlo, hc, fun _ _ => by simpa using htwo⟩, ?_⟩
      · rwa [if_neg hne]
      · rw [gaps, if_neg hne]
        exact hgrew

theorem rangeHas_iff (r : Range) (k : Key) :
    rangeHas r k = true ↔ (span r).1 ≤ k ∧ (k : WithTop Key) < (span r).2 := by
  rw [rangeHas, decide_eq_true_iff, lt_nil, le_hiOf, not_not, not_not]
  rfl

variable {rs : List Range} {q : Quarantine}

theorem foldl_add (h : (rs.foldl quarantineAdd q).qfull = false) :
    q.qfull = false ∧ (rs.foldl quarantineAdd q).ranges = q.ranges ++ rs := by
  induction rs generalizing q with
  | nil => exact ⟨h, (append_nil _).symm⟩
  | cons r rs ih =>
    obtain ⟨hq, hr⟩ := ih h
    rw [foldl_cons, hr]
    unfold quarantineAdd at hq ⊢
    split_ifs at hq ⊢
    exact ⟨hq, by rw [append_assoc]; rfl⟩

theorem mem_foldl_add {r : Range} (h : r ∈ (rs.foldl quarantineAdd q).ranges) : r ∈ q.ranges ∨ r ∈ rs := by
  induction rs generalizing q with
  | nil => exact .inl h
  | cons x rs ih =>
    obtain hr | hr := ih h
    · unfold quarantineAdd at hr
      split_ifs at hr
      · exact .inl hr
      · obtain hr | hr := mem_append.mp hr
        · exact .inl hr
        · exact .inr (mem_cons.mpr (.inl (mem_singleton.mp hr)))
    · exact .inr (mem_cons_of_mem _ hr)

variable {x : Key × Val}

theorem gaps_apart {hi : WithTop Key} {t : Item h} (ht : Fits h lo hi t) (hx : x ∈ contents h lo t)
    {g : Key × WithTop Key} (hg : g ∈ gaps h lo hi t) : ¬ (g.1 ≤ x.1 ∧ (x.1 : WithTop Key) < g.2) := by
  induction h generalizing lo hi with
  | zero => simp [gaps] at hg
  | succ h ih =>
    obtain ⟨-, -, hc, -⟩ := ht
    change x ∈ flat (contents h) t.2 at hx
    rw [gaps] at hg
    split_ifs at hg with hnil
    · rw [hnil] at hx
      simp at hx
    generalize t.2 = rs at hc hx hg
    induction rs with
    | nil => simp [along] at hg
    | cons r rs ihs =>
      rintro ⟨hle, hlt⟩
      obtain hx | hx := mem_append.mp hx
      · obtain hg | hg := mem_append.mp hg
        · exact ih hc.1 hx hg ⟨hle, hlt⟩
        · -- the range starts behind this child
          have hstart := (along_within gaps_within hc.2 hg).1
          have hend := ((fits_bounded h).mem _ _ _ hc.1 x hx).2
          exact absurd (hend.trans_le (hstart.trans (WithTop.coe_le_coe.mpr hle))) (lt_irrefl _)
      · obtain hg | hg := mem_append.mp hg
        · -- the range ends before the children behind
          have hend := (gaps_within hc.1 hg).2
          have hstart := ((chain_flat (fits_bounded h) hc.2).2 x hx).1
          exact absurd (hlt.trans_le (hend.trans hstart)) (lt_irrefl _)
        · exact ihs hc.2 hx hg ⟨hle, hlt⟩

variable {t : Item (h + 1)} {k : Key}

theorem shows_contents (ht : Met crc v (h + 1) t)
    (hs : Shows crc v t.1 k) : ∃ x ∈ contents (h + 1) lo t, x.1 = k := by
  obtain ⟨p, es, hreach, hread, e, he, rfl⟩ := hs
  induction h generalizing lo with
  | zero =>
    obtain heq | ⟨q, ⟨level, es', hread', hinner, -⟩, -⟩ := hreach.cases_head
    · have hnode := ht.1
      rw [heq, hread] at hnode
      split_ifs at hnode
      obtain ⟨-, rfl⟩ := mk.inj (some.inj hnode)
      obtain ⟨r, hr, rfl⟩ := mem_map.mp he
      exact ⟨(r.1, r.2), mem_flatMap.mpr ⟨r, hr, mem_singleton.mpr rfl⟩, rfl⟩
    · have hnode := ht.1
      rw [hread'] at hnode
      split_ifs at hnode
      exact absurd (mk.inj (some.inj hnode)).1 hinner
  | succ h ih =>
    obtain heq | ⟨q, ⟨level, es', hread', hinner, e', he', rfl⟩, hrest⟩ := hreach.cases_head
    · have hnode := ht.1
      rw [heq, hread] at hnode
      split_ifs at hnode
      exact absurd (mk.inj (some.inj hnode)).1 (succ_ne_zero h).symm
    · have hnode := ht.1
      rw [hread'] at hnode
      split_ifs at hnode
      cases hnode
      obtain ⟨r, hr, rfl⟩ := mem_map.mp he'
      obtain ⟨x, hx, hk⟩ : ∃ x ∈ contents (h + 1) r.1 r.2, x.1 = e.k := ih (ht.2 r hr) hrest
      exact ⟨x, mem_flatMap.mpr ⟨r, hr, hx⟩, hk⟩

theorem mem_along {β : Type} {f : Key → WithTop Key → Item h → List β} {xs ys : List (Key × Item h)}
    {r : Key × Item h} {hi : WithTop Key} {b : β} (hb : b ∈ f r.1 (next ys hi) r.2) :
    b ∈ along f (xs ++ r :: ys) hi := by
  induction xs with
  | nil => exact mem_append_left _ hb
  | cons x xs ih => exact mem_append_right _ ih

theorem missing_gap {hi : WithTop Key} (hnil : t.2 = [])
    (hk : lo ≤ k ∧ (k : WithTop Key) < hi) : ∃ s ∈ gaps (h + 1) lo hi t, s.1 ≤ k ∧ (k : WithTop Key) < s.2 := by
  refine ⟨(lo, hi), ?_, hk⟩
  rw [gaps, if_pos hnil]
  exact mem_singleton.mpr rfl

theorem gap_or_found {v' : Vol} {g : Nat} {hi : WithTop Key} {t' : Item (g + 1)}
    (hm : Met crc v (h + 1) t) (ht' : Holds crc v' (g + 1) t') (hok : Ok (g + 1) lo hi t') (hp : t'.1 = t.1)
    (hsame : ∀ p n, Relation.ReflTransGen (Link crc v) t.1 p → readNode crc v p = some n → readNode crc v' p = some n)
    (hx : x ∈ contents (g + 1) lo t') (depth : Nat) :
    (∃ s ∈ gaps (h + 1) lo hi t, s.1 ≤ x.1 ∧ (x.1 : WithTop Key) < s.2) ∨
      searchLoop crc v x.1 depth t.1 = searchLoop crc v' x.1 depth t.1 := by
  induction h generalizing g lo hi depth
  all_goals
    by_cases hnil : t.2 = []
    · exact .inl (missing_gap hnil ((bounded (g + 1)).mem _ _ _ hok x hx))
    have hread := hm.1
    rw [if_neg hnil] at hread
    have hread' := hsame _ _ .refl hread
    obtain _ | depth := depth
    · exact .inr rfl
  · refine .inr ?_
    simp only [searchLoop, hread, hread', ne_eq, not_true, if_false]
  · rename_i h ih
    have hnode := ht'.1
    rw [hp, hread'] at hnode
    obtain ⟨rfl, hmap⟩ := mk.inj (some.inj hnode)
    have hlt := ((bounded (h + 1 + 1)).mem _ _ _ hok x hx).2
    obtain ⟨xs, r', ys, hrs', hidx, -, -, hr', hxs, hys⟩ := route hok.1 hok.2.2 hlt
    -- the record of the damaged page that the key is routed to
    have hes := hmap
    rw [hrs', map_append, map_cons] at hes
    obtain ⟨as, rest, hrs, has, hrest⟩ := map_eq_append_iff.mp hes
    obtain ⟨r, bs, rfl, hent, hbs⟩ := map_eq_cons_iff.mp hrest
    obtain ⟨hkey, -, hchild⟩ := Ent.mk.inj hent
    have hnext : next bs hi = next ys hi := by
      obtain _ | ⟨b, bs⟩ := bs <;> obtain _ | ⟨y, ys⟩ := ys
      · rfl
      · simp at hbs
      · simp at hbs
      · exact congrArg _ (Ent.mk.inj (List.cons.inj hbs).1).1
    have hxr : x ∈ contents (h + 1) r'.1 r'.2 := by
      change x ∈ flat (contents (h + 1)) t'.2 at hx
      rw [hrs', flat_append, flat_cons] at hx
      obtain hx | hx := mem_append.mp hx
      · exact absurd (hxs x hx) (lt_irrefl _)
      obtain hx | hx := mem_append.mp hx
      · exact hx
      · exact absurd (hys x hx) (lt_irrefl _)
    have hr : r ∈ t.2 := by simp [hrs]
    have hlink : Link crc v t.1 r.2.1 := ⟨h + 1, _, hread, succ_ne_zero h, entOf (h + 1) r, mem_map_of_mem hr, rfl⟩
    obtain ⟨s, hs, hin⟩ | hfound := ih (hm.2 r hr) (ht'.2 r' (by simp [hrs'])) hr' hchild.symm
      (fun p n hreach => hsame p n (.head hlink hreach)) hxr depth
    · refine .inl ⟨s, ?_, hin⟩
      rw [gaps, if_neg hnil, hrs]
      exact mem_along (by rwa [hkey, hnext])
    · refine .inr ?_
      have hget : (t.2.map (entOf (h + 1)))[childIndex (t.2.map (entOf (h + 1))) x.1]? = some (entOf (h + 1) r) := by
        have hlen : as.length = xs.length := by simpa using congrArg List.length has
        rw [hmap, hidx, ← hmap, ← hlen, hrs]
        simp
      simp only [searchLoop, hread, hread', ne_eq, succ_ne_zero, hget]
      change (if r.2.1.pba = 0 then none else searchLoop crc v x.1 depth r.2.1) =
        if r.2.1.pba = 0 then none else searchLoop crc v' x.1 depth r.2.1
      rw [hfound]

theorem not_shows_null {root : Ptr} (h0 : root.pba = 0) : ¬ Shows crc v root k := by
  have hnone : ∀ n, readNode crc v root ≠ some n := fun n hread => by
    obtain ⟨page, hpage, -⟩ := readNode_some crc hread
    exact (readPage_some crc hpage).1 h0
  rintro ⟨p, es, hreach, hread, -⟩
  obtain rfl | ⟨q, ⟨_, _, hread', -⟩, -⟩ := hreach.cases_head
  · exact hnone _ hread
  · exact hnone _ hread'

theorem search_mem {root : Ptr} (h0 : root.pba ≠ 0) (hck : check crc v root = .ok ck) {x : Val}
    (hfound : search crc v root k = some (some x)) :
    ∃ (h : Nat) (t : Item (h + 1)), t.1 = root ∧ Holds crc v (h + 1) t ∧ Ok (h + 1) [] ⊤ t ∧
      (k, x) ∈ contents (h + 1) [] t := by
  rw [check, if_neg h0] at hck
  obtain ⟨h, t, rfl, -, hfine, -⟩ := checkRec_sound crc hck
  have hok : Ok (h + 1) [] ⊤ t := hfine.ok
  refine ⟨h, t, rfl, hfine.holds, hok, ?_⟩
  rw [search, if_neg h0] at hfound
  by_cases hd : h < maxDepth
  · rw [searchLoop_lookup crc hfine.holds hok (WithTop.coe_lt_top k) hd] at hfound
    obtain ⟨r, hr, hval⟩ := map_eq_some_iff.mp (some.inj hfound)
    obtain rfl : r.1 = k := by simpa using List.find?_some hr
    exact hval ▸ mem_of_find?_eq_some hr
  · rw [searchLoop_deep crc hfine.holds hok (WithTop.coe_lt_top k) (not_lt.mp hd)] at hfound
    simp at hfound

/-- The tolerant check finds no bad page exactly where the strict one accepts. Where it gets through, no key on
a readable page is in quarantine; and unless the set is full, every key that a lookup would have found and now
fails on is. -/
theorem tolerant_exact (v : Vol) (root : Ptr) : ((∃ ck, check crc v root = .ok ck) ↔
      (checkTolerant crc v root).1 = 0 ∧ (checkTolerant crc v root).2.bad = 0) ∧
    ((checkTolerant crc v root).1 = 0 →
      (∀ k, Shows crc v root k → quarantineHas (checkTolerant crc v root).2.q.ranges k = false) ∧
      ((checkTolerant crc v root).2.q.qfull = false → ∀ v' k x, Before crc v v' root →
        search crc v' root k = some (some x) → search crc v root k = none →
        quarantineHas (checkTolerant crc v root).2.q.ranges k = true)) := by
  refine ⟨accepts_iff v root, fun hrc => ?_⟩
  by_cases h0 : root.pba = 0
  · refine ⟨fun k hs => absurd hs (not_shows_null h0), fun _ v' k x _ _ hnone => ?_⟩
    rw [search, if_pos h0] at hnone
    simp at hnone
  unfold checkTolerant at hrc ⊢
  simp only [if_neg h0] at hrc ⊢
  cases hrec : checkTolRec crc v (maxLevels + 1) root none [] [] 1 ⟨⟨[], 0, 0, 0⟩, 0, ⟨[], false⟩, none⟩ with
  | error s => simp [hrec] at hrc
  | ok s =>
    obtain ⟨h, t, rfl, -, hmet, hfit, -, rs, hspan, hq⟩ := tolRec_sound (WithTop.coe_lt_top ([] : Key)) hrec
    refine ⟨fun k hs => ?_, fun hfull v' k x hbefore hfound hnone => ?_⟩
    · obtain ⟨x, hx, rfl⟩ : ∃ x ∈ contents (h + 1) [] t, x.1 = k := shows_contents hmet hs
      refine any_eq_false.mpr fun r hr hhas => ?_
      have hmem : r ∈ rs := by
        have hr' : r ∈ s.q.ranges := hr
        rw [hq] at hr'
        exact (mem_foldl_add hr').resolve_left (by simp)
      have hgap : span r ∈ gaps (h + 1) [] (hiOf []) t := hspan ▸ mem_map_of_mem hmem
      exact gaps_apart hfit hx hgap ((rangeHas_iff r x.1).mp hhas)
    · obtain ⟨ck, hck⟩ := hbefore.accepted
      obtain ⟨g, t', htp, hholds, hok, hx⟩ := search_mem h0 hck hfound
      rw [search, if_neg h0] at hfound hnone
      obtain ⟨gap, hgap, hin⟩ | hsame := gap_or_found hmet hholds hok htp hbefore.same hx maxDepth
      · have hfull' : (rs.foldl quarantineAdd ⟨[], false⟩).qfull = false := hq ▸ hfull
        have hranges : s.q.ranges = rs := by
          rw [hq]
          exact (foldl_add hfull').2
        have hmem : gap ∈ rs.map span := by
          rw [hspan]
          exact hgap
        obtain ⟨r, hr, rfl⟩ := mem_map.mp hmem
        exact any_eq_true.mpr ⟨r, hranges ▸ hr, (rangeHas_iff r k).mpr hin⟩
      · rw [hnone, hfound] at hsame
        simp at hsame

def between : List Key → List Range
  | [] => []
  | k :: ks => ⟨k, ks.head?.getD []⟩ :: between ks

theorem tolKids_torn {level : Nat} {rs : List (Key × Item (h + 1))}
    (hread : ∀ r ∈ rs, r.2.1.pba ≠ 0 ∧ r.2.1.pba < v.total ∧ readNode crc v r.2.1 = none)
    (hn : (rs.map fun r => r.2.1.pba).Nodup) (hfresh : ∀ r ∈ rs, r.2.1.pba ∉ s.ck.seen) :
    ∃ s', tolKids (fun q lo hi s => checkTolRec crc v (fuel + 1) q (some level) lo hi depth s) []
        (rs.map (entOf (h + 1))) s = .ok s' ∧
      s'.bad = s.bad + rs.length ∧ s'.q = (between (rs.map fst)).foldl quarantineAdd s.q := by
  induction rs generalizing s with
  | nil => exact ⟨s, rfl, rfl, rfl⟩
  | cons r rs ih =>
    obtain ⟨h0, hlt, hnone⟩ := hread r mem_cons_self
    obtain ⟨hnew, hn⟩ := nodup_cons.mp hn
    have hhead : (((rs.map (entOf (h + 1))).head?.map Ent.k).getD []) = (rs.map fst).head?.getD [] := by
      cases rs <;> rfl
    obtain ⟨s', hrest, hbad, hq⟩ := ih (s := (s.enter r.2.1.pba).lost r.1 ((rs.map fst).head?.getD []))
      (fun x hx => hread x (mem_cons_of_mem _ hx)) hn (fun x hx hseen => by
        obtain heq | hseen := mem_cons.mp hseen
        · exact hnew (mem_map.mpr ⟨x, hx, heq⟩)
        · exact hfresh x (mem_cons_of_mem _ hx) hseen)
    refine ⟨s', tolKids_cons.mpr ⟨_, ?_, hrest⟩, ?_, hq⟩
    · refine tolRec_step.mpr ⟨h0, hlt, hfresh r mem_cons_self, .inl ⟨hnone, ?_⟩⟩
      rw [hhead]
      rfl
    · rw [hbad, length_cons]
      change s.bad + 1 + rs.length = _
      omega

def onlyRoot (v : Vol) (root : Ptr) : Vol := { v with bit := fun b => b = root.pba }

theorem leaves_torn (crc : List Byte → UInt32) {w : Vol} (parts : List (List (Key × Item 0)))
    (htwo : 2 ≤ parts.length)
    (hfull : ∀ p ∈ parts, p ≠ []) (hs : Sorted parts.flatten)
    (hfit : ∀ p ∈ parts, used 0 (p.map (entOf 0)) ≤ pageSize)
    (hroot : pageHdrLen + (parts.map fun p => 26 + ((p.head?.map fst).getD []).length).sum ≤ pageSize)
    (ha : BtreeSupply.Ample (parts.length + 1) w) :
    ∃ (v v' : Vol) (root : Ptr), Before crc v v' root ∧ (checkTolerant crc v root).1 = 0 ∧
      (checkTolerant crc v root).2.bad = parts.length ∧ (checkTolerant crc v root).2.q =
        (between (parts.map fun p => (p.head?.map fst).getD [])).foldl quarantineAdd ⟨[], false⟩ ∧
      ∀ k, search crc v' root k = some (lookup parts.flatten k) ∧ search crc v root k = none := by
  have hne : parts ≠ [] := by
    rintro rfl
    simp at htwo
  obtain ⟨root, ts, v', rfl, h0, hrow, -⟩ := BtreeRoom.plant (n := 0) parts hne hfull hs hfit hroot ha
  have hheld : Holds crc v' 2 (root, asRecs ts) := hrow.held _ mem_cons_self
  have hok : Ok 2 [] ⊤ (root, asRecs ts) := hrow.chain.1
  have hlen : 2 ≤ (asRecs ts).length := by simpa [asRecs] using htwo
  obtain ⟨-, hlt, hbit⟩ := holds_pages crc hheld root.pba mem_cons_self
  have hpage : ∀ p n, readNode crc (onlyRoot v' root) p = some n → p.pba = root.pba := fun p n hread => by
    obtain ⟨page, hpage, -⟩ := readNode_some crc hread
    exact of_decide_eq_true (readPage_some crc hpage).2.2.1
  have hread : ∀ p, p.pba = root.pba → readNode crc (onlyRoot v' root) p = readNode crc v' p := fun p hp => by
    unfold readNode readPage onlyRoot
    simp [hp, hbit]
  have htop : readNode crc (onlyRoot v' root) root = some (1, (asRecs ts).map (entOf 1)) :=
    (hread root rfl).trans hheld.1
  have hnodup : (root.pba :: (asRecs ts).flatMap fun r => pages 1 r.2).Nodup := by
    have := hrow.nodup
    rwa [rowPages, flatMap_cons, flatMap_nil, append_nil] at this
  obtain ⟨hroot, hnodup⟩ := nodup_cons.mp hnodup
  have hflat : ((asRecs ts).flatMap fun r => pages 1 r.2) = (asRecs ts).map fun r => r.2.1.pba := by
    rw [map_eq_flatMap]
    exact flatMap_congr fun r _ => pages_leaf r.2.1 r.2.2
  rw [hflat] at hroot hnodup
  have hnone : ∀ r ∈ asRecs ts, readNode crc (onlyRoot v' root) r.2.1 = none := fun r hr => by
    by_contra hsome
    obtain ⟨n, hn⟩ := ne_none_iff_exists'.mp hsome
    exact hroot (mem_map.mpr ⟨r, hr, hpage _ _ hn⟩)
  have hkids : ∀ r ∈ asRecs ts, r.2.1.pba ≠ 0 ∧ r.2.1.pba < v'.total := fun r hr => by
    obtain ⟨h1, h2, -⟩ := holds_pages crc (hheld.2 r hr) r.2.1.pba mem_cons_self
    exact ⟨h1, h2⟩
  refine ⟨onlyRoot v' root, v', root, ⟨?_, ?_⟩, ?_⟩
  · have hwide : Wide 2 (root, asRecs ts) := ⟨fun _ => hlen, fun r _ => ⟨fun h => absurd rfl h, fun _ _ => trivial⟩⟩
    obtain ⟨ck, hck, -⟩ := row_check (by decide) (.inr ⟨h0, _, rfl, rfl⟩) hrow (by simpa using hwide)
    exact ⟨ck, hck⟩
  · intro p n _ hn
    rw [← hread p (hpage p n hn), hn]
  obtain ⟨s, hloop, hbad, hq⟩ : ∃ s, tolKids (fun q lo hi s =>
      checkTolRec crc (onlyRoot v' root) (65534 + 1) q (some 0) lo hi 2 s) [] ((asRecs ts).map (entOf 1))
        ⟨after ⟨[], 0, 0, 0⟩ [root.pba] 0 0, 0, ⟨[], false⟩, none⟩ = .ok s ∧ s.bad = 0 + (asRecs ts).length ∧
      s.q = (between ((asRecs ts).map fst)).foldl quarantineAdd ⟨[], false⟩ := by
    refine tolKids_torn (fun r hr => ⟨(hkids r hr).1, (hkids r hr).2, hnone r hr⟩) hnodup fun r hr hseen => ?_
    exact hroot (mem_map.mpr ⟨r, hr, mem_singleton.mp hseen⟩)
  have hwalk : checkTolRec crc (onlyRoot v' root) (maxLevels + 1) root none [] [] 1
      ⟨⟨[], 0, 0, 0⟩, 0, ⟨[], false⟩, none⟩ = .ok s := by
    refine tolRec_step.mpr ⟨h0, hlt, not_mem_nil, .inr ⟨1, _, htop, by simp, .inr
      ⟨one_ne_zero, by simpa using hlen, checkKeys_ok.mpr ⟨fun e _ => ?_, sorted_entOf hok.2.2⟩, hloop⟩⟩⟩
    exact ⟨by simp, nil_le_key e.k, WithTop.coe_lt_top e.k⟩
  have hres : checkTolerant crc (onlyRoot v' root) root = (0, s) := by
    unfold checkTolerant
    simp only [if_neg h0, hwalk]
  rw [hres]
  refine ⟨rfl, ?_, ?_, fun k => ⟨?_, ?_⟩⟩
  · rw [hbad]
    simp [asRecs]
  · rw [hq]
    simp only [asRecs, List.map_map]
    rfl
  · exact (reads_row (by decide) (.inr ⟨h0, _, rfl, rfl⟩) hrow).search k
  · rw [search, if_neg h0]
    change searchLoop crc (onlyRoot v' root) k (30 + 1 + 1) root = none
    simp only [searchLoop, htop, ne_eq, one_ne_zero, not_false_eq_true, if_true]
    cases hget : ((asRecs ts).map (entOf 1))[childIndex ((asRecs ts).map (entOf 1)) k]? with
    | none => rfl
    | some e =>
      obtain ⟨r, hr, rfl⟩ := mem_map.mp (mem_of_getElem? hget)
      have hchild : readNode crc (onlyRoot v' root) (entOf 1 r).child = none := hnone r hr
      simp only [hchild, ite_self]

def wideVol : Vol where
  total := 128
  bit := fun _ => false
  bmLo := 1
  bmHi := 0
  dev := ⟨fun _ => [], []⟩
  supply := (List.range 67).map fun i => ⟨UInt64.ofNat (i + 1), true, true⟩

theorem ample_wideVol : BtreeSupply.Ample 67 wideVol :=
  ⟨wideVol.supply, [], (append_nil _).symm, rfl, by decide +kernel, by decide +kernel⟩

def twigs (n : Nat) : List (List (Key × Item 0)) := (List.range n).map fun i => [([Fin.ofNat 256 (i + 1)], [])]

theorem twigs_fit (n : Nat) : ∀ p ∈ twigs n, p ≠ [] ∧ used 0 (p.map (entOf 0)) ≤ pageSize := by
  intro p hp
  obtain ⟨i, -, rfl⟩ := mem_map.mp hp
  exact ⟨by simp, by simp [used, recSize, entOf, pageHdrLen, pageSize]⟩

/-- Two leaves are lost, and what was on them is in quarantine. -/
theorem tolerant_exact_two : ∃ (v v' : Vol) (root : Ptr), Before crc32c v v' root ∧
    search crc32c v' root [2] = some (some []) ∧ search crc32c v root [2] = none ∧
    quarantineHas (checkTolerant crc32c v root).2.q.ranges [2] = true := by
  obtain ⟨v, v', root, hbefore, hrc, -, hq, hsearch⟩ := leaves_torn crc32c (twigs 2) (by decide)
    (fun p hp => (twigs_fit 2 p hp).1) (by unfold Sorted; decide) (fun p hp => (twigs_fit 2 p hp).2) (by decide)
    (BtreeRoom.ample_le ample_wideVol (by decide))
  have hfull : (checkTolerant crc32c v root).2.q.qfull = false := by
    rw [hq]
    decide
  have hfound : search crc32c v' root [2] = some (some []) := (hsearch [2]).1
  exact ⟨v, v', root, hbefore, hfound, (hsearch [2]).2,
    ((tolerant_exact v root).2 hrc).2 hfull v' [2] [] hbefore hfound (hsearch [2]).2⟩

/-- Sixty-six leaves are lost. The set of ranges is full before the walk is at the last but one. -/
theorem full_set_misses : ∃ (v v' : Vol) (root : Ptr), Before crc32c v v' root ∧
    (checkTolerant crc32c v root).1 = 0 ∧ (checkTolerant crc32c v root).2.bad ≠ 0 ∧
    search crc32c v' root [65] = some (some []) ∧ search crc32c v root [65] = none ∧
    quarantineHas (checkTolerant crc32c v root).2.q.ranges [65] = false := by
  obtain ⟨v, v', root, hbefore, hrc, hbad, hq, hsearch⟩ := leaves_torn crc32c (twigs 66) (by decide)
    (fun p hp => (twigs_fit 66 p hp).1) (by unfold Sorted; decide +kernel) (fun p hp => (twigs_fit 66 p hp).2)
    (by decide +kernel) ample_wideVol
  refine ⟨v, v', root, hbefore, hrc, by rw [hbad]; decide, (hsearch [65]).1, (hsearch [65]).2, ?_⟩
  rw [hq]
  decide +kernel

end InvariantFs.BtreeTolerant
