import InvariantFs.BtreeExcise

namespace InvariantFs.BtreeDamage

open ByteCodec BtreePage Btree SepChain BtreeShape BtreeRead BtreeExcise List

/-- A tree some of whose pages do not read back. Such a page has no records here, and every page
that reads back has some. -/
def Fits : (h : Nat) → Key → WithTop Key → Item h → Prop
  | 0, lo, hi, _ => (lo : WithTop Key) < hi
  | h + 1, lo, hi, t => (lo : WithTop Key) < hi ∧ (lo : WithTop Key) ≤ next t.2 hi ∧
      Chain (Fits h) t.2 hi ∧ (h ≠ 0 → t.2 ≠ [] → 2 ≤ t.2.length)

def Intact : (h : Nat) → Item h → Prop
  | 0, _ => True
  | h + 1, t => t.2 ≠ [] ∧ ∀ r ∈ t.2, Intact h r.2

def gaps : (h : Nat) → Key → WithTop Key → Item h → List (Key × WithTop Key)
  | 0, _, _, _ => []
  | h + 1, lo, hi, t => if t.2 = [] then [(lo, hi)] else along (gaps h) t.2 hi

def gone : (h : Nat) → Item h → Bool
  | 0, _ => false
  | h + 1, t => t.2.all fun r => gone h r.2

def survivors {h : Nat} (rs : List (Key × Item h)) : List (Key × Item h) := rs.filter fun r => !gone h r.2

def Stays : (h : Nat) → Item h → Prop
  | 0, _ => True
  | h + 1, t => h = 0 ∨ 2 ≤ (survivors t.2).length

/-- Damage that an excision gets out of the tree: a page either has a child to drop, and if two
others are left they stay at their level, or nothing is missing anywhere below it. -/
def Mendable : (h : Nat) → Item h → Prop
  | 0, _ => True
  | h + 1, t =>
    if ∃ r ∈ t.2, gone h r.2 = true then
      ∀ r ∈ survivors t.2, Mendable h r.2 ∧ (2 ≤ (survivors t.2).length → Stays h r.2)
    else ∀ r ∈ t.2, Intact h r.2

def span (r : Range) : Key × WithTop Key := (r.lo, hiOf r.hi)

/-- Of the ranges at hand, those that reach into an interval are the missing ones of it. -/
structure Sharp (qs gs : List (Key × WithTop Key)) (lo hi : WithTop Key) : Prop where
  all : ∀ g ∈ gs, g ∈ qs
  apart : ∀ g ∈ qs, g ∈ gs ∨ g.2 ≤ lo ∨ hi ≤ (g.1 : WithTop Key)

variable (crc : List Byte → UInt32)

/-- The volume holds the pages that are not missing; the missing ones are blocks in use. -/
def Held (v : Vol) : (h : Nat) → Item h → Prop
  | 0, _ => True
  | h + 1, t =>
    (if t.2 = [] then readNode crc v t.1 = none ∧ v.bit t.1.pba = true
      else readNode crc v t.1 = some (h, t.2.map (entOf h))) ∧
      ∀ r ∈ t.2, Held v h r.2

theorem covers_iff (r : Range) (lo hi : Key) : r.covers lo hi = true ↔ (span r).1 ≤ lo ∧ hiOf hi ≤ (span r).2 := by
  have hlow : ¬ (r.lo ≠ [] ∧ lo < r.lo) ↔ r.lo ≤ lo := by rw [lt_nil, not_not]
  have hhigh : (r.hi ≠ [] → hi ≠ [] ∧ hi ≤ r.hi) ↔ hiOf hi ≤ hiOf r.hi := by
    unfold hiOf
    by_cases hr : r.hi = []
    · simp [hr]
    · by_cases hh : hi = []
      · simp [hr, hh]
      · simp [hr, hh]
  rw [Range.covers, decide_eq_true_iff, hlow, hhigh]
  rfl

theorem fits_bounded (h : Nat) : Bounded (Fits h) (contents h) := by
  induction h with
  | zero => exact bounded 0
  | succ h ih =>
    refine ⟨fun _ _ _ ht => ht.1, fun lo hi t ht => (chain_flat ih ht.2.2.1).1, fun lo hi t ht r hr => ?_,
      fun lo hi hi' t ht hle => ⟨ht.1.trans_le hle, ?_, chain_mono ih ht.2.2.1 hle, ht.2.2.2⟩⟩
    · obtain ⟨h1, h2⟩ := (chain_flat ih ht.2.2.1).2 r hr
      exact ⟨WithTop.coe_le_coe.mp (ht.2.1.trans h1), h2⟩
    · obtain ⟨p, _ | ⟨r, rs⟩⟩ := t
      · exact ht.1.le.trans hle
      · exact ht.2.1

variable {g : Key × WithTop Key} {hi : WithTop Key} {h : Nat} {rs : List (Key × Item h)}

theorem along_within (ih : ∀ {lo hi} {t : Item h}, Fits h lo hi t → g ∈ gaps h lo hi t → lo ≤ g.1 ∧ g.2 ≤ hi)
    (hc : Chain (Fits h) rs hi) (hg : g ∈ along (gaps h) rs hi) : next rs hi ≤ (g.1 : WithTop Key) ∧ g.2 ≤ hi := by
  induction rs with
  | nil => simp [along] at hg
  | cons r rs ihrs =>
    obtain hg | hg := mem_append.mp hg
    · obtain ⟨h1, h2⟩ := ih hc.1 hg
      exact ⟨WithTop.coe_le_coe.mpr h1, h2.trans (chain_next_le (fits_bounded h) hc.2)⟩
    · obtain ⟨h1, h2⟩ := ihrs hc.2 hg
      exact ⟨((fits_bounded h).lt _ _ _ hc.1).le.trans h1, h2⟩

variable {lo : Key} {t : Item h}

theorem gaps_within (ht : Fits h lo hi t) (hg : g ∈ gaps h lo hi t) : lo ≤ g.1 ∧ g.2 ≤ hi := by
  induction h generalizing lo hi with
  | zero => simp [gaps] at hg
  | succ h ih =>
    rw [gaps] at hg
    split_ifs at hg with hnil
    · obtain rfl := mem_singleton.mp hg
      exact ⟨le_rfl, le_rfl⟩
    · obtain ⟨h1, h2⟩ := along_within ih ht.2.2.1 hg
      exact ⟨WithTop.coe_le_coe.mp (ht.2.1.trans h1), h2⟩

theorem along_leaf (rs : List (Key × Item 0)) (hi : WithTop Key) : along (gaps 0) rs hi = [] := by
  induction rs with
  | nil => rfl
  | cons r rs ih => exact ih

theorem gaps_narrow {t : Item (h + 1)}
    (ht : Fits (h + 1) lo hi t) (hne : t.2 ≠ []) (hg : g ∈ gaps (h + 1) lo hi t) : ¬ (g.1 ≤ lo ∧ hi ≤ g.2) := by
  rintro ⟨h1, h2⟩
  rw [gaps, if_neg hne] at hg
  obtain ⟨-, hlow, hc, htwo⟩ := ht
  obtain _ | h := h
  · rw [along_leaf] at hg
    simp at hg
  · obtain ⟨p, rs⟩ := t
    obtain _ | ⟨r, _ | ⟨s, rs⟩⟩ := rs
    · exact hne rfl
    · simpa using htwo (Nat.succ_ne_zero h) hne
    · have hs := chain_lt (fits_bounded (h + 1)) hc.2 s mem_cons_self
      obtain hg | hg := mem_append.mp hg
      · -- under the first child: the range ends before the second one
        obtain ⟨-, hend⟩ := gaps_within hc.1 hg
        exact absurd (h2.trans hend) (not_le.mpr hs)
      · -- under another child: the range starts behind the first one
        obtain ⟨hstart, -⟩ := along_within gaps_within hc.2 hg
        have hrs := (fits_bounded (h + 1)).lt _ _ _ hc.1
        have hg1 : (g.1 : WithTop Key) ≤ lo := WithTop.coe_le_coe.mpr h1
        exact absurd (hstart.trans (hg1.trans hlow)) (not_le.mpr hrs)

theorem sharp_covers {q : List Range} {hi : Key} {t : Item (h + 1)} (ht : Fits (h + 1) lo (hiOf hi) t)
    (hs : Sharp (q.map span) (gaps (h + 1) lo (hiOf hi) t) lo (hiOf hi)) :
    (q.any fun r => r.covers lo hi) = true ↔ t.2 = [] := by
  rw [any_eq_true]
  refine ⟨?_, fun hnil => ?_⟩
  · rintro ⟨r, hr, hcov⟩
    obtain ⟨h1, h2⟩ := (covers_iff r lo hi).mp hcov
    have h1' : ((span r).1 : WithTop Key) ≤ lo := WithTop.coe_le_coe.mpr h1
    obtain hg | hg | hg := hs.apart _ (mem_map_of_mem hr)
    · by_contra hne
      exact gaps_narrow ht hne hg ⟨h1, h2⟩
    · exact absurd (h2.trans hg) (not_le.mpr ht.1)
    · exact absurd (hg.trans h1') (not_le.mpr ht.1)
  · have hg : (lo, hiOf hi) ∈ gaps (h + 1) lo (hiOf hi) t := by
      rw [gaps, if_pos hnil]
      exact mem_singleton.mpr rfl
    obtain ⟨r, hr, hspan⟩ := mem_map.mp (hs.all _ hg)
    exact ⟨r, hr, (covers_iff r lo hi).mpr (by rw [hspan]; exact ⟨le_rfl, le_rfl⟩)⟩

variable {qs : List (Key × WithTop Key)}

theorem sharp_page {t : Item (h + 1)} (ht : Fits (h + 1) lo hi t) (hne : t.2 ≠ [])
    (hs : Sharp qs (gaps (h + 1) lo hi t) lo hi) : Sharp qs (along (gaps h) t.2 hi) (next t.2 hi) hi := by
  rw [gaps, if_neg hne] at hs
  exact ⟨hs.all, fun g hg => (hs.apart g hg).imp_right (Or.imp_left fun hle => hle.trans ht.2.1)⟩

variable {r : Key × Item h}

section

variable (hc : Chain (Fits h) (r :: rs) hi) (hs : Sharp qs (along (gaps h) (r :: rs) hi) r.1 hi)

include hc hs

theorem sharp_head : Sharp qs (gaps h r.1 (next rs hi) r.2) r.1 (next rs hi) := by
  refine ⟨fun g hg => hs.all g (mem_append_left _ hg), fun g hg => ?_⟩
  obtain hin | hlow | hhigh := hs.apart g hg
  · obtain hin | hin := mem_append.mp hin
    · exact .inl hin
    · exact .inr (.inr (along_within gaps_within hc.2 hin).1)
  · exact .inr (.inl hlow)
  · exact .inr (.inr ((chain_next_le (fits_bounded h) hc.2).trans hhigh))

theorem sharp_tail : Sharp qs (along (gaps h) rs hi) (next rs hi) hi := by
  refine ⟨fun g hg => hs.all g (mem_append_right _ hg), fun g hg => ?_⟩
  obtain hin | hlow | hhigh := hs.apart g hg
  · obtain hin | hin := mem_append.mp hin
    · exact .inr (.inl (gaps_within hc.1 hin).2)
    · exact .inl hin
  · exact .inr (.inl (hlow.trans ((fits_bounded h).lt _ _ _ hc.1).le))
  · exact .inr (.inr hhigh)

end

theorem intact_of_gaps (hg : gaps h lo hi t = []) : Intact h t := by
  induction h generalizing lo hi with
  | zero => trivial
  | succ h ih =>
    rw [gaps] at hg
    split_ifs at hg with hnil
    refine ⟨hnil, ?_⟩
    clear hnil
    generalize t.2 = rs at hg ⊢
    induction rs with
    | nil => simp
    | cons r rs ihrs =>
      obtain ⟨h1, h2⟩ := append_eq_nil_iff.mp hg
      exact forall_mem_cons.mpr ⟨ih h1, ihrs h2⟩

section

theorem gone_cons {p : Ptr} : gone (h + 1) (p, r :: rs) = (gone h r.2 && gone (h + 1) (p, rs)) := rfl

theorem mem_survivors : r ∈ survivors rs ↔ r ∈ rs ∧ gone h r.2 = false := by
  simp [survivors]

theorem survivors_cons (r : Key × Item h) (rs : List (Key × Item h)) :
    survivors (r :: rs) = if gone h r.2 = true then survivors rs else r :: survivors rs := by
  cases hr : gone h r.2 <;> simp [survivors, hr]

theorem gone_iff (t : Item (h + 1)) : gone (h + 1) t = true ↔ survivors t.2 = [] := by
  simp [gone, survivors, filter_eq_nil_iff]

theorem survivors_all (hno : ¬ ∃ r ∈ rs, gone h r.2 = true) : survivors rs = rs := by
  refine filter_eq_self.mpr fun r hr => ?_
  cases hg : gone h r.2 with
  | false => rfl
  | true => exact absurd ⟨r, hr, hg⟩ hno

end

theorem contents_gone (hg : gone h t = true) : contents h lo t = [] := by
  induction h generalizing lo with
  | zero => simp [gone] at hg
  | succ h ih =>
    rw [gone, all_eq_true] at hg
    exact flatMap_eq_nil_iff.mpr fun r hr => ih (hg r hr)

theorem contents_survivors (rs : List (Key × Item h)) : flat (contents h) (survivors rs) = flat (contents h) rs := by
  induction rs with
  | nil => rfl
  | cons r rs ih =>
    rw [survivors_cons, flat_cons]
    split_ifs with hg
    · rw [contents_gone hg, ih, nil_append]
    · rw [flat_cons, ih]

theorem intact_not_gone (ht : Intact h t) : gone h t = false := by
  induction h with
  | zero => rfl
  | succ h ih =>
    obtain ⟨p, _ | ⟨r, rs⟩⟩ := t
    · exact absurd rfl ht.1
    · rw [gone_cons, ih (ht.2 r mem_cons_self), Bool.false_and]

theorem intact_mendable (ht : Intact h t) : Mendable h t := by
  cases h with
  | zero => trivial
  | succ h =>
    have hno : ¬ ∃ r ∈ t.2, gone h r.2 = true := by
      rintro ⟨r, hr, hg⟩
      rw [intact_not_gone (ht.2 r hr)] at hg
      exact absurd hg (by simp)
    rw [Mendable, if_neg hno]
    exact ht.2

theorem intact_ok (ht : Intact h t) (hf : Fits h lo hi t) : Ok h lo hi t ∧ Wide h t := by
  induction h generalizing lo hi with
  | zero => exact ⟨hf, trivial⟩
  | succ h ih =>
    obtain ⟨-, hlow, hc, htwo⟩ := hf
    have hrow : Chain (Ok h) t.2 hi ∧ ∀ r ∈ t.2, Wide h r.2 := by
      have hin := ht.2
      clear htwo hlow ht
      generalize t.2 = rs at hc hin ⊢
      induction rs with
      | nil => exact ⟨trivial, by simp⟩
      | cons r rs ihrs =>
        obtain ⟨h1, h2⟩ := ih (hin r mem_cons_self) hc.1
        obtain ⟨h3, h4⟩ := ihrs hc.2 fun x hx => hin x (mem_cons_of_mem _ hx)
        exact ⟨⟨h1, h3⟩, forall_mem_cons.mpr ⟨h2, h4⟩⟩
    exact ⟨⟨ht.1, hlow, hrow.1⟩, fun hh => htwo hh ht.1, hrow.2⟩

variable {v : Vol}

theorem intact_holds (ht : Intact h t) (hh : Held crc v h t) : Holds crc v h t := by
  induction h with
  | zero => trivial
  | succ h ih =>
    refine ⟨?_, fun r hr => ih (ht.2 r hr) (hh.2 r hr)⟩
    have hread := hh.1
    rwa [if_neg ht.1] at hread

theorem readNode_frame_none {v' : Vol} (hf : Frame v v') {p : Ptr} (hb : v.bit p.pba = true)
    (h : readNode crc v p = none) : readNode crc v' p = none := by
  rw [← h, readNode, readNode, readPage, readPage, frame_view hf hb, hf.total, hf.bits _ hb, hb]

theorem held_frame {v' : Vol} (hf : Frame v v') (ht : Held crc v h t) : Held crc v' h t := by
  induction h with
  | zero => trivial
  | succ h ih =>
    refine ⟨?_, fun r hr => ih (ht.2 r hr)⟩
    have hread := ht.1
    split_ifs at hread ⊢ with hnil
    · exact ⟨readNode_frame_none crc hf hread.2 hread.1, hf.bits _ hread.2⟩
    · exact readNode_frame crc hf hread

theorem held_pages (ht : Held crc v h t) : ∀ p ∈ pages h t, v.bit p = true := by
  induction h with
  | zero => simp [pages]
  | succ h ih =>
    intro p hp
    obtain rfl | hp := mem_cons.mp hp
    · have hread := ht.1
      split_ifs at hread with hnil
      · exact hread.2
      · obtain ⟨page, hpage, -⟩ := readNode_some crc hread
        exact (readPage_some crc hpage).2.2.1
    · obtain ⟨r, hr, hp⟩ := mem_flatMap.mp hp
      exact ih (ht.2 r hr) p hp

theorem held_unique {g : Nat} {t : Item (h + 1)} {s : Item (g + 1)} (ht : Held crc v (h + 1) t)
    (hs : Holds crc v (g + 1) s) (heq : s.1 = t.1) : g = h ∧ Intact (h + 1) t := by
  induction h generalizing g with
  | zero =>
    have hread := ht.1
    rw [← heq, hs.1] at hread
    split_ifs at hread with hnil
    · exact absurd hread.1 (by simp)
    · obtain ⟨hg, -⟩ := Prod.mk.inj (Option.some.inj hread)
      exact ⟨hg, hnil, fun _ _ => trivial⟩
  | succ h ih =>
    have hread := ht.1
    rw [← heq, hs.1] at hread
    split_ifs at hread with hnil
    · exact absurd hread.1 (by simp)
    · obtain ⟨rfl, hes⟩ := Prod.mk.inj (Option.some.inj hread)
      refine ⟨rfl, hnil, fun r hr => ?_⟩
      have hmem : entOf (h + 1) r ∈ s.2.map (entOf (h + 1)) := hes ▸ mem_map_of_mem hr
      obtain ⟨x, hx, hent⟩ := mem_map.mp hmem
      exact (ih (ht.2 r hr) (hs.2 x hx) (Ent.mk.inj hent).2.2).2

end InvariantFs.BtreeDamage
