import InvariantFs.Btree
import InvariantFs.SepChain

namespace InvariantFs.BtreeShape

open ByteCodec CachedStore BtreePage Btree SortedMap SepChain Fallible List Option

/-- What a record of a page at level `h` stands for: a value in a leaf, otherwise the page one level
below with everything under it. -/
@[reducible]
def Item : Nat → Type
  | 0 => Val
  | h + 1 => Ptr × List (Key × Item h)

def entOf : (h : Nat) → Key × Item h → Ent
  | 0, r => ⟨r.1, r.2, .null⟩
  | _ + 1, r => ⟨r.1, [], r.2.1⟩

/-- An item between two bounds: no page is empty, and every page's records form a chain. -/
def Ok : (h : Nat) → Key → WithTop Key → Item h → Prop
  | 0, lo, hi, _ => (lo : WithTop Key) < hi
  | h + 1, lo, hi, t => t.2 ≠ [] ∧ (lo : WithTop Key) ≤ next t.2 hi ∧ Chain (Ok h) t.2 hi

def contents : (h : Nat) → Key → Item h → List (Key × Val)
  | 0, k, v => [(k, v)]
  | h + 1, _, t => flat (contents h) t.2

def pages : (h : Nat) → Item h → List UInt64
  | 0, _ => []
  | h + 1, t => t.1.pba :: t.2.flatMap fun r => pages h r.2

def Wide : (h : Nat) → Item h → Prop
  | 0, _ => True
  | h + 1, t => (h ≠ 0 → 2 ≤ t.2.length) ∧ ∀ r ∈ t.2, Wide h r.2

def keyMax : Nat := 272

def Short : (h : Nat) → Item h → Prop
  | 0, _ => True
  | h + 1, t => ∀ r ∈ t.2, r.1.length ≤ keyMax ∧ Short h r.2

variable (crc : List Byte → UInt32)

def Holds (v : Vol) : (h : Nat) → Item h → Prop
  | 0, _ => True
  | h + 1, t => readNode crc v t.1 = some (h, t.2.map (entOf h)) ∧ ∀ r ∈ t.2, Holds v h r.2

def Dirty (v : Vol) (p : UInt64) : Prop := v.bmLo ≤ p.toNat / 8 ∧ p.toNat / 8 < v.bmHi

/-- The blocks and the bitmap change on free blocks only, and nothing reaches the medium. -/
structure Frame (v v' : Vol) : Prop where
  total : v'.total = v.total
  bits : ∀ p, v.bit p = true → v'.bit p = true
  marks : ∀ p, Dirty v p → Dirty v' p
  fresh : ∀ p, v.bit p = false → v'.bit p = true → Dirty v' p
  durable : v'.dev.durable = v.dev.durable
  pending : ∃ qs, v'.dev.pending = v.dev.pending ++ qs ∧ ∀ q ∈ qs, v.bit q.cell = false

theorem entOf_key (h : Nat) (r : Key × Item h) : (entOf h r).k = r.1 := by
  cases h <;> rfl

theorem plain_entOf (h : Nat) (r : Key × Item h) : Plain h (entOf h r) := by
  cases h <;> simp [Plain, entOf]

theorem bounded (h : Nat) : Bounded (Ok h) (contents h) := by
  induction h with
  | zero =>
    refine ⟨fun _ _ _ h => h, fun _ _ _ _ => ?_, fun _ _ _ h r hr => ?_, fun _ _ _ _ h hle => h.trans_le hle⟩
    · simp [Sorted, contents]
    · rw [mem_singleton.mp hr]
      exact ⟨le_rfl, h⟩
  | succ h ih =>
    have hnext : ∀ lo hi (t : Item (h + 1)), Ok (h + 1) lo hi t → next t.2 hi < hi := by
      intro lo hi t ht
      obtain ⟨hne, -, hc⟩ := ht
      obtain ⟨r, rs, hrs⟩ := exists_cons_of_ne_nil hne
      rw [hrs] at hc ⊢
      exact chain_lt ih hc r mem_cons_self
    refine ⟨fun lo hi t ht => ht.2.1.trans_lt (hnext lo hi t ht), fun lo hi t ht => ?_,
      fun lo hi t ht r hr => ?_, fun lo hi hi' t ht hle => ?_⟩
    · exact (chain_flat ih ht.2.2).1
    · obtain ⟨h1, h2⟩ := (chain_flat ih ht.2.2).2 r hr
      exact ⟨WithTop.coe_le_coe.mp (ht.2.1.trans h1), h2⟩
    · obtain ⟨hne, hlo, hc⟩ := ht
      refine ⟨hne, ?_, chain_mono ih hc hle⟩
      obtain ⟨r, rs, hrs⟩ := exists_cons_of_ne_nil hne
      rw [hrs] at hlo ⊢
      exact hlo

variable {h : Nat} {t : Item (h + 1)} {hi : WithTop Key}

theorem ok_lower {lo lo' : Key} (ht : Ok (h + 1) lo hi t) (hle : lo' ≤ lo) : Ok (h + 1) lo' hi t :=
  ⟨ht.1, (WithTop.coe_le_coe.mpr hle).trans ht.2.1, ht.2.2⟩

theorem sorted_entOf {rs : List (Key × Item h)}
    (hc : Chain (Ok h) rs hi) : (rs.map (entOf h)).Pairwise fun a b => a.k < b.k := by
  rw [pairwise_map]
  refine (chain_sorted (bounded h) hc).imp ?_
  intro a b hab
  rwa [entOf_key, entOf_key]

theorem dirty_bmDirty (v : Vol) (i : UInt64) : Dirty (v.bmDirty i) i ∧ ∀ p, Dirty v p → Dirty (v.bmDirty i) p := by
  simp only [Dirty, Vol.bmDirty]
  split_ifs <;> refine ⟨?_, fun p hp => ?_⟩ <;> dsimp only <;> omega

@[simp]
theorem total_bmDirty (v : Vol) (i : UInt64) : (v.bmDirty i).total = v.total := by
  unfold Vol.bmDirty
  dsimp only
  split_ifs <;> rfl

@[simp]
theorem bit_bmDirty (v : Vol) (i : UInt64) : (v.bmDirty i).bit = v.bit := by
  unfold Vol.bmDirty
  dsimp only
  split_ifs <;> rfl

@[simp]
theorem dev_bmDirty (v : Vol) (i : UInt64) : (v.bmDirty i).dev = v.dev := by
  unfold Vol.bmDirty
  dsimp only
  split_ifs <;> rfl

theorem frame_refl (v : Vol) : Frame v v :=
  ⟨rfl, fun _ h => h, fun _ h => h, fun _ h h' => absurd h' (by simp [h]), rfl, [], by simp, by simp⟩

instance : Std.Refl Frame := ⟨frame_refl⟩

variable {v : Vol}

theorem frame_free {u : Vol} (h : Frame u v) {p : UInt64} (hp : v.bit p = false) : u.bit p = false := by
  by_contra hb
  have := h.bits p (by simpa using hb)
  rw [hp] at this
  cases this

theorem frame_trans {u w : Vol} (h : Frame u v) (h' : Frame v w) : Frame u w := by
  obtain ⟨qs, hqs, hq⟩ := h.pending
  obtain ⟨qs', hqs', hq'⟩ := h'.pending
  refine ⟨h'.total.trans h.total, fun p hp => h'.bits p (h.bits p hp), fun p hp => h'.marks p (h.marks p hp),
    fun p hu hw => ?_, h'.durable.trans h.durable, qs ++ qs', by rw [hqs', hqs, append_assoc], ?_⟩
  · cases hv : v.bit p with
    | false => exact h'.fresh p hv hw
    | true => exact h'.marks p (h.fresh p hu hv)
  · intro q hm
    obtain hm | hm := mem_append.mp hm
    · exact hq q hm
    · exact frame_free h (hq' q hm)

theorem keeps_seq {α β : Type} {x : Act Vol α} {f : α → Act Vol β} (hx : Keeps Frame x)
    (hf : ∀ a, Keeps Frame (f a)) : Keeps Frame (x >>= f) :=
  keeps_bind (R := Frame) (fun _ _ _ => frame_trans) hx hf

variable {v' : Vol}

theorem frame_view (h : Frame v v') {p : UInt64} (hp : v.bit p = true) : v'.dev.view p = v.dev.view p := by
  obtain ⟨qs, hqs, hq⟩ := h.pending
  rw [Store.view, Store.view, hqs, h.durable, settle_append]
  refine settle_other p qs _ fun q hm he => ?_
  rw [← he, hq q hm] at hp
  exact absurd hp (by simp)

variable {p : Ptr} {page : List Byte}

theorem readPage_some (h : readPage crc v p = some page) :
    p.pba ≠ 0 ∧ p.pba < v.total ∧ v.bit p.pba = true ∧ PtrMatches crc p page ∧ page = v.dev.view p.pba := by
  simp only [readPage, ite_none_left_eq_some, some.injEq, not_or, not_not] at h
  obtain ⟨⟨h0, hlt, hb, hm⟩, rfl⟩ := h
  exact ⟨h0, UInt64.not_le.mp hlt, by simpa using hb, hm, rfl⟩

theorem readPage_frame (hf : Frame v v') (h : readPage crc v p = some page) : readPage crc v' p = some page := by
  obtain ⟨h0, hlt, hb, hm, rfl⟩ := readPage_some crc h
  have hview := frame_view hf hb
  rw [readPage, if_neg, hview]
  rw [hf.total, hf.bits _ hb, hview]
  simp only [not_or, not_not]
  exact ⟨h0, UInt64.not_le.mpr hlt, by simp, hm⟩

variable {n : Nat × List Ent}

theorem readNode_some (h : readNode crc v p = some n) :
    ∃ page, readPage crc v p = some page ∧ decodeNode page = some n :=
  bind_eq_some_iff.mp h

theorem readNode_frame (hf : Frame v v') (h : readNode crc v p = some n) : readNode crc v' p = some n := by
  obtain ⟨page, hpage, hdec⟩ := readNode_some crc h
  exact bind_eq_some_iff.mpr ⟨page, readPage_frame crc hf hpage, hdec⟩

theorem holds_frame (hf : Frame v v') {t : Item h} (ht : Holds crc v h t) : Holds crc v' h t := by
  induction h with
  | zero => trivial
  | succ h ih => exact ⟨readNode_frame crc hf ht.1, fun r hr => ih (ht.2 r hr)⟩

theorem holds_pages {t : Item h} (ht : Holds crc v h t) : ∀ p ∈ pages h t, p ≠ 0 ∧ p < v.total ∧ v.bit p = true := by
  induction h with
  | zero => simp [pages]
  | succ h ih =>
    intro p hp
    obtain rfl | hp := mem_cons.mp hp
    · obtain ⟨page, hpage, -⟩ := readNode_some crc ht.1
      obtain ⟨h0, hlt, hb, -⟩ := readPage_some crc hpage
      exact ⟨h0, hlt, hb⟩
    · obtain ⟨r, hr, hp⟩ := mem_flatMap.mp hp
      exact ih (ht.2 r hr) p hp

theorem readNode_fits {p : Ptr} {n : Nat × List Ent} (hread : readNode crc v p = some n) :
    used n.1 n.2 ≤ pageSize ∧ ∀ e ∈ n.2, Plain n.1 e := by
  obtain ⟨page, hpage, hdec⟩ := readNode_some crc hread
  obtain ⟨-, -, -, hm, -⟩ := readPage_some crc hpage
  exact decodeNode_fits hm.1 hdec

theorem holds_used (ht : Holds crc v (h + 1) t) : used h (t.2.map (entOf h)) ≤ pageSize :=
  (readNode_fits crc ht.1).1

theorem holds_unique {t' : Item (h + 1)} (ht : Holds crc v (h + 1) t)
    (ht' : Holds crc v (h + 1) t') (heq : t.1 = t'.1) : t = t' := by
  induction h with
  | zero =>
    have hes : t.2.map (entOf 0) = t'.2.map (entOf 0) := by
      have := ht.1.symm.trans (heq ▸ ht'.1)
      simpa using this
    refine Prod.ext heq (map_injective_iff.mpr ?_ hes)
    rintro ⟨k, x⟩ ⟨k', x'⟩ he
    simpa [entOf] using he
  | succ h ih =>
    have hes : t.2.map (entOf (h + 1)) = t'.2.map (entOf (h + 1)) := by
      have := ht.1.symm.trans (heq ▸ ht'.1)
      simpa using this
    refine Prod.ext heq ?_
    have hlen : t.2.length = t'.2.length := by simpa using congrArg List.length hes
    refine ext_getElem hlen fun i h1 h2 => ?_
    have hi : entOf (h + 1) t.2[i] = entOf (h + 1) t'.2[i] := by
      have := congrArg (fun es => es[i]?) hes
      simpa [h1, h2] using this
    obtain ⟨hk, -, hp⟩ := Ent.mk.inj hi
    exact Prod.ext hk (ih (ht.2 _ (getElem_mem h1)) (ht'.2 _ (getElem_mem h2)) hp)

variable {level : Nat} {es : List Ent}

theorem readNode_level (h : readNode crc v p = some (level, es)) : level < 2 ^ 16 := by
  obtain ⟨page, -, hdec⟩ := readNode_some crc h
  rw [← (decodeNode_cases hdec).1]
  refine (leNat_lt _).trans_le ?_
  have hlen : ((page.drop 12).take 2).length ≤ 2 := by simp
  exact Nat.pow_le_pow_right (by decide) hlen

theorem readNode_flags (v : Vol) (p : Ptr) (flags : UInt32) :
    readNode crc v { p with flags := flags } = readNode crc v p := rfl

theorem firstKey_node {e : Ent}
    (h : readNode crc v p = some (level, e :: es)) : runs (firstKey crc p) v = (some e.k, v) := by
  obtain ⟨page, hpage, hdec⟩ := readNode_some crc h
  obtain ⟨-, -, -, hm, -⟩ := readPage_some crc hpage
  rw [firstKey, runs_act, hpage, Option.bind_some, pageFirstKey_decode hm.1 hdec]

end InvariantFs.BtreeShape
