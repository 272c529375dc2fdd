import Mathlib.Data.List.TakeWhile
import Mathlib.Data.Nat.Digits.Lemmas
import InvariantFs.Namespace

namespace InvariantFs.SiblingNames

open ByteCodec Namespace List Nat Bool

def isDigit (b : Byte) : Bool := 0x30 ≤ b.val ∧ b.val ≤ 0x39

/-- What `cpack_sanitize` leaves of a member's name. -/
def isSanitized (b : Byte) : Bool :=
  0x41 ≤ b.val ∧ b.val ≤ 0x5a ∨ 0x61 ≤ b.val ∧ b.val ≤ 0x7a ∨ isDigit b ∨ b = 0x2e ∨ b = 0x5f ∨ b = 0x2d

/-- `invfs_sibling_tag`. `invfs_register_sibling_tag` refuses an empty one. -/
structure Tag where
  tag : Name
  hasDigits : Bool
  ne : tag ≠ []

def recipe : Name := [0x72, 0x65, 0x63, 0x69, 0x70, 0x65]
def mbrmap : Name := [0x6d, 0x62, 0x72, 0x6d, 0x61, 0x70]
def mbrt : Name := [0x6d, 0x62, 0x72, 0x74]
def part : Name := [0x70, 0x61, 0x72, 0x74]
def jxl : Name := [0x6a, 0x78, 0x6c]
def nbli : Name := [0x6e, 0x62, 0x6c, 0x69]
def cover : Name := [0x63, 0x6f, 0x76, 0x65, 0x72]
def exr : Name := [0x65, 0x78, 0x72]

/-- The tags that are there before any pack registers its own. -/
def builtinTags : List Tag :=
  [⟨recipe, false, by decide⟩, ⟨mbrmap, false, by decide⟩, ⟨mbrt, false, by decide⟩, ⟨part, true, by decide⟩,
    ⟨jxl, false, by decide⟩, ⟨nbli, false, by decide⟩, ⟨cover, true, by decide⟩, ⟨exr, true, by decide⟩]

def Tag.fits (t : Tag) (suf : Name) : Bool :=
  if t.hasDigits then t.tag.length < suf.length ∧ t.tag.isPrefixOf suf ∧ (suf.drop t.tag.length).all isDigit
  else suf = t.tag

/-- The text `mbr`. -/
def mbr : Name := [0x6d, 0x62, 0x72]

def dash : Byte := 0x2d

def memberRest : Name → Bool
  | [] => true
  | c :: san => c = dash ∧ san ≠ [] ∧ san.all isSanitized

/-- `mbr`, four digits, and the rest. -/
def memberShape : Name → Bool
  | m :: b :: r :: d₀ :: d₁ :: d₂ :: d₃ :: rest =>
    [m, b, r] = mbr ∧ isDigit d₀ ∧ isDigit d₁ ∧ isDigit d₂ ∧ isDigit d₃ ∧ memberRest rest
  | _ => false

variable (tags : List Tag) (suf : Name)

def sibSegmentIsInternalShape : Bool := tags.any (·.fits suf) || memberShape suf

/-- The loop of `sib_suffix_is_internal`. -/
def suffixLoop (tags : List Tag) : Nat → Name → Bool
  | 0, _ => false
  | fuel + 1, suf =>
    sibSegmentIsInternalShape tags (suf.takeWhile (· ≠ bang)) &&
      match suf.dropWhile (· ≠ bang) with
      | [] => true
      | _ :: rest => rest ≠ [] && suffixLoop tags fuel rest

def sibSuffixIsInternal : Bool := suffixLoop tags (suf.length + 1) suf

def cpackMaxIdx : Nat := 1048575

def digit (d : Nat) : Byte := Fin.ofNat 256 (0x30 + d)

/-- `%04u` -/
def fourDigits (n : Nat) : List Byte :=
  if n < 10000 then [digit (n / 1000), digit (n / 100 % 10), digit (n / 10 % 10), digit (n % 10)]
  else (digits 10 n).reverse.map digit

/-- `cpack_mbr_name`, behind the container's name and the mark. -/
def cpackMbrName (idx : Nat) (san : Name) : Name := mbr ++ fourDigits idx ++ if san = [] then [] else dash :: san

/-- Every part of the suffix is a registered tag or names a member of four digits. -/
def Shaped : Prop :=
  ∀ seg ∈ suf.splitOn bang, tags.any (·.fits seg) = true ∨
    ∃ idx < 10000, ∃ san : Name, san.all isSanitized = true ∧ seg = cpackMbrName idx san

/-- `%u` -/
def decimal (n : Nat) : Name := if n = 0 then [digit 0] else (digits 10 n).reverse.map digit

def siblingReserve : Nat := 16

def cpackNameReserve : Nat := 40

def cpackSnameMax : Nat := 24

def exeMaxMedia : Nat := 64

/-- What a lane prints behind the mark, with the room it asks for behind the name it starts from. The parts
and covers are counted by 32 bits. -/
inductive Prints : Nat → Name → Prop
  | word {w : Name} (h : w ∈ [recipe, jxl, nbli]) : Prints siblingReserve w
  | numbered {w : Name} {bound n : Nat} (h : (w, bound) ∈ [(part, 2 ^ 32), (cover, 2 ^ 32), (exr, exeMaxMedia)])
      (hn : n < bound) : Prints siblingReserve (w ++ decimal n)
  | table {w : Name} (h : w ∈ [mbrt, mbrmap]) : Prints cpackNameReserve w
  | member {idx : Nat} {san : Name} (hidx : idx ≤ cpackMaxIdx) (hsan : san.all isSanitized = true)
      (hlen : san.length ≤ cpackSnameMax) : Prints cpackNameReserve (cpackMbrName idx san)

/-- A lane that takes `base` apart mints the name. -/
def Mints (base m : Name) : Prop :=
  ∃ room w, Prints room w ∧ base.length + room ≤ maxName ∧ m = base ++ bang :: w

/-- The name stems from `c`, through any number of lanes. -/
def Minted (c m : Name) : Prop := Relation.TransGen Mints c m

theorem decimal_length {n : Nat} (h : n < 2 ^ 32) : (decimal n).length ≤ 10 := by
  unfold decimal
  split_ifs
  · exact Nat.le_add_left 1 9
  · rw [length_map, length_reverse]
    exact digits_length_le_iff (by decide) n |>.mpr (h.trans (by decide))

theorem fourDigits_length {idx : Nat} (h : idx ≤ cpackMaxIdx) : (fourDigits idx).length ≤ 7 := by
  unfold fourDigits
  split_ifs
  · exact Nat.le_add_left 4 3
  · rw [length_map, length_reverse]
    exact digits_length_le_iff (by decide) idx |>.mpr (h.trans_lt (by decide))

/-- The room a lane asks for is enough. -/
theorem Prints.length_lt {room : Nat} {w : Name} (h : Prints room w) : w.length < room := by
  cases h with
  | word h => exact (by decide : ∀ w ∈ [recipe, jxl, nbli], w.length < siblingReserve) w h
  | table h => exact (by decide : ∀ w ∈ [mbrt, mbrmap], w.length < cpackNameReserve) w h
  | @numbered w bound n h hn =>
    have hw : w.length ≤ 5 ∧ bound ≤ 2 ^ 32 :=
      (by decide : ∀ q ∈ [(part, 2 ^ 32), (cover, 2 ^ 32), (exr, exeMaxMedia)], q.1.length ≤ 5 ∧ q.2 ≤ 2 ^ 32) _ h
    have hdec := decimal_length (hn.trans_le hw.2)
    rw [length_append, siblingReserve]
    omega
  | @member idx san hidx _ hlen =>
    have hfour := fourDigits_length hidx
    have hrest : (if san = [] then [] else dash :: san).length ≤ san.length + 1 := by split_ifs <;> simp
    rw [cpackSnameMax] at hlen
    rw [cpackMbrName, length_append, length_append, cpackNameReserve]
    have hmbr : mbr.length = 3 := rfl
    omega

theorem Minted.extends {c m : Name} (h : Minted c m) : ∃ suf, m = c ++ bang :: suf := by
  induction h with
  | single h =>
    obtain ⟨room, w, -, -, rfl⟩ := h
    exact ⟨w, rfl⟩
  | tail _ h ih =>
    obtain ⟨room, w, -, -, rfl⟩ := h
    obtain ⟨suf, rfl⟩ := ih
    exact ⟨suf ++ bang :: w, append_assoc c (bang :: suf) (bang :: w)⟩

/-- No lane mints a name that is too long for the cascade. -/
theorem Minted.short {c m : Name} (h : Minted c m) : m.length < 256 := by
  obtain ⟨base, -, room, w, hw, hroom, rfl⟩ := (Relation.TransGen.tail'_iff).mp h
  have := hw.length_lt
  rw [maxName] at hroom
  rw [length_append, length_cons]
  omega

theorem isDigit_digit {d : Nat} (h : d < 10) : isDigit (digit d) = true := by
  have hval : (digit d).val = 0x30 + d := mod_eq_of_lt (by omega)
  simp only [isDigit, hval, decide_eq_true_eq]
  omega

theorem digit_of_isDigit {b : Byte} (h : isDigit b = true) : digit (b.val - 0x30) = b ∧ b.val - 0x30 < 10 := by
  have hb : 0x30 ≤ b.val ∧ b.val ≤ 0x39 := by simpa [isDigit] using h
  refine ⟨Fin.ext ?_, by omega⟩
  change (0x30 + (b.val - 0x30)) % 256 = b.val
  omega

theorem memberShape_iff (seg : Name) : memberShape seg = true ↔
    ∃ idx < 10000, ∃ san : Name, san.all isSanitized = true ∧ seg = cpackMbrName idx san := by
  constructor
  · intro h
    match seg, h with
    | m :: b :: r :: d0 :: d1 :: d2 :: d3 :: rest, h =>
      simp only [memberShape, decide_eq_true_eq] at h
      obtain ⟨hmbr, h0, h1, h2, h3, hrest⟩ := h
      obtain ⟨e0, l0⟩ := digit_of_isDigit h0
      obtain ⟨e1, l1⟩ := digit_of_isDigit h1
      obtain ⟨e2, l2⟩ := digit_of_isDigit h2
      obtain ⟨e3, l3⟩ := digit_of_isDigit h3
      generalize d0.val - 0x30 = n0 at e0 l0
      generalize d1.val - 0x30 = n1 at e1 l1
      generalize d2.val - 0x30 = n2 at e2 l2
      generalize d3.val - 0x30 = n3 at e3 l3
      have hlt : n0 * 1000 + n1 * 100 + n2 * 10 + n3 < 10000 := by omega
      have hdigits : fourDigits (n0 * 1000 + n1 * 100 + n2 * 10 + n3) = [d0, d1, d2, d3] := by
        rw [fourDigits, if_pos hlt, ← e0, ← e1, ← e2, ← e3]
        congr <;> omega
      refine ⟨_, hlt, rest.tail, ?_, ?_⟩
      · cases rest with
        | nil => rfl
        | cons c san => exact (of_decide_eq_true hrest).2.2
      · rw [cpackMbrName, hdigits, ← hmbr]
        cases rest with
        | nil => rfl
        | cons c san =>
          obtain ⟨rfl, hne, -⟩ := of_decide_eq_true hrest
          rw [tail_cons, if_neg hne]
          rfl
  · rintro ⟨idx, hidx, san, hsan, rfl⟩
    rw [cpackMbrName, fourDigits, if_pos hidx]
    have hd : ∀ n, isDigit (digit (n % 10)) = true := fun n => isDigit_digit (mod_lt n (by decide))
    have h0 : isDigit (digit (idx / 1000)) = true := isDigit_digit (by omega)
    have hrest : memberRest (if san = [] then [] else dash :: san) = true := by
      split_ifs with hnil
      · rfl
      · exact decide_eq_true ⟨rfl, hnil, hsan⟩
    exact decide_eq_true ⟨rfl, h0, hd _, hd _, hd _, hrest⟩

theorem shape_nil : sibSegmentIsInternalShape tags [] = false := by
  have hfits : ∀ t ∈ tags, t.fits [] = false := by
    intro t _
    unfold Tag.fits
    split_ifs
    · simp
    · simpa using Ne.symm t.ne
  simp [sibSegmentIsInternalShape, memberShape, any_eq_false]
  exact fun t ht => by simp [hfits t ht]

theorem splitOn_bang {seg : Name} (h : bang ∉ seg) (rest : Name) :
    (seg ++ bang :: rest).splitOn bang = seg :: rest.splitOn bang := by
  apply splitOnP_append_cons_of_forall_mem
  · intro x hx
    exact beq_false_of_ne (fun heq => h (heq ▸ hx))
  · exact beq_self_eq_true _

theorem splitOn_whole {seg : Name} (h : bang ∉ seg) : seg.splitOn bang = [seg] := by
  apply splitOnP_eq_singleton
  intro x hx
  exact beq_false_of_ne (fun heq => h (heq ▸ hx))

theorem suffixLoop_iff {fuel : Nat} {suf : Name} (hfuel : suf.length < fuel) :
    suffixLoop tags fuel suf = true ↔ ∀ seg ∈ suf.splitOn bang, sibSegmentIsInternalShape tags seg = true := by
  induction fuel generalizing suf with
  | zero => omega
  | succ fuel ih =>
    have hsplit := takeWhile_append_dropWhile (p := fun b => decide (b ≠ bang)) (l := suf)
    have hfree : bang ∉ suf.takeWhile (· ≠ bang) := fun hmem => by
      simpa using mem_takeWhile_imp hmem
    rw [suffixLoop]
    cases hrest : suf.dropWhile (· ≠ bang) with
    | nil =>
      rw [hrest, append_nil] at hsplit
      rw [hsplit] at hfree ⊢
      rw [splitOn_whole hfree]
      simp
    | cons b rest =>
      have hb : b = bang := by
        have := List.head?_dropWhile_not (fun b => decide (b ≠ bang)) suf
        rw [hrest] at this
        simpa using this
      subst hb
      rw [hrest] at hsplit
      have hlen : rest.length < fuel := by
        rw [← hsplit, length_append, length_cons] at hfuel
        omega
      conv_rhs => rw [← hsplit, splitOn_bang hfree]
      rw [forall_mem_cons, ← ih hlen, and_eq_true, and_eq_true]
      refine and_congr Iff.rfl ⟨fun h => h.2, fun h => ⟨decide_eq_true ?_, h⟩⟩
      rintro rfl
      have hnil := (ih hlen).mp h [] (by simp)
      rw [shape_nil] at hnil
      cases hnil

theorem sibSuffixIsInternal_iff : sibSuffixIsInternal tags suf = true ↔ Shaped tags suf := by
  rw [sibSuffixIsInternal, suffixLoop_iff tags (lt_succ_self _)]
  refine forall₂_congr fun seg _ => ?_
  rw [sibSegmentIsInternalShape, or_eq_true, memberShape_iff]

end InvariantFs.SiblingNames
