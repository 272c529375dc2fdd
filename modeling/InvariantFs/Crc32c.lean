import InvariantFs.ByteCodec
import Mathlib.Logic.Function.Iterate

namespace InvariantFs.Crc32c

open ByteCodec Function List

def crcBit (c : UInt32) : UInt32 := if c &&& 1 = 1 then (0x82F63B78 : UInt32) ^^^ (c >>> 1) else c >>> 1

def word (b : Byte) : UInt32 := .ofNat b.val

def bitsStep (c : UInt32) (b : Byte) : UInt32 := crcBit^[8] (c ^^^ word b)

/-- The definition of CRC-32C, bit by bit. -/
def crcBits (crc : UInt32) (data : List Byte) : UInt32 := ~~~ data.foldl bitsStep (~~~ crc)

def table8 : Nat → UInt32 → UInt32
  | 0, i => crcShift i
  | k + 1, i => crcShift (table8 k i &&& 0xFF) ^^^ (table8 k i >>> 8)

def tableStep (c : UInt32) (b : Byte) : UInt32 := (c >>> 8) ^^^ crcShift ((c ^^^ word b) &&& 0xFF)

def sliceLoop (c : UInt32) : List Byte → UInt32
  | b₀ :: b₁ :: b₂ :: b₃ :: b₄ :: b₅ :: b₆ :: b₇ :: data =>
    let lo := UInt32.ofNat (rd32 b₀ b₁ b₂ b₃) ^^^ c
    let hi := UInt32.ofNat (rd32 b₄ b₅ b₆ b₇)
    sliceLoop (table8 7 (lo &&& 0xFF) ^^^ table8 6 ((lo >>> 8) &&& 0xFF) ^^^ table8 5 ((lo >>> 16) &&& 0xFF) ^^^
      table8 4 ((lo >>> 24) &&& 0xFF) ^^^ table8 3 (hi &&& 0xFF) ^^^ table8 2 ((hi >>> 8) &&& 0xFF) ^^^
      table8 1 ((hi >>> 16) &&& 0xFF) ^^^ table8 0 ((hi >>> 24) &&& 0xFF)) data
  | data => data.foldl tableStep c

/-- The bytes up to the first aligned address go one by one. -/
def alignLoop (addr : Nat) (c : UInt32) : List Byte → UInt32
  | [] => c
  | b :: data => if addr % 8 = 0 then sliceLoop c (b :: data) else alignLoop (addr + 1) (tableStep c b) data

def crc32cSlice8 (addr : Nat) (crc : UInt32) (data : List Byte) : UInt32 := ~~~ alignLoop addr (~~~ crc) data

/-- `hw` is whether the instructions of the processor are used, which go by the definition. -/
def crc32cUpdate (hw : Bool) (addr : Nat) (crc : UInt32) (data : List Byte) : UInt32 :=
  if hw then crcBits crc data else crc32cSlice8 addr crc data

variable (n : Nat) (c : UInt32) (b : Byte) (data : List Byte)

theorem crcBit_eq : crcBit c = (c >>> 1) ^^^ if c.toNat % 2 = 1 then 0x82F63B78 else 0 := by
  have hbit : c &&& 1 = 1 ↔ c.toNat % 2 = 1 := by
    rw [← UInt32.toNat_inj, UInt32.toNat_and]
    simp
  unfold crcBit
  simp only [hbit]
  split_ifs
  · exact UInt32.xor_comm _ _
  · exact UInt32.xor_zero.symm

theorem crcBit_xor (d : UInt32) : crcBit (c ^^^ d) = crcBit c ^^^ crcBit d := by
  simp only [crcBit_eq, UInt32.shiftRight_xor, UInt32.toNat_xor, Nat.xor_mod_two_eq_one]
  have hpoly : ∀ p q : Prop, [Decidable p] → [Decidable q] → (if ¬ (p ↔ q) then (0x82F63B78 : UInt32) else 0) =
      (if p then 0x82F63B78 else 0) ^^^ if q then 0x82F63B78 else 0 := by
    intro p q _ _
    by_cases hp : p <;> by_cases hq : q <;> simp [hp, hq]
  rw [hpoly]
  ac_rfl

theorem iterate_xor (d : UInt32) : crcBit^[n] (c ^^^ d) = crcBit^[n] c ^^^ crcBit^[n] d := by
  induction n generalizing c d with
  | zero => rfl
  | succ n ih => rw [iterate_succ_apply, crcBit_xor, ih, ← iterate_succ_apply, ← iterate_succ_apply]

theorem toNat_shift : (c >>> 8).toNat = c.toNat / 2 ^ 8 := by
  simp [Nat.shiftRight_eq_div_pow]

theorem toNat_low : (c &&& 0xFF).toNat = c.toNat % 2 ^ 8 := by
  rw [UInt32.toNat_and]
  exact Nat.and_two_pow_sub_one_eq_mod _ 8

/-- A word whose low bits are clear only moves down. -/
theorem iterate_clear {c : UInt32} {q : Nat} (h : c.toNat = 2 ^ n * q) : (crcBit^[n] c).toNat = q := by
  induction n generalizing c with
  | zero => simpa using h
  | succ n ih =>
    rw [Nat.pow_succ', Nat.mul_assoc] at h
    rw [iterate_succ_apply]
    apply ih
    rw [crcBit_eq, if_neg (by omega)]
    simp [h, Nat.shiftRight_eq_div_pow]

theorem iterate_eight : crcBit^[8] c = crcBit^[8] (c &&& 0xFF) ^^^ (c >>> 8) := by
  have hmod : (c ^^^ (c &&& 0xFF)).toNat % 2 ^ 8 = 0 := by
    rw [UInt32.toNat_xor, Nat.xor_mod_two_pow, toNat_low, Nat.mod_mod, Nat.xor_self]
  have hdiv : (c ^^^ (c &&& 0xFF)).toNat / 2 ^ 8 = (c >>> 8).toNat := by
    rw [toNat_shift, UInt32.toNat_xor, Nat.xor_div_two_pow, toNat_low, Nat.div_eq_of_lt (Nat.mod_lt _ (by decide)),
      Nat.xor_zero]
  have hhigh : crcBit^[8] (c ^^^ (c &&& 0xFF)) = c >>> 8 :=
    UInt32.toNat_inj.mp (iterate_clear 8 (by omega))
  rw [← hhigh, ← iterate_xor]
  congr 1
  rw [UInt32.xor_comm, UInt32.xor_assoc, UInt32.xor_self, UInt32.xor_zero]

theorem table8_eq (i : UInt32) : table8 n i = crcBit^[8 * (n + 1)] i := by
  induction n with
  | zero => rfl
  | succ n ih =>
    have hstep : table8 (n + 1) i = crcBit^[8] (table8 n i) := (iterate_eight _).symm
    rw [hstep, ih, ← iterate_add_apply]
    congr 1
    omega

/-- A byte and the bytes above it, loaded as one word. -/
theorem iterate_load {m : Nat} (hm : m < 2 ^ 24) :
    crcBit^[8] (.ofNat (b.val + 2 ^ 8 * m) ^^^ c) = .ofNat m ^^^ bitsStep c b := by
  have hb := b.isLt
  have hlow : UInt32.ofNat (b.val + 2 ^ 8 * m) &&& 0xFF = word b :=
    UInt32.toNat_inj.mp (by rw [toNat_low]; simp [word]; omega)
  have hhigh : UInt32.ofNat (b.val + 2 ^ 8 * m) >>> 8 = .ofNat m :=
    UInt32.toNat_inj.mp (by rw [toNat_shift]; simp; omega)
  unfold bitsStep
  rw [iterate_xor, iterate_eight, hlow, hhigh, iterate_xor]
  ac_rfl

theorem iterate_rd32 (b₀ b₁ b₂ b₃ : Byte) :
    crcBit^[32] (.ofNat (rd32 b₀ b₁ b₂ b₃) ^^^ c) = [b₀, b₁, b₂, b₃].foldl bitsStep c := by
  have hrd : rd32 b₀ b₁ b₂ b₃ = b₀.val + 2 ^ 8 * (b₁.val + 2 ^ 8 * (b₂.val + 2 ^ 8 * (b₃.val + 2 ^ 8 * 0))) := by
    unfold rd32
    omega
  rw [hrd, iterate_add_apply _ 24 8, iterate_load _ _ (by omega), iterate_add_apply _ 16 8,
    iterate_load _ _ (by omega), iterate_add_apply _ 8 8, iterate_load _ _ (by omega), iterate_load _ _ (by omega)]
  exact UInt32.zero_xor

theorem tableStep_eq : tableStep c b = bitsStep c b := by
  have hb : word b >>> 8 = 0 := by
    apply UInt32.toNat_inj.mp
    have := b.isLt
    rw [toNat_shift]
    simp [word]
    omega
  unfold bitsStep
  rw [iterate_eight, UInt32.shiftRight_xor, hb, UInt32.xor_zero]
  exact UInt32.xor_comm _ _

theorem iterate_peel : crcBit^[n + 8] c = crcBit^[n + 8] (c &&& 0xFF) ^^^ crcBit^[n] (c >>> 8) := by
  rw [iterate_add_apply, iterate_eight, iterate_xor, ← iterate_add_apply]

theorem iterate_word : crcBit^[32] c = crcBit^[32] (c &&& 0xFF) ^^^ crcBit^[24] ((c >>> 8) &&& 0xFF) ^^^
    crcBit^[16] ((c >>> 16) &&& 0xFF) ^^^ crcBit^[8] ((c >>> 24) &&& 0xFF) := by
  have hc := c.toNat_lt
  have h16 : c >>> 8 >>> 8 = c >>> 16 := UInt32.toNat_inj.mp (by simp [Nat.shiftRight_eq_div_pow]; omega)
  have h24 : c >>> 16 >>> 8 = c >>> 24 := UInt32.toNat_inj.mp (by simp [Nat.shiftRight_eq_div_pow]; omega)
  have h32 : c >>> 24 >>> 8 = 0 := UInt32.toNat_inj.mp (by simp [Nat.shiftRight_eq_div_pow]; omega)
  rw [iterate_peel 24, iterate_peel 16, iterate_peel 8, iterate_peel 0, h16, h24, h32]
  simp [UInt32.xor_assoc]

theorem sliceLoop_eq : sliceLoop c data = data.foldl bitsStep c := by
  fun_induction sliceLoop c data with
  | case1 c b₀ b₁ b₂ b₃ b₄ b₅ b₆ b₇ data lo hi ih =>
    change _ = data.foldl bitsStep ([b₄, b₅, b₆, b₇].foldl bitsStep ([b₀, b₁, b₂, b₃].foldl bitsStep c))
    rw [ih, ← iterate_rd32, ← iterate_rd32, iterate_xor]
    change _ = data.foldl bitsStep (crcBit^[32] hi ^^^ crcBit^[32] (crcBit^[32] lo))
    rw [iterate_word hi, iterate_word lo]
    simp only [table8_eq, iterate_xor, ← iterate_add_apply, Nat.reduceAdd, Nat.reduceMul]
    congr 1
    ac_rfl
  | case2 c data => rw [funext fun c => funext fun b => tableStep_eq c b]

theorem alignLoop_eq (addr : Nat) : alignLoop addr c data = data.foldl bitsStep c := by
  induction data generalizing addr c with
  | nil => rfl
  | cons b data ih =>
    unfold alignLoop
    split_ifs
    · exact sliceLoop_eq c (b :: data)
    · rw [ih, tableStep_eq, foldl_cons]

theorem crc32cUpdate_eq (hw : Bool) (addr : Nat) (crc : UInt32) :
    crc32cUpdate hw addr crc data = crcBits crc data := by
  rw [crc32cUpdate, crc32cSlice8, alignLoop_eq, ← crcBits, ite_self]

/-- `invfs_crc32c`, the checksum of pages and records, is the update of zero. -/
theorem crc32c_update (hw : Bool) (addr : Nat) : crc32c data = crc32cUpdate hw addr 0 data := by
  have hstep : (fun (c : UInt32) (b : Byte) => crcShift ((c ^^^ UInt32.ofNat b.val) &&& 0xFF) ^^^ (c >>> 8)) =
      bitsStep := by
    funext c b
    rw [← tableStep_eq]
    exact UInt32.xor_comm _ _
  rw [crc32cUpdate_eq, crc32c, hstep]
  exact UInt32.xor_neg_one

end InvariantFs.Crc32c
