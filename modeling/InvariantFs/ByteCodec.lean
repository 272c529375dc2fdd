import Mathlib.Data.Set.Card

namespace InvariantFs.ByteCodec

open List

abbrev Byte := Fin 256

instance neZero : NeZero 256 := ⟨by decide⟩

instance : LawfulBEq Byte := inferInstance

def byte (n : Nat) : Byte := Fin.ofNat 256 n

def wr16be (n : Nat) : List Byte := [byte (n / 2 ^ 8), byte n]

def rd16be (a b : Byte) : Nat := a.val * 2 ^ 8 + b.val

def wr32be (n : Nat) : List Byte :=
  [byte (n / 2 ^ 24), byte (n / 2 ^ 16), byte (n / 2 ^ 8), byte n]

def rd32be (a b c d : Byte) : Nat := a.val * 2 ^ 24 + b.val * 2 ^ 16 + c.val * 2 ^ 8 + d.val

def wr64be (n : Nat) : List Byte := wr32be (n / 2 ^ 32) ++ wr32be n

def rd64be : List Byte → Nat
  | [a, b, c, d, e, f, g, h] => rd32be a b c d * 2 ^ 32 + rd32be e f g h
  | _ => 0

variable (c : UInt32)

def wr32 : List Byte :=
  [byte c.toNat, byte (c.toNat / 2 ^ 8), byte (c.toNat / 2 ^ 16), byte (c.toNat / 2 ^ 24)]

def rd32 (a b c d : Byte) : Nat := a.val + b.val * 2 ^ 8 + c.val * 2 ^ 16 + d.val * 2 ^ 24

def crcShift : UInt32 :=
  (List.range 8).foldl (fun c _ => if c &&& 1 = 1 then (0x82F63B78 : UInt32) ^^^ (c >>> 1) else c >>> 1) c

def crc32c (data : List Byte) : UInt32 :=
  data.foldl (fun c b => crcShift ((c ^^^ UInt32.ofNat b.val) &&& 0xFF) ^^^ (c >>> 8))
    (0xFFFFFFFF : UInt32) ^^^ 0xFFFFFFFF

@[simp]
theorem val_byte (n : Nat) : (byte n).val = n % 256 := rfl

@[simp]
theorem length_wr16be (n : Nat) : (wr16be n).length = 2 := rfl

@[simp]
theorem length_wr32be (n : Nat) : (wr32be n).length = 4 := rfl

@[simp]
theorem length_wr64be (n : Nat) : (wr64be n).length = 8 := rfl

@[simp]
theorem length_wr32 : (wr32 c).length = 4 := rfl

variable {n : Nat}

theorem rd16be_wr16be (h : n < 2 ^ 16) : rd16be (byte (n / 2 ^ 8)) (byte n) = n := by
  simp only [rd16be, val_byte]
  omega

theorem wr16be_rd16be (a b : Byte) : wr16be (rd16be a b) = [a, b] := by
  have ha := a.isLt
  have hb := b.isLt
  simp only [wr16be, rd16be, List.cons.injEq, Fin.ext_iff, val_byte, and_true]
  omega

theorem rd64be_wr64be (h : n < 2 ^ 64) : rd64be (wr64be n) = n := by
  simp only [rd64be, wr64be, wr32be, rd32be, cons_append, nil_append, val_byte]
  omega

theorem rd32_wr32 :
    rd32 (byte c.toNat) (byte (c.toNat / 2 ^ 8)) (byte (c.toNat / 2 ^ 16)) (byte (c.toNat / 2 ^ 24)) = c.toNat := by
  have h : c.toNat < 2 ^ 32 := c.toNat_lt
  simp only [rd32, val_byte]
  omega

theorem wr32_rd32 {x : UInt32} {a b c d : Byte} (h : x.toNat = rd32 a b c d) : wr32 x = [a, b, c, d] := by
  have ha := a.isLt
  have hb := b.isLt
  have hc := c.isLt
  have hd := d.isLt
  simp only [wr32, h, rd32, List.cons.injEq, Fin.ext_iff, val_byte, and_true]
  omega

def leBytes : Nat → Nat → List Byte
  | 0, _ => []
  | w + 1, n => byte n :: leBytes w (n / 256)

def leNat : List Byte → Nat
  | [] => 0
  | b :: bs => b.val + 256 * leNat bs

theorem leNat_lt (bs : List Byte) : leNat bs < 256 ^ bs.length := by
  induction bs with
  | nil => simp [leNat]
  | cons b bs ih =>
    have hb := b.isLt
    rw [leNat, length_cons, Nat.pow_succ]
    omega

@[simp]
theorem length_leBytes (w n : Nat) : (leBytes w n).length = w := by
  induction w generalizing n with
  | zero => rfl
  | succ w ih => simp [leBytes, ih]

theorem leNat_leBytes {w : Nat} (h : n < 256 ^ w) : leNat (leBytes w n) = n := by
  induction w generalizing n with
  | zero =>
    have hn : n = 0 := by simpa using h
    simp [leBytes, leNat, hn]
  | succ w ih =>
    have hdiv : n / 256 < 256 ^ w := by
      apply Nat.div_lt_of_lt_mul
      rwa [Nat.pow_succ', ] at h
    simp only [leBytes, leNat, val_byte, ih hdiv]
    omega

def splice {α : Type} (off : Nat) (data l : List α) : List α :=
  l.take off ++ data ++ l.drop (off + data.length)

variable {α : Type} {off : Nat}

theorem splice_middle (pre mid post data : List α) (ho : off = pre.length)
    (hl : data.length = mid.length) : splice off data (pre ++ mid ++ post) = pre ++ data ++ post := by
  subst ho
  have hd : pre.length + data.length = (pre ++ mid).length := by simp [hl]
  rw [splice, hd, drop_left, append_assoc pre mid post, take_left]

theorem splice_inside (pre mid post data : List α) (hlo : pre.length ≤ off)
    (hhi : off + data.length ≤ pre.length + mid.length) :
    ∃ mid', mid'.length = mid.length ∧ splice off data (pre ++ mid ++ post) = pre ++ mid' ++ post := by
  refine ⟨splice (off - pre.length) data mid, ?_, ?_⟩
  · simp only [splice, length_append, length_take, length_drop]
    omega
  · have hoff : off = pre.length + (off - pre.length) := by omega
    have hd : off + data.length = pre.length + (off - pre.length + data.length) := by omega
    rw [splice, splice, append_assoc pre mid post]
    conv_lhs => rw [hd, hoff]
    rw [take_length_add_append, drop_length_add_append,
      take_append_of_le_length (by omega), drop_append_of_le_length (by omega)]
    simp [append_assoc]

@[simp] theorem splice_nil (off : Nat) (l : List α) : splice off [] l = l := by
  simp [splice]

theorem length_splice {data l : List α} (h : off + data.length ≤ l.length) :
    (splice off data l).length = l.length := by
  simp only [splice, length_append, length_take, length_drop]
  omega

theorem splice_splice (data data' : List α) {l : List α} (h : off ≤ l.length) :
    splice (off + data.length) data' (splice off data l) = splice off (data ++ data') l := by
  have hpre : (l.take off ++ data).length = off + data.length := by rw [length_append, length_take, Nat.min_eq_left h]
  have hdrop : (splice off data l).drop (off + data.length + data'.length) =
      l.drop (off + (data ++ data').length) := by
    rw [splice, ← hpre, drop_length_add_append, drop_drop, hpre, length_append, Nat.add_assoc]
  have htake : (splice off data l).take (off + data.length) = l.take off ++ data := take_left' hpre
  rw [splice, hdrop, htake, splice, append_assoc (l.take off)]

theorem take_splice (data : List α) {l : List α} (h : off ≤ l.length)
    (hn : n ≤ off) : (splice off data l).take n = l.take n := by
  have hlen : n ≤ (l.take off).length := by
    rw [length_take]
    omega
  rw [splice, append_assoc, take_append_of_le_length hlen, take_take, Nat.min_eq_left hn]

theorem splice_before (data data' : List α) {l : List α} (h : off + data.length ≤ l.length) :
    splice off data (splice (off + data.length) data' l) = splice off (data ++ data') l := by
  have hdrop : (splice (off + data.length) data' l).drop (off + data.length) =
      data' ++ l.drop (off + data.length + data'.length) := by
    rw [splice, append_assoc, drop_left' (by simpa using h)]
  rw [splice, take_splice _ h (Nat.le_add_right ..), hdrop, splice, length_append, Nat.add_assoc, append_assoc,
    append_assoc, append_assoc]

end InvariantFs.ByteCodec
