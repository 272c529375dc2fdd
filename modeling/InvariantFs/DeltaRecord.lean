import InvariantFs.ByteCodec

namespace InvariantFs.DeltaRecord

open ByteCodec List

/-- The flag word of a record: plain records carry 0, `INVFS_DELTA_FLAG_DELETE` is 1 and
`INVFS_DELTA_FLAG_PAD` is 2; every other combination is refused. -/
inductive Kind where
  | put
  | delete
  | pad
  deriving DecidableEq, Repr

def Kind.flags : Kind → Nat
  | .put => 0
  | .delete => 1
  | .pad => 2

def Kind.ofFlags : Nat → Option Kind
  | 0 => some .put
  | 1 => some .delete
  | 2 => some .pad
  | _ => none

/-- A record the log can hold: a nonempty key, 16-bit lengths, and a value on plain puts only. -/
@[ext]
structure Rec where
  kind : Kind
  key : List Byte
  val : List Byte
  key_ne : key ≠ []
  key_lt : key.length < 2 ^ 16
  val_lt : val.length < 2 ^ 16
  val_nil : kind ≠ .put → val = []
  deriving DecidableEq

def Rec.make? (kind : Kind) (key val : List Byte) : Option Rec :=
  if h : key ≠ [] ∧ key.length < 2 ^ 16 ∧ val.length < 2 ^ 16 ∧ (kind ≠ .put → val = []) then
    some ⟨kind, key, val, h.1, h.2.1, h.2.2.1, h.2.2.2⟩
  else none

def recHdrLen : Nat := 10

def Rec.size (r : Rec) : Nat := recHdrLen + r.key.length + r.val.length

variable (crc : List Byte → UInt32)

def recBytes (r : Rec) : List Byte :=
  wr16be r.key.length ++ wr16be r.val.length ++ wr16be r.kind.flags ++
    wr32 (crc (r.key ++ r.val)) ++ r.key ++ r.val

/-- The three answers of `vol_delta_rec_parse`: 0, -1 and 1. -/
inductive Parse where
  | clean
  | bad
  | ok (r : Rec)

/-- `vol_delta_rec_parse` on the bytes from the current offset to the end of the payload. -/
def recParse : List Byte → Parse
  | k₀ :: k₁ :: v₀ :: v₁ :: f₀ :: f₁ :: c₀ :: c₁ :: c₂ :: c₃ :: body =>
    if [k₀, k₁, v₀, v₁, f₀, f₁, c₀, c₁, c₂, c₃] = replicate recHdrLen 0 then .clean
    else
      let kl := rd16be k₀ k₁
      let vl := rd16be v₀ v₁
      match Kind.ofFlags (rd16be f₀ f₁) with
      | none => .bad
      | some kind =>
        if body.length < kl + vl then .bad
        else if (crc (body.take (kl + vl))).toNat ≠ rd32 c₀ c₁ c₂ c₃ then .bad
        else
          match Rec.make? kind (body.take kl) ((body.drop kl).take vl) with
          | none => .bad
          | some r => .ok r
  | _ => .clean

/-- The records a replay accepts, in log order. Every record is longer than its header, so the
payload's length is fuel enough. -/
def scan : Nat → List Byte → List Rec
  | 0, _ => []
  | fuel + 1, p =>
    match recParse crc p with
    | .ok r => r :: scan fuel (p.drop r.size)
    | .clean | .bad => []

def scanValid (p : List Byte) : List Rec := scan crc p.length p

def padRec (kl : Nat) (hpos : 0 < kl) (hlt : kl < 2 ^ 16) : Rec where
  kind := .pad
  key := replicate kl 0
  val := []
  key_ne := by rw [Ne, replicate_eq_nil_iff]; exact hpos.ne'
  key_lt := by rwa [length_replicate]
  val_lt := by decide
  val_nil := fun _ => rfl

/-- `vol_delta_pad_build`: the tombstones that fill a span of exactly `len` bytes. -/
def padBuild (len : Nat) : List Rec :=
  if h : len < recHdrLen + 1 then []
  else if h' : len - recHdrLen ≤ 0xFFFF then
    [padRec (len - recHdrLen) (by simp only [recHdrLen] at *; omega) (by omega)]
  else
    padRec (0xFFFF - recHdrLen) (by decide) (by decide) :: padBuild (len - 0xFFFF)
termination_by len
decreasing_by simp only [recHdrLen] at *; omega

theorem make?_self (r : Rec) : Rec.make? r.kind r.key r.val = some r := by
  rw [Rec.make?, dif_pos ⟨r.key_ne, r.key_lt, r.val_lt, r.val_nil⟩]

theorem ofFlags_flags (k : Kind) : Kind.ofFlags k.flags = some k := by
  cases k <;> rfl

@[simp]
theorem length_recBytes (r : Rec) : (recBytes crc r).length = r.size := by
  simp only [recBytes, length_append, length_wr16be, length_wr32, Rec.size, recHdrLen]

theorem drop_size (r : Rec) (rest : List Byte) : (recBytes crc r ++ rest).drop r.size = rest := by
  rw [← length_recBytes crc r, drop_left]

theorem size_pos (r : Rec) : recHdrLen < r.size := by
  have h := length_pos_iff.mpr r.key_ne
  simp only [Rec.size]
  omega

theorem recParse_recBytes (r : Rec) (rest : List Byte) : recParse crc (recBytes crc r ++ rest) = .ok r := by
  have hk : rd16be (byte (r.key.length / 2 ^ 8)) (byte r.key.length) = r.key.length := rd16be_wr16be r.key_lt
  have hv : rd16be (byte (r.val.length / 2 ^ 8)) (byte r.val.length) = r.val.length := rd16be_wr16be r.val_lt
  have hf : rd16be (byte (r.kind.flags / 2 ^ 8)) (byte r.kind.flags) = r.kind.flags :=
    rd16be_wr16be (by cases r.kind <;> decide)
  -- a zero header would make the key length zero
  have hz : ∀ t, byte (r.key.length / 2 ^ 8) :: byte r.key.length :: t ≠ replicate recHdrLen 0 := by
    intro t h
    have hpos := length_pos_iff.mpr r.key_ne
    simp only [recHdrLen, replicate, List.cons.injEq] at h
    rw [h.1, h.2.1] at hk
    simp [rd16be] at hk
    omega
  have hb : (r.key ++ (r.val ++ rest)).take (r.key.length + r.val.length) = r.key ++ r.val := by
    rw [← append_assoc, ← length_append, take_left]
  have hl : ¬ (r.key ++ (r.val ++ rest)).length < r.key.length + r.val.length := by simp only [length_append]; omega
  simp only [recBytes, wr16be, wr32, cons_append, nil_append, append_assoc,
    recParse, hk, hv, hf, ofFlags_flags, hb, rd32_wr32, hz, if_false, hl, ne_eq, not_true_eq_false]
  rw [take_left, drop_left, take_left, make?_self]

theorem recParse_zeros (n : Nat) : recParse crc (replicate n 0) = .clean := by
  match n with
  | 0 | 1 | 2 | 3 | 4 | 5 | 6 | 7 | 8 | 9 => rfl
  | n + 10 => rfl

def Stops (rest : List Byte) : Prop := ∀ r, recParse crc rest ≠ .ok r

theorem stops_zeros (n : Nat) : Stops crc (replicate n 0) := by
  intro r h
  rw [recParse_zeros] at h
  cases h

variable (rs : List Rec)

theorem scan_records (rest : List Byte) (hs : Stops crc rest) (fuel : Nat)
    (hf : rs.length ≤ fuel) : scan crc fuel (rs.flatMap (recBytes crc) ++ rest) = rs := by
  induction rs generalizing fuel with
  | nil =>
    cases fuel with
    | zero => rfl
    | succ fuel =>
      simp only [flatMap_nil, nil_append, scan]
      split
      · next r h => exact absurd h (hs r)
      · rfl
      · rfl
  | cons r rs ih =>
    cases fuel with
    | zero => simp at hf
    | succ fuel =>
      simp only [flatMap_cons, append_assoc, scan, recParse_recBytes, drop_size]
      rw [ih fuel (by simpa using hf)]

theorem length_le_bytes : rs.length ≤ (rs.flatMap (recBytes crc)).length := by
  induction rs with
  | nil => simp
  | cons r rs ih =>
    have h := size_pos r
    simp only [flatMap_cons, length_append, length_recBytes, length_cons]
    omega

theorem scanValid_records (rest : List Byte) (hs : Stops crc rest) :
    scanValid crc (rs.flatMap (recBytes crc) ++ rest) = rs := by
  refine scan_records crc rs rest hs _ ?_
  have h := length_le_bytes crc rs
  rw [length_append]
  omega

variable {r : Rec}

theorem make?_eq_some {kind : Kind} {key val : List Byte}
    (h : Rec.make? kind key val = some r) : r.kind = kind ∧ r.key = key ∧ r.val = val := by
  rw [Rec.make?] at h
  split at h
  · cases h
    exact ⟨rfl, rfl, rfl⟩
  · cases h

theorem flags_of_ofFlags {n : Nat} {k : Kind} (h : Kind.ofFlags n = some k) : k.flags = n := by
  unfold Kind.ofFlags at h
  split at h <;> cases h <;> rfl

theorem recParse_stored {p : List Byte} (h : recParse crc p = .ok r) : ∃ rest, p = recBytes crc r ++ rest := by
  unfold recParse at h
  split at h
  · next k0 k1 v0 v1 f0 f1 c0 c1 c2 c3 body =>
    split at h
    · cases h
    · simp only at h
      split at h
      · cases h
      · next kind hkind =>
        split at h
        · cases h
        · next hlen =>
          split at h
          · cases h
          · next hcrc =>
            split at h
            · cases h
            · next r' hmake =>
              cases h
              obtain ⟨hk, hkey, hval⟩ := make?_eq_some hmake
              have hkl : r.key.length = rd16be k0 k1 := by
                rw [hkey, length_take]
                omega
              have hvl : r.val.length = rd16be v0 v1 := by
                rw [hval, length_take, length_drop]
                omega
              have hbody : body.take (rd16be k0 k1 + rd16be v0 v1) = r.key ++ r.val := by rw [take_add, hkey, hval]
              refine ⟨body.drop (rd16be k0 k1 + rd16be v0 v1), ?_⟩
              rw [hbody] at hcrc
              rw [recBytes, hkl, hvl, wr16be_rd16be, wr16be_rd16be, hk, flags_of_ofFlags hkind,
                wr16be_rd16be, wr32_rd32 (not_not.mp hcrc), append_assoc _ r.key, ← hbody]
              simp
  · cases h

theorem scan_fuel {fuel fuel' : Nat} {p : List Byte} (h : p.length ≤ fuel) (h' : p.length ≤ fuel') :
    scan crc fuel p = scan crc fuel' p := by
  induction fuel generalizing fuel' p with
  | zero =>
    obtain rfl := eq_nil_of_length_eq_zero (Nat.le_zero.mp h)
    cases fuel' <;> rfl
  | succ fuel ih =>
    cases fuel' with
    | zero =>
      obtain rfl := eq_nil_of_length_eq_zero (Nat.le_zero.mp h')
      rfl
    | succ fuel' =>
      simp only [scan]
      split
      · next r hr =>
        have hpos := size_pos r
        have hdrop : (p.drop r.size).length ≤ fuel ∧ (p.drop r.size).length ≤ fuel' := by
          rw [length_drop]
          omega
        rw [ih hdrop.1 hdrop.2]
      · rfl
      · rfl

theorem scanValid_append (rest : List Byte) :
    scanValid crc (rs.flatMap (recBytes crc) ++ rest) = rs ++ scanValid crc rest := by
  induction rs with
  | nil => rfl
  | cons r rs ih =>
    have hpos := size_pos r
    have hlen : (recBytes crc r ++ (rs.flatMap (recBytes crc) ++ rest)).length =
        r.size + (rs.flatMap (recBytes crc) ++ rest).length := by
      rw [length_append, length_recBytes]
    rw [flatMap_cons, append_assoc, scanValid, hlen,
      show r.size + (rs.flatMap (recBytes crc) ++ rest).length =
        (r.size - 1 + (rs.flatMap (recBytes crc) ++ rest).length) + 1 by omega, scan,
      recParse_recBytes]
    simp only [drop_size]
    rw [scan_fuel crc (by omega) (Nat.le_refl _), ← scanValid, ih, cons_append]

theorem scanValid_split (p : List Byte) :
    ∃ rest, p = (scanValid crc p).flatMap (recBytes crc) ++ rest ∧ Stops crc rest := by
  induction hn : p.length using Nat.strong_induction_on generalizing p with
  | _ n ih =>
    by_cases hs : Stops crc p
    · have hnil : scanValid crc p = [] := by simpa using scanValid_records crc [] p hs
      exact ⟨p, by rw [hnil]; rfl, hs⟩
    · obtain ⟨r, hr⟩ := not_forall_not.mp hs
      obtain ⟨rest, rfl⟩ := recParse_stored crc hr
      have hpos := size_pos r
      have hlt : rest.length < n := by
        rw [← hn, length_append, length_recBytes]
        omega
      obtain ⟨tail, htail, hstop⟩ := ih _ hlt rest rfl
      have hscan : scanValid crc (recBytes crc r ++ rest) = r :: scanValid crc rest := by
        simpa using scanValid_append crc [r] rest
      refine ⟨tail, ?_, hstop⟩
      rw [hscan, flatMap_cons, append_assoc, ← htail]

theorem padBuild_bytes (len : Nat) (h : recHdrLen < len) : ((padBuild len).flatMap (recBytes crc)).length = len := by
  fun_induction padBuild len with
  | case1 len h' => omega
  | case2 len h1 h2 => simp [padRec, Rec.size, recHdrLen] at *; omega
  | case3 len h1 h2 ih =>
    have hlen : recHdrLen < len - 0xFFFF := by simp only [recHdrLen] at *; omega
    rw [flatMap_cons, length_append, ih hlen, length_recBytes]
    simp only [padRec, Rec.size, recHdrLen, length_replicate, length_nil] at *
    omega

theorem padBuild_kind (len : Nat) : ∀ r ∈ padBuild len, r.kind = .pad := by
  fun_induction padBuild len with
  | case1 len h => simp
  | case2 len h1 h2 => simp [padRec]
  | case3 len h1 h2 ih =>
    intro r hr
    rcases mem_cons.mp hr with rfl | hr
    · rfl
    · exact ih r hr

theorem wr32_inj {c d : UInt32} (h : wr32 c = wr32 d) : c = d := by
  simp only [wr32, cons.injEq] at h
  apply UInt32.toNat_inj.mp
  rw [← rd32_wr32 c, h.1, h.2.1, h.2.2.1, h.2.2.2.1, rd32_wr32]

theorem drop_recBytes (r : Rec) (rest : List Byte) :
    (recBytes crc r ++ rest).drop recHdrLen = r.key ++ r.val ++ rest ∧
      ((recBytes crc r ++ rest).drop 6).take 4 = wr32 (crc (r.key ++ r.val)) := by
  simp [recBytes, wr16be, wr32, recHdrLen]

/-- The checksum does not cover the header: altered bytes that keep it are taken for another record just when
they are one, with the same body cut elsewhere or with another flag. -/
theorem altered_iff {b : List Byte} (rest : List Byte) (hlen : b.length = r.size)
    (hfield : (b.drop 6).take 4 = wr32 (crc (r.key ++ r.val)))
    (hcrc : ∀ n, crc (((b ++ rest).drop recHdrLen).take n) = crc (r.key ++ r.val) →
      ((b ++ rest).drop recHdrLen).take n = r.key ++ r.val) :
    (∀ r', recParse crc (b ++ rest) = .ok r' → r' = r) ↔
      ∀ r' : Rec, r'.key ++ r'.val = r.key ++ r.val → b = recBytes crc r' → r' = r := by
  constructor
  · rintro h r' - rfl
    exact h r' (recParse_recBytes crc r' rest)
  · intro h r' hparse
    obtain ⟨rest', heq⟩ := recParse_stored crc hparse
    obtain ⟨hbody, hfield'⟩ := drop_recBytes crc r' rest'
    rw [← heq] at hbody hfield'
    have htake : ((b ++ rest).drop recHdrLen).take (r'.key ++ r'.val).length = r'.key ++ r'.val := by
      rw [hbody, take_left]
    have hb : 10 < b.length := hlen ▸ size_pos r
    have hsame : wr32 (crc (r'.key ++ r'.val)) = wr32 (crc (r.key ++ r.val)) := by
      rw [← hfield', ← hfield, drop_append_of_le_length (by omega), take_append_of_le_length (by simp; omega)]
    have hcover := hcrc (r'.key ++ r'.val).length (by rw [htake, wr32_inj hsame])
    rw [htake] at hcover
    have hsize : b.length = (recBytes crc r').length := by
      have := congrArg length hcover
      simp only [length_append] at this
      rw [hlen, length_recBytes, Rec.size, Rec.size]
      omega
    exact h r' hcover (append_inj_left heq hsize)

def splitRec : Rec := ⟨.put, [1], [2], by simp, by simp, by simp, by simp⟩

def mergedRec : Rec := ⟨.delete, [1, 2], [], by decide, by decide, by decide, fun _ => rfl⟩

theorem merged_detects (n : Nat) :
    crc32c (((recBytes crc32c mergedRec ++ []).drop recHdrLen).take n) = crc32c (splitRec.key ++ splitRec.val) →
      ((recBytes crc32c mergedRec ++ []).drop recHdrLen).take n = splitRec.key ++ splitRec.val := by
  rw [(drop_recBytes crc32c mergedRec []).1]
  match n with
  | 0 | 1 => decide +kernel
  | n + 2 => exact fun _ => take_of_length_le (by simp [mergedRec])

theorem altered_merged : (∀ r', recParse crc32c (recBytes crc32c mergedRec ++ []) = .ok r' → r' = splitRec) ↔
    ∀ r' : Rec, r'.key ++ r'.val = [1, 2] → recBytes crc32c mergedRec = recBytes crc32c r' → r' = splitRec :=
  altered_iff crc32c [] rfl (drop_recBytes crc32c mergedRec []).2 merged_detects

theorem altered_accepted : ¬ ∀ (r : Rec) (b rest : List Byte), b.length = r.size →
    (b.drop 6).take 4 = wr32 (crc32c (r.key ++ r.val)) →
    (∀ n, crc32c (((b ++ rest).drop recHdrLen).take n) = crc32c (r.key ++ r.val) →
      ((b ++ rest).drop recHdrLen).take n = r.key ++ r.val) →
    ∀ r', recParse crc32c (b ++ rest) = .ok r' → r' = r := by
  intro h
  have hsame := h splitRec (recBytes crc32c mergedRec) [] rfl (drop_recBytes crc32c mergedRec []).2 merged_detects
    mergedRec (recParse_recBytes ..)
  cases hsame

end InvariantFs.DeltaRecord
