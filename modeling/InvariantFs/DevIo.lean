import InvariantFs.ByteCodec

namespace InvariantFs.DevIo

open ByteCodec Nat

abbrev Bytes := Nat → Byte

def memcpy (dst : Bytes) (i : Nat) (src : Bytes) (j n : Nat) : Bytes := fun x =>
  if i ≤ x ∧ x < i + n then src (j + (x - i)) else dst x

/-- The device takes whole sectors only. `stops` tells for each raw transfer to come which bytes get
through if it fails. -/
structure Blkio where
  cap : Nat
  sector : Nat
  dev : Bytes
  bounce : Bytes
  stops : List (Option (Nat → Bool))

/-- What an unbuffered device takes: whole sectors inside of it, to or from an address in the buffer that
is aligned as well. -/
def Blkio.Takes (io : Blkio) (off pos len : Nat) : Prop :=
  off + len ≤ io.cap ∧ io.sector ∣ off ∧ io.sector ∣ pos ∧ io.sector ∣ len

instance (io : Blkio) (off pos len : Nat) : Decidable (io.Takes off pos len) :=
  inferInstanceAs (Decidable (_ ∧ _))

/-- A raw transfer that is to turn `old` into `new`. -/
def Blkio.transfer (io : Blkio) (off pos len : Nat) (old new : Bytes) : Bytes × Bool :=
  match if io.Takes off pos len then io.stops.head?.join else some fun _ => false with
  | none => (new, true)
  | some got => (fun x => if got x then new x else old x, false)

def rawPread (io : Blkio) (off pos len : Nat) : Blkio × Bool :=
  let r := io.transfer off pos len io.bounce (memcpy io.bounce pos io.dev off len)
  ({ io with bounce := r.1, stops := io.stops.tail }, r.2)

def rawPwrite (io : Blkio) (off len : Nat) : Blkio × Bool :=
  let r := io.transfer off 0 len io.dev (memcpy io.dev off io.bounce 0 len)
  ({ io with dev := r.1, stops := io.stops.tail }, r.2)

def blkioAlign : Nat := 4096

def blkioBounce : Nat := 1024 * 1024

@[irreducible]
def want (off len : Nat) : Nat := min len (blkioBounce - off % blkioAlign)

def span (skip n : Nat) : Nat := (skip + n + blkioAlign - 1) / blkioAlign * blkioAlign

theorem want_pos (off : Nat) {len : Nat} (h : len ≠ 0) : 0 < want off len ∧ want off len ≤ len := by
  simp only [want, blkioBounce, blkioAlign]
  omega

/-- The blocks of a round are read. The last block of a device may be a short one. -/
@[irreducible]
def readRound (io : Blkio) (base skip n : Nat) : Blkio × Bool :=
  let beyond := io.cap < (base + span skip n) % 2 ^ 64
  if beyond ∧ (io.cap ≤ base ∨ io.cap - base < skip + n) then (io, false)
  else rawPread io base 0 (if beyond then io.cap - base else span skip n)

def devPread (io : Blkio) (off : Nat) (out : Bytes) (pos len : Nat) : Blkio × Option Bytes :=
  if len = 0 then (io, some out)
  else
    let skip := off % blkioAlign
    let n := want off len
    let r := readRound io (off - skip) skip n
    if r.2 then devPread r.1 (off + n) (memcpy out pos r.1.bounce skip n) (pos + n) (len - n) else (r.1, none)
termination_by len
decreasing_by
  have := want_pos off ‹_›
  omega

/-- The end blocks that are written in part are read back first. -/
def readEnds (io : Blkio) (base skip n : Nat) : Blkio × Bool :=
  let tail := (skip + n) % blkioAlign
  if skip ≠ 0 ∧ tail ≠ 0 ∧ span skip n = 2 * blkioAlign then rawPread io base 0 (span skip n)
  else
    let head := if skip ≠ 0 then rawPread io base 0 blkioAlign else (io, true)
    let last := span skip n - blkioAlign
    if head.2 ∧ tail ≠ 0 ∧ ¬ (skip ≠ 0 ∧ last = 0) then rawPread head.1 (base + last) last blkioAlign else head

@[irreducible]
def writeRound (io : Blkio) (base skip n : Nat) (data : Bytes) (pos : Nat) : Blkio × Bool :=
  if io.cap < (base + span skip n) % 2 ^ 64 then (io, false)
  else
    let r := readEnds io base skip n
    if r.2 then rawPwrite { r.1 with bounce := memcpy r.1.bounce skip data pos n } base (span skip n) else r

def devPwrite (io : Blkio) (off : Nat) (data : Bytes) (pos len : Nat) : Blkio × Bool :=
  if len = 0 then (io, true)
  else
    let skip := off % blkioAlign
    let n := want off len
    let r := writeRound io (off - skip) skip n data pos
    if r.2 then devPwrite r.1 (off + n) data (pos + n) (len - n) else r
termination_by len
decreasing_by
  have := want_pos off ‹_›
  omega

inductive Call
  | pread (off : Nat) (buf : Bytes) (len : Nat)
  | pwrite (off : Nat) (data : Bytes) (len : Nat)

inductive Reply
  | failed
  | bytes (out : Bytes)
  | written

def call (io : Blkio) : Call → Blkio × Reply
  | .pread off buf len => (devPread io off buf 0 len).map id fun r => r.elim .failed .bytes
  | .pwrite off data len => (devPwrite io off data 0 len).map id fun ok => if ok then .written else .failed

def run (io : Blkio) : List Call → Blkio × List Reply
  | [] => (io, [])
  | c :: cs => ((run (call io c).1 cs).1, (call io c).2 :: (run (call io c).1 cs).2)

/-- A call on a plain array of bytes. A write that fails may have stored a part of its data. -/
inductive Plain (a : Bytes) : Call → Reply → Bytes → Prop
  | bytes {off len : Nat} {buf out : Bytes} (h : ∀ i < len, out i = a (off + i)) :
    Plain a (.pread off buf len) (.bytes out) a
  | unread (off len : Nat) (buf : Bytes) : Plain a (.pread off buf len) .failed a
  | written (off len : Nat) (data : Bytes) : Plain a (.pwrite off data len) .written (memcpy a off data 0 len)
  | torn {off len : Nat} {data b : Bytes} (h : ∀ x, b x = a x ∨ b x = memcpy a off data 0 len x) :
    Plain a (.pwrite off data len) .failed b

inductive PlainRun : Bytes → List Call → List Reply → Bytes → Prop
  | nil (a : Bytes) : PlainRun a [] [] a
  | cons {a b b' : Bytes} {c : Call} {r : Reply} {cs : List Call} {rs : List Reply} (h : Plain a c r b)
    (hs : PlainRun b cs rs b') : PlainRun a (c :: cs) (r :: rs) b'

variable (io : Blkio) (off pos base n : Nat) (data : Bytes)

/-- A write of `new` over `old` that need not succeed. -/
def Lands (old new got : Bytes) (ok : Bool) : Prop := (ok = true → got = new) ∧ ∀ x, got x = old x ∨ got x = new x

theorem transfer_lands (len : Nat) (old new : Bytes) :
    Lands old new (io.transfer off pos len old new).1 (io.transfer off pos len old new).2 := by
  unfold Blkio.transfer
  split
  · exact ⟨fun _ => rfl, fun _ => .inr rfl⟩
  · refine ⟨by simp, ?_⟩
    intro x
    dsimp only
    split_ifs
    · exact .inr rfl
    · exact .inl rfl

theorem rawPread_dev (len : Nat) : (rawPread io off pos len).1.dev = io.dev := rfl

theorem rawPread_bounce {io : Blkio} {off pos len : Nat} (h : (rawPread io off pos len).2 = true) :
    (rawPread io off pos len).1.bounce = memcpy io.bounce pos io.dev off len :=
  (transfer_lands io off pos len _ _).1 h

theorem memcpy_memcpy (d src : Bytes) (i j n m : Nat) :
    memcpy (memcpy d i src j n) (i + n) src (j + n) m = memcpy d i src j (n + m) := by
  funext x
  unfold memcpy
  split_ifs <;> first | omega | rfl | (congr 1; omega)

theorem memcpy_le (d src : Bytes) (i j x : Nat) {n m : Nat} (h : n ≤ m) :
    memcpy d i src j n x = d x ∨ memcpy d i src j n x = memcpy d i src j m x := by
  unfold memcpy
  split_ifs
  · exact .inr rfl
  · omega
  · exact .inl rfl
  · exact .inl rfl

theorem le_span (skip n : Nat) : skip + n ≤ span skip n ∧ span skip n < skip + n + blkioAlign ∧
    span skip n % blkioAlign = 0 := by
  refine ⟨?_, ?_, mul_mod_left _ _⟩ <;> simp only [span, blkioAlign] <;> omega

variable {skip : Nat}

theorem memcpy_patch {b d : Bytes} {base n len : Nat} (data : Bytes) (pos : Nat) (hlen : skip + n ≤ len)
    (h : ∀ x < len, x < skip ∨ skip + n ≤ x → b x = d (base + x)) :
    memcpy d base (memcpy b skip data pos n) 0 len = memcpy d (base + skip) data pos n := by
  funext x
  unfold memcpy
  split_ifs with h₁ h₂ h₃ h₃
  · congr 1
    omega
  · omega
  · omega
  · rw [Nat.zero_add, h _ (by omega) (by omega)]
    congr 1
    omega
  · omega
  · rfl

theorem memcpy_bounce (b d out : Bytes) {base n pos len : Nat} (hlen : skip + n ≤ len) :
    memcpy out pos (memcpy b 0 d base len) skip n = memcpy out pos d (base + skip) n := by
  funext x
  unfold memcpy
  split_ifs <;> first | omega | rfl | (congr 1; omega)

theorem readRound_out (skip : Nat) (out : Bytes) :
    (readRound io base skip n).1.dev = io.dev ∧ ((readRound io base skip n).2 = true →
      memcpy out pos (readRound io base skip n).1.bounce skip n = memcpy out pos io.dev (base + skip) n) := by
  unfold readRound
  dsimp only
  have := (le_span skip n).1
  split_ifs with hroom hbeyond
  · simp
  all_goals
    refine ⟨rfl, ?_⟩
    intro hok
    rw [rawPread_bounce hok]
    apply memcpy_bounce
    omega

theorem devPread_out (out : Bytes) (len : Nat) : (devPread io off out pos len).1.dev = io.dev ∧
      ∀ out', (devPread io off out pos len).2 = some out' → out' = memcpy out pos io.dev off len := by
  fun_induction devPread io off out pos len with
  | case1 io off out pos =>
    refine ⟨rfl, ?_⟩
    rintro _ ⟨⟩
    funext x
    exact (if_neg (by omega)).symm
  | case2 io off out pos len hlen skip n r hok ih =>
    obtain ⟨hdev, hout⟩ := readRound_out io pos (off - skip) n skip out
    have hskip : off - skip + skip = off := Nat.sub_add_cancel (mod_le _ _)
    have hn : n + (len - n) = len := add_sub_of_le (want_pos off hlen).2
    refine ⟨ih.1.trans hdev, ?_⟩
    intro out' h
    rw [ih.2 out' h, hdev, hout hok, hskip, memcpy_memcpy, hn]
  | case3 io off out pos len hlen skip n r hok => exact ⟨(readRound_out io pos (off - skip) n skip out).1, by simp⟩

theorem readEnds_around (hskip : skip < blkioAlign) :
    (readEnds io base skip n).1.dev = io.dev ∧ ((readEnds io base skip n).2 = true →
      ∀ x < span skip n, x < skip ∨ skip + n ≤ x → (readEnds io base skip n).1.bounce x = io.dev (base + x)) := by
  obtain ⟨hle, hlt, hmod⟩ := le_span skip n
  unfold readEnds
  dsimp only
  unfold blkioAlign at *
  generalize span skip n = sp at *
  by_cases hboth : skip ≠ 0 ∧ (skip + n) % 4096 ≠ 0 ∧ sp = 2 * 4096
  · rw [if_pos hboth]
    refine ⟨rawPread_dev io base 0 sp, ?_⟩
    intro hok x hx _
    rw [rawPread_bounce hok]
    exact if_pos (by omega)
  rw [if_neg hboth]
  generalize hhead : (if skip ≠ 0 then rawPread io base 0 4096 else (io, true)) = head
  have hdev : head.1.dev = io.dev := by
    rw [← hhead]
    split_ifs
    · exact rawPread_dev io base 0 4096
    · rfl
  have hfirst : head.2 = true → skip ≠ 0 → ∀ x < 4096, head.1.bounce x = io.dev (base + x) := by
    intro hok hne x hx
    rw [if_pos hne] at hhead
    subst hhead
    rw [rawPread_bounce hok]
    exact if_pos (by omega)
  split_ifs with htail
  · refine ⟨(rawPread_dev ..).trans hdev, ?_⟩
    intro hok x hx hx'
    rw [rawPread_bounce hok, hdev]
    by_cases hlast : sp - 4096 ≤ x
    · refine (if_pos (by omega)).trans (congrArg io.dev ?_)
      omega
    · rw [memcpy, if_neg (by omega)]
      exact hfirst htail.1 (by omega) x (by omega)
  · refine ⟨hdev, ?_⟩
    intro hok x hx hx'
    -- a patch that ends inside a block has its last block read with the head
    have hone : x < skip ∨ skip ≠ 0 ∧ sp - 4096 = 0 := by
      by_contra h
      exact htail ⟨hok, by omega, by omega⟩
    exact hfirst hok (by omega) x (by omega)

theorem writeRound_dev (hskip : skip < blkioAlign) :
    Lands io.dev (memcpy io.dev (base + skip) data pos n) (writeRound io base skip n data pos).1.dev
      (writeRound io base skip n data pos).2 := by
  obtain ⟨hdev, haround⟩ := readEnds_around io base n hskip
  unfold writeRound
  dsimp only
  split_ifs with hcap hok
  · exact ⟨by simp, fun _ => .inl rfl⟩
  · have hpatch := memcpy_patch data pos (le_span skip n).1 (haround hok)
    unfold rawPwrite
    simp only [hdev, hpatch]
    apply transfer_lands
  · exact ⟨fun h => absurd h hok, fun x => .inl (congrFun hdev x)⟩

theorem devPwrite_dev (len : Nat) :
    Lands io.dev (memcpy io.dev off data pos len) (devPwrite io off data pos len).1.dev
      (devPwrite io off data pos len).2 := by
  fun_induction devPwrite io off data pos len with
  | case1 io off pos =>
    refine ⟨?_, fun _ => .inl rfl⟩
    intro _
    funext x
    exact (if_neg (by omega)).symm
  | case2 io off pos len hlen skip n r hok ih =>
    have hdev := (writeRound_dev io pos (off - skip) n data (mod_lt off (by decide))).1 hok
    have hskip : off - skip + skip = off := Nat.sub_add_cancel (mod_le _ _)
    have hn : n + (len - n) = len := add_sub_of_le (want_pos off hlen).2
    rw [hdev, hskip, memcpy_memcpy, hn] at ih
    refine ⟨ih.1, ?_⟩
    intro x
    obtain h | h := ih.2 x
    · rw [h]
      exact memcpy_le _ _ _ _ _ (want_pos off hlen).2
    · exact .inr h
  | case3 io off pos len hlen skip n r hok =>
    obtain ⟨-, htorn⟩ := writeRound_dev io pos (off - skip) n data (mod_lt off (by decide))
    rw [Nat.sub_add_cancel (mod_le _ _)] at htorn
    refine ⟨fun h => absurd h hok, ?_⟩
    intro x
    obtain h | h := htorn x
    · exact .inl h
    · rw [h]
      exact memcpy_le _ _ _ _ _ (want_pos off hlen).2

theorem call_plain (c : Call) : Plain io.dev c (call io c).2 (call io c).1.dev := by
  cases c with
  | pread off buf len =>
    obtain ⟨hdev, hout⟩ := devPread_out io off 0 buf len
    unfold call
    rw [Prod.map_fst, Prod.map_snd, id, hdev]
    cases h : (devPread io off buf 0 len).2 with
    | none => exact .unread off len buf
    | some out =>
      apply Plain.bytes
      intro i hi
      rw [hout out h]
      exact if_pos (by omega)
  | pwrite off data len =>
    obtain ⟨hok, htorn⟩ := devPwrite_dev io off 0 data len
    unfold call
    rw [Prod.map_fst, Prod.map_snd, id]
    cases h : (devPwrite io off data 0 len).2 with
    | false => exact .torn htorn
    | true =>
      rw [hok h]
      exact .written off len data

/-- A device that answers: its sectors divide a block and its capacity, and no raw transfer it takes
fails. -/
structure Blkio.Answers (io : Blkio) : Prop where
  block : io.sector ∣ blkioAlign
  cap : io.sector ∣ io.cap
  room : io.cap + blkioAlign ≤ 2 ^ 64
  stops : ∀ s ∈ io.stops, s = none

/-- A read ends on the device, a write ends in its whole blocks: the last block of a write is written back
in full. -/
def Call.Inside (cap : Nat) : Call → Prop
  | .pread off _ len => off + len ≤ cap
  | .pwrite off _ len => off + len ≤ cap / blkioAlign * blkioAlign

section Answers

variable {io}

theorem transfer_answers (h : io.Answers) {len : Nat} (old new : Bytes) (htakes : io.Takes off pos len) :
    (io.transfer off pos len old new).2 = true := by
  have hnone : io.stops.head?.join = none := by
    cases hs : io.stops with
    | nil => rfl
    | cons s ss => simp [h.stops s (by simp [hs])]
  unfold Blkio.transfer
  rw [if_pos htakes, hnone]

/-- A round that came through, on a device that still answers. -/
def Through (io : Blkio) (r : Blkio × Bool) : Prop := r.2 = true ∧ r.1.Answers ∧ r.1.cap = io.cap

theorem Through.trans {io : Blkio} {r r' : Blkio × Bool} (h : Through io r) (h' : Through r.1 r') : Through io r' :=
  ⟨h'.1, h'.2.1, h'.2.2.trans h.2.2⟩

theorem rawPread_through (h : io.Answers) {len : Nat} (htakes : io.Takes off pos len) :
    Through io (rawPread io off pos len) := by
  refine ⟨transfer_answers off pos h _ _ htakes, ⟨h.block, h.cap, h.room, ?_⟩, rfl⟩
  exact fun s hs => h.stops s (List.mem_of_mem_tail hs)

theorem rawPwrite_through (h : io.Answers) {len : Nat} (htakes : io.Takes off 0 len) :
    Through io (rawPwrite io off len) := by
  refine ⟨transfer_answers off 0 h _ _ htakes, ⟨h.block, h.cap, h.room, ?_⟩, rfl⟩
  exact fun s hs => h.stops s (List.mem_of_mem_tail hs)

theorem Blkio.Answers.dvd (h : io.Answers) {x : Nat} (hx : x % blkioAlign = 0) : io.sector ∣ x :=
  h.block.trans (dvd_of_mod_eq_zero hx)

theorem readRound_through (h : io.Answers) (hbase : base % blkioAlign = 0) (hcap : base + (skip + n) ≤ io.cap) :
    Through io (readRound io base skip n) := by
  have hroom := h.room
  obtain ⟨hle, hlt, hmod⟩ := le_span skip n
  have hwrap : (base + span skip n) % 2 ^ 64 = base + span skip n := mod_eq_of_lt (by omega)
  unfold readRound
  rw [hwrap, if_neg (by unfold blkioAlign at *; omega)]
  apply rawPread_through base 0 h
  refine ⟨?_, h.dvd hbase, dvd_zero _, ?_⟩
  · split_ifs <;> omega
  · split_ifs
    · exact Nat.dvd_sub h.cap (h.dvd hbase)
    · exact h.dvd hmod

theorem readEnds_through (h : io.Answers) (hbase : base % blkioAlign = 0) (hn : 0 < n)
    (hcap : base + span skip n ≤ io.cap) : Through io (readEnds io base skip n) := by
  obtain ⟨hle, -, hmod⟩ := le_span skip n
  have hblock : blkioAlign ≤ span skip n := by
    unfold blkioAlign at *
    omega
  have hlast : (span skip n - blkioAlign) % blkioAlign = 0 := by
    unfold blkioAlign at *
    omega
  unfold readEnds
  dsimp only
  generalize hhead : (if skip ≠ 0 then rawPread io base 0 blkioAlign else (io, true)) = head
  have hfirst : Through io head := by
    rw [← hhead]
    split_ifs
    · exact rawPread_through base 0 h ⟨by omega, h.dvd hbase, dvd_zero _, h.block⟩
    · exact ⟨rfl, h, rfl⟩
  have ⟨_, hans, heq⟩ := hfirst
  split_ifs
  · exact rawPread_through base 0 h ⟨hcap, h.dvd hbase, dvd_zero _, h.dvd hmod⟩
  · apply Through.trans hfirst
    apply rawPread_through _ _ hans
    refine ⟨by omega, hans.dvd ?_, hans.dvd hlast, hans.block⟩
    unfold blkioAlign at *
    omega
  · exact hfirst

theorem writeRound_through (h : io.Answers) (hbase : base % blkioAlign = 0) (hn : 0 < n)
    (hcap : base + span skip n ≤ io.cap) : Through io (writeRound io base skip n data pos) := by
  have hroom := h.room
  have hends := readEnds_through base n h hbase hn hcap
  have ⟨hok, hans, heq⟩ := hends
  unfold writeRound
  rw [mod_eq_of_lt (by unfold blkioAlign at *; omega), if_neg (by omega)]
  dsimp only
  rw [if_pos hok]
  have hput : Blkio.Answers { (readEnds io base skip n).1 with
      bounce := memcpy (readEnds io base skip n).1.bounce skip data pos n } :=
    ⟨hans.block, hans.cap, hans.room, hans.stops⟩
  exact hends.trans (rawPwrite_through base hput
    ⟨heq ▸ hcap, hans.dvd hbase, dvd_zero _, hans.dvd (le_span skip n).2.2⟩)

theorem sub_mod_align (off : Nat) : (off - off % blkioAlign) % blkioAlign = 0 := by
  unfold blkioAlign
  omega

theorem devPread_through (h : io.Answers) (out : Bytes) (len : Nat) (hcap : off + len ≤ io.cap) :
    Through io ((devPread io off out pos len).map id Option.isSome) := by
  have hround : ∀ {io : Blkio} {off len : Nat}, io.Answers → len ≠ 0 → off + len ≤ io.cap →
      Through io (readRound io (off - off % blkioAlign) (off % blkioAlign) (want off len)) := by
    intro io off len h hlen hcap
    have hn := want_pos off hlen
    have hskip := mod_le off blkioAlign
    exact readRound_through _ _ h (sub_mod_align off) (by omega)
  fun_induction devPread io off out pos len with
  | case1 io off out pos => exact ⟨rfl, h, rfl⟩
  | case2 io off out pos len hlen skip n r hok ih =>
    have hn : n + (len - n) = len := add_sub_of_le (want_pos off hlen).2
    have hr : Through io r := hround h hlen hcap
    exact hr.trans (ih hr.2.1 (by rw [hr.2.2, add_assoc, hn]; exact hcap))
  | case3 io off out pos len hlen skip n r hok => exact absurd (hround h hlen hcap).1 hok

theorem devPwrite_through (h : io.Answers) (len : Nat) (hcap : off + len ≤ io.cap / blkioAlign * blkioAlign) :
    Through io (devPwrite io off data pos len) := by
  have hround : ∀ {io : Blkio} {off len : Nat} (pos : Nat), io.Answers → len ≠ 0 →
      off + len ≤ io.cap / blkioAlign * blkioAlign →
      Through io (writeRound io (off - off % blkioAlign) (off % blkioAlign) (want off len) data pos) := by
    intro io off len pos h hlen hcap
    have hn := want_pos off hlen
    apply writeRound_through pos _ _ data h (sub_mod_align off) hn.1
    -- the blocks of the round are whole blocks of the device
    obtain ⟨hle, hlt, hmod⟩ := le_span (off % blkioAlign) (want off len)
    unfold blkioAlign at *
    omega
  fun_induction devPwrite io off data pos len with
  | case1 io off pos => exact ⟨rfl, h, rfl⟩
  | case2 io off pos len hlen skip n r hok ih =>
    have hn : n + (len - n) = len := add_sub_of_le (want_pos off hlen).2
    have hr : Through io r := hround pos h hlen hcap
    exact hr.trans (ih hr.2.1 (by rw [hr.2.2, add_assoc, hn]; exact hcap))
  | case3 io off pos len hlen skip n r hok => exact absurd (hround pos h hlen hcap).1 hok

theorem call_through (h : io.Answers) {c : Call} (hc : c.Inside io.cap) :
    (call io c).2 ≠ .failed ∧ (call io c).1.Answers ∧ (call io c).1.cap = io.cap := by
  cases c with
  | pread off buf len =>
    obtain ⟨hsome, hans⟩ := devPread_through off 0 h buf len hc
    refine ⟨?_, hans⟩
    obtain ⟨out, hout⟩ := Option.isSome_iff_exists.1 hsome
    simp [call, hout]
  | pwrite off data len =>
    obtain ⟨hok, hans⟩ := devPwrite_through off 0 data h len hc
    refine ⟨?_, hans⟩
    simp [call, hok]

end Answers

/-- A run of calls is a run on a plain array of bytes, and on a device that answers every call inside of
it succeeds. -/
theorem run_plain (io : Blkio) (cs : List Call) :
    PlainRun io.dev cs (run io cs).2 (run io cs).1.dev ∧
      (io.Answers → (∀ c ∈ cs, c.Inside io.cap) → .failed ∉ (run io cs).2) := by
  induction cs generalizing io with
  | nil => exact ⟨.nil _, by simp [run]⟩
  | cons c cs ih =>
    obtain ⟨hplain, hall⟩ := ih (call io c).1
    refine ⟨.cons (call_plain io c) hplain, ?_⟩
    intro h hin
    obtain ⟨hc, hans, hcap⟩ := call_through h (hin c (by simp))
    have hrest := hall hans (by rw [hcap]; exact fun d hd => hin d (by simp [hd]))
    simp [run, hrest, Ne.symm hc]

/-- Ten bytes across the border of two blocks on a device of four with sectors of 512 bytes, written and
read back. -/
theorem run_plain_across : .failed ∉ (run ⟨16384, 512, fun _ => 0, fun _ => 0, []⟩
    [.pwrite 4090 (fun _ => 7) 10, .pread 4090 (fun _ => 0) 10]).2 := by
  apply (run_plain _ _).2
  · exact ⟨by decide, by decide, by decide, by simp⟩
  · simp [Call.Inside, blkioAlign]

end InvariantFs.DevIo
