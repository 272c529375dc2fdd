import InvariantFs.DeltaGroup
import InvariantFs.DeltaTable

namespace InvariantFs.DeltaDoom

open ByteCodec BtreePage DeltaRecord DeltaSegment DeltaIndex DeltaGroup DeltaTable LinearProbe.Table List Function Nat

/-- The slot of the source, which has the length of a value and not the value. -/
abbrev Ref := Slot Nat

def Ref.abs (s : Ref) : Nat := s.seg * blockSize + s.off

/-- `io_pread` on a device that answers. -/
def pread (dev : List Byte) (off n : Nat) : Option (List Byte) :=
  if off + n ≤ dev.length then some ((dev.drop off).take n) else none

/-- The largest value that is read along with the header of its record, `DL_ONEPREAD_VMAX`. -/
def onePreadMax : Nat := 1024

/-- `delta_read_value_locked` -/
def readValue (dev : List Byte) (s : Ref) (klen : Nat) : Option (List Byte) :=
  if s.val = 0 then some []
  else if klen ≠ 0 ∧ klen ≤ 256 ∧ s.val ≤ onePreadMax then
    match pread dev s.abs (recHdrLen + klen + s.val) with
    | some (k₀ :: k₁ :: v₀ :: v₁ :: rest) =>
      if rd16be k₀ k₁ ≠ klen ∨ rd16be v₀ v₁ ≠ s.val then none else some (rest.drop (recHdrLen - 4 + klen))
    | _ => none
  else
    match pread dev s.abs recHdrLen with
    | some (k₀ :: k₁ :: _) => pread dev (s.abs + recHdrLen + rd16be k₀ k₁) s.val
    | _ => none

/-- The recent tier of a mounted volume with its hash index, and the device. The first `doomed` staged records
belong to mutations that were reported as failed. -/
structure State where
  dev : List Byte
  index : DeltaTable.Index Ref
  seg : Nat
  bump : Nat
  seq : Nat
  staged : List (Staged Key Nat)
  doomed : Nat

def fenced (dev : List Byte) (di : DeltaTable.Index Ref) (seg bump seq : Nat) : State :=
  ⟨dev, di, seg, bump, seq, [], 0⟩

/-- The slot `di_find` leads to. The outer `none` is a probe that never ends. -/
def slotOf (di : DeltaTable.Index Ref) (key : Key) : Option (Option Ref) :=
  (diFind di key).map fun found => (found.bind di.table.slot).map Prod.snd

/-- `vol_delta_lookup_value`: the delete flag and the value of a key, unless that cannot be read. -/
def lookupValue (dev : List Byte) (di : DeltaTable.Index Ref) (key : Key) :
    Option (Option (Bool × Option (List Byte))) :=
  (slotOf di key).map fun s => s.map fun s => (s.del, readValue dev s key.length)

/-- `dl_staged_keep`, where `kept` says whether the array of retained records could grow. -/
def stagedKeep (σ : State) (r : Rec) (kept : Bool) : Option State :=
  (slotOf σ.index r.key).map fun prev =>
    if kept then
      { σ with staged := σ.staged ++ [⟨r.key, r.val.length, r.kind = .delete, σ.seg, σ.bump, r.size, prev⟩] }
    else σ

/-- The slot names the position of a staged record, which is recomputed from the absolute offset by a division
by the block size. -/
def Named (s : Ref) (e : Staged Key Nat) : Prop :=
  s.seg = (e.seg * blockSize + e.off) / blockSize ∧ s.off = (e.seg * blockSize + e.off) % blockSize

instance (s : Ref) (e : Staged Key Nat) : Decidable (Named s e) := inferInstanceAs (Decidable (_ ∧ _))

def dlDoomEntry (e : Staged Key Nat) (di : DeltaTable.Index Ref) : Option (DeltaTable.Index Ref) :=
  (diFind di e.key).bind fun found =>
    match found with
    | none => some di
    | some idx =>
      if (di.table.slot idx).any fun x => Named x.2 e then
        match e.prev with
        | some p => some { di with table := di.table.set idx (some (e.key, p)), epoch := di.epoch + 1 }
        | none => diDeleteAt di idx
      else some di

/-- `dl_doom_locked`: every live staged record is doomed, newest first. -/
def dlDoomLocked (σ : State) : Option State :=
  ((σ.staged.drop σ.doomed).foldrM dlDoomEntry σ.index).map fun di =>
    { σ with index := di, doomed := σ.staged.length }

/-- What happens between two successful fences. A group whose barrier succeeds, or a rollover that does, is
the next fence. -/
inductive Event where
  /-- An append into an open group. -/
  | append (r : Rec) (kept : Bool) (a : Alloc)
  /-- An append that fills its group, whose barrier is refused. -/
  | refused (r : Rec) (kept : Bool)
  /-- A write fails, or a barrier that no padding goes ahead of, with the bytes that a write leaves behind. -/
  | failed (junk : List Byte)

def appendable (σ : State) (r : Rec) : Prop := r.kind ≠ .pad ∧ σ.bump + r.size ≤ segBytes

instance (σ : State) (r : Rec) : Decidable (appendable σ r) := inferInstanceAs (Decidable (_ ∧ _))

variable (crc : List Byte → UInt32)

def State.write (σ : State) (bytes : List Byte) : State :=
  { σ with dev := splice (σ.seg * blockSize + σ.bump) bytes σ.dev }

/-- One event, and whether it put its record into the index. A record that does not fit the segment is not
staged without a rollover. Where records have been doomed before, a full group is padded ahead of its barrier;
that is not among these events. -/
def step (σ : State) : Event → Option (State × Bool)
  | .append r kept a =>
    if appendable σ r then
      (stagedKeep (σ.write (recBytes crc r)) r kept).bind fun σ₁ =>
        (diPut a σ.index r.key ⟨σ.seg, σ.bump, σ.seq + 1, r.kind = .delete, r.val.length⟩).bind fun p =>
          let σ₂ := { σ₁ with index := p.1, bump := σ.bump + r.size, seq := σ.seq + 1 }
          if p.2 then some (σ₂, true) else (dlDoomLocked σ₂).map fun σ₃ => (σ₃, false)
    else some (σ, false)
  | .refused r kept =>
    if appendable σ r ∧ σ.doomed = 0 then
      (stagedKeep (σ.write (recBytes crc r)) r kept).bind fun σ₁ =>
        (dlDoomLocked { σ₁ with bump := σ.bump + r.size }).map fun σ₂ => (σ₂, false)
    else some (σ, false)
  | .failed junk => (dlDoomLocked (σ.write (junk.take (segBytes - σ.bump)))).map fun σ => (σ, false)

/-- The record of an event that no roll back takes out: it is in the index, and it lies behind the first
block of its segment or could not be retained. -/
def lasting (σ : State) (ok : Bool) : Event → List Rec
  | .append r kept _ => if ok ∧ (blockSize ≤ σ.bump ∨ kept = false) then [r] else []
  | _ => []

def run : List Event → State → Option (State × List Rec)
  | [], σ => some (σ, [])
  | e :: es, σ => (step crc σ e).bind fun p => (run es p.1).map fun q => (q.1, lasting σ p.2 e ++ q.2)

variable {crc}

def newest (rs : List Rec) (key : Key) : Option Rec := rs.reverse.find? fun r => r.key = key

variable {di : DeltaTable.Index Ref} {f g h : Key → Option Ref}

theorem slotOf_holds (hd : Holds di f) (key : Key) : slotOf di key = some (f key) := by
  obtain ⟨hfind, hf⟩ | ⟨i, r, hfind, -, hslot, hf⟩ := hd.find key
  · simp [slotOf, hfind, hf]
  · simp [slotOf, hfind, hf, hslot]

theorem lookupValue_holds (hd : Holds di f) (dev : List Byte) (key : Key) :
    lookupValue dev di key = some ((f key).map fun s => (s.del, readValue dev s key.length)) := by
  rw [lookupValue, slotOf_holds hd]
  rfl

variable {e : Staged Key Nat} {s : Ref}

theorem undo_found (hf : f e.key = some s) : undo e f = if Named s e then update f e.key e.prev else f := by
  simp only [undo, hf]
  rfl

theorem dlDoomEntry_holds (hd : Holds di f) (e : Staged Key Nat) :
    ∃ di', dlDoomEntry e di = some di' ∧ Holds di' (undo e f) := by
  obtain ⟨hfind, hf⟩ | ⟨i, s, hfind, hi, hslot, hf⟩ := hd.find e.key
  · exact ⟨di, by simp [dlDoomEntry, hfind], by simpa [undo, hf] using hd⟩
  · rw [undo_found hf]
    by_cases hat : Named s e
    · rw [if_pos hat]
      cases hprev : e.prev with
      | none =>
        obtain ⟨di', hdel, hholds, -, -⟩ := hd.deleteAt hi hslot
        exact ⟨di', by simp [dlDoomEntry, hfind, hslot, hat, hprev, hdel], hholds⟩
      | some p =>
        have hlen := length_set (t := di.table) hi (some (e.key, p))
        simp only [hslot, Option.isSome_some] at hlen
        have hused := hd.used
        refine ⟨{ di with table := di.table.set i (some (e.key, p)), epoch := di.epoch + 1 },
          by simp [dlDoomEntry, hfind, hslot, hat, hprev], hd.rep.replace hi hslot p, ?_, hd.load, hd.cap⟩
        change di.used = (di.table.set _ _).entries.length
        omega
    · rw [if_neg hat]
      exact ⟨di, by simp [dlDoomEntry, hfind, hslot, hat], hd⟩

theorem foldrM_holds (hd : Holds di f) (es : List (Staged Key Nat)) :
    ∃ di', es.foldrM dlDoomEntry di = some di' ∧ Holds di' (es.foldr undo f) := by
  induction es with
  | nil => exact ⟨di, rfl, hd⟩
  | cons e es ih =>
    obtain ⟨di1, hrest, h1⟩ := ih
    obtain ⟨di', hentry, h'⟩ := dlDoomEntry_holds h1 e
    exact ⟨di', by rw [foldrM_cons, hrest]; exact hentry, h'⟩

theorem undo_named (hs : Named s e) (f : Key → Option Ref) :
    undo e (update f e.key (some s)) = update f e.key e.prev := by
  rw [undo_found (update_self ..), if_pos hs, update_idem]

theorem undo_prev (hf : f e.key = e.prev) : undo e f = f := by
  cases hs : f e.key with
  | none => simp only [undo, hs]
  | some s => rw [undo_found hs, ← hf, update_eq_self, ite_self]

variable {key : Key}

theorem undo_other (e : Staged Key Nat) (f : Key → Option Ref) (hk : key ≠ e.key) : undo e f key = f key := by
  cases hs : f e.key with
  | none => simp only [undo, hs]
  | some s =>
    rw [undo_found hs]
    split_ifs
    · exact update_of_ne hk ..
    · rfl

theorem undo_unnamed (hs : ¬ Named s e) (f : Key → Option Ref) :
    undo e (update f key (some s)) = update (undo e f) key (some s) := by
  by_cases hk : e.key = key
  · subst hk
    rw [undo_found (update_self ..), if_neg hs]
    funext k
    by_cases hkk : k = e.key
    · rw [hkk, update_self, update_self]
    · rw [update_of_ne hkk, update_of_ne hkk, undo_other e f hkk]
  · cases hf : f e.key with
    | none => simp only [undo, update_of_ne hk, hf]
    | some s' =>
      rw [undo_found hf, undo_found ((update_of_ne hk ..).trans hf)]
      split_ifs
      · exact update_comm (Ne.symm hk) ..
      · rfl

theorem foldr_unnamed {es : List (Staged Key Nat)} (hs : ∀ e ∈ es, ¬ Named s e)
    (f : Key → Option Ref) : es.foldr undo (update f key (some s)) = update (es.foldr undo f) key (some s) := by
  induction es with
  | nil => rfl
  | cons e es ih =>
    obtain ⟨he, hes⟩ := forall_mem_cons.mp hs
    rw [foldr_cons, foldr_cons, ih hes, undo_unnamed he]

theorem not_named_far (hs : blockSize ≤ s.off) (e : Staged Key Nat) : ¬ Named s e := by
  rintro ⟨-, hoff⟩
  have := mod_lt (e.seg * blockSize + e.off) (by decide : 0 < blockSize)
  omega

theorem not_named_later (hseg : e.seg = s.seg) (hoff : e.off < s.off) : ¬ Named s e := by
  rintro ⟨hs, ho⟩
  have hdiv := div_add_mod (e.seg * blockSize + e.off) blockSize
  rw [← hs, ← ho, hseg, mul_comm blockSize] at hdiv
  omega

theorem named_near (hoff : e.off < blockSize) (hs : s.seg = e.seg) (ho : s.off = e.off) : Named s e := by
  unfold Named blockSize at *
  omega

theorem pread_splice {dev data : List Byte} {off a n : Nat} (hfits : off + data.length ≤ dev.length)
    (hapart : a + n ≤ off ∨ off + data.length ≤ a) : pread (splice off data dev) a n = pread dev a n := by
  have htake : min off dev.length = off := by omega
  unfold pread
  rw [length_splice hfits]
  split_ifs
  · congr 1
    apply ext_getElem?
    intro i
    simp only [splice, getElem?_take, getElem?_drop, getElem?_append, length_append, length_take, htake]
    split_ifs
    · rfl
    all_goals first | rfl | omega | (congr 1; omega)
  · rfl

theorem pread_written {dev data : List Byte} {off : Nat} (hfits : off + data.length ≤ dev.length) :
    pread (splice off data dev) off data.length = some data := by
  have htake : (dev.take off).length = off := by
    rw [length_take]
    omega
  rw [pread, length_splice hfits, if_pos hfits, splice, append_assoc, drop_left' htake, take_left]

variable (crc) in
/-- The slot names the record on the device, outside of what the active segment has left. -/
structure Names (dev : List Byte) (seg bump : Nat) (s : Ref) (r : Rec) : Prop where
  bytes : pread dev s.abs r.size = some (recBytes crc r)
  del : s.del = decide (r.kind = .delete)
  vlen : s.val = r.val.length
  apart : s.abs + r.size ≤ seg * blockSize + bump ∨ seg * blockSize + segBytes ≤ s.abs

variable {r : Rec} {dev : List Byte} {seg bump : Nat}

theorem Names.mono {b : Nat} (h : Names crc dev seg bump s r) (hle : bump ≤ b) : Names crc dev seg b s r :=
  ⟨h.bytes, h.del, h.vlen, h.apart.imp_left fun hs => hs.trans (Nat.add_le_add_left hle _)⟩

theorem pread_part {l : List Byte} {a b m n : Nat} (h : pread dev a n = some l) (hle : b + m ≤ n) :
    pread dev (a + b) m = some ((l.drop b).take m) := by
  unfold pread at h ⊢
  split_ifs at h with hn
  obtain rfl := Option.some_inj.mp h
  rw [if_pos (by omega), drop_take, drop_drop, take_take, min_eq_left (by omega)]

theorem readValue_names (h : Names crc dev seg bump s r) : readValue dev s r.key.length = some r.val := by
  have hk : rd16be (byte (r.key.length / 2 ^ 8)) (byte r.key.length) = r.key.length := rd16be_wr16be r.key_lt
  have hv : rd16be (byte (r.val.length / 2 ^ 8)) (byte r.val.length) = r.val.length := rd16be_wr16be r.val_lt
  have hread : pread dev s.abs (recHdrLen + r.key.length + r.val.length) = some (recBytes crc r) := h.bytes
  have hval : (recBytes crc r).drop (recHdrLen + r.key.length) = r.val := by
    have hlen : (wr16be r.key.length ++ wr16be r.val.length ++ wr16be r.kind.flags ++
        wr32 (crc (r.key ++ r.val)) ++ r.key).length = recHdrLen + r.key.length := by
      simp only [length_append, length_wr16be, length_wr32, recHdrLen]
    rw [recBytes, ← hlen, drop_left]
  unfold readValue
  rw [h.vlen]
  split_ifs with h0 hsmall
  · rw [length_eq_zero_iff.mp h0]
  · have hskip : recHdrLen + r.key.length = recHdrLen - 4 + r.key.length + 4 := by
      simp only [recHdrLen]
      omega
    rw [hread]
    simp only [hskip, recBytes, wr16be, cons_append, nil_append, append_assoc, drop_succ_cons, hk, hv] at hval ⊢
    rw [if_neg (by simp), hval]
  · have hhead := pread_part hread (by omega : 0 + recHdrLen ≤ _)
    have hbody := pread_part hread (le_refl (recHdrLen + r.key.length + r.val.length))
    rw [hval, take_length] at hbody
    rw [Nat.add_zero] at hhead
    rw [hhead]
    simp only [recBytes, wr16be, cons_append, drop_zero, recHdrLen, take_succ_cons, hk] at hbody ⊢
    rw [Nat.add_assoc]
    exact hbody

variable (crc) in
/-- What a roll back would leave now is the index's map at the fence under the lasting records. -/
structure Between (dev : List Byte) (seg bump : Nat) (g : Key → Option Ref) (rs : List Rec) (σ : State)
    (f h : Key → Option Ref) : Prop where
  holds : Holds σ.index f
  undone : (σ.staged.drop σ.doomed).foldr undo f = h
  doomed : σ.doomed ≤ σ.staged.length
  before : ∀ e ∈ σ.staged, e.seg = σ.seg ∧ e.off < σ.bump
  inside : σ.bump ≤ segBytes
  fits : σ.seg * blockSize + segBytes ≤ σ.dev.length
  old : ∀ s r, Names crc dev seg bump s r → Names crc σ.dev σ.seg σ.bump s r
  values : ∀ key, (newest rs key).elim (h key = g key) fun r =>
    ∃ s, h key = some s ∧ Names crc σ.dev σ.seg σ.bump s r

variable {rs : List Rec} {σ : State}

theorem Between.doom (hb : Between crc dev seg bump g rs σ f h) :
    ∃ σ', dlDoomLocked σ = some σ' ∧ Between crc dev seg bump g rs σ' h h := by
  obtain ⟨di, hfold, hholds⟩ := foldrM_holds hb.holds (σ.staged.drop σ.doomed)
  rw [hb.undone] at hholds
  refine ⟨{ σ with index := di, doomed := σ.staged.length }, by simp [dlDoomLocked, hfold], hholds, ?_, le_rfl,
    hb.before, hb.inside, hb.fits, hb.old, hb.values⟩
  simp

theorem Between.values_mono (hb : Between crc dev seg bump g rs σ f h) {b : Nat} (hle : σ.bump ≤ b) (key : Key) :
    (newest rs key).elim (h key = g key) fun r => ∃ s, h key = some s ∧ Names crc σ.dev σ.seg b s r := by
  have hv := hb.values key
  revert hv
  cases newest rs key with
  | none => exact id
  | some r => exact fun ⟨s, hs, hn⟩ => ⟨s, hs, hn.mono hle⟩

/-- Bytes behind the bump are in no record that a slot names. -/
theorem Between.write (hb : Between crc dev seg bump g rs σ f h) {bytes : List Byte}
    (hlen : σ.bump + bytes.length ≤ segBytes) : Between crc dev seg bump g rs (σ.write bytes) f h := by
  have hfits : σ.seg * blockSize + σ.bump + bytes.length ≤ σ.dev.length := by
    have := hb.fits
    omega
  have hnames : ∀ s r, Names crc σ.dev σ.seg σ.bump s r → Names crc (σ.write bytes).dev σ.seg σ.bump s r := by
    intro s r hn
    refine ⟨?_, hn.del, hn.vlen, hn.apart⟩
    rw [State.write, pread_splice hfits, hn.bytes]
    exact hn.apart.imp_right fun h => by omega
  refine ⟨hb.holds, hb.undone, hb.doomed, hb.before, hb.inside, ?_, fun s r hn => hnames s r (hb.old s r hn),
    fun key => ?_⟩
  · rw [State.write, length_splice hfits]
    exact hb.fits
  · have hv := hb.values key
    revert hv
    cases newest rs key with
    | none => exact id
    | some r => exact fun ⟨s, hs, hn⟩ => ⟨s, hs, hnames s r hn⟩

def entryOf (σ : State) (f : Key → Option Ref) (r : Rec) : Staged Key Nat :=
  ⟨r.key, r.val.length, r.kind = .delete, σ.seg, σ.bump, r.size, f r.key⟩

theorem newest_append (rs : List Rec) (r : Rec) (key : Key) :
    newest (rs ++ [r]) key = if r.key = key then some r else newest rs key := by
  unfold newest
  rw [reverse_append, reverse_singleton, singleton_append, List.find?_cons]
  split
  · next hk => rw [if_pos (of_decide_eq_true hk)]
  · next hk => rw [if_neg (of_decide_eq_false hk)]

theorem Between.keep (hb : Between crc dev seg bump g rs σ f h) (r : Rec) (kept : Bool) :
    ∃ σ₁, stagedKeep σ r kept = some σ₁ ∧ σ₁.dev = σ.dev ∧ σ₁.index = σ.index ∧ σ₁.seg = σ.seg ∧
      σ₁.doomed ≤ σ₁.staged.length ∧ (∀ e ∈ σ₁.staged, e.seg = σ.seg ∧ e.off < σ.bump + r.size) ∧
      ∀ f', (σ₁.staged.drop σ₁.doomed).foldr undo f' =
        (σ.staged.drop σ.doomed).foldr undo (if kept then undo (entryOf σ f r) f' else f') := by
  have hpos := size_pos r
  have hbefore : ∀ e ∈ σ.staged, e.seg = σ.seg ∧ e.off < σ.bump + r.size := fun e he =>
    ⟨(hb.before e he).1, Nat.lt_add_right _ (hb.before e he).2⟩
  refine ⟨_, by rw [stagedKeep, slotOf_holds hb.holds]; rfl, ?_⟩
  cases kept with
  | false => exact ⟨rfl, rfl, rfl, hb.doomed, hbefore, fun _ => rfl⟩
  | true =>
    refine ⟨rfl, rfl, rfl, ?_, fun e he => ?_, fun f' => ?_⟩
    · change σ.doomed ≤ (σ.staged ++ [_]).length
      rw [length_append]
      exact hb.doomed.trans (le_add_right _ _)
    · obtain he | he := mem_append.mp he
      · exact hbefore e he
      · obtain rfl := mem_singleton.mp he
        exact ⟨rfl, Nat.lt_add_of_pos_right (Nat.zero_lt_of_lt hpos)⟩
    · change ((σ.staged ++ [entryOf σ f r]).drop σ.doomed).foldr undo f' = _
      rw [drop_append_of_le_length hb.doomed, foldr_append]
      rfl

theorem Between.write_rec (hb : Between crc dev seg bump g rs σ f h) (hlen : σ.bump + r.size ≤ segBytes) :
    Between crc dev seg bump g rs (σ.write (recBytes crc r)) f h :=
  hb.write (by rwa [length_recBytes])

theorem Between.pread_rec (hb : Between crc dev seg bump g rs σ f h) (hlen : σ.bump + r.size ≤ segBytes) :
    pread (σ.write (recBytes crc r)).dev (σ.seg * blockSize + σ.bump) r.size = some (recBytes crc r) := by
  have hfits := hb.fits
  rw [State.write, ← length_recBytes crc r]
  exact pread_written (by rw [length_recBytes]; omega)

/-- A record that is retained and not put leaves what a roll back would leave. -/
theorem Between.keep_only (hb : Between crc dev seg bump g rs σ f h) (r : Rec) (kept : Bool)
    (hlen : σ.bump + r.size ≤ segBytes) : ∃ σ₁, stagedKeep σ r kept = some σ₁ ∧
      Between crc dev seg bump g rs { σ₁ with bump := σ.bump + r.size } f h := by
  obtain ⟨σ₁, hkeep, hdev, hindex, hseg, hdoomed, hbefore, hundone⟩ := hb.keep r kept
  have hkept : (if kept then undo (entryOf σ f r) f else f) = f := by
    split_ifs
    · exact undo_prev rfl
    · rfl
  refine ⟨σ₁, hkeep, hindex ▸ hb.holds, ?_, hdoomed, hseg ▸ hbefore, hlen, ?_, fun s r' hn => ?_, fun key => ?_⟩
  · rw [hundone, hkept, hb.undone]
  · rw [hseg, hdev]
    exact hb.fits
  · rw [hseg, hdev]
    exact (hb.old s r' hn).mono (le_add_right _ _)
  · rw [hseg, hdev]
    exact hb.values_mono (le_add_right _ _) key

/-- The record of the bytes that have just been written is put, retained or not. -/
theorem Between.put (hb : Between crc dev seg bump g rs σ f h) (kept : Bool) (hseg : s.seg = σ.seg)
    (hoff : s.off = σ.bump) (hs : Names crc σ.dev σ.seg (σ.bump + r.size) s r) :
    ∃ h', (σ.staged.drop σ.doomed).foldr undo (if kept then undo (entryOf σ f r) (update f r.key (some s))
        else update f r.key (some s)) = h' ∧
      ∀ key, (newest (rs ++ if blockSize ≤ σ.bump ∨ kept = false then [r] else []) key).elim (h' key = g key)
        fun r' => ∃ s', h' key = some s' ∧ Names crc σ.dev σ.seg (σ.bump + r.size) s' r' := by
  by_cases hlast : blockSize ≤ σ.bump ∨ kept = false
  · have hfree : ∀ e ∈ σ.staged.drop σ.doomed, ¬ Named s e := fun e he => by
      obtain ⟨heseg, heoff⟩ := hb.before e (mem_of_mem_drop he)
      exact not_named_later (heseg.trans hseg.symm) (hoff ▸ heoff)
    have hown : (if kept then undo (entryOf σ f r) (update f r.key (some s))
        else update f r.key (some s)) = update f r.key (some s) := by
      split_ifs with hkept
      · have hfar : blockSize ≤ σ.bump := hlast.resolve_right (by simp [hkept])
        have hself : (update f r.key (some s)) (entryOf σ f r).key = some s := update_self ..
        rw [undo_found hself, if_neg (not_named_far (hoff ▸ hfar) _)]
      · rfl
    refine ⟨update h r.key (some s), ?_, fun key => ?_⟩
    · rw [hown, foldr_unnamed hfree, hb.undone]
    · rw [if_pos hlast, newest_append]
      by_cases hk : r.key = key
      · rw [if_pos hk, ← hk, update_self]
        exact ⟨s, rfl, hs⟩
      · rw [if_neg hk, update_of_ne (Ne.symm hk)]
        exact hb.values_mono (le_add_right _ _) key
  · push Not at hlast
    obtain ⟨hnear, hkept⟩ := hlast
    refine ⟨h, ?_, fun key => ?_⟩
    · have hnamed : Named s (entryOf σ f r) := named_near hnear hseg hoff
      rw [if_pos (by simpa using hkept), ← hb.undone]
      congr 1
      refine (undo_named hnamed f).trans ?_
      exact update_eq_self ..
    · rw [if_neg (by simpa [hkept] using hnear), append_nil]
      exact hb.values_mono (le_add_right _ _) key

theorem Between.step (hb : Between crc dev seg bump g rs σ f h) (e : Event) :
    ∃ σ' ok f' h', DeltaDoom.step crc σ e = some (σ', ok) ∧
      Between crc dev seg bump g (rs ++ lasting σ ok e) σ' f' h' := by
  cases e with
  | failed junk =>
    have hlen : σ.bump + (junk.take (segBytes - σ.bump)).length ≤ segBytes := by
      have hinside := hb.inside
      rw [length_take]
      omega
    obtain ⟨σ', hdoom, hb'⟩ := (hb.write hlen).doom
    exact ⟨σ', false, h, h, by simp [DeltaDoom.step, hdoom], by simpa [lasting] using hb'⟩
  | refused r kept =>
    by_cases happ : appendable σ r ∧ σ.doomed = 0
    · have hw := hb.write_rec happ.1.2
      obtain ⟨σ1, hkeep, hb1⟩ := hw.keep_only r kept happ.1.2
      obtain ⟨σ', hdoom, hb'⟩ := hb1.doom
      change dlDoomLocked { σ1 with bump := σ.bump + r.size } = _ at hdoom
      refine ⟨σ', false, h, h, ?_, by simpa [lasting] using hb'⟩
      simp [DeltaDoom.step, happ, hkeep, hdoom]
    · exact ⟨σ, false, f, h, by simp [DeltaDoom.step, happ], by simpa [lasting] using hb⟩
  | append r kept a =>
    by_cases happ : appendable σ r
    · have hw := hb.write_rec happ.2
      let s : Ref := ⟨σ.seg, σ.bump, σ.seq + 1, decide (r.kind = .delete), r.val.length⟩
      obtain ⟨di, ok, hput, hholds, -, -, -⟩ := hb.holds.put a r.key s
      cases ok with
      | true =>
        have hs : Names crc (σ.write (recBytes crc r)).dev σ.seg (σ.bump + r.size) s r :=
          ⟨hb.pread_rec happ.2, rfl, rfl, .inl (Nat.add_assoc ..).le⟩
        obtain ⟨σ1, hkeep, hdev, hindex, hseg, hdoomed, hbefore, hundone⟩ := hw.keep r kept
        obtain ⟨h', hh', hvalues⟩ := hw.put kept rfl rfl hs
        refine ⟨{ σ1 with index := di, bump := σ.bump + r.size, seq := σ.seq + 1 }, true, _, h', ?_, hholds,
          (hundone _).trans hh', hdoomed, hseg ▸ hbefore, happ.2, ?_, fun s' r' hn => ?_, ?_⟩
        · simp [DeltaDoom.step, happ, hkeep, hput, s]
        · rw [hseg, hdev]
          exact hw.fits
        · rw [hseg, hdev]
          exact (hw.old s' r' hn).mono (le_add_right _ _)
        · have hlast : lasting σ true (.append r kept a) = if blockSize ≤ σ.bump ∨ kept = false then [r] else [] := by
            simp [lasting]
          rw [hseg, hdev, hlast]
          exact hvalues
      | false =>
        obtain ⟨σ1, hkeep, hb1⟩ := hw.keep_only r kept happ.2
        obtain ⟨σ', hdoom, hb'⟩ := Between.doom { hb1 with holds := hholds : Between crc dev seg bump g rs
          { σ1 with index := di, bump := σ.bump + r.size, seq := σ.seq + 1 } f h }
        refine ⟨σ', false, h, h, ?_, by simpa [lasting] using hb'⟩
        simp [DeltaDoom.step, happ, hkeep, hput, hdoom, s]
    · exact ⟨σ, false, f, h, by simp [DeltaDoom.step, happ], by simpa [lasting] using hb⟩

theorem Between.run (hb : Between crc dev seg bump g rs σ f h) (es : List Event) :
    ∃ σ' rs' f' h', DeltaDoom.run crc es σ = some (σ', rs') ∧ Between crc dev seg bump g (rs ++ rs') σ' f' h' := by
  induction es generalizing rs σ f h with
  | nil => exact ⟨σ, [], f, h, rfl, by rwa [append_nil]⟩
  | cons e es ih =>
    obtain ⟨σ1, ok, f1, h1, hstep, hb1⟩ := hb.step e
    obtain ⟨σ', rs', f', h', hrun, hb'⟩ := ih hb1
    refine ⟨σ', lasting σ ok e ++ rs', f', h', ?_, by rwa [← append_assoc]⟩
    rw [DeltaDoom.run, hstep, Option.bind_some, hrun]
    rfl

variable (crc) in
/-- An index whose slots name records on the device, with an active segment that is filled up to `bump`. -/
structure Backed (dev : List Byte) (g : Key → Option Ref) (seg bump : Nat) : Prop where
  inside : bump ≤ segBytes
  fits : seg * blockSize + segBytes ≤ dev.length
  names : ∀ key s, g key = some s → ∃ r, r.key = key ∧ Names crc dev seg bump s r

theorem Backed.between (hdev : Backed crc dev g seg bump) (hd : Holds di g) (seq : Nat) :
    Between crc dev seg bump g [] (fenced dev di seg bump seq) g g :=
  ⟨hd, rfl, le_rfl, fun _ he => absurd he not_mem_nil, hdev.inside, hdev.fits, fun _ _ h => h, fun _ => rfl⟩

/-- Dooming what is staged since a fence gives every key the value it had at that fence if and only if the
newest lasting record of each key carries that value. -/
theorem doom_restores_iff (hd : Holds di g) (hdev : Backed crc dev g seg bump) (seq : Nat) (es : List Event) :
    ∃ σ rs σ', run crc es (fenced dev di seg bump seq) = some (σ, rs) ∧ dlDoomLocked σ = some σ' ∧
      ((∀ key, lookupValue σ'.dev σ'.index key = lookupValue dev di key) ↔ ∀ key, ∀ r ∈ newest rs key,
        lookupValue dev di key = some (some (decide (r.kind = .delete), some r.val))) := by
  obtain ⟨σ, rs, f, h, hrun, hb⟩ := (hdev.between hd seq).run es
  obtain ⟨σ', hdoom, hb'⟩ := hb.doom
  refine ⟨σ, rs, σ', hrun, hdoom, forall_congr' fun key => ?_⟩
  have hvalue := hb'.values key
  rw [nil_append] at hvalue
  rw [lookupValue_holds hb'.holds, lookupValue_holds hd]
  cases hnew : newest rs key with
  | none =>
    rw [hnew] at hvalue
    change h key = g key at hvalue
    rw [hvalue]
    refine iff_of_true ?_ (by simp)
    cases hs : g key with
    | none => rfl
    | some s =>
      obtain ⟨r, rfl, hn⟩ := hdev.names key s hs
      simp only [Option.map_some, readValue_names hn, readValue_names (hb'.old s r hn)]
  | some r =>
    rw [hnew] at hvalue
    obtain ⟨s, hs, hn⟩ := hvalue
    obtain rfl : r.key = key := by simpa using find?_some hnew
    simp [hs, readValue_names hn, hn.del, eq_comm]

def one : Rec := (Rec.make? .put [1] [7]).get rfl

def two : Rec := (Rec.make? .put [1] [8]).get rfl

/-- A key with a record from before the fence is put again, in the first block of the segment. -/
theorem doom_restores_iff_again : ∃ (dev : List Byte) (di : DeltaTable.Index Ref) (g : Key → Option Ref),
    Holds di g ∧ Backed crc32c dev g 1 (segHdrLen + one.size) ∧
    lookupValue dev di one.key = some (some (false, some [7])) ∧
    ∃ σ rs σ', run crc32c [.append two true ⟨true, true⟩] (fenced dev di 1 (segHdrLen + one.size) 1) =
        some (σ, rs) ∧ dlDoomLocked σ = some σ' ∧ ((∀ key, lookupValue σ'.dev σ'.index key = lookupValue dev di key) ↔
        ∀ key, ∀ r ∈ newest rs key,
          lookupValue dev di key = some (some (decide (r.kind = .delete), some r.val))) := by
  let s : Ref := ⟨1, segHdrLen, 1, false, 1⟩
  have hlen : 1 * blockSize + segHdrLen + (recBytes crc32c one).length ≤ (replicate (2 ^ 18) (0 : Byte)).length := by
    rw [length_recBytes, length_replicate]
    decide
  have hn : Names crc32c (splice (1 * blockSize + segHdrLen) (recBytes crc32c one) (replicate (2 ^ 18) 0)) 1
      (segHdrLen + one.size) s one :=
    ⟨(length_recBytes crc32c one) ▸ pread_written hlen, rfl, rfl, .inl (Nat.add_assoc ..).le⟩
  obtain ⟨di, ok, hput, hd, -, -, -⟩ := (diNew_holds 0).put ⟨true, true⟩ one.key s
  obtain rfl : ok = true := Option.some_inj.mp (congrArg (Option.map Prod.snd) hput).symm
  rw [if_pos rfl] at hd
  have hdev : Backed crc32c (splice (1 * blockSize + segHdrLen) (recBytes crc32c one) (replicate (2 ^ 18) 0))
      (update (fun _ => none) one.key (some s)) 1 (segHdrLen + one.size) := by
    refine ⟨by decide, ?_, fun key s' hs => ?_⟩
    · rw [length_splice hlen, length_replicate]
      decide
    · by_cases hk : key = one.key
      · rw [hk, update_self] at hs
        exact ⟨one, hk.symm, Option.some_inj.mp hs ▸ hn⟩
      · rw [update_of_ne hk] at hs
        cases hs
  refine ⟨_, di, _, hd, hdev, ?_, doom_restores_iff hd hdev 1 _⟩
  rw [lookupValue_holds hd, update_self, Option.map_some, readValue_names hn]
  rfl

/-- A record in the second block of its segment is retained and put, and stays after it is doomed. -/
theorem second_block_stays : ∃ (dev : List Byte) (σ σ' : State), Backed crc32c dev (fun _ => none) 1 5000 ∧
    run crc32c [.append one true ⟨true, true⟩] (fenced dev (diNew 0) 1 5000 0) = some (σ, [one]) ∧
    dlDoomLocked σ = some σ' ∧ lookupValue dev (diNew 0) one.key = some none ∧
    lookupValue σ'.dev σ'.index one.key = some (some (false, some [7])) := by
  obtain ⟨dev, hdev⟩ : ∃ dev : List Byte, dev.length = 2 ^ 18 := ⟨replicate (2 ^ 18) 0, length_replicate⟩
  have hback : Backed crc32c dev (fun _ => none) 1 5000 :=
    ⟨by decide, by rw [hdev]; decide, fun _ _ hs => by cases hs⟩
  obtain ⟨σ, rs, f, h, hrun, hb⟩ := (hback.between (diNew_holds 0) 0).run [.append one true ⟨true, true⟩]
  obtain rfl : [one] = rs := Option.some_inj.mp (congrArg (Option.map Prod.snd) hrun)
  obtain ⟨σ', hdoom, hb'⟩ := hb.doom
  obtain ⟨s, hs, hn⟩ : ∃ s, h one.key = some s ∧ Names crc32c σ'.dev σ'.seg σ'.bump s one := hb'.values one.key
  refine ⟨dev, σ, σ', hback, hrun, hdoom, rfl, ?_⟩
  rw [lookupValue_holds hb'.holds, hs, Option.map_some, readValue_names hn, hn.del]
  rfl

end InvariantFs.DeltaDoom
