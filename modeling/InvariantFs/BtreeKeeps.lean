import InvariantFs.BtreeWrite

namespace InvariantFs.BtreeKeeps

open ByteCodec BtreePage BtreeSplit Btree Fallible BtreeShape BtreeWrite

variable (crc : List Byte → UInt32)

theorem peek_keeps {α : Type} (f : Vol → Option α) : Keeps Frame (act fun v => (f v, v)) := fun v => frame_refl v

theorem btRead_keeps (p : Ptr) : Keeps Frame (btRead crc p) := peek_keeps _

theorem separators_keeps (ps : List Ptr) : Keeps Frame (separators crc ps) := by
  induction ps with
  | nil => exact keeps_pure _
  | cons p ps ih => exact keeps_seq (peek_keeps _) fun _ => keeps_seq ih fun _ => keeps_pure _

theorem insRec_keeps (key : Key) (val : Val) (gen : UInt64) (fuel : Nat) (node : Ptr) :
    Keeps Frame (insRec crc key val gen fuel node) := by
  induction fuel generalizing node with
  | zero => exact keeps_failure
  | succ fuel ih =>
    refine keeps_seq (btRead_keeps crc node) fun n => ?_
    obtain ⟨level, es⟩ := n
    dsimp only
    split_ifs
    · exact keeps_seq (writePieces_keeps crc _ _ _) fun _ => keeps_pure _
    · exact keeps_failure
    · exact keeps_seq (writePieces_keeps crc _ _ _) fun _ => keeps_pure _
    · cases es[childIndex es key]? with
      | none => exact keeps_failure
      | some e =>
        refine keeps_seq (ih e.child) fun cs => ?_
        obtain ⟨_ | ⟨c, more⟩, _⟩ := cs
        · exact keeps_failure
        · refine keeps_seq (separators_keeps crc more) fun seps => ?_
          split
          · exact keeps_failure
          · exact keeps_seq (writePieces_keeps crc _ _ _) fun _ => keeps_pure _

theorem upsert_keeps (root : Ptr) (key : Key) (val : Val) : Keeps Frame (upsert crc root key val) := by
  unfold upsert
  dsimp only
  split_ifs
  · exact keeps_seq (btWrite_keeps crc _ _ _) fun _ => keeps_pure _
  · refine keeps_seq (insRec_keeps crc _ _ _ _ _) fun r => ?_
    obtain ⟨_ | ⟨p, _ | ⟨q, ps⟩⟩, level⟩ := r
    · exact keeps_seq (separators_keeps crc _) fun _ =>
        keeps_seq (btWrite_keeps crc _ _ _) fun _ => keeps_pure _
    · exact keeps_pure _
    · exact keeps_seq (separators_keeps crc _) fun _ =>
        keeps_seq (btWrite_keeps crc _ _ _) fun _ => keeps_pure _

theorem regroup_keeps (pe : List Ent) (base level : Nat) (gen : UInt64) (comb : List Ent) :
    Keeps Frame (regroup crc pe base level gen comb) := by
  unfold regroup
  cases comb with
  | nil => exact keeps_failure
  | cons first rest =>
    dsimp only
    split_ifs
    · exact keeps_seq (btWrite_keeps crc _ _ _) fun _ => keeps_pure _
    · cases splitPoint level (first :: rest) with
      | none => exact keeps_failure
      | some s =>
        dsimp only
        split_ifs
        · exact keeps_failure
        · refine keeps_seq (btWrite_keeps crc _ _ _) fun _ => keeps_seq (btWrite_keeps crc _ _ _) fun _ => ?_
          cases (first :: rest)[s]? with
          | none => exact keeps_failure
          | some e => exact keeps_pure _

theorem rebalance_keeps (pe : List Ent) (i : Nat) (gen : UInt64) : Keeps Frame (rebalance crc pe i gen) := by
  unfold rebalance
  split
  · exact keeps_pure _
  · dsimp only
    generalize (if i + 1 < pe.length then i + 1 else i - 1) = j
    split
    · refine keeps_seq (btRead_keeps crc _) fun _ => keeps_seq (btRead_keeps crc _) fun _ => ?_
      split
      · exact keeps_failure
      · exact regroup_keeps crc _ _ _ _ _
    · exact keeps_pure _

theorem delFinish_keeps (level : Nat) (gen : UInt64) (isRoot : Bool) (es : List Ent) :
    Keeps Frame (delFinish crc level gen isRoot es) := by
  unfold delFinish
  split_ifs
  · exact keeps_pure _
  · exact keeps_seq (btWrite_keeps crc _ _ _) fun _ => keeps_pure _

theorem delRec_keeps (key : Key) (gen : UInt64) (fuel : Nat) (isRoot : Bool) (node : Ptr) :
    Keeps Frame (delRec crc key gen fuel isRoot node) := by
  induction fuel generalizing isRoot node with
  | zero => exact keeps_failure
  | succ fuel ih =>
    refine keeps_seq (btRead_keeps crc node) fun n => ?_
    obtain ⟨level, es⟩ := n
    dsimp only
    split_ifs
    · exact delFinish_keeps crc _ _ _ _
    · exact keeps_pure _
    · cases es[childIndex es key]? with
      | none => exact keeps_failure
      | some e =>
        refine keeps_seq (ih false e.child) fun cd => ?_
        cases cd with
        | same => exact keeps_pure _
        | gone => exact delFinish_keeps crc _ _ _ _
        | node p underflow =>
          dsimp only
          split_ifs
          · exact keeps_seq (rebalance_keeps crc _ _ _) fun _ => delFinish_keeps crc _ _ _ _
          · exact keeps_seq (peek_keeps _) fun _ => delFinish_keeps crc _ _ _ _
          · exact delFinish_keeps crc _ _ _ _

theorem collapse_keeps (guard : Nat) (r : Ptr) : Keeps Frame (collapse crc guard r) := by
  induction guard generalizing r with
  | zero => exact keeps_pure _
  | succ guard ih =>
    unfold collapse
    split_ifs
    · exact keeps_pure _
    · refine keeps_seq (peek_keeps _) fun page => ?_
      split_ifs
      · exact keeps_pure _
      · exact ih _

theorem delete_keeps (root : Ptr) (key : Key) : Keeps Frame (delete crc root key) := by
  unfold delete
  split_ifs
  · exact keeps_pure _
  · refine keeps_seq (delRec_keeps crc _ _ _ _ _) fun dn => ?_
    cases dn with
    | same => exact keeps_pure _
    | gone => exact keeps_pure _
    | node p underflow =>
      refine keeps_seq (collapse_keeps crc _ _) fun r => ?_
      split_ifs
      · exact keeps_failure
      · exact keeps_seq (keeps_seq (peek_keeps _) fun _ => keeps_seq (place_keeps crc _ _) fun _ =>
          keeps_pure _) fun _ => keeps_pure _
      · exact keeps_pure _

end InvariantFs.BtreeKeeps
