import InvariantFs.DeltaLog

namespace InvariantFs.DeltaReplay

open ByteCodec CachedStore DeltaRecord DeltaSegment DeltaIndex DeltaLog List Prod

def effect (rs : List Rec) (key : List Byte) : Option (Bool × List Byte) :=
  (rs.reverse.find? fun r => r.key = key).map fun r => (decide (r.kind = .delete), r.val)

def notPad (r : Rec) : Bool := r.kind ≠ .pad

/-- The records of a chain of segments given newest first, in log order and without the pads. -/
def logRecords (segs : List (Nat × List Rec)) : List Rec :=
  (segs.reverse.flatMap snd).filter notPad

variable (crc : List Byte → UInt32)

/-- The segments that hang off `head`, newest first, each with the records stored in it. -/
def Linked (total : Nat) (m : Nat → List Byte) : Nat → List (Nat × List Rec) → Prop
  | head, [] => head = 0
  | head, (pba, rs) :: older =>
    head = pba ∧ pba ≠ 0 ∧ pba < total ∧ pba ∉ older.map fst ∧
      ∃ q prev n, m pba = hdrEncode crc q prev ++ (rs.flatMap (recBytes crc) ++ replicate n 0) ∧
        Linked total m prev older

theorem effect_append (rs ss : List Rec) (key : List Byte) :
    effect (rs ++ ss) key = (effect ss key).or (effect rs key) := by
  simp only [effect, reverse_append, find?_append]
  cases ss.reverse.find? (fun r => r.key = key) <;> rfl

theorem logRecords_cons (seg : Nat × List Rec) (older : List (Nat × List Rec)) :
    logRecords (seg :: older) = logRecords older ++ seg.2.filter notPad := by
  simp [logRecords]

variable {m : Nat → List Byte} {segs : List (Nat × List Rec)} {total head : Nat}

section

variable (h : Linked crc total m head segs)

include h

theorem linked_head : head = 0 ∨ head ∈ segs.map fst := by
  cases segs with
  | nil => exact .inl h
  | cons seg older => exact .inr (by simp [h.1])

theorem linked_head_lt (ht : 0 < total) : head < total := by
  cases segs with
  | nil => rw [show head = 0 from h]; exact ht
  | cons seg older => exact h.1 ▸ h.2.2.1

theorem linked_congr {m' : Nat → List Byte}
    (hm : ∀ pba ∈ segs.map fst, m' pba = m pba) : Linked crc total m' head segs := by
  induction segs generalizing head with
  | nil => exact h
  | cons seg older ih =>
    obtain ⟨hhead, h0, ht, hnot, q, prev, n, himg, hold⟩ := h
    refine ⟨hhead, h0, ht, hnot, q, prev, n, ?_, ih hold fun pba hp => hm pba ?_⟩
    · rw [hm seg.1 (by simp), himg]
    · simp [hp]

end

theorem chainFrom_linked (ht : total < 2 ^ 64) (h : Linked crc total m head segs) {fuel : Nat}
    (hf : segs.length ≤ fuel) : chainFrom crc total m fuel head = segs.map fst := by
  induction segs generalizing head fuel with
  | nil =>
    rw [show head = 0 from h]
    cases fuel <;> simp [chainFrom]
  | cons seg older ih =>
    obtain ⟨hhead, h0, hlt, hnot, q, prev, n, himg, hold⟩ := h
    cases fuel with
    | zero => simp at hf
    | succ fuel =>
      have hprev : prev < total := linked_head_lt crc hold (by omega)
      have hne : prev ≠ seg.1 := by
        rcases linked_head crc hold with h | h
        · omega
        · exact fun he => hnot (he ▸ h)
      subst hhead
      rw [chainFrom, if_neg h0, readHdr_encoded crc h0 hlt (by omega) himg]
      simp only [hne, if_false, map_cons]
      rw [ih hold (by simpa using hf)]

theorem segRecords_linked (h : Linked crc total m head segs) : ∀ seg ∈ segs, segRecords crc (m seg.1) = seg.2 := by
  induction segs generalizing head with
  | nil => simp
  | cons seg older ih =>
    obtain ⟨_, _, _, _, q, prev, n, himg, hold⟩ := h
    intro s hs
    rcases mem_cons.mp hs with rfl | hs
    · rw [himg, segRecords_encoded crc q prev _ _ (stops_zeros crc n)]
    · exact ih hold s hs

theorem answer_put (ram : Recent) (r : Rec) (pba off : Nat) (key : List Byte) :
    answer (ram.put r.key r.val (r.kind = .delete) pba off) key = (effect [r] key).or (answer ram key) := by
  by_cases hk : r.key = key
  · subst hk
    simp [answer, Ram.put, effect]
  · simp [answer, Ram.put, effect, AList.lookup_insert_ne (Ne.symm hk), hk]

theorem answer_replayRecords (pba : Nat) (rs : List Rec) (off : Nat) (ram : Recent) (key : List Byte) :
    answer (replayRecords pba rs off ram) key = (effect (rs.filter notPad) key).or (answer ram key) := by
  induction rs generalizing off ram with
  | nil => simp [replayRecords, effect]
  | cons r rs ih =>
    rw [replayRecords, ih]
    by_cases hp : r.kind = .pad
    · simp [hp, notPad]
    · have hn : (r :: rs).filter notPad = [r] ++ rs.filter notPad := by simp [notPad, hp]
      rw [if_neg hp, answer_put, hn, effect_append, Option.or_assoc]

theorem answer_replay (m : Nat → List Byte) (segs : List (Nat × List Rec))
    (hr : ∀ seg ∈ segs, segRecords crc (m seg.1) = seg.2) (ram : Recent) (key : List Byte) :
    answer ((segs.map fst).reverse.foldl
        (fun ram pba => replayRecords pba (segRecords crc (m pba)) segHdrLen ram) ram) key =
      (effect (logRecords segs) key).or (answer ram key) := by
  induction segs generalizing ram with
  | nil => simp [logRecords, effect]
  | cons seg older ih =>
    have hold : ∀ s ∈ older, segRecords crc (m s.1) = s.2 := fun s hs => hr s (by simp [hs])
    rw [map_cons, reverse_cons, foldl_append, foldl_cons, foldl_nil,
      answer_replayRecords, ih hold, hr seg (by simp), logRecords_cons, effect_append,
      Option.or_assoc]

theorem answer_mount (ht : total < 2 ^ 64) {m : Medium}
    (h : Linked crc total m.seg.view (m.rt.view ()).deltaPba segs) (hlen : segs.length ≤ deltaMaxSegments)
    (key : List Byte) : answer (mountRam crc total m) key = effect (logRecords segs) key := by
  rw [mountRam, chainFrom_linked crc ht h hlen, answer_replay crc m.seg.view segs (segRecords_linked crc h)]
  simp [answer, Ram.empty]

/-- Pads tile a span of any length, and over a run of whole records they leave the map of a replay as if
the run had never been there. -/
theorem pads_replay (e : Staged (List Byte) (List Byte)) (hlen : recHdrLen < e.len) :
    ((padBuild e.len).flatMap (recBytes crc)).length = e.len ∧ (∀ r ∈ padBuild e.len, r.kind = .pad) ∧
      ∀ (s : Store Nat (List Byte)) (head rest : List Byte) (before run : List Rec), head.length = segHdrLen →
        e.off = (head ++ before.flatMap (recBytes crc)).length → (run.flatMap (recBytes crc)).length = e.len →
        s.view e.seg = head ++ before.flatMap (recBytes crc) ++ run.flatMap (recBytes crc) ++ rest →
        segRecords crc ((padSpan crc e s).view e.seg) = before ++ padBuild e.len ++ scanValid crc rest ∧
          ∀ pba ram key,
            answer (replayRecords pba (segRecords crc ((padSpan crc e s).view e.seg)) segHdrLen ram) key =
              answer (replayRecords pba (before ++ scanValid crc rest) segHdrLen ram) key := by
  have hpads := padBuild_bytes crc e.len hlen
  refine ⟨hpads, padBuild_kind e.len, fun s head rest before run hhead hoff hrun himage => ?_⟩
  have hview : (padSpan crc e s).view e.seg =
      head ++ (before.flatMap (recBytes crc) ++ (padBuild e.len).flatMap (recBytes crc) ++ rest) := by
    rw [padSpan, if_neg (Nat.not_lt.mpr hlen), view_write_self, himage,
      splice_middle _ _ _ _ hoff (hpads.trans hrun.symm), append_assoc, append_assoc, append_assoc]
  have hrecs : segRecords crc ((padSpan crc e s).view e.seg) = before ++ padBuild e.len ++ scanValid crc rest := by
    rw [hview, segRecords, ← hhead, drop_left, ← flatMap_append, scanValid_append]
  refine ⟨hrecs, fun pba ram key => ?_⟩
  have hinert : (padBuild e.len).filter notPad = [] := by
    simpa [notPad] using padBuild_kind e.len
  rw [hrecs, answer_replayRecords, answer_replayRecords, filter_append, filter_append, filter_append, hinert,
    append_nil]

def byteRec (k x : Byte) : Rec := ⟨.put, [k], [x], by simp, by simp, by simp, by simp⟩

/-- Three records in a segment, the middle one a second value for the key of the first. -/
def threeRecs : Store Nat (List Byte) :=
  ⟨fun _ => replicate segHdrLen 0 ++ [byteRec 1 7].flatMap (recBytes crc32c) ++
    [byteRec 1 8].flatMap (recBytes crc32c) ++ ([byteRec 2 9].flatMap (recBytes crc32c) ++ replicate 9 0), []⟩

theorem pads_replay_second : answer (replayRecords 5
      (segRecords crc32c ((padSpan crc32c ⟨[1], [8], false, 5, 56, 12, none⟩ threeRecs).view 5)) segHdrLen .empty) =
    answer (replayRecords 5 [byteRec 1 7, byteRec 2 9] segHdrLen .empty) := by
  funext key
  have hrest := scanValid_records crc32c [byteRec 2 9] _ (stops_zeros crc32c 9)
  have h := (pads_replay crc32c ⟨[1], [8], false, 5, 56, 12, none⟩ (by decide)).2.2 threeRecs _ _
    [byteRec 1 7] [byteRec 1 8] rfl rfl rfl rfl
  rw [h.2, hrest]
  rfl

end InvariantFs.DeltaReplay
