import InvariantFs.DeltaSession

namespace InvariantFs.DeltaRemount

open ByteCodec CachedStore DeltaRecord DeltaSegment DeltaIndex DeltaLog DeltaReplay DeltaSession List Option Prod
open Function

variable (crc : List Byte → UInt32)

section

variable (total : Nat) (d : Image) (rs : List Rec)

def room : Nat :=
  (chain crc total d).head?.elim 0 fun pba => segBytes - validEnd crc (d.seg pba)

def first : List Rec := (lay (room crc total d) rs).1

def later : List (List Rec) := (lay (room crc total d) rs).2

/-- The records that the image holds in the active segment behind the bytes the appends overwrite. -/
def leftover : List Rec :=
  (chain crc total d).head?.elim [] fun pba =>
    scanValid crc ((d.seg pba).drop
      (validEnd crc (d.seg pba) + ((first crc total d rs).flatMap (recBytes crc)).length))

def tells (key : List Byte) : Option (Bool × List Byte) := effect (rs.filter notPad) key

def imageTells (key : List Byte) : Option (Bool × List Byte) :=
  (chain crc total d).findSome? fun pba => tells (segRecords crc (d.seg pba)) key

def refilled (pba : Nat) : List Rec :=
  segRecords crc (d.seg pba) ++
    if pba = (chain crc total d).headD 0 then first crc total d rs ++ leftover crc total d rs else []

/-- The records of every segment once the appends are in place, newest segment first. -/
def layout : List (List Rec) :=
  (later crc total d rs).reverse ++ (chain crc total d).map (refilled crc total d rs)

/-- The image holds nothing that the appends would bring back, and no record that they would push out
of reach of the chain walk. -/
structure Undisturbed : Prop where
  stale : (later crc total d rs).length < deltaMaxSegments → ∀ key x,
    tells (later crc total d rs).flatten key = none → tells (leftover crc total d rs) key = some x →
      (tells (first crc total d rs) key).or (imageTells crc total d key) = some x
  within : ∀ key, (tells rs key).or (imageTells crc total d key) ≠ none →
    ∃ seg ∈ (layout crc total d rs).take deltaMaxSegments, tells seg key ≠ none

end

def Follows (total : Nat) (m : Nat → List Byte) (cur : Nat) (c : List Nat) : Prop :=
  ∀ fuel, c.take fuel <+: chainFrom crc total m fuel cur

variable {m : Nat → List Byte} {cur : Nat} {total n : Nat} {hdr : SegHdr}

theorem chainFrom_succ (h0 : cur ≠ 0) (hh : readHdr crc total m cur = some hdr) : chainFrom crc total m (n + 1) cur =
      cur :: if hdr.prevPba = cur then [] else chainFrom crc total m n hdr.prevPba := by
  rw [chainFrom, if_neg h0, hh]

theorem follows_old {m' : Nat → List Byte}
    (h : ∀ q ∈ chainFrom crc total m n cur, readHdr crc total m' q = readHdr crc total m q) :
    Follows crc total m' cur (chainFrom crc total m n cur) := by
  induction n generalizing cur with
  | zero => intro fuel; simp [chainFrom]
  | succ n ih =>
    intro fuel
    cases fuel with
    | zero => simp
    | succ fuel =>
      by_cases h0 : cur = 0
      · simp [chainFrom, h0]
      · cases hh : readHdr crc total m cur with
        | none => simp [chainFrom, h0, hh]
        | some hdr =>
          rw [chainFrom_succ crc h0 hh] at h ⊢
          rw [chainFrom, if_neg h0, h cur mem_cons_self, hh]
          refine (prefix_cons_inj cur).mpr ?_
          by_cases hself : hdr.prevPba = cur
          · simp [hself]
          · rw [if_neg hself] at h ⊢
            rw [if_neg hself]
            exact ih (fun q hq => h q (mem_cons_of_mem _ hq)) fuel

variable {gs : List (List Rec)} {prev : Nat} {fs c : List Nat}

theorem follows_grown (hg : Grown crc total m prev fs gs)
    (hc : Follows crc total m prev c) : Follows crc total m (fs.getLast?.getD prev) (fs.reverse ++ c) := by
  induction fs generalizing prev gs c with
  | nil => exact hc
  | cons f fs ih =>
    cases gs with
    | nil => exact hg.elim
    | cons g gs =>
      obtain ⟨hf0, hflt, hne, hprev, ⟨gen, n, himg⟩, hrest⟩ := hg
      have hstep : Follows crc total m f (f :: c) := by
        intro fuel
        cases fuel with
        | zero => simp
        | succ fuel =>
          rw [chainFrom, if_neg hf0, readHdr_encoded crc hf0 hflt hprev himg]
          refine (prefix_cons_inj f).mpr ?_
          rw [if_neg hne]
          exact hc fuel
      have hfs := ih hrest hstep
      rw [getLast?_cons, getD_some, reverse_cons, append_assoc]
      exact hfs

def Closed (total : Nat) (m : Nat → List Byte) (s : List Nat) : Prop :=
  ∀ q ∈ s, ∀ hdr, readHdr crc total m q = some hdr → hdr.prevPba = q ∨ hdr.prevPba = 0 ∨
    readHdr crc total m hdr.prevPba = none ∨ hdr.prevPba ∈ s

theorem chainFrom_subset {s : List Nat} (hs : Closed crc total m s)
    (hcur : cur = 0 ∨ readHdr crc total m cur = none ∨ cur ∈ s) (fuel : Nat) :
    ∀ q ∈ chainFrom crc total m fuel cur, q ∈ s := by
  induction fuel generalizing cur with
  | zero => simp [chainFrom]
  | succ fuel ih =>
    by_cases h0 : cur = 0
    · simp [chainFrom, h0]
    · cases hh : readHdr crc total m cur with
      | none => simp [chainFrom, h0, hh]
      | some hdr =>
        have hmem : cur ∈ s := by
          obtain h | h | h := hcur
          · exact absurd h h0
          · rw [h] at hh
            cases hh
          · exact h
        rw [chainFrom_succ crc h0 hh]
        refine forall_mem_cons.mpr ⟨hmem, ?_⟩
        by_cases hself : hdr.prevPba = cur
        · simp [hself]
        · rw [if_neg hself]
          exact ih ((hs cur hmem hdr hh).resolve_left hself)

theorem chainFrom_closed (h : (chainFrom crc total m n cur).length < n) :
    Closed crc total m (chainFrom crc total m n cur) ∧
      (cur = 0 ∨ readHdr crc total m cur = none ∨ cur ∈ chainFrom crc total m n cur) := by
  induction n generalizing cur with
  | zero => omega
  | succ n ih =>
    by_cases h0 : cur = 0
    · simp [chainFrom, h0, Closed]
    · cases hh : readHdr crc total m cur with
      | none => simp [chainFrom, h0, hh, Closed]
      | some hdr =>
        rw [chainFrom_succ crc h0 hh] at h ⊢
        refine ⟨?_, .inr (.inr mem_cons_self)⟩
        by_cases hself : hdr.prevPba = cur
        · rw [if_pos hself]
          intro q hq hdr' hhdr'
          rw [mem_singleton] at hq
          subst hq
          rw [hh] at hhdr'
          cases hhdr'
          exact .inl hself
        · rw [if_neg hself] at h ⊢
          obtain ⟨hcl, hnext⟩ := ih (by simpa using h)
          intro q hq hdr' hhdr'
          obtain rfl | hq := mem_cons.mp hq
          · rw [hh] at hhdr'
            cases hhdr'
            exact .inr (hnext.imp_right (.imp_right (mem_cons_of_mem _)))
          · exact (hcl q hq hdr' hhdr').imp_right (.imp_right (.imp_right (mem_cons_of_mem _)))

theorem length_chainFrom_le (total : Nat) (m : Nat → List Byte) (n cur : Nat) :
    (chainFrom crc total m n cur).length ≤ n := by
  induction n generalizing cur with
  | zero => simp [chainFrom]
  | succ n ih =>
    rw [chainFrom]
    split
    · simp
    · split
      · simp
      · split
        · simp
        · simpa using ih _

theorem findSome_follows {β : Type} (hf : Follows crc total m cur c)
    (hs : c.length < n → ∀ q ∈ chainFrom crc total m n cur, q ∈ c) (E : Nat → Option β) :
    (chainFrom crc total m n cur).findSome? E = (c.take n).findSome? E := by
  obtain ⟨ext, hext⟩ := hf n
  have hlen := length_chainFrom_le crc total m n cur
  by_cases hn : c.length < n
  · -- what comes behind `c` was in `c` before
    rw [take_of_length_le (Nat.le_of_lt hn)] at hext ⊢
    rw [← hext, findSome?_append]
    cases hE : c.findSome? E with
    | some x => rfl
    | none =>
      rw [findSome?_eq_none_iff] at hE
      rw [none_or, findSome?_eq_none_iff]
      intro q hq
      exact hE q (hs hn q (by rw [← hext]; exact mem_append_right _ hq))
  · have hnil : ext = [] := by
      have := congrArg List.length hext
      rw [length_append, length_take] at this
      exact eq_nil_of_length_eq_zero (by omega)
    rw [← hext, hnil, append_nil]

theorem replayRecords_rewrite (pba : Nat) (rs : List Rec) (off : Nat) (ram : Recent) :
    (replayRecords pba rs off ram).rewriteNeeded = ram.rewriteNeeded := by
  induction rs generalizing off ram with
  | nil => rfl
  | cons r rs ih =>
    rw [replayRecords, ih]
    split <;> rfl

theorem mountRam_rewrite (total : Nat) (m : Medium) : (mountRam crc total m).rewriteNeeded = false := by
  rw [mountRam]
  generalize (chainFrom crc total m.seg.view deltaMaxSegments (m.rt.view ()).deltaPba).reverse = c
  have h0 : (Ram.empty : Recent).rewriteNeeded = false := rfl
  revert h0
  generalize (Ram.empty : Recent) = ram
  intro h0
  induction c generalizing ram with
  | nil => exact h0
  | cons pba c ih => exact ih _ ((replayRecords_rewrite pba _ _ ram).trans h0)

theorem mount_quiet (hd : Handle) (d : Image) : Quiet (mount crc hd d) :=
  ⟨mountRam_rewrite crc hd.total d.medium, fun _ => ⟨rfl, rfl⟩⟩

variable {d : Image} {pba : Nat} {older : List Nat}

theorem chain_head (h : chain crc total d = pba :: older) :
    pba ≠ 0 ∧ pba < total ∧ pba = d.rt.deltaPba ∧ (readHdr crc total d.seg pba).isSome := by
  rw [chain, deltaMaxSegments, show 2 ^ 20 = 2 ^ 20 - 1 + 1 from rfl, chainFrom] at h
  split at h
  · cases h
  · next h0 =>
    split at h
    · cases h
    · next hdr hh =>
      obtain ⟨rfl, -⟩ := List.cons.inj h
      have hin : ¬ (d.rt.deltaPba = 0 ∨ total ≤ d.rt.deltaPba) := by
        intro hbad
        rw [readHdr, if_pos hbad] at hh
        cases hh
      exact ⟨h0, by omega, rfl, by rw [hh]; rfl⟩

theorem chain_single {gen : Nat} {rest : List Byte} (h0 : pba ≠ 0) (hlt : pba < total)
    (himg : d.seg pba = hdrEncode crc gen 0 ++ rest) (hpba : d.rt.deltaPba = pba) : chain crc total d = [pba] := by
  have hhdr := readHdr_encoded crc h0 hlt (by decide) himg
  rw [chain, hpba, deltaMaxSegments, show 2 ^ 20 = 2 ^ 20 - 2 + 1 + 1 from rfl, chainFrom, if_neg h0, hhdr]
  simp [Ne.symm h0, chainFrom]

theorem image_split (image : List Byte) (h : image.length = segBytes) :
    ∃ rest, image = image.take segHdrLen ++ ((segRecords crc image).flatMap (recBytes crc) ++ rest) ∧
      Stops crc rest ∧ validEnd crc image + rest.length = segBytes := by
  obtain ⟨rest, hrest, hstop⟩ := scanValid_split crc (image.drop segHdrLen)
  refine ⟨rest, ?_, hstop, ?_⟩
  · rw [segRecords, ← hrest, take_append_drop]
  · have hlen := congrArg List.length hrest
    rw [length_drop, length_append] at hlen
    rw [validEnd, segRecords]
    simp only [segHdrLen, segBytes, segBlocks, blockSize] at *
    omega

theorem mount_active (hd : Handle) (d : Image) : Active (mount crc hd d) := by
  cases hc : chain crc hd.total d with
  | nil =>
    have h0 : (mount crc hd d).segPba = 0 := by simp [mount, hc]
    refine ⟨by rw [h0]; decide, fun h => absurd h0 h, fun h => absurd h0 h, fun h => absurd h0 h,
      fun h => absurd h0 h⟩
  | cons pba older =>
    obtain ⟨-, hlt, -⟩ := chain_head crc hc
    have hpba : (mount crc hd d).segPba = pba := by simp [mount, hc]
    have hbump : (mount crc hd d).bump = validEnd crc (d.seg pba) := by simp [mount, hc]
    obtain ⟨rest, -, -, hend⟩ := image_split crc (d.seg pba) (d.whole pba)
    refine ⟨?_, fun _ => ?_, fun _ => ?_, fun _ => ?_, fun _ => d.whole _⟩
    · rw [hpba]
      exact Nat.lt_trans hlt hd.total_lt
    · rw [hpba]
      simp [mount, hc]
    · rw [hbump, validEnd]
      omega
    · rw [hbump]
      omega

theorem roomOf_mount (hd : Handle) (d : Image) : roomOf (mount crc hd d) = room crc hd.total d := by
  cases hc : chain crc hd.total d with
  | nil => simp [roomOf, mount, room, hc]
  | cons pba older =>
    have h0 := (chain_head crc hc).1
    simp [roomOf, mount, room, hc, h0]

variable {l : Log} {rs : List Rec} {hd : Handle} {fresh : List Nat} {q : Nat}

theorem ran_header (h : Ran crc (mount crc hd d) l rs fresh) (hq : q ∉ fresh) :
    readHdr crc hd.total l.med.seg.view q = readHdr crc hd.total d.seg q := by
  by_cases ha : q = (mount crc hd d).segPba
  · by_cases h0 : q = 0
    · simp [readHdr, h0]
    · have hact := mount_active crc hd d
      have hlo := hact.bump_lo (ha ▸ h0)
      have hlen : (mount crc hd d).bump ≤ ((mount crc hd d).med.seg.view (mount crc hd d).segPba).length := by
        rw [hact.whole (ha ▸ h0)]
        exact hact.bump_hi (ha ▸ h0)
      rw [readHdr, ha, h.active_eq, take_splice _ hlen hlo]
      rfl
  · rw [readHdr, readHdr, h.other_eq q ha hq]
    rfl

theorem ran_chain_old (h : Ran crc (mount crc hd d) l rs fresh) (hq : q ∈ chain crc hd.total d) : q ∉ fresh :=
  fun hf => (h.fresh_ne q hf).2 (mem_append_left _ hq)

theorem grown_closed (hg : Grown crc total m prev fs gs) {f : Nat} (hf : f ∈ fs)
    (hh : readHdr crc total m f = some hdr) : hdr.prevPba = prev ∨ hdr.prevPba ∈ fs := by
  induction fs generalizing prev gs with
  | nil => cases hf
  | cons e fs ih =>
    cases gs with
    | nil => exact hg.elim
    | cons g gs =>
      obtain ⟨he0, helt, hne, hprev, ⟨gen, n, himg⟩, hrest⟩ := hg
      obtain rfl | hf := mem_cons.mp hf
      · rw [readHdr_encoded crc he0 helt hprev himg] at hh
        cases hh
        exact .inl rfl
      · obtain hp | hp := ih hrest hf
        · exact .inr (by rw [hp]; exact mem_cons_self)
        · exact .inr (mem_cons_of_mem _ hp)

section

variable (h : Ran crc (mount crc hd d) l rs fresh)

include h

/-- Once the old walk was complete, the new chain has the old segments and the new ones. A header that ended the
old walk may have become the header of a new segment. -/
theorem ran_closed (hlen : (chain crc hd.total d).length < deltaMaxSegments) :
    Closed crc hd.total l.med.seg.view (fresh.reverse ++ chain crc hd.total d) := by
  obtain ⟨hcl, -⟩ := chainFrom_closed crc hlen
  intro q hq hdr hh
  obtain hq | hq := mem_append.mp hq
  · obtain hp | hp := grown_closed crc h.grown (mem_reverse.mp hq) hh
    · cases hc : chain crc hd.total d with
      | nil => exact .inr (.inl (by rw [hp]; simp [mount, hc]))
      | cons pba older =>
        have hpba : hdr.prevPba = pba := by rw [hp]; simp [mount, hc]
        exact .inr (.inr (.inr (by rw [hpba]; simp)))
    · exact .inr (.inr (.inr (mem_append_left _ (mem_reverse.mpr hp))))
  · rw [ran_header crc h (ran_chain_old crc h hq)] at hh
    obtain he | hz | hn | hm := hcl q hq hdr hh
    · exact .inl he
    · exact .inr (.inl hz)
    · by_cases hf : hdr.prevPba ∈ fresh
      · exact .inr (.inr (.inr (mem_append_left _ (mem_reverse.mpr hf))))
      · exact .inr (.inr (.inl (by rw [ran_header crc h hf, hn])))
    · exact .inr (.inr (.inr (mem_append_right _ hm)))

theorem ran_follows :
    Follows crc hd.total l.med.seg.view (l.med.rt.view ()).deltaPba (fresh.reverse ++ chain crc hd.total d) := by
  have hold : Follows crc hd.total l.med.seg.view d.rt.deltaPba (chain crc hd.total d) :=
    follows_old crc fun q hq => ran_header crc h (ran_chain_old crc h hq)
  cases fresh with
  | nil =>
    rw [h.rt_eq]
    exact hold
  | cons f fs =>
    have hseg : Follows crc hd.total l.med.seg.view (mount crc hd d).segPba (chain crc hd.total d) := by
      cases hc : chain crc hd.total d with
      | nil => intro fuel; simp
      | cons pba older =>
        have hpba : (mount crc hd d).segPba = d.rt.deltaPba := by
          rw [← (chain_head crc hc).2.2.1]
          simp [mount, hc]
        rw [hpba, ← hc]
        exact hold
    have hfs := follows_grown crc h.grown hseg
    rw [h.rt_eq, getLast?_cons]
    rw [getLast?_cons, getD_some] at hfs
    exact hfs

theorem ran_findSome {β : Type} (E : Nat → Option β) :
    (chainFrom crc hd.total l.med.seg.view deltaMaxSegments (l.med.rt.view ()).deltaPba).findSome? E =
      ((fresh.reverse ++ chain crc hd.total d).take deltaMaxSegments).findSome? E := by
  refine findSome_follows crc (ran_follows crc h) (fun hlen => ?_) E
  have hold : (chain crc hd.total d).length < deltaMaxSegments := by
    rw [length_append] at hlen
    omega
  refine chainFrom_subset crc (ran_closed crc h hold) ?_ _
  cases fresh with
  | nil =>
    rw [h.rt_eq, ran_header crc h (by simp)]
    exact (chainFrom_closed crc hold).2
  | cons f fs =>
    refine .inr (.inr (mem_append_left _ (mem_reverse.mpr ?_)))
    rw [h.rt_eq, getLast?_cons]
    cases hl : fs.getLast? with
    | none => exact mem_cons_self
    | some e => exact mem_cons_of_mem _ (mem_of_getLast? hl)

end

theorem tells_append (rs ss : List Rec) (key : List Byte) :
    tells (rs ++ ss) key = (tells ss key).or (tells rs key) := by
  rw [tells, filter_append, effect_append]
  rfl

theorem tells_flatten (gs : List (List Rec)) (key : List Byte) :
    gs.reverse.findSome? (fun g => tells g key) = tells gs.flatten key := by
  induction gs with
  | nil => rfl
  | cons g gs ih =>
    rw [reverse_cons, findSome?_append, ih, flatten_cons, tells_append, findSome?_singleton]

theorem effect_logRecords (segs : List (Nat × List Rec)) (key : List Byte) :
    effect (logRecords segs) key = segs.findSome? fun seg => tells seg.2 key := by
  induction segs with
  | nil => rfl
  | cons seg older ih =>
    rw [logRecords_cons, effect_append, ih, findSome?_cons, ← tells]
    cases tells seg.2 key <;> rfl

theorem answer_mountRam (total : Nat) (m : Medium) (key : List Byte) : answer (mountRam crc total m) key =
      (chainFrom crc total m.seg.view deltaMaxSegments (m.rt.view ()).deltaPba).findSome?
        fun pba => tells (segRecords crc (m.seg.view pba)) key := by
  rw [mountRam]
  generalize chainFrom crc total m.seg.view deltaMaxSegments (m.rt.view ()).deltaPba = c
  have hreplay := answer_replay crc m.seg.view (c.map fun pba => (pba, segRecords crc (m.seg.view pba)))
    (by simp) Ram.empty key
  have hfst : (c.map fun pba => (pba, segRecords crc (m.seg.view pba))).map fst = c := by simp [comp_def]
  rw [hfst, effect_logRecords, findSome?_map] at hreplay
  rw [hreplay]
  simp [answer, Ram.empty, comp_def]

theorem answer_image (total : Nat) (d : Image) (key : List Byte) :
    answer (mountRam crc total d.medium) key = imageTells crc total d key :=
  answer_mountRam crc total d.medium key

theorem grown_records (hg : Grown crc total m prev fs gs) : fs.map (fun f => segRecords crc (m f)) = gs := by
  induction fs generalizing prev gs with
  | nil =>
    cases gs with
    | nil => rfl
    | cons g gs => exact hg.elim
  | cons f fs ih =>
    cases gs with
    | nil => exact hg.elim
    | cons g gs =>
      obtain ⟨-, -, -, -, ⟨gen, n, himg⟩, hrest⟩ := hg
      rw [map_cons, ih hrest, himg, segRecords_encoded crc _ _ _ _ (stops_zeros crc n)]

theorem segRecords_splice {image data : List Byte} (hlen : image.length = segBytes)
    (hdata : data = rs.flatMap (recBytes crc)) : segRecords crc (splice (validEnd crc image) data image) =
      segRecords crc image ++ (rs ++ scanValid crc (image.drop (validEnd crc image + data.length))) := by
  obtain ⟨rest, hsplit, -, -⟩ := image_split crc image hlen
  have hhdr : (image.take segHdrLen).length = segHdrLen := by
    rw [length_take, hlen]
    rfl
  have hpre : (image.take segHdrLen ++ (segRecords crc image).flatMap (recBytes crc)).length =
      validEnd crc image := by
    rw [length_append, hhdr, validEnd]
  have htake : image.take (validEnd crc image) =
      image.take segHdrLen ++ (segRecords crc image).flatMap (recBytes crc) := by
    generalize validEnd crc image = n at hpre
    conv_lhs => rw [hsplit, ← append_assoc]
    exact take_left' hpre
  rw [splice, htake, hdata]
  conv_lhs => rw [segRecords]
  rw [append_assoc, append_assoc, drop_left' hhdr, scanValid_append, scanValid_append]

theorem ran_records (h : Ran crc (mount crc hd d) l rs fresh) :
    (fresh.reverse ++ chain crc hd.total d).map (fun pba => segRecords crc (l.med.seg.view pba)) =
      layout crc hd.total d rs := by
  have hgrown := grown_records crc h.grown
  rw [roomOf_mount] at hgrown
  rw [map_append, map_reverse, hgrown, layout]
  refine congrArg _ (map_congr_left fun q hq => ?_)
  cases hc : chain crc hd.total d with
  | nil => rw [hc] at hq; cases hq
  | cons pba older =>
    have hpba : (mount crc hd d).segPba = pba := by simp [mount, hc]
    have hbump : (mount crc hd d).bump = validEnd crc (d.seg pba) := by simp [mount, hc]
    rw [refilled, hc, headD_cons]
    by_cases ha : q = pba
    · have hact := h.active_eq
      rw [hpba, hbump, roomOf_mount] at hact
      rw [if_pos ha, ha, hact, leftover, hc]
      exact segRecords_splice crc (d.whole pba) rfl
    · rw [if_neg ha, append_nil, h.other_eq q (hpba ▸ ha) (ran_chain_old crc h hq)]
      rfl

theorem ran_answer (h : Ran crc (mount crc hd d) l rs fresh) (key : List Byte) :
    answer (mountRam crc hd.total l.med) key =
      ((layout crc hd.total d rs).take deltaMaxSegments).findSome? fun seg => tells seg key := by
  rw [answer_mountRam, ran_findSome crc h, ← ran_records crc h, ← map_take, findSome?_map]
  rfl

theorem lay_flatten (room : Nat) (rs : List Rec) : (lay room rs).1 ++ (lay room rs).2.flatten = rs := by
  induction rs generalizing room with
  | nil => rfl
  | cons r rs ih =>
    rw [lay]
    split
    · rw [cons_append, ih]
    · rw [nil_append, flatten_cons, cons_append, ih]

theorem tells_records (total : Nat) (d : Image) (rs : List Rec) (key : List Byte) :
    tells rs key = (tells (later crc total d rs).flatten key).or (tells (first crc total d rs) key) := by
  conv_lhs => rw [← lay_flatten (room crc total d) rs, tells_append]
  rfl

theorem refilled_quiet (total : Nat) (d : Image) (rs : List Rec) (key : List Byte)
    (hfirst : tells (first crc total d rs) key = none) (hleft : tells (leftover crc total d rs) key = none)
    (pba : Nat) : tells (refilled crc total d rs pba) key = tells (segRecords crc (d.seg pba)) key := by
  have hnil : tells [] key = none := rfl
  rw [refilled, tells_append]
  split
  · rw [tells_append, hfirst, hleft]
    rfl
  · rw [hnil]
    rfl

theorem leftover_chain {key : List Byte} {x : Bool × List Byte} (h : tells (leftover crc total d rs) key = some x) :
    ∃ pba older, chain crc total d = pba :: older := by
  cases hc : chain crc total d with
  | nil =>
    rw [leftover, hc] at h
    cases h
  | cons pba older => exact ⟨pba, older, rfl⟩

theorem layout_take (hlt : (later crc total d rs).length < deltaMaxSegments) :
    ∃ n, (layout crc total d rs).take deltaMaxSegments = (later crc total d rs).reverse ++
      ((chain crc total d).take (n + 1)).map (refilled crc total d rs) := by
  refine ⟨deltaMaxSegments - (later crc total d rs).length - 1, ?_⟩
  have hmax : deltaMaxSegments = (later crc total d rs).reverse.length +
      (deltaMaxSegments - (later crc total d rs).length - 1 + 1) := by
    rw [length_reverse]
    omega
  conv_lhs => rw [layout, hmax, take_length_add_append]
  rw [map_take]

theorem refilled_head (hc : chain crc total d = pba :: older) (key : List Byte) (n : Nat) :
    (((chain crc total d).take (n + 1)).map (refilled crc total d rs)).findSome? (fun seg => tells seg key) =
      ((tells (leftover crc total d rs) key).or ((tells (first crc total d rs) key).or
        (tells (segRecords crc (d.seg pba)) key))).or
      (((older.take n).map (refilled crc total d rs)).findSome? fun seg => tells seg key) := by
  have hhead : tells (refilled crc total d rs pba) key = (tells (leftover crc total d rs) key).or
      ((tells (first crc total d rs) key).or (tells (segRecords crc (d.seg pba)) key)) := by
    rw [refilled, hc, headD_cons, if_pos rfl, tells_append, tells_append, Option.or_assoc]
  rw [hc, take_succ_cons, map_cons, findSome?_cons, hhead]
  cases (tells (leftover crc total d rs) key).or ((tells (first crc total d rs) key).or
    (tells (segRecords crc (d.seg pba)) key)) <;> rfl

theorem findSome_take {α β : Type} {f : α → Option β} {l : List α} {x : β}
    (h : (l.take n).findSome? f = some x) : l.findSome? f = some x := by
  conv_lhs => rw [← take_append_drop n l, findSome?_append, h]
  rfl

theorem layout_iff (total : Nat) (d : Image) (rs : List Rec) :
    (∀ key, ((layout crc total d rs).take deltaMaxSegments).findSome? (fun seg => tells seg key) =
      (tells rs key).or (imageTells crc total d key)) ↔ Undisturbed crc total d rs := by
  constructor
  · intro h
    refine ⟨fun hlt key x hlater hleft => ?_, fun key hne => ?_⟩
    · obtain ⟨pba, older, hc⟩ := leftover_chain crc hleft
      obtain ⟨n, htake⟩ := layout_take crc hlt
      have hkey := h key
      rw [htake, findSome?_append, tells_flatten, tells_records crc total d rs, hlater,
        refilled_head crc hc, hleft] at hkey
      exact hkey.symm
    · rw [← h key] at hne
      obtain ⟨x, hx⟩ := ne_none_iff_exists'.mp hne
      obtain ⟨seg, hseg, hval⟩ := exists_of_findSome?_eq_some hx
      exact ⟨seg, hseg, by rw [hval]; simp⟩
  · intro h key
    cases hA : ((layout crc total d rs).take deltaMaxSegments).findSome? (fun seg => tells seg key) with
    | none =>
      by_contra hT
      obtain ⟨seg, hseg, hne⟩ := h.within key (fun he => hT he.symm)
      exact hne (List.findSome?_eq_none_iff.mp hA seg hseg)
    | some x =>
      rw [tells_records crc total d rs]
      by_cases hlt : (later crc total d rs).length < deltaMaxSegments
      · obtain ⟨n, htake⟩ := layout_take crc hlt
        rw [htake, findSome?_append, tells_flatten] at hA
        cases hlater : tells (later crc total d rs).flatten key with
        | some y =>
          rw [hlater] at hA
          exact hA.symm
        | none =>
          rw [hlater] at hA
          rw [none_or]
          cases hleft : tells (leftover crc total d rs) key with
          | some y =>
            obtain ⟨pba, older, hc⟩ := leftover_chain crc hleft
            rw [refilled_head crc hc, hleft] at hA
            rw [h.stale hlt key y hlater hleft]
            exact hA.symm
          | none =>
            cases hfirst : tells (first crc total d rs) key with
            | some y =>
              cases hc : chain crc total d with
              | nil =>
                rw [hc] at hA
                cases hA
              | cons pba older =>
                rw [refilled_head crc hc, hleft, hfirst] at hA
                exact hA.symm
            | none =>
              have hsame : (fun seg => tells seg key) ∘ refilled crc total d rs =
                  fun pba => tells (segRecords crc (d.seg pba)) key :=
                funext (refilled_quiet crc total d rs key hfirst hleft)
              rw [findSome?_map, hsame] at hA
              exact (findSome_take hA).symm
      · -- the walk ends within the new segments
        have hle : deltaMaxSegments ≤ (later crc total d rs).reverse.length := by
          rw [length_reverse]
          omega
        rw [layout, take_append_of_le_length hle] at hA
        have hlater := findSome_take hA
        rw [tells_flatten] at hlater
        rw [hlater]
        rfl

theorem drain_fenced (h : Quiet l) (a b : List Bool) :
    ((drain crc (fenced none) l).2.1.med.tear a b).seg.view = l.med.seg.view ∧
      ((drain crc (fenced none) l).2.1.med.tear a b).rt.view = l.med.rt.view := by
  rw [drain]
  split
  · next hidle =>
    obtain ⟨hrt, hseg⟩ := h.idle hidle.1
    exact ⟨by rw [Medium.tear, tear_idle hseg], by rw [Medium.tear, tear_idle hrt]⟩
  · rw [healed_quiet crc h.rewrite]
    exact ⟨by simp only [fenced, Medium.tear, Medium.fence, tear_idle (pending_fence _), view_fence],
      by simp only [fenced, Medium.tear, Medium.fence, tear_idle (pending_fence _), view_fence]⟩

theorem drain_ram (l : Log) : (drain crc (fenced none) l).2.1.ram.index = l.ram.index ∧
    (drain crc (fenced none) l).2.1.ram.rewriteNeeded = false := by
  rw [drain]
  split <;> exact ⟨rfl, rfl⟩

theorem session_answer {calls : List (Option Nat × Rec)} (hrun : session crc hd d calls = some l)
    (rtKept segKept : List Bool) : (∀ r ∈ calls.map snd, r.kind ≠ .pad) ∧
      ∀ key, answer (mountRam crc hd.total (l.med.tear rtKept segKept)) key =
      ((layout crc hd.total d (calls.map snd)).take deltaMaxSegments).findSome? fun seg => tells seg key := by
  obtain ⟨l', happ, rfl⟩ := map_eq_some_iff.mp hrun
  obtain ⟨fresh, hran⟩ := appends_ran crc (mount_quiet crc hd d) (mount_active crc hd d) happ
  obtain ⟨hseg, hrt⟩ := drain_fenced crc hran.quiet rtKept segKept
  refine ⟨hran.kinds, fun key => ?_⟩
  rw [← ran_answer crc hran, answer_mountRam, answer_mountRam, hseg, hrt]

theorem tells_kinds {rs : List Rec} (h : ∀ r ∈ rs, r.kind ≠ .pad) (key : List Byte) :
    tells rs key = effect rs key := by
  rw [tells, filter_eq_self.mpr fun r hr => by simp [notPad, h r hr]]

/-- The index at the end of a session answers as the next mount does. -/
theorem session_ram {calls : List (Option Nat × Rec)} (hrun : session crc hd d calls = some l)
    (hu : Undisturbed crc hd.total d (calls.map snd)) : l.ram.rewriteNeeded = false ∧ ∀ rtKept segKept key,
      answer (mountRam crc hd.total (l.med.tear rtKept segKept)) key = answer l.ram key := by
  obtain ⟨l', happ, hl⟩ := map_eq_some_iff.mp hrun
  obtain ⟨fresh, hran⟩ := appends_ran crc (mount_quiet crc hd d) (mount_active crc hd d) happ
  obtain ⟨hindex, hrewrite⟩ := drain_ram crc l'
  rw [hl] at hindex hrewrite
  refine ⟨hrewrite, fun rtKept segKept key => ?_⟩
  rw [(session_answer crc hrun rtKept segKept).2, (layout_iff crc hd.total d _).mpr hu, tells_kinds hran.kinds,
    answer, hindex, ← answer_image]
  exact (hran.ram_eq key).symm

/-- A mount, any appends whose fences succeed, and a mount of what a power cut leaves after the last fence: the
second map is the first one updated by the appends just where the image was undisturbed. -/
theorem remount_updates (hd : Handle) (d : Image) (calls : List (Option Nat × Rec)) {l : Log}
    (hrun : session crc hd d calls = some l) (rtKept segKept : List Bool) :
    (∀ key, answer (mountRam crc hd.total (l.med.tear rtKept segKept)) key =
      (effect (calls.map snd) key).or (answer (mountRam crc hd.total d.medium) key)) ↔
    Undisturbed crc hd.total d (calls.map snd) := by
  obtain ⟨hkinds, hanswer⟩ := session_answer crc hrun rtKept segKept
  rw [← layout_iff]
  refine forall_congr' fun key => ?_
  rw [hanswer, answer_image, tells_kinds hkinds]

def newRec : Rec := ⟨.put, [7], [8], by decide, by decide, by decide, by decide⟩

def staleRec : Rec := ⟨.put, [5], [6], by decide, by decide, by decide, by decide⟩

/-- A record of the size of `newRec` whose value never reached the device. -/
def tornTail : List Byte :=
  wr16be 1 ++ wr16be 1 ++ wr16be 0 ++ wr32 (crc32c [1, 2]) ++ [1] ++ [0]

def tornImage (tail : List Byte) (h : tail.length = segBytes - segHdrLen - 12) : Image where
  rt := ⟨(0, 0), 0, 100⟩
  seg pba := if pba = 100 then hdrEncode crc32c 1 0 ++ (tornTail ++ tail) else replicate segBytes 0
  whole pba := by
    split
    · rw [length_append, length_hdrEncode, length_append, h]
      rfl
    · exact length_replicate

def tornHandle : Handle := ⟨4096, page_lt, false, [], 64, 262144⟩

section Torn

variable {tail : List Byte} (h : tail.length = segBytes - segHdrLen - 12)

theorem recParse_torn (tail : List Byte) : recParse crc32c (tornTail ++ tail) = .bad := by
  have hcrc : (crc32c [1, 0]).toNat ≠ (crc32c [1, 2]).toNat := by decide +kernel
  simp only [tornTail, wr16be, wr32, cons_append, nil_append, recParse, rd32_wr32]
  simp [rd16be, Kind.ofFlags, hcrc, recHdrLen, byte, replicate]

theorem chain_torn : chain crc32c 4096 (tornImage tail h) = [100] :=
  chain_single crc32c (by decide) (by decide) rfl rfl

theorem records_torn : segRecords crc32c ((tornImage tail h).seg 100) = [] := by
  have hstop : Stops crc32c (tornTail ++ tail) := by
    intro r hr
    rw [recParse_torn] at hr
    cases hr
  exact segRecords_encoded crc32c 1 0 [] (tornTail ++ tail) hstop

theorem validEnd_torn : validEnd crc32c ((tornImage tail h).seg 100) = 44 := by
  rw [validEnd, records_torn]
  rfl

theorem session_torn : ∃ l, session crc32c tornHandle (tornImage tail h) [(none, newRec)] = some l := by
  have hc := chain_torn h
  have hpba : (mount crc32c tornHandle (tornImage tail h)).segPba = 100 := by simp [mount, tornHandle, hc]
  have hbump : (mount crc32c tornHandle (tornImage tail h)).bump = 44 := by
    simp [mount, tornHandle, hc, validEnd_torn]
  have hfit : ¬ rollsOver (mount crc32c tornHandle (tornImage tail h)) newRec := by
    rw [rollsOver, hpba, hbump]
    decide
  obtain ⟨htrue, -⟩ := stageRecord_fenced crc32c none (mount_quiet crc32c tornHandle (tornImage tail h)) newRec
  have happ : append crc32c (fenced none) (mount crc32c tornHandle (tornImage tail h)) newRec =
      stageRecord crc32c (fenced none) (mount crc32c tornHandle (tornImage tail h)) newRec := by
    rw [append, if_neg (by decide), if_neg hfit]
  rw [← happ] at htrue
  exact ⟨_, by rw [session, appends_single crc32c htrue, map_some]⟩

theorem lay_torn : lay (room crc32c 4096 (tornImage tail h)) [newRec] = ([newRec], []) := by
  have hroom : room crc32c 4096 (tornImage tail h) = segBytes - 44 := by
    rw [room, chain_torn h]
    exact congrArg (segBytes - ·) (validEnd_torn h)
  rw [hroom]
  decide

theorem leftover_torn : leftover crc32c 4096 (tornImage tail h) [newRec] = scanValid crc32c tail := by
  have himg : (tornImage tail h).seg 100 = (hdrEncode crc32c 1 0 ++ tornTail) ++ tail := by rfl
  have hfirst : ((first crc32c 4096 (tornImage tail h) [newRec]).flatMap (recBytes crc32c)).length = 12 := by
    rw [first, lay_torn h]
    rfl
  have hpre : (hdrEncode crc32c 1 0 ++ tornTail).length = 44 + 12 := rfl
  rw [leftover, chain_torn h, head?_cons, elim_some, hfirst, validEnd_torn h, himg, drop_left' hpre]

theorem layout_torn : layout crc32c 4096 (tornImage tail h) [newRec] = [newRec :: scanValid crc32c tail] := by
  rw [layout, later, lay_torn h, chain_torn h, map_singleton, refilled, chain_torn h,
    records_torn h, first, lay_torn h, leftover_torn h]
  rfl

end Torn

/-- Zeros up to the end of the segment behind a torn record and `n` more bytes. -/
def zeroTail (n : Nat) : List Byte := replicate (segBytes - segHdrLen - 12 - n) 0

theorem length_zeroTail : (zeroTail 0).length = segBytes - segHdrLen - 12 := length_replicate

theorem length_staleTail : (recBytes crc32c staleRec ++ zeroTail 12).length = segBytes - segHdrLen - 12 := by
  rw [length_append, zeroTail, length_replicate]
  rfl

theorem scanValid_zeroTail (n : Nat) : scanValid crc32c (zeroTail n) = [] := by
  rw [zeroTail]
  simpa using scanValid_records crc32c [] _ (stops_zeros crc32c (segBytes - segHdrLen - 12 - n))

/-- A torn record with nothing behind it is written over and the map grows by the append alone. -/
theorem remount_updates_torn :
    ∃ l, session crc32c tornHandle (tornImage (zeroTail 0) length_zeroTail) [(none, newRec)] = some l ∧
      ∀ key, answer (mountRam crc32c tornHandle.total (l.med.tear [] [])) key = (effect [newRec] key).or
          (answer (mountRam crc32c tornHandle.total (tornImage (zeroTail 0) length_zeroTail).medium) key) := by
  obtain ⟨l, hl⟩ := session_torn length_zeroTail
  have hscan : scanValid crc32c (zeroTail 0) = [] := scanValid_zeroTail 0
  refine ⟨l, hl, (remount_updates crc32c tornHandle _ _ hl [] []).mpr ⟨?_, ?_⟩⟩
  · intro _ key x _ hleft
    change tells (leftover crc32c 4096 _ [newRec]) key = some x at hleft
    rw [leftover_torn, hscan] at hleft
    cases hleft
  · intro key hne
    change ∃ seg ∈ (layout crc32c 4096 _ [newRec]).take deltaMaxSegments, _
    have himg : imageTells crc32c tornHandle.total (tornImage (zeroTail 0) length_zeroTail) key = none := by
      change (chain crc32c 4096 _).findSome? _ = none
      rw [chain_torn, findSome?_singleton, records_torn]
      rfl
    rw [himg, or_none] at hne
    rw [layout_torn, hscan]
    exact ⟨[newRec], mem_singleton_self _, hne⟩

/-- A record behind a torn one, absent from the first mount, is back once an append has filled the torn
span. -/
theorem stale_record_back :
    ∃ l, session crc32c tornHandle (tornImage _ length_staleTail) [(none, newRec)] = some l ∧
      answer (mountRam crc32c tornHandle.total (tornImage _ length_staleTail).medium) [5] = none ∧
      effect [newRec] [5] = none ∧
      answer (mountRam crc32c tornHandle.total (l.med.tear [] [])) [5] = some (false, [6]) := by
  obtain ⟨l, hl⟩ := session_torn length_staleTail
  have hscan : scanValid crc32c (recBytes crc32c staleRec ++ zeroTail 12) = [staleRec] := by
    simpa [scanValid_zeroTail] using scanValid_append crc32c [staleRec] (zeroTail 12)
  refine ⟨l, hl, ?_, by decide, ?_⟩
  · rw [answer_image]
    change (chain crc32c 4096 _).findSome? _ = none
    rw [chain_torn, findSome?_singleton, records_torn]
    rfl
  · rw [(session_answer crc32c hl [] []).2]
    change ((layout crc32c 4096 _ [newRec]).take deltaMaxSegments).findSome? _ = _
    rw [layout_torn, hscan]
    decide

end InvariantFs.DeltaRemount
