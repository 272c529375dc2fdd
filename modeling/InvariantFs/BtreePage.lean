import InvariantFs.ByteCodec

namespace InvariantFs.BtreePage

open ByteCodec List Option

abbrev Key := List Byte

abbrev Val := List Byte

/-- `invfs_blkptr` -/
structure Ptr where
  pba : UInt64
  checksum : UInt32
  gen : UInt64
  flags : UInt32
  deriving DecidableEq, Repr

def Ptr.null : Ptr := ⟨0, 0, 0, 0⟩

def bpLeaf : UInt32 := 1

def bpInternal : UInt32 := 2

def bpRoot : UInt32 := 4

/-- `bt_ent`: a decoded record. Leaf records carry a value, records of other levels a child. -/
structure Ent where
  k : Key
  v : Val
  child : Ptr
  deriving DecidableEq

/-- `INVFS_BLOCK_SIZE` -/
def pageSize : Nat := 4096

/-- `sizeof(invfs_page_hdr)` -/
def pageHdrLen : Nat := 20

def maxEntries : Nat := 2100

def recSize (level : Nat) (e : Ent) : Nat :=
  if level = 0 then 4 + e.k.length + e.v.length else 2 + e.k.length + 24

def used (level : Nat) (es : List Ent) : Nat := pageHdrLen + (es.map (recSize level)).sum

def ptrBytes (p : Ptr) : List Byte :=
  leBytes 8 p.pba.toNat ++ leBytes 4 p.checksum.toNat ++ leBytes 8 p.gen.toNat ++
    leBytes 4 p.flags.toNat

def ptrOf (bs : List Byte) : Ptr :=
  ⟨.ofNat (leNat (bs.take 8)), .ofNat (leNat ((bs.drop 8).take 4)),
    .ofNat (leNat ((bs.drop 12).take 8)), .ofNat (leNat ((bs.drop 20).take 4))⟩

def entBytes (level : Nat) (e : Ent) : List Byte :=
  leBytes 2 e.k.length ++ e.k ++
    if level = 0 then leBytes 2 e.v.length ++ e.v else ptrBytes e.child

/-- The record loop of `bt_read` from the current position to the end of the page. -/
def decodeEnts (level : Nat) : Nat → List Byte → Option (List Ent)
  | 0, _ => some []
  | n + 1, bs =>
    if bs.length < 2 then none
    else
      let kl := leNat (bs.take 2)
      let bs := bs.drop 2
      if bs.length < kl then none
      else
        let k := bs.take kl
        let bs := bs.drop kl
        if level = 0 then
          if bs.length < 2 then none
          else
            let vl := leNat (bs.take 2)
            let bs := bs.drop 2
            if bs.length < vl then none
            else (decodeEnts level n (bs.drop vl)).map (⟨k, bs.take vl, .null⟩ :: ·)
        else if bs.length < 24 then none
        else (decodeEnts level n (bs.drop 24)).map (⟨k, [], ptrOf (bs.take 24)⟩ :: ·)

/-- `invfs_page_hdr` behind the magic. -/
structure PageHdr where
  gen : UInt64
  level : Nat
  nentries : Nat
  checksum : UInt32

def pageMagic : List Byte := [0x42, 0x50, 0x47, 0x33]

def pageHdr (page : List Byte) : PageHdr :=
  ⟨.ofNat (leNat ((page.drop 4).take 8)), leNat ((page.drop 12).take 2),
    leNat ((page.drop 14).take 2), .ofNat (leNat ((page.drop 16).take 4))⟩

variable (crc : List Byte → UInt32)

/-- `mbuf_page_crc`: the checksum field is skipped. -/
def pageCrc (page : List Byte) : UInt32 := crc (page.take 16 ++ page.drop 20)

def pageValidate (page : List Byte) : Prop :=
  page.take 4 = pageMagic ∧ (pageHdr page).checksum = pageCrc crc page

instance (page : List Byte) : Decidable (pageValidate crc page) := inferInstanceAs (Decidable (_ ∧ _))

def pageHead (gen : UInt64) (level n : Nat) : List Byte :=
  pageMagic ++ leBytes 8 gen.toNat ++ leBytes 2 level ++ leBytes 2 n

/-- `mbuf_page_seal` of a header and the bytes behind it. -/
def sealPage (head rest : List Byte) : List Byte :=
  head ++ leBytes 4 (crc (head ++ rest)).toNat ++ rest

/-- The page `bt_write` builds and seals. -/
def pageBytes (level : Nat) (gen : UInt64) (es : List Ent) : List Byte :=
  let body := es.flatMap (entBytes level)
  sealPage crc (pageHead gen level es.length)
    (body ++ replicate (pageSize - pageHdrLen - body.length) 0)

/-- The checks of `mbuf_read_ptr` on the page behind a pointer. -/
def PtrMatches (p : Ptr) (page : List Byte) : Prop :=
  page.length = pageSize ∧ (pageHdr page).checksum = p.checksum ∧ (pageHdr page).gen = p.gen ∧
    pageValidate crc page

instance (p : Ptr) (page : List Byte) : Decidable (PtrMatches crc p page) :=
  inferInstanceAs (Decidable (_ ∧ _))

/-- `bt_read` behind `mbuf_read_ptr`: the level and the records. -/
def decodeNode (page : List Byte) : Option (Nat × List Ent) :=
  if maxEntries < (pageHdr page).nentries then none
  else (decodeEnts (pageHdr page).level (pageHdr page).nentries (page.drop pageHdrLen)).map
    ((pageHdr page).level, ·)

/-- The key bytes behind the page header in `bt_first_key`. -/
def pageFirstKey (page : List Byte) : Option Key :=
  let kl := leNat ((page.drop pageHdrLen).take 2)
  if (pageHdr page).nentries = 0 ∨ pageSize < pageHdrLen + 2 + kl then none
  else some ((page.drop (pageHdrLen + 2)).take kl)

/-- The child of the first record, as `btree_delete` reads it from an inner page. -/
def pageFirstChild (page : List Byte) : Ptr :=
  let kl := leNat ((page.drop pageHdrLen).take 2)
  ptrOf ((page.drop (pageHdrLen + 2 + kl)).take 24)

/-- The page of `bt_recopy`: another generation, sealed again. -/
def pageRegen (gen : UInt64) (page : List Byte) : List Byte :=
  sealPage crc (page.take 4 ++ leBytes 8 gen.toNat ++ (page.drop 12).take 4) (page.drop pageHdrLen)

def ptrSet (pba : UInt64) (page : List Byte) (flags : UInt32) : Ptr :=
  ⟨pba, (pageHdr page).checksum, (pageHdr page).gen, flags⟩

/-- Records as `bt_read` leaves them: no child on a leaf record, no value elsewhere. -/
def Plain (level : Nat) (e : Ent) : Prop := if level = 0 then e.child = .null else e.v = []

theorem length_ptrBytes (p : Ptr) : (ptrBytes p).length = 24 := by simp [ptrBytes]

theorem length_entBytes (level : Nat) (e : Ent) : (entBytes level e).length = recSize level e := by
  unfold entBytes recSize
  split <;> simp [length_ptrBytes] <;> omega

theorem length_flatMap_entBytes (level : Nat) (es : List Ent) :
    (es.flatMap (entBytes level)).length = (es.map (recSize level)).sum := by
  rw [length_flatMap]
  congr 1
  exact map_congr_left fun e _ => length_entBytes level e

theorem leNat_uint32 (c : UInt32) : UInt32.ofNat (leNat (leBytes 4 c.toNat)) = c := by
  rw [leNat_leBytes (by simpa using c.toNat_lt)]
  simp

theorem leNat_uint64 (c : UInt64) : UInt64.ofNat (leNat (leBytes 8 c.toNat)) = c := by
  rw [leNat_leBytes (by simpa using c.toNat_lt)]
  simp

theorem ptrOf_ptrBytes (p : Ptr) : ptrOf (ptrBytes p) = p := by
  simp [ptrOf, ptrBytes, drop_append, leNat_uint32, leNat_uint64, take_of_length_le, drop_of_length_le]

variable {level : Nat} {e : Ent}

theorem decodeEnts_entBytes (hp : Plain level e) (hk : e.k.length < 2 ^ 16)
    (hv : e.v.length < 2 ^ 16) (n : Nat) (rest : List Byte) :
    decodeEnts level (n + 1) (entBytes level e ++ rest) = (decodeEnts level n rest).map (e :: ·) := by
  have hkl : leNat (leBytes 2 e.k.length) = e.k.length := leNat_leBytes (by simpa using hk)
  have hvl : leNat (leBytes 2 e.v.length) = e.v.length := leNat_leBytes (by simpa using hv)
  by_cases hl : level = 0
  · subst hl
    have he : e = ⟨e.k, e.v, .null⟩ := by
      have hc : e.child = .null := hp
      rw [← hc]
    have hsplit : entBytes 0 e ++ rest = leBytes 2 e.k.length ++
        (e.k ++ (leBytes 2 e.v.length ++ (e.v ++ rest))) := by simp [entBytes]
    rw [hsplit, decodeEnts, if_neg (by simp only [length_append, length_leBytes]; omega)]
    simp only [take_left' (length_leBytes 2 _), drop_left' (length_leBytes 2 _), hkl, hvl,
      take_left, drop_left, length_append, length_leBytes, if_true]
    rw [if_neg (by omega), if_neg (by omega), if_neg (by omega), ← he]
  · have he : e = ⟨e.k, [], e.child⟩ := by
      have hc : e.v = [] := by simpa [Plain, hl] using hp
      rw [← hc]
    have hsplit : entBytes level e ++ rest = leBytes 2 e.k.length ++
        (e.k ++ (ptrBytes e.child ++ rest)) := by simp [entBytes, hl]
    rw [hsplit, decodeEnts, if_neg (by simp only [length_append, length_leBytes]; omega)]
    simp only [take_left' (length_leBytes 2 _), drop_left' (length_leBytes 2 _), hkl,
      take_left, drop_left, take_left' (length_ptrBytes _),
      drop_left' (length_ptrBytes _), length_append, length_ptrBytes, ptrOf_ptrBytes, hl,
      if_false]
    rw [if_neg (by omega), if_neg (by omega), ← he]

variable {es : List Ent}

theorem decodeEnts_flatMap (hp : ∀ e ∈ es, Plain level e) (hl : ∀ e ∈ es, e.k.length < 2 ^ 16 ∧ e.v.length < 2 ^ 16)
    (rest : List Byte) : decodeEnts level es.length (es.flatMap (entBytes level) ++ rest) = some es := by
  induction es with
  | nil => rfl
  | cons e es ih =>
    obtain ⟨hk, hv⟩ := hl e mem_cons_self
    have htail := ih (fun x hx => hp x (mem_cons_of_mem _ hx)) fun x hx =>
      hl x (mem_cons_of_mem _ hx)
    rw [flatMap_cons, append_assoc, length_cons, decodeEnts_entBytes (hp e mem_cons_self) hk hv, htail]
    rfl

variable {bs : List Byte} {n : Nat}

theorem decodeEnts_size (h : decodeEnts level n bs = some es) :
    (es.map (recSize level)).sum ≤ bs.length ∧ ∀ e ∈ es, Plain level e := by
  induction n generalizing bs es with
  | zero =>
    obtain rfl : [] = es := by simpa [decodeEnts] using h
    simp
  | succ n ih =>
    have hmem : ∀ {e0 : Ent} {tl : List Ent}, Plain level e0 → (∀ e ∈ tl, Plain level e) →
        ∀ e ∈ e0 :: tl, Plain level e := fun h0 ht e he =>
      (mem_cons.mp he).elim (fun heq => heq ▸ h0) (ht e)
    by_cases hl : level = 0
    · subst hl
      simp only [decodeEnts, if_true, ite_none_left_eq_some, map_eq_some_iff] at h
      obtain ⟨h1, h2, h3, h4, tl, htl, rfl⟩ := h
      obtain ⟨hs, hp⟩ := ih htl
      refine ⟨?_, hmem rfl hp⟩
      simp only [length_drop, length_take, map_cons, sum_cons, recSize, if_true] at h2 h3 h4 hs ⊢
      omega
    · simp only [decodeEnts, hl, if_false, ite_none_left_eq_some, map_eq_some_iff] at h
      obtain ⟨h1, h2, h3, tl, htl, rfl⟩ := h
      obtain ⟨hs, hp⟩ := ih htl
      refine ⟨?_, hmem (by simp [Plain, hl]) hp⟩
      simp only [length_drop, length_take, map_cons, sum_cons, recSize, hl, if_false] at h2 h3 hs ⊢
      omega

theorem length_pageHead (gen : UInt64) (level n : Nat) : (pageHead gen level n).length = 16 := by
  simp [pageHead, pageMagic]

theorem used_cons (level : Nat) (e : Ent) (es : List Ent) :
    used level (e :: es) = used level es + recSize level e := by
  simp only [used, map_cons, sum_cons]
  omega

theorem recSize_le_used (h : e ∈ es) : pageHdrLen + recSize level e ≤ used level es := by
  induction es with
  | nil => simp at h
  | cons x es ih =>
    rw [used_cons]
    obtain rfl | h := mem_cons.mp h
    · simp only [used]
      omega
    · exact (ih h).trans (Nat.le_add_right _ _)

theorem length_pageBytes (hu : used level es ≤ pageSize) (gen : UInt64) :
    (pageBytes crc level gen es).length = pageSize := by
  unfold used at hu
  simp only [pageBytes, sealPage, length_append, length_pageHead, length_leBytes,
    length_flatMap_entBytes, length_replicate]
  simp only [pageHdrLen] at hu ⊢
  omega

theorem sealPage_fields {head : List Byte} (h : head.length = 16) (rest : List Byte) :
    (sealPage crc head rest).take 16 = head ∧ (sealPage crc head rest).drop 20 = rest ∧
      (pageHdr (sealPage crc head rest)).checksum = crc (head ++ rest) := by
  have hsum := length_leBytes 4 (crc (head ++ rest)).toNat
  refine ⟨?_, ?_, ?_⟩
  · rw [sealPage, append_assoc, take_left' h]
  · rw [sealPage, drop_left' (by rw [length_append, h, hsum])]
  · simp only [pageHdr, sealPage, append_assoc]
    rw [drop_left' h, take_left' hsum, leNat_uint32]

theorem pageHdr_pageBytes (hl : level < 2 ^ 16) (hn : es.length ≤ maxEntries) (gen : UInt64) :
    (pageHdr (pageBytes crc level gen es)).gen = gen ∧ (pageHdr (pageBytes crc level gen es)).level = level ∧
      (pageHdr (pageBytes crc level gen es)).nentries = es.length := by
  have h8 := length_leBytes 8 gen.toNat
  have h4 : pageMagic.length = 4 := rfl
  have h2 := length_leBytes 2 level
  have hlev : leNat (leBytes 2 level) = level := leNat_leBytes (by simpa using hl)
  have hnum : leNat (leBytes 2 es.length) = es.length := leNat_leBytes (by
    simp only [maxEntries] at hn
    omega)
  simp only [pageHdr, pageBytes, sealPage, pageHead, append_assoc]
  refine ⟨?_, ?_, ?_⟩
  · rw [drop_left' h4, take_left' h8, leNat_uint64]
  · rw [← append_assoc, drop_left' (by rw [length_append, h4, h8]), take_left' h2, hlev]
  · rw [← append_assoc, ← append_assoc, drop_left' (by rw [length_append, length_append, h4, h8, h2]),
      take_left' (length_leBytes 2 _), hnum]

theorem pageValidate_pageBytes (level : Nat) (gen : UInt64) (es : List Ent) :
    pageValidate crc (pageBytes crc level gen es) := by
  obtain ⟨hhead, hrest, hsum⟩ := sealPage_fields crc (length_pageHead gen level es.length)
    (es.flatMap (entBytes level) ++
      replicate (pageSize - pageHdrLen - (es.flatMap (entBytes level)).length) 0)
  refine ⟨?_, ?_⟩
  · simp only [pageBytes, sealPage, pageHead, append_assoc]
    exact take_left' rfl
  · rw [pageBytes, hsum, pageCrc, hhead, hrest]

theorem decodeNode_pageBytes (hl : level < 2 ^ 16) (hn : es.length ≤ maxEntries) (hu : used level es ≤ pageSize)
    (hp : ∀ e ∈ es, Plain level e) (gen : UInt64) : decodeNode (pageBytes crc level gen es) = some (level, es) := by
  obtain ⟨-, hlev, hnum⟩ := pageHdr_pageBytes crc hl hn gen
  obtain ⟨-, hrest, -⟩ := sealPage_fields crc (length_pageHead gen level es.length) (es.flatMap (entBytes level) ++
      replicate (pageSize - pageHdrLen - (es.flatMap (entBytes level)).length) 0)
  have hsmall : ∀ e ∈ es, e.k.length < 2 ^ 16 ∧ e.v.length < 2 ^ 16 := by
    intro e he
    have hle := (recSize_le_used he).trans hu
    have hpe := hp e he
    simp only [recSize, Plain, pageSize] at hle hpe
    split at hle
    · omega
    · next hne =>
      rw [if_neg hne] at hpe
      rw [hpe, length_nil]
      omega
  have hpage : (pageBytes crc level gen es).drop pageHdrLen = es.flatMap (entBytes level) ++
      replicate (pageSize - pageHdrLen - (es.flatMap (entBytes level)).length) 0 := hrest
  rw [decodeNode, hlev, hnum, if_neg (Nat.not_lt.mpr hn), hpage, decodeEnts_flatMap hp hsmall]
  rfl

variable {page : List Byte}

theorem decodeNode_cases (h : decodeNode page = some (level, es)) :
    (pageHdr page).level = level ∧ (pageHdr page).nentries ≤ maxEntries ∧
      decodeEnts level (pageHdr page).nentries (page.drop pageHdrLen) = some es := by
  simp only [decodeNode, ite_none_left_eq_some, map_eq_some_iff] at h
  obtain ⟨hn, es', hes, heq⟩ := h
  cases heq
  exact ⟨rfl, Nat.not_lt.mp hn, hes⟩

theorem decodeNode_fits (hlen : page.length = pageSize) (h : decodeNode page = some (level, es)) :
    used level es ≤ pageSize ∧ ∀ e ∈ es, Plain level e := by
  obtain ⟨-, -, hes⟩ := decodeNode_cases h
  obtain ⟨hs, hp⟩ := decodeEnts_size hes
  refine ⟨?_, hp⟩
  rw [length_drop, hlen] at hs
  simp only [used, pageHdrLen, pageSize] at hs ⊢
  omega

theorem decodeEnts_length (h : decodeEnts level n bs = some es) : es.length = n := by
  induction n generalizing bs es with
  | zero =>
    obtain rfl : [] = es := by simpa [decodeEnts] using h
    rfl
  | succ n ih =>
    by_cases hl : level = 0
    · subst hl
      simp only [decodeEnts, if_true, ite_none_left_eq_some, map_eq_some_iff] at h
      obtain ⟨-, -, -, -, tl, htl, rfl⟩ := h
      rw [length_cons, ih htl]
    · simp only [decodeEnts, hl, if_false, ite_none_left_eq_some, map_eq_some_iff] at h
      obtain ⟨-, -, -, tl, htl, rfl⟩ := h
      rw [length_cons, ih htl]

theorem decodeEnts_first (h : decodeEnts level n bs = some (e :: es)) :
    2 + leNat (bs.take 2) ≤ bs.length ∧ e.k = (bs.drop 2).take (leNat (bs.take 2)) ∧
      (level ≠ 0 → e.child = ptrOf ((bs.drop (2 + leNat (bs.take 2))).take 24)) := by
  cases n with
  | zero => simp [decodeEnts] at h
  | succ n =>
    by_cases hl : level = 0
    · subst hl
      simp only [decodeEnts, if_true, ite_none_left_eq_some, map_eq_some_iff] at h
      obtain ⟨h1, h2, -, -, tl, -, heq⟩ := h
      cases heq
      rw [length_drop] at h2
      exact ⟨by omega, rfl, fun hne => absurd rfl hne⟩
    · simp only [decodeEnts, hl, if_false, ite_none_left_eq_some, map_eq_some_iff] at h
      obtain ⟨h1, h2, -, tl, -, heq⟩ := h
      obtain ⟨rfl, -⟩ := List.cons.inj heq
      rw [length_drop] at h2
      exact ⟨by omega, rfl, fun _ => by rw [drop_drop]⟩

theorem pageFirstKey_decode (hlen : page.length = pageSize)
    (h : decodeNode page = some (level, e :: es)) : pageFirstKey page = some e.k := by
  obtain ⟨-, -, hes⟩ := decodeNode_cases h
  have hn := decodeEnts_length hes
  obtain ⟨hle, hk, -⟩ := decodeEnts_first hes
  rw [length_drop, hlen] at hle
  rw [pageFirstKey, if_neg, hk, drop_drop]
  rw [← hn, length_cons]
  omega

theorem pageFirstChild_decode (hl : level ≠ 0)
    (h : decodeNode page = some (level, e :: es)) : pageFirstChild page = e.child := by
  obtain ⟨-, -, hes⟩ := decodeNode_cases h
  obtain ⟨-, -, hc⟩ := decodeEnts_first hes
  rw [pageFirstChild, hc hl, drop_drop, Nat.add_assoc]

theorem pageRegen_spec (hlen : page.length = pageSize) (hv : pageValidate crc page) (gen : UInt64) :
    (pageRegen crc gen page).length = pageSize ∧ pageValidate crc (pageRegen crc gen page) ∧
      (pageHdr (pageRegen crc gen page)).gen = gen ∧ decodeNode (pageRegen crc gen page) = decodeNode page := by
  have hmagic : (page.take 4).length = 4 := by rw [length_take, hlen]; rfl
  have hmid : ((page.drop 12).take 4).length = 4 := by rw [length_take, length_drop, hlen]; rfl
  have h8 := length_leBytes 8 gen.toNat
  have hhead : (page.take 4 ++ leBytes 8 gen.toNat ++ (page.drop 12).take 4).length = 16 := by
    rw [length_append, length_append, hmagic, h8, hmid]
  obtain ⟨htake, hrest, hsum⟩ := sealPage_fields crc hhead (page.drop pageHdrLen)
  have hgen : (pageHdr (pageRegen crc gen page)).gen = gen := by
    simp only [pageHdr, pageRegen, sealPage, append_assoc]
    rw [drop_left' hmagic, take_left' h8, leNat_uint64]
  have hfields : ((pageRegen crc gen page).drop 12).take 4 = (page.drop 12).take 4 := by
    simp only [pageRegen, sealPage, append_assoc]
    rw [← append_assoc, drop_left' (by rw [length_append, hmagic, h8]), take_left' hmid]
  have hlevel : (pageHdr (pageRegen crc gen page)).level = (pageHdr page).level := by
    have h := congrArg (List.take 2) hfields
    rw [take_take, take_take] at h
    exact congrArg leNat h
  have hnum : (pageHdr (pageRegen crc gen page)).nentries = (pageHdr page).nentries := by
    have h := congrArg (List.drop 2) hfields
    rw [drop_take, drop_take, drop_drop, drop_drop] at h
    exact congrArg leNat h
  have hbody : (pageRegen crc gen page).drop pageHdrLen = page.drop pageHdrLen := hrest
  refine ⟨?_, ⟨?_, ?_⟩, hgen, ?_⟩
  · rw [pageRegen, sealPage, length_append, length_append, hhead, length_leBytes, length_drop, hlen]
    rfl
  · simp only [pageRegen, sealPage, append_assoc]
    rw [take_left' hmagic]
    exact hv.1
  · rw [pageCrc, pageRegen, hsum, htake, hrest]
  · rw [decodeNode, decodeNode, hlevel, hnum, hbody]

end InvariantFs.BtreePage
