import InvariantFs.ByteCodec

namespace InvariantFs.PngFilter

open ByteCodec List

def paeth (a b c : Byte) : Byte :=
  let p : Int := a.val + b.val - c.val
  let pa := (p - a.val).natAbs
  let pb := (p - b.val).natAbs
  let pc := (p - c.val).natAbs
  if pa ≤ pb ∧ pa ≤ pc then a else if pb ≤ pc then b else c

/-- What a filter predicts from the bytes to the left, above, and above to the left. -/
def pred (filter a b c : Byte) : Byte :=
  if filter = 0 then 0
  else if filter = 1 then a
  else if filter = 2 then b
  else if filter = 3 then byte ((a.val + b.val) / 2)
  else paeth a b c

/-- The prediction for byte `i` of a row, of which the first `i` bytes are in `done`. -/
def predAt (filter : Byte) (bpp : Nat) (prev done : List Byte) : Byte :=
  let i := done.length
  let left (row : List Byte) : Byte := if bpp ≤ i then row.getD (i - bpp) 0 else 0
  pred filter (left done) (prev.getD i 0) (left prev)

def applyFilters (filter : Byte) (bpp : Nat) (prev : List Byte) : List Byte → List Byte → List Byte
  | _, [] => []
  | done, s :: src =>
    let d := s + predAt filter bpp prev done
    d :: applyFilters filter bpp prev (done ++ [d]) src

def refilterRow (filter : Byte) (bpp : Nat) (prev : List Byte) : List Byte → List Byte → List Byte
  | _, [] => []
  | done, p :: px => (p - predAt filter bpp prev done) :: refilterRow filter bpp prev (done ++ [p]) px

/-- The loop of `pngx_extract` over the rows: the filters and the pixels. -/
def unfilterRows (bpp rowPx : Nat) : Nat → List Byte → List Byte → List Byte × List Byte
  | 0, _, _ => ([], [])
  | rows + 1, prev, filtered =>
    let px := applyFilters (filtered.headD 0) bpp prev [] (filtered.tail.take rowPx)
    let r := unfilterRows bpp rowPx rows px (filtered.drop (rowPx + 1))
    (filtered.headD 0 :: r.1, px ++ r.2)

def refilterRows (bpp rowPx : Nat) : List Byte → List Byte → List Byte → List Byte
  | [], _, _ => []
  | f :: filters, prev, rgb =>
    f :: refilterRow f bpp prev [] (rgb.take rowPx) ++
      refilterRows bpp rowPx filters (rgb.take rowPx) (rgb.drop rowPx)

def unfilter (bpp width height : Nat) (filtered : List Byte) : List Byte × List Byte :=
  unfilterRows bpp (width * bpp) height (replicate (width * bpp) 0) filtered

def pngxRefilter (bpp width height : Nat) (filters rgb : List Byte) : Option (List Byte) :=
  if rgb.length ≠ width * bpp * height then none
  else some (refilterRows bpp (width * bpp) filters (replicate (width * bpp) 0) rgb)

variable (filter : Byte) (bpp : Nat) (prev done src : List Byte)

theorem length_applyFilters : (applyFilters filter bpp prev done src).length = src.length := by
  induction src generalizing done with
  | nil => rfl
  | cons s src ih => exact congrArg Nat.succ (ih _)

/-- Both sides see the same row so far, and so the same prediction. -/
theorem refilterRow_applyFilters :
    refilterRow filter bpp prev done (applyFilters filter bpp prev done src) = src := by
  induction src generalizing done with
  | nil => rfl
  | cons s src ih =>
    simp only [applyFilters, refilterRow, ih]
    congr 1
    exact Fin.ext (by simp [Fin.sub_def, Fin.add_def]; omega)

theorem refilterRows_unfilterRows (rowPx rows : Nat) (filtered : List Byte)
    (hlen : filtered.length = (rowPx + 1) * rows) :
    (unfilterRows bpp rowPx rows prev filtered).2.length = rowPx * rows ∧
      refilterRows bpp rowPx (unfilterRows bpp rowPx rows prev filtered).1 prev
        (unfilterRows bpp rowPx rows prev filtered).2 = filtered := by
  induction rows generalizing prev filtered with
  | zero => exact ⟨rfl, (eq_nil_of_length_eq_zero hlen).symm⟩
  | succ rows ih =>
    cases filtered with
    | nil => simp at hlen
    | cons f filtered =>
      have hrest : rowPx ≤ filtered.length ∧ (filtered.drop rowPx).length = (rowPx + 1) * rows := by
        rw [length_cons, Nat.mul_succ] at hlen
        rw [length_drop]
        omega
      have hpx : (applyFilters f bpp prev [] (filtered.take rowPx)).length = rowPx := by
        rw [length_applyFilters, length_take, Nat.min_eq_left hrest.1]
      obtain ⟨hlen', hrows⟩ := ih (applyFilters f bpp prev [] (filtered.take rowPx)) _ hrest.2
      simp only [unfilterRows, headD_cons, tail_cons, drop_succ_cons, refilterRows, length_append, hpx, hlen']
      refine ⟨by rw [Nat.mul_succ, Nat.add_comm], ?_⟩
      rw [take_left' hpx, drop_left' hpx, hrows, refilterRow_applyFilters, cons_append, take_append_drop]

theorem refilter_unfilter (bpp width height : Nat) (filtered : List Byte)
    (hlen : filtered.length = (width * bpp + 1) * height) :
    pngxRefilter bpp width height (unfilter bpp width height filtered).1 (unfilter bpp width height filtered).2 =
      some filtered := by
  obtain ⟨hrgb, hrows⟩ :=
    refilterRows_unfilterRows bpp (replicate (width * bpp) 0) (width * bpp) height filtered hlen
  unfold pngxRefilter unfilter
  rw [if_neg (not_not.mpr hrgb), hrows]

/-- A Paeth row and an average row, two pixels of three bytes wide. -/
theorem refilter_unfilter_two : pngxRefilter 3 2 2 (unfilter 3 2 2 [4, 1, 2, 3, 4, 5, 6, 3, 250, 9, 9, 9, 9, 9]).1
      (unfilter 3 2 2 [4, 1, 2, 3, 4, 5, 6, 3, 250, 9, 9, 9, 9, 9]).2 =
    some [4, 1, 2, 3, 4, 5, 6, 3, 250, 9, 9, 9, 9, 9] :=
  refilter_unfilter 3 2 2 _ rfl

end InvariantFs.PngFilter
