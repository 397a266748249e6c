import LocalTables.Columnar.Batch

/-! Row ranges of a segment: the pages a scan keeps, joined where they meet, and cut again at block boundaries. -/

namespace LocalTables

variable {α : Type}

/-- The rows some ranges name, in order. -/
def pieces (xs : List α) (ranges : List (Nat × Nat)) : List α :=
  ranges.flatMap fun (start, len) => (xs.drop start).take len

@[simp] theorem pieces_nil (xs : List α) : pieces xs [] = [] := rfl

theorem pieces_cons (xs : List α) (range : Nat × Nat) (ranges : List (Nat × Nat)) :
    pieces xs (range :: ranges) = (xs.drop range.1).take range.2 ++ pieces xs ranges := rfl

theorem pieces_append (xs : List α) (front back : List (Nat × Nat)) :
    pieces xs (front ++ back) = pieces xs front ++ pieces xs back := List.flatMap_append

theorem pieces_singleton (xs : List α) (start len : Nat) : pieces xs [(start, len)] = (xs.drop start).take len := by
  rw [pieces, List.flatMap_singleton]

/-- Cutting ranges at block boundaries names the same rows. -/
theorem pieces_splitAtBlocks (xs : List α) (ranges : List (Nat × Nat)) (blockRows : Nat) :
    pieces xs (splitAtBlocks ranges blockRows) = pieces xs ranges := by
  unfold splitAtBlocks
  split
  · rfl
  · next hblock =>
      rw [pieces, List.flatMap_assoc, pieces]
      refine List.flatMap_congr fun range _ => ?_
      have := splitAtBlocks_go xs (Nat.pos_of_ne_zero hblock) range.1 (range.1 + range.2) range.2 (by omega) (by omega)
      rw [this, Nat.add_sub_cancel_left]

/-- The overlaps of a range with the blocks it touches name the rows of the range up to the end of the last one. -/
theorem pieces_blocks (xs : List α) {blockRows start stop first : Nat} (hfirst : first * blockRows ≤ start)
    (hnext : start ≤ (first + 1) * blockRows) (count : Nat) (hlast : (first + count) * blockRows ≤ stop) :
    pieces xs ((List.range' first (count + 1)).map fun index =>
      (max start (index * blockRows), min stop ((index + 1) * blockRows) - max start (index * blockRows))) =
      (xs.drop start).take (min stop ((first + count + 1) * blockRows) - start) := by
  induction count with
  | zero =>
      rw [List.range'_one, List.map_singleton, pieces_singleton, max_eq_left hfirst]
  | succ count ih =>
      have hmono : (first + count) * blockRows ≤ (first + (count + 1)) * blockRows := Nat.mul_le_mul_right _ (by omega)
      have hstart : start ≤ (first + (count + 1)) * blockRows := hnext.trans (Nat.mul_le_mul_right _ (by omega))
      have hstep : (first + (count + 1)) * blockRows ≤ (first + (count + 1) + 1) * blockRows := Nat.mul_le_mul_right _ (by omega)
      rw [List.range'_concat, List.map_append, List.map_singleton, pieces_append, ih (hmono.trans hlast), pieces_singleton,
        Nat.one_mul, max_eq_right hstart, show first + count + 1 = first + (count + 1) by omega]
      generalize (first + (count + 1)) * blockRows = middle at *
      generalize (first + (count + 1) + 1) * blockRows = last at *
      rw [min_eq_right hlast, show min stop last - start = (middle - start) + (min stop last - middle) by omega, List.take_add,
        List.drop_drop, show start + (middle - start) = middle by omega]

/-- The row range one page covers, clamped to the segment. -/
def pageRange (pageRows rows page : Nat) : Option (Nat × Nat) :=
  if pageRows = 0 then none
  else if page * pageRows < rows then some (page * pageRows, min pageRows (rows - page * pageRows)) else none

/-- Add a range, joined to the last one where they meet. -/
def joinRange (ranges : List (Nat × Nat)) (range : Nat × Nat) : List (Nat × Nat) :=
  match ranges.getLast? with
  | some (pos, taken) =>
      if pos + taken = range.1 then ranges.dropLast ++ [(pos, taken + range.2)] else ranges ++ [range]
  | none => ranges ++ [range]

/-- The row ranges a page selection asks for, with neighbours joined. -/
def keptRanges (pageRows rows : Nat) (keep : List Bool) : List (Nat × Nat) :=
  keep.zipIdx.foldl (fun ranges (wanted, page) =>
    if wanted then ((pageRange pageRows rows page).map (joinRange ranges)).getD ranges else ranges) []

theorem pieces_joinRange (xs : List α) (ranges : List (Nat × Nat)) (range : Nat × Nat) :
    pieces xs (joinRange ranges range) = pieces xs ranges ++ (xs.drop range.1).take range.2 := by
  unfold joinRange
  split
  · next pos taken hlast =>
      split
      · next hmeet =>
          have hsplit : ranges = ranges.dropLast ++ [(pos, taken)] := by
            obtain ⟨init, rfl⟩ := List.getLast?_eq_some_iff.mp hlast
            rw [List.dropLast_concat]
          conv_rhs => rw [hsplit]
          rw [pieces_append, pieces_append, pieces_singleton, pieces_singleton, List.append_assoc, List.take_add, ← hmeet,
            List.drop_drop]
      · rw [pieces_append, pieces_singleton]
  · rw [pieces_append, pieces_singleton]

/-- Whether the page a row stands in is kept. Everything is, when there is nothing to choose by. -/
def pageKept (pageRows : Nat) (keep : Option (List Bool)) (position : Nat) : Bool :=
  match keep with
  | none => true
  | some keep => keep[position / pageRows]?.getD false

theorem mem_drop_zipIdx {xs : List α} {first : Nat} {entry : α × Nat} (h : entry ∈ xs.zipIdx.drop first) :
    first ≤ entry.2 := by
  obtain ⟨index, hindex⟩ := List.getElem?_of_mem h
  rw [List.getElem?_drop, List.getElem?_zipIdx] at hindex
  obtain ⟨x, -, rfl⟩ := Option.map_eq_some_iff.mp hindex
  dsimp only
  omega

theorem mem_take_drop_zipIdx {xs : List α} {first count : Nat} {entry : α × Nat}
    (h : entry ∈ (xs.zipIdx.drop first).take count) : entry.2 < first + count := by
  obtain ⟨index, hindex⟩ := List.getElem?_of_mem h
  have hlt : index < count := by
    have := (List.getElem?_eq_some_iff.mp hindex).1
    rw [List.length_take] at this
    omega
  rw [List.getElem?_take_of_lt hlt, List.getElem?_drop, List.getElem?_zipIdx] at hindex
  obtain ⟨x, -, rfl⟩ := Option.map_eq_some_iff.mp hindex
  dsimp only
  omega

/-- One page: what it adds to the ranges so far. -/
theorem pieces_page (xs : List α) {pageRows : Nat} (hpage : 0 < pageRows) (page : Nat) (ranges : List (Nat × Nat)) :
    pieces xs.zipIdx (((pageRange pageRows xs.length page).map (joinRange ranges)).getD ranges) =
      pieces xs.zipIdx ranges ++ (xs.zipIdx.drop (page * pageRows)).take pageRows := by
  unfold pageRange
  rw [if_neg hpage.ne']
  split
  · rw [Option.map_some, Option.getD_some, pieces_joinRange]
    have hlen : (xs.zipIdx.drop (page * pageRows)).length = xs.length - page * pageRows := by simp
    rw [← List.take_take, ← hlen, List.take_length]
  · next hpast =>
      have hnone : xs.zipIdx.drop (page * pageRows) = [] := by
        rw [List.drop_eq_nil_iff, List.length_zipIdx]
        omega
      rw [Option.map_none, Option.getD_none, hnone, List.take_nil, List.append_nil]

/-- The rows of the pages that are kept are the rows whose page is kept. -/
theorem pieces_keptRanges (xs : List α) {pageRows : Nat} (hpage : 0 < pageRows) (keep : List Bool) :
    pieces xs.zipIdx (keptRanges pageRows xs.length keep) =
      xs.zipIdx.filter fun entry => pageKept pageRows (some keep) entry.2 := by
  -- the pages before `first` are done
  have hrun : ∀ (keep : List Bool) (first : Nat) (ranges : List (Nat × Nat)),
      pieces xs.zipIdx ((keep.zipIdx first).foldl (fun ranges (wanted, page) =>
        if wanted then ((pageRange pageRows xs.length page).map (joinRange ranges)).getD ranges else ranges) ranges) =
      pieces xs.zipIdx ranges ++ (xs.zipIdx.drop (first * pageRows)).filter fun entry =>
        keep[entry.2 / pageRows - first]?.getD false := by
    intro keep
    induction keep with
    | nil =>
        intro first ranges
        simp
    | cons wanted keep ih =>
        intro first ranges
        have hsplit : xs.zipIdx.drop (first * pageRows) = (xs.zipIdx.drop (first * pageRows)).take pageRows ++
            xs.zipIdx.drop ((first + 1) * pageRows) := by
          rw [Nat.succ_mul, ← List.drop_drop, List.take_append_drop]
        have hhere : ((xs.zipIdx.drop (first * pageRows)).take pageRows).filter (fun entry =>
            (wanted :: keep)[entry.2 / pageRows - first]?.getD false) =
              if wanted then (xs.zipIdx.drop (first * pageRows)).take pageRows else [] := by
          have hpageOf : ∀ entry ∈ (xs.zipIdx.drop (first * pageRows)).take pageRows, entry.2 / pageRows = first := by
            intro entry hentry
            have hlow := mem_drop_zipIdx (List.mem_of_mem_take hentry)
            have hhigh := mem_take_drop_zipIdx hentry
            refine Nat.div_eq_of_lt_le hlow ?_
            rw [Nat.succ_mul]
            exact hhigh
          cases wanted with
          | true =>
              rw [if_pos rfl, List.filter_eq_self]
              intro entry hentry
              rw [hpageOf entry hentry, Nat.sub_self]
              rfl
          | false =>
              rw [if_neg Bool.false_ne_true, List.filter_eq_nil_iff]
              intro entry hentry
              rw [hpageOf entry hentry, Nat.sub_self]
              simp
        have hrest : (xs.zipIdx.drop ((first + 1) * pageRows)).filter (fun entry =>
            (wanted :: keep)[entry.2 / pageRows - first]?.getD false) =
              (xs.zipIdx.drop ((first + 1) * pageRows)).filter fun entry =>
                keep[entry.2 / pageRows - (first + 1)]?.getD false := by
          refine List.filter_congr fun entry hentry => ?_
          have hlow : first + 1 ≤ entry.2 / pageRows := (Nat.le_div_iff_mul_le hpage).mpr (mem_drop_zipIdx hentry)
          rw [show entry.2 / pageRows - first = (entry.2 / pageRows - (first + 1)) + 1 by omega, List.getElem?_cons_succ]
        rw [List.zipIdx_cons, List.foldl_cons, ih (first + 1), hsplit, List.filter_append, hhere, hrest, ← List.append_assoc]
        congr 1
        cases wanted with
        | true => exact pieces_page xs hpage first ranges
        | false => exact (List.append_nil _).symm
  have := hrun keep 0 []
  simpa [keptRanges, pageKept] using this

end LocalTables
