import LocalTables.Io.Journal
import LocalTables.Table.Scanned

/-! The batches of a page-selective read (`table/read.rs`): the live rows of the pages that are kept, in order, cut into
batches none of which is empty or too long. -/

namespace LocalTables

variable {τ ν : Type} {M : Media τ ν} {env : Env τ ν}

/-- Whether a row lies in a kept page. Where there is nothing to choose by, every row does. -/
def inKeptPage (pageRows rows : Nat) : Option (List Bool) → Nat → Bool
  | none, _ => true
  | some keep, position => keep.zipIdx.any fun (wanted, page) =>
      wanted && (pageRange pageRows rows page).any fun (start, len) => start ≤ position && position < start + len

/-- A segment without pages has no row in one. -/
theorem inKeptPage_zero (rows : Nat) (keep : List Bool) (position : Nat) : inKeptPage 0 rows (some keep) position = false := by
  simp [inKeptPage, pageRange]

theorem inKeptPage_eq {pageRows rows : Nat} (hpage : 0 < pageRows) (keep : Option (List Bool)) {position : Nat}
    (hposition : position < rows) : inKeptPage pageRows rows keep position = pageKept pageRows keep position := by
  cases keep with
  | none => rfl
  | some keep =>
      have hthere : ∀ page, (pageRange pageRows rows page).any
          (fun (start, len) => start ≤ position && position < start + len) = decide (position / pageRows = page) := by
        intro page
        have hpageOf : position / pageRows = page ↔ page * pageRows ≤ position ∧ position < page * pageRows + pageRows := by
          rw [Nat.div_eq_iff hpage]
          omega
        rw [pageRange, if_neg hpage.ne']
        split
        · next hstart =>
            simp only [Option.any_some, ← Bool.decide_and]
            rw [decide_eq_decide, hpageOf]
            omega
        · next hpast =>
            symm
            rw [Option.any_none, decide_eq_false_iff_not, hpageOf]
            omega
      rw [Bool.eq_iff_iff, inKeptPage, pageKept, List.any_eq_true]
      constructor
      · rintro ⟨⟨wanted, page⟩, hmem, hwanted⟩
        dsimp only at hwanted
        rw [hthere, Bool.and_eq_true, decide_eq_true_eq] at hwanted
        obtain ⟨rfl, rfl⟩ := hwanted
        rw [List.mem_zipIdx_iff_getElem?] at hmem
        rw [show keep[position / pageRows]? = some true from hmem]
        rfl
      · intro hkept
        cases hget : keep[position / pageRows]? with
        | none =>
            rw [hget] at hkept
            cases hkept
        | some wanted =>
            rw [hget, Option.getD_some] at hkept
            refine ⟨(wanted, position / pageRows), List.mem_zipIdx_iff_getElem?.mpr hget, ?_⟩
            dsimp only
            rw [hthere, hkept, decide_eq_true rfl]
            rfl

/-- No piece of a batch is empty or too long. -/
theorem numRows_sliceBatches {batch piece : RecordBatch τ ν} {rows : Nat} (h : piece ∈ sliceBatches batch rows) :
    0 < piece.numRows ∧ (rows ≠ 0 → piece.numRows ≤ rows) := by
  unfold sliceBatches at h
  split at h
  · cases h
  · next hsome =>
      split at h
      · next hwhole =>
          rw [List.mem_singleton.mp h]
          exact ⟨Nat.pos_of_ne_zero hsome, fun hrows => hwhole.resolve_left hrows⟩
      · next hcut =>
          obtain ⟨index, hindex, rfl⟩ := List.mem_map.mp h
          obtain ⟨hlow, hhigh, -⟩ := length_piece (by omega) batch.rows (List.mem_range.mp hindex)
          exact ⟨hlow, fun _ => hhigh⟩

theorem numRows_readSegmentPages {file : M.File} {pageRows : SegmentData ν → Nat} {s : Snapshot τ ν} {entry : SegmentEntry}
    {projection : Option (List Nat)} {keep : Option (List Bool)} {batches : List (RecordBatch τ ν)}
    (h : readSegmentPages env file pageRows s entry projection keep = .ok batches) :
    ∀ batch ∈ batches, 0 < batch.numRows ∧ (env.options.scanBatchRows ≠ 0 → batch.numRows ≤ env.options.scanBatchRows) := by
  obtain ⟨data, -, h⟩ := bind_eq_ok.mp h
  obtain ⟨pages, hpages, h⟩ := bind_eq_ok.mp h
  rw [← Except.ok.inj h]
  intro batch hbatch
  obtain ⟨page, hpage, hbatch⟩ := List.mem_flatten.mp hbatch
  obtain ⟨range, -, hread⟩ := mapM_mem hpages hpage
  obtain ⟨projected, -, hread⟩ := bind_eq_ok.mp hread
  rw [← Except.ok.inj hread] at hbatch
  split at hbatch
  · cases hbatch
  · exact numRows_sliceBatches hbatch

/-- Reading without pages to choose from, where a choice is asked for: nothing is read. -/
theorem readSegmentPages_no_pages {file : M.File} {pageRows : SegmentData ν → Nat} {s : Snapshot τ ν} {entry : SegmentEntry}
    {projection : Option (List Nat)} {keep : List Bool} {data : SegmentData ν}
    (hdata : segmentReader file entry s.layout = .ok data) (hpage : pageRows data = 0) :
    readSegmentPages env file pageRows s entry projection (some keep) = .ok [] := by
  have hranges : keptRanges (pageRows data) data.rows.length keep = [] := by
    have hrun : ∀ (keep : List Bool) (first : Nat), (keep.zipIdx first).foldl (fun ranges (wanted, page) =>
        if wanted then ((pageRange 0 data.rows.length page).map (joinRange ranges)).getD ranges else ranges) [] = [] := by
      intro keep
      induction keep with
      | nil => exact fun _ => rfl
      | cons wanted keep ih =>
          intro first
          rw [List.zipIdx_cons, List.foldl_cons]
          cases wanted <;> exact ih (first + 1)
    rw [keptRanges, hpage]
    exact hrun keep 0
  have hnone : splitAtBlocks (keptRanges (pageRows data) data.rows.length keep) data.blockRows = [] := by
    rw [hranges, splitAtBlocks]
    split <;> rfl
  rw [readSegmentPages, hdata]
  refine bind_eq_ok.mpr ⟨data, rfl, ?_⟩
  dsimp only
  rw [hnone]
  rfl

/-- What a page-selective read hands back: the live rows of the kept pages in row order, in batches that are neither empty
nor too long; with no choice of pages all live rows, as many as the snapshot counts where it deletes only rows there are. -/
structure KeepsRows (env : Env τ ν) (s : Snapshot τ ν) (entry : SegmentEntry) (data : SegmentData ν) (pageRows : Nat)
    (projection : Option (List Nat)) (keep : Option (List Bool)) (batches : List (RecordBatch τ ν)) : Prop where
  rows : rowsOf batches = ((data.live ((s.deletes entry.segmentId).getD ∅)).filter fun row =>
    inKeptPage pageRows data.rows.length keep row.2).map fun row =>
      projectRow projection (padRow env s.schema.fields data row.1)
  sizes : ∀ batch ∈ batches, 0 < batch.numRows ∧
    (env.options.scanBatchRows ≠ 0 → batch.numRows ≤ env.options.scanBatchRows)
  all : keep = none → rowsOf batches = (data.live ((s.deletes entry.segmentId).getD ∅)).map fun row =>
    projectRow projection (padRow env s.schema.fields data row.1)
  count : keep = none → entry.rowCount = data.rows.length →
    (∀ position ∈ (s.deletes entry.segmentId).getD ∅, position < data.rows.length) →
      totalRows batches = s.liveRowsIn entry

theorem read_segment_pages_keeps_rows (env : Env τ ν) {file : M.File} (pageRows : SegmentData ν → Nat) (s : Snapshot τ ν)
    (entry : SegmentEntry) {projection : Option (List Nat)} (keep : Option (List Bool)) {data : SegmentData ν}
    (hdata : segmentReader file entry s.layout = .ok data)
    (hprojection : ∀ indices ∈ projection, ∀ index ∈ indices, index < s.schema.fields.length) :
    ∃ batches, readSegmentPages env file pageRows s entry projection keep = .ok batches ∧
      KeepsRows env s entry data (pageRows data) projection keep batches := by
  obtain ⟨batches, hread, hrows⟩ : ∃ batches, readSegmentPages env file pageRows s entry projection keep = .ok batches ∧
      rowsOf batches = ((data.live ((s.deletes entry.segmentId).getD ∅)).filter fun row =>
        inKeptPage (pageRows data) data.rows.length keep row.2).map fun row =>
          projectRow projection (padRow env s.schema.fields data row.1) := by
    by_cases hpage : keep = none ∨ 0 < pageRows data
    · obtain ⟨batches, hread, hrows⟩ := readSegmentPages_rows hdata hpage hprojection
      refine ⟨batches, hread, hrows.trans (congrArg _ (List.filter_congr fun row hrow => ?_))⟩
      have hposition : row.2 < data.rows.length :=
        (List.getElem?_eq_some_iff.mp (List.mem_zipIdx_iff_getElem?.mp (List.mem_filter.mp hrow).1)).1
      rcases hpage with rfl | hpage
      · rfl
      · exact (inKeptPage_eq hpage keep hposition).symm
    · rw [not_or] at hpage
      obtain ⟨keep, rfl⟩ := Option.ne_none_iff_exists'.mp hpage.1
      have hzero : pageRows data = 0 := by omega
      refine ⟨[], readSegmentPages_no_pages hdata hzero, ?_⟩
      rw [List.filter_eq_nil_iff.mpr fun row _ => by rw [hzero, inKeptPage_zero]; decide]
      rfl
  have hall : keep = none → rowsOf batches = (data.live ((s.deletes entry.segmentId).getD ∅)).map fun row =>
      projectRow projection (padRow env s.schema.fields data row.1) := by
    rintro rfl
    rw [hrows]
    exact congrArg _ (List.filter_eq_self.mpr fun _ _ => rfl)
  refine ⟨batches, hread, hrows, numRows_readSegmentPages hread, hall, fun hnone hcount hinside => ?_⟩
  rw [← length_rowsOf, hall hnone, List.length_map]
  exact Snapshot.length_live hcount.symm fun position hposition => hcount ▸ hinside position hposition

section Witness

/-- Five rows of one column, in blocks of three. -/
def fiveRows : SegmentData Nat := ⟨7, 1, 1, [[10], [11], [12], [13], [14]], 3⟩

def fiveRowsEntry : SegmentEntry := ⟨7, ⟨12288, 72⟩, ⟨12288, 32⟩, 5, 2, none⟩

/-- A file that holds these rows, and a snapshot in which the second row is deleted, and one past the end. -/
def fiveRowsFile : JournalFile Unit Nat := ⟨12360, [⟨⟨12288, 72⟩, some (.segment fiveRows)⟩]⟩

def fiveRowsSnapshot : Snapshot Unit Nat :=
  ⟨1, ⟨[⟨"v", (), false⟩], []⟩, [0, 1], { Manifest.empty 12360 with segments := [fiveRowsEntry] },
    fun id => if id = 7 then some {1, 9} else none, []⟩

/-- The first and the last of three pages of two rows. -/
theorem read_two_of_three_pages :
    segmentReader (M := Journal plainSizes) fiveRowsFile fiveRowsEntry fiveRowsSnapshot.layout = .ok fiveRows ∧
    ∃ batches, readSegmentPages (M := Journal plainSizes) (plainEnv plainOptions []) fiveRowsFile (fun _ => 2) fiveRowsSnapshot
        fiveRowsEntry none (some [true, false, true]) = .ok batches ∧
      KeepsRows (plainEnv plainOptions []) fiveRowsSnapshot fiveRowsEntry fiveRows 2 none (some [true, false, true]) batches ∧
      rowsOf batches = [[10], [14]] := by
  have hread : segmentReader (M := Journal plainSizes) fiveRowsFile fiveRowsEntry fiveRowsSnapshot.layout = .ok fiveRows := by
    decide +kernel
  have hnone : ∀ indices ∈ (none : Option (List Nat)),
      ∀ index ∈ indices, index < fiveRowsSnapshot.schema.fields.length := by simp
  obtain ⟨batches, hpages, hkept⟩ := read_segment_pages_keeps_rows (M := Journal plainSizes) (plainEnv plainOptions [])
    (fun _ => 2) fiveRowsSnapshot fiveRowsEntry (some [true, false, true]) hread hnone
  refine ⟨hread, batches, hpages, hkept, hkept.rows.trans ?_⟩
  decide +kernel

end Witness

end LocalTables
