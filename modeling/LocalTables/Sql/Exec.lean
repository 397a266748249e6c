import LocalTables.Lib.WorkQueue
import LocalTables.Sql.Scan

/-! The scan plan in execution (`columnar_exec.rs`). Every surviving segment and every batch in memory is one piece of work;
partitions draw pieces from a shared queue, and the rows they read pass a budget before they are handed on. -/

namespace LocalTables

open WorkQueue

variable {τ ν ζ : Type} {M : Media τ ν}

/-- A count as a signed 64-bit number. -/
def asI64 (n : Nat) : Int := (n : Int).bmod (2 ^ 64)

/-- Take a batch's rows from a budget. -/
def applyBudget (budget : Option Int) (batch : RecordBatch τ ν) : Option Int × Option (RecordBatch τ ν) :=
  match budget with
  | none => (none, some batch)
  | some remaining =>
      let rows := asI64 batch.numRows
      if rows = 0 then (some remaining, none)
      else
        let left := some ((remaining - rows).bmod (2 ^ 64))
        if remaining ≤ 0 then (left, none)
        else if remaining ≥ rows then (left, some batch)
        else (left, some (batch.slice 0 remaining.toNat))

/-- A scan of one table at one snapshot. -/
structure ColumnarScanExec (τ ν φ : Type) extends ScanPlan τ ν φ where
  /-- How many partitions the plan advertises. -/
  partitionCount : Nat
  limit : Option Nat

namespace ColumnarScanExec

/-- Build a scan over the segments and in-memory rows a plan should read. -/
def new {φ : Type} (s : Snapshot τ ν) (segments : List SegmentEntry) (projection : Option (List Nat)) (limit : Option Nat)
    (targetPartitions : Nat) (pages : PageFilters φ) : Except Error (ColumnarScanExec τ ν φ) :=
  if ∀ indices ∈ projection, ∀ index ∈ indices, index < s.schema.fields.length then
    let work := segments.map Work.segment ++ s.memtable.map Work.batch
    .ok ⟨⟨s, projection, pages, work⟩, max 1 (min targetPartitions (max work.length 1)), limit⟩
  else .error (.arrow "project index out of bounds")

variable (P : Pruner τ ν ζ) (exec : ColumnarScanExec τ ν P.Predicate)

/-- Turn one piece of work into batches (`Scanner::run`). -/
def runWork (env : Env τ ν) (t : Table M) : Work τ ν → Except Error (List (RecordBatch τ ν))
  | .segment entry => do
      let keep ← keepPagesOf P exec.toScanPlan t entry
      readSegmentPages env t.writer.file.io.file P.pageRows exec.snapshot entry exec.projection keep
  | .batch batch => do
      let batch ← batch.project exec.projection
      return [batch]

/-- The queue the partitions draw from. -/
def morsels (env : Env τ ν) (t : Table M) : Queue (Work τ ν) (RecordBatch τ ν) Error (Option Int) :=
  ⟨exec.work, exec.runWork P env t, applyBudget⟩

/-- The state of all partitions. -/
abbrev Partitions : Type := State (Fin exec.partitionCount) (Work τ ν) (RecordBatch τ ν) Error (Option Int)

/-- `execute` on every partition, with the counter where earlier executions have left it. The budget is made once for each
call, so each partition has one of its own. -/
def execute (next : Nat) : exec.Partitions P := State.start next (exec.limit.map asI64)

/-- The partitions' steps, in any order. -/
def Run (env : Env τ ν) (t : Table M) (next : Nat) (s : exec.Partitions P) : Prop :=
  State.Run (exec.morsels P env t) (exec.execute P next) s

/-- The rows a partition has handed on. -/
def emitted {exec : ColumnarScanExec τ ν P.Predicate} (s : exec.Partitions P) : Multiset (Row ν) :=
  ∑ i, (rowsOf (s.worker i).out : Multiset (Row ν))

/-- The rows one piece of work gives, those of pages that were ruled out not counted. -/
def rowsIn (env : Env τ ν) (t : Table M) (work : Work τ ν) : List (Row ν) :=
  rowsOf ((exec.morsels P env t).results work)

/-- The rows there are to hand on. -/
def available (env : Env τ ν) (t : Table M) : Multiset (Row ν) :=
  (exec.work.map fun work => (exec.rowsIn P env t work : Multiset (Row ν))).sum

/-- Every piece of work can be read. -/
def Readable (env : Env τ ν) (t : Table M) : Prop := ∀ work ∈ exec.work, ∃ batches, exec.runWork P env t work = .ok batches

end ColumnarScanExec

section Once

variable {P : Pruner τ ν ζ} {exec : ColumnarScanExec τ ν P.Predicate} {env : Env τ ν} {t : Table M}
  {s : exec.Partitions P} {next : Nat}

theorem passAll_unlimited (batches : List (RecordBatch τ ν)) : passAll applyBudget none batches = (none, batches) := by
  induction batches with
  | nil => rfl
  | cons batch batches ih => simp only [passAll, applyBudget, ih, Option.toList_some, List.singleton_append]

theorem coe_rowsOf (batches : List (RecordBatch τ ν)) :
    (rowsOf batches : Multiset (Row ν)) = (batches.map fun batch => (batch.rows : Multiset (Row ν))).sum :=
  (sum_coe batches RecordBatch.rows).symm

/-- All there is to hand on comes to a partition's budget, and only once. -/
theorem sum_given_rows [Nonempty (Fin exec.partitionCount)] (hrun : exec.Run P env t 0 s) (hcomplete : s.Complete) :
    ∑ i, (rowsOf (s.worker i).given : Multiset (Row ν)) = exec.available P env t := by
  have h := State.Run.sum_given hrun hcomplete fun batch : RecordBatch τ ν => (batch.rows : Multiset (Row ν))
  simp only [← coe_rowsOf] at h
  exact h

/-- Without a limit all of it is handed on. -/
theorem out_unlimited (hlimit : exec.limit = none) (hrun : exec.Run P env t next s) (i : Fin exec.partitionCount) :
    (s.worker i).out = (s.worker i).given := by
  have hpassed := State.Run.passed hrun i
  rw [hlimit, Option.map_none] at hpassed
  rw [show (exec.morsels P env t).give = applyBudget from rfl, passAll_unlimited] at hpassed
  exact congrArg Prod.snd hpassed

theorem emitted_unlimited [Nonempty (Fin exec.partitionCount)] (hlimit : exec.limit = none) (hrun : exec.Run P env t 0 s)
    (hcomplete : s.Complete) : ColumnarScanExec.emitted P s = exec.available P env t := by
  rw [ColumnarScanExec.emitted, Finset.sum_congr rfl fun i _ => by rw [out_unlimited hlimit hrun i],
    sum_given_rows hrun hcomplete]

theorem RecordBatch.project_rows {batch batch' : RecordBatch τ ν} {projection : Option (List Nat)}
    (h : batch.project projection = .ok batch') : batch'.rows = batch.rows.map (projectRow projection) := by
  unfold RecordBatch.project at h
  split at h
  · obtain rfl := Except.ok.inj h
    exact (List.map_id _).symm
  · split at h
    · obtain rfl := Except.ok.inj h
      rfl
    · cases h

/-- Without page predicates a piece of work gives all the rows the snapshot shows of it. -/
theorem runWork_rows (hpages : exec.pages.isEmpty = true)
    (hprojection : ∀ indices ∈ exec.projection, ∀ index ∈ indices, index < exec.snapshot.schema.fields.length)
    {work : Work τ ν} {batches : List (RecordBatch τ ν)} (h : exec.runWork P env t work = .ok batches) :
    rowsOf batches = (work.rows env t.writer.file.io.file exec.snapshot).map (projectRow exec.projection) := by
  cases work with
  | segment entry =>
      obtain ⟨keep, hkeep, h⟩ := bind_eq_ok.mp h
      rw [keepPagesOf, if_pos hpages] at hkeep
      obtain rfl := Except.ok.inj hkeep
      obtain ⟨data, hdata, -⟩ := bind_eq_ok.mp h
      obtain ⟨batches', hread, hrows⟩ := readSegmentPages_rows hdata (.inl rfl) hprojection
      rw [h] at hread
      rw [Except.ok.inj hread, hrows, Work.rows, hdata, List.map_map]
      congr 1
      exact List.filter_eq_self.mpr fun _ _ => rfl
  | batch held =>
      obtain ⟨batch', hproject, h⟩ := bind_eq_ok.mp h
      obtain rfl := Except.ok.inj h
      rw [rowsOf_cons, rowsOf_nil, List.append_nil]
      exact RecordBatch.project_rows hproject

theorem runWork_ok (hpages : exec.pages.isEmpty = true)
    (hprojection : ∀ indices ∈ exec.projection, ∀ index ∈ indices, index < exec.snapshot.schema.fields.length)
    (hconsistent : exec.snapshot.Consistent t.writer.file.io.file) (hwork : ∀ work ∈ exec.work, work ∈ exec.snapshot.work) :
    exec.Readable P env t := by
  intro work hmem
  rcases List.mem_append.mp (hwork work hmem) with hmem | hmem
  · obtain ⟨entry, hentry, rfl⟩ := List.mem_map.mp hmem
    obtain ⟨data, hdata⟩ := hconsistent.opens entry hentry
    have hread : ∃ batches, readSegmentPages env t.writer.file.io.file P.pageRows exec.snapshot entry exec.projection none =
        .ok batches ∧ _ := readSegmentPages_rows hdata (.inl rfl) hprojection
    obtain ⟨batches, hread, -⟩ := hread
    exact ⟨batches, bind_eq_ok.mpr ⟨none, if_pos hpages, hread⟩⟩
  · obtain ⟨batch, hbatch, rfl⟩ := List.mem_map.mp hmem
    obtain ⟨batch', hproject, -⟩ := RecordBatch.project_ok (hconsistent.fields batch hbatch) hprojection
    exact ⟨[batch'], bind_eq_ok.mpr ⟨batch', hproject, rfl⟩⟩

/-- What a plan is made of. -/
theorem ColumnarScanExec.new_ok {φ : Type} {exec : ColumnarScanExec τ ν φ} {snapshot : Snapshot τ ν}
    {segments : List SegmentEntry} {projection : Option (List Nat)} {limit : Option Nat} {targetPartitions : Nat}
    {pages : PageFilters φ} (h : ColumnarScanExec.new snapshot segments projection limit targetPartitions pages = .ok exec) :
    exec.snapshot = snapshot ∧ exec.projection = projection ∧ exec.limit = limit ∧ exec.pages = pages ∧
      exec.work = segments.map Work.segment ++ snapshot.memtable.map Work.batch ∧ 0 < exec.partitionCount ∧
      ∀ indices ∈ projection, ∀ index ∈ indices, index < snapshot.schema.fields.length := by
  unfold ColumnarScanExec.new at h
  split at h
  · next hprojection =>
      obtain rfl := Except.ok.inj h
      exact ⟨rfl, rfl, rfl, rfl, rfl, Nat.lt_of_lt_of_le Nat.zero_lt_one (le_max_left _ _), hprojection⟩
  · cases h

/-- Each piece of work is drawn once, by one partition, and together the partitions hand on every live row of the segments
and every row in memory, whoever draws what and whoever ends first. -/
theorem partitions_deliver_once {snapshot : Snapshot τ ν} {segments : List SegmentEntry} {projection : Option (List Nat)}
    {targetPartitions : Nat} {pages : PageFilters P.Predicate}
    (hnew : ColumnarScanExec.new snapshot segments projection none targetPartitions pages = .ok exec)
    (hpages : pages.isEmpty = true) (hrun : exec.Run P env t 0 s) :
    (∀ index < exec.work.length, ∑ i, (s.worker i).taken.count index = if index < s.next then 1 else 0) ∧
      (∀ i, (s.worker i).stage = .ended → ∀ index < exec.work.length, ∃! j, index ∈ (s.worker j).taken) ∧
      (s.Complete → (∀ i, rowsOf (s.worker i).out = (s.worker i).taken.flatMap fun index => (exec.work[index]?).elim []
          fun work => (work.rows env t.writer.file.io.file snapshot).map (projectRow projection)) ∧
        ColumnarScanExec.emitted P s =
          (segments.map fun entry => (((Work.segment entry).rows env t.writer.file.io.file snapshot).map
            (projectRow projection) : Multiset (Row ν))).sum + ((rowsOf snapshot.memtable).map (projectRow projection))) ∧
      (snapshot.Consistent t.writer.file.io.file → (∀ entry ∈ segments, entry ∈ snapshot.liveSegments) →
        (∀ i error, (s.worker i).stage ≠ .failed error) ∧
          ∃ s', State.Run (exec.morsels P env t) s s' ∧ s'.Complete) := by
  obtain ⟨hsnapshot, hproj, hlimit, hpages', hwork, hpos, hprojection⟩ := ColumnarScanExec.new_ok hnew
  have hne : Nonempty (Fin exec.partitionCount) := ⟨⟨0, hpos⟩⟩
  subst hsnapshot hproj
  rw [← hpages'] at hpages
  refine ⟨fun index hindex => State.Run.count_taken hrun hindex, fun i hi index hindex => ?_, fun hcomplete => ?_,
    fun hconsistent hlive => ?_⟩
  · have hnext := State.Run.length_le hrun (fun _ h => nomatch h) i hi
    exact State.Run.unique_taken hrun hindex (Nat.lt_of_lt_of_le hindex hnext)
  · have hdone := State.Run.all_done hrun hcomplete
    have hrows : ∀ work ∈ exec.work, exec.rowsIn P env t work =
        (work.rows env t.writer.file.io.file exec.snapshot).map (projectRow exec.projection) := by
      intro work hmem
      obtain ⟨batches, hbatches⟩ := hdone work hmem
      rw [ColumnarScanExec.rowsIn, Queue.results, hbatches]
      exact runWork_rows hpages hprojection hbatches
    refine ⟨fun i => ?_, ?_⟩
    · rw [out_unlimited hlimit hrun i, State.Run.given_taken hrun hcomplete i, rowsOf, List.flatMap_assoc]
      refine List.flatMap_congr fun index _ => ?_
      rw [Queue.resultsAt]
      change ((exec.work[index]?).elim [] _).flatMap _ = _
      cases hitem : exec.work[index]? with
      | none => rfl
      | some work => exact hrows work (List.mem_of_getElem? hitem)
    · rw [emitted_unlimited hlimit hrun hcomplete, ColumnarScanExec.available, List.map_congr_left fun work hmem => by rw [hrows work hmem],
        hwork, List.map_append, List.sum_append, List.map_map, List.map_map]
      congr 1
      rw [rowsOf, List.map_flatMap, ← sum_coe]
      rfl
  · have hreadable : exec.Readable P env t := by
      refine runWork_ok hpages hprojection hconsistent fun work hmem => ?_
      rw [hwork] at hmem
      rcases List.mem_append.mp hmem with hmem | hmem
      · obtain ⟨entry, hentry, rfl⟩ := List.mem_map.mp hmem
        exact List.mem_append_left _ (List.mem_map.mpr ⟨entry, hlive entry hentry, rfl⟩)
      · exact List.mem_append_right _ hmem
    exact ⟨State.Run.not_failed hrun hreadable, State.Run.exists_complete hrun hreadable⟩

end Once

section Budget

theorem asI64_of_lt {n : Nat} (h : n < 2 ^ 63) : asI64 n = n := by
  unfold asI64
  rw [Int.bmod_eq_of_le] <;> omega

theorem asI64_nonpos {n : Nat} (hlow : 2 ^ 63 ≤ n) (hhigh : n < 2 ^ 64) : asI64 n ≤ 0 := by
  unfold asI64 Int.bmod
  dsimp only
  split <;> omega

theorem bmod_of_range {n : Int} (hlow : -2 ^ 63 ≤ n) (hhigh : n < 2 ^ 63) : n.bmod (2 ^ 64) = n := by
  rw [Int.bmod_eq_of_le] <;> omega

/-- A budget that does not wrap around lets through the rows it has left, first come first served. -/
theorem rowsOf_passAll (batches : List (RecordBatch τ ν)) (remaining : Int) (hlow : -2 ^ 63 ≤ remaining - (rowsOf batches).length)
    (hhigh : remaining < 2 ^ 63) (hfew : (rowsOf batches).length < 2 ^ 63) :
    rowsOf (passAll applyBudget (some remaining) batches).2 = (rowsOf batches).take remaining.toNat := by
  induction batches generalizing remaining with
  | nil => rw [passAll, rowsOf_nil, List.take_nil]
  | cons batch batches ih =>
      rw [rowsOf_cons, List.length_append] at hlow hfew
      have hrows : asI64 batch.numRows = (batch.rows.length : Int) := asI64_of_lt (by rw [RecordBatch.numRows]; omega)
      rw [passAll, applyBudget, hrows, rowsOf_cons]
      by_cases hzero : (batch.rows.length : Int) = 0
      · have hnil : batch.rows = [] := List.length_eq_zero_iff.mp (by omega)
        dsimp only
        rw [if_pos hzero, hnil, List.nil_append]
        exact ih remaining (by omega) hhigh (by omega)
      · have hleft : (remaining - batch.rows.length).bmod (2 ^ 64) = remaining - batch.rows.length :=
          bmod_of_range (by omega) (by omega)
        have hrest := ih (remaining - batch.rows.length) (by omega) (by omega) (by omega)
        simp only [hzero, if_false, hleft]
        rw [List.take_append]
        by_cases hgone : remaining ≤ 0
        · have h0 : remaining.toNat = 0 := Int.toNat_of_nonpos hgone
          have h1 : (remaining - batch.rows.length).toNat = 0 := Int.toNat_of_nonpos (by omega)
          rw [h1] at hrest
          simp only [hgone, if_true, Option.toList_none, List.nil_append, hrest, h0, List.take_zero, Nat.zero_sub]
        · by_cases hfits : remaining ≥ batch.rows.length
          · have h1 : (remaining - batch.rows.length).toNat = remaining.toNat - batch.rows.length := by omega
            have h2 : batch.rows.take remaining.toNat = batch.rows := List.take_of_length_le (by omega)
            simp only [hgone, if_false, hfits, if_true, Option.toList_some, List.singleton_append, rowsOf_cons, hrest, h1, h2]
          · have h1 : (remaining - batch.rows.length).toNat = 0 := Int.toNat_of_nonpos (by omega)
            have h2 : remaining.toNat - batch.rows.length = 0 := by omega
            simp only [hgone, if_false, hfits, Option.toList_some, List.singleton_append, rowsOf_cons, hrest, h1, h2,
              List.take_zero, List.append_nil, RecordBatch.slice, List.drop_zero]

theorem length_applyBudget_le (budget : Option Int) (batch : RecordBatch τ ν) :
    (rowsOf (applyBudget budget batch).2.toList).length ≤ batch.rows.length := by
  cases budget with
  | none => simp [applyBudget]
  | some remaining =>
      rw [applyBudget]
      dsimp only
      generalize asI64 batch.numRows = rows
      generalize (remaining - rows).bmod (2 ^ 64) = left
      split
      · simp
      · split
        · simp
        · split
          · simp
          · simp [RecordBatch.slice]

/-- A budget never lets through more than there is. -/
theorem length_passAll_le (batches : List (RecordBatch τ ν)) (budget : Option Int) :
    (rowsOf (passAll applyBudget budget batches).2).length ≤ (rowsOf batches).length := by
  induction batches generalizing budget with
  | nil => exact le_rfl
  | cons batch batches ih =>
      have hone := length_applyBudget_le budget batch
      rw [passAll_cons, rowsOf_append, rowsOf_cons, List.length_append, List.length_append]
      exact Nat.add_le_add hone (ih _)

/-- A budget that starts out overdrawn loses the first batch that has rows. -/
theorem length_passAll_lt (batches : List (RecordBatch τ ν)) {remaining : Int} (hgone : remaining ≤ 0)
    (hfew : (rowsOf batches).length < 2 ^ 63) (hsome : rowsOf batches ≠ []) :
    (rowsOf (passAll applyBudget (some remaining) batches).2).length < (rowsOf batches).length := by
  induction batches generalizing remaining with
  | nil => exact absurd rfl hsome
  | cons batch batches ih =>
      rw [rowsOf_cons, List.length_append] at hfew
      have hrows : asI64 batch.numRows = (batch.rows.length : Int) := asI64_of_lt (by rw [RecordBatch.numRows]; omega)
      by_cases hzero : (batch.rows.length : Int) = 0
      · have hnil : batch.rows = [] := List.length_eq_zero_iff.mp (by omega)
        rw [rowsOf_cons, hnil, List.nil_append] at hsome ⊢
        have hskip : applyBudget (some remaining) batch = (some remaining, none) := by
          rw [applyBudget]
          dsimp only
          rw [hrows, if_pos hzero]
        rw [passAll_cons, hskip]
        exact ih hgone (by omega) hsome
      · have hdrop : (applyBudget (some remaining) batch).2 = none := by
          rw [applyBudget]
          dsimp only
          rw [hrows, if_neg hzero, if_pos hgone]
        rw [passAll_cons, rowsOf_append, rowsOf_cons, List.length_append, List.length_append, hdrop]
        have := length_passAll_le batches (applyBudget (some remaining) batch).1
        simp only [Option.toList_none, rowsOf_nil, List.length_nil]
        omega

end Budget

/-- If no two summands are positive, cutting each off cuts the sum off. -/
theorem sum_min {ι : Type} [Fintype ι] {counts : ι → Nat} (h : ∀ i j, i ≠ j → counts i = 0 ∨ counts j = 0) (limit : Nat) :
    ∑ i, min limit (counts i) = min limit (∑ i, counts i) := by
  by_cases hall : ∀ i, counts i = 0
  · simp [hall]
  · obtain ⟨i, hi⟩ := not_forall.mp hall
    have hother : ∀ j, j ≠ i → counts j = 0 := fun j hj => (h i j hj.symm).resolve_left hi
    rw [Finset.sum_eq_single i (fun j _ hj => by rw [hother j hj, Nat.min_zero]) fun hmem => absurd (Finset.mem_univ i) hmem,
      Finset.sum_eq_single i (fun j _ hj => hother j hj) fun hmem => absurd (Finset.mem_univ i) hmem]

namespace ColumnarScanExec

variable (P : Pruner τ ν ζ) (exec : ColumnarScanExec τ ν P.Predicate)

/-- The limit is one budget for the whole scan. -/
def OneBudget (env : Env τ ν) (t : Table M) (limit : Nat) : Prop :=
  ∀ s : exec.Partitions P, exec.Run P env t 0 s → s.Complete →
    (emitted P s).card = min limit (exec.available P env t).card

/-- The limit is one that partitions with a budget each can keep: there is nothing to hand on; or the limit fits a signed
number, and there are no more rows than it allows, it allows none, there is one partition, or one piece of work has all
the rows. -/
def BudgetHolds (env : Env τ ν) (t : Table M) (limit : Nat) : Prop :=
  (exec.available P env t).card = 0 ∨ limit < 2 ^ 63 ∧ ((exec.available P env t).card ≤ limit ∨ limit = 0 ∨
    exec.partitionCount ≤ 1 ∨ exec.work.Pairwise fun a b => exec.rowsIn P env t a = [] ∨ exec.rowsIn P env t b = [])

end ColumnarScanExec

section OneBudget

variable {P : Pruner τ ν ζ} {exec : ColumnarScanExec τ ν P.Predicate} {env : Env τ ν} {t : Table M}
  {s : exec.Partitions P} {limit : Nat}

theorem card_emitted : (ColumnarScanExec.emitted P s).card = ∑ i, (rowsOf (s.worker i).out).length := by
  simp [ColumnarScanExec.emitted]

theorem sum_given_card [Nonempty (Fin exec.partitionCount)] (hrun : exec.Run P env t 0 s) (hcomplete : s.Complete) :
    ∑ i, (rowsOf (s.worker i).given).length = (exec.available P env t).card := by
  rw [← sum_given_rows hrun hcomplete]
  simp

theorem given_le [Nonempty (Fin exec.partitionCount)] (hrun : exec.Run P env t 0 s) (hcomplete : s.Complete)
    (i : Fin exec.partitionCount) : (rowsOf (s.worker i).given).length ≤ (exec.available P env t).card := by
  rw [← sum_given_card hrun hcomplete]
  exact Finset.single_le_sum (f := fun i => (rowsOf (s.worker i).given).length) (fun _ _ => Nat.zero_le _) (Finset.mem_univ i)

theorem out_passed (hlimit : exec.limit = some limit) {next : Nat} (hrun : exec.Run P env t next s) (i : Fin exec.partitionCount) :
    (s.worker i).out = (passAll applyBudget (some (asI64 limit)) (s.worker i).given).2 := by
  have hpassed := State.Run.passed hrun i
  rw [hlimit] at hpassed
  exact congrArg Prod.snd hpassed

/-- Each partition hands on what a budget of its own allows. -/
theorem length_out [Nonempty (Fin exec.partitionCount)] (hlimit : exec.limit = some limit) (hsmall : limit < 2 ^ 63)
    (hfew : (exec.available P env t).card < 2 ^ 63) (hrun : exec.Run P env t 0 s) (hcomplete : s.Complete)
    (i : Fin exec.partitionCount) : (rowsOf (s.worker i).out).length = min limit (rowsOf (s.worker i).given).length := by
  have hle := given_le hrun hcomplete i
  rw [out_passed hlimit hrun i, asI64_of_lt hsmall, rowsOf_passAll _ _ (by omega) (by omega) (by omega), List.length_take,
    Int.toNat_natCast]

/-- A partition that was given rows drew a piece of work that has some. -/
theorem exists_taken (hrun : exec.Run P env t 0 s) (hcomplete : s.Complete) {i : Fin exec.partitionCount}
    (hsome : (rowsOf (s.worker i).given).length ≠ 0) :
    ∃ index ∈ (s.worker i).taken, ∃ hlt : index < exec.work.length, exec.rowsIn P env t exec.work[index] ≠ [] := by
  by_contra hnone
  refine hsome (List.length_eq_zero_iff.mpr ?_)
  rw [State.Run.given_taken hrun hcomplete i, rowsOf, List.flatMap_assoc, List.flatMap_eq_nil_iff]
  intro index hindex
  rw [Queue.resultsAt]
  change ((exec.work[index]?).elim [] _).flatMap _ = _
  by_cases hlt : index < exec.work.length
  · rw [List.getElem?_eq_getElem hlt]
    by_contra hrows
    exact hnone ⟨index, hindex, hlt, hrows⟩
  · rw [List.getElem?_eq_none (Nat.le_of_not_lt hlt)]
    rfl

/-- Where one piece of work has all the rows, one partition gets them. -/
theorem one_given [Nonempty (Fin exec.partitionCount)]
    (hone : exec.work.Pairwise fun a b => exec.rowsIn P env t a = [] ∨ exec.rowsIn P env t b = [])
    (hrun : exec.Run P env t 0 s) (hcomplete : s.Complete) {i j : Fin exec.partitionCount} (hij : i ≠ j) :
    (rowsOf (s.worker i).given).length = 0 ∨ (rowsOf (s.worker j).given).length = 0 := by
  by_contra hboth
  obtain ⟨hi, hj⟩ := not_or.mp hboth
  obtain ⟨a, ha, halt, harows⟩ := exists_taken hrun hcomplete hi
  obtain ⟨b, hb, hblt, hbrows⟩ := exists_taken hrun hcomplete hj
  rw [List.pairwise_iff_getElem] at hone
  rcases Nat.lt_trichotomy a b with hab | hab | hab
  · exact (hone a b halt hblt hab).elim harows hbrows
  · subst hab
    have hnext : a < s.next := Nat.lt_of_lt_of_le halt (State.Run.all_taken hrun hcomplete)
    exact hij ((State.Run.unique_taken hrun halt hnext).unique ha hb)
  · exact (hone b a hblt halt hab).elim hbrows harows

/-- Partitions with a budget each keep a limit of this kind together. -/
theorem ColumnarScanExec.BudgetHolds.oneBudget [Nonempty (Fin exec.partitionCount)] (hlimit : exec.limit = some limit)
    (hfew : (exec.available P env t).card < 2 ^ 63) (h : exec.BudgetHolds P env t limit) : exec.OneBudget P env t limit := by
  intro s hrun hcomplete
  have hsum := sum_given_card hrun hcomplete
  rw [card_emitted]
  rcases h with hnone | ⟨hsmall, hkept⟩
  · rw [hnone] at hsum ⊢
    rw [Nat.min_zero, Finset.sum_eq_zero_iff]
    intro i hi
    have hgiven := Finset.sum_eq_zero_iff.mp hsum i hi
    have hle := length_passAll_le (s.worker i).given (some (asI64 limit))
    rw [out_passed hlimit hrun i]
    omega
  · rw [Finset.sum_congr rfl fun i _ => length_out hlimit hsmall hfew hrun hcomplete i]
    rcases hkept with hall | hzero | hone | hone
    · rw [Nat.min_eq_right hall, ← hsum]
      refine Finset.sum_congr rfl fun i _ => Nat.min_eq_right ?_
      exact (given_le hrun hcomplete i).trans hall
    · simp [hzero]
    · have hsub : Subsingleton (Fin exec.partitionCount) := Fin.subsingleton_iff_le_one.mpr hone
      rw [sum_min (fun i j hij => absurd (Subsingleton.elim i j) hij), hsum]
    · rw [sum_min (fun i j hij => one_given hone hrun hcomplete hij), hsum]

/-- With two partitions that both get rows, and fewer allowed than there are, more are handed on than allowed. -/
theorem over_budget [Nonempty (Fin exec.partitionCount)] (hlimit : exec.limit = some limit) (hsmall : limit < 2 ^ 63)
    (hfew : (exec.available P env t).card < 2 ^ 63) (hreadable : exec.Readable P env t)
    (hmore : limit < (exec.available P env t).card) (hsome : limit ≠ 0) (htwo : 1 < exec.partitionCount)
    (hspread : ¬exec.work.Pairwise fun a b => exec.rowsIn P env t a = [] ∨ exec.rowsIn P env t b = []) :
    ∃ s : exec.Partitions P, exec.Run P env t 0 s ∧ s.Complete ∧ limit < (ColumnarScanExec.emitted P s).card := by
  rw [List.pairwise_iff_getElem] at hspread
  push Not at hspread
  obtain ⟨a, b, ha, hb, hab, harows, hbrows⟩ := hspread
  have hne : (⟨1, htwo⟩ : Fin exec.partitionCount) ≠ ⟨0, by omega⟩ := by
    intro h
    cases congrArg Fin.val h
  -- the first partition draws the pieces up to one with rows, the second one all that is left
  obtain ⟨s, hrun, hcomplete, hfirst, hsecond, hothers⟩ :=
    State.run_split (q := exec.morsels P env t) hne hreadable (exec.limit.map asI64) (a + 1) (by exact ha)
  have hrun : exec.Run P env t 0 s := hrun
  refine ⟨s, hrun, hcomplete, ?_⟩
  have hcount : ∀ index (hindex : index < exec.work.length), exec.rowsIn P env t exec.work[index] ≠ [] →
      ∀ items : List (Work τ ν), exec.work[index] ∈ items →
        0 < (rowsOf (items.flatMap (exec.morsels P env t).results)).length := by
    intro index hindex hrows items hmem
    refine List.length_pos_iff.mpr fun hnil => hrows ?_
    rw [rowsOf, List.flatMap_assoc, List.flatMap_eq_nil_iff] at hnil
    exact hnil _ hmem
  have h0 : 0 < (rowsOf (s.worker ⟨0, by omega⟩).given).length := by
    rw [hfirst]
    refine hcount a ha harows _ (List.mem_take_iff_getElem.mpr ⟨a, ?_, rfl⟩)
    exact Nat.lt_min.mpr ⟨Nat.lt_succ_self a, ha⟩
  have h1 : 0 < (rowsOf (s.worker ⟨1, htwo⟩).given).length := by
    rw [hsecond]
    refine hcount b hb hbrows _ (List.mem_drop_iff_getElem.mpr ⟨b - (a + 1), ?_, ?_⟩)
    · change b - (a + 1) + (a + 1) < exec.work.length
      omega
    · congr 1
      omega
  have hout : ∑ i ∈ {⟨0, by omega⟩, ⟨1, htwo⟩}, (rowsOf (s.worker i).out).length ≤ ∑ i, (rowsOf (s.worker i).out).length :=
    Finset.sum_le_sum_of_subset (Finset.subset_univ _)
  have hgiven : ∑ i ∈ {⟨0, by omega⟩, ⟨1, htwo⟩}, (rowsOf (s.worker i).given).length =
      ∑ i, (rowsOf (s.worker i).given).length := by
    refine Finset.sum_subset (Finset.subset_univ _) fun i _ hi => ?_
    rw [Finset.mem_insert, Finset.mem_singleton, not_or] at hi
    rw [hothers i hi.1 hi.2]
    rfl
  rw [Finset.sum_pair hne.symm, sum_given_card hrun hcomplete] at hgiven
  rw [Finset.sum_pair hne.symm, length_out hlimit hsmall hfew hrun hcomplete, length_out hlimit hsmall hfew hrun hcomplete]
    at hout
  rw [card_emitted]
  omega

/-- A limit too large for a signed number loses rows. -/
theorem under_budget [Nonempty (Fin exec.partitionCount)] (hlimit : exec.limit = some limit) (hlarge : 2 ^ 63 ≤ limit)
    (hword : limit < 2 ^ 64) (hfew : (exec.available P env t).card < 2 ^ 63) (hsome : (exec.available P env t).card ≠ 0)
    (hrun : exec.Run P env t 0 s) (hcomplete : s.Complete) :
    (ColumnarScanExec.emitted P s).card < (exec.available P env t).card := by
  have hsum := sum_given_card hrun hcomplete
  have hneg := asI64_nonpos hlarge hword
  obtain ⟨i, -, hi⟩ := Finset.exists_ne_zero_of_sum_ne_zero (hsum.trans_ne hsome)
  rw [card_emitted, ← hsum]
  refine Finset.sum_lt_sum (fun j _ => ?_) ⟨i, Finset.mem_univ i, ?_⟩
  · rw [out_passed hlimit hrun j]
    exact length_passAll_le _ _
  · rw [out_passed hlimit hrun i]
    have hle := given_le hrun hcomplete i
    exact length_passAll_lt _ hneg (by omega) fun hnil => hi (by rw [hnil]; rfl)

/-- Where the partitions cannot keep a limit together, there is an execution that hands on more than it allows, or fewer
rows than there are although it allows them all. -/
theorem exists_off_budget [Nonempty (Fin exec.partitionCount)] (hlimit : exec.limit = some limit)
    (hfew : (exec.available P env t).card < 2 ^ 63) (hword : limit < 2 ^ 64) (hreadable : exec.Readable P env t)
    (hbroken : ¬exec.BudgetHolds P env t limit) :
    ∃ s : exec.Partitions P, exec.Run P env t 0 s ∧ s.Complete ∧ (limit < (ColumnarScanExec.emitted P s).card ∨
      (ColumnarScanExec.emitted P s).card < (exec.available P env t).card ∧ (exec.available P env t).card ≤ limit) := by
  rw [ColumnarScanExec.BudgetHolds, not_or, not_and] at hbroken
  obtain ⟨hsome, hbroken⟩ := hbroken
  by_cases hsmall : limit < 2 ^ 63
  · have hcases := hbroken hsmall
    simp only [not_or, not_le] at hcases
    obtain ⟨hmore, hzero, htwo, hspread⟩ := hcases
    obtain ⟨s, hrun, hcomplete, hover⟩ := over_budget hlimit hsmall hfew hreadable hmore hzero htwo hspread
    exact ⟨s, hrun, hcomplete, .inl hover⟩
  · obtain ⟨s, hrun, hcomplete⟩ := State.Run.exists_complete (q := exec.morsels P env t)
      (s := exec.execute P 0) (.refl) hreadable
    have hunder := under_budget hlimit (Nat.le_of_not_lt hsmall) hword hfew hsome hrun hcomplete
    exact ⟨s, hrun, hcomplete, .inr ⟨hunder, by omega⟩⟩

/-- A limit is one budget for the whole scan exactly when partitions with a budget each can keep it. -/
theorem limit_is_one_budget {snapshot : Snapshot τ ν} {segments : List SegmentEntry} {projection : Option (List Nat)}
    {targetPartitions : Nat} {pages : PageFilters P.Predicate}
    (hnew : ColumnarScanExec.new snapshot segments projection (some limit) targetPartitions pages = .ok exec) :
    ((exec.available P env t).card < 2 ^ 63 ∧ exec.BudgetHolds P env t limit → exec.OneBudget P env t limit) ∧
      ((exec.available P env t).card < 2 ^ 63 → limit < 2 ^ 64 → exec.Readable P env t →
        exec.OneBudget P env t limit → exec.BudgetHolds P env t limit) := by
  obtain ⟨-, -, hlimit, -, -, hpos, -⟩ := ColumnarScanExec.new_ok hnew
  have hne : Nonempty (Fin exec.partitionCount) := ⟨⟨0, hpos⟩⟩
  refine ⟨fun h => ColumnarScanExec.BudgetHolds.oneBudget hlimit h.1 h.2, fun hfew hword hreadable hone => ?_⟩
  by_contra hbroken
  obtain ⟨s, hrun, hcomplete, hoff⟩ := exists_off_budget hlimit hfew hword hreadable hbroken
  have := hone s hrun hcomplete
  omega

end OneBudget

namespace ColumnarScanExec

variable (P : Pruner τ ν ζ) (exec : ColumnarScanExec τ ν P.Predicate)

/-- Where the counter stands in the plan that `with_new_children` gives: it is the same plan, with the same queue. -/
def withNewChildren (next : Nat) : Nat := next

/-- What one execution after the other hands on, each run to completion, with `with_new_children` called in between or
not. -/
inductive Repeats (env : Env τ ν) (t : Table M) : Nat → List (Multiset (Row ν)) → Prop where
  | nil {next : Nat} : Repeats env t next []
  | cons {next : Nat} {s : exec.Partitions P} {outs : List (Multiset (Row ν))} (reset : Bool) (hrun : exec.Run P env t next s)
      (hcomplete : s.Complete) (hrest : Repeats env t (if reset then withNewChildren s.next else s.next) outs) :
      Repeats env t next (emitted P s :: outs)

/-- Executed so many times, the plan hands on the same rows each time. -/
def ExecutesAgain (env : Env τ ν) (t : Table M) (times : Nat) : Prop :=
  ∀ outs, exec.Repeats P env t 0 outs → outs.length = times → ∀ out ∈ outs, outs.head? = some out

end ColumnarScanExec

section Again

variable {P : Pruner τ ν ζ} {exec : ColumnarScanExec τ ν P.Predicate} {env : Env τ ν} {t : Table M}
  {s : exec.Partitions P} {next : Nat} {outs : List (Multiset (Row ν))}

theorem emitted_eq_zero : ColumnarScanExec.emitted P s = 0 ↔ ∀ i, rowsOf (s.worker i).out = [] := by
  rw [ColumnarScanExec.emitted, Finset.sum_eq_zero_iff]
  exact ⟨fun h i => (Multiset.coe_eq_zero _).mp (h i (Finset.mem_univ i)), fun h i _ => by rw [h i]; rfl⟩

/-- A partition hands on nothing but what it was given. -/
theorem out_nil (hrun : exec.Run P env t next s) {i : Fin exec.partitionCount} (h : rowsOf (s.worker i).given = []) :
    rowsOf (s.worker i).out = [] := by
  have hpassed : (s.worker i).out = (passAll applyBudget (exec.limit.map asI64) (s.worker i).given).2 :=
    congrArg Prod.snd (State.Run.passed hrun i)
  have hle := length_passAll_le (s.worker i).given (exec.limit.map asI64)
  rw [hpassed]
  rw [h] at hle
  exact List.length_eq_zero_iff.mp (Nat.le_zero.mp hle)

/-- An execution that finds the queue empty hands on nothing. -/
theorem emitted_exhausted (hnext : exec.work.length ≤ next) (hrun : exec.Run P env t next s) :
    ColumnarScanExec.emitted P s = 0 :=
  emitted_eq_zero.mpr fun i => out_nil hrun (by rw [State.Run.given_nil hrun hnext i]; rfl)

theorem reset_eq (reset : Bool) (next : Nat) : (if reset then ColumnarScanExec.withNewChildren next else next) = next := by
  cases reset <;> rfl

theorem ColumnarScanExec.Repeats.exhausted (h : exec.Repeats P env t next outs) (hnext : exec.work.length ≤ next) :
    ∀ out ∈ outs, out = 0 := by
  induction h with
  | nil => exact fun _ hout => nomatch hout
  | cons reset hrun _ _ ih =>
      intro out hout
      rcases List.mem_cons.mp hout with rfl | hout
      · exact emitted_exhausted hnext hrun
      · refine ih ?_ out hout
        rw [reset_eq]
        exact hnext.trans (State.Run.next_le hrun)

theorem ColumnarScanExec.Repeats.later [Nonempty (Fin exec.partitionCount)] {first : Multiset (Row ν)}
    (h : exec.Repeats P env t next (first :: outs)) : ∀ out ∈ outs, out = 0 := by
  cases h with
  | cons reset hrun hcomplete hrest =>
      refine hrest.exhausted ?_
      rw [reset_eq]
      exact State.Run.all_taken hrun hcomplete

/-- Where every piece can be read, the plan can be executed any number of times. -/
theorem ColumnarScanExec.Readable.repeats (h : exec.Readable P env t) (times next : Nat) :
    ∃ outs, exec.Repeats P env t next outs ∧ outs.length = times := by
  induction times generalizing next with
  | zero => exact ⟨[], .nil, rfl⟩
  | succ times ih =>
      obtain ⟨s, hrun, hcomplete⟩ := State.Run.exists_complete (q := exec.morsels P env t) (s := exec.execute P next) .refl h
      obtain ⟨outs, hrest, hlen⟩ := ih s.next
      exact ⟨_, .cons false hrun hcomplete hrest, congrArg Nat.succ hlen⟩

/-- There is nothing to hand on, or nothing may be handed on. -/
def ColumnarScanExec.Silent (P : Pruner τ ν ζ) (exec : ColumnarScanExec τ ν P.Predicate) (env : Env τ ν) (t : Table M) :
    Prop :=
  (exec.available P env t).card = 0 ∨ exec.limit = some 0 ∧ (exec.available P env t).card < 2 ^ 63

theorem ColumnarScanExec.Silent.emitted [Nonempty (Fin exec.partitionCount)] (h : exec.Silent P env t)
    (hrun : exec.Run P env t 0 s) (hcomplete : s.Complete) : ColumnarScanExec.emitted P s = 0 := by
  rw [emitted_eq_zero]
  intro i
  rcases h with hnone | ⟨hlimit, hfew⟩
  · refine out_nil hrun (List.length_eq_zero_iff.mp ?_)
    have := given_le hrun hcomplete i
    omega
  · refine List.length_eq_zero_iff.mp ?_
    rw [length_out hlimit (by decide) hfew hrun hcomplete i, Nat.zero_min]

/-- Where there is something to hand on and the limit allows some, the first execution hands on some. -/
theorem emitted_ne_zero [Nonempty (Fin exec.partitionCount)] (hfew : (exec.available P env t).card < 2 ^ 63)
    (hsmall : ∀ limit ∈ exec.limit, limit < 2 ^ 63) (hloud : ¬exec.Silent P env t) (hrun : exec.Run P env t 0 s)
    (hcomplete : s.Complete) : ColumnarScanExec.emitted P s ≠ 0 := by
  rw [ColumnarScanExec.Silent, not_or, not_and] at hloud
  obtain ⟨hsome, hallows⟩ := hloud
  obtain ⟨i, -, hi⟩ := Finset.exists_ne_zero_of_sum_ne_zero ((sum_given_card hrun hcomplete).trans_ne hsome)
  intro hzero
  have hout := emitted_eq_zero.mp hzero i
  cases hlimit : exec.limit with
  | none =>
      rw [out_unlimited hlimit hrun i] at hout
      exact hi (by rw [hout]; rfl)
  | some limit =>
      have hlen := length_out hlimit (hsmall limit hlimit) hfew hrun hcomplete i
      rw [hout, List.length_nil] at hlen
      have hpos : limit ≠ 0 := fun h => hallows (by rw [hlimit, h]) hfew
      omega

/-- The second execution of a plan that hands on rows hands on none. -/
theorem not_executesAgain [Nonempty (Fin exec.partitionCount)] {times : Nat} (hfew : (exec.available P env t).card < 2 ^ 63)
    (hsmall : ∀ limit ∈ exec.limit, limit < 2 ^ 63) (hreadable : exec.Readable P env t) (htimes : 1 < times)
    (hloud : ¬exec.Silent P env t) : ¬exec.ExecutesAgain P env t times := by
  intro hagain
  obtain ⟨outs, hrepeats, hlen⟩ := hreadable.repeats times 0
  have hsame := hagain outs hrepeats hlen
  cases outs with
  | nil =>
      rw [List.length_nil] at hlen
      omega
  | cons first outs =>
      cases outs with
      | nil =>
          rw [List.length_singleton] at hlen
          omega
      | cons second outs =>
          have heq := hsame second (List.mem_cons_of_mem _ List.mem_cons_self)
          rw [List.head?_cons, Option.some.injEq, hrepeats.later second List.mem_cons_self] at heq
          cases hrepeats with
          | cons reset hrun hcomplete _ => exact emitted_ne_zero hfew hsmall hloud hrun hcomplete heq

/-- A plan hands on the same rows each time it is executed exactly when it is executed once, or hands on nothing. -/
theorem plan_executes_again {snapshot : Snapshot τ ν} {segments : List SegmentEntry} {projection : Option (List Nat)}
    {limit : Option Nat} {targetPartitions : Nat} {pages : PageFilters P.Predicate} (times : Nat)
    (hnew : ColumnarScanExec.new snapshot segments projection limit targetPartitions pages = .ok exec) :
    (times ≤ 1 ∨ exec.Silent P env t → exec.ExecutesAgain P env t times) ∧
      ((exec.available P env t).card < 2 ^ 63 → (∀ limit ∈ exec.limit, limit < 2 ^ 63) → exec.Readable P env t →
        exec.ExecutesAgain P env t times → times ≤ 1 ∨ exec.Silent P env t) := by
  obtain ⟨-, -, -, -, -, hpos, -⟩ := ColumnarScanExec.new_ok hnew
  have hne : Nonempty (Fin exec.partitionCount) := ⟨⟨0, hpos⟩⟩
  constructor
  · intro h outs hrepeats hlen out hout
    cases outs with
    | nil => cases hout
    | cons first outs =>
        rcases List.mem_cons.mp hout with rfl | hout'
        · rfl
        · rcases h with hone | hsilent
          · rw [List.length_cons] at hlen
            have hnil : outs = [] := List.length_eq_zero_iff.mp (by omega)
            rw [hnil] at hout'
            cases hout'
          · rw [List.head?_cons, hrepeats.later out hout']
            cases hrepeats with
            | cons reset hrun hcomplete _ => rw [hsilent.emitted hrun hcomplete]
  · intro hfew hsmall hreadable hagain
    by_contra hbroken
    rw [not_or, not_le] at hbroken
    exact not_executesAgain hfew hsmall hreadable hbroken.1 hbroken.2 hagain

end Again

section TwoPieces

def execEnv : Env Unit Nat :=
  plainEnv plainOptions [.insert 1 0 ⟨[(), ()], [[1, 2], [3, 4]]⟩, .insert 2 2 ⟨[(), ()], [[5, 6]]⟩]

/-- A table with two rows in one segment and a third in memory. -/
def pairsAndMemory : Except Error PlainTable := do
  let t₀ ← Table.create execEnv (Journal plainSizes) pairSchema (fun _ => 0) (fun _ => []) none
  let (_, t₁) ← t₀.insertLocked execEnv [⟨pairSchema.fields, [[1, 2], [3, 4]]⟩]
  let (_, t₂) ← t₁.flushLocked execEnv
  let (_, t) ← t₂.insertLocked execEnv [⟨pairSchema.fields, [[5, 6]]⟩]
  return t

/-- A scan of it by two partitions. -/
def scanInTwo (limit : Option Nat) : Except Error (PlainTable × ColumnarScanExec Unit Nat (String × Nat)) := do
  let t ← pairsAndMemory
  let exec ← ColumnarScanExec.new t.current t.current.liveSegments none limit 2 ⟨[], []⟩
  return (t, exec)

/-- Every live segment opens, and the rows in memory have the snapshot's schema. -/
def reads (t : PlainTable) : Bool :=
  (t.current.liveSegments.all fun entry => (segmentReader t.writer.file.io.file entry t.current.layout).isOk) &&
    t.current.memtable.all fun batch => decide (batch.fields = t.current.schema.fields)

theorem isOk_iff {ε α : Type} {x : Except ε α} : x.isOk = true ↔ ∃ a, x = .ok a := by
  cases x with
  | ok a => exact ⟨fun _ => ⟨a, rfl⟩, fun _ => rfl⟩
  | error e => exact ⟨fun h => (nomatch h), fun h => (nomatch h)⟩

theorem reads_consistent {t : PlainTable} (h : reads t = true) : t.current.Consistent t.writer.file.io.file := by
  obtain ⟨hopens, hfields⟩ := Bool.and_eq_true_iff.mp h
  rw [List.all_eq_true] at hopens hfields
  exact ⟨fun entry hentry => isOk_iff.mp (hopens entry hentry), fun batch hbatch => of_decide_eq_true (hfields batch hbatch)⟩

/-- A scan in two, taken apart: the plan, what it can read, and how many rows there are. -/
theorem scanInTwo_ok (limit : Option Nat) {t : PlainTable} {exec : ColumnarScanExec Unit Nat (String × Nat)}
    (h : scanInTwo limit = .ok (t, exec)) :
    ColumnarScanExec.new t.current t.current.liveSegments none limit 2 ⟨[], []⟩ = .ok exec := by
  obtain ⟨t', -, h⟩ := bind_eq_ok.mp h
  obtain ⟨exec', hexec, h⟩ := bind_eq_ok.mp h
  obtain ⟨rfl, rfl⟩ := Prod.mk.inj (Except.ok.inj h)
  exact hexec

/-- Whoever draws which piece, the three rows are handed on. -/
theorem three_rows_delivered : ∃ (t : PlainTable) (exec : ColumnarScanExec Unit Nat (String × Nat))
    (s : exec.Partitions equalityPruner), exec.partitionCount = 2 ∧ exec.Run equalityPruner execEnv t 0 s ∧ s.Complete ∧
      ColumnarScanExec.emitted equalityPruner s = {[1, 2], [3, 4], [5, 6]} := by
  have hcheck : (match scanInTwo none with
      | .ok (t, exec) => reads t && decide (exec.partitionCount = 2) && decide
          ((t.current.liveSegments.map fun entry => (((Work.segment entry).rows execEnv t.writer.file.io.file t.current).map
            (projectRow none) : Multiset (Row Nat))).sum + ((rowsOf t.current.memtable).map (projectRow none)) =
              {[1, 2], [3, 4], [5, 6]})
      | .error _ => false) = true := by decide +kernel
  cases hscan : scanInTwo none with
  | error e =>
      rw [hscan] at hcheck
      cases hcheck
  | ok result =>
      obtain ⟨t, exec⟩ := result
      rw [hscan] at hcheck
      simp only [Bool.and_eq_true, decide_eq_true_eq] at hcheck
      obtain ⟨⟨hreads, htwo⟩, hrows⟩ := hcheck
      have hnew := scanInTwo_ok none hscan
      have hstart : exec.Run equalityPruner execEnv t 0 (exec.execute equalityPruner 0) := .refl
      obtain ⟨-, -, -, hprogress⟩ := partitions_deliver_once hnew rfl hstart
      obtain ⟨-, s, hrun, hcomplete⟩ := hprogress (reads_consistent hreads) fun _ hentry => hentry
      obtain ⟨-, -, hdone, -⟩ := partitions_deliver_once hnew rfl hrun
      exact ⟨t, exec, s, htwo, hrun, hcomplete, (hdone hcomplete).2.trans hrows⟩

/-- There are three rows, in two pieces that can be read. -/
def threeRows (t : PlainTable) (exec : ColumnarScanExec Unit Nat (String × Nat)) : Prop :=
  exec.partitionCount = 2 ∧ (exec.available equalityPruner execEnv t).card = 3 ∧
    exec.Readable equalityPruner execEnv t ∧ ¬exec.work.Pairwise fun a b =>
      exec.rowsIn equalityPruner execEnv t a = [] ∨ exec.rowsIn equalityPruner execEnv t b = []

def hasThreeRows (limit : Option Nat) : Bool :=
  match scanInTwo limit with
  | .ok (t, exec) => decide (exec.partitionCount = 2 ∧ (exec.available equalityPruner execEnv t).card = 3 ∧
      ¬exec.work.Pairwise fun a b => exec.rowsIn equalityPruner execEnv t a = [] ∨ exec.rowsIn equalityPruner execEnv t b = []) &&
      exec.work.all fun work => (exec.runWork equalityPruner execEnv t work).isOk
  | .error _ => false

theorem scanInTwo_threeRows {limit : Option Nat} (h : hasThreeRows limit = true) :
    ∃ t exec, ColumnarScanExec.new t.current t.current.liveSegments none limit 2 ⟨[], []⟩ = .ok exec ∧ threeRows t exec := by
  unfold hasThreeRows at h
  cases hscan : scanInTwo limit with
  | error e =>
      rw [hscan] at h
      cases h
  | ok result =>
      obtain ⟨t, exec⟩ := result
      rw [hscan] at h
      obtain ⟨hcounts, hreads⟩ := Bool.and_eq_true_iff.mp h
      obtain ⟨htwo, hthree, hspread⟩ := of_decide_eq_true hcounts
      refine ⟨t, exec, scanInTwo_ok limit hscan, htwo, hthree, fun work hwork => ?_, hspread⟩
      exact isOk_iff.mp (List.all_eq_true.mp hreads work hwork)

/-- A limit of ten, with three rows to hand on. -/
theorem limit_of_ten_kept : ∃ (t : PlainTable) (exec : ColumnarScanExec Unit Nat (String × Nat)), threeRows t exec ∧
    exec.OneBudget equalityPruner execEnv t 10 := by
  have hten : hasThreeRows (some 10) = true := by decide +kernel
  obtain ⟨t, exec, hnew, hthree⟩ := scanInTwo_threeRows hten
  refine ⟨t, exec, hthree, (limit_is_one_budget hnew).1 ⟨?_, .inr ⟨by decide, .inl ?_⟩⟩⟩
  · rw [hthree.2.1]
    decide
  · rw [hthree.2.1]
    decide

/-- A limit of one, with the rows spread over two pieces: two partitions hand on one row each. -/
theorem limit_of_one_exceeded : ∃ (t : PlainTable) (exec : ColumnarScanExec Unit Nat (String × Nat)), threeRows t exec ∧
    ColumnarScanExec.new t.current t.current.liveSegments none (some 1) 2 ⟨[], []⟩ = .ok exec ∧
    ¬exec.OneBudget equalityPruner execEnv t 1 := by
  have hone : hasThreeRows (some 1) = true := by decide +kernel
  obtain ⟨t, exec, hnew, hthree⟩ := scanInTwo_threeRows hone
  refine ⟨t, exec, hthree, hnew, fun hbudget => ?_⟩
  obtain ⟨-, -, hlimit, -, -, hpos, -⟩ := ColumnarScanExec.new_ok hnew
  obtain ⟨htwo, hcard, hreadable, hspread⟩ := hthree
  have hne : Nonempty (Fin exec.partitionCount) := ⟨⟨0, hpos⟩⟩
  have hfew : (exec.available equalityPruner execEnv t).card < 2 ^ 63 := by
    rw [hcard]
    decide
  obtain ⟨s, hrun, hcomplete, hover⟩ :=
    over_budget hlimit (by decide) hfew hreadable (by omega) (by decide) (by omega) hspread
  have := hbudget s hrun hcomplete
  omega

/-- A limit of nothing can be kept any number of times. -/
theorem nothing_again : ∃ (t : PlainTable) (exec : ColumnarScanExec Unit Nat (String × Nat)), threeRows t exec ∧
    exec.ExecutesAgain equalityPruner execEnv t 3 := by
  have hnone : hasThreeRows (some 0) = true := by decide +kernel
  obtain ⟨t, exec, hnew, hthree⟩ := scanInTwo_threeRows hnone
  refine ⟨t, exec, hthree, (plan_executes_again 3 hnew).1 (.inr (.inr ⟨(ColumnarScanExec.new_ok hnew).2.2.1, ?_⟩))⟩
  rw [hthree.2.1]
  decide

/-- Executed a second time, a scan of three rows hands on none. -/
theorem second_execution_empty : ∃ (t : PlainTable) (exec : ColumnarScanExec Unit Nat (String × Nat)), threeRows t exec ∧
    ColumnarScanExec.new t.current t.current.liveSegments none none 2 ⟨[], []⟩ = .ok exec ∧
    ¬exec.ExecutesAgain equalityPruner execEnv t 2 := by
  have hall : hasThreeRows none = true := by decide +kernel
  obtain ⟨t, exec, hnew, hthree⟩ := scanInTwo_threeRows hall
  obtain ⟨-, -, hlimit, -, -, hpos, -⟩ := ColumnarScanExec.new_ok hnew
  refine ⟨t, exec, hthree, hnew, ?_⟩
  obtain ⟨-, hcard, hreadable, -⟩ := hthree
  have hne : Nonempty (Fin exec.partitionCount) := ⟨⟨0, hpos⟩⟩
  refine not_executesAgain ?_ (fun limit hmem => ?_) hreadable (by decide) ?_
  · rw [hcard]
    decide
  · rw [hlimit] at hmem
    cases hmem
  · rintro (hzero | ⟨hzero, -⟩)
    · rw [hcard] at hzero
      cases hzero
    · rw [hlimit] at hzero
      cases hzero

end TwoPieces

end LocalTables
