import LocalTables.Sql.Exec
import LocalTables.Table.Scanned

/-! How many rows a scan says it will hand on (`row_estimate`, `partition_statistics`). The number is reckoned from the
manifest and the deletions when the plan is made, and handed to the optimizer as exact. -/

namespace LocalTables

open WorkQueue

variable {τ ν ζ : Type} {M : Media τ ν}

/-- Plan a scan of a snapshot for some partitions (`ColumnarTableProvider::scan`), with the schema that was loaded. -/
def providerScan (P : Pruner τ ν ζ) (file : M.File) (s : Snapshot τ ν) (schema : Schema τ) (projection : Option (List Nat))
    (filters : List P.Filter) (limit : Option Nat) (targetPartitions : Nat) :
    Except Error (ColumnarScanExec τ ν P.Predicate) :=
  let candidates := s.liveSegments
  let segments := (P.pruneSegments schema file s filters candidates).getD candidates
  ColumnarScanExec.new s segments projection limit targetPartitions
    ⟨P.predicates schema filters, P.referencedColumns schema filters⟩

namespace ColumnarScanExec

section Estimate

variable {φ : Type} (exec : ColumnarScanExec τ ν φ)

/-- The rows the manifest and the deletions say a piece of work has. -/
def rowsListed : Work τ ν → Nat
  | .segment entry => exec.snapshot.liveRowsIn entry
  | .batch batch => batch.numRows

/-- Rows the scan will return, before any filter above it. -/
def rowEstimate : Nat :=
  let rows := (exec.work.map exec.rowsListed).sum % 2 ^ 64
  match exec.limit with
  | some limit => min rows limit
  | none => rows

/-- The number of rows `partition_statistics` reports as exact. -/
def numRows : Nat := exec.rowEstimate

variable {exec}

theorem numRows_eq (hfew : (exec.work.map exec.rowsListed).sum < 2 ^ 63) :
    exec.numRows = match exec.limit with
      | some limit => min (exec.work.map exec.rowsListed).sum limit
      | none => (exec.work.map exec.rowsListed).sum := by
  unfold numRows rowEstimate
  dsimp only
  rw [Nat.mod_eq_of_lt (Nat.lt_trans hfew (by decide))]

end Estimate

variable (P : Pruner τ ν ζ) (exec : ColumnarScanExec τ ν P.Predicate)

/-- Whoever draws which piece of work, the rows handed on are as many as was said. -/
def ExactStatistics (env : Env τ ν) (t : Table M) : Prop :=
  ∀ s : exec.Partitions P, exec.Run P env t 0 s → s.Complete → (emitted P s).card = exec.numRows

/-- No page with a live row on it is skipped. -/
def PagesWhole (t : Table M) : Prop :=
  ∀ entry, Work.segment entry ∈ exec.work → ∀ data keep,
    segmentReader t.writer.file.io.file entry exec.snapshot.layout = .ok data →
    keepPagesOf P exec.toScanPlan t entry = .ok keep →
      ∀ row ∈ data.live ((exec.snapshot.deletes entry.segmentId).getD ∅), pageKept (P.pageRows data) keep row.2 = true

/-- The plan is one whose count can be told beforehand. Without a limit, no page with a live row on it is skipped; with
one, the partitions keep it together, and either no such page is skipped or enough rows are left without. -/
def Predictable (env : Env τ ν) (t : Table M) : Prop :=
  match exec.limit with
  | none => exec.PagesWhole P t
  | some limit => exec.BudgetHolds P env t limit ∧ (exec.PagesWhole P t ∨ limit ≤ (exec.available P env t).card)

end ColumnarScanExec

section Pages

variable {P : Pruner τ ν ζ} {exec : ColumnarScanExec τ ν P.Predicate} {env : Env τ ν} {t : Table M}

/-- The selection of pages is made on the segment that is then read. -/
theorem keepPagesOf_pos {plan : ScanPlan τ ν P.Predicate} {entry : SegmentEntry} {keep : Option (List Bool)}
    (h : keepPagesOf P plan t entry = .ok keep) {layout : List Nat} {data : SegmentData ν}
    (hdata : segmentReader t.writer.file.io.file entry layout = .ok data) : keep = none ∨ 0 < P.pageRows data := by
  unfold keepPagesOf at h
  split at h
  · exact .inl (Except.ok.inj h).symm
  · obtain ⟨data', hopened, h⟩ := bind_eq_ok.mp h
    have hsame := (segmentReader_ok hopened).1.symm.trans (segmentReader_ok hdata).1
    obtain rfl := Blob.segment.inj (Except.ok.inj hsame)
    obtain rfl := Except.ok.inj h
    cases hkeep : P.keepPages plan.snapshot.schema plan.pages data' with
    | none => exact .inl rfl
    | some keep => exact .inr (Pruner.keepPages_pos hkeep)

/-- What a segment gives: its live rows on the pages that are kept. -/
theorem runWork_segment (hprojection : ∀ indices ∈ exec.projection, ∀ index ∈ indices,
      index < exec.snapshot.schema.fields.length) {entry : SegmentEntry} {batches : List (RecordBatch τ ν)}
    (h : exec.runWork P env t (.segment entry) = .ok batches) :
    ∃ data keep, segmentReader t.writer.file.io.file entry exec.snapshot.layout = .ok data ∧
      keepPagesOf P exec.toScanPlan t entry = .ok keep ∧ rowsOf batches =
        ((data.live ((exec.snapshot.deletes entry.segmentId).getD ∅)).filter
          fun row => pageKept (P.pageRows data) keep row.2).map
            fun row => projectRow exec.projection (padRow env exec.snapshot.schema.fields data row.1) := by
  obtain ⟨keep, hkeep, h⟩ := bind_eq_ok.mp h
  obtain ⟨data, hdata, -⟩ := bind_eq_ok.mp h
  obtain ⟨batches', hread, hrows⟩ : ∃ batches', readSegmentPages env t.writer.file.io.file P.pageRows exec.snapshot entry
      exec.projection keep = .ok batches' ∧ _ := readSegmentPages_rows hdata (keepPagesOf_pos hkeep hdata) hprojection
  rw [h] at hread
  refine ⟨data, keep, hdata, hkeep, ?_⟩
  rw [Except.ok.inj hread, hrows]

end Pages

section Exact

variable {P : Pruner τ ν ζ} {exec : ColumnarScanExec τ ν P.Predicate} {env : Env τ ν} {t : Table M}
  {snapshot : Snapshot τ ν} {projection : Option (List Nat)} {filters : List P.Filter} {limit : Option Nat}
  {targetPartitions : Nat} {file : M.File} {schema : Schema τ}

/-- Two sums, one below the other piece by piece, are the same only if each piece is. -/
theorem sum_map_eq_iff {α : Type} {xs : List α} {f g : α → Nat} (h : ∀ x ∈ xs, f x ≤ g x) :
    (xs.map f).sum = (xs.map g).sum ↔ ∀ x ∈ xs, f x = g x := by
  induction xs with
  | nil => simp
  | cons x xs ih =>
      have hfirst := h x List.mem_cons_self
      have hrest : (xs.map f).sum ≤ (xs.map g).sum := List.sum_le_sum fun y hy => h y (List.mem_cons_of_mem x hy)
      rw [List.map_cons, List.map_cons, List.sum_cons, List.sum_cons, List.forall_mem_cons,
        ← ih fun y hy => h y (List.mem_cons_of_mem x hy)]
      omega

/-- A plan reads live segments of its snapshot. -/
theorem providerScan_ok (h : providerScan P file snapshot schema projection filters limit targetPartitions = .ok exec) :
    exec.snapshot = snapshot ∧ 0 < exec.partitionCount ∧
      (∀ indices ∈ exec.projection, ∀ index ∈ indices, index < exec.snapshot.schema.fields.length) ∧
      ∀ entry, Work.segment entry ∈ exec.work → entry ∈ exec.snapshot.manifest.segments := by
  obtain ⟨rfl, rfl, -, -, hwork, hpos, hprojection⟩ := ColumnarScanExec.new_ok h
  refine ⟨rfl, hpos, hprojection, fun entry hentry => ?_⟩
  rw [hwork] at hentry
  rcases List.mem_append.mp hentry with hentry | hentry
  · obtain ⟨entry', hmem, heq⟩ := List.mem_map.mp hentry
    obtain rfl := Work.segment.inj heq
    exact List.mem_of_mem_filter ((pruneSegments_sublist P schema file exec.snapshot filters _).subset hmem)
  · obtain ⟨_, -, heq⟩ := List.mem_map.mp hentry
    cases heq

/-- A piece of work gives no more rows than are listed for it, and all of them if no page with one on it is skipped. -/
theorem length_rowsIn (hcounted : exec.snapshot.Counted t.writer.file.io.file)
    (hprojection : ∀ indices ∈ exec.projection, ∀ index ∈ indices, index < exec.snapshot.schema.fields.length)
    (hlisted : ∀ entry, Work.segment entry ∈ exec.work → entry ∈ exec.snapshot.manifest.segments)
    (hdone : exec.Readable P env t) {work : Work τ ν} (hwork : work ∈ exec.work) :
    (exec.rowsIn P env t work).length ≤ exec.rowsListed work ∧
      ((exec.rowsIn P env t work).length = exec.rowsListed work ↔ ∀ entry, work = .segment entry → ∀ data keep,
        segmentReader t.writer.file.io.file entry exec.snapshot.layout = .ok data →
        keepPagesOf P exec.toScanPlan t entry = .ok keep →
          ∀ row ∈ data.live ((exec.snapshot.deletes entry.segmentId).getD ∅), pageKept (P.pageRows data) keep row.2 = true) := by
  obtain ⟨batches, hbatches⟩ := hdone work hwork
  have hrows : exec.rowsIn P env t work = rowsOf batches := by
    rw [ColumnarScanExec.rowsIn, Queue.results, show (exec.morsels P env t).run = exec.runWork P env t from rfl, hbatches]
  rw [hrows]
  cases work with
  | segment entry =>
      obtain ⟨data, keep, hdata, hkeep, hrows⟩ := runWork_segment hprojection hbatches
      have hcount := hcounted.length_live (hlisted entry hwork) (segmentReader_ok hdata).1
      rw [ColumnarScanExec.rowsListed, ← hcount, hrows, List.length_map]
      refine ⟨List.length_filter_le _ _, List.length_filter_eq_length_iff.trans ⟨fun hall => ?_, fun hall => ?_⟩⟩
      · intro entry' heq data' keep' hdata' hkeep'
        obtain rfl := Work.segment.inj heq
        obtain rfl := Except.ok.inj (hdata.symm.trans hdata')
        obtain rfl := Except.ok.inj (hkeep.symm.trans hkeep')
        exact hall
      · exact hall entry rfl data keep hdata hkeep
  | batch held =>
      obtain ⟨batch', hproject, hbatches⟩ := bind_eq_ok.mp hbatches
      obtain rfl := Except.ok.inj hbatches
      have hlen : (rowsOf [batch']).length = held.rows.length := by
        rw [rowsOf_cons, rowsOf_nil, List.append_nil, RecordBatch.project_rows hproject, List.length_map]
      refine ⟨hlen.le, fun _ entry heq => ?_, fun _ => hlen⟩
      cases heq

theorem card_available : (exec.available P env t).card = (exec.work.map fun work => (exec.rowsIn P env t work).length).sum := by
  rw [ColumnarScanExec.available]
  induction exec.work with
  | nil => rfl
  | cons work rest ih => rw [List.map_cons, List.sum_cons, Multiset.card_add, ih, List.map_cons, List.sum_cons, Multiset.coe_card]

/-- The rows there are to hand on are as many as are listed exactly when no page with one on it is skipped. -/
theorem card_available_eq_iff (hcounted : exec.snapshot.Counted t.writer.file.io.file)
    (hprojection : ∀ indices ∈ exec.projection, ∀ index ∈ indices, index < exec.snapshot.schema.fields.length)
    (hlisted : ∀ entry, Work.segment entry ∈ exec.work → entry ∈ exec.snapshot.manifest.segments)
    (hdone : exec.Readable P env t) :
    (exec.available P env t).card ≤ (exec.work.map exec.rowsListed).sum ∧
      ((exec.available P env t).card = (exec.work.map exec.rowsListed).sum ↔ exec.PagesWhole P t) := by
  have hpiece := fun work (hwork : work ∈ exec.work) => length_rowsIn hcounted hprojection hlisted hdone hwork
  rw [card_available]
  refine ⟨List.sum_le_sum fun work hwork => (hpiece work hwork).1, ?_⟩
  rw [sum_map_eq_iff fun work hwork => (hpiece work hwork).1]
  constructor
  · intro hall entry hentry
    exact (hpiece _ hentry).2.mp (hall _ hentry) entry rfl
  · intro hwhole work hwork
    refine (hpiece work hwork).2.mpr fun entry heq => ?_
    subst heq
    exact hwhole entry hwork

/-- The number of rows a scan says it will hand on is the number it does hand on, exactly when no page with a live row on it
is skipped and the partitions keep the limit together. -/
theorem statistics_exact_iff [DecidableEq τ] (hstirred : Table.Stirred env t) (hshown : t.Shown snapshot)
    (hscan : providerScan P file snapshot schema projection filters limit targetPartitions = .ok exec)
    (hfew : (exec.work.map exec.rowsListed).sum < 2 ^ 63) :
    (exec.Predictable P env t → exec.ExactStatistics P env t) ∧
      ((∀ limit ∈ exec.limit, limit < 2 ^ 64) → exec.Readable P env t → exec.ExactStatistics P env t →
        exec.Predictable P env t) := by
  obtain ⟨rfl, hpos, hprojection, hlisted⟩ := providerScan_ok hscan
  have hne : Nonempty (Fin exec.partitionCount) := ⟨⟨0, hpos⟩⟩
  have hcount := fun hdone : exec.Readable P env t => card_available_eq_iff (hstirred.counts.shown _ hshown) hprojection hlisted hdone
  have hnumber := ColumnarScanExec.numRows_eq hfew
  constructor
  · intro hpredictable s hrun hcomplete
    obtain ⟨hle, hwhole⟩ := hcount (State.Run.all_done hrun hcomplete)
    have hsmall : (exec.available P env t).card < 2 ^ 63 := Nat.lt_of_le_of_lt hle hfew
    unfold ColumnarScanExec.Predictable at hpredictable
    rw [hnumber]
    cases hlimit : exec.limit with
    | none =>
        rw [hlimit] at hpredictable
        dsimp only at hpredictable ⊢
        rw [emitted_unlimited hlimit hrun hcomplete]
        exact hwhole.mpr hpredictable
    | some limit =>
        rw [hlimit] at hpredictable
        dsimp only at hpredictable ⊢
        obtain ⟨hbudget, henough⟩ := hpredictable
        rw [hbudget.oneBudget hlimit hsmall s hrun hcomplete]
        rcases henough with hpages | henough
        · rw [hwhole.mpr hpages, Nat.min_comm]
        · omega
  · intro hword hreadable hexact
    obtain ⟨hle, hwhole⟩ := hcount hreadable
    have hsmall : (exec.available P env t).card < 2 ^ 63 := Nat.lt_of_le_of_lt hle hfew
    unfold ColumnarScanExec.Predictable
    obtain ⟨s, hrun, hcomplete⟩ := State.Run.exists_complete (q := exec.morsels P env t) (s := exec.execute P 0) .refl hreadable
    have hsome := hexact s hrun hcomplete
    cases hlimit : exec.limit with
    | none =>
        rw [hnumber, hlimit, emitted_unlimited hlimit hrun hcomplete] at hsome
        exact hwhole.mp hsome
    | some limit =>
        rw [hlimit] at hnumber
        dsimp only at hnumber ⊢
        have hbudget : exec.BudgetHolds P env t limit := by
          by_contra hbroken
          obtain ⟨s', hrun', hcomplete', hoff⟩ :=
            exists_off_budget hlimit hsmall (hword limit hlimit) hreadable hbroken
          have := hexact s' hrun' hcomplete'
          omega
        have hemitted := hbudget.oneBudget hlimit hsmall s hrun hcomplete
        refine ⟨hbudget, ?_⟩
        rw [← hwhole]
        omega

end Exact

section OnePage

/-- A scan for the rows where `b` is two, of a table with two rows, each on a page of its own. -/
def scanForTwo (limit : Option Nat) : Except Error (PlainTable × ColumnarScanExec Unit Nat (String × Nat)) := do
  let t ← flushedPairs
  let exec ← providerScan equalityPruner t.writer.file.io.file t.current t.schema.schema none [("b", 2)] limit 2
  return (t, exec)

/-- Two rows are listed, and one is to be handed on. -/
def skipsOne (t : PlainTable) (exec : ColumnarScanExec Unit Nat (String × Nat)) : Prop :=
  (exec.work.map exec.rowsListed).sum = 2 ∧ (exec.available equalityPruner scanEnv t).card = 1 ∧
    exec.Readable equalityPruner scanEnv t

def skipsOneOf (limit : Option Nat) : Bool :=
  match scanForTwo limit with
  | .ok (t, exec) => decide ((exec.work.map exec.rowsListed).sum = 2 ∧ (exec.available equalityPruner scanEnv t).card = 1) &&
      exec.work.all fun work => (exec.runWork equalityPruner scanEnv t work).isOk
  | .error _ => false

theorem scanForTwo_skipsOne {limit : Option Nat} (h : skipsOneOf limit = true) :
    ∃ t exec, Table.Stirred scanEnv t ∧ skipsOne t exec ∧ providerScan equalityPruner t.writer.file.io.file t.current
      t.schema.schema none [("b", 2)] limit 2 = .ok exec := by
  unfold skipsOneOf at h
  cases hscan : scanForTwo limit with
  | error e =>
      rw [hscan] at h
      cases h
  | ok result =>
      obtain ⟨t, exec⟩ := result
      rw [hscan] at h
      obtain ⟨hcounts, hreads⟩ := Bool.and_eq_true_iff.mp h
      obtain ⟨htwo, hone⟩ := of_decide_eq_true hcounts
      obtain ⟨t', htable, hscan⟩ := bind_eq_ok.mp hscan
      obtain ⟨exec', hexec, hscan⟩ := bind_eq_ok.mp hscan
      obtain ⟨rfl, rfl⟩ := Prod.mk.inj (Except.ok.inj hscan)
      refine ⟨t', exec', flushedPairs_stirred htable, ⟨htwo, hone, fun work hwork => ?_⟩, hexec⟩
      exact isOk_iff.mp (List.all_eq_true.mp hreads work hwork)

/-- One page is skipped, and a limit of one leaves the count exact. -/
theorem limited_count_exact : ∃ (t : PlainTable) (exec : ColumnarScanExec Unit Nat (String × Nat)), skipsOne t exec ∧
    exec.ExactStatistics equalityPruner scanEnv t := by
  have hone : skipsOneOf (some 1) = true := by decide +kernel
  obtain ⟨t, exec, hstirred, hskips, hscan⟩ := scanForTwo_skipsOne hone
  have hlimit : exec.limit = some 1 := (ColumnarScanExec.new_ok hscan).2.2.1
  obtain ⟨htwo, hcard, -⟩ := id hskips
  refine ⟨t, exec, hskips, (statistics_exact_iff hstirred (.inl rfl) hscan (htwo.trans_lt (by decide))).1 ?_⟩
  unfold ColumnarScanExec.Predictable
  rw [hlimit]
  exact ⟨.inr ⟨by decide, .inl hcard.le⟩, .inr hcard.ge⟩

/-- Without a limit, two rows are announced and one is handed on. -/
theorem skipped_page_counted : ∃ (t : PlainTable) (exec : ColumnarScanExec Unit Nat (String × Nat)),
    Table.Stirred scanEnv t ∧ skipsOne t exec ∧ providerScan equalityPruner t.writer.file.io.file t.current
      t.schema.schema none [("b", 2)] none 2 = .ok exec ∧ ¬exec.ExactStatistics equalityPruner scanEnv t := by
  have hnone : skipsOneOf none = true := by decide +kernel
  obtain ⟨t, exec, hstirred, hskips, hscan⟩ := scanForTwo_skipsOne hnone
  have hlimit : exec.limit = none := (ColumnarScanExec.new_ok hscan).2.2.1
  obtain ⟨htwo, hcard, hreadable⟩ := id hskips
  refine ⟨t, exec, hstirred, hskips, hscan, fun hexact => ?_⟩
  have hne : Nonempty (Fin exec.partitionCount) := ⟨⟨0, (providerScan_ok hscan).2.1⟩⟩
  obtain ⟨s, hrun, hcomplete⟩ := State.Run.exists_complete (q := exec.morsels equalityPruner scanEnv t)
    (s := exec.execute equalityPruner 0) .refl hreadable
  have hemitted := hexact s hrun hcomplete
  have hnumber := ColumnarScanExec.numRows_eq (htwo.trans_lt (by decide))
  rw [hlimit, htwo] at hnumber
  rw [emitted_unlimited hlimit hrun hcomplete, hcard] at hemitted
  cases hemitted.trans hnumber

end OnePage

end LocalTables
