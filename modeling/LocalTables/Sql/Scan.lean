import Mathlib.Algebra.Order.BigOperators.Group.List
import Mathlib.Data.List.Sort
import LocalTables.Table.Contents
import LocalTables.Table.Read

/-! A scan through SQL (`columnar_provider.rs`, `columnar_exec.rs`). Planning takes a snapshot, loads the schema, and drops
the segments the filters rule out; the plan then reads piece after piece, and drops the pages the filters rule
out. Steps of other callers may come between any two of these. -/

namespace LocalTables

variable {τ ν : Type} {M : Media τ ν}

/-- What pruning is told of one container, a segment or a page: for a column, its type and what is stored about its
values, where that is known; and how many rows there are. -/
structure Container (τ ζ : Type) where
  zone : String → Option (τ × ζ)
  rows : Nat

/-- What a scan asks of the query engine and of the bounds stored with a segment. `ζ` is what is stored about the values
of a column: a zone map, and the membership filter where there is one. -/
structure Pruner (τ ν ζ : Type) where
  Filter : Type
  Predicate : Type
  Piece : Type
  columnRefs : Filter → List String
  /-- Whether a row satisfies a filter, its columns looked up by name. -/
  satisfied : Filter → (String → Option ν) → Bool
  /-- A pruning predicate for a filter over a schema, if it can be made into one. -/
  build : Schema τ → Filter → Option Predicate
  prune : Predicate → List (Container τ ζ) → Except Error (List Bool)
  /-- The pieces of text a filter needs a column to contain. -/
  substrings : Filter → List (String × Piece)
  /-- The bounds of a column of a segment, by position. -/
  zone : SegmentData ν → Nat → Option ζ
  /-- Whether a column may contain a piece of text: true where no trigram filter says otherwise. -/
  mayContain : SegmentData ν → Nat → Piece → Bool
  /-- Rows each page of bounds covers, or zero when the segment has none. -/
  pageRows : SegmentData ν → Nat
  pageZones : SegmentData ν → Nat → Option (List ζ)

/-- Combine verdicts, as far as there are any. -/
def andVerdicts : List Bool → List Bool → List Bool
  | slot :: keep, verdict :: verdicts => (slot && verdict) :: andVerdicts keep verdicts
  | keep, _ => keep

/-- What a scan tests each page against. -/
structure PageFilters (φ : Type) where
  predicates : List φ
  columns : List Nat

def PageFilters.isEmpty {φ : Type} (filters : PageFilters φ) : Bool :=
  filters.predicates.isEmpty || filters.columns.isEmpty

namespace Pruner

variable {ζ : Type} (P : Pruner τ ν ζ) (schema : Schema τ)

/-- Turn the filters into predicates that can be tested against bounds. -/
def predicates (filters : List P.Filter) : List P.Predicate := filters.filterMap (P.build schema)

/-- Positions of the columns a set of filters mentions. -/
def referencedColumns (filters : List P.Filter) : List Nat :=
  (((filters.flatMap P.columnRefs).filterMap schema.indexOf).insertionSort (· ≤ ·)).dedup

/-- The `LIKE` requirements, on the positions of their columns. -/
def substringRequirements (filters : List P.Filter) : List (Nat × P.Piece) :=
  (filters.flatMap P.substrings).filterMap fun (name, piece) => (schema.indexOf name).map (·, piece)

/-- What `SegmentStatistics` reports of one segment. -/
def segmentContainer (data : SegmentData ν) : Container τ ζ where
  zone name := do
    let index ← schema.indexOf name
    let field ← schema.fields[index]?
    let zone ← P.zone data index
    return (field.dataType, zone)
  rows := data.rows.length

/-- Which segments the filters leave, of those that could be opened. -/
def keepSegments (filters : List P.Filter) (segments : List (SegmentData ν)) : List Bool :=
  let containers := segments.map (P.segmentContainer schema)
  let keep := (P.predicates schema filters).foldl (fun keep predicate =>
    match P.prune predicate containers with
    | .error _ => keep
    | .ok verdicts => andVerdicts keep verdicts) (segments.map fun _ => true)
  (P.substringRequirements schema filters).foldl (fun keep (index, piece) =>
    andVerdicts keep (segments.map fun data => P.mayContain data index piece)) keep

/-- Drop the segments the filters cannot match. `none` when nothing could be ruled out. -/
def pruneSegments (file : M.File) (s : Snapshot τ ν) (filters : List P.Filter) (candidates : List SegmentEntry) :
    Option (List SegmentEntry) :=
  if filters.isEmpty || candidates.isEmpty then none
  else match candidates.mapM fun entry => segmentReader file entry s.layout with
    | .error _ => none
    | .ok segments =>
        let keep := P.keepSegments schema filters segments
        if keep.all id then none else some (((candidates.zip keep).filter Prod.snd).map Prod.fst)

/-- The bounds of a column's pages, where the scan asks for them and there is one for each page. -/
def knownZones (filters : PageFilters P.Predicate) (pages : Nat) (data : SegmentData ν) (index : Nat) : Option (List ζ) :=
  if index ∈ filters.columns then (P.pageZones data index).filter fun zones => zones.length = pages else none

/-- What `PageStatistics` reports of one page. -/
def pageContainer (filters : PageFilters P.Predicate) (pages : Nat) (data : SegmentData ν) (page : Nat) :
    Container τ ζ where
  zone name := do
    let index ← schema.indexOf name
    let field ← schema.fields[index]?
    let zones ← P.knownZones filters pages data index
    let zone ← zones[page]?
    return (field.dataType, zone)
  rows := min (P.pageRows data) (data.rows.length - page * P.pageRows data)

/-- Which pages of a segment are worth handing on. `none` means all of them. -/
def keepPages (filters : PageFilters P.Predicate) (data : SegmentData ν) : Option (List Bool) :=
  if filters.isEmpty then none
  else if P.pageRows data = 0 then none
  else
    let pages := (data.rows.length + (P.pageRows data - 1)) / P.pageRows data
    if filters.columns.all fun index => (P.knownZones filters pages data index).isNone then none
    else
      let containers := (List.range pages).map (P.pageContainer schema filters pages data)
      let (keep, ruledOut) := filters.predicates.foldl (fun (keep, ruledOut) predicate =>
        match P.prune predicate containers with
        | .error _ => (keep, ruledOut)
        | .ok verdicts =>
            if verdicts.length ≠ pages then (keep, ruledOut)
            else (andVerdicts keep verdicts, ruledOut || verdicts.any not)) (List.replicate pages true, false)
      if ruledOut then some keep else none

end Pruner

/-- One piece of work for a scan to do. -/
inductive Work (τ ν : Type) where
  | segment (entry : SegmentEntry)
  | batch (batch : RecordBatch τ ν)
  deriving DecidableEq

/-- A scan of one table at one snapshot (`ColumnarScanExec`). -/
structure ScanPlan (τ ν φ : Type) where
  snapshot : Snapshot τ ν
  projection : Option (List Nat)
  pages : PageFilters φ
  work : List (Work τ ν)

section Steps

variable {ζ : Type} (P : Pruner τ ν ζ)

/-- Plan a scan of a snapshot, with the schema that was loaded after it was taken. -/
def planScan (file : M.File) (s : Snapshot τ ν) (schema : Schema τ) (projection : Option (List Nat))
    (filters : List P.Filter) : Except Error (ScanPlan τ ν P.Predicate) :=
  let candidates := s.liveSegments
  let segments := (P.pruneSegments schema file s filters candidates).getD candidates
  if ∀ indices ∈ projection, ∀ index ∈ indices, index < s.schema.fields.length then
    .ok ⟨s, projection, ⟨P.predicates schema filters, P.referencedColumns schema filters⟩,
      segments.map Work.segment ++ s.memtable.map Work.batch⟩
  else .error (.arrow "project index out of bounds")

variable (plan : ScanPlan τ ν P.Predicate)

/-- Which pages of a segment to read (`Scanner::keep_pages`). The segment is opened through the schema in force. -/
def keepPagesOf (t : Table M) (entry : SegmentEntry) : Except Error (Option (List Bool)) :=
  if plan.pages.isEmpty then .ok none
  else do
    let data ← segmentReader t.writer.file.io.file entry t.schema.layout
    return P.keepPages plan.snapshot.schema plan.pages data

/-- How far a scan has got. -/
inductive ScanStage (τ ν φ : Type) where
  | took (s : Snapshot τ ν)
  | loaded (s : Snapshot τ ν) (schema : Schema τ)
  | running (plan : ScanPlan τ ν φ) (waiting : List (Work τ ν)) (opened : List (SegmentEntry × Option (List Bool)))
      (out : List (RecordBatch τ ν))
  | failed (error : Error)

/-- Where a scan may take its steps: where it loads the schema, and where it opens a segment. -/
structure ScanGuard (M : Media τ ν) (φ : Type) where
  loading : Table M → Snapshot τ ν → Prop
  opening : Table M → ScanPlan τ ν φ → SegmentEntry → Prop

/-- One step of a scan. Whichever partition is free takes the next piece of work; the pieces that are under way go
on in any order. -/
inductive ScanStep (env : Env τ ν) (guard : ScanGuard M P.Predicate) (projection : Option (List Nat))
    (filters : List P.Filter) (t : Table M) : ScanStage τ ν P.Predicate → ScanStage τ ν P.Predicate → Prop where
  | load {s : Snapshot τ ν} (hguard : guard.loading t s) :
      ScanStep env guard projection filters t (.took s) (.loaded s t.schema.schema)
  | plan {s : Snapshot τ ν} {schema : Schema τ} {plan : ScanPlan τ ν P.Predicate}
      (h : planScan P t.writer.file.io.file s schema projection filters = .ok plan) :
      ScanStep env guard projection filters t (.loaded s schema) (.running plan plan.work [] [])
  | planFails {s : Snapshot τ ν} {schema : Schema τ} {error : Error}
      (h : planScan P t.writer.file.io.file s schema projection filters = .error error) :
      ScanStep env guard projection filters t (.loaded s schema) (.failed error)
  | batch {plan : ScanPlan τ ν P.Predicate} {batch batch' : RecordBatch τ ν} {waiting : List (Work τ ν)}
      {opened : List (SegmentEntry × Option (List Bool))} {out : List (RecordBatch τ ν)}
      (h : batch.project plan.projection = .ok batch') :
      ScanStep env guard projection filters t (.running plan (.batch batch :: waiting) opened out)
        (.running plan waiting opened (out ++ [batch']))
  | batchFails {plan : ScanPlan τ ν P.Predicate} {batch : RecordBatch τ ν} {waiting : List (Work τ ν)}
      {opened : List (SegmentEntry × Option (List Bool))} {out : List (RecordBatch τ ν)} {error : Error}
      (h : batch.project plan.projection = .error error) :
      ScanStep env guard projection filters t (.running plan (.batch batch :: waiting) opened out) (.failed error)
  | open {plan : ScanPlan τ ν P.Predicate} {entry : SegmentEntry} {keep : Option (List Bool)} {waiting : List (Work τ ν)}
      {opened : List (SegmentEntry × Option (List Bool))} {out : List (RecordBatch τ ν)}
      (hguard : guard.opening t plan entry) (h : keepPagesOf P plan t entry = .ok keep) :
      ScanStep env guard projection filters t (.running plan (.segment entry :: waiting) opened out)
        (.running plan waiting (opened ++ [(entry, keep)]) out)
  | openFails {plan : ScanPlan τ ν P.Predicate} {entry : SegmentEntry} {waiting : List (Work τ ν)}
      {opened : List (SegmentEntry × Option (List Bool))} {out : List (RecordBatch τ ν)} {error : Error}
      (hguard : guard.opening t plan entry) (h : keepPagesOf P plan t entry = .error error) :
      ScanStep env guard projection filters t (.running plan (.segment entry :: waiting) opened out) (.failed error)
  | read {plan : ScanPlan τ ν P.Predicate} {entry : SegmentEntry} {keep : Option (List Bool)} {waiting : List (Work τ ν)}
      {front back : List (SegmentEntry × Option (List Bool))} {out batches : List (RecordBatch τ ν)}
      (h : readSegmentPages env t.writer.file.io.file P.pageRows plan.snapshot entry plan.projection keep = .ok batches) :
      ScanStep env guard projection filters t (.running plan waiting (front ++ (entry, keep) :: back) out)
        (.running plan waiting (front ++ back) (out ++ batches))
  | readFails {plan : ScanPlan τ ν P.Predicate} {entry : SegmentEntry} {keep : Option (List Bool)}
      {waiting : List (Work τ ν)} {front back : List (SegmentEntry × Option (List Bool))} {out : List (RecordBatch τ ν)}
      {error : Error}
      (h : readSegmentPages env t.writer.file.io.file P.pageRows plan.snapshot entry plan.projection keep = .error error) :
      ScanStep env guard projection filters t (.running plan waiting (front ++ (entry, keep) :: back) out) (.failed error)

/-- A scan whose snapshot was taken of `taken`, among the steps of other callers. -/
inductive ScanRun [DecidableEq τ] (env : Env τ ν) (guard : ScanGuard M P.Predicate) (projection : Option (List Nat))
    (filters : List P.Filter) (taken : Table M) : Table M → ScanStage τ ν P.Predicate → Prop where
  | start : ScanRun env guard projection filters taken taken.pin (.took taken.current)
  | step {t : Table M} {a a' : ScanStage τ ν P.Predicate} (hrun : ScanRun env guard projection filters taken t a)
      (hstep : ScanStep P env guard projection filters t a a') : ScanRun env guard projection filters taken t a'
  | other {t t' : Table M} {a : ScanStage τ ν P.Predicate} (hrun : ScanRun env guard projection filters taken t a)
      (hstep : Table.Stirs env t t') (hheld : taken.current ∈ t'.pins) :
      ScanRun env guard projection filters taken t' a

end Steps

/-- A row's columns, by name. -/
def Schema.lookup (schema : Schema τ) (row : Row ν) (name : String) : Option ν := do
  let index ← schema.indexOf name
  row[index]?

namespace Pruner

variable {ζ : Type} (P : Pruner τ ν ζ)

/-- A row satisfies all filters. -/
def Satisfies (schema : Schema τ) (filters : List P.Filter) (row : Row ν) : Bool :=
  filters.all fun filter => P.satisfied filter (schema.lookup row)

/-- What the query engine promises of pruning. A container is ruled out only when no row within its bounds satisfies
the filter, and a row that satisfies a filter contains the pieces the filter needs. -/
structure Sound (covers : τ → ζ → ν → Prop) (contains : P.Piece → ν → Prop) : Prop where
  prune : ∀ {schema : Schema τ} {filter : P.Filter} {predicate : P.Predicate}, P.build schema filter = some predicate →
    ∀ {containers : List (Container τ ζ)} {verdicts : List Bool}, P.prune predicate containers = .ok verdicts →
    ∀ {index : Nat} {container : Container τ ζ}, containers[index]? = some container → verdicts[index]? = some false →
    ∀ look : String → Option ν, (∀ name ∈ P.columnRefs filter, ∀ type zone, container.zone name = some (type, zone) →
      ∀ value, look name = some value → covers type zone value) → P.satisfied filter look = false
  substrings : ∀ {filter : P.Filter} {name : String} {piece : P.Piece}, (name, piece) ∈ P.substrings filter →
    name ∈ P.columnRefs filter ∧ ∀ look, P.satisfied filter look = true → ∃ value, look name = some value ∧ contains piece value

/-- What the writer of segments promises of the bounds it stores: they are those of the values a reader sees. -/
structure Stored (covers : τ → ζ → ν → Prop) (contains : P.Piece → ν → Prop) (env : Env τ ν) (schema : Schema τ)
    (data : SegmentData ν) : Prop where
  zone : ∀ {index : Nat} {zone : ζ}, P.zone data index = some zone → index < schema.fields.length ∧
    ∀ field, schema.fields[index]? = some field → ∀ row ∈ data.rows, ∀ value,
      (padRow env schema.fields data row)[index]? = some value → covers field.dataType zone value
  mayContain : ∀ {index : Nat} {piece : P.Piece}, P.mayContain data index piece = false → index < schema.fields.length ∧
    ∀ row ∈ data.rows, ∀ value, (padRow env schema.fields data row)[index]? = some value → ¬contains piece value
  page : ∀ {index : Nat} {zones : List ζ}, P.pageZones data index = some zones → ∀ {page : Nat} {zone : ζ},
    zones[page]? = some zone → ∀ field, schema.fields[index]? = some field → ∀ position row,
      data.rows[position]? = some row → position / P.pageRows data = page → ∀ value,
        (padRow env schema.fields data row)[index]? = some value → covers field.dataType zone value

/-- The columns the filters mention are, in the schema that was loaded, where they are in the snapshot's, or where the
snapshot has no column. -/
def Agrees (filters : List P.Filter) (own loaded : Schema τ) : Prop :=
  ∀ filter ∈ filters, ∀ name ∈ P.columnRefs filter, ∀ index, loaded.indexOf name = some index →
    own.fields.length ≤ index ∨ own.indexOf name = some index ∧
      (loaded.fields[index]?).map Field.dataType = (own.fields[index]?).map Field.dataType

end Pruner

section Verdicts

theorem length_andVerdicts (keep verdicts : List Bool) : (andVerdicts keep verdicts).length = keep.length := by
  induction keep generalizing verdicts with
  | nil => rfl
  | cons slot keep ih =>
      cases verdicts with
      | nil => rfl
      | cons verdict verdicts => rw [andVerdicts, List.length_cons, ih, List.length_cons]

theorem andVerdicts_false {keep verdicts : List Bool} {index : Nat} (h : (andVerdicts keep verdicts)[index]? = some false) :
    keep[index]? = some false ∨ verdicts[index]? = some false := by
  induction keep generalizing verdicts index with
  | nil => exact .inl h
  | cons slot keep ih =>
      cases verdicts with
      | nil => exact .inl h
      | cons verdict verdicts =>
          cases index with
          | zero =>
              rw [andVerdicts, List.getElem?_cons_zero, Option.some.injEq, Bool.and_eq_false_iff] at h
              simpa using h
          | succ index => exact ih h

end Verdicts

namespace Pruner

variable {ζ : Type} {P : Pruner τ ν ζ} {covers : τ → ζ → ν → Prop} {contains : P.Piece → ν → Prop} {env : Env τ ν}
  {own loaded : Schema τ} {filters : List P.Filter} {data : SegmentData ν}

theorem lookup_eq {schema : Schema τ} {row : Row ν} {name : String} {value : ν} :
    schema.lookup row name = some value ↔ ∃ index, schema.indexOf name = some index ∧ row[index]? = some value :=
  Option.bind_eq_some_iff

theorem not_satisfies {schema : Schema τ} {row : Row ν} {filter : P.Filter} (hmem : filter ∈ filters)
    (h : P.satisfied filter (schema.lookup row) = false) : P.Satisfies schema filters row = false := by
  rw [Satisfies, List.all_eq_false]
  exact ⟨filter, hmem, by rw [h]; exact Bool.false_ne_true⟩

theorem segmentContainer_zone {schema : Schema τ} {name : String} {type : τ} {zone : ζ}
    (h : (P.segmentContainer schema data).zone name = some (type, zone)) :
    ∃ index field, schema.indexOf name = some index ∧ schema.fields[index]? = some field ∧ field.dataType = type ∧
      P.zone data index = some zone := by
  obtain ⟨index, hindex, h⟩ := Option.bind_eq_some_iff.mp h
  obtain ⟨field, hfield, h⟩ := Option.bind_eq_some_iff.mp h
  obtain ⟨zone', hzone, h⟩ := Option.bind_eq_some_iff.mp h
  obtain ⟨rfl, rfl⟩ := Prod.mk.inj (Option.some.inj h)
  exact ⟨index, field, hindex, hfield, rfl, hzone⟩

/-- What is reported of a segment through a schema that agrees bounds the values its readers see. -/
theorem segmentContainer_covers (hstored : P.Stored covers contains env own data) (hagrees : P.Agrees filters own loaded)
    {filter : P.Filter} (hmem : filter ∈ filters) {row : Row ν} (hrow : row ∈ data.rows) :
    ∀ name ∈ P.columnRefs filter, ∀ type zone, (P.segmentContainer loaded data).zone name = some (type, zone) →
      ∀ value, own.lookup (padRow env own.fields data row) name = some value → covers type zone value := by
  intro name hname type zone hzone value hvalue
  obtain ⟨index, field, hindex, hfield, rfl, hstoredZone⟩ := segmentContainer_zone hzone
  obtain ⟨hlt, hcovers⟩ := hstored.zone hstoredZone
  obtain ⟨hown, htype⟩ := (hagrees filter hmem name hname index hindex).resolve_left (Nat.not_le.mpr hlt)
  obtain ⟨index', hindex', hvalue⟩ := lookup_eq.mp hvalue
  obtain rfl := Option.some.inj (hown.symm.trans hindex')
  obtain ⟨ownField, hownField⟩ : ∃ f, own.fields[index]? = some f := ⟨_, List.getElem?_eq_getElem hlt⟩
  rw [hfield, hownField, Option.map_some, Option.map_some, Option.some.injEq] at htype
  rw [htype]
  exact hcovers ownField hownField row hrow value hvalue

/-- If a predicate and a piece of text rule out only segments no row of which is wanted, so do all of them together. -/
theorem keepSegments_unwanted {segments : List (SegmentData ν)}
    (hprune : ∀ filter ∈ filters, ∀ predicate, P.build loaded filter = some predicate → ∀ verdicts : List Bool,
      P.prune predicate (segments.map (P.segmentContainer loaded)) = .ok verdicts → ∀ (index : Nat) (data : SegmentData ν),
        verdicts[index]? = some false → segments[index]? = some data → ∀ row ∈ data.rows,
          P.satisfied filter (own.lookup (padRow env own.fields data row)) = false)
    (hpieces : ∀ position piece, (position, piece) ∈ P.substringRequirements loaded filters → ∀ data ∈ segments,
      P.mayContain data position piece = false → ∀ row ∈ data.rows,
        P.Satisfies own filters (padRow env own.fields data row) = false) :
    (P.keepSegments loaded filters segments).length = segments.length ∧
      ∀ (index : Nat) (data : SegmentData ν), (P.keepSegments loaded filters segments)[index]? = some false → segments[index]? = some data →
        ∀ row ∈ data.rows, P.Satisfies own filters (padRow env own.fields data row) = false := by
  let Dead := fun keep : List Bool => keep.length = segments.length ∧ ∀ (index : Nat) (data : SegmentData ν), keep[index]? = some false →
    segments[index]? = some data → ∀ row ∈ data.rows, P.Satisfies own filters (padRow env own.fields data row) = false
  have hand : ∀ {keep verdicts : List Bool}, Dead keep → (∀ (index : Nat) (data : SegmentData ν), verdicts[index]? = some false →
      segments[index]? = some data → ∀ row ∈ data.rows, P.Satisfies own filters (padRow env own.fields data row) = false) →
      Dead (andVerdicts keep verdicts) := by
    intro keep verdicts hkeep hverdicts
    refine ⟨(length_andVerdicts _ _).trans hkeep.1, fun index data hfalse hdata => ?_⟩
    rcases andVerdicts_false hfalse with hfalse | hfalse
    · exact hkeep.2 index data hfalse hdata
    · exact hverdicts index data hfalse hdata
  have hstart : Dead (segments.map fun _ => true) := by
    refine ⟨List.length_map _, fun index data hfalse hdata => ?_⟩
    rw [List.getElem?_map, hdata] at hfalse
    cases hfalse
  unfold Pruner.keepSegments
  dsimp only
  -- first the predicates, then the pieces of text
  refine List.foldlRecOn (motive := Dead) _ _ (List.foldlRecOn (motive := Dead) _ _ hstart ?_) ?_
  · intro keep hkeep predicate hpredicate
    obtain ⟨filter, hmem, hbuild⟩ := List.mem_filterMap.mp hpredicate
    split
    · exact hkeep
    · next verdicts hverdicts =>
        exact hand hkeep fun index data hfalse hdata row hrow =>
          not_satisfies hmem (hprune filter hmem predicate hbuild verdicts hverdicts index data hfalse hdata row hrow)
  · rintro keep hkeep ⟨position, piece⟩ hpiece
    refine hand hkeep fun index data hfalse hdata => ?_
    rw [List.getElem?_map, hdata, Option.map_some, Option.some.injEq] at hfalse
    exact hpieces position piece hpiece data (List.mem_of_getElem? hdata) hfalse

/-- No row of a segment that the filters rule out satisfies them. -/
theorem Sound.keepSegments (h : P.Sound covers contains) (hagrees : P.Agrees filters own loaded)
    {segments : List (SegmentData ν)} (hstored : ∀ data ∈ segments, P.Stored covers contains env own data) :
    (P.keepSegments loaded filters segments).length = segments.length ∧
      ∀ (index : Nat) (data : SegmentData ν), (P.keepSegments loaded filters segments)[index]? = some false → segments[index]? = some data →
        ∀ row ∈ data.rows, P.Satisfies own filters (padRow env own.fields data row) = false := by
  refine keepSegments_unwanted ?_ ?_
  · intro filter hmem predicate hbuild verdicts hprune index data hfalse hdata row hrow
    refine h.prune hbuild hprune ?_ hfalse _
      (segmentContainer_covers (hstored data (List.mem_of_getElem? hdata)) hagrees hmem hrow)
    rw [List.getElem?_map, hdata]
    rfl
  · intro position piece hpiece data hdata hfalse row hrow
    obtain ⟨⟨name, piece'⟩, hneeds, hposition⟩ := List.mem_filterMap.mp hpiece
    obtain ⟨filter, hmem, hneeds⟩ := List.mem_flatMap.mp hneeds
    obtain ⟨position', hindexOf, heq⟩ := Option.map_eq_some_iff.mp hposition
    obtain ⟨rfl, rfl⟩ := Prod.mk.inj heq
    obtain ⟨hlt, hnone⟩ := (hstored data hdata).mayContain hfalse
    obtain ⟨hname, hcontains⟩ := h.substrings hneeds
    obtain ⟨hown, -⟩ := (hagrees filter hmem name hname _ hindexOf).resolve_left (Nat.not_le.mpr hlt)
    refine not_satisfies hmem (Bool.eq_false_iff.mpr fun hsatisfied => ?_)
    obtain ⟨value, hlook, hvalue⟩ := hcontains _ hsatisfied
    obtain ⟨index', hindex', hlook⟩ := lookup_eq.mp hlook
    obtain rfl := Option.some.inj (hown.symm.trans hindex')
    exact hnone row hrow value hlook hvalue

theorem pageContainer_zone {pageFilters : PageFilters P.Predicate} {pages page : Nat} {name : String} {type : τ} {zone : ζ}
    (h : (P.pageContainer own pageFilters pages data page).zone name = some (type, zone)) :
    ∃ index field zones, own.indexOf name = some index ∧ own.fields[index]? = some field ∧ field.dataType = type ∧
      P.pageZones data index = some zones ∧ zones[page]? = some zone := by
  obtain ⟨index, hindex, h⟩ := Option.bind_eq_some_iff.mp h
  obtain ⟨field, hfield, h⟩ := Option.bind_eq_some_iff.mp h
  obtain ⟨zones, hzones, h⟩ := Option.bind_eq_some_iff.mp h
  obtain ⟨zone', hzone, h⟩ := Option.bind_eq_some_iff.mp h
  obtain ⟨rfl, rfl⟩ := Prod.mk.inj (Option.some.inj h)
  unfold knownZones at hzones
  split at hzones
  · exact ⟨index, field, zones, hindex, hfield, rfl, (Option.filter_eq_some_iff.mp hzones).1, hzone⟩
  · cases hzones

/-- The bounds of a page are those of the values its readers see. -/
theorem pageContainer_covers (hstored : P.Stored covers contains env own data) {pageFilters : PageFilters P.Predicate}
    {pages position : Nat} {row : Row ν} (hrow : data.rows[position]? = some row) {filter : P.Filter} :
    ∀ name ∈ P.columnRefs filter, ∀ type zone,
      (P.pageContainer own pageFilters pages data (position / P.pageRows data)).zone name = some (type, zone) →
      ∀ value, own.lookup (padRow env own.fields data row) name = some value → covers type zone value := by
  intro name _ type zone hzone value hvalue
  obtain ⟨index, field, zones, hindex, hfield, rfl, hzones, hzone⟩ := pageContainer_zone hzone
  obtain ⟨index', hindex', hvalue⟩ := lookup_eq.mp hvalue
  obtain rfl := Option.some.inj (hindex.symm.trans hindex')
  exact hstored.page hzones hzone field hfield position row hrow rfl value hvalue

theorem page_lt {position rows size : Nat} (hpos : 0 < size) (h : position < rows) : position / size < (rows + (size - 1)) / size := by
  rw [Nat.div_lt_iff_lt_mul hpos]
  have := Nat.div_add_mod (rows + (size - 1)) size
  have := Nat.mod_lt (rows + (size - 1)) hpos
  rw [Nat.mul_comm]
  omega

theorem pageContainer_getElem? {pageFilters : PageFilters P.Predicate} {pages page : Nat} (h : page < pages) :
    ((List.range pages).map (P.pageContainer own pageFilters pages data))[page]? =
      some (P.pageContainer own pageFilters pages data page) := by
  rw [List.getElem?_map, List.getElem?_range h]
  rfl

theorem keepPages_pos {schema : Schema τ} {pageFilters : PageFilters P.Predicate} {keep : List Bool}
    (h : P.keepPages schema pageFilters data = some keep) : 0 < P.pageRows data := by
  unfold Pruner.keepPages at h
  rw [Option.ite_none_left_eq_some, Option.ite_none_left_eq_some] at h
  exact Nat.pos_of_ne_zero h.2.1

/-- If a predicate rules out only pages no row of which is wanted, so do all of them together. -/
theorem keepPages_unwanted {columns : List Nat} {keep : List Bool}
    (hprune : ∀ filter ∈ filters, ∀ predicate, P.build loaded filter = some predicate → ∀ verdicts : List Bool,
      P.prune predicate ((List.range ((data.rows.length + (P.pageRows data - 1)) / P.pageRows data)).map
        (P.pageContainer own ⟨P.predicates loaded filters, columns⟩ ((data.rows.length + (P.pageRows data - 1)) / P.pageRows data)
          data)) = .ok verdicts → ∀ position row, data.rows[position]? = some row →
            verdicts[position / P.pageRows data]? = some false →
              P.satisfied filter (own.lookup (padRow env own.fields data row)) = false)
    (hkeep : P.keepPages own ⟨P.predicates loaded filters, columns⟩ data = some keep) :
    0 < P.pageRows data ∧ ∀ position row, data.rows[position]? = some row →
      pageKept (P.pageRows data) (some keep) position = false →
        P.Satisfies own filters (padRow env own.fields data row) = false := by
  unfold Pruner.keepPages at hkeep
  rw [Option.ite_none_left_eq_some] at hkeep
  obtain ⟨-, hkeep⟩ := hkeep
  rw [Option.ite_none_left_eq_some] at hkeep
  obtain ⟨hpos, hkeep⟩ := hkeep
  dsimp only at hkeep
  rw [Option.ite_none_left_eq_some] at hkeep
  obtain ⟨-, hkeep⟩ := hkeep
  have hpos : 0 < P.pageRows data := Nat.pos_of_ne_zero hpos
  have hpage : ∀ {position : Nat} {row : Row ν}, data.rows[position]? = some row →
      position / P.pageRows data < (data.rows.length + (P.pageRows data - 1)) / P.pageRows data := fun hrow =>
    page_lt hpos (List.getElem?_eq_some_iff.mp hrow).1
  generalize (data.rows.length + (P.pageRows data - 1)) / P.pageRows data = pages at hkeep hprune hpage
  let Dead := fun so : List Bool × Bool => so.1.length = pages ∧ ∀ (page : Nat), so.1[page]? = some false →
    ∀ position row, data.rows[position]? = some row → position / P.pageRows data = page →
      P.Satisfies own filters (padRow env own.fields data row) = false
  have hfold : Dead ((P.predicates loaded filters).foldl (fun so predicate =>
      match P.prune predicate ((List.range pages).map
        (P.pageContainer own ⟨P.predicates loaded filters, columns⟩ pages data)) with
      | .error _ => (so.1, so.2)
      | .ok verdicts => if verdicts.length ≠ pages then (so.1, so.2)
          else (andVerdicts so.1 verdicts, so.2 || verdicts.any not)) (List.replicate pages true, false)) := by
    refine List.foldlRecOn (motive := Dead) _ _ ⟨List.length_replicate, fun page hfalse => ?_⟩ ?_
    · rw [List.getElem?_replicate] at hfalse
      split at hfalse
      · cases hfalse
      · cases hfalse
    · intro so hso predicate hpredicate
      obtain ⟨filter, hmem, hbuild⟩ := List.mem_filterMap.mp hpredicate
      split
      · exact hso
      · next verdicts hverdicts =>
          split
          · exact hso
          · refine ⟨(length_andVerdicts _ _).trans hso.1, fun page hfalse position row hrow heq => ?_⟩
            rcases andVerdicts_false hfalse with hfalse | hfalse
            · exact hso.2 page hfalse position row hrow heq
            · subst heq
              exact not_satisfies hmem (hprune filter hmem predicate hbuild verdicts hverdicts position row hrow hfalse)
  rw [Option.ite_none_right_eq_some] at hkeep
  obtain ⟨-, hkeep⟩ := hkeep
  obtain rfl := Option.some.inj hkeep
  refine ⟨hpos, fun position row hrow hdropped => ?_⟩
  have hlt := hpage hrow
  rw [← hfold.1] at hlt
  refine hfold.2 _ ?_ position row hrow rfl
  rw [List.getElem?_eq_getElem hlt]
  unfold pageKept at hdropped
  dsimp only at hdropped
  erw [List.getElem?_eq_getElem hlt, Option.getD_some] at hdropped
  exact congrArg some hdropped

/-- No row of a page that the filters rule out satisfies them, whatever schema they were built over. -/
theorem Sound.keepPages (h : P.Sound covers contains) (hstored : P.Stored covers contains env own data)
    {columns : List Nat} {keep : List Bool} (hkeep : P.keepPages own ⟨P.predicates loaded filters, columns⟩ data = some keep) :
    0 < P.pageRows data ∧ ∀ position row, data.rows[position]? = some row →
      pageKept (P.pageRows data) (some keep) position = false →
        P.Satisfies own filters (padRow env own.fields data row) = false := by
  have hpos := keepPages_pos hkeep
  refine keepPages_unwanted (fun filter _ predicate hbuild verdicts hprune position row hrow hfalse => ?_) hkeep
  have hlt := page_lt hpos (List.getElem?_eq_some_iff.mp hrow).1
  refine h.prune hbuild hprune (pageContainer_getElem? hlt) hfalse _ (pageContainer_covers hstored hrow)

end Pruner

/-- A snapshot that reads through itself: its live segments open under its own schema, and the rows it holds in memory
have that schema. -/
structure Snapshot.Consistent (file : M.File) (s : Snapshot τ ν) : Prop where
  opens : ∀ entry ∈ s.liveSegments, ∃ data, segmentReader file entry s.layout = .ok data
  fields : ∀ batch ∈ s.memtable, batch.fields = s.schema.fields

/-- The rows of one piece of work, before any are dropped. -/
def Work.rows (env : Env τ ν) (file : M.File) (s : Snapshot τ ν) : Work τ ν → List (Row ν)
  | .batch held => held.rows
  | .segment entry => match segmentReader file entry s.layout with
      | .ok data => (data.live ((s.deletes entry.segmentId).getD ∅)).map fun row => padRow env s.schema.fields data row.1
      | .error _ => []

section Immune

variable {ζ : Type} {P : Pruner τ ν ζ} {covers : τ → ζ → ν → Prop} {contains : P.Piece → ν → Prop} {env : Env τ ν}
  {projection : Option (List Nat)} {filters : List P.Filter} {taken t t' : Table M}

/-- The steps a scan is safe over. -/
def ScanGuard.careful (P : Pruner τ ν ζ) (filters : List P.Filter) : ScanGuard M P.Predicate where
  loading t s := P.Agrees filters s.schema t.schema.schema
  opening t plan entry := plan.pages.isEmpty = true ∨ ∀ data : SegmentData ν,
    M.read t.writer.file.io.file entry.data (.segment entry.metaAt) = .ok (.segment data) →
      layoutAccepts t.schema.layout data.columns data.schemaFingerprint = true

def ScanGuard.free {φ : Type} : ScanGuard M φ := ⟨fun _ _ => True, fun _ _ _ => True⟩

/-- The rows a scan of the snapshot may hand on of one piece of work. -/
def Work.most (env : Env τ ν) (taken : Table M) (projection : Option (List Nat)) (work : Work τ ν) : Multiset (Row ν) :=
  ↑((work.rows env taken.writer.file.io.file taken.current).map (projectRow projection))

/-- The rows it has to hand on. -/
def Work.least (env : Env τ ν) (taken : Table M) (projection : Option (List Nat)) (P : Pruner τ ν ζ)
    (filters : List P.Filter) (work : Work τ ν) : Multiset (Row ν) :=
  ↑(((work.rows env taken.writer.file.io.file taken.current).filter (P.Satisfies taken.current.schema filters)).map
    (projectRow projection))

/-- A selection of pages drops no row the filters want. -/
def KeepsWanted (env : Env τ ν) (taken : Table M) (P : Pruner τ ν ζ) (filters : List P.Filter) (entry : SegmentEntry)
    (keep : Option (List Bool)) : Prop :=
  ∀ data, segmentReader taken.writer.file.io.file entry taken.current.layout = .ok data →
    keep = none ∨ 0 < P.pageRows data ∧ ∀ position row, data.rows[position]? = some row →
      pageKept (P.pageRows data) keep position = false →
        P.Satisfies taken.current.schema filters (padRow env taken.current.schema.fields data row) = false

theorem mem_live {data : SegmentData ν} {deleted : Finset Nat} {row : Row ν × Nat} (h : row ∈ data.live deleted) :
    data.rows[row.2]? = some row.1 := by
  obtain ⟨index, hindex⟩ := List.getElem?_of_mem (List.mem_of_mem_filter h)
  rw [List.getElem?_zipIdx] at hindex
  obtain ⟨x, hx, rfl⟩ := Option.map_eq_some_iff.mp hindex
  rw [Nat.zero_add]
  exact hx

/-- What a read of the pages hands on lies between the two. -/
theorem KeepsWanted.between {entry : SegmentEntry} {keep : Option (List Bool)} {data : SegmentData ν}
    (h : KeepsWanted env taken P filters entry keep)
    (hdata : segmentReader taken.writer.file.io.file entry taken.current.layout = .ok data) {rows : List (Row ν)}
    (hrows : rows = ((data.live ((taken.current.deletes entry.segmentId).getD ∅)).filter fun row =>
      pageKept (P.pageRows data) keep row.2).map
        fun row => projectRow projection (padRow env taken.current.schema.fields data row.1)) :
    (Work.segment entry).least env taken projection P filters ≤ (rows : Multiset (Row ν)) ∧
      (rows : Multiset (Row ν)) ≤ (Work.segment entry).most env taken projection := by
  have hwork : (Work.segment entry).rows env taken.writer.file.io.file taken.current =
      (data.live ((taken.current.deletes entry.segmentId).getD ∅)).map
        fun row => padRow env taken.current.schema.fields data row.1 := by
    rw [Work.rows, hdata]
  have hkept : ∀ row ∈ data.live ((taken.current.deletes entry.segmentId).getD ∅),
      P.Satisfies taken.current.schema filters (padRow env taken.current.schema.fields data row.1) = true →
      pageKept (P.pageRows data) keep row.2 = true := by
    intro row hrow hwanted
    rcases h data hdata with rfl | ⟨-, hdropped⟩
    · rfl
    · refine Bool.of_not_eq_false fun hfalse => ?_
      rw [hdropped row.2 row.1 (mem_live hrow) hfalse] at hwanted
      cases hwanted
  rw [Work.least, Work.most, hwork, hrows, List.filter_map, List.map_map, List.map_map]
  constructor
  · rw [Multiset.coe_le]
    refine List.Sublist.subperm (List.Sublist.map _ ?_)
    have hsame : (data.live ((taken.current.deletes entry.segmentId).getD ∅)).filter
        (P.Satisfies taken.current.schema filters ∘ fun row => padRow env taken.current.schema.fields data row.1) =
        ((data.live ((taken.current.deletes entry.segmentId).getD ∅)).filter fun row =>
          pageKept (P.pageRows data) keep row.2).filter
            (P.Satisfies taken.current.schema filters ∘ fun row => padRow env taken.current.schema.fields data row.1) := by
      rw [List.filter_filter]
      refine List.filter_congr fun row hrow => ?_
      rw [Bool.eq_iff_iff, Bool.and_eq_true]
      exact ⟨fun hwanted => ⟨hwanted, hkept row hrow hwanted⟩, fun hboth => hboth.1⟩
    rw [hsame]
    exact List.filter_sublist
  · rw [Multiset.coe_le]
    exact (List.filter_sublist.map _).subperm

/-- All the work there is in a snapshot. -/
def Snapshot.work (s : Snapshot τ ν) : List (Work τ ν) := s.liveSegments.map Work.segment ++ s.memtable.map Work.batch

theorem sum_coe {α β : Type} (xs : List α) (f : α → List β) :
    (xs.map fun x => (f x : Multiset β)).sum = (xs.flatMap f : List β) := by
  induction xs with
  | nil => rfl
  | cons x xs ih => rw [List.map_cons, List.sum_cons, ih, List.flatMap_cons, Multiset.coe_add]

/-- A scan of a consistent snapshot succeeds, with the rows of all its work. -/
theorem Snapshot.Consistent.scan {file : M.File} {s : Snapshot τ ν} (h : s.Consistent file) :
    ∃ all, scanTable env file s = .ok all ∧ rowsOf all = s.work.flatMap (Work.rows env file s) := by
  have hsegment : ∀ entry ∈ s.liveSegments, ∃ batches, readSegment env file s entry = .ok batches ∧
      rowsOf batches = (Work.segment entry : Work τ ν).rows env file s := by
    intro entry hentry
    obtain ⟨data, hdata⟩ := h.opens entry hentry
    cases hread : readSegment env file s entry with
    | error e =>
        rw [readSegment, readSegmentAs, hdata] at hread
        cases hread
    | ok batches =>
        obtain ⟨data', hdata', hrows⟩ := readSegmentAs_rows hread
        obtain rfl := Except.ok.inj (hdata.symm.trans hdata')
        exact ⟨batches, rfl, by rw [Work.rows, hdata, hrows]⟩
  have hall : ∀ entries : List SegmentEntry, (∀ entry ∈ entries, entry ∈ s.liveSegments) →
      ∃ found, (entries.mapM fun entry => readSegment env file s entry) = .ok found ∧
        rowsOf found.flatten = (entries.map Work.segment).flatMap (Work.rows env file s) := by
    intro entries hentries
    induction entries with
    | nil => exact ⟨[], rfl, rfl⟩
    | cons entry entries ih =>
        obtain ⟨batches, hread, hrows⟩ := hsegment entry (hentries entry List.mem_cons_self)
        obtain ⟨found, hfound, hmore⟩ := ih fun other hother => hentries other (List.mem_cons_of_mem _ hother)
        refine ⟨batches :: found, ?_, ?_⟩
        · rw [List.mapM_cons, hread, hfound]
          rfl
        · rw [List.flatten_cons, rowsOf_append, hrows, hmore, List.map_cons, List.flatMap_cons]
  obtain ⟨found, hfound, hrows⟩ := hall s.liveSegments fun _ h => h
  refine ⟨_, bind_eq_ok.mpr ⟨found, hfound, rfl⟩, ?_⟩
  rw [rowsOf_append, hrows, Snapshot.work, List.flatMap_append]
  congr 1
  rw [rowsOf, List.flatMap_assoc, List.flatMap_map]
  exact List.flatMap_congr fun batch _ => rowsOf_sliceBatches batch _

/-- Leaving out what adds nothing does not change a sum. -/
theorem sum_kept {α β : Type} {xs : List α} {keep : List Bool} {f : α → Multiset β} (hlen : keep.length = xs.length)
    (hzero : ∀ (index : Nat) (x : α), xs[index]? = some x → keep[index]? = some false → f x = 0) :
    ((((xs.zip keep).filter Prod.snd).map Prod.fst).map f).sum = (xs.map f).sum := by
  induction xs generalizing keep with
  | nil => rfl
  | cons x xs ih =>
      cases keep with
      | nil => cases hlen
      | cons slot keep =>
          have hrest := ih (Nat.succ.inj hlen) fun index y hy hfalse => hzero (index + 1) y hy hfalse
          rw [List.zip_cons_cons, List.filter_cons, List.map_cons, List.sum_cons, ← hrest]
          cases slot with
          | true => rfl
          | false =>
              rw [hzero 0 x rfl rfl, zero_add]
              rfl

theorem kept_sublist {α : Type} (xs : List α) (keep : List Bool) :
    (((xs.zip keep).filter Prod.snd).map Prod.fst).Sublist xs := by
  induction xs generalizing keep with
  | nil => exact List.Sublist.slnil
  | cons x xs ih =>
      cases keep with
      | nil => exact List.nil_sublist _
      | cons slot keep =>
          rw [List.zip_cons_cons, List.filter_cons]
          cases slot with
          | true => exact (ih keep).cons_cons x
          | false => exact (ih keep).cons x

/-- What stays true of the table while a scan holds its snapshot: what the snapshot references reads as it did. -/
structure ScanHolds (taken t : Table M) : Prop where
  housed : t.Housed
  held : taken.current ∈ t.pins
  same : ∀ e ∈ taken.current.manifest.refs, ∀ k, M.read t.writer.file.io.file e k = M.read taken.writer.file.io.file e k

theorem ScanHolds.stirs [DecidableEq τ] (h : ScanHolds taken t) (hstep : Table.Stirs env t t') (hheld : taken.current ∈ t'.pins) :
    ScanHolds taken t' :=
  ⟨hstep.housed h.housed, hheld, fun e he k => (hstep.reads h.housed (.inr h.held) he k).trans (h.same e he k)⟩

/-- A live segment of the snapshot opens as it did when the snapshot was taken. -/
theorem ScanHolds.segmentReader (h : ScanHolds taken t) {entry : SegmentEntry} (hentry : entry ∈ taken.current.liveSegments)
    (layout : List Nat) : segmentReader t.writer.file.io.file entry layout =
      LocalTables.segmentReader taken.writer.file.io.file entry layout := by
  unfold LocalTables.segmentReader
  rw [h.same entry.data (Manifest.mem_refs.mpr ⟨entry, List.mem_of_mem_filter hentry, .inl rfl⟩)]

/-- What a scan has still to do. -/
def remaining (waiting : List (Work τ ν)) (opened : List (SegmentEntry × Option (List Bool))) : List (Work τ ν) :=
  waiting ++ opened.map fun part => .segment part.1

/-- A scan under way. Nothing it has handed on or has still to do is missing, and nothing is in it twice. -/
structure Scanning (env : Env τ ν) (taken : Table M) (P : Pruner τ ν ζ) (projection : Option (List Nat))
    (filters : List P.Filter) (plan : ScanPlan τ ν P.Predicate) (waiting : List (Work τ ν))
    (opened : List (SegmentEntry × Option (List Bool))) (out : List (RecordBatch τ ν)) : Prop where
  snapshot : plan.snapshot = taken.current
  projected : plan.projection = projection
  pages : ∃ loaded columns, plan.pages = ⟨P.predicates loaded filters, columns⟩
  mine : ∀ work ∈ waiting, work ∈ taken.current.work
  wanted : ∀ part ∈ opened, part.1 ∈ taken.current.liveSegments ∧ KeepsWanted env taken P filters part.1 part.2
  least : (taken.current.work.map (Work.least env taken projection P filters)).sum ≤
    (rowsOf out : Multiset (Row ν)) + ((remaining waiting opened).map
      (Work.least env taken projection P filters)).sum
  most : (rowsOf out : Multiset (Row ν)) + ((remaining waiting opened).map
      (Work.most env taken projection)).sum ≤ (taken.current.work.map (Work.most env taken projection)).sum

/-- Where a scan over a consistent snapshot can be. It never fails. -/
def ScanStage.Right (env : Env τ ν) (taken : Table M) (P : Pruner τ ν ζ) (projection : Option (List Nat))
    (filters : List P.Filter) : ScanStage τ ν P.Predicate → Prop
  | .took s => s = taken.current
  | .loaded s schema => s = taken.current ∧ P.Agrees filters taken.current.schema schema
  | .running plan waiting opened out => Scanning env taken P projection filters plan waiting opened out
  | .failed _ => False

/-- One piece of work done: its rows go from what is left to what was handed on. -/
theorem Scanning.done {plan : ScanPlan τ ν P.Predicate} {waiting waiting' : List (Work τ ν)}
    {opened opened' : List (SegmentEntry × Option (List Bool))} {out batches : List (RecordBatch τ ν)} {work : Work τ ν}
    (h : Scanning env taken P projection filters plan waiting opened out)
    (hwaiting : ∀ other ∈ waiting', other ∈ waiting) (hopened : ∀ part ∈ opened', part ∈ opened)
    (hperm : (remaining waiting opened).Perm (work :: remaining waiting' opened'))
    (hleast : work.least env taken projection P filters ≤ (rowsOf batches : Multiset (Row ν)))
    (hmost : (rowsOf batches : Multiset (Row ν)) ≤ work.most env taken projection) :
    Scanning env taken P projection filters plan waiting' opened' (out ++ batches) := by
  refine ⟨h.snapshot, h.projected, h.pages, fun other hother => h.mine other (hwaiting other hother),
    fun part hpart => h.wanted part (hopened part hpart), ?_, ?_⟩
  · refine h.least.trans ?_
    rw [(hperm.map _).sum_eq, List.map_cons, List.sum_cons, rowsOf_append, ← Multiset.coe_add, add_assoc]
    gcongr
  · refine le_trans ?_ h.most
    rw [(hperm.map _).sum_eq, List.map_cons, List.sum_cons, rowsOf_append, ← Multiset.coe_add, add_assoc]
    gcongr

theorem RecordBatch.project_ok {batch : RecordBatch τ ν} {fields : List (Field τ)} (hfields : batch.fields = fields)
    (hprojection : ∀ indices ∈ projection, ∀ index ∈ indices, index < fields.length) :
    ∃ batch', batch.project projection = .ok batch' ∧ batch'.rows = batch.rows.map (projectRow projection) := by
  cases projection with
  | none => exact ⟨batch, rfl, (List.map_id _).symm⟩
  | some indices =>
      refine ⟨_, if_pos (List.all_eq_true.mpr fun index hindex => decide_eq_true ?_), rfl⟩
      rw [hfields]
      exact hprojection indices rfl index hindex

/-- What the snapshot's live segments hold is bounded by what is stored about it. -/
def Snapshot.Bounded (P : Pruner τ ν ζ) (covers : τ → ζ → ν → Prop) (contains : P.Piece → ν → Prop) (env : Env τ ν)
    (file : M.File) (s : Snapshot τ ν) : Prop :=
  ∀ entry ∈ s.liveSegments, ∀ data, segmentReader file entry s.layout = .ok data →
    P.Stored covers contains env s.schema data

/-- Pruning leaves out segments that have nothing to hand on, if no row of a segment that is ruled out is wanted. -/
theorem pruneSegments_unwanted (P : Pruner τ ν ζ) (projection : Option (List Nat)) (filters : List P.Filter) (loaded : Schema τ)
    (hsame : ∀ entry ∈ taken.current.liveSegments, ∀ layout, segmentReader t.writer.file.io.file entry layout =
      segmentReader taken.writer.file.io.file entry layout)
    (hdead : ∀ segments, (taken.current.liveSegments.mapM fun entry =>
        segmentReader t.writer.file.io.file entry taken.current.layout) = .ok segments →
      (P.keepSegments loaded filters segments).length = segments.length ∧
        ∀ (index : Nat) (data : SegmentData ν), (P.keepSegments loaded filters segments)[index]? = some false →
          segments[index]? = some data → ∀ row ∈ data.rows,
            P.Satisfies taken.current.schema filters (padRow env taken.current.schema.fields data row) = false) :
    ∃ keep : List Bool, keep.length = taken.current.liveSegments.length ∧
      (P.pruneSegments loaded t.writer.file.io.file taken.current filters taken.current.liveSegments).getD
        taken.current.liveSegments = ((taken.current.liveSegments.zip keep).filter Prod.snd).map Prod.fst ∧
      ∀ (index : Nat) (entry : SegmentEntry), taken.current.liveSegments[index]? = some entry → keep[index]? = some false →
        (Work.segment entry).least env taken projection P filters = 0 := by
  have hall : ∃ keep : List Bool, keep.length = taken.current.liveSegments.length ∧
      taken.current.liveSegments = ((taken.current.liveSegments.zip keep).filter Prod.snd).map Prod.fst ∧
      ∀ (index : Nat) (entry : SegmentEntry), taken.current.liveSegments[index]? = some entry → keep[index]? = some false →
        (Work.segment entry).least env taken projection P filters = 0 := by
    refine ⟨taken.current.liveSegments.map fun _ => true, List.length_map _, ?_, fun index entry hentry hfalse => ?_⟩
    · induction taken.current.liveSegments with
      | nil => rfl
      | cons entry entries ih => exact congrArg (entry :: ·) ih
    · rw [List.getElem?_map, hentry] at hfalse
      cases hfalse
  unfold Pruner.pruneSegments
  split
  · exact hall
  · split
    · exact hall
    · next segments hsegments =>
        dsimp only
        split
        · exact hall
        · have hlen : segments.length = taken.current.liveSegments.length := (mapM_ok hsegments).length_eq.symm
          obtain ⟨hkeep, hnone⟩ := hdead segments hsegments
          refine ⟨_, hkeep.trans hlen, rfl, fun index entry hentry hfalse => ?_⟩
          obtain ⟨data, hdata⟩ : ∃ data, segments[index]? = some data := by
            refine ⟨_, List.getElem?_eq_getElem ?_⟩
            rw [hlen]
            exact (List.getElem?_eq_some_iff.mp hentry).1
          obtain ⟨entry', hentry', hread⟩ := (mapM_getElem? hsegments).mp hdata
          obtain rfl := Option.some.inj (hentry.symm.trans hentry')
          rw [hsame entry (List.mem_of_getElem? hentry)] at hread
          have hempty : ((Work.segment entry).rows env taken.writer.file.io.file taken.current).filter
              (P.Satisfies taken.current.schema filters) = [] := by
            rw [Work.rows, hread, List.filter_eq_nil_iff]
            rintro row hrow
            obtain ⟨live, hlive, rfl⟩ := List.mem_map.mp hrow
            rw [hnone index data hfalse hdata live.1 (List.mem_of_getElem? (mem_live hlive))]
            exact Bool.false_ne_true
          rw [Work.least, hempty]
          rfl

/-- Pruning leaves out segments that have nothing to hand on. -/
theorem pruneSegments_kept (projection : Option (List Nat)) (hsound : P.Sound covers contains) (hholds : ScanHolds taken t)
    (hbounded : taken.current.Bounded P covers contains env taken.writer.file.io.file) {loaded : Schema τ}
    (hagrees : P.Agrees filters taken.current.schema loaded) :
    ∃ keep : List Bool, keep.length = taken.current.liveSegments.length ∧
      (P.pruneSegments loaded t.writer.file.io.file taken.current filters taken.current.liveSegments).getD
        taken.current.liveSegments = ((taken.current.liveSegments.zip keep).filter Prod.snd).map Prod.fst ∧
      ∀ (index : Nat) (entry : SegmentEntry), taken.current.liveSegments[index]? = some entry → keep[index]? = some false →
        (Work.segment entry).least env taken projection P filters = 0 := by
  refine pruneSegments_unwanted P projection filters loaded (fun entry hentry layout => hholds.segmentReader hentry layout)
    fun segments hsegments => hsound.keepSegments hagrees fun data hdata => ?_
  obtain ⟨index, hindex⟩ := List.getElem?_of_mem hdata
  obtain ⟨entry, hentry, hread⟩ := (mapM_getElem? hsegments).mp hindex
  rw [hholds.segmentReader (List.mem_of_getElem? hentry)] at hread
  exact hbounded entry (List.mem_of_getElem? hentry) data hread

/-- The plan covers all there is in the snapshot that the filters want. -/
theorem planScan_scanning (hsound : P.Sound covers contains) (hholds : ScanHolds taken t)
    (hbounded : taken.current.Bounded P covers contains env taken.writer.file.io.file) {loaded : Schema τ}
    (hagrees : P.Agrees filters taken.current.schema loaded) {plan : ScanPlan τ ν P.Predicate}
    (h : planScan P t.writer.file.io.file taken.current loaded projection filters = .ok plan) :
    Scanning env taken P projection filters plan plan.work [] [] := by
  obtain ⟨keep, hlen, hkept, hzero⟩ := pruneSegments_kept projection hsound hholds hbounded hagrees
  unfold planScan at h
  dsimp only at h
  split at h
  case isFalse => cases h
  rw [hkept] at h
  rw [← Except.ok.inj h]
  have hsub := kept_sublist taken.current.liveSegments keep
  refine ⟨rfl, rfl, ⟨_, _, rfl⟩, fun work hwork => ?_, fun _ hpart => (nomatch hpart), ?_, ?_⟩
  · rcases List.mem_append.mp hwork with hwork | hwork
    · obtain ⟨entry, hentry, rfl⟩ := List.mem_map.mp hwork
      exact List.mem_append_left _ (List.mem_map_of_mem (hsub.subset hentry))
    · exact List.mem_append_right _ hwork
  · have hsum := sum_kept hlen hzero
    rw [← Function.comp_def, ← List.map_map, ← List.map_map] at hsum
    refine le_of_eq ?_
    rw [remaining, List.map_nil, List.append_nil, Snapshot.work, List.map_append, List.map_append, List.sum_append,
      List.sum_append, hsum]
    exact (zero_add _).symm
  · rw [remaining, List.map_nil, List.append_nil, Snapshot.work, List.map_append, List.map_append, List.sum_append,
      List.sum_append, show ((rowsOf ([] : List (RecordBatch τ ν)) : List (Row ν)) : Multiset (Row ν)) = 0 from rfl, zero_add]
    refine add_le_add_left ?_ _
    exact ((hsub.map _).map _).sum_le_sum fun _ _ => Multiset.zero_le _

theorem Scanning.batch_done {plan : ScanPlan τ ν P.Predicate} {batch : RecordBatch τ ν} {waiting : List (Work τ ν)}
    {opened : List (SegmentEntry × Option (List Bool))} {out : List (RecordBatch τ ν)}
    (h : Scanning env taken P projection filters plan (.batch batch :: waiting) opened out)
    (hconsistent : taken.current.Consistent taken.writer.file.io.file)
    (hprojection : ∀ indices ∈ projection, ∀ index ∈ indices, index < taken.current.schema.fields.length) :
    ∃ batch', batch.project plan.projection = .ok batch' ∧
      Scanning env taken P projection filters plan waiting opened (out ++ [batch']) := by
  have hbatch : batch ∈ taken.current.memtable := by
    rcases List.mem_append.mp (h.mine _ List.mem_cons_self) with hmem | hmem
    · obtain ⟨entry, -, heq⟩ := List.mem_map.mp hmem
      cases heq
    · obtain ⟨batch', hbatch', heq⟩ := List.mem_map.mp hmem
      cases heq
      exact hbatch'
  obtain ⟨batch', hproject, hrows⟩ := RecordBatch.project_ok (hconsistent.fields batch hbatch) hprojection
  refine ⟨batch', by rw [h.projected]; exact hproject, ?_⟩
  have hout : rowsOf [batch'] = batch.rows.map (projectRow projection) := by
    rw [← hrows]
    exact List.append_nil _
  refine h.done (fun other hother => List.mem_cons_of_mem _ hother) (fun _ hpart => hpart) (.refl _) ?_ (le_of_eq ?_)
  · rw [hout, Work.least, Multiset.coe_le]
    exact (List.filter_sublist.map _).subperm
  · rw [hout]
    rfl

theorem Scanning.mem_live {plan : ScanPlan τ ν P.Predicate} {entry : SegmentEntry} {waiting : List (Work τ ν)}
    {opened : List (SegmentEntry × Option (List Bool))} {out : List (RecordBatch τ ν)}
    (h : Scanning env taken P projection filters plan (.segment entry :: waiting) opened out) :
    entry ∈ taken.current.liveSegments := by
  rcases List.mem_append.mp (h.mine _ List.mem_cons_self) with hmem | hmem
  · obtain ⟨entry', hentry', heq⟩ := List.mem_map.mp hmem
    cases heq
    exact hentry'
  · obtain ⟨batch, -, heq⟩ := List.mem_map.mp hmem
    cases heq

/-- Which pages to read is decided, and none with a wanted row is left out. -/
theorem Scanning.opens {plan : ScanPlan τ ν P.Predicate} {entry : SegmentEntry} {waiting : List (Work τ ν)}
    {opened : List (SegmentEntry × Option (List Bool))} {out : List (RecordBatch τ ν)}
    (h : Scanning env taken P projection filters plan (.segment entry :: waiting) opened out)
    (hsound : P.Sound covers contains) (hholds : ScanHolds taken t)
    (hconsistent : taken.current.Consistent taken.writer.file.io.file)
    (hbounded : taken.current.Bounded P covers contains env taken.writer.file.io.file)
    (hopening : (ScanGuard.careful P filters).opening t plan entry) :
    ∃ keep, keepPagesOf P plan t entry = .ok keep ∧
      Scanning env taken P projection filters plan waiting (opened ++ [(entry, keep)]) out := by
  have hlive := h.mem_live
  have hgo : ∀ {keep : Option (List Bool)}, KeepsWanted env taken P filters entry keep →
      Scanning env taken P projection filters plan waiting (opened ++ [(entry, keep)]) out := by
    intro keep hkeep
    have hperm : (remaining (.segment entry :: waiting) opened).Perm
        (remaining waiting (opened ++ [(entry, keep)]) : List (Work τ ν)) := by
      rw [remaining, remaining, List.map_append, ← List.append_assoc]
      exact (List.perm_append_singleton _ _).symm
    refine ⟨h.snapshot, h.projected, h.pages, fun other hother => h.mine other (List.mem_cons_of_mem _ hother), ?_, ?_, ?_⟩
    · intro part hpart
      rcases List.mem_append.mp hpart with hpart | hpart
      · exact h.wanted part hpart
      · rw [List.mem_singleton.mp hpart]
        exact ⟨hlive, hkeep⟩
    · rw [← (hperm.map _).sum_eq]
      exact h.least
    · rw [← (hperm.map _).sum_eq]
      exact h.most
  unfold keepPagesOf
  by_cases hempty : plan.pages.isEmpty = true
  · rw [if_pos hempty]
    exact ⟨none, rfl, hgo fun _ _ => .inl rfl⟩
  · obtain ⟨data, hdata⟩ := hconsistent.opens entry hlive
    have hread : M.read t.writer.file.io.file entry.data (.segment entry.metaAt) = .ok (.segment data) := by
      rw [hholds.same entry.data (Manifest.mem_refs.mpr ⟨entry, List.mem_of_mem_filter hlive, .inl rfl⟩)]
      exact (segmentReader_ok hdata).1
    rw [if_neg hempty, segmentReader_eq_ok hread (hopening.resolve_left hempty data hread)]
    refine ⟨_, rfl, hgo fun data' hdata' => ?_⟩
    obtain rfl := Except.ok.inj (hdata.symm.trans hdata')
    obtain ⟨loaded, columns, hpages⟩ := h.pages
    rw [h.snapshot, hpages]
    cases hkeep : P.keepPages taken.current.schema ⟨P.predicates loaded filters, columns⟩ data with
    | none => exact .inl rfl
    | some keep => exact .inr (hsound.keepPages (hbounded entry hlive data hdata) hkeep)

/-- The pages of a segment are read through the snapshot. -/
theorem Scanning.reads {plan : ScanPlan τ ν P.Predicate} {entry : SegmentEntry} {keep : Option (List Bool)}
    {waiting : List (Work τ ν)} {front back : List (SegmentEntry × Option (List Bool))} {out : List (RecordBatch τ ν)}
    (h : Scanning env taken P projection filters plan waiting (front ++ (entry, keep) :: back) out)
    (hholds : ScanHolds taken t) (hconsistent : taken.current.Consistent taken.writer.file.io.file)
    (hprojection : ∀ indices ∈ projection, ∀ index ∈ indices, index < taken.current.schema.fields.length) :
    ∃ batches, readSegmentPages env t.writer.file.io.file P.pageRows plan.snapshot entry plan.projection keep = .ok batches ∧
      Scanning env taken P projection filters plan waiting (front ++ back) (out ++ batches) := by
  obtain ⟨hlive, hwanted⟩ := h.wanted (entry, keep) (List.mem_append_right _ List.mem_cons_self)
  obtain ⟨data, hdata⟩ := hconsistent.opens entry hlive
  have hpage : keep = none ∨ 0 < P.pageRows data := (hwanted data hdata).imp id And.left
  have hread := hholds.segmentReader hlive taken.current.layout
  rw [hdata] at hread
  obtain ⟨batches, hbatches, hrows⟩ := readSegmentPages_rows hread hpage hprojection
  rw [h.snapshot, h.projected]
  refine ⟨batches, hbatches, ?_⟩
  obtain ⟨hleast, hmost⟩ := hwanted.between hdata hrows
  refine h.done (fun _ hother => hother) (fun part hpart => ?_) ?_ hleast hmost
  · rw [List.mem_append, List.mem_cons]
    exact (List.mem_append.mp hpart).imp id .inr
  · rw [remaining, remaining, List.map_append, List.map_append, List.map_cons]
    refine (List.Perm.append_left waiting List.perm_middle).trans ?_
    exact List.perm_middle

theorem planScan_ok (P : Pruner τ ν ζ) (filters : List P.Filter) (file : M.File) {s : Snapshot τ ν} (loaded : Schema τ)
    (hprojection : ∀ indices ∈ projection, ∀ index ∈ indices, index < s.schema.fields.length) :
    ∃ plan, planScan P file s loaded projection filters = .ok plan := ⟨_, if_pos hprojection⟩

/-- One step of a scan, at a table where its snapshot is still held. -/
theorem ScanStep.right (hsound : P.Sound covers contains) (hholds : ScanHolds taken t)
    (hconsistent : taken.current.Consistent taken.writer.file.io.file)
    (hbounded : taken.current.Bounded P covers contains env taken.writer.file.io.file)
    (hprojection : ∀ indices ∈ projection, ∀ index ∈ indices, index < taken.current.schema.fields.length)
    {stage stage' : ScanStage τ ν P.Predicate} (h : stage.Right env taken P projection filters)
    (hstep : ScanStep P env (.careful P filters) projection filters t stage stage') :
    stage'.Right env taken P projection filters := by
  cases hstep with
  | load hguard =>
      obtain rfl : _ = taken.current := h
      exact ⟨rfl, hguard⟩
  | plan hplan =>
      obtain ⟨rfl, hagrees⟩ := h
      exact planScan_scanning hsound hholds hbounded hagrees hplan
  | planFails hplan =>
      obtain ⟨rfl, -⟩ := h
      obtain ⟨plan, hok⟩ := planScan_ok P filters t.writer.file.io.file _ hprojection
      rw [hok] at hplan
      cases hplan
  | batch hbatch =>
      obtain ⟨batch', hok, hright⟩ := Scanning.batch_done h hconsistent hprojection
      rw [hok] at hbatch
      rw [← Except.ok.inj hbatch]
      exact hright
  | batchFails hbatch =>
      obtain ⟨batch', hok, -⟩ := Scanning.batch_done h hconsistent hprojection
      rw [hok] at hbatch
      cases hbatch
  | «open» hguard hopen =>
      obtain ⟨keep, hok, hright⟩ := Scanning.opens h hsound hholds hconsistent hbounded hguard
      rw [hok] at hopen
      rw [← Except.ok.inj hopen]
      exact hright
  | openFails hguard hopen =>
      obtain ⟨keep, hok, -⟩ := Scanning.opens h hsound hholds hconsistent hbounded hguard
      rw [hok] at hopen
      cases hopen
  | read hread =>
      obtain ⟨batches, hok, hright⟩ := Scanning.reads h hholds hconsistent hprojection
      rw [hok] at hread
      rw [← Except.ok.inj hread]
      exact hright
  | readFails hread =>
      obtain ⟨batches, hok, -⟩ := Scanning.reads h hholds hconsistent hprojection
      rw [hok] at hread
      cases hread

/-- Whatever comes between its steps, a scan stays right. -/
theorem ScanRun.right [DecidableEq τ] (htaken : taken.Housed) (hsound : P.Sound covers contains)
    (hconsistent : taken.current.Consistent taken.writer.file.io.file)
    (hbounded : taken.current.Bounded P covers contains env taken.writer.file.io.file)
    (hprojection : ∀ indices ∈ projection, ∀ index ∈ indices, index < taken.current.schema.fields.length)
    {stage : ScanStage τ ν P.Predicate} (hrun : ScanRun P env (.careful P filters) projection filters taken t stage) :
    ScanHolds taken t ∧ stage.Right env taken P projection filters := by
  induction hrun with
  | start => exact ⟨⟨htaken.pin, List.mem_cons_self, fun _ _ _ => rfl⟩, rfl⟩
  | step _ hstep ih => exact ⟨ih.1, hstep.right hsound ih.1 hconsistent hbounded hprojection ih.2⟩
  | other _ hstep hheld ih => exact ⟨ih.1.stirs hstep hheld, ih.2⟩

/-- A whole schema change of another caller comes between two steps of a scan. -/
theorem ScanRun.setSchema [DecidableEq τ] {guard : ScanGuard M P.Predicate} {stage : ScanStage τ ν P.Predicate}
    (hrun : ScanRun P env guard projection filters taken t stage) (hhoused : t.Housed) (hheld : taken.current ∈ t.pins)
    {schema : Schema τ} {rewrite : Bool} (h : t.setSchema env schema rewrite = .ok t') :
    ScanRun P env guard projection filters taken t' stage := by
  obtain ⟨t₁, t₂, hflush, hset, rfl, hpins, hpins'⟩ := hhoused.setSchema h
  have hheld₁ : taken.current ∈ t₁.pins := hpins ▸ hheld
  have hheld₂ : taken.current ∈ (t₂.unpin 0).pins := by
    show taken.current ∈ t₂.pins.eraseIdx 0
    rw [hpins']
    exact hheld₁
  have hpinned : ScanRun P env guard projection filters taken t₁.pin stage :=
    .other (.other hrun hflush hheld₁) (.locked (.pin t₁)) (List.mem_cons_of_mem _ hheld₁)
  refine .other (.other hpinned hset ?_) (.locked (.unpin t₂ 0)) hheld₂
  rw [hpins']
  exact List.mem_cons_of_mem _ hheld₁

/-- How many steps a scan has still to take, at most. -/
def ScanStage.left {φ : Type} : ScanStage τ ν φ → Nat
  | .took s => 2 + 2 * s.work.length
  | .loaded s _ => 1 + 2 * s.work.length
  | .running _ waiting opened _ => 2 * waiting.length + opened.length
  | .failed _ => 0

/-- Whether a guard lets a scan take its next step. -/
def ScanGuard.allows {φ : Type} (guard : ScanGuard M φ) (t : Table M) : ScanStage τ ν φ → Prop
  | .took s => guard.loading t s
  | .running plan (.segment entry :: _) _ _ => guard.opening t plan entry
  | _ => True

theorem pruneSegments_sublist (P : Pruner τ ν ζ) (loaded : Schema τ) (file : M.File) (s : Snapshot τ ν)
    (filters : List P.Filter) (candidates : List SegmentEntry) :
    ((P.pruneSegments loaded file s filters candidates).getD candidates).Sublist candidates := by
  unfold Pruner.pruneSegments
  split
  · exact .refl _
  · split
    · exact .refl _
    · dsimp only
      split
      · exact .refl _
      · exact kept_sublist _ _

theorem planScan_work {file : M.File} {s : Snapshot τ ν} {loaded : Schema τ} {plan : ScanPlan τ ν P.Predicate}
    (h : planScan P file s loaded projection filters = .ok plan) : plan.work.length ≤ s.work.length := by
  unfold planScan at h
  dsimp only at h
  split at h
  · rw [← Except.ok.inj h, Snapshot.work, List.length_append, List.length_append, List.length_map, List.length_map,
      List.length_map]
    exact Nat.add_le_add_right (pruneSegments_sublist P loaded file s filters _).length_le _
  · cases h

/-- A scan that is not done goes on, and has less to do. -/
theorem ScanStage.Right.progress (hsound : P.Sound covers contains) (hholds : ScanHolds taken t)
    (hconsistent : taken.current.Consistent taken.writer.file.io.file)
    (hbounded : taken.current.Bounded P covers contains env taken.writer.file.io.file)
    (hprojection : ∀ indices ∈ projection, ∀ index ∈ indices, index < taken.current.schema.fields.length)
    {stage : ScanStage τ ν P.Predicate} (h : stage.Right env taken P projection filters)
    (hallows : (ScanGuard.careful P filters).allows t stage) :
    (∃ plan out, stage = .running plan [] [] out) ∨
      ∃ stage', ScanStep P env (.careful P filters) projection filters t stage stage' ∧ stage'.left < stage.left := by
  match stage with
  | .took s => exact .inr ⟨_, .load hallows, by simp only [left]; omega⟩
  | .loaded s schema =>
      obtain ⟨rfl, -⟩ := h
      obtain ⟨plan, hplan⟩ := planScan_ok P filters t.writer.file.io.file schema hprojection
      refine .inr ⟨_, .plan hplan, ?_⟩
      have := planScan_work hplan
      simp only [left, List.length_nil]
      omega
  | .failed error => exact h.elim
  | .running plan [] [] out => exact .inl ⟨plan, out, rfl⟩
  | .running plan [] ((entry, keep) :: opened) out =>
      have h : Scanning env taken P projection filters plan [] ([] ++ (entry, keep) :: opened) out := h
      obtain ⟨batches, hread, -⟩ := h.reads hholds hconsistent hprojection
      have hstep : ScanStep P env (.careful P filters) projection filters t
        (.running plan [] ([] ++ (entry, keep) :: opened) out) (.running plan [] ([] ++ opened) (out ++ batches)) := .read hread
      refine .inr ⟨_, hstep, ?_⟩
      simp only [left, List.nil_append, List.length_cons]
      omega
  | .running plan (.batch batch :: waiting) opened out =>
      obtain ⟨batch', hbatch, -⟩ := Scanning.batch_done h hconsistent hprojection
      refine .inr ⟨_, .batch hbatch, ?_⟩
      simp only [left, List.length_cons]
      omega
  | .running plan (.segment entry :: waiting) opened out =>
      obtain ⟨keep, hkeep, -⟩ := Scanning.opens h hsound hholds hconsistent hbounded hallows
      refine .inr ⟨_, .open hallows hkeep, ?_⟩
      simp only [left, List.length_cons, List.length_append, List.length_nil]
      omega

/-- A scan that reads the schema only while the filters' columns are where its snapshot has them, and prunes pages only
of segments that the layout in force accepts, never fails over a snapshot that reads through itself; it goes on until it
is done, and then has handed on every row of the snapshot that satisfies the filters, and no row that is not in it. -/
theorem scan_immune [DecidableEq τ] (hsound : P.Sound covers contains) (htaken : Table.Stirred env taken)
    (hconsistent : taken.current.Consistent taken.writer.file.io.file)
    (hbounded : taken.current.Bounded P covers contains env taken.writer.file.io.file)
    (hprojection : ∀ indices ∈ projection, ∀ index ∈ indices, index < taken.current.schema.fields.length)
    {stage : ScanStage τ ν P.Predicate} (hrun : ScanRun P env (.careful P filters) projection filters taken t stage) :
    (∀ error, stage ≠ .failed error) ∧
      ((ScanGuard.careful P filters).allows t stage → (∃ plan out, stage = .running plan [] [] out) ∨
        ∃ stage', ScanStep P env (.careful P filters) projection filters t stage stage' ∧ stage'.left < stage.left) ∧
      ∃ all, scanTable env taken.writer.file.io.file taken.current = .ok all ∧
        ∀ plan out, stage = .running plan [] [] out →
          (((rowsOf all).filter (P.Satisfies taken.current.schema filters)).map (projectRow projection) :
            Multiset (Row ν)) ≤ (rowsOf out : Multiset (Row ν)) ∧
          (rowsOf out : Multiset (Row ν)) ≤ ((rowsOf all).map (projectRow projection) : Multiset (Row ν)) := by
  obtain ⟨hholds, hright⟩ := hrun.right htaken.housed hsound hconsistent hbounded hprojection
  refine ⟨fun error heq => ?_, fun hallows => hright.progress hsound hholds hconsistent hbounded hprojection hallows, ?_⟩
  · rw [heq] at hright
    exact hright
  · obtain ⟨all, hall, hrows⟩ := hconsistent.scan
    refine ⟨all, hall, fun plan out heq => ?_⟩
    rw [heq] at hright
    obtain ⟨hleast, hmost⟩ : _ ∧ _ := ⟨hright.least, hright.most⟩
    unfold Work.least at hleast
    unfold Work.most at hmost
    rw [sum_coe, sum_coe] at hleast hmost
    rw [hrows]
    constructor
    · simpa [remaining, List.filter_flatMap, List.map_flatMap] using hleast
    · simpa [remaining, List.map_flatMap] using hmost

end Immune

section Bounds

/-- The least and the greatest of some values. -/
def bounds (values : List Nat) : Option (Nat × Nat) := do
  let low ← values.min?
  let high ← values.max?
  return (low, high)

/-- Filters `column = value`, tested against the least and the greatest value of a column, with pages of one row. -/
def equalityPruner : Pruner Unit Nat (Nat × Nat) where
  Filter := String × Nat
  Predicate := String × Nat
  Piece := Empty
  columnRefs filter := [filter.1]
  satisfied filter look := look filter.1 == some filter.2
  build schema filter := (schema.indexOf filter.1).map fun _ => filter
  prune predicate containers := .ok (containers.map fun container =>
    match container.zone predicate.1 with
    | some (_, low, high) => decide (low ≤ predicate.2 ∧ predicate.2 ≤ high)
    | none => true)
  substrings _ := []
  zone data index := if index < data.columns then bounds (data.rows.filterMap fun row => row[index]?) else none
  mayContain _ _ _ := true
  pageRows _ := 1
  pageZones data index :=
    if index < data.columns then some (data.rows.map fun row => ((row[index]?).getD 0, (row[index]?).getD 0)) else none

/-- A value lies between two others. -/
def within (_ : Unit) (zone : Nat × Nat) (value : Nat) : Prop := zone.1 ≤ value ∧ value ≤ zone.2

theorem bounds_within {values : List Nat} {zone : Nat × Nat} (h : bounds values = some zone) {value : Nat}
    (hvalue : value ∈ values) : within () zone value := by
  obtain ⟨low, hlow, h⟩ := Option.bind_eq_some_iff.mp h
  obtain ⟨high, hhigh, h⟩ := Option.bind_eq_some_iff.mp h
  rw [← Option.some.inj h]
  exact ⟨(List.min?_eq_some_iff.mp hlow).2 value hvalue, (List.max?_eq_some_iff.mp hhigh).2 value hvalue⟩

theorem equalityPruner_sound : equalityPruner.Sound within (fun piece _ => piece.elim) where
  prune := by
    intro schema filter predicate hbuild containers verdicts hprune index container hcontainer hverdict look hcovers
    obtain ⟨_, -, rfl⟩ := Option.map_eq_some_iff.mp hbuild
    rw [← Except.ok.inj hprune, List.getElem?_map, hcontainer, Option.map_some, Option.some.injEq] at hverdict
    refine beq_eq_false_iff_ne.mpr fun hlook => ?_
    split at hverdict
    · next low high hzone =>
        exact of_decide_eq_false hverdict (hcovers _ List.mem_cons_self _ _ hzone _ hlook)
    · cases hverdict
  substrings h := by cases h

/-- A cell of a segment, as a reader of a longer schema sees it. -/
theorem padRow_getElem {env : Env Unit Nat} {fields : List (Field Unit)} {data : SegmentData Nat} {row : Row Nat}
    (hrow : row.length = data.columns) {index : Nat} (hindex : index < data.columns) :
    (padRow env fields data row)[index]? = row[index]? :=
  List.getElem?_append_left (hrow ▸ hindex)

theorem equalityPruner_stored {env : Env Unit Nat} {schema : Schema Unit} {data : SegmentData Nat}
    (hcolumns : data.columns ≤ schema.fields.length) (hrows : ∀ row ∈ data.rows, row.length = data.columns) :
    equalityPruner.Stored within (fun piece _ => piece.elim) env schema data where
  zone := by
    intro index zone hzone
    obtain ⟨hindex, hzone⟩ := Option.ite_none_right_eq_some.mp hzone
    refine ⟨by omega, fun field _ row hrow value hvalue => bounds_within hzone ?_⟩
    rw [padRow_getElem (hrows row hrow) hindex] at hvalue
    exact List.mem_filterMap.mpr ⟨row, hrow, hvalue⟩
  mayContain h := by cases h
  page := by
    intro index zones hzones page zone hzone field _ position row hrow hpage value hvalue
    obtain ⟨hindex, hzones⟩ := Option.ite_none_right_eq_some.mp hzones
    rw [padRow_getElem (hrows row (List.mem_of_getElem? hrow)) hindex] at hvalue
    have hpage : position = page := by
      rw [← hpage]
      exact (Nat.div_one position).symm
    rw [← Option.some.inj hzones, List.getElem?_map, ← hpage, hrow, Option.map_some, Option.some.injEq, hvalue] at hzone
    rw [← hzone]
    exact ⟨le_rfl, le_rfl⟩

end Bounds

section Dropped

def pairSchema : Schema Unit := ⟨[⟨"a", (), true⟩, ⟨"b", (), true⟩], []⟩

def scanEnv : Env Unit Nat := plainEnv plainOptions [.insert 1 0 ⟨[(), ()], [[1, 2], [3, 4]]⟩]

/-- A table with two rows in one segment. -/
def flushedPairs : Except Error PlainTable := do
  let t₀ ← Table.create scanEnv (Journal plainSizes) pairSchema (fun _ => 0) (fun _ => []) none
  let (_, t₁) ← t₀.insertLocked scanEnv [⟨pairSchema.fields, [[1, 2], [3, 4]]⟩]
  let (_, t) ← t₁.flushLocked scanEnv
  return t

theorem flushedPairs_stirred {t : PlainTable} (h : flushedPairs = .ok t) : Table.Stirred scanEnv t := by
  obtain ⟨t₀, hcreate, h⟩ := bind_eq_ok.mp h
  obtain ⟨⟨_, t₁⟩, hinsert, h⟩ := bind_eq_ok.mp h
  obtain ⟨⟨_, t₂⟩, hflush, h⟩ := bind_eq_ok.mp h
  obtain rfl := Except.ok.inj h
  exact .step (.step (.create _ _ _ hcreate) (.locked (.insert _ hinsert))) (.locked (.flush hflush))

/-- Every segment opens, and its rows are as wide as it says. -/
def rowsFit (t : PlainTable) : Bool :=
  t.current.memtable.isEmpty && t.current.liveSegments.all fun entry =>
    match segmentReader t.writer.file.io.file entry t.current.layout with
    | .ok data => decide (data.columns ≤ t.current.schema.fields.length ∧ ∀ row ∈ data.rows, row.length = data.columns)
    | .error _ => false

theorem rowsFit_consistent {t : PlainTable} (h : rowsFit t = true) : t.current.Consistent t.writer.file.io.file ∧
    t.current.Bounded equalityPruner within (fun piece _ => piece.elim) scanEnv t.writer.file.io.file := by
  rw [rowsFit, Bool.and_eq_true, List.isEmpty_iff, List.all_eq_true] at h
  refine ⟨⟨fun entry hentry => ?_, fun batch hbatch => ?_⟩, fun entry hentry data hdata => ?_⟩
  · have hfit := h.2 entry hentry
    split at hfit
    · next data hdata => exact ⟨data, hdata⟩
    · cases hfit
  · rw [h.1] at hbatch
    cases hbatch
  · have hfit := h.2 entry hentry
    rw [hdata] at hfit
    obtain ⟨hcolumns, hrows⟩ := of_decide_eq_true hfit
    exact equalityPruner_stored hcolumns hrows

def firstSegment (t : PlainTable) : Except Error SegmentEntry :=
  match t.current.liveSegments with
  | entry :: _ => .ok entry
  | [] => .error wrongTag

/-- A scan for the rows where `b` is two, planned once another caller has changed the schema. -/
def scanAfter (schema : Schema Unit) (rewrite : Bool) : Except Error (PlainTable × PlainTable ×
    ScanPlan Unit Nat (String × Nat) × SegmentEntry × Option (List Bool) × List (RecordBatch Unit Nat)) := do
  let taken ← flushedPairs
  let t ← taken.pin.setSchema scanEnv schema rewrite
  let plan ← planScan equalityPruner t.writer.file.io.file taken.current t.schema.schema none [("b", 2)]
  let entry ← firstSegment taken
  let keep ← keepPagesOf equalityPruner plan t entry
  let batches ← readSegmentPages scanEnv t.writer.file.io.file equalityPruner.pageRows plan.snapshot entry plan.projection keep
  return (taken, t, plan, entry, keep, batches)

/-- The schema with a third column. -/
def tripleSchema : Schema Unit := ⟨pairSchema.fields ++ [⟨"c", (), true⟩], []⟩

theorem keepPagesOf_careful {plan : ScanPlan Unit Nat (String × Nat)} {t : PlainTable} {entry : SegmentEntry}
    {keep : Option (List Bool)} (h : keepPagesOf equalityPruner plan t entry = .ok keep) (filters : List (String × Nat)) :
    (ScanGuard.careful equalityPruner filters).opening t plan entry := by
  unfold keepPagesOf at h
  split at h
  · next hempty => exact .inl hempty
  · obtain ⟨data, hdata, -⟩ := bind_eq_ok.mp h
    obtain ⟨hread, haccepts⟩ := segmentReader_ok hdata
    refine .inr fun data' hread' => ?_
    rw [hread] at hread'
    rw [← Blob.segment.inj (Except.ok.inj hread')]
    exact haccepts

/-- A column is added once the scan has its snapshot. The scan hands on one of the two rows. -/
theorem scan_beside_added_column : ∃ (taken t : PlainTable) (plan : ScanPlan Unit Nat (String × Nat))
    (out all : List (RecordBatch Unit Nat)), t.schema.schema = tripleSchema ∧ rowsOf out = [[1, 2]] ∧
      scanTable scanEnv taken.writer.file.io.file taken.current = .ok all ∧
      ScanRun equalityPruner scanEnv (.careful equalityPruner [("b", 2)]) none [("b", 2)] taken t (.running plan [] [] out) ∧
      (((rowsOf all).filter (equalityPruner.Satisfies taken.current.schema [("b", 2)])).map (projectRow none) :
        Multiset (Row Nat)) ≤ (rowsOf out : Multiset (Row Nat)) ∧
      (rowsOf out : Multiset (Row Nat)) ≤ ((rowsOf all).map (projectRow none) : Multiset (Row Nat)) := by
  have hcheck : (match scanAfter tripleSchema false with
      | .ok (taken, t, plan, entry, _, batches) => rowsFit taken && decide (taken.current.schema = pairSchema ∧
          t.schema.schema = tripleSchema ∧ plan.work = [.segment entry] ∧ rowsOf batches = [[1, 2]])
      | .error _ => false) = true := by decide +kernel
  cases hrun : scanAfter tripleSchema false with
  | error e => rw [hrun] at hcheck; cases hcheck
  | ok result =>
      obtain ⟨taken, t, plan, entry, keep, batches⟩ := result
      rw [hrun] at hcheck
      obtain ⟨hfit, hcheck⟩ := Bool.and_eq_true_iff.mp hcheck
      obtain ⟨hown, hloaded, hwork, hrows⟩ := of_decide_eq_true hcheck
      obtain ⟨taken', htaken, hrun⟩ := bind_eq_ok.mp hrun
      obtain ⟨t', hchange, hrun⟩ := bind_eq_ok.mp hrun
      obtain ⟨plan', hplan, hrun⟩ := bind_eq_ok.mp hrun
      obtain ⟨entry', -, hrun⟩ := bind_eq_ok.mp hrun
      obtain ⟨keep', hkeep, hrun⟩ := bind_eq_ok.mp hrun
      obtain ⟨batches', hread, hrun⟩ := bind_eq_ok.mp hrun
      simp only [pure, Except.pure, Except.ok.injEq, Prod.mk.injEq] at hrun
      obtain ⟨rfl, rfl, rfl, rfl, rfl, rfl⟩ := hrun
      have hstirred := flushedPairs_stirred htaken
      have hagrees : equalityPruner.Agrees [("b", 2)] taken'.current.schema t'.schema.schema := by
        intro filter hfilter name hname index hindex
        obtain rfl := List.mem_singleton.mp hfilter
        obtain rfl := List.mem_singleton.mp hname
        rw [hloaded, show tripleSchema.indexOf "b" = some 1 by decide, Option.some.injEq] at hindex
        rw [hown, hloaded, ← hindex]
        exact .inr ⟨by decide, by decide⟩
      have hloadedRun : ScanRun equalityPruner scanEnv (.careful equalityPruner [("b", 2)]) none [("b", 2)] taken' t'
          (.loaded taken'.current t'.schema.schema) :=
        .step (.setSchema .start hstirred.housed.pin List.mem_cons_self hchange) (.load hagrees)
      have hplanned : ScanRun equalityPruner scanEnv (.careful equalityPruner [("b", 2)]) none [("b", 2)] taken' t'
          (.running plan [.segment entry] [] []) := by
        rw [← hwork]
        exact .step hloadedRun (.plan hplan)
      have hopened : ScanRun equalityPruner scanEnv (.careful equalityPruner [("b", 2)]) none [("b", 2)] taken' t'
          (.running plan [] ([] ++ [(entry, keep)]) []) :=
        .step hplanned (.open (keepPagesOf_careful hkeep _) hkeep)
      have hdone : ScanRun equalityPruner scanEnv (.careful equalityPruner [("b", 2)]) none [("b", 2)] taken' t'
          (.running plan [] [] ([] ++ batches)) := .step hopened (.read hread)
      obtain ⟨hconsistent, hbounded⟩ := rowsFit_consistent hfit
      obtain ⟨-, -, all, hall, hbetween⟩ := scan_immune equalityPruner_sound hstirred hconsistent hbounded
        (fun indices hindices => by cases hindices) hdone
      exact ⟨taken', t', plan, batches, all, hloaded, hrows, hall, hdone, hbetween plan batches rfl⟩

/-- The schema without its first column. -/
def bSchema : Schema Unit := ⟨[⟨"b", (), true⟩], []⟩

/-- A scan for the rows where `b` is two, planned before another caller changes the schema. -/
def openAfter (schema : Schema Unit) (rewrite : Bool) : Except Error (PlainTable × PlainTable ×
    ScanPlan Unit Nat (String × Nat) × SegmentEntry) := do
  let taken ← flushedPairs
  let plan ← planScan equalityPruner taken.writer.file.io.file taken.current taken.schema.schema none [("b", 2)]
  let entry ← firstSegment taken
  let t ← taken.pin.setSchema scanEnv schema rewrite
  return (taken, t, plan, entry)

/-- The first column is dropped before the scan opens the segment. The snapshot reads through itself, its filter is on a
column both schemas have, and the scan fails. -/
theorem scan_fails_beside_dropped_column : ∃ (taken t : PlainTable) (error : Error), Table.Stirred scanEnv taken ∧
    taken.current.Consistent taken.writer.file.io.file ∧
    taken.current.Bounded equalityPruner within (fun piece _ => piece.elim) scanEnv taken.writer.file.io.file ∧
    t.schema.schema = bSchema ∧
    ScanRun equalityPruner scanEnv .free none [("b", 2)] taken t (.failed error) := by
  have hcheck : (match openAfter bSchema true with
      | .ok (taken, t, plan, entry) => rowsFit taken && decide (t.schema.schema = bSchema ∧
          plan.work = [.segment entry]) && match keepPagesOf equalityPruner plan t entry with
            | .ok _ => false
            | .error _ => true
      | .error _ => false) = true := by decide +kernel
  cases hrun : openAfter bSchema true with
  | error e => rw [hrun] at hcheck; cases hcheck
  | ok result =>
      obtain ⟨taken, t, plan, entry⟩ := result
      rw [hrun] at hcheck
      obtain ⟨hcheck, hfails⟩ := Bool.and_eq_true_iff.mp hcheck
      obtain ⟨hfit, hcheck⟩ := Bool.and_eq_true_iff.mp hcheck
      obtain ⟨hschema, hwork⟩ := of_decide_eq_true hcheck
      obtain ⟨taken', htaken, hrun⟩ := bind_eq_ok.mp hrun
      obtain ⟨plan', hplan, hrun⟩ := bind_eq_ok.mp hrun
      obtain ⟨entry', -, hrun⟩ := bind_eq_ok.mp hrun
      obtain ⟨t', hchange, hrun⟩ := bind_eq_ok.mp hrun
      simp only [pure, Except.pure, Except.ok.injEq, Prod.mk.injEq] at hrun
      obtain ⟨rfl, rfl, rfl, rfl⟩ := hrun
      have hstirred := flushedPairs_stirred htaken
      have hplanned : ScanRun equalityPruner scanEnv .free none [("b", 2)] taken' taken'.pin
          (.running plan [.segment entry] [] []) := by
        rw [← hwork]
        exact .step (.step .start (.load trivial)) (.plan hplan)
      have hchanged := hplanned.setSchema hstirred.housed.pin List.mem_cons_self hchange
      obtain ⟨hconsistent, hbounded⟩ := rowsFit_consistent hfit
      cases hkeep : keepPagesOf equalityPruner plan t' entry with
      | ok keep => rw [hkeep] at hfails; cases hfails
      | error error =>
          exact ⟨taken', t', error, hstirred, hconsistent, hbounded, hschema,
            .step hchanged (.openFails trivial hkeep)⟩

end Dropped

end LocalTables
