import LocalTables.Columnar.Trigram
import LocalTables.Columnar.Zonemap
import LocalTables.Sql.Exec
import LocalTables.Table.Tidy

/-! What the query engine is told of segments and pages, and what is dropped on its word (`pruning.rs`,
`ColumnarTableProvider::prune`, `PageFilters::keep_pages`). A null tells it nothing and costs a read; a wrong entry would
lose rows. -/

namespace LocalTables

open WorkQueue

/-- An operator: the two the scan looks through, or another one. -/
inductive Operator (ω : Type) where
  | and
  | or
  | other (op : ω)

/-- A filter. `σ` are the literals; `ω` are the operators and the expressions the scan does not look into, these with the
columns they mention. -/
inductive Expr (σ ω : Type) where
  | column (name : String)
  | literal (value : σ)
  | binaryExpr (left : Expr σ ω) (op : Operator ω) (right : Expr σ ω)
  | not (expr : Expr σ ω)
  | like (negated : Bool) (expr pattern : Expr σ ω) (escapeChar : Option Char) (caseInsensitive : Bool)
  | other (columns : List String) (expr : ω)

namespace Expr

variable {σ ω : Type}

/-- The columns an expression mentions. -/
def columnRefs : Expr σ ω → List String
  | column name => [name]
  | literal _ => []
  | binaryExpr left _ right => left.columnRefs ++ right.columnRefs
  | not expr => expr.columnRefs
  | like _ expr pattern _ _ => expr.columnRefs ++ pattern.columnRefs
  | other columns _ => columns

end Expr

/-- One array after the other. Arrays of different types cannot be joined, nor can none at all. -/
def concat {τ ν : Type} [DecidableEq τ] (arrays : List (ArrayRef τ ν)) : Option (ArrayRef τ ν) :=
  match arrays with
  | [] => none
  | first :: rest =>
      if ∀ array ∈ rest, array.dataType = first.dataType then some ⟨first.dataType, arrays.flatMap ArrayRef.values⟩ else none

/-- What pruning asks about the containers, all of them at once. -/
@[ext]
structure PruningStatistics (τ ν σ : Type) where
  minValues : String → Option (ArrayRef τ ν)
  maxValues : String → Option (ArrayRef τ ν)
  numContainers : Nat
  nullCounts : String → Option (List (Option Nat))
  rowCounts : Option (List Nat)
  contained : String → List σ → Option (List (Option Bool))

/-- What a segment stores about one of its columns. A buffer that is damaged reads as an error. -/
structure ColumnMeta (β : Type) where
  zone : ZoneMap
  bloom : Except Error (Option β)
  trigram : Except Error (Option β)
  pageZones : Except Error (Option (List ZoneMap))

/-- What a segment stores beside its rows. -/
structure SegmentMeta (β : Type) where
  columns : List (ColumnMeta β)
  /-- Rows each page of bounds covers, or zero when the segment has none. -/
  pageRows : Nat

namespace SegmentMeta

variable {β : Type} (side : SegmentMeta β) (index : Nat)

/-- A buffer of a column that is not Arrow's. A column the segment predates has none. -/
def sideBuffer {α : Type} (role : ColumnMeta β → Except Error (Option α)) : Except Error (Option α) :=
  match side.columns[index]? with
  | none => .ok none
  | some chunk => role chunk

def bloomFilter : Except Error (Option β) := side.sideBuffer index ColumnMeta.bloom

def trigramFilter : Except Error (Option β) := side.sideBuffer index ColumnMeta.trigram

def pageZones : Except Error (Option (List ZoneMap)) := side.sideBuffer index ColumnMeta.pageZones

end SegmentMeta

/-- What is stored about values, read back: a bound as a value of a type, whether a filter may hold a value, and whether it
may hold the hash of some bytes. -/
structure Codec (τ ν β : Type) where
  decodeBound : List UInt8 → τ → Option (τ × ν)
  mayContain : β → ArrayRef τ ν → τ → Bool
  mayContainHash : β → UInt64 → Bool
  checksum : List UInt8 → UInt64

/-- What a scan asks of the query engine: what expressions mean, and whether a container can be ruled out. -/
structure Engine (τ ν σ ω : Type) where
  Predicate : Type
  /-- A literal, as a value of a column. -/
  value : σ → ν
  /-- The text of a string literal. -/
  text : σ → Option String
  toArray : σ → Option (ArrayRef τ ν)
  /-- What an expression that is neither a column nor a literal comes to. -/
  scalar : Expr σ ω → (String → Option ν) → Option ν
  compare : ω → Option ν → Option ν → Option Bool
  like : Option Char → Bool → Option ν → Option ν → Option Bool
  /-- Whether an expression that is not put together from others holds. -/
  holds : Expr σ ω → (String → Option ν) → Option Bool
  build : Schema τ → Expr σ ω → Option Predicate
  prune : Predicate → PruningStatistics τ ν σ → Except Error (List Bool)

namespace Engine

variable {τ ν σ ω : Type} (E : Engine τ ν σ ω)

def evaluate (look : String → Option ν) : Expr σ ω → Option ν
  | .column name => look name
  | .literal value => some (E.value value)
  | expr => E.scalar expr look

/-- Whether an expression holds, in the logic of SQL: `none` is null. -/
def truth (look : String → Option ν) : Expr σ ω → Option Bool
  | .binaryExpr left .and right =>
      match truth look left, truth look right with
      | some false, _ => some false
      | _, some false => some false
      | some true, some true => some true
      | _, _ => none
  | .binaryExpr left .or right =>
      match truth look left, truth look right with
      | some true, _ => some true
      | _, some true => some true
      | some false, some false => some false
      | _, _ => none
  | .binaryExpr left (.other op) right => E.compare op (E.evaluate look left) (E.evaluate look right)
  | .not expr => (truth look expr).map (!·)
  | .like negated expr pattern escapeChar caseInsensitive =>
      (E.like escapeChar caseInsensitive (E.evaluate look expr) (E.evaluate look pattern)).map (· != negated)
  | expr => E.holds expr look

/-- The pieces a filter needs its columns to contain (`collect_substrings`). -/
def collectSubstrings (schema : Schema τ) : Expr σ ω → List (Nat × List Trigram)
  | .binaryExpr left .and right => collectSubstrings schema left ++ collectSubstrings schema right
  | .like false (.column name) (.literal value) none false =>
      match E.text value, schema.indexOf name with
      | some pattern, some index => if required pattern = [] then [] else [(index, required pattern)]
      | _, _ => []
  | _ => []

/-- The `LIKE` predicates a trigram filter can act on. -/
def substringRequirements (schema : Schema τ) (filters : List (Expr σ ω)) : List (Nat × List Trigram) :=
  filters.flatMap (E.collectSubstrings schema)

end Engine

namespace ZoneMap

variable {τ ν β : Type} (C : Codec τ ν β) (zone : ZoneMap)

/-- The minimum as a one-element array. -/
def minArray (dataType : τ) : Option (τ × ν) := zone.min.bind (C.decodeBound · dataType)

/-- The maximum as a one-element array. -/
def maxArray (dataType : τ) : Option (τ × ν) := zone.max.bind (C.decodeBound · dataType)

end ZoneMap

/-- One bound for each container in a single array, null where it is not known; nothing when none is known. -/
def gather {τ ν : Type} [DecidableEq τ] (dataType : τ) (bounds : List (Option (τ × ν))) : Option (ArrayRef τ ν) :=
  if bounds.all Option.isNone then none
  else concat (bounds.map fun bound =>
    match bound with
    | some (type, value) => ⟨type, [some value]⟩
    | none => ⟨dataType, [none]⟩)

/-- One segment's bounds for every column, read once when the scan is planned. -/
structure SegmentZoneMaps (β : Type) where
  columns : List ZoneMap
  blooms : List (Nat × β)
  trigrams : List (Nat × β)
  rowCount : Nat

/-- The filters of some columns, by column position. A damaged one is left out. -/
def loadFilters {β : Type} (read : Nat → Except Error (Option β)) (columns : List Nat) : List (Nat × β) :=
  columns.filterMap fun index =>
    match read index with
    | .ok (some filter) => some (index, filter)
    | _ => none

/-- The filter of a column. -/
def findFilter {β : Type} (filters : List (Nat × β)) (index : Nat) : Option β :=
  (filters.find? fun filter => filter.1 == index).map Prod.snd

namespace SegmentZoneMaps

variable {τ ν β : Type}

/-- Read the zone maps out of a segment's metadata. -/
def fromReader (side : SegmentMeta β) (rowCount : Nat) (bloomColumns trigramColumns : List Nat) : SegmentZoneMaps β where
  columns := side.columns.map ColumnMeta.zone
  blooms := loadFilters side.bloomFilter bloomColumns
  trigrams := loadFilters side.trigramFilter trigramColumns
  rowCount := rowCount

/-- Whether this segment may hold a value matching a substring predicate. -/
def mayMatch (C : Codec τ ν β) (segment : SegmentZoneMaps β) (requirement : Nat × List Trigram) : Bool :=
  match findFilter segment.trigrams requirement.1 with
  | none => true
  | some filter => requirement.2.all fun piece => C.mayContainHash filter (C.checksum piece.toList)

end SegmentZoneMaps

section Segments

variable {τ ν σ ω β : Type} [DecidableEq τ] (C : Codec τ ν β) (E : Engine τ ν σ ω) (schema : Schema τ)
  (segments : List (SegmentZoneMaps β))

/-- Position and type of a column, or `none` when the table has no such column. -/
def SegmentStatistics.column (name : String) : Option (Nat × τ) := do
  let index ← schema.indexOf name
  let field ← schema.fields[index]?
  return (index, field.dataType)

/-- Gather one bound of each segment. -/
def SegmentStatistics.bounds (pick : ZoneMap → τ → Option (τ × ν)) (name : String) : Option (ArrayRef τ ν) := do
  let (index, dataType) ← column schema name
  gather dataType (segments.map fun segment => (segment.columns[index]?).bind fun zone => pick zone dataType)

/-- Whether a segment holds none of some values, as far as its membership filter can tell. -/
def SegmentStatistics.contained (name : String) (values : List σ) : Option (List (Option Bool)) := do
  let (index, dataType) ← column schema name
  if values.isEmpty || segments.all fun segment => (findFilter segment.blooms index).isNone then none
  else do
    let probes ← values.mapM E.toArray
    let verdicts := segments.map fun segment =>
      match findFilter segment.blooms index with
      | some filter => if probes.any fun probe => C.mayContain filter probe dataType then none else some false
      | none => none
    if verdicts.all Option.isNone then none else some verdicts

/-- Bounds across the segments a scan is considering. -/
def SegmentStatistics : PruningStatistics τ ν σ where
  minValues := SegmentStatistics.bounds schema segments fun zone dataType => zone.minArray C dataType
  maxValues := SegmentStatistics.bounds schema segments fun zone dataType => zone.maxArray C dataType
  numContainers := segments.length
  nullCounts name := (SegmentStatistics.column schema name).map fun (index, _) =>
    segments.map fun segment => (segment.columns[index]?).map ZoneMap.nullCount
  rowCounts := some (segments.map SegmentZoneMaps.rowCount)
  contained := SegmentStatistics.contained C E schema segments

end Segments

section Pages

variable {τ ν σ β : Type} [DecidableEq τ] (C : Codec τ ν β) (schema : Schema τ) (columns : List (Option (List ZoneMap)))
  (rows : List Nat)

/-- The bounds of a column's pages, and its type. -/
def PageStatistics.zones (name : String) : Option (List ZoneMap × τ) := do
  let index ← schema.indexOf name
  let column ← columns[index]?
  let zones ← column
  let field ← schema.fields[index]?
  if zones.length ≠ rows.length then none else some (zones, field.dataType)

def PageStatistics.bounds (pick : ZoneMap → τ → Option (τ × ν)) (name : String) : Option (ArrayRef τ ν) := do
  let (zones, dataType) ← zones schema columns rows name
  gather dataType (zones.map fun zone => pick zone dataType)

/-- Bounds for the pages inside one segment. Membership filters are not kept by page. -/
def PageStatistics : PruningStatistics τ ν σ where
  minValues := PageStatistics.bounds schema columns rows fun zone dataType => zone.minArray C dataType
  maxValues := PageStatistics.bounds schema columns rows fun zone dataType => zone.maxArray C dataType
  numContainers := rows.length
  nullCounts name := (PageStatistics.zones schema columns rows name).map fun (zones, _) =>
    zones.map fun zone => some zone.nullCount
  rowCounts := some rows
  contained _ _ := none

end Pages

section Provider

variable {τ ν σ ω β : Type} [DecidableEq τ] {M : Media τ ν} (C : Codec τ ν β) (E : Engine τ ν σ ω)
  (stored : SegmentData ν → SegmentMeta β) (schema : Schema τ)

/-- Turn the filters into predicates that can be tested against bounds. -/
def Engine.predicates (filters : List (Expr σ ω)) : List E.Predicate := filters.filterMap (E.build schema)

/-- Positions of the columns a set of filters mentions. -/
def referencedColumns (filters : List (Expr σ ω)) : List Nat :=
  (((filters.flatMap Expr.columnRefs).filterMap schema.indexOf).insertionSort (· ≤ ·)).dedup

/-- Drop the segments the filters cannot match. `none` when nothing could be ruled out. -/
def prune (file : M.File) (s : Snapshot τ ν) (filters : List (Expr σ ω)) (candidates : List SegmentEntry) :
    Option (List SegmentEntry) :=
  if filters.isEmpty || candidates.isEmpty then none
  else
    let bloomColumns := referencedColumns schema filters
    let substrings := E.substringRequirements schema filters
    let trigramColumns := ((substrings.map Prod.fst).insertionSort (· ≤ ·)).dedup
    match candidates.mapM fun entry => segmentReader file entry s.layout with
    | .error _ => none
    | .ok readers =>
        let zoneMaps := readers.map fun data =>
          SegmentZoneMaps.fromReader (stored data) data.rows.length bloomColumns trigramColumns
        let statistics := SegmentStatistics C E schema zoneMaps
        let keep := (E.predicates schema filters).foldl (fun keep predicate =>
          match E.prune predicate statistics with
          | .error _ => keep
          | .ok verdicts => andVerdicts keep verdicts) (candidates.map fun _ => true)
        let keep := substrings.foldl (fun keep requirement =>
          andVerdicts keep (zoneMaps.map fun segment => segment.mayMatch C requirement)) keep
        if keep.all id then none else some (((candidates.zip keep).filter Prod.snd).map Prod.fst)

/-- The bounds of a column's pages, where there is one for each page. -/
def zonesOf (side : SegmentMeta β) (pages index : Nat) : Option (List ZoneMap) :=
  match side.pageZones index with
  | .ok (some zones) => if zones.length = pages then some zones else none
  | _ => none

/-- Put the predicates' verdicts on some pages together. `none` when no page was ruled out. -/
def verdictsOn {φ : Type} (verdict : φ → Except Error (List Bool)) (predicates : List φ) (pages : Nat) : Option (List Bool) :=
  let (keep, ruledOut) := predicates.foldl (fun (keep, ruledOut) predicate =>
    match verdict predicate with
    | .error _ => (keep, ruledOut)
    | .ok verdicts =>
        if verdicts.length ≠ pages then (keep, ruledOut)
        else (andVerdicts keep verdicts, ruledOut || verdicts.any not)) (List.replicate pages true, false)
  if ruledOut then some keep else none

/-- Which pages of a segment are worth handing on. `none` means all of them. -/
def PageFilters.keepPages (filters : PageFilters E.Predicate) (data : SegmentData ν) : Option (List Bool) :=
  if filters.isEmpty then none
  else
    let pageRows := (stored data).pageRows
    if pageRows = 0 then none
    else
      let rows := data.rows.length
      let pages := (rows + (pageRows - 1)) / pageRows
      let sizes := (List.range pages).map fun page => min pageRows (rows - page * pageRows)
      let columns := (List.range schema.fields.length).map fun index =>
        if index ∈ filters.columns then zonesOf (stored data) pages index else none
      if filters.columns.all fun index => (zonesOf (stored data) pages index).isNone then none
      else
        let statistics := PageStatistics C schema columns sizes
        verdictsOn (fun predicate => E.prune predicate statistics) filters.predicates pages

/-- What is reported of one column of one container. -/
structure Reported (β : Type) where
  zone : Option ZoneMap
  bloom : Option β

/-- The type a column is reported with. -/
def columnType (containers : List (Container τ (Reported β))) (name : String) : Option τ :=
  (containers.head?.bind fun container => container.zone name).map Prod.fst

def reportedBounds (containers : List (Container τ (Reported β))) (pick : ZoneMap → τ → Option (τ × ν)) (name : String) :
    Option (ArrayRef τ ν) :=
  (columnType containers name).bind fun dataType => gather dataType (containers.map fun container =>
    (container.zone name).bind fun reported => reported.2.zone.bind fun zone => pick zone dataType)

/-- What pruning is told of some containers, put together from what is reported of each. -/
def containerStatistics (containers : List (Container τ (Reported β))) : PruningStatistics τ ν σ where
  minValues := reportedBounds containers fun zone dataType => zone.minArray C dataType
  maxValues := reportedBounds containers fun zone dataType => zone.maxArray C dataType
  numContainers := containers.length
  nullCounts name := (columnType containers name).map fun _ => containers.map fun container =>
    (container.zone name).bind fun reported => reported.2.zone.map ZoneMap.nullCount
  rowCounts := some (containers.map Container.rows)
  contained name values := (columnType containers name).bind fun dataType =>
    let blooms := containers.map fun container => (container.zone name).bind fun reported => reported.2.bloom
    if values.isEmpty || blooms.all Option.isNone then none
    else (values.mapM E.toArray).bind fun probes =>
      let verdicts := blooms.map fun bloom =>
        match bloom with
        | some filter => if probes.any fun probe => C.mayContain filter probe dataType then none else some false
        | none => none
      if verdicts.all Option.isNone then none else some verdicts

/-- The pieces a filter needs its columns to contain, by the columns' names. -/
def Engine.likePieces : Expr σ ω → List (String × List Trigram)
  | .binaryExpr left .and right => likePieces left ++ likePieces right
  | .like false (.column name) (.literal value) none false =>
      match E.text value with
      | some pattern => if required pattern = [] then [] else [(name, required pattern)]
      | none => []
  | _ => []

/-- A filter that was read. -/
def readFilter (read : Except Error (Option β)) : Option β :=
  match read with
  | .ok filter => filter
  | .error _ => none

/-- What a scan with some filters asks, of segments and of pages. -/
def Engine.pruner (bloomColumns : List Nat) : Pruner τ ν (Reported β) where
  Filter := Expr σ ω
  Predicate := E.Predicate
  Piece := List Trigram
  columnRefs := Expr.columnRefs
  satisfied filter look := E.truth look filter == some true
  build := E.build
  prune predicate containers := E.prune predicate (containerStatistics C E containers)
  substrings := E.likePieces
  zone data index := some ⟨((stored data).columns[index]?).map ColumnMeta.zone,
    if index ∈ bloomColumns then readFilter ((stored data).bloomFilter index) else none⟩
  mayContain data index pieces :=
    match readFilter ((stored data).trigramFilter index) with
    | none => true
    | some filter => pieces.all fun piece => C.mayContainHash filter (C.checksum piece.toList)
  pageRows data := (stored data).pageRows
  pageZones data index :=
    match (stored data).pageZones index with
    | .ok (some zones) => some (zones.map fun zone => ⟨some zone, none⟩)
    | _ => none

end Provider

section Pieces

variable {τ ν σ ω : Type} {E : Engine τ ν σ ω} {schema : Schema τ}

theorem collectSubstrings_eq (expr : Expr σ ω) : E.collectSubstrings schema expr =
    (E.likePieces expr).filterMap fun (name, pieces) => (schema.indexOf name).map (·, pieces) := by
  fun_induction Engine.likePieces E expr with
  | case1 left right ihleft ihright => rw [Engine.collectSubstrings, ihleft, ihright, List.filterMap_append]
  | case2 name value pattern htext hnone =>
      rw [Engine.collectSubstrings, htext]
      cases schema.indexOf name with
      | none => rfl
      | some index => exact if_pos hnone
  | case3 name value pattern htext hsome =>
      rw [Engine.collectSubstrings, htext]
      cases hindex : schema.indexOf name with
      | none => simp [hindex]
      | some index => simp [hindex, hsome]
  | case4 name value htext => rw [Engine.collectSubstrings, htext]; rfl
  | case5 expr hand hlike =>
      unfold Engine.collectSubstrings
      split
      · next left right => exact absurd rfl (hand left right)
      · next name value => exact absurd rfl (hlike name value)
      · rfl

theorem exists_probe {values : List σ} {probes : List (ArrayRef τ ν)} (h : values.mapM E.toArray = some probes) {literal : σ}
    (hliteral : literal ∈ values) : ∃ probe ∈ probes, E.toArray literal = some probe := by
  induction values generalizing probes with
  | nil => cases hliteral
  | cons first rest ih =>
      rw [List.mapM_cons] at h
      obtain ⟨probe, hprobe, h⟩ := Option.bind_eq_some_iff.mp h
      obtain ⟨others, hothers, h⟩ := Option.bind_eq_some_iff.mp h
      obtain rfl := Option.some.inj h
      rcases List.mem_cons.mp hliteral with rfl | hliteral
      · exact ⟨probe, List.mem_cons_self, hprobe⟩
      · obtain ⟨found, hfound, heq⟩ := ih hothers hliteral
        exact ⟨found, List.mem_cons_of_mem _ hfound, heq⟩

end Pieces

section Same

variable {τ ν σ ω β : Type} [DecidableEq τ] {M : Media τ ν} {C : Codec τ ν β} {E : Engine τ ν σ ω}
  {stored : SegmentData ν → SegmentMeta β} {schema : Schema τ} {filters : List (Expr σ ω)} {bloomColumns : List Nat}

theorem readFilter_eq_some {read : Except Error (Option β)} {filter : β} (h : readFilter read = some filter) :
    read = .ok (some filter) := by
  cases read with
  | error e => cases h
  | ok found => exact congrArg Except.ok h

theorem findFilter_loadFilters (read : Nat → Except Error (Option β)) (columns : List Nat) (index : Nat) :
    findFilter (loadFilters read columns) index = if index ∈ columns then readFilter (read index) else none := by
  induction columns with
  | nil => rfl
  | cons column columns ih =>
      have hrest : findFilter (loadFilters read (column :: columns)) index =
          if column = index then (readFilter (read column)).or (findFilter (loadFilters read columns) index)
          else findFilter (loadFilters read columns) index := by
        unfold loadFilters findFilter
        rw [List.filterMap_cons]
        cases hread : read column with
        | error e => simp [readFilter]
        | ok filter =>
            cases filter with
            | none => simp [readFilter]
            | some filter =>
                by_cases heq : column = index
                · simp [readFilter, heq]
                · simp [heq]
      rw [hrest, ih]
      by_cases heq : column = index
      · rw [if_pos heq, heq, if_pos List.mem_cons_self]
        cases readFilter (read index) with
        | none => simp
        | some filter => rfl
      · rw [if_neg heq]
        simp [Ne.symm heq]

theorem zone_pruner (data : SegmentData ν) (name : String) :
    ((E.pruner C stored bloomColumns).segmentContainer schema data).zone name =
      (SegmentStatistics.column schema name).map fun column =>
        (column.2, ⟨((stored data).columns[column.1]?).map ColumnMeta.zone,
          if column.1 ∈ bloomColumns then readFilter ((stored data).bloomFilter column.1) else none⟩) := by
  unfold SegmentStatistics.column Pruner.segmentContainer
  dsimp only [Engine.pruner]
  cases schema.indexOf name with
  | none => rfl
  | some index =>
      change (schema.fields[index]?).bind _ = Option.map _ ((schema.fields[index]?).bind _)
      cases schema.fields[index]? with
      | none => rfl
      | some field => rfl

/-- Some segments as containers. -/
abbrev segmentContainers (C : Codec τ ν β) (E : Engine τ ν σ ω) (stored : SegmentData ν → SegmentMeta β) (schema : Schema τ)
    (bloomColumns : List Nat) (segments : List (SegmentData ν)) : List (Container τ (Reported β)) :=
  segments.map ((E.pruner C stored bloomColumns).segmentContainer schema)

/-- What is read of some segments when a scan is planned. -/
abbrev zoneMapsOf (stored : SegmentData ν → SegmentMeta β) (bloomColumns trigramColumns : List Nat)
    (segments : List (SegmentData ν)) : List (SegmentZoneMaps β) :=
  segments.map fun data => SegmentZoneMaps.fromReader (stored data) data.rows.length bloomColumns trigramColumns

variable {segments : List (SegmentData ν)}

theorem columnType_segments (hsome : segments ≠ []) (name : String) :
    columnType (segmentContainers C E stored schema bloomColumns segments) name =
      (SegmentStatistics.column schema name).map Prod.snd := by
  obtain ⟨first, rest, rfl⟩ := List.exists_cons_of_ne_nil hsome
  unfold columnType
  rw [segmentContainers, List.map_cons, List.head?_cons, Option.bind_some, zone_pruner, Option.map_map]
  rfl

theorem map_segmentContainers {γ : Type} {name : String} {column : Nat × τ} (f : ZoneMap → Option γ) (trigramColumns : List Nat)
    (hcolumn : SegmentStatistics.column schema name = some column) :
    ((segmentContainers C E stored schema bloomColumns segments).map fun container =>
      (container.zone name).bind fun reported => reported.2.zone.bind f) =
      (zoneMapsOf stored bloomColumns trigramColumns segments).map fun segment => (segment.columns[column.1]?).bind f := by
  rw [List.map_map, List.map_map]
  refine List.map_congr_left fun data _ => ?_
  change Option.bind (((E.pruner C stored bloomColumns).segmentContainer schema data).zone name) _ = _
  rw [zone_pruner, hcolumn]
  change Option.bind (((stored data).columns[column.1]?).map ColumnMeta.zone) _ =
    Option.bind (((stored data).columns.map ColumnMeta.zone)[column.1]?) _
  rw [List.getElem?_map]

theorem reportedBounds_segments (hsome : segments ≠ []) (pick : ZoneMap → τ → Option (τ × ν)) (trigramColumns : List Nat) :
    reportedBounds (segmentContainers C E stored schema bloomColumns segments) pick =
      SegmentStatistics.bounds schema (zoneMapsOf stored bloomColumns trigramColumns segments) pick := by
  funext name
  unfold reportedBounds SegmentStatistics.bounds
  rw [columnType_segments hsome]
  cases hcolumn : SegmentStatistics.column schema name with
  | none => rfl
  | some column =>
      change gather _ _ = gather _ _
      rw [map_segmentContainers _ trigramColumns hcolumn]

theorem nullCounts_segments (hsome : segments ≠ []) (trigramColumns : List Nat) (name : String) :
    (containerStatistics C E (segmentContainers C E stored schema bloomColumns segments)).nullCounts name =
      (SegmentStatistics C E schema (zoneMapsOf stored bloomColumns trigramColumns segments)).nullCounts name := by
  unfold containerStatistics SegmentStatistics
  dsimp only
  rw [columnType_segments hsome]
  cases hcolumn : SegmentStatistics.column schema name with
  | none => rfl
  | some column =>
      have heach : ((segmentContainers C E stored schema bloomColumns segments).map fun container =>
          (container.zone name).bind fun reported => reported.2.zone.bind fun zone => some zone.nullCount) = _ :=
        map_segmentContainers _ trigramColumns hcolumn
      refine congrArg some (Eq.trans (List.map_congr_left fun container _ => ?_) (heach.trans ?_))
      · refine congrArg _ (funext fun reported => ?_)
        cases reported.2.zone with
        | none => rfl
        | some zone => rfl
      · refine List.map_congr_left fun segment _ => ?_
        cases segment.columns[column.1]? with
        | none => rfl
        | some zone => rfl

theorem blooms_segments {name : String} {column : Nat × τ} (trigramColumns : List Nat)
    (hcolumn : SegmentStatistics.column schema name = some column) :
    ((segmentContainers C E stored schema bloomColumns segments).map fun container =>
      (container.zone name).bind fun reported => reported.2.bloom) =
      (zoneMapsOf stored bloomColumns trigramColumns segments).map fun segment => findFilter segment.blooms column.1 := by
  rw [List.map_map, List.map_map]
  refine List.map_congr_left fun data _ => ?_
  change Option.bind (((E.pruner C stored bloomColumns).segmentContainer schema data).zone name) _ =
    findFilter (loadFilters (stored data).bloomFilter bloomColumns) column.1
  rw [zone_pruner, hcolumn, findFilter_loadFilters]
  rfl

theorem contained_segments (hsome : segments ≠ []) (trigramColumns : List Nat) (name : String) (values : List σ) :
    (containerStatistics C E (segmentContainers C E stored schema bloomColumns segments)).contained name values =
      SegmentStatistics.contained C E schema (zoneMapsOf stored bloomColumns trigramColumns segments) name values := by
  unfold containerStatistics SegmentStatistics.contained
  dsimp only
  rw [columnType_segments hsome]
  cases hcolumn : SegmentStatistics.column schema name with
  | none => rfl
  | some column =>
      rw [blooms_segments trigramColumns hcolumn]
      change (if _ then _ else _) = if _ then _ else _
      rw [List.all_map]
      congr 1
      cases values.mapM E.toArray with
      | none => rfl
      | some probes =>
          change (if _ then _ else _) = if _ then _ else _
          rw [List.map_map]
          rfl

/-- What the pruner is told of some segments is what `SegmentStatistics` has to say. -/
theorem containerStatistics_segments (trigramColumns : List Nat) (hsome : segments ≠ []) :
    containerStatistics C E (segmentContainers C E stored schema bloomColumns segments) =
      SegmentStatistics C E schema (zoneMapsOf stored bloomColumns trigramColumns segments) := by
  refine PruningStatistics.ext (reportedBounds_segments hsome _ _) (reportedBounds_segments hsome _ _) ?_
    (funext (nullCounts_segments hsome _)) ?_ (funext fun name => funext fun values => contained_segments hsome _ name values)
  · change (segments.map _).length = (segments.map _).length
    rw [List.length_map, List.length_map]
  · change some ((segments.map _).map _) = some ((segments.map _).map _)
    rw [List.map_map, List.map_map]
    rfl

theorem substringRequirements_eq : E.substringRequirements schema filters =
    (E.pruner C stored bloomColumns).substringRequirements schema filters := by
  unfold Engine.substringRequirements Pruner.substringRequirements
  change filters.flatMap (E.collectSubstrings schema) =
    (filters.flatMap E.likePieces).filterMap fun (name, pieces) => (schema.indexOf name).map (·, pieces)
  rw [List.filterMap_flatMap]
  exact List.flatMap_congr fun filter _ => collectSubstrings_eq filter

theorem mayMatch_eq {data : SegmentData ν} {requirement : Nat × List Trigram} {trigramColumns : List Nat} (rowCount : Nat)
    (hmem : requirement.1 ∈ trigramColumns) :
    (SegmentZoneMaps.fromReader (stored data) rowCount bloomColumns trigramColumns).mayMatch C requirement =
      (E.pruner C stored bloomColumns).mayContain data requirement.1 requirement.2 := by
  unfold SegmentZoneMaps.mayMatch
  change (match findFilter (loadFilters (stored data).trigramFilter trigramColumns) requirement.1 with
    | none => true
    | some filter => requirement.2.all fun piece => C.mayContainHash filter (C.checksum piece.toList)) = _
  rw [findFilter_loadFilters, if_pos hmem]
  rfl

/-- The provider prunes as a scan with this pruner does. -/
theorem prune_eq (file : M.File) (s : Snapshot τ ν) (candidates : List SegmentEntry) :
    prune C E stored schema file s filters candidates =
      (E.pruner C stored (referencedColumns schema filters)).pruneSegments schema file s filters candidates := by
  unfold prune Pruner.pruneSegments
  by_cases hempty : (filters.isEmpty || candidates.isEmpty) = true
  · rw [if_pos hempty]
    exact (if_pos hempty).symm
  · rw [if_neg hempty]
    refine Eq.trans ?_ (if_neg hempty).symm
    cases hreaders : candidates.mapM fun entry => segmentReader file entry s.layout with
    | error e => rfl
    | ok readers =>
        have hlen := (mapM_ok hreaders).length_eq
        have hsome : readers ≠ [] := by
          rintro rfl
          rw [List.length_nil, List.length_eq_zero_iff] at hlen
          simp [hlen] at hempty
        have hstart : candidates.map (fun _ => true) = readers.map fun _ => true := by
          rw [List.map_const', List.map_const', hlen]
        have hmatch : ∀ requirement ∈ E.substringRequirements schema filters, (readers.map fun data =>
            SegmentZoneMaps.fromReader (stored data) data.rows.length (referencedColumns schema filters)
              (((E.substringRequirements schema filters).map Prod.fst).insertionSort (· ≤ ·)).dedup).map
                (fun segment => segment.mayMatch C requirement) = readers.map fun data =>
            (E.pruner C stored (referencedColumns schema filters)).mayContain data requirement.1 requirement.2 := by
          intro requirement hmem
          rw [List.map_map]
          refine List.map_congr_left fun data _ => mayMatch_eq _ ?_
          rw [List.mem_dedup, List.mem_insertionSort]
          exact List.mem_map_of_mem hmem
        have hfold : ∀ keep : List Bool, (E.substringRequirements schema filters).foldl (fun keep requirement =>
            andVerdicts keep ((readers.map fun data =>
              SegmentZoneMaps.fromReader (stored data) data.rows.length (referencedColumns schema filters)
                (((E.substringRequirements schema filters).map Prod.fst).insertionSort (· ≤ ·)).dedup).map
                  fun segment => segment.mayMatch C requirement)) keep =
            (E.substringRequirements schema filters).foldl (fun keep requirement => andVerdicts keep (readers.map fun data =>
              (E.pruner C stored (referencedColumns schema filters)).mayContain data requirement.1 requirement.2)) keep := by
          intro keep
          refine List.foldl_ext _ _ _ fun keep requirement hmem => ?_
          rw [hmatch requirement hmem]
        dsimp only
        rw [hfold, hstart, ← containerStatistics_segments _ hsome, substringRequirements_eq]
        rfl

variable {pageFilters : PageFilters E.Predicate} {pages : Nat} {data : SegmentData ν}

/-- A segment's columns, each with the bounds of its pages where the scan asks for them and they are known. -/
def pageColumns (schema : Schema τ) (columns : List Nat) (side : SegmentMeta β) (pages : Nat) : List (Option (List ZoneMap)) :=
  (List.range schema.fields.length).map fun index => if index ∈ columns then zonesOf side pages index else none

/-- The bounds of a column's pages, and its type, where the scan asks for them and they are known. -/
def knownPages (schema : Schema τ) (columns : List Nat) (side : SegmentMeta β) (pages : Nat) (name : String) :
    Option (List ZoneMap × τ) :=
  (SegmentStatistics.column schema name).bind fun column =>
    (if column.1 ∈ columns then zonesOf side pages column.1 else none).map (·, column.2)

theorem zonesOf_eq_some {side : SegmentMeta β} {index : Nat} {zones : List ZoneMap} (h : zonesOf side pages index = some zones) :
    side.pageZones index = .ok (some zones) ∧ zones.length = pages := by
  unfold zonesOf at h
  split at h
  · next zones' hread =>
      obtain ⟨hlen, heq⟩ := Option.ite_none_right_eq_some.mp h
      rw [← Option.some.inj heq]
      exact ⟨hread, hlen⟩
  · cases h

omit [DecidableEq τ] in
theorem knownPages_eq_some {columns : List Nat} {side : SegmentMeta β} {name : String} {known : List ZoneMap × τ}
    (h : knownPages schema columns side pages name = some known) :
    ∃ index, SegmentStatistics.column schema name = some (index, known.2) ∧ side.pageZones index = .ok (some known.1) ∧
      known.1.length = pages := by
  obtain ⟨column, hcolumn, h⟩ := Option.bind_eq_some_iff.mp h
  obtain ⟨zones, hzones, rfl⟩ := Option.map_eq_some_iff.mp h
  split at hzones
  · exact ⟨column.1, hcolumn, zonesOf_eq_some hzones⟩
  · cases hzones

omit [DecidableEq τ] in
theorem zones_pageColumns {columns : List Nat} {side : SegmentMeta β} {sizes : List Nat} (hsizes : sizes.length = pages)
    (name : String) : PageStatistics.zones schema (pageColumns schema columns side pages) sizes name =
      knownPages schema columns side pages name := by
  unfold PageStatistics.zones knownPages SegmentStatistics.column
  cases schema.indexOf name with
  | none => rfl
  | some index =>
      change Option.bind ((pageColumns schema columns side pages)[index]?) _ =
        Option.bind (Option.bind (schema.fields[index]?) _) _
      by_cases hlt : index < schema.fields.length
      · have hcolumn : (pageColumns schema columns side pages)[index]? =
            some (if index ∈ columns then zonesOf side pages index else none) := by
          rw [pageColumns, List.getElem?_map, List.getElem?_range hlt]
          rfl
        rw [hcolumn, List.getElem?_eq_getElem hlt]
        change Option.bind (if index ∈ columns then zonesOf side pages index else none) _ =
          Option.map _ (if index ∈ columns then zonesOf side pages index else none)
        cases hzones : if index ∈ columns then zonesOf side pages index else none with
        | none => rfl
        | some zones =>
            have hlen : zones.length = pages := by
              split at hzones
              · exact (zonesOf_eq_some hzones).2
              · cases hzones
            change (if zones.length ≠ sizes.length then none else some (zones, _)) = _
            rw [if_neg (not_not.mpr (hlen.trans hsizes.symm))]
            rfl
      · have hcolumn : (pageColumns schema columns side pages)[index]? = none := by
          rw [pageColumns, List.getElem?_map, List.getElem?_eq_none (by simpa using hlt)]
          rfl
        rw [hcolumn, List.getElem?_eq_none (Nat.le_of_not_lt hlt)]
        rfl

theorem knownZones_pruner (index : Nat) : (E.pruner C stored bloomColumns).knownZones pageFilters pages data index =
    (if index ∈ pageFilters.columns then zonesOf (stored data) pages index else none).map
      fun zones => zones.map fun zone => ⟨some zone, none⟩ := by
  unfold Pruner.knownZones zonesOf
  split
  · dsimp only [Engine.pruner]
    cases hread : (stored data).pageZones index with
    | error e => rfl
    | ok zones =>
        cases zones with
        | none => rfl
        | some zones =>
            dsimp only
            rw [Option.filter_some]
            by_cases hlen : zones.length = pages <;> simp [hlen]
  · rfl

theorem zone_pruner_page (page : Nat) (name : String) :
    ((E.pruner C stored bloomColumns).pageContainer schema pageFilters pages data page).zone name =
      (knownPages schema pageFilters.columns (stored data) pages name).bind fun known =>
        (known.1[page]?).map fun zone => (known.2, ⟨some zone, none⟩) := by
  unfold Pruner.pageContainer knownPages SegmentStatistics.column
  dsimp only
  cases schema.indexOf name with
  | none => rfl
  | some index =>
      change Option.bind (schema.fields[index]?) _ = Option.bind (Option.bind (Option.bind (schema.fields[index]?) _) _) _
      cases schema.fields[index]? with
      | none => rfl
      | some field =>
          change Option.bind ((E.pruner C stored bloomColumns).knownZones pageFilters pages data index) _ =
            Option.bind (Option.map _ (if index ∈ pageFilters.columns then zonesOf (stored data) pages index else none)) _
          rw [knownZones_pruner]
          cases if index ∈ pageFilters.columns then zonesOf (stored data) pages index else none with
          | none => rfl
          | some zones =>
              change Option.bind ((zones.map _)[page]?) _ = _
              rw [List.getElem?_map, Option.map_some, Option.bind_some]
              cases zones[page]? with
              | none => rfl
              | some zone => rfl

theorem map_range_bind {α γ : Type} (xs : List α) (f : α → Option γ) :
    ((List.range xs.length).map fun index => (xs[index]?).bind f) = xs.map f := by
  refine List.ext_getElem (by simp) fun index hindex _ => ?_
  rw [List.length_map, List.length_range] at hindex
  simp [List.getElem?_eq_getElem hindex]

/-- The pages of a segment as containers. -/
abbrev pageContainers (C : Codec τ ν β) (E : Engine τ ν σ ω) (stored : SegmentData ν → SegmentMeta β) (schema : Schema τ)
    (bloomColumns : List Nat) (pageFilters : PageFilters E.Predicate) (pages : Nat) (data : SegmentData ν) :
    List (Container τ (Reported β)) :=
  (List.range pages).map ((E.pruner C stored bloomColumns).pageContainer schema pageFilters pages data)

theorem columnType_pages (hpages : 0 < pages) (name : String) :
    columnType (pageContainers C E stored schema bloomColumns pageFilters pages data) name =
      (knownPages schema pageFilters.columns (stored data) pages name).map Prod.snd := by
  have hhead : (List.range pages).head? = some 0 := by
    rw [List.head?_range, if_neg hpages.ne']
  unfold columnType
  rw [List.head?_map, hhead, Option.map_some, Option.bind_some, zone_pruner_page]
  cases hsome : knownPages schema pageFilters.columns (stored data) pages name with
  | none => rfl
  | some known =>
      obtain ⟨-, -, -, hlen⟩ := knownPages_eq_some hsome
      rw [Option.bind_some, List.getElem?_eq_getElem (by omega)]
      rfl

theorem map_pageContainers {γ : Type} {name : String} {known : List ZoneMap × τ} (f : ZoneMap → Option γ)
    (hsome : knownPages schema pageFilters.columns (stored data) pages name = some known) :
    ((pageContainers C E stored schema bloomColumns pageFilters pages data).map fun container =>
      (container.zone name).bind fun reported => reported.2.zone.bind f) = known.1.map f := by
  obtain ⟨-, -, -, hlen⟩ := knownPages_eq_some hsome
  rw [← map_range_bind known.1 f, hlen, List.map_map]
  refine List.map_congr_left fun page _ => ?_
  change Option.bind (((E.pruner C stored bloomColumns).pageContainer schema pageFilters pages data page).zone name) _ = _
  rw [zone_pruner_page, hsome, Option.bind_some]
  cases known.1[page]? with
  | none => rfl
  | some zone => rfl

theorem reportedBounds_pages (hpages : 0 < pages) (pick : ZoneMap → τ → Option (τ × ν)) {sizes : List Nat}
    (hsizes : sizes.length = pages) :
    reportedBounds (pageContainers C E stored schema bloomColumns pageFilters pages data) pick =
      PageStatistics.bounds schema (pageColumns schema pageFilters.columns (stored data) pages) sizes pick := by
  funext name
  unfold reportedBounds PageStatistics.bounds
  rw [columnType_pages hpages, zones_pageColumns hsizes]
  cases hsome : knownPages schema pageFilters.columns (stored data) pages name with
  | none => rfl
  | some known =>
      change gather _ _ = gather _ _
      rw [map_pageContainers _ hsome]

theorem nullCounts_pages (hpages : 0 < pages) {sizes : List Nat} (hsizes : sizes.length = pages) (name : String) :
    (containerStatistics C E (pageContainers C E stored schema bloomColumns pageFilters pages data)).nullCounts name =
      (PageStatistics.zones schema (pageColumns schema pageFilters.columns (stored data) pages) sizes name).map
        fun (zones, _) => zones.map fun zone => some zone.nullCount := by
  unfold containerStatistics
  dsimp only
  rw [columnType_pages hpages, zones_pageColumns hsizes]
  cases hsome : knownPages schema pageFilters.columns (stored data) pages name with
  | none => rfl
  | some known =>
      have heach : ((pageContainers C E stored schema bloomColumns pageFilters pages data).map fun container =>
          (container.zone name).bind fun reported => reported.2.zone.bind fun zone => some zone.nullCount) = _ :=
        map_pageContainers _ hsome
      refine congrArg some (Eq.trans ?_ heach)
      refine List.map_congr_left fun container _ => congrArg _ (funext fun reported => ?_)
      cases reported.2.zone with
      | none => rfl
      | some zone => rfl

theorem contained_pages (name : String) (values : List σ) :
    (containerStatistics C E (pageContainers C E stored schema bloomColumns pageFilters pages data)).contained name values =
      none := by
  unfold containerStatistics
  dsimp only
  rw [Option.bind_eq_none_iff]
  intro dataType htype
  rw [if_pos]
  rw [Bool.or_eq_true]
  right
  rw [List.all_map, List.all_map, List.all_eq_true]
  intro page _
  change (Option.bind (((E.pruner C stored bloomColumns).pageContainer schema pageFilters pages data page).zone name)
    _).isNone = true
  rw [zone_pruner_page]
  cases knownPages schema pageFilters.columns (stored data) pages name with
  | none => rfl
  | some known =>
      rw [Option.bind_some]
      cases known.1[page]? with
      | none => rfl
      | some zone => rfl

/-- What the pruner is told of the pages of a segment is what `PageStatistics` has to say. -/
theorem containerStatistics_pages (hpages : 0 < pages) {sizes : List Nat}
    (hsizes : sizes = (List.range pages).map fun page =>
      min (stored data).pageRows (data.rows.length - page * (stored data).pageRows)) :
    containerStatistics C E (pageContainers C E stored schema bloomColumns pageFilters pages data) =
      PageStatistics C schema (pageColumns schema pageFilters.columns (stored data) pages) sizes := by
  have hlen : sizes.length = pages := by rw [hsizes, List.length_map, List.length_range]
  refine PruningStatistics.ext (reportedBounds_pages hpages _ hlen) (reportedBounds_pages hpages _ hlen) ?_
    (funext (nullCounts_pages hpages hlen)) ?_ (funext fun name => funext fun values => contained_pages name values)
  · change ((List.range pages).map _).length = sizes.length
    rw [List.length_map, List.length_range, hlen]
  · change some (((List.range pages).map _).map _) = some sizes
    rw [List.map_map, hsizes]
    rfl

/-- Nothing is ruled out where there are no pages. -/
theorem verdictsOn_zero {φ : Type} (verdict : φ → Except Error (List Bool)) (predicates : List φ) :
    verdictsOn verdict predicates 0 = none := by
  refine if_neg (Bool.eq_false_iff.mp ?_)
  refine List.foldlRecOn (motive := fun so : List Bool × Bool => so.2 = false) _ _ rfl fun so hso predicate _ => ?_
  obtain ⟨keep, ruledOut⟩ := so
  dsimp only at hso ⊢
  split
  · exact hso
  · next verdicts _ =>
      split
      · exact hso
      · next hlen =>
          rw [not_not, List.length_eq_zero_iff] at hlen
          rw [hlen, hso]
          rfl

theorem keepPages_pruner : (E.pruner C stored bloomColumns).keepPages schema pageFilters data =
    if pageFilters.isEmpty then none
    else if (stored data).pageRows = 0 then none
    else if pageFilters.columns.all fun index => ((E.pruner C stored bloomColumns).knownZones pageFilters
      ((data.rows.length + ((stored data).pageRows - 1)) / (stored data).pageRows) data index).isNone then none
    else verdictsOn (fun predicate => E.prune predicate (containerStatistics C E
        ((List.range ((data.rows.length + ((stored data).pageRows - 1)) / (stored data).pageRows)).map
          ((E.pruner C stored bloomColumns).pageContainer schema pageFilters
            ((data.rows.length + ((stored data).pageRows - 1)) / (stored data).pageRows) data)))) pageFilters.predicates
      ((data.rows.length + ((stored data).pageRows - 1)) / (stored data).pageRows) := rfl

/-- A scan with this pruner chooses pages as `PageFilters` does. -/
theorem keepPages_eq : pageFilters.keepPages C E stored schema data =
    (E.pruner C stored bloomColumns).keepPages schema pageFilters data := by
  have hall : ∀ pages, (pageFilters.columns.all fun index => ((E.pruner C stored bloomColumns).knownZones pageFilters
      pages data index).isNone) = pageFilters.columns.all fun index => (zonesOf (stored data) pages index).isNone := by
    intro pages
    rw [Bool.eq_iff_iff, List.all_eq_true, List.all_eq_true]
    refine forall₂_congr fun index hindex => ?_
    rw [knownZones_pruner, if_pos hindex, Option.isNone_map]
  rw [keepPages_pruner, hall, PageFilters.keepPages]
  dsimp only
  rcases Nat.eq_zero_or_pos ((data.rows.length + ((stored data).pageRows - 1)) / (stored data).pageRows) with hnone | hpos
  · rw [hnone, verdictsOn_zero, verdictsOn_zero]
  · rw [containerStatistics_pages hpos rfl]
    rfl

end Same

end LocalTables
