import LocalTables.Sql.Pruning
import LocalTables.Sql.Statistics

/-! No row that satisfies the filters is dropped. The query engine rules a container out only when no value that what is
reported of it admits could satisfy a filter; what is stored about a segment and its pages admits the values they hold; so
neither a segment nor a page that is left out has a row that is wanted. -/

namespace LocalTables

open WorkQueue

/-- How the engine compares values. -/
structure Comparison (ν σ : Type) where
  le : ν → ν → Prop
  /-- A value is the one a literal stands for. -/
  equals : σ → ν → Prop
  /-- The bytes of a text. -/
  bytes : ν → List UInt8

section Admits

variable {τ ν σ ω β : Type} (O : Comparison ν σ) (null : ν)

/-- A container may hold a value in a column, by what is reported of it. -/
structure PruningStatistics.Admits (statistics : PruningStatistics τ ν σ) (container : Nat) (name : String) (value : ν) :
    Prop where
  min : ∀ array low, statistics.minValues name = some array → array.values[container]? = some (some low) → value ≠ null →
    O.le low value
  max : ∀ array high, statistics.maxValues name = some array → array.values[container]? = some (some high) → value ≠ null →
    O.le value high
  nulls : ∀ counts, statistics.nullCounts name = some counts → counts[container]? = some (some 0) → value ≠ null
  allNull : ∀ counts rows total, statistics.nullCounts name = some counts → statistics.rowCounts = some rows →
    counts[container]? = some (some total) → rows[container]? = some total → value = null
  absent : ∀ values answers, statistics.contained name values = some answers → answers[container]? = some (some false) →
    value ≠ null → ∀ literal ∈ values, ¬O.equals literal value
  only : ∀ values answers, statistics.contained name values = some answers → answers[container]? = some (some true) →
    value ≠ null → ∃ literal ∈ values, O.equals literal value

/-- What the engine promises. It rules a container out only when no row it may hold satisfies the filter; and a value that
matches a pattern contains the pieces of text the pattern requires. -/
structure Engine.Sound (E : Engine τ ν σ ω) : Prop where
  prune : ∀ {schema : Schema τ} {filter : Expr σ ω} {predicate : E.Predicate}, E.build schema filter = some predicate →
    ∀ {statistics : PruningStatistics τ ν σ} {verdicts : List Bool}, E.prune predicate statistics = .ok verdicts →
    ∀ {container : Nat}, container < statistics.numContainers → verdicts[container]? = some false →
    ∀ look : String → Option ν, (∀ name value, look name = some value → statistics.Admits O null container name value) →
      E.truth look filter ≠ some true
  like : ∀ {literal : σ} {pattern : String}, E.text literal = some pattern → ∀ value : Option ν,
    E.like none false value (some (E.value literal)) = some true →
      ∃ v, value = some v ∧ v ≠ null ∧ ∀ piece ∈ required pattern, piece.toList <:+: O.bytes v

/-- A zone map says nothing wrong about a value of a chunk of so many rows. -/
structure ZoneMap.Covers (C : Codec τ ν β) (dataType : τ) (total : Nat) (zone : ZoneMap) (value : ν) : Prop where
  min : ∀ type low, zone.minArray C dataType = some (type, low) → value ≠ null → O.le low value
  max : ∀ type high, zone.maxArray C dataType = some (type, high) → value ≠ null → O.le value high
  nulls : zone.nullCount = 0 → value ≠ null
  allNull : zone.nullCount = total → value = null

/-- Neither does a membership filter. -/
def FilterCovers (C : Codec τ ν β) (E : Engine τ ν σ ω) (dataType : τ) (filter : β) (value : ν) : Prop :=
  ∀ literal probe, E.toArray literal = some probe → C.mayContain filter probe dataType = false → value ≠ null →
    ¬O.equals literal value

/-- Nor a trigram filter. -/
def TrigramsCover (C : Codec τ ν β) (filter : β) (value : ν) : Prop :=
  ∀ piece : Trigram, C.mayContainHash filter (C.checksum piece.toList) = false → value ≠ null →
    ¬piece.toList <:+: O.bytes value

/-- What is stored beside a segment's rows is right about the values its readers see. -/
structure SegmentMeta.Describes (C : Codec τ ν β) (E : Engine τ ν σ ω) (env : Env τ ν) (schema : Schema τ)
    (side : SegmentMeta β) (data : SegmentData ν) : Prop where
  zone : ∀ {index : Nat} {chunk : ColumnMeta β} {field : Field τ}, side.columns[index]? = some chunk →
    schema.fields[index]? = some field → ∀ row ∈ data.rows, ∀ value, (padRow env schema.fields data row)[index]? = some value →
      chunk.zone.Covers O env.null C field.dataType data.rows.length value
  bloom : ∀ {index : Nat} {chunk : ColumnMeta β} {field : Field τ} {filter : β}, side.columns[index]? = some chunk →
    schema.fields[index]? = some field → chunk.bloom = .ok (some filter) → ∀ row ∈ data.rows, ∀ value,
      (padRow env schema.fields data row)[index]? = some value → FilterCovers O env.null C E field.dataType filter value
  trigram : ∀ {index : Nat} {chunk : ColumnMeta β} {filter : β}, side.columns[index]? = some chunk →
    chunk.trigram = .ok (some filter) → ∀ row ∈ data.rows, ∀ value, (padRow env schema.fields data row)[index]? = some value →
      TrigramsCover O env.null C filter value
  page : ∀ {index : Nat} {chunk : ColumnMeta β} {field : Field τ} {zones : List ZoneMap} {page : Nat} {zone : ZoneMap},
    side.columns[index]? = some chunk → schema.fields[index]? = some field → chunk.pageZones = .ok (some zones) →
    zones[page]? = some zone → ∀ position row, data.rows[position]? = some row → position / side.pageRows = page →
    ∀ value, (padRow env schema.fields data row)[index]? = some value →
      zone.Covers O env.null C field.dataType (min side.pageRows (data.rows.length - page * side.pageRows)) value

/-- What is reported of a column of a container is right about a value. -/
structure Reported.Covers (C : Codec τ ν β) (E : Engine τ ν σ ω) (dataType : τ) (total : Nat) (reported : Reported β)
    (value : ν) : Prop where
  zone : ∀ zone, reported.zone = some zone → zone.Covers O null C dataType total value
  bloom : ∀ filter, reported.bloom = some filter → FilterCovers O null C E dataType filter value

end Admits

section Gather

variable {τ ν : Type} [DecidableEq τ]

theorem concat_values {arrays : List (ArrayRef τ ν)} {array : ArrayRef τ ν} (h : concat arrays = some array) :
    array.values = arrays.flatMap ArrayRef.values := by
  unfold concat at h
  split at h
  · cases h
  · obtain ⟨-, h⟩ := Option.ite_none_right_eq_some.mp h
    rw [← Option.some.inj h]

theorem gather_values {dataType : τ} {bounds : List (Option (τ × ν))} {array : ArrayRef τ ν}
    (h : gather dataType bounds = some array) : array.values = bounds.map fun bound => bound.map Prod.snd := by
  obtain ⟨-, h⟩ := Option.ite_none_left_eq_some.mp h
  rw [concat_values h, List.flatMap_map, List.map_eq_flatMap]
  refine List.flatMap_congr fun bound _ => ?_
  cases bound with
  | none => rfl
  | some bound => rfl

end Gather

section Reports

variable {τ ν σ ω β : Type} [DecidableEq τ] {O : Comparison ν σ} {null : ν} {C : Codec τ ν β} {E : Engine τ ν σ ω}
  {containers : List (Container τ (Reported β))} {container : Container τ (Reported β)} {index : Nat} {name : String}
  {value : ν}

/-- A bound that is reported for a container comes from that container's zone map. -/
theorem reportedBounds_at {pick : ZoneMap → τ → Option (τ × ν)} {array : ArrayRef τ ν} {bound : ν}
    (htype : ∀ type reported, container.zone name = some (type, reported) → columnType containers name = some type)
    (hcontainer : containers[index]? = some container) (h : reportedBounds containers pick name = some array)
    (hbound : array.values[index]? = some (some bound)) :
    ∃ type reported zone type', container.zone name = some (type, reported) ∧ reported.zone = some zone ∧
      pick zone type = some (type', bound) := by
  obtain ⟨dataType, hdataType, h⟩ := Option.bind_eq_some_iff.mp h
  rw [gather_values h, List.getElem?_map, List.getElem?_map, hcontainer, Option.map_some, Option.map_some,
    Option.some.injEq] at hbound
  obtain ⟨⟨type', bound'⟩, hpick, rfl⟩ := Option.map_eq_some_iff.mp hbound
  obtain ⟨⟨type, reported⟩, hzone, hpick⟩ := Option.bind_eq_some_iff.mp hpick
  obtain ⟨zone, hknown, hpick⟩ := Option.bind_eq_some_iff.mp hpick
  rw [htype type reported hzone] at hdataType
  obtain rfl := Option.some.inj hdataType
  exact ⟨type, reported, zone, type', hzone, hknown, hpick⟩

/-- A null count that is reported for a container comes from that container's zone map. -/
theorem nullCounts_at {counts : List (Option Nat)} {count : Nat} (hcontainer : containers[index]? = some container)
    (h : (containerStatistics C E containers).nullCounts name = some counts) (hcount : counts[index]? = some (some count)) :
    ∃ type reported zone, container.zone name = some (type, reported) ∧ reported.zone = some zone ∧ zone.nullCount = count := by
  obtain ⟨dataType, -, rfl⟩ := Option.map_eq_some_iff.mp h
  rw [List.getElem?_map, hcontainer, Option.map_some, Option.some.injEq] at hcount
  obtain ⟨⟨type, reported⟩, hzone, hcount⟩ := Option.bind_eq_some_iff.mp hcount
  obtain ⟨zone, hknown, hcount⟩ := Option.map_eq_some_iff.mp hcount
  exact ⟨type, reported, zone, hzone, hknown, hcount⟩

/-- An answer about membership is never yes, and no comes from the container's filter. -/
theorem contained_at {values : List σ} {answers : List (Option Bool)} {answer : Bool}
    (htype : ∀ type reported, container.zone name = some (type, reported) → columnType containers name = some type)
    (hcontainer : containers[index]? = some container)
    (h : (containerStatistics C E containers).contained name values = some answers)
    (hanswer : answers[index]? = some (some answer)) :
    answer = false ∧ ∃ type reported filter, container.zone name = some (type, reported) ∧ reported.bloom = some filter ∧
      ∀ literal ∈ values, ∃ probe, E.toArray literal = some probe ∧ C.mayContain filter probe type = false := by
  obtain ⟨dataType, hdataType, h⟩ := Option.bind_eq_some_iff.mp h
  obtain ⟨-, h⟩ := Option.ite_none_left_eq_some.mp h
  obtain ⟨probes, hprobes, h⟩ := Option.bind_eq_some_iff.mp h
  obtain ⟨-, h⟩ := Option.ite_none_left_eq_some.mp h
  rw [← Option.some.inj h, List.getElem?_map, List.getElem?_map, hcontainer, Option.map_some, Option.map_some,
    Option.some.injEq] at hanswer
  cases hbloom : (container.zone name).bind fun reported => reported.2.bloom with
  | none =>
      rw [hbloom] at hanswer
      cases hanswer
  | some filter =>
      rw [hbloom] at hanswer
      dsimp only at hanswer
      obtain ⟨⟨type, reported⟩, hzone, hbloom⟩ := Option.bind_eq_some_iff.mp hbloom
      rw [htype type reported hzone] at hdataType
      obtain rfl := Option.some.inj hdataType
      obtain ⟨hnone, hanswer⟩ := Option.ite_none_left_eq_some.mp hanswer
      refine ⟨(Option.some.inj hanswer).symm, type, reported, filter, hzone, hbloom, fun literal hliteral => ?_⟩
      obtain ⟨probe, hprobe, htoArray⟩ := exists_probe hprobes hliteral
      refine ⟨probe, htoArray, Bool.eq_false_iff.mpr fun hmay => hnone ?_⟩
      exact List.any_eq_true.mpr ⟨probe, hprobe, hmay⟩

/-- What is reported of the containers admits a value that is right by what is reported of one of them. -/
theorem admits_of_covers (hcontainer : containers[index]? = some container)
    (htype : ∀ type reported, container.zone name = some (type, reported) → columnType containers name = some type)
    (hcovers : ∀ type reported, container.zone name = some (type, reported) →
      reported.Covers O null C E type container.rows value) :
    (containerStatistics C E containers).Admits O null index name value where
  min := by
    intro array low hmin hlow hvalue
    obtain ⟨type, reported, zone, type', hzone, hknown, hpick⟩ := reportedBounds_at htype hcontainer hmin hlow
    exact ((hcovers type reported hzone).zone zone hknown).min type' low hpick hvalue
  max := by
    intro array high hmax hhigh hvalue
    obtain ⟨type, reported, zone, type', hzone, hknown, hpick⟩ := reportedBounds_at htype hcontainer hmax hhigh
    exact ((hcovers type reported hzone).zone zone hknown).max type' high hpick hvalue
  nulls := by
    intro counts hcounts hzero
    obtain ⟨type, reported, zone, hzone, hknown, hcount⟩ := nullCounts_at hcontainer hcounts hzero
    exact ((hcovers type reported hzone).zone zone hknown).nulls hcount
  allNull := by
    intro counts rows total hcounts hrows htotal hall
    obtain ⟨type, reported, zone, hzone, hknown, hcount⟩ := nullCounts_at hcontainer hcounts htotal
    rw [← Option.some.inj hrows, List.getElem?_map, hcontainer, Option.map_some, Option.some.injEq] at hall
    exact ((hcovers type reported hzone).zone zone hknown).allNull (hcount.trans hall.symm)
  absent := by
    intro values answers hcontained hanswer hvalue literal hliteral
    obtain ⟨-, type, reported, filter, hzone, hbloom, hprobes⟩ := contained_at htype hcontainer hcontained hanswer
    obtain ⟨probe, hprobe, hmay⟩ := hprobes literal hliteral
    exact (hcovers type reported hzone).bloom filter hbloom literal probe hprobe hmay hvalue
  only := by
    intro values answers hcontained hanswer
    cases (contained_at htype hcontainer hcontained hanswer).1

end Reports

section Unwanted

variable {τ ν σ ω β : Type} [DecidableEq τ] {O : Comparison ν σ} {C : Codec τ ν β} {E : Engine τ ν σ ω} {env : Env τ ν}
  {stored : SegmentData ν → SegmentMeta β} {schema : Schema τ} {filters : List (Expr σ ω)} {bloomColumns : List Nat}
  {segments : List (SegmentData ν)} {data : SegmentData ν}

omit [DecidableEq τ] in
theorem column_eq_some {name : String} {column : Nat × τ} (h : SegmentStatistics.column schema name = some column) :
    ∃ field, schema.indexOf name = some column.1 ∧ schema.fields[column.1]? = some field ∧ field.dataType = column.2 := by
  obtain ⟨index, hindex, h⟩ := Option.bind_eq_some_iff.mp h
  obtain ⟨field, hfield, h⟩ := Option.bind_eq_some_iff.mp h
  obtain rfl := Option.some.inj h
  exact ⟨field, hindex, hfield, rfl⟩

theorem sideBuffer_eq_ok {side : SegmentMeta β} {index : Nat} {α : Type} {role : ColumnMeta β → Except Error (Option α)}
    {found : α} (h : side.sideBuffer index role = .ok (some found)) :
    ∃ chunk, side.columns[index]? = some chunk ∧ role chunk = .ok (some found) := by
  unfold SegmentMeta.sideBuffer at h
  split at h
  · cases h
  · next chunk hchunk => exact ⟨chunk, hchunk, h⟩

/-- What is reported of a segment is right about the values of its rows. -/
theorem segment_covers (hdescribes : (stored data).Describes O C E env schema data) {row : Row ν} (hrow : row ∈ data.rows)
    {name : String} {value : ν} (hvalue : schema.lookup (padRow env schema.fields data row) name = some value) :
    ∀ type reported, ((E.pruner C stored bloomColumns).segmentContainer schema data).zone name = some (type, reported) →
      reported.Covers O env.null C E type data.rows.length value := by
  intro type reported hzone
  rw [zone_pruner] at hzone
  obtain ⟨column, hcolumn, heq⟩ := Option.map_eq_some_iff.mp hzone
  obtain ⟨rfl, rfl⟩ := Prod.mk.inj heq
  obtain ⟨field, hindex, hfield, htype⟩ := column_eq_some hcolumn
  obtain ⟨index, hindex', hvalue⟩ := Pruner.lookup_eq.mp hvalue
  obtain rfl := Option.some.inj (hindex.symm.trans hindex')
  rw [← htype]
  refine ⟨fun zone hknown => ?_, fun filter hbloom => ?_⟩
  · obtain ⟨chunk, hchunk, rfl⟩ := Option.map_eq_some_iff.mp hknown
    exact hdescribes.zone hchunk hfield row hrow value hvalue
  · obtain ⟨-, hbloom⟩ := Option.ite_none_right_eq_some.mp hbloom
    obtain ⟨chunk, hchunk, hread⟩ := sideBuffer_eq_ok (readFilter_eq_some hbloom)
    exact hdescribes.bloom hchunk hfield hread row hrow value hvalue

/-- What is reported of a page is right about the values of its rows. -/
theorem page_covers (hdescribes : (stored data).Describes O C E env schema data) {pageFilters : PageFilters E.Predicate}
    {pages position : Nat} {row : Row ν} (hrow : data.rows[position]? = some row) {name : String} {value : ν}
    (hvalue : schema.lookup (padRow env schema.fields data row) name = some value) :
    ∀ type reported, ((E.pruner C stored bloomColumns).pageContainer schema pageFilters pages data
      (position / (stored data).pageRows)).zone name = some (type, reported) →
      reported.Covers O env.null C E type (min (stored data).pageRows
        (data.rows.length - position / (stored data).pageRows * (stored data).pageRows)) value := by
  intro type reported hzone
  rw [zone_pruner_page] at hzone
  obtain ⟨known, hknown, hzone⟩ := Option.bind_eq_some_iff.mp hzone
  obtain ⟨zone, hpage, heq⟩ := Option.map_eq_some_iff.mp hzone
  obtain ⟨rfl, rfl⟩ := Prod.mk.inj heq
  obtain ⟨index, hcolumn, hread, -⟩ := knownPages_eq_some hknown
  obtain ⟨field, hindex, hfield, htype⟩ := column_eq_some hcolumn
  obtain ⟨index', hindex', hvalue⟩ := Pruner.lookup_eq.mp hvalue
  obtain rfl := Option.some.inj (hindex.symm.trans hindex')
  obtain ⟨chunk, hchunk, hread⟩ := sideBuffer_eq_ok hread
  refine ⟨fun zone' heq => ?_, fun filter heq => nomatch heq⟩
  obtain rfl := Option.some.inj heq
  rw [← htype]
  exact hdescribes.page hchunk hfield hread hpage position row hrow rfl value hvalue

omit [DecidableEq τ] in
/-- A filter that holds of a row needs what is listed for it: the row's value in the column is not null, and contains the
pieces. The pieces are only those of plain `LIKE`s under `AND`s, so all of them hold. -/
theorem likePieces_sound {null : ν} (hsound : E.Sound O null) {look : String → Option ν} {filter : Expr σ ω} {name : String}
    {pieces : List Trigram} (hmem : (name, pieces) ∈ E.likePieces filter) (htruth : E.truth look filter = some true) :
    ∃ value, look name = some value ∧ value ≠ null ∧ ∀ piece ∈ pieces, piece.toList <:+: O.bytes value := by
  fun_induction Engine.likePieces E filter with
  | case1 left right ihleft ihright =>
      have hboth : E.truth look left = some true ∧ E.truth look right = some true := by
        rw [Engine.truth] at htruth
        split at htruth
        · cases htruth
        · cases htruth
        · next hleft hright => exact ⟨hleft, hright⟩
        · cases htruth
      rcases List.mem_append.mp hmem with hmem | hmem
      · exact ihleft hmem hboth.1
      · exact ihright hmem hboth.2
  | case2 name' literal pattern htext hnone => cases hmem
  | case3 name' literal pattern htext hsome =>
      obtain ⟨rfl, rfl⟩ := Prod.mk.inj (List.mem_singleton.mp hmem)
      rw [Engine.truth] at htruth
      obtain ⟨matched, hmatched, heq⟩ := Option.map_eq_some_iff.mp htruth
      obtain rfl : matched = true := by simpa using heq
      exact hsound.like htext (look name) hmatched
  | case4 name' literal htext => cases hmem
  | case5 expr hand hlike => cases hmem

/-- No row of a segment that is ruled out is wanted. -/
theorem Engine.Sound.keepSegments (hsound : E.Sound O env.null)
    (hdescribes : ∀ data ∈ segments, (stored data).Describes O C E env schema data) :
    ((E.pruner C stored bloomColumns).keepSegments schema filters segments).length = segments.length ∧
      ∀ (index : Nat) (data : SegmentData ν),
        ((E.pruner C stored bloomColumns).keepSegments schema filters segments)[index]? = some false →
        segments[index]? = some data → ∀ row ∈ data.rows,
          (E.pruner C stored bloomColumns).Satisfies schema filters (padRow env schema.fields data row) = false := by
  refine Pruner.keepSegments_unwanted ?_ ?_
  · intro filter hmem predicate hbuild verdicts hprune index data hfalse hdata row hrow
    have hmem := List.mem_of_getElem? hdata
    have hsome : segments ≠ [] := List.ne_nil_of_mem hmem
    have hcontainer : (segmentContainers C E stored schema bloomColumns segments)[index]? =
        some ((E.pruner C stored bloomColumns).segmentContainer schema data) := by
      rw [List.getElem?_map, hdata]
      rfl
    have hlt : index < (segmentContainers C E stored schema bloomColumns segments).length :=
      (List.getElem?_eq_some_iff.mp hcontainer).1
    refine beq_eq_false_iff_ne.mpr (hsound.prune hbuild hprune hlt hfalse _ fun name value hvalue => ?_)
    refine admits_of_covers hcontainer (fun type reported hzone => ?_)
      (segment_covers (hdescribes data hmem) hrow hvalue)
    rw [zone_pruner] at hzone
    obtain ⟨column, hcolumn, heq⟩ := Option.map_eq_some_iff.mp hzone
    rw [columnType_segments hsome, hcolumn, ← (Prod.mk.inj heq).1]
    rfl
  · intro position pieces hpieces data hdata hfalse row hrow
    obtain ⟨⟨name, pieces'⟩, hneeds, hposition⟩ := List.mem_filterMap.mp hpieces
    obtain ⟨filter, hmem, hneeds⟩ := List.mem_flatMap.mp hneeds
    obtain ⟨position', hindexOf, heq⟩ := Option.map_eq_some_iff.mp hposition
    obtain ⟨rfl, rfl⟩ := Prod.mk.inj heq
    refine Pruner.not_satisfies hmem (beq_eq_false_iff_ne.mpr fun htruth => ?_)
    obtain ⟨value, hlook, hvalue, hcontains⟩ := likePieces_sound hsound hneeds htruth
    obtain ⟨index', hindex', hlook⟩ := Pruner.lookup_eq.mp hlook
    obtain rfl := Option.some.inj (hindexOf.symm.trans hindex')
    -- the trigram filter is sure that one of the pieces is absent
    dsimp only [Engine.pruner] at hfalse
    split at hfalse
    · cases hfalse
    · next trigrams hread =>
        obtain ⟨piece, hpiece, habsent⟩ := List.all_eq_false.mp hfalse
        obtain ⟨chunk, hchunk, hread⟩ := sideBuffer_eq_ok (readFilter_eq_some hread)
        exact (hdescribes data hdata).trigram hchunk hread row hrow value hlook piece (Bool.eq_false_iff.mpr habsent) hvalue
          (hcontains piece hpiece)

/-- No row of a page that is ruled out is wanted. -/
theorem Engine.Sound.keepPages (hsound : E.Sound O env.null) (hdescribes : (stored data).Describes O C E env schema data)
    {columns : List Nat} {keep : List Bool}
    (hkeep : (E.pruner C stored bloomColumns).keepPages schema
      ⟨(E.pruner C stored bloomColumns).predicates schema filters, columns⟩ data = some keep) :
    0 < (stored data).pageRows ∧ ∀ position row, data.rows[position]? = some row →
      pageKept (stored data).pageRows (some keep) position = false →
        (E.pruner C stored bloomColumns).Satisfies schema filters (padRow env schema.fields data row) = false := by
  have hpos : 0 < (stored data).pageRows := Pruner.keepPages_pos hkeep
  refine Pruner.keepPages_unwanted (fun filter hmem predicate hbuild verdicts hprune position row hrow hfalse => ?_) hkeep
  have hlt := Pruner.page_lt hpos (List.getElem?_eq_some_iff.mp hrow).1
  have hcontainer : (pageContainers C E stored schema bloomColumns ⟨E.predicates schema filters, columns⟩
      ((data.rows.length + ((stored data).pageRows - 1)) / (stored data).pageRows) data)[position / (stored data).pageRows]? =
      some ((E.pruner C stored bloomColumns).pageContainer schema ⟨E.predicates schema filters, columns⟩
        ((data.rows.length + ((stored data).pageRows - 1)) / (stored data).pageRows) data
          (position / (stored data).pageRows)) := Pruner.pageContainer_getElem? hlt
  refine beq_eq_false_iff_ne.mpr (hsound.prune hbuild hprune (List.getElem?_eq_some_iff.mp hcontainer).1 hfalse _
    fun name value hvalue => ?_)
  refine admits_of_covers hcontainer (fun type reported hzone => ?_) (page_covers hdescribes hrow hvalue)
  have hzone := (zone_pruner_page _ _).symm.trans hzone
  obtain ⟨known, hknown, hzone⟩ := Option.bind_eq_some_iff.mp hzone
  obtain ⟨zone, -, heq⟩ := Option.map_eq_some_iff.mp hzone
  refine (columnType_pages (Nat.lt_of_le_of_lt (Nat.zero_le _) hlt) name).trans ?_
  rw [hknown, ← (Prod.mk.inj heq).1]
  rfl

end Unwanted

section Emitted

variable {τ ν ζ : Type} {M : Media τ ν} {P : Pruner τ ν ζ} {exec : ColumnarScanExec τ ν P.Predicate} {env : Env τ ν}
  {t : Table M} {projection : Option (List Nat)} {filters : List P.Filter} {targetPartitions : Nat} {loaded : Schema τ}

/-- The pages that are left out of a snapshot's segments have no row that is wanted. -/
def PagesUnwanted (P : Pruner τ ν ζ) (env : Env τ ν) (filters : List P.Filter) (pages : PageFilters P.Predicate) (t : Table M) :
    Prop :=
  ∀ entry ∈ t.current.liveSegments, ∀ data keep, segmentReader t.writer.file.io.file entry t.current.layout = .ok data →
    P.keepPages t.current.schema pages data = some keep → ∀ position row, data.rows[position]? = some row →
      pageKept (P.pageRows data) (some keep) position = false →
        P.Satisfies t.current.schema filters (padRow env t.current.schema.fields data row) = false

theorem PagesUnwanted.keepsWanted {plan : ScanPlan τ ν P.Predicate} (h : PagesUnwanted P env filters plan.pages t)
    (hsnapshot : plan.snapshot = t.current) {entry : SegmentEntry} (hentry : entry ∈ t.current.liveSegments)
    {keep : Option (List Bool)} (hkeep : keepPagesOf P plan t entry = .ok keep) : KeepsWanted env t P filters entry keep := by
  intro data hdata
  unfold keepPagesOf at hkeep
  split at hkeep
  · exact .inl (Except.ok.inj hkeep).symm
  · obtain ⟨data', hopened, hkeep⟩ := bind_eq_ok.mp hkeep
    have hsame := (segmentReader_ok hopened).1.symm.trans (segmentReader_ok hdata).1
    obtain rfl := Blob.segment.inj (Except.ok.inj hsame)
    obtain rfl := Except.ok.inj hkeep
    rw [hsnapshot]
    cases hkept : P.keepPages t.current.schema plan.pages data' with
    | none => exact .inl rfl
    | some keep => exact .inr ⟨Pruner.keepPages_pos hkept, h entry hentry data' keep hdata hkept⟩

/-- A piece of work hands on every row of it that is wanted. -/
theorem least_le_rowsIn (hsnapshot : exec.snapshot = t.current)
    (hprojection : ∀ indices ∈ exec.projection, ∀ index ∈ indices, index < exec.snapshot.schema.fields.length)
    (hpages : PagesUnwanted P env filters exec.pages t) {work : Work τ ν} (hwork : work ∈ t.current.work)
    {batches : List (RecordBatch τ ν)} (hbatches : exec.runWork P env t work = .ok batches) :
    work.least env t exec.projection P filters ≤ (rowsOf batches : Multiset (Row ν)) := by
  cases work with
  | segment entry =>
      have hentry : entry ∈ t.current.liveSegments := by
        rcases List.mem_append.mp hwork with hmem | hmem
        · obtain ⟨entry', hmem, heq⟩ := List.mem_map.mp hmem
          exact Work.segment.inj heq ▸ hmem
        · obtain ⟨_, -, heq⟩ := List.mem_map.mp hmem
          cases heq
      obtain ⟨data, keep, hdata, hkeep, hrows⟩ := runWork_segment hprojection hbatches
      rw [hsnapshot] at hdata hrows
      exact ((hpages.keepsWanted hsnapshot hentry hkeep).between hdata hrows).1
  | batch held =>
      obtain ⟨batch', hproject, hbatches⟩ := bind_eq_ok.mp hbatches
      obtain rfl := Except.ok.inj hbatches
      rw [rowsOf_cons, rowsOf_nil, List.append_nil, RecordBatch.project_rows hproject, Work.least, Multiset.coe_le]
      exact (List.filter_sublist.map _).subperm

/-- If what is left out is not wanted, every row that is wanted is handed on. -/
theorem least_le_emitted (hscan : providerScan P t.writer.file.io.file t.current loaded projection filters none
      targetPartitions = .ok exec)
    (hsegments : ∀ segments, (t.current.liveSegments.mapM fun entry =>
        segmentReader t.writer.file.io.file entry t.current.layout) = .ok segments →
      (P.keepSegments loaded filters segments).length = segments.length ∧
        ∀ (index : Nat) (data : SegmentData ν), (P.keepSegments loaded filters segments)[index]? = some false →
          segments[index]? = some data → ∀ row ∈ data.rows,
            P.Satisfies t.current.schema filters (padRow env t.current.schema.fields data row) = false)
    (hpages : PagesUnwanted P env filters exec.pages t) {s : exec.Partitions P} (hrun : exec.Run P env t 0 s)
    (hcomplete : s.Complete) :
    (t.current.work.map (Work.least env t projection P filters)).sum ≤ ColumnarScanExec.emitted P s := by
  obtain ⟨keep, hlen, hkept, hzero⟩ := pruneSegments_unwanted P projection filters loaded (fun _ _ _ => rfl) hsegments
  unfold providerScan at hscan
  dsimp only at hscan
  rw [hkept] at hscan
  obtain ⟨hsnapshot, hproj, hlimit, -, hwork, hpos, hprojection⟩ := ColumnarScanExec.new_ok hscan
  have hne : Nonempty (Fin exec.partitionCount) := ⟨⟨0, hpos⟩⟩
  have hdone := State.Run.all_done hrun hcomplete
  subst hproj
  rw [← hsnapshot] at hprojection
  have hmem : ∀ work ∈ exec.work, work ∈ t.current.work := by
    intro work hmem
    rw [hwork] at hmem
    rcases List.mem_append.mp hmem with hmem | hmem
    · obtain ⟨entry, hentry, rfl⟩ := List.mem_map.mp hmem
      exact List.mem_append_left _ (List.mem_map_of_mem ((kept_sublist _ _).subset hentry))
    · exact List.mem_append_right _ hmem
  have hpiece : ∀ work ∈ exec.work, work.least env t exec.projection P filters ≤
      (exec.rowsIn P env t work : Multiset (Row ν)) := by
    intro work hin
    obtain ⟨batches, hbatches⟩ := hdone work hin
    rw [ColumnarScanExec.rowsIn, Queue.results, hbatches]
    exact least_le_rowsIn hsnapshot hprojection hpages (hmem work hin) hbatches
  have hsum := sum_kept hlen hzero
  rw [← Function.comp_def, ← List.map_map, ← List.map_map] at hsum
  calc (t.current.work.map (Work.least env t exec.projection P filters)).sum
      = (exec.work.map (Work.least env t exec.projection P filters)).sum := by
        rw [hwork, Snapshot.work, List.map_append, List.map_append, List.sum_append, List.sum_append, hsum]
    _ ≤ (exec.work.map fun work => (exec.rowsIn P env t work : Multiset (Row ν))).sum := List.sum_le_sum hpiece
    _ = ColumnarScanExec.emitted P s := (emitted_unlimited hlimit hrun hcomplete).symm

end Emitted

section Composes

variable {τ ν σ ω β : Type} [DecidableEq τ] {M : Media τ ν} {O : Comparison ν σ} {C : Codec τ ν β} {E : Engine τ ν σ ω}
  {env : Env τ ν} {stored : SegmentData ν → SegmentMeta β} {t : Table M} {projection : Option (List Nat)}
  {filters : List (Expr σ ω)} {targetPartitions : Nat} {exec : ColumnarScanExec τ ν E.Predicate}

/-- Plan a scan of a snapshot for some partitions (`ColumnarTableProvider::scan`). -/
def columnarScan (C : Codec τ ν β) (E : Engine τ ν σ ω) (stored : SegmentData ν → SegmentMeta β) (file : M.File)
    (s : Snapshot τ ν) (schema : Schema τ) (projection : Option (List Nat)) (filters : List (Expr σ ω)) (limit : Option Nat)
    (targetPartitions : Nat) : Except Error (ColumnarScanExec τ ν E.Predicate) :=
  let candidates := s.liveSegments
  let segments := (prune C E stored schema file s filters candidates).getD candidates
  ColumnarScanExec.new s segments projection limit targetPartitions
    ⟨E.predicates schema filters, referencedColumns schema filters⟩

theorem columnarScan_eq (file : M.File) (s : Snapshot τ ν) (schema : Schema τ) (limit : Option Nat) :
    columnarScan C E stored file s schema projection filters limit targetPartitions =
      providerScan (E.pruner C stored (referencedColumns schema filters)) file s schema projection filters limit
        targetPartitions :=
  congrArg (fun pruned : Option (List SegmentEntry) => ColumnarScanExec.new s (pruned.getD s.liveSegments) projection limit
    targetPartitions ⟨E.predicates schema filters, referencedColumns schema filters⟩) (prune_eq file s s.liveSegments)

omit [DecidableEq τ] in
/-- Where the snapshot reads through itself, every piece of work can be read. -/
theorem readable_of_consistent {ζ : Type} {P : Pruner τ ν ζ} {exec : ColumnarScanExec τ ν P.Predicate} {loaded : Schema τ}
    {filters : List P.Filter} {limit : Option Nat} (htidy : t.Tidy) (hconsistent : t.current.Consistent t.writer.file.io.file)
    (hscan : providerScan P t.writer.file.io.file t.current loaded projection filters limit targetPartitions = .ok exec) :
    exec.Readable P env t := by
  obtain ⟨hsnapshot, -, -, -, hwork, -, hprojection⟩ := ColumnarScanExec.new_ok hscan
  obtain ⟨-, -, hprojection', -⟩ := providerScan_ok hscan
  intro work hmem
  rw [hwork] at hmem
  rcases List.mem_append.mp hmem with hmem | hmem
  · obtain ⟨entry, hentry, rfl⟩ := List.mem_map.mp hmem
    have hlive := (pruneSegments_sublist P loaded t.writer.file.io.file t.current filters _).subset hentry
    obtain ⟨data, hdata⟩ := hconsistent.opens entry hlive
    obtain ⟨keep, hkeep⟩ : ∃ keep, keepPagesOf P exec.toScanPlan t entry = .ok keep := by
      unfold keepPagesOf
      split
      · exact ⟨none, rfl⟩
      · rw [← htidy.shownLayout, hdata]
        exact ⟨_, rfl⟩
    have hread : ∃ batches, readSegmentPages env t.writer.file.io.file P.pageRows exec.snapshot entry exec.projection keep =
        .ok batches ∧ _ := readSegmentPages_rows (hsnapshot ▸ hdata) (keepPagesOf_pos hkeep hdata) hprojection'
    obtain ⟨batches, hread, -⟩ := hread
    exact ⟨batches, bind_eq_ok.mpr ⟨keep, hkeep, hread⟩⟩
  · obtain ⟨batch, hbatch, rfl⟩ := List.mem_map.mp hmem
    rw [← hsnapshot] at hbatch hconsistent
    obtain ⟨batch', hproject, -⟩ := RecordBatch.project_ok (hconsistent.fields batch hbatch) hprojection'
    exact ⟨[batch'], bind_eq_ok.mpr ⟨batch', hproject, rfl⟩⟩

/-- Every live row that satisfies all filters is handed on, as often as it is there: neither the segments that are pruned nor
the pages that are skipped have one. Where the snapshot's segments open, the scan does not fail. -/
theorem pruning_composes {s : exec.Partitions (E.pruner C stored (referencedColumns t.schema.schema filters))}
    (hstirred : Table.Stirred env t) (hsound : E.Sound O env.null)
    (hdescribes : ∀ entry ∈ t.current.liveSegments, ∀ data,
      segmentReader t.writer.file.io.file entry t.current.layout = .ok data →
        (stored data).Describes O C E env t.current.schema data)
    (hscan : columnarScan C E stored t.writer.file.io.file t.current t.schema.schema projection filters none
      targetPartitions = .ok exec)
    (hrun : exec.Run (E.pruner C stored (referencedColumns t.schema.schema filters)) env t 0 s) :
    (s.Complete → (((t.current.work.flatMap (Work.rows env t.writer.file.io.file t.current)).filter fun row =>
        filters.all fun filter => E.truth (t.current.schema.lookup row) filter == some true).map (projectRow projection) :
          Multiset (Row ν)) ≤ ColumnarScanExec.emitted _ s) ∧
      (t.current.Consistent t.writer.file.io.file → (∀ i error, (s.worker i).stage ≠ .failed error) ∧
        ∃ s', State.Run (exec.morsels (E.pruner C stored (referencedColumns t.schema.schema filters)) env t) s s' ∧
          s'.Complete) := by
  have htidy := hstirred.counts.tidy
  have hscan := (columnarScan_eq _ _ _ _).symm.trans hscan
  constructor
  · intro hcomplete
    have hleast : (t.current.work.map (Work.least env t projection
        (E.pruner C stored (referencedColumns t.schema.schema filters)) filters)).sum ≤ ColumnarScanExec.emitted _ s := by
      rw [htidy.shownSchema] at hdescribes
      refine least_le_emitted hscan (fun segments hsegments => ?_) (fun entry hentry data keep hdata hkeep => ?_) hrun hcomplete
      · rw [htidy.shownSchema]
        refine hsound.keepSegments fun data hdata => ?_
        obtain ⟨index, hindex⟩ := List.getElem?_of_mem hdata
        obtain ⟨entry, hentry, hread⟩ := (mapM_getElem? hsegments).mp hindex
        exact hdescribes entry (List.mem_of_getElem? hentry) data hread
      · obtain ⟨-, -, -, hpages, -⟩ := ColumnarScanExec.new_ok hscan
        rw [hpages, htidy.shownSchema] at hkeep
        rw [htidy.shownSchema]
        exact (hsound.keepPages (hdescribes entry hentry data hdata) hkeep).2
    unfold Work.least at hleast
    rw [sum_coe] at hleast
    rw [List.filter_flatMap, List.map_flatMap]
    exact hleast
  · intro hconsistent
    have hreadable : exec.Readable (E.pruner C stored (referencedColumns t.schema.schema filters)) env t :=
      readable_of_consistent htidy hconsistent hscan
    exact ⟨State.Run.not_failed hrun hreadable, State.Run.exists_complete hrun hreadable⟩

end Composes

section Equality

/-- Whether a container may hold a value in a column. -/
def mayHold (statistics : PruningStatistics Unit Nat Nat) (container : Nat) (name : String) (value : Nat) : Bool :=
  ((statistics.minValues name).bind fun array => array.values[container]?.join).all (· ≤ value) &&
    ((statistics.maxValues name).bind fun array => array.values[container]?.join).all (value ≤ ·) &&
    ((statistics.contained name [value]).bind fun answers => answers[container]?.join) != some false

/-- Filters `column = value` on columns of numbers, where zero is null. -/
def equalityEngine : Engine Unit Nat Nat Unit where
  Predicate := String × Nat
  value literal := literal
  text _ := none
  toArray literal := some ⟨(), [some literal]⟩
  scalar _ _ := none
  compare _ left right := do
    let left ← left
    let right ← right
    if left = 0 ∨ right = 0 then none else some (left == right)
  like _ _ _ _ := none
  holds _ _ := none
  build _
    | .binaryExpr (.column name) (.other ()) (.literal value) => some (name, value)
    | _ => none
  prune predicate statistics :=
    .ok ((List.range statistics.numContainers).map fun container => mayHold statistics container predicate.1 predicate.2)

def numberOrder : Comparison Nat Nat where
  le low high := low ≤ high
  equals literal value := literal = value
  bytes _ := []

/-- Bounds are eight bytes, and a membership filter is the list of the members. -/
def numberCodec : Codec Unit Nat (List Nat) where
  decodeBound bytes _ := some ((), ofLe bytes)
  mayContain members probe _ := probe.values.any fun value => value.any (· ∈ members)
  mayContainHash _ _ := true
  checksum _ := 0

/-- Bounds and null count of some numbers. -/
def zoneOf (values : List Nat) : ZoneMap where
  nullCount := values.count 0
  min := ((values.filter (· ≠ 0)).min?.filter (· < 2 ^ 64)).map leBytes
  max := ((values.filter (· ≠ 0)).max?.filter (· < 2 ^ 64)).map leBytes

def columnValues (data : SegmentData Nat) (index : Nat) : List Nat := data.rows.map fun row => (row[index]?).getD 0

/-- What is stored about a segment of numbers, with pages of one row. The first column's filter is damaged. -/
def numberMeta (data : SegmentData Nat) : SegmentMeta (List Nat) where
  columns := (List.range data.columns).map fun index =>
    { zone := zoneOf (columnValues data index)
      bloom := if index = 0 then .error (.corrupt "a membership filter is 0 bytes, which is not whole blocks") else .ok (some (columnValues data index))
      trigram := .ok none
      pageZones := .ok (some ((columnValues data index).map fun value => zoneOf [value])) }
  pageRows := 1

theorem mayHold_of_admits {statistics : PruningStatistics Unit Nat Nat} {container value : Nat} {name : String}
    (h : statistics.Admits numberOrder 0 container name value) (hvalue : value ≠ 0) :
    mayHold statistics container name value = true := by
  have hjoin : ∀ {α : Type} {found : Option (Option α)} {a : α}, found.join = some a → found = some (some a) :=
    Option.join_eq_some_iff.mp
  unfold mayHold
  rw [Bool.and_eq_true, Bool.and_eq_true, Option.all_eq_true, Option.all_eq_true, bne_iff_ne]
  refine ⟨⟨fun low hlow => ?_, fun high hhigh => ?_⟩, fun hfalse => ?_⟩
  · obtain ⟨array, harray, hlow⟩ := Option.bind_eq_some_iff.mp hlow
    exact decide_eq_true (h.min array low harray (hjoin hlow) hvalue)
  · obtain ⟨array, harray, hhigh⟩ := Option.bind_eq_some_iff.mp hhigh
    exact decide_eq_true (h.max array high harray (hjoin hhigh) hvalue)
  · obtain ⟨answers, hanswers, hfalse⟩ := Option.bind_eq_some_iff.mp hfalse
    exact h.absent [value] answers hanswers (hjoin hfalse) hvalue value List.mem_cons_self rfl

theorem equalityEngine_sound : equalityEngine.Sound numberOrder 0 where
  prune := by
    intro schema filter predicate hbuild statistics verdicts hprune container hcontainer hfalse look hadmits htruth
    unfold equalityEngine at hbuild
    dsimp only at hbuild
    split at hbuild
    · next name value =>
        obtain rfl := Option.some.inj hbuild
        obtain ⟨found, hfound, htruth⟩ := Option.bind_eq_some_iff.mp htruth
        obtain ⟨literal, hliteral, htruth⟩ := Option.bind_eq_some_iff.mp htruth
        obtain rfl := Option.some.inj hliteral
        obtain ⟨hnull, htruth⟩ := Option.ite_none_left_eq_some.mp htruth
        obtain rfl := beq_iff_eq.mp (Option.some.inj htruth)
        have hmay := mayHold_of_admits (hadmits name found hfound) fun hzero => hnull (.inl hzero)
        rw [← Except.ok.inj hprune, List.getElem?_map, List.getElem?_range hcontainer, Option.map_some, Option.some.injEq,
          hmay] at hfalse
        cases hfalse
    · cases hbuild
  like h := by cases h

theorem zoneOf_covers {values : List Nat} {value : Nat} (hvalue : value ∈ values) :
    (zoneOf values).Covers numberOrder 0 numberCodec () values.length value where
  min := by
    intro type low hlow hnull
    obtain ⟨bytes, hbytes, hlow⟩ := Option.bind_eq_some_iff.mp hlow
    obtain ⟨least, hleast, rfl⟩ := Option.map_eq_some_iff.mp hbytes
    obtain ⟨hleast, hbound⟩ := Option.filter_eq_some_iff.mp hleast
    obtain rfl := (Prod.mk.inj (Option.some.inj hlow)).2
    refine (ofLe_leBytes (of_decide_eq_true hbound)).trans_le ?_
    exact (List.min?_eq_some_iff.mp hleast).2 value (List.mem_filter.mpr ⟨hvalue, decide_eq_true hnull⟩)
  max := by
    intro type high hhigh hnull
    obtain ⟨bytes, hbytes, hhigh⟩ := Option.bind_eq_some_iff.mp hhigh
    obtain ⟨greatest, hgreatest, rfl⟩ := Option.map_eq_some_iff.mp hbytes
    obtain ⟨hgreatest, hbound⟩ := Option.filter_eq_some_iff.mp hgreatest
    obtain rfl := (Prod.mk.inj (Option.some.inj hhigh)).2
    refine Nat.le_trans ?_ (ofLe_leBytes (of_decide_eq_true hbound)).ge
    exact (List.max?_eq_some_iff.mp hgreatest).2 value (List.mem_filter.mpr ⟨hvalue, decide_eq_true hnull⟩)
  nulls := by
    intro hzero hnull
    exact List.count_eq_zero.mp hzero (hnull ▸ hvalue)
  allNull := by
    intro htotal
    exact (List.count_eq_length.mp htotal value hvalue).symm

theorem cell_eq {env : Env Unit Nat} {fields : List (Field Unit)} {data : SegmentData Nat} {row : Row Nat}
    (hlen : row.length = data.columns) {index value : Nat} (hindex : index < data.columns)
    (hvalue : (padRow env fields data row)[index]? = some value) : (row[index]?).getD 0 = value := by
  rw [padRow_getElem hlen hindex] at hvalue
  rw [hvalue]
  rfl

theorem numberMeta_column {data : SegmentData Nat} {index : Nat} {chunk : ColumnMeta (List Nat)}
    (h : (numberMeta data).columns[index]? = some chunk) : index < data.columns ∧
      chunk.zone = zoneOf (columnValues data index) ∧
      (∀ members, chunk.bloom = .ok (some members) → members = columnValues data index) ∧
      chunk.trigram = .ok none ∧ chunk.pageZones = .ok (some ((columnValues data index).map fun value => zoneOf [value])) := by
  have hindex : index < data.columns := by
    have hlt := (List.getElem?_eq_some_iff.mp h).1
    simpa [numberMeta] using hlt
  have hchunk := h
  simp only [numberMeta, List.getElem?_map, List.getElem?_range hindex, Option.map_some, Option.some.injEq] at hchunk
  subst hchunk
  refine ⟨hindex, rfl, fun members hmembers => ?_, rfl, rfl⟩
  dsimp only at hmembers
  split at hmembers
  · cases hmembers
  · exact (Option.some.inj (Except.ok.inj hmembers)).symm

theorem numberMeta_describes {env : Env Unit Nat} (hnull : env.null = 0) {schema : Schema Unit} {data : SegmentData Nat}
    (hrows : ∀ row ∈ data.rows, row.length = data.columns) :
    (numberMeta data).Describes numberOrder numberCodec equalityEngine env schema data where
  zone := by
    intro index chunk field hchunk _ row hrow value hvalue
    obtain ⟨hindex, hzone, -⟩ := numberMeta_column hchunk
    have hmem : value ∈ columnValues data index :=
      List.mem_map.mpr ⟨row, hrow, cell_eq (hrows row hrow) hindex hvalue⟩
    have hcovers := zoneOf_covers hmem
    rw [columnValues, List.length_map] at hcovers
    rw [hzone, hnull]
    exact hcovers
  bloom := by
    intro index chunk field members hchunk _ hbloom row hrow value hvalue literal probe hprobe habsent _ heq
    obtain ⟨hindex, -, hmembers, -⟩ := numberMeta_column hchunk
    have hmem : value ∈ columnValues data index :=
      List.mem_map.mpr ⟨row, hrow, cell_eq (hrows row hrow) hindex hvalue⟩
    obtain rfl := hmembers members hbloom
    obtain rfl := Option.some.inj hprobe
    obtain rfl : literal = value := heq
    simp [numberCodec, hmem] at habsent
  trigram := by
    intro index chunk members hchunk htrigram
    rw [(numberMeta_column hchunk).2.2.2.1] at htrigram
    cases htrigram
  page := by
    intro index chunk field zones page zone hchunk _ hzones hzone position row hrow hpage value hvalue
    obtain ⟨hindex, -, -, -, hpages⟩ := numberMeta_column hchunk
    have hposition : position = page := (Nat.div_one position).symm.trans hpage
    subst hposition
    have hlt : position < data.rows.length := (List.getElem?_eq_some_iff.mp hrow).1
    have hcell := cell_eq (hrows row (List.mem_of_getElem? hrow)) hindex hvalue
    rw [hpages, Except.ok.injEq, Option.some.injEq] at hzones
    rw [← hzones, List.getElem?_map, columnValues, List.getElem?_map, hrow, Option.map_some, Option.map_some,
      Option.some.injEq, hcell] at hzone
    have htotal : min (numberMeta data).pageRows (data.rows.length - position * (numberMeta data).pageRows) = 1 := by
      dsimp only [numberMeta]
      omega
    rw [← hzone, htotal, hnull]
    exact zoneOf_covers (List.mem_singleton.mpr rfl)

/-- The rows where `b` is two. -/
def twoFilter : List (Expr Nat Unit) := [.binaryExpr (.column "b") (.other ()) (.literal 2)]

/-- A scan for them, of a table with two rows, each on a page of its own. -/
def equalityScan : Except Error (PlainTable × ColumnarScanExec Unit Nat (String × Nat)) := do
  let t ← flushedPairs
  let exec ← columnarScan numberCodec equalityEngine numberMeta t.writer.file.io.file t.current t.schema.schema none twoFilter
    none 2
  return (t, exec)

/-- Of the two rows one is wanted, and only its page is read. -/
def readsOne (t : PlainTable) (exec : ColumnarScanExec Unit Nat (String × Nat)) : Bool :=
  decide ((((t.current.work.flatMap (Work.rows scanEnv t.writer.file.io.file t.current)).filter fun row =>
      twoFilter.all fun filter => equalityEngine.truth (t.current.schema.lookup row) filter == some true).map
        (projectRow none)) = [[1, 2]] ∧
    (exec.available (equalityEngine.pruner numberCodec numberMeta (referencedColumns t.schema.schema twoFilter))
      scanEnv t).card = 1)

theorem rowsFit_describes {t : PlainTable} (h : rowsFit t = true) : ∀ entry ∈ t.current.liveSegments, ∀ data,
    segmentReader t.writer.file.io.file entry t.current.layout = .ok data →
      (numberMeta data).Describes numberOrder numberCodec equalityEngine scanEnv t.current.schema data := by
  intro entry hentry data hdata
  rw [rowsFit, Bool.and_eq_true, List.all_eq_true] at h
  have hfit := h.2 entry hentry
  rw [hdata] at hfit
  exact numberMeta_describes rfl (of_decide_eq_true hfit).2

/-- The one row that is wanted is handed on, and the other page is never read. -/
theorem equality_scan_finds_row : ∃ (t : PlainTable) (exec : ColumnarScanExec Unit Nat (String × Nat))
    (s : exec.Partitions (equalityEngine.pruner numberCodec numberMeta (referencedColumns t.schema.schema twoFilter))),
    equalityScan = .ok (t, exec) ∧ t.current.liveSegments ≠ [] ∧
      exec.Run (equalityEngine.pruner numberCodec numberMeta (referencedColumns t.schema.schema twoFilter)) scanEnv t 0 s ∧
      s.Complete ∧ ColumnarScanExec.emitted _ s = {[1, 2]} := by
  have hcheck : (equalityScan.toOption.any fun result =>
      rowsFit result.1 && readsOne result.1 result.2 && decide (result.1.current.liveSegments ≠ [])) = true := by
    decide +kernel
  cases hscan : equalityScan with
  | error e =>
      rw [hscan] at hcheck
      cases hcheck
  | ok result =>
      obtain ⟨t, exec⟩ := result
      rw [hscan] at hcheck
      obtain ⟨hcheck, hlive⟩ := Bool.and_eq_true_iff.mp hcheck
      obtain ⟨hfit, hone⟩ := Bool.and_eq_true_iff.mp hcheck
      obtain ⟨hwanted, hcard⟩ := of_decide_eq_true hone
      obtain ⟨t', htable, hplanned⟩ := bind_eq_ok.mp hscan
      obtain ⟨exec', hexec, hplanned⟩ := bind_eq_ok.mp hplanned
      obtain ⟨rfl, rfl⟩ := Prod.mk.inj (Except.ok.inj hplanned)
      have hstirred := flushedPairs_stirred htable
      have hdescribes := rowsFit_describes hfit
      obtain ⟨-, hruns⟩ := pruning_composes hstirred equalityEngine_sound hdescribes hexec .refl
      obtain ⟨-, s, hrun, hcomplete⟩ := hruns (rowsFit_consistent hfit).1
      refine ⟨t', exec', s, rfl, of_decide_eq_true hlive, hrun, hcomplete, ?_⟩
      have hleast := (pruning_composes hstirred equalityEngine_sound hdescribes hexec hrun).1 hcomplete
      rw [hwanted] at hleast
      have hprovider := (columnarScan_eq _ _ _ _).symm.trans hexec
      have hlimit := (ColumnarScanExec.new_ok hprovider).2.2.1
      have hne : Nonempty (Fin exec'.partitionCount) := ⟨⟨0, (providerScan_ok hprovider).2.1⟩⟩
      refine (Multiset.eq_of_le_of_card_le hleast ?_).symm
      rw [emitted_unlimited hlimit hrun hcomplete, hcard]
      rfl

end Equality

end LocalTables
