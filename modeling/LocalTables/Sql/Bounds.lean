import LocalTables.Sql.Pruning

/-! What zone maps are built to say of their rows, for a whole column chunk and for each of its pages. -/

namespace LocalTables

/-- How what is stored beside a segment's rows is read back. -/
def arrowCodec (H : Hashing) (cast : ArrayRef DataType Value → DataType → Option (ArrayRef DataType Value)) :
    Codec DataType Value BloomFilter where
  decodeBound bytes dataType := decodeBound bytes dataType
  mayContain filter value dataType := filter.mayContain H cast value dataType
  mayContainHash filter hash := filter.mayContainHash hash
  checksum := H.checksum

section Order

variable {H : Hashing} {cast : ArrayRef DataType Value → DataType → Option (ArrayRef DataType Value)} {K : Aggregates}
  {array : ArrowArray} {type : DataType} {bound v : Value} {row : Nat}

theorem ZoneMap.build_min (htyped : array.WellTyped)
    (h : (ZoneMap.build K array).minArray (arrowCodec H cast) array.dataType = some (type, bound))
    (hv : array.value row = some v) : array.dataType.Le bound v := by
  obtain ⟨stored, hstored, hread⟩ := Option.bind_eq_some_iff.mp h
  obtain ⟨bytes, hbytes, rfl⟩ := Option.map_eq_some_iff.mp hstored
  exact boundsOf_min K htyped hbytes hread hv

theorem ZoneMap.build_max (htyped : array.WellTyped)
    (h : (ZoneMap.build K array).maxArray (arrowCodec H cast) array.dataType = some (type, bound))
    (hv : array.value row = some v) : array.dataType.Le v bound := by
  obtain ⟨stored, hstored, hread⟩ := Option.bind_eq_some_iff.mp h
  obtain ⟨bytes, hbytes, hcut⟩ := Option.bind_eq_some_iff.mp hstored
  exact boundsOf_max K htyped hbytes hcut hread hv

/-- A zone map bounds the values of the rows of a range, as a reader of a type gets the bounds back. -/
structure ZoneMap.Bounds (C : Codec DataType Value BloomFilter) (array : ArrowArray) (zone : ZoneMap) (start len : Nat) :
    Prop where
  min : ∀ type low, zone.minArray C array.dataType = some (type, low) → ∀ row, start ≤ row → row < start + len →
    ∀ v, array.value row = some v → array.dataType.Le low v
  max : ∀ type high, zone.maxArray C array.dataType = some (type, high) → ∀ row, start ≤ row → row < start + len →
    ∀ v, array.value row = some v → array.dataType.Le v high

/-- The zone map of a slice bounds the rows of its range. -/
theorem ZoneMap.build_slice_bounds (htyped : array.WellTyped) (start len : Nat) :
    (ZoneMap.build K (array.slice start len)).Bounds (arrowCodec H cast) array start len := by
  have hvalue : ∀ row, start ≤ row → row < start + len → (array.slice start len).value (row - start) = array.value row := by
    intro row hlow hhigh
    rw [ArrowArray.value_slice (by omega), Nat.add_sub_cancel' hlow]
  refine ⟨fun type low h row hlow hhigh v hv => ?_, fun type high h row hlow hhigh v hv => ?_⟩
  · rw [← hvalue row hlow hhigh] at hv
    rw [← ArrowArray.dataType_slice array start len] at h ⊢
    exact build_min (htyped.slice start len) h hv
  · rw [← hvalue row hlow hhigh] at hv
    rw [← ArrowArray.dataType_slice array start len] at h ⊢
    exact build_max (htyped.slice start len) h hv

/-- The page a zone map is for, as `page_range` has it. -/
theorem pageRange_of_zone {pageRows : Nat} {zones : List ZoneMap} (h : pageZones K array pageRows = some zones) {page : Nat}
    {zone : ZoneMap} (hzone : zones[page]? = some zone) : ∃ start len,
      pageRange (storedPageRows array.len pageRows) array.len page = some (start, len) ∧ start + len ≤ array.len ∧
        zone = ZoneMap.build K (array.slice start len) := by
  obtain ⟨hpages, hstart, hbuilt⟩ := pageZones_get h hzone
  have hrows : 0 < pageRows := by
    refine Nat.pos_of_ne_zero fun hzero => ?_
    rw [pageCount, if_pos hzero] at hpages
    cases hpages
  refine ⟨page * pageRows, min pageRows (array.len - page * pageRows), ?_, by omega, hbuilt⟩
  rw [storedPageRows, if_pos hpages, pageRange, if_neg hrows.ne', if_pos hstart]

/-- The bounds a zone map gives hold for every value of its array, and those of a page for every value of the rows of the
page. -/
theorem zone_map_bounds_hold (H : Hashing) (cast : ArrayRef DataType Value → DataType → Option (ArrayRef DataType Value))
    (K : Aggregates) {array : ArrowArray} (htyped : array.WellTyped) :
    (ZoneMap.build K array).Bounds (arrowCodec H cast) array 0 array.len ∧
      ∀ (pageRows : Nat) (zones : List ZoneMap), pageZones K array pageRows = some zones →
        ∀ (page : Nat) (zone : ZoneMap), zones[page]? = some zone → ∃ start len,
          pageRange (storedPageRows array.len pageRows) array.len page = some (start, len) ∧
            zone.Bounds (arrowCodec H cast) array start len := by
  refine ⟨⟨fun type low h row _ _ v hv => ?_, fun type high h row _ _ v hv => ?_⟩, ?_⟩
  · exact ZoneMap.build_min htyped h hv
  · exact ZoneMap.build_max htyped h hv
  · intro pageRows zones hzones page zone hzone
    obtain ⟨start, len, hrange, -, rfl⟩ := pageRange_of_zone hzones hzone
    exact ⟨start, len, hrange, ZoneMap.build_slice_bounds htyped start len⟩

end Order

section Texts

/-- A cast that is never made. -/
def noCast : ArrayRef DataType Value → DataType → Option (ArrayRef DataType Value) := fun _ _ => none

/-- Text behind a dictionary: a long value, and one that no key names. -/
def longTexts : ArrowArray :=
  .dictionary .int32 (.leaf .utf8) [some 1, none, some 0, some 1]
    (.leaf .utf8 [some (.bytes (List.replicate 65 0x61)), some (.bytes [0x62]), some (.bytes (List.replicate 70 0x7a)), none])

theorem longTexts_wellTyped : longTexts.WellTyped := by
  refine ⟨rfl, fun value hvalue v hv => ?_⟩
  subst hv
  simp only [List.mem_cons, Option.some.injEq, List.not_mem_nil, or_false, reduceCtorEq] at hvalue
  rcases hvalue with rfl | rfl | rfl <;> trivial

/-- The minimum is cut, the maximum is rounded up. -/
theorem long_texts_bounded :
    (ZoneMap.build plainAggregates longTexts).minArray (arrowCodec plainHashing noCast) longTexts.dataType =
        some (.leaf .utf8, .bytes (List.replicate 64 0x61)) ∧
      (ZoneMap.build plainAggregates longTexts).maxArray (arrowCodec plainHashing noCast) longTexts.dataType =
        some (.leaf .utf8, .bytes (List.replicate 63 0x7a ++ [0x7b])) ∧
      (ZoneMap.build plainAggregates longTexts).Bounds (arrowCodec plainHashing noCast) longTexts 0 4 :=
  ⟨by decide +kernel, by decide +kernel, (zone_map_bounds_hold plainHashing noCast plainAggregates longTexts_wellTyped).1⟩

end Texts

section Nulls

variable {σ : Type}

/-- `IS NULL` is ruled out for a container: it is said to hold no null. -/
def PruningStatistics.RulesOutIsNull (statistics : PruningStatistics DataType Value σ) (container : Nat) (name : String) :
    Prop :=
  ∃ counts, statistics.nullCounts name = some counts ∧ counts[container]? = some (some 0)

/-- `IS NOT NULL` is ruled out for a container: it is said to hold nothing else. -/
def PruningStatistics.RulesOutIsNotNull (statistics : PruningStatistics DataType Value σ) (container : Nat) (name : String) :
    Prop :=
  ∃ counts rows total, statistics.nullCounts name = some counts ∧ statistics.rowCounts = some rows ∧
    counts[container]? = some (some total) ∧ rows[container]? = some total

/-- What is ruled out for a container is not there, in these rows of the array. -/
structure PruningStatistics.RightAboutNulls (statistics : PruningStatistics DataType Value σ) (container : Nat) (name : String)
    (array : ArrowArray) (start len : Nat) : Prop where
  isNull : statistics.RulesOutIsNull container name → ∀ row, start ≤ row → row < start + len → array.readsNull row = false
  isNotNull : statistics.RulesOutIsNotNull container name → ∀ row, start ≤ row → row < start + len → array.readsNull row = true

/-- How many rows of a range read as null. -/
def ArrowArray.nullsIn (array : ArrowArray) (start len : Nat) : Nat :=
  ((List.range len).filter fun row => array.readsNull (start + row)).length

/-- The null counts recorded of an array and its pages are right, and so is what pruning concludes from them. -/
structure NullCountsRight (K : Aggregates) (array : ArrowArray) (pageRows : Nat) : Prop where
  chunk : (ZoneMap.build K array).nullCount = array.logicalNullCount
  page : ∀ zones, pageZones K array pageRows = some zones → ∀ (page : Nat) (zone : ZoneMap), zones[page]? = some zone →
    ∀ start len, pageRange (storedPageRows array.len pageRows) array.len page = some (start, len) →
      zone.nullCount = array.nullsIn start len
  segments : ∀ {σ ω : Type} (C : Codec DataType Value BloomFilter) (E : Engine DataType Value σ ω) (schema : Schema DataType)
    (segments : List (SegmentZoneMaps BloomFilter)) (container index : Nat) (segment : SegmentZoneMaps BloomFilter)
    (name : String), schema.indexOf name = some index → segments[container]? = some segment →
    segment.columns[index]? = some (ZoneMap.build K array) → segment.rowCount = array.len →
      (SegmentStatistics C E schema segments).RightAboutNulls container name array 0 array.len
  pages : ∀ {σ : Type} (C : Codec DataType Value BloomFilter) (schema : Schema DataType)
    (columns : List (Option (List ZoneMap))) (rows : List Nat) (page index start len : Nat) (zones : List ZoneMap) (name : String),
    schema.indexOf name = some index → pageZones K array pageRows = some zones → columns[index]? = some (some zones) →
    pageRange (storedPageRows array.len pageRows) array.len page = some (start, len) → rows[page]? = some len →
      (PageStatistics (σ := σ) C schema columns rows).RightAboutNulls page name array start len

variable {K : Aggregates} {array : ArrowArray} {pageRows start len : Nat}

/-- No row reads as null unless the array's own bitmap says so. -/
def ArrowArray.NullsOwn (array : ArrowArray) : Prop := ∀ row < array.len, array.readsNull row = true → array.isNull row = true

/-- Of two counts over a list, one of them of fewer elements, the two agree when the elements do. -/
theorem length_filter_eq_iff {α : Type} {p q : α → Bool} {xs : List α} (h : ∀ x ∈ xs, p x = true → q x = true) :
    (xs.filter p).length = (xs.filter q).length ↔ ∀ x ∈ xs, q x = true → p x = true := by
  have hnested : xs.filter p = (xs.filter q).filter p := by
    rw [List.filter_filter]
    refine List.filter_congr fun x hx => ?_
    cases hp : p x with
    | false => rfl
    | true => rw [h x hx hp, Bool.and_true]
  rw [hnested, List.length_filter_eq_length_iff]
  exact ⟨fun hall x hx hq => hall x (List.mem_filter.mpr ⟨hx, hq⟩), fun hall x hx =>
    hall x (List.mem_filter.mp hx).1 (List.mem_filter.mp hx).2⟩

theorem nullCount_slice (hin : start + len ≤ array.len) :
    (array.slice start len).nullCount = ((List.range len).filter fun row => array.isNull (start + row)).length := by
  have hlen : (array.slice start len).len = len := by
    rw [ArrowArray.len_slice]
    omega
  rw [ArrowArray.nullCount, hlen]
  exact congrArg List.length (List.filter_congr fun row hrow => ArrowArray.isNull_slice (List.mem_range.mp hrow))

theorem nullCount_slice_whole : (array.slice 0 array.len).nullCount = array.nullCount := by
  rw [nullCount_slice (Nat.zero_add array.len).le, ArrowArray.nullCount]
  simp only [Nat.zero_add]

/-- The null count of a range counts the rows that read as null, when every null is the array's own. -/
theorem nullCount_slice_eq (h : array.NullsOwn) (hin : start + len ≤ array.len) :
    (array.slice start len).nullCount = array.nullsIn start len := by
  rw [nullCount_slice hin, ArrowArray.nullsIn, length_filter_eq_iff fun row _ => ArrowArray.readsNull_of_isNull]
  intro row hrow hreads
  rw [List.mem_range] at hrow
  exact h (start + row) (by omega) hreads

theorem nullCount_eq_iff : array.nullCount = array.logicalNullCount ↔ array.NullsOwn := by
  rw [ArrowArray.nullCount, ArrowArray.logicalNullCount, length_filter_eq_iff fun row _ => ArrowArray.readsNull_of_isNull]
  exact ⟨fun h row hrow => h row (List.mem_range.mpr hrow), fun h row hrow => h row (List.mem_range.mp hrow)⟩

/-- A count that is reported of a range of rows rules out nothing that is there, when every null is the array's own. -/
theorem rightAboutNulls {statistics : PruningStatistics DataType Value σ} {container : Nat} {name : String} (h : array.NullsOwn)
    (hin : start + len ≤ array.len)
    (hcount : ∀ counts, statistics.nullCounts name = some counts → ∀ count, counts[container]? = some (some count) →
      count = (array.slice start len).nullCount)
    (hrows : ∀ rows, statistics.rowCounts = some rows → ∀ count, rows[container]? = some count → count = len) :
    statistics.RightAboutNulls container name array start len := by
  have hslice := nullCount_slice_eq h hin
  refine ⟨?_, ?_⟩
  · rintro ⟨counts, hcounts, hzero⟩ row hlow hhigh
    have hnone := (hcount counts hcounts 0 hzero).trans hslice
    rw [ArrowArray.nullsIn, eq_comm, List.length_eq_zero_iff, List.filter_eq_nil_iff] at hnone
    have hrow := hnone (row - start) (List.mem_range.mpr (by omega))
    rwa [Nat.add_sub_cancel' hlow, Bool.not_eq_true] at hrow
  · rintro ⟨counts, rows, total, hcounts, hrowCounts, htotal, hrow⟩ row hlow hhigh
    obtain rfl := hrows rows hrowCounts total hrow
    have hall := (hcount counts hcounts total htotal).trans hslice
    have hrange : ((List.range total).filter fun row => array.readsNull (start + row)).length = (List.range total).length := by
      rw [List.length_range]
      exact hall.symm
    have := List.length_filter_eq_length_iff.mp hrange (row - start) (List.mem_range.mpr (by omega))
    rwa [Nat.add_sub_cancel' hlow] at this

/-- The null counts are right, for the chunk and for every page, exactly when every row that reads as null is null in the
array's own bitmap. -/
theorem null_counts_logical_iff (K : Aggregates) (array : ArrowArray) (pageRows : Nat) :
    NullCountsRight K array pageRows ↔ array.NullsOwn := by
  constructor
  · exact fun h => nullCount_eq_iff.mp h.chunk
  · intro h
    have hpage : ∀ {zones : List ZoneMap}, pageZones K array pageRows = some zones → ∀ {page : Nat} {zone : ZoneMap},
        zones[page]? = some zone → ∀ {start len : Nat},
          pageRange (storedPageRows array.len pageRows) array.len page = some (start, len) →
            start + len ≤ array.len ∧ zone.nullCount = (array.slice start len).nullCount := by
      intro zones hzones page zone hzone start len hrange
      obtain ⟨start', len', hrange', hin, rfl⟩ := pageRange_of_zone hzones hzone
      obtain ⟨rfl, rfl⟩ := Prod.mk.inj (Option.some.inj (hrange.symm.trans hrange'))
      exact ⟨hin, rfl⟩
    refine ⟨nullCount_eq_iff.mpr h, ?_, ?_, ?_⟩
    · intro zones hzones page zone hzone start len hrange
      obtain ⟨hin, hcount⟩ := hpage hzones hzone hrange
      rw [hcount, nullCount_slice_eq h hin]
    · intro σ ω C E schema segments container index segment name hindex hsegment hzone hrows
      refine rightAboutNulls h (Nat.zero_add array.len).le (fun counts hcounts count hcount => ?_) fun rows hrowCounts count hrow => ?_
      · obtain ⟨⟨index', dataType⟩, hcolumn, rfl⟩ := Option.map_eq_some_iff.mp hcounts
        obtain ⟨other, hother, hfield⟩ := Option.bind_eq_some_iff.mp hcolumn
        obtain ⟨field, -, hpair⟩ := Option.bind_eq_some_iff.mp hfield
        obtain ⟨rfl, -⟩ := Prod.mk.inj (Option.some.inj hpair)
        obtain rfl := Option.some.inj (hother.symm.trans hindex)
        rw [List.getElem?_map, hsegment, Option.map_some, Option.some.injEq, hzone, Option.map_some, Option.some.injEq] at hcount
        rw [nullCount_slice_whole]
        exact hcount.symm
      · rw [← Option.some.inj hrowCounts, List.getElem?_map, hsegment, Option.map_some, Option.some.injEq] at hrow
        rw [← hrow, hrows]
    · intro σ C schema columns rows page index start len zones name hindex hzones hcolumn hrange hrows
      have hin : start + len ≤ array.len := by
        unfold pageRange at hrange
        split at hrange
        · cases hrange
        · split at hrange
          · obtain ⟨rfl, rfl⟩ := Prod.mk.inj (Option.some.inj hrange)
            omega
          · cases hrange
      refine rightAboutNulls h hin (fun counts hcounts count hcount => ?_) fun rows' hrowCounts count hrow => ?_
      · obtain ⟨⟨zones', dataType⟩, hknown, rfl⟩ := Option.map_eq_some_iff.mp hcounts
        obtain ⟨other, hother, hknown⟩ := Option.bind_eq_some_iff.mp hknown
        obtain rfl := Option.some.inj (hother.symm.trans hindex)
        obtain ⟨column, hcolumn', hknown⟩ := Option.bind_eq_some_iff.mp hknown
        obtain ⟨found, hfound, hknown⟩ := Option.bind_eq_some_iff.mp hknown
        obtain ⟨field, -, hknown⟩ := Option.bind_eq_some_iff.mp hknown
        obtain ⟨-, hpair⟩ := Option.ite_none_left_eq_some.mp hknown
        obtain ⟨rfl, -⟩ := Prod.mk.inj (Option.some.inj hpair)
        obtain rfl := Option.some.inj (hcolumn.symm.trans hcolumn')
        obtain rfl := Option.some.inj hfound
        rw [List.getElem?_map] at hcount
        obtain ⟨zone, hzone, hcount⟩ := Option.map_eq_some_iff.mp hcount
        rw [← Option.some.inj hcount]
        exact (hpage hzones hzone hrange).2
      · rw [← Option.some.inj hrowCounts, hrows, Option.some.injEq] at hrow
        exact hrow.symm

/-- Two rows of text behind a dictionary, the second a key of a null. -/
def nullBehindKey : ArrowArray :=
  .dictionary .int32 (.leaf .utf8) [some 0, some 1] (.leaf .utf8 [some (.bytes [0x61]), none])

/-- The null behind the key is not counted. -/
theorem null_behind_key_not_counted : nullBehindKey.WellTyped ∧ (ZoneMap.build plainAggregates nullBehindKey).nullCount = 0 ∧
    nullBehindKey.readsNull 1 = true ∧ ¬NullCountsRight plainAggregates nullBehindKey 0 := by
  have hcount : (ZoneMap.build plainAggregates nullBehindKey).nullCount = 0 := by decide
  refine ⟨⟨rfl, fun value hvalue v hv => ?_⟩, hcount, by decide, fun hright => ?_⟩
  · subst hv
    simp only [List.mem_cons, Option.some.injEq, List.not_mem_nil, or_false, reduceCtorEq] at hvalue
    subst hvalue
    trivial
  · have hlogical := hright.chunk
    rw [hcount] at hlogical
    exact absurd hlogical (by decide)

end Nulls

end LocalTables

