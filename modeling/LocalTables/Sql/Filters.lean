import LocalTables.Sql.Bounds

/-! What the filters of a segment may be asked, and what their answers are worth: the pieces a `LIKE` pattern requires of its
matches, and the values a membership filter was built over. -/

namespace LocalTables

section Patterns

variable {pattern : String} {piece : Trigram}

/-- What a filter is asked of a pattern stands in every text the pattern matches, and so no filter over values that hold such
a text denies it. -/
structure LikePiecesRequired (pattern : String) : Prop where
  required : ∀ text, Like.Matches (Like.tokens pattern.toList) text → ∀ piece ∈ required pattern, piece.toList <:+: utf8 text
  kept : ∀ {σ ω : Type} (H : Hashing) (cast : ArrayRef DataType Value → DataType → Option (ArrayRef DataType Value))
    (array : ArrowArray) (bitsPerValue maxBytes : Nat) (filter : BloomFilter),
    Trigram.build H array bitsPerValue maxBytes = some filter →
      ∀ (E : Engine DataType Value σ ω) (schema : Schema DataType) (name : String) (literal : σ), E.text literal = some pattern →
        ∀ requirement ∈ E.collectSubstrings schema (.like false (.column name) (.literal literal) none false),
          ∀ segment : SegmentZoneMaps BloomFilter, findFilter segment.trigrams requirement.1 = some filter →
            ∀ row < array.len, array.isNull row = false → ∀ text, array.value row = some (.bytes (utf8 text)) →
              Like.Matches (Like.tokens pattern.toList) text → segment.mayMatch (arrowCodec H cast) requirement = true

/-- Three bytes of a pattern that hold no wildcard also stand in one of its literal runs, as the pattern is read. -/
def PiecesLiteral (pattern : String) : Prop :=
  ∀ piece ∈ trigrams (utf8 pattern.toList), piece.Plain →
    ∃ run ∈ Like.literalRuns (Like.tokens pattern.toList), piece ∈ trigrams (utf8 run)

/-- Of four characters, one has no byte in a piece. -/
theorem exists_filler (piece : Trigram) : ∃ filler : Char, filler.toNat < 0x80 ∧ UInt8.ofNat filler.toNat ∉ piece.toList := by
  by_contra hnone
  have hall : ∀ filler ∈ ['a', 'b', 'c', 'd'], UInt8.ofNat filler.toNat ∈ piece.toList := by
    intro filler hfiller
    by_contra hmem
    have hlow : filler.toNat < 0x80 := by
      simp only [List.mem_cons, List.not_mem_nil, or_false] at hfiller
      rcases hfiller with rfl | rfl | rfl | rfl <;> decide
    exact hnone ⟨filler, hlow, hmem⟩
  have hsub : (['a', 'b', 'c', 'd'].map fun filler => UInt8.ofNat filler.toNat) ⊆ piece.toList := by
    intro byte hbyte
    obtain ⟨filler, hfiller, rfl⟩ := List.mem_map.mp hbyte
    exact hall filler hfiller
  have hnodup : (['a', 'b', 'c', 'd'].map fun filler => UInt8.ofNat filler.toNat).Nodup := by decide +kernel
  have hlen := (List.Nodup.subperm hnodup hsub).length_le
  simp [Trigram.toList] at hlen

/-- What does not hold the filler stands in one of the runs it is put between. -/
theorem infix_runs {part : Bytes} {filler : Char} (hlow : filler.toNat < 0x80) (hfree : UInt8.ofNat filler.toNat ∉ part)
    (first : List Char) (rest : List (List Char)) (h : part <:+: utf8 (first ++ rest.flatMap fun run => filler :: run)) :
    ∃ run ∈ first :: rest, part <:+: utf8 run := by
  induction rest generalizing first with
  | nil =>
      rw [List.flatMap_nil, List.append_nil] at h
      exact ⟨first, List.mem_cons_self, h⟩
  | cons run rest ih =>
      rw [List.flatMap_cons, List.cons_append, utf8_append, utf8_cons, utf8EncodeChar_ascii hlow, List.singleton_append,
        infix_append_cons hfree] at h
      rcases h with hfirst | hrest
      · exact ⟨first, List.mem_cons_self, hfirst⟩
      · obtain ⟨found, hfound, hpart⟩ := ih run hrest
        exact ⟨found, List.mem_cons_of_mem first hfound, hpart⟩

/-- The pieces a pattern is said to require stand in every match exactly when its escapes put none together: when each three
bytes of it without a wildcard are three bytes of a literal run. -/
theorem like_pieces_required_iff (pattern : String) : LikePiecesRequired pattern ↔ PiecesLiteral pattern := by
  constructor
  · intro h piece hpiece hplain
    obtain ⟨filler, hlow, hfree⟩ := exists_filler piece
    have hmatch := Like.matches_fill filler (Like.tokens pattern.toList)
    have hin := h.required _ hmatch piece (mem_required_iff.mpr ⟨hpiece, hplain⟩)
    rw [Like.fill_eq] at hin
    obtain ⟨run, hrun, hpart⟩ := infix_runs hlow hfree _ _ hin
    exact ⟨run, hrun, mem_trigrams.mpr hpart⟩
  · intro h
    have hrequired : ∀ text, Like.Matches (Like.tokens pattern.toList) text → ∀ piece ∈ required pattern,
        piece.toList <:+: utf8 text := by
      intro text hmatch piece hpiece
      obtain ⟨hown, hplain⟩ := mem_required_iff.mp hpiece
      obtain ⟨run, hrun, hpart⟩ := h piece hown hplain
      exact (mem_trigrams.mp hpart).trans (utf8_isInfix (hmatch.literalRuns_isInfix run hrun))
    refine ⟨hrequired, ?_⟩
    intro σ ω H cast array bitsPerValue maxBytes filter hbuild E schema name literal htext requirement hrequirement segment
      hfilter row hrow hnull text hvalue hmatch
    have hpieces : requirement.2 = LocalTables.required pattern := by
      rw [Engine.collectSubstrings, htext] at hrequirement
      cases hindex : schema.indexOf name with
      | none =>
          rw [hindex] at hrequirement
          cases hrequirement
      | some index =>
          rw [hindex] at hrequirement
          dsimp only at hrequirement
          split at hrequirement
          · cases hrequirement
          · rw [List.mem_singleton.mp hrequirement]
    rw [SegmentZoneMaps.mayMatch, hfilter]
    dsimp only
    rw [hpieces, List.all_eq_true]
    intro piece hpiece
    exact Trigram.build_mayContainHash hbuild hrow hnull hvalue (mem_trigrams.mpr (hrequired text hmatch piece hpiece))

/-- An escaped wildcard: the backslash is asked for, and no match has it. -/
theorem escape_asked_for : Like.Matches (Like.tokens "abc\\_def".toList) "abc_def".toList ∧
    (0x62, 0x63, 0x5C) ∈ required "abc\\_def" ∧ ¬Trigram.toList (0x62, 0x63, 0x5C) <:+: utf8 "abc_def".toList ∧
    ¬LikePiecesRequired "abc\\_def" := by
  have hmatch : Like.Matches (Like.tokens "abc\\_def".toList) "abc_def".toList :=
    .literal 'a' (.literal 'b' (.literal 'c' (.literal '_' (.literal 'd' (.literal 'e' (.literal 'f' .nil))))))
  have hpiece : (0x62, 0x63, 0x5C) ∈ required "abc\\_def" := by decide +kernel
  have hnone : ¬Trigram.toList (0x62, 0x63, 0x5C) <:+: utf8 "abc_def".toList := by
    rw [← mem_trigrams]
    decide +kernel
  exact ⟨hmatch, hpiece, hnone, fun h => hnone (h.required _ hmatch _ hpiece)⟩

end Patterns

section Verdicts

variable {τ ν σ ω β : Type} {C : Codec τ ν β} {E : Engine τ ν σ ω} {schema : Schema τ}
  {segments : List (SegmentZoneMaps β)} {name : String} {literals : List σ} {verdicts : List (Option Bool)}

theorem contained_false (h : SegmentStatistics.contained C E schema segments name literals = some verdicts) {container : Nat}
    {segment : SegmentZoneMaps β} (hsegment : segments[container]? = some segment)
    (hverdict : verdicts[container]? = some (some false)) {index : Nat} {dataType : τ}
    (hcolumn : SegmentStatistics.column schema name = some (index, dataType)) :
    ∃ filter, findFilter segment.blooms index = some filter ∧ ∀ literal ∈ literals, ∀ probe, E.toArray literal = some probe →
      C.mayContain filter probe dataType = false := by
  rw [SegmentStatistics.contained, hcolumn] at h
  obtain ⟨-, h⟩ := Option.ite_none_left_eq_some.mp h
  obtain ⟨probes, hprobes, h⟩ := Option.bind_eq_some_iff.mp h
  obtain ⟨-, h⟩ := Option.ite_none_left_eq_some.mp h
  rw [← Option.some.inj h, List.getElem?_map, hsegment, Option.map_some, Option.some.injEq] at hverdict
  cases hfilter : findFilter segment.blooms index with
  | none =>
      rw [hfilter] at hverdict
      cases hverdict
  | some filter =>
      rw [hfilter] at hverdict
      dsimp only at hverdict
      obtain ⟨hnone, -⟩ := Option.ite_none_left_eq_some.mp hverdict
      refine ⟨filter, rfl, fun literal hliteral probe hprobe => Bool.eq_false_iff.mpr fun hmay => hnone ?_⟩
      obtain ⟨found, hfound, heq⟩ := exists_probe hprobes hliteral
      obtain rfl := Option.some.inj (hprobe.symm.trans heq)
      exact List.any_eq_true.mpr ⟨probe, hfound, hmay⟩

end Verdicts

section Members

/-- The two bit patterns of a float that are zero. -/
def Value.IsZero (width : Nat) (v : Value) : Prop := v = .word 0 ∨ v = .word (256 ^ width / 2)

/-- Two values of a type that no comparison tells apart: they are the same, or both are zeros. -/
def DataType.SameValue (type : DataType) (v w : Value) : Prop :=
  v = w ∨ ∃ leaf width, type = .leaf leaf ∧ leaf.keyForm = some (.float width) ∧ v.IsZero width ∧ w.IsZero width

/-- A filter that reads back from what is stored of it, and never looks outside its words. -/
structure BloomFilter.Sturdy (f : BloomFilter) : Prop where
  readsBack : fromBytes f.toBytes = .ok f
  inside : ∀ hash, ∀ place < wordsPerBlock, (f.locate hash).1 + place < f.words.length

theorem BloomFilter.sturdy (f : BloomFilter) : f.Sturdy :=
  ⟨f.fromBytes_toBytes, fun hash _ hplace => Nat.lt_of_lt_of_le (Nat.add_lt_add_left hplace _) (f.locate_le hash)⟩

/-- What a filter was built over, it does not deny; and what a segment is said to hold none of, none of its rows equals. -/
structure NoFalseNegatives (H : Hashing) (cast : ArrayRef DataType Value → DataType → Option (ArrayRef DataType Value))
    (equal : DataType × Value → DataType × Value → Prop) : Prop where
  values : ∀ (array : ArrowArray) (bitsPerValue : Nat) (f : BloomFilter), BloomFilter.build H array bitsPerValue = .ok (some f) →
    f.Sturdy ∧ ∀ row < array.len, array.isNull row = false →
      f.mayContain H cast ⟨array.dataType, [array.value row]⟩ array.dataType = true
  pieces : ∀ (array : ArrowArray) (bitsPerValue maxBytes : Nat) (f : BloomFilter),
    Trigram.build H array bitsPerValue maxBytes = some f →
      f.Sturdy ∧ ∀ row < array.len, array.isNull row = false → ∀ value, array.value row = some (.bytes value) →
        ∀ a b c, [a, b, c] <:+: value → f.mayContainHash (H.checksum [a, b, c]) = true
  segments : ∀ {σ ω : Type} (E : Engine DataType Value σ ω) (schema : Schema DataType)
    (readers : List (SegmentMeta BloomFilter × Nat)) (bloomColumns trigramColumns : List Nat) (name : String)
    (literals : List σ) (verdicts : List (Option Bool)),
    SegmentStatistics.contained (arrowCodec H cast) E schema (readers.map fun reader =>
      SegmentZoneMaps.fromReader reader.1 reader.2 bloomColumns trigramColumns) name literals = some verdicts →
    ∀ (segment : Nat) (side : SegmentMeta BloomFilter) (rows : Nat), readers[segment]? = some (side, rows) →
      verdicts[segment]? = some (some false) →
    ∀ (index : Nat) (dataType : DataType), SegmentStatistics.column schema name = some (index, dataType) →
    ∀ array : ArrowArray, array.dataType = dataType →
      (∀ f, side.bloomFilter index = .ok (some f) → ∃ bitsPerValue built,
        BloomFilter.build H array bitsPerValue = .ok (some built) ∧ BloomFilter.fromBytes built.toBytes = .ok f) →
    ∀ literal ∈ literals, ∀ probe v, E.toArray literal = some probe → probe.values = [some v] →
      ∀ row < array.len, ∀ w, array.value row = some w → ¬equal (probe.dataType, v) (dataType, w)

variable {H : Hashing} {cast : ArrayRef DataType Value → DataType → Option (ArrayRef DataType Value)}
  {equal : DataType × Value → DataType × Value → Prop} {type : DataType} {v w : Value} {f : BloomFilter}

theorem orderPreserving_zero (width : Nat) : orderPreserving width (256 ^ width / 2) = orderPreserving width 0 := by
  simp [orderPreserving]

theorem encodeValue_same (h : type.SameValue v w) : encodeValue type (some v) = encodeValue type (some w) := by
  rcases h with rfl | ⟨leaf, width, rfl, hform, hv, hw⟩
  · rfl
  · have hzero : ∀ {v : Value}, v.IsZero width → (KeyForm.float width).write v =
        .ok (beBytes width (orderPreserving width 0)) := by
      rintro v (rfl | rfl)
      · rfl
      · rw [KeyForm.write, orderPreserving_zero]
    rw [encodeValue, encodeValue, hform]
    dsimp only
    rw [hzero hv, hzero hw]

/-- What may not be in a filter, as a value of some type, has no hash that is in it as the column's type. -/
theorem mayContain_eq_false {probe : ArrayRef DataType Value} (hprobe : probe.values = [some v])
    (h : f.mayContain H cast probe type = false) : ∃ array bytes, (if probe.dataType = type then some probe else cast probe type) =
      some array ∧ array.values[0]? ≠ some none ∧ encodeValue array.dataType (array.values[0]?).join = .ok bytes ∧
        f.mayContainHash (H.checksum bytes) = false := by
  rw [BloomFilter.mayContain] at h
  cases hhash : BloomFilter.hashValue H cast probe type with
  | none =>
      rw [hhash] at h
      cases h
  | some hash =>
      rw [hhash] at h
      rw [BloomFilter.hashValue, hprobe, if_neg (by simp)] at hhash
      obtain ⟨array, harray, hrest⟩ := Option.bind_eq_some_iff.mp hhash
      obtain ⟨hsome, hrest⟩ := Option.ite_none_left_eq_some.mp hrest
      split at hrest
      · next bytes hbytes =>
          obtain rfl := Option.some.inj hrest
          exact ⟨array, bytes, harray, hsome, hbytes, h⟩
      · cases hrest

/-- A row that reads as a value of a leaf type is not null. -/
theorem isNull_of_value {array : ArrowArray} {leaf : LeafType} {row : Nat} (htype : array.dataType = .leaf leaf)
    (h : array.value row = some w) : array.isNull row = false := by
  cases array with
  | leaf type values =>
      have hvalue : values[row]? = some (some w) := Option.join_eq_some_iff.mp h
      rw [ArrowArray.isNull, hvalue]
      simp
  | nested type valid => cases h
  | union fields mode slots children => cases htype
  | dictionary key value keys values => cases htype
  | runEndEncoded runEnds values ends array offset len => cases htype

/-- A filter denies no value that a row of its array equals. -/
theorem build_not_equal (hequal : ∀ type v w, equal (type, v) (type, w) → type.SameValue v w)
    (hcast : ∀ probe type v array, probe.values = [some v] → cast probe type = some array → array.values = [none] ∨
      ∃ v', array = ⟨type, [some v']⟩ ∧ ∀ w, equal (probe.dataType, v) (type, w) → equal (type, v') (type, w))
    {array : ArrowArray} {bitsPerValue : Nat} (hbuild : BloomFilter.build H array bitsPerValue = .ok (some f))
    {probe : ArrayRef DataType Value} (hprobe : probe.values = [some v]) (hdenied : f.mayContain H cast probe array.dataType = false)
    {row : Nat} (hrow : row < array.len) (hvalue : array.value row = some w) :
    ¬equal (probe.dataType, v) (array.dataType, w) := by
  intro heq
  obtain ⟨probe', bytes, hprobe', hsome, hbytes, habsent⟩ := mayContain_eq_false hprobe hdenied
  -- the literal as a value of the column's type, still equal to the row's
  have hsame : ∃ v', probe' = ⟨array.dataType, [some v']⟩ ∧ equal (array.dataType, v') (array.dataType, w) := by
    split at hprobe'
    · next htype =>
        obtain rfl := Option.some.inj hprobe'
        refine ⟨v, ?_, htype ▸ heq⟩
        rw [← htype, ← hprobe]
    · rcases hcast probe array.dataType v probe' hprobe hprobe' with hnull | ⟨v', rfl, hkept⟩
      · exact absurd (by rw [hnull]; rfl) hsome
      · exact ⟨v', rfl, hkept w heq⟩
  obtain ⟨v', rfl, heq'⟩ := hsame
  have htype : ∃ leaf, array.dataType = .leaf leaf := by
    cases hd : array.dataType with
    | leaf leaf => exact ⟨leaf, rfl⟩
    | list layout field => rw [BloomFilter.build, hd] at hbuild; cases hbuild
    | struct fields => rw [BloomFilter.build, hd] at hbuild; cases hbuild
    | union fields mode => rw [BloomFilter.build, hd] at hbuild; cases hbuild
    | dictionary key value => rw [BloomFilter.build, hd] at hbuild; cases hbuild
    | runEndEncoded runEnds values => rw [BloomFilter.build, hd] at hbuild; cases hbuild
  obtain ⟨leaf, hleaf⟩ := htype
  obtain ⟨stored, hstored, hmay⟩ := BloomFilter.build_mayContainHash hbuild hrow (isNull_of_value hleaf hvalue)
  have hbytes' : encodeValue array.dataType (some v') = .ok bytes := hbytes
  rw [hvalue, ← encodeValue_same (hequal _ _ _ heq'), hbytes'] at hstored
  rw [← Except.ok.inj hstored, habsent] at hmay
  cases hmay

/-- Membership filters have no false negatives, for any hash, and neither has what pruning concludes from them when a cast of a
literal gives an equal value or a null. -/
theorem membership_filters_deny_nothing (H : Hashing)
    (cast : ArrayRef DataType Value → DataType → Option (ArrayRef DataType Value))
    (equal : DataType × Value → DataType × Value → Prop)
    (hequal : ∀ type v w, equal (type, v) (type, w) → type.SameValue v w)
    (hcast : ∀ probe type v array, probe.values = [some v] → cast probe type = some array → array.values = [none] ∨
      ∃ v', array = ⟨type, [some v']⟩ ∧ ∀ w, equal (probe.dataType, v) (type, w) → equal (type, v') (type, w)) :
    NoFalseNegatives H cast equal := by
  refine ⟨fun array bitsPerValue f hbuild => ⟨f.sturdy, fun row hrow hnull => ?_⟩,
    fun array bitsPerValue maxBytes f hbuild => ⟨f.sturdy, fun row hrow hnull value hvalue a b c hin => ?_⟩, ?_⟩
  · obtain ⟨bytes, hbytes, hmay⟩ := BloomFilter.build_mayContainHash hbuild hrow hnull
    cases hvalue : array.value row with
    | none => rfl
    | some v =>
        cases hprobed : f.mayContain H cast ⟨array.dataType, [some v]⟩ array.dataType with
        | true => rfl
        | false =>
            obtain ⟨probe, bytes', hprobe, -, hbytes', habsent⟩ := mayContain_eq_false rfl hprobed
            rw [if_pos rfl] at hprobe
            obtain rfl := Option.some.inj hprobe
            have hsame : encodeValue array.dataType (some v) = .ok bytes' := hbytes'
            rw [hvalue, hsame] at hbytes
            rw [← Except.ok.inj hbytes, habsent] at hmay
            cases hmay
  · have hpiece : ((a, b, c) : Trigram) ∈ trigrams value := mem_trigrams.mpr hin
    have hmay := Trigram.build_mayContainHash hbuild hrow hnull hvalue hpiece
    rwa [Trigram.toList] at hmay
  · intro σ ω E schema readers bloomColumns trigramColumns name literals verdicts hcontained segment side rows hreader hverdict
      index dataType hcolumn array htype hstored literal hliteral probe v hprobe hv row hrow w hw
    have hsegment := congrArg (Option.map fun reader : SegmentMeta BloomFilter × Nat =>
      SegmentZoneMaps.fromReader reader.1 reader.2 bloomColumns trigramColumns) hreader
    rw [← List.getElem?_map] at hsegment
    obtain ⟨f, hf, hdenied⟩ := contained_false hcontained hsegment hverdict hcolumn
    change findFilter (loadFilters side.bloomFilter bloomColumns) index = some f at hf
    rw [findFilter_loadFilters] at hf
    obtain ⟨-, hread⟩ := Option.ite_none_right_eq_some.mp hf
    obtain ⟨bitsPerValue, built, hbuild, hback⟩ := hstored f (readFilter_eq_some hread)
    obtain rfl := Except.ok.inj (built.fromBytes_toBytes.symm.trans hback)
    subst htype
    exact build_not_equal hequal hcast hbuild hv (hdenied literal hliteral probe hprobe) hrow hw

/-- Text is cast to text of another layout as it is; nothing else is cast. -/
def textCast (array : ArrayRef DataType Value) (type : DataType) : Option (ArrayRef DataType Value) :=
  let texts : List DataType := [.leaf .utf8, .leaf .largeUtf8, .leaf .utf8View]
  if array.dataType ∈ texts ∧ type ∈ texts then some ⟨type, array.values⟩ else none

/-- Literals are text, and no filter is understood. -/
def textEngine : Engine DataType Value Value Unit where
  Predicate := Unit
  value literal := literal
  text _ := none
  toArray literal := some ⟨.leaf .utf8, [some literal]⟩
  scalar _ _ := none
  compare _ _ _ := none
  like _ _ _ _ := none
  holds _ _ := none
  build _ _ := none
  prune _ statistics := .ok (List.replicate statistics.numContainers true)

/-- A column of large text. -/
def fruits : ArrowArray := .leaf .largeUtf8 [some (.bytes [0x66, 0x69, 0x67]), none, some (.bytes [0x70, 0x65, 0x61, 0x72])]

/-- What is stored of it, read back. -/
def fruitMeta : SegmentMeta BloomFilter where
  columns := [
    { zone := ZoneMap.build plainAggregates fruits
      bloom := do
        match ← BloomFilter.build plainHashing fruits 10 with
        | some f =>
            let read ← BloomFilter.fromBytes f.toBytes
            return some read
        | none => return none
      trigram := .ok none
      pageZones := .ok none }]
  pageRows := 0

/-- The text `plum`, which is in none of the rows. -/
def plum : Value := .bytes [0x70, 0x6C, 0x75, 0x6D]

theorem plum_denied : SegmentStatistics.contained (arrowCodec plainHashing textCast) textEngine
      ⟨[⟨"fruit", .leaf .largeUtf8, true⟩], []⟩ ([(fruitMeta, 3)].map fun reader => SegmentZoneMaps.fromReader reader.1 reader.2 [0] [])
      "fruit" [plum] = some [some false] ∧ ∀ row < 3, ∀ w, fruits.value row = some w → plum ≠ w := by
  have hdenied : SegmentStatistics.contained (arrowCodec plainHashing textCast) textEngine
      ⟨[⟨"fruit", .leaf .largeUtf8, true⟩], []⟩ ([(fruitMeta, 3)].map fun reader => SegmentZoneMaps.fromReader reader.1 reader.2 [0] [])
      "fruit" [plum] = some [some false] := by decide +kernel
  have hcast : ∀ probe type v array, probe.values = [some v] → textCast probe type = some array → array.values = [none] ∨
      ∃ v', array = ⟨type, [some v']⟩ ∧ ∀ w : Value, v = w → v' = w := by
    intro probe type v array hprobe harray
    obtain ⟨-, hkept⟩ := Option.ite_none_right_eq_some.mp harray
    obtain rfl := Option.some.inj hkept
    exact .inr ⟨v, by rw [hprobe], fun w h => h⟩
  have hsound := membership_filters_deny_nothing plainHashing textCast (fun p q => p.2 = q.2) (fun type v w h => .inl h) hcast
  refine ⟨hdenied, fun row hrow w hw heq => ?_⟩
  refine hsound.segments textEngine _ _ _ _ "fruit" [plum] _ hdenied 0 fruitMeta 3 rfl rfl 0 (.leaf .largeUtf8) rfl fruits rfl ?_
    plum List.mem_cons_self _ plum rfl rfl row hrow w hw heq
  intro f hread
  obtain ⟨stored, hstored, hback⟩ := bind_eq_ok.mp hread
  cases stored with
  | none => cases Except.ok.inj hback
  | some built =>
      obtain ⟨read, hbytes, hdone⟩ := bind_eq_ok.mp hback
      obtain rfl := Option.some.inj (Except.ok.inj hdone)
      exact ⟨10, built, hstored, hbytes⟩

end Members

end LocalTables
