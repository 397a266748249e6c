import Mathlib.Data.Set.Card
import LocalTables.Sql.Dml

/-! `UPDATE` statements beside one another. An update appends a replacement for every row it matched, and deletes
those of them that are still there; so it conserves the number of rows when all of them are. -/

namespace LocalTables

variable {τ ν : Type} {M : Media τ ν}

namespace Statement

variable (st : Statement ν)

/-- Whether a statement wants a row. -/
def wants (row : Row ν) : Bool :=
  match st.predicate with
  | none => true
  | some predicate => match predicate row with
    | .ok (some true) => true
    | _ => false

/-- Where the rows of a batch are that it wants. -/
def wantedIn (batch : RecordBatch τ ν) : List Nat :=
  (List.range batch.numRows).filter fun index => (batch.rows[index]?).any st.wants

/-- The memtable rows an update builds replacements for, under their own numbers `own`: all it wants of a batch, once
one of them was given a number. -/
def replaced (own seqnos : List Nat) : Nat → List (RecordBatch τ ν) → List Nat
  | _, [] => []
  | offset, batch :: batches =>
      (if (st.wantedIn batch).all fun index => (seqnos[offset + index]?).isNone then []
        else (st.wantedIn batch).filterMap fun index => own[offset + index]?) ++
        replaced own seqnos (offset + batch.numRows) batches

/-- The rows a statement is about to replace. -/
def replacedIds (taken : Table M) (seqnos : List Nat) (segments : List (SegmentId × List Nat)) : List RowId :=
  (segments.flatMap fun segment => segment.2.map (RowId.segment segment.1)) ++
    (st.replaced taken.writer.memtable.liveSeqnos seqnos 0 taken.current.memtable).map RowId.memtable

/-- In each batch, the rows it wants stand where they stood, or nothing stands there. -/
def Together (own seqnos : List Nat) : Nat → List (RecordBatch τ ν) → Prop
  | _, [] => True
  | offset, batch :: batches =>
      ((∀ index ∈ st.wantedIn batch, seqnos[offset + index]? = own[offset + index]?) ∨
        ∀ index ∈ st.wantedIn batch, seqnos[offset + index]? = none) ∧
      Together own seqnos (offset + batch.numRows) batches

variable {st}

theorem wants_iff {row : Row ν} : st.wants row = true ↔ st.Selects row := by
  unfold wants Selects
  cases st.predicate with
  | none => simp
  | some predicate =>
      change (match predicate row with | .ok (some true) => true | _ => false) = true ↔ predicate row = .ok (some true)
      split
      · next h => simp only [h]
      · next h => simp only [Bool.false_eq_true, false_iff]; exact h

theorem mem_wantedIn {batch : RecordBatch τ ν} {index : Nat} :
    index ∈ st.wantedIn batch ↔ ∃ row, batch.rows[index]? = some row ∧ st.Selects row := by
  have hrange : ∀ row, batch.rows[index]? = some row → index < batch.numRows :=
    fun row hrow => (List.getElem?_eq_some_iff.mp hrow).1
  rw [wantedIn, List.mem_filter, List.mem_range]
  cases hrow : batch.rows[index]? with
  | none => simp
  | some row =>
      simp only [Option.any_some, wants_iff, Option.some.injEq, exists_eq_left']
      exact and_iff_right (hrange row hrow)

theorem selected_eq {batch : RecordBatch τ ν} {mask : List (Option Bool)} (h : evaluate st.predicate batch = .ok mask) :
    selected mask = st.wantedIn batch := by
  have hlen : mask.length = batch.numRows := by
    unfold evaluate at h
    split at h
    · rw [← Except.ok.inj h, List.length_map]
      rfl
    · exact (mapM_ok h).length_eq.symm
  have hmem : ∀ index, index ∈ selected mask ↔ index ∈ st.wantedIn batch := fun index => by
    rw [mem_selected h, mem_wantedIn]
  rw [selected, wantedIn, hlen]
  refine List.filter_congr fun index hindex => ?_
  have := hmem index
  rw [selected, wantedIn, List.mem_filter, List.mem_filter, hlen] at this
  exact Bool.eq_iff_iff.mpr ⟨fun h => (this.mp ⟨hindex, h⟩).2, fun h => (this.mpr ⟨hindex, h⟩).2⟩

variable {env : Env τ ν}

theorem length_filterMap_of_some {α β : Type} {f : α → Option β} {xs : List α} (h : ∀ x ∈ xs, ∃ y, f x = some y) :
    (xs.filterMap f).length = xs.length := by
  induction xs with
  | nil => rfl
  | cons x xs ih =>
      obtain ⟨y, hy⟩ := h x List.mem_cons_self
      rw [List.filterMap_cons, hy, List.length_cons, List.length_cons]
      rw [ih fun other hother => h other (List.mem_cons_of_mem _ hother)]

theorem mem_selected_rowMask {rows : Nat} {positions : List Nat} {row : Nat} :
    row ∈ selected (rowMask rows positions) ↔ row < rows ∧ row ∈ positions := by
  rw [selected, rowMask, List.length_map, List.length_range, List.mem_filter, List.mem_range]
  refine and_congr_right fun hrow => ?_
  simp [hrow]

/-- Distinct positions inside the batch pick as many rows. -/
theorem length_pick {batch : RecordBatch τ ν} {positions : List Nat} (hnodup : positions.Nodup)
    (hin : ∀ position ∈ positions, position < batch.numRows) :
    (batch.pick (rowMask batch.numRows positions)).rows.length = positions.length := by
  have hperm : (selected (rowMask batch.numRows positions)).Perm positions := by
    rw [List.perm_ext_iff_of_nodup (nodup_selected _) hnodup]
    intro row
    rw [mem_selected_rowMask]
    exact and_iff_right_of_imp (hin row)
  calc (batch.pick (rowMask batch.numRows positions)).rows.length
      = (selected (rowMask batch.numRows positions)).length :=
        length_filterMap_of_some fun row hrow => ⟨_, List.getElem?_eq_getElem (mem_selected_rowMask.mp hrow).1⟩
    _ = positions.length := hperm.length_eq

theorem collect_rows {batch : RecordBatch τ ν} {positions : List Nat} {replacements : List (RecordBatch τ ν)}
    (hkind : st.assignments ≠ []) (hnodup : positions.Nodup) (hin : ∀ position ∈ positions, position < batch.numRows)
    (h : st.collect env batch positions = .ok replacements) : totalRows replacements = positions.length := by
  unfold collect at h
  rw [if_neg (by simpa using hkind)] at h
  obtain ⟨replacement, happly, h⟩ := bind_eq_ok.mp h
  rw [← Except.ok.inj h]
  obtain ⟨rows, hrows, happly⟩ := bind_eq_ok.mp happly
  split at happly
  · rw [← Except.ok.inj happly, totalRows, List.map_singleton, List.sum_singleton, RecordBatch.numRows,
      ← (mapM_ok hrows).length_eq, length_pick hnodup hin]
  · cases happly

theorem totalRows_append (batches more : List (RecordBatch τ ν)) :
    totalRows (batches ++ more) = totalRows batches + totalRows more := by
  rw [totalRows, List.map_append, List.sum_append]
  rfl

/-- No row a segment's mask selects is past what a `u32` counts. -/
def NarrowIn (env : Env τ ν) (st : Statement ν) (file : M.File) (current : TableSchema τ) (entry : SegmentEntry) : Prop :=
  ∀ data mask, segmentReader file entry current.layout = .ok data →
    evaluate st.predicate (readRows env current.schema.fields data 0 data.rows.length) = .ok mask →
    ∀ row ∈ selected mask, row < 2 ^ 32

/-- Of one segment an update collects one replacement for each row it names, and it names each once. -/
theorem matchSegment_rows {file : M.File} {current : TableSchema τ} {s : Snapshot τ ν} {entry : SegmentEntry}
    {found : List (SegmentId × List Nat) × List (RecordBatch τ ν)} (hkind : st.assignments ≠ [])
    (hnarrow : st.NarrowIn env file current entry) (h : st.matchSegment env file current s entry = .ok found) :
    (∀ segment ∈ found.1, segment.2.Nodup) ∧
      totalRows found.2 = (found.1.map fun segment => segment.2.length).sum := by
  obtain ⟨data, mask, hdata, hmask, ⟨-, rfl⟩ | ⟨-, hfirst, hcollect⟩⟩ := matchSegment_ok h
  · exact ⟨fun segment hsegment => absurd hsegment List.not_mem_nil, rfl⟩
  · have hsame : (selected mask).map (fun row => row % 2 ^ 32) = selected mask := by
      conv_rhs => rw [← List.map_id (selected mask)]
      exact List.map_congr_left fun row hrow => Nat.mod_eq_of_lt (hnarrow data mask hdata hmask row hrow)
    rw [positions, hsame] at hfirst hcollect
    rw [hfirst]
    have hnodup := (nodup_selected mask).filter (· ∉ (s.deletes entry.segmentId).getD ∅)
    constructor
    · intro segment hsegment
      rw [List.mem_singleton.mp hsegment]
      exact hnodup
    · rw [collect_rows hkind hnodup ?_ hcollect, List.map_singleton, List.sum_singleton]
      intro position hposition
      obtain ⟨row, hrow, -⟩ := (mem_selected hmask).mp (List.mem_of_mem_filter hposition)
      exact (List.getElem?_eq_some_iff.mp hrow).1

theorem matchSegments_rows {file : M.File} {current : TableSchema τ} {s : Snapshot τ ν}
    {segments : List (SegmentId × List Nat)} {replacements : List (RecordBatch τ ν)} (hkind : st.assignments ≠ [])
    (hnarrow : ∀ entry ∈ s.liveSegments, st.NarrowIn env file current entry)
    (hok : st.matchSegments env file current s = .ok (segments, replacements)) :
    (∀ segment ∈ segments, segment.2.Nodup) ∧
      totalRows replacements = (segments.map fun segment => segment.2.length).sum := by
  obtain ⟨found, hfound, hpair⟩ := bind_eq_ok.mp hok
  obtain ⟨rfl, rfl⟩ := Prod.mk.inj (Except.ok.inj hpair)
  have hforall := mapM_ok hfound
  clear hfound hok hpair
  generalize s.liveSegments = entries at hforall hnarrow
  induction hforall with
  | nil => exact ⟨fun segment hsegment => absurd hsegment List.not_mem_nil, rfl⟩
  | @cons entry one entries found hone _ ih =>
      obtain ⟨hnodup, hrows⟩ := matchSegment_rows hkind (hnarrow entry List.mem_cons_self) hone
      obtain ⟨hnodups, hmore⟩ := ih fun other hother => hnarrow other (List.mem_cons_of_mem _ hother)
      constructor
      · intro segment hsegment
        rw [List.map_cons, List.flatten_cons, List.mem_append] at hsegment
        exact hsegment.elim (hnodup segment) (hnodups segment)
      · rw [List.map_cons, List.flatten_cons, totalRows_append, hrows, hmore, List.map_cons, List.flatten_cons,
          List.map_append, List.sum_append]

theorem filterMap_range (own : List Nat) (n : Nat) : (List.range n).filterMap (fun index => own[index]?) = own.take n := by
  induction n with
  | zero => rfl
  | succ n ih =>
      rw [List.range_succ, List.filterMap_append, ih, List.take_add_one, List.filterMap_cons, List.filterMap_nil]
      cases own[n]? with
      | none => rfl
      | some seqno => rfl

/-- The rows it replaces are listed in the order of the memtable. -/
theorem replaced_sublist (own seqnos : List Nat) (offset : Nat) (batches : List (RecordBatch τ ν)) :
    (st.replaced own seqnos offset batches).Sublist (own.drop offset) := by
  induction batches generalizing offset with
  | nil => exact List.nil_sublist _
  | cons batch batches ih =>
      rw [replaced, ← List.take_append_drop batch.numRows (own.drop offset), List.drop_drop]
      refine List.Sublist.append ?_ (ih _)
      split
      · exact List.nil_sublist _
      · rw [← filterMap_range]
        simp only [List.getElem?_drop]
        exact List.filter_sublist.filterMap _

theorem Together.refl (st : Statement ν) (own : List Nat) (offset : Nat) (batches : List (RecordBatch τ ν)) :
    st.Together own own offset batches := by
  induction batches generalizing offset with
  | nil => trivial
  | cons batch batches ih => exact ⟨.inl fun _ _ => rfl, ih _⟩

/-- Where the rows it wants stand together, an update names the rows it replaces, with one replacement for each. -/
theorem Together.named {own seqnos : List Nat} {offset : Nat} {batches : List (RecordBatch τ ν)} {memtable : List Nat}
    {replacements : List (RecordBatch τ ν)} (h : st.Together own seqnos offset batches) (hkind : st.assignments ≠ [])
    (hsmall : ∀ batch ∈ batches, batch.numRows < 2 ^ 32) (hown : offset + totalRows batches ≤ own.length)
    (hok : st.matchMemtable env seqnos offset batches = .ok (memtable, replacements)) :
    memtable = st.replaced own seqnos offset batches ∧ totalRows replacements = memtable.length := by
  induction batches generalizing offset memtable replacements with
  | nil =>
      obtain ⟨rfl, rfl⟩ := Prod.mk.inj (Except.ok.inj hok)
      exact ⟨rfl, rfl⟩
  | cons batch batches ih =>
      obtain ⟨⟨hits, collected⟩, hbatch, hok⟩ := bind_eq_ok.mp hok
      obtain ⟨⟨more, rest⟩, hmore, hok⟩ := bind_eq_ok.mp hok
      obtain ⟨rfl, rfl⟩ := Prod.mk.inj (Except.ok.inj hok)
      have hsize : totalRows (batch :: batches) = batch.numRows + totalRows batches := rfl
      obtain ⟨rfl, hrest⟩ := ih h.2 (fun other hother => hsmall other (List.mem_cons_of_mem _ hother)) (by omega) hmore
      obtain ⟨mask, hmask, hhits, hcollected⟩ := matchBatch_ok hbatch
      rw [selected_eq hmask] at hhits hcollected
      have hwanted : ∀ index ∈ st.wantedIn batch, index < batch.numRows :=
        fun index hindex => List.mem_range.mp (List.mem_of_mem_filter hindex)
      have hfirst : hits = (if (st.wantedIn batch).all fun index => (seqnos[offset + index]?).isNone then []
            else (st.wantedIn batch).filterMap fun index => own[offset + index]?) ∧
          totalRows collected = hits.length := by
        by_cases hnone : ∀ index ∈ st.wantedIn batch, seqnos[offset + index]? = none
        · have hempty : hits = [] := by
            rw [hhits, List.filterMap_eq_nil_iff]
            exact hnone
          obtain ⟨-, rfl⟩ | ⟨hsome, -⟩ := hcollected
          · rw [if_pos (by simpa using hnone)]
            exact ⟨hempty, by rw [hempty]; rfl⟩
          · exact absurd hempty hsome
        · have hsame := h.1.resolve_right hnone
          have hall : ∀ index ∈ st.wantedIn batch, ∃ seqno, own[offset + index]? = some seqno := by
            intro index hindex
            have := hwanted index hindex
            exact ⟨_, List.getElem?_eq_getElem (by omega)⟩
          have heq : hits = (st.wantedIn batch).filterMap fun index => own[offset + index]? := by
            rw [hhits]
            exact List.filterMap_congr hsame
          have hlen : hits.length = (st.wantedIn batch).length := by
            rw [heq]
            exact length_filterMap_of_some hall
          obtain ⟨rfl, -⟩ | ⟨-, hcollect⟩ := hcollected
          · refine absurd (fun index hindex => ?_) hnone
            rw [List.eq_nil_of_length_eq_zero hlen.symm] at hindex
            cases hindex
          · have hkeep : (st.wantedIn batch).filter (· < batch.numRows % 2 ^ 32) = st.wantedIn batch := by
              rw [List.filter_eq_self]
              intro index hindex
              rw [Nat.mod_eq_of_lt (hsmall batch List.mem_cons_self), decide_eq_true_iff]
              exact hwanted index hindex
            rw [hkeep] at hcollect
            rw [if_neg (by simpa using hnone), collect_rows hkind (List.nodup_range.filter _) hwanted hcollect, hlen]
            exact ⟨heq, rfl⟩
      rw [replaced, totalRows_append, hfirst.2, hrest, List.length_append, ← hfirst.1]
      exact ⟨rfl, rfl⟩

end Statement

/-- An `UPDATE` under way. `seqnos` is what it was told of the memtable; the statement itself keeps the numbers of
the rows that matched. -/
structure Going (M : Media τ ν) where
  statement : Statement ν
  stage : Statement.Stage M
  seqnos : List Nat

namespace Going

/-- The snapshot it holds. -/
def held (g : Going M) : Option (Snapshot τ ν) :=
  match g.stage with
  | .took taken => some taken.current
  | .read taken _ _ => some taken.current
  | .numbered taken _ _ _ => some taken.current
  | .done => none

/-- The rows its next step replaces. -/
def replacing (g : Going M) : List RowId :=
  match g.stage with
  | .numbered taken segments _ _ => g.statement.replacedIds taken g.seqnos segments
  | _ => []

/-- Where it is after a step. -/
def moved (g : Going M) (t : Table M) (stage : Statement.Stage M) : Going M :=
  match g.stage with
  | .read _ _ _ => ⟨g.statement, stage, t.writer.memtable.liveSeqnos⟩
  | _ => ⟨g.statement, stage, g.seqnos⟩

/-- The steps an `UPDATE` is safe over: no row it wants is past what a `u32` counts, the rows it wants of the memtable
stand where they stood when it asks for their numbers, and all it replaces is still there. -/
def Careful (env : Env τ ν) (t : Table M) (g : Going M) : Prop :=
  match g.stage with
  | .took taken => g.statement.Narrow env taken
  | .read taken _ _ => (∀ batch ∈ taken.current.memtable, batch.numRows < 2 ^ 32) ∧
      g.statement.Together taken.writer.memtable.liveSeqnos t.writer.memtable.liveSeqnos 0 taken.current.memtable
  | .numbered taken segments _ _ => ∀ id ∈ g.statement.replacedIds taken g.seqnos segments, t.Live id
  | .done => True

end Going

/-- A table and the `UPDATE` statements under way on it, with the rows they have replaced so far. -/
structure Updates (M : Media τ ν) where
  table : Table M
  going : List (Going M)
  replaced : List RowId

/-- One step of anybody. Any number of statements are under way, beside deletions, flushes and readers. -/
inductive Updates.Step [DecidableEq τ] (env : Env τ ν) (allows : Table M → Going M → Prop) :
    Updates M → Updates M → Prop where
  | take {t : Table M} {going : List (Going M)} {replaced : List RowId} (st : Statement ν) (hkind : st.assignments ≠ []) :
      Step env allows ⟨t, going, replaced⟩ ⟨t.pin, ⟨st, .took t, []⟩ :: going, replaced⟩
  | move {t t' : Table M} {going : List (Going M)} {replaced : List RowId} (index : Nat) {g : Going M}
      {stage : Statement.Stage M} (hget : going[index]? = some g) (hallows : allows t g)
      (h : g.statement.Step env t g.stage t' stage) :
      Step env allows ⟨t, going, replaced⟩ ⟨t', going.set index (g.moved t stage), replaced ++ g.replacing⟩
  | fail {t : Table M} {going : List (Going M)} {replaced : List RowId} (index : Nat) :
      Step env allows ⟨t, going, replaced⟩ ⟨t, going.eraseIdx index, replaced⟩
  | delete {t t' : Table M} {going : List (Going M)} {replaced : List RowId}
      (segmentDeletions : List (SegmentId × List Nat)) (memtableSeqnos : List Nat) {deleted : Nat}
      (h : t.delete env segmentDeletions memtableSeqnos = .ok (deleted, t')) :
      Step env allows ⟨t, going, replaced⟩ ⟨t', going, replaced⟩
  | flush {t t' : Table M} {going : List (Going M)} {replaced : List RowId} {rows : Nat}
      (h : t.flushLocked env = .ok (rows, t')) : Step env allows ⟨t, going, replaced⟩ ⟨t', going, replaced⟩
  | pin {t : Table M} {going : List (Going M)} {replaced : List RowId} :
      Step env allows ⟨t, going, replaced⟩ ⟨t.pin, going, replaced⟩
  | unpin {t : Table M} {going : List (Going M)} {replaced : List RowId} (index : Nat)
      (hheld : ∀ g ∈ going, ∀ s, g.held = some s → s ∈ (t.unpin index).pins) :
      Step env allows ⟨t, going, replaced⟩ ⟨t.unpin index, going, replaced⟩

/-- Any order of steps. -/
def Updates.Run [DecidableEq τ] (env : Env τ ν) (allows : Table M → Going M → Prop) : Updates M → Updates M → Prop :=
  Relation.ReflTransGen (Updates.Step env allows)

/-- What an `UPDATE` hands to the table: the rows to replace, each named once, and one replacement for each. -/
structure Replacing (ids : List RowId) (segments : List (SegmentId × List Nat)) (memtable : List Nat)
    (replacements : List (RecordBatch τ ν)) : Prop where
  once : (segments.map Prod.fst).Nodup
  nodup : ids.Nodup
  named : ∀ id, id ∈ ids ↔ id.Named segments memtable
  rows : ids.length = totalRows replacements

section Conserve

variable {env : Env τ ν} {taken t t' : Table M} {g : Going M}

theorem Replacing.of_segments {segments : List (SegmentId × List Nat)} {replacements : List (RecordBatch τ ν)}
    (hids : (segments.map Prod.fst).Nodup) (hpositions : ∀ segment ∈ segments, segment.2.Nodup)
    (hrows : totalRows replacements = (segments.map fun segment => segment.2.length).sum) :
    Replacing (segments.flatMap fun segment => segment.2.map (RowId.segment segment.1)) segments [] replacements := by
  refine ⟨hids, ?_, fun id => ?_, ?_⟩
  · rw [List.nodup_flatMap]
    constructor
    · intro segment hsegment
      exact (hpositions segment hsegment).map fun a b hab => (RowId.segment.inj hab).2
    · refine (List.pairwise_map.mp hids).imp fun {a b} hne => ?_
      intro id ha hb
      obtain ⟨i, -, rfl⟩ := List.mem_map.mp ha
      obtain ⟨j, -, hj⟩ := List.mem_map.mp hb
      exact hne (RowId.segment.inj hj).1.symm
  · rw [List.mem_flatMap]
    cases id with
    | segment id position =>
        constructor
        · rintro ⟨segment, hsegment, hmem⟩
          obtain ⟨position', hposition, heq⟩ := List.mem_map.mp hmem
          obtain ⟨rfl, rfl⟩ := RowId.segment.inj heq
          exact ⟨segment.2, hsegment, hposition⟩
        · rintro ⟨positions, hmem, hposition⟩
          exact ⟨(id, positions), hmem, List.mem_map_of_mem hposition⟩
    | memtable seqno =>
        constructor
        · rintro ⟨segment, -, hmem⟩
          obtain ⟨_, -, heq⟩ := List.mem_map.mp hmem
          cases heq
        · intro hmem
          cases hmem
  · rw [List.length_flatMap, hrows]
    simp only [List.length_map]

/-- The rows of the memtable come to those of the segments. -/
theorem Replacing.memtable {ids : List RowId} {segments : List (SegmentId × List Nat)} {memtable : List Nat}
    {replacements more : List (RecordBatch τ ν)} (h : Replacing ids segments [] replacements) (hnodup : memtable.Nodup)
    (hrows : totalRows more = memtable.length) :
    Replacing (ids ++ memtable.map RowId.memtable) segments memtable (replacements ++ more) := by
  refine ⟨h.once, ?_, fun id => ?_, ?_⟩
  · refine h.nodup.append (hnodup.map fun a b hab => RowId.memtable.inj hab) fun id hmem hmore => ?_
    obtain ⟨seqno, -, rfl⟩ := List.mem_map.mp hmore
    cases (h.named _).mp hmem
  · rw [List.mem_append, h.named]
    cases id with
    | segment id position =>
        refine or_iff_left fun hmem => ?_
        obtain ⟨_, -, heq⟩ := List.mem_map.mp hmem
        cases heq
    | memtable seqno =>
        constructor
        · rintro (hmem | hmem)
          · cases hmem
          · obtain ⟨_, hmem, heq⟩ := List.mem_map.mp hmem
            exact RowId.memtable.inj heq ▸ hmem
        · exact fun hmem => .inr (List.mem_map_of_mem hmem)
  · rw [List.length_append, List.length_map, h.rows, Statement.totalRows_append, hrows]

theorem Table.Tidy.ncard_live (h : t.Tidy) : { id | t.Live id }.Finite ∧ { id | t.Live id }.ncard = t.liveCount := by
  have hset : { id | t.Live id } = { id | id ∈ t.liveIds } := Set.ext fun id => (h.mem_liveIds id).symm
  rw [hset, ← h.length_liveIds, ← List.toFinset_card_of_nodup h.nodup_liveIds, ← Set.ncard_coe_finset]
  simp [List.finite_toSet]

variable [DecidableEq τ]

/-- What an `UPDATE` under way has got right so far. -/
def Going.Right (env : Env τ ν) (t : Table M) (g : Going M) : Prop :=
  g.statement.assignments ≠ [] ∧ match g.stage with
  | .took taken => Table.Reachable env taken ∧ Statement.Current env taken t
  | .read taken segments replacements => taken.Tidy ∧
      Replacing (segments.flatMap fun segment => segment.2.map (RowId.segment segment.1)) segments [] replacements
  | .numbered taken segments memtable replacements =>
      Replacing (g.statement.replacedIds taken g.seqnos segments) segments memtable replacements
  | .done => True

/-- A statement that is not at its snapshot any more does not look at the table. -/
theorem Going.Right.mono (h : g.Right env t)
    (hcurrent : ∀ taken, g.held = some taken.current → Statement.Current env taken t → Statement.Current env taken t') :
    g.Right env t' := by
  obtain ⟨st, stage, seqnos⟩ := g
  cases stage with
  | took taken => exact ⟨h.1, h.2.1, hcurrent taken rfl h.2.2⟩
  | read taken segments replacements => exact h
  | numbered taken segments memtable replacements => exact h
  | done => exact h

/-- A step of a statement, over what it is safe over, keeps it right. -/
theorem Going.Right.step {stage : Statement.Stage M} (h : g.Right env t) (hcareful : g.Careful env t)
    (hstep : g.statement.Step env t g.stage t' stage) : (g.moved t stage).Right env t' := by
  obtain ⟨st, a, seqnos⟩ := g
  obtain ⟨hkind, h⟩ := h
  dsimp only at hkind h hstep
  cases hstep with
  | @read taken segments replacements hok =>
      obtain ⟨hreach, hcurrent⟩ := h
      have hnarrow : ∀ entry ∈ taken.current.liveSegments, st.NarrowIn env t.writer.file.io.file t.schema entry := by
        intro entry hentry data mask hdata hmask row hrow
        rw [hcurrent.holds.segmentReader hreach.tidy hentry] at hdata
        rw [hcurrent.holds.schema, ← hreach.tidy.shownSchema] at hmask
        obtain ⟨found, hfound, hselects⟩ := (mem_selected hmask).mp hrow
        exact hcareful entry hentry row ⟨data, found, hdata, hfound, hselects⟩
      have hids : (segments.map Prod.fst).Nodup := by
        refine Statement.matchSegments_nodup ?_ hok
        rw [hreach.isolated.synced.manifest]
        exact hreach.tidy.numbered.nodup
      obtain ⟨hpositions, hrows⟩ := Statement.matchSegments_rows hkind hnarrow hok
      exact ⟨hkind, hreach.tidy, .of_segments hids hpositions hrows⟩
  | @number taken segments memtable replacements more hok =>
      obtain ⟨htidy, hready⟩ := h
      obtain ⟨hsmall, htogether⟩ := hcareful
      have hown : 0 + totalRows taken.current.memtable ≤ taken.writer.memtable.liveSeqnos.length := by
        rw [Nat.zero_add, ← length_rowsOf, htidy.shown, Memtable.liveSeqnos_eq, List.length_map, List.length_map]
      obtain ⟨hmemtable, hrows⟩ := htogether.named hkind hsmall hown hok
      have hnodup : memtable.Nodup := by
        rw [hmemtable]
        exact htidy.nodup_liveSeqnos.sublist (Statement.replaced_sublist _ _ 0 _)
      refine ⟨hkind, ?_⟩
      have := hready.memtable hnodup hrows
      rw [hmemtable] at this ⊢
      exact this
  | nothing hnone => exact ⟨hkind, trivial⟩
  | delete hdelete => exact absurd hdelete hkind
  | update _ hsome hok => exact ⟨hkind, trivial⟩

/-- The last step of an `UPDATE` leaves as many rows as there were. -/
theorem Going.Right.liveCount (h : g.Right env t) (htidy : t.Tidy) (hcareful : g.Careful env t)
    {stage : Statement.Stage M} (hstep : g.statement.Step env t g.stage t' stage) : t'.liveCount = t.liveCount := by
  obtain ⟨st, a, seqnos⟩ := g
  obtain ⟨hkind, h⟩ := h
  cases hstep with
  | read hok => rfl
  | number hok => rfl
  | nothing hnone => rfl
  | delete hdelete => exact absurd hdelete hkind
  | update _ hsome hok =>
      rcases Table.updateLocked_ok hok with ⟨rfl, -⟩ | ⟨-, hreplace⟩
      · rfl
      · exact htidy.liveCount_replaceRows h.once h.nodup h.named hcareful h.rows hreplace

/-- What a step replaces was there before it, and is gone after it. -/
theorem Going.Right.replaces (h : g.Right env t) (htidy : t.Tidy) (hcareful : g.Careful env t)
    {stage : Statement.Stage M} (hstep : g.statement.Step env t g.stage t' stage) :
    g.replacing.Nodup ∧ ∀ id ∈ g.replacing, t.Live id ∧ ¬t'.Live id := by
  obtain ⟨st, a, seqnos⟩ := g
  obtain ⟨hkind, h⟩ := h
  cases hstep with
  | read hok => exact ⟨List.nodup_nil, fun id hid => absurd hid List.not_mem_nil⟩
  | number hok => exact ⟨List.nodup_nil, fun id hid => absurd hid List.not_mem_nil⟩
  | nothing hnone =>
      refine ⟨h.nodup, fun id hid => absurd ((h.named id).mp hid) ?_⟩
      exact RowId.not_named_of_matchCount hnone
  | delete hdelete => exact absurd hdelete hkind
  | update _ hsome hok =>
      refine ⟨h.nodup, fun id hid => ⟨hcareful id hid, ?_⟩⟩
      rcases Table.updateLocked_ok hok with ⟨-, -, rfl, rfl⟩ | ⟨-, hreplace⟩
      · exact absurd rfl hsome
      · rw [Table.replaceRows_live htidy h.once hreplace]
        rintro (⟨-, hkept⟩ | ⟨index, -, rfl⟩)
        · exact hkept ((h.named id).mp hid)
        · -- a fresh number has not been given out
          have := htidy.live_given (hcareful _ hid)
          exact absurd this (Nat.not_lt.mpr (Nat.le_add_right _ _))

/-- The invariant of a careful run, over which there are `rows` rows at most. -/
structure Updates.Sound (env : Env τ ν) (rows : Nat) (s : Updates M) : Prop where
  reach : Table.Reachable env s.table
  right : ∀ g ∈ s.going, g.Right env s.table
  nodup : s.replaced.Nodup
  gone : ∀ id ∈ s.replaced, s.table.Given id ∧ ¬s.table.Live id
  few : s.table.liveCount ≤ rows

/-- A step of a statement is a read, or a write as anybody's. -/
theorem Statement.Step.spec {st : Statement ν} {a a' : Statement.Stage M} (h : st.Step env t a t' a') :
    t' = t ∨ Table.Other env t t' := by
  cases h with
  | read hok => exact .inl rfl
  | number hok => exact .inl rfl
  | nothing hnone => exact .inl rfl
  | delete hkind hsome hok => exact .inr (.delete _ _ hok)
  | update hkind hsome hok => exact .inr (.update _ _ _ hok)

namespace Updates.Sound

variable {rows : Nat} {going : List (Going M)} {replaced : List RowId}

theorem ages (h : Sound env rows ⟨t, going, replaced⟩) (hages : t.Ages t') : ∀ id ∈ replaced, t'.Given id ∧ ¬t'.Live id := by
  intro id hid
  obtain ⟨hgiven, hdead⟩ := h.gone id hid
  exact ⟨hages.given id hgiven, fun hlive => hdead (hages.dead id hgiven hlive)⟩

theorem locked (h : Sound env rows ⟨t, going, replaced⟩) (hstep : Table.Locked env t t')
    (hspec : t'.schema = t.schema ∧ t'.pins = t.pins ∧ t.Ages t') (hfew : t'.liveCount ≤ t.liveCount) :
    Sound env rows ⟨t', going, replaced⟩ := by
  obtain ⟨hschema, hpins, hages⟩ := hspec
  refine ⟨.step h.reach hstep, fun g hg => ?_, h.nodup, h.ages hages, hfew.trans h.few⟩
  exact (h.right g hg).mono fun taken _ hcurrent => hcurrent.locked hstep hschema hpins hages

theorem step {s s' : Updates M} (h : s.Sound env rows) (hstep : Updates.Step env (Going.Careful env) s s') :
    s'.Sound env rows := by
  cases hstep with
  | @take t going replaced st hkind =>
      refine ⟨.step h.reach (.pin t), fun g hg => ?_, h.nodup, h.gone, h.few⟩
      rcases List.mem_cons.mp hg with rfl | hg
      · exact ⟨hkind, h.reach, .start h.reach⟩
      · exact (h.right g hg).mono fun taken _ hcurrent => hcurrent.pin
  | @move t t' going replaced index g stage hget hallows hstep =>
      have hright : g.Right env t := h.right g (List.mem_of_getElem? hget)
      have htidy : t.Tidy := h.reach.tidy
      obtain ⟨hnodup, hreplaces⟩ := hright.replaces htidy hallows hstep
      have hages : t.Ages t' := by
        rcases hstep.spec with rfl | hother
        · exact .refl t'
        · exact (hother.spec htidy).2.2
      have hafter : Sound env rows ⟨t', going, replaced⟩ := by
        rcases hstep.spec with rfl | hother
        · exact h
        · exact h.locked hother.locked (hother.spec htidy) (hright.liveCount htidy hallows hstep).le
      refine ⟨hafter.reach, fun other hmem => ?_, ?_, fun id hid => ?_, hafter.few⟩
      · rcases List.mem_or_eq_of_mem_set hmem with hmem | rfl
        · exact hafter.right other hmem
        · exact hright.step hallows hstep
      · refine h.nodup.append hnodup fun id hold hnew => ?_
        exact (h.gone id hold).2 (hreplaces id hnew).1
      · rcases List.mem_append.mp hid with hid | hid
        · exact hafter.gone id hid
        · exact ⟨hages.given id (htidy.live_given (hreplaces id hid).1), (hreplaces id hid).2⟩
  | fail index => exact ⟨h.reach, fun g hg => h.right g (List.mem_of_mem_eraseIdx hg), h.nodup, h.gone, h.few⟩
  | delete segmentDeletions memtableSeqnos hok =>
      have hother : Table.Other env _ _ := .delete segmentDeletions memtableSeqnos hok
      exact h.locked hother.locked (hother.spec h.reach.tidy) (Table.liveCount_delete h.reach.tidy hok)
  | flush hok => exact h.locked (.flush hok) (Table.flushLocked_spec hok h.reach.tidy) (Table.liveCount_flushLocked hok)
  | @pin t =>
      refine ⟨.step h.reach (.pin t), fun g hg => ?_, h.nodup, h.gone, h.few⟩
      exact (h.right g hg).mono fun taken _ hcurrent => hcurrent.pin
  | @unpin t going replaced index hheld =>
      refine ⟨.step h.reach (.unpin t index), fun g hg => ?_, h.nodup, h.gone, h.few⟩
      exact (h.right g hg).mono fun taken hholds hcurrent => hcurrent.unpin index (hheld g hg _ hholds)

theorem run {s s' : Updates M} (h : s.Sound env rows) (hrun : Updates.Run env (Going.Careful env) s s') :
    s'.Sound env rows := by
  induction hrun with
  | refl => exact h
  | tail _ hstep ih => exact ih.step hstep

end Updates.Sound

/-- `UPDATE` conserves rows. Over steps at which no row an update is about to replace is gone, whatever else goes on,
no row is replaced twice, there are never more rows than there were, and the last step of an update adds as
many rows as it removes. -/
theorem updates_conserve_rows {t₀ : Table M} {s : Updates M} (hreach : Table.Reachable env t₀)
    (hrun : Updates.Run env (Going.Careful env) ⟨t₀, [], []⟩ s) :
    s.replaced.Nodup ∧ s.table.liveCount ≤ t₀.liveCount ∧
      ∀ (t' : Table M), ∀ g ∈ s.going, g.Careful env s.table → g.statement.Step env s.table g.stage t' .done →
        { id | t'.Live id ∧ ¬s.table.Live id }.ncard = { id | s.table.Live id ∧ ¬t'.Live id }.ncard := by
  have hstart : Updates.Sound env t₀.liveCount (⟨t₀, [], []⟩ : Updates M) :=
    ⟨hreach, fun g hg => absurd hg List.not_mem_nil, List.nodup_nil, fun id hid => absurd hid List.not_mem_nil, le_rfl⟩
  have h := hstart.run hrun
  refine ⟨h.nodup, h.few, fun t' g hg hcareful hstep => ?_⟩
  have htidy : s.table.Tidy := h.reach.tidy
  have htidy' : t'.Tidy := by
    rcases hstep.spec with rfl | hother
    · exact htidy
    · exact (Table.Reachable.step h.reach hother.locked).tidy
  obtain ⟨hfinite, hcount⟩ := htidy.ncard_live
  obtain ⟨hfinite', hcount'⟩ := htidy'.ncard_live
  have hsame := (h.right g hg).liveCount htidy hcareful hstep
  have hunion := Set.ncard_sdiff_add_ncard { id | t'.Live id } { id | s.table.Live id } hfinite' hfinite
  have hunion' := Set.ncard_sdiff_add_ncard { id | s.table.Live id } { id | t'.Live id } hfinite hfinite'
  rw [Set.union_comm] at hunion'
  change ({ id | t'.Live id } \ { id | s.table.Live id }).ncard = ({ id | s.table.Live id } \ { id | t'.Live id }).ncard
  omega

end Conserve

section Overlapping

/-- `UPDATE t SET value = new WHERE value = old`. -/
def updateTo (old new : Nat) : Statement Nat :=
  ⟨some fun row => .ok (some (row == [old])), [⟨0, fun _ => .ok new⟩]⟩

def updateEnv : Env Unit Nat :=
  plainEnv plainOptions [.insert 1 0 ⟨[()], [[7], [8]]⟩, .update 2 [] [0] 2 ⟨[()], [[70]]⟩,
    .update 3 [] [1] 3 ⟨[()], [[80]]⟩, .update 3 [] [] 3 ⟨[()], [[80]]⟩]

/-- A table that holds a seven and an eight in memory. -/
def sevenAndEight : Except Error PlainTable := do
  let t₀ ← Table.create updateEnv (Journal plainSizes) plainSchema (fun _ => 0) (fun _ => []) none
  let (_, t) ← t₀.insertLocked updateEnv [⟨plainSchema.fields, [[7], [8]]⟩]
  return t

theorem sevenAndEight_reachable {t : PlainTable} (h : sevenAndEight = .ok t) : Table.Reachable updateEnv t := by
  obtain ⟨t₀, hcreate, h⟩ := bind_eq_ok.mp h
  obtain ⟨⟨_, t'⟩, hinsert, h⟩ := bind_eq_ok.mp h
  obtain rfl := Except.ok.inj h
  exact .step (.create _ _ _ hcreate) (.insert _ hinsert)

/-- What one statement finds, in a table nobody has written to since its snapshot. -/
structure Found where
  segments : List (SegmentId × List Nat)
  memtable : List Nat
  replacements : List (RecordBatch Unit Nat)
  more : List (RecordBatch Unit Nat)

def findMatches (st : Statement Nat) (t : PlainTable) : Except Error Found := do
  let (segments, replacements) ← st.matchSegments updateEnv t.writer.file.io.file t.schema t.current
  let (memtable, more) ← st.matchMemtable updateEnv t.writer.memtable.liveSeqnos 0 t.current.memtable
  return ⟨segments, memtable, replacements, more⟩

/-- Two statements that take their snapshots and read them, one as the other, and then write. -/
def updateBoth (st₁ st₂ : Statement Nat) : Except Error (PlainTable × PlainTable × PlainTable × Found × Found) := do
  let t ← sevenAndEight
  let found₁ ← findMatches st₁ t
  let found₂ ← findMatches st₂ t
  let (_, t₁) ← t.pin.pin.updateLocked updateEnv found₁.segments found₁.memtable (found₁.replacements ++ found₁.more)
  let (_, t₂) ← t₁.updateLocked updateEnv found₂.segments found₂.memtable (found₂.replacements ++ found₂.more)
  return (t, t₁, t₂, found₁, found₂)

/-- Where a statement is once it has asked for the numbers of its snapshot's rows. -/
def Found.going (found : Found) (st : Statement Nat) (taken : PlainTable) : Going (Journal plainSizes (τ := Unit) (ν := Nat)) :=
  ⟨st, .numbered taken found.segments found.memtable (found.replacements ++ found.more),
    taken.writer.memtable.liveSeqnos⟩

theorem findMatches_ok {st : Statement Nat} {t : PlainTable} {found : Found} (h : findMatches st t = .ok found) :
    st.matchSegments updateEnv t.writer.file.io.file t.schema t.current = .ok (found.segments, found.replacements) ∧
      st.matchMemtable updateEnv t.writer.memtable.liveSeqnos 0 t.current.memtable = .ok (found.memtable, found.more) := by
  obtain ⟨⟨segments, replacements⟩, hread, h⟩ := bind_eq_ok.mp h
  obtain ⟨⟨memtable, more⟩, hnumber, h⟩ := bind_eq_ok.mp h
  rw [← Except.ok.inj h]
  exact ⟨hread, hnumber⟩

/-- The steps of `updateBoth`, where the two are allowed them. -/
theorem updateBoth_run {st₁ st₂ : Statement Nat} {t t₁ t₂ : PlainTable} {found₁ found₂ : Found}
    (allows : PlainTable → Going (Journal plainSizes (τ := Unit) (ν := Nat)) → Prop)
    (h : updateBoth st₁ st₂ = .ok (t, t₁, t₂, found₁, found₂))
    (hkind : st₁.assignments ≠ [] ∧ st₂.assignments ≠ [])
    (hsome : matchCount found₁.segments found₁.memtable ≠ 0 ∧ matchCount found₂.segments found₂.memtable ≠ 0)
    (hread : allows t.pin.pin ⟨st₁, .took t, []⟩ ∧ allows t.pin.pin ⟨st₂, .took t.pin, []⟩)
    (hnumber : allows t.pin.pin ⟨st₁, .read t found₁.segments found₁.replacements, []⟩ ∧
      allows t.pin.pin ⟨st₂, .read t.pin found₂.segments found₂.replacements, []⟩)
    (hupdate : allows t.pin.pin (found₁.going st₁ t) ∧ allows t₁ (found₂.going st₂ t.pin)) :
    Table.Reachable updateEnv t ∧ ∃ going, Updates.Run updateEnv allows ⟨t, [], []⟩
      ⟨t₂, going, (found₁.going st₁ t).replacing ++ (found₂.going st₂ t.pin).replacing⟩ := by
  obtain ⟨t', ht, h⟩ := bind_eq_ok.mp h
  obtain ⟨found₁', hfound₁, h⟩ := bind_eq_ok.mp h
  obtain ⟨found₂', hfound₂, h⟩ := bind_eq_ok.mp h
  obtain ⟨⟨rows₁, t₁'⟩, hfirst, h⟩ := bind_eq_ok.mp h
  obtain ⟨⟨rows₂, t₂'⟩, hsecond, h⟩ := bind_eq_ok.mp h
  simp only [pure, Except.pure, Except.ok.injEq, Prod.mk.injEq] at h
  obtain ⟨rfl, rfl, rfl, rfl, rfl⟩ := h
  obtain ⟨hread₁, hnumber₁⟩ := findMatches_ok hfound₁
  obtain ⟨hread₂, hnumber₂⟩ := findMatches_ok hfound₂
  refine ⟨sevenAndEight_reachable ht, [⟨st₂, .done, t'.writer.memtable.liveSeqnos⟩,
    ⟨st₁, .done, t'.writer.memtable.liveSeqnos⟩], ?_⟩
  refine .head (.take st₁ hkind.1) ?_
  refine .head (.take st₂ hkind.2) ?_
  refine .head (.move 1 rfl hread.1 (.read hread₁)) ?_
  refine .head (.move 0 rfl hread.2 (.read hread₂)) ?_
  refine .head (.move 1 rfl hnumber.1 (.number hnumber₁)) ?_
  refine .head (.move 0 rfl hnumber.2 (.number hnumber₂)) ?_
  refine .head (.move 1 rfl hupdate.1 (.update hkind.1 hsome.1 hfirst)) ?_
  exact .single (.move 0 rfl hupdate.2 (.update hkind.2 hsome.2 hsecond))

/-- One statement replaces the seven, the other the eight. -/
theorem apart_updates_conserve : ∃ (t : PlainTable) (s : Updates (Journal plainSizes (τ := Unit) (ν := Nat))),
    Updates.Run updateEnv (Going.Careful updateEnv) ⟨t, [], []⟩ s ∧ s.replaced = [.memtable 0, .memtable 1] ∧
      t.liveCount = 2 ∧ s.table.liveCount = 2 ∧ s.replaced.Nodup ∧ s.table.liveCount ≤ t.liveCount := by
  have hcheck : (match updateBoth (updateTo 7 70) (updateTo 8 80) with
      | .ok (t, t₁, t₂, found₁, found₂) => decide (
          (matchCount found₁.segments found₁.memtable ≠ 0 ∧ matchCount found₂.segments found₂.memtable ≠ 0) ∧
          t.current.liveSegments = [] ∧ (∀ batch ∈ t.current.memtable, batch.numRows < 2 ^ 32) ∧
          t.writer.memtable.liveSeqnos = [0, 1] ∧ t₁.writer.memtable.liveSeqnos = [1, 2] ∧
          (found₁.going (updateTo 7 70) t).replacing = [.memtable 0] ∧
          (found₂.going (updateTo 8 80) t.pin).replacing = [.memtable 1] ∧ t.liveCount = 2 ∧ t₂.liveCount = 2)
      | .error _ => false) = true := by decide +kernel
  cases hrun : updateBoth (updateTo 7 70) (updateTo 8 80) with
  | error e => rw [hrun] at hcheck; cases hcheck
  | ok result =>
      obtain ⟨t, t₁, t₂, found₁, found₂⟩ := result
      rw [hrun] at hcheck
      obtain ⟨hsome, hsegments, hsmall, hbefore, hafter, hfirst, hsecond, hcount, hcount'⟩ := of_decide_eq_true hcheck
      have hnarrow : ∀ st : Statement Nat, st.Narrow updateEnv t := by
        intro st entry hentry
        rw [hsegments] at hentry
        cases hentry
      have hstill : (found₁.going (updateTo 7 70) t).Careful updateEnv t.pin.pin ∧
          (found₂.going (updateTo 8 80) t.pin).Careful updateEnv t₁ := by
        constructor
        · intro id hid
          have : id = .memtable 0 := List.mem_singleton.mp (hfirst ▸ hid)
          rw [this]
          show 0 ∈ t.writer.memtable.liveSeqnos
          rw [hbefore]
          exact List.mem_cons_self
        · intro id hid
          have : id = .memtable 1 := List.mem_singleton.mp (hsecond ▸ hid)
          rw [this]
          show 1 ∈ t₁.writer.memtable.liveSeqnos
          rw [hafter]
          exact List.mem_cons_self
      obtain ⟨hreach, going, hsteps⟩ := updateBoth_run (Going.Careful updateEnv) hrun
        ⟨List.cons_ne_nil _ _, List.cons_ne_nil _ _⟩ hsome ⟨hnarrow _, hnarrow _⟩
        ⟨⟨hsmall, .refl _ _ _ _⟩, ⟨hsmall, .refl _ _ _ _⟩⟩ hstill
      rw [hfirst, hsecond] at hsteps
      obtain ⟨hnodup, hfew, -⟩ := updates_conserve_rows hreach hsteps
      exact ⟨t, _, hsteps, rfl, hcount, hcount', hnodup, hfew⟩

/-- Two statements replace the seven, and there is a row more than there was. -/
theorem overlapping_updates_add_row : ∃ (t : PlainTable) (s : Updates (Journal plainSizes (τ := Unit) (ν := Nat))),
    Table.Reachable updateEnv t ∧ Updates.Run updateEnv (fun _ _ => True) ⟨t, [], []⟩ s ∧
      s.replaced = [.memtable 0, .memtable 0] ∧ ¬s.replaced.Nodup ∧ t.liveCount = 2 ∧ s.table.liveCount = 3 := by
  have hcheck : (match updateBoth (updateTo 7 70) (updateTo 7 80) with
      | .ok (t, _, t₂, found₁, found₂) => decide (
          (matchCount found₁.segments found₁.memtable ≠ 0 ∧ matchCount found₂.segments found₂.memtable ≠ 0) ∧
          (found₁.going (updateTo 7 70) t).replacing = [.memtable 0] ∧
          (found₂.going (updateTo 7 80) t.pin).replacing = [.memtable 0] ∧ t.liveCount = 2 ∧ t₂.liveCount = 3)
      | .error _ => false) = true := by decide +kernel
  cases hrun : updateBoth (updateTo 7 70) (updateTo 7 80) with
  | error e => rw [hrun] at hcheck; cases hcheck
  | ok result =>
      obtain ⟨t, t₁, t₂, found₁, found₂⟩ := result
      rw [hrun] at hcheck
      obtain ⟨hsome, hfirst, hsecond, hcount, hcount'⟩ := of_decide_eq_true hcheck
      obtain ⟨hreach, going, hsteps⟩ := updateBoth_run (fun _ _ => True) hrun
        ⟨List.cons_ne_nil _ _, List.cons_ne_nil _ _⟩ hsome ⟨trivial, trivial⟩ ⟨trivial, trivial⟩ ⟨trivial, trivial⟩
      rw [hfirst, hsecond] at hsteps
      exact ⟨t, _, hreach, hsteps, rfl, by simp, hcount, hcount'⟩

end Overlapping

end LocalTables
