import LocalTables.Table.Tidy

/-! What one delete removes: the rows named to it, each counted once, and the same when its record is replayed. A plan holds a
whole bitmap for each entry of the statement that adds rows, so an entry overwrites what an earlier one added to the same
segment. -/

namespace LocalTables

variable {τ ν : Type} {M : Media τ ν}

/-- The rows of a segment that are deleted. -/
def Writer.deletedIn (w : Writer M) (id : SegmentId) : Finset Nat := (w.deletes id).getD ∅

/-- The rows of a segment that a statement names: positions before its end. -/
def Writer.namedIn (w : Writer M) (deletions : List (SegmentId × List Nat)) (id : SegmentId) : Finset Nat :=
  (((deletions.filter fun deletion => deletion.1 = id).flatMap Prod.snd).filter fun position =>
    position < ((w.file.committed.manifest.segment id).map SegmentEntry.rowCount).getD 0).toFinset

/-- Whether an entry of a statement names a row that is there and not deleted yet. -/
def Writer.Adds (w : Writer M) (deletion : SegmentId × List Nat) : Prop :=
  ¬w.namedIn [deletion] deletion.1 ⊆ w.deletedIn deletion.1

instance (w : Writer M) (deletion : SegmentId × List Nat) : Decidable (w.Adds deletion) := inferInstanceAs (Decidable (¬_))

/-- What a delete that returned did: it removed the rows named and no others, counted each of them once, and left in the log a
record that does the same to the state before it. -/
structure DeletesExactly [DecidableEq τ] (env : Env τ ν) (t : Table M) (segmentDeletions : List (SegmentId × List Nat))
    (memtableSeqnos : List Nat) (deleted : Nat) (t' : Table M) : Prop where
  segments : ∀ id, t'.writer.deletedIn id = t.writer.deletedIn id ∪ t.writer.namedIn segmentDeletions id
  memtable : t'.writer.memtable.tombstones =
    t.writer.memtable.tombstones ∪ (memtableSeqnos.filter t.writer.memtable.holds).toFinset
  count : deleted = ∑ id ∈ (segmentDeletions.map Prod.fst).toFinset, (t'.writer.deletedIn id \ t.writer.deletedIn id).card +
    (t'.writer.memtable.tombstones \ t.writer.memtable.tombstones).card
  replayed : t' = t ∨ ∃ record frame w, encodeRecord env record = .ok frame ∧
    t.writer.wal.appendGroup [frame] = .ok t'.writer.wal ∧ replayRecord env t.writer record = .ok w ∧
      w.deletes = t'.writer.deletes ∧ w.memtable = t'.writer.memtable

section Plan

variable {w : Writer M} {segmentDeletions : List (SegmentId × List Nat)} {memtableSeqnos : List Nat}
  {planned : PlannedDeletes} {deletes : SegmentId → Option (Finset Nat)} {segments : List (SegmentId × Finset Nat)}

theorem deletedAfter_eq (w : Writer M) (deletion : SegmentId × List Nat) :
    w.deletedAfter deletion = w.deletedIn deletion.1 ∪ w.namedIn [deletion] deletion.1 := by
  simp [Writer.deletedAfter, Writer.deletedIn, Writer.namedIn]

theorem grows_iff (w : Writer M) (deletion : SegmentId × List Nat) :
    (w.deletedAfter deletion).card > ((w.deletes deletion.1).getD ∅).card ↔ w.Adds deletion := by
  have hsub : w.deletedIn deletion.1 ⊆ w.deletedAfter deletion := by
    rw [deletedAfter_eq]
    exact Finset.subset_union_left
  constructor
  · intro hgrows hnone
    rw [deletedAfter_eq, Finset.union_eq_left.mpr hnone] at hgrows
    exact lt_irrefl _ hgrows
  · intro hadds
    apply Finset.card_lt_card
    change w.deletedIn deletion.1 ⊂ w.deletedAfter deletion
    rw [Finset.ssubset_iff_of_subset hsub]
    obtain ⟨position, hnamed, hfresh⟩ := Finset.not_subset.mp hadds
    refine ⟨position, ?_, hfresh⟩
    rw [deletedAfter_eq]
    exact Finset.mem_union_right _ hnamed

theorem planDeletes_segments (h : planDeletes w segmentDeletions memtableSeqnos = .ok planned) :
    planned.segments = (segmentDeletions.filter fun deletion => w.Adds deletion).map
      fun deletion => (deletion.1, w.deletedAfter deletion) := by
  rw [(planDeletes_ok h).2.1]
  congr 1
  apply List.filter_congr
  intro deletion _
  exact decide_eq_decide.mpr (grows_iff w deletion)

theorem planDeletes_count (h : planDeletes w segmentDeletions memtableSeqnos = .ok planned) :
    planned.count = (planned.segments.map fun segment => segment.2.card - (w.deletedIn segment.1).card).sum := by
  obtain ⟨first, hfirst, h⟩ := bind_eq_ok.mp h
  have hfold : ∀ (deletions : List (SegmentId × List Nat)) (start first : PlannedDeletes),
      start.count = (start.segments.map fun segment => segment.2.card - (w.deletedIn segment.1).card).sum →
      deletions.foldlM (planSegment w) start = .ok first →
      first.count = (first.segments.map fun segment => segment.2.card - (w.deletedIn segment.1).card).sum := by
    intro deletions
    induction deletions with
    | nil =>
        intro start first hstart h
        rw [← Except.ok.inj h]
        exact hstart
    | cons deletion deletions ih =>
        intro start first hstart h
        obtain ⟨mid, hmid, h⟩ := bind_eq_ok.mp h
        apply ih mid first _ h
        unfold planSegment at hmid
        split at hmid
        · cases hmid
        · dsimp only at hmid
          split at hmid
          · rw [← Except.ok.inj hmid]
            dsimp only
            rw [List.map_append, List.sum_append, hstart]
            simp [Writer.deletedIn]
          · rw [← Except.ok.inj hmid]
            exact hstart
  rw [← Except.ok.inj h]
  exact hfold segmentDeletions ⟨[], [], 0⟩ first rfl hfirst

/-- Of bitmaps that each grow, those that stay add no more rows than all of them, and just as many when no segment has two. -/
theorem sum_markDeletes (before : SegmentId → Finset Nat) (deletes : SegmentId → Option (Finset Nat))
    (hgrow : ∀ segment ∈ segments, before segment.1 ⊂ segment.2) :
    ∑ id ∈ (segments.map Prod.fst).toFinset, ((markDeletes deletes segments id).getD ∅ \ before id).card ≤
        (segments.map fun segment => segment.2.card - (before segment.1).card).sum ∧
      (∑ id ∈ (segments.map Prod.fst).toFinset, ((markDeletes deletes segments id).getD ∅ \ before id).card =
        (segments.map fun segment => segment.2.card - (before segment.1).card).sum ↔ (segments.map Prod.fst).Nodup) := by
  induction segments generalizing deletes with
  | nil => simp
  | cons segment segments ih =>
      obtain ⟨hle, hiff⟩ := ih (Function.update deletes segment.1 (some segment.2)) fun other hother =>
        hgrow other (List.mem_cons_of_mem segment hother)
      have hself := hgrow segment List.mem_cons_self
      have hcard : (segment.2 \ before segment.1).card = segment.2.card - (before segment.1).card :=
        Finset.card_sdiff_of_subset hself.subset
      have hpos : 0 < segment.2.card - (before segment.1).card := Nat.sub_pos_of_lt (Finset.card_lt_card hself)
      rw [List.map_cons, List.map_cons, List.sum_cons, List.toFinset_cons, List.nodup_cons, markDeletes_cons]
      by_cases hmem : segment.1 ∈ segments.map Prod.fst
      · -- overwritten later on: its rows are counted and do not stay
        rw [Finset.insert_eq_of_mem (List.mem_toFinset.mpr hmem)]
        refine ⟨by omega, fun heq => by omega, fun hnodup => absurd hmem hnodup.1⟩
      · rw [Finset.sum_insert (by rwa [List.mem_toFinset]), markDeletes_of_notMem hmem, Function.update_self, Option.getD_some,
          hcard]
        refine ⟨by omega, fun heq => ⟨hmem, hiff.mp (by omega)⟩, fun hnodup => ?_⟩
        rw [hiff.mpr hnodup.2]

theorem mem_namedIn {id : SegmentId} {position : Nat} : position ∈ w.namedIn segmentDeletions id ↔
    (∃ deletion ∈ segmentDeletions, deletion.1 = id ∧ position ∈ deletion.2) ∧
      position < ((w.file.committed.manifest.segment id).map SegmentEntry.rowCount).getD 0 := by
  simp only [Writer.namedIn, List.mem_toFinset, List.mem_filter, List.mem_flatMap, decide_eq_true_iff]
  constructor
  · rintro ⟨⟨deletion, ⟨hdeletion, rfl⟩, hposition⟩, hin⟩
    exact ⟨⟨deletion, hdeletion, rfl, hposition⟩, hin⟩
  · rintro ⟨⟨deletion, hdeletion, rfl, hposition⟩, hin⟩
    exact ⟨⟨deletion, ⟨hdeletion, rfl⟩, hposition⟩, hin⟩

theorem namedIn_subset {deletion : SegmentId × List Nat} (h : ¬w.Adds deletion) :
    w.namedIn [deletion] deletion.1 ⊆ w.deletedIn deletion.1 := not_not.mp h

/-- When the entries that add rows name distinct segments, what is recorded of each segment is what was there and what is
named. -/
theorem markDeletes_named (hnodup : ((segmentDeletions.filter fun deletion => w.Adds deletion).map Prod.fst).Nodup)
    (id : SegmentId) :
    (markDeletes w.deletes ((segmentDeletions.filter fun deletion => w.Adds deletion).map
      fun deletion => (deletion.1, w.deletedAfter deletion)) id).getD ∅ = w.deletedIn id ∪ w.namedIn segmentDeletions id := by
  have hids : ((segmentDeletions.filter fun deletion => w.Adds deletion).map
      fun deletion => (deletion.1, w.deletedAfter deletion)).map Prod.fst =
        (segmentDeletions.filter fun deletion => w.Adds deletion).map Prod.fst := by
    rw [List.map_map]
    rfl
  -- what is named of a segment by the entries that add nothing is deleted
  have hquiet : ∀ deletion ∈ segmentDeletions, deletion.1 = id → ¬w.Adds deletion →
      ∀ position ∈ w.namedIn [deletion] id, position ∈ w.deletedIn id := by
    rintro deletion - rfl hquiet position hposition
    exact namedIn_subset hquiet hposition
  have hsplit : ∀ position ∈ w.namedIn segmentDeletions id, ∃ deletion ∈ segmentDeletions, deletion.1 = id ∧
      position ∈ w.namedIn [deletion] id := by
    intro position hposition
    obtain ⟨⟨deletion, hdeletion, hid, hnamed⟩, hin⟩ := mem_namedIn.mp hposition
    exact ⟨deletion, hdeletion, hid, mem_namedIn.mpr ⟨⟨deletion, List.mem_cons_self, hid, hnamed⟩, hin⟩⟩
  by_cases hadded : ∃ deletion ∈ segmentDeletions, deletion.1 = id ∧ w.Adds deletion
  · obtain ⟨deletion, hdeletion, rfl, hadds⟩ := hadded
    have hmem : deletion ∈ segmentDeletions.filter fun deletion => w.Adds deletion :=
      List.mem_filter.mpr ⟨hdeletion, decide_eq_true hadds⟩
    have hplan : (deletion.1, w.deletedAfter deletion) ∈ (segmentDeletions.filter fun deletion => w.Adds deletion).map
        fun deletion => (deletion.1, w.deletedAfter deletion) := List.mem_map_of_mem hmem
    rw [markDeletes_of_mem (hids ▸ hnodup) hplan, Option.getD_some, deletedAfter_eq]
    ext position
    rw [Finset.mem_union, Finset.mem_union]
    constructor
    · rintro (hold | hnew)
      · exact .inl hold
      · obtain ⟨⟨other, hother, -, hnamed⟩, hin⟩ := mem_namedIn.mp hnew
        obtain rfl := List.mem_singleton.mp hother
        exact .inr (mem_namedIn.mpr ⟨⟨other, hdeletion, rfl, hnamed⟩, hin⟩)
    · rintro (hold | hnew)
      · exact .inl hold
      · obtain ⟨other, hother, hid, hnamed⟩ := hsplit position hnew
        by_cases hquiet' : w.Adds other
        · have hmem' : other ∈ segmentDeletions.filter fun deletion => w.Adds deletion :=
            List.mem_filter.mpr ⟨hother, decide_eq_true hquiet'⟩
          obtain rfl := List.inj_on_of_nodup_map hnodup hmem' hmem hid
          exact .inr hnamed
        · exact .inl (hquiet other hother hid hquiet' position hnamed)
  · have hnone : id ∉ ((segmentDeletions.filter fun deletion => w.Adds deletion).map
        fun deletion => (deletion.1, w.deletedAfter deletion)).map Prod.fst := by
      rw [hids]
      intro hmem
      obtain ⟨deletion, hdeletion, rfl⟩ := List.mem_map.mp hmem
      obtain ⟨hdeletion, hadds⟩ := List.mem_filter.mp hdeletion
      exact hadded ⟨deletion, hdeletion, rfl, of_decide_eq_true hadds⟩
    rw [markDeletes_of_notMem hnone, eq_comm]
    refine Finset.union_eq_left.mpr fun position hposition => ?_
    obtain ⟨deletion, hdeletion, hid, hnamed⟩ := hsplit position hposition
    exact hquiet deletion hdeletion hid (fun hadds => hadded ⟨deletion, hdeletion, hid, hadds⟩) position hnamed

end Plan

section Delete

variable {env : Env τ ν} {t t' : Table M} {segmentDeletions : List (SegmentId × List Nat)} {memtableSeqnos : List Nat}
  {deleted : Nat}

/-- What a delete that returned did, whether or not it had anything to log. -/
theorem Table.delete_planned (h : t.delete env segmentDeletions memtableSeqnos = .ok (deleted, t')) :
    ∃ planned, planDeletes t.writer segmentDeletions memtableSeqnos = .ok planned ∧
      t'.writer.deletes = markDeletes t.writer.deletes planned.segments ∧
      t'.writer.memtable = (t.writer.memtable.delete planned.memtable).2 ∧
      deleted = planned.count + (t.writer.memtable.delete planned.memtable).1 ∧
      (t' = t ∨ ∃ frame, encodeRecord env (.delete t.writer.nextLsn planned.loggedSegments planned.memtable) = .ok frame ∧
        t.writer.wal.appendGroup [frame] = .ok t'.writer.wal) := by
  have hempty : ∀ planned, planDeletes t.writer segmentDeletions memtableSeqnos = .ok planned → planned.isEmpty = true →
      t.writer.deletes = markDeletes t.writer.deletes planned.segments ∧
        t.writer.memtable = (t.writer.memtable.delete planned.memtable).2 ∧
          0 = planned.count + (t.writer.memtable.delete planned.memtable).1 := by
    intro planned hplanned hempty
    rw [PlannedDeletes.isEmpty, Bool.and_eq_true, List.isEmpty_iff, List.isEmpty_iff] at hempty
    have hcount := planDeletes_count hplanned
    rw [hempty.1] at hcount
    rw [hempty.1, hempty.2, hcount]
    exact ⟨rfl, rfl, rfl⟩
  unfold Table.delete at h
  split at h
  · next hnone =>
      obtain ⟨rfl, rfl⟩ := Prod.mk.inj (Except.ok.inj h)
      obtain ⟨rfl, rfl⟩ : segmentDeletions = [] ∧ memtableSeqnos = [] := by simpa using hnone
      obtain ⟨hdeletes, hmemtable, hcount⟩ := hempty ⟨[], [], 0⟩ rfl rfl
      exact ⟨⟨[], [], 0⟩, rfl, hdeletes, hmemtable, hcount, .inl rfl⟩
  · obtain ⟨planned, hplanned, h⟩ := bind_eq_ok.mp h
    split at h
    · next hnone =>
        obtain ⟨rfl, rfl⟩ := Prod.mk.inj (Except.ok.inj h)
        obtain ⟨hdeletes, hmemtable, hcount⟩ := hempty planned hplanned hnone
        exact ⟨planned, hplanned, hdeletes, hmemtable, hcount, .inl rfl⟩
    · obtain ⟨frame, hframe, h⟩ := bind_eq_ok.mp h
      obtain ⟨wal, hwal, h⟩ := bind_eq_ok.mp h
      obtain ⟨hcount, ht⟩ := Prod.mk.inj (Except.ok.inj h)
      have hwriter : t'.writer = { t.writer with
          wal := wal
          nextLsn := t.writer.nextLsn + 1
          deletes := markDeletes t.writer.deletes planned.segments
          dirtyDeletes := markDirty t.writer.dirtyDeletes planned.segments
          memtable := (t.writer.memtable.delete planned.memtable).2 } := by
        rw [← ht]
        exact applyDeletes_snd _ planned
      rw [hwriter]
      refine ⟨planned, hplanned, rfl, rfl, ?_, .inr ⟨frame, hframe, hwal⟩⟩
      rw [← hcount]
      change (applyDeletes _ planned).1 = _
      unfold applyDeletes
      rw [Writer.markAll_eq]

/-- Replay marks what the delete marked: every segment it named is listed. -/
theorem applyLoggedDeletes_planned {w : Writer M} {planned : PlannedDeletes}
    (hlisted : ∀ segment ∈ planned.segments, ∃ entry, w.file.committed.manifest.segment segment.1 = some entry) :
    applyLoggedDeletes w planned.loggedSegments = planned.segments.foldl (fun w (id, rows) => w.mark id rows) w := by
  unfold applyLoggedDeletes PlannedDeletes.loggedSegments
  rw [List.foldl_map]
  generalize planned.segments = segments at hlisted
  induction segments generalizing w with
  | nil => rfl
  | cons segment segments ih =>
      obtain ⟨entry, hentry⟩ := hlisted segment List.mem_cons_self
      rw [List.foldl_cons, List.foldl_cons, hentry]
      exact ih fun other hother => hlisted other (List.mem_cons_of_mem segment hother)

/-- A delete that returns removed exactly what it was asked to, counted it right and replays the same, if and only if no two of
the entries that add rows name one segment. -/
theorem Table.delete_exactly_iff [DecidableEq τ] (h : t.delete env segmentDeletions memtableSeqnos = .ok (deleted, t')) :
    DeletesExactly env t segmentDeletions memtableSeqnos deleted t' ↔
      ((segmentDeletions.filter fun deletion => t.writer.Adds deletion).map Prod.fst).Nodup := by
  obtain ⟨planned, hplanned, hdeletes, hmemtable, hdeleted, hlogged⟩ := Table.delete_planned h
  obtain ⟨hlisted, -, hseqnos⟩ := planDeletes_ok hplanned
  have hsegments := planDeletes_segments hplanned
  have hids : planned.segments.map Prod.fst =
      (segmentDeletions.filter fun deletion => t.writer.Adds deletion).map Prod.fst := by
    rw [hsegments, List.map_map]
    rfl
  have hgrow : ∀ segment ∈ planned.segments, t.writer.deletedIn segment.1 ⊂ segment.2 := by
    intro segment hsegment
    rw [hsegments] at hsegment
    obtain ⟨deletion, hdeletion, rfl⟩ := List.mem_map.mp hsegment
    have hadds := (grows_iff t.writer deletion).mpr (of_decide_eq_true (List.mem_filter.mp hdeletion).2)
    refine Finset.ssubset_iff_subset_ne.mpr ⟨?_, fun heq => ?_⟩
    · rw [deletedAfter_eq]
      exact Finset.subset_union_left
    · dsimp only at heq
      rw [← heq] at hadds
      exact lt_irrefl _ hadds
  have hplain : ∀ segment ∈ planned.segments, ∃ entry, t.writer.file.committed.manifest.segment segment.1 = some entry := by
    intro segment hsegment
    rw [hsegments] at hsegment
    obtain ⟨deletion, hdeletion, rfl⟩ := List.mem_map.mp hsegment
    exact hlisted deletion (List.mem_of_mem_filter hdeletion)
  obtain ⟨-, hsum⟩ := sum_markDeletes t.writer.deletedIn t.writer.deletes hgrow
  rw [← planDeletes_count hplanned, hids, ← hdeletes] at hsum
  -- segments that no entry adds rows to do not count
  have hrest : ∑ id ∈ (segmentDeletions.map Prod.fst).toFinset, (t'.writer.deletedIn id \ t.writer.deletedIn id).card =
      ∑ id ∈ ((segmentDeletions.filter fun deletion => t.writer.Adds deletion).map Prod.fst).toFinset,
        (t'.writer.deletedIn id \ t.writer.deletedIn id).card := by
    symm
    apply Finset.sum_subset
    · intro id hid
      rw [List.mem_toFinset] at hid ⊢
      exact (List.Sublist.map Prod.fst List.filter_sublist).subset hid
    · intro id _ hid
      rw [List.mem_toFinset, ← hids] at hid
      rw [Writer.deletedIn, Writer.deletedIn, hdeletes, markDeletes_of_notMem hid, Finset.sdiff_self, Finset.card_empty]
  have hcount : deleted = ∑ id ∈ (segmentDeletions.map Prod.fst).toFinset, (t'.writer.deletedIn id \ t.writer.deletedIn id).card +
      (t'.writer.memtable.tombstones \ t.writer.memtable.tombstones).card ↔
        ((segmentDeletions.filter fun deletion => t.writer.Adds deletion).map Prod.fst).Nodup := by
    rw [← hsum, hdeleted, Memtable.delete_fst, ← hmemtable, hrest, Nat.add_right_cancel_iff]
    exact eq_comm
  constructor
  · exact fun hexact => hcount.mp hexact.count
  · intro hnodup
    refine ⟨fun id => ?_, ?_, hcount.mpr hnodup, hlogged.imp id ?_⟩
    · rw [Writer.deletedIn, hdeletes, hsegments]
      exact markDeletes_named hnodup id
    · rw [hmemtable, Memtable.delete_snd, hseqnos]
      ext seqno
      simp only [Memtable.isDeleted, Finset.mem_union, List.mem_toFinset, List.mem_filter]
      by_cases hold : seqno ∈ t.writer.memtable.tombstones <;> simp [hold]
    · rintro ⟨frame, hframe, hwal⟩
      have hreplay := applyLoggedDeletes_planned hplain
      rw [Writer.markAll_eq] at hreplay
      refine ⟨_, frame, _, hframe, hwal, rfl, ?_, ?_⟩
      · rw [hreplay, hdeletes]
      · rw [hreplay, hmemtable]

end Delete

section Twice

def deleteEnv : Env Unit Nat :=
  plainEnv plainOptions [.insert 1 0 ⟨[()], [[7], [8]]⟩, .delete 2 [⟨0, {0, 1}⟩] [3], .delete 2 [⟨0, {0}⟩, ⟨0, {1}⟩] []]

/-- A delete from a table of one segment with two rows. -/
def deleteFromTwo (deletions : List (SegmentId × List Nat)) (seqnos : List Nat) :
    Except Error (PlainTable × Nat × PlainTable) := do
  let t₀ ← Table.create deleteEnv (Journal plainSizes) plainSchema (fun _ => 0) (fun _ => []) none
  let (_, t₁) ← t₀.insertLocked deleteEnv [⟨plainSchema.fields, [[7], [8]]⟩]
  let (_, t) ← t₁.flushLocked deleteEnv
  let (deleted, t') ← t.delete deleteEnv deletions seqnos
  return (t, deleted, t')

theorem deleteFromTwo_delete {deletions : List (SegmentId × List Nat)} {seqnos : List Nat} {t t' : PlainTable} {deleted : Nat}
    (h : deleteFromTwo deletions seqnos = .ok (t, deleted, t')) : t.delete deleteEnv deletions seqnos = .ok (deleted, t') := by
  obtain ⟨t₀, -, h⟩ := bind_eq_ok.mp h
  obtain ⟨⟨_, t₁⟩, -, h⟩ := bind_eq_ok.mp h
  obtain ⟨⟨_, t₂⟩, -, h⟩ := bind_eq_ok.mp h
  obtain ⟨⟨_, t₃⟩, hdelete, h⟩ := bind_eq_ok.mp h
  cases Except.ok.inj h
  exact hdelete

/-- Positions named twice and past the end, and a row the memtable does not hold, in one entry. -/
theorem delete_two_rows : ∃ t t' : PlainTable, t.delete deleteEnv [(0, [0, 1, 1, 7])] [3] = .ok (2, t') ∧
    DeletesExactly deleteEnv t [(0, [0, 1, 1, 7])] [3] 2 t' := by
  have hcheck : (match deleteFromTwo [(0, [0, 1, 1, 7])] [3] with
      | .ok (_, deleted, _) => decide (deleted = 2)
      | .error _ => false) = true := by decide +kernel
  cases hrun : deleteFromTwo [(0, [0, 1, 1, 7])] [3] with
  | error e =>
      rw [hrun] at hcheck
      cases hcheck
  | ok result =>
      obtain ⟨t, deleted, t'⟩ := result
      rw [hrun] at hcheck
      obtain rfl := of_decide_eq_true hcheck
      have hdelete := deleteFromTwo_delete hrun
      refine ⟨t, t', hdelete, (Table.delete_exactly_iff hdelete).mpr ?_⟩
      exact (List.Sublist.map Prod.fst List.filter_sublist).nodup (List.nodup_singleton 0)

/-- Two entries for one segment: the second overwrites what the first added, and both are counted. -/
theorem second_entry_overwrites : ∃ t t' : PlainTable, t.delete deleteEnv [(0, [0]), (0, [1])] [] = .ok (2, t') ∧
    t.writer.deletedIn 0 = ∅ ∧ t'.writer.deletedIn 0 = {1} ∧
      ¬DeletesExactly deleteEnv t [(0, [0]), (0, [1])] [] 2 t' := by
  have hcheck : (match deleteFromTwo [(0, [0]), (0, [1])] [] with
      | .ok (t, deleted, t') => decide (deleted = 2 ∧ t.writer.deletedIn 0 = ∅ ∧ t'.writer.deletedIn 0 = {1} ∧
          t.writer.namedIn [(0, [0]), (0, [1])] 0 = {0, 1})
      | .error _ => false) = true := by decide +kernel
  cases hrun : deleteFromTwo [(0, [0]), (0, [1])] [] with
  | error e =>
      rw [hrun] at hcheck
      cases hcheck
  | ok result =>
      obtain ⟨t, deleted, t'⟩ := result
      rw [hrun] at hcheck
      obtain ⟨rfl, hbefore, hafter, hnamed⟩ := of_decide_eq_true hcheck
      refine ⟨t, t', deleteFromTwo_delete hrun, hbefore, hafter, fun hexact => ?_⟩
      have hsegment := hexact.segments 0
      rw [hafter, hbefore, hnamed] at hsegment
      exact absurd hsegment (by decide)

end Twice

end LocalTables
