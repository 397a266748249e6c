import LocalTables.Table.Traffic

/-! What a rewriting schema change does to the rows. It reads the segments it captured before it took the lock, converts
each row, and retires those segments in the commit that lists the new ones. -/

namespace LocalTables

variable {τ ν : Type} {M : Media τ ν}

section Rows

variable [DecidableEq τ] (env : Env τ ν) (before after : Schema τ)

/-- What a schema change makes of one row. -/
def convertRow (row : Row ν) : Except Error (Row ν) :=
  after.fields.mapM fun field =>
    match before.indexOf field.name with
    | none => return env.null
    | some at_ =>
        match before.fields[at_]? with
        | none => throw (.arrow "a column is out of range")
        | some old =>
            let value := row.getD at_ env.null
            if old.dataType = field.dataType then return value
            else env.cast old.dataType field.dataType value

/-- A row and what a schema change makes of it. There is a null only where the new schema has room for one. -/
def ConvertsTo (row row' : Row ν) : Prop :=
  convertRow env before after row = .ok row' ∧
    (row'.zip after.fields).all fun (value, field) => field.nullable || !env.isNull value

/-- Some rows, and others they were made into. -/
abbrev Converted : Multiset (Row ν) → Multiset (Row ν) → Prop :=
  Multiset.Rel fun row row' => convertRow env before after row = .ok row'

/-- Rows that are sorted at one time are counted in `u32`. -/
def SortsIn (clusterColumns : List Nat) (rows : List (Row ν)) : Prop := clusterColumns = [] ∨ rows.length < 2 ^ 32

/-- What becomes of rows that are converted and sorted part by part: none is made up, and none is lost exactly where every
part can be sorted. -/
structure Landed (clusterColumns : List Nat) (parts : List (List (Row ν))) (made : List (Row ν)) : Prop where
  length_le : made.length ≤ parts.flatten.length
  fits_iff : (∀ part ∈ parts, SortsIn clusterColumns part) ↔ made.length = parts.flatten.length
  converted : (∀ part ∈ parts, SortsIn clusterColumns part) →
    Multiset.Rel (ConvertsTo env before after) ↑parts.flatten ↑made

variable {env before after}

theorem rel_coe_of_forall₂ {α β : Type} {r : α → β → Prop} {xs : List α} {ys : List β} (h : List.Forall₂ r xs ys) :
    Multiset.Rel r (xs : Multiset α) (ys : Multiset β) := by
  induction h with
  | nil => exact .zero
  | cons hxy _ ih =>
      rw [← Multiset.cons_coe, ← Multiset.cons_coe]
      exact .cons hxy ih

theorem convert_ok {batch converted : RecordBatch τ ν} (hfields : batch.fields = before.fields)
    (h : convert env before after batch = .ok converted) : converted.fields = after.fields ∧
      Multiset.Rel (ConvertsTo env before after) (batch.rows : Multiset (Row ν)) converted.rows := by
  obtain ⟨rows, hrows, h⟩ := bind_eq_ok.mp h
  rw [hfields] at hrows
  split at h
  · next hnulls =>
      rw [← Except.ok.inj h]
      refine ⟨rfl, rel_coe_of_forall₂ ?_⟩
      have hforall : List.Forall₂ (fun row row' => convertRow env before after row = .ok row') batch.rows rows := mapM_ok hrows
      rw [List.all_eq_true] at hnulls
      clear hrows h
      generalize batch.rows = held at hforall ⊢
      induction hforall with
      | nil => exact .nil
      | cons hrow _ ih =>
          obtain ⟨hfirst, hothers⟩ := List.forall_mem_cons.mp hnulls
          exact .cons ⟨hrow, hfirst⟩ (ih hothers)
  · cases h

theorem convertAll_ok {batches converted : List (RecordBatch τ ν)} (hfields : ∀ batch ∈ batches, batch.fields = before.fields)
    (h : batches.mapM (convert env before after) = .ok converted) :
    Multiset.Rel (ConvertsTo env before after) (rowsOf batches : Multiset (Row ν)) (rowsOf converted) := by
  have hforall := mapM_ok h
  clear h
  induction hforall with
  | nil => exact .zero
  | @cons batch _ batches _ hbatch _ ih =>
      rw [rowsOf_cons, rowsOf_cons, ← Multiset.coe_add, ← Multiset.coe_add]
      refine .add (convert_ok (hfields batch List.mem_cons_self) hbatch).2 (ih fun other hother => ?_)
      exact hfields other (List.mem_cons_of_mem _ hother)

theorem Landed.nil (clusterColumns : List Nat) : Landed env before after clusterColumns [] [] :=
  ⟨le_rfl, by simp, fun _ => .zero⟩

theorem Landed.cons {clusterColumns : List Nat} {part made : List (Row ν)} {parts : List (List (Row ν))} {more : List (Row ν)}
    (h : Landed env before after clusterColumns [part] made) (hrest : Landed env before after clusterColumns parts more) :
    Landed env before after clusterColumns (part :: parts) (made ++ more) := by
  have hle := h.length_le
  have hone := h.fits_iff
  have hmany := hrest.length_le
  simp only [List.flatten_cons, List.flatten_nil, List.append_nil, List.forall_mem_singleton] at hle hone
  refine ⟨?_, ?_, fun hsorts => ?_⟩
  · rw [List.flatten_cons, List.length_append, List.length_append]
    omega
  · rw [List.forall_mem_cons, hone, hrest.fits_iff, List.flatten_cons, List.length_append, List.length_append]
    omega
  · obtain ⟨hfirst, hothers⟩ := List.forall_mem_cons.mp hsorts
    have hpart := h.converted (List.forall_mem_singleton.mpr hfirst)
    rw [List.flatten_cons, List.flatten_nil, List.append_nil] at hpart
    rw [List.flatten_cons, ← Multiset.coe_add, ← Multiset.coe_add]
    exact hpart.add (hrest.converted hothers)

/-- One part: what is cut from it into row groups. -/
theorem Landed.part {clusterColumns : List Nat} {groupRows : Nat} {part : List (Row ν)} {converted : List (RecordBatch τ ν)}
    {groups : List (List (RecordBatch τ ν))}
    (hrel : Multiset.Rel (ConvertsTo env before after) (part : Multiset (Row ν)) (rowsOf converted))
    (hgroups : rowGroups env converted groupRows after clusterColumns = .ok groups) :
    Landed env before after clusterColumns [part] (rowsOf groups.flatten) := by
  have hlength : part.length = (rowsOf converted).length := by
    have hcard := Multiset.card_eq_card_of_rel hrel
    rwa [Multiset.coe_card, Multiset.coe_card] at hcard
  have hfits : SortsIn clusterColumns part ↔ FitsCluster clusterColumns converted := by
    rw [SortsIn, FitsCluster, hlength, length_rowsOf]
  refine ⟨?_, ?_, fun hsorts => ?_⟩
  · rw [List.flatten_singleton, hlength]
    exact length_rowGroups_le hgroups
  · rw [List.forall_mem_singleton, List.flatten_singleton, hlength, hfits]
    exact fitsCluster_iff hgroups
  · rw [List.forall_mem_singleton, hfits] at hsorts
    rw [List.flatten_singleton, Multiset.coe_eq_coe.mpr (rowsOf_rowGroups hsorts hgroups)]
    exact hrel

end Rows

namespace Table

variable {env : Env τ ν} {t t' : Table M}

theorem fields_sliceBatches {batch : RecordBatch τ ν} {rows : Nat} {piece : RecordBatch τ ν}
    (h : piece ∈ sliceBatches batch rows) : piece.fields = batch.fields := by
  unfold sliceBatches at h
  split at h
  · cases h
  · split at h
    · rw [List.mem_singleton.mp h]
    · obtain ⟨index, -, rfl⟩ := List.mem_map.mp h
      rfl

/-- The batches of a segment have the fields it was read under. -/
theorem readSegmentAs_fields {file : M.File} {s : Snapshot τ ν} {entry : SegmentEntry} {fields : List (Field τ)}
    {layout : List Nat} {batches : List (RecordBatch τ ν)} (h : readSegmentAs env file s entry fields layout = .ok batches) :
    ∀ batch ∈ batches, batch.fields = fields := by
  obtain ⟨data, -, h⟩ := bind_eq_ok.mp h
  rw [← Except.ok.inj h]
  intro batch hbatch
  obtain ⟨⟨start, len⟩, -, hmem⟩ := List.mem_flatMap.mp hbatch
  have hpage : (dropDeleted (s.deletes entry.segmentId) start (readRows env fields data start len)).fields = fields := by
    unfold dropDeleted
    split
    · rfl
    · split <;> rfl
  change batch ∈ (if (dropDeleted (s.deletes entry.segmentId) start (readRows env fields data start len)).numRows = 0 then []
    else sliceBatches (dropDeleted (s.deletes entry.segmentId) start (readRows env fields data start len)) _) at hmem
  split at hmem
  · cases hmem
  · exact (fields_sliceBatches hmem).trans hpage

section Convert

variable [DecidableEq τ] {before after : TableSchema τ} {minActive : Nat} {f : TableFile M} {p p' : Pending M}
  {s : Snapshot τ ν}

/-- The segments of a conversion, in the portions whose rows are written at one time. `held` is read and not written yet. -/
def portions (budget : Nat) : List SegmentEntry → List SegmentEntry → Nat → List (List SegmentEntry)
  | [], held, _ => [held]
  | entry :: rest, held, bytes =>
      if bytes + entry.data.len < budget then portions budget rest (held ++ [entry]) (bytes + entry.data.len)
      else (held ++ [entry]) :: portions budget rest [] 0

theorem portions_flatten (budget : Nat) (sources held : List SegmentEntry) (bytes : Nat) :
    (portions budget sources held bytes).flatten = held ++ sources := by
  induction sources generalizing held bytes with
  | nil => simp [portions]
  | cons entry sources ih =>
      rw [portions]
      split
      · rw [ih, List.append_assoc, List.singleton_append]
      · rw [List.flatten_cons, ih, List.nil_append, List.append_assoc, List.singleton_append]

theorem flatten_map_portions {α : Type} (rows : SegmentEntry → List α) (budget : Nat) (sources : List SegmentEntry) :
    ((portions budget sources [] 0).map fun portion => portion.flatMap rows).flatten = sources.flatMap rows := by
  have hcut := portions_flatten budget sources [] 0
  rw [List.nil_append, List.flatten_eq_flatMap] at hcut
  have hrows := congrArg (fun entries : List SegmentEntry => entries.flatMap rows) hcut
  rw [List.flatMap_assoc] at hrows
  exact hrows

/-- Read a segment under the old schema, and convert its rows. -/
def convertRead (env : Env τ ν) (s : Snapshot τ ν) (before after : TableSchema τ) (file : M.File) (entry : SegmentEntry) :
    Except Error (List (RecordBatch τ ν)) := do
  let read ← readSegmentAs env file s entry before.schema.fields before.layout
  read.mapM (convert env before.schema after.schema)

/-- Convert one portion, and write it out. -/
def convertPortion (env : Env τ ν) (write : GroupWriter M) (s : Snapshot τ ν) (before after : TableSchema τ) (groupRows : Nat)
    (pending : Pending M) (portion : List SegmentEntry) : Except Error (Pending M) := do
  let converted ← portion.mapM (convertRead env s before after pending.io.file)
  writeGroups env write groupRows after pending converted.flatten

/-- A conversion goes through its portions one after another. -/
theorem convertSegments_portions {write : GroupWriter M} {sources : List SegmentEntry}
    (hok : convertSegments env write s sources before after p = .ok p') :
    (portions (max env.options.compactionMaxBytes 1) sources [] 0).foldlM (convertPortion env write s before after
      (env.options.rowGroupSizeFor (sources.map SegmentEntry.rowCount).sum)) p = .ok p' := by
  unfold convertSegments at hok
  dsimp only at hok
  generalize env.options.rowGroupSizeFor (sources.map SegmentEntry.rowCount).sum = groupRows at hok ⊢
  have hfold : ∀ (sources held : List SegmentEntry) (read : List (List (RecordBatch τ ν))) (c c' : Conversion M),
      held.mapM (convertRead env s before after c.pending.io.file) = .ok read → c.batches = read.flatten →
      sources.foldlM (convertSegment env write s before after groupRows) c = .ok c' →
      writeGroups env write groupRows after c'.pending c'.batches = .ok p' →
      (portions (max env.options.compactionMaxBytes 1) sources held c.bytes).foldlM
        (convertPortion env write s before after groupRows) c.pending = .ok p' := by
    intro sources
    induction sources with
    | nil =>
        intro held read c c' hread hbatches hfold hwrite
        obtain rfl := Except.ok.inj hfold
        rw [hbatches] at hwrite
        rw [portions, List.foldlM_cons]
        exact bind_eq_ok.mpr ⟨p', bind_eq_ok.mpr ⟨read, hread, hwrite⟩, rfl⟩
    | cons entry sources ih =>
        intro held read c c' hread hbatches hfold hwrite
        obtain ⟨c₁, hfirst, hfold⟩ := bind_eq_ok.mp hfold
        obtain ⟨batches, hentry, hfirst⟩ := bind_eq_ok.mp hfirst
        obtain ⟨converted, hconvert, hfirst⟩ := bind_eq_ok.mp hfirst
        have hmore : (held ++ [entry]).mapM (convertRead env s before after c.pending.io.file) = .ok (read ++ [converted]) := by
          rw [List.mapM_append]
          refine bind_eq_ok.mpr ⟨read, hread, bind_eq_ok.mpr ⟨[converted], ?_, rfl⟩⟩
          have hlast : convertRead env s before after c.pending.io.file entry = .ok converted :=
            bind_eq_ok.mpr ⟨batches, hentry, hconvert⟩
          rw [List.mapM_cons, hlast]
          rfl
        have hall : c.batches ++ converted = (read ++ [converted]).flatten := by
          rw [hbatches, List.flatten_append, List.flatten_singleton]
        rw [portions]
        dsimp only at hfirst
        split at hfirst
        · next hsmall =>
            obtain rfl := Except.ok.inj hfirst
            rw [if_pos hsmall]
            exact ih (held ++ [entry]) _ ⟨c.pending, c.batches ++ converted, c.bytes + entry.data.len⟩ c' hmore hall hfold hwrite
        · next hfull =>
            obtain ⟨pending, hpending, hfirst⟩ := bind_eq_ok.mp hfirst
            obtain rfl := Except.ok.inj hfirst
            rw [if_neg hfull, List.foldlM_cons]
            rw [hall] at hpending
            exact bind_eq_ok.mpr ⟨pending, bind_eq_ok.mpr ⟨_, hmore, hpending⟩, ih [] [] _ c' rfl rfl hfold hwrite⟩
  obtain ⟨c, hc, hok⟩ := bind_eq_ok.mp hok
  exact hfold sources [] [] _ c rfl rfl hc hok

/-- One portion is read under the old schema, and what it was made into is listed. -/
theorem convertPortion_wrote (hdrafted : Drafted minActive f p) (hmin : minActive ≤ f.committed.metaPage.txnId)
    {portion : List SegmentEntry} {groupRows : Nat}
    (hok : convertPortion env (writeSegment env after minActive) s before after groupRows p portion = .ok p') :
    Drafted minActive f p' ∧ (∀ entry ∈ portion, ∃ data, segmentReader p.io.file entry before.layout = .ok data) ∧
      ∃ new, Wrote after minActive p p' new ∧ Landed env before.schema after.schema after.clusterColumns
        [portion.flatMap fun entry => entry.rowsIn env p.io.file before ((s.deletes entry.segmentId).getD ∅)]
        (new.flatMap fun x => x.2.rows) := by
  obtain ⟨converted, hread, hok⟩ := bind_eq_ok.mp hok
  obtain ⟨groups, hgroups, hok⟩ := bind_eq_ok.mp hok
  obtain ⟨new, hwrote, hrows⟩ := writeSegments_wrote hdrafted hmin hok
  have hone : ∀ entry batches, convertRead env s before after p.io.file entry = .ok batches →
      (∃ data, segmentReader p.io.file entry before.layout = .ok data) ∧
        Multiset.Rel (ConvertsTo env before.schema after.schema)
          (entry.rowsIn env p.io.file before ((s.deletes entry.segmentId).getD ∅) : Multiset (Row ν)) (rowsOf batches) := by
    intro entry batches hbatches
    obtain ⟨read, hread, hconvert⟩ := bind_eq_ok.mp hbatches
    obtain ⟨data, hdata, hrows⟩ := readSegmentAs_rows hread
    refine ⟨⟨data, hdata⟩, ?_⟩
    rw [SegmentEntry.rowsIn_eq hdata, ← hrows]
    exact convertAll_ok (readSegmentAs_fields hread) hconvert
  refine ⟨hdrafted.edits (writeSegments_edits hok), fun entry hentry => ?_, new, hwrote, ?_⟩
  · obtain ⟨batches, -, hbatches⟩ := mapM_exists hread hentry
    exact (hone entry batches hbatches).1
  · rw [hrows]
    refine .part ?_ hgroups
    have hforall := mapM_ok hread
    clear * - hforall hone
    generalize portion = entries at hforall
    induction hforall with
    | nil => exact .zero
    | @cons entry batches entries _ hbatches _ ih =>
        rw [List.flatMap_cons, List.flatten_cons, rowsOf_append, ← Multiset.coe_add, ← Multiset.coe_add]
        exact .add (hone entry batches hbatches).2 ih

/-- Every row that is read is converted, and written once, as far as the portions can be sorted. -/
theorem convertSegments_rows {sources : List SegmentEntry} (hbegin : Drafted minActive f p)
    (hmin : minActive ≤ f.committed.metaPage.txnId)
    (hsources : ∀ entry ∈ sources, entry ∈ p.manifest.segments ∧ ∃ data : SegmentData ν, entry.Stores p.io.file data)
    (hok : convertSegments env (writeSegment env after minActive) s sources before after p = .ok p') :
    (∀ entry ∈ sources, ∃ data, segmentReader p.io.file entry before.layout = .ok data) ∧
      ∃ new, Wrote after minActive p p' new ∧ Landed env before.schema after.schema after.clusterColumns
        ((portions (max env.options.compactionMaxBytes 1) sources [] 0).map fun portion =>
          portion.flatMap fun entry => entry.rowsIn env p.io.file before ((s.deletes entry.segmentId).getD ∅))
        (new.flatMap fun x => x.2.rows) := by
  have hfold : ∀ (groupRows : Nat) (cut : List (List SegmentEntry)) (q : Pending M) (new : List (SegmentEntry × SegmentData ν)),
      (∀ entry ∈ cut.flatten, entry ∈ sources) → Drafted minActive f q → Wrote after minActive p q new →
      cut.foldlM (convertPortion env (writeSegment env after minActive) s before after groupRows) q = .ok p' →
      (∀ entry ∈ cut.flatten, ∃ data, segmentReader p.io.file entry before.layout = .ok data) ∧
        ∃ more, Wrote after minActive p p' (new ++ more) ∧ Landed env before.schema after.schema after.clusterColumns
          (cut.map fun portion => portion.flatMap fun entry =>
            entry.rowsIn env p.io.file before ((s.deletes entry.segmentId).getD ∅)) (more.flatMap fun x => x.2.rows) := by
    intro groupRows cut
    induction cut with
    | nil =>
        intro q new _ _ hwrote hok
        obtain rfl := Except.ok.inj hok
        refine ⟨by simp, [], ?_, .nil _⟩
        rwa [List.append_nil]
    | cons portion cut ih =>
        intro q new hsub hdrafted hwrote hok
        obtain ⟨q₁, hfirst, hok⟩ := bind_eq_ok.mp hok
        rw [List.flatten_cons, List.forall_mem_append] at hsub
        obtain ⟨hdrafted₁, hopens, made, hmade, hlanded⟩ := convertPortion_wrote hdrafted hmin hfirst
        -- what is listed reads as it did before anything was written
        have hread : ∀ entry ∈ portion, M.read q.io.file entry.data (.segment entry.metaAt) =
            M.read p.io.file entry.data (.segment entry.metaAt) := by
          intro entry hentry
          obtain ⟨hlisted, data, hstores⟩ := hsources entry (hsub.1 entry hentry)
          exact (hbegin.stores hmin hwrote.keeps hlisted hstores).read.trans hstores.read.symm
        obtain ⟨hothers, more, hmore, hrest⟩ := ih q₁ (new ++ made) hsub.2 hdrafted₁ (hwrote.trans hdrafted hmin hmade) hok
        refine ⟨?_, made ++ more, ?_, ?_⟩
        · rw [List.flatten_cons, List.forall_mem_append]
          refine ⟨fun entry hentry => ?_, hothers⟩
          obtain ⟨data, hdata⟩ := hopens entry hentry
          refine ⟨data, ?_⟩
          rw [← hdata, segmentReader, segmentReader, hread entry hentry]
        · rw [← List.append_assoc]
          exact hmore
        · have hsame : (portion.flatMap fun entry => entry.rowsIn env q.io.file before ((s.deletes entry.segmentId).getD ∅)) =
              portion.flatMap fun entry => entry.rowsIn env p.io.file before ((s.deletes entry.segmentId).getD ∅) :=
            List.flatMap_congr fun entry hentry => SegmentEntry.rowsIn_congr rfl rfl (hread entry hentry) _
          rw [hsame] at hlanded
          rw [List.map_cons, List.flatMap_append]
          exact hlanded.cons hrest
  have hcut := portions_flatten (max env.options.compactionMaxBytes 1) sources [] 0
  rw [List.nil_append] at hcut
  have hall := hfold _ _ p [] (by rw [hcut]; exact fun _ h => h) hbegin (.nil after minActive p) (convertSegments_portions hok)
  rw [hcut] at hall
  exact hall

end Convert

/-- The table still stands as a snapshot captured it: the segments with live rows are those, as they were, with the rows
deleted that were deleted. -/
structure Unmoved (t : Table M) (s : Snapshot τ ν) : Prop where
  captured : s.Captured t.writer.file.committed.manifest
  deletes : ∀ entry ∈ s.liveSegments, (s.deletes entry.segmentId).getD ∅ = (t.writer.deletes entry.segmentId).getD ∅
  rest : ∀ entry ∈ t.writer.file.committed.manifest.segments,
    entry.segmentId ∉ s.liveSegments.map SegmentEntry.segmentId → (t.writer.snapshot t.schema).liveRowsIn entry = 0

/-- Its rows are those of the segments that were captured. -/
theorem Unmoved.rows {s : Snapshot τ ν} (h : t.Unmoved s) (hhoused : t.Housed) (htidy : t.Tidy) (hall : t.All fun _ => True)
    (hempty : t.writer.memtable.isEmpty) : t.rows env = ↑(s.liveSegments.flatMap (t.rowsOfSegment env)) := by
  have hlive : t.writer.memtable.live = [] := by
    have hzero : t.writer.memtable.liveRows = 0 := beq_iff_eq.mp hempty
    rw [htidy.memtable.liveRows] at hzero
    exact List.length_eq_zero_iff.mp hzero
  have hperm := hhoused.numbered.perm_of_sources h.captured.nodup h.captured.unchanged
  have hsplit := flatMap_filter_perm t.writer.file.committed.manifest.segments
    (fun entry => entry.segmentId ∈ s.liveSegments.map SegmentEntry.segmentId) (t.rowsOfSegment env)
  simp only [decide_eq_true_eq] at hsplit
  have hdead : (t.writer.file.committed.manifest.segments.filter fun entry =>
      entry.segmentId ∉ s.liveSegments.map SegmentEntry.segmentId).flatMap (t.rowsOfSegment env) = [] := by
    refine List.flatMap_eq_nil_iff.mpr fun entry hentry => ?_
    obtain ⟨hlisted, hid⟩ := List.mem_filter.mp hentry
    exact rowsOfSegment_dead (htidy.counted hall) hlisted (fresh_snapshot _ _ _) (h.rest entry hlisted (of_decide_eq_true hid))
  rw [hdead, List.nil_append] at hsplit
  rw [Table.rows, hlive, List.map_nil, Multiset.coe_nil, add_zero, Multiset.coe_eq_coe]
  exact hsplit.trans (hperm.flatMap_right _).symm

/-- What a rewriting schema change commits: new segments in the place of those it captured, whose deletions it forgets. -/
structure Replaced (t t' : Table M) (s : Snapshot τ ν) (after : TableSchema τ) (new : List (SegmentEntry × SegmentData ν)) :
    Prop where
  segments : t'.writer.file.committed.manifest.segments = (t.writer.file.committed.manifest.segments.filter fun entry =>
    entry.segmentId ∉ s.liveSegments.map SegmentEntry.segmentId) ++ new.map Prod.fst
  deletes : ∀ id, t'.writer.deletes id =
    if id ∈ s.liveSegments.map SegmentEntry.segmentId then none else t.writer.deletes id
  schema : t'.schema = after
  memtable : t'.writer.memtable.live = []
  stores : ∀ x ∈ new, x.1.Stores t'.writer.file.io.file x.2
  built : ∀ x ∈ new, x.2.columns = after.schema.fields.length ∧ x.2.schemaFingerprint = layoutCurrent after.layout
  fresh : ∀ x ∈ new, t.writer.file.committed.manifest.nextSegmentId ≤ x.1.segmentId

namespace Replaced

variable {s : Snapshot τ ν} {after : TableSchema τ} {new : List (SegmentEntry × SegmentData ν)}

/-- A new segment has the columns of the new schema and no deletions. -/
theorem reads_new (h : Replaced t t' s after new) (htidy : t.Tidy) (hlayout : after.layout = schemaLayout env after.schema)
    {x : SegmentEntry × SegmentData ν} (hx : x ∈ new) :
    segmentReader t'.writer.file.io.file x.1 after.layout = .ok x.2 ∧ t'.rowsOfSegment env x.1 = x.2.rows := by
  obtain ⟨hcolumns, hfingerprint⟩ := h.built x hx
  have hnone : t'.writer.deletes x.1.segmentId = none := by
    rw [h.deletes]
    split
    · rfl
    · cases hdeleted : t.writer.deletes x.1.segmentId with
      | none => rfl
      | some deleted => exact absurd (htidy.known _ deleted hdeleted) (Nat.not_lt.mpr (h.fresh x hx))
  have haccepts : layoutAccepts after.layout x.2.columns x.2.schemaFingerprint = true := by
    rw [hcolumns, hfingerprint, hlayout]
    exact layoutAccepts_current
  refine ⟨(h.stores x hx).reads haccepts, rowsOfSegment_new (h.stores x hx) ?_ ?_ ?_ hnone⟩
  · rw [h.schema]
    exact hlayout
  · rw [h.schema]
    exact hcolumns
  · rw [h.schema]
    exact hfingerprint

/-- What is left of the old segments has no live row. -/
theorem dead (h : Replaced t t' s after new) (hunmoved : t.Unmoved s) {entry : SegmentEntry}
    (hentry : entry ∈ t.writer.file.committed.manifest.segments.filter fun entry =>
      entry.segmentId ∉ s.liveSegments.map SegmentEntry.segmentId) :
    (t'.writer.snapshot t'.schema).liveRowsIn entry = 0 := by
  obtain ⟨hlisted, hid⟩ := List.mem_filter.mp hentry
  have hsame : t'.writer.deletes entry.segmentId = t.writer.deletes entry.segmentId := by
    rw [h.deletes]
    exact if_neg (of_decide_eq_true hid)
  rw [← hunmoved.rest entry hlisted (of_decide_eq_true hid), Snapshot.liveRowsIn, Snapshot.liveRowsIn, Writer.snapshot,
    Writer.snapshot]
  dsimp only
  rw [hsame]

theorem rows (h : Replaced t t' s after new) (htidy : t.Tidy) (hlayout : after.layout = schemaLayout env after.schema)
    (hunmoved : t.Unmoved s) (hcounted : (t'.writer.snapshot t'.schema).Counted t'.writer.file.io.file) :
    t'.rows env = ↑(new.flatMap fun x => x.2.rows) := by
  have hold : (t.writer.file.committed.manifest.segments.filter fun entry =>
      entry.segmentId ∉ s.liveSegments.map SegmentEntry.segmentId).flatMap (t'.rowsOfSegment env) = [] := by
    refine List.flatMap_eq_nil_iff.mpr fun entry hentry => ?_
    refine rowsOfSegment_dead hcounted ?_ (fresh_snapshot _ _ _) (h.dead hunmoved hentry)
    change entry ∈ t'.writer.file.committed.manifest.segments
    rw [h.segments]
    exact List.mem_append_left _ hentry
  rw [Table.rows, h.memtable, List.map_nil, Multiset.coe_nil, add_zero, h.segments, List.flatMap_append, hold, List.nil_append,
    List.flatMap_map]
  exact congrArg _ (List.flatMap_congr fun x hx => (h.reads_new htidy hlayout hx).2)

/-- Every segment with live rows can be read under the new schema. -/
theorem opens (h : Replaced t t' s after new) (htidy : t.Tidy) (hlayout : after.layout = schemaLayout env after.schema)
    (hunmoved : t.Unmoved s) {entry : SegmentEntry} (hentry : entry ∈ t'.writer.file.committed.manifest.segments)
    (hlive : 0 < (t'.writer.snapshot t'.schema).liveRowsIn entry) :
    ∃ data, segmentReader t'.writer.file.io.file entry after.layout = .ok data := by
  rw [h.segments, List.mem_append] at hentry
  rcases hentry with hold | hmade
  · exact absurd (h.dead hunmoved hold) (Nat.pos_iff_ne_zero.mp hlive)
  · obtain ⟨x, hx, rfl⟩ := List.mem_map.mp hmade
    exact ⟨x.2, (h.reads_new htidy hlayout hx).1⟩

end Replaced

/-- The blob of a new schema lies beside every segment. -/
theorem Housed.stores_writeSchema (h : t.Housed) {schema : Schema τ} {extent : Extent} {file : TableFile M}
    (hwrite : t.writer.file.writeSchema schema = .ok (extent, file)) {entry : SegmentEntry}
    (hentry : entry ∈ t.writer.file.committed.manifest.segments) {data : SegmentData ν}
    (hstores : entry.Stores t.writer.file.io.file data) : entry.Stores file.io.file data := by
  obtain ⟨-, hdrafted⟩ := Drafted.beginSchema t.minActiveTxn h.roomy hwrite
  have hbegin : Drafted t.minActiveTxn t.writer.file ⟨t.writer.file.io, t.writer.file.beginManifest⟩ := .begin h.roomy
  exact hbegin.stores h.min_le (hdrafted.keeps h.roomy) hentry hstores

/-- The rows of the segments that were captured are converted, portion by portion, into the new segments. -/
theorem setSchemaLocked_replaced [DecidableEq τ] (hhoused : t.Housed) (hall : t.All fun _ => True) {after : TableSchema τ}
    {s : Snapshot τ ν} (hunmoved : t.Unmoved s) (hok : t.setSchemaLocked env t.schema after true s = .ok t') :
    ∃ new, Replaced t t' s after new ∧ Landed env t.schema.schema after.schema after.clusterColumns
      ((portions (max env.options.compactionMaxBytes 1) s.liveSegments [] 0).map fun portion =>
        portion.flatMap (t.rowsOfSegment env)) (new.flatMap fun x => x.2.rows) := by
  obtain ⟨t₁, hchange, rfl⟩ := setSchemaLocked_ok hok
  obtain ⟨-, extent, file, hwrite, ⟨hfalse, -⟩ | ⟨-, pending, f, hpending, hcommit, rfl⟩⟩ := commitSchema_ok hchange
  · cases hfalse
  · obtain ⟨-, hdrafted⟩ := Drafted.beginSchema t.minActiveTxn hhoused.roomy hwrite
    have hlisted : ∀ entry ∈ s.liveSegments, entry ∈ t.writer.file.committed.manifest.segments :=
      hunmoved.captured.unchanged
    have hsources : ∀ entry ∈ s.liveSegments,
        entry.rowsIn env file.io.file t.schema ((s.deletes entry.segmentId).getD ∅) = t.rowsOfSegment env entry ∧
          ∃ data : SegmentData ν, entry.Stores file.io.file data := by
      intro entry hentry
      obtain ⟨data, hstores, -⟩ := hall entry (hlisted entry hentry)
      have hkept := hhoused.stores_writeSchema hwrite (hlisted entry hentry) hstores
      refine ⟨?_, data, hkept⟩
      rw [hunmoved.deletes entry hentry]
      exact SegmentEntry.rowsIn_congr rfl rfl (hkept.read.trans hstores.read.symm) _
    obtain ⟨-, new, hwrote, hlanded⟩ := convertSegments_rows hdrafted hhoused.min_le
      (fun entry hentry => ⟨hlisted entry hentry, (hsources entry hentry).2⟩) hpending
    have hbelow : ∀ id ∈ s.liveSegments.map SegmentEntry.segmentId, id < t.writer.file.committed.manifest.nextSegmentId := by
      intro id hid
      obtain ⟨entry, hentry, rfl⟩ := List.mem_map.mp hid
      exact hhoused.numbered.below entry (hlisted entry hentry)
    have hnumbered : ({ t.writer.file.beginManifest with schema := extent } : Manifest).Numbered :=
      hhoused.numbered.congr rfl rfl
    have hretired := hdrafted.edits (convertSegments_retire hnumbered ⟨hunmoved.captured.nodup, hunmoved.captured.unchanged⟩
      hpending)
    have hsegments := hwrote.retired s.liveSegments hbelow
    refine ⟨new, {
      segments := ?_
      deletes := fun id => ?_
      schema := rfl
      memtable := rfl
      stores := fun x hx => ?_
      built := hwrote.built
      fresh := hwrote.fresh }, ?_⟩
    · exact (TableFile.commit_stamps hcommit).2.2.2.2.1.trans hsegments
    · rw [Writer.forgetAll_eq]
      rfl
    · refine hretired.commit_stores hhoused.min_le hcommit ?_ (hwrote.stores x hx)
      change x.1 ∈ (pending.manifest.retire (s.liveSegments.map SegmentEntry.segmentId) s.liveSegments).segments
      rw [hsegments]
      exact List.mem_append_right _ (List.mem_map_of_mem hx)
    · have hparts : ((portions (max env.options.compactionMaxBytes 1) s.liveSegments [] 0).map fun portion =>
          portion.flatMap fun entry => entry.rowsIn env file.io.file t.schema ((s.deletes entry.segmentId).getD ∅)) =
          (portions (max env.options.compactionMaxBytes 1) s.liveSegments [] 0).map fun portion =>
            portion.flatMap (t.rowsOfSegment env) := by
        refine List.map_congr_left fun portion hportion => List.flatMap_congr fun entry hentry => (hsources entry ?_).1
        have hmem := List.mem_flatten_of_mem hportion hentry
        rwa [portions_flatten, List.nil_append] at hmem
      rw [← hparts]
      exact hlanded

/-- A rewriting schema change puts what the rows were made into in the place of the rows, and every segment with rows can be
read under the new schema. -/
theorem setSchemaLocked_replaces [DecidableEq τ] (hhoused : t.Housed) (htidy : t.Tidy) (hall : t.All fun _ => True)
    {after : TableSchema τ} {s : Snapshot τ ν} (hlayout : after.layout = schemaLayout env after.schema)
    (hunmoved : t.Unmoved s) (hok : t.setSchemaLocked env t.schema after true s = .ok t') :
    (∃ made, Landed env t.schema.schema after.schema after.clusterColumns
      ((portions (max env.options.compactionMaxBytes 1) s.liveSegments [] 0).map fun portion =>
        portion.flatMap (t.rowsOfSegment env)) made ∧ t'.rows env = ↑made) ∧
      ∀ entry ∈ t'.writer.file.committed.manifest.segments, 0 < (t'.writer.snapshot t'.schema).liveRowsIn entry →
        ∃ data, segmentReader t'.writer.file.io.file entry after.layout = .ok data := by
  have hall' : t'.All fun _ => True :=
    hhoused.rewrites hunmoved.captured (fun entry hentry _ => hall entry hentry) hok fun _ _ _ => trivial
  obtain ⟨new, hreplaced, hlanded⟩ := setSchemaLocked_replaced hhoused hall hunmoved hok
  have hrows := hreplaced.rows htidy hlayout hunmoved ((htidy.setSchemaLocked hok).counted hall')
  exact ⟨⟨_, hlanded, hrows⟩, fun entry hentry hlive => hreplaced.opens htidy hlayout hunmoved hentry hlive⟩

theorem rows_setSchemaLocked [DecidableEq τ] (hsorted : t.Sorted env) {after : TableSchema τ} {s : Snapshot τ ν}
    (hlayout : after.layout = schemaLayout env after.schema) (hunmoved : t.Unmoved s)
    (hfew : after.clusterColumns = [] ∨ Multiset.card (t.rows env) < 2 ^ 32)
    (hok : t.setSchemaLocked env t.schema after true s = .ok t') :
    Converted env t.schema.schema after.schema (t.rows env) (t'.rows env) ∧
      ∃ all, scanTable env t'.writer.file.io.file t'.current = .ok all ∧ (rowsOf all : Multiset (Row ν)) = t'.rows env := by
  have hhoused := hsorted.laid.housed
  have hall : t.All fun _ => True := hsorted.laid.accepted.mono fun _ _ => trivial
  have htidy := hsorted.tidy.setSchemaLocked hok
  have hall' : t'.All fun _ => True :=
    hhoused.rewrites hunmoved.captured (fun entry hentry _ => hall entry hentry) hok fun _ _ _ => trivial
  obtain ⟨⟨made, hlanded, hrows⟩, hopens⟩ := setSchemaLocked_replaces hhoused hsorted.tidy hall hlayout hunmoved hok
  obtain ⟨t₁, hchange, ht'⟩ := setSchemaLocked_ok hok
  have hcurrent : t'.current = t'.writer.snapshot t'.schema := by rw [ht']; rfl
  have hschema : t'.schema = after := by rw [ht']; rfl
  have hheld : t.rows env = ↑((portions (max env.options.compactionMaxBytes 1) s.liveSegments [] 0).map fun portion =>
      portion.flatMap (t.rowsOfSegment env)).flatten := by
    rw [hunmoved.rows hhoused hsorted.tidy hall (commitSchema_ok hchange).1, flatten_map_portions]
  refine ⟨?_, scan_rows htidy ⟨?_, ?_⟩ ?_ ?_ fun entry hentry => ?_⟩
  · rw [hrows, hheld]
    refine (hlanded.converted fun part hpart => hfew.imp id fun hfew => ?_).mono fun _ _ _ _ hrow => hrow.1
    rw [hheld, Multiset.coe_card] at hfew
    exact (List.sublist_flatten_of_mem hpart).length_le.trans_lt hfew
  · rw [hcurrent]
    rfl
  · rw [hcurrent]
    rfl
  · rw [Fresh, hcurrent]
    exact fresh_snapshot _ _
  · rw [hcurrent]
    exact htidy.counted hall'
  · rw [hcurrent] at hentry
    obtain ⟨hlisted, hlive⟩ := List.mem_filter.mp hentry
    rw [hschema]
    exact hopens entry hlisted (of_decide_eq_true hlive)

end Table

namespace Traffic

variable {env : Env τ ν} {u : Traffic M} {t' : Table M}

/-- A rewriting schema change among other calls. If the table still stands as it was captured, the change leaves readers
each row they had, converted. -/
theorem schema_change_converts_rows [DecidableEq τ] (hrun : Run env .full u) {index : Nat} {before after : TableSchema τ}
    (hcall : u.inFlight[index]? = some (.changing before after)) {s : Snapshot τ ν} (hpin : u.table.pins[index]? = some s)
    (hunmoved : u.table.Unmoved s) (hfew : after.clusterColumns = [] ∨ Multiset.card (u.table.rows env) < 2 ^ 32)
    (hok : u.table.setSchemaLocked env before after true s = .ok t') :
    ∃ held left, scanTable env u.table.writer.file.io.file u.table.current = .ok held ∧
      scanTable env t'.writer.file.io.file t'.current = .ok left ∧
      Converted env before.schema after.schema (rowsOf held) (rowsOf left) := by
  have hright := hrun.right
  obtain ⟨rfl, hlayout⟩ := hright.knows index _ s hcall hpin
  obtain ⟨hconverted, left, hleft, hrows⟩ := Table.rows_setSchemaLocked hright.sorted hlayout hunmoved hfew hok
  obtain ⟨held, hheld, hbefore⟩ := hright.sorted.scan
  refine ⟨held, left, hheld, hleft, ?_⟩
  rw [hbefore, hrows]
  exact hconverted

section Undone

open Table

/-- The second of two columns is renamed; then the first is dropped, with a delete between the two halves. -/
def dropAround (deletions : List (SegmentId × List Nat)) : Except Error (PlainTable × TableSchema Unit × PlainTable × PlainTable) := do
  let t₀ ← Table.create layoutEnv (Journal plainSizes) wideSchema (fun _ => 0) (fun _ => []) none
  let (_, t₁) ← t₀.insertLocked layoutEnv [⟨wideSchema.fields, [[1, 2]]⟩]
  let (_, t₂) ← t₁.flushLocked layoutEnv
  let t ← t₂.renameColumn layoutEnv "b" "c"
  let after ← TableSchema.new layoutEnv (schemaWith t.schema.schema (t.schema.schema.fields.eraseIdx 0))
  let (_, between) ← t.pin.delete layoutEnv deletions []
  let t' ← between.setSchemaLocked layoutEnv t.schema after true t.current
  return (t, after, between, t')

theorem dropAround_run {deletions : List (SegmentId × List Nat)} {t between t' : PlainTable} {after : TableSchema Unit}
    (h : dropAround deletions = .ok (t, after, between, t')) :
    Run layoutEnv .full ⟨between, [.changing t.schema after]⟩ ∧ between.pins[0]? = some t.current ∧
      between.setSchemaLocked layoutEnv t.schema after true t.current = .ok t' := by
  obtain ⟨t₀, hcreate, h⟩ := bind_eq_ok.mp h
  obtain ⟨⟨_, t₁⟩, hinsert, h⟩ := bind_eq_ok.mp h
  obtain ⟨⟨_, t₂⟩, hflush, h⟩ := bind_eq_ok.mp h
  obtain ⟨t₃, hrename, h⟩ := bind_eq_ok.mp h
  obtain ⟨new, hnew, h⟩ := bind_eq_ok.mp h
  obtain ⟨⟨_, t₄⟩, hdelete, h⟩ := bind_eq_ok.mp h
  obtain ⟨t₅, hlocked, h⟩ := bind_eq_ok.mp h
  simp only [pure, Except.pure, Except.ok.injEq, Prod.mk.injEq] at h
  obtain ⟨rfl, rfl, rfl, rfl⟩ := h
  have hflushed : Run layoutEnv .full ⟨t₂, []⟩ := .step (.step (.create _ _ _ hcreate) (.insert _ hinsert)) (.flush hflush)
  have hrenamed : Run layoutEnv .full ⟨t₃, []⟩ := by
    refine .step hflushed (.change (.renameColumn "b" "c") (by simp) (fun schema hplan => ?_) hrename)
    -- a new name rewrites nothing
    obtain ⟨index, -, hsome⟩ := plan_renameColumn hplan
    cases hsome
  refine ⟨.step (.step hrenamed (.capture hnew)) (.delete _ _ hdelete), ?_, hlocked⟩
  rcases delete_ok hdelete with ⟨rfl, -⟩ | ⟨planned, frame, wal, -, -, -, rfl⟩
  · rfl
  · rfl

theorem drop_converts_one_row : ∃ (u : Traffic (Journal plainSizes)) (before after : TableSchema Unit)
    (s : Snapshot Unit Nat) (t' : PlainTable), readerRows layoutEnv u.table = some [[1, 2]] ∧
      u.table.setSchemaLocked layoutEnv before after true s = .ok t' ∧
      ∃ held left, scanTable layoutEnv u.table.writer.file.io.file u.table.current = .ok held ∧
        scanTable layoutEnv t'.writer.file.io.file t'.current = .ok left ∧
        Converted layoutEnv before.schema after.schema (rowsOf held) (rowsOf left) := by
  have hcheck : (match dropAround [] with
      | .ok (t, after, between, _) => decide (after.clusterColumns = [] ∧
          readerRows layoutEnv between = some [[1, 2]] ∧ (t.current.liveSegments.map SegmentEntry.segmentId).Nodup ∧
          (∀ entry ∈ t.current.liveSegments, entry ∈ between.writer.file.committed.manifest.segments) ∧
          (∀ entry ∈ t.current.liveSegments,
            (t.current.deletes entry.segmentId).getD ∅ = (between.writer.deletes entry.segmentId).getD ∅) ∧
          ∀ entry ∈ between.writer.file.committed.manifest.segments,
            entry.segmentId ∉ t.current.liveSegments.map SegmentEntry.segmentId →
              (between.writer.snapshot between.schema).liveRowsIn entry = 0)
      | .error _ => false) = true := by decide +kernel
  cases hrun : dropAround [] with
  | error e =>
      rw [hrun] at hcheck
      cases hcheck
  | ok result =>
      obtain ⟨t, after, between, t'⟩ := result
      rw [hrun] at hcheck
      obtain ⟨hcluster, hrows, hnodup, hlisted, hdeletes, hrest⟩ := of_decide_eq_true hcheck
      obtain ⟨hsteps, hpin, hlocked⟩ := dropAround_run hrun
      have hcall : [(InFlight.changing t.schema after : InFlight Unit Nat)][0]? = some (.changing t.schema after) := rfl
      have hunmoved : between.Unmoved t.current := ⟨⟨hnodup, hlisted⟩, hdeletes, hrest⟩
      exact ⟨⟨between, [.changing t.schema after]⟩, t.schema, after, t.current, t', hrows, hlocked,
        schema_change_converts_rows hsteps hcall hpin hunmoved (.inl hcluster) hlocked⟩

/-- A row deleted between the halves is there again afterwards. -/
theorem schema_change_undoes_delete : ∃ (u : Traffic (Journal plainSizes)) (before after : TableSchema Unit)
    (s : Snapshot Unit Nat) (t' : PlainTable) (held left : List (RecordBatch Unit Nat)), Run layoutEnv .full u ∧
      u.inFlight[0]? = some (.changing before after) ∧ u.table.pins[0]? = some s ∧
      u.table.setSchemaLocked layoutEnv before after true s = .ok t' ∧
      scanTable layoutEnv u.table.writer.file.io.file u.table.current = .ok held ∧
      scanTable layoutEnv t'.writer.file.io.file t'.current = .ok left ∧ rowsOf held = [] ∧ rowsOf left = [[2]] := by
  have hcheck : (match dropAround [(0, [0])] with
      | .ok (_, _, between, t') => decide (readerRows layoutEnv between = some [] ∧ readerRows layoutEnv t' = some [[2]])
      | .error _ => false) = true := by decide +kernel
  cases hrun : dropAround [(0, [0])] with
  | error e =>
      rw [hrun] at hcheck
      cases hcheck
  | ok result =>
      obtain ⟨t, after, between, t'⟩ := result
      rw [hrun] at hcheck
      obtain ⟨hbefore, hafter⟩ := of_decide_eq_true hcheck
      obtain ⟨held, hheld, hnone⟩ := readerRows_eq_some hbefore
      obtain ⟨left, hleft, hback⟩ := readerRows_eq_some hafter
      obtain ⟨hsteps, hpin, hlocked⟩ := dropAround_run hrun
      exact ⟨⟨between, [.changing t.schema after]⟩, t.schema, after, t.current, t', held, left, hsteps, rfl, hpin, hlocked,
        hheld, hleft, hnone, hback⟩

end Undone

end Traffic

end LocalTables
