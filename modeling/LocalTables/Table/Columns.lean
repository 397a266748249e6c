import LocalTables.Table.Casts

/-! Columns through a history of schema changes. Users name a column, segments hold it by its place; what is read of a
column is what was stored for it, cast as it was cast since. -/

namespace LocalTables

variable {τ ν : Type} {M : Media τ ν}

section Prefixes

variable {env : Env τ ν}

/-- The fields with their names put out of account. -/
def anonymous (fields : List (Field τ)) : List (Field τ) :=
  fields.zipIdx.map fun (field, index) => { field with name := toString index }

/-- What is left of the fields without the names. -/
def shapes (fields : List (Field τ)) : List (τ × Bool) := fields.map fun field => (field.dataType, field.nullable)

theorem shapes_anonymous (fields : List (Field τ)) : shapes (anonymous fields) = shapes fields := by
  rw [shapes, anonymous, List.map_map, shapes]
  have hfst : fields = fields.zipIdx.map Prod.fst := by simp
  conv_rhs => rw [hfst, List.map_map]
  rfl

theorem anonymous_eq_iff {fields fields' : List (Field τ)} : anonymous fields = anonymous fields' ↔ shapes fields = shapes fields' := by
  constructor
  · intro h
    rw [← shapes_anonymous, h, shapes_anonymous]
  · intro h
    have hlength : fields.length = fields'.length := by simpa [shapes] using congrArg List.length h
    refine List.ext_getElem? fun index => ?_
    have hat := congrArg (fun list : List (τ × Bool) => list[index]?) h
    simp only [shapes, List.getElem?_map] at hat
    simp only [anonymous, List.getElem?_map, List.getElem?_zipIdx]
    cases hfield : fields[index]? with
    | none =>
        rw [hfield] at hat
        rw [Option.map_eq_none_iff.mp hat.symm]
    | some field =>
        rw [hfield] at hat
        obtain ⟨field', hfield', hsame⟩ := Option.map_eq_some_iff.mp hat.symm
        obtain ⟨htype, hnullable⟩ := Prod.mk.inj hsame
        rw [hfield']
        simp [htype, hnullable]

/-- The fingerprint tells lists of fields apart, their names aside. -/
def TellsApart (env : Env τ ν) : Prop :=
  ∀ fields fields' : List (Field τ), env.schemaHash (anonymous fields) = env.schemaHash (anonymous fields') →
    anonymous fields = anonymous fields'

/-- What a segment written under `W` is stamped with is accepted under `S` exactly if the columns of `W`, names aside, are
the first of `S`. -/
theorem layoutAccepts_stamped (hhash : TellsApart env) (S W : Schema τ) :
    layoutAccepts (schemaLayout env S) W.fields.length (layoutCurrent (schemaLayout env W)) = true ↔
      shapes W.fields = (shapes S.fields).take W.fields.length := by
  have hcurrent : layoutCurrent (schemaLayout env W) = prefixHash env W.fields W.fields.length :=
    (layoutAccepts_iff.mp layoutAccepts_current).2.symm
  have htake : (shapes S.fields).take W.fields.length = shapes (S.fields.take W.fields.length) := by
    rw [shapes, shapes, List.map_take]
  rw [layoutAccepts_iff, hcurrent, htake]
  constructor
  · rintro ⟨-, hsame⟩
    have hanonymous := hhash (S.fields.take W.fields.length) (W.fields.take W.fields.length) hsame
    rw [List.take_length] at hanonymous
    exact (anonymous_eq_iff.mp hanonymous).symm
  · intro hshapes
    have hlength : W.fields.length = (S.fields.take W.fields.length).length := by
      simpa [shapes] using congrArg List.length hshapes
    refine ⟨?_, ?_⟩
    · rw [List.length_take] at hlength
      omega
    · rw [prefixHash, prefixHash, List.take_length]
      exact congrArg env.schemaHash (anonymous_eq_iff.mpr hshapes.symm)

end Prefixes

section Rows

variable [DecidableEq τ] (env : Env τ ν)

/-- What Arrow's cast makes of a value it can cast. -/
def castCell (source target : τ) (value : ν) : ν :=
  match castValue env source target value with
  | .ok cast => cast
  | .error _ => value

/-- What a change means for a row with a value for each column: a column of nulls more, one less, or another type. -/
def Change.rowOf (current : Schema τ) : Change τ → Row ν → Row ν
  | .addColumn _, row => row ++ [env.null]
  | .renameColumn _ _, row => row
  | .dropColumn name, row =>
      match current.indexOf name with
      | none => row
      | some index => row.eraseIdx index
  | .castColumn name target, row =>
      match current.indexOf name with
      | none => row
      | some index =>
          match current.fields[index]? with
          | none => row
          | some field => row.modify index (castCell env field.dataType target)

/-- No two columns have the same name. -/
def Schema.Distinct (schema : Schema τ) : Prop := (schema.fields.map Field.name).Nodup

instance (schema : Schema τ) : Decidable schema.Distinct := inferInstanceAs (Decidable (List.Nodup _))

variable {env} {current : Schema τ}

omit [DecidableEq τ] in
theorem Schema.indexOf_eq_some {schema : Schema τ} (hdistinct : schema.Distinct) {index : Nat} {field : Field τ}
    (hfield : schema.fields[index]? = some field) : schema.indexOf field.name = some index := by
  obtain ⟨hlt, rfl⟩ := List.getElem?_eq_some_iff.mp hfield
  rw [Schema.indexOf, List.findIdx?_eq_some_iff_getElem]
  refine ⟨hlt, beq_self_eq_true _, fun other hother => ?_⟩
  rw [beq_iff_eq]
  intro hname
  have hother' : other < (schema.fields.map Field.name).length := by
    rw [List.length_map]
    omega
  have hindex' : index < (schema.fields.map Field.name).length := by rwa [List.length_map]
  have hget : (schema.fields.map Field.name)[other] = (schema.fields.map Field.name)[index] := by
    rw [List.getElem_map, List.getElem_map]
    exact hname
  exact hother.ne (hdistinct.getElem_inj_iff.mp hget)

omit [DecidableEq τ] in
theorem Schema.indexOf_name {schema : Schema τ} {name : String} {index : Nat} (h : schema.indexOf name = some index) :
    ∃ field, schema.fields[index]? = some field ∧ field.name = name := by
  obtain ⟨hlt, hname, -⟩ := List.findIdx?_eq_some_iff_getElem.mp h
  exact ⟨schema.fields[index], List.getElem?_eq_getElem hlt, beq_iff_eq.mp hname⟩

/-- A column that keeps its type keeps its values. -/
theorem convertRow_kept {after : Schema τ} {row row' : Row ν} (h : convertRow env current after row = .ok row')
    (hdistinct : current.Distinct) {place source : Nat} {field : Field τ} (hafter : after.fields[place]? = some field)
    (hbefore : current.fields[source]? = some field) (hrow : source < row.length) : row'[place]? = row[source]? := by
  have hplace : place < row'.length := by
    rw [← (mapM_ok h).length_eq]
    exact (List.getElem?_eq_some_iff.mp hafter).1
  have hvalue : row'[place]? = some row'[place] := List.getElem?_eq_getElem hplace
  obtain ⟨field', hfield', hcell⟩ := (mapM_getElem? h).mp hvalue
  obtain rfl := Option.some.inj (hafter.symm.trans hfield')
  simp only [Schema.indexOf_eq_some hdistinct hbefore, hbefore, if_true] at hcell
  rw [hvalue, ← Except.ok.inj hcell, List.getD_eq_getElem?_getD, List.getElem?_eq_getElem hrow, Option.getD_some]

theorem convertRow_drop {name : String} {index : Nat} {row row' : Row ν} (hdistinct : current.Distinct)
    (hwidth : row.length = current.fields.length) (hindex : current.indexOf name = some index)
    (h : convertRow env current (schemaWith current (current.fields.eraseIdx index)) row = .ok row') :
    row' = row.eraseIdx index := by
  have hlt : index < current.fields.length := (List.findIdx?_eq_some_iff_getElem.mp hindex).1
  refine List.ext_getElem? fun place => ?_
  by_cases hplace : place < (current.fields.eraseIdx index).length
  · have hafter : (current.fields.eraseIdx index)[place]? = some (current.fields.eraseIdx index)[place] :=
      List.getElem?_eq_getElem hplace
    have hbefore := hafter
    rw [List.getElem?_eraseIdx] at hbefore ⊢
    split at hbefore
    · next hlow =>
        rw [if_pos hlow]
        exact convertRow_kept h hdistinct hafter hbefore (hwidth ▸ (List.getElem?_eq_some_iff.mp hbefore).1)
    · next hhigh =>
        rw [if_neg hhigh]
        exact convertRow_kept h hdistinct hafter hbefore (hwidth ▸ (List.getElem?_eq_some_iff.mp hbefore).1)
  · have hlength : row'.length = (current.fields.eraseIdx index).length := (mapM_ok h).length_eq.symm
    have herased : (row.eraseIdx index).length = (current.fields.eraseIdx index).length := by
      rw [List.length_eraseIdx_of_lt (hwidth ▸ hlt), List.length_eraseIdx_of_lt hlt, hwidth]
    rw [List.getElem?_eq_none (by omega), List.getElem?_eq_none (by omega)]

theorem convertRow_cast {name : String} {target : τ} {index : Nat} {field : Field τ} {row row' : Row ν}
    (hdistinct : current.Distinct) (hwidth : row.length = current.fields.length) (hindex : current.indexOf name = some index)
    (hfield : current.fields[index]? = some field) (hother : field.dataType ≠ target)
    (h : convertRow env current (castSchema current name target index field) row = .ok row') :
    row' = row.modify index (castCell env field.dataType target) := by
  have hlt : index < current.fields.length := (List.getElem?_eq_some_iff.mp hfield).1
  have hlength : row'.length = row.length := by
    rw [← (mapM_ok h).length_eq, hwidth, castSchema, schemaWith, List.length_set]
  refine List.ext_getElem? fun place => ?_
  by_cases heq : index = place
  · subst heq
    have hafter : (castSchema current name target index field).fields[index]? = some ⟨name, target, field.nullable⟩ :=
      List.getElem?_set_self hlt
    have hvalue : row'[index]? = some row'[index] := List.getElem?_eq_getElem (by omega)
    obtain ⟨field', hfield', hcell⟩ := (mapM_getElem? h).mp hvalue
    obtain rfl := Option.some.inj (hafter.symm.trans hfield')
    have hrow : row[index]? = some row[index] := List.getElem?_eq_getElem (by omega)
    simp only [hindex, hfield, if_neg hother, List.getD_eq_getElem?_getD, hrow, Option.getD_some] at hcell
    rw [hvalue, List.getElem?_modify_eq _ index, hrow, Option.map_eq_map, Option.map_some, castCell, castValue, if_neg hother, hcell]
  · rw [List.getElem?_modify_ne _ _ heq]
    by_cases hplace : place < current.fields.length
    · refine convertRow_kept h hdistinct ?_ (List.getElem?_eq_getElem hplace) (hwidth ▸ hplace)
      rw [castSchema, schemaWith, List.getElem?_set_ne heq, List.getElem?_eq_getElem hplace]
    · rw [List.getElem?_eq_none (by omega), List.getElem?_eq_none (by omega)]

end Rows

/-- No segment listed is empty. -/
def Manifest.Filled (m : Manifest) : Prop := ∀ entry ∈ m.segments, 0 < entry.rowCount

section Writes

variable [DecidableEq τ] {env : Env τ ν} {current : TableSchema τ} {minActive : Nat} {p p' : Pending M}

theorem writeSegment_filled {batches : List (RecordBatch τ ν)} (h : p.manifest.Filled)
    (hwrite : Table.writeSegment env current minActive p batches = .ok p') : p'.manifest.Filled := by
  by_cases hzero : totalRows batches = 0
  · rcases writeSegment_ok hwrite with ⟨-, rfl⟩ | ⟨_, _, _, _, hsome, -⟩
    · exact h
    · exact absurd hzero hsome
  · obtain ⟨data, metaFrame, hsegments, -⟩ := (writeSegment_entry hwrite).resolve_left fun hnone => hzero hnone.1
    intro entry hentry
    rw [hsegments, List.mem_append, List.mem_singleton] at hentry
    rcases hentry with hentry | rfl
    · exact h entry hentry
    · exact Nat.pos_of_ne_zero hzero

omit [DecidableEq τ] in
theorem Manifest.Filled.of_body {m m' : Manifest} (h : m.Filled)
    (hbody : m'.segments.map SegmentEntry.body = m.segments.map SegmentEntry.body) : m'.Filled := by
  intro entry hentry
  have hmem : entry.body ∈ m.segments.map SegmentEntry.body := hbody ▸ List.mem_map_of_mem hentry
  obtain ⟨old, hold, hsame⟩ := List.mem_map.mp hmem
  rw [← (SegmentEntry.eq_of_body hsame).2.2.2]
  exact h old hold

omit [DecidableEq τ] in
theorem Manifest.Filled.retire {m : Manifest} (h : m.Filled) (ids : List SegmentId) (sources : List SegmentEntry) :
    (m.retire ids sources).Filled := by
  intro entry hentry
  rw [Manifest.segments_retire] at hentry
  exact h entry (List.mem_of_mem_filter hentry)

omit [DecidableEq τ] in
theorem Manifest.Filled.commit {f f' : TableFile M} {m : Manifest} (h : m.Filled) (hcommit : f.commit m = .ok f') :
    f'.committed.manifest.Filled := by
  intro entry hentry
  rw [(TableFile.commit_stamps hcommit).2.2.2.2.1] at hentry
  exact h entry hentry

end Writes

namespace Table

variable [DecidableEq τ] {env : Env τ ν} {t t' : Table M} {stored : Multiset (Row ν)}

/-- Nothing was deleted, and no segment is empty. -/
structure Intact (t : Table M) : Prop where
  kept : ∀ id, t.writer.deletes id = none
  filled : t.writer.file.committed.manifest.Filled

omit [DecidableEq τ] in
theorem Intact.undeleted (h : t.Intact) : t.Undeleted := fun entry _ => h.kept entry.segmentId

theorem Intact.flushLocked (h : t.Intact) {rows : Nat} (hok : t.flushLocked env = .ok (rows, t')) : t'.Intact := by
  rcases flushLocked_ok hok with ⟨-, rfl⟩ | ⟨pending, f, -, hpending, hcommit, rfl⟩
  · exact ⟨h.kept, h.filled⟩
  · obtain ⟨groups, -, hwrite⟩ := bind_eq_ok.mp hpending
    obtain ⟨written, hwritten, hbitmaps⟩ := bind_eq_ok.mp hwrite
    have hfilled : written.manifest.Filled :=
      foldlM_ok (P := fun q : Pending M => q.manifest.Filled) (fun _ _ _ hq hstep => writeSegment_filled hq hstep) h.filled hwritten
    exact ⟨h.kept, (hfilled.of_body (writeBitmaps_body hbitmaps).1).commit hcommit⟩

theorem Intact.insertLocked (h : t.Intact) {batches : List (RecordBatch τ ν)} {rows : Nat}
    (hok : t.insertLocked env batches = .ok (rows, t')) : t'.Intact := by
  rcases (insertLocked_ok hok).2 with ⟨-, rfl⟩ | ⟨-, -, happend⟩
  · exact h
  · obtain ⟨frames, wal, -, -, rfl⟩ := appendRows_ok happend
    exact ⟨h.kept, h.filled⟩

theorem Intact.setSchemaLocked (h : t.Intact) {before after : TableSchema τ} {rewrite : Bool} {s : Snapshot τ ν}
    (hok : t.setSchemaLocked env before after rewrite s = .ok t') : t'.Intact := by
  obtain ⟨t₁, hchange, rfl⟩ := setSchemaLocked_ok hok
  obtain ⟨-, extent, file, -, ⟨-, f, hcommit, rfl⟩ | ⟨-, pending, f, hpending, hcommit, rfl⟩⟩ := commitSchema_ok hchange
  · have hbegin : Manifest.Filled { t.writer.file.beginManifest with schema := extent } := h.filled
    have hcommitted := hbegin.commit hcommit
    exact ⟨h.kept, hcommitted⟩
  · have hfilled : pending.manifest.Filled :=
      convertSegments_ok (P := fun q : Pending M => q.manifest.Filled) (fun _ _ _ hq hstep => writeSegment_filled hq hstep)
        h.filled hpending
    have hcommitted := (hfilled.retire _ _).commit hcommit
    rw [Writer.forgetAll_eq]
    refine ⟨fun id => ?_, hcommitted⟩
    dsimp only [publish, adoptSchema]
    split
    · rfl
    · exact h.kept id

/-- The rows of the memtable can be sorted in one go, so a flush keeps the rows there are. -/
theorem rows_flushLocked (hwhole : t.Whole env)
    (hsorts : SortsIn t.schema.clusterColumns (t.writer.memtable.live.map Prod.snd)) {rows : Nat}
    (hok : t.flushLocked env = .ok (rows, t')) : t'.rows env = t.rows env ∧ t'.writer.memtable.live = [] := by
  obtain ⟨groupRows, batches, groups, kept, hgroups, hbatches, hbefore, hafter⟩ :=
    flushLocked_replaces hwhole.housed hwhole.all hwhole.tidy hwhole.layout hok
  constructor
  · have hfits : FitsCluster t.schema.clusterColumns batches := by
      rw [FitsCluster, ← length_rowsOf, hbatches]
      exact hsorts
    rw [hbefore, hafter, Multiset.coe_eq_coe.mpr (rowsOf_rowGroups hfits hgroups)]
  · rcases flushLocked_ok hok with ⟨-, rfl⟩ | ⟨pending, f, -, -, -, rfl⟩
    · exact Memtable.freeze_snd.2
    · exact Memtable.freeze_snd.2

omit [DecidableEq τ] in
/-- A change that keeps the segments shows their rows under its schema. -/
theorem rows_setSchemaKept [DecidableEq τ] (hwhole : t.Whole env) {before after : TableSchema τ} {s : Snapshot τ ν}
    (hok : t.setSchemaLocked env before after false s = .ok t') :
    t'.rows env = ↑(t.writer.file.committed.manifest.segments.flatMap fun entry =>
      entry.rowsIn env t.writer.file.io.file after ((t.writer.deletes entry.segmentId).getD ∅)) := by
  obtain ⟨t₁, hchange, rfl⟩ := setSchemaLocked_ok hok
  obtain ⟨-, extent, file, hwrite, ⟨-, f, hcommit, rfl⟩ | ⟨hfalse, -⟩⟩ := commitSchema_ok hchange
  · obtain ⟨-, hdrafted⟩ := Drafted.beginSchema t.minActiveTxn hwhole.housed.roomy hwrite
    generalize ht' : adoptSchema _ after = t'
    have hfile : t'.writer.file.io = f.io ∧ t'.writer.file.committed = f.committed := by rw [← ht']; exact ⟨rfl, rfl⟩
    have hdeletes : t'.writer.deletes = t.writer.deletes := by rw [← ht']; rfl
    have hschema : t'.schema = after := by rw [← ht']; rfl
    have hmemtable : t'.writer.memtable.live = [] := by rw [← ht']; rfl
    have hsegments : t'.writer.file.committed.manifest.segments = t.writer.file.committed.manifest.segments := by
      rw [hfile.2]
      exact (TableFile.commit_stamps hcommit).2.2.2.2.1
    rw [Table.rows, hmemtable, List.map_nil, Multiset.coe_nil, add_zero, hsegments, Multiset.coe_eq_coe]
    refine List.Perm.of_eq (List.flatMap_congr fun entry hentry => ?_)
    obtain ⟨data, hstores, -⟩ := hwhole.all entry hentry
    have hthere := hwhole.housed.stores_writeSchema hwrite hentry hstores
    have hcommitted := hdrafted.commit_stores hwhole.housed.min_le hcommit hentry hthere
    rw [rowsOfSegment, hschema, hdeletes]
    refine SegmentEntry.rowsIn_congr rfl rfl ?_ _
    rw [hfile.1]
    exact hcommitted.read.trans hstores.read.symm
  · cases hfalse

/-- What a change that keeps the segments makes of a row that is read. -/
theorem padRow_plan {current schema : Schema τ} {c : Change τ} (h : c.plan env current = .ok (some (schema, false)))
    {data : SegmentData ν} (hcolumns : data.columns ≤ current.fields.length) (row : Row ν) :
    padRow env schema.fields data row = c.rowOf env current (padRow env current.fields data row) := by
  cases c with
  | addColumn field =>
      obtain ⟨rfl, -⟩ := Prod.mk.inj (Option.some.inj (plan_addColumn h))
      have hmore : (current.fields ++ [field]).length - data.columns = current.fields.length - data.columns + 1 := by
        rw [List.length_append, List.length_singleton]
        omega
      rw [padRow, schemaWith, hmore, List.replicate_succ', ← List.append_assoc]
      rfl
  | renameColumn source target =>
      obtain ⟨index, -, hplanned⟩ := plan_renameColumn h
      obtain ⟨rfl, -⟩ := Prod.mk.inj (Option.some.inj hplanned)
      rw [padRow, schemaWith, List.length_modify]
      rfl
  | dropColumn name =>
      simp only [Change.plan] at h
      split at h
      · cases h
      · split at h
        · cases h
        · cases h
  | castColumn name target =>
      cases castColumn_rewrites h

theorem plan_dropColumn {current : Schema τ} {name : String} {planned : Option (Schema τ × Bool)}
    (h : (Change.dropColumn name).plan env current = .ok planned) :
    ∃ index, current.indexOf name = some index ∧ planned = some (schemaWith current (current.fields.eraseIdx index), true) := by
  simp only [Change.plan] at h
  split at h
  · cases h
  · next index hindex =>
      split at h
      · cases h
      · exact ⟨index, hindex, (Except.ok.inj h).symm⟩

/-- What a change that writes the rows anew makes of one, when a name finds the column it is the name of. -/
theorem convertRow_plan {current schema : Schema τ} {c : Change τ} (h : c.plan env current = .ok (some (schema, true)))
    (hdistinct : current.Distinct) {row row' : Row ν} (hwidth : row.length = current.fields.length)
    (hrow : convertRow env current schema row = .ok row') : row' = c.rowOf env current row := by
  cases c with
  | addColumn field => cases plan_addColumn h
  | renameColumn source target =>
      obtain ⟨index, -, hplanned⟩ := plan_renameColumn h
      cases hplanned
  | dropColumn name =>
      obtain ⟨index, hindex, hplanned⟩ := plan_dropColumn h
      obtain ⟨rfl, -⟩ := Prod.mk.inj (Option.some.inj hplanned)
      simp only [Change.rowOf, hindex]
      exact convertRow_drop hdistinct hwidth hindex hrow
  | castColumn name target =>
      cases hindex : current.indexOf name with
      | none =>
          simp only [Change.plan, hindex] at h
          cases h
      | some index =>
          obtain ⟨field, hfield, -⟩ := Schema.indexOf_name hindex
          obtain ⟨hother, rfl, -⟩ := castColumn_planned hindex hfield h
          simp only [Change.rowOf, hindex, hfield]
          exact convertRow_cast hdistinct hwidth hindex hfield hother hrow

/-- A change that has nothing to do means nothing. -/
theorem rowOf_skipped {current : Schema τ} {c : Change τ} (h : c.plan env current = .ok none) (row : Row ν) :
    c.rowOf env current row = row := by
  cases c with
  | addColumn field => cases plan_addColumn h
  | renameColumn source target =>
      obtain ⟨index, -, hplanned⟩ := plan_renameColumn h
      cases hplanned
  | dropColumn name =>
      obtain ⟨index, -, hplanned⟩ := plan_dropColumn h
      cases hplanned
  | castColumn name target =>
      cases hindex : current.indexOf name with
      | none =>
          simp only [Change.plan, hindex] at h
          cases h
      | some index =>
          obtain ⟨field, hfield, -⟩ := Schema.indexOf_name hindex
          have hsame := castColumn_skipped hindex hfield h
          have hcast : castCell env field.dataType target = (id : ν → ν) := by
            funext value
            rw [castCell, castValue, if_pos hsame]
            rfl
          simp only [Change.rowOf, hindex, hfield, hcast]
          exact List.modify_id index row

/-- The rows of a changed table have a value for each column of its schema. -/
theorem length_rowOf {current schema : Schema τ} {c : Change τ} {rewrite : Bool}
    (h : c.plan env current = .ok (some (schema, rewrite))) {row : Row ν} (hwidth : row.length = current.fields.length) :
    (c.rowOf env current row).length = schema.fields.length := by
  cases c with
  | addColumn field =>
      obtain ⟨rfl, -⟩ := Prod.mk.inj (Option.some.inj (plan_addColumn h))
      rw [Change.rowOf, schemaWith, List.length_append, List.length_append, hwidth]
      rfl
  | renameColumn source target =>
      obtain ⟨index, -, hplanned⟩ := plan_renameColumn h
      obtain ⟨rfl, -⟩ := Prod.mk.inj (Option.some.inj hplanned)
      rw [Change.rowOf, schemaWith, List.length_modify, hwidth]
  | dropColumn name =>
      obtain ⟨index, hindex, hplanned⟩ := plan_dropColumn h
      obtain ⟨rfl, -⟩ := Prod.mk.inj (Option.some.inj hplanned)
      simp only [Change.rowOf, hindex, schemaWith, List.length_eraseIdx, hwidth]
  | castColumn name target =>
      cases hindex : current.indexOf name with
      | none =>
          simp only [Change.plan, hindex] at h
          cases h
      | some index =>
          obtain ⟨field, hfield, -⟩ := Schema.indexOf_name hindex
          obtain ⟨-, rfl, -⟩ := castColumn_planned hindex hfield h
          simp only [Change.rowOf, hindex, hfield, castSchema, schemaWith, List.length_modify, List.length_set, hwidth]

/-- Columns are found by the names they have, and what is sorted at one time is counted in `u32`. -/
def Rewritable (env : Env τ ν) (t : Table M) : Prop := t.schema.schema.Distinct ∧ t.Sortable env

theorem rows_setSchema (hrun : Alone env t) (hlaid : t.Laid env) (hempty : t.writer.memtable.live = [])
    (hwidth : ∀ row ∈ t.rows env, row.length = t.schema.schema.fields.length) {c : Change τ} {schema : Schema τ} {rewrite : Bool}
    (hplan : c.plan env t.schema.schema = .ok (some (schema, rewrite))) (hfits : rewrite = true → t.Rewritable env)
    (hok : t.setSchema env schema rewrite = .ok t') :
    t'.rows env = (t.rows env).map (c.rowOf env t.schema.schema) := by
  have hwhole := hrun.whole
  cases rewrite with
  | true =>
      obtain ⟨hdistinct, hsorts⟩ := hfits rfl
      have hrel := (setSchema_replaces hrun hok).2 hsorts
      have hmap : Multiset.Rel (fun row row' => c.rowOf env t.schema.schema row = row') (t.rows env) (t'.rows env) :=
        hrel.mono fun row hrow row' _ hconverts => (convertRow_plan hplan hdistinct (hwidth row hrow) hconverts.1).symm
      exact (Multiset.rel_eq.mp (Multiset.rel_map_left.mpr hmap)).symm
  | false =>
      obtain ⟨⟨rows, t₁⟩, hflush, hok⟩ := bind_eq_ok.mp hok
      obtain ⟨after, hafter, hok⟩ := bind_eq_ok.mp hok
      obtain ⟨t₂, hset, hok⟩ := bind_eq_ok.mp hok
      obtain rfl := Except.ok.inj hok
      obtain ⟨hsame, hlayout⟩ := TableSchema.new_schema hafter
      have hschema := flushLocked_schema hflush
      have hsorts : SortsIn t.schema.clusterColumns (t.writer.memtable.live.map Prod.snd) := by
        rw [hempty]
        exact .inr (Nat.two_pow_pos 32)
      obtain ⟨hkept, hnone⟩ := rows_flushLocked hwhole hsorts hflush
      have hflushed := hwhole.flushLocked hflush
      have hlaid₁ := hlaid.locked (.flush hflush) hschema
      have hread : ∀ entry ∈ t₁.writer.file.committed.manifest.segments, ∀ deleted,
          entry.rowsIn env t₁.writer.file.io.file after deleted =
            (entry.rowsIn env t₁.writer.file.io.file t₁.schema deleted).map (c.rowOf env t.schema.schema) := by
        intro entry hentry deleted
        obtain ⟨data, hstores, haccepts⟩ := hlaid₁.accepted entry hentry
        rw [hschema] at haccepts
        have hbefore : layoutAccepts t₁.schema.layout data.columns data.schemaFingerprint = true := by
          rw [hschema, hwhole.layout]
          exact haccepts
        have hreads : layoutAccepts after.layout data.columns data.schemaFingerprint = true := by
          rw [hlayout]
          exact plan_accepts hplan haccepts
        rw [SegmentEntry.rowsIn_eq (hstores.reads hreads), SegmentEntry.rowsIn_eq (hstores.reads hbefore), List.map_map, hsame,
          hschema]
        exact List.map_congr_left fun row _ => padRow_plan hplan (layoutAccepts_iff.mp haccepts).1 row.1
      have hrows : t₂.rows env = ↑(t₁.writer.file.committed.manifest.segments.flatMap fun entry =>
          entry.rowsIn env t₁.writer.file.io.file after ((t₁.writer.deletes entry.segmentId).getD ∅)) :=
        rows_setSchemaKept hflushed.pin hset
      change t₂.rows env = _
      rw [hrows, ← hkept, List.flatMap_congr fun entry hentry => hread entry hentry _, Table.rows, hnone, List.map_nil,
        Multiset.coe_nil, add_zero, Multiset.map_coe, List.map_flatMap]
      rfl

/-- What is asked of a table by the only caller it has: rows to store and flush, or another schema. -/
inductive Call.Kind (τ ν : Type) where
  | insert (batches : List (RecordBatch τ ν))
  | change (c : Change τ)

/-- A table that is filled and changed, with the rows it was given as the changes left them. `fits` says where a call may be
made. -/
inductive Evolved (env : Env τ ν) (fits : Table M → Call.Kind τ ν → Prop) : Table M → Multiset (Row ν) → Prop where
  | create {t : Table M} (schema : Schema τ) (fingerprint : Schema τ → Nat) (newTableUuid : Extent → List UInt8)
      (h : Table.create env M schema fingerprint newTableUuid none = .ok t) : Evolved env fits t 0
  | insert {t t₁ t' : Table M} {stored : Multiset (Row ν)} (hrun : Evolved env fits t stored)
      (batches : List (RecordBatch τ ν)) (hwidth : ∀ batch ∈ batches, ∀ row ∈ batch.rows, row.length = batch.fields.length)
      (hfits : fits t (.insert batches)) {rows flushed : Nat} (h : t.insert env batches = .ok (rows, t₁))
      (hflush : t₁.flushLocked env = .ok (flushed, t')) : Evolved env fits t' (stored + ↑(rowsOf batches))
  | change {t t' : Table M} {stored : Multiset (Row ν)} (hrun : Evolved env fits t stored) (c : Change τ)
      (hfits : fits t (.change c)) (h : t.change env c = .ok t') :
      Evolved env fits t' (stored.map (c.rowOf env t.schema.schema))

/-- Where a call keeps what is stored: the rows of a clustered table that are written at one time can be counted in `u32`,
and where rows are written anew no two columns have the same name. -/
def Safe (env : Env τ ν) (t : Table M) : Call.Kind τ ν → Prop
  | .insert batches => SortsIn t.schema.clusterColumns (rowsOf batches)
  | .change c => ∀ schema, c.plan env t.schema.schema = .ok (some (schema, true)) → t.Rewritable env

/-- The table holds these rows and no others. -/
structure Holds (env : Env τ ν) (t : Table M) (stored : Multiset (Row ν)) : Prop where
  alone : Alone env t
  laid : t.Laid env
  intact : t.Intact
  rows : t.rows env = stored
  width : ∀ row ∈ stored, row.length = t.schema.schema.fields.length

theorem Holds.flushLocked (h : t.Holds env stored) (hsorts : SortsIn t.schema.clusterColumns (t.writer.memtable.live.map Prod.snd))
    {rows : Nat} (hok : t.flushLocked env = .ok (rows, t')) : t'.Holds env stored ∧ t'.writer.memtable.live = [] := by
  have hschema := flushLocked_schema hok
  obtain ⟨hrows, hnone⟩ := rows_flushLocked h.alone.whole hsorts hok
  refine ⟨⟨?_, h.laid.locked (.flush hok) hschema, h.intact.flushLocked hok, hrows.trans h.rows, ?_⟩, hnone⟩
  · exact h.alone.step ⟨.flush hok, hschema⟩ fun ids _ _ => h.intact.undeleted.safely ids
  · rw [hschema]
    exact h.width

theorem Holds.insertLocked (h : t.Holds env stored) {batches : List (RecordBatch τ ν)}
    (hwidth : ∀ batch ∈ batches, ∀ row ∈ batch.rows, row.length = batch.fields.length) {rows : Nat}
    (hok : t.insertLocked env batches = .ok (rows, t')) : t'.Holds env (stored + ↑(rowsOf batches)) ∧
      t'.writer.memtable.live.map Prod.snd = t.writer.memtable.live.map Prod.snd ++ rowsOf batches := by
  have hschema := insertLocked_schema hok
  have halone : Alone env t' := h.alone.step ⟨.insert batches hok, hschema⟩ fun ids _ _ => h.intact.undeleted.safely ids
  have hlaid := h.laid.locked (.insert batches hok) hschema
  have hintact := h.intact.insertLocked hok
  rcases (insertLocked_ok hok).2 with ⟨hzero, rfl⟩ | ⟨-, hfields, happend⟩
  · rw [← length_rowsOf] at hzero
    rw [List.length_eq_zero_iff.mp hzero, Multiset.coe_nil, add_zero, List.append_nil]
    exact ⟨h, rfl⟩
  · have hlive : t'.writer.memtable.live.map Prod.snd = t.writer.memtable.live.map Prod.snd ++ rowsOf batches := by
      obtain ⟨frames, wal, -, -, rfl⟩ := appendRows_ok happend
      have hnumbers : (numberedFrom t.writer.memtable.nextSeqno (rowsOf batches)).map Prod.snd = rowsOf batches := by
        rw [numberedFrom, List.map_map]
        exact List.zipIdx_map_fst 0 _
      have hadded := (planInserts_memtable env h.alone.whole.tidy.memtable t.writer.nextLsn batches).2.1
      have hrows := congrArg (fun entries : List (Nat × Row ν) => entries.map Prod.snd) hadded
      rw [List.map_append, hnumbers] at hrows
      exact hrows
    refine ⟨⟨halone, hlaid, hintact, ?_, fun row hrow => ?_⟩, hlive⟩
    · have hsame : t'.writer.file = t.writer.file ∧ t'.writer.deletes = t.writer.deletes := by
        obtain ⟨frames, wal, -, -, rfl⟩ := appendRows_ok happend
        exact ⟨rfl, rfl⟩
      have hsegments : t'.rowsOfSegment env = t.rowsOfSegment env := by
        funext entry
        rw [rowsOfSegment, rowsOfSegment, hsame.1, hsame.2, hschema]
      rw [← h.rows, Table.rows, Table.rows, hsegments, hsame.1, hlive, ← Multiset.coe_add, add_assoc]
    · rw [hschema]
      rcases Multiset.mem_add.mp hrow with hold | hnew
      · exact h.width row hold
      · obtain ⟨batch, hbatch, hrow⟩ := List.mem_flatMap.mp hnew
        rw [hwidth batch hbatch row hrow, hfields batch hbatch]

theorem Holds.insert (h : t.Holds env stored) (hempty : t.writer.memtable.live = []) {batches : List (RecordBatch τ ν)}
    (hwidth : ∀ batch ∈ batches, ∀ row ∈ batch.rows, row.length = batch.fields.length)
    (hsorts : SortsIn t.schema.clusterColumns (rowsOf batches)) {t₁ : Table M} {rows flushed : Nat}
    (hinsert : t.insert env batches = .ok (rows, t₁)) (hflush : t₁.flushLocked env = .ok (flushed, t')) :
    t'.Holds env (stored + ↑(rowsOf batches)) ∧ t'.writer.memtable.live = [] := by
  obtain ⟨⟨inserted, t₂⟩, hlocked, hinsert⟩ := bind_eq_ok.mp hinsert
  obtain ⟨hholds, hlive⟩ := h.insertLocked hwidth hlocked
  rw [hempty, List.map_nil, List.nil_append] at hlive
  have hfirst : SortsIn t₂.schema.clusterColumns (t₂.writer.memtable.live.map Prod.snd) := by
    rw [hlive, insertLocked_schema hlocked]
    exact hsorts
  have hnext : t₁.Holds env (stored + ↑(rowsOf batches)) ∧
      SortsIn t₁.schema.clusterColumns (t₁.writer.memtable.live.map Prod.snd) := by
    dsimp only at hinsert
    split at hinsert
    · obtain ⟨-, rfl⟩ := Prod.mk.inj (Except.ok.inj hinsert)
      exact ⟨hholds, hfirst⟩
    · obtain ⟨t₃, hneeded, hinsert⟩ := bind_eq_ok.mp hinsert
      obtain ⟨-, rfl⟩ := Prod.mk.inj (Except.ok.inj hinsert)
      unfold flushIfNeeded at hneeded
      split at hneeded
      · obtain ⟨⟨_, t₄⟩, hearly, hneeded⟩ := bind_eq_ok.mp hneeded
        obtain rfl := Except.ok.inj hneeded
        obtain ⟨hflushed, hnone⟩ := hholds.flushLocked hfirst hearly
        refine ⟨hflushed, .inr ?_⟩
        rw [hnone]
        exact Nat.two_pow_pos 32
      · obtain rfl := Except.ok.inj hneeded
        exact ⟨hholds, hfirst⟩
  exact hnext.1.flushLocked hnext.2 hflush

theorem Intact.setSchema (h : t.Intact) {schema : Schema τ} {rewrite : Bool} (hok : t.setSchema env schema rewrite = .ok t') :
    t'.Intact ∧ t'.writer.memtable.live = [] := by
  obtain ⟨⟨rows, t₁⟩, hflush, hok⟩ := bind_eq_ok.mp hok
  obtain ⟨after, -, hok⟩ := bind_eq_ok.mp hok
  obtain ⟨t₂, hset, hok⟩ := bind_eq_ok.mp hok
  obtain rfl := Except.ok.inj hok
  have hflushed := h.flushLocked hflush
  have hpinned : t₁.pin.Intact := ⟨hflushed.kept, hflushed.filled⟩
  have hintact := hpinned.setSchemaLocked hset
  refine ⟨⟨hintact.kept, hintact.filled⟩, ?_⟩
  obtain ⟨t₃, -, rfl⟩ := setSchemaLocked_ok hset
  rfl

/-- Every segment has live rows, so a change that writes them anew leaves none behind. -/
theorem Intact.deadFit (hwhole : t.Whole env) (h : t.Intact) (schema : Schema τ) : DeadFit env t schema := by
  intro rows t₁ hflush entry hentry hdead
  have hflushed := hwhole.flushLocked hflush
  have hintact := h.flushLocked hflush
  have hnone := hflushed.fresh entry.segmentId
  rw [hintact.kept, Option.getD_none] at hnone
  have hpos : 0 < entry.rowCount := hintact.filled entry (hflushed.housed.synced.manifest ▸ hentry)
  rw [Snapshot.liveRowsIn] at hdead
  cases hdeletes : t₁.current.deletes entry.segmentId with
  | none =>
      rw [hdeletes, Option.map_none, Option.getD_none] at hdead
      omega
  | some deleted =>
      rw [hdeletes, Option.getD_some] at hnone
      rw [hdeletes, hnone, Option.map_some, Option.getD_some, Finset.card_empty, Nat.zero_min] at hdead
      omega

theorem Holds.change (h : t.Holds env stored) (hempty : t.writer.memtable.live = []) {c : Change τ}
    (hsafe : t.Safe env (.change c)) (hok : t.change env c = .ok t') :
    t'.Holds env (stored.map (c.rowOf env t.schema.schema)) ∧ t'.writer.memtable.live = [] := by
  have hlaid : t'.Laid env := h.laid.change (fun schema _ => h.intact.deadFit h.alone.whole schema) hok
  have halone : Alone env t' := h.alone.change c hok
  rcases change_ok hok with ⟨hplan, rfl⟩ | ⟨schema, rewrite, hplan, hset⟩
  · have hsame : stored.map (c.rowOf env t'.schema.schema) = stored := by
      rw [Multiset.map_congr rfl fun row _ => rowOf_skipped hplan row, Multiset.map_id']
    rw [hsame]
    exact ⟨h, hempty⟩
  · have hwidth : ∀ row ∈ t.rows env, row.length = t.schema.schema.fields.length := h.rows ▸ h.width
    have hrows := rows_setSchema h.alone h.laid hempty hwidth hplan (fun htrue => hsafe schema (htrue ▸ hplan)) hset
    obtain ⟨hintact, hnone⟩ := h.intact.setSchema hset
    rw [h.rows] at hrows
    refine ⟨⟨halone, hlaid, hintact, hrows, fun row' hrow' => ?_⟩, hnone⟩
    obtain ⟨row, hrow, rfl⟩ := Multiset.mem_map.mp hrow'
    have hschema : t'.schema.schema = schema := by
      obtain ⟨⟨rows, t₁⟩, hflush, hset⟩ := bind_eq_ok.mp hset
      obtain ⟨after, hafter, hset⟩ := bind_eq_ok.mp hset
      obtain ⟨t₂, hlocked, hset⟩ := bind_eq_ok.mp hset
      obtain rfl := Except.ok.inj hset
      change t₂.schema.schema = schema
      rw [setSchemaLocked_schema hlocked, (TableSchema.new_schema hafter).1]
    rw [hschema]
    exact length_rowOf hplan (h.width row hrow)

theorem Holds.created {schema : Schema τ} {fingerprint : Schema τ → Nat} {newTableUuid : Extent → List UInt8}
    (h : Table.create env M schema fingerprint newTableUuid none = .ok t) :
    t.Holds env 0 ∧ t.writer.memtable.live = [] := by
  have halone : Alone env t := .create schema fingerprint newTableUuid h
  have hlaid := Laid.created h
  obtain ⟨file, seed, current, -, hfresh, -, rfl⟩ := create_ok h
  have hsegments : (freshTable file current).writer.file.committed.manifest.segments = [] := by
    change file.committed.manifest.segments = []
    rw [hfresh.manifest]
    rfl
  refine ⟨⟨halone, hlaid, ⟨fun _ => rfl, fun entry hentry => ?_⟩, ?_, fun row hrow => ?_⟩, rfl⟩
  · rw [hsegments] at hentry
    cases hentry
  · rw [Table.rows, hsegments]
    rfl
  · exact absurd hrow (Multiset.notMem_zero row)

theorem Evolved.holds (hrun : Evolved env (Safe env) t stored) : t.Holds env stored ∧ t.writer.memtable.live = [] := by
  induction hrun with
  | create schema fingerprint newTableUuid h => exact Holds.created h
  | insert _ batches hwidth hsafe h hflush ih => exact ih.1.insert ih.2 hwidth hsafe h hflush
  | change _ c hsafe h ih => exact ih.1.change ih.2 hsafe h

/-- Every segment is accepted under the schema in force, and a scan reads these rows. -/
def ReadsAs (env : Env τ ν) (t : Table M) (stored : Multiset (Row ν)) : Prop :=
  (∀ entry ∈ t.current.manifest.segments, ∃ data,
    segmentReader t.writer.file.io.file entry (schemaLayout env t.schema.schema) = .ok data) ∧
    ∃ read, scanTable env t.writer.file.io.file t.current = .ok read ∧ (rowsOf read : Multiset (Row ν)) = stored

theorem Holds.readsAs (h : t.Holds env stored) : t.ReadsAs env stored := by
  have hwhole := h.alone.whole
  have hopens : ∀ entry ∈ t.current.manifest.segments, ∃ data,
      segmentReader t.writer.file.io.file entry (schemaLayout env t.schema.schema) = .ok data := by
    intro entry hentry
    rw [hwhole.housed.synced.manifest] at hentry
    obtain ⟨data, hstores, haccepts⟩ := h.laid.accepted entry hentry
    exact ⟨data, segmentReader_eq_ok hstores.read haccepts⟩
  refine ⟨hopens, ?_⟩
  rw [← h.rows]
  refine scan_rows hwhole.tidy hwhole.housed.synced hwhole.fresh hwhole.counted fun entry hentry => ?_
  rw [hwhole.layout]
  exact hopens entry (List.mem_of_mem_filter hentry)

/-- A segment is accepted exactly under the schemas that begin, names aside, with the columns it was written with. Where
every call is safe, every segment of the table is accepted, and what is read of a column is what was stored for it, cast as
it was cast since, with nulls for the rows that are older than the column. -/
theorem columns_keep_their_values (hhash : TellsApart env) (hrun : Evolved env (Safe env) t stored) :
    (∀ S W : Schema τ, layoutAccepts (schemaLayout env S) W.fields.length (layoutCurrent (schemaLayout env W)) = true ↔
      shapes W.fields = (shapes S.fields).take W.fields.length) ∧ t.ReadsAs env stored :=
  ⟨fun S W => layoutAccepts_stamped hhash S W, hrun.holds.1.readsAs⟩

section SameName

open Traffic

/-- A number for each list of bits. -/
def bitsCode (bits : List Bool) : Nat := bits.foldr (fun bit code => 2 * code + bit.toNat + 1) 0

theorem bitsCode_inj {bits bits' : List Bool} (h : bitsCode bits = bitsCode bits') : bits = bits' := by
  induction bits generalizing bits' with
  | nil =>
      cases bits' with
      | nil => rfl
      | cons bit' bits' =>
          rw [bitsCode, bitsCode, List.foldr_nil, List.foldr_cons] at h
          omega
  | cons bit bits ih =>
      cases bits' with
      | nil =>
          rw [bitsCode, bitsCode, List.foldr_nil, List.foldr_cons] at h
          omega
      | cons bit' bits' =>
          have hsplit : 2 * bitsCode bits + bit.toNat + 1 = 2 * bitsCode bits' + bit'.toNat + 1 := h
          have hbit : bit.toNat ≤ 1 := Bool.toNat_le bit
          have hbit' : bit'.toNat ≤ 1 := Bool.toNat_le bit'
          have hcodes : bitsCode bits = bitsCode bits' := by omega
          have hsame : bit.toNat = bit'.toNat := by omega
          have hbits : bit = bit' := by
            cases bit <;> cases bit' <;> simp_all
          rw [ih hcodes, hbits]

/-- Columns of one type, and a fingerprint that tells them apart. -/
def namedEnv : Env Unit Nat :=
  { plainEnv plainOptions [.insert 1 0 ⟨[(), (), ()], [[1, 2, 3]]⟩] with
    schemaHash := fun fields => bitsCode (fields.map Field.nullable) }

theorem namedEnv_tellsApart : TellsApart namedEnv := by
  intro fields fields' h
  have hunit : ∀ list : List (Field Unit), shapes (anonymous list) = ((anonymous list).map Field.nullable).map fun bit => ((), bit) := by
    intro list
    rw [shapes, List.map_map]
    rfl
  have hshapes : shapes (anonymous fields) = shapes (anonymous fields') := by rw [hunit, hunit, bitsCode_inj h]
  rw [shapes_anonymous, shapes_anonymous] at hshapes
  exact anonymous_eq_iff.mpr hshapes

def namedSchema (first second third : String) : Schema Unit :=
  ⟨[⟨first, (), true⟩, ⟨second, (), true⟩, ⟨third, (), true⟩], []⟩

/-- A row is flushed, the last column is dropped, and a column of its name is added. -/
def replaceColumn (schema : Schema Unit) (name : String) : Except Error (PlainTable × PlainTable × PlainTable) := do
  let t₀ ← Table.create namedEnv (Journal plainSizes) schema (fun _ => 0) (fun _ => []) none
  let (_, t₁) ← t₀.insert namedEnv [⟨schema.fields, [[1, 2, 3]]⟩]
  let (_, t₂) ← t₁.flushLocked namedEnv
  let t₃ ← t₂.dropColumn namedEnv name
  let t₄ ← t₃.addColumn namedEnv ⟨name, (), true⟩
  return (t₀, t₂, t₄)

theorem replaceColumn_evolved (fits : PlainTable → Call.Kind Unit Nat → Prop) {first second third name : String}
    {t₀ t₂ t : PlainTable} (h : replaceColumn (namedSchema first second third) name = .ok (t₀, t₂, t))
    (hinsert : fits t₀ (.insert [⟨(namedSchema first second third).fields, [[1, 2, 3]]⟩]))
    (hdrop : fits t₂ (.change (.dropColumn name))) (hadd : ∀ t₃, fits t₃ (.change (.addColumn ⟨name, (), true⟩))) :
    ∃ stored : Multiset (Row Nat), stored = ↑[(Change.dropColumn name).rowOf namedEnv t₂.schema.schema [1, 2, 3] ++ [0]] ∧
      Evolved namedEnv fits t stored := by
  obtain ⟨t₀', hcreate, h⟩ := bind_eq_ok.mp h
  obtain ⟨⟨_, t₁⟩, hinserted, h⟩ := bind_eq_ok.mp h
  obtain ⟨⟨_, t₂'⟩, hflush, h⟩ := bind_eq_ok.mp h
  obtain ⟨t₃, hdropped, h⟩ := bind_eq_ok.mp h
  obtain ⟨t₄, hadded, h⟩ := bind_eq_ok.mp h
  simp only [pure, Except.pure, Except.ok.injEq, Prod.mk.injEq] at h
  obtain ⟨rfl, rfl, rfl⟩ := h
  have hwidth : ∀ batch ∈ [(⟨(namedSchema first second third).fields, [[1, 2, 3]]⟩ : RecordBatch Unit Nat)],
      ∀ row ∈ batch.rows, row.length = batch.fields.length := by
    intro batch hbatch row hrow
    rw [List.mem_singleton.mp hbatch] at hrow ⊢
    rw [List.mem_singleton.mp hrow]
    rfl
  exact ⟨_, rfl, .change (.change (.insert (.create _ _ _ hcreate) _ hwidth hinsert hinserted hflush) _ hdrop hdropped) _
    (hadd t₃) hadded⟩

/-- A column is dropped and one of its name added: it holds nulls, and the others what they held. -/
theorem replaced_column_reads_null : ∃ (t : PlainTable) (stored : Multiset (Row Nat)),
    stored = {[1, 2, 0]} ∧ t.ReadsAs namedEnv stored := by
  have hcheck : (match replaceColumn (namedSchema "a" "b" "c") "c" with
      | .ok (t₀, t₂, t) => decide (t₀.schema.clusterColumns = [] ∧ t₂.schema.clusterColumns = [] ∧ t₂.schema.schema.Distinct ∧
          t₂.schema.schema = namedSchema "a" "b" "c")
      | .error _ => false) = true := by decide +kernel
  cases hrun : replaceColumn (namedSchema "a" "b" "c") "c" with
  | error e =>
      rw [hrun] at hcheck
      cases hcheck
  | ok result =>
      obtain ⟨t₀, t₂, t⟩ := result
      rw [hrun] at hcheck
      obtain ⟨hcreated, hflushed, hdistinct, hschema⟩ := of_decide_eq_true hcheck
      obtain ⟨stored, hstored, hevolved⟩ := replaceColumn_evolved (Safe namedEnv) hrun (.inl hcreated)
        (fun _ _ => ⟨hdistinct, .inl hflushed, fun _ _ => .inl hflushed⟩) fun t₃ schema hplan => nomatch plan_addColumn hplan
      refine ⟨t, stored, ?_, (columns_keep_their_values namedEnv_tellsApart hevolved).2⟩
      rw [hstored, hschema]
      rfl

/-- A table may be created with two columns of one name. When another column is dropped, the second of the two is filled with
what is stored in the first. -/
theorem column_reads_another : ∃ (t : PlainTable) (stored : Multiset (Row Nat)), TellsApart namedEnv ∧
    Evolved namedEnv (fun _ _ => True) t stored ∧ stored = {[1, 2, 0]} ∧ readerRows namedEnv t = some [[1, 1, 0]] ∧
      ¬t.ReadsAs namedEnv stored := by
  have hcheck : (match replaceColumn (namedSchema "a" "a" "b") "b" with
      | .ok (_, t₂, t) => decide (t₂.schema.schema = namedSchema "a" "a" "b" ∧ readerRows namedEnv t = some [[1, 1, 0]])
      | .error _ => false) = true := by decide +kernel
  cases hrun : replaceColumn (namedSchema "a" "a" "b") "b" with
  | error e =>
      rw [hrun] at hcheck
      cases hcheck
  | ok result =>
      obtain ⟨t₀, t₂, t⟩ := result
      rw [hrun] at hcheck
      obtain ⟨hschema, hreads⟩ := of_decide_eq_true hcheck
      obtain ⟨stored, hstored, hevolved⟩ := replaceColumn_evolved (fun _ _ => True) hrun trivial trivial fun _ => trivial
      rw [hschema] at hstored
      refine ⟨t, stored, namedEnv_tellsApart, hevolved, hstored, hreads, ?_⟩
      rintro ⟨-, read, hread, hrows⟩
      obtain ⟨batches, hbatches, hread'⟩ := readerRows_eq_some hreads
      obtain rfl := Except.ok.inj (hread.symm.trans hbatches)
      rw [hread', hstored] at hrows
      exact absurd hrows (by decide)

end SameName

end Table

end LocalTables
