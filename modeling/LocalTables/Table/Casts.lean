import LocalTables.Columnar.Arrow
import LocalTables.Table.Rewriting
import LocalTables.Table.Runs

/-! A column is given another type. Every stored value of it goes through Arrow's cast, which makes a null of what the new
type cannot represent, and only a column that has no room for nulls refuses one. -/

namespace LocalTables

variable {τ ν : Type} {M : Media τ ν}

section Rows

variable [DecidableEq τ] (env : Env τ ν)

/-- Arrow's cast of a value. One to the type it has leaves it as it is. -/
def castValue (source target : τ) (value : ν) : Except Error ν :=
  if source = target then .ok value else env.cast source target value

/-- A row before and after one of its columns was cast: a value that was there is there, cast. -/
def CastsAt (index : Nat) (source target : τ) (row row' : Row ν) : Prop :=
  ¬env.isNull (row.getD index env.null) →
    castValue env source target (row.getD index env.null) = .ok (row'.getD index env.null) ∧
      ¬env.isNull (row'.getD index env.null)

/-- The schema once a column has its new type. -/
def castSchema (current : Schema τ) (name : String) (target : τ) (index : Nat) (field : Field τ) : Schema τ :=
  schemaWith current (current.fields.set index ⟨name, target, field.nullable⟩)

variable {env}

theorem castColumn_plan {current : Schema τ} {name : String} {target : τ} {index : Nat} {field : Field τ}
    (hindex : current.indexOf name = some index) (hfield : current.fields[index]? = some field)
    {planned : Option (Schema τ × Bool)} (h : (Change.castColumn name target).plan env current = .ok planned) :
    field.dataType = target ∧ planned = none ∨
      field.dataType ≠ target ∧ planned = some (castSchema current name target index field, true) := by
  simp only [Change.plan, hindex, hfield] at h
  split at h
  · next hsame => exact .inl ⟨hsame, (Except.ok.inj h).symm⟩
  · next hother =>
      split at h
      · cases h
      · exact .inr ⟨hother, (Except.ok.inj h).symm⟩

/-- A planned cast changes the type, and converts the rows. -/
theorem castColumn_planned {current schema : Schema τ} {name : String} {target : τ} {rewrite : Bool} {index : Nat}
    {field : Field τ} (hindex : current.indexOf name = some index) (hfield : current.fields[index]? = some field)
    (h : (Change.castColumn name target).plan env current = .ok (some (schema, rewrite))) :
    field.dataType ≠ target ∧ schema = castSchema current name target index field ∧ rewrite = true := by
  rcases castColumn_plan hindex hfield h with ⟨-, hplanned⟩ | ⟨hother, hplanned⟩
  · cases hplanned
  · obtain ⟨rfl, rfl⟩ := Prod.mk.inj (Option.some.inj hplanned)
    exact ⟨hother, rfl, rfl⟩

theorem castColumn_skipped {current : Schema τ} {name : String} {target : τ} {index : Nat} {field : Field τ}
    (hindex : current.indexOf name = some index) (hfield : current.fields[index]? = some field)
    (h : (Change.castColumn name target).plan env current = .ok none) : field.dataType = target := by
  rcases castColumn_plan hindex hfield h with ⟨hsame, -⟩ | ⟨-, hplanned⟩
  · exact hsame
  · cases hplanned

/-- What a conversion makes of the column: Arrow's cast of each value, and no null where there is no room for one. -/
theorem ConvertsTo.cast {current : Schema τ} {name : String} {target : τ} {index : Nat} {field : Field τ} {row row' : Row ν}
    (hindex : current.indexOf name = some index) (hfield : current.fields[index]? = some field)
    (hother : field.dataType ≠ target) (h : ConvertsTo env current (castSchema current name target index field) row row') :
    env.cast field.dataType target (row.getD index env.null) = .ok (row'.getD index env.null) ∧
      (field.nullable = false → ¬env.isNull (row'.getD index env.null)) := by
  obtain ⟨hrow, hnulls⟩ := h
  have hlt : index < current.fields.length := (List.getElem?_eq_some_iff.mp hfield).1
  have hafter : (castSchema current name target index field).fields[index]? = some ⟨name, target, field.nullable⟩ :=
    List.getElem?_set_self hlt
  have hlength := (mapM_ok hrow).length_eq
  have hin : index < row'.length := by
    rw [← hlength]
    exact (List.getElem?_eq_some_iff.mp hafter).1
  have hvalue : row'[index]? = some (row'.getD index env.null) := by
    rw [List.getD_eq_getElem?_getD, List.getElem?_eq_getElem hin, Option.getD_some]
  obtain ⟨field', hfield', hcast⟩ := (mapM_getElem? hrow).mp hvalue
  obtain rfl := Option.some.inj (hafter.symm.trans hfield')
  simp only [hindex, hfield, if_neg hother] at hcast
  refine ⟨hcast, fun hroom => ?_⟩
  have hmem : (row'.getD index env.null, (⟨name, target, field.nullable⟩ : Field τ)) ∈
      row'.zip (castSchema current name target index field).fields :=
    List.mem_of_getElem? (List.getElem?_zip_eq_some.mpr ⟨hvalue, hafter⟩)
  have hchecked := List.all_eq_true.mp hnulls _ hmem
  simpa [hroom] using hchecked

end Rows

/-- Each column to cluster by is found, or the call fails. -/
theorem resolve_eq_nil {env : Env τ ν} {schema : Schema τ} {names : List String} {indices : List Nat}
    (h : resolve env schema names = .ok indices) : indices = [] ↔ names = [] := by
  cases names with
  | nil => simp [← Except.ok.inj h]
  | cons name names =>
      obtain ⟨found, hfound, h⟩ := bind_eq_ok.mp h
      refine ⟨fun hnil => absurd hnil ?_, fun hnil => nomatch hnil⟩
      refine foldlM_ok (P := fun indices : List Nat => indices ≠ []) (fun _ name found _ hfound => ?_) ?_ h
      all_goals
        beta_reduce at hfound
        repeat (split at hfound; · cases hfound)
        rw [← Except.ok.inj hfound]
        simp

namespace Table

variable [DecidableEq τ] {env : Env τ ν} {t t' t₁ : Table M}

/-- The table a schema change goes on with when it has flushed. -/
def flushed (env : Env τ ν) (t : Table M) : Table M :=
  match t.flushLocked env with
  | .ok (_, t') => t'
  | .error _ => t

/-- The rows of the memtable, and those of each portion of the segments after that, can be sorted in one go. -/
def Sortable (env : Env τ ν) (t : Table M) : Prop :=
  SortsIn t.schema.clusterColumns (t.writer.memtable.live.map Prod.snd) ∧
    ∀ portion ∈ portions (max env.options.compactionMaxBytes 1) (t.flushed env).current.liveSegments [] 0,
      SortsIn t.schema.clusterColumns (portion.flatMap ((t.flushed env).rowsOfSegment env))

omit [DecidableEq τ] in
theorem schema_clusters {schema schema' : Schema τ} {current current' : TableSchema τ}
    (h : TableSchema.new env schema = .ok current) (h' : TableSchema.new env schema' = .ok current') :
    current'.clusterColumns = [] ↔ current.clusterColumns = [] := by
  obtain ⟨columns, hcolumns, h⟩ := bind_eq_ok.mp h
  obtain ⟨columns', hcolumns', h'⟩ := bind_eq_ok.mp h'
  rw [← Except.ok.inj h, ← Except.ok.inj h']
  exact (resolve_eq_nil hcolumns').trans (resolve_eq_nil hcolumns).symm

/-- The schema in force was worked out from its fields. -/
theorem Alone.schema_new (hrun : Alone env t) : TableSchema.new env t.schema.schema = .ok t.schema := by
  have hnew : ∀ {schema : Schema τ} {current : TableSchema τ}, TableSchema.new env schema = .ok current →
      TableSchema.new env current.schema = .ok current := by
    intro schema current h
    rw [(TableSchema.new_schema h).1]
    exact h
  induction hrun with
  | create schema fingerprint newTableUuid h =>
      obtain ⟨file, seed, current, -, -, hcurrent, rfl⟩ := create_ok h
      exact hnew hcurrent
  | step _ hstep _ ih =>
      rw [hstep.2]
      exact ih
  | change c _ h ih =>
      rcases change_ok h with ⟨-, rfl⟩ | ⟨schema, rewrite, -, hset⟩
      · exact ih
      · obtain ⟨⟨rows, t₁⟩, -, hset⟩ := bind_eq_ok.mp hset
        obtain ⟨after, hafter, hset⟩ := bind_eq_ok.mp hset
        obtain ⟨t₂, hlocked, hset⟩ := bind_eq_ok.mp hset
        obtain rfl := Except.ok.inj hset
        change TableSchema.new env t₂.schema.schema = .ok t₂.schema
        rw [setSchemaLocked_schema hlocked]
        exact hnew hafter

omit [DecidableEq τ] in
/-- Between calls the table stands as it is published. -/
theorem Whole.unmoved (h : t.Whole env) : t.Unmoved t.current := by
  refine ⟨h.housed.captured, fun entry _ => h.fresh _, fun entry hentry hid => ?_⟩
  have hzero : t.current.liveRowsIn entry = 0 := by
    by_contra hlive
    refine hid (List.mem_map_of_mem (List.mem_filter.mpr ⟨?_, decide_eq_true (Nat.pos_of_ne_zero hlive)⟩))
    rw [h.housed.synced.manifest]
    exact hentry
  have hcard : ∀ rows : Option (Finset Nat), (rows.map fun rows => min rows.card entry.rowCount).getD 0 =
      min (rows.getD ∅).card entry.rowCount := by
    intro rows
    cases rows <;> simp
  rw [Snapshot.liveRowsIn, hcard] at hzero ⊢
  rw [← hzero, fresh_snapshot, h.fresh]

/-- What a rewriting change does to the rows of a table that stands still: they are flushed, converted and written, part by
part. None is lost exactly where every part can be sorted. -/
theorem setSchema_replaces (hrun : Alone env t) {schema : Schema τ} (hok : t.setSchema env schema true = .ok t') :
    (Multiset.card (t'.rows env) = Multiset.card (t.rows env) ↔ t.Sortable env) ∧
      (t.Sortable env → Multiset.Rel (ConvertsTo env t.schema.schema schema) (t.rows env) (t'.rows env)) := by
  have hwhole := hrun.whole
  obtain ⟨⟨rows, t₁⟩, hflush, hok⟩ := bind_eq_ok.mp hok
  obtain ⟨after, hafter, hok⟩ := bind_eq_ok.mp hok
  obtain ⟨t₂, hset, hok⟩ := bind_eq_ok.mp hok
  obtain rfl := Except.ok.inj hok
  have hpinned := (hwhole.flushLocked hflush).pin
  have hschema := flushLocked_schema hflush
  have hflushed : t.flushed env = t₁ := by rw [flushed, hflush]
  have hcluster : after.clusterColumns = [] ↔ t.schema.clusterColumns = [] := schema_clusters hrun.schema_new hafter
  obtain ⟨groupRows, batches, groups, kept, hgroups, hbatches, hbefore, hmid⟩ :=
    flushLocked_replaces hwhole.housed hwhole.all hwhole.tidy hwhole.layout hflush
  obtain ⟨hsame, hlayout⟩ := TableSchema.new_schema hafter
  obtain ⟨⟨made, hlanded, hrows⟩, -⟩ := setSchemaLocked_replaces hpinned.housed hpinned.tidy hpinned.all (by rw [hlayout, hsame])
    hpinned.unmoved hset
  obtain ⟨t₃, hcommit, -⟩ := setSchemaLocked_ok hset
  have hheld : t₁.pin.rows env = _ := hpinned.unmoved.rows hpinned.housed hpinned.tidy hpinned.all (commitSchema_ok hcommit).1
  rw [← flatten_map_portions _ (max env.options.compactionMaxBytes 1)] at hheld
  have hsorts : ∀ part : List (Row ν), SortsIn after.clusterColumns part ↔ SortsIn t.schema.clusterColumns part := by
    intro part
    rw [SortsIn, SortsIn, hcluster]
  have hparts : (∀ part ∈ (portions (max env.options.compactionMaxBytes 1) t₁.pin.current.liveSegments [] 0).map fun portion =>
      portion.flatMap (t₁.pin.rowsOfSegment env), SortsIn after.clusterColumns part) ↔
      ∀ portion ∈ portions (max env.options.compactionMaxBytes 1) (t.flushed env).current.liveSegments [] 0,
        SortsIn t.schema.clusterColumns (portion.flatMap ((t.flushed env).rowsOfSegment env)) := by
    rw [List.forall_mem_map, hflushed]
    exact forall₂_congr fun portion _ => hsorts _
  have hfits : SortsIn t.schema.clusterColumns (t.writer.memtable.live.map Prod.snd) ↔
      (rowsOf groups.flatten).length = (rowsOf batches).length := by
    rw [← fitsCluster_iff hgroups, FitsCluster, SortsIn, ← hbatches, length_rowsOf]
  have hafterward : t₁.pin.rows env = kept + rowsOf groups.flatten := hmid
  have hlost := length_rowGroups_le hgroups
  have hmade := hlanded.length_le
  have hcard : Multiset.card (t₁.pin.rows env) = Multiset.card kept + (rowsOf groups.flatten).length := by
    rw [hafterward, Multiset.card_add, Multiset.coe_card]
  rw [hheld, Multiset.coe_card] at hcard
  change _ ∧ (_ → Multiset.Rel _ _ (t₂.rows env))
  constructor
  · change Multiset.card (t₂.rows env) = _ ↔ _
    rw [hrows, Multiset.coe_card, hbefore, Multiset.card_add, Multiset.coe_card, Sortable, ← hparts, hlanded.fits_iff, hfits]
    omega
  · rintro ⟨hfirst, hothers⟩
    have hrel := hlanded.converted (hparts.mpr hothers)
    have hbatchesFit : FitsCluster t.schema.clusterColumns batches := (fitsCluster_iff hgroups).mpr (hfits.mp hfirst)
    have hkept : t₁.pin.rows env = t.rows env := by
      rw [hafterward, hbefore, Multiset.coe_eq_coe.mpr (rowsOf_rowGroups hbatchesFit hgroups)]
    rw [← hheld, hkept, ← hrows, hsame] at hrel
    have hold : t₁.pin.schema.schema = t.schema.schema := congrArg TableSchema.schema hschema
    rw [hold] at hrel
    exact hrel

/-- A stored value the new type cannot represent. Arrow's cast makes a null of it. -/
def Unrepresentable (env : Env τ ν) (t : Table M) (index : Nat) (source target : τ) : Prop :=
  ∃ row ∈ t.rows env, ¬env.isNull (row.getD index env.null) ∧
    ∀ value, env.cast source target (row.getD index env.null) = .ok value → env.isNull value

theorem castColumn_rel (hrun : Alone env t) {name : String} {target : τ} {index : Nat} {field : Field τ}
    (hindex : t.schema.schema.indexOf name = some index) (hfield : t.schema.schema.fields[index]? = some field)
    (hok : t.castColumn env name target = .ok t') :
    Multiset.Rel (CastsAt env index field.dataType target) (t.rows env) (t'.rows env) ↔
      (field.dataType ≠ target → t.Sortable env ∧
        (field.nullable → ¬t.Unrepresentable env index field.dataType target)) := by
  rcases change_ok hok with ⟨hplan, rfl⟩ | ⟨schema, rewrite, hplan, hset⟩
  · have hsame := castColumn_skipped hindex hfield hplan
    refine ⟨fun _ hother => absurd hsame hother, fun _ => ?_⟩
    refine Multiset.rel_refl_of_refl_on fun row _ hsome => ⟨?_, hsome⟩
    rw [castValue, if_pos hsame]
  · obtain ⟨hother, rfl, rfl⟩ := castColumn_planned hindex hfield hplan
    obtain ⟨hcard, hconverts⟩ := setSchema_replaces hrun hset
    constructor
    · intro hrel _
      refine ⟨hcard.mp (Multiset.card_eq_card_of_rel hrel).symm, ?_⟩
      rintro - ⟨row, hrow, hsome, hnone⟩
      obtain ⟨row', -, hcasts⟩ := Multiset.exists_mem_of_rel_of_mem hrel hrow
      obtain ⟨hvalue, hkept⟩ := hcasts hsome
      rw [castValue, if_neg hother] at hvalue
      exact hkept (hnone _ hvalue)
    · intro hsafe
      obtain ⟨hsorts, hroom⟩ := hsafe hother
      refine (hconverts hsorts).mono fun row hrow row' _ hconverts hsome => ?_
      obtain ⟨hvalue, hrequired⟩ := ConvertsTo.cast hindex hfield hother hconverts
      refine ⟨?_, fun hnull => ?_⟩
      · rw [castValue, if_neg hother]
        exact hvalue
      · cases hnullable : field.nullable with
        | false => exact hrequired hnullable hnull
        | true =>
            refine hroom hnullable ⟨row, hrow, hsome, fun value hcast => ?_⟩
            rw [← Except.ok.inj (hvalue.symm.trans hcast)]
            exact hnull

section Fails

variable {retired : List SegmentId} {before after : TableSchema τ} {s : Snapshot τ ν} {e : Extent}

/-- The commit of a flush went through, and what failed is the truncation of the log after it. -/
def FlushLanded (env : Env τ ν) (t t' : Table M) : Prop :=
  ∃ (pending : Pending M) (t₁ : Table M) (wal : WalPair), t.rotated.writeStage env (t.frozen env) = .ok pending ∧
    (t.rotated.withIo pending.io).commit pending.manifest = .ok t₁ ∧ t' = t₁.withWriter { t₁.writer with wal := wal }

omit [DecidableEq τ] in
theorem Edits.len_le {minActive : Nat} {p p' : Pending M} (hedits : Edits anyAllocation minActive p p')
    (h : p.manifest.fileLen ≤ p.io.len) : p'.manifest.fileLen ≤ p'.io.len ∧ p.io.len ≤ p'.io.len := by
  induction hedits with
  | refl => exact ⟨h, le_rfl⟩
  | tail _ hedit ih =>
      obtain ⟨hin, hle⟩ := hedit.inFile ih.1
      exact ⟨hin, ih.2.trans hle⟩

omit [DecidableEq τ] in
/-- A commit records a longer file than there was. -/
theorem commit_grows {minActive : Nat} {f f' : TableFile M} {p : Pending M} (hroomy : Roomy f)
    (hedits : Edits anyAllocation minActive ⟨f.io, f.beginManifest⟩ p)
    (hcommit : TableFile.commit { f with io := p.io } p.manifest = .ok f') :
    f'.committed.manifest ≠ f.committed.manifest := by
  obtain ⟨-, hle⟩ := Edits.len_le hedits hroomy.inFile
  have hdrafted : Drafted minActive f p := (Drafted.begin hroomy).edits hedits
  obtain ⟨at', hpos, hio, -, -, -, -, -, -, -, -, -, -, hmanifest⟩ := TableFile.commit_manifest hdrafted.start hcommit
  have hinFile := hroomy.inFile
  have hstop : at'.stop = at'.offset + at'.len := rfl
  have hlen : f'.committed.manifest.fileLen = at'.stop := by rw [hmanifest]
  intro hsame
  rw [hsame] at hlen
  dsimp only at hio hle
  omega

theorem FlushLanded.manifest (h : t.Housed) (hlanded : FlushLanded env t t') :
    t'.writer.file.committed.manifest ≠ t.writer.file.committed.manifest := by
  obtain ⟨pending, t₁, wal, hpending, hcommit, rfl⟩ := hlanded
  obtain ⟨f, hf, rfl⟩ := commit_ok hcommit
  have hedits : Edits anyAllocation t.minActiveTxn ⟨t.writer.file.io, t.writer.file.beginManifest⟩ pending :=
    writeStage_edits (t := t.rotated) hpending
  exact commit_grows h.roomy hedits hf

theorem flushLocked_manifest (h : t.Housed) {rows : Nat} (hok : t.flushLocked env = .ok (rows, t'))
    (hsome : ¬(t.frozen env).isEmpty) : t'.writer.file.committed.manifest ≠ t.writer.file.committed.manifest := by
  rcases flushLocked_ok hok with ⟨hempty, -⟩ | ⟨pending, f, -, hpending, hcommit, rfl⟩
  · exact absurd hempty hsome
  · have hedits : Edits anyAllocation t.minActiveTxn ⟨t.writer.file.io, t.writer.file.beginManifest⟩ pending :=
      writeStage_edits (t := t.rotated) hpending
    exact commit_grows h.roomy hedits hcommit

/-- A flush that fails before its commit goes through leaves the file a reader sees. -/
theorem FlushFails.short (h : t.Housed) (hfails : FlushFails env t t') (hshort : ¬FlushLanded env t t') :
    ∃ io wal, t' = { t with writer := { t.frozenWriter with file := { t.writer.file with io := io }, wal := wal } } ∧
      ∀ e ∈ t.writer.file.committed.manifest.refs, ∀ k, M.read io.file e k = M.read t.writer.file.io.file e k := by
  have hstamped := h.stamped env
  have hguarded : ∀ e ∈ t.writer.file.committed.manifest.refs,
      Guarded t.minActiveTxn (t.rotated.flushManifest (t.frozen env)) e := fun e he => hstamped.refs_guarded h.min_le he
  cases hfails with
  | rotate wal => exact ⟨t.writer.file.io, wal, rfl, fun _ _ _ => rfl⟩
  | @groups io hsome hgroups => exact ⟨io, _, rfl, fun e he k => hgroups.reads hstamped (hguarded e he) k⟩
  | @bitmap groups pending io hsome hgroups hpending hfails =>
      refine ⟨io, _, rfl, fun e he k => ?_⟩
      obtain ⟨front, id, back, reached, -, hreached, rows, entry, -, -, hwrite⟩ := hfails
      have hedits := (writeSegments_edits hpending).trans (writeBitmaps_edits hreached)
      obtain ⟨hstill, hkept⟩ := hstamped.edits_keeps hedits e (hguarded e he)
      exact (WriteFails.reads (hstamped.edits hedits) isPowerOfTwo_bufferAlign hwrite hstill k).trans (hkept k)
  | @commit pending io hsome hpending hcommit =>
      refine ⟨io, _, rfl, fun e he k => ?_⟩
      have hedits : Edits anyAllocation t.minActiveTxn ⟨t.writer.file.io, t.writer.file.beginManifest⟩ pending :=
        writeStage_edits (t := t.rotated) hpending
      have hbegin : Drafted t.minActiveTxn t.writer.file ⟨t.writer.file.io, t.writer.file.beginManifest⟩ := .begin h.roomy
      obtain ⟨hstill, hkept⟩ := hbegin.edits_keeps hedits e (hbegin.refs_guarded h.min_le he)
      exact (CommitFails.reads (hbegin.edits hedits) hcommit hstill (h.low he) k).trans (hkept k)
  | truncate wal hsome hpending hcommit => exact absurd ⟨_, _, wal, hpending, hcommit, rfl⟩ hshort

/-- A schema change that fails under the lock leaves what readers are shown. -/
theorem CommitSchemaFails.reads (h : t.Housed) {rewrite : Bool}
    (hfails : CommitSchemaFails env t before after rewrite s retired t')
    (he : e ∈ t.writer.file.committed.manifest.refs) (k : Kind) :
    M.read t'.writer.file.io.file e k = M.read t.writer.file.io.file e k := by
  have hbegin : Drafted t.minActiveTxn t.writer.file ⟨t.writer.file.io, t.writer.file.beginManifest⟩ := .begin h.roomy
  have hguarded := hbegin.refs_guarded h.min_le he
  -- what is written after the blob of the schema, by edits
  have hwritten : ∀ {extent : Extent} {file : TableFile M} {p : Pending M},
      t.writer.file.writeSchema after.schema = .ok (extent, file) →
      Edits anyAllocation t.minActiveTxn ⟨file.io, { t.writer.file.beginManifest with schema := extent }⟩ p →
      Drafted t.minActiveTxn t.writer.file p ∧ Guarded t.minActiveTxn p.manifest e ∧
        ∀ k, M.read p.io.file e k = M.read t.writer.file.io.file e k := by
    intro extent file p hschema hedits
    obtain ⟨-, hdrafted⟩ := Drafted.beginSchema t.minActiveTxn h.roomy hschema
    obtain ⟨hstill, hkept⟩ := hdrafted.keeps h.roomy e hguarded
    obtain ⟨hlast, hsame⟩ := hdrafted.edits_keeps hedits e hstill
    exact ⟨hdrafted.edits hedits, hlast, fun k => (hsame k).trans (hkept k)⟩
  have hconverted : ∀ {groupRows : Nat} {sources : List SegmentEntry} {p : Pending M} {c : Conversion M},
      sources.foldlM (convertSegment env (writeSegment env after t.minActiveTxn) s before after groupRows) ⟨p, [], 0⟩ =
        .ok c → Edits anyAllocation t.minActiveTxn p c.pending := by
    intro groupRows sources p c hfold
    refine foldlM_ok (P := fun c : Conversion M => Edits anyAllocation t.minActiveTxn p c.pending)
      (fun _ _ _ hedits hstep => ?_) .refl hfold
    exact convertSegment_ok (P := Edits anyAllocation t.minActiveTxn p)
      (fun _ _ _ hedits hwrite => hedits.trans (writeSegment_edits hwrite)) hedits hstep
  cases hfails with
  | landed => rfl
  | refused => rfl
  | @schema extent file left hschema hcut =>
      obtain ⟨-, hdrafted⟩ := Drafted.beginSchema t.minActiveTxn h.roomy hschema
      obtain ⟨ops, hissued, hspares⟩ := hdrafted.issued
      rw [hissued.since] at hcut
      exact (hcut.spared (hspares e hguarded).2 (hbegin.guarded_inFile hguarded)).2 k
  | convert _ hschema hfails =>
      obtain ⟨front, entry, back, reached, -, hreached, hlast⟩ := hfails
      obtain ⟨hdrafted, hstill, hsame⟩ := hwritten hschema (hconverted hreached)
      cases hlast with
      | read => exact hsame k
      | convert => exact hsame k
      | write _ _ _ hgroups => exact (hgroups.reads hdrafted hstill k).trans (hsame k)
  | rest _ hschema hall hgroups =>
      obtain ⟨hdrafted, hstill, hsame⟩ := hwritten hschema (hconverted hall)
      exact (hgroups.reads hdrafted hstill k).trans (hsame k)
  | commit _ hschema hpending hcommit =>
      obtain ⟨hdrafted, hstill, hsame⟩ := hwritten hschema (convertSegments_edits hpending)
      rw [Writer.forgetAll_eq]
      exact (CommitFails.reads hdrafted hcommit hstill (h.low he) k).trans (hsame k)
  | keep _ hschema hcommit =>
      obtain ⟨hdrafted, hstill, hsame⟩ := hwritten hschema .refl
      exact (CommitFails.reads (p := ⟨_, _⟩) hdrafted hcommit hstill (h.low he) k).trans (hsame k)

/-- How far a call got that fails: it was refused, its flush did not come to commit, the flush committed and then failed, or
the change was not committed, with the segments it had retired by then. -/
inductive CastStop where
  | refused
  | flushing
  | flushed
  | changing (retired : List SegmentId)

/-- A call that gives a column another type fails. -/
inductive CastFails (env : Env τ ν) (t : Table M) (name : String) (target : τ) : CastStop → Table M → Prop where
  | plan {e : Error} (h : (Change.castColumn name target).plan env t.schema.schema = .error e) :
      CastFails env t name target .refused t
  | flush {schema : Schema τ} {t' : Table M}
      (hplan : (Change.castColumn name target).plan env t.schema.schema = .ok (some (schema, true)))
      (h : FlushFails env t t') (hshort : ¬FlushLanded env t t') : CastFails env t name target .flushing t'
  | truncate {schema : Schema τ} {t' : Table M}
      (hplan : (Change.castColumn name target).plan env t.schema.schema = .ok (some (schema, true)))
      (hlanded : FlushLanded env t t') : CastFails env t name target .flushed t'
  | schema {schema : Schema τ} {rows : Nat} {t₁ : Table M} {e : Error}
      (hplan : (Change.castColumn name target).plan env t.schema.schema = .ok (some (schema, true)))
      (hflush : t.flushLocked env = .ok (rows, t₁)) (h : TableSchema.new env schema = .error e) :
      CastFails env t name target (.changing []) t₁
  | locked {schema : Schema τ} {rows : Nat} {t₁ t' : Table M} {after : TableSchema τ} {retired : List SegmentId}
      (hplan : (Change.castColumn name target).plan env t.schema.schema = .ok (some (schema, true)))
      (hflush : t.flushLocked env = .ok (rows, t₁)) (hafter : TableSchema.new env schema = .ok after)
      (h : CommitSchemaFails env t₁.pin t₁.schema after true t₁.current retired t') :
      CastFails env t name target (.changing retired) t'.unpinFirst

theorem castColumn_rewrites {current schema : Schema τ} {name : String} {target : τ} {rewrite : Bool}
    (h : (Change.castColumn name target).plan env current = .ok (some (schema, rewrite))) : rewrite = true := by
  cases hindex : current.indexOf name with
  | none =>
      simp only [Change.plan, hindex] at h
      cases h
  | some index =>
      cases hfield : current.fields[index]? with
      | none =>
          simp only [Change.plan, hindex, hfield] at h
          cases h
      | some field => exact (castColumn_planned hindex hfield h).2.2

/-- These are all the ways it can fail. -/
theorem ChangeFails.castFails {name : String} {target : τ} (h : ChangeFails env t (.castColumn name target) t') :
    ∃ stop, CastFails env t name target stop t' := by
  cases h with
  | plan h => exact ⟨_, .plan h⟩
  | set hplan h =>
      obtain rfl := castColumn_rewrites hplan
      cases h with
      | flush h =>
          by_cases hlanded : FlushLanded env t t'
          · exact ⟨_, .truncate hplan hlanded⟩
          · exact ⟨_, .flush hplan h hlanded⟩
      | schema hflush hnew => exact ⟨_, .schema hplan hflush hnew⟩
      | locked hflush hafter h => exact ⟨_, .locked hplan hflush hafter h⟩

/-- How a call returns: Ok, or Err where it stopped. -/
def CastReturns (env : Env τ ν) (t : Table M) (name : String) (target : τ) (t' : Table M) : Option CastStop → Prop
  | none => t.castColumn env name target = .ok t'
  | some stop => CastFails env t name target stop t'

/-- What it is to leave. After Ok each value of the column that was there is there, cast; after Err the schema, the manifest
and the rows are what they were. -/
def KeepsValues (env : Env τ ν) (t : Table M) (name : String) (target : τ) (t' : Table M) : Option CastStop → Prop
  | none => ∀ index field, t.schema.schema.indexOf name = some index → t.schema.schema.fields[index]? = some field →
      Multiset.Rel (CastsAt env index field.dataType target) (t.rows env) (t'.rows env)
  | some _ => t'.schema = t.schema ∧ t'.writer.file.committed.manifest = t.writer.file.committed.manifest ∧
      t'.rows env = t.rows env

/-- What it takes. A call that changes the type has to be able to sort what it writes, and a column with room for nulls must
hold no value the new type cannot represent; one that fails must have had nothing to flush, and retired no segment with
deletions. -/
def CastSafe (env : Env τ ν) (t : Table M) (name : String) (target : τ) : Option CastStop → Prop
  | none => ∀ index field, t.schema.schema.indexOf name = some index → t.schema.schema.fields[index]? = some field →
      field.dataType ≠ target → t.Sortable env ∧ (field.nullable → ¬t.Unrepresentable env index field.dataType target)
  | some .refused => True
  | some .flushing => t.writer.memtable.live = []
  | some .flushed => False
  | some (.changing retired) => (t.frozen env).isEmpty ∧ ∀ id ∈ retired, (t.writer.deletes id).getD ∅ = ∅

theorem FlushFails.rows_iff (h : t.Whole env) (hfails : FlushFails env t t') (hshort : ¬FlushLanded env t t') :
    t'.schema = t.schema ∧ t'.writer.file.committed.manifest = t.writer.file.committed.manifest ∧
      (t'.rows env = t.rows env ↔ t.writer.memtable.live = []) := by
  obtain ⟨io, wal, rfl, hreads⟩ := hfails.short h.housed hshort
  refine ⟨rfl, rfl, ?_⟩
  have hkept : t.writer.file.committed.manifest.segments.flatMap (rowsOfSegment env
      { t with writer := { t.frozenWriter with file := { t.writer.file with io := io }, wal := wal } }) =
      t.writer.file.committed.manifest.segments.flatMap (t.rowsOfSegment env) := by
    refine List.flatMap_congr fun entry hentry => SegmentEntry.rowsIn_congr rfl rfl ?_ _
    exact hreads _ (Manifest.mem_refs.mpr ⟨entry, hentry, .inl rfl⟩) _
  have hnone : t.writer.memtable.freeze.2.live = [] := Memtable.freeze_snd.2
  rw [Table.rows, Table.rows]
  dsimp only [frozenWriter] at hkept ⊢
  rw [hkept, hnone, add_right_inj, List.map_nil, Multiset.coe_nil, eq_comm, Multiset.coe_eq_zero, List.map_eq_nil_iff]

omit [DecidableEq τ] in
theorem rows_frozenWriter (h : t.Tidy) (hempty : (t.frozen env).isEmpty) :
    rows env { t with writer := t.frozenWriter } = t.rows env := by
  have hnone : t.writer.memtable.live = [] := by
    rw [Frozen.isEmpty, Bool.and_eq_true_iff] at hempty
    have hzero : t.writer.memtable.liveRows = 0 := beq_iff_eq.mp hempty.1
    rw [h.memtable.liveRows] at hzero
    exact List.length_eq_zero_iff.mp hzero
  have hlast : t.writer.memtable.freeze.2.live = [] := Memtable.freeze_snd.2
  rw [Table.rows, Table.rows, hnone]
  dsimp only [frozenWriter]
  rw [hlast]
  rfl

/-- The segments a failed change retired are listed, and it could read them. -/
theorem CommitSchemaFails.retired_read (h : t.Housed) (hall : t.All fun _ => True)
    (hfails : CommitSchemaFails env t t.schema after true s retired t')
    (hcaptured : s.Captured t.writer.file.committed.manifest) {id : SegmentId} (hid : id ∈ retired) :
    ∃ entry ∈ t.writer.file.committed.manifest.segments, entry.segmentId = id ∧
      ∃ data, segmentReader t.writer.file.io.file entry t.schema.layout = .ok data := by
  cases hfails with
  | @commit extent file pending io _ hschema hpending hcommit =>
      obtain ⟨entry, hentry, rfl⟩ := List.mem_map.mp hid
      obtain ⟨-, hdrafted⟩ := Drafted.beginSchema t.minActiveTxn h.roomy hschema
      have hstored : ∀ other ∈ s.liveSegments, ∃ data : SegmentData ν, other.Stores t.writer.file.io.file data ∧
          other.Stores file.io.file data := by
        intro other hother
        have hlisted := hcaptured.unchanged other hother
        obtain ⟨data, hstores, -⟩ := hall other hlisted
        exact ⟨data, hstores, h.stores_writeSchema hschema hlisted hstores⟩
      obtain ⟨hopens, -⟩ := convertSegments_rows hdrafted h.min_le (fun other hother =>
        ⟨hcaptured.unchanged other hother, (hstored other hother).imp fun _ hdata => hdata.2⟩) hpending
      obtain ⟨data, hdata⟩ := hopens entry hentry
      obtain ⟨data', hstores, hthere⟩ := hstored entry hentry
      refine ⟨entry, hcaptured.unchanged entry hentry, rfl, data, ?_⟩
      rw [← hdata, segmentReader, segmentReader, hstores.read, hthere.read]
  | landed => cases hid
  | refused => cases hid
  | schema => cases hid
  | convert => cases hid
  | rest => cases hid
  | keep hkeep => cases hkeep

theorem CastFails.keeps_iff (hrun : Alone env t) {name : String} {target : τ} {stop : CastStop}
    (hfails : CastFails env t name target stop t') :
    KeepsValues env t name target t' (some stop) ↔ CastSafe env t name target (some stop) := by
  have hwhole := hrun.whole
  cases hfails with
  | plan => exact ⟨fun _ => trivial, fun _ => ⟨rfl, rfl, rfl⟩⟩
  | flush _ h hshort =>
      obtain ⟨hschema, hmanifest, hrows⟩ := h.rows_iff hwhole hshort
      exact ⟨fun hkeeps => hrows.mp hkeeps.2.2, fun hnone => ⟨hschema, hmanifest, hrows.mpr hnone⟩⟩
  | truncate _ hlanded => exact ⟨fun hkeeps => hlanded.manifest hwhole.housed hkeeps.2.1, fun hfalse => hfalse.elim⟩
  | schema _ hflush _ =>
      constructor
      · intro hkeeps
        refine ⟨?_, fun id hid => nomatch hid⟩
        by_contra hsome
        exact flushLocked_manifest hwhole.housed hflush hsome hkeeps.2.1
      · rintro ⟨hempty, -⟩
        obtain ⟨-, rfl⟩ := (flushLocked_ok hflush).resolve_right fun ⟨_, _, hsome, _⟩ => hsome hempty
        exact ⟨rfl, rfl, rows_frozenWriter hwhole.tidy hempty⟩
  | @locked schema rows t₁ t₂ after retired _ hflush hafter h =>
      have hpinned := (hwhole.flushLocked hflush).pin
      have hschema := flushLocked_schema hflush
      have hrows := h.gaveUp.rows_iff hpinned
        (fun entry hentry => h.reads hpinned.housed (Manifest.mem_refs.mpr ⟨entry, hentry, .inl rfl⟩) _)
        fun id hid => h.retired_read hpinned.housed hpinned.all hpinned.housed.captured hid
      have hsame : t₂.schema = t₁.schema ∧
          t₂.writer.file.committed.manifest = t₁.writer.file.committed.manifest := by
        obtain ⟨io, rfl⟩ := h.gaveUp
        rw [Writer.forgetAll_eq]
        exact ⟨rfl, rfl⟩
      constructor
      · rintro ⟨-, hmanifest, hkept⟩
        have hempty : (t.frozen env).isEmpty := by
          by_contra hsome
          exact flushLocked_manifest hwhole.housed hflush hsome (hsame.2.symm.trans hmanifest)
        obtain ⟨-, rfl⟩ := (flushLocked_ok hflush).resolve_right fun ⟨_, _, hsome, _⟩ => hsome hempty
        refine ⟨hempty, hrows.mp ?_⟩
        exact hkept.trans (rows_frozenWriter hwhole.tidy hempty).symm
      · rintro ⟨hempty, hnone⟩
        obtain ⟨-, rfl⟩ := (flushLocked_ok hflush).resolve_right fun ⟨_, _, hsome, _⟩ => hsome hempty
        exact ⟨hsame.1, hsame.2, (hrows.mpr hnone).trans (rows_frozenWriter hwhole.tidy hempty)⟩

end Fails

/-- A column is given another type, and nothing is lost, exactly where the call is safe: if it returns Ok, each value of the
column that was there is there, cast; if it fails, the schema, the manifest and the rows are what they were. -/
theorem cast_column_keeps_values (hrun : Alone env t) {name : String} {target : τ} {outcome : Option CastStop}
    (h : CastReturns env t name target t' outcome) :
    KeepsValues env t name target t' outcome ↔ CastSafe env t name target outcome := by
  cases outcome with
  | none => exact forall₂_congr fun index field => forall₂_congr fun hindex hfield => castColumn_rel hrun hindex hfield h
  | some stop => exact CastFails.keeps_iff hrun h

section Narrowed

def numberSizes : JournalSizes LeafType (Option Int) where
  schema schema := 16 * schema.fields.length
  segment data := 8 * data.columns * data.rows.length

/-- Columns of numbers. A cast to eight bits makes a null of a number that does not fit. -/
def numberEnv : Env LeafType (Option Int) where
  options := plainOptions
  codec := numberedCodec [.insert 1 0 ⟨[.int32], [[some 7], [none]]⟩, .insert 1 0 ⟨[.int32], [[some 300], [some 7]]⟩]
  checksum bytes := bytes.foldl (fun sum byte => 31 * sum + UInt64.ofNat byte.toNat) 7
  schemaHash fields := fields.length
  null := none
  isNull := Option.isNone
  memorySize batch := 8 * batch.numRows
  worthBlocking _ := false
  isEncodable _ := true
  encodeValue _ value := .ok (leBytes (value.getD 0).toNat)
  canCast _ _ := true
  cast _ target value := .ok (if target = .int8 then value.filter fun number => -128 ≤ number ∧ number ≤ 127 else value)
  misread _ data := .ok data.rows
  sortUnstable _ rows := rows
  sortUnstable_perm _ rows := .refl rows
  drain ids := ids
  drain_perm ids := .refl ids

def numberSchema : Schema LeafType := ⟨[⟨"v", .int32, true⟩], []⟩

/-- A table of two rows in one segment, and its column cast to eight bits. -/
def castNumbers (rows : List (Row (Option Int))) :
    Except Error (Table (Journal numberSizes) × Table (Journal numberSizes)) := do
  let t₀ ← Table.create numberEnv (Journal numberSizes) numberSchema (fun _ => 0) (fun _ => []) none
  let (_, t₁) ← t₀.insertLocked numberEnv [⟨numberSchema.fields, rows⟩]
  let (_, t) ← t₁.flushLocked numberEnv
  if ¬(t₀.Undeleted ∧ t₁.Undeleted) then throw (.invalidArgument "deleted before")
  else
    let t' ← t.castColumn numberEnv "v" .int8
    return (t, t')

theorem castNumbers_ok {rows : List (Row (Option Int))} {t t' : Table (Journal numberSizes)}
    (h : castNumbers rows = .ok (t, t')) : Alone numberEnv t ∧ t.castColumn numberEnv "v" .int8 = .ok t' := by
  obtain ⟨t₀, hcreate, h⟩ := bind_eq_ok.mp h
  obtain ⟨⟨_, t₁⟩, hinsert, h⟩ := bind_eq_ok.mp h
  obtain ⟨⟨_, t₂⟩, hflush, h⟩ := bind_eq_ok.mp h
  obtain ⟨hundeleted, h⟩ := ite_throw_eq_ok.mp h
  obtain ⟨t₃, hcast, h⟩ := bind_eq_ok.mp h
  cases Except.ok.inj h
  obtain ⟨h₀, h₁⟩ := not_not.mp hundeleted
  have hcreated : Alone numberEnv t₀ := .create _ _ _ hcreate
  have hinserted := hcreated.step ⟨.insert _ hinsert, insertLocked_schema hinsert⟩ fun ids _ _ => h₀.safely ids
  exact ⟨hinserted.step ⟨.flush hflush, flushLocked_schema hflush⟩ fun ids _ _ => h₁.safely ids, hcast⟩

/-- A number that fits and a null. -/
theorem cast_numbers_that_fit : ∃ t t' : Table (Journal numberSizes), t.rows numberEnv = {[some 7], [none]} ∧
    CastReturns numberEnv t "v" .int8 t' none ∧ KeepsValues numberEnv t "v" .int8 t' none := by
  have hcheck : (match castNumbers [[some 7], [none]] with
      | .ok (t, _) => decide (t.schema.schema = numberSchema ∧ t.schema.clusterColumns = [] ∧
          t.rows numberEnv = {[some 7], [none]})
      | .error _ => false) = true := by decide +kernel
  cases hrun : castNumbers [[some 7], [none]] with
  | error e =>
      rw [hrun] at hcheck
      cases hcheck
  | ok result =>
      obtain ⟨t, t'⟩ := result
      rw [hrun] at hcheck
      obtain ⟨hschema, hcluster, hrows⟩ := of_decide_eq_true hcheck
      obtain ⟨halone, hcast⟩ := castNumbers_ok hrun
      have hreturns : CastReturns numberEnv t "v" .int8 t' none := hcast
      refine ⟨t, t', hrows, hreturns, (cast_column_keeps_values halone hreturns).mpr fun index field hindex hfield _ => ?_⟩
      refine ⟨⟨.inl hcluster, fun _ _ => .inl hcluster⟩, ?_⟩
      rw [hschema] at hindex
      obtain rfl : 0 = index := Option.some.inj hindex
      rintro - ⟨row, hrow, hsome, hlost⟩
      rw [hrows] at hrow
      rcases Multiset.mem_cons.mp hrow with rfl | hrow
      · exact absurd (hlost (some 7) rfl) (by decide)
      · rw [Multiset.mem_singleton.mp hrow] at hsome
        exact hsome rfl

/-- The cast of a number that does not fit returns Ok, with a null in the place of the number. -/
theorem cast_commits_null : ∃ t t' : Table (Journal numberSizes), Alone numberEnv t ∧
    CastReturns numberEnv t "v" .int8 t' none ∧ t.rows numberEnv = {[some 300], [some 7]} ∧
      t'.rows numberEnv = {[none], [some 7]} ∧ ¬KeepsValues numberEnv t "v" .int8 t' none := by
  have hcheck : (match castNumbers [[some 300], [some 7]] with
      | .ok (t, t') => decide (t.schema.schema = numberSchema ∧ t.rows numberEnv = {[some 300], [some 7]} ∧
          t'.rows numberEnv = {[none], [some 7]})
      | .error _ => false) = true := by decide +kernel
  cases hrun : castNumbers [[some 300], [some 7]] with
  | error e =>
      rw [hrun] at hcheck
      cases hcheck
  | ok result =>
      obtain ⟨t, t'⟩ := result
      rw [hrun] at hcheck
      obtain ⟨hschema, hbefore, hafter⟩ := of_decide_eq_true hcheck
      obtain ⟨halone, hcast⟩ := castNumbers_ok hrun
      refine ⟨t, t', halone, hcast, hbefore, hafter, fun hkeeps => ?_⟩
      have hrel := hkeeps 0 ⟨"v", .int32, true⟩ (by rw [hschema]; rfl) (by rw [hschema]; rfl)
      rw [hbefore] at hrel
      obtain ⟨row', -, hcasts⟩ := Multiset.exists_mem_of_rel_of_mem hrel (Multiset.mem_cons_self _ _)
      obtain ⟨hvalue, hsome⟩ := hcasts (by decide)
      have hnone : castValue numberEnv LeafType.int32 .int8 (some 300) = .ok none := rfl
      rw [← Except.ok.inj (hnone.symm.trans hvalue)] at hsome
      exact hsome rfl

end Narrowed

end Table

end LocalTables
