import LocalTables.Table.Read
import LocalTables.Table.Stored

/-! Segments and the schema in force. Adding and renaming columns keep the segments there are: what was a prefix of the
schema stays one. Dropping or casting a column writes every live row back under the new schema, and leaves the segments
without live rows as they are. -/

namespace LocalTables

variable {τ ν : Type} {M : Media τ ν}

section Layout

variable {env : Env τ ν} {schema : Schema τ}

/-- The fingerprint of the first columns of a schema. -/
def prefixHash (env : Env τ ν) (fields : List (Field τ)) (count : Nat) : Nat :=
  env.schemaHash ((fields.take count).zipIdx.map fun (field, index) => { field with name := toString index })

theorem schemaLayout_getElem? (count : Nat) : (schemaLayout env schema)[count]? =
    if count ≤ schema.fields.length then some (prefixHash env schema.fields count) else none := by
  rw [schemaLayout, List.getElem?_map]
  split
  · rw [List.getElem?_range (by omega)]
    rfl
  · rw [List.getElem?_eq_none (by rw [List.length_range]; omega)]
    rfl

theorem layoutAccepts_iff {columns fingerprint : Nat} : layoutAccepts (schemaLayout env schema) columns fingerprint = true ↔
    columns ≤ schema.fields.length ∧ prefixHash env schema.fields columns = fingerprint := by
  rw [layoutAccepts, schemaLayout_getElem?, beq_iff_eq]
  split
  · next hle => exact ⟨fun h => ⟨hle, Option.some.inj h⟩, fun h => congrArg some h.2⟩
  · next hgt => exact ⟨(nomatch ·), fun h => absurd h.1 hgt⟩

/-- What is built under a schema is read under it. -/
theorem layoutAccepts_current : layoutAccepts (schemaLayout env schema) schema.fields.length
    (layoutCurrent (schemaLayout env schema)) = true := by
  have hlast : (schemaLayout env schema).getLast? = some (prefixHash env schema.fields schema.fields.length) := by
    rw [List.getLast?_eq_getElem?, schemaLayout, List.length_map, List.length_range, ← schemaLayout, schemaLayout_getElem?,
      if_pos (Nat.le_of_eq (Nat.add_sub_cancel _ _)), Nat.add_sub_cancel]
  rw [layoutAccepts_iff, layoutCurrent, hlast]
  exact ⟨le_rfl, rfl⟩

theorem layoutAccepts_add {columns fingerprint : Nat} (field : Field τ)
    (h : layoutAccepts (schemaLayout env schema) columns fingerprint = true) :
    layoutAccepts (schemaLayout env (schemaWith schema (schema.fields ++ [field]))) columns fingerprint = true := by
  obtain ⟨hle, hhash⟩ := layoutAccepts_iff.mp h
  refine layoutAccepts_iff.mpr ⟨?_, ?_⟩
  · rw [schemaWith, List.length_append]
    omega
  · rw [← hhash, prefixHash, schemaWith, List.take_append_of_le_length hle]
    rfl

theorem layoutAccepts_rename {columns fingerprint : Nat} (index : Nat) (name : String)
    (h : layoutAccepts (schemaLayout env schema) columns fingerprint = true) :
    layoutAccepts (schemaLayout env (schemaWith schema (schema.fields.modify index fun field => { field with name := name })))
      columns fingerprint = true := by
  obtain ⟨hle, hhash⟩ := layoutAccepts_iff.mp h
  refine layoutAccepts_iff.mpr ⟨?_, ?_⟩
  · rw [schemaWith, List.length_modify]
    exact hle
  · rw [← hhash, prefixHash, prefixHash]
    congr 1
    refine List.ext_getElem? fun at_ => ?_
    simp only [schemaWith, List.getElem?_map, List.getElem?_zipIdx, List.getElem?_take, List.getElem?_modify]
    split
    · cases schema.fields[at_]? with
      | none => rfl
      | some field =>
          by_cases hat : index = at_
          · simp [hat]
          · simp [hat]
    · rfl

end Layout

section Plans

variable [DecidableEq τ] {env : Env τ ν} {current schema : Schema τ} {c : Change τ}

/-- A change that does not rewrite keeps what the layout took. -/
theorem plan_accepts (h : c.plan env current = .ok (some (schema, false))) {columns fingerprint : Nat}
    (haccepts : layoutAccepts (schemaLayout env current) columns fingerprint = true) :
    layoutAccepts (schemaLayout env schema) columns fingerprint = true := by
  cases c with
  | addColumn field =>
      obtain ⟨rfl, -⟩ := Prod.mk.inj (Option.some.inj (Table.plan_addColumn h))
      exact layoutAccepts_add field haccepts
  | renameColumn source target =>
      obtain ⟨index, -, hplanned⟩ := Table.plan_renameColumn h
      obtain ⟨rfl, -⟩ := Prod.mk.inj (Option.some.inj hplanned)
      exact layoutAccepts_rename index target haccepts
  | dropColumn name =>
      simp only [Change.plan] at h
      split at h
      · cases h
      · split at h
        · cases h
        · cases h
  | castColumn name target =>
      simp only [Change.plan] at h
      split at h
      · cases h
      · split at h
        · cases h
        · split at h
          · cases h
          · split at h
            · cases h
            · cases h

end Plans

namespace Table

variable {env : Env τ ν} {t t' : Table M}

/-- A segment without live rows is kept by a rewriting change, so it has to fit the new schema as it is. -/
def DeadFit [DecidableEq τ] (env : Env τ ν) (t : Table M) (schema : Schema τ) : Prop :=
  ∀ rows t₁, t.flushLocked env = .ok (rows, t₁) → ∀ entry ∈ t₁.current.manifest.segments, t₁.current.liveRowsIn entry = 0 →
    ∀ data, entry.Stores t₁.writer.file.io.file data →
      layoutAccepts (schemaLayout env schema) data.columns data.schemaFingerprint = true

/-- One call of one caller. `fits` says where a rewriting change may be made. -/
inductive Call [DecidableEq τ] (env : Env τ ν) (fits : Table M → Schema τ → Prop) : Table M → Table M → Prop where
  | op {t t' : Table M} (h : Op env t t') : Call env fits t t'
  | change {t t' : Table M} (c : Change τ)
      (hfits : ∀ schema, c.plan env t.schema.schema = .ok (some (schema, true)) → fits t schema)
      (h : t.change env c = .ok t') : Call env fits t t'

/-- A table after any calls of one caller. -/
inductive Called [DecidableEq τ] (env : Env τ ν) (fits : Table M → Schema τ → Prop) : Table M → Prop where
  | create {t : Table M} (schema : Schema τ) (fingerprint : Schema τ → Nat) (newTableUuid : Extent → List UInt8)
      (h : Table.create env M schema fingerprint newTableUuid none = .ok t) : Called env fits t
  | call {t t' : Table M} (hrun : Called env fits t) (hcall : Call env fits t t') : Called env fits t'

/-- Every segment of the table fits the schema in force. -/
structure Laid (env : Env τ ν) (t : Table M) : Prop where
  housed : t.Housed
  layout : t.schema.layout = schemaLayout env t.schema.schema
  accepted : t.All fun data => layoutAccepts (schemaLayout env t.schema.schema) data.columns data.schemaFingerprint = true

theorem Laid.built (h : t.Laid env) :
    t.Built fun data => layoutAccepts (schemaLayout env t.schema.schema) data.columns data.schemaFingerprint = true := by
  intro data hcolumns hfingerprint
  rw [hcolumns, hfingerprint, h.layout]
  exact layoutAccepts_current

theorem Laid.locked [DecidableEq τ] (h : t.Laid env) (hstep : Locked env t t') (hschema : t'.schema = t.schema) :
    t'.Laid env := by
  refine ⟨(Stirs.locked hstep).housed h.housed, by rw [hschema]; exact h.layout, ?_⟩
  rw [hschema]
  exact hstep.all h.accepted h.housed h.built

theorem All.mono {Q R : SegmentData ν → Prop} (h : t.All Q) (himp : ∀ data, Q data → R data) : t.All R := by
  intro entry hentry
  obtain ⟨data, hstores, hdata⟩ := h entry hentry
  exact ⟨data, hstores, himp data hdata⟩

/-- A segment that is not rewritten has no live rows. -/
theorem liveRowsIn_eq_zero {s : Snapshot τ ν} {entry : SegmentEntry} (hentry : entry ∈ s.manifest.segments)
    (hnot : entry.segmentId ∉ s.liveSegments.map SegmentEntry.segmentId) : s.liveRowsIn entry = 0 := by
  by_contra hlive
  exact hnot (List.mem_map_of_mem (List.mem_filter.mpr ⟨hentry, decide_eq_true (Nat.pos_of_ne_zero hlive)⟩))

theorem Laid.setSchema [DecidableEq τ] (h : t.Laid env) {schema : Schema τ} {rewrite : Bool}
    (hkeeps : rewrite = false → ∀ columns fingerprint,
      layoutAccepts (schemaLayout env t.schema.schema) columns fingerprint = true →
        layoutAccepts (schemaLayout env schema) columns fingerprint = true)
    (hfits : rewrite = true → DeadFit env t schema) (hok : t.setSchema env schema rewrite = .ok t') : t'.Laid env := by
  obtain ⟨⟨rows, t₁⟩, hflush, hok⟩ := bind_eq_ok.mp hok
  obtain ⟨after, hafter, hok⟩ := bind_eq_ok.mp hok
  obtain ⟨t₂, hset, hok⟩ := bind_eq_ok.mp hok
  obtain rfl := Except.ok.inj hok
  obtain ⟨hschema, hlayout⟩ := TableSchema.new_schema hafter
  have hflushed := flushLocked_schema hflush
  have h₁ := h.locked (.flush hflush) hflushed
  have hpinned := h₁.locked (.pin t₁) rfl
  have hafter₂ := setSchemaLocked_schema hset
  have hlayout₂ : t₂.schema.layout = schemaLayout env t₂.schema.schema := by rw [hafter₂, hlayout, hschema]
  have hhoused : t₂.Housed := hpinned.housed.shifts
    (hpinned.housed.setSchemaLocked (fun _ => hpinned.housed.captured) hset)
  have haccepted : t₂.All fun data =>
      layoutAccepts (schemaLayout env t₂.schema.schema) data.columns data.schemaFingerprint = true := by
    rw [hafter₂, hschema]
    cases rewrite with
    | false =>
        refine (hpinned.accepted.setSchemaLocked hpinned.housed hset).mono fun data hdata => hkeeps rfl _ _ ?_
        rw [← hflushed]
        exact hdata
    | true =>
        refine hpinned.housed.rewrites hpinned.housed.captured (fun entry hentry hnot => ?_) hset ?_
        · obtain ⟨data, hstores, -⟩ := h₁.accepted entry hentry
          have hlisted : entry ∈ t₁.current.manifest.segments := by
            rw [h₁.housed.synced.manifest]
            exact hentry
          exact ⟨data, hstores, hfits rfl rows t₁ hflush entry hlisted (liveRowsIn_eq_zero hlisted hnot) data hstores⟩
        · intro data hcolumns hfingerprint
          rw [hcolumns, hfingerprint, hafter₂, hlayout, hschema]
          exact layoutAccepts_current
  exact ⟨hhoused.unpin 0, hlayout₂, haccepted⟩

theorem Laid.change [DecidableEq τ] (h : t.Laid env) {c : Change τ}
    (hfits : ∀ schema, c.plan env t.schema.schema = .ok (some (schema, true)) → DeadFit env t schema)
    (hok : t.change env c = .ok t') : t'.Laid env := by
  rcases change_ok hok with ⟨-, rfl⟩ | ⟨schema, rewrite, hplan, hset⟩
  · exact h
  · refine h.setSchema (fun hfalse columns fingerprint => ?_) (fun htrue => hfits schema (htrue ▸ hplan)) hset
    rw [hfalse] at hplan
    exact plan_accepts hplan

theorem Laid.created [DecidableEq τ] {schema : Schema τ} {fingerprint : Schema τ → Nat}
    {newTableUuid : Extent → List UInt8} (h : Table.create env M schema fingerprint newTableUuid none = .ok t) :
    t.Laid env := by
  have hhoused := (create_isolated h).housed
  obtain ⟨file, seed, current, -, hfresh, hcurrent, rfl⟩ := create_ok h
  obtain ⟨hschema, hlayout⟩ := TableSchema.new_schema hcurrent
  refine ⟨hhoused, ?_, fun entry hentry => ?_⟩
  · change current.layout = schemaLayout env current.schema
    rw [hlayout, hschema]
  · change entry ∈ file.committed.manifest.segments at hentry
    rw [hfresh.manifest] at hentry
    cases hentry

theorem Called.laid [DecidableEq τ] (hrun : Called env (DeadFit env) t) : t.Laid env := by
  induction hrun with
  | create schema fingerprint newTableUuid h => exact .created h
  | @call t t' _ hcall ih =>
      cases hcall with
      | op h =>
          rcases h.still with hchain | ⟨c, hplan, h⟩
          · clear h
            induction hchain with
            | refl => exact ih
            | tail _ hstep ih => exact ih.locked hstep.1 hstep.2
          · exact ih.change (fun schema hrewrite => absurd hrewrite (hplan schema)) h
      | change c hfits h => exact ih.change hfits h

/-- Every segment listed opens under the schema in force, if every segment that a rewriting change leaves behind without
a live row fits the new schema. -/
theorem listed_segments_open [DecidableEq τ] (hrun : Called env (DeadFit env) t) :
    t.schema.layout = schemaLayout env t.schema.schema ∧ ∀ entry ∈ t.current.manifest.segments,
      ∃ data, segmentReader t.writer.file.io.file entry t.schema.layout = .ok data ∧ data.rows.length = entry.rowCount := by
  have h := hrun.laid
  refine ⟨h.layout, fun entry hentry => ?_⟩
  rw [h.housed.synced.manifest] at hentry
  obtain ⟨data, hstores, haccepts⟩ := h.accepted entry hentry
  rw [← h.layout] at haccepts
  exact ⟨data, segmentReader_eq_ok hstores.read haccepts, hstores.rows⟩

end Table

section Dead

def wideSchema : Schema Unit := ⟨[⟨"a", (), true⟩, ⟨"b", (), true⟩], []⟩

def layoutEnv : Env Unit Nat :=
  plainEnv plainOptions [.insert 1 0 ⟨[(), ()], [[1, 2]]⟩, .delete 2 [⟨0, {0}⟩] []]

/-- A row is flushed into a segment; then `middle` happens, and the first column is dropped. -/
def dropAfter (middle : PlainTable → Except Error (Nat × PlainTable)) :
    Except Error (PlainTable × PlainTable × PlainTable × PlainTable × PlainTable) := do
  let t₀ ← Table.create layoutEnv (Journal plainSizes) wideSchema (fun _ => 0) (fun _ => []) none
  let (_, t₁) ← t₀.insert layoutEnv [⟨wideSchema.fields, [[1, 2]]⟩]
  let (_, t₂) ← t₁.flushLocked layoutEnv
  let (_, t₃) ← middle t₂
  let t₄ ← t₃.dropColumn layoutEnv "a"
  return (t₀, t₁, t₂, t₃, t₄)

/-- Whether every listed segment opens under the schema in force. -/
def allOpen (t : PlainTable) : Bool :=
  t.current.manifest.segments.all fun entry =>
    match segmentReader t.writer.file.io.file entry t.schema.layout with
    | .ok _ => true
    | .error _ => false

theorem allOpen_iff {t : PlainTable} : allOpen t = true ↔ ∀ entry ∈ t.current.manifest.segments,
    ∃ data, segmentReader t.writer.file.io.file entry t.schema.layout = .ok data := by
  rw [allOpen, List.all_eq_true]
  refine forall₂_congr fun entry _ => ?_
  split
  · next data hdata => exact ⟨fun _ => ⟨data, hdata⟩, fun _ => rfl⟩
  · next error hfails =>
      refine ⟨(nomatch ·), fun ⟨data, hdata⟩ => ?_⟩
      rw [hfails] at hdata
      cases hdata

theorem dropAfter_called {middle : PlainTable → Except Error (Nat × PlainTable)} {t₀ t₁ t₂ t₃ t : PlainTable}
    (h : dropAfter middle = .ok (t₀, t₁, t₂, t₃, t)) {fits : PlainTable → Schema Unit → Prop}
    (hmiddle : ∀ rows, middle t₂ = .ok (rows, t₃) → Table.Op layoutEnv t₂ t₃)
    (hfits : ∀ schema, (Change.dropColumn "a").plan layoutEnv t₃.schema.schema = .ok (some (schema, true)) → fits t₃ schema) :
    Table.Called layoutEnv fits t := by
  obtain ⟨t₀', hcreate, h⟩ := bind_eq_ok.mp h
  obtain ⟨⟨rows₁, t₁'⟩, hinsert, h⟩ := bind_eq_ok.mp h
  obtain ⟨⟨rows₂, t₂'⟩, hflush, h⟩ := bind_eq_ok.mp h
  obtain ⟨⟨rows₃, t₃'⟩, hbetween, h⟩ := bind_eq_ok.mp h
  obtain ⟨t₄, hdrop, h⟩ := bind_eq_ok.mp h
  simp only [pure, Except.pure, Except.ok.injEq, Prod.mk.injEq] at h
  obtain ⟨rfl, rfl, rfl, rfl, rfl⟩ := h
  have hflushed : Table.Called layoutEnv fits t₂' :=
    .call (.call (.create _ _ _ hcreate) (.op (.insert _ hinsert))) (.op (.flush hflush))
  exact .call (.call hflushed (.op (hmiddle rows₃ hbetween))) (.change (.dropColumn "a") hfits hdrop)

/-- The row is live when the column goes, so its segment is written anew. -/
theorem live_segment_rewritten : ∃ t : PlainTable, t.schema.schema.fields.length = 1 ∧
    t.current.manifest.segments.length = 1 ∧ t.schema.layout = schemaLayout layoutEnv t.schema.schema ∧
    ∀ entry ∈ t.current.manifest.segments, ∃ data,
      segmentReader t.writer.file.io.file entry t.schema.layout = .ok data ∧ data.rows.length = entry.rowCount := by
  have hcheck : (match dropAfter (fun t => t.flushLocked layoutEnv) with
      | .ok (_, _, _, t₃, t) => decide (t.schema.schema.fields.length = 1 ∧ t.current.manifest.segments.length = 1) &&
          match t₃.flushLocked layoutEnv with
          | .ok (_, t₁) => decide (∀ entry ∈ t₁.current.manifest.segments, t₁.current.liveRowsIn entry ≠ 0)
          | .error _ => false
      | .error _ => false) = true := by decide +kernel
  cases hrun : dropAfter (fun t => t.flushLocked layoutEnv) with
  | error e => rw [hrun] at hcheck; cases hcheck
  | ok result =>
      obtain ⟨t₀, t₁, t₂, t₃, t⟩ := result
      rw [hrun] at hcheck
      obtain ⟨hcheck, hlive⟩ := Bool.and_eq_true_iff.mp hcheck
      obtain ⟨hfields, hsegments⟩ := of_decide_eq_true hcheck
      have hfit : ∀ schema, Table.DeadFit layoutEnv t₃ schema := by
        intro schema rows t₄ hflush entry hentry hdead
        rw [hflush] at hlive
        exact absurd hdead (of_decide_eq_true hlive entry hentry)
      exact ⟨t, hfields, hsegments,
        Table.listed_segments_open (dropAfter_called hrun (fun _ hflush => .flush hflush) fun schema _ => hfit schema)⟩

/-- The row is deleted before the column goes: its segment stays listed as it is, and opens no more. -/
theorem dead_segment_left_behind : ∃ t : PlainTable, Table.Called layoutEnv (fun _ _ => True) t ∧
    t.schema.layout = schemaLayout layoutEnv t.schema.schema ∧
    ¬∀ entry ∈ t.current.manifest.segments, ∃ data,
      segmentReader t.writer.file.io.file entry t.schema.layout = .ok data := by
  have hcheck : (match dropAfter (fun t => t.delete layoutEnv [(0, [0])] []) with
      | .ok (_, _, _, _, t) => decide (t.schema.layout = schemaLayout layoutEnv t.schema.schema) && !allOpen t
      | .error _ => false) = true := by decide +kernel
  cases hrun : dropAfter (fun t => t.delete layoutEnv [(0, [0])] []) with
  | error e => rw [hrun] at hcheck; cases hcheck
  | ok result =>
      obtain ⟨t₀, t₁, t₂, t₃, t⟩ := result
      rw [hrun] at hcheck
      obtain ⟨hlayout, hopen⟩ := Bool.and_eq_true_iff.mp hcheck
      refine ⟨t, dropAfter_called hrun (fun _ hdelete => .delete _ _ hdelete) fun _ _ => trivial,
        of_decide_eq_true hlayout, fun hall => ?_⟩
      rw [allOpen_iff.mpr hall] at hopen
      cases hopen

end Dead

end LocalTables
