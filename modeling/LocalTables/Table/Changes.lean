import LocalTables.Table.Isolation

/-! Schema changes made by several callers at once. A change reads the schema, flushes, captures what it will
rewrite and only then takes the lock to commit, so the steps of two changes can fall between each other. The
new schema comes from the one that was read. -/

namespace LocalTables

variable {τ ν : Type} {M : Media τ ν}

namespace Change

variable [DecidableEq τ] (env : Env τ ν)

/-- The schema after the change, made on its own. -/
def applyTo (c : Change τ) (current : Schema τ) : Except Error (Schema τ) := do
  match ← c.plan env current with
  | none => return current
  | some (schema, _) => return schema

end Change

/-- How far a call has come. `seen` is the schema it read. -/
inductive Stage (τ ν : Type) where
  | idle
  | planned (seen schema : Schema τ) (rewrite : Bool)
  | flushed (seen schema : Schema τ) (rewrite : Bool)
  | captured (seen : Schema τ) (before after : TableSchema τ) (rewrite : Bool) (s : Snapshot τ ν)
  | done

/-- One step of a call. -/
inductive Change.Step [DecidableEq τ] (env : Env τ ν) (c : Change τ) :
    Table M → Stage τ ν → Table M → Stage τ ν → Prop where
  | skip {t : Table M} (h : c.plan env t.schema.schema = .ok none) : Step env c t .idle t .done
  | plan {t : Table M} {schema : Schema τ} {rewrite : Bool}
      (h : c.plan env t.schema.schema = .ok (some (schema, rewrite))) :
      Step env c t .idle t (.planned t.schema.schema schema rewrite)
  | flush {t t' : Table M} {seen schema : Schema τ} {rewrite : Bool} {rows : Nat}
      (h : t.flushLocked env = .ok (rows, t')) :
      Step env c t (.planned seen schema rewrite) t' (.flushed seen schema rewrite)
  | capture {t : Table M} {seen schema : Schema τ} {rewrite : Bool} {after : TableSchema τ}
      (h : TableSchema.new env schema = .ok after) :
      Step env c t (.flushed seen schema rewrite) t.pin (.captured seen t.schema after rewrite t.current)
  | commit {t t' : Table M} {seen : Schema τ} {before after : TableSchema τ} {rewrite : Bool} {s : Snapshot τ ν}
      {index : Nat} (h : t.setSchemaLocked env before after rewrite s = .ok t') (hpin : t'.pins[index]? = some s) :
      Step env c t (.captured seen before after rewrite s) (t'.unpin index) .done

/-- The schema a call is about to commit was worked out from the one in force. -/
def Stage.Current (t : Table M) : Stage τ ν → Prop
  | captured seen _ _ _ _ => t.schema.schema = seen
  | _ => True

/-- Two calls, step by step in any order. `fresh` restricts the states a call may take a step from. -/
inductive Interleaved [DecidableEq τ] (env : Env τ ν) (fresh : Table M → Stage τ ν → Prop) (c d : Change τ)
    (t₀ : Table M) : Table M → Stage τ ν → Stage τ ν → Prop where
  | start : Interleaved env fresh c d t₀ t₀ .idle .idle
  | left {t t' : Table M} {a a' b : Stage τ ν} (hrun : Interleaved env fresh c d t₀ t a b) (hfresh : fresh t a)
      (hstep : c.Step env t a t' a') : Interleaved env fresh c d t₀ t' a' b
  | right {t t' : Table M} {a b b' : Stage τ ν} (hrun : Interleaved env fresh c d t₀ t a b) (hfresh : fresh t b)
      (hstep : d.Step env t b t' b') : Interleaved env fresh c d t₀ t' a b'

section Serial

variable [DecidableEq τ] {env : Env τ ν} {c d : Change τ} {t₀ t t' : Table M} {a a' b : Stage τ ν}

/-- What a stage knows: the change planned from the schema it read. -/
def Stage.Planned (env : Env τ ν) (c : Change τ) : Stage τ ν → Prop
  | idle => True
  | planned seen schema _ => c.applyTo env seen = .ok schema
  | flushed seen schema _ => c.applyTo env seen = .ok schema
  | captured seen _ after _ _ => c.applyTo env seen = .ok after.schema
  | done => True

theorem Change.applyTo_plan {current schema : Schema τ} {rewrite : Bool}
    (h : c.plan env current = .ok (some (schema, rewrite))) : c.applyTo env current = .ok schema := by
  rw [Change.applyTo, h]
  rfl

/-- A step of a call leaves the schema alone and the call unfinished, or finishes the call by applying it to
the schema in force. -/
theorem Change.Step.applied (hstep : c.Step env t a t' a') (hplanned : a.Planned env c) (hcurrent : a.Current t) :
    a ≠ .done ∧ a'.Planned env c ∧ (a' ≠ .done ∧ t'.schema = t.schema ∨
      a' = .done ∧ c.applyTo env t.schema.schema = .ok t'.schema.schema) := by
  cases hstep with
  | skip h =>
      refine ⟨by simp, trivial, .inr ⟨rfl, ?_⟩⟩
      rw [Change.applyTo, h]
      rfl
  | plan h => exact ⟨by simp, applyTo_plan h, .inl ⟨by simp, rfl⟩⟩
  | flush h => exact ⟨by simp, hplanned, .inl ⟨by simp, Table.flushLocked_schema h⟩⟩
  | @capture seen schema rewrite after h =>
      refine ⟨by simp, ?_, .inl ⟨by simp, rfl⟩⟩
      change c.applyTo env seen = .ok after.schema
      rw [(TableSchema.new_schema h).1]
      exact hplanned
  | @commit t' seen before after rewrite s index h hpin =>
      refine ⟨by simp, trivial, .inr ⟨rfl, ?_⟩⟩
      change c.applyTo env t.schema.schema = .ok t'.schema.schema
      change t.schema.schema = seen at hcurrent
      rw [Table.setSchemaLocked_schema h, hcurrent]
      exact hplanned

/-- Where the schema stands, by which of the calls are over. -/
structure Serial (env : Env τ ν) (c d : Change τ) (first current : Schema τ) (a b : Stage τ ν) : Prop where
  left : a.Planned env c
  right : b.Planned env d
  neither : a ≠ .done → b ≠ .done → current = first
  onlyLeft : a = .done → b ≠ .done → c.applyTo env first = .ok current
  onlyRight : a ≠ .done → b = .done → d.applyTo env first = .ok current
  both : a = .done → b = .done → (∃ mid, c.applyTo env first = .ok mid ∧ d.applyTo env mid = .ok current) ∨
    ∃ mid, d.applyTo env first = .ok mid ∧ c.applyTo env mid = .ok current

theorem Serial.swap {first current : Schema τ} (h : Serial env c d first current a b) :
    Serial env d c first current b a :=
  ⟨h.right, h.left, fun hb ha => h.neither ha hb, fun hb ha => h.onlyRight ha hb, fun hb ha => h.onlyLeft ha hb,
    fun hb ha => (h.both ha hb).symm⟩

theorem Serial.step {first : Schema τ} (h : Serial env c d first t.schema.schema a b) (hstep : c.Step env t a t' a')
    (hcurrent : a.Current t) : Serial env c d first t'.schema.schema a' b := by
  obtain ⟨hbusy, hplanned, ⟨hopen, hschema⟩ | ⟨rfl, happlied⟩⟩ := hstep.applied h.left hcurrent
  · rw [hschema]
    exact ⟨hplanned, h.right, fun _ hb => h.neither hbusy hb, fun ha => absurd ha hopen,
      fun _ hb => h.onlyRight hbusy hb, fun ha => absurd ha hopen⟩
  · refine ⟨hplanned, h.right, fun ha => absurd rfl ha, fun _ hb => ?_, fun ha => absurd rfl ha, fun _ hb => ?_⟩
    · rw [← h.neither hbusy hb]
      exact happlied
    · exact .inr ⟨_, h.onlyRight hbusy hb, happlied⟩

/-- No schema change is lost when each call commits over the schema it read: once both calls have returned,
the schema is the one both changes give one after the other. -/
theorem schema_changes_not_lost (hrun : Interleaved env Stage.Current c d t₀ t .done .done) :
    (∃ mid, c.applyTo env t₀.schema.schema = .ok mid ∧ d.applyTo env mid = .ok t.schema.schema) ∨
      ∃ mid, d.applyTo env t₀.schema.schema = .ok mid ∧ c.applyTo env mid = .ok t.schema.schema := by
  have hserial : ∀ {t : Table M} {a b : Stage τ ν}, Interleaved env Stage.Current c d t₀ t a b →
      Serial env c d t₀.schema.schema t.schema.schema a b := by
    intro t a b hrun
    induction hrun with
    | start => exact ⟨trivial, trivial, fun _ _ => rfl, by simp, by simp, by simp⟩
    | left _ hfresh hstep ih => exact ih.step hstep hfresh
    | right _ hfresh hstep ih => exact (ih.swap.step hstep hfresh).swap
  exact (hserial hrun).both rfl rfl

end Serial

section Lost

def changeEnv : Env Unit Nat := plainEnv plainOptions []

/-- A new table of plain values. -/
def emptyTable : Except Error PlainTable :=
  Table.create changeEnv (Journal plainSizes) plainSchema (fun _ => 0) (fun _ => []) none

def columnX : Change Unit := .addColumn ⟨"x", (), true⟩

def columnY : Change Unit := .addColumn ⟨"y", (), true⟩

/-- The plain schema with more columns. -/
def widened (names : List String) : Schema Unit :=
  ⟨plainSchema.fields ++ names.map fun name => ⟨name, (), true⟩, plainSchema.metadata⟩

/-- Two columns are added at once: both calls read the schema before either commits. -/
def lostRun : Except Error (PlainTable × PlainTable) := do
  let t₀ ← emptyTable
  let (_, t₁) ← t₀.flushLocked changeEnv
  let (_, t₂) ← t₁.flushLocked changeEnv
  let x ← TableSchema.new changeEnv (widened ["x"])
  let y ← TableSchema.new changeEnv (widened ["y"])
  let t₃ ← t₂.pin.pin.setSchemaLocked changeEnv t₂.schema x false t₂.current
  let t₄ ← (t₃.unpin 1).setSchemaLocked changeEnv t₂.schema y false t₂.current
  return (t₀, t₄.unpin 0)

/-- The second call reads the schema once the first has committed. -/
def serialRun : Except Error (PlainTable × PlainTable × PlainTable × PlainTable) := do
  let t₀ ← emptyTable
  let (_, t₁) ← t₀.flushLocked changeEnv
  let x ← TableSchema.new changeEnv (widened ["x"])
  let t₂ ← t₁.pin.setSchemaLocked changeEnv t₁.schema x false t₁.current
  let (_, t₃) ← (t₂.unpin 0).flushLocked changeEnv
  let y ← TableSchema.new changeEnv (widened ["x", "y"])
  let t₄ ← t₃.pin.setSchemaLocked changeEnv t₃.schema y false t₃.current
  return (t₀, t₂, t₃, t₄.unpin 0)

theorem both_columns_added : ∃ t₀ t : PlainTable, emptyTable = .ok t₀ ∧ t.schema.schema = widened ["x", "y"] ∧
    ((∃ mid, columnX.applyTo changeEnv t₀.schema.schema = .ok mid ∧ columnY.applyTo changeEnv mid = .ok t.schema.schema) ∨
      ∃ mid, columnY.applyTo changeEnv t₀.schema.schema = .ok mid ∧ columnX.applyTo changeEnv mid = .ok t.schema.schema) := by
  have hcheck : (match serialRun with
      | .ok (t₀, t₂, t₃, t) => decide (t₀.schema.schema = plainSchema ∧ t₂.schema.schema = widened ["x"] ∧
          t₃.schema.schema = widened ["x"] ∧ t.schema.schema = widened ["x", "y"])
      | .error _ => false) = true := by decide +kernel
  cases hrun : serialRun with
  | error e => rw [hrun] at hcheck; cases hcheck
  | ok result =>
      obtain ⟨t₀, t₂, t₃, t⟩ := result
      rw [hrun] at hcheck
      obtain ⟨hfirst, hsecond, hthird, hlast⟩ := of_decide_eq_true hcheck
      obtain ⟨t₀', hempty, hrun⟩ := bind_eq_ok.mp hrun
      obtain ⟨⟨_, t₁⟩, hflush, hrun⟩ := bind_eq_ok.mp hrun
      obtain ⟨x, hx, hrun⟩ := bind_eq_ok.mp hrun
      obtain ⟨t₂', hcommit, hrun⟩ := bind_eq_ok.mp hrun
      obtain ⟨⟨_, t₃'⟩, hagain, hrun⟩ := bind_eq_ok.mp hrun
      obtain ⟨y, hy, hrun⟩ := bind_eq_ok.mp hrun
      obtain ⟨t₄, hlater, hrun⟩ := bind_eq_ok.mp hrun
      simp only [pure, Except.pure, Except.ok.injEq, Prod.mk.injEq] at hrun
      obtain ⟨rfl, rfl, rfl, rfl⟩ := hrun
      have hplanX : columnX.plan changeEnv t₀'.schema.schema = .ok (some (widened ["x"], false)) := by
        rw [hfirst]
        decide
      have hplanY : columnY.plan changeEnv (t₂'.unpin 0).schema.schema = .ok (some (widened ["x", "y"], false)) := by
        change columnY.plan changeEnv t₂'.schema.schema = _
        rw [hsecond]
        decide
      refine ⟨t₀', t₄.unpin 0, hempty, hlast, schema_changes_not_lost ?_⟩
      have hleft : Interleaved changeEnv Stage.Current columnX columnY t₀' (t₂'.unpin 0) .done .idle := by
        refine .left (.left (.left (.left .start trivial (.plan hplanX)) trivial (.flush hflush)) trivial (.capture hx))
          ?_ (.commit hcommit ?_)
        · change t₁.schema.schema = t₀'.schema.schema
          rw [Table.flushLocked_schema hflush]
        · rw [Table.setSchemaLocked_pins hcommit]
          rfl
      refine .right (.right (.right (.right hleft trivial (.plan hplanY)) trivial (.flush hagain)) trivial (.capture hy))
        ?_ (.commit hlater ?_)
      · change t₃'.schema.schema = t₂'.schema.schema
        rw [hthird, hsecond]
      · rw [Table.setSchemaLocked_pins hlater]
        rfl

/-- Both calls return, and the column of the one that committed first is gone. -/
theorem added_column_lost : ∃ t₀ t : PlainTable, emptyTable = .ok t₀ ∧
    Interleaved changeEnv (fun _ _ => True) columnX columnY t₀ t .done .done ∧
    ¬((∃ mid, columnX.applyTo changeEnv t₀.schema.schema = .ok mid ∧ columnY.applyTo changeEnv mid = .ok t.schema.schema) ∨
      ∃ mid, columnY.applyTo changeEnv t₀.schema.schema = .ok mid ∧ columnX.applyTo changeEnv mid = .ok t.schema.schema) := by
  have hcheck : (match lostRun with
      | .ok (t₀, t) => decide (t₀.schema.schema = plainSchema ∧ t.schema.schema = widened ["y"])
      | .error _ => false) = true := by decide +kernel
  cases hrun : lostRun with
  | error e => rw [hrun] at hcheck; cases hcheck
  | ok result =>
      obtain ⟨t₀, t⟩ := result
      rw [hrun] at hcheck
      obtain ⟨hfirst, hlast⟩ := of_decide_eq_true hcheck
      obtain ⟨t₀', hempty, hrun⟩ := bind_eq_ok.mp hrun
      obtain ⟨⟨_, t₁⟩, hflush, hrun⟩ := bind_eq_ok.mp hrun
      obtain ⟨⟨_, t₂⟩, hagain, hrun⟩ := bind_eq_ok.mp hrun
      obtain ⟨x, hx, hrun⟩ := bind_eq_ok.mp hrun
      obtain ⟨y, hy, hrun⟩ := bind_eq_ok.mp hrun
      obtain ⟨t₃, hcommit, hrun⟩ := bind_eq_ok.mp hrun
      obtain ⟨t₄, hlater, hrun⟩ := bind_eq_ok.mp hrun
      obtain ⟨rfl, rfl⟩ := Prod.mk.inj (Except.ok.inj hrun)
      have hplanX : columnX.plan changeEnv t₀'.schema.schema = .ok (some (widened ["x"], false)) := by
        rw [hfirst]
        decide
      have hplanY : columnY.plan changeEnv t₀'.schema.schema = .ok (some (widened ["y"], false)) := by
        rw [hfirst]
        decide
      refine ⟨t₀', t₄.unpin 0, hempty, ?_, ?_⟩
      · have hplanned : Interleaved changeEnv (fun _ _ => True) columnX columnY t₀' t₀'
            (.planned t₀'.schema.schema (widened ["x"]) false) (.planned t₀'.schema.schema (widened ["y"]) false) :=
          .right (.left .start trivial (.plan hplanX)) trivial (.plan hplanY)
        have hcaptured : Interleaved changeEnv (fun _ _ => True) columnX columnY t₀' t₂.pin.pin
            (.captured t₀'.schema.schema t₂.schema x false t₂.current)
            (.captured t₀'.schema.schema t₂.schema y false t₂.current) :=
          .right (.left (.right (.left hplanned trivial (.flush hflush)) trivial (.flush hagain)) trivial (.capture hx))
            trivial (.capture (t := t₂.pin) hy)
        refine .right (.left hcaptured trivial (.commit hcommit ?_)) trivial (.commit hlater ?_)
        · rw [Table.setSchemaLocked_pins hcommit]
          rfl
        · rw [Table.setSchemaLocked_pins hlater]
          change (t₃.pins.eraseIdx 1)[0]? = _
          rw [Table.setSchemaLocked_pins hcommit]
          rfl
      · rw [hfirst, hlast]
        rintro (⟨mid, hmid, hboth⟩ | ⟨mid, hmid, hboth⟩)
        · have hx' : columnX.applyTo changeEnv plainSchema = .ok (widened ["x"]) := by decide
          obtain rfl := Except.ok.inj (hx'.symm.trans hmid)
          exact absurd hboth (by decide)
        · have hy' : columnY.applyTo changeEnv plainSchema = .ok (widened ["y"]) := by decide
          obtain rfl := Except.ok.inj (hy'.symm.trans hmid)
          exact absurd hboth (by decide)

end Lost

end LocalTables
