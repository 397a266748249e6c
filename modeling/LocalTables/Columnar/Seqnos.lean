import LocalTables.Columnar.Memtable
import LocalTables.Lib.Panics

/-! Sequence numbers over the life of a memtable: what the calls on it do to them, and how long the numbers an insert hands out
name its rows. -/

namespace LocalTables

variable {τ ν : Type}

namespace Memtable

/-- Coalesce small batches once there are more than this many. -/
def coalesceThreshold : Nat := 256

/-- Words of 64 bits. -/
def wordLimit : Nat := 2 ^ 64

/-- Arrow's `concat_batches`. -/
abbrev ConcatBatches (τ ν : Type) := Schema τ → List (RecordBatch τ ν) → Except Error (RecordBatch τ ν)

section Calls

variable (env : Env τ ν) (concat : ConcatBatches τ ν) (m : Memtable τ ν)

/-- All rows in one chunk, under the next numbers. -/
def renumber (merged : RecordBatch τ ν) : Outcome Error (Memtable τ ν) := do
  let nextSeqno ← Outcome.add wordLimit m.nextSeqno merged.numRows
  return { m with
    nextSeqno := nextSeqno
    bytes := env.memorySize merged
    rows := merged.numRows
    tombstones := ∅
    chunks := [⟨m.nextSeqno, merged⟩] }

/-- Merge the held batches into one, dropping deleted rows. -/
def coalesce : Outcome Error (Memtable τ ν) :=
  match m.batches with
  | [] => return { m with chunks := [], tombstones := ∅, bytes := 0, rows := 0 }
  | [batch] => m.renumber env batch
  | batches =>
      match concat m.schema batches with
      | .ok merged => m.renumber env merged
      -- what cannot be joined is left as it stands
      | .error _ => return m

/-- Several batches that Arrow cannot join: coalescing leaves them. -/
def Unjoined (schema : Schema τ) (batches : List (RecordBatch τ ν)) : Prop :=
  1 < batches.length ∧ (concat schema batches).isOk = false

/-- Add a batch under given numbers, in the arithmetic of the machine. -/
def push (baseSeqno : Nat) (batch : RecordBatch τ ν) : Outcome Error (Memtable τ ν) := do
  let bytes ← Outcome.add wordLimit m.bytes (env.memorySize batch)
  let rows ← Outcome.add wordLimit m.rows batch.numRows
  let stop ← Outcome.add wordLimit baseSeqno batch.numRows
  return { m with
    bytes := bytes
    rows := rows
    nextSeqno := max m.nextSeqno stop
    chunks := m.chunks ++ [⟨baseSeqno, batch⟩] }

/-- Add a batch, and return the sequence number of its first row. -/
def insert (batch : RecordBatch τ ν) : Outcome Error (Nat × Memtable τ ν) :=
  if batch.numRows = 0 then return (m.nextSeqno, m)
  else do
    let pushed ← m.push env m.nextSeqno batch
    if pushed.chunks.length > coalesceThreshold then do
      let coalesced ← pushed.coalesce env concat
      return (m.nextSeqno, coalesced)
    else return (m.nextSeqno, pushed)

/-- The calls that change a memtable. -/
inductive Call (τ ν : Type) where
  | insert (batch : RecordBatch τ ν)
  | insertAt (baseSeqno : Nat) (batch : RecordBatch τ ν)
  | delete (seqnos : List Nat)
  | coalesce
  | freeze

/-- What a call returns that returns a number, and the memtable it leaves. -/
def call : Call τ ν → Outcome Error (Nat × Memtable τ ν)
  | .insert batch => m.insert env concat batch
  | .insertAt baseSeqno batch =>
      if batch.numRows = 0 then return (0, m)
      else do
        let pushed ← m.push env baseSeqno batch
        return (0, pushed)
  | .delete seqnos => return m.delete seqnos
  | .coalesce => do
      let coalesced ← m.coalesce env concat
      return (0, coalesced)
  | .freeze => return (0, m.freeze.2)

/-- The memtables that calls lead to. Rows read back from the log are inserted at numbers that are not handed out yet. -/
inductive Reachable (schema : Schema τ) (first : Nat) : Memtable τ ν → Prop where
  | new : Reachable schema first (new schema first)
  | step {m m' : Memtable τ ν} {c : Call τ ν} {n : Nat} (h : Reachable schema first m)
      (hbase : ∀ baseSeqno batch, c = .insertAt baseSeqno batch → m.nextSeqno ≤ baseSeqno)
      (hcall : m.call env concat c = .ok (n, m')) : Reachable schema first m'

end Calls

section Wf

variable {env : Env τ ν} {concat : ConcatBatches τ ν} {m m' : Memtable τ ν}

/-- Where no sum leaves the words of the machine, a batch is added as it is inserted at its numbers. -/
theorem push_ok {baseSeqno : Nat} {batch : RecordBatch τ ν} (hrows : batch.numRows ≠ 0)
    (h : m.push env baseSeqno batch = .ok m') : m' = m.insertAt env baseSeqno batch := by
  unfold push at h
  obtain ⟨bytes, hbytes, h⟩ := bind_eq_ok.mp h
  obtain ⟨rows, hrowsEq, h⟩ := bind_eq_ok.mp h
  obtain ⟨stop, hstop, h⟩ := bind_eq_ok.mp h
  obtain ⟨-, rfl⟩ := Outcome.add_eq_ok.mp hbytes
  obtain ⟨-, rfl⟩ := Outcome.add_eq_ok.mp hrowsEq
  obtain ⟨-, rfl⟩ := Outcome.add_eq_ok.mp hstop
  rw [insertAt, if_neg hrows]
  exact (Except.ok.inj h).symm

theorem renumber_ok {merged : RecordBatch τ ν} (h : m.renumber env merged = .ok m') :
    m' = ⟨m.schema, [⟨m.nextSeqno, merged⟩], ∅, m.nextSeqno + merged.numRows, env.memorySize merged, merged.numRows⟩ := by
  unfold renumber at h
  obtain ⟨next, hnext, h⟩ := bind_eq_ok.mp h
  obtain ⟨-, rfl⟩ := Outcome.add_eq_ok.mp hnext
  exact (Except.ok.inj h).symm

/-- Coalescing empties the memtable, or puts all there is under the next numbers, or leaves what cannot be joined. -/
theorem coalesce_ok (h : m.coalesce env concat = .ok m') :
    m' = { m with chunks := [], tombstones := ∅, bytes := 0, rows := 0 } ∨
      (∃ merged, m' = ⟨m.schema, [⟨m.nextSeqno, merged⟩], ∅, m.nextSeqno + merged.numRows, env.memorySize merged,
        merged.numRows⟩) ∨ Unjoined concat m.schema m.batches ∧ m' = m := by
  unfold coalesce at h
  split at h
  · exact .inl (Except.ok.inj h).symm
  · exact .inr (.inl ⟨_, renumber_ok h⟩)
  · next hnone hone =>
      split at h
      · exact .inr (.inl ⟨_, renumber_ok h⟩)
      · next e herror =>
          refine .inr (.inr ⟨⟨?_, by rw [herror]; rfl⟩, (Except.ok.inj h).symm⟩)
          rcases hbatches : m.batches with _ | ⟨first, _ | ⟨second, rest⟩⟩
          · exact absurd hbatches hnone
          · exact absurd hbatches (hone first)
          · exact Nat.succ_lt_succ (Nat.succ_pos _)

theorem coalesce_unjoined (h : Unjoined concat m.schema m.batches) : m.coalesce env concat = .ok m := by
  obtain ⟨hmany, herror⟩ := h
  unfold coalesce
  rcases hbatches : m.batches with _ | ⟨first, _ | ⟨second, rest⟩⟩
  · rw [hbatches] at hmany
    exact absurd hmany (Nat.not_lt_zero _)
  · rw [hbatches] at hmany
    exact absurd hmany (lt_irrefl _)
  · rw [hbatches] at herror
    dsimp only
    cases hjoin : concat m.schema (first :: second :: rest) with
    | error e => rfl
    | ok merged =>
        rw [hjoin] at herror
        cases herror

theorem Wf.empty (m : Memtable τ ν) : ({ m with chunks := [], tombstones := ∅, bytes := 0, rows := 0 } : Memtable τ ν).Wf :=
  ⟨rfl, List.nodup_nil, fun _ h => (nomatch h), by simp⟩

theorem Wf.one (schema : Schema τ) (base bytes : Nat) (batch : RecordBatch τ ν) :
    (⟨schema, [⟨base, batch⟩], ∅, base + batch.numRows, bytes, batch.numRows⟩ : Memtable τ ν).Wf := by
  have hentries : (⟨schema, [⟨base, batch⟩], ∅, base + batch.numRows, bytes, batch.numRows⟩ : Memtable τ ν).entries =
      chunkEntries ⟨base, batch⟩ := by
    rw [entries, List.flatMap_singleton]
  refine ⟨?_, ?_, fun entry hentry => ?_, by simp⟩
  · rw [hentries, chunkEntries, List.length_map, List.length_zipIdx]
    rfl
  · rw [hentries, fst_chunkEntries]
    exact List.nodup_range.map fun a b hab => by simpa using hab
  · have hmem := List.mem_map_of_mem (f := Prod.fst) hentry
    rw [hentries, fst_chunkEntries, List.mem_map] at hmem
    obtain ⟨row, hrow, heq⟩ := hmem
    rw [List.mem_range] at hrow
    dsimp only at hrow heq ⊢
    omega

theorem Wf.coalesce (h : m.Wf) (hcall : m.coalesce env concat = .ok m') : m'.Wf := by
  rcases coalesce_ok hcall with rfl | ⟨merged, rfl⟩ | ⟨-, rfl⟩
  · exact Wf.empty m
  · exact Wf.one _ _ _ _
  · exact h

/-- An insert adds the batch under the next numbers, and may coalesce then. -/
theorem insert_ok {batch : RecordBatch τ ν} {base : Nat} (h : m.insert env concat batch = .ok (base, m')) :
    base = m.nextSeqno ∧ (batch.numRows = 0 ∧ m' = m ∨ batch.numRows ≠ 0 ∧
      (m.chunks.length < coalesceThreshold ∧ m' = m.insertAt env m.nextSeqno batch ∨
        coalesceThreshold ≤ m.chunks.length ∧ (m.insertAt env m.nextSeqno batch).coalesce env concat = .ok m')) := by
  unfold insert at h
  split at h
  · next hempty =>
      obtain ⟨rfl, rfl⟩ := Prod.mk.inj (Except.ok.inj h)
      exact ⟨rfl, .inl ⟨hempty, rfl⟩⟩
  · next hrows =>
      obtain ⟨pushed, hpushed, h⟩ := bind_eq_ok.mp h
      obtain rfl := push_ok hrows hpushed
      have hlen : (m.insertAt env m.nextSeqno batch).chunks.length = m.chunks.length + 1 := by
        rw [insertAt, if_neg hrows, List.length_append, List.length_singleton]
      rw [hlen] at h
      split at h
      · next hmany =>
          obtain ⟨coalesced, hcoalesced, h⟩ := bind_eq_ok.mp h
          obtain ⟨rfl, rfl⟩ := Prod.mk.inj (Except.ok.inj h)
          exact ⟨rfl, .inr ⟨hrows, .inr ⟨Nat.lt_succ_iff.mp hmany, hcoalesced⟩⟩⟩
      · next hfew =>
          obtain ⟨rfl, rfl⟩ := Prod.mk.inj (Except.ok.inj h)
          exact ⟨rfl, .inr ⟨hrows, .inl ⟨by omega, rfl⟩⟩⟩

theorem insertAt_ok {baseSeqno : Nat} {batch : RecordBatch τ ν} {n : Nat}
    (h : m.call env concat (.insertAt baseSeqno batch) = .ok (n, m')) : m' = m.insertAt env baseSeqno batch := by
  simp only [Memtable.call] at h
  split at h
  · next hempty =>
      obtain ⟨-, rfl⟩ := Prod.mk.inj (Except.ok.inj h)
      rw [insertAt, if_pos hempty]
  · next hrows =>
      obtain ⟨pushed, hpushed, h⟩ := bind_eq_ok.mp h
      obtain ⟨-, rfl⟩ := Prod.mk.inj (Except.ok.inj h)
      exact push_ok hrows hpushed

theorem Wf.call (h : m.Wf) {c : Call τ ν} {n : Nat}
    (hbase : ∀ baseSeqno batch, c = .insertAt baseSeqno batch → m.nextSeqno ≤ baseSeqno)
    (hcall : m.call env concat c = .ok (n, m')) : m'.Wf := by
  cases c with
  | insert batch =>
      obtain ⟨-, ⟨-, rfl⟩ | ⟨-, ⟨-, rfl⟩ | ⟨-, hcoalesce⟩⟩⟩ := insert_ok hcall
      · exact h
      · exact h.insertAt env le_rfl batch
      · exact (h.insertAt env le_rfl batch).coalesce hcoalesce
  | insertAt baseSeqno batch =>
      obtain rfl := insertAt_ok hcall
      exact h.insertAt env (hbase baseSeqno batch rfl) batch
  | delete seqnos =>
      obtain ⟨-, rfl⟩ := Prod.mk.inj (Except.ok.inj hcall)
      exact h.delete seqnos
  | coalesce =>
      obtain ⟨coalesced, hcoalesced, hcall⟩ := bind_eq_ok.mp hcall
      obtain ⟨-, rfl⟩ := Prod.mk.inj (Except.ok.inj hcall)
      exact h.coalesce hcoalesced
  | freeze =>
      obtain ⟨-, rfl⟩ := Prod.mk.inj (Except.ok.inj hcall)
      exact Wf.empty m

/-- Numbers are told apart, and only held rows are deleted, after any calls. -/
theorem Reachable.wf {schema : Schema τ} {first : Nat} (h : Reachable env concat schema first m) : m.Wf := by
  induction h with
  | new => exact Wf.new schema first
  | step _ hbase hcall ih => exact ih.call hbase hcall

theorem rows_delete (m : Memtable τ ν) (seqnos : List Nat) : (m.delete seqnos).2.rows = m.rows := by
  rw [delete_snd]

theorem nextSeqno_delete (m : Memtable τ ν) (seqnos : List Nat) : (m.delete seqnos).2.nextSeqno = m.nextSeqno := by
  rw [delete_snd]

/-- As many rows are deleted as are held, at most. -/
theorem Wf.card_le (h : m.Wf) : m.tombstones.card ≤ m.rows := by
  have hsub : m.tombstones ⊆ (m.entries.map Prod.fst).toFinset := fun seqno hseqno =>
    List.mem_toFinset.mpr (h.held seqno hseqno)
  calc m.tombstones.card ≤ (m.entries.map Prod.fst).toFinset.card := Finset.card_le_card hsub
    _ ≤ (m.entries.map Prod.fst).length := List.toFinset_card_le _
    _ = m.rows := by rw [List.length_map, h.rows]

theorem Wf.deleted (h : m.Wf) (seqnos : List Nat) :
    (m.delete seqnos).1 = (m.liveSeqnos.filter (· ∈ seqnos)).length := by
  have hgrows : m.tombstones ⊆ (m.delete seqnos).2.tombstones := by
    rw [delete_snd]
    exact Finset.subset_union_left
  have hcount := delete_fst m seqnos
  rw [Finset.card_sdiff_of_subset hgrows] at hcount
  have hmore := Finset.card_le_card hgrows
  have hless := (h.delete seqnos).card_le
  have hkept := (h.delete seqnos).liveRows
  have hsplit := List.length_eq_length_filter_add (l := m.live) fun entry => decide (entry.1 ∈ seqnos)
  have hlive := h.liveRows
  rw [Memtable.liveRows, rows_delete, live_delete] at hkept
  rw [rows_delete] at hless
  rw [Memtable.liveRows] at hlive
  rw [liveSeqnos_eq, List.filter_map, List.length_map]
  simp only [decide_not] at hkept
  have hcomp : ((fun seqno => decide (seqno ∈ seqnos)) ∘ Prod.fst : Nat × Row ν → Bool) =
      fun entry => decide (entry.1 ∈ seqnos) := rfl
  rw [hcomp]
  omega

/-- A row held under a number is the row of the chunk that covers the number. -/
theorem mem_entries {entry : Nat × Row ν} : entry ∈ m.entries ↔
    ∃ chunk ∈ m.chunks, chunk.baseSeqno ≤ entry.1 ∧ chunk.batch.rows[entry.1 - chunk.baseSeqno]? = some entry.2 := by
  simp only [entries, chunkEntries, List.mem_flatMap, List.mem_map]
  constructor
  · rintro ⟨chunk, hchunk, ⟨row, at'⟩, hrow, rfl⟩
    refine ⟨chunk, hchunk, Nat.le_add_right _ _, ?_⟩
    rw [Nat.add_sub_cancel_left]
    exact List.mem_zipIdx_iff_getElem?.mp hrow
  · rintro ⟨chunk, hchunk, hbase, hrow⟩
    refine ⟨chunk, hchunk, (entry.2, entry.1 - chunk.baseSeqno), List.mem_zipIdx_iff_getElem?.mpr hrow, ?_⟩
    exact Prod.ext (Nat.add_sub_of_le hbase) rfl

/-- The rows a scan returns are in the order of the listed numbers. -/
theorem live_aligned (m : Memtable τ ν) : List.Forall₂ (fun seqno row => ∃ chunk ∈ m.chunks,
    chunk.baseSeqno ≤ seqno ∧ chunk.batch.rows[seqno - chunk.baseSeqno]? = some row) m.liveSeqnos
    (rowsOf m.batches) := by
  rw [liveSeqnos_eq, rowsOf_batches, List.forall₂_map_left_iff, List.forall₂_map_right_iff, List.forall₂_same]
  exact fun entry hentry => mem_entries.mp (List.mem_of_mem_filter hentry)

theorem Wf.chunks_disjoint (h : m.Wf) :
    m.chunks.Pairwise fun chunk other => ∀ seqno, chunk.contains seqno = true → other.contains seqno = false := by
  have hnodup := h.nodup
  rw [entries, List.map_flatMap, List.nodup_flatMap] at hnodup
  refine hnodup.2.imp fun {chunk other} hdisjoint seqno hchunk => ?_
  have hcovered : ∀ chunk : Chunk τ ν, chunk.contains seqno = true → seqno ∈ (chunkEntries chunk).map Prod.fst := by
    intro chunk hchunk
    rw [Chunk.contains, decide_eq_true_iff] at hchunk
    rw [fst_chunkEntries, List.mem_map]
    exact ⟨seqno - chunk.baseSeqno, List.mem_range.mpr (by omega), by omega⟩
  exact Bool.eq_false_iff.mpr fun hother => hdisjoint (hcovered chunk hchunk) (hcovered other hother)

theorem nextSeqno_le {c : Call τ ν} {n : Nat} (h : m.call env concat c = .ok (n, m')) : m.nextSeqno ≤ m'.nextSeqno := by
  have hpush : ∀ base batch, m.nextSeqno ≤ (m.insertAt env base batch).nextSeqno := by
    intro base batch
    unfold Memtable.insertAt
    split
    · exact le_rfl
    · exact le_max_left _ _
  have hcoalesce : ∀ {m m' : Memtable τ ν}, m.coalesce env concat = .ok m' → m.nextSeqno ≤ m'.nextSeqno := by
    intro m m' hcall
    rcases coalesce_ok hcall with rfl | ⟨merged, rfl⟩ | ⟨-, rfl⟩
    · exact le_rfl
    · exact Nat.le_add_right _ _
    · exact le_rfl
  cases c with
  | insert batch =>
      obtain ⟨-, ⟨-, rfl⟩ | ⟨-, ⟨-, rfl⟩ | ⟨-, hmerge⟩⟩⟩ := insert_ok h
      · exact le_rfl
      · exact hpush _ _
      · exact (hpush _ _).trans (hcoalesce hmerge)
  | insertAt baseSeqno batch =>
      obtain rfl := insertAt_ok h
      exact hpush _ _
  | delete seqnos =>
      obtain ⟨-, rfl⟩ := Prod.mk.inj (Except.ok.inj h)
      exact (nextSeqno_delete m seqnos).ge
  | coalesce =>
      obtain ⟨coalesced, hcoalesced, h⟩ := bind_eq_ok.mp h
      obtain ⟨-, rfl⟩ := Prod.mk.inj (Except.ok.inj h)
      exact hcoalesce hcoalesced
  | freeze =>
      obtain ⟨-, rfl⟩ := Prod.mk.inj (Except.ok.inj h)
      exact le_rfl

end Wf

/-- Rows come out of a memtable in the order of its sequence numbers: as many as it counts, each the row its number names. -/
structure Aligned (env : Env τ ν) (concat : ConcatBatches τ ν) (m : Memtable τ ν) : Prop where
  count : m.liveSeqnos.length = m.liveRows
  rows : List.Forall₂ (fun seqno row => ∃ chunk ∈ m.chunks, chunk.baseSeqno ≤ seqno ∧
    chunk.batch.rows[seqno - chunk.baseSeqno]? = some row) m.liveSeqnos (rowsOf m.batches)
  disjoint : m.chunks.Pairwise fun chunk other => ∀ seqno, chunk.contains seqno = true → other.contains seqno = false
  below : ∀ chunk ∈ m.chunks, ∀ seqno, chunk.contains seqno = true → seqno < m.nextSeqno
  held : ∀ seqno ∈ m.tombstones, m.holds seqno = true
  counted : m.tombstones.card ≤ m.rows
  deleted : ∀ seqnos, (m.delete seqnos).1 = (m.liveSeqnos.filter (· ∈ seqnos)).length ∧
    (m.delete seqnos).2.liveSeqnos = m.liveSeqnos.filter (· ∉ seqnos)
  forward : ∀ c n m', m.call env concat c = .ok (n, m') → m.nextSeqno ≤ m'.nextSeqno

/-- Whatever calls are made on it, a memtable's rows and their numbers line up. -/
theorem positions_and_seqnos {env : Env τ ν} {concat : ConcatBatches τ ν} {m : Memtable τ ν} {schema : Schema τ}
    {first : Nat} (h : Reachable env concat schema first m) : Aligned env concat m := by
  have hwf := h.wf
  constructor
  · rw [liveSeqnos_eq, List.length_map, hwf.liveRows]
  · exact live_aligned m
  · exact hwf.chunks_disjoint
  · intro chunk hchunk seqno hseqno
    have hheld : m.holds seqno = true := List.any_eq_true.mpr ⟨chunk, hchunk, hseqno⟩
    obtain ⟨entry, hentry, rfl⟩ := List.mem_map.mp (mem_entries_fst.mpr hheld)
    exact hwf.below entry hentry
  · exact fun seqno hseqno => mem_entries_fst.mp (hwf.held seqno hseqno)
  · exact hwf.card_le
  · intro seqnos
    refine ⟨hwf.deleted seqnos, ?_⟩
    rw [liveSeqnos_eq, liveSeqnos_eq, live_delete, List.filter_map]
    rfl
  · exact fun c n m' => nextSeqno_le

section Plain

/-- Joins any batches. -/
def joinAll : ConcatBatches Unit Nat := fun schema batches => .ok ⟨schema.fields, rowsOf batches⟩

def oneColumn : Schema Unit := ⟨[⟨"v", (), false⟩], []⟩

/-- Two rows are inserted, the first is deleted, and the second gets a new number. -/
theorem coalesced_rows_aligned :
    Aligned (plainEnv plainOptions []) joinAll
      (⟨oneColumn, [⟨2, ⟨oneColumn.fields, [[8]]⟩⟩], ∅, 3, 8, 1⟩ : Memtable Unit Nat) :=
  let held : Chunk Unit Nat := ⟨0, ⟨oneColumn.fields, [[7], [8]]⟩⟩
  have hnew : Reachable (plainEnv plainOptions []) joinAll oneColumn 0 (new oneColumn 0) := .new
  have hinserted : Reachable (plainEnv plainOptions []) joinAll oneColumn 0 ⟨oneColumn, [held], ∅, 2, 16, 2⟩ :=
    .step (c := .insert held.batch) (n := 0) hnew (fun _ _ h => nomatch h) (by decide +kernel)
  have hdeleted : Reachable (plainEnv plainOptions []) joinAll oneColumn 0 ⟨oneColumn, [held], {0}, 2, 16, 2⟩ :=
    .step (c := .delete [0]) (n := 1) hinserted (fun _ _ h => nomatch h) (by decide +kernel)
  positions_and_seqnos (.step (c := .coalesce) (n := 0) hdeleted (fun _ _ h => nomatch h) (by decide +kernel))

end Plain

section Names

/-- Deleting the number of this row hides the row, and no other. -/
def Names (m : Memtable τ ν) (entry : Nat × Row ν) : Prop :=
  ∃ before after, m.live = before ++ entry :: after ∧ (m.delete [entry.1]).1 = 1 ∧
    (m.delete [entry.1]).2.live = before ++ after

/-- The rows that are in since an insert returned their numbers, once a call has returned `n`. -/
def promised (n : Nat) : Call τ ν → List (Nat × Row ν) → List (Nat × Row ν)
  | .insert batch, named => named ++ chunkEntries ⟨n, batch⟩
  | .insertAt _ _, named => named
  | .delete seqnos, named => named.filter fun entry => entry.1 ∉ seqnos
  | .coalesce, named => named
  | .freeze, _ => []

variable (env : Env τ ν) (concat : ConcatBatches τ ν)

/-- At every point of a run of calls, the numbers the inserts returned name their rows. -/
def Stable (m : Memtable τ ν) (named : List (Nat × Row ν)) : List (Call τ ν) → Prop
  | [] => ∀ entry ∈ named, m.Names entry
  | c :: calls => (∀ entry ∈ named, m.Names entry) ∧
      match m.call env concat c with
      | .ok (n, m') => Stable m' (promised n c named) calls
      -- a sum left the words of the machine: the run ends
      | .error _ => True

/-- What a call must find for rows to stay under their numbers. -/
def Spares (m : Memtable τ ν) (named : List (Nat × Row ν)) : Call τ ν → Prop
  | .insert batch => batch.numRows = 0 ∨ m.chunks.length < coalesceThreshold ∨
      Unjoined concat m.schema (m.batches ++ [batch])
  | .insertAt baseSeqno batch => ∀ entry ∈ named, entry.1 < baseSeqno ∨ baseSeqno + batch.numRows ≤ entry.1
  | .delete _ => True
  | .coalesce => named = [] ∨ Unjoined concat m.schema m.batches
  | .freeze => True

/-- Every call of a run finds that. -/
def Spared (m : Memtable τ ν) (named : List (Nat × Row ν)) : List (Call τ ν) → Prop
  | [] => True
  | c :: calls =>
      match m.call env concat c with
      | .ok (n, m') => m.Spares concat named c ∧ Spared m' (promised n c named) calls
      | .error _ => True

instance (schema : Schema τ) (batches : List (RecordBatch τ ν)) : Decidable (Unjoined concat schema batches) :=
  inferInstanceAs (Decidable (_ ∧ _))

instance Spares.decidable (m : Memtable τ ν) (named : List (Nat × Row ν)) :
    (c : Call τ ν) → Decidable (m.Spares concat named c)
  | .insert _ => inferInstanceAs (Decidable (_ ∨ _ ∨ Unjoined _ _ _))
  | .insertAt _ _ => inferInstanceAs (Decidable (∀ entry ∈ named, _))
  | .delete _ => .isTrue trivial
  | .coalesce => inferInstanceAs (Decidable (_ ∨ Unjoined _ _ _))
  | .freeze => .isTrue trivial

instance Spared.decidable : (m : Memtable τ ν) → (named : List (Nat × Row ν)) → (calls : List (Call τ ν)) →
    Decidable (m.Spared env concat named calls)
  | _, _, [] => .isTrue trivial
  | m, named, c :: calls =>
      match hcall : m.call env concat c with
      | .ok (n, m') =>
          have := Spared.decidable m' (promised n c named) calls
          decidable_of_iff (m.Spares concat named c ∧ m'.Spared env concat (promised n c named) calls)
            (by rw [Spared, hcall])
      | .error _ => .isTrue (by rw [Spared, hcall]; trivial)

/-- Numbers in use are below the next, also where calls insert at numbers given out before. -/
structure Bounded (m : Memtable τ ν) : Prop where
  below : ∀ entry ∈ m.entries, entry.1 < m.nextSeqno
  hidden : ∀ seqno ∈ m.tombstones, seqno < m.nextSeqno

variable {env concat} {m m' : Memtable τ ν}

/-- In a list under distinct numbers a number picks its own entry. -/
theorem filter_fst_eq {α : Type} {entries : List (Nat × α)} (h : (entries.map Prod.fst).Nodup) {entry : Nat × α}
    (hentry : entry ∈ entries) : entries.filter (fun other => other.1 = entry.1) = [entry] := by
  induction entries with
  | nil => cases hentry
  | cons head entries ih =>
      rw [List.map_cons, List.nodup_cons] at h
      rcases List.mem_cons.mp hentry with rfl | hentry
      · have hrest : entries.filter (fun other => other.1 = entry.1) = [] := by
          rw [List.filter_eq_nil_iff]
          intro other hother heq
          exact h.1 (of_decide_eq_true heq ▸ List.mem_map_of_mem hother)
        rw [List.filter_cons_of_pos (by simp), hrest]
      · have hother : head.1 ≠ entry.1 := fun heq => h.1 (heq ▸ List.mem_map_of_mem hentry)
        rw [List.filter_cons_of_neg (by simpa using hother), ih h.2 hentry]

/-- A number names a row when the row is the only one under it. -/
theorem names_iff {entry : Nat × Row ν} :
    m.Names entry ↔ m.live.filter (fun other => other.1 = entry.1) = [entry] := by
  have hdelete : (m.delete [entry.1]).2.live = m.live.filter fun other => ¬other.1 = entry.1 := by
    rw [live_delete]
    exact List.filter_congr fun other _ => by simp
  constructor
  · rintro ⟨before, after, hlive, -, hgone⟩
    have hmem : entry ∈ m.live.filter fun other => other.1 = entry.1 :=
      List.mem_filter.mpr ⟨hlive ▸ List.mem_append_right _ List.mem_cons_self, by simp⟩
    have hsplit := List.length_eq_length_filter_add (l := m.live) fun other => decide (other.1 = entry.1)
    rw [hdelete] at hgone
    simp only [decide_not] at hgone
    rw [hgone, hlive, List.length_append, List.length_cons, List.length_append, ← hlive] at hsplit
    obtain ⟨only, honly⟩ := List.length_eq_one_iff.mp (show (m.live.filter fun other =>
      decide (other.1 = entry.1)).length = 1 by omega)
    rw [honly, List.mem_singleton] at hmem
    rw [honly, hmem]
  · intro hone
    obtain ⟨before, after, hlive, hbefore, -, hafter⟩ := List.filter_eq_cons_iff.mp hone
    refine ⟨before, after, hlive, ?_, ?_⟩
    · have hmem : entry ∈ m.live := hlive ▸ List.mem_append_right _ List.mem_cons_self
      obtain ⟨hentry, hkept⟩ := List.mem_filter.mp hmem
      have hheld : m.holds entry.1 = true := mem_entries_fst.mp (List.mem_map_of_mem hentry)
      have hfresh : entry.1 ∉ m.tombstones := by simpa using hkept
      rw [delete_fst, delete_snd, List.filter_cons_of_pos hheld]
      simp [hfresh]
    · rw [hdelete, hlive, List.filter_append, List.filter_cons_of_neg (by simp)]
      congr 1
      · exact List.filter_eq_self.mpr fun other hother => by simpa using hbefore other hother
      · exact List.filter_eq_self.mpr fun other hother => by
          simpa using List.filter_eq_nil_iff.mp hafter other hother

theorem Names.live {entry : Nat × Row ν} (h : m.Names entry) : entry ∈ m.live := by
  obtain ⟨before, after, hlive, -⟩ := h
  rw [hlive]
  exact List.mem_append_right _ List.mem_cons_self

theorem live_insertAt_eq (m : Memtable τ ν) (env : Env τ ν) (baseSeqno : Nat) (batch : RecordBatch τ ν) :
    (m.insertAt env baseSeqno batch).live =
      m.live ++ (chunkEntries ⟨baseSeqno, batch⟩).filter fun entry => entry.1 ∉ m.tombstones := by
  obtain ⟨hentries, htombs⟩ := entries_insertAt (m := m) env baseSeqno batch
  rw [live, live, hentries, htombs, List.filter_append]

theorem chunkEntries_range {baseSeqno : Nat} {batch : RecordBatch τ ν} {seqno : Nat} :
    seqno ∈ (chunkEntries ⟨baseSeqno, batch⟩).map Prod.fst ↔ baseSeqno ≤ seqno ∧ seqno < baseSeqno + batch.numRows := by
  rw [fst_chunkEntries, List.mem_map]
  constructor
  · rintro ⟨row, hrow, rfl⟩
    exact ⟨Nat.le_add_right _ _, Nat.add_lt_add_left (List.mem_range.mp hrow) _⟩
  · rintro ⟨hlow, hhigh⟩
    exact ⟨seqno - baseSeqno, List.mem_range.mpr (by dsimp only; omega), Nat.add_sub_of_le hlow⟩

theorem Bounded.live (h : m.Bounded) {entry : Nat × Row ν} (hentry : entry ∈ m.live) : entry.1 < m.nextSeqno :=
  h.below entry (List.mem_of_mem_filter hentry)

theorem Bounded.insertAt (h : m.Bounded) (env : Env τ ν) (baseSeqno : Nat) (batch : RecordBatch τ ν) :
    (m.insertAt env baseSeqno batch).Bounded := by
  obtain ⟨hentries, htombs⟩ := entries_insertAt (m := m) env baseSeqno batch
  have hnext : m.nextSeqno ≤ (m.insertAt env baseSeqno batch).nextSeqno ∧
      (batch.numRows ≠ 0 → baseSeqno + batch.numRows ≤ (m.insertAt env baseSeqno batch).nextSeqno) := by
    unfold Memtable.insertAt
    split
    · next hempty => exact ⟨le_rfl, fun hrows => absurd hempty hrows⟩
    · exact ⟨le_max_left _ _, fun _ => le_max_right _ _⟩
  constructor
  · intro entry hentry
    rw [hentries, List.mem_append] at hentry
    rcases hentry with hentry | hentry
    · exact (h.below entry hentry).trans_le hnext.1
    · have hrange := chunkEntries_range.mp (List.mem_map_of_mem hentry)
      have hbound := hnext.2 (by omega)
      omega
  · intro seqno hseqno
    rw [htombs] at hseqno
    exact (h.hidden seqno hseqno).trans_le hnext.1

theorem Bounded.coalesce (h : m.Bounded) (hcall : m.coalesce env concat = .ok m') : m'.Bounded := by
  rcases coalesce_ok hcall with rfl | ⟨merged, rfl⟩ | ⟨-, rfl⟩
  · exact ⟨(Wf.empty m).below, fun seqno hseqno => absurd hseqno (Finset.notMem_empty seqno)⟩
  · exact ⟨(Wf.one _ _ _ _).below, fun seqno hseqno => absurd hseqno (Finset.notMem_empty seqno)⟩
  · exact h

theorem Bounded.delete (h : m.Bounded) (seqnos : List Nat) : (m.delete seqnos).2.Bounded := by
  constructor
  · rw [entries_delete, nextSeqno_delete]
    exact h.below
  · intro seqno hseqno
    rw [nextSeqno_delete]
    rw [delete_snd, Finset.mem_union, List.mem_toFinset, List.mem_filter] at hseqno
    rcases hseqno with hold | ⟨-, hheld⟩
    · exact h.hidden seqno hold
    · obtain ⟨entry, hentry, rfl⟩ := List.mem_map.mp (mem_entries_fst.mpr hheld)
      exact h.below entry hentry

theorem Bounded.call (h : m.Bounded) {c : Call τ ν} {n : Nat} (hcall : m.call env concat c = .ok (n, m')) :
    m'.Bounded := by
  cases c with
  | insert batch =>
      obtain ⟨-, ⟨-, rfl⟩ | ⟨-, ⟨-, rfl⟩ | ⟨-, hcoalesce⟩⟩⟩ := insert_ok hcall
      · exact h
      · exact h.insertAt env _ batch
      · exact (h.insertAt env _ batch).coalesce hcoalesce
  | insertAt baseSeqno batch =>
      obtain rfl := insertAt_ok hcall
      exact h.insertAt env baseSeqno batch
  | delete seqnos =>
      obtain ⟨-, rfl⟩ := Prod.mk.inj (Except.ok.inj hcall)
      exact h.delete seqnos
  | coalesce =>
      obtain ⟨coalesced, hcoalesced, hcall⟩ := bind_eq_ok.mp hcall
      obtain ⟨-, rfl⟩ := Prod.mk.inj (Except.ok.inj hcall)
      exact h.coalesce hcoalesced
  | freeze =>
      obtain ⟨-, rfl⟩ := Prod.mk.inj (Except.ok.inj hcall)
      exact ⟨(Wf.empty m).below, fun seqno hseqno => absurd hseqno (Finset.notMem_empty seqno)⟩

/-- A batch put in under given numbers leaves a name alone when it stays away from it. -/
theorem Names.insertAt_iff {entry : Nat × Row ν} (h : m.Names entry) (baseSeqno : Nat) (batch : RecordBatch τ ν) :
    (m.insertAt env baseSeqno batch).Names entry ↔ entry.1 < baseSeqno ∨ baseSeqno + batch.numRows ≤ entry.1 := by
  have hshown : entry.1 ∉ m.tombstones := by simpa using (List.mem_filter.mp h.live).2
  rw [names_iff, live_insertAt_eq, List.filter_append, names_iff.mp h, List.append_right_eq_self, List.filter_filter,
    List.filter_eq_nil_iff]
  constructor
  · intro hnone
    by_contra hin
    push Not at hin
    obtain ⟨other, hother, heq⟩ := List.mem_map.mp (chunkEntries_range.mpr hin)
    exact hnone other hother (by simpa [heq] using hshown)
  · intro haway other hother hboth
    have hrange := chunkEntries_range.mp (List.mem_map_of_mem hother)
    have heq : other.1 = entry.1 := (by simpa using hboth : other.1 = entry.1 ∧ _).1
    omega

/-- The rows of a batch put in under the next numbers are named by them. -/
theorem Bounded.names_insertAt (h : m.Bounded) (env : Env τ ν) {batch : RecordBatch τ ν} {entry : Nat × Row ν}
    (hentry : entry ∈ chunkEntries ⟨m.nextSeqno, batch⟩) : (m.insertAt env m.nextSeqno batch).Names entry := by
  have hrange := chunkEntries_range.mp (List.mem_map_of_mem hentry)
  have hold : m.live.filter (fun other => other.1 = entry.1) = [] := by
    rw [List.filter_eq_nil_iff]
    intro other hother heq
    have hless := h.live hother
    rw [of_decide_eq_true heq] at hless
    omega
  have hshown : (chunkEntries ⟨m.nextSeqno, batch⟩).filter (fun entry => entry.1 ∉ m.tombstones) =
      chunkEntries ⟨m.nextSeqno, batch⟩ := by
    rw [List.filter_eq_self]
    intro other hother
    have hafter := (chunkEntries_range.mp (List.mem_map_of_mem hother)).1
    exact decide_eq_true fun hdead => absurd (h.hidden other.1 hdead) (Nat.not_lt.mpr hafter)
  have hnodup : ((chunkEntries ⟨m.nextSeqno, batch⟩).map Prod.fst).Nodup := by
    rw [fst_chunkEntries]
    exact List.nodup_range.map fun a b hab => by simpa using hab
  rw [names_iff, live_insertAt_eq, hshown, List.filter_append, hold, filter_fst_eq hnodup hentry, List.nil_append]

theorem Names.delete {entry : Nat × Row ν} (h : m.Names entry) {seqnos : List Nat} (hentry : entry.1 ∉ seqnos) :
    (m.delete seqnos).2.Names entry := by
  rw [names_iff, live_delete, List.filter_filter, ← names_iff.mp h]
  refine List.filter_congr fun other _ => ?_
  by_cases heq : other.1 = entry.1
  · simpa [heq] using hentry
  · simp [heq]

/-- Coalescing takes every name away, unless the batches cannot be joined. -/
theorem Bounded.coalesce_iff (h : m.Bounded) {named : List (Nat × Row ν)} (hnamed : ∀ entry ∈ named, m.Names entry)
    (hsome : named ≠ []) (hcall : m.coalesce env concat = .ok m') :
    (∀ entry ∈ named, m'.Names entry) ↔ Unjoined concat m.schema m.batches := by
  obtain ⟨entry, hentry⟩ := List.exists_mem_of_ne_nil named hsome
  constructor
  · intro hafter
    have hlive := (hafter entry hentry).live
    rcases coalesce_ok hcall with rfl | ⟨merged, rfl⟩ | ⟨hunjoined, -⟩
    · cases hlive
    · have hbelow := h.live (hnamed entry hentry).live
      have hmem := List.mem_of_mem_filter hlive
      rw [entries, List.flatMap_singleton] at hmem
      have habove := (chunkEntries_range.mp (List.mem_map_of_mem hmem)).1
      exact absurd hbelow (Nat.not_lt.mpr habove)
    · exact hunjoined
  · intro hunjoined
    rw [coalesce_unjoined hunjoined] at hcall
    rwa [← Except.ok.inj hcall]

theorem Bounded.batches_insertAt (h : m.Bounded) (env : Env τ ν) {batch : RecordBatch τ ν} (hrows : batch.numRows ≠ 0) :
    (m.insertAt env m.nextSeqno batch).batches = m.batches ++ [batch] ∧
      (m.insertAt env m.nextSeqno batch).schema = m.schema := by
  have hkept : m.keptOf ⟨m.nextSeqno, batch⟩ = some batch := by
    have hnone : ((List.range batch.numRows).filter fun row => m.nextSeqno + row ∈ m.tombstones) = [] := by
      rw [List.filter_eq_nil_iff]
      intro row _ hdead
      exact absurd (h.hidden _ (of_decide_eq_true hdead)) (by omega)
    unfold keptOf
    dsimp only
    rw [hnone, List.length_nil, if_pos rfl]
  rw [Memtable.insertAt, if_neg hrows]
  have hlast : List.filterMap m.keptOf [⟨m.nextSeqno, batch⟩] = [batch] := by
    rw [List.filterMap_cons, hkept]
    rfl
  exact ⟨List.filterMap_append.trans (congrArg (m.batches ++ ·) hlast), rfl⟩

/-- After a call the promised numbers name their rows exactly if the call found what it must. -/
theorem Bounded.spares_iff (h : m.Bounded) {named : List (Nat × Row ν)} (hnamed : ∀ entry ∈ named, m.Names entry)
    {c : Call τ ν} {n : Nat} (hcall : m.call env concat c = .ok (n, m')) :
    (∀ entry ∈ promised n c named, m'.Names entry) ↔ m.Spares concat named c := by
  cases c with
  | insert batch =>
      obtain ⟨rfl, ⟨hempty, rfl⟩ | ⟨hrows, hcase⟩⟩ := insert_ok hcall
      · refine iff_of_true (fun entry hentry => ?_) (.inl hempty)
        rcases List.mem_append.mp hentry with hold | hnew
        · exact hnamed entry hold
        · have hrange := chunkEntries_range.mp (List.mem_map_of_mem hnew)
          omega
      have hpushed : ∀ entry ∈ named ++ chunkEntries ⟨m.nextSeqno, batch⟩,
          (m.insertAt env m.nextSeqno batch).Names entry := by
        intro entry hentry
        rcases List.mem_append.mp hentry with hold | hnew
        · exact ((hnamed entry hold).insertAt_iff m.nextSeqno batch).mpr (.inl (h.live (hnamed entry hold).live))
        · exact h.names_insertAt env hnew
      rcases hcase with ⟨hfew, rfl⟩ | ⟨hmany, hcoalesce⟩
      · exact iff_of_true hpushed (.inr (.inl hfew))
      · have hsome : named ++ chunkEntries ⟨m.nextSeqno, batch⟩ ≠ [] := by
          intro hnone
          have hlen := congrArg (List.length ∘ List.map Prod.fst) (List.append_eq_nil_iff.mp hnone).2
          simp only [Function.comp_apply, fst_chunkEntries, List.length_map, List.length_range] at hlen
          exact hrows hlen
        obtain ⟨hbatches, hschema⟩ := h.batches_insertAt env hrows
        refine ((h.insertAt env _ batch).coalesce_iff hpushed hsome hcoalesce).trans ?_
        rw [hbatches, hschema]
        constructor
        · exact fun hunjoined => .inr (.inr hunjoined)
        · rintro (hempty | hfew | hunjoined)
          · exact absurd hempty hrows
          · exact absurd hfew (Nat.not_lt.mpr hmany)
          · exact hunjoined
  | insertAt baseSeqno batch =>
      obtain rfl := insertAt_ok hcall
      exact forall₂_congr fun entry hentry => (hnamed entry hentry).insertAt_iff baseSeqno batch
  | delete seqnos =>
      obtain ⟨-, rfl⟩ := Prod.mk.inj (Except.ok.inj hcall)
      refine iff_of_true (fun entry hentry => ?_) trivial
      obtain ⟨hold, hspared⟩ := List.mem_filter.mp hentry
      exact (hnamed entry hold).delete (of_decide_eq_true hspared)
  | coalesce =>
      obtain ⟨coalesced, hcoalesced, hcall⟩ := bind_eq_ok.mp hcall
      obtain ⟨-, rfl⟩ := Prod.mk.inj (Except.ok.inj hcall)
      by_cases hsome : named = []
      · subst hsome
        exact iff_of_true (fun entry hentry => absurd hentry List.not_mem_nil) (.inl rfl)
      · refine (h.coalesce_iff hnamed hsome hcoalesced).trans ⟨.inr, fun hspares => ?_⟩
        exact hspares.resolve_left hsome
  | freeze => exact iff_of_true (fun entry hentry => absurd hentry List.not_mem_nil) trivial

/-- A run keeps the names exactly if each of its calls does. -/
theorem Bounded.stable_iff (h : m.Bounded) {named : List (Nat × Row ν)} (hnamed : ∀ entry ∈ named, m.Names entry)
    (calls : List (Call τ ν)) : m.Stable env concat named calls ↔ m.Spared env concat named calls := by
  induction calls generalizing m named with
  | nil => exact iff_of_true hnamed trivial
  | cons c calls ih =>
      unfold Stable Spared
      cases hcall : m.call env concat c with
      | error e => exact iff_of_true ⟨hnamed, trivial⟩ trivial
      | ok result =>
          obtain ⟨n, m'⟩ := result
          dsimp only
          rw [← h.spares_iff hnamed hcall]
          constructor
          · rintro ⟨-, hstable⟩
            have hafter : ∀ entry ∈ promised n c named, m'.Names entry := by
              cases calls with
              | nil => exact hstable
              | cons => exact hstable.1
            exact ⟨hafter, (ih (h.call hcall) hafter).mp hstable⟩
          · rintro ⟨hafter, hspared⟩
            exact ⟨hnamed, (ih (h.call hcall) hafter).mpr hspared⟩

theorem Bounded.new (schema : Schema τ) (first : Nat) : (new schema first : Memtable τ ν).Bounded :=
  ⟨(Wf.new schema first).below, fun seqno hseqno => absurd hseqno (Finset.notMem_empty seqno)⟩

end Names

/-- The numbers inserts return name their rows throughout a run exactly if no insert coalesces, or Arrow cannot join what it
coalesces, and no batch is put in over them. -/
theorem seqnos_name_rows (env : Env τ ν) (concat : ConcatBatches τ ν) (schema : Schema τ) (first : Nat)
    (calls : List (Call τ ν)) :
    (new schema first).Stable env concat [] calls ↔ (new schema first).Spared env concat [] calls :=
  (Bounded.new schema first).stable_iff (fun _ hentry => absurd hentry List.not_mem_nil) calls

section Coalesced

/-- Inserts of one row each. -/
def singles (times : Nat) : List (Call Unit Nat) := List.replicate times (.insert ⟨oneColumn.fields, [[7]]⟩)

/-- What the last of some calls returned, and the memtable it left. -/
def after : List (Call Unit Nat) → Nat × Memtable Unit Nat → Outcome Error (Nat × Memtable Unit Nat)
  | [], result => .ok result
  | c :: calls, result => do after calls (← result.2.call (plainEnv plainOptions []) joinAll c)

/-- The insert of the 257th batch returns 256, under which there is nothing any more: deleting it hides no row. -/
theorem coalescing_insert_loses_names :
    ¬(new oneColumn 0).Stable (plainEnv plainOptions []) joinAll [] (singles 257) ∧
      (after (singles 257) (0, new oneColumn 0)).toOption.map (fun (base, m) => (base, m.delete [base], m.liveRows)) =
        some (256, (0, ⟨oneColumn, [⟨257, ⟨oneColumn.fields, List.replicate 257 [7]⟩⟩], ∅, 514, 2056, 257⟩), 257) := by
  constructor
  · intro hstable
    have hspared := ((Bounded.new oneColumn 0).stable_iff (fun _ h => absurd h List.not_mem_nil) _).mp hstable
    revert hspared
    decide +kernel
  · decide +kernel

end Coalesced

end Memtable

end LocalTables
