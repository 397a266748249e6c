import LocalTables.Columnar.Batch

/-! Rows that are durable in the log but not yet in a segment (`columnar/memtable.rs`). A row is named by
its sequence number; `entries` lists the rows held under theirs, `live` the ones a scan returns. -/

namespace LocalTables

variable {τ ν : Type}

/-- Rows held in memory, with the sequence number of their first row. -/
structure Chunk (τ ν : Type) where
  baseSeqno : Nat
  batch : RecordBatch τ ν
  deriving DecidableEq, Repr

def Chunk.contains (chunk : Chunk τ ν) (seqno : Nat) : Bool :=
  decide (chunk.baseSeqno ≤ seqno ∧ seqno < chunk.baseSeqno + chunk.batch.numRows)

/-- Rows written but not yet flushed to a segment. -/
structure Memtable (τ ν : Type) where
  schema : Schema τ
  chunks : List (Chunk τ ν)
  /-- Deleted rows, by sequence number. -/
  tombstones : Finset Nat
  /-- The sequence number the next inserted row will get. -/
  nextSeqno : Nat
  bytes : Nat
  rows : Nat
  deriving DecidableEq

/-- A memtable's contents, taken out and ready to become a segment. -/
structure FrozenMemtable (τ ν : Type) where
  batches : List (RecordBatch τ ν)
  rows : Nat
  nextSeqno : Nat

def FrozenMemtable.isEmpty (frozen : FrozenMemtable τ ν) : Bool := frozen.rows == 0

namespace Memtable

def new (schema : Schema τ) (nextSeqno : Nat) : Memtable τ ν := ⟨schema, [], ∅, nextSeqno, 0, 0⟩

variable (m : Memtable τ ν)

/-- Rows a scan would return. -/
def liveRows : Nat := m.rows - m.tombstones.card

def isEmpty : Bool := m.liveRows == 0

/-- True when some chunk covers this sequence number. -/
def holds (seqno : Nat) : Bool := m.chunks.any fun chunk => chunk.contains seqno

def isDeleted (seqno : Nat) : Bool := seqno ∈ m.tombstones

/-- What a scan should return of one chunk. -/
def keptOf (chunk : Chunk τ ν) : Option (RecordBatch τ ν) :=
  let rows := chunk.batch.numRows
  let deleted := ((List.range rows).filter fun row => chunk.baseSeqno + row ∈ m.tombstones).length
  if deleted = 0 then some chunk.batch
  else if deleted = rows then none
  else some ⟨chunk.batch.fields, (chunk.batch.rows.zipIdx.filter fun entry =>
    chunk.baseSeqno + entry.2 ∉ m.tombstones).map Prod.fst⟩

/-- The rows a scan should return, with deleted ones removed. -/
def batches : List (RecordBatch τ ν) := m.chunks.filterMap m.keptOf

/-- Sequence numbers of the rows a scan would return, in insertion order. -/
def liveSeqnos : List Nat :=
  m.chunks.flatMap fun chunk =>
    ((List.range chunk.batch.numRows).map fun row => chunk.baseSeqno + row).filter (· ∉ m.tombstones)

/-- Insert a batch at given sequence numbers: the ones its log record carries. -/
def insertAt (env : Env τ ν) (baseSeqno : Nat) (batch : RecordBatch τ ν) : Memtable τ ν :=
  if batch.numRows = 0 then m
  else
    { m with
      bytes := m.bytes + env.memorySize batch
      rows := m.rows + batch.numRows
      nextSeqno := max m.nextSeqno (baseSeqno + batch.numRows)
      chunks := m.chunks ++ [⟨baseSeqno, batch⟩] }

/-- Mark rows deleted. Returns how many were not already deleted. -/
def delete (seqnos : List Nat) : Nat × Memtable τ ν :=
  seqnos.foldl (fun (count, m) seqno =>
    if m.holds seqno ∧ seqno ∉ m.tombstones then (count + 1, { m with tombstones := insert seqno m.tombstones })
    else (count, m)) (0, m)

/-- Take everything out, leaving an empty memtable that keeps counting. -/
def freeze : FrozenMemtable τ ν × Memtable τ ν :=
  (⟨m.batches, m.liveRows, m.nextSeqno⟩, { m with chunks := [], tombstones := ∅, bytes := 0, rows := 0 })

/-- The rows of one chunk under their sequence numbers. -/
def chunkEntries (chunk : Chunk τ ν) : List (Nat × Row ν) :=
  chunk.batch.rows.zipIdx.map fun entry => (chunk.baseSeqno + entry.2, entry.1)

/-- The rows held, deleted ones included, under their sequence numbers. -/
def entries : List (Nat × Row ν) := m.chunks.flatMap chunkEntries

def live : List (Nat × Row ν) := m.entries.filter fun entry => entry.1 ∉ m.tombstones

/-- Every sequence number names one row, below the next to be given out; only held rows are deleted. -/
structure Wf : Prop where
  rows : m.rows = m.entries.length
  nodup : (m.entries.map Prod.fst).Nodup
  below : ∀ entry ∈ m.entries, entry.1 < m.nextSeqno
  held : ∀ seqno ∈ m.tombstones, seqno ∈ m.entries.map Prod.fst

variable {m}

theorem fst_chunkEntries (chunk : Chunk τ ν) :
    (chunkEntries chunk).map Prod.fst = (List.range chunk.batch.numRows).map fun row => chunk.baseSeqno + row := by
  rw [chunkEntries, List.map_map]
  have : (Prod.fst ∘ fun entry : Row ν × Nat => (chunk.baseSeqno + entry.2, entry.1)) =
      (fun row => chunk.baseSeqno + row) ∘ Prod.snd := rfl
  rw [this, ← List.map_map, List.zipIdx_map_snd, ← List.range_eq_range']
  rfl

theorem snd_chunkEntries (chunk : Chunk τ ν) : (chunkEntries chunk).map Prod.snd = chunk.batch.rows := by
  rw [chunkEntries, List.map_map]
  exact List.zipIdx_map_fst 0 _

theorem mem_entries_fst {seqno : Nat} : seqno ∈ m.entries.map Prod.fst ↔ m.holds seqno = true := by
  simp only [entries, List.map_flatMap, List.mem_flatMap, fst_chunkEntries, List.mem_map, List.mem_range, holds,
    List.any_eq_true, Chunk.contains, decide_eq_true_iff]
  constructor
  · rintro ⟨chunk, hchunk, row, hrow, rfl⟩
    exact ⟨chunk, hchunk, by omega, by omega⟩
  · rintro ⟨chunk, hchunk, hlow, hhigh⟩
    exact ⟨chunk, hchunk, seqno - chunk.baseSeqno, by omega, by omega⟩

/-- What is kept of a chunk is its live rows. -/
theorem rows_keptOf (m : Memtable τ ν) (chunk : Chunk τ ν) :
    rowsOf (m.keptOf chunk).toList =
      ((chunkEntries chunk).filter fun entry => entry.1 ∉ m.tombstones).map Prod.snd := by
  have hfilter : ((chunkEntries chunk).filter fun entry => entry.1 ∉ m.tombstones).map Prod.snd =
      (chunk.batch.rows.zipIdx.filter fun entry => chunk.baseSeqno + entry.2 ∉ m.tombstones).map Prod.fst := by
    rw [chunkEntries, List.filter_map, List.map_map]
    rfl
  have hcount : ((chunkEntries chunk).filter fun entry => entry.1 ∈ m.tombstones).length =
      ((List.range chunk.batch.numRows).filter fun row => chunk.baseSeqno + row ∈ m.tombstones).length := by
    have hmap := congrArg (fun seqnos => (seqnos.filter (· ∈ m.tombstones)).length) (fst_chunkEntries chunk)
    simp only [List.filter_map, List.length_map] at hmap
    exact hmap
  have htotal : (chunkEntries chunk).length = chunk.batch.numRows := by
    rw [chunkEntries, List.length_map, List.length_zipIdx]
    rfl
  unfold keptOf
  dsimp only
  rw [← hcount]
  split
  · next hnone =>
      have hkeep : ∀ entry ∈ chunkEntries chunk, entry.1 ∉ m.tombstones := by
        intro entry hentry hdead
        have hmem : entry ∈ (chunkEntries chunk).filter fun entry => entry.1 ∈ m.tombstones :=
          List.mem_filter.mpr ⟨hentry, by simpa using hdead⟩
        rw [List.length_eq_zero_iff.mp hnone] at hmem
        cases hmem
      rw [List.filter_eq_self.mpr (by simpa using hkeep), snd_chunkEntries]
      simp
  · split
    · next hall =>
        have hdrop : ∀ entry ∈ chunkEntries chunk, entry.1 ∈ m.tombstones := by
          rw [← htotal] at hall
          simpa using List.length_filter_eq_length_iff.mp hall
        rw [List.filter_eq_nil_iff.mpr (by simpa using hdrop)]
        rfl
    · rw [hfilter]
      simp

theorem rowsOf_batches (m : Memtable τ ν) : rowsOf m.batches = m.live.map Prod.snd := by
  rw [batches, live, entries]
  induction m.chunks with
  | nil => rfl
  | cons chunk chunks ih =>
      rw [List.flatMap_cons, List.filter_append, List.map_append, ← ih, ← rows_keptOf, List.filterMap_cons]
      cases m.keptOf chunk <;> simp

theorem liveSeqnos_eq (m : Memtable τ ν) : m.liveSeqnos = m.live.map Prod.fst := by
  rw [liveSeqnos, live, entries]
  induction m.chunks with
  | nil => rfl
  | cons chunk chunks ih =>
      rw [List.flatMap_cons, List.flatMap_cons, List.filter_append, List.map_append, ← ih, ← fst_chunkEntries,
        List.filter_map]
      rfl

/-- The counter the memtable keeps is the number of rows a scan returns. -/
theorem Wf.liveRows (h : m.Wf) : m.liveRows = m.live.length := by
  have hsplit := List.length_eq_length_filter_add (l := m.entries) fun entry => decide (entry.1 ∈ m.tombstones)
  have hdead : (m.entries.filter fun entry => entry.1 ∈ m.tombstones).length = m.tombstones.card := by
    have hset : ((m.entries.map Prod.fst).filter (· ∈ m.tombstones)).toFinset = m.tombstones := by
      ext seqno
      simp only [List.mem_toFinset, List.mem_filter, decide_eq_true_iff]
      exact ⟨fun h => h.2, fun hmem => ⟨h.held seqno hmem, hmem⟩⟩
    have hcard := List.toFinset_card_of_nodup (h.nodup.filter fun seqno => decide (seqno ∈ m.tombstones))
    rw [hset, List.filter_map, List.length_map] at hcard
    exact hcard.symm
  rw [Memtable.liveRows, h.rows, live]
  simp only [decide_not]
  omega

theorem Wf.new (schema : Schema τ) (nextSeqno : Nat) : (new schema nextSeqno : Memtable τ ν).Wf :=
  ⟨rfl, List.nodup_nil, by simp [Memtable.new, entries], by simp [Memtable.new]⟩

theorem entries_insertAt (env : Env τ ν) (baseSeqno : Nat) (batch : RecordBatch τ ν) :
    (m.insertAt env baseSeqno batch).entries = m.entries ++ chunkEntries ⟨baseSeqno, batch⟩ ∧
      (m.insertAt env baseSeqno batch).tombstones = m.tombstones := by
  unfold insertAt
  split
  · next hnone =>
      have : chunkEntries ⟨baseSeqno, batch⟩ = [] := by
        simp [chunkEntries, List.length_eq_zero_iff.mp hnone]
      simp [this]
  · simp [entries]

theorem Wf.insertAt (h : m.Wf) (env : Env τ ν) {baseSeqno : Nat} (hbase : m.nextSeqno ≤ baseSeqno)
    (batch : RecordBatch τ ν) : (m.insertAt env baseSeqno batch).Wf := by
  obtain ⟨hentries, htombs⟩ := entries_insertAt (m := m) env baseSeqno batch
  have hlen : (chunkEntries ⟨baseSeqno, batch⟩).length = batch.numRows := by
    rw [chunkEntries, List.length_map, List.length_zipIdx]
    rfl
  have hnew : ∀ entry ∈ chunkEntries ⟨baseSeqno, batch⟩,
      baseSeqno ≤ entry.1 ∧ entry.1 < baseSeqno + batch.numRows := by
    intro entry hentry
    have hmem := List.mem_map_of_mem (f := Prod.fst) hentry
    rw [fst_chunkEntries, List.mem_map] at hmem
    obtain ⟨row, hrow, heq⟩ := hmem
    rw [List.mem_range] at hrow
    dsimp only at hrow heq
    omega
  refine ⟨?_, ?_, ?_, ?_⟩
  · rw [hentries, List.length_append, hlen, ← h.rows]
    unfold Memtable.insertAt
    split
    · next hnone => rw [hnone, Nat.add_zero]
    · rfl
  · rw [hentries, List.map_append]
    refine h.nodup.append ?_ fun seqno hold hfresh => ?_
    · rw [fst_chunkEntries]
      exact List.nodup_range.map fun a b hab => by simpa using hab
    · obtain ⟨entry, hentry, rfl⟩ := List.mem_map.mp hold
      obtain ⟨other, hother, heq⟩ := List.mem_map.mp hfresh
      have := h.below entry hentry
      have := hnew other hother
      omega
  · intro entry hentry
    rw [hentries, List.mem_append] at hentry
    unfold Memtable.insertAt
    split
    · next hnone =>
        rcases hentry with hentry | hentry
        · exact h.below entry hentry
        · have := hnew entry hentry
          omega
    · dsimp only
      rcases hentry with hentry | hentry
      · have := h.below entry hentry
        omega
      · have := hnew entry hentry
        omega
  · intro seqno hseqno
    rw [htombs] at hseqno
    rw [hentries, List.map_append, List.mem_append]
    exact .inl (h.held seqno hseqno)

theorem delete_snd (m : Memtable τ ν) (seqnos : List Nat) :
    (m.delete seqnos).2 = { m with tombstones := m.tombstones ∪ (seqnos.filter m.holds).toFinset } := by
  have hfold : ∀ (seqnos : List Nat) (count : Nat) (m' : Memtable τ ν), m'.chunks = m.chunks →
      (seqnos.foldl (fun (count, m) seqno => if m.holds seqno ∧ seqno ∉ m.tombstones then
        (count + 1, { m with tombstones := insert seqno m.tombstones }) else (count, m)) (count, m')).2 =
        { m' with tombstones := m'.tombstones ∪ (seqnos.filter m.holds).toFinset } := by
    intro seqnos
    induction seqnos with
    | nil => intro count m' _; simp
    | cons seqno seqnos ih =>
        intro count m' hchunks
        have hholds : m'.holds seqno = m.holds seqno := by rw [holds, holds, hchunks]
        rw [List.foldl_cons]
        dsimp only
        split
        · next hnew =>
            rw [ih _ { m' with tombstones := insert seqno m'.tombstones } hchunks]
            rw [hholds] at hnew
            rw [List.filter_cons_of_pos hnew.1, List.toFinset_cons]
            simp [Finset.insert_union, Finset.union_insert]
        · next hold =>
            rw [ih _ m' hchunks]
            by_cases hheld : m.holds seqno = true
            · rw [hholds, hheld] at hold
              have hmem : seqno ∈ m'.tombstones := by simpa using hold
              rw [List.filter_cons_of_pos hheld, List.toFinset_cons, Finset.union_insert,
                Finset.insert_eq_of_mem (Finset.mem_union_left _ hmem)]
            · rw [List.filter_cons_of_neg hheld]
  exact hfold seqnos 0 m rfl

theorem delete_fst (m : Memtable τ ν) (seqnos : List Nat) :
    (m.delete seqnos).1 = ((m.delete seqnos).2.tombstones \ m.tombstones).card := by
  have hfold : ∀ (seqnos : List Nat) (count : Nat) (m' : Memtable τ ν), m.tombstones ⊆ m'.tombstones →
      count = (m'.tombstones \ m.tombstones).card →
      (seqnos.foldl (fun (count, m) seqno => if m.holds seqno ∧ seqno ∉ m.tombstones then
        (count + 1, { m with tombstones := insert seqno m.tombstones }) else (count, m)) (count, m')).1 =
        ((seqnos.foldl (fun (count, m) seqno => if m.holds seqno ∧ seqno ∉ m.tombstones then
          (count + 1, { m with tombstones := insert seqno m.tombstones }) else (count, m)) (count, m')).2.tombstones \
            m.tombstones).card := by
    intro seqnos
    induction seqnos with
    | nil => exact fun count m' _ hcount => hcount
    | cons seqno seqnos ih =>
        intro count m' hsub hcount
        rw [List.foldl_cons]
        dsimp only
        split
        · next hnew =>
            apply ih
            · exact hsub.trans (Finset.subset_insert seqno m'.tombstones)
            · have hfresh : seqno ∉ m.tombstones := fun hmem => hnew.2 (hsub hmem)
              have hout : seqno ∉ m'.tombstones \ m.tombstones := fun hmem => hnew.2 (Finset.mem_sdiff.mp hmem).1
              dsimp only
              rw [Finset.insert_sdiff_of_notMem _ hfresh, Finset.card_insert_of_notMem hout, hcount]
        · exact ih count m' hsub hcount
  apply hfold
  · exact Finset.Subset.refl m.tombstones
  · simp

theorem entries_delete (m : Memtable τ ν) (seqnos : List Nat) : (m.delete seqnos).2.entries = m.entries := by
  rw [delete_snd]
  rfl

/-- After a deletion the rows named are gone and nothing else is. -/
theorem live_delete (m : Memtable τ ν) (seqnos : List Nat) :
    (m.delete seqnos).2.live = m.live.filter fun entry => entry.1 ∉ seqnos := by
  rw [live, live, entries_delete, List.filter_filter]
  refine List.filter_congr fun entry hentry => ?_
  have hheld : m.holds entry.1 = true := mem_entries_fst.mp (List.mem_map_of_mem hentry)
  rw [delete_snd]
  simp only [Finset.mem_union, List.mem_toFinset, List.mem_filter, hheld, and_true, not_or, Bool.decide_and]
  rw [Bool.and_comm]

theorem live_insertAt (h : m.Wf) (env : Env τ ν) {baseSeqno : Nat} (hbase : m.nextSeqno ≤ baseSeqno)
    (batch : RecordBatch τ ν) :
    (m.insertAt env baseSeqno batch).live = m.live ++ chunkEntries ⟨baseSeqno, batch⟩ := by
  obtain ⟨hentries, htombs⟩ := entries_insertAt (m := m) env baseSeqno batch
  rw [live, live, hentries, htombs, List.filter_append]
  congr 1
  refine List.filter_eq_self.mpr fun entry hentry => ?_
  have hmem := List.mem_map_of_mem (f := Prod.fst) hentry
  rw [fst_chunkEntries, List.mem_map] at hmem
  obtain ⟨row, -, heq⟩ := hmem
  have hfresh : entry.1 ∉ m.tombstones := by
    intro hdead
    obtain ⟨old, hold, holdEq⟩ := List.mem_map.mp (h.held _ hdead)
    have := h.below old hold
    dsimp only at heq
    omega
  simpa using hfresh

theorem Wf.delete (h : m.Wf) (seqnos : List Nat) : (m.delete seqnos).2.Wf := by
  have hentries := entries_delete m seqnos
  refine ⟨?_, hentries ▸ h.nodup, ?_, ?_⟩
  · rw [hentries, delete_snd]
    exact h.rows
  · rw [hentries, delete_snd]
    exact h.below
  · intro seqno hseqno
    rw [hentries]
    rw [delete_snd] at hseqno
    rcases Finset.mem_union.mp hseqno with hold | hnew
    · exact h.held seqno hold
    · rw [List.mem_toFinset, List.mem_filter] at hnew
      exact mem_entries_fst.mpr hnew.2

end Memtable

end LocalTables
