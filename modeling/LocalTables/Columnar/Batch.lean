import LocalTables.Io.Media
import LocalTables.Layout.Frame

/-! Batches of rows and the options a table is opened with. `Env` gathers the code outside the
repository that the engine calls: Arrow's kernels, the value encodings and the archive library.
A batch keeps the fields of its schema; the schema's metadata plays no part in any check made on
batches. -/

namespace LocalTables

/-- An Arrow record batch, row by row. -/
structure RecordBatch (τ ν : Type) where
  fields : List (Field τ)
  rows : List (Row ν)
  deriving DecidableEq, Repr

namespace RecordBatch

variable {τ ν : Type} (batch : RecordBatch τ ν)

def numRows : Nat := batch.rows.length

def slice (start len : Nat) : RecordBatch τ ν := ⟨batch.fields, (batch.rows.drop start).take len⟩

end RecordBatch

/-- All rows of a list of batches, in order. -/
def rowsOf {τ ν : Type} (batches : List (RecordBatch τ ν)) : List (Row ν) := batches.flatMap RecordBatch.rows

def totalRows {τ ν : Type} (batches : List (RecordBatch τ ν)) : Nat := (batches.map RecordBatch.numRows).sum

/-- The options the engine reads. -/
structure TableOptions where
  memtableMaxBytes : Nat
  walMaxBytes : Nat
  rowGroupRows : Nat
  minRowGroupRows : Nat
  scanBatchRows : Nat
  clusterBy : List String
  compressionBlockRows : Nat
  compactionMaxBytes : Nat
  deriving DecidableEq, Repr

def targetRowGroups : Nat := 8

/-- The row group size to write, given how many rows the table will hold. -/
def TableOptions.rowGroupSizeFor (options : TableOptions) (total : Nat) : Nat :=
  if options.rowGroupRows = 0 then 0
  else
    let even := (total + (max targetRowGroups 1 - 1)) / max targetRowGroups 1
    min (max even (max (min options.minRowGroupRows options.rowGroupRows) 1)) options.rowGroupRows

/-- Rows deleted from one segment, as a log record carries them. -/
structure SegmentDeletes where
  segmentId : SegmentId
  rows : Finset Nat
  deriving DecidableEq

/-- A logged batch: its columns in order, without their names. -/
structure BatchData (τ ν : Type) where
  columns : List τ
  rows : List (Row ν)
  deriving DecidableEq, Repr

/-- One durable write (`wal/record.rs`). -/
inductive WalRecord (τ ν : Type) where
  | insert (lsn : Lsn) (baseSeqno : Nat) (batch : BatchData τ ν)
  | delete (lsn : Lsn) (segments : List SegmentDeletes) (memtableRows : List Nat)
  | update (lsn : Lsn) (segments : List SegmentDeletes) (memtableRows : List Nat) (baseSeqno : Nat)
      (batch : BatchData τ ν)
  deriving DecidableEq

def WalRecord.lsn {τ ν : Type} : WalRecord τ ν → Lsn
  | insert lsn _ _ => lsn
  | delete lsn _ _ => lsn
  | update lsn _ _ _ _ => lsn

/-- Serializing a log record. An archive is shorter than a machine word can count. -/
structure RecordCodec (τ ν : Type) where
  toBytes : WalRecord τ ν → Except Error Bytes
  fromBytes : Bytes → Option (WalRecord τ ν)
  roundTrip : ∀ record payload, toBytes record = .ok payload → fromBytes payload = some record
  fits : ∀ record payload, toBytes record = .ok payload → Frame.headerLen + payload.length < 2 ^ 64

/-- What the engine is built on and configured with. -/
structure Env (τ ν : Type) where
  options : TableOptions
  codec : RecordCodec τ ν
  checksum : Bytes → UInt64
  /-- The fingerprint of a schema without metadata. -/
  schemaHash : List (Field τ) → Nat
  null : ν
  isNull : ν → Bool
  /-- Bytes Arrow reports for a batch. -/
  memorySize : RecordBatch τ ν → Nat
  /-- Whether a column of this type is cut into blocks once it is long enough. -/
  worthBlocking : τ → Bool
  isEncodable : τ → Bool
  encodeValue : τ → ν → Except Error Bytes
  canCast : τ → τ → Bool
  cast : τ → τ → ν → Except Error ν
  /-- What decoding a logged batch under other column types gives. -/
  misread : List τ → BatchData τ ν → Except Error (List (Row ν))
  /-- Sorting by key. The order of equal keys is unspecified. -/
  sortUnstable : (Nat → Bytes) → List Nat → List Nat
  sortUnstable_perm : ∀ key rows, (sortUnstable key rows).Perm rows
  /-- The order in which a hash set hands out its elements. -/
  drain : List SegmentId → List SegmentId
  drain_perm : ∀ ids, (drain ids).Perm ids

section Rows

variable {τ ν : Type}

@[simp] theorem rowsOf_nil : rowsOf ([] : List (RecordBatch τ ν)) = [] := rfl

@[simp] theorem rowsOf_cons (batch : RecordBatch τ ν) (batches : List (RecordBatch τ ν)) :
    rowsOf (batch :: batches) = batch.rows ++ rowsOf batches := rfl

@[simp] theorem rowsOf_append (front back : List (RecordBatch τ ν)) :
    rowsOf (front ++ back) = rowsOf front ++ rowsOf back := List.flatMap_append

theorem rowsOf_flatten (groups : List (List (RecordBatch τ ν))) :
    rowsOf groups.flatten = (groups.map rowsOf).flatten := by
  induction groups with
  | nil => rfl
  | cons group groups ih => rw [List.flatten_cons, rowsOf_append, ih, List.map_cons, List.flatten_cons]

theorem length_rowsOf (batches : List (RecordBatch τ ν)) : (rowsOf batches).length = totalRows batches := by
  induction batches with
  | nil => rfl
  | cons batch batches ih =>
      rw [rowsOf_cons, List.length_append, ih, totalRows, totalRows, List.map_cons, List.sum_cons]
      rfl

end Rows

/-- Cut a batch into pieces of at most `rows` rows. -/
def sliceBatches {τ ν : Type} (batch : RecordBatch τ ν) (rows : Nat) : List (RecordBatch τ ν) :=
  if batch.numRows = 0 then []
  else if rows = 0 ∨ batch.numRows ≤ rows then [batch]
  else (List.range ((batch.numRows + rows - 1) / rows)).map fun index => batch.slice (index * rows) rows

/-- Taking pieces of `rows` elements until the list is used up. -/
theorem flatten_pieces {α : Type} (xs : List α) {rows : Nat} (count : Nat) (h : xs.length ≤ count * rows) :
    ((List.range count).map fun index => (xs.drop (index * rows)).take rows).flatten = xs := by
  induction count generalizing xs with
  | zero =>
      have : xs = [] := List.length_eq_zero_iff.mp (by omega)
      simp [this]
  | succ count ih =>
      have hrest := ih (xs.drop rows) (by rw [List.length_drop, Nat.succ_mul] at *; omega)
      rw [List.range_succ_eq_map, List.map_cons, List.map_map, List.flatten_cons, Nat.zero_mul, List.drop_zero]
      have hshift : ((fun index => (xs.drop (index * rows)).take rows) ∘ Nat.succ) =
          fun index => ((xs.drop rows).drop (index * rows)).take rows := by
        funext index
        simp only [Function.comp, List.drop_drop, Nat.succ_mul, Nat.add_comm]
      rw [hshift, hrest, List.take_append_drop]

/-- Every such piece but the last one is full. -/
theorem length_piece {α : Type} {size : Nat} (hsize : 0 < size) (xs : List α) {index : Nat}
    (hindex : index < (xs.length + size - 1) / size) :
    0 < ((xs.drop (index * size)).take size).length ∧ ((xs.drop (index * size)).take size).length ≤ size ∧
      (index + 1 < (xs.length + size - 1) / size → ((xs.drop (index * size)).take size).length = size) := by
  have hle : ∀ {index}, index < (xs.length + size - 1) / size → index * size < xs.length := by
    intro index hindex
    have hmul := Nat.mul_le_of_le_div _ _ _ (Nat.succ_le_of_lt hindex)
    rw [Nat.succ_mul] at hmul
    omega
  rw [List.length_take, List.length_drop]
  have hstart := hle hindex
  refine ⟨by omega, by omega, fun hnext => ?_⟩
  have hend := hle hnext
  rw [Nat.succ_mul] at hend
  omega

theorem rowsOf_sliceBatches {τ ν : Type} (batch : RecordBatch τ ν) (rows : Nat) :
    rowsOf (sliceBatches batch rows) = batch.rows := by
  unfold sliceBatches
  split
  · next h => exact (List.length_eq_zero_iff.mp h).symm
  · split
    · simp
    · next hrows =>
        have hpos : 0 < rows := by omega
        have hcount : batch.rows.length ≤ (batch.numRows + rows - 1) / rows * rows := by
          have := Nat.div_add_mod (batch.numRows + rows - 1) rows
          have hmod := Nat.mod_lt (batch.numRows + rows - 1) hpos
          rw [RecordBatch.numRows] at *
          rw [Nat.mul_comm]
          omega
        have := flatten_pieces batch.rows _ hcount
        rw [← this, rowsOf, List.flatMap_def, List.map_map]
        rfl

/-- Cut ranges so none of them spans two blocks. -/
def splitAtBlocks (ranges : List (Nat × Nat)) (blockRows : Nat) : List (Nat × Nat) :=
  if blockRows = 0 then ranges
  else ranges.flatMap fun (start, len) => go start (start + len) len
where
  /-- The pieces from `pos` on, at most one for each of the `left` rows. -/
  go (pos stop : Nat) : Nat → List (Nat × Nat)
    | 0 => []
    | left + 1 =>
        if pos < stop then
          let boundary := (pos / blockRows + 1) * blockRows
          let piece := min stop boundary - pos
          (pos, piece) :: go (pos + piece) stop left
        else []

theorem splitAtBlocks_go {α : Type} (xs : List α) {blockRows : Nat} (hblock : 0 < blockRows) (pos stop left : Nat)
    (hleft : stop - pos ≤ left) (hpos : pos ≤ stop) :
    ((splitAtBlocks.go blockRows pos stop left).flatMap fun (start, len) => (xs.drop start).take len) =
      (xs.drop pos).take (stop - pos) := by
  induction left generalizing pos with
  | zero =>
      have : stop - pos = 0 := by omega
      rw [this, List.take_zero]
      rfl
  | succ left ih =>
      rw [splitAtBlocks.go]
      split
      · next hlt =>
          have hboundary : pos < (pos / blockRows + 1) * blockRows := by
            have := Nat.div_add_mod pos blockRows
            have := Nat.mod_lt pos hblock
            rw [Nat.succ_mul, Nat.mul_comm]
            omega
          have hpiece : 0 < min stop ((pos / blockRows + 1) * blockRows) - pos := by omega
          dsimp only
          generalize hq : min stop ((pos / blockRows + 1) * blockRows) - pos = piece at hpiece ⊢
          have hle : pos + piece ≤ stop := by omega
          rw [List.flatMap_cons, ih (pos + piece) (by omega) hle]
          dsimp only
          rw [← List.drop_drop, show stop - pos = piece + (stop - (pos + piece)) by omega, List.take_add]
      · next hge =>
          have : stop - pos = 0 := by omega
          rw [this, List.take_zero]
          rfl

section Plain

/-- An archive that numbers a given list of records and writes the number. -/
def numberedCodec {τ ν : Type} [DecidableEq τ] [DecidableEq ν] (known : List (WalRecord τ ν)) : RecordCodec τ ν where
  toBytes record :=
    if known.idxOf record < known.length ∧ known.idxOf record < 2 ^ 64 then .ok (leBytes (known.idxOf record))
    else .error (.io "a record the archive does not know")
  fromBytes payload := known[ofLe payload]?
  roundTrip record payload h := by
    split at h
    · next hknown =>
        rw [← Except.ok.inj h, ofLe_leBytes hknown.2, List.getElem?_eq_getElem hknown.1, List.getElem_idxOf]
    · cases h
  fits record payload h := by
    split at h
    · rw [← Except.ok.inj h, length_leBytes]
      decide
    · cases h

/-- Limits no small table reaches. -/
def plainOptions : TableOptions where
  memtableMaxBytes := 1000000
  walMaxBytes := 1000000
  rowGroupRows := 100
  minRowGroupRows := 10
  scanBatchRows := 100
  clusterBy := []
  compressionBlockRows := 0
  compactionMaxBytes := 1000000

/-- Columns of plain numbers, with zero for null. -/
def plainEnv (options : TableOptions) (known : List (WalRecord Unit Nat)) : Env Unit Nat where
  options := options
  codec := numberedCodec known
  checksum bytes := bytes.foldl (fun sum byte => 31 * sum + UInt64.ofNat byte.toNat) 7
  schemaHash fields := fields.length
  null := 0
  isNull value := value == 0
  memorySize batch := 8 * batch.numRows
  worthBlocking _ := false
  isEncodable _ := true
  encodeValue _ value := .ok (leBytes value).reverse
  canCast _ _ := true
  cast _ _ value := .ok value
  misread _ data := .ok data.rows
  sortUnstable key rows := rows.insertionSort fun a b => key a ≤ key b
  sortUnstable_perm _ rows := List.perm_insertionSort _ rows
  drain ids := ids
  drain_perm ids := .refl ids

end Plain

end LocalTables
