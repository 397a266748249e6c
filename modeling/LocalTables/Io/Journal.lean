import LocalTables.Io.Media

/-! A table file kept as the list of its writes, newest first. A read succeeds when the newest write
that touches the extent put a whole blob of the wanted kind exactly there. Concrete runs of the
engine evaluate on it. -/

namespace LocalTables

variable {τ ν : Type}

/-- One write that reached the file: where, how many bytes, and the blob if all of it arrived. -/
structure JournalEntry (τ ν : Type) where
  place : Extent
  blob : Option (Blob τ ν)
  deriving DecidableEq

structure JournalFile (τ ν : Type) where
  len : Nat
  entries : List (JournalEntry τ ν)
  deriving DecidableEq

/-- How many bytes the payloads of the blobs without a fixed size take. -/
structure JournalSizes (τ ν : Type) where
  schema : Schema τ → Nat
  segment : SegmentData ν → Nat

namespace JournalSizes

variable (sizes : JournalSizes τ ν)

/-- The 32 bytes of a frame header come on top of each payload. -/
def size : Blob τ ν → Nat
  | .header _ => headerSize
  | .metaPage _ => metaPageSize
  | .manifest manifest => 32 + 64 + 80 * manifest.segments.length + 24 * manifest.freeExtents.length
  | .schema schema => 32 + sizes.schema schema
  | .segment data => 32 + sizes.segment data
  | .deletes rows => 32 + 16 + 2 * rows.card

theorem size_pos (blob : Blob τ ν) : 0 < sizes.size blob := by
  cases blob <;> simp only [size, headerSize, metaPageSize] <;> omega

end JournalSizes

/-- Plain fixed-width columns: eight bytes a cell, and a 16-byte schema entry for each column. -/
def plainSizes : JournalSizes Unit Nat where
  schema schema := 16 * schema.fields.length
  segment data := 8 * data.columns * data.rows.length

namespace JournalFile

variable (sizes : JournalSizes τ ν) (file : JournalFile τ ν)

/-- The frame of a segment's metadata opens the segment. -/
def metaExtent (_ : SegmentData ν) : Extent := ⟨0, 32⟩

def writePrefix (offset : Nat) (blob : Blob τ ν) (count : Nat) : JournalFile τ ν :=
  if count = 0 then file
  else
    { len := max file.len (offset + count)
      entries := ⟨⟨offset, count⟩, if count = sizes.size blob then some blob else none⟩ :: file.entries }

/-- What the newest write at the extent left there. -/
def lookup (entries : List (JournalEntry τ ν)) (extent : Extent) (kind : Kind) : Except Error (Blob τ ν) :=
  match entries.find? fun entry => entry.place.overlaps extent with
  | none => .error (.corrupt "no frame")
  | some entry =>
      match entry.blob with
      | none => .error (.checksum "frame" 0 1)
      | some blob =>
          if entry.place.offset = extent.offset ∧ entry.place.len ≤ extent.len then
            if blob.kind metaExtent = kind then .ok blob
            else .error (.badMagic "another region")
          else .error (.corrupt "no frame")

def read (extent : Extent) (kind : Kind) : Except Error (Blob τ ν) :=
  if extent.stop ≤ file.len then lookup file.entries extent kind
  else .error (.io "failed to fill whole buffer")

theorem lookup_other {entries : List (JournalEntry τ ν)} {entry : JournalEntry τ ν} {extent : Extent}
    (kind : Kind) (h : entry.place.Apart extent) :
    lookup (entry :: entries) extent kind = lookup entries extent kind := by
  have hfalse : entry.place.overlaps extent = false := (Extent.apart_iff_not_overlaps _ _).mp h
  rw [lookup, lookup, List.find?_cons_of_neg (by simp [hfalse])]

theorem lookup_self {entries : List (JournalEntry τ ν)} {extent : Extent} (blob : Blob τ ν) {n : Nat}
    (hpos : 0 < n) (hn : n ≤ extent.len) :
    lookup (⟨⟨extent.offset, n⟩, some blob⟩ :: entries) extent (blob.kind metaExtent) = .ok blob := by
  have htrue : Extent.overlaps ⟨extent.offset, n⟩ extent = true := by
    rw [Extent.overlaps, Bool.and_eq_true, decide_eq_true_iff, decide_eq_true_iff]
    simp only [Extent.stop]
    omega
  rw [lookup, List.find?_cons_of_pos (by exact htrue)]
  simp only [hn, and_self, if_true]

end JournalFile

/-- The journal as a medium. -/
def Journal (sizes : JournalSizes τ ν) : Media τ ν where
  File := JournalFile τ ν
  create := ⟨0, []⟩
  len := JournalFile.len
  setLen file n := { file with len := n }
  size blob := .ok (sizes.size blob)
  metaExtent := JournalFile.metaExtent
  writePrefix := JournalFile.writePrefix sizes
  read := JournalFile.read
  len_create := rfl
  len_setLen _ _ := rfl
  len_writePrefix file offset blob n count _ _ := by
    unfold JournalFile.writePrefix
    split <;> rfl
  size_pos blob n h := by
    rw [← Except.ok.inj h]
    exact sizes.size_pos blob
  size_header _ n h := (Except.ok.inj h).symm
  size_metaPage _ n h := (Except.ok.inj h).symm
  read_setLen file n extent kind hin hn := by
    simp only [JournalFile.read, hin, hn, if_true]
  read_write_other file offset blob n count extent kind _ _ hin hapart := by
    unfold JournalFile.writePrefix
    split
    · rfl
    · have hlen : extent.stop ≤ max file.len (offset + count) := le_trans hin (le_max_left _ _)
      simp only [JournalFile.read, hin, hlen, if_true]
      exact JournalFile.lookup_other kind hapart
  read_write_self file extent blob h := by
    have hlen : sizes.size blob = extent.len := Except.ok.inj h
    have hpos := sizes.size_pos blob
    have hin : extent.stop ≤ max file.len (extent.offset + extent.len) := le_max_right _ _
    simp only [JournalFile.writePrefix, hlen, JournalFile.read, if_true, hin, if_neg (by omega : ¬extent.len = 0)]
    exact JournalFile.lookup_self blob (by omega) le_rfl
  read_write_manifest file extent manifest n h hn hin := by
    have hlen : sizes.size (.manifest manifest) = n := Except.ok.inj h
    have hpos := sizes.size_pos (.manifest manifest)
    simp only [JournalFile.writePrefix, hlen, JournalFile.read, if_true, hin, if_neg (by omega : ¬n = 0)]
    exact JournalFile.lookup_self (.manifest manifest) (by omega) hn

end LocalTables
