import LocalTables.Layout.Manifest
import LocalTables.Lib.Except

/-! The table file as the engine uses it. Everything the engine stores is a `Blob`: it is encoded,
placed at an offset and later read back from an extent. `Media` is the file together with the
encoders: what a write, a torn write and a change of length do to a later read. The module
`Io.ByteMedia` builds one from bytes, frames and checksums; `Journal` below keeps the list of the
writes instead and is what the concrete runs evaluate on. -/

namespace LocalTables

/-- A row is its cells, one per column. -/
abbrev Row (ν : Type) := List ν

/-- One built segment: `columnar/segment.rs` up to the encoding of its columns. -/
structure SegmentData (ν : Type) where
  segmentId : SegmentId
  schemaFingerprint : Nat
  columns : Nat
  rows : List (Row ν)
  blockRows : Nat
  deriving DecidableEq, Repr

/-- What one write stores. -/
inductive Blob (τ ν : Type) where
  | header (header : FileHeader)
  | metaPage (page : MetaPage)
  | manifest (manifest : Manifest)
  | schema (schema : Schema τ)
  | segment (segment : SegmentData ν)
  | deletes (rows : Finset Nat)
  deriving DecidableEq

/-- What a read expects to find. A segment is found through its metadata frame, addressed relative
to the start of the segment. -/
inductive Kind where
  | header
  | metaPage
  | manifest
  | schema
  | segment (metaFrame : Extent)
  | deletes
  deriving DecidableEq, Repr

/-- The kind a blob is read back as. -/
def Blob.kind {τ ν : Type} (metaExtent : SegmentData ν → Extent) : Blob τ ν → Kind
  | header _ => .header
  | metaPage _ => .metaPage
  | manifest _ => .manifest
  | schema _ => .schema
  | segment data => .segment (metaExtent data)
  | deletes _ => .deletes

/-- A table file and the encoders of what is stored in it. -/
structure Media (τ ν : Type) where
  File : Type
  /-- A file that was just created. -/
  create : File
  len : File → Nat
  /-- Grow the file, filling with zeros. -/
  setLen : File → Nat → File
  /-- Bytes the blob takes once encoded. -/
  size : Blob τ ν → Except Error Nat
  /-- Where the metadata frame of a segment sits, relative to its start. -/
  metaExtent : SegmentData ν → Extent
  /-- The file after the first `count` bytes of the encoded blob have reached it at `offset`. -/
  writePrefix : File → Nat → Blob τ ν → Nat → File
  read : File → Extent → Kind → Except Error (Blob τ ν)
  len_create : len create = 0
  len_setLen : ∀ file n, len (setLen file n) = n
  len_writePrefix : ∀ file offset blob n count, size blob = .ok n → count ≤ n →
    len (writePrefix file offset blob count) =
      if count = 0 then len file else max (len file) (offset + count)
  size_pos : ∀ blob n, size blob = .ok n → 0 < n
  size_header : ∀ header n, size (.header header) = .ok n → n = headerSize
  size_metaPage : ∀ page n, size (.metaPage page) = .ok n → n = metaPageSize
  read_setLen : ∀ file n extent kind, extent.stop ≤ len file → extent.stop ≤ n →
    read (setLen file n) extent kind = read file extent kind
  read_write_other : ∀ file offset blob n count extent kind, size blob = .ok n → count ≤ n →
    extent.stop ≤ len file → offset + count ≤ extent.offset ∨ extent.stop ≤ offset →
    read (writePrefix file offset blob count) extent kind = read file extent kind
  read_write_self : ∀ file extent blob, size blob = .ok extent.len →
    read (writePrefix file extent.offset blob extent.len) extent (blob.kind metaExtent) = .ok blob
  /-- A manifest is written into a slot that may be larger than its encoding. -/
  read_write_manifest : ∀ file extent manifest n, size (.manifest manifest) = .ok n →
    n ≤ extent.len → extent.stop ≤ max (len file) (extent.offset + n) →
    read (writePrefix file extent.offset (.manifest manifest) n) extent .manifest =
      .ok (.manifest manifest)

variable {τ ν : Type}

/-- One request to the file, as the handle issued it. -/
inductive IoOp (τ ν : Type) where
  | setLen (len : Nat)
  | write (offset : Nat) (blob : Blob τ ν)
  | sync
  deriving DecidableEq

namespace Media

variable (M : Media τ ν)

/-- The whole blob written at `offset`. A blob the encoder refuses is never written. -/
def write (file : M.File) (offset : Nat) (blob : Blob τ ν) : M.File :=
  match M.size blob with
  | .ok n => M.writePrefix file offset blob n
  | .error _ => file

def apply (file : M.File) : IoOp τ ν → M.File
  | .setLen n => M.setLen file n
  | .write offset blob => M.write file offset blob
  | .sync => file

def applyAll (file : M.File) (ops : List (IoOp τ ν)) : M.File := ops.foldl M.apply file

/-- The files a crash, or a failed request, can leave while `ops` run in order: some of them have
been carried out, and at most one write is cut after a prefix of its bytes. -/
inductive Cut : M.File → List (IoOp τ ν) → M.File → Prop where
  | stop (file : M.File) (ops : List (IoOp τ ν)) : Cut file ops file
  | torn (file : M.File) (offset : Nat) (blob : Blob τ ν) (n count : Nat) (ops : List (IoOp τ ν))
      (hsize : M.size blob = .ok n) (hcount : count ≤ n) :
      Cut file (.write offset blob :: ops) (M.writePrefix file offset blob count)
  | step (file : M.File) (op : IoOp τ ν) (ops : List (IoOp τ ν)) (left : M.File) :
      Cut (M.apply file op) ops left → Cut file (op :: ops) left

/-- A request that leaves the bytes of an extent alone. -/
def Spares (e : Extent) : IoOp τ ν → Prop
  | .setLen n => e.stop ≤ n
  | .write offset blob => ∃ n, M.size blob = .ok n ∧ (offset + n ≤ e.offset ∨ e.stop ≤ offset)
  | .sync => True

variable {M} {e : Extent} {file left : M.File} {ops : List (IoOp τ ν)}

theorem write_eq {offset n : Nat} {blob : Blob τ ν} (hsize : M.size blob = .ok n) :
    M.write file offset blob = M.writePrefix file offset blob n := by
  rw [write, hsize]

theorem len_write {offset n : Nat} {blob : Blob τ ν} (hsize : M.size blob = .ok n) :
    M.len (M.write file offset blob) = max (M.len file) (offset + n) := by
  have hpos := M.size_pos blob n hsize
  rw [write_eq hsize, M.len_writePrefix file offset blob n n hsize le_rfl, if_neg (by omega)]

theorem writePrefix_spared {offset n count : Nat} {blob : Blob τ ν} (hsize : M.size blob = .ok n)
    (hcount : count ≤ n) (hin : e.stop ≤ M.len file)
    (happly : offset + n ≤ e.offset ∨ e.stop ≤ offset) :
    e.stop ≤ M.len (M.writePrefix file offset blob count) ∧
      ∀ kind, M.read (M.writePrefix file offset blob count) e kind = M.read file e kind := by
  refine ⟨?_, fun kind => M.read_write_other file offset blob n count e kind hsize hcount hin (by omega)⟩
  rw [M.len_writePrefix file offset blob n count hsize hcount]
  split <;> omega

/-- A spared extent is still inside the file and reads as before. -/
theorem apply_spared {op : IoOp τ ν} (hspares : M.Spares e op) (hin : e.stop ≤ M.len file) :
    e.stop ≤ M.len (M.apply file op) ∧ ∀ kind, M.read (M.apply file op) e kind = M.read file e kind := by
  cases op with
  | setLen n =>
      exact ⟨by rw [apply, M.len_setLen]; exact hspares,
        fun kind => M.read_setLen file n e kind hin hspares⟩
  | write offset blob =>
      obtain ⟨n, hsize, hapart⟩ := hspares
      rw [apply, write_eq hsize]
      exact writePrefix_spared hsize le_rfl hin hapart
  | sync => exact ⟨hin, fun _ => rfl⟩

theorem applyAll_cons (op : IoOp τ ν) (ops : List (IoOp τ ν)) :
    M.applyAll file (op :: ops) = M.applyAll (M.apply file op) ops := rfl

theorem applyAll_append (ops more : List (IoOp τ ν)) :
    M.applyAll file (ops ++ more) = M.applyAll (M.applyAll file ops) more := by
  rw [applyAll, List.foldl_append]
  rfl

theorem applyAll_spared (hspares : ∀ op ∈ ops, M.Spares e op) (hin : e.stop ≤ M.len file) :
    e.stop ≤ M.len (M.applyAll file ops) ∧
      ∀ kind, M.read (M.applyAll file ops) e kind = M.read file e kind := by
  induction ops generalizing file with
  | nil => exact ⟨hin, fun _ => rfl⟩
  | cons op ops ih =>
      obtain ⟨hin', hread⟩ := apply_spared (hspares op (by simp)) hin
      obtain ⟨hin'', hread'⟩ := ih (fun o ho => hspares o (by simp [ho])) hin'
      exact ⟨hin'', fun kind => (hread' kind).trans (hread kind)⟩

/-- However far the requests got, an extent that all of them spare reads as before. -/
theorem Cut.spared (hcut : M.Cut file ops left) (hspares : ∀ op ∈ ops, M.Spares e op)
    (hin : e.stop ≤ M.len file) :
    e.stop ≤ M.len left ∧ ∀ kind, M.read left e kind = M.read file e kind := by
  induction hcut with
  | stop file ops => exact ⟨hin, fun _ => rfl⟩
  | torn file offset blob n count ops hsize hcount =>
      obtain ⟨n', hsize', hapart⟩ := hspares (.write offset blob) (by simp)
      obtain rfl := Except.ok.inj (hsize'.symm.trans hsize)
      exact writePrefix_spared hsize hcount hin hapart
  | step file op ops left _ ih =>
      obtain ⟨hin', hread⟩ := apply_spared (hspares op (by simp)) hin
      obtain ⟨hin'', hread'⟩ := ih (fun o ho => hspares o (by simp [ho])) hin'
      exact ⟨hin'', fun kind => (hread' kind).trans (hread kind)⟩

/-- Requests that never set the length below `n` leave a file at least that long. -/
theorem Cut.len_le {n : Nat} (hcut : M.Cut file ops left) (hset : ∀ k, .setLen k ∈ ops → n ≤ k)
    (hlen : n ≤ M.len file) : n ≤ M.len left := by
  induction hcut with
  | stop file ops => exact hlen
  | torn file offset blob size count ops hsize hcount =>
      rw [M.len_writePrefix file offset blob size count hsize hcount]
      split <;> omega
  | step file op ops left _ ih =>
      refine ih (fun k hk => hset k (by simp [hk])) ?_
      cases op with
      | setLen k => rw [apply, M.len_setLen]; exact hset k (by simp)
      | write offset blob =>
          cases hsize : M.size blob with
          | error err => rw [apply, write, hsize]; exact hlen
          | ok size => rw [apply, len_write hsize]; omega
      | sync => exact hlen

/-- The requests may also have been carried out in full. -/
theorem Cut.applyAll (file : M.File) (ops : List (IoOp τ ν)) : M.Cut file ops (M.applyAll file ops) := by
  induction ops generalizing file with
  | nil => exact .stop _ _
  | cons op ops ih => exact .step _ _ _ _ (ih _)

/-- A cut of two groups of requests falls in the first or in the second. -/
theorem Cut.append {more : List (IoOp τ ν)} (hcut : M.Cut file (ops ++ more) left) :
    M.Cut file ops left ∨ M.Cut (M.applyAll file ops) more left := by
  induction ops generalizing file with
  | nil => exact .inr hcut
  | cons op ops ih =>
      cases hcut with
      | stop => exact .inl (.stop _ _)
      | torn _ offset blob n count _ hsize hcount => exact .inl (.torn _ _ _ n _ _ hsize hcount)
      | step _ _ _ _ hcut =>
          rcases ih hcut with h | h
          · exact .inl (.step _ _ _ _ h)
          · exact .inr h

theorem Cut.after {more : List (IoOp τ ν)} (hcut : M.Cut (M.applyAll file ops) more left) :
    M.Cut file (ops ++ more) left := by
  induction ops generalizing file with
  | nil => exact hcut
  | cons op ops ih => exact .step _ _ _ _ (ih hcut)

end Media

/-- An open file: its contents, and the requests made through this handle so far. -/
structure FileIo (M : Media τ ν) where
  file : M.File
  log : List (IoOp τ ν)

namespace FileIo

variable {M : Media τ ν}

def len (io : FileIo M) : Nat := M.len io.file

def request (io : FileIo M) (op : IoOp τ ν) : FileIo M := ⟨M.apply io.file op, io.log ++ [op]⟩

def setLen (io : FileIo M) (n : Nat) : FileIo M := io.request (.setLen n)

def syncData (io : FileIo M) : FileIo M := io.request .sync

/-- Encode the blob, then write it in place. -/
def writeAt (io : FileIo M) (offset : Nat) (blob : Blob τ ν) : Except Error (FileIo M) := do
  let _ ← M.size blob
  return io.request (.write offset blob)

/-- Write the blob at the end of the file. Returns the extent it landed in. -/
def append (io : FileIo M) (blob : Blob τ ν) : Except Error (Extent × FileIo M) := do
  let n ← M.size blob
  return (⟨io.len, n⟩, io.request (.write io.len blob))

/-- Grow first, so that a write never lands past the end of the file. -/
def ensureLen (io : FileIo M) (n : Nat) : FileIo M := if n > io.len then io.setLen n else io

variable {io io' : FileIo M} {blob : Blob τ ν} {e : Extent}

/-- The requests made between two states of a handle, and what they did to the file. -/
def Issued (io : FileIo M) (ops : List (IoOp τ ν)) (io' : FileIo M) : Prop :=
  io'.log = io.log ++ ops ∧ io'.file = M.applyAll io.file ops

theorem Issued.refl (io : FileIo M) : Issued io [] io := ⟨by simp, rfl⟩

theorem Issued.trans {io'' : FileIo M} {ops more : List (IoOp τ ν)} (h : Issued io ops io')
    (h' : Issued io' more io'') : Issued io (ops ++ more) io'' :=
  ⟨by rw [h'.1, h.1, List.append_assoc], by rw [h'.2, h.2, Media.applyAll_append]⟩

theorem issued_request (io : FileIo M) (op : IoOp τ ν) : Issued io [op] (io.request op) := ⟨rfl, rfl⟩

/-- The request that makes room, if one is needed. -/
def growth (io : FileIo M) (n : Nat) : List (IoOp τ ν) := if n > io.len then [.setLen n] else []

theorem issued_ensureLen (io : FileIo M) (n : Nat) : Issued io (io.growth n) (io.ensureLen n) := by
  unfold growth ensureLen
  split
  · exact issued_request io _
  · exact Issued.refl io

theorem len_ensureLen (io : FileIo M) (n : Nat) : (io.ensureLen n).len = max io.len n := by
  unfold ensureLen
  split
  · rw [len, setLen, request, Media.apply, M.len_setLen]
    omega
  · omega

theorem spares_growth {n : Nat} (hin : e.stop ≤ io.len) : ∀ op ∈ io.growth n, M.Spares e op := by
  intro op hop
  unfold growth at hop
  split at hop
  · rw [List.mem_singleton] at hop
    subst hop
    exact Nat.le_of_lt (Nat.lt_of_le_of_lt hin ‹_›)
  · cases hop

theorem writeAt_ok {offset : Nat} (h : io.writeAt offset blob = .ok io') :
    ∃ n, M.size blob = .ok n ∧ io' = io.request (.write offset blob) := by
  obtain ⟨n, hn, h⟩ := bind_eq_ok.mp h
  exact ⟨n, hn, (Except.ok.inj h).symm⟩

theorem append_ok (h : io.append blob = .ok (e, io')) :
    ∃ n, M.size blob = .ok n ∧ e = ⟨io.len, n⟩ ∧ io' = io.request (.write io.len blob) := by
  obtain ⟨n, hn, h⟩ := bind_eq_ok.mp h
  have := Except.ok.inj h
  simp only [Prod.mk.injEq] at this
  exact ⟨n, hn, this.1.symm, this.2.symm⟩

theorem len_write (io : FileIo M) {offset n : Nat} (hsize : M.size blob = .ok n) :
    (io.request (.write offset blob)).len = max io.len (offset + n) :=
  Media.len_write hsize

end FileIo

end LocalTables
