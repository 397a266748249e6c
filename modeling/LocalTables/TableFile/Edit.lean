import LocalTables.TableFile.Commit

/-! A commit being prepared. The engine clones the committed manifest, writes segments and delete
vectors through the allocator, retires segments, and commits the result. Each such edit keeps the
accounting of the manifest and writes only where the free list allows it. -/

namespace LocalTables

variable {τ ν : Type} {M : Media τ ν}

namespace Manifest

variable (m : Manifest)

/-- Record a segment that was just written. -/
def addSegment (data metaFrame : Extent) (rowCount : Nat) : Manifest :=
  { m with
    nextSegmentId := m.nextSegmentId + 1
    segments := m.segments ++ [⟨m.nextSegmentId, data, metaFrame, rowCount, 0, none⟩] }

/-- Point a segment at a new delete vector. The one it replaces is garbage as of this commit. -/
def replaceDeletes (id : SegmentId) (previous : Option Extent) (extent : Extent) (count : Nat) : Manifest :=
  (match previous with
    | some previous => m.free previous
    | none => m).modifySegment id fun entry => { entry with deletes := some extent, deletedCount := count }

def freeAll (extents : List Extent) : Manifest := extents.foldl Manifest.free m

/-- Drop segments and free the extents of the entries they were read from. -/
def retire (ids : List SegmentId) (sources : List SegmentEntry) : Manifest :=
  Manifest.freeAll { m with segments := m.segments.filter fun entry => entry.segmentId ∉ ids }
    (sources.flatMap SegmentEntry.refs)

variable {m}

@[simp] theorem segments_free (e : Extent) : (m.free e).segments = m.segments := by
  unfold free; split <;> rfl

@[simp] theorem fileLen_free (e : Extent) : (m.free e).fileLen = m.fileLen := by
  unfold free; split <;> rfl

@[simp] theorem nextSegmentId_free (e : Extent) : (m.free e).nextSegmentId = m.nextSegmentId := by
  unfold free; split <;> rfl

theorem freeAll_eq (extents : List Extent) :
    m.freeAll extents = { m with freeExtents := (m.freeAll extents).freeExtents } := by
  induction extents generalizing m with
  | nil => rfl
  | cons e extents ih =>
      have hstep : m.freeAll (e :: extents) = (m.free e).freeAll extents := rfl
      rw [hstep, ih]
      unfold free
      split <;> rfl

@[simp] theorem segments_freeAll (es : List Extent) : (m.freeAll es).segments = m.segments := by
  rw [freeAll_eq]

@[simp] theorem fileLen_freeAll (es : List Extent) : (m.freeAll es).fileLen = m.fileLen := by
  rw [freeAll_eq]

@[simp] theorem txnId_freeAll (es : List Extent) : (m.freeAll es).txnId = m.txnId := by
  rw [freeAll_eq]

@[simp] theorem schema_freeAll (es : List Extent) : (m.freeAll es).schema = m.schema := by
  rw [freeAll_eq]

theorem modify_middle {α : Type} (front back : List α) (a : α) (change : α → α) :
    (front ++ a :: back).modify front.length change = front ++ change a :: back := by
  induction front with
  | nil => rfl
  | cons b front ih => simpa using ih

/-- Where the entry of a segment sits, and what changing it in place gives. -/
theorem segment_split {id : SegmentId} {entry : SegmentEntry} (h : m.segment id = some entry) :
    ∃ front back, m.segments = front ++ entry :: back ∧ entry.segmentId = id ∧
      (∀ other ∈ front, other.segmentId ≠ id) ∧
      ∀ m' : Manifest, m'.segments = m.segments → ∀ change : SegmentEntry → SegmentEntry,
        m'.modifySegment id change = { m' with segments := front ++ change entry :: back } := by
  obtain ⟨hid, front, back, hsplit, hfront⟩ := List.find?_eq_some_iff_append.mp h
  have hne : ∀ other ∈ front, other.segmentId ≠ id := by
    intro other hother
    have := hfront other hother
    simpa using this
  refine ⟨front, back, hsplit, by simpa using hid, hne, fun m' hm' change => ?_⟩
  have hindex : (front ++ entry :: back).findIdx? (fun e => e.segmentId == id) = some front.length := by
    rw [List.findIdx?_append, List.findIdx?_eq_none_iff.mpr (by simpa using hne), List.findIdx?_cons, hid]
    simp
  rw [modifySegment, hm', hsplit, hindex]
  simp only [modify_middle]

theorem refs_append (front back : List SegmentEntry) :
    (front ++ back).flatMap SegmentEntry.refs =
      front.flatMap SegmentEntry.refs ++ back.flatMap SegmentEntry.refs :=
  List.flatMap_append

end Manifest

theorem coverAt_freeAll (m : Manifest) (extents : List Extent) (byte : Nat) :
    Extent.coverAt (m.freeAll extents).freed byte =
      Extent.coverAt m.freed byte + Extent.coverAt extents byte := by
  induction extents generalizing m with
  | nil => rfl
  | cons e extents ih =>
      have hstep : m.freeAll (e :: extents) = (m.free e).freeAll extents := rfl
      rw [hstep, ih, coverAt_free]
      simp only [Extent.coverAt_cons, Extent.coverAt_nil]
      omega

theorem Protects.freeAll {m : Manifest} {txn : Nat} {e : Extent} (h : Protects m txn e)
    (extents : List Extent) (htxn : txn < m.txnId) : Protects (m.freeAll extents) txn e := by
  induction extents generalizing m with
  | nil => exact h
  | cons extent extents ih => exact ih (h.free extent htxn) (by rw [Manifest.txnId_free]; exact htxn)

/-- Protection depends on the free list and the length alone. -/
theorem Protects.congr {m m' : Manifest} {txn : Nat} {e : Extent} (h : Protects m txn e)
    (hfree : m'.freeExtents = m.freeExtents) (hlen : m'.fileLen = m.fileLen) : Protects m' txn e :=
  ⟨h.pos, hlen ▸ h.inFile, hfree ▸ h.apart⟩

theorem Accounted.same {used used' : List Extent} {m m' : Manifest} (h : Accounted used m)
    (hfree : m'.freeExtents = m.freeExtents) (hlen : m'.fileLen = m.fileLen)
    (hcover : ∀ byte, Extent.coverAt used' byte = Extent.coverAt used byte) : Accounted used' m' :=
  h.congr hlen fun byte => by rw [Manifest.freed, Manifest.freed, hfree, hcover]

/-- Everything an allocated write does. -/
theorem writeAllocated_ok {io io' : FileIo M} {m m' : Manifest} {blob : Blob τ ν} {align minActiveTxn : Nat}
    {e : Extent} (halign : align.isPowerOfTwo)
    (h : writeAllocated io m blob align minActiveTxn = .ok (e, m', io')) :
    M.size blob = .ok e.len ∧ 0 < e.len ∧ allocate m e.len align minActiveTxn = (e, m') ∧
      FileIo.Issued io (io.growth e.stop ++ [.write e.offset blob]) io' := by
  obtain ⟨n, hn, h⟩ := bind_eq_ok.mp h
  have hpos := M.size_pos blob n hn
  have hlen : (allocate m n align minActiveTxn).1.len = n := allocate_len m minActiveTxn halign
  rcases halloc : allocate m n align minActiveTxn with ⟨extent, manifest⟩
  rw [halloc] at h hlen
  dsimp only at h hlen
  have hne : ¬(extent.isEmpty = true) := by
    rw [Extent.isEmpty_iff, hlen]
    omega
  rw [if_neg hne] at h
  obtain ⟨io₁, hwrite, h⟩ := bind_eq_ok.mp h
  obtain ⟨-, -, rfl⟩ := FileIo.writeAt_ok hwrite
  have heq := Except.ok.inj h
  simp only [Prod.mk.injEq] at heq
  obtain ⟨rfl, rfl, rfl⟩ := heq
  rw [hlen]
  exact ⟨hn, hpos, halloc, (FileIo.issued_ensureLen _ _).trans (FileIo.issued_request _ _)⟩

theorem writeAllocated_read {io io' : FileIo M} {m m' : Manifest} {blob : Blob τ ν} {align minActiveTxn : Nat}
    {e : Extent} (halign : align.isPowerOfTwo)
    (h : writeAllocated io m blob align minActiveTxn = .ok (e, m', io')) :
    io'.len = max io.len e.stop ∧ M.read io'.file e (blob.kind M.metaExtent) = .ok blob := by
  obtain ⟨hsize, -, -, -, hfile⟩ := writeAllocated_ok halign h
  have hgrown : M.applyAll io.file (io.growth e.stop) = (io.ensureLen e.stop).file :=
    ((FileIo.issued_ensureLen io e.stop).2).symm
  have hlen : M.len (io.ensureLen e.stop).file = max io.len e.stop := FileIo.len_ensureLen io e.stop
  have hstop : e.stop = e.offset + e.len := rfl
  rw [Media.applyAll_append, hgrown, Media.applyAll_cons] at hfile
  rw [FileIo.len, hfile]
  refine ⟨?_, ?_⟩
  · change M.len (M.write _ _ _) = _
    rw [Media.len_write hsize, hlen]
    omega
  · change M.read (M.write _ _ _) _ _ = _
    rw [Media.write_eq hsize]
    exact M.read_write_self _ e blob hsize

theorem spares_allocatedWrite {io : FileIo M} {blob : Blob τ ν} {e extent : Extent}
    (hsize : M.size blob = .ok e.len) (hin : extent.stop ≤ io.len) (hapart : e.Apart extent) :
    ∀ op ∈ io.growth e.stop ++ [.write e.offset blob], M.Spares extent op := by
  intro op hop
  rcases List.mem_append.mp hop with hop | hop
  · exact FileIo.spares_growth hin op hop
  · rw [List.mem_singleton] at hop
    subst hop
    exact ⟨e.len, hsize, hapart⟩

section Accounting

variable {m : Manifest}

theorem coverAt_addSegment (m : Manifest) (data metaFrame : Extent) (rowCount byte : Nat) :
    Extent.coverAt (m.addSegment data metaFrame rowCount).refs byte =
      Extent.coverAt m.refs byte + Extent.coverAt [data] byte := by
  simp only [Manifest.refs, Manifest.addSegment, Manifest.refs_append, List.flatMap_cons, List.flatMap_nil,
    SegmentEntry.refs, Option.toList_none, List.append_nil, Extent.coverAt_append]

theorem Manifest.segments_replaceDeletes {m' : Manifest} {id : SegmentId} {entry : SegmentEntry}
    (hentry : m.segment id = some entry) (hm' : m'.segments = m.segments) (extent : Extent) (count : Nat) :
    ∃ front back, m.segments = front ++ entry :: back ∧ entry.segmentId = id ∧
      (∀ other ∈ front, other.segmentId ≠ id) ∧
      (m'.replaceDeletes id entry.deletes extent count).segments =
        front ++ { entry with deletes := some extent, deletedCount := count } :: back := by
  obtain ⟨front, back, hsplit, hid, hne, hmodify⟩ := Manifest.segment_split hentry
  refine ⟨front, back, hsplit, hid, hne, ?_⟩
  unfold Manifest.replaceDeletes
  split
  · rw [hmodify _ (by rw [Manifest.segments_free, hm'])]
  · rw [hmodify _ hm']

theorem coverAt_freed_replaceDeletes (m : Manifest) (id : SegmentId) (previous : Option Extent)
    (extent : Extent) (count byte : Nat) :
    Extent.coverAt (m.replaceDeletes id previous extent count).freed byte =
      Extent.coverAt m.freed byte + Extent.coverAt previous.toList byte := by
  cases previous with
  | none => rfl
  | some previous => exact coverAt_free m previous byte

theorem coverAt_replaceDeletes {m' : Manifest} {id : SegmentId} {entry : SegmentEntry}
    (hentry : m.segment id = some entry) (hm' : m'.segments = m.segments) (extent : Extent)
    (count byte : Nat) :
    Extent.coverAt (m'.replaceDeletes id entry.deletes extent count).refs byte +
      Extent.coverAt (m'.replaceDeletes id entry.deletes extent count).freed byte =
        Extent.coverAt m.refs byte + Extent.coverAt m'.freed byte + Extent.coverAt [extent] byte := by
  obtain ⟨front, back, hsplit, -, -, hsegments⟩ := Manifest.segments_replaceDeletes hentry hm' extent count
  rw [coverAt_freed_replaceDeletes]
  simp only [Manifest.refs, hsegments, hsplit, Manifest.refs_append, List.flatMap_cons, SegmentEntry.refs,
    Option.toList_some, List.cons_append, Extent.coverAt_append, Extent.coverAt_cons, Extent.coverAt_nil]
  omega

theorem coverAt_retire {ids : List SegmentId} {sources : List SegmentEntry}
    (hperm : sources.Perm (m.segments.filter fun entry => entry.segmentId ∈ ids)) (byte : Nat) :
    Extent.coverAt (m.retire ids sources).refs byte + Extent.coverAt (m.retire ids sources).freed byte =
      Extent.coverAt m.refs byte + Extent.coverAt m.freed byte := by
  have hparts := List.filter_append_perm (fun entry => decide (entry.segmentId ∈ ids)) m.segments
  have hsources := Extent.coverAt_perm (hperm.flatMap_right SegmentEntry.refs) byte
  have hall := Extent.coverAt_perm (hparts.flatMap_right SegmentEntry.refs) byte
  simp only [List.flatMap_append, Extent.coverAt_append, ← decide_not] at hall
  rw [Manifest.retire, coverAt_freeAll, Manifest.refs, Manifest.segments_freeAll, Manifest.refs]
  simp only [Manifest.freed]
  omega

end Accounting

/-- A commit being prepared: the file it writes to, and the manifest so far. -/
structure Pending (M : Media τ ν) where
  io : FileIo M
  manifest : Manifest

/-- One edit of a commit being prepared. `allowed` restricts the allocations a run may ask for, by the
manifest, the length and the alignment. -/
inductive Edit (allowed : Manifest → Nat → Nat → Prop) (minActiveTxn : Nat) : Pending M → Pending M → Prop where
  | segment {io io' : FileIo M} {m m' : Manifest} {e : Extent} (data : SegmentData ν)
      (hallowed : allowed m e.len segmentAlign)
      (h : writeAllocated io m (.segment data) segmentAlign minActiveTxn = .ok (e, m', io')) :
      Edit allowed minActiveTxn ⟨io, m⟩ ⟨io', m'.addSegment e
        ⟨e.offset + (M.metaExtent data).offset, (M.metaExtent data).len⟩ data.rows.length⟩
  | deletes {io io' : FileIo M} {m m' : Manifest} {e : Extent} (id : SegmentId) (entry : SegmentEntry)
      (rows : Finset Nat) (hentry : m.segment id = some entry) (hallowed : allowed m e.len bufferAlign)
      (h : writeAllocated io m (.deletes rows) bufferAlign minActiveTxn = .ok (e, m', io')) :
      Edit allowed minActiveTxn ⟨io, m⟩ ⟨io', m'.replaceDeletes id entry.deletes e rows.card⟩
  | retire {io : FileIo M} {m : Manifest} (ids : List SegmentId) (sources : List SegmentEntry)
      (hperm : sources.Perm (m.segments.filter fun entry => entry.segmentId ∈ ids)) :
      Edit allowed minActiveTxn ⟨io, m⟩ ⟨io, m.retire ids sources⟩
  | stamp {io : FileIo M} {m : Manifest} (checkpointLsn : Lsn) (nextSeqno : Nat) :
      Edit allowed minActiveTxn ⟨io, m⟩
        ⟨io, { m with checkpointLsn := checkpointLsn, nextSeqno := nextSeqno }⟩

theorem allocate_segments (m : Manifest) {len align : Nat} (minActiveTxn : Nat) (hlen : 0 < len)
    (halign : align.isPowerOfTwo) :
    ∃ frees fileLen, (allocate m len align minActiveTxn).2 =
      { m with freeExtents := frees, fileLen := fileLen } := by
  rcases allocate_cases m minActiveTxn hlen halign with ⟨_, _, _, _, -, -, -, -, heq⟩ | ⟨-, heq⟩
  · exact ⟨_, _, by rw [heq]⟩
  · exact ⟨_, _, by rw [heq]⟩

theorem Protects.replaceDeletes {m : Manifest} {txn : Nat} {e : Extent} (h : Protects m txn e)
    (htxn : txn < m.txnId) (id : SegmentId) (previous : Option Extent) (extent : Extent) (count : Nat) :
    Protects (m.replaceDeletes id previous extent count) txn e := by
  cases previous with
  | none => exact h.congr rfl rfl
  | some previous => exact (h.free previous htxn).congr rfl rfl

theorem Protects.retire {m : Manifest} {txn : Nat} {e : Extent} (h : Protects m txn e)
    (htxn : txn < m.txnId) (ids : List SegmentId) (sources : List SegmentEntry) :
    Protects (m.retire ids sources) txn e := by
  have hdropped : Protects { m with segments := m.segments.filter fun entry => entry.segmentId ∉ ids } txn e :=
    h.congr rfl rfl
  exact hdropped.freeAll _ htxn

@[simp] theorem Manifest.replaceDeletes_fixed (m : Manifest) (id : SegmentId) (previous : Option Extent)
    (extent : Extent) (count : Nat) :
    (m.replaceDeletes id previous extent count).txnId = m.txnId ∧
      (m.replaceDeletes id previous extent count).schema = m.schema ∧
      (m.replaceDeletes id previous extent count).fileLen = m.fileLen := by
  cases previous with
  | none => exact ⟨rfl, rfl, rfl⟩
  | some previous => exact ⟨Manifest.txnId_free _ _, Manifest.schema_free _ _, Manifest.fileLen_free _⟩

namespace Edit

variable {allowed : Manifest → Nat → Nat → Prop} {minActiveTxn : Nat} {p p' : Pending M} {used : List Extent}

/-- The bytes an edit moves: between the segments and the free list, and in from past the end of the
file. -/
theorem cover (hedit : Edit allowed minActiveTxn p p') :
    ∃ grown, Grown p.manifest p'.manifest grown ∧
      (0 < grown.len → ∃ len align, align.isPowerOfTwo ∧ 0 < len ∧ allowed p.manifest len align ∧
        grown = (allocate p.manifest len align minActiveTxn).1) ∧
      ∀ byte, Extent.coverAt p'.manifest.refs byte + Extent.coverAt p'.manifest.freed byte =
        Extent.coverAt p.manifest.refs byte + Extent.coverAt p.manifest.freed byte +
          Extent.coverAt [grown] byte := by
  cases hedit with
  | @segment io io' m m' e data hallowed hwrite =>
      obtain ⟨-, hpos, halloc, -⟩ := writeAllocated_ok isPowerOfTwo_segmentAlign hwrite
      obtain ⟨grown, hgrown, hlast, hcover⟩ := allocate_cover m minActiveTxn hpos isPowerOfTwo_segmentAlign
      obtain ⟨frees, fileLen, hm'⟩ := allocate_segments m minActiveTxn hpos isPowerOfTwo_segmentAlign
      refine ⟨grown, hgrown.congr (by rw [halloc]; rfl),
        fun h => ⟨_, _, isPowerOfTwo_segmentAlign, hpos, hallowed, hlast h⟩, fun byte => ?_⟩
      have hbyte := hcover byte
      rw [halloc] at hbyte hm'
      have hrefs : m'.refs = m.refs := by rw [show m' = _ from hm']; rfl
      have hfreed : (m'.addSegment e ⟨e.offset + (M.metaExtent data).offset, (M.metaExtent data).len⟩
        data.rows.length).freed = m'.freed := rfl
      rw [coverAt_addSegment, hrefs, hfreed]
      dsimp only at hbyte ⊢
      omega
  | @deletes io io' m m' e id entry rows hentry hallowed hwrite =>
      obtain ⟨-, hpos, halloc, -⟩ := writeAllocated_ok isPowerOfTwo_bufferAlign hwrite
      obtain ⟨grown, hgrown, hlast, hcover⟩ := allocate_cover m minActiveTxn hpos isPowerOfTwo_bufferAlign
      obtain ⟨frees, fileLen, hm'⟩ := allocate_segments m minActiveTxn hpos isPowerOfTwo_bufferAlign
      refine ⟨grown, hgrown.congr (by rw [halloc]; exact (Manifest.replaceDeletes_fixed _ _ _ _ _).2.2),
        fun h => ⟨_, _, isPowerOfTwo_bufferAlign, hpos, hallowed, hlast h⟩, fun byte => ?_⟩
      have hbyte := hcover byte
      rw [halloc] at hbyte hm'
      rw [coverAt_replaceDeletes hentry (by rw [show m' = _ from hm'])]
      dsimp only at hbyte ⊢
      omega
  | retire ids sources hperm =>
      refine ⟨Extent.empty, .inl ⟨rfl, Manifest.fileLen_freeAll _⟩, fun h => absurd h (by decide), fun byte => ?_⟩
      rw [coverAt_retire hperm, Extent.coverAt_empty]
      rfl
  | stamp checkpointLsn nextSeqno =>
      refine ⟨Extent.empty, .inl ⟨rfl, rfl⟩, fun h => absurd h (by decide), fun byte => ?_⟩
      rw [Extent.coverAt_empty]
      rfl

theorem accounted (hedit : Edit allowed minActiveTxn p p')
    (h : Accounted (used ++ p.manifest.refs) p.manifest) : Accounted (used ++ p'.manifest.refs) p'.manifest := by
  obtain ⟨grown, hgrown, -, hcover⟩ := hedit.cover
  refine h.grow hgrown fun byte => ?_
  have := hcover byte
  simp only [Extent.coverAt_append]
  omega

/-- The txn and the schema are fixed when the commit begins. -/
theorem fixed (hedit : Edit allowed minActiveTxn p p') :
    p'.manifest.txnId = p.manifest.txnId ∧ p'.manifest.schema = p.manifest.schema := by
  cases hedit with
  | segment data _ hwrite =>
      obtain ⟨-, hpos, halloc, -⟩ := writeAllocated_ok isPowerOfTwo_segmentAlign hwrite
      obtain ⟨frees, fileLen, hm'⟩ := allocate_segments _ minActiveTxn hpos isPowerOfTwo_segmentAlign
      rw [halloc] at hm'
      dsimp only at hm'
      subst hm'
      exact ⟨rfl, rfl⟩
  | deletes id entry rows hentry _ hwrite =>
      obtain ⟨-, hpos, halloc, -⟩ := writeAllocated_ok isPowerOfTwo_bufferAlign hwrite
      obtain ⟨frees, fileLen, hm'⟩ := allocate_segments _ minActiveTxn hpos isPowerOfTwo_bufferAlign
      rw [halloc] at hm'
      dsimp only at hm'
      subst hm'
      exact ⟨(Manifest.replaceDeletes_fixed _ _ _ _ _).1, (Manifest.replaceDeletes_fixed _ _ _ _ _).2.1⟩
  | retire ids sources hperm => exact ⟨Manifest.txnId_freeAll _, Manifest.schema_freeAll _⟩
  | stamp checkpointLsn nextSeqno => exact ⟨rfl, rfl⟩

/-- The write an edit makes, if it makes one. -/
theorem write (hedit : Edit allowed minActiveTxn p p') :
    p'.io = p.io ∧ p'.manifest.fileLen = p.manifest.fileLen ∨
      ∃ blob align e m', align.isPowerOfTwo ∧ allowed p.manifest e.len align ∧
        writeAllocated p.io p.manifest blob align minActiveTxn = .ok (e, m', p'.io) ∧
        p'.manifest.fileLen = m'.fileLen := by
  cases hedit with
  | segment data hallowed hwrite =>
      exact .inr ⟨_, _, _, _, isPowerOfTwo_segmentAlign, hallowed, hwrite, rfl⟩
  | deletes id entry rows hentry hallowed hwrite =>
      exact .inr ⟨_, _, _, _, isPowerOfTwo_bufferAlign, hallowed, hwrite,
        (Manifest.replaceDeletes_fixed _ _ _ _ _).2.2⟩
  | retire ids sources hperm => exact .inl ⟨rfl, Manifest.fileLen_freeAll _⟩
  | stamp checkpointLsn nextSeqno => exact .inl ⟨rfl, rfl⟩

/-- An edit references what was referenced before and what it wrote. -/
theorem mem_refs (hedit : Edit allowed minActiveTxn p p') :
    p'.io = p.io ∧ (∀ e ∈ p'.manifest.refs, e ∈ p.manifest.refs) ∨
      ∃ blob align e m', align.isPowerOfTwo ∧ allowed p.manifest e.len align ∧
        writeAllocated p.io p.manifest blob align minActiveTxn = .ok (e, m', p'.io) ∧
        ∀ extent ∈ p'.manifest.refs, extent ∈ p.manifest.refs ∨ extent = e := by
  cases hedit with
  | @segment io io' m m' e data hallowed hwrite =>
      obtain ⟨-, hpos, halloc, -⟩ := writeAllocated_ok isPowerOfTwo_segmentAlign hwrite
      obtain ⟨frees, fileLen, hm'⟩ := allocate_segments m minActiveTxn hpos isPowerOfTwo_segmentAlign
      rw [halloc] at hm'
      dsimp only at hm'
      refine .inr ⟨_, _, e, m', isPowerOfTwo_segmentAlign, hallowed, hwrite, fun extent hextent => ?_⟩
      subst hm'
      simpa [Manifest.refs, Manifest.addSegment, SegmentEntry.refs] using hextent
  | @deletes io io' m m' e id entry rows hentry hallowed hwrite =>
      obtain ⟨-, hpos, halloc, -⟩ := writeAllocated_ok isPowerOfTwo_bufferAlign hwrite
      obtain ⟨frees, fileLen, hm'⟩ := allocate_segments m minActiveTxn hpos isPowerOfTwo_bufferAlign
      rw [halloc] at hm'
      dsimp only at hm'
      obtain ⟨front, back, hsplit, -, -, hsegments⟩ :=
        Manifest.segments_replaceDeletes hentry (show m'.segments = m.segments by rw [hm']) e rows.card
      refine .inr ⟨_, _, e, m', isPowerOfTwo_bufferAlign, hallowed, hwrite, fun extent hextent => ?_⟩
      rw [Manifest.refs, hsegments] at hextent
      dsimp only
      rw [Manifest.refs, hsplit]
      simp only [List.flatMap_append, List.flatMap_cons, SegmentEntry.refs, Option.toList_some, List.mem_append,
        List.mem_cons, List.not_mem_nil, or_false] at hextent ⊢
      tauto
  | retire ids sources hperm =>
      refine .inl ⟨rfl, fun extent hextent => ?_⟩
      rw [Manifest.refs, Manifest.retire, Manifest.segments_freeAll] at hextent
      obtain ⟨entry, hentry, hmem⟩ := List.mem_flatMap.mp hextent
      exact List.mem_flatMap.mpr ⟨entry, List.mem_of_mem_filter hentry, hmem⟩
  | stamp checkpointLsn nextSeqno => exact .inl ⟨rfl, fun _ h => h⟩

theorem protects (hedit : Edit allowed minActiveTxn p p') {txn : Nat} {extent : Extent}
    (htxn : txn < p.manifest.txnId) (h : Protects p.manifest txn extent) : Protects p'.manifest txn extent := by
  cases hedit with
  | @segment io io' m m' e data _ hwrite =>
      obtain ⟨-, -, halloc, -⟩ := writeAllocated_ok isPowerOfTwo_segmentAlign hwrite
      have hprotects := h.allocate e.len minActiveTxn isPowerOfTwo_segmentAlign
      rw [halloc] at hprotects
      exact hprotects.congr rfl rfl
  | @deletes io io' m m' e id entry rows hentry _ hwrite =>
      obtain ⟨-, hpos, halloc, -⟩ := writeAllocated_ok isPowerOfTwo_bufferAlign hwrite
      have hprotects := h.allocate e.len minActiveTxn isPowerOfTwo_bufferAlign
      obtain ⟨frees, fileLen, hm'⟩ := allocate_segments _ minActiveTxn hpos isPowerOfTwo_bufferAlign
      rw [halloc] at hprotects hm'
      exact hprotects.replaceDeletes (by dsimp only at hm'; rw [hm']; exact htxn) _ _ _ _
  | retire ids sources hperm => exact h.retire htxn _ _
  | stamp checkpointLsn nextSeqno => exact h.congr rfl rfl

/-- The manifest never records more than the file holds. -/
theorem inFile (hedit : Edit allowed minActiveTxn p p') (h : p.manifest.fileLen ≤ p.io.len) :
    p'.manifest.fileLen ≤ p'.io.len ∧ p.io.len ≤ p'.io.len := by
  rcases hedit.write with ⟨hio, hlen⟩ | ⟨blob, align, e, m', halign, -, hwrite, hlen⟩
  · rw [hio, hlen]
    exact ⟨h, le_rfl⟩
  · obtain ⟨-, hpos, halloc, -⟩ := writeAllocated_ok halign hwrite
    obtain ⟨hlen', -⟩ := writeAllocated_read halign hwrite
    rw [hlen, hlen']
    refine ⟨?_, le_max_left _ _⟩
    rcases allocate_cases p.manifest minActiveTxn hpos halign with ⟨_, _, _, _, -, -, -, -, heq⟩ | ⟨-, heq⟩
    · rw [halloc] at heq
      rw [(Prod.mk.inj heq).2]
      exact le_trans h (le_max_left _ _)
    · rw [halloc] at heq
      rw [(Prod.mk.inj heq).2, (Prod.mk.inj heq).1]
      exact le_max_right _ _

/-- What an edit asks of the file leaves alone every extent its allocations avoid, and never cuts the
file. -/
theorem issued (hedit : Edit allowed minActiveTxn p p') :
    ∃ ops, FileIo.Issued p.io ops p'.io ∧ (∀ n, .setLen n ∈ ops → p.io.len ≤ n) ∧
      ∀ extent : Extent, extent.stop ≤ p.io.len →
        (∀ len align, align.isPowerOfTwo → 0 < len → allowed p.manifest len align →
          (allocate p.manifest len align minActiveTxn).1.Apart extent) →
        ∀ op ∈ ops, M.Spares extent op := by
  rcases hedit.write with ⟨hio, -⟩ | ⟨blob, align, e, m', halign, hallowed, hwrite, -⟩
  · exact ⟨[], hio ▸ FileIo.Issued.refl _, by simp, fun _ _ _ _ h => nomatch h⟩
  · obtain ⟨hsize, hpos, halloc, hissued⟩ := writeAllocated_ok halign hwrite
    refine ⟨_, hissued, fun n hn => ?_, fun extent hin hapart => spares_allocatedWrite hsize hin ?_⟩
    · unfold FileIo.growth at hn
      split at hn
      · simp only [List.cons_append, List.nil_append, List.mem_cons, IoOp.setLen.injEq, List.not_mem_nil,
          or_false, reduceCtorEq] at hn
        omega
      · simp at hn
    · have := hapart e.len align halign hpos hallowed
      rwa [halloc] at this

end Edit

end LocalTables
