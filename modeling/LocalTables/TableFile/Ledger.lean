import LocalTables.TableFile.Edit

/-! The space of a table file from one commit to the next. `Settled` is the accounting of a handle
between commits, `Ledger` that of a commit being prepared; edits keep the ledger, and committing
settles it again. A `float` is one extent that is in the file but not yet in any list: a schema blob
that was just appended, or the manifest extent of a slot that lost. -/

namespace LocalTables

variable {τ ν : Type} {M : Media τ ν}

/-- The schema blobs in force: the header's and the manifest's, once if they are the same. -/
def schemas (header : FileHeader) (m : Manifest) : List Extent :=
  if schemaExtent header m = header.schema then [header.schema]
  else [header.schema, schemaExtent header m]

/-- What a table file keeps besides segments, delete vectors and free extents: its schema blobs and
the manifests of both slots. -/
def TableFile.space (t : TableFile M) : List Extent :=
  schemas t.header t.committed.manifest ++ [t.committed.metaPage.manifest, t.nextSlotManifest]

/-- The accounting of a handle between commits. -/
structure Settled (t : TableFile M) : Prop where
  accounted : Accounted (t.space ++ t.committed.manifest.refs) t.committed.manifest
  inFile : t.committed.manifest.fileLen ≤ t.io.len
  refsPos : ∀ e ∈ t.committed.manifest.refs, 0 < e.len
  spacePos : ∀ e ∈ schemas t.header t.committed.manifest ++ [t.committed.metaPage.manifest], 0 < e.len

/-- The accounting of a commit being prepared. -/
structure Ledger (t : TableFile M) (m : Manifest) (float : Extent) : Prop where
  txn : m.txnId = t.committed.metaPage.txnId + 1
  accounted : Accounted (t.space ++ m.refs) m
  floatOnce : ∀ byte, Extent.coverAt [float] byte +
    (Extent.coverAt (t.space ++ m.refs) byte + Extent.coverAt m.freed byte) ≤ 1
  floatAt : float.len = 0 ∨ dataStart ≤ float.offset ∧ float.stop ≤ t.io.len
  inFile : m.fileLen ≤ t.io.len
  refsPos : ∀ e ∈ m.refs, 0 < e.len
  spacePos : ∀ e ∈ schemas t.header t.committed.manifest ++ [t.committed.metaPage.manifest], 0 < e.len
  current : ∀ e ∈ t.committed.manifest.refs, Protects m t.committed.metaPage.txnId e

/-- An extent no byte of which is in use or free. -/
def Unshared (float : Extent) (used : List Extent) (m : Manifest) : Prop :=
  ∀ byte, Extent.coverAt [float] byte + (Extent.coverAt (used ++ m.refs) byte + Extent.coverAt m.freed byte) ≤ 1

/-- The manifest a commit starts from: a clone of the committed one under the next txn. -/
def TableFile.beginManifest (t : TableFile M) : Manifest :=
  { t.committed.manifest with txnId := t.committed.metaPage.txnId + 1 }

theorem Settled.ledger {t : TableFile M} (h : Settled t) : Ledger t t.beginManifest Extent.empty where
  txn := rfl
  accounted := h.accounted.same rfl rfl fun _ => rfl
  floatOnce byte := by
    rw [Extent.coverAt_empty, Nat.zero_add]
    exact h.accounted.once byte
  floatAt := .inl rfl
  inFile := h.inFile
  refsPos := h.refsPos
  spacePos := h.spacePos
  current e he := Protects.congr (m := t.committed.manifest)
    (Protects.of_accounted h.accounted (List.mem_append_right _ he) (h.refsPos e he) _) rfl rfl

/-- A settled handle may also be taken to have the other slot's manifest floating. -/
theorem Settled.floating {t : TableFile M} (h : Settled t) :
    Ledger { t with nextSlotManifest := Extent.empty } t.beginManifest t.nextSlotManifest := by
  have hledger := h.ledger
  have hspace : ∀ byte, Extent.coverAt (t.space ++ t.beginManifest.refs) byte = Extent.coverAt
      ({ t with nextSlotManifest := Extent.empty }.space ++ t.beginManifest.refs) byte +
        Extent.coverAt [t.nextSlotManifest] byte := by
    intro byte
    have hempty : Extent.coverAt [Extent.empty] byte = 0 := Extent.coverAt_empty byte
    simp only [TableFile.space, Extent.coverAt_append, Extent.coverAt_cons, Extent.coverAt_nil] at hempty ⊢
    omega
  refine {
    txn := rfl
    accounted := hledger.accounted.weaken fun byte => ?_
    floatOnce := fun byte => ?_
    floatAt := ?_
    inFile := h.inFile
    refsPos := h.refsPos
    spacePos := h.spacePos
    current := hledger.current }
  · have := hspace byte
    omega
  · have := hledger.accounted.once byte
    have := hspace byte
    omega
  · rcases Nat.eq_zero_or_pos t.nextSlotManifest.len with hzero | hpos
    · exact .inl hzero
    · have hbounds := hledger.accounted.bounds (.inl (List.mem_append_left _ (show t.nextSlotManifest ∈ t.space by
        simp [TableFile.space]))) hpos
      exact .inr ⟨hbounds.1, hbounds.2.trans h.inFile⟩

/-- Another file under the same handle, no shorter than the one before. -/
theorem Ledger.withIo {t : TableFile M} {m : Manifest} {float : Extent} (h : Ledger t m float)
    {io : FileIo M} (hlen : t.io.len ≤ io.len) : Ledger { t with io := io } m float where
  txn := h.txn
  accounted := h.accounted
  floatOnce := h.floatOnce
  floatAt := h.floatAt.imp id fun hfloat => ⟨hfloat.1, hfloat.2.trans hlen⟩
  inFile := h.inFile.trans hlen
  refsPos := h.refsPos
  spacePos := h.spacePos
  current := h.current

theorem TableFile.Fresh.settled {t : TableFile M} {kind : TableKind} {seed : MetaPage} (h : t.Fresh kind seed) :
    Settled t := by
  obtain ⟨hoffset, hschemaLen, hschema⟩ := h.schemaAt
  obtain ⟨hseedLen, hseed⟩ := h.seedAt
  obtain ⟨hmanifestLen, hend⟩ := h.manifestAt
  have hschemaStop : t.header.schema.stop = t.header.schema.offset + t.header.schema.len := rfl
  have hseedStop : seed.manifest.stop = seed.manifest.offset + seed.manifest.len := rfl
  have hstop : t.committed.metaPage.manifest.stop =
      t.committed.metaPage.manifest.offset + t.committed.metaPage.manifest.len := rfl
  have hblobs : schemas t.header t.committed.manifest = [t.header.schema] := by
    rw [schemas, schemaExtent, h.manifest]
    simp
  have hspace : t.space = [t.header.schema, t.committed.metaPage.manifest, seed.manifest] := by
    rw [TableFile.space, hblobs, h.nextSlotManifest]
    rfl
  have hrefs : t.committed.manifest.refs = [] := by rw [h.manifest]; rfl
  have hfreed : t.committed.manifest.freed = [] := by rw [h.manifest]; rfl
  have hfileLen : t.committed.manifest.fileLen = t.committed.metaPage.manifest.stop := by rw [h.manifest]; rfl
  refine ⟨.of_pairwise ?_ ?_ (by omega), by omega, by simp [hrefs], ?_⟩
  · rw [hspace, hrefs, hfreed]
    simp only [List.append_nil, List.pairwise_cons, List.mem_cons, List.not_mem_nil, or_false, forall_eq_or_imp,
      forall_eq, List.Pairwise.nil, and_true, false_implies, implies_true, Extent.shares_iff]
    omega
  · rw [hspace, hrefs, hfreed]
    simp only [List.append_nil, List.mem_cons, List.not_mem_nil, or_false]
    rintro e (rfl | rfl | rfl) <;> omega
  · rw [hblobs]
    simp only [List.cons_append, List.nil_append, List.mem_cons, List.not_mem_nil, or_false]
    rintro e (rfl | rfl)
    · exact hschemaLen
    · exact hmanifestLen

theorem Settled.withIo {t : TableFile M} (h : Settled t) {io : FileIo M} (hlen : t.io.len ≤ io.len) :
    Settled { t with io := io } :=
  ⟨h.accounted, h.inFile.trans hlen, h.refsPos, h.spacePos⟩

theorem Manifest.mem_refs {m : Manifest} {e : Extent} :
    e ∈ m.refs ↔ ∃ entry ∈ m.segments, e = entry.data ∨ entry.deletes = some e := by
  simp only [Manifest.refs, List.mem_flatMap, SegmentEntry.refs, List.mem_cons, Option.mem_toList]

theorem Manifest.refs_congr {m m' : Manifest} (h : m'.segments = m.segments) : m'.refs = m.refs := by
  rw [Manifest.refs, Manifest.refs, h]

theorem Extent.cover_pair {a b : Extent} (h : a.len = 0 ∨ b.len = 0 ∨ b.Apart a) (byte : Nat) :
    Extent.coverAt [a] byte + Extent.coverAt [b] byte ≤ 1 := by
  have ha : a.stop = a.offset + a.len := rfl
  have hb : b.stop = b.offset + b.len := rfl
  simp only [Extent.coverAt_cons, Extent.coverAt_nil]
  simp only [Interval.Apart] at h
  repeat' split
  all_goals omega

namespace Edit

variable {allowed : Manifest → Nat → Nat → Prop} {minActiveTxn : Nat} {p p' : Pending M}

theorem refsPos (hedit : Edit allowed minActiveTxn p p') (h : ∀ e ∈ p.manifest.refs, 0 < e.len) :
    ∀ e ∈ p'.manifest.refs, 0 < e.len := by
  intro extent hextent
  rcases hedit.mem_refs with ⟨-, hrefs⟩ | ⟨blob, align, e, m', halign, -, hwrite, hrefs⟩
  · exact h extent (hrefs extent hextent)
  · rcases hrefs extent hextent with hold | rfl
    · exact h extent hold
    · exact (writeAllocated_ok halign hwrite).2.1

/-- What floats goes on floating where what is allocated keeps off it. -/
theorem unshared (hedit : Edit allowed minActiveTxn p p') {used : List Extent} {float : Extent}
    (haccounted : Accounted (used ++ p.manifest.refs) p.manifest) (h : Unshared float used p.manifest)
    (hfloat : float.len = 0 ∨ ∀ len align, align.isPowerOfTwo → 0 < len → allowed p.manifest len align →
      (allocate p.manifest len align minActiveTxn).1.Apart float) : Unshared float used p'.manifest := by
  intro byte
  obtain ⟨grown, hgrown, hlast, hcover⟩ := hedit.cover
  have hapart : float.len = 0 ∨ grown.len = 0 ∨ grown.Apart float := by
    rcases Nat.eq_zero_or_pos grown.len with hzero | hpos
    · exact .inr (.inl hzero)
    · obtain ⟨len, align, halign, hlenPos, hallowed, heq⟩ := hlast hpos
      refine hfloat.imp id fun hfloat => .inr ?_
      rw [heq]
      exact hfloat len align halign hlenPos hallowed
  clear hlast hfloat
  have hpair := Extent.cover_pair hapart byte
  have honce := h byte
  have hbelow := haccounted.below byte
  have hbyte := hcover byte
  have hgrow : Extent.coverAt [grown] byte = if grown.offset ≤ byte ∧ byte < grown.stop then 1 else 0 := by
    rw [Extent.coverAt_cons, Extent.coverAt_nil, Nat.add_zero]
  have hstop : grown.stop = grown.offset + grown.len := rfl
  simp only [Extent.coverAt_append, Grown] at honce hbelow hbyte hgrown ⊢
  -- past the old end only the new bytes and the float count
  by_cases hpast : p.manifest.fileLen ≤ byte
  · have := hbelow hpast
    omega
  · rw [hgrow] at hbyte
    split at hbyte <;> omega

end Edit

/-- An allocation stays off the fixed regions and off everything in use. -/
theorem Accounted.allocate_apart {used : List Extent} {m : Manifest} (h : Accounted used m)
    {len align : Nat} (minActiveTxn : Nat) (hlen : 0 < len) (halign : align.isPowerOfTwo) {e : Extent}
    (he : e.stop ≤ dataStart ∨ e ∈ used ∧ 0 < e.len) : (allocate m len align minActiveTxn).1.Apart e := by
  rcases he with hlow | ⟨he, hpos⟩
  · refine .inr (hlow.trans ?_)
    rcases allocate_cases m minActiveTxn hlen halign with
      ⟨front, free, back, start, hfrees, -, hstart, hroom, heq⟩ | ⟨-, heq⟩
    · have hfreed : free.extent ∈ m.freed := by
        rw [Manifest.freed, hfrees]
        simp
      have hstop : free.extent.stop = free.extent.offset + free.extent.len := rfl
      rw [heq]
      exact (h.bounds (.inr hfreed) (by omega)).1.trans hstart
    · rw [heq]
      exact h.start.trans (le_alignUp halign m.fileLen)
  · exact (Protects.of_accounted h he hpos minActiveTxn).allocate_apart hlen halign (Nat.le_succ _)

/-- What opening the commit reads is fixed or in use. -/
theorem TableFile.needs_in_use {t : TableFile M}
    (hpos : ∀ e ∈ schemas t.header t.committed.manifest ++ [t.committed.metaPage.manifest], 0 < e.len) :
    ∀ e : Extent, e ∈ t.committed.needs t.header ∨ e = ⟨dataStart, 0⟩ →
      e.stop ≤ dataStart ∨ e ∈ t.space ∧ 0 < e.len := by
  have hkept : ∀ e ∈ schemas t.header t.committed.manifest ++ [t.committed.metaPage.manifest],
      e ∈ t.space ∧ 0 < e.len := by
    intro e he
    refine ⟨?_, hpos e he⟩
    simp only [TableFile.space, List.mem_append, List.mem_cons] at he ⊢
    tauto
  rintro e (he | rfl)
  · simp only [Committed.needs, List.mem_cons, List.not_mem_nil, or_false] at he
    rcases he with rfl | rfl | rfl | rfl
    · exact .inl (by decide)
    · exact .inl t.committed.slot.page_stop_le
    · exact .inr (hkept _ (by simp))
    · refine .inr (hkept _ (List.mem_append_left _ ?_))
      unfold schemas
      split
      · next hsame => rw [hsame]; simp
      · simp
  · exact .inl le_rfl

/-- Where a commit appends its manifest. -/
def TableFile.manifestStart (t : TableFile M) (m : Manifest) : Nat := alignUp (max m.fileLen t.io.len) bufferAlign

theorem TableFile.le_manifestStart (t : TableFile M) (m : Manifest) : max m.fileLen t.io.len ≤ t.manifestStart m :=
  le_alignUp isPowerOfTwo_bufferAlign _

theorem TableFile.commit_start {t t' : TableFile M} {m : Manifest} (hcommit : t.commit m = .ok t') :
    t'.committed.metaPage.manifest.offset = t.manifestStart m := by
  obtain ⟨e, manifest, io, hwrite, -, rfl⟩ := TableFile.commit_ok hcommit
  obtain ⟨probe, -, h⟩ := bind_eq_ok.mp hwrite
  obtain ⟨n, -, h⟩ := bind_eq_ok.mp h
  obtain ⟨-, h⟩ := ite_throw_eq_ok.mp h
  obtain ⟨io₁, -, h⟩ := bind_eq_ok.mp h
  obtain ⟨rfl, -⟩ := Prod.mk.inj (Except.ok.inj h)
  have hfile : (t.stamped m).fileLen = m.fileLen := by
    unfold TableFile.stamped Manifest.free
    split <;> rfl
  change alignUp (max (t.stamped m).fileLen t.io.len) bufferAlign = _
  rw [hfile]
  rfl

/-- A commit leaves a settled handle when nothing it keeps, frees or references is counted twice. -/
theorem Settled.of_commit {t t' : TableFile M} {m : Manifest} (hstart : dataStart ≤ t.io.len)
    (hcommit : t.commit m = .ok t') (hrefsPos : ∀ e ∈ m.refs, 0 < e.len)
    (hschemaPos : ∀ e ∈ schemas t.header m, 0 < e.len)
    (hcover : ∀ byte, Extent.coverAt (schemas t.header m) byte +
      Extent.coverAt [t.committed.metaPage.manifest] byte + Extent.coverAt [t.nextSlotManifest] byte +
      Extent.coverAt m.refs byte + Extent.coverAt m.freed byte ≤
        if dataStart ≤ byte ∧ byte < t.manifestStart m then 1 else 0) : Settled t' := by
  obtain ⟨e, hpos, hio, hlen, hlen', hheader, -, hat, -, -, -, -, hnext, hmanifest⟩ :=
    TableFile.commit_manifest hstart hcommit
  have hoffset : e.offset = t.manifestStart m := hat ▸ TableFile.commit_start hcommit
  have hrefs : t'.committed.manifest.refs = m.refs := by
    refine Manifest.refs_congr ?_
    rw [hmanifest]
    exact Manifest.segments_free _
  have hfreed : ∀ byte, Extent.coverAt t'.committed.manifest.freed byte =
      Extent.coverAt m.freed byte + Extent.coverAt [t.nextSlotManifest] byte := by
    intro byte
    rw [hmanifest]
    exact coverAt_free _ _ byte
  have hsame : schemaExtent t'.header t'.committed.manifest = schemaExtent t.header m := by
    rw [hheader, hmanifest]
    simp only [schemaExtent, TableFile.stamped, Manifest.schema_free]
  have hblobs : schemas t'.header t'.committed.manifest = schemas t.header m := by
    rw [schemas, hsame, hheader]
    rfl
  have hspace : ∀ byte, Extent.coverAt (t'.space ++ t'.committed.manifest.refs) byte =
      Extent.coverAt (schemas t.header m) byte + Extent.coverAt [e] byte +
        Extent.coverAt [t.committed.metaPage.manifest] byte + Extent.coverAt m.refs byte := by
    intro byte
    simp only [TableFile.space, hat, hnext, hrefs, hblobs, Extent.coverAt_append, Extent.coverAt_cons,
      Extent.coverAt_nil]
    omega
  have hfileLen : t'.committed.manifest.fileLen = e.stop := by rw [hmanifest]
  have hnew : ∀ byte, Extent.coverAt [e] byte = if e.offset ≤ byte ∧ byte < e.stop then 1 else 0 := by
    intro byte
    rw [Extent.coverAt_cons, Extent.coverAt_nil, Nat.add_zero]
  have hstop : e.stop = e.offset + e.len := rfl
  refine ⟨⟨fun byte => ?_, fun byte hbyte => ?_, fun byte hbyte => ?_, by omega⟩, by omega, ?_, ?_⟩
  · have hbyte := hcover byte
    rw [hspace, hfreed, hnew]
    split
    · rw [if_neg (by omega)] at hbyte
      omega
    · split at hbyte <;> omega
  · have hcount := hcover byte
    rw [if_neg (by omega)] at hcount
    rw [hspace, hfreed, hnew, if_neg (by omega)]
    omega
  · have hcount := hcover byte
    rw [if_neg (by omega)] at hcount
    rw [hspace, hfreed, hnew, if_neg (by omega)]
    omega
  · rw [hrefs]
    exact hrefsPos
  · intro extent hextent
    rw [hblobs, hat, List.mem_append, List.mem_singleton] at hextent
    rcases hextent with hextent | rfl
    · exact hschemaPos extent hextent
    · exact hpos

namespace Ledger

variable {allowed : Manifest → Nat → Nat → Prop} {minActiveTxn : Nat} {t t' : TableFile M}
  {m m' : Manifest} {float : Extent}

theorem edit (h : Ledger t m float) {io : FileIo M} (hedit : Edit allowed minActiveTxn ⟨t.io, m⟩ ⟨io, m'⟩)
    (hfloat : float.len = 0 ∨ ∀ len align, align.isPowerOfTwo → 0 < len → allowed m len align →
      (allocate m len align minActiveTxn).1.Apart float) : Ledger { t with io := io } m' float := by
  obtain ⟨hinFile, hlen⟩ := hedit.inFile h.inFile
  refine {
    txn := hedit.fixed.1.trans h.txn
    accounted := hedit.accounted h.accounted
    floatOnce := hedit.unshared h.accounted h.floatOnce hfloat
    floatAt := h.floatAt.imp id fun hat => ⟨hat.1, hat.2.trans hlen⟩
    inFile := hinFile
    refsPos := hedit.refsPos h.refsPos
    spacePos := h.spacePos
    current := fun e he => hedit.protects (by have := h.txn; dsimp only; omega) (h.current e he) }

/-- What lies past the manifest's end may float, and so may nothing. -/
theorem refloat (h : Ledger t m float) {float' : Extent}
    (hplaced : float'.len = 0 ∨ m.fileLen ≤ float'.offset ∧ float'.stop ≤ t.io.len) : Ledger t m float' := by
  have hstart := h.accounted.start
  refine ⟨h.txn, h.accounted, fun byte => ?_, hplaced.imp id fun hat => ⟨hstart.trans hat.1, hat.2⟩, h.inFile,
    h.refsPos, h.spacePos, h.current⟩
  have honce := h.accounted.once byte
  have hbelow := h.accounted.below byte
  have hstop : float'.stop = float'.offset + float'.len := rfl
  rw [Extent.coverAt_cons, Extent.coverAt_nil]
  split <;> omega

/-- Committing settles the ledger: the manifest of the overwritten slot goes to the free list, the
float comes into use if it is the schema, and the new manifest ends the file. -/
theorem commit (h : Ledger t m float) (hstart : dataStart ≤ t.io.len) (hcommit : t.commit m = .ok t')
    (hschema : schemaExtent t.header m = schemaExtent t.header t.committed.manifest ∨
      schemaExtent t.header m = float ∧ 0 < float.len) : Settled t' := by
  have hschemaPos : ∀ e ∈ schemas t.header m, 0 < e.len := by
    intro extent hextent
    rcases hschema with hschema | ⟨hschema, hpos⟩
    · refine h.spacePos extent (List.mem_append_left _ ?_)
      rw [schemas, hschema] at hextent
      exact hextent
    · have hheader : 0 < t.header.schema.len := by
        refine h.spacePos _ (List.mem_append_left _ ?_)
        unfold schemas
        split <;> simp
      rw [schemas, hschema] at hextent
      split at hextent <;> simp only [List.mem_cons, List.not_mem_nil, or_false] at hextent
      · rw [hextent]
        exact hheader
      · rcases hextent with rfl | rfl
        · exact hheader
        · exact hpos
  refine Settled.of_commit hstart hcommit h.refsPos hschemaPos fun byte => ?_
  have hblobs : Extent.coverAt (schemas t.header m) byte ≤
      Extent.coverAt (schemas t.header t.committed.manifest) byte + Extent.coverAt [float] byte := by
    rw [schemas, schemas]
    rcases hschema with hschema | ⟨hschema, -⟩
    · rw [hschema]
      omega
    · rw [hschema]
      repeat' split
      all_goals
        simp only [Extent.coverAt_cons, Extent.coverAt_nil]
        omega
  have hold : Extent.coverAt (t.space ++ m.refs) byte =
      Extent.coverAt (schemas t.header t.committed.manifest) byte +
        Extent.coverAt [t.committed.metaPage.manifest] byte + Extent.coverAt [t.nextSlotManifest] byte +
        Extent.coverAt m.refs byte := by
    simp only [TableFile.space, Extent.coverAt_append, Extent.coverAt_cons, Extent.coverAt_nil]
    omega
  have hfloat : Extent.coverAt [float] byte = if float.offset ≤ byte ∧ byte < float.stop then 1 else 0 := by
    rw [Extent.coverAt_cons, Extent.coverAt_nil, Nat.add_zero]
  have hfloatStop : float.stop = float.offset + float.len := rfl
  have hend := t.le_manifestStart m
  have hat := h.floatAt
  have hinFile := h.inFile
  have honce := h.floatOnce byte
  have hbelow := h.accounted.below byte
  have habove := h.accounted.above byte
  rw [hold] at honce hbelow habove
  split
  · omega
  · rw [if_neg (by omega)] at hfloat
    by_cases hlow : byte < dataStart
    · have := habove hlow
      omega
    · have := hbelow (by omega)
      omega

/-- The same when the manifest of the slot being overwritten is only known to float: nothing else counts
its bytes, and the new manifest is appended past it. -/
theorem commit_unshared (h : Ledger { t with nextSlotManifest := Extent.empty } m Extent.empty)
    (hunshared : Unshared t.nextSlotManifest { t with nextSlotManifest := Extent.empty }.space m)
    (hlow : t.nextSlotManifest.len = 0 ∨ dataStart ≤ t.nextSlotManifest.offset)
    (hpast : t.nextSlotManifest.len = 0 ∨ t.nextSlotManifest.stop ≤ t.manifestStart m) (hstart : dataStart ≤ t.io.len)
    (hcommit : t.commit m = .ok t') (hschema : m.schema = t.committed.manifest.schema) : Settled t' := by
  have hblobs : schemas t.header m = schemas t.header t.committed.manifest := by
    rw [schemas, schemas, schemaExtent, schemaExtent, hschema]
  refine Settled.of_commit hstart hcommit h.refsPos (fun e he => h.spacePos e
    (List.mem_append_left _ (hblobs ▸ he))) fun byte => ?_
  have hspace : Extent.coverAt ({ t with nextSlotManifest := Extent.empty }.space ++ m.refs) byte =
      Extent.coverAt (schemas t.header t.committed.manifest) byte +
        Extent.coverAt [t.committed.metaPage.manifest] byte + Extent.coverAt m.refs byte := by
    rw [TableFile.space, Extent.coverAt_append, Extent.coverAt_append]
    change _ + Extent.coverAt ([t.committed.metaPage.manifest] ++ [Extent.empty]) byte + _ = _
    rw [Extent.coverAt_append, Extent.coverAt_empty, Nat.add_zero]
  have honce := hunshared byte
  have hbelow := h.accounted.below byte
  have habove := h.accounted.above byte
  have hend := t.le_manifestStart m
  have hfloat : Extent.coverAt [t.nextSlotManifest] byte =
      if t.nextSlotManifest.offset ≤ byte ∧ byte < t.nextSlotManifest.stop then 1 else 0 := by
    rw [Extent.coverAt_cons, Extent.coverAt_nil, Nat.add_zero]
  have hstop : t.nextSlotManifest.stop = t.nextSlotManifest.offset + t.nextSlotManifest.len := rfl
  rw [hspace] at honce hbelow habove
  rw [hblobs]
  split
  · omega
  · rw [if_neg (by omega)] at hfloat
    by_cases hbyte : byte < dataStart
    · have := habove hbyte
      omega
    · have := hbelow (by omega)
      omega

/-- Which it is where that manifest lies inside the file. -/
theorem commit_float (h : Ledger { t with nextSlotManifest := Extent.empty } m t.nextSlotManifest)
    (hstart : dataStart ≤ t.io.len) (hcommit : t.commit m = .ok t')
    (hschema : m.schema = t.committed.manifest.schema) : Settled t' := by
  have hend := t.le_manifestStart m
  refine (h.refloat (.inl rfl)).commit_unshared h.floatOnce (h.floatAt.imp id And.left) (h.floatAt.imp id fun hat => ?_)
    hstart hcommit hschema
  exact hat.2.trans ((le_max_right _ _).trans hend)

/-- What was protected while the commit was prepared stays protected. -/
theorem commit_protects (h : Ledger t m float) (hstart : dataStart ≤ t.io.len)
    (hcommit : t.commit m = .ok t') {txn : Nat} {extent : Extent} (htxn : txn < m.txnId)
    (hprotects : Protects m txn extent) : Protects t'.committed.manifest txn extent := by
  obtain ⟨e, -, -, hlen, -, -, -, -, -, -, -, -, -, hmanifest⟩ := TableFile.commit_manifest hstart hcommit
  have hnext : Protects { m with txnId := t.committed.metaPage.txnId + 1 } txn extent :=
    hprotects.congr rfl rfl
  have hstamped : Protects (t.stamped m) txn extent := hnext.free _ (h.txn ▸ htxn)
  have hstop : e.stop = e.offset + e.len := rfl
  rw [hmanifest]
  exact ⟨hprotects.pos, hprotects.inFile.trans (by dsimp only; omega), hstamped.apart⟩

end Ledger

end LocalTables
