import LocalTables.Io.Journal
import LocalTables.TableFile.Ledger

/-! Opening a file whose newer slot has lost its manifest. `readCommitted` then falls back to the
older slot and remembers the manifest extent the newer one names, to free it at the next commit.
That extent lies past the `file_len` of the older manifest, where the allocator grows the file. -/

namespace LocalTables

variable {τ ν : Type} {M : Media τ ν}

section Select

variable {file : M.File} {c : Committed} {loser : Extent}

theorem selectCommitted_one {slot : MetaSlot} {page : MetaPage}
    (h : selectCommitted file [(slot, page)] [((slot, page), 0)] none = .ok (c, loser)) :
    c.slot = slot ∧ c.metaPage = page ∧ readManifest file page = .ok c.manifest ∧
      c.manifest.txnId = page.txnId ∧ loser = Extent.empty := by
  rw [selectCommitted] at h
  split at h
  · cases h
  · split at h
    · cases h
    · next manifest hread htxn =>
        cases h
        exact ⟨rfl, rfl, hread, not_not.mp htxn, rfl⟩

/-- With both pages readable the first one wins unless its manifest is lost. -/
theorem selectCommitted_two {x y : MetaSlot × MetaPage}
    (h : selectCommitted file [x, y] [(x, 0), (y, 1)] none = .ok (c, loser)) :
    c.slot = x.1 ∧ c.metaPage = x.2 ∧ readManifest file x.2 = .ok c.manifest ∧
        c.manifest.txnId = x.2.txnId ∧ loser = y.2.manifest ∨
      c.slot = y.1 ∧ c.metaPage = y.2 ∧ readManifest file y.2 = .ok c.manifest ∧
        c.manifest.txnId = y.2.txnId ∧ loser = x.2.manifest ∧
        ∀ m, readManifest file x.2 = .ok m → m.txnId ≠ x.2.txnId := by
  have hrest : ∀ err, selectCommitted file [x, y] [(y, 1)] err = .ok (c, loser) →
      c.slot = y.1 ∧ c.metaPage = y.2 ∧ readManifest file y.2 = .ok c.manifest ∧
        c.manifest.txnId = y.2.txnId ∧ loser = x.2.manifest := by
    intro err herr
    obtain ⟨slot, page⟩ := y
    rw [selectCommitted] at herr
    split at herr
    · cases herr
    · split at herr
      · cases herr
      · next manifest hread htxn =>
          cases herr
          exact ⟨rfl, rfl, hread, not_not.mp htxn, rfl⟩
  obtain ⟨slot, page⟩ := x
  rw [selectCommitted] at h
  split at h
  · next e hread =>
      obtain ⟨h₁, h₂, h₃, h₄, h₅⟩ := hrest _ h
      refine .inr ⟨h₁, h₂, h₃, h₄, h₅, fun m hm => ?_⟩
      cases hread.symm.trans hm
  · next manifest hread =>
      split at h
      · next htxn =>
          obtain ⟨h₁, h₂, h₃, h₄, h₅⟩ := hrest _ h
          refine .inr ⟨h₁, h₂, h₃, h₄, h₅, fun m hm => ?_⟩
          rw [← Except.ok.inj (hread.symm.trans hm)]
          exact htxn
      · next htxn =>
          cases h
          exact .inl ⟨rfl, rfl, hread, not_not.mp htxn, rfl⟩

/-- What `readCommitted` returns: a slot that reads back, the extent the other one names, and a
newer slot is passed over only when its manifest is lost. -/
structure Selected (file : M.File) (c : Committed) (loser : Extent) : Prop where
  page : readMeta file c.slot = some c.metaPage
  manifest : readManifest file c.metaPage = .ok c.manifest
  txn : c.manifest.txnId = c.metaPage.txnId
  loser : loser = ((readMeta file c.slot.other).map (·.manifest)).getD Extent.empty
  newer : ∀ page, readMeta file c.slot.other = some page → c.metaPage.txnId < page.txnId →
    ∀ m, readManifest file page = .ok m → m.txnId ≠ page.txnId

theorem selected_of_one (slot : MetaSlot) (h : readCommitted file = .ok (c, loser)) {page : MetaPage}
    (hpage : readMeta file slot = some page) (hother : readMeta file slot.other = none)
    (hslots : readSlots file = [(slot, page)]) : Selected file c loser := by
  rw [readCommitted, hslots] at h
  obtain ⟨rfl, rfl, hmanifest, htxn, hloser⟩ := selectCommitted_one h
  refine ⟨hpage, hmanifest, htxn, by rw [hother, hloser]; rfl, fun page hpage => ?_⟩
  cases hother.symm.trans hpage

theorem selected_of_two (slot : MetaSlot) (h : readCommitted file = .ok (c, loser)) {page other : MetaPage}
    (hpage : readMeta file slot = some page) (hother : readMeta file slot.other = some other)
    (hnewest : other.txnId ≤ page.txnId)
    (hslots : readSlots file = [(slot, page), (slot.other, other)]) : Selected file c loser := by
  rw [readCommitted, hslots] at h
  have hselect : selectCommitted file [(slot, page), (slot.other, other)]
      [((slot, page), 0), ((slot.other, other), 1)] none = .ok (c, loser) := h
  rcases selectCommitted_two hselect with ⟨hslot, hcpage, hmanifest, htxn, hloser⟩ |
    ⟨hslot, hcpage, hmanifest, htxn, hloser, hlost⟩
  · dsimp only at hslot hcpage hmanifest htxn hloser
    subst hslot hcpage
    refine ⟨hpage, hmanifest, htxn, by rw [hother, hloser]; rfl, fun newer hnewer hlt => ?_⟩
    rw [← Option.some.inj (hother.symm.trans hnewer)] at hlt
    omega
  · dsimp only at hslot hcpage hmanifest htxn hloser hlost
    subst hcpage
    have hback : c.slot.other = slot := by rw [hslot, MetaSlot.other_other]
    refine ⟨by rw [hslot, hother], hmanifest, htxn, by rw [hback, hpage, hloser]; rfl, fun newer hnewer _ => ?_⟩
    rw [hback] at hnewer
    rw [← Option.some.inj (hpage.symm.trans hnewer)]
    exact hlost

theorem readCommitted_ok (h : readCommitted file = .ok (c, loser)) : Selected file c loser := by
  cases ha : readMeta file .a with
  | none =>
      cases hb : readMeta file .b with
      | none => simp [readCommitted, readSlots, ha, hb] at h
      | some pageB => exact selected_of_one MetaSlot.b h hb ha (by simp [readSlots, ha, hb])
  | some pageA =>
      cases hb : readMeta file .b with
      | none => exact selected_of_one MetaSlot.a h ha hb (by simp [readSlots, ha, hb])
      | some pageB =>
          by_cases hle : pageB.txnId ≤ pageA.txnId
          · exact selected_of_two MetaSlot.a h ha hb hle (by simp [readSlots, ha, hb, hle, MetaSlot.other])
          · exact selected_of_two MetaSlot.b h hb ha (by omega) (by simp [readSlots, ha, hb, hle, MetaSlot.other])

/-- With the newer slot's manifest lost, `readCommitted` returns the older slot and the extent the
newer one names. -/
theorem readCommitted_fallback {slot : MetaSlot} {page other : MetaPage} {manifest : Manifest}
    (hpage : readMeta file slot = some page) (hmanifest : readManifest file page = .ok manifest)
    (htxn : manifest.txnId = page.txnId) (hother : readMeta file slot.other = some other)
    (hlt : page.txnId < other.txnId) (hlost : ∀ m, readManifest file other = .ok m → m.txnId ≠ other.txnId) :
    readCommitted file = .ok (⟨page, slot, manifest⟩, other.manifest) := by
  have hslots : readSlots file = [(slot.other, other), (slot, page)] := by
    cases slot <;> simp only [MetaSlot.other] at hother <;>
      simp [readSlots, hpage, hother, MetaSlot.other, Nat.le_of_lt hlt, Nat.not_le.mpr hlt]
  cases hread : readManifest file other with
  | error e => simp [readCommitted, hslots, selectCommitted, hread, hmanifest, htxn, loserManifest]
  | ok m =>
      simp [readCommitted, hslots, selectCommitted, hread, hlost m hread, hmanifest, htxn, loserManifest]

end Select

/-- No free extent shares a byte with a segment or a delete vector, nor with another free extent. -/
def Manifest.FreeListSound (m : Manifest) : Prop :=
  (∀ free ∈ m.freed, ∀ e ∈ m.refs, ¬free.Shares e) ∧ m.freed.Pairwise fun a b => ¬a.Shares b

instance (m : Manifest) : Decidable m.FreeListSound :=
  inferInstanceAs (Decidable ((∀ free ∈ m.freed, ∀ e ∈ m.refs, ¬free.Shares e) ∧
    m.freed.Pairwise fun a b => ¬a.Shares b))

theorem Manifest.freeListSound_of_cover {m : Manifest}
    (h : ∀ byte, Extent.coverAt m.refs byte + Extent.coverAt m.freed byte ≤ 1) : m.FreeListSound := by
  refine ⟨fun free hfree e he => ?_, Extent.pairwise_not_shares fun byte => ?_⟩
  · refine Extent.not_shares_of_coverAt hfree he fun byte => ?_
    have := h byte
    omega
  · have := h byte
    omega

theorem Accounted.freeListSound {used : List Extent} {m : Manifest} (h : Accounted (used ++ m.refs) m) :
    m.FreeListSound := by
  refine Manifest.freeListSound_of_cover fun byte => ?_
  have := h.once byte
  rw [Extent.coverAt_append] at this
  omega

/-- An opened handle that fell back: the slot it will overwrite names a newer commit. The commit it
holds is sound, and the newer slot's manifest was placed past its end, as `writeManifest` does. -/
structure FellBack (t : TableFile M) (newer : MetaPage) : Prop where
  page : readMeta t.io.file t.nextSlot = some newer
  txn : t.committed.metaPage.txnId < newer.txnId
  start : dataStart ≤ t.io.len
  accounted : Accounted (schemas t.header t.committed.manifest ++ [t.committed.metaPage.manifest] ++
    t.committed.manifest.refs) t.committed.manifest
  inFile : t.committed.manifest.fileLen ≤ t.io.len
  refsPos : ∀ e ∈ t.committed.manifest.refs, 0 < e.len
  spacePos : ∀ e ∈ schemas t.header t.committed.manifest ++ [t.committed.metaPage.manifest], 0 < e.len
  placed : t.committed.manifest.fileLen ≤ newer.manifest.offset

/-- Where an allocation that finds no free extent would start growing the file, it stays off `lost`. -/
def KeepsOff (lost : Extent) (minActiveTxn : Nat) (m : Manifest) (len align : Nat) : Prop :=
  bestFit m.freeExtents len align minActiveTxn = none →
    Extent.Apart ⟨alignUp m.fileLen align, len⟩ lost

instance (lost : Extent) (minActiveTxn : Nat) (m : Manifest) (len align : Nat) :
    Decidable (KeepsOff lost minActiveTxn m len align) := inferInstanceAs (Decidable (_ → _))

/-- A commit that appends its manifest past the extent it frees. The end of the file, aligned, may lie before that extent ends
where the file was cut. -/
def AppendsPast (t : TableFile M) (m : Manifest) : Prop := t.nextSlotManifest.stop ≤ t.manifestStart m

instance (t : TableFile M) (m : Manifest) : Decidable (AppendsPast t m) := inferInstanceAs (Decidable (_ ≤ _))

theorem appendsPast_of_inside {t : TableFile M} {m : Manifest} (h : t.nextSlotManifest.stop ≤ t.io.len) : AppendsPast t m :=
  h.trans ((le_max_right _ _).trans (t.le_manifestStart m))

/-- No commit has been made through the handle since it was `t₀`. -/
def Uncommitted (t₀ t : TableFile M) : Prop := t.committed.metaPage = t₀.committed.metaPage

/-- Writes and commits through one handle, each commit prepared from a clone of the committed
manifest. `allowed` restricts the allocations, and `commits` what is committed. -/
inductive WriterRun (allowed : TableFile M → Nat → Manifest → Nat → Nat → Prop) (commits : TableFile M → Manifest → Prop)
    (t₀ : TableFile M) : TableFile M → Manifest → Prop where
  | start : WriterRun allowed commits t₀ t₀ t₀.beginManifest
  | restart {t : TableFile M} {m : Manifest} (hrun : WriterRun allowed commits t₀ t m) :
      WriterRun allowed commits t₀ t t.beginManifest
  | edit {t : TableFile M} {m m' : Manifest} {io : FileIo M} (minActiveTxn : Nat)
      (hrun : WriterRun allowed commits t₀ t m) (hmin : minActiveTxn ≤ t.committed.metaPage.txnId)
      (hedit : Edit (allowed t minActiveTxn) minActiveTxn ⟨t.io, m⟩ ⟨io, m'⟩) :
      WriterRun allowed commits t₀ { t with io := io } m'
  | commit {t t' : TableFile M} {m : Manifest} (hrun : WriterRun allowed commits t₀ t m) (hcommits : commits t m)
      (h : t.commit m = .ok t') : WriterRun allowed commits t₀ t' t'.beginManifest

/-- An allocation that keeps off the float while growing keeps off it altogether. -/
theorem Unshared.allocate_apart {float : Extent} {used : List Extent} {m : Manifest} (h : Unshared float used m)
    {len align minActiveTxn : Nat} (hlen : 0 < len) (halign : align.isPowerOfTwo) (hpos : 0 < float.len)
    (hkeeps : KeepsOff float minActiveTxn m len align) :
    (allocate m len align minActiveTxn).1.Apart float := by
  rcases allocate_cases m minActiveTxn hlen halign with
    ⟨front, free, back, start, hfrees, -, hstart, hroom, heq⟩ | ⟨hbest, heq⟩
  · have hfreed : free.extent ∈ m.freed := by
      rw [Manifest.freed, hfrees]
      simp
    have hstop : free.extent.stop = free.extent.offset + free.extent.len := rfl
    have hapart : free.extent.Apart float := by
      refine Extent.apart_of_coverAt hfreed (List.mem_singleton_self float) (fun byte => ?_) (by omega) hpos
      have := h byte
      omega
    rw [heq]
    simp only [Interval.Apart, Extent.stop_mk] at hapart ⊢
    omega
  · rw [heq]
    exact hkeeps hbest

/-- Until the first commit the lost extent floats: it is neither in use nor free, and the handle is to free it. -/
structure Floats (lost : Extent) (t : TableFile M) (m : Manifest) : Prop where
  slot : t.nextSlotManifest = lost
  ledger : Ledger { t with nextSlotManifest := Extent.empty } m Extent.empty
  unshared : Unshared lost { t with nextSlotManifest := Extent.empty }.space m
  low : dataStart ≤ lost.offset

/-- What holds along a run after a fallback. The first commit frees the lost extent, and from then on the handle is
settled. -/
structure FallbackInv (t₀ : TableFile M) (lost : Extent) (t : TableFile M) (m : Manifest) : Prop where
  start : dataStart ≤ t.io.len
  schema : m.schema = t.committed.manifest.schema
  sound : t.committed.manifest.FreeListSound
  phase : (Uncommitted t₀ t ∧ Floats lost t m ∧ Floats lost t t.beginManifest) ∨ (Settled t ∧ Ledger t m Extent.empty)

theorem Floats.edit {lost : Extent} {t : TableFile M} {m m' : Manifest} (h : Floats lost t m) {io : FileIo M}
    {minActiveTxn : Nat} (hedit : Edit (KeepsOff lost minActiveTxn) minActiveTxn ⟨t.io, m⟩ ⟨io, m'⟩) :
    Floats lost { t with io := io } m' := by
  refine ⟨h.slot, h.ledger.edit hedit (.inl rfl), hedit.unshared h.ledger.accounted h.unshared ?_, h.low⟩
  rcases Nat.eq_zero_or_pos lost.len with hzero | hpos
  · exact .inl hzero
  · exact .inr fun len align halign hlen hkeeps => h.unshared.allocate_apart hlen halign hpos hkeeps

/-- A file that grows keeps the accounting of what is to be committed next. -/
theorem Floats.withIo {lost : Extent} {t : TableFile M} {m : Manifest} (h : Floats lost t m) {io : FileIo M}
    (hlen : t.io.len ≤ io.len) : Floats lost { t with io := io } m := ⟨h.slot, h.ledger.withIo hlen, h.unshared, h.low⟩

namespace FallbackInv

variable {lost : Extent} {t₀ t t' : TableFile M} {m m' : Manifest}

theorem edit (h : FallbackInv t₀ lost t m) {io : FileIo M} {minActiveTxn : Nat}
    (hedit : Edit (fun m len align => Uncommitted t₀ t → KeepsOff lost minActiveTxn m len align) minActiveTxn
      ⟨t.io, m⟩ ⟨io, m'⟩) : FallbackInv t₀ lost { t with io := io } m' := by
  rcases h.phase with ⟨hsame, hfloats, hbegin⟩ | ⟨hsettled, hledger⟩
  · have hlen := (hedit.inFile hfloats.ledger.inFile).2
    have hkeeps : Edit (KeepsOff lost minActiveTxn) minActiveTxn ⟨t.io, m⟩ ⟨io, m'⟩ := by
      simpa only [hsame, true_implies] using hedit
    exact ⟨h.start.trans hlen, hedit.fixed.2.trans h.schema, h.sound,
      .inl ⟨hsame, hfloats.edit hkeeps, hbegin.withIo hlen⟩⟩
  · have hlen := (hedit.inFile hledger.inFile).2
    exact ⟨h.start.trans hlen, hedit.fixed.2.trans h.schema, h.sound,
      .inr ⟨hsettled.withIo hlen, hledger.edit hedit (.inl rfl)⟩⟩

theorem restart (h : FallbackInv t₀ lost t m) : FallbackInv t₀ lost t t.beginManifest := by
  refine ⟨h.start, rfl, h.sound, ?_⟩
  rcases h.phase with ⟨hsame, -, hbegin⟩ | ⟨hsettled, -⟩
  · exact .inl ⟨hsame, hbegin, hbegin⟩
  · exact .inr ⟨hsettled, hsettled.ledger⟩

theorem commit (h : FallbackInv t₀ lost t m) (hpast : Uncommitted t₀ t → AppendsPast t m) (hcommit : t.commit m = .ok t') :
    FallbackInv t₀ lost t' t'.beginManifest := by
  have hextent : schemaExtent t.header m = schemaExtent t.header t.committed.manifest := by
    rw [schemaExtent, schemaExtent, h.schema]
  have hsettled : Settled t' := by
    rcases h.phase with ⟨hsame, hfloats, -⟩ | ⟨-, hledger⟩
    · have hslot := hfloats.slot
      subst hslot
      exact hfloats.ledger.commit_unshared hfloats.unshared (.inr hfloats.low) (.inr (hpast hsame)) h.start hcommit h.schema
    · exact hledger.commit h.start hcommit (.inl hextent)
  obtain ⟨e, -, hio, -, hlen, -⟩ := TableFile.commit_manifest h.start hcommit
  have hstop : e.stop = e.offset + e.len := rfl
  have hstart := h.start
  exact ⟨by omega, rfl, hsettled.accounted.freeListSound, .inr ⟨hsettled, hsettled.ledger⟩⟩

end FallbackInv

theorem FellBack.floats {t : TableFile M} {newer : MetaPage} (h : FellBack t newer)
    (hloser : t.nextSlotManifest = newer.manifest) : Floats newer.manifest t t.beginManifest := by
  have hspace : ∀ byte, Extent.coverAt ({ t with nextSlotManifest := Extent.empty }.space ++
      t.beginManifest.refs) byte = Extent.coverAt (schemas t.header t.committed.manifest ++
        [t.committed.metaPage.manifest] ++ t.committed.manifest.refs) byte := by
    intro byte
    rw [TableFile.space, Extent.coverAt_append, Extent.coverAt_append, Extent.coverAt_append,
      Extent.coverAt_append]
    change _ + Extent.coverAt ([t.committed.metaPage.manifest] ++ [Extent.empty]) byte + _ = _
    rw [Extent.coverAt_append, Extent.coverAt_empty]
    rfl
  have haccounted : Accounted ({ t with nextSlotManifest := Extent.empty }.space ++ t.beginManifest.refs)
      t.beginManifest := h.accounted.same rfl rfl hspace
  have hunshared : Unshared newer.manifest { t with nextSlotManifest := Extent.empty }.space t.beginManifest := by
    intro byte
    -- the lost extent starts where the accounting ends
    have honce := haccounted.once byte
    have hbelow := haccounted.below byte
    have hplaced := h.placed
    have hlen : t.beginManifest.fileLen = t.committed.manifest.fileLen := rfl
    rw [Extent.coverAt_cons, Extent.coverAt_nil]
    split <;> omega
  refine ⟨hloser, ?_, hunshared, h.accounted.start.trans h.placed⟩
  refine {
    txn := rfl
    accounted := haccounted
    floatOnce := fun byte => ?_
    floatAt := .inl rfl
    inFile := h.inFile
    refsPos := h.refsPos
    spacePos := h.spacePos
    current := fun e he => Protects.congr (m := t.committed.manifest) (Protects.of_accounted h.accounted
      (List.mem_append_right _ he) (h.refsPos e he) _) rfl rfl }
  rw [Extent.coverAt_empty, Nat.zero_add]
  exact haccounted.once byte

theorem FellBack.inv {t : TableFile M} {newer : MetaPage} (h : FellBack t newer)
    (hloser : t.nextSlotManifest = newer.manifest) : FallbackInv t newer.manifest t t.beginManifest :=
  ⟨h.start, rfl, h.accounted.freeListSound, .inl ⟨rfl, h.floats hloser, h.floats hloser⟩⟩

/-- After a fallback, in every run in which, up to the first commit, growing allocations keep off the lost manifest extent
and that commit appends past it, every committed manifest has a sound free list. -/
theorem fallback_free_list_sound {kind : TableKind} {file : M.File} {t₀ t : TableFile M} {m : Manifest}
    {newer : MetaPage} (hopen : TableFile.openFile file kind = .ok t₀) (hfell : FellBack t₀ newer)
    (hrun : WriterRun (fun t minActiveTxn m len align => Uncommitted t₀ t → KeepsOff newer.manifest minActiveTxn m len align)
      (fun t m => Uncommitted t₀ t → AppendsPast t m) t₀ t m) : t.committed.manifest.FreeListSound := by
  have hloser : t₀.nextSlotManifest = newer.manifest := by
    obtain ⟨header, -, h⟩ := bind_eq_ok.mp hopen
    obtain ⟨-, -, h⟩ := bind_eq_ok.mp h
    obtain ⟨⟨c, loser⟩, hcommitted, h⟩ := bind_eq_ok.mp h
    obtain ⟨schema, -, h⟩ := bind_eq_ok.mp h
    obtain rfl := Except.ok.inj h
    have hpage : readMeta file c.slot.other = some newer := hfell.page
    have hselected := (readCommitted_ok hcommitted).loser
    rw [hpage] at hselected
    exact hselected
  have hinv : FallbackInv t₀ newer.manifest t m := by
    induction hrun with
    | start => exact hfell.inv hloser
    | restart _ ih => exact ih.restart
    | edit minActiveTxn _ _ hedit ih => exact ih.edit hedit
    | commit _ hpast h ih => exact ih.commit hpast h
  exact hinv.sound

/-- The conditions of a fallback on a concrete handle, in a form that evaluates. -/
def FellBackFacts (t : TableFile M) (newer : MetaPage) : Prop :=
  readMeta t.io.file t.nextSlot = some newer ∧ t.committed.metaPage.txnId < newer.txnId ∧
    dataStart ≤ t.committed.manifest.fileLen ∧
    t.committed.manifest.fileLen ≤ t.io.len ∧ (∀ e ∈ t.committed.manifest.refs, 0 < e.len) ∧
    (∀ e ∈ schemas t.header t.committed.manifest ++ [t.committed.metaPage.manifest], 0 < e.len) ∧
    t.committed.manifest.fileLen ≤ newer.manifest.offset ∧
    (∀ e ∈ schemas t.header t.committed.manifest ++ [t.committed.metaPage.manifest] ++
      t.committed.manifest.refs ++ t.committed.manifest.freed,
      dataStart ≤ e.offset ∧ e.stop ≤ t.committed.manifest.fileLen) ∧
    (schemas t.header t.committed.manifest ++ [t.committed.metaPage.manifest] ++
      t.committed.manifest.refs ++ t.committed.manifest.freed).Pairwise fun a b => ¬a.Shares b

instance (t : TableFile M) (newer : MetaPage) : Decidable (FellBackFacts t newer) :=
  inferInstanceAs (Decidable (_ ∧ _ ∧ _ ∧ _ ∧ _ ∧ _ ∧ _ ∧ _ ∧ _))

theorem FellBackFacts.fellBack {t : TableFile M} {newer : MetaPage} (h : FellBackFacts t newer) :
    FellBack t newer := by
  obtain ⟨hpage, htxn, hstart, hinFile, hpos, hspace, hplaced, hbounds, hapart⟩ := h
  exact ⟨hpage, htxn, hstart.trans hinFile, .of_pairwise hapart hbounds hstart, hinFile, hpos, hspace, hplaced⟩

section Concrete

abbrev PlainFile := TableFile (Journal plainSizes)

/-- A table with one segment of two rows and one more commit, whose newest manifest has rotted. -/
def rottenFile : Except Error (JournalFile Unit Nat) := do
  let t ← TableFile.create (Journal plainSizes) .columnar ⟨[⟨"v", (), false⟩], []⟩ (fun _ => 0) (fun _ => []) none
  let (e, m, io) ← writeAllocated t.io t.beginManifest (.segment ⟨0, 0, 1, [[7], [8]], 0⟩) segmentAlign 1
  let t ← TableFile.commit { t with io := io } (m.addSegment e ⟨e.offset, 32⟩ 2)
  let t ← t.commit t.beginManifest
  return (Journal plainSizes).writePrefix t.io.file t.committed.metaPage.manifest.offset
    (.metaPage t.committed.metaPage) 1

/-- The page of the slot the handle will overwrite. -/
def newerPage (t : PlainFile) : MetaPage := (readMeta t.io.file t.nextSlot).getD t.committed.metaPage

/-- A delete vector for the segment, written after the fallback and committed. -/
def rottenDelete : Except Error (PlainFile × PlainFile) := do
  let file ← rottenFile
  let t₀ ← TableFile.openFile (M := Journal plainSizes) file .columnar
  let (e, m, io) ← writeAllocated t₀.io t₀.beginManifest (.deletes {0}) bufferAlign 2
  let t ← TableFile.commit { t₀ with io := io } (m.replaceDeletes 0 none e 1)
  return (t₀, t)

/-- A second segment instead: its alignment takes it past the lost extent. -/
def rottenInsert : Except Error (PlainFile × PlainFile) := do
  let file ← rottenFile
  let t₀ ← TableFile.openFile (M := Journal plainSizes) file .columnar
  let (e, m, io) ← writeAllocated t₀.io t₀.beginManifest (.segment ⟨1, 0, 1, [[9]], 0⟩) segmentAlign 2
  let t ← TableFile.commit { t₀ with io := io } (m.addSegment e ⟨e.offset + 0, 32⟩ 1)
  return (t₀, t)

/-- The file cut off inside its newest manifest, then committed to three times. -/
def cutCommits : Except Error (PlainFile × PlainFile × PlainFile × PlainFile) := do
  let file ← rottenFile
  let t₀ ← TableFile.openFile (M := Journal plainSizes) ((Journal plainSizes).setLen file (file.len - 512)) .columnar
  let t₁ ← t₀.commit t₀.beginManifest
  let t₂ ← t₁.commit t₁.beginManifest
  let t₃ ← t₂.commit t₂.beginManifest
  return (t₀, t₁, t₂, t₃)

/-- Where the file was cut inside the lost manifest, nothing need be allocated: the first commit appends its manifest over
the extent it frees, and the third frees that manifest as well. -/
theorem short_file_frees_twice : ∃ (file : JournalFile Unit Nat) (t₀ t : PlainFile) (m : Manifest) (newer : MetaPage),
    TableFile.openFile (M := Journal plainSizes) file .columnar = .ok t₀ ∧ FellBack t₀ newer ∧
      WriterRun (fun _ _ _ _ _ => False) (fun _ _ => True) t₀ t m ∧ ¬t.committed.manifest.FreeListSound := by
  have hcheck : (match cutCommits with
      | .ok (t₀, _, _, t) => decide (FellBackFacts t₀ (newerPage t₀) ∧ ¬t.committed.manifest.FreeListSound)
      | .error _ => false) = true := by decide +kernel
  cases hrun : cutCommits with
  | error e => rw [hrun] at hcheck; cases hcheck
  | ok result =>
      obtain ⟨t₀, t₁, t₂, t₃⟩ := result
      rw [hrun] at hcheck
      obtain ⟨hfacts, hunsound⟩ := of_decide_eq_true hcheck
      obtain ⟨file, -, hrun⟩ := bind_eq_ok.mp hrun
      obtain ⟨s₀, hopen, hrun⟩ := bind_eq_ok.mp hrun
      obtain ⟨s₁, hfirst, hrun⟩ := bind_eq_ok.mp hrun
      obtain ⟨s₂, hsecond, hrun⟩ := bind_eq_ok.mp hrun
      obtain ⟨s₃, hthird, hrun⟩ := bind_eq_ok.mp hrun
      cases Except.ok.inj hrun
      exact ⟨_, t₀, t₃, _, _, hopen, hfacts.fellBack,
        .commit (.commit (.commit .start trivial hfirst) trivial hsecond) trivial hthird, hunsound⟩

/-- After the fallback the delete vector is written over the lost extent, and the commit that
references it also frees it. -/
theorem fallback_frees_delete_vector : ∃ (file : JournalFile Unit Nat) (t₀ t : PlainFile) (m : Manifest)
    (newer : MetaPage), TableFile.openFile (M := Journal plainSizes) file .columnar = .ok t₀ ∧
      FellBack t₀ newer ∧ newer.manifest.stop ≤ t₀.io.len ∧ WriterRun (fun _ _ _ _ _ => True) AppendsPast t₀ t m ∧
      ¬t.committed.manifest.FreeListSound := by
  have hcheck : (match rottenDelete with
      | .ok (t₀, t) => decide (FellBackFacts t₀ (newerPage t₀) ∧ t₀.committed.metaPage.txnId = 2 ∧
          t₀.beginManifest.segment 0 = some ⟨0, ⟨20480, 48⟩, ⟨20480, 32⟩, 2, 0, none⟩ ∧
          (newerPage t₀).manifest.stop ≤ t₀.io.len ∧ t₀.nextSlotManifest.stop ≤ t₀.io.len ∧
          ¬t.committed.manifest.FreeListSound)
      | .error _ => false) = true := by decide +kernel
  cases hrun : rottenDelete with
  | error e => rw [hrun] at hcheck; cases hcheck
  | ok result =>
      obtain ⟨t₀, t⟩ := result
      rw [hrun] at hcheck
      obtain ⟨hfacts, htxn, hentry, hinside, hremembered, hunsound⟩ := of_decide_eq_true hcheck
      obtain ⟨file, -, hrun⟩ := bind_eq_ok.mp hrun
      obtain ⟨t₁, hopen, hrun⟩ := bind_eq_ok.mp hrun
      obtain ⟨⟨e, m, io⟩, hwrite, hrun⟩ := bind_eq_ok.mp hrun
      obtain ⟨t₂, hcommit, hrun⟩ := bind_eq_ok.mp hrun
      obtain ⟨rfl, rfl⟩ := Prod.mk.inj (Except.ok.inj hrun)
      have hedit : Edit (fun _ _ _ => True) 2 ⟨t₁.io, t₁.beginManifest⟩ ⟨io, m.replaceDeletes 0 none e 1⟩ :=
        .deletes 0 _ {0} hentry trivial hwrite
      have hlen := (hedit.inFile hfacts.fellBack.inFile).2
      exact ⟨file, t₁, t₂, _, _, hopen, hfacts.fellBack, hinside,
        .commit (.edit 2 .start htxn.ge hedit) (appendsPast_of_inside (hremembered.trans hlen)) hcommit, hunsound⟩

theorem fallback_insert_keeps_off : ∃ (t₀ t : PlainFile) (newer : MetaPage), FellBack t₀ newer ∧
    t.committed.manifest.segments.length = 2 ∧ t.committed.manifest.FreeListSound := by
  have hcheck : (match rottenInsert with
      | .ok (t₀, t) => decide (FellBackFacts t₀ (newerPage t₀) ∧ t₀.committed.metaPage.txnId = 2 ∧
          KeepsOff (newerPage t₀).manifest 2 t₀.beginManifest 40 segmentAlign ∧
          t₀.nextSlotManifest.stop ≤ t₀.io.len ∧ t.committed.manifest.segments.length = 2)
      | .error _ => false) = true := by decide +kernel
  cases hrun : rottenInsert with
  | error e => rw [hrun] at hcheck; cases hcheck
  | ok result =>
      obtain ⟨t₀, t⟩ := result
      rw [hrun] at hcheck
      obtain ⟨hfacts, htxn, hkeeps, hinside, htwo⟩ := of_decide_eq_true hcheck
      obtain ⟨file, -, hrun⟩ := bind_eq_ok.mp hrun
      obtain ⟨t₁, hopen, hrun⟩ := bind_eq_ok.mp hrun
      obtain ⟨⟨e, m, io⟩, hwrite, hrun⟩ := bind_eq_ok.mp hrun
      obtain ⟨t₂, hcommit, hrun⟩ := bind_eq_ok.mp hrun
      obtain ⟨rfl, rfl⟩ := Prod.mk.inj (Except.ok.inj hrun)
      have hlen : e.len = 40 :=
        (Except.ok.inj (writeAllocated_ok isPowerOfTwo_segmentAlign hwrite).1).symm
      have hedit : Edit (fun m len align => Uncommitted t₁ t₁ → KeepsOff (newerPage t₁).manifest 2 m len align) 2
          ⟨t₁.io, t₁.beginManifest⟩ ⟨io, m.addSegment e ⟨e.offset + 0, 32⟩ 1⟩ :=
        .segment _ (fun _ => hlen ▸ hkeeps) hwrite
      have hgrown := (hedit.inFile hfacts.fellBack.inFile).2
      exact ⟨t₁, t₂, _, hfacts.fellBack, htwo, fallback_free_list_sound hopen hfacts.fellBack
        (.commit (.edit 2 .start htxn.ge hedit) (fun _ => appendsPast_of_inside (hinside.trans hgrown)) hcommit)⟩

end Concrete

end LocalTables
