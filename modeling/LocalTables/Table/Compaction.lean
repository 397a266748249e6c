import LocalTables.Table.Isolation

/-! A compaction and what other callers do between its two halves. The rows are read through a snapshot without the writer
lock; the entries of the segments they came from are those of that snapshot, and under the lock their extents are given up
as the snapshot has them. -/

namespace LocalTables

variable {τ ν : Type} {M : Media τ ν}

/-- No empty extent is on the free list. -/
def Manifest.FreedPos (m : Manifest) : Prop := ∀ free ∈ m.freeExtents, 0 < free.extent.len

namespace Manifest.FreedPos

variable {m : Manifest}

theorem free (h : m.FreedPos) (e : Extent) : (m.free e).FreedPos := by
  unfold Manifest.free
  split
  · exact h
  · next hsome =>
      intro free hfree
      rcases List.mem_append.mp hfree with hfree | hfree
      · exact h free hfree
      · rw [List.mem_singleton.mp hfree]
        rw [Extent.isEmpty_iff] at hsome
        exact Nat.pos_of_ne_zero hsome

theorem freeAll (h : m.FreedPos) (extents : List Extent) : (m.freeAll extents).FreedPos := by
  induction extents generalizing m with
  | nil => exact h
  | cons e extents ih => exact ih (h.free e)

theorem allocate (h : m.FreedPos) {len align : Nat} (minActiveTxn : Nat) (hlen : 0 < len) (halign : align.isPowerOfTwo) :
    (LocalTables.allocate m len align minActiveTxn).2.FreedPos := by
  rcases allocate_cases m minActiveTxn hlen halign with
    ⟨front, free, back, start, hfrees, -, hstart, hroom, heq⟩ | ⟨-, heq⟩
  · rw [heq]
    intro piece hpiece
    rcases List.mem_append.mp hpiece with hpiece | hpiece
    · refine h piece ?_
      rw [hfrees]
      rcases List.mem_append.mp hpiece with hpiece | hpiece
      · exact List.mem_append_left _ hpiece
      · exact List.mem_append_right _ (List.mem_cons_of_mem _ hpiece)
    · exact (FreeExtent.mem_rest hstart hroom hpiece).2.2.2
  · rw [heq]
    exact h

theorem edit {allowed : Manifest → Nat → Nat → Prop} {minActiveTxn : Nat} {p p' : Pending M} (h : p.manifest.FreedPos)
    (hedit : Edit allowed minActiveTxn p p') : p'.manifest.FreedPos := by
  cases hedit with
  | @segment io io' m m' e data hallowed hwrite =>
      obtain ⟨-, hpos, halloc, -⟩ := writeAllocated_ok isPowerOfTwo_segmentAlign hwrite
      have := h.allocate minActiveTxn hpos isPowerOfTwo_segmentAlign
      rw [halloc] at this
      exact this
  | @deletes io io' m m' e id entry rows hentry hallowed hwrite =>
      obtain ⟨-, hpos, halloc, -⟩ := writeAllocated_ok isPowerOfTwo_bufferAlign hwrite
      have hm' := h.allocate minActiveTxn hpos isPowerOfTwo_bufferAlign
      rw [halloc] at hm'
      dsimp only [Manifest.replaceDeletes]
      split
      · exact hm'.free _
      · exact hm'
  | @retire io m ids sources hperm =>
      have hkept : Manifest.FreedPos { m with segments := m.segments.filter fun entry => entry.segmentId ∉ ids } := h
      exact hkept.freeAll _
  | stamp checkpointLsn nextSeqno => exact h

theorem edits {allowed : Manifest → Nat → Nat → Prop} {minActiveTxn : Nat} {p p' : Pending M} (h : p.manifest.FreedPos)
    (hedits : Edits allowed minActiveTxn p p') : p'.manifest.FreedPos := by
  induction hedits with
  | refl => exact h
  | tail _ hedit ih => exact ih.edit hedit

/-- A commit gives up the manifest of the slot it overwrites. -/
theorem commit {t t' : TableFile M} (h : m.FreedPos) (hcommit : t.commit m = .ok t') : t'.committed.manifest.FreedPos := by
  obtain ⟨e, manifest, io, hwrite, -, rfl⟩ := TableFile.commit_ok hcommit
  obtain ⟨-, -, -, rfl, -⟩ := writeManifest_ok hwrite
  have hbegin : Manifest.FreedPos { m with txnId := t.committed.metaPage.txnId + 1 } := h
  exact hbegin.free _

/-- Where each byte has one owner, no extent is on the free list twice. -/
theorem nodup {used : List Extent} (h : m.FreedPos) (haccounted : Accounted used m) : m.freed.Nodup := by
  have hfreed : ∀ e ∈ m.freed, 0 < e.len := by
    intro e he
    obtain ⟨free, hfree, rfl⟩ := List.mem_map.mp he
    exact h free hfree
  have hapart := Extent.pairwise_apart hfreed fun byte => (Nat.le_add_left _ _).trans (haccounted.once byte)
  refine hapart.imp_of_mem fun {a b} ha _ hab heq => ?_
  have hlen := Extent.offset_lt_stop (hfreed a ha)
  rw [← heq] at hab
  simp only [Interval.Apart] at hab
  omega

end Manifest.FreedPos

namespace Manifest

variable {m : Manifest}

/-- Giving extents up puts them on the free list, empty ones aside. -/
theorem freed_freeAll (extents : List Extent) : (m.freeAll extents).freed = m.freed ++ extents.filter fun e => 0 < e.len := by
  induction extents generalizing m with
  | nil => exact (List.append_nil _).symm
  | cons e extents ih =>
      have hstep : m.freeAll (e :: extents) = (m.free e).freeAll extents := rfl
      rw [hstep, ih, free, List.filter_cons]
      by_cases hempty : e.isEmpty = true
      · have hzero := (Extent.isEmpty_iff e).mp hempty
        simp [hempty, hzero]
      · have hpos : 0 < e.len := Nat.pos_of_ne_zero fun hzero => hempty ((Extent.isEmpty_iff e).mpr hzero)
        simp [hempty, hpos, freed]

theorem freed_subset_free (e : Extent) : m.freed ⊆ (m.free e).freed := by
  have hfreed : (m.free e).freed = m.freed ++ [e].filter fun e => 0 < e.len := freed_freeAll [e]
  rw [hfreed]
  exact List.subset_append_left _ _

/-- What is given up is on the free list. -/
theorem mem_freed_freeAll {extents : List Extent} {e : Extent} (he : e ∈ extents) (hpos : 0 < e.len) :
    e ∈ (m.freeAll extents).freed := by
  rw [freed_freeAll]
  exact List.mem_append_right _ (List.mem_filter.mpr ⟨he, decide_eq_true hpos⟩)

end Manifest

namespace Table

variable {env : Env τ ν} {t t' : Table M}

theorem Acts.freedPos (hstep : t.Acts t') (h : t.writer.file.committed.manifest.FreedPos) :
    t'.writer.file.committed.manifest.FreedPos := by
  cases hstep.commits with
  | quiet hfile =>
      rw [hfile]
      exact h
  | edits p hedits hcommit =>
      have hpending : p.manifest.FreedPos := Manifest.FreedPos.edits (p := ⟨_, t.writer.file.beginManifest⟩) h hedits
      exact hpending.commit hcommit

theorem Locked.freedPos [DecidableEq τ] (hstep : Locked env t t') (hsynced : t.Synced)
    (hnumbered : t.writer.file.committed.manifest.Numbered) (h : t.writer.file.committed.manifest.FreedPos) :
    t'.writer.file.committed.manifest.FreedPos := by
  rcases hstep.acts hsynced hnumbered with hacts | ⟨before, after, s, hok⟩ | rfl | ⟨index, rfl⟩
  · exact hacts.freedPos h
  · obtain ⟨t₁, hchange, rfl⟩ := setSchemaLocked_ok hok
    obtain ⟨-, extent, file, -, ⟨-, f, hcommit, rfl⟩ | ⟨hfalse, -⟩⟩ := commitSchema_ok hchange
    · have hbegin : Manifest.FreedPos { t.writer.file.beginManifest with schema := extent } := h
      have hcommitted : f.committed.manifest.FreedPos := hbegin.commit hcommit
      exact hcommitted
    · cases hfalse
  · exact h
  · exact h

theorem Reachable.freedPos [DecidableEq τ] (hrun : Reachable env t) : t.writer.file.committed.manifest.FreedPos := by
  induction hrun with
  | create schema fingerprint newTableUuid h =>
      obtain ⟨file, seed, current, -, hfresh, -, rfl⟩ := create_ok h
      intro free hfree
      change free ∈ file.committed.manifest.freeExtents at hfree
      rw [hfresh.manifest] at hfree
      cases hfree
  | step hrun hstep ih => exact hstep.freedPos hrun.isolated.synced hrun.isolated.numbered ih

/-- How the free list of a table stands to what is read: no extent is on it twice, nothing on it is in use, and what the
other slot's manifest still lists was given up after the commit of that slot. -/
structure Quarantined (t : Table M) : Prop where
  once : t.writer.file.committed.manifest.freed.Nodup
  unused : ∀ e ∈ t.writer.file.space ++ t.writer.file.committed.manifest.refs, ∀ f ∈ t.writer.file.committed.manifest.freed,
    ¬e.Shares f
  later : ∀ page m, readMeta t.writer.file.io.file t.writer.file.nextSlot = some page →
    readManifest t.writer.file.io.file page = .ok m → ∀ e ∈ m.refs, ∀ free ∈ t.writer.file.committed.manifest.freeExtents,
      e.Shares free.extent → page.txnId < free.freedTxn

theorem Isolated.quarantined (h : t.Isolated) (hpos : t.writer.file.committed.manifest.FreedPos) : t.Quarantined := by
  have haccounted := h.sound.settled.accounted
  refine ⟨hpos.nodup haccounted, fun e he f hf => Extent.not_shares_of_coverAt he hf haccounted.once, ?_⟩
  · intro page m hpage hm e he free hfree hshares
    by_contra hearly
    obtain ⟨-, -, hrefs⟩ := h.other page hpage
    rcases (hrefs m hm e he).2.apart free hfree (Nat.le_of_not_lt hearly) with hzero | hapart
    · exact absurd (hpos free hfree) (by omega)
    · rw [Extent.shares_iff] at hshares
      simp only [Interval.Apart] at hapart
      omega

/-- A rewrite of entries still listed as they were read gives up everything it drops from the manifest. -/
theorem compactLocked_frees [DecidableEq τ] (h : t.Isolated) {rewrite : Rewrite τ ν} {rows : Nat}
    (hcurrent : rewrite.Current t.writer.file.committed.manifest) (hok : t.compactLocked env rewrite = .ok (rows, t'))
    {e : Extent} (he : e ∈ t.writer.file.committed.manifest.refs) :
    e ∈ t'.writer.file.committed.manifest.refs ∨ e ∈ t'.writer.file.committed.manifest.freed := by
  rcases compactLocked_ok hok with ⟨-, rfl⟩ | ⟨groups, pending, f, -, -, hpending, hcommit, rfl⟩
  · exact .inl he
  · change e ∈ f.committed.manifest.refs ∨ e ∈ f.committed.manifest.freed
    obtain ⟨extent, manifest, io, hwrite, -, rfl⟩ := TableFile.commit_ok hcommit
    obtain ⟨-, -, -, rfl, -⟩ := writeManifest_ok hwrite
    obtain ⟨entry, hentry, hrefs⟩ := List.mem_flatMap.mp he
    by_cases hid : entry.segmentId ∈ rewrite.ids
    · right
      obtain ⟨source, hsource, heq⟩ := List.mem_map.mp (hcurrent.sources ▸ hid)
      obtain rfl := h.numbered.eq_of_id (hcurrent.unchanged source hsource) hentry heq
      have hretired : e ∈ (pending.manifest.retire rewrite.ids rewrite.sources).freed :=
        Manifest.mem_freed_freeAll (List.mem_flatMap.mpr ⟨source, hsource, hrefs⟩) (h.sound.settled.refsPos e he)
      exact Manifest.freed_subset_free _ hretired
    · left
      have hkept : entry ∈ (pending.manifest.retire rewrite.ids rewrite.sources).segments := by
        rw [Manifest.retire, Manifest.segments_freeAll]
        exact List.mem_filter.mpr ⟨(writeSegments_appends hpending).subset hentry, decide_eq_true hid⟩
      refine List.mem_flatMap.mpr ⟨entry, ?_, hrefs⟩
      dsimp only [TableFile.stamped]
      rw [Manifest.segments_free]
      exact hkept

theorem Reachable.trans [DecidableEq τ] (hrun : Reachable env t) (hsteps : Relation.ReflTransGen (Locked env) t t') :
    Reachable env t' := by
  induction hsteps with
  | refl => exact hrun
  | tail _ hstep ih => exact ih.step hstep

/-- The space a compaction leaves behind. Whatever ran between its two halves, a rewrite of distinct segments that is
abandoned, or that finds each of them listed as it was read, leaves no extent on the free list twice and nothing in use
on it; what the other slot's manifest still lists of the free list was given up by a later commit than that slot's, so
that no allocation takes it before the slot is overwritten; and whatever the manifest no longer references is free. -/
theorem compaction_keeps_the_free_list [DecidableEq τ] {t₀ : Table M} (hrun : Reachable env t₀) {ids : List SegmentId}
    (hids : ids.Nodup) {rewrite : Rewrite τ ν} (hread : t₀.pin.compactRead env ids = .ok rewrite)
    (hsteps : Relation.ReflTransGen (Locked env) t₀.pin t)
    (hlisted : ¬t.isStale rewrite → ∀ entry ∈ rewrite.sources, entry ∈ t.writer.file.committed.manifest.segments)
    {rows : Nat} (hok : t.compactLocked env rewrite = .ok (rows, t')) :
    t'.Quarantined ∧ ∀ e ∈ t.writer.file.committed.manifest.refs,
      e ∈ t'.writer.file.committed.manifest.refs ∨ e ∈ t'.writer.file.committed.manifest.freed := by
  have hreach : Reachable env t := (hrun.step (.pin t₀)).trans hsteps
  have hisolated := hreach.isolated
  by_cases hstale : t.isStale rewrite
  · rcases compactLocked_ok hok with ⟨-, rfl⟩ | ⟨_, _, _, hfresh, -⟩
    · exact ⟨hisolated.quarantined hreach.freedPos, fun e he => .inl he⟩
    · exact absurd hstale hfresh
  · have hcurrent : rewrite.Current t.writer.file.committed.manifest :=
      ⟨(compactRead_ok hread).1 ▸ hids, compactRead_sources hread, hlisted hstale⟩
    have hacts := compactLocked_acts hisolated.synced hisolated.numbered hcurrent hok
    have hafter := hisolated.advances (hisolated.toKept.advances_of_acts hacts)
    exact ⟨hafter.quarantined (hacts.freedPos hreach.freedPos), fun e he => compactLocked_frees hisolated hcurrent hok he⟩

end Table

section Between

def betweenEnv : Env Unit Nat :=
  plainEnv plainOptions [.insert 1 0 ⟨[()], [[7], [8], [9]]⟩, .delete 2 [⟨0, {0}⟩] [], .delete 3 [⟨0, {0, 1}⟩] [],
    .insert 3 3 ⟨[()], [[10]]⟩]

/-- A segment of three rows, one of them deleted, with its delete vector stored. -/
def storedRun : Except Error PlainTable := do
  let t ← Table.create betweenEnv (Journal plainSizes) plainSchema (fun _ => 0) (fun _ => []) none
  let (_, t) ← t.insertLocked betweenEnv [⟨plainSchema.fields, [[7], [8], [9]]⟩]
  let (_, t) ← t.flushLocked betweenEnv
  let (_, t) ← t.delete betweenEnv [(0, [0])] []
  let (_, t) ← t.flushLocked betweenEnv
  return t

/-- The same with a second row deleted, in the log alone. -/
def loggedRun : Except Error PlainTable := do
  let t ← storedRun
  let (_, t) ← t.delete betweenEnv [(0, [1])] []
  return t

/-- A compaction of the segment, and what runs between its halves. -/
def halves (between : PlainTable → Except Error (Nat × PlainTable)) (t : PlainTable) :
    Except Error (Rewrite Unit Nat × PlainTable × Nat × PlainTable) := do
  let rewrite ← t.pin.compactRead betweenEnv [0]
  let (_, t) ← between t.pin
  let (rows, t') ← t.compactLocked betweenEnv rewrite
  return (rewrite, t, rows, t')

/-- Another row is inserted and flushed. -/
def flushAnother (t : PlainTable) : Except Error (Nat × PlainTable) := do
  let (_, t) ← t.insertLocked betweenEnv [⟨plainSchema.fields, [[10]]⟩]
  t.flushLocked betweenEnv

/-- What the slot that is overwritten next references. -/
def otherRefs (t : PlainTable) : List Extent :=
  match readMeta t.writer.file.io.file t.writer.file.nextSlot with
  | none => []
  | some page => match readManifest t.writer.file.io.file page with
    | .ok m => m.refs
    | .error _ => []

theorem storedRun_reachable {t : PlainTable} (h : storedRun = .ok t) : Table.Reachable betweenEnv t := by
  obtain ⟨t₀, hcreate, h⟩ := bind_eq_ok.mp h
  obtain ⟨⟨_, t₁⟩, hinsert, h⟩ := bind_eq_ok.mp h
  obtain ⟨⟨_, t₂⟩, hflush, h⟩ := bind_eq_ok.mp h
  obtain ⟨⟨_, t₃⟩, hdelete, h⟩ := bind_eq_ok.mp h
  obtain ⟨⟨_, t₄⟩, hagain, h⟩ := bind_eq_ok.mp h
  obtain rfl := Except.ok.inj h
  exact .step (.step (.step (.step (.create _ _ _ hcreate) (.insert _ hinsert)) (.flush hflush)) (.delete _ _ hdelete))
    (.flush hagain)

theorem loggedRun_reachable {t : PlainTable} (h : loggedRun = .ok t) : Table.Reachable betweenEnv t := by
  obtain ⟨t₀, hstored, h⟩ := bind_eq_ok.mp h
  obtain ⟨⟨_, t₁⟩, hdelete, h⟩ := bind_eq_ok.mp h
  obtain rfl := Except.ok.inj h
  exact (storedRun_reachable hstored).step (.delete _ _ hdelete)

theorem halves_ok {between : PlainTable → Except Error (Nat × PlainTable)} {t₀ t t' : PlainTable}
    {rewrite : Rewrite Unit Nat} {rows : Nat} (h : halves between t₀ = .ok (rewrite, t, rows, t')) :
    t₀.pin.compactRead betweenEnv [0] = .ok rewrite ∧ (∃ n, between t₀.pin = .ok (n, t)) ∧
      t.compactLocked betweenEnv rewrite = .ok (rows, t') := by
  obtain ⟨read, hread, h⟩ := bind_eq_ok.mp h
  obtain ⟨⟨n, t₁⟩, hbetween, h⟩ := bind_eq_ok.mp h
  obtain ⟨⟨m, t₂⟩, hlocked, h⟩ := bind_eq_ok.mp h
  simp only [pure, Except.pure, Except.ok.injEq, Prod.mk.injEq] at h
  obtain ⟨rfl, rfl, rfl, rfl⟩ := h
  exact ⟨hread, ⟨n, hbetween⟩, hlocked⟩

theorem flushAnother_steps {t t' : PlainTable} {n : Nat} (h : flushAnother t = .ok (n, t')) :
    Relation.ReflTransGen (Table.Locked betweenEnv) t t' := by
  obtain ⟨⟨_, t₁⟩, hinsert, hflush⟩ := bind_eq_ok.mp h
  exact .tail (.single (.insert _ hinsert)) (.flush hflush)

/-- Whether a compaction of the segment completes, with what it leaves in order. -/
def completes (start : Except Error PlainTable) (between : PlainTable → Except Error (Nat × PlainTable))
    (good : Rewrite Unit Nat → PlainTable → Nat → PlainTable → Bool) : Bool :=
  match start with
  | .error _ => false
  | .ok t₀ => match halves between t₀ with
    | .error _ => false
    | .ok (rewrite, t, rows, t') => good rewrite t rows t'

theorem exists_of_completes {start : Except Error PlainTable} {between : PlainTable → Except Error (Nat × PlainTable)}
    {good : Rewrite Unit Nat → PlainTable → Nat → PlainTable → Bool} (h : completes start between good = true) :
    ∃ t₀ rewrite t rows t', start = .ok t₀ ∧ halves between t₀ = .ok (rewrite, t, rows, t') ∧
      good rewrite t rows t' = true := by
  unfold completes at h
  split at h
  · cases h
  · next t₀ =>
      split at h
      · cases h
      · next rewrite t rows t' hhalves => exact ⟨t₀, rewrite, t, rows, t', rfl, hhalves, h⟩

/-- A compaction with a flush of another segment between its halves. -/
theorem compaction_around_a_flush : ∃ (t₀ t t' : PlainTable) (rewrite : Rewrite Unit Nat),
    Table.Reachable betweenEnv t₀ ∧ t₀.pin.compactRead betweenEnv [0] = .ok rewrite ∧
      t.compactLocked betweenEnv rewrite = .ok (2, t') ∧ t'.Quarantined ∧
      ∀ e ∈ t.writer.file.committed.manifest.refs,
        e ∈ t'.writer.file.committed.manifest.refs ∨ e ∈ t'.writer.file.committed.manifest.freed := by
  have hcheck : completes storedRun flushAnother (fun rewrite t rows _ => decide (rows = 2 ∧
      ∀ entry ∈ rewrite.sources, entry ∈ t.writer.file.committed.manifest.segments)) = true := by decide +kernel
  obtain ⟨t₀, rewrite, t, rows, t', hstored, hhalves, hgood⟩ := exists_of_completes hcheck
  obtain ⟨rfl, hlisted⟩ := of_decide_eq_true hgood
  obtain ⟨hread, ⟨n, hbetween⟩, hlocked⟩ := halves_ok hhalves
  have hreach := storedRun_reachable hstored
  exact ⟨t₀, t, t', rewrite, hreach, hread, hlocked, Table.compaction_keeps_the_free_list hreach (List.nodup_singleton 0)
    hread (flushAnother_steps hbetween) (fun _ => hlisted) hlocked⟩

/-- The segment a compaction retires is on the free list while the other slot's manifest lists it. And a flush between
the halves that replaces the segment's delete vector makes the compaction free the old one again, and leak the new. -/
theorem compaction_frees_what_the_other_slot_lists :
    (∃ (t₀ t t' : PlainTable) (rewrite : Rewrite Unit Nat) (rows : Nat), Table.Reachable betweenEnv t₀ ∧
      t₀.pin.compactRead betweenEnv [0] = .ok rewrite ∧ Relation.ReflTransGen (Table.Locked betweenEnv) t₀.pin t ∧
      t.compactLocked betweenEnv rewrite = .ok (rows, t') ∧
      ∃ e ∈ t'.writer.file.committed.manifest.freed, e ∈ otherRefs t') ∧
    ∃ (t₀ t t' : PlainTable) (rewrite : Rewrite Unit Nat) (n rows : Nat), Table.Reachable betweenEnv t₀ ∧
      t₀.pin.compactRead betweenEnv [0] = .ok rewrite ∧ t₀.pin.flushLocked betweenEnv = .ok (n, t) ∧
      t.compactLocked betweenEnv rewrite = .ok (rows, t') ∧ ¬t'.writer.file.committed.manifest.freed.Nodup ∧
      ∃ e ∈ t.writer.file.committed.manifest.refs,
        e ∉ t'.writer.file.committed.manifest.refs ∧ e ∉ t'.writer.file.committed.manifest.freed := by
  constructor
  · have hcheck : completes storedRun flushAnother (fun _ _ _ t' => decide
        (∃ e ∈ t'.writer.file.committed.manifest.freed, e ∈ otherRefs t')) = true := by decide +kernel
    obtain ⟨t₀, rewrite, t, rows, t', hstored, hhalves, hgood⟩ := exists_of_completes hcheck
    obtain ⟨hread, ⟨n, hbetween⟩, hlocked⟩ := halves_ok hhalves
    exact ⟨t₀, t, t', rewrite, rows, storedRun_reachable hstored, hread, flushAnother_steps hbetween, hlocked,
      of_decide_eq_true hgood⟩
  · have hcheck : completes loggedRun (fun t => t.flushLocked betweenEnv) (fun _ t _ t' => decide
        (¬t'.writer.file.committed.manifest.freed.Nodup ∧ ∃ e ∈ t.writer.file.committed.manifest.refs,
          e ∉ t'.writer.file.committed.manifest.refs ∧ e ∉ t'.writer.file.committed.manifest.freed)) = true := by
      decide +kernel
    obtain ⟨t₀, rewrite, t, rows, t', hlogged, hhalves, hgood⟩ := exists_of_completes hcheck
    obtain ⟨hread, ⟨n, hbetween⟩, hlocked⟩ := halves_ok hhalves
    exact ⟨t₀, t, t', rewrite, n, rows, loggedRun_reachable hlogged, hread, hbetween, hlocked, of_decide_eq_true hgood⟩

end Between

end LocalTables
