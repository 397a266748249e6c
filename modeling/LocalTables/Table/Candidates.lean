import LocalTables.Table.Runs

/-! The segments worth rewriting, and a compaction of all of them. Once it is done, none is worth it. -/

namespace LocalTables

variable {τ ν : Type} {M : Media τ ν}

namespace Table

section Compact

variable (env : Env τ ν) (t : Table M) (worth : Nat → Nat → Bool)

/-- Segments worth rewriting, because deletes now dominate them: `worth` says of the deleted rows and of all rows whether the
one divided by the other reaches the ratio asked for. -/
def compactionCandidates : List SegmentId :=
  (t.current.manifest.segments.filter fun entry =>
    entry.rowCount > 0 && worth (entry.rowCount - t.current.liveRowsIn entry) entry.rowCount).map SegmentEntry.segmentId

/-- Rewrite the segments deletes have hollowed out. -/
def compact [DecidableEq τ] : Except Error (Nat × Table M) :=
  let targets := t.compactionCandidates worth
  if targets.isEmpty then return (0, t) else t.compactSegments env targets

end Compact

variable {env : Env τ ν} {t t' t₁ : Table M} {ids run : List SegmentId} {worth : Nat → Nat → Bool}

/-- What rewriting some segments leaves: segments that were listed and are not named, with the deletions they had, and new ones
that have none. -/
def Cleared (t : Table M) (ids : List SegmentId) (t' : Table M) : Prop :=
  ∀ entry ∈ t'.writer.file.committed.manifest.segments,
    (∃ old ∈ t.writer.file.committed.manifest.segments, old.body = entry.body ∧ entry.segmentId ∉ ids ∧
      (t'.writer.deletes entry.segmentId).getD ∅ = (t.writer.deletes entry.segmentId).getD ∅) ∨
    (t'.writer.deletes entry.segmentId).getD ∅ = ∅

namespace Cleared

theorem refl (t : Table M) : Cleared t [] t := fun entry hentry => .inl ⟨entry, hentry, rfl, List.not_mem_nil, rfl⟩

theorem trans (h : Cleared t ids t₁) (hnext : Cleared t₁ run t') : Cleared t (ids ++ run) t' := by
  intro entry hentry
  rcases hnext entry hentry with ⟨mid, hmid, hbody, hnot, hkept⟩ | hnone
  · obtain ⟨hid, -⟩ := SegmentEntry.eq_of_body hbody
    rcases h mid hmid with ⟨old, hold, hsame, hnotBefore, hkeptBefore⟩ | hnone
    · rw [hid] at hnotBefore hkeptBefore
      refine .inl ⟨old, hold, hsame.trans hbody, ?_, hkept.trans hkeptBefore⟩
      rw [List.mem_append, not_or]
      exact ⟨hnotBefore, hnot⟩
    · rw [hid] at hnone
      exact .inr (hkept.trans hnone)
  · exact .inr hnone

end Cleared

section Runs

variable [DecidableEq τ]

/-- The locked half of a run: what it retires is no longer listed, and what it writes has never been deleted from. -/
theorem compactLocked_cleared (h : t.Whole env) (hrun : run.Nodup) {rewrite : Rewrite τ ν} {rows : Nat}
    (hread : t.compactRead env run = .ok rewrite) (hok : t.compactLocked env rewrite = .ok (rows, t')) :
    t'.Whole env ∧ Cleared t run t' := by
  refine ⟨(compactLocked_keeps h hrun hread hok).1, ?_⟩
  obtain ⟨hids, -⟩ := compactRead_ok hread
  have hsources := (compactRead_current h.housed.synced hrun hread).sources
  obtain ⟨_, pending, f, -, -, hpending, hcommit, rfl⟩ := (compactLocked_ok hok).resolve_left fun hold =>
    h.not_stale hread hold.1
  have hbegin : t.writer.file.committed.manifest.Succeeds t.writer.file.beginManifest := .of_segments rfl rfl
  have hlists := hbegin.trans (writeSegments_succeeds hpending)
  obtain ⟨-, -, -, -, hsegments, -⟩ := TableFile.commit_stamps hcommit
  rw [Manifest.segments_retire, hids] at hsegments
  intro entry hentry
  change entry ∈ f.committed.manifest.segments at hentry
  rw [hsegments] at hentry
  obtain ⟨hentry, hnot⟩ := List.mem_filter.mp hentry
  have hnot : entry.segmentId ∉ run := of_decide_eq_true hnot
  have hkept : (publish { t with writer :=
      { t.writer.forgetAll (rewrite.sources.map SegmentEntry.segmentId) with file := f } }).writer.deletes entry.segmentId =
        t.writer.deletes entry.segmentId := by
    rw [Writer.forgetAll_eq, hsources, hids]
    exact if_neg hnot
  rw [hkept]
  rcases hlists.listed entry hentry with ⟨old, hold, hbody⟩ | hnew
  · exact .inl ⟨old, hold, hbody, hnot, rfl⟩
  · right
    -- an id that was not given out has no deletions
    cases hdeletes : t.writer.deletes entry.segmentId with
    | none => rfl
    | some rows => exact absurd (h.tidy.known _ _ hdeletes) (Nat.not_lt.mpr hnew)

theorem compactRun_cleared {rows : Nat} (h : t.Whole env) (hsome : run ≠ []) (hrun : run.Nodup)
    (hok : t.compactRun env run = .ok (rows, t')) : t'.Whole env ∧ Cleared t run t' := by
  rw [Table.compactRun, if_neg (by simpa using hsome)] at hok
  obtain ⟨rewrite, hread, hok⟩ := bind_eq_ok.mp hok
  obtain ⟨⟨n, t₁⟩, hlocked, hok⟩ := bind_eq_ok.mp hok
  obtain ⟨-, rfl⟩ := Prod.mk.inj (Except.ok.inj hok)
  obtain ⟨hwhole, hcleared⟩ := compactLocked_cleared h.pin hrun hread hlocked
  exact ⟨hwhole.unpin 0, hcleared⟩

theorem Compacted.cleared {done : List (List SegmentId × Table M)} (hdone : Compacted env t done t') (h : t.Whole env)
    (hruns : ∀ x ∈ done, x.1 ≠ [] ∧ x.1.Nodup) : t'.Whole env ∧ Cleared t (done.map Prod.fst).flatten t' := by
  induction hdone with
  | nil t => exact ⟨h, .refl t⟩
  | cons hrun _ ih =>
      obtain ⟨⟨hsome, hnodup⟩, hothers⟩ := List.forall_mem_cons.mp hruns
      obtain ⟨hwhole, hfirst⟩ := compactRun_cleared h hsome hnodup hrun
      obtain ⟨hwhole', hrest⟩ := ih hwhole hothers
      exact ⟨hwhole', hfirst.trans hrest⟩

theorem compactSegments_cleared {rows : Nat} (h : t.Whole env) (hids : ids.Nodup)
    (hok : t.compactSegments env ids = .ok (rows, t')) : t'.Whole env ∧ Cleared t ids t' := by
  unfold compactSegments at hok
  split at hok
  · next hnone =>
      obtain ⟨-, rfl⟩ := Prod.mk.inj (Except.ok.inj hok)
      rw [List.isEmpty_iff.mp hnone]
      exact ⟨h, .refl t⟩
  · obtain ⟨cut, hcut, hok⟩ := bind_eq_ok.mp hok
    obtain ⟨⟨n, t₁⟩, hfold, hok⟩ := bind_eq_ok.mp hok
    obtain ⟨-, rfl⟩ := Prod.mk.inj (Except.ok.inj hok)
    obtain ⟨done, rfl, hdone⟩ := compacted_of_fold hfold
    have hflat : (done.map Prod.fst).flatten = ids := flatten_runs hcut
    have hruns : ∀ x ∈ done, x.1 ≠ [] ∧ x.1.Nodup := by
      intro x hx
      refine ⟨runs_ne_nil hcut x.1 (List.mem_map_of_mem hx), ?_⟩
      rw [← hflat] at hids
      exact (List.nodup_flatten.mp hids).1 x.1 (List.mem_map_of_mem hx)
    obtain ⟨hwhole, hcleared⟩ := hdone.cleared h.pin hruns
    rw [hflat] at hcleared
    exact ⟨hwhole.unpin 0, hcleared⟩

omit [DecidableEq τ] in
/-- The deleted rows of a segment, as a candidate's are counted. -/
theorem Whole.deletedIn (h : t.Whole env) (entry : SegmentEntry) : entry.rowCount - t.current.liveRowsIn entry =
    min ((t.writer.deletes entry.segmentId).getD ∅).card entry.rowCount := by
  rw [← h.fresh, Snapshot.liveRowsIn]
  cases t.current.deletes entry.segmentId with
  | none => simp
  | some rows =>
      simp only [Option.map_some, Option.getD_some]
      omega

omit [DecidableEq τ] in
theorem Whole.mem_candidates (h : t.Whole env) {id : SegmentId} : id ∈ t.compactionCandidates worth ↔
    ∃ entry ∈ t.writer.file.committed.manifest.segments, entry.segmentId = id ∧ 0 < entry.rowCount ∧
      worth (min ((t.writer.deletes id).getD ∅).card entry.rowCount) entry.rowCount = true := by
  unfold compactionCandidates
  rw [h.housed.synced.manifest, List.mem_map]
  constructor
  · rintro ⟨entry, hentry, rfl⟩
    obtain ⟨hlisted, hworth⟩ := List.mem_filter.mp hentry
    obtain ⟨hsome, hworth⟩ := (Bool.and_eq_true _ _).mp hworth
    rw [h.deletedIn] at hworth
    exact ⟨entry, hlisted, rfl, of_decide_eq_true hsome, hworth⟩
  · rintro ⟨entry, hlisted, rfl, hsome, hworth⟩
    refine ⟨entry, List.mem_filter.mpr ⟨hlisted, ?_⟩, rfl⟩
    rw [h.deletedIn]
    exact (Bool.and_eq_true _ _).mpr ⟨decide_eq_true hsome, hworth⟩

omit [DecidableEq τ] in
theorem Whole.candidates_nodup (h : t.Whole env) : (t.compactionCandidates worth).Nodup := by
  unfold compactionCandidates
  rw [h.housed.synced.manifest]
  exact h.tidy.numbered.nodup.sublist (List.filter_sublist.map _)

/-- A compaction leaves nothing to compact, whatever else the caller has done before: where a segment without deletions is not
worth it, no segment is once it has returned, and another compaction does nothing. -/
theorem compact_settles (hrun : Alone env t) (hworth : ∀ rows, 0 < rows → worth 0 rows = false) {rows : Nat}
    (hok : t.compact env worth = .ok (rows, t')) :
    t'.compactionCandidates worth = [] ∧ t'.compact env worth = .ok (0, t') := by
  have hwhole := hrun.whole
  have hsettled : t'.compactionCandidates worth = [] := by
    unfold compact at hok
    dsimp only at hok
    split at hok
    · next hnone =>
        obtain ⟨-, rfl⟩ := Prod.mk.inj (Except.ok.inj hok)
        exact List.isEmpty_iff.mp hnone
    · obtain ⟨hwhole', hcleared⟩ := compactSegments_cleared hwhole hwhole.candidates_nodup hok
      apply List.eq_nil_iff_forall_not_mem.mpr
      intro id hid
      obtain ⟨entry, hentry, rfl, hsome, hdeleted⟩ := hwhole'.mem_candidates.mp hid
      rcases hcleared entry hentry with ⟨old, hold, hbody, hnot, hkept⟩ | hnone
      · -- it was worth it before, so it is one of those that were rewritten
        apply hnot
        obtain ⟨hsame, -, -, hrows⟩ := SegmentEntry.eq_of_body hbody
        rw [hkept] at hdeleted
        refine hwhole.mem_candidates.mpr ⟨old, hold, hsame, hrows ▸ hsome, ?_⟩
        rw [hrows]
        exact hdeleted
      · rw [hnone, Finset.card_empty, Nat.zero_min, hworth _ hsome] at hdeleted
        cases hdeleted
  refine ⟨hsettled, ?_⟩
  unfold compact
  dsimp only
  rw [hsettled]
  rfl

end Runs

section Half

/-- At least half of the rows. -/
def half (deleted rows : Nat) : Bool := rows ≤ 2 * deleted

/-- A segment with one of two rows deleted is rewritten, once. -/
theorem half_deleted_settles : ∃ t t' : PlainTable, t.compactionCandidates half = [0] ∧
    t.compact dropEnv half = .ok (1, t') ∧ t'.compactionCandidates half = [] ∧ t'.compact dropEnv half = .ok (0, t') := by
  have hcheck : ((twoRowTable [0]).toOption.map fun t => decide (t.compactionCandidates half = [0] ∧
      (t.compact dropEnv half).toOption.map Prod.fst = some 1)) = some true := by decide +kernel
  obtain ⟨t, htable, hcheck⟩ := Option.map_eq_some_iff.mp hcheck
  obtain ⟨hcandidates, hcompact⟩ := of_decide_eq_true hcheck
  obtain ⟨⟨rows, t'⟩, hresult, rfl⟩ := Option.map_eq_some_iff.mp hcompact
  have hok := toOption_eq_some.mp hresult
  have halone := twoRowTable_alone (toOption_eq_some.mp htable)
  exact ⟨t, t', hcandidates, hok, compact_settles halone (fun rows hsome => decide_eq_false (Nat.not_le.mpr hsome)) hok⟩

end Half

end Table

end LocalTables
