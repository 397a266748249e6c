import LocalTables.Columnar.Sizing
import LocalTables.Table.Runs

/-! What writing costs: how many commits a compaction takes within its memory budget, and how many segments a flush or a
compaction adds to the table. -/

namespace LocalTables

variable {τ ν : Type} {M : Media τ ν}

namespace Snapshot

/-- The bytes of a segment. -/
def sizeOf (s : Snapshot τ ν) (id : SegmentId) : Nat := ((s.manifest.segment id).map fun entry => entry.data.len).getD 0

end Snapshot

namespace Table

variable {env : Env τ ν} {s : Snapshot τ ν}

/-- The bytes of source data a run may read. -/
def runBudget (env : Env τ ν) : Nat := max env.options.compactionMaxBytes 1

/-- What has been cut so far: the last run is as full as it can be, and `bytes` is what is in it. -/
structure CutSoFar (env : Env τ ν) (s : Snapshot τ ν) (done : List SegmentId) (cut : List (List SegmentId) × Nat) : Prop where
  isCut : Cuts.IsCut s.sizeOf (runBudget env) done cut.1
  late : Cuts.Late s.sizeOf (runBudget env) cut.1
  bytes : ∀ last ∈ cut.1.getLast?, Cuts.weight s.sizeOf last = cut.2

theorem CutSoFar.add {done : List SegmentId} {cut cut' : List (List SegmentId) × Nat} {id : SegmentId}
    (h : CutSoFar env s done cut) (hadd : addToRuns env s cut id = .ok cut') : CutSoFar env s (done ++ [id]) cut' := by
  obtain ⟨runs, bytes⟩ := cut
  unfold addToRuns at hadd
  split at hadd
  · cases hadd
  · next entry hentry =>
      have hsize : s.sizeOf id = entry.data.len := by
        unfold Snapshot.sizeOf
        rw [hentry]
        rfl
      dsimp only at hadd
      split at hadd
      · next run hrun =>
          obtain ⟨front, rfl⟩ := List.getLast?_eq_some_iff.mp hrun
          have hbytes : Cuts.weight s.sizeOf run = bytes := h.bytes run hrun
          have hne := (h.isCut.fits run (by simp)).ne_nil
          split at hadd
          · next hwithin =>
              obtain rfl := Except.ok.inj hadd
              rw [List.dropLast_concat]
              refine ⟨h.isCut.extend ?_, h.late.extend hne id, ?_⟩
              · rw [hbytes, hsize]
                exact hwithin
              · intro last hlast
                obtain rfl : run ++ [id] = last := by simpa using hlast
                rw [Cuts.weight_append, hbytes, ← hsize]
                rfl
          · next hpast =>
              obtain rfl := Except.ok.inj hadd
              refine ⟨h.isCut.open id, h.late.open ?_, ?_⟩
              · intro last hlast
                obtain rfl : run = last := by simpa using hlast
                rw [hbytes, hsize]
                exact Nat.not_le.mp hpast
              · intro last hlast
                obtain rfl : [id] = last := by simpa using hlast
                exact hsize
      · next hnone =>
          obtain rfl := List.getLast?_eq_none_iff.mp hnone
          obtain rfl := Except.ok.inj hadd
          refine ⟨h.isCut.open id, List.isChain_singleton _, ?_⟩
          intro last hlast
          obtain rfl : [id] = last := by simpa using hlast
          exact hsize

theorem cutSoFar_foldlM {ids done : List SegmentId} {cut cut' : List (List SegmentId) × Nat} (h : CutSoFar env s done cut)
    (hfold : ids.foldlM (addToRuns env s) cut = .ok cut') : CutSoFar env s (done ++ ids) cut' := by
  induction ids generalizing done cut with
  | nil =>
      obtain rfl := Except.ok.inj hfold
      rwa [List.append_nil]
  | cons id ids ih =>
      rw [List.foldlM_cons] at hfold
      obtain ⟨next, hadd, hrest⟩ := bind_eq_ok.mp hfold
      have hdone := ih (h.add hadd) hrest
      rwa [List.append_assoc] at hdone

/-- Only a segment that is not there stops the cutting. -/
theorem addToRuns_isOk (env : Env τ ν) (cut : List (List SegmentId) × Nat) (id : SegmentId) :
    (∃ cut', addToRuns env s cut id = .ok cut') ↔ (s.manifest.segment id).isSome := by
  unfold addToRuns
  cases s.manifest.segment id with
  | none => simp
  | some entry =>
      dsimp only
      split
      · split <;> simp
      · simp

theorem foldlM_addToRuns_isOk (env : Env τ ν) (ids : List SegmentId) (cut : List (List SegmentId) × Nat) :
    (∃ cut', ids.foldlM (addToRuns env s) cut = .ok cut') ↔ ∀ id ∈ ids, (s.manifest.segment id).isSome := by
  induction ids generalizing cut with
  | nil => simp [pure, Except.pure]
  | cons id ids ih =>
      rw [List.forall_mem_cons, ← addToRuns_isOk env cut id]
      constructor
      · rintro ⟨cut', hfold⟩
        obtain ⟨next, hadd, hrest⟩ := bind_eq_ok.mp hfold
        exact ⟨⟨next, hadd⟩, (ih next).mp ⟨cut', hrest⟩⟩
      · rintro ⟨⟨next, hadd⟩, hlisted⟩
        obtain ⟨cut', hrest⟩ := (ih next).mpr hlisted
        exact ⟨cut', bind_eq_ok.mpr ⟨next, hadd, hrest⟩⟩

/-- The runs of a compaction are the segments named, in order, each run within the budget or a single segment; no other way
of cutting them up so takes fewer commits. There are such runs for any segments that are listed. -/
theorem runs_are_fewest (env : Env τ ν) (s : Snapshot τ ν) (ids : List SegmentId) :
    ((∃ cut, runs env s ids = .ok cut) ↔ ∀ id ∈ ids, (s.manifest.segment id).isSome) ∧
      ∀ cut, runs env s ids = .ok cut → Cuts.IsCut s.sizeOf (runBudget env) ids cut ∧
        ∀ other, Cuts.IsCut s.sizeOf (runBudget env) ids other → cut.length ≤ other.length := by
  constructor
  · rw [← foldlM_addToRuns_isOk env ids ([], 0)]
    constructor
    · rintro ⟨cut, hcut⟩
      obtain ⟨cut', hfold, -⟩ := bind_eq_ok.mp hcut
      exact ⟨cut', hfold⟩
    · rintro ⟨cut', hfold⟩
      exact ⟨cut'.1, bind_eq_ok.mpr ⟨cut', hfold, rfl⟩⟩
  · intro cut hcut
    obtain ⟨⟨cut', bytes⟩, hfold, hcut⟩ := bind_eq_ok.mp hcut
    obtain rfl := Except.ok.inj hcut
    have hstart : CutSoFar env s [] ([], 0) := ⟨.nil, .nil, by simp⟩
    have hdone := cutSoFar_foldlM hstart hfold
    rw [List.nil_append] at hdone
    refine ⟨hdone.isCut, ?_⟩
    intro other hother
    exact hdone.late.fewest hdone.isCut hother (List.suffix_refl ids)

section Added

/-- A write of this many rows: it leaves the segments it keeps as they were written, and lists new ones. None of these is
empty, together they hold no more than the rows written, and they are few. -/
structure AddsFew (options : TableOptions) (rows : Nat) (kept after added : List SegmentEntry) : Prop where
  listed : after.map SegmentEntry.body = kept.map SegmentEntry.body ++ added.map SegmentEntry.body
  filled : ∀ entry ∈ added, 0 < entry.rowCount
  held : (added.map SegmentEntry.rowCount).sum ≤ rows
  few : added.length ≤ maxGroups options rows

/-- No more segments are added than rows are written. -/
theorem AddsFew.length_le {options : TableOptions} {rows : Nat} {kept after added : List SegmentEntry}
    (h : AddsFew options rows kept after added) : after.length ≤ kept.length + min rows (maxGroups options rows) := by
  have hlength : after.length = kept.length + added.length := by
    calc after.length = (after.map SegmentEntry.body).length := List.length_map _ |>.symm
      _ = (kept.map SegmentEntry.body ++ added.map SegmentEntry.body).length := by rw [h.listed]
      _ = kept.length + added.length := by rw [List.length_append, List.length_map, List.length_map]
  have hcount : added.length ≤ (added.map SegmentEntry.rowCount).sum := by
    simpa using List.length_le_sum_of_one_le (added.map SegmentEntry.rowCount) (List.forall_mem_map.mpr h.filled)
  rw [hlength]
  exact Nat.add_le_add_left (le_min (hcount.trans h.held) h.few) _

variable [DecidableEq τ]

end Added

section Five

end Five

end Table

end LocalTables
