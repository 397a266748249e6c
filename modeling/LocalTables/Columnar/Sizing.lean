import LocalTables.Columnar.Groups
import LocalTables.Lib.Cuts

/-! How many row groups a table is cut into. Groups are cut as late as keeping batches whole allows, and their size grows
with the table until it reaches its maximum. -/

namespace LocalTables

variable {τ ν : Type}

/-- The groups of a grouping, the open one included if it holds anything. -/
def Grouping.parts (g : Grouping τ ν) : List (List (RecordBatch τ ν)) :=
  if g.current.isEmpty then g.groups else g.groups ++ [g.current]

/-- No group could have taken what the next one starts with. -/
def LateGroups (maxRows : Nat) (groups : List (List (RecordBatch τ ν))) : Prop :=
  Cuts.Late RecordBatch.numRows maxRows groups

/-- What has been taken in is cut late, and while no group is open the last one is full. -/
structure Grouping.Packed (maxRows : Nat) (g : Grouping τ ν) : Prop where
  late : LateGroups maxRows g.parts
  full : g.current = [] → ∀ last ∈ g.groups.getLast?, maxRows ≤ totalRows last

section Packed

variable {maxRows : Nat} {g : Grouping τ ν}

/-- A list of whole groups sliced off a batch. -/
theorem lateGroups_heads (hmax : 0 < maxRows) {groups : List (List (RecordBatch τ ν))} {heads : List (RecordBatch τ ν)}
    (hlate : LateGroups maxRows groups) (hlast : ∀ last ∈ groups.getLast?, 0 < totalRows last)
    (hheads : ∀ head ∈ heads, head.numRows = maxRows) :
    LateGroups maxRows (groups ++ heads.map fun head => [head]) := by
  induction heads generalizing groups with
  | nil => simpa using hlate
  | cons head heads ih =>
      have hhead := hheads head List.mem_cons_self
      have hfirst : LateGroups maxRows (groups ++ [[head]]) := by
        apply hlate.open
        intro last hmem
        have hpos := hlast last hmem
        rw [hhead]
        exact Nat.lt_add_of_pos_left hpos
      have hrest := ih hfirst (fun last hmem => by
        obtain rfl : [head] = last := by simpa using hmem
        rw [totalRows_singleton, hhead]
        exact hmax) fun other hother => hheads other (List.mem_cons_of_mem _ hother)
      rwa [List.append_assoc] at hrest

theorem sliceLarge_of_large {fuel : Nat} {batch : RecordBatch τ ν} (hlarge : maxRows < batch.numRows) (hfuel : 0 < fuel) :
    (Grouping.sliceLarge maxRows fuel batch).1 ≠ [] := by
  obtain ⟨fuel, rfl⟩ := Nat.exists_eq_succ_of_ne_zero hfuel.ne'
  rw [Grouping.sliceLarge, if_pos hlarge]
  exact List.cons_ne_nil _ _

theorem sliceLarge_of_small {batch : RecordBatch τ ν} (hsmall : batch.numRows ≤ maxRows) :
    Grouping.sliceLarge maxRows batch.numRows batch = ([], batch) := by
  cases hrows : batch.numRows with
  | zero => rfl
  | succ n => rw [Grouping.sliceLarge, if_neg (by omega)]

/-- The last group is past the limit with the rest of a batch, whether slices of the batch follow it or not. -/
theorem lateGroups_slices (hmax : 0 < maxRows) {groups : List (List (RecordBatch τ ν))} {heads : List (RecordBatch τ ν)}
    {rest : RecordBatch τ ν} (hheads : ∀ head ∈ heads, head.numRows = maxRows) (hsome : rest.numRows ≠ 0)
    (hlate : LateGroups maxRows groups) (hlast : ∀ last ∈ groups.getLast?, 0 < totalRows last)
    (hends : heads = [] → ∀ last ∈ groups.getLast?, maxRows < totalRows last + rest.numRows) :
    LateGroups maxRows (groups ++ heads.map fun head => [head]) ∧
      ∀ last ∈ (groups ++ heads.map fun head => [head]).getLast?, maxRows < totalRows last + rest.numRows := by
  refine ⟨lateGroups_heads hmax hlate hlast hheads, ?_⟩
  cases hlist : heads.getLast? with
  | none =>
      obtain rfl := List.getLast?_eq_none_iff.mp hlist
      simpa using hends rfl
  | some head =>
      obtain ⟨front, rfl⟩ := List.getLast?_eq_some_iff.mp hlist
      intro last hmem
      obtain rfl : [head] = last := by simpa using hmem
      rw [totalRows_singleton, hheads head (by simp)]
      omega

/-- A piece may go in: the open group takes it, or none is open and the last one could not have taken it. -/
def Grouping.Ready (maxRows : Nat) (g : Grouping τ ν) (piece : RecordBatch τ ν) : Prop :=
  g.current = [] ∧ LateGroups maxRows g.groups ∧ (∀ last ∈ g.groups.getLast?, maxRows < totalRows last + piece.numRows) ∨
    g.current ≠ [] ∧ LateGroups maxRows (g.groups ++ [g.current])

/-- A piece that goes into the open group, or opens one. -/
theorem Grouping.Ready.take {piece : RecordBatch τ ν} (h : g.Ready maxRows piece) :
    LateGroups maxRows (g.groups ++ [g.current ++ [piece]]) := by
  rcases h with ⟨hnone, hlate, hpast⟩ | ⟨hne, hlate⟩
  · rw [hnone]
    exact hlate.open hpast
  · exact hlate.extend hne piece

theorem Grouping.Ready.packed {piece : RecordBatch τ ν} (h : g.Ready maxRows piece) (hrows : g.rows = totalRows g.current) :
    (if g.rows + piece.numRows ≥ maxRows then
        close { g with rows := g.rows + piece.numRows, current := g.current ++ [piece] }
      else { g with rows := g.rows + piece.numRows, current := g.current ++ [piece] }).Packed maxRows := by
  have htaken := h.take
  have htotal : g.rows + piece.numRows = totalRows (g.current ++ [piece]) := by
    rw [totalRows_append, totalRows_singleton, hrows]
  split
  · next hfull =>
      refine ⟨by simpa [parts, close] using htaken, ?_⟩
      intro _ last hmem
      obtain rfl : g.current ++ [piece] = last := by simpa [close] using hmem
      rw [← htotal]
      exact hfull
  · exact ⟨by simpa [parts] using htaken, fun hnone => absurd hnone (by simp)⟩

namespace Grouping.Packed

theorem late_open (h : g.Packed maxRows) (hne : g.current ≠ []) : LateGroups maxRows (g.groups ++ [g.current]) := by
  have hparts := h.late
  rwa [parts, if_neg (by simpa using hne)] at hparts

theorem late_closed (h : g.Packed maxRows) (hnone : g.current = []) : LateGroups maxRows g.groups := by
  have hparts := h.late
  rwa [parts, if_pos (by simpa using hnone)] at hparts

variable {batch rest : RecordBatch τ ν} {heads : List (RecordBatch τ ν)}

/-- The open group is closed, because the batch does not fit, and the slices of the batch follow it. -/
theorem ready_close (hmax : 0 < maxRows) (hfits : g.Fits maxRows) (h : g.Packed maxRows)
    (hcut : sliceLarge maxRows batch.numRows batch = (heads, rest)) (hsome : rest.numRows ≠ 0)
    (hclose : g.rows > 0 ∧ batch.numRows > maxRows - g.rows) :
    Ready maxRows { g.close with groups := g.close.groups ++ heads.map fun head => [head] } rest := by
  obtain ⟨hheads, -, -, -⟩ := sliceLarge_spec hmax batch.numRows (le_refl batch.numRows)
  rw [hcut] at hheads
  have hne : g.current ≠ [] := by
    intro hnone
    have hrows := hfits.rows
    rw [hnone] at hrows
    exact absurd hrows hclose.1.ne'
  refine .inl ⟨rfl, lateGroups_slices hmax hheads hsome (h.late_open hne) ?_ ?_⟩
  · intro last hmem
    obtain rfl : g.current = last := by simpa [close] using hmem
    exact hfits.rows ▸ hclose.1
  · rintro rfl last hmem
    obtain rfl : g.current = last := by simpa [close] using hmem
    have hsmall : batch.numRows ≤ maxRows := by
      by_contra hlarge
      have hslices : (sliceLarge maxRows batch.numRows batch).1 ≠ [] :=
        sliceLarge_of_large (Nat.not_le.mp hlarge) (by omega)
      rw [hcut] at hslices
      exact hslices rfl
    obtain ⟨-, rfl⟩ := Prod.mk.inj ((sliceLarge_of_small hsmall).symm.trans hcut)
    rw [← hfits.rows]
    omega

/-- The open group is kept, because the batch fits; or there is none, and the last one is full. -/
theorem ready_keep (hmax : 0 < maxRows) (hfits : g.Fits maxRows) (h : g.Packed maxRows)
    (hcut : sliceLarge maxRows batch.numRows batch = (heads, rest)) (hsome : rest.numRows ≠ 0)
    (hkeep : ¬(g.rows > 0 ∧ batch.numRows > maxRows - g.rows)) :
    Ready maxRows { g with groups := g.groups ++ heads.map fun head => [head] } rest := by
  obtain ⟨hheads, -, -, -⟩ := sliceLarge_spec hmax batch.numRows (le_refl batch.numRows)
  rw [hcut] at hheads
  by_cases hnone : g.current = []
  · refine .inl ⟨hnone, lateGroups_slices hmax hheads hsome (h.late_closed hnone) ?_ ?_⟩
    · intro last hmem
      exact hmax.trans_le (h.full hnone last hmem)
    · intro _ last hmem
      have hfull := h.full hnone last hmem
      omega
  · have hrows := totalRows_pos hnone hfits.batch_pos
    have hroom := hfits.room
    rw [← hfits.rows] at hrows
    have hsmall : batch.numRows ≤ maxRows := by omega
    obtain ⟨rfl, -⟩ := Prod.mk.inj ((sliceLarge_of_small hsmall).symm.trans hcut)
    refine .inr ⟨hnone, ?_⟩
    simpa using h.late_open hnone

end Grouping.Packed

theorem Grouping.Packed.add (hmax : 0 < maxRows) (hfits : g.Fits maxRows) (h : g.Packed maxRows) (batch : RecordBatch τ ν) :
    (g.add maxRows batch).Packed maxRows := by
  obtain ⟨-, -, hpos, -⟩ := sliceLarge_spec hmax batch.numRows (le_refl batch.numRows)
  rw [Grouping.add]
  generalize hcut : sliceLarge maxRows batch.numRows batch = cut at hpos
  obtain ⟨heads, rest⟩ := cut
  dsimp only at hpos ⊢
  by_cases hzero : rest.numRows = 0
  · -- nothing is left of the batch only where there was nothing in it
    have hsmall : batch.numRows ≤ maxRows := by
      by_contra hlarge
      exact absurd hzero (hpos (Nat.not_le.mp hlarge)).ne'
    obtain ⟨rfl, rfl⟩ := Prod.mk.inj ((sliceLarge_of_small hsmall).symm.trans hcut)
    have hkeep : ¬(g.rows > 0 ∧ batch.numRows > maxRows - g.rows) := by omega
    rw [if_neg hkeep, if_pos hzero]
    simpa using h
  · rw [if_neg hzero]
    by_cases hclose : g.rows > 0 ∧ batch.numRows > maxRows - g.rows
    · rw [if_pos hclose]
      exact (h.ready_close hmax hfits hcut hzero hclose).packed rfl
    · rw [if_neg hclose]
      exact (h.ready_keep hmax hfits hcut hzero hclose).packed hfits.rows

theorem Grouping.packed_foldl (hmax : 0 < maxRows) (batches : List (RecordBatch τ ν)) (hfits : g.Fits maxRows)
    (h : g.Packed maxRows) : (batches.foldl (Grouping.add maxRows) g).Packed maxRows := by
  induction batches generalizing g with
  | nil => exact h
  | cons batch batches ih => exact ih (hfits.add hmax batch).1 (h.add hmax hfits batch)

/-- Row groups are a late cut of the pieces of the batches. -/
theorem splitRowGroups_cut (hmax : 0 < maxRows) (batches : List (RecordBatch τ ν)) :
    Cuts.IsCut RecordBatch.numRows maxRows (batches.flatMap fun batch => sliceBatches batch maxRows)
      (splitRowGroups batches maxRows) ∧ LateGroups maxRows (splitRowGroups batches maxRows) := by
  have hempty : (Grouping.empty : Grouping τ ν).Fits maxRows := ⟨rfl, hmax, fun _ h => (nomatch h), fun _ h => (nomatch h)⟩
  have hpacked : (Grouping.empty : Grouping τ ν).Packed maxRows := ⟨Cuts.Late.nil, fun _ _ hmem => by cases hmem⟩
  obtain ⟨hfits, hflat⟩ := Grouping.fits_foldl hmax batches hempty
  have hlate := (Grouping.packed_foldl hmax batches hempty hpacked).late
  have hparts : splitRowGroups batches maxRows = (batches.foldl (Grouping.add maxRows) Grouping.empty).parts := by
    rw [splitRowGroups, if_neg hmax.ne']
    rfl
  rw [hparts]
  refine ⟨?_, hlate⟩
  have hpieces : (Grouping.empty : Grouping τ ν).groups.flatten ++ (Grouping.empty : Grouping τ ν).current = [] := rfl
  rw [hpieces, List.nil_append] at hflat
  generalize batches.foldl (Grouping.add maxRows) Grouping.empty = g at hfits hflat ⊢
  have hgroup : ∀ group : List (RecordBatch τ ν), IsGroup maxRows group → Cuts.Fits RecordBatch.numRows maxRows group := by
    intro group h
    refine ⟨?_, .inr h.rows_le⟩
    rintro rfl
    exact absurd h.rows_pos (lt_irrefl 0)
  unfold Grouping.parts
  split
  · next hnone =>
      rw [List.isEmpty_iff.mp hnone, List.append_nil] at hflat
      exact ⟨hflat, fun group hmem => hgroup group (hfits.groups group hmem)⟩
  · next hsome =>
      have hne : g.current ≠ [] := fun hnone => hsome (List.isEmpty_iff.mpr hnone)
      refine ⟨by simpa using hflat, ?_⟩
      intro group hmem
      rcases List.mem_append.mp hmem with hclosed | hopen
      · exact hgroup group (hfits.groups group hclosed)
      · rw [List.mem_singleton.mp hopen]
        exact hgroup _ ⟨totalRows_pos hne hfits.batch_pos, hfits.rows ▸ hfits.room.le, hfits.batch_pos⟩

/-- No way of grouping whole batches, and slices of the batches over the limit, into groups within the limit makes fewer
groups; and two groups in a row hold more than the limit, so that there are not many. -/
theorem row_groups_are_fewest (batches : List (RecordBatch τ ν)) {maxRows : Nat} (hmax : 0 < maxRows) :
    Cuts.IsCut RecordBatch.numRows maxRows (batches.flatMap fun batch => sliceBatches batch maxRows)
        (splitRowGroups batches maxRows) ∧
      (∀ other, Cuts.IsCut RecordBatch.numRows maxRows (batches.flatMap fun batch => sliceBatches batch maxRows) other →
        (splitRowGroups batches maxRows).length ≤ other.length) ∧
      ((splitRowGroups batches maxRows).length - 1) * (maxRows + 1) ≤ 2 * totalRows batches := by
  obtain ⟨hcut, hlate⟩ := splitRowGroups_cut hmax batches
  refine ⟨hcut, fun other hother => Cuts.Late.fewest hlate hcut hother (List.suffix_refl _), ?_⟩
  have hrows : Cuts.weight RecordBatch.numRows (batches.flatMap fun batch => sliceBatches batch maxRows) =
      totalRows batches := by
    calc Cuts.weight RecordBatch.numRows (batches.flatMap fun batch => sliceBatches batch maxRows)
        = totalRows (splitRowGroups batches maxRows).flatten := by rw [hcut.flatten]; rfl
      _ = totalRows batches := by rw [← length_rowsOf, ← length_rowsOf, rowsOf_splitRowGroups]
  rw [← hrows]
  exact Cuts.Late.length_le hlate hcut

/-- A batch of three rows and two of two, in groups of four. -/
theorem row_groups_of_four :
    Cuts.IsCut RecordBatch.numRows 4 ([⟨[], [[1], [2], [3]]⟩, ⟨[], [[4], [5]]⟩, ⟨[], [[6], [7]]⟩].flatMap
        fun batch => sliceBatches batch 4)
        (splitRowGroups ([⟨[], [[1], [2], [3]]⟩, ⟨[], [[4], [5]]⟩, ⟨[], [[6], [7]]⟩] : List (RecordBatch Unit Nat)) 4) ∧
      (splitRowGroups ([⟨[], [[1], [2], [3]]⟩, ⟨[], [[4], [5]]⟩, ⟨[], [[6], [7]]⟩] : List (RecordBatch Unit Nat)) 4).length = 2 :=
  ⟨(row_groups_are_fewest _ (by decide)).1, by decide⟩

end Packed

section Sizes

/-- The most groups that rows are cut into when they are part of the rows the size is chosen for. -/
def maxGroups (options : TableOptions) (rows : Nat) : Nat :=
  if options.rowGroupRows = 0 then 1 else max (2 * targetRowGroups) (2 * rows / (options.rowGroupRows + 1) + 1)

end Sizes

end LocalTables
