import LocalTables.Columnar.Batch

/-! How a flush or a compaction divides its rows into segments: `split_row_groups` keeps the order the
rows came in, `zorder::cluster` sorts them by an interleaved key. Either way the rows that go in come
out, as long as there are fewer than `2 ^ 32` of them to cluster. -/

namespace LocalTables

variable {τ ν : Type}

section Split

/-- The groups closed so far, the open one, and how many rows it holds. -/
structure Grouping (τ ν : Type) where
  groups : List (List (RecordBatch τ ν))
  current : List (RecordBatch τ ν)
  rows : Nat

namespace Grouping

def empty : Grouping τ ν := ⟨[], [], 0⟩

/-- Close the open group. -/
def close (g : Grouping τ ν) : Grouping τ ν := ⟨g.groups ++ [g.current], [], 0⟩

/-- Slice whole groups off a batch that is larger than the limit, at most one for each of its rows. -/
def sliceLarge (maxRows : Nat) : Nat → RecordBatch τ ν → List (RecordBatch τ ν) × RecordBatch τ ν
  | 0, batch => ([], batch)
  | fuel + 1, batch =>
      if batch.numRows > maxRows then
        let (heads, rest) := sliceLarge maxRows fuel (batch.slice maxRows (batch.numRows - maxRows))
        (batch.slice 0 maxRows :: heads, rest)
      else ([], batch)

/-- Take in one batch. -/
def add (maxRows : Nat) (g : Grouping τ ν) (batch : RecordBatch τ ν) : Grouping τ ν :=
  -- close the open group rather than overfill it, so whole batches stay whole
  let g := if g.rows > 0 ∧ batch.numRows > maxRows - g.rows then g.close else g
  let (heads, batch) := sliceLarge maxRows batch.numRows batch
  let g := { g with groups := g.groups ++ heads.map fun head => [head] }
  if batch.numRows = 0 then g
  else
    let g := { g with rows := g.rows + batch.numRows, current := g.current ++ [batch] }
    if g.rows ≥ maxRows then g.close else g

/-- Everything taken in so far, in order. -/
def all (g : Grouping τ ν) : List (Row ν) := rowsOf g.groups.flatten ++ rowsOf g.current

theorem all_close (g : Grouping τ ν) : g.close.all = g.all := by
  simp [close, all]

theorem rows_sliceLarge (maxRows fuel : Nat) (batch : RecordBatch τ ν) :
    rowsOf (sliceLarge maxRows fuel batch).1 ++ (sliceLarge maxRows fuel batch).2.rows = batch.rows := by
  induction fuel generalizing batch with
  | zero => rfl
  | succ fuel ih =>
      rw [sliceLarge]
      split
      · have := ih (batch.slice maxRows (batch.numRows - maxRows))
        dsimp only
        rw [rowsOf_cons, List.append_assoc, this]
        have htail : (batch.rows.drop maxRows).take (batch.rows.length - maxRows) = batch.rows.drop maxRows :=
          List.take_of_length_le (by rw [List.length_drop])
        simp only [RecordBatch.slice, RecordBatch.numRows, List.drop_zero, htail, List.take_append_drop]
      · simp

theorem flatten_singletons {α : Type} (xs : List α) : (xs.map fun x => [x]).flatten = xs := by
  induction xs with
  | nil => rfl
  | cons x xs ih => simpa using ih

/-- Taking in a batch appends its rows, provided the open group is empty while whole groups are sliced
off: they are put in front of it. -/
theorem all_add (maxRows : Nat) {g : Grouping τ ν} (hopen : g.rows = totalRows g.current)
    (hroom : ∀ b ∈ g.current, 0 < b.numRows) (batch : RecordBatch τ ν) :
    (g.add maxRows batch).all = g.all ++ batch.rows ∧
      (g.add maxRows batch).rows = totalRows (g.add maxRows batch).current ∧
      ∀ b ∈ (g.add maxRows batch).current, 0 < b.numRows := by
  have hslices := rows_sliceLarge maxRows batch.numRows batch
  rcases hcut : sliceLarge maxRows batch.numRows batch with ⟨heads, rest⟩
  rw [hcut] at hslices
  dsimp only at hslices
  -- slices are taken off only while nothing is open
  have hfront : ∀ g' : Grouping τ ν, g'.all = g.all → g'.current = [] ∨ heads = [] →
      ({ g' with groups := g'.groups ++ heads.map fun head => [head] } : Grouping τ ν).all =
        g.all ++ rowsOf heads := by
    intro g' hall hfree
    rw [← hall]
    rcases hfree with hnone | hnone
    · simp only [all, hnone, List.flatten_append, flatten_singletons, rowsOf_append, rowsOf_nil, List.append_nil]
    · simp [all, hnone]
  have hheads : batch.numRows ≤ maxRows → heads = [] := by
    intro hle
    have hnone : sliceLarge maxRows batch.numRows batch = ([], batch) := by
      cases hn : batch.numRows with
      | zero => rfl
      | succ n => rw [sliceLarge, if_neg (by omega)]
    exact (congrArg Prod.fst (hcut.symm.trans hnone) : _)
  rw [add, hcut]
  dsimp only
  generalize hg' : (if g.rows > 0 ∧ batch.numRows > maxRows - g.rows then g.close else g) = g'
  have hall' : g'.all = g.all := by
    rw [← hg']
    split
    · exact all_close g
    · rfl
  have hopen' : g'.rows = totalRows g'.current ∧ ∀ b ∈ g'.current, 0 < b.numRows := by
    rw [← hg']
    split
    · exact ⟨rfl, by simp [close]⟩
    · exact ⟨hopen, hroom⟩
  have hfree : g'.current = [] ∨ heads = [] := by
    rw [← hg']
    split
    · exact .inl rfl
    · next hfits =>
        rcases Nat.eq_zero_or_pos g.rows with hzero | hpos
        · refine .inl (List.eq_nil_iff_forall_not_mem.mpr fun b hb => ?_)
          rw [hopen, ← length_rowsOf] at hzero
          have hnone := List.flatMap_eq_nil_iff.mp (List.length_eq_zero_iff.mp hzero) b hb
          have hsome := hroom b hb
          rw [RecordBatch.numRows, hnone] at hsome
          exact absurd hsome (lt_irrefl _)
        · exact .inr (hheads (by omega))
  have hsliced := hfront g' hall' hfree
  split
  · next hnone =>
      have hrest : rest.rows = [] := List.length_eq_zero_iff.mp hnone
      rw [hrest, List.append_nil] at hslices
      exact ⟨by rw [hsliced, hslices], hopen'⟩
  · next hsome =>
      have hrows : ({ g' with
          groups := g'.groups ++ heads.map fun head => [head]
          rows := g'.rows + rest.numRows
          current := g'.current ++ [rest] } : Grouping τ ν).all = g.all ++ batch.rows := by
        rw [← hslices, ← List.append_assoc, ← hsliced]
        simp only [all, rowsOf_append, rowsOf_cons, rowsOf_nil, List.append_nil, List.append_assoc]
      split
      · exact ⟨(all_close _).trans hrows, rfl, by simp [close]⟩
      · refine ⟨hrows, ?_, fun b hb => ?_⟩
        · dsimp only
          rw [hopen'.1]
          simp only [totalRows, List.map_append, List.sum_append, List.map_cons, List.map_nil, List.sum_cons,
            List.sum_nil, Nat.add_zero]
        · rcases List.mem_append.mp hb with hb | hb
          · exact hopen'.2 b hb
          · rw [List.mem_singleton.mp hb]
            exact Nat.pos_of_ne_zero hsome

end Grouping

/-- Group batches into row groups of at most `maxRows` rows each. A limit of zero means one group. -/
def splitRowGroups (batches : List (RecordBatch τ ν)) (maxRows : Nat) : List (List (RecordBatch τ ν)) :=
  if maxRows = 0 then (if batches.isEmpty then [] else [batches])
  else
    let g := batches.foldl (Grouping.add maxRows) Grouping.empty
    if g.current.isEmpty then g.groups else g.groups ++ [g.current]

theorem rowsOf_splitRowGroups (batches : List (RecordBatch τ ν)) (maxRows : Nat) :
    rowsOf (splitRowGroups batches maxRows).flatten = rowsOf batches := by
  have hfold : ∀ (batches : List (RecordBatch τ ν)) (g : Grouping τ ν), g.rows = totalRows g.current →
      (∀ b ∈ g.current, 0 < b.numRows) →
      (batches.foldl (Grouping.add maxRows) g).all = g.all ++ rowsOf batches := by
    intro batches
    induction batches with
    | nil => simp
    | cons batch batches ih =>
        intro g hopen hroom
        obtain ⟨hall, hopen', hroom'⟩ := Grouping.all_add maxRows hopen hroom batch
        rw [List.foldl_cons, ih _ hopen' hroom', hall, rowsOf_cons, List.append_assoc]
  unfold splitRowGroups
  split
  · cases batches <;> simp
  · have := hfold batches Grouping.empty rfl (by simp [Grouping.empty])
    dsimp only
    generalize batches.foldl (Grouping.add maxRows) Grouping.empty = g at this ⊢
    have hempty : (Grouping.empty : Grouping τ ν).all = [] := rfl
    rw [hempty, List.nil_append] at this
    rw [← this, Grouping.all]
    split
    · next hnone => simp [List.isEmpty_iff.mp hnone]
    · simp

/-- A batch that is too large is its first piece, and the pieces of the rest. -/
theorem sliceBatches_cons {maxRows : Nat} (hmax : 0 < maxRows) {batch : RecordBatch τ ν} (hlarge : maxRows < batch.numRows) :
    sliceBatches batch maxRows =
      batch.slice 0 maxRows :: sliceBatches (batch.slice maxRows (batch.numRows - maxRows)) maxRows := by
  have hrest : (batch.slice maxRows (batch.numRows - maxRows)).numRows = batch.numRows - maxRows := by
    rw [RecordBatch.slice, RecordBatch.numRows, RecordBatch.numRows, List.length_take, List.length_drop, Nat.min_self]
  have hslice : ∀ index, (batch.slice maxRows (batch.numRows - maxRows)).slice (index * maxRows) maxRows =
      batch.slice ((index + 1) * maxRows) maxRows := by
    intro index
    have hall : (batch.rows.drop maxRows).take (batch.rows.length - maxRows) = batch.rows.drop maxRows :=
      List.take_of_length_le (by rw [List.length_drop])
    rw [RecordBatch.slice, RecordBatch.slice, RecordBatch.slice, RecordBatch.numRows]
    dsimp only
    rw [hall, List.drop_drop, Nat.succ_mul, Nat.add_comm]
  have hcount : (batch.numRows + maxRows - 1) / maxRows = (batch.numRows - maxRows + maxRows - 1) / maxRows + 1 := by
    rw [← Nat.add_div_right _ hmax]
    congr 1
    omega
  rw [sliceBatches, if_neg (by omega), if_neg (by omega), hcount, List.range_succ_eq_map, List.map_cons, List.map_map,
    Nat.zero_mul, sliceBatches, hrest, if_neg (by omega)]
  congr 1
  split
  · next hle =>
      have hone : (batch.numRows - maxRows + maxRows - 1) / maxRows = 1 := by
        refine Nat.div_eq_of_lt_le (by omega) ?_
        omega
      rw [hone]
      have hlast := hslice 0
      rw [Nat.zero_mul, RecordBatch.slice, List.drop_zero, List.take_of_length_le (by rw [← RecordBatch.numRows, hrest]; omega)]
        at hlast
      simp only [List.range_one, List.map_singleton, Function.comp_apply]
      rw [Nat.succ_eq_add_one, ← hlast]
  · refine List.map_congr_left fun index _ => ?_
    rw [Function.comp_apply, hslice]

/-- Slicing whole groups off a batch, and then taking what is left, cuts it into pieces of the limit. -/
theorem sliceLarge_spec {maxRows : Nat} (hmax : 0 < maxRows) (fuel : Nat) : ∀ {batch : RecordBatch τ ν}, batch.numRows ≤ fuel →
    (∀ head ∈ (Grouping.sliceLarge maxRows fuel batch).1, head.numRows = maxRows) ∧
      (Grouping.sliceLarge maxRows fuel batch).2.numRows ≤ maxRows ∧
      (maxRows < batch.numRows → 0 < (Grouping.sliceLarge maxRows fuel batch).2.numRows) ∧
      sliceBatches batch maxRows = (Grouping.sliceLarge maxRows fuel batch).1 ++
        if (Grouping.sliceLarge maxRows fuel batch).2.numRows = 0 then [] else [(Grouping.sliceLarge maxRows fuel batch).2] := by
  have hsmall : ∀ {batch : RecordBatch τ ν}, batch.numRows ≤ maxRows →
      sliceBatches batch maxRows = if batch.numRows = 0 then [] else [batch] := by
    intro batch hle
    rw [sliceBatches]
    split
    · rfl
    · rw [if_pos (.inr hle)]
  induction fuel with
  | zero =>
      intro batch hfuel
      rw [Grouping.sliceLarge]
      exact ⟨fun _ h => (nomatch h), by dsimp only; omega, fun h => by omega, by rw [hsmall (by omega), List.nil_append]⟩
  | succ fuel ih =>
      intro batch hfuel
      rw [Grouping.sliceLarge]
      split
      · next hlarge =>
          have hrest : (batch.slice maxRows (batch.numRows - maxRows)).numRows = batch.numRows - maxRows := by
            rw [RecordBatch.slice, RecordBatch.numRows, RecordBatch.numRows, List.length_take, List.length_drop, Nat.min_self]
          obtain ⟨hheads, hle, hpos, hpieces⟩ := ih (hrest.trans_le (by omega))
          have hfirst : (batch.slice 0 maxRows).numRows = maxRows := by
            rw [RecordBatch.slice, RecordBatch.numRows, List.length_take, List.length_drop, ← RecordBatch.numRows]
            omega
          dsimp only
          refine ⟨fun head hhead => ?_, hle, fun _ => ?_, ?_⟩
          · rcases List.mem_cons.mp hhead with rfl | hhead
            · exact hfirst
            · exact hheads head hhead
          · by_cases hmore : maxRows < batch.numRows - maxRows
            · exact hpos (by omega)
            · cases fuel with
              | zero => omega
              | succ fuel =>
                  rw [Grouping.sliceLarge, if_neg (by omega)]
                  dsimp only
                  omega
          · rw [List.cons_append, ← hpieces, sliceBatches_cons hmax hlarge]
      · next hfits =>
          exact ⟨fun _ h => (nomatch h), by dsimp only; omega, fun h => absurd h hfits, by
            rw [hsmall (by omega), List.nil_append]⟩

/-- Batches that make a group: some rows, no more than the limit, and none of the batches empty. -/
structure IsGroup (maxRows : Nat) (group : List (RecordBatch τ ν)) : Prop where
  rows_pos : 0 < totalRows group
  rows_le : totalRows group ≤ maxRows
  batch_pos : ∀ batch ∈ group, 0 < batch.numRows

/-- The groups closed so far are groups, and the open one has room. -/
structure Grouping.Fits (maxRows : Nat) (g : Grouping τ ν) : Prop where
  rows : g.rows = totalRows g.current
  room : g.rows < maxRows
  batch_pos : ∀ batch ∈ g.current, 0 < batch.numRows
  groups : ∀ group ∈ g.groups, IsGroup maxRows group

section Fits

variable {maxRows : Nat} {g : Grouping τ ν}

theorem totalRows_append (front back : List (RecordBatch τ ν)) :
    totalRows (front ++ back) = totalRows front + totalRows back := by
  rw [totalRows, List.map_append, List.sum_append]
  rfl

theorem totalRows_pos {batches : List (RecordBatch τ ν)} (hne : batches ≠ []) (h : ∀ batch ∈ batches, 0 < batch.numRows) :
    0 < totalRows batches := by
  cases batches with
  | nil => exact absurd rfl hne
  | cons batch batches =>
      have := h batch List.mem_cons_self
      rw [totalRows, List.map_cons, List.sum_cons]
      omega

theorem totalRows_singleton (batch : RecordBatch τ ν) : totalRows [batch] = batch.numRows := by
  rw [totalRows, List.map_singleton, List.sum_singleton]

/-- Closing a group that is full enough leaves room. -/
theorem Grouping.Fits.close (hmax : 0 < maxRows) (hgroups : ∀ group ∈ g.groups, IsGroup maxRows group)
    (hcurrent : IsGroup maxRows g.current) : g.close.Fits maxRows := by
  refine ⟨rfl, hmax, fun _ h => (nomatch h), fun group hgroup => ?_⟩
  rcases List.mem_append.mp hgroup with hgroup | hgroup
  · exact hgroups group hgroup
  · exact List.mem_singleton.mp hgroup ▸ hcurrent

/-- Taking in a batch keeps the groups, and appends its pieces. -/
theorem Grouping.Fits.add (hmax : 0 < maxRows) (h : g.Fits maxRows) (batch : RecordBatch τ ν) :
    (g.add maxRows batch).Fits maxRows ∧
      (g.add maxRows batch).groups.flatten ++ (g.add maxRows batch).current =
        g.groups.flatten ++ g.current ++ sliceBatches batch maxRows := by
  obtain ⟨hheads, hle, hpos, hpieces⟩ := sliceLarge_spec hmax batch.numRows le_rfl
  have hfits : batch.numRows ≤ maxRows → sliceLarge maxRows batch.numRows batch = ([], batch) := by
    intro hle
    cases hn : batch.numRows with
    | zero => rfl
    | succ n => rw [sliceLarge, if_neg (by omega)]
  rw [Grouping.add]
  rw [hpieces]
  generalize hcut : sliceLarge maxRows batch.numRows batch = cut at *
  obtain ⟨heads, rest⟩ := cut
  dsimp only at hheads hle hpos ⊢
  generalize hg' : (if g.rows > 0 ∧ batch.numRows > maxRows - g.rows then g.close else g) = g'
  -- the group that is open now has room for what is left, or there is none
  have hopen : g'.Fits maxRows ∧ g'.groups.flatten ++ g'.current = g.groups.flatten ++ g.current ∧
      (g'.current = [] ∨ heads = [] ∧ g'.rows + rest.numRows ≤ maxRows) := by
    rw [← hg']
    split
    · next hclose =>
        have hcurrent : IsGroup maxRows g.current :=
          ⟨h.rows ▸ hclose.1, h.rows ▸ h.room.le, h.batch_pos⟩
        exact ⟨.close hmax h.groups hcurrent, by simp [Grouping.close], .inl rfl⟩
    · next hkeep =>
        refine ⟨h, rfl, ?_⟩
        by_cases hzero : g.rows = 0
        · refine .inl (Classical.byContradiction fun hne => ?_)
          have := totalRows_pos hne h.batch_pos
          have := h.rows
          omega
        · have hroom := h.room
          have hsame := hfits (by omega)
          obtain ⟨rfl, rfl⟩ := Prod.mk.inj hsame
          exact .inr ⟨rfl, by omega⟩
  obtain ⟨hfit, hsame, hfree⟩ := hopen
  have hgroups : ∀ group ∈ g'.groups ++ heads.map (fun head => [head]), IsGroup maxRows group := by
    intro group hgroup
    rcases List.mem_append.mp hgroup with hgroup | hgroup
    · exact hfit.groups group hgroup
    · obtain ⟨head, hhead, rfl⟩ := List.mem_map.mp hgroup
      have hrows := hheads head hhead
      rw [← totalRows_singleton] at hrows
      refine ⟨hrows ▸ hmax, hrows.le, fun b hb => ?_⟩
      rw [List.mem_singleton.mp hb, ← totalRows_singleton, hrows]
      exact hmax
  have hrows : g'.rows + rest.numRows ≤ maxRows := by
    rcases hfree with hnone | hnone
    · have := hfit.rows
      rw [hnone] at this
      rw [this, show totalRows ([] : List (RecordBatch τ ν)) = 0 from rfl, Nat.zero_add]
      exact hle
    · exact hnone.2
  have hflat : (g'.groups ++ heads.map fun head => [head]).flatten ++ g'.current =
      g.groups.flatten ++ g.current ++ heads := by
    rw [List.flatten_append, Grouping.flatten_singletons, ← hsame]
    rcases hfree with hnone | hnone
    · rw [hnone, List.append_nil, List.append_nil]
    · rw [hnone.1, List.append_nil, List.append_nil]
  split
  · next hnone =>
      refine ⟨⟨hfit.rows, hfit.room, hfit.batch_pos, hgroups⟩, ?_⟩
      rw [List.append_nil]
      exact hflat
  · next hsome =>
      have hcurrent : ∀ b ∈ g'.current ++ [rest], 0 < b.numRows := by
        intro b hb
        rcases List.mem_append.mp hb with hb | hb
        · exact hfit.batch_pos b hb
        · rw [List.mem_singleton.mp hb]
          exact Nat.pos_of_ne_zero hsome
      have htotal : g'.rows + rest.numRows = totalRows (g'.current ++ [rest]) := by
        rw [totalRows_append, totalRows_singleton, hfit.rows]
      have hwhole : (g'.groups ++ heads.map fun head => [head]).flatten ++ (g'.current ++ [rest]) =
          g.groups.flatten ++ g.current ++ (heads ++ [rest]) := by
        rw [← List.append_assoc, hflat, List.append_assoc]
      split
      · refine ⟨.close hmax hgroups ⟨?_, htotal ▸ hrows, hcurrent⟩, ?_⟩
        · exact totalRows_pos (List.append_ne_nil_of_right_ne_nil _ (List.cons_ne_nil _ _)) hcurrent
        · rw [← hwhole]
          simp [Grouping.close]
      · next hroom => exact ⟨⟨htotal, Nat.not_le.mp hroom, hcurrent, hgroups⟩, hwhole⟩

/-- What the groups are while batches are taken in. -/
theorem Grouping.fits_foldl (hmax : 0 < maxRows) (batches : List (RecordBatch τ ν)) : ∀ {g : Grouping τ ν}, g.Fits maxRows →
    (batches.foldl (Grouping.add maxRows) g).Fits maxRows ∧
      (batches.foldl (Grouping.add maxRows) g).groups.flatten ++ (batches.foldl (Grouping.add maxRows) g).current =
        g.groups.flatten ++ g.current ++ batches.flatMap fun batch => sliceBatches batch maxRows := by
  induction batches with
  | nil =>
      intro g h
      exact ⟨h, by simp⟩
  | cons batch batches ih =>
      intro g h
      obtain ⟨hadd, hflat⟩ := h.add hmax batch
      obtain ⟨hfold, hrest⟩ := ih hadd
      refine ⟨hfold, ?_⟩
      rw [List.foldl_cons, hrest, hflat, List.flatMap_cons, List.append_assoc]

end Fits

/-- Row groups hold the rows of the batches in their order, in groups of one row to the limit. A batch that fits is in them as
it is, a larger one in slices; the room that is left in the open group is never negative. With a limit of zero the input is
the one group, if there is anything in it. -/
theorem row_groups_keep_rows (batches : List (RecordBatch τ ν)) (maxRows : Nat) :
    (0 < maxRows →
      (splitRowGroups batches maxRows).flatten = batches.flatMap (fun batch => sliceBatches batch maxRows) ∧
      rowsOf (splitRowGroups batches maxRows).flatten = rowsOf batches ∧
      (∀ group ∈ splitRowGroups batches maxRows, group ≠ [] ∧ IsGroup maxRows group) ∧
      (∀ batch : RecordBatch τ ν, 0 < batch.numRows → batch.numRows ≤ maxRows → sliceBatches batch maxRows = [batch]) ∧
      ∀ done rest, batches = done ++ rest → (done.foldl (Grouping.add maxRows) Grouping.empty).rows < maxRows) ∧
    splitRowGroups batches 0 = if batches = [] then [] else [batches] := by
  refine ⟨fun hmax => ?_, ?_⟩
  · have hempty : (Grouping.empty : Grouping τ ν).Fits maxRows := ⟨rfl, hmax, fun _ h => (nomatch h), fun _ h => (nomatch h)⟩
    obtain ⟨hfits, hflat⟩ := Grouping.fits_foldl hmax batches hempty
    have hgroups : (splitRowGroups batches maxRows).flatten =
          (batches.foldl (Grouping.add maxRows) Grouping.empty).groups.flatten ++
            (batches.foldl (Grouping.add maxRows) Grouping.empty).current ∧
        ∀ group ∈ splitRowGroups batches maxRows, IsGroup maxRows group := by
      unfold splitRowGroups
      rw [if_neg hmax.ne']
      dsimp only
      generalize batches.foldl (Grouping.add maxRows) Grouping.empty = g at hfits ⊢
      split
      · next hnone =>
          rw [List.isEmpty_iff.mp hnone, List.append_nil]
          exact ⟨rfl, hfits.groups⟩
      · next hsome =>
          refine ⟨by simp, fun group hgroup => ?_⟩
          rcases List.mem_append.mp hgroup with hgroup | hgroup
          · exact hfits.groups group hgroup
          · rw [List.mem_singleton.mp hgroup]
            have hne : g.current ≠ [] := fun hnone => hsome (List.isEmpty_iff.mpr hnone)
            exact ⟨totalRows_pos hne hfits.batch_pos, hfits.rows ▸ hfits.room.le, hfits.batch_pos⟩
    refine ⟨hgroups.1.trans hflat, rowsOf_splitRowGroups batches maxRows, fun group hgroup => ?_, fun batch hpos hle => ?_, ?_⟩
    · refine ⟨?_, hgroups.2 group hgroup⟩
      rintro rfl
      exact absurd (hgroups.2 [] hgroup).rows_pos (lt_irrefl 0)
    · rw [sliceBatches, if_neg hpos.ne', if_pos (.inr hle)]
    · rintro done rest rfl
      exact (Grouping.fits_foldl hmax done hempty).1.room
  · unfold splitRowGroups
    rw [if_pos rfl]
    cases batches with
    | nil => rfl
    | cons batch batches => rfl

/-- A batch of one row and one of three, in groups of two. -/
theorem row_groups_of_two :
    (splitRowGroups [⟨[], [[1]]⟩, ⟨[], [[2], [3], [4]]⟩] 2 : List (List (RecordBatch Unit Nat))).flatten =
      [⟨[], [[1]]⟩, ⟨[], [[2], [3], [4]]⟩].flatMap (fun batch => sliceBatches batch 2) :=
  ((row_groups_keep_rows _ 2).1 (by decide)).1

/-- No batches make no group, also without a limit. -/
theorem no_batches_no_group : splitRowGroups ([] : List (RecordBatch Unit Nat)) 0 ≠ [[]] := by
  decide

end Split

section Cluster

variable (env : Env τ ν)

/-- Bytes each column contributes to a key. -/
def dimBytes : Nat := 8

/-- The fixed-width form of one value. Zero for a null, so nulls cluster at one end. -/
def dimensionBytes (dataType : τ) (value : ν) : Except Error Bytes := do
  if env.isNull value then
    return List.replicate dimBytes 0
  else
    let encoded ← env.encodeValue dataType value
    -- the first byte only keeps nulls ordered first
    let value := (encoded.drop 1).take dimBytes
    return value ++ List.replicate (dimBytes - value.length) 0

/-- Interleave one row's dimensions into its key, the most significant bit of every column first. -/
def interleaveInto (dimensions : List Bytes) : Bytes :=
  dimensions.zipIdx.foldl (fun key (bytes, dimension) =>
    (List.range (dimBytes * 8)).foldl (fun key bit =>
      if bytes.getD (bit / 8) 0 &&& (0x80 >>> UInt8.ofNat (bit % 8)) = 0 then key
      else
        let place := bit * dimensions.length + dimension
        key.modify (place / 8) fun byte => byte ||| (0x80 >>> UInt8.ofNat (place % 8))) key)
    (List.replicate (dimBytes * dimensions.length) 0)

/-- The key of one row. -/
def zorderKey (schema : Schema τ) (columns : List Nat) (row : Row ν) : Except Error Bytes := do
  let dimensions ← columns.mapM fun column =>
    match schema.fields[column]? with
    | some field => dimensionBytes env field.dataType (row.getD column env.null)
    | none => throw (.invalidArgument s!"column {column} is out of range")
  return interleaveInto dimensions

/-- Cut a list into chunks of `size` elements, at most one for each element. -/
def chunks {α : Type} (size : Nat) (xs : List α) : List (List α) :=
  (List.range ((xs.length + size - 1) / size)).map fun index => (xs.drop (index * size)).take size

/-- Order rows by their z-order key and cut them into row groups. The order is a list of `u32`. -/
def cluster (batches : List (RecordBatch τ ν)) (schema : Schema τ) (columns : List Nat) (groupRows : Nat) :
    Except Error (List (List (RecordBatch τ ν))) := do
  let total := totalRows batches
  if columns.isEmpty ∨ total = 0 then
    return []
  else
    let rows := rowsOf batches
    let keys ← rows.mapM (zorderKey env schema columns)
    let order := env.sortUnstable (fun row => keys.getD row []) (List.range (total % 2 ^ 32))
    let perGroup := if groupRows = 0 then total else groupRows
    return (chunks perGroup order).map fun chunk =>
      [⟨schema.fields, chunk.map fun row => rows.getD row []⟩]

/-- Check that a table can cluster by these columns, before it accepts writes. -/
def resolve (schema : Schema τ) (names : List String) : Except Error (List Nat) :=
  names.foldlM (fun indices name =>
    match schema.indexOf name with
    | none => throw (.invalidArgument s!"cannot cluster by {name}: the table has no such column")
    | some index =>
        match schema.fields[index]? with
        | none => throw (.invalidArgument s!"cannot cluster by {name}: the table has no such column")
        | some field =>
            if ¬env.isEncodable field.dataType then
              throw (.invalidArgument s!"cannot cluster by {name}: its type has no byte form that orders")
            else if index ∈ indices then
              throw (.invalidArgument s!"cannot cluster by {name} twice")
            else
              return indices ++ [index]) []

theorem flatten_chunks {α : Type} (xs : List α) {size : Nat} (hsize : 0 < size) : (chunks size xs).flatten = xs := by
  refine flatten_pieces xs _ ?_
  have := Nat.div_add_mod (xs.length + size - 1) size
  have := Nat.mod_lt (xs.length + size - 1) hsize
  rw [Nat.mul_comm]
  omega

theorem map_getD_range {α : Type} (xs : List α) (default : α) :
    ((List.range xs.length).map fun index => xs.getD index default) = xs := by
  refine List.ext_getElem (by simp) fun index hleft hright => ?_
  simp only [List.getElem_map, List.getElem_range, List.getD_eq_getElem?_getD]
  rw [List.getElem?_eq_getElem hright, Option.getD_some]

/-- Cutting an order into groups of one batch each keeps the order. -/
theorem rowsOf_chunks (fields : List (Field τ)) (row : Nat → Row ν) (order : List Nat) {size : Nat} (hsize : 0 < size) :
    rowsOf ((chunks size order).map fun chunk => [(⟨fields, chunk.map row⟩ : RecordBatch τ ν)]).flatten = order.map row := by
  have hgroup : (rowsOf ∘ fun chunk : List Nat => [(⟨fields, chunk.map row⟩ : RecordBatch τ ν)]) = List.map row := by
    funext chunk
    simp
  rw [rowsOf_flatten, List.map_map, hgroup, ← List.map_flatten, flatten_chunks _ hsize]

/-- The rows a clustering puts out: those at the positions it sorted. -/
theorem cluster_ok {batches : List (RecordBatch τ ν)} {schema : Schema τ} {columns : List Nat} {groupRows : Nat}
    {groups : List (List (RecordBatch τ ν))} (h : cluster env batches schema columns groupRows = .ok groups) :
    (columns = [] ∨ totalRows batches = 0) ∧ groups = [] ∨ ∃ key, rowsOf groups.flatten =
      (env.sortUnstable key (List.range (totalRows batches % 2 ^ 32))).map fun row => (rowsOf batches).getD row [] := by
  unfold cluster at h
  dsimp only at h
  by_cases hsome : columns.isEmpty = true ∨ totalRows batches = 0
  · rw [if_pos hsome] at h
    rw [List.isEmpty_iff] at hsome
    exact .inl ⟨hsome, (Except.ok.inj h).symm⟩
  · rw [if_neg hsome] at h
    obtain ⟨keys, -, h⟩ := bind_eq_ok.mp h
    obtain rfl := Except.ok.inj h
    rw [not_or] at hsome
    refine .inr ⟨fun row => keys.getD row [], ?_⟩
    have hpos : 0 < if groupRows = 0 then totalRows batches else groupRows := by
      split <;> omega
    exact rowsOf_chunks _ _ _ hpos

theorem rowsOf_cluster {batches : List (RecordBatch τ ν)} {schema : Schema τ} {columns : List Nat}
    {groupRows : Nat} {groups : List (List (RecordBatch τ ν))} (hcolumns : columns ≠ [])
    (hfew : totalRows batches < 2 ^ 32) (h : cluster env batches schema columns groupRows = .ok groups) :
    (rowsOf groups.flatten).Perm (rowsOf batches) := by
  rcases cluster_ok env h with ⟨hnone, rfl⟩ | ⟨key, hrows⟩
  · have : (rowsOf batches).length = 0 := by rw [length_rowsOf]; tauto
    rw [List.length_eq_zero_iff.mp this]
    exact .refl _
  · have hperm := (env.sortUnstable_perm key (List.range (totalRows batches % 2 ^ 32))).map
      fun row => (rowsOf batches).getD row []
    rw [hrows]
    rw [Nat.mod_eq_of_lt hfew, ← length_rowsOf] at hperm ⊢
    rw [map_getD_range] at hperm
    exact hperm

theorem length_cluster_le {batches : List (RecordBatch τ ν)} {schema : Schema τ} {columns : List Nat}
    {groupRows : Nat} {groups : List (List (RecordBatch τ ν))}
    (h : cluster env batches schema columns groupRows = .ok groups) :
    (rowsOf groups.flatten).length ≤ (rowsOf batches).length := by
  rcases cluster_ok env h with ⟨-, rfl⟩ | ⟨key, hrows⟩
  · exact Nat.zero_le _
  · rw [hrows, List.length_map, (env.sortUnstable_perm key _).length_eq, List.length_range, length_rowsOf]
    exact Nat.mod_le _ _

end Cluster

/-- Cut batches into the row groups a flush or a compaction will write. -/
def rowGroups (env : Env τ ν) (batches : List (RecordBatch τ ν)) (groupRows : Nat) (schema : Schema τ)
    (clusterColumns : List Nat) : Except Error (List (List (RecordBatch τ ν))) :=
  if clusterColumns.isEmpty then return splitRowGroups batches groupRows
  else cluster env batches schema clusterColumns groupRows

/-- The order of a clustering is counted in `u32`. -/
def FitsCluster (clusterColumns : List Nat) (batches : List (RecordBatch τ ν)) : Prop :=
  clusterColumns = [] ∨ totalRows batches < 2 ^ 32

theorem Grouping.fields_add {fields : List (Field τ)} (maxRows : Nat) {g : Grouping τ ν} {batch : RecordBatch τ ν}
    (hgroups : ∀ group ∈ g.groups, ∀ b ∈ group, b.fields = fields) (hcurrent : ∀ b ∈ g.current, b.fields = fields)
    (hbatch : batch.fields = fields) :
    (∀ group ∈ (g.add maxRows batch).groups, ∀ b ∈ group, b.fields = fields) ∧
      ∀ b ∈ (g.add maxRows batch).current, b.fields = fields := by
  have hslices : ∀ (fuel : Nat) (batch : RecordBatch τ ν), batch.fields = fields →
      (∀ b ∈ (sliceLarge maxRows fuel batch).1, b.fields = fields) ∧ (sliceLarge maxRows fuel batch).2.fields = fields := by
    intro fuel
    induction fuel with
    | zero => exact fun batch hb => ⟨by simp [sliceLarge], hb⟩
    | succ fuel ih =>
        intro batch hb
        unfold sliceLarge
        split
        · obtain ⟨hheads, hrest⟩ := ih (batch.slice maxRows (batch.numRows - maxRows)) hb
          refine ⟨fun b hmem => ?_, hrest⟩
          rcases List.mem_cons.mp hmem with rfl | hmem
          · exact hb
          · exact hheads b hmem
        · exact ⟨by simp, hb⟩
  have hclose : ∀ {g : Grouping τ ν}, (∀ group ∈ g.groups, ∀ b ∈ group, b.fields = fields) →
      (∀ b ∈ g.current, b.fields = fields) →
      (∀ group ∈ g.close.groups, ∀ b ∈ group, b.fields = fields) ∧ ∀ b ∈ g.close.current, b.fields = fields := by
    intro g hgroups hcurrent
    refine ⟨fun group hgroup b hb => ?_, by simp [close]⟩
    rcases List.mem_append.mp hgroup with hgroup | hgroup
    · exact hgroups group hgroup b hb
    · exact hcurrent b (List.mem_singleton.mp hgroup ▸ hb)
  obtain ⟨hheads, hrest⟩ := hslices batch.numRows batch hbatch
  -- the open group may be closed before the batch is taken in
  have hopened : ∀ {g : Grouping τ ν}, (∀ group ∈ g.groups, ∀ b ∈ group, b.fields = fields) →
      (∀ b ∈ g.current, b.fields = fields) → ∀ group ∈ g.groups ++ (sliceLarge maxRows batch.numRows batch).1.map
        (fun head => [head]), ∀ b ∈ group, b.fields = fields := by
    intro g hgroups _ group hgroup b hb
    rcases List.mem_append.mp hgroup with hgroup | hgroup
    · exact hgroups group hgroup b hb
    · obtain ⟨head, hhead, rfl⟩ := List.mem_map.mp hgroup
      exact List.mem_singleton.mp hb ▸ hheads head hhead
  have hfinish : ∀ {g : Grouping τ ν}, (∀ group ∈ g.groups, ∀ b ∈ group, b.fields = fields) →
      (∀ b ∈ g.current, b.fields = fields) → ∀ b ∈ g.current ++ [(sliceLarge maxRows batch.numRows batch).2],
        b.fields = fields := by
    intro g _ hcurrent b hb
    rcases List.mem_append.mp hb with hb | hb
    · exact hcurrent b hb
    · exact List.mem_singleton.mp hb ▸ hrest
  unfold Grouping.add
  dsimp only
  obtain ⟨hgroups', hcurrent'⟩ : (∀ group ∈ (if g.rows > 0 ∧ batch.numRows > maxRows - g.rows then g.close else g).groups,
      ∀ b ∈ group, b.fields = fields) ∧
      ∀ b ∈ (if g.rows > 0 ∧ batch.numRows > maxRows - g.rows then g.close else g).current, b.fields = fields := by
    split
    · exact hclose hgroups hcurrent
    · exact ⟨hgroups, hcurrent⟩
  generalize (if g.rows > 0 ∧ batch.numRows > maxRows - g.rows then g.close else g) = opened at hgroups' hcurrent' ⊢
  split
  · exact ⟨hopened hgroups' hcurrent', hcurrent'⟩
  · split
    · exact hclose (hopened hgroups' hcurrent') (hfinish hgroups' hcurrent')
    · exact ⟨hopened hgroups' hcurrent', hfinish hgroups' hcurrent'⟩

theorem fields_splitRowGroups {fields : List (Field τ)} {batches : List (RecordBatch τ ν)} {maxRows : Nat}
    (hfields : ∀ batch ∈ batches, batch.fields = fields) :
    ∀ group ∈ splitRowGroups batches maxRows, ∀ batch ∈ group, batch.fields = fields := by
  have hfold : ∀ (batches : List (RecordBatch τ ν)) (g : Grouping τ ν), (∀ batch ∈ batches, batch.fields = fields) →
      (∀ group ∈ g.groups, ∀ b ∈ group, b.fields = fields) → (∀ b ∈ g.current, b.fields = fields) →
      (∀ group ∈ (batches.foldl (Grouping.add maxRows) g).groups, ∀ b ∈ group, b.fields = fields) ∧
        ∀ b ∈ (batches.foldl (Grouping.add maxRows) g).current, b.fields = fields := by
    intro batches
    induction batches with
    | nil => exact fun g _ hgroups hcurrent => ⟨hgroups, hcurrent⟩
    | cons batch batches ih =>
        intro g hfields hgroups hcurrent
        obtain ⟨hgroups', hcurrent'⟩ := Grouping.fields_add maxRows hgroups hcurrent (hfields batch (by simp))
        exact ih _ (fun b hb => hfields b (by simp [hb])) hgroups' hcurrent'
  obtain ⟨hgroups, hcurrent⟩ := hfold batches Grouping.empty hfields (by simp [Grouping.empty]) (by simp [Grouping.empty])
  unfold splitRowGroups
  split
  · split
    · simp
    · intro group hgroup
      rw [List.mem_singleton.mp hgroup]
      exact hfields
  · dsimp only
    split
    · exact hgroups
    · intro group hgroup
      rcases List.mem_append.mp hgroup with hgroup | hgroup
      · exact hgroups group hgroup
      · rw [List.mem_singleton.mp hgroup]
        exact hcurrent

theorem fields_rowGroups {env : Env τ ν} {batches : List (RecordBatch τ ν)} {groupRows : Nat} {schema : Schema τ}
    {clusterColumns : List Nat} {groups : List (List (RecordBatch τ ν))}
    (hfields : ∀ batch ∈ batches, batch.fields = schema.fields)
    (h : rowGroups env batches groupRows schema clusterColumns = .ok groups) :
    ∀ group ∈ groups, ∀ batch ∈ group, batch.fields = schema.fields := by
  unfold rowGroups at h
  split at h
  · rw [← Except.ok.inj h]
    exact fields_splitRowGroups hfields
  · unfold cluster at h
    dsimp only at h
    split at h
    · rw [← Except.ok.inj h]
      simp
    · obtain ⟨keys, -, h⟩ := bind_eq_ok.mp h
      rw [← Except.ok.inj h]
      intro group hgroup batch hbatch
      obtain ⟨chunk, -, rfl⟩ := List.mem_map.mp hgroup
      rw [List.mem_singleton.mp hbatch]

theorem rowsOf_rowGroups {env : Env τ ν} {batches : List (RecordBatch τ ν)} {groupRows : Nat} {schema : Schema τ}
    {clusterColumns : List Nat} {groups : List (List (RecordBatch τ ν))}
    (hfits : FitsCluster clusterColumns batches)
    (h : rowGroups env batches groupRows schema clusterColumns = .ok groups) :
    (rowsOf groups.flatten).Perm (rowsOf batches) := by
  unfold rowGroups at h
  split at h
  · obtain rfl := Except.ok.inj h
    rw [rowsOf_splitRowGroups]
  · next hcolumns =>
      rw [List.isEmpty_iff] at hcolumns
      exact rowsOf_cluster env hcolumns (hfits.resolve_left hcolumns) h

theorem length_rowGroups_le {env : Env τ ν} {batches : List (RecordBatch τ ν)} {groupRows : Nat} {schema : Schema τ}
    {clusterColumns : List Nat} {groups : List (List (RecordBatch τ ν))}
    (h : rowGroups env batches groupRows schema clusterColumns = .ok groups) :
    (rowsOf groups.flatten).length ≤ (rowsOf batches).length := by
  unfold rowGroups at h
  split at h
  · obtain rfl := Except.ok.inj h
    rw [rowsOf_splitRowGroups]
  · exact length_cluster_le env h

/-- Where the order cannot be counted, rows are left out. -/
theorem fitsCluster_iff {env : Env τ ν} {batches : List (RecordBatch τ ν)} {groupRows : Nat} {schema : Schema τ}
    {clusterColumns : List Nat} {groups : List (List (RecordBatch τ ν))}
    (h : rowGroups env batches groupRows schema clusterColumns = .ok groups) :
    FitsCluster clusterColumns batches ↔ (rowsOf groups.flatten).length = (rowsOf batches).length := by
  refine ⟨fun hfits => (rowsOf_rowGroups hfits h).length_eq, fun hlength => ?_⟩
  by_cases hcolumns : clusterColumns = []
  · exact .inl hcolumns
  · right
    rw [rowGroups, if_neg (by simpa using hcolumns)] at h
    rcases cluster_ok env h with ⟨hnone, -⟩ | ⟨key, hrows⟩
    · rw [hnone.resolve_left hcolumns]
      exact Nat.two_pow_pos 32
    · rw [hrows, List.length_map, (env.sortUnstable_perm key _).length_eq, List.length_range, length_rowsOf] at hlength
      rw [← hlength]
      exact Nat.mod_lt _ (Nat.two_pow_pos 32)

end LocalTables
