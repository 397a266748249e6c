import LocalTables.Layout.Manifest

/-! The extent allocator of `table_file.rs`. An allocation takes the tightest free extent no live
reader can still hold, or grows the file; what it does not use of a free extent goes back to the
list with the same txn. The accounting is done byte by byte: an allocation moves bytes from the
free list to its result, or counts bytes past `file_len` that nobody counted before. -/

namespace LocalTables

/-- What `allocate` looks for in one free extent: the slack that taking `len` bytes from it leaves,
when no reader pinned at `minActiveTxn` or later can hold it and it has the room. -/
def FreeExtent.slack (free : FreeExtent) (len align minActiveTxn : Nat) : Option Nat :=
  if minActiveTxn ≤ free.freedTxn then none
  else
    let start := alignUp free.extent.offset align
    let waste := start - free.extent.offset
    if free.extent.len < waste + len then none else some (free.extent.len - waste - len)

/-- Best fit: the index of the free extent that leaves the least slack, the first one among equals. -/
def bestFit (frees : List FreeExtent) (len align minActiveTxn : Nat) : Option (Nat × Nat) :=
  frees.zipIdx.foldl (fun best entry =>
    match entry.1.slack len align minActiveTxn with
    | none => best
    | some slack =>
      match best with
      | none => some (entry.2, slack)
      | some (_, bestSlack) => if slack < bestSlack then some (entry.2, slack) else best) none

/-- The pieces of a free extent around the bytes taken from it, kept under the same txn. -/
def FreeExtent.rest (free : FreeExtent) (start len : Nat) : List FreeExtent :=
  let head := start - free.extent.offset
  let tailOffset := start + len
  (if head > 0 then [⟨⟨free.extent.offset, head⟩, free.freedTxn⟩] else []) ++
    (if tailOffset < free.extent.stop then
      [⟨⟨tailOffset, free.extent.stop - tailOffset⟩, free.freedTxn⟩] else [])

/-- Reserve `len` bytes for a write. -/
def allocate (manifest : Manifest) (len align minActiveTxn : Nat) : Extent × Manifest :=
  if len = 0 then (Extent.empty, manifest)
  else
    match bestFit manifest.freeExtents len align minActiveTxn with
    | some (index, _) =>
      match manifest.freeExtents[index]? with
      | some free =>
        let start := alignUp free.extent.offset align
        (⟨start, len⟩,
          { manifest with
            freeExtents := manifest.freeExtents.eraseIdx index ++ free.rest start len })
      | none => (Extent.empty, manifest)
    | none =>
      let start := alignUp manifest.fileLen align
      (⟨start, len⟩, { manifest with fileLen := start + len })

/-- The index `bestFit` returns names a free extent with room that no reader holds. -/
theorem bestFit_spec {frees : List FreeExtent} {len align minActiveTxn index slack : Nat}
    (h : bestFit frees len align minActiveTxn = some (index, slack)) :
    ∃ free, frees[index]? = some free ∧ free.slack len align minActiveTxn = some slack := by
  -- the invariant of the loop: whatever is best so far sits in the list at its index
  have hloop : ∀ (rest : List (FreeExtent × Nat)) (best : Option (Nat × Nat)),
      (∀ entry ∈ rest, frees[entry.2]? = some entry.1) →
      (∀ i s, best = some (i, s) →
        ∃ free, frees[i]? = some free ∧ free.slack len align minActiveTxn = some s) →
      ∀ i s, rest.foldl (fun best entry =>
        match entry.1.slack len align minActiveTxn with
        | none => best
        | some slack =>
          match best with
          | none => some (entry.2, slack)
          | some (_, bestSlack) => if slack < bestSlack then some (entry.2, slack) else best) best =
          some (i, s) →
        ∃ free, frees[i]? = some free ∧ free.slack len align minActiveTxn = some s := by
    intro rest
    induction rest with
    | nil => intro best _ hbest i s hi; exact hbest i s hi
    | cons entry rest ih =>
        intro best hmem hbest i s hi
        rw [List.foldl_cons] at hi
        refine ih _ (fun e he => hmem e (List.mem_cons_of_mem _ he)) ?_ i s hi
        intro j t hj
        cases hslack : entry.1.slack len align minActiveTxn with
        | none => rw [hslack] at hj; exact hbest j t hj
        | some found =>
            rw [hslack] at hj
            have hentry := hmem entry List.mem_cons_self
            cases best with
            | none =>
                cases hj
                exact ⟨entry.1, hentry, hslack⟩
            | some previous =>
                obtain ⟨k, bestSlack⟩ := previous
                simp only at hj
                split_ifs at hj with hlt
                · cases hj
                  exact ⟨entry.1, hentry, hslack⟩
                · exact hbest j t hj
  refine hloop frees.zipIdx none ?_ (by simp) index slack h
  intro entry hentry
  exact (List.mem_zipIdx_iff_getElem?.mp hentry)

theorem FreeExtent.slack_spec {free : FreeExtent} {len align minActiveTxn slack : Nat}
    (h : free.slack len align minActiveTxn = some slack) :
    free.freedTxn < minActiveTxn ∧
      alignUp free.extent.offset align - free.extent.offset + len ≤ free.extent.len := by
  simp only [FreeExtent.slack] at h
  split_ifs at h
  omega

/-- A piece of an extent, kept only when it has bytes, counts exactly its bytes. -/
theorem coverAt_piece (lo hi txn byte : Nat) :
    Extent.coverAt ((if lo < hi then [(⟨⟨lo, hi - lo⟩, txn⟩ : FreeExtent)] else []).map (·.extent)) byte =
      if lo ≤ byte ∧ byte < hi then 1 else 0 := by
  split
  · rw [List.map_cons, List.map_nil, Extent.coverAt_cons, Extent.coverAt_nil, Nat.add_zero]
    refine if_congr ?_ rfl rfl
    rw [Extent.stop_mk]
    dsimp only
    omega
  · rw [if_neg (by omega)]
    rfl

theorem FreeExtent.rest_eq (free : FreeExtent) (start len : Nat) :
    free.rest start len =
      (if free.extent.offset < start then
        [(⟨⟨free.extent.offset, start - free.extent.offset⟩, free.freedTxn⟩ : FreeExtent)] else []) ++
      (if start + len < free.extent.stop then
        [(⟨⟨start + len, free.extent.stop - (start + len)⟩, free.freedTxn⟩ : FreeExtent)] else []) := by
  rw [FreeExtent.rest]
  congr 1
  exact if_congr (by omega) rfl rfl

/-- Cutting the result out of a free extent moves its bytes and loses none. -/
theorem FreeExtent.coverAt_rest (free : FreeExtent) (start len byte : Nat)
    (hstart : free.extent.offset ≤ start) (hroom : start + len ≤ free.extent.stop) :
    Extent.coverAt (⟨start, len⟩ :: (free.rest start len).map (·.extent)) byte =
      Extent.coverAt [free.extent] byte := by
  rw [FreeExtent.rest_eq, List.map_append, Extent.coverAt_cons, Extent.coverAt_append, coverAt_piece,
    coverAt_piece, Extent.coverAt_cons, Extent.coverAt_nil, Extent.stop_mk]
  dsimp only
  repeat' split
  all_goals omega

theorem FreeExtent.mem_rest {free piece : FreeExtent} {start len : Nat}
    (hstart : free.extent.offset ≤ start) (hroom : start + len ≤ free.extent.stop)
    (h : piece ∈ free.rest start len) :
    piece.freedTxn = free.freedTxn ∧ free.extent.offset ≤ piece.extent.offset ∧
      piece.extent.stop ≤ free.extent.stop ∧ 0 < piece.extent.len := by
  rw [FreeExtent.rest_eq] at h
  rcases List.mem_append.mp h with h | h
  · split at h
    · rw [List.mem_singleton] at h
      subst h
      exact ⟨rfl, le_rfl, by rw [Extent.stop_mk]; omega, by dsimp only; omega⟩
    · cases h
  · split at h
    · rw [List.mem_singleton] at h
      subst h
      exact ⟨rfl, by dsimp only; omega, by rw [Extent.stop_mk]; omega, by dsimp only; omega⟩
    · cases h

/-- Everything an allocation can do: take the bytes from a free extent that no reader holds, or
grow the file. -/
theorem allocate_cases (m : Manifest) {len align : Nat} (minActiveTxn : Nat) (hlen : 0 < len)
    (halign : align.isPowerOfTwo) :
    (∃ front free back start, m.freeExtents = front ++ free :: back ∧
      free.freedTxn < minActiveTxn ∧ free.extent.offset ≤ start ∧ start + len ≤ free.extent.stop ∧
      allocate m len align minActiveTxn =
        (⟨start, len⟩, { m with freeExtents := front ++ back ++ free.rest start len })) ∨
    (bestFit m.freeExtents len align minActiveTxn = none ∧
      allocate m len align minActiveTxn = (⟨alignUp m.fileLen align, len⟩,
        { m with fileLen := alignUp m.fileLen align + len })) := by
  rw [allocate, if_neg (by omega)]
  cases hbest : bestFit m.freeExtents len align minActiveTxn with
  | none => exact .inr ⟨rfl, rfl⟩
  | some found =>
      obtain ⟨index, slack⟩ := found
      obtain ⟨free, hget, hslack⟩ := bestFit_spec hbest
      obtain ⟨htxn, hroom⟩ := FreeExtent.slack_spec hslack
      have hle := le_alignUp halign free.extent.offset
      obtain ⟨hindex, hfree⟩ := List.getElem?_eq_some_iff.mp hget
      refine .inl ⟨m.freeExtents.take index, free, m.freeExtents.drop (index + 1),
        alignUp free.extent.offset align, ?_, htxn, hle, ?_, ?_⟩
      · rw [← hfree, List.cons_getElem_drop_succ, List.take_append_drop]
      · rw [Extent.stop]
        omega
      · simp only [hget, List.eraseIdx_eq_take_drop_succ]

theorem allocate_zero (m : Manifest) (align minActiveTxn : Nat) :
    allocate m 0 align minActiveTxn = (Extent.empty, m) := if_pos rfl

theorem allocate_len (m : Manifest) {len align : Nat} (minActiveTxn : Nat)
    (halign : align.isPowerOfTwo) : (allocate m len align minActiveTxn).1.len = len := by
  rcases Nat.eq_zero_or_pos len with rfl | hlen
  · rw [allocate_zero]
    rfl
  · rcases allocate_cases m minActiveTxn hlen halign with
      ⟨_, _, _, _, -, -, -, -, heq⟩ | ⟨-, heq⟩ <;> rw [heq]

/-- The accounting: no byte is counted twice among the extents in use and the free list, and none
outside `[DATA_START, file_len)` is counted at all. -/
structure Accounted (used : List Extent) (m : Manifest) : Prop where
  once : ∀ byte, Extent.coverAt used byte + Extent.coverAt m.freed byte ≤ 1
  below : ∀ byte, m.fileLen ≤ byte → Extent.coverAt used byte + Extent.coverAt m.freed byte = 0
  above : ∀ byte, byte < dataStart → Extent.coverAt used byte + Extent.coverAt m.freed byte = 0
  start : dataStart ≤ m.fileLen

/-- The bytes an edit of the manifest took from past the end of the file, if any. -/
def Grown (m m' : Manifest) (grown : Extent) : Prop :=
  grown.len = 0 ∧ m'.fileLen = m.fileLen ∨ m.fileLen ≤ grown.offset ∧ m'.fileLen = grown.stop

theorem Grown.congr {m m' m'' : Manifest} {grown : Extent} (h : Grown m m' grown)
    (hlen : m''.fileLen = m'.fileLen) : Grown m m'' grown := by
  rw [Grown, hlen]
  exact h

/-- An allocation moves its bytes out of the free list, or counts new ones. -/
theorem allocate_cover (m : Manifest) {len align : Nat} (minActiveTxn : Nat) (hlen : 0 < len)
    (halign : align.isPowerOfTwo) :
    ∃ grown, Grown m (allocate m len align minActiveTxn).2 grown ∧
      (0 < grown.len → grown = (allocate m len align minActiveTxn).1) ∧
      ∀ byte, Extent.coverAt [(allocate m len align minActiveTxn).1] byte +
        Extent.coverAt (allocate m len align minActiveTxn).2.freed byte =
          Extent.coverAt m.freed byte + Extent.coverAt [grown] byte := by
  rcases allocate_cases m minActiveTxn hlen halign with
    ⟨front, free, back, start, hfrees, -, hstart, hroom, heq⟩ | ⟨-, heq⟩
  · refine ⟨Extent.empty, .inl ⟨rfl, by rw [heq]⟩, fun h => absurd h (by decide), fun byte => ?_⟩
    have hcut := free.coverAt_rest start len byte hstart hroom
    rw [heq, Extent.coverAt_empty]
    simp only [Manifest.freed, hfrees, List.map_append, List.map_cons, Extent.coverAt_append,
      Extent.coverAt_cons, Extent.coverAt_nil] at hcut ⊢
    omega
  · refine ⟨⟨alignUp m.fileLen align, len⟩, .inr ⟨le_alignUp halign m.fileLen, by rw [heq]; rfl⟩,
      fun _ => by rw [heq], fun byte => ?_⟩
    rw [heq]
    simp only [Manifest.freed]
    omega

theorem coverAt_free (m : Manifest) (e : Extent) (byte : Nat) :
    Extent.coverAt (m.free e).freed byte = Extent.coverAt m.freed byte + Extent.coverAt [e] byte := by
  unfold Manifest.free
  split
  · next hempty =>
      rw [Extent.isEmpty_iff] at hempty
      have hstop : e.stop = e.offset + e.len := rfl
      rw [Extent.coverAt_cons, if_neg (by omega), Extent.coverAt_nil]
      rfl
  · simp only [Manifest.freed, List.map_append, List.map_cons, List.map_nil, Extent.coverAt_append]

namespace Accounted

variable {used used' : List Extent} {m m' : Manifest}

/-- The accounting of a list of extents that are disjoint and in bounds. -/
theorem of_pairwise (hapart : (used ++ m.freed).Pairwise fun a b => ¬a.Shares b)
    (hbounds : ∀ e ∈ used ++ m.freed, dataStart ≤ e.offset ∧ e.stop ≤ m.fileLen)
    (hstart : dataStart ≤ m.fileLen) : Accounted used m where
  once byte := by rw [← Extent.coverAt_append]; exact Extent.coverAt_le_one hapart byte
  below byte hbyte := by
    rw [← Extent.coverAt_append]
    exact Extent.coverAt_eq_zero fun e he => (hbounds e he).2.trans hbyte
  above byte hbyte := by
    rw [← Extent.coverAt_append]
    refine List.countP_eq_zero.mpr fun e he hcovers => ?_
    have := (hbounds e he).1
    simp only [decide_eq_true_eq] at hcovers
    omega
  start := hstart

/-- Only the counts matter: the lists may be permuted, and edits that keep both counts and the
length keep the accounting. -/
theorem congr (h : Accounted used m) (hlen : m'.fileLen = m.fileLen)
    (hcover : ∀ byte, Extent.coverAt used' byte + Extent.coverAt m'.freed byte =
      Extent.coverAt used byte + Extent.coverAt m.freed byte) : Accounted used' m' where
  once byte := by rw [hcover]; exact h.once byte
  below byte hbyte := by rw [hcover]; exact h.below byte (by omega)
  above byte hbyte := by rw [hcover]; exact h.above byte hbyte
  start := by rw [hlen]; exact h.start

theorem weaken (h : Accounted used m) (hcover : ∀ byte, Extent.coverAt used' byte ≤
    Extent.coverAt used byte) : Accounted used' m where
  once byte := by have := h.once byte; have := hcover byte; omega
  below byte hbyte := by have := h.below byte hbyte; have := hcover byte; omega
  above byte hbyte := by have := h.above byte hbyte; have := hcover byte; omega
  start := h.start

theorem bounds (h : Accounted used m) {e : Extent} (he : e ∈ used ∨ e ∈ m.freed) (hpos : 0 < e.len) :
    dataStart ≤ e.offset ∧ e.stop ≤ m.fileLen := by
  have hstop : e.stop = e.offset + e.len := rfl
  have hcount : ∀ byte, e.offset ≤ byte → byte < e.stop →
      0 < Extent.coverAt used byte + Extent.coverAt m.freed byte := by
    intro byte hlo hhi
    rcases he with he | he
    · have := Extent.coverAt_pos he hlo hhi
      omega
    · have := Extent.coverAt_pos he hlo hhi
      omega
  refine ⟨?_, ?_⟩
  · by_contra hlow
    have := h.above e.offset (by omega)
    have := hcount e.offset le_rfl (by omega)
    omega
  · by_contra hhigh
    have := h.below (e.stop - 1) (by omega)
    have := hcount (e.stop - 1) (by omega) (by omega)
    omega

theorem apart_freed (h : Accounted used m) {e f : Extent} (he : e ∈ used) (hf : f ∈ m.freed)
    (hepos : 0 < e.len) (hfpos : 0 < f.len) : e.Apart f :=
  Extent.apart_of_coverAt he hf h.once hepos hfpos

theorem grow {grown : Extent} (h : Accounted used m) (hgrown : Grown m m' grown)
    (hcover : ∀ byte, Extent.coverAt used' byte + Extent.coverAt m'.freed byte =
      Extent.coverAt used byte + Extent.coverAt m.freed byte + Extent.coverAt [grown] byte) :
    Accounted used' m' := by
  have hstop : grown.stop = grown.offset + grown.len := rfl
  have hstart := h.start
  have hgrow : ∀ byte, Extent.coverAt [grown] byte =
      if grown.offset ≤ byte ∧ byte < grown.stop then 1 else 0 := fun byte => by
    rw [Extent.coverAt_cons, Extent.coverAt_nil, Nat.add_zero]
  simp only [Grown] at hgrown
  refine ⟨fun byte => ?_, fun byte hbyte => ?_, fun byte hbyte => ?_, by omega⟩
  · have honce := h.once byte
    have hbelow := h.below byte
    rw [hcover, hgrow]
    split <;> omega
  · have hbelow := h.below byte (by omega)
    rw [hcover, hgrow, if_neg (by omega)]
    omega
  · have habove := h.above byte hbyte
    rw [hcover, hgrow, if_neg (by omega)]
    omega

end Accounted

theorem fileLen_le_allocate (m : Manifest) {len align : Nat} (minActiveTxn : Nat)
    (halign : align.isPowerOfTwo) : m.fileLen ≤ (allocate m len align minActiveTxn).2.fileLen := by
  rcases Nat.eq_zero_or_pos len with rfl | hlen
  · rw [allocate_zero]
  · rcases allocate_cases m minActiveTxn hlen halign with
      ⟨_, _, _, _, -, -, -, -, heq⟩ | ⟨-, heq⟩
    · rw [heq]
    · rw [heq]
      have := le_alignUp halign m.fileLen
      dsimp only
      omega

/-- The extent holds bytes of commit `txn`: it lies in the file, and whatever of the free list was
given up by then does not touch it. -/
structure Protects (m : Manifest) (txn : Nat) (e : Extent) : Prop where
  pos : 0 < e.len
  inFile : e.stop ≤ m.fileLen
  apart : ∀ free ∈ m.freeExtents, free.freedTxn ≤ txn → free.extent.len = 0 ∨ free.extent.Apart e

namespace Protects

variable {m : Manifest} {txn : Nat} {e : Extent}

/-- The accounting protects everything in use, whatever the txn. -/
theorem of_accounted {used : List Extent} (h : Accounted used m) (he : e ∈ used) (hpos : 0 < e.len)
    (txn : Nat) : Protects m txn e where
  pos := hpos
  inFile := (h.bounds (.inl he) hpos).2
  apart free hfree _ := by
    rcases Nat.eq_zero_or_pos free.extent.len with hzero | hfpos
    · exact .inl hzero
    · exact .inr (h.apart_freed he (List.mem_map_of_mem hfree) hpos hfpos).symm

/-- An allocation leaves alone what the free list of its manifest protects. -/
theorem allocate_apart (h : Protects m txn e) {len align minActiveTxn : Nat} (hlen : 0 < len)
    (halign : align.isPowerOfTwo) (hmin : minActiveTxn ≤ txn + 1) :
    (allocate m len align minActiveTxn).1.Apart e := by
  rcases allocate_cases m minActiveTxn hlen halign with
    ⟨front, free, back, start, hfrees, htxn, hstart, hroom, heq⟩ | ⟨-, heq⟩
  · rw [heq]
    have := h.apart free (by rw [hfrees]; simp) (by omega)
    have hstop : free.extent.stop = free.extent.offset + free.extent.len := rfl
    simp only [Interval.Apart, Extent.stop_mk] at this ⊢
    omega
  · rw [heq]
    have := le_alignUp halign m.fileLen
    have := h.inFile
    exact .inr (by dsimp only; omega)

theorem allocate (h : Protects m txn e) (len : Nat) {align : Nat} (minActiveTxn : Nat)
    (halign : align.isPowerOfTwo) : Protects (allocate m len align minActiveTxn).2 txn e := by
  refine ⟨h.pos, h.inFile.trans (fileLen_le_allocate m minActiveTxn halign), ?_⟩
  rcases Nat.eq_zero_or_pos len with rfl | hlen
  · rw [allocate_zero]
    exact h.apart
  · rcases allocate_cases m minActiveTxn hlen halign with
      ⟨front, free, back, start, hfrees, -, hstart, hroom, heq⟩ | ⟨-, heq⟩
    · rw [heq]
      intro piece hpiece hfreed
      rcases List.mem_append.mp hpiece with hpiece | hpiece
      · refine h.apart piece ?_ hfreed
        rw [hfrees]
        rcases List.mem_append.mp hpiece with hpiece | hpiece <;> simp [hpiece]
      · obtain ⟨htxn, hlo, hhi, -⟩ := FreeExtent.mem_rest hstart hroom hpiece
        have := h.apart free (by rw [hfrees]; simp) (by omega)
        have hstop : free.extent.stop = free.extent.offset + free.extent.len := rfl
        simp only [Interval.Apart] at this ⊢
        omega
    · rw [heq]
      exact h.apart

theorem free (h : Protects m txn e) (extent : Extent) (htxn : txn < m.txnId) :
    Protects (m.free extent) txn e := by
  unfold Manifest.free
  split
  · exact h
  · refine ⟨h.pos, h.inFile, fun piece hpiece hfreed => ?_⟩
    rcases List.mem_append.mp hpiece with hpiece | hpiece
    · exact h.apart piece hpiece hfreed
    · rw [List.mem_singleton] at hpiece
      subst hpiece
      exact absurd hfreed (by dsimp only; omega)

end Protects

end LocalTables
