import LocalTables.TableFile.Allocate

/-! Runs of the allocator. Between two commits a manifest serves any mix of allocations and frees; over all of them
the used and the free extents stay disjoint, and what an allocation leaves of a free extent is on the free list
again, under the stamp the extent had. -/

namespace LocalTables

/-- What the calls act on: the extents handed out and not given back, and the manifest. -/
structure Space where
  used : List Extent
  manifest : Manifest

/-- The extent holds the byte. -/
def Extent.Holds (e : Extent) (byte : Nat) : Prop := e.offset ≤ byte ∧ byte < e.stop

instance (e : Extent) (byte : Nat) : Decidable (e.Holds byte) := inferInstanceAs (Decidable (_ ∧ _))

/-- The stamps of the free extents that hold a byte. -/
def FreeExtent.stampsAt (frees : List FreeExtent) (byte : Nat) : List Nat :=
  (frees.filter fun free => free.extent.Holds byte).map (·.freedTxn)

namespace Space

/-- No byte is in two extents, used or free, and all of them end inside the file. -/
structure Disjoint (s : Space) : Prop where
  apart : (s.used ++ s.manifest.freed).Pairwise fun a b => ¬a.Shares b
  inFile : ∀ e ∈ s.used ++ s.manifest.freed, e.stop ≤ s.manifest.fileLen

/-- One call. -/
inductive Call : Space → Space → Prop
  | allocate (s : Space) (len minActiveTxn : Nat) {align : Nat} (halign : align.isPowerOfTwo) :
      Call s ⟨(allocate s.manifest len align minActiveTxn).1 :: s.used,
        (allocate s.manifest len align minActiveTxn).2⟩
  | free (s : Space) {e : Extent} (he : e ∈ s.used) : Call s ⟨s.used.erase e, s.manifest.free e⟩

/-- Where the bytes of an allocation come from: nowhere when it asks for none; a free extent that no reader holds,
each byte of which is afterwards in the result or in one free extent with its stamp; or past the end of the file. -/
inductive Source (m m' : Manifest) (minActiveTxn : Nat) (e : Extent) : Prop
  | nothing (hlen : e.len = 0) (heq : m' = m)
  | reused (free : FreeExtent) (hfree : free ∈ m.freeExtents) (htxn : free.freedTxn < minActiveTxn)
      (hlow : free.extent.offset ≤ e.offset) (hhigh : e.stop ≤ free.extent.stop) (hlen : m'.fileLen = m.fileLen)
      (hbytes : ∀ byte, free.extent.Holds byte →
        FreeExtent.stampsAt m'.freeExtents byte = if e.Holds byte then [] else [free.freedTxn])
      (hothers : ∀ byte, ¬free.extent.Holds byte →
        FreeExtent.stampsAt m'.freeExtents byte = FreeExtent.stampsAt m.freeExtents byte)
  | grown (hlow : m.fileLen ≤ e.offset) (heq : m' = { m with fileLen := e.stop })

/-- What is promised of the extent an allocation returns. -/
structure Serves (s : Space) (len align minActiveTxn : Nat) (e : Extent) (m' : Manifest) : Prop where
  len : e.len = len
  aligned : align ∣ e.offset
  apartUsed : ∀ used ∈ s.used, ¬e.Shares used
  apartFree : ∀ free ∈ m'.freed, ¬e.Shares free
  source : Source s.manifest m' minActiveTxn e

end Space

theorem dvd_allocate (m : Manifest) (len minActiveTxn : Nat) {align : Nat} (halign : align.isPowerOfTwo) :
    align ∣ (allocate m len align minActiveTxn).1.offset := by
  unfold allocate
  split
  · exact Nat.dvd_zero _
  · split
    · split
      · exact dvd_alignUp halign _
      · exact Nat.dvd_zero _
    · exact dvd_alignUp halign _

namespace FreeExtent

theorem stampsAt_append (left right : List FreeExtent) (byte : Nat) :
    stampsAt (left ++ right) byte = stampsAt left byte ++ stampsAt right byte := by
  rw [stampsAt, List.filter_append, List.map_append]
  rfl

theorem stampsAt_cons (free : FreeExtent) (frees : List FreeExtent) (byte : Nat) :
    stampsAt (free :: frees) byte =
      (if free.extent.Holds byte then [free.freedTxn] else []) ++ stampsAt frees byte := by
  by_cases hholds : free.extent.Holds byte
  · rw [if_pos hholds, stampsAt, List.filter_cons_of_pos (by simpa using hholds), List.map_cons]
    rfl
  · rw [if_neg hholds, stampsAt, List.filter_cons_of_neg (by simpa using hholds)]
    rfl

theorem stampsAt_eq_nil {frees : List FreeExtent} {byte : Nat} (h : ∀ free ∈ frees, ¬free.extent.Holds byte) :
    stampsAt frees byte = [] := by
  rw [stampsAt, List.map_eq_nil_iff, List.filter_eq_nil_iff]
  intro free hfree
  simpa using h free hfree

theorem stampsAt_piece (lo hi txn byte : Nat) :
    stampsAt (if lo < hi then [(⟨⟨lo, hi - lo⟩, txn⟩ : FreeExtent)] else []) byte =
      if lo ≤ byte ∧ byte < hi then [txn] else [] := by
  split
  · rw [stampsAt_cons]
    refine (List.append_nil _).trans (if_congr ?_ rfl rfl)
    rw [Extent.Holds, Extent.stop_mk]
    dsimp only
    omega
  · rw [if_neg (by omega)]
    rfl

/-- The pieces around the bytes taken hold the others, each byte once and under the old stamp. -/
theorem stampsAt_rest (free : FreeExtent) {start len : Nat} (hlow : free.extent.offset ≤ start)
    (hhigh : start + len ≤ free.extent.stop) (byte : Nat) :
    stampsAt (free.rest start len) byte =
      if free.extent.Holds byte then
        if (Extent.mk start len).Holds byte then [] else [free.freedTxn] else [] := by
  rw [FreeExtent.rest_eq, stampsAt_append, stampsAt_piece, stampsAt_piece]
  have hfree : free.extent.Holds byte ↔ free.extent.offset ≤ byte ∧ byte < free.extent.stop := Iff.rfl
  have htaken : (Extent.mk start len).Holds byte ↔ start ≤ byte ∧ byte < start + len := Iff.rfl
  by_cases hbelow : byte < start
  · have hnot : ¬(Extent.mk start len).Holds byte := fun h => by have := htaken.mp h; omega
    rw [if_neg (by omega : ¬(start + len ≤ byte ∧ byte < free.extent.stop)), List.append_nil, if_neg hnot]
    exact if_congr (hfree.trans (by omega)).symm rfl rfl
  · rw [if_neg (by omega : ¬(free.extent.offset ≤ byte ∧ byte < start)), List.nil_append]
    by_cases habove : start + len ≤ byte
    · have hnot : ¬(Extent.mk start len).Holds byte := fun h => by have := htaken.mp h; omega
      rw [if_neg hnot]
      exact if_congr (hfree.trans (by omega)).symm rfl rfl
    · rw [if_neg (by omega), if_pos (htaken.mpr (by omega)), ite_self]

end FreeExtent

namespace Space

variable {s s' : Space}

theorem Disjoint.once (h : s.Disjoint) (byte : Nat) :
    Extent.coverAt s.used byte + Extent.coverAt s.manifest.freed byte ≤ 1 := by
  rw [← Extent.coverAt_append]
  exact Extent.coverAt_le_one h.apart byte

theorem Disjoint.below (h : s.Disjoint) (byte : Nat) (hbyte : s.manifest.fileLen ≤ byte) :
    Extent.coverAt s.used byte + Extent.coverAt s.manifest.freed byte = 0 := by
  rw [← Extent.coverAt_append]
  exact Extent.coverAt_eq_zero fun e he => (h.inFile e he).trans hbyte

theorem Disjoint.of_once
    (h : ∀ byte, Extent.coverAt s.used byte + Extent.coverAt s.manifest.freed byte ≤ 1)
    (hin : ∀ e ∈ s.used ++ s.manifest.freed, e.stop ≤ s.manifest.fileLen) : s.Disjoint := by
  refine ⟨Extent.pairwise_not_shares fun byte => ?_, hin⟩
  rw [Extent.coverAt_append]
  exact h byte

/-- An allocation keeps the extents disjoint, its result being used. -/
theorem Disjoint.allocate (h : s.Disjoint) (len minActiveTxn : Nat) {align : Nat} (halign : align.isPowerOfTwo) :
    Disjoint ⟨(allocate s.manifest len align minActiveTxn).1 :: s.used,
      (allocate s.manifest len align minActiveTxn).2⟩ := by
  rcases Nat.eq_zero_or_pos len with rfl | hlen
  · rw [allocate_zero]
    refine of_once (fun byte => ?_) fun e he => ?_
    · have honce := h.once byte
      have hempty := Extent.coverAt_empty byte
      rw [Extent.coverAt_cons] at hempty ⊢
      dsimp only
      omega
    · rcases List.mem_cons.mp he with rfl | he
      · exact Nat.zero_le _
      · exact h.inFile e he
  · refine of_once (fun byte => ?_) fun e he => ?_
    · obtain ⟨grown, hgrown, -, hcover⟩ := allocate_cover s.manifest minActiveTxn hlen halign
      have honce := h.once byte
      have hbelow := h.below byte
      have hbyte := hcover byte
      simp only [Extent.coverAt_cons, Extent.coverAt_nil] at hbyte ⊢
      have hstop : grown.stop = grown.offset + grown.len := rfl
      by_cases hin : grown.offset ≤ byte ∧ byte < grown.stop
      · rw [if_pos hin] at hbyte
        rcases hgrown with ⟨hzero, -⟩ | ⟨hlow, -⟩
        · omega
        · have := hbelow (by omega)
          omega
      · rw [if_neg hin] at hbyte
        omega
    · have hbound := h.inFile e
      rcases allocate_cases s.manifest minActiveTxn hlen halign with
        ⟨front, free, back, start, hfrees, -, hlow, hhigh, heq⟩ | ⟨-, heq⟩
      · rw [heq] at he ⊢
        have hfree : free.extent.stop ≤ s.manifest.fileLen :=
          h.inFile _ (List.mem_append_right _ (List.mem_map_of_mem (by rw [hfrees]; simp)))
        simp only [Manifest.freed, hfrees, List.cons_append, List.map_append, List.map_cons, List.mem_cons,
          List.mem_append, List.mem_map] at he hbound
        rcases he with rfl | he | (he | he) | ⟨piece, hpiece, rfl⟩
        · exact hhigh.trans hfree
        · exact hbound (.inl he)
        · exact hbound (.inr (.inl he))
        · exact hbound (.inr (.inr (.inr he)))
        · exact (FreeExtent.mem_rest hlow hhigh hpiece).2.2.1.trans hfree
      · rw [heq] at he ⊢
        have hle := le_alignUp halign s.manifest.fileLen
        rcases List.mem_cons.mp he with rfl | he
        · exact le_rfl
        · have := hbound he
          dsimp only
          omega

/-- Giving back a used extent keeps the extents disjoint. -/
theorem Disjoint.free (h : s.Disjoint) {e : Extent} (he : e ∈ s.used) :
    Disjoint ⟨s.used.erase e, s.manifest.free e⟩ := by
  have hlen : (s.manifest.free e).fileLen = s.manifest.fileLen := by
    unfold Manifest.free
    split <;> rfl
  refine of_once (fun byte => ?_) fun f hf => ?_
  · have hperm := Extent.coverAt_perm (List.perm_cons_erase he) byte
    have honce := h.once byte
    rw [Extent.coverAt_cons] at hperm
    rw [coverAt_free, Extent.coverAt_cons, Extent.coverAt_nil]
    dsimp only
    omega
  · rw [hlen]
    refine h.inFile f ?_
    rcases List.mem_append.mp hf with hf | hf
    · exact List.mem_append_left _ (List.mem_of_mem_erase hf)
    · unfold Manifest.free at hf
      split at hf
      · exact List.mem_append_right _ hf
      · simp only [Manifest.freed, List.map_append, List.map_cons, List.map_nil, List.mem_append,
          List.mem_singleton] at hf
        rcases hf with hf | rfl
        · exact List.mem_append_right _ hf
        · exact List.mem_append_left _ he

theorem Call.disjoint (hcall : Call s s') (h : s.Disjoint) : s'.Disjoint := by
  cases hcall with
  | allocate len minActiveTxn halign => exact h.allocate len minActiveTxn halign
  | free he => exact h.free he

theorem Disjoint.calls (h : s.Disjoint) (hcalls : Relation.ReflTransGen Call s s') : s'.Disjoint := by
  induction hcalls with
  | refl => exact h
  | tail _ hcall ih => exact hcall.disjoint ih

/-- A byte of one free extent is in no other. -/
theorem Disjoint.not_holds (h : s.Disjoint) {front back : List FreeExtent} {free other : FreeExtent}
    (hfrees : s.manifest.freeExtents = front ++ free :: back) (hother : other ∈ front ++ back) {byte : Nat}
    (hbyte : free.extent.Holds byte) : ¬other.extent.Holds byte := by
  intro hholds
  have honce := h.once byte
  have hfree : Extent.coverAt [free.extent] byte = 1 := by
    rw [Extent.coverAt_cons, Extent.coverAt_nil]
    exact if_pos hbyte
  have hpos : 0 < Extent.coverAt ((front ++ back).map (·.extent)) byte :=
    Extent.coverAt_pos (List.mem_map_of_mem hother) hholds.1 hholds.2
  simp only [Manifest.freed, hfrees, List.map_append, List.map_cons, Extent.coverAt_append, Extent.coverAt_cons,
    Extent.coverAt_nil] at honce hfree hpos
  omega

theorem Disjoint.source (h : s.Disjoint) (len minActiveTxn : Nat) {align : Nat} (halign : align.isPowerOfTwo) :
    Source s.manifest (LocalTables.allocate s.manifest len align minActiveTxn).2 minActiveTxn
      (LocalTables.allocate s.manifest len align minActiveTxn).1 := by
  rcases Nat.eq_zero_or_pos len with rfl | hlen
  · rw [allocate_zero]
    exact .nothing rfl rfl
  · rcases allocate_cases s.manifest minActiveTxn hlen halign with
      ⟨front, free, back, start, hfrees, htxn, hlow, hhigh, heq⟩ | ⟨-, heq⟩
    · rw [heq]
      refine .reused free (by rw [hfrees]; simp) htxn hlow hhigh rfl (fun byte hbyte => ?_) fun byte hbyte => ?_
      · dsimp only
        rw [FreeExtent.stampsAt_append, FreeExtent.stampsAt_rest free hlow hhigh, if_pos hbyte,
          FreeExtent.stampsAt_eq_nil fun other hother => h.not_holds hfrees hother hbyte, List.nil_append]
      · dsimp only
        rw [FreeExtent.stampsAt_append, FreeExtent.stampsAt_rest free hlow hhigh, if_neg hbyte, List.append_nil,
          hfrees, FreeExtent.stampsAt_append, FreeExtent.stampsAt_append, FreeExtent.stampsAt_cons, if_neg hbyte,
          List.nil_append]
    · rw [heq]
      exact .grown (le_alignUp halign _) rfl

theorem Disjoint.serves (h : s.Disjoint) (len minActiveTxn : Nat) {align : Nat} (halign : align.isPowerOfTwo) :
    Serves s len align minActiveTxn (LocalTables.allocate s.manifest len align minActiveTxn).1
      (LocalTables.allocate s.manifest len align minActiveTxn).2 := by
  obtain ⟨hresult, -⟩ := List.pairwise_cons.mp (h.allocate len minActiveTxn halign).apart
  exact ⟨allocate_len _ _ halign, dvd_allocate _ _ _ halign,
    fun used hused => hresult used (List.mem_append_left _ hused),
    fun free hfree => hresult free (List.mem_append_right _ hfree), h.source len minActiveTxn halign⟩

/-- Over any run of allocations and frees the extents stay disjoint and inside the file, and whatever is allocated
on the way is as long and as aligned as was asked, apart from every extent in use or free, and accounted for. -/
theorem calls_conserve_space (hdisjoint : s.Disjoint) (hcalls : Relation.ReflTransGen Call s s') :
    s'.Disjoint ∧ ∀ len align minActiveTxn, align.isPowerOfTwo →
      Serves s' len align minActiveTxn (LocalTables.allocate s'.manifest len align minActiveTxn).1
        (LocalTables.allocate s'.manifest len align minActiveTxn).2 :=
  ⟨hdisjoint.calls hcalls, fun len _ minActiveTxn halign => (hdisjoint.calls hcalls).serves len minActiveTxn halign⟩

/-- A page is used and three are free; two more are taken out of the free ones and the old page is given back. -/
theorem calls_conserve_four_pages :
    let s' : Space := ⟨[⟨16384, 8192⟩],
      { Manifest.empty 28672 with txnId := 5, freeExtents := [⟨⟨24576, 4096⟩, 3⟩, ⟨⟨12288, 4096⟩, 5⟩] }⟩
    s'.Disjoint ∧ ∀ len align minActiveTxn, align.isPowerOfTwo →
      Serves s' len align minActiveTxn (LocalTables.allocate s'.manifest len align minActiveTxn).1
        (LocalTables.allocate s'.manifest len align minActiveTxn).2 := by
  intro s'
  let s : Space := ⟨[⟨12288, 4096⟩],
    { Manifest.empty 28672 with txnId := 5, freeExtents := [⟨⟨16384, 12288⟩, 3⟩] }⟩
  have hdisjoint : s.Disjoint := ⟨by decide, by decide⟩
  have hserved : LocalTables.allocate s.manifest 8192 segmentAlign 5 = (⟨16384, 8192⟩,
      { Manifest.empty 28672 with txnId := 5, freeExtents := [⟨⟨24576, 4096⟩, 3⟩] }) := by decide +kernel
  have herased : ([⟨16384, 8192⟩, ⟨12288, 4096⟩] : List Extent).erase ⟨12288, 4096⟩ = [⟨16384, 8192⟩] := by decide
  have htaken := Call.allocate s 8192 5 isPowerOfTwo_segmentAlign
  have hfreed := Call.free ⟨[⟨16384, 8192⟩, ⟨12288, 4096⟩],
    { Manifest.empty 28672 with txnId := 5, freeExtents := [⟨⟨24576, 4096⟩, 3⟩] }⟩
    (List.mem_cons_of_mem _ (List.mem_singleton_self (⟨12288, 4096⟩ : Extent)))
  rw [hserved] at htaken
  rw [herased] at hfreed
  exact calls_conserve_space hdisjoint ((Relation.ReflTransGen.single htaken).tail hfreed)

end Space

end LocalTables
