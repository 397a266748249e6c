import LocalTables.Lib.Interval

/-! The shared on-disk primitives of `layout/mod.rs`: the fixed regions of a table file, the two
alignments, and the byte extents everything past them is addressed by. -/

namespace LocalTables

/-- Size of the header and of each meta page. -/
def headerSize : Nat := 4096
def metaPageSize : Nat := 4096

def metaAOffset : Nat := headerSize
def metaBOffset : Nat := headerSize + metaPageSize

/-- First byte available for segments, delete vectors and manifests. -/
def dataStart : Nat := headerSize + 2 * metaPageSize

def bufferAlign : Nat := 64
def segmentAlign : Nat := 4096

/-- A contiguous byte range inside the table file. -/
structure Extent where
  offset : Nat
  len : Nat
  deriving DecidableEq, Repr

namespace Extent

def empty : Extent := ⟨0, 0⟩

/-- The first byte past the extent (`end` in the source). -/
def stop (e : Extent) : Nat := e.offset + e.len

def isEmpty (e : Extent) : Bool := e.len == 0

def overlaps (a b : Extent) : Bool := decide (a.offset < b.stop) && decide (b.offset < a.stop)

@[simp] theorem stop_mk (offset len : Nat) : (Extent.mk offset len).stop = offset + len := rfl
@[simp] theorem stop_empty : Extent.empty.stop = 0 := rfl
@[simp] theorem isEmpty_iff (e : Extent) : e.isEmpty = true ↔ e.len = 0 := by simp [isEmpty]

theorem offset_lt_stop {e : Extent} (h : 0 < e.len) : e.offset < e.stop := by
  simp only [stop]; omega

/-- Extents that do not overlap, in the form the proofs use. -/
abbrev Apart (a b : Extent) : Prop := Interval.Apart Extent.offset Extent.stop a b

theorem apart_iff_not_overlaps (a b : Extent) : a.Apart b ↔ a.overlaps b = false := by
  simp only [Interval.Apart, overlaps, Bool.and_eq_false_iff, decide_eq_false_iff_not, not_lt]
  exact or_comm

/-- How many extents of the list contain the byte. -/
def coverAt (extents : List Extent) (byte : Nat) : Nat :=
  Interval.coverAt Extent.offset Extent.stop extents byte

@[simp] theorem coverAt_nil (byte : Nat) : coverAt [] byte = 0 := rfl

theorem coverAt_cons (e : Extent) (extents : List Extent) (byte : Nat) :
    coverAt (e :: extents) byte =
      (if e.offset ≤ byte ∧ byte < e.stop then 1 else 0) + coverAt extents byte :=
  Interval.coverAt_cons e extents byte

@[simp] theorem coverAt_append (left right : List Extent) (byte : Nat) :
    coverAt (left ++ right) byte = coverAt left byte + coverAt right byte :=
  Interval.coverAt_append left right byte

theorem coverAt_perm {left right : List Extent} (h : left.Perm right) (byte : Nat) :
    coverAt left byte = coverAt right byte :=
  Interval.coverAt_perm h byte

theorem coverAt_pos {extents : List Extent} {e : Extent} (he : e ∈ extents) {byte : Nat}
    (hlo : e.offset ≤ byte) (hhi : byte < e.stop) : 0 < coverAt extents byte :=
  Interval.coverAt_pos he hlo hhi

theorem coverAt_eq_zero {extents : List Extent} {byte : Nat} (h : ∀ e ∈ extents, e.stop ≤ byte) :
    coverAt extents byte = 0 :=
  Interval.coverAt_eq_zero h

@[simp] theorem coverAt_empty (byte : Nat) : coverAt [Extent.empty] byte = 0 := by
  rw [coverAt_cons, stop_empty, if_neg (by omega), coverAt_nil]

/-- A list of non-empty extents that covers no byte twice is pairwise disjoint. -/
theorem pairwise_apart {extents : List Extent} (hpos : ∀ e ∈ extents, 0 < e.len)
    (h : ∀ byte, coverAt extents byte ≤ 1) : extents.Pairwise Apart :=
  Interval.pairwise_apart (fun e he => offset_lt_stop (hpos e he)) h

/-- Two extents with bytes that a list counts once each are apart. -/
theorem apart_of_coverAt {a b : Extent} {left right : List Extent} (ha : a ∈ left) (hb : b ∈ right)
    (h : ∀ byte, coverAt left byte + coverAt right byte ≤ 1) : 0 < a.len → 0 < b.len → a.Apart b := by
  intro hapos hbpos
  by_contra hne
  simp only [Interval.Apart, not_or, not_le] at hne
  have halo := offset_lt_stop hapos
  have hblo := offset_lt_stop hbpos
  have hleft : 0 < coverAt left (max a.offset b.offset) := coverAt_pos ha (le_max_left _ _) (by omega)
  have hright : 0 < coverAt right (max a.offset b.offset) :=
    coverAt_pos hb (le_max_right _ _) (by omega)
  have hmax := h (max a.offset b.offset)
  omega

/-- Two extents with a byte in common. -/
def Shares (a b : Extent) : Prop :=
  ∃ byte, (a.offset ≤ byte ∧ byte < a.stop) ∧ b.offset ≤ byte ∧ byte < b.stop

theorem shares_iff (a b : Extent) : a.Shares b ↔ max a.offset b.offset < min a.stop b.stop := by
  constructor
  · rintro ⟨byte, ⟨halo, hahi⟩, hblo, hbhi⟩
    omega
  · intro h
    exact ⟨max a.offset b.offset, ⟨le_max_left _ _, by omega⟩, le_max_right _ _, by omega⟩

instance (a b : Extent) : Decidable (a.Shares b) := decidable_of_iff _ (shares_iff a b).symm

theorem apart_of_not_shares {a b : Extent} (h : ¬a.Shares b) (ha : 0 < a.len) (hb : 0 < b.len) : a.Apart b := by
  rw [shares_iff] at h
  have hstopA : a.stop = a.offset + a.len := rfl
  have hstopB : b.stop = b.offset + b.len := rfl
  change a.stop ≤ b.offset ∨ b.stop ≤ a.offset
  omega

theorem not_shares_of_coverAt {a b : Extent} {left right : List Extent} (ha : a ∈ left) (hb : b ∈ right)
    (h : ∀ byte, coverAt left byte + coverAt right byte ≤ 1) : ¬a.Shares b := by
  rintro ⟨byte, ⟨halo, hahi⟩, hblo, hbhi⟩
  have hbyte := h byte
  have hleft := coverAt_pos ha halo hahi
  have hright := coverAt_pos hb hblo hbhi
  omega

theorem pairwise_not_shares {extents : List Extent} (h : ∀ byte, coverAt extents byte ≤ 1) :
    extents.Pairwise fun a b => ¬a.Shares b := by
  induction extents with
  | nil => exact List.Pairwise.nil
  | cons a extents ih =>
      refine List.pairwise_cons.mpr ⟨fun b hb => ?_, ih fun byte => ?_⟩
      · refine not_shares_of_coverAt (List.mem_singleton_self a) hb fun byte => ?_
        have hbyte := h byte
        rw [coverAt_cons] at hbyte ⊢
        exact hbyte
      · have hbyte := h byte
        rw [coverAt_cons] at hbyte
        omega

theorem coverAt_le_one {extents : List Extent} (h : extents.Pairwise fun a b => ¬a.Shares b) (byte : Nat) :
    coverAt extents byte ≤ 1 := by
  induction extents with
  | nil => exact Nat.zero_le 1
  | cons a extents ih =>
      obtain ⟨ha, hrest⟩ := List.pairwise_cons.mp h
      rw [coverAt_cons]
      split
      · next hin =>
          have hzero : coverAt extents byte = 0 := by
            refine List.countP_eq_zero.mpr fun b hb hcovers => ?_
            exact ha b hb ⟨byte, hin, by simpa using hcovers⟩
          omega
      · have := ih hrest
        omega

end Extent

/-- Round up to the next multiple of `align`, a power of two: clearing the bits below it is
`& !(align - 1)` in the source. -/
def alignUp (value align : Nat) : Nat :=
  (value + align - 1) - ((value + align - 1) &&& (align - 1))

theorem alignUp_two_pow (value k : Nat) :
    alignUp value (2 ^ k) = 2 ^ k * ((value + 2 ^ k - 1) / 2 ^ k) := by
  rw [alignUp, Nat.and_two_pow_sub_one_eq_mod]
  have := Nat.div_add_mod (value + 2 ^ k - 1) (2 ^ k)
  omega

theorem dvd_alignUp {align : Nat} (h : align.isPowerOfTwo) (value : Nat) : align ∣ alignUp value align := by
  obtain ⟨k, rfl⟩ := h
  rw [alignUp_two_pow]
  exact Nat.dvd_mul_right _ _

theorem le_alignUp {align : Nat} (h : align.isPowerOfTwo) (value : Nat) : value ≤ alignUp value align := by
  obtain ⟨k, rfl⟩ := h
  rw [alignUp_two_pow]
  have hpos : 0 < 2 ^ k := Nat.two_pow_pos k
  have hmod := Nat.mod_lt (value + 2 ^ k - 1) hpos
  have := Nat.div_add_mod (value + 2 ^ k - 1) (2 ^ k)
  omega

theorem isPowerOfTwo_bufferAlign : bufferAlign.isPowerOfTwo := ⟨6, rfl⟩
theorem isPowerOfTwo_segmentAlign : segmentAlign.isPowerOfTwo := ⟨12, rfl⟩

end LocalTables
