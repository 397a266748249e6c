import LocalTables.Columnar.Bloom
import LocalTables.Lib.Bits
import LocalTables.Lib.Like
import Mathlib.Data.List.Sort

/-! Substring pruning for text columns (`columnar/trigram.rs`): a filter over the three-byte pieces of the values, and the
pieces a `LIKE` pattern asks for. -/

namespace LocalTables

/-- Three bytes of text. -/
abbrev Trigram : Type := UInt8 × UInt8 × UInt8

/-- Every trigram of a byte string, in order, with repeats. -/
def trigrams : List UInt8 → List Trigram
  | a :: b :: c :: rest => (a, b, c) :: trigrams (b :: c :: rest)
  | _ => []

/-- The literal runs of a `LIKE` pattern, with the wildcards removed. -/
def fragments (pattern : String) : List (List Char) :=
  (pattern.toList.splitOnP fun c => c == '%' || c == '_').filter fun run => ¬run.isEmpty

/-- The trigrams a value must contain to match this pattern. -/
def required (pattern : String) : List Trigram :=
  (fragments pattern).foldl (fun out fragment =>
    (trigrams (fragment.flatMap String.utf8EncodeChar)).foldl (fun out piece =>
      if piece ∈ out then out else out ++ [piece]) out) []

namespace Trigram

def toList (piece : Trigram) : List UInt8 := [piece.1, piece.2.1, piece.2.2]

/-- True for the types whose values can be cut into trigrams. -/
def supports : DataType → Bool
  | .leaf .utf8 | .leaf .largeUtf8 | .leaf .utf8View | .leaf .binary | .leaf .largeBinary | .leaf .binaryView => true
  | _ => false

/-- The place of a trigram in the bitmap of all of them. -/
def indexOf (piece : Trigram) : Nat := piece.1.toNat * 2 ^ 16 + piece.2.1.toNat * 2 ^ 8 + piece.2.2.toNat

/-- The trigram at a place. -/
def at_ (index : Nat) : Trigram := (UInt8.ofNat (index / 2 ^ 16), UInt8.ofNat (index / 2 ^ 8), UInt8.ofNat index)

/-- A bitmap of every trigram there is, as words of 64 bits, and how many of its bits are set. -/
structure Seen where
  words : List Nat
  distinct : Nat

/-- Set a bit of the bitmap. -/
def Seen.mark (seen : Seen) (index : Nat) : Seen :=
  if Bits.isSet 64 seen.words index then seen else ⟨Bits.setBit 64 seen.words index, seen.distinct + 1⟩

/-- Mark the trigrams of a row, unless it is null. -/
def Seen.visit (array : ArrowArray) (seen : Seen) (row : Nat) : Seen :=
  if array.isNull row then seen
  else
    match array.value row with
    | some (.bytes value) => (trigrams value).foldl (fun seen piece => seen.mark piece.indexOf) seen
    | _ => seen

/-- The trigrams of an array's non-null values. -/
def seenIn (array : ArrowArray) : Seen :=
  (List.range array.len).foldl (Seen.visit array) ⟨List.replicate (2 ^ 24 / 64) 0, 0⟩

/-- Build a trigram filter over an array's non-null values, sized by the number of distinct trigrams. One that would be larger
than `maxBytes` is abandoned. -/
def build (H : Hashing) (array : ArrowArray) (bitsPerValue maxBytes : Nat) : Option BloomFilter :=
  if ¬supports array.dataType ∨ array.len = 0 then none
  else
    let seen := seenIn array
    if seen.distinct = 0 then none
    else
      let filter := BloomFilter.withCapacity seen.distinct bitsPerValue
      if filter.byteLen > maxBytes then none
      else some ((Bits.places 64 seen.words).foldl (fun filter index => filter.insertHash (H.checksum (at_ index).toList)) filter)

theorem at_indexOf (piece : Trigram) : at_ piece.indexOf = piece := by
  obtain ⟨a, b, c⟩ := piece
  have ha := a.toNat_lt
  have hb := b.toNat_lt
  have hc := c.toNat_lt
  refine Prod.ext ?_ (Prod.ext ?_ ?_)
  · apply UInt8.toNat_inj.mp
    simp only [at_, indexOf, UInt8.toNat_ofNat']
    omega
  · apply UInt8.toNat_inj.mp
    simp only [at_, indexOf, UInt8.toNat_ofNat']
    omega
  · apply UInt8.toNat_inj.mp
    simp only [at_, indexOf, UInt8.toNat_ofNat']
    omega

theorem indexOf_lt (piece : Trigram) : piece.indexOf < 2 ^ 24 := by
  have ha := piece.1.toNat_lt
  have hb := piece.2.1.toNat_lt
  have hc := piece.2.2.toNat_lt
  rw [indexOf]
  omega

namespace Seen

variable {seen : Seen} {index other : Nat}

theorem length_mark : (seen.mark index).words.length = seen.words.length := by
  unfold mark
  split
  · rfl
  · exact Bits.length_setBit 64 seen.words index

theorem isSet_mark (hin : index / 64 < seen.words.length) (h : other = index ∨ Bits.isSet 64 seen.words other = true) :
    Bits.isSet 64 (seen.mark index).words other = true := by
  unfold mark
  split
  · next hset =>
      rcases h with rfl | h
      · exact hset
      · exact h
  · exact Bits.isSet_setBit hin h

/-- A walk over trigrams sets the bit of each and clears none. -/
theorem isSet_foldl_mark {pieces : List Trigram} (hlen : seen.words.length = 2 ^ 24 / 64) :
    (pieces.foldl (fun seen piece => seen.mark piece.indexOf) seen).words.length = 2 ^ 24 / 64 ∧
      ∀ other, (other ∈ pieces.map indexOf ∨ Bits.isSet 64 seen.words other = true) →
        Bits.isSet 64 (pieces.foldl (fun seen piece => seen.mark piece.indexOf) seen).words other = true := by
  induction pieces generalizing seen with
  | nil => exact ⟨hlen, fun other h => h.resolve_left (by simp)⟩
  | cons piece pieces ih =>
      have hin : piece.indexOf / 64 < seen.words.length := by
        have := piece.indexOf_lt
        omega
      obtain ⟨hkept, hset⟩ := ih (length_mark.trans hlen)
      refine ⟨hkept, fun other h => hset other ?_⟩
      rw [List.map_cons, List.mem_cons] at h
      rcases h with (rfl | hrest) | hbefore
      · exact .inr (isSet_mark hin (.inl rfl))
      · exact .inl hrest
      · exact .inr (isSet_mark hin (.inr hbefore))

variable {array : ArrowArray}

theorem length_visit (hlen : seen.words.length = 2 ^ 24 / 64) (row : Nat) :
    (seen.visit array row).words.length = 2 ^ 24 / 64 := by
  unfold visit
  split
  · exact hlen
  · split
    · exact (isSet_foldl_mark hlen).1
    · exact hlen

theorem isSet_visit (hlen : seen.words.length = 2 ^ 24 / 64) (row : Nat) (h : Bits.isSet 64 seen.words other = true) :
    Bits.isSet 64 (seen.visit array row).words other = true := by
  unfold visit
  split
  · exact h
  · split
    · exact (isSet_foldl_mark hlen).2 other (.inr h)
    · exact h

end Seen

/-- The trigrams of every row that is not null are in the bitmap. -/
theorem isSet_seenIn {array : ArrowArray} {row : Nat} (hrow : row < array.len) (hnull : array.isNull row = false) {value : Bytes}
    (hvalue : array.value row = some (.bytes value)) {piece : Trigram} (hpiece : piece ∈ trigrams value) :
    Bits.isSet 64 (seenIn array).words piece.indexOf = true := by
  have hrun : ∀ count, ((List.range count).foldl (Seen.visit array) ⟨List.replicate (2 ^ 24 / 64) 0, 0⟩).words.length =
        2 ^ 24 / 64 ∧ (row < count → Bits.isSet 64
          ((List.range count).foldl (Seen.visit array) ⟨List.replicate (2 ^ 24 / 64) 0, 0⟩).words piece.indexOf = true) := by
    intro count
    induction count with
    | zero => exact ⟨List.length_replicate, fun h => absurd h (Nat.not_lt_zero row)⟩
    | succ count ih =>
        rw [List.range_succ, List.foldl_append, List.foldl_cons, List.foldl_nil]
        refine ⟨Seen.length_visit ih.1 count, fun hlt => ?_⟩
        rcases Nat.lt_succ_iff_lt_or_eq.mp hlt with hlt | rfl
        · exact Seen.isSet_visit ih.1 count (ih.2 hlt)
        · rw [Seen.visit, if_neg (by simp [hnull]), hvalue]
          exact (Seen.isSet_foldl_mark ih.1).2 _ (.inl (List.mem_map_of_mem hpiece))
  exact (hrun array.len).2 hrow

/-- A filter finds every trigram of every row that is not null. -/
theorem build_mayContainHash {H : Hashing} {array : ArrowArray} {bitsPerValue maxBytes : Nat} {f : BloomFilter}
    (h : build H array bitsPerValue maxBytes = some f) {row : Nat} (hrow : row < array.len) (hnull : array.isNull row = false)
    {value : Bytes} (hvalue : array.value row = some (.bytes value)) {piece : Trigram} (hpiece : piece ∈ trigrams value) :
    f.mayContainHash (H.checksum piece.toList) = true := by
  unfold build at h
  split at h
  · cases h
  · dsimp only at h
    split at h
    · cases h
    · split at h
      · cases h
      · have hmem := Bits.mem_places (isSet_seenIn hrow hnull hvalue hpiece)
        have hhash : H.checksum piece.toList ∈ (Bits.places 64 (seenIn array).words).map fun index => H.checksum (at_ index).toList :=
          List.mem_map.mpr ⟨_, hmem, by rw [at_indexOf]⟩
        rw [← Option.some.inj h, ← List.foldl_map]
        exact BloomFilter.mayContainHash_foldl hhash _

end Trigram

section Pieces

theorem mem_trigrams {piece : Trigram} {bytes : Bytes} : piece ∈ trigrams bytes ↔ piece.toList <:+: bytes := by
  fun_induction trigrams bytes with
  | case1 a b c rest ih =>
      rw [List.mem_cons, List.infix_cons_iff, ih]
      refine or_congr ?_ Iff.rfl
      obtain ⟨x, y, z⟩ := piece
      simp [Trigram.toList]
  | case2 bytes hshort =>
      refine ⟨(by cases ·), fun h => ?_⟩
      have hlen := h.length_le
      match bytes, hshort with
      | [], _ | [_], _ | [_, _], _ => simp [Trigram.toList] at hlen
      | a :: b :: c :: rest, hshort => exact absurd rfl (hshort a b c rest)

/-- What does not hold a separator stands on one side of it. -/
theorem infix_append_cons {α : Type} {part xs ys : List α} {separator : α} (h : separator ∉ part) :
    part <:+: xs ++ separator :: ys ↔ part <:+: xs ∨ part <:+: ys := by
  constructor
  · intro hpart
    have hstart : ∀ {front : List α}, front <+: separator :: ys → separator ∉ front → front = [] := by
      intro front hfront hfree
      cases front with
      | nil => rfl
      | cons first front =>
          rw [List.cons_prefix_cons] at hfront
          exact absurd (hfront.1 ▸ List.mem_cons_self) hfree
    rcases List.infix_append_iff.mp hpart with hleft | hright | ⟨back, front, rfl, hback, hfront⟩
    · exact .inl hleft
    · rcases List.infix_cons_iff.mp hright with hfront | hright
      · exact .inl (hstart hfront h ▸ List.nil_infix)
      · exact .inr hright
    · rw [hstart hfront fun hmem => h (List.mem_append_right back hmem), List.append_nil]
      exact .inl hback.isInfix
  · rintro (hleft | hright)
    · exact List.infix_append_of_infix_left hleft
    · exact List.infix_append_of_infix_right (List.infix_cons hright)

/-- The bytes of a text. -/
def utf8 (text : List Char) : Bytes := text.flatMap String.utf8EncodeChar

@[simp] theorem utf8_cons (c : Char) (text : List Char) : utf8 (c :: text) = String.utf8EncodeChar c ++ utf8 text := rfl

@[simp] theorem utf8_append (front back : List Char) : utf8 (front ++ back) = utf8 front ++ utf8 back := List.flatMap_append

theorem utf8_isInfix {part text : List Char} (h : part <:+: text) : utf8 part <:+: utf8 text := by
  obtain ⟨front, back, rfl⟩ := h
  rw [utf8_append, utf8_append]
  exact ⟨_, _, rfl⟩

theorem utf8EncodeChar_ascii {c : Char} (h : c.toNat < 0x80) : String.utf8EncodeChar c = [UInt8.ofNat c.toNat] := by
  have hle : c.val.toNat ≤ 127 := Nat.lt_succ_iff.mp h
  simp only [String.utf8EncodeChar, if_pos hle]
  rfl

/-- A byte below 128 stands for a character of its own. -/
theorem eq_of_mem_utf8EncodeChar {c : Char} {byte : UInt8} (h : byte ∈ String.utf8EncodeChar c) (hlow : byte.toNat < 0x80) :
    c.toNat = byte.toNat := by
  simp only [String.utf8EncodeChar] at h
  split at h
  · next hle =>
      rw [List.mem_singleton.mp h, UInt8.toNat_ofNat']
      change c.toNat ≤ 127 at hle
      change c.toNat = c.toNat % 2 ^ 8
      omega
  · -- every byte of a longer character is 128 or above
    exfalso
    split at h
    · simp only [List.mem_cons, List.not_mem_nil, or_false] at h
      rcases h with rfl | rfl <;> rw [UInt8.toNat_ofNat'] at hlow <;> omega
    · split at h
      · simp only [List.mem_cons, List.not_mem_nil, or_false] at h
        rcases h with rfl | rfl | rfl <;> rw [UInt8.toNat_ofNat'] at hlow <;> omega
      · simp only [List.mem_cons, List.not_mem_nil, or_false] at h
        rcases h with rfl | rfl | rfl | rfl <;> rw [UInt8.toNat_ofNat'] at hlow <;> omega

theorem not_mem_utf8 {text : List Char} {byte : UInt8} (hlow : byte.toNat < 0x80)
    (h : ∀ c ∈ text, c.toNat ≠ byte.toNat) : byte ∉ utf8 text := by
  intro hmem
  obtain ⟨c, hc, hbyte⟩ := List.mem_flatMap.mp hmem
  exact h c hc (eq_of_mem_utf8EncodeChar hbyte hlow)

/-- A piece of text that holds no wildcard. -/
def Trigram.Plain (piece : Trigram) : Prop := 0x25 ∉ piece.toList ∧ 0x5F ∉ piece.toList

instance (piece : Trigram) : Decidable piece.Plain := inferInstanceAs (Decidable (_ ∧ _))

theorem mem_required {pattern : String} {piece : Trigram} :
    piece ∈ required pattern ↔ ∃ fragment ∈ pattern.toList.splitOnP fun c => c == '%' || c == '_', piece ∈ trigrams (utf8 fragment) := by
  have hinner : ∀ (pieces out : List Trigram), piece ∈ pieces.foldl (fun out piece =>
      if piece ∈ out then out else out ++ [piece]) out ↔ piece ∈ out ∨ piece ∈ pieces := by
    intro pieces
    induction pieces with
    | nil => simp
    | cons other pieces ih =>
        intro out
        rw [List.foldl_cons, ih, List.mem_cons]
        split
        · next hmem =>
            constructor
            · rintro (hout | hrest)
              · exact .inl hout
              · exact .inr (.inr hrest)
            · rintro (hout | rfl | hrest)
              · exact .inl hout
              · exact .inl hmem
              · exact .inr hrest
        · rw [List.mem_append, List.mem_singleton, or_assoc]
  have houter : ∀ (fragments : List (List Char)) (out : List Trigram), piece ∈ fragments.foldl (fun out fragment =>
      (trigrams (fragment.flatMap String.utf8EncodeChar)).foldl (fun out piece =>
        if piece ∈ out then out else out ++ [piece]) out) out ↔
      piece ∈ out ∨ ∃ fragment ∈ fragments, piece ∈ trigrams (utf8 fragment) := by
    intro fragments
    induction fragments with
    | nil => simp
    | cons fragment fragments ih =>
        intro out
        rw [List.foldl_cons, ih, hinner, List.exists_mem_cons_iff, or_assoc]
        rfl
  rw [required, houter, fragments]
  simp only [List.not_mem_nil, false_or, List.mem_filter]
  constructor
  · rintro ⟨fragment, ⟨hfragment, -⟩, hpiece⟩
    exact ⟨fragment, hfragment, hpiece⟩
  · rintro ⟨fragment, hfragment, hpiece⟩
    refine ⟨fragment, ⟨hfragment, ?_⟩, hpiece⟩
    cases fragment with
    | nil => cases hpiece
    | cons c fragment => rfl

/-- The pieces a pattern is said to require are the pieces of its own text that hold no wildcard. -/
theorem mem_required_iff {pattern : String} {piece : Trigram} :
    piece ∈ required pattern ↔ piece ∈ trigrams (utf8 pattern.toList) ∧ piece.Plain := by
  have hfree : ∀ {fragment : List Char}, (∀ c ∈ fragment, c ≠ '%' ∧ c ≠ '_') → piece ∈ trigrams (utf8 fragment) → piece.Plain := by
    intro fragment hfragment hpiece
    have hsub := (mem_trigrams.mp hpiece).subset
    refine ⟨fun hmem => ?_, fun hmem => ?_⟩
    · have hnone : ∀ c ∈ fragment, c.toNat ≠ (0x25 : UInt8).toNat := fun c hc heq =>
        (hfragment c hc).1 (Char.toNat_inj.mp (heq.trans rfl))
      exact not_mem_utf8 (by decide) hnone (hsub hmem)
    · have hnone : ∀ c ∈ fragment, c.toNat ≠ (0x5F : UInt8).toNat := fun c hc heq =>
        (hfragment c hc).2 (Char.toNat_inj.mp (heq.trans rfl))
      exact not_mem_utf8 (by decide) hnone (hsub hmem)
  have hrun : ∀ (text acc : List Char), (∀ c ∈ acc, c ≠ '%' ∧ c ≠ '_') →
      ((∃ fragment ∈ List.splitOnPPrepend (fun c => c == '%' || c == '_') text acc, piece ∈ trigrams (utf8 fragment)) ↔
        piece ∈ trigrams (utf8 (acc.reverse ++ text)) ∧ piece.Plain) := by
    intro text
    induction text with
    | nil =>
        intro acc hacc
        rw [List.splitOnPPrepend_nil, List.append_nil]
        constructor
        · rintro ⟨fragment, hfragment, hpiece⟩
          obtain rfl := List.mem_singleton.mp hfragment
          exact ⟨hpiece, hfree (fun c hc => hacc c (List.mem_reverse.mp hc)) hpiece⟩
        · exact fun h => ⟨_, List.mem_singleton_self _, h.1⟩
    | cons c text ih =>
        intro acc hacc
        by_cases hwild : c = '%' ∨ c = '_'
        · have hc : (fun c => c == '%' || c == '_') c = true := by simpa using hwild
          have hnone := ih [] (fun c hc => by cases hc)
          rw [List.splitOnPPrepend_nil_right, List.reverse_nil, List.nil_append] at hnone
          rw [List.splitOnPPrepend_cons_pos (p := fun c => c == '%' || c == '_') hc, List.exists_mem_cons_iff, hnone, utf8_append, utf8_cons]
          have hbyte : String.utf8EncodeChar c = [0x25] ∨ String.utf8EncodeChar c = [0x5F] := by
            rcases hwild with rfl | rfl
            · exact .inl rfl
            · exact .inr rfl
          have hsides : piece.Plain → (piece ∈ trigrams (utf8 acc.reverse ++ (String.utf8EncodeChar c ++ utf8 text)) ↔
              piece ∈ trigrams (utf8 acc.reverse) ∨ piece ∈ trigrams (utf8 text)) := by
            intro hplain
            rw [mem_trigrams, mem_trigrams, mem_trigrams]
            rcases hbyte with h | h
            · rw [h]
              exact infix_append_cons hplain.1
            · rw [h]
              exact infix_append_cons hplain.2
          constructor
          · rintro (hleft | ⟨hright, hplain⟩)
            · have hplain := hfree (fun c hc => hacc c (List.mem_reverse.mp hc)) hleft
              exact ⟨(hsides hplain).mpr (.inl hleft), hplain⟩
            · exact ⟨(hsides hplain).mpr (.inr hright), hplain⟩
          · rintro ⟨hpiece, hplain⟩
            exact ((hsides hplain).mp hpiece).imp id fun hright => ⟨hright, hplain⟩
        · have hc : (fun c => c == '%' || c == '_') c = false := by simpa using hwild
          rw [List.splitOnPPrepend_cons_neg (p := fun c => c == '%' || c == '_') hc, ih (c :: acc) ?_, List.reverse_cons, List.append_assoc]
          · rfl
          · intro other hother
            rcases List.mem_cons.mp hother with rfl | hother
            · exact not_or.mp hwild
            · exact hacc other hother
  have := hrun pattern.toList [] fun c hc => by cases hc
  rw [List.splitOnPPrepend_nil_right] at this
  rw [mem_required, this]
  rfl

end Pieces

end LocalTables
