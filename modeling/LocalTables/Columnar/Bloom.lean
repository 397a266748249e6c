import LocalTables.Columnar.Arrow
import LocalTables.Lib.Except
import Mathlib.Data.List.Forall2

/-! Membership filters (`columnar/bloom.rs`), over one canonical byte form for each value (`valuecodec.rs`). A filter is
whole blocks of eight words; a hash picks a block and sets a bit in each of its words, so a filter only ever fills up. -/

namespace LocalTables

/-- Hashing, and the order in which a hash set hands out its elements. -/
structure Hashing where
  checksum : Bytes → UInt64
  drain : List UInt64 → List UInt64
  drain_perm : ∀ hashes, (drain hashes).Perm hashes

section Valuecodec

def nullTag : UInt8 := 0x00

def valueTag : UInt8 := 0x01

/-- The highest byte first. -/
def beBytes (width n : Nat) : Bytes := ((List.range width).map fun i => UInt8.ofNat (n / 256 ^ i)).reverse

/-- Write a variable-length value with its escape and terminator. -/
def encodeBytes (bytes : Bytes) : Bytes :=
  bytes.flatMap (fun byte => if byte = 0x00 then [byte, 0xFF] else [byte]) ++ [0x00, 0x00]

/-- Map a float onto an unsigned integer that compares the same way. Negative zero becomes positive zero first. -/
def orderPreserving (width bits : Nat) : Nat :=
  let sign := 256 ^ width / 2
  let bits := if bits = sign then 0 else bits
  if bits ≥ sign then 256 ^ width - 1 - bits else bits + sign

/-- The arms of `encode_value`. -/
inductive KeyForm where
  | boolean
  | signed (width : Nat)
  | unsigned (width : Nat)
  | float (width : Nat)
  | bytes

/-- Which arm a type takes. -/
def LeafType.keyForm : LeafType → Option KeyForm
  | boolean => some .boolean
  | int8 => some (.signed 1)
  | int16 => some (.signed 2)
  | int32 => some (.signed 4)
  | int64 => some (.signed 8)
  | uint8 => some (.unsigned 1)
  | uint16 => some (.unsigned 2)
  | uint32 => some (.unsigned 4)
  | uint64 => some (.unsigned 8)
  | date32 => some (.signed 4)
  | date64 => some (.signed 8)
  | time32 .second | time32 .millisecond => some (.signed 4)
  | time64 .microsecond | time64 .nanosecond => some (.signed 8)
  | timestamp _ _ => some (.signed 8)
  | float32 => some (.float 4)
  | float64 => some (.float 8)
  | utf8 | largeUtf8 | binary | largeBinary | utf8View | binaryView => some .bytes
  | _ => none

/-- The bytes of a value that is not null. -/
def KeyForm.write : KeyForm → Value → Except Error Bytes
  | boolean, .boolean value => .ok [if value then 1 else 0]
  -- flipping the sign bit maps the signed range onto the unsigned one in order
  | signed width, .word bits => .ok (beBytes width ((bits + 256 ^ width / 2) % 256 ^ width))
  | unsigned width, .word bits => .ok (beBytes width bits)
  | float width, .word bits => .ok (beBytes width (orderPreserving width bits))
  | bytes, .bytes value => .ok (encodeBytes value)
  | _, _ => .error (.arrow "a value is not of the type of its array")

/-- The one byte form of a column's value. -/
def encodeValue (type : DataType) (value : Option Value) : Except Error Bytes :=
  match value with
  | none => .ok [nullTag]
  | some value =>
      match type with
      | .leaf type =>
          match type.keyForm with
          | some form => do
              let bytes ← form.write value
              return valueTag :: bytes
          | none => .error (.unsupported "a type cannot be part of a key")
      | _ => .error (.unsupported "a type cannot be part of a key")

/-- True when this type can be part of a key. Every unit of a time of day passes here. -/
def isEncodable : DataType → Bool
  | .leaf (.time32 _) | .leaf (.time64 _) => true
  | .leaf type => type.keyForm.isSome
  | _ => false

end Valuecodec

/-- Words in a block. -/
def wordsPerBlock : Nat := 8

def bitsPerBlock : Nat := wordsPerBlock * 32

/-- Odd constants that spread one hash across the eight words of a block. -/
def salt : List UInt32 :=
  [0x47b6137b, 0x44974d91, 0x8824ad5b, 0xa2b7289d, 0x705495c7, 0x2df1424b, 0x9efc4947, 0x5c6bfb31]

/-- A membership filter over one column chunk: whole blocks of words, and at least one of them. -/
@[ext]
structure BloomFilter where
  words : List UInt32
  whole : wordsPerBlock ∣ words.length
  nonempty : words ≠ []

/-- Four bytes, the lowest first. -/
def leWord (word : UInt32) : Bytes :=
  [UInt8.ofNat word.toNat, UInt8.ofNat (word.toNat / 256), UInt8.ofNat (word.toNat / 256 ^ 2), UInt8.ofNat (word.toNat / 256 ^ 3)]

/-- The words some bytes spell, four at a time. What is left over is dropped. -/
def wordsOf : Bytes → List UInt32
  | a :: b :: c :: d :: rest => UInt32.ofNat (ofLe [a, b, c, d]) :: wordsOf rest
  | _ => []

theorem length_wordsOf (bytes : Bytes) : (wordsOf bytes).length = bytes.length / 4 := by
  induction bytes using wordsOf.induct with
  | case1 a b c d rest ih =>
      rw [wordsOf, List.length_cons, ih]
      simp only [List.length_cons]
      omega
  | case2 bytes hshort =>
      have hlen : bytes.length < 4 := by
        by_contra hge
        match bytes, hshort, hge with
        | [], _, hge | [_], _, hge | [_, _], _, hge | [_, _, _], _, hge => simp at hge
        | a :: b :: c :: d :: rest, hshort, _ => exact hshort a b c d rest rfl
      rw [wordsOf.eq_2 bytes hshort, List.length_nil, Nat.div_eq_of_lt hlen]

namespace BloomFilter

/-- A filter of empty blocks. -/
def ofBlocks (blocks : Nat) (h : 0 < blocks) : BloomFilter where
  words := List.replicate (blocks * wordsPerBlock) 0
  whole := by simp
  nonempty := by
    rw [Ne, List.replicate_eq_nil_iff]
    exact (Nat.mul_pos h (by decide)).ne'

/-- A filter sized for `values` values. The product wraps around, as one of two machine words does. -/
def withCapacity (values bitsPerValue : Nat) : BloomFilter :=
  let bits := max values 1 * max bitsPerValue 1 % 2 ^ 64
  ofBlocks (max ((bits + (bitsPerBlock - 1)) / bitsPerBlock) 1) (Nat.lt_of_lt_of_le Nat.one_pos (Nat.le_max_right _ _))

/-- Read a filter back from its stored bytes. -/
def fromBytes (bytes : Bytes) : Except Error BloomFilter :=
  if h : bytes.length % (wordsPerBlock * 4) = 0 ∧ bytes ≠ [] then
    .ok {
      words := wordsOf bytes
      whole := by
        rw [length_wordsOf]
        simp only [wordsPerBlock] at h ⊢
        omega
      nonempty := by
        have hpos := List.length_pos_iff.mpr h.2
        rw [← List.length_pos_iff, length_wordsOf]
        simp only [wordsPerBlock] at h
        omega }
  else .error (.corrupt s!"a membership filter is {bytes.length} bytes, which is not whole blocks")

variable (f : BloomFilter)

/-- The stored form. -/
def toBytes : Bytes := f.words.flatMap leWord

def byteLen : Nat := f.words.length * 4

def blocks : Nat := f.words.length / wordsPerBlock

/-- The bit a hash sets in each word of its block: the top five bits of the salted hash choose it. -/
def maskOf (hash : UInt64) : List UInt32 := salt.map fun salt => (1 : UInt32) <<< ((hash.toUInt32 * salt) >>> 27)

/-- Where in the filter a hash lands, and which bits it sets there. The high half picks the block, scaled and not masked. -/
def locate (hash : UInt64) : Nat × List UInt32 :=
  let block := (hash >>> 32).toNat * f.blocks / 2 ^ 32
  (block * wordsPerBlock, maskOf hash)

/-- The words of the block that starts at `base`. -/
def block (base : Nat) : List UInt32 := (f.words.drop base).take wordsPerBlock

theorem blocks_pos : 0 < f.blocks := by
  have hlen := List.length_pos_iff.mpr f.nonempty
  have hwhole := f.whole
  simp only [blocks, wordsPerBlock] at hwhole ⊢
  omega

/-- Every word of the block a hash lands in is a word of the filter. -/
theorem locate_le (hash : UInt64) : (f.locate hash).1 + wordsPerBlock ≤ f.words.length := by
  have hhigh : (hash >>> 32).toNat < 2 ^ 32 := by
    rw [UInt64.toNat_shiftRight]
    have hlt : hash.toNat < 2 ^ 64 := hash.toNat_lt
    rw [show (32 : UInt64).toNat % 64 = 32 from rfl, Nat.shiftRight_eq_div_pow]
    exact Nat.div_lt_of_lt_mul hlt
  have hblock : (hash >>> 32).toNat * f.blocks / 2 ^ 32 < f.blocks := by
    rw [Nat.div_lt_iff_lt_mul (by decide), Nat.mul_comm f.blocks]
    exact Nat.mul_lt_mul_of_pos_right hhigh f.blocks_pos
  have hwhole : f.blocks * wordsPerBlock = f.words.length := Nat.div_mul_cancel f.whole
  rw [locate, ← hwhole]
  calc (hash >>> 32).toNat * f.blocks / 2 ^ 32 * wordsPerBlock + wordsPerBlock
    _ = ((hash >>> 32).toNat * f.blocks / 2 ^ 32 + 1) * wordsPerBlock := by rw [Nat.succ_mul]
    _ ≤ f.blocks * wordsPerBlock := Nat.mul_le_mul_right _ hblock

theorem length_maskOf (hash : UInt64) : (maskOf hash).length = wordsPerBlock := rfl

theorem length_block {base : Nat} (h : base + wordsPerBlock ≤ f.words.length) : (f.block base).length = wordsPerBlock := by
  rw [block, List.length_take, List.length_drop]
  omega

/-- The words with the bits of a hash set. -/
def wordsWith (hash : UInt64) : List UInt32 :=
  let (base, mask) := f.locate hash
  f.words.take base ++ List.zipWith (· ||| ·) (f.block base) mask ++ f.words.drop (base + wordsPerBlock)

theorem length_wordsWith (hash : UInt64) : (f.wordsWith hash).length = f.words.length := by
  have hle := f.locate_le hash
  have hmask : (f.locate hash).2.length = wordsPerBlock := length_maskOf hash
  rw [wordsWith]
  simp only [List.length_append, List.length_zipWith, List.length_take, List.length_drop, f.length_block hle, hmask]
  omega

/-- Set the bits of a hash. -/
def insertHash (hash : UInt64) : BloomFilter where
  words := f.wordsWith hash
  whole := f.length_wordsWith hash ▸ f.whole
  nonempty := by
    rw [← List.length_pos_iff, length_wordsWith]
    exact List.length_pos_iff.mpr f.nonempty

/-- True when the hash may be present. -/
def mayContainHash (hash : UInt64) : Bool :=
  let (base, mask) := f.locate hash
  ((f.block base).zip mask).all fun (word, bit) => word &&& bit != 0

section Bits

theorem and_or_left (word bit : UInt32) : word &&& (word ||| bit) = word := by
  apply UInt32.toBitVec_inj.mp
  ext i
  simpa using Or.inl

theorem or_and_right (word bit : UInt32) : (word ||| bit) &&& bit = bit := by
  apply UInt32.toBitVec_inj.mp
  ext i
  simpa using Or.inr

theorem and_ne_zero {word word' bit : UInt32} (h : word &&& word' = word) (hbit : word &&& bit ≠ 0) : word' &&& bit ≠ 0 := by
  rintro hzero
  apply hbit
  rw [← h, UInt32.and_assoc, hzero, UInt32.and_zero]

theorem maskOf_ne_zero {hash : UInt64} {bit : UInt32} (h : bit ∈ maskOf hash) : bit ≠ 0 := by
  obtain ⟨salt, -, rfl⟩ := List.mem_map.mp h
  generalize hash.toUInt32 * salt = salted
  have hlt : (salted >>> 27).toNat < 32 := by
    rw [UInt32.toNat_shiftRight, show (27 : UInt32).toNat % 32 = 27 from rfl, Nat.shiftRight_eq_div_pow]
    exact Nat.div_lt_of_lt_mul salted.toNat_lt
  intro hzero
  have hpow := congrArg UInt32.toNat hzero
  rw [UInt32.toNat_shiftLeft, Nat.mod_eq_of_lt hlt, show (1 : UInt32).toNat = 1 from rfl, Nat.one_shiftLeft,
    Nat.mod_eq_of_lt (Nat.pow_lt_pow_right (by decide) hlt)] at hpow
  exact absurd hpow (Nat.pow_pos (by decide)).ne'

end Bits

variable {f}

/-- What is set in one list of words is set in the other. -/
def Within (words words' : List UInt32) : Prop := List.Forall₂ (fun word word' => word &&& word' = word) words words'

theorem within_refl (words : List UInt32) : Within words words :=
  List.forall₂_same.mpr fun _ _ => UInt32.and_self

theorem within_or : ∀ {words mask : List UInt32}, words.length = mask.length → Within words (List.zipWith (· ||| ·) words mask)
  | [], _, _ => .nil
  | _ :: _, [], h => by cases h
  | word :: _, bit :: _, h => .cons (and_or_left word bit) (within_or (Nat.succ.inj h))

theorem within_insertHash (f : BloomFilter) (hash : UInt64) : Within f.words (f.insertHash hash).words := by
  have hle := f.locate_le hash
  have hsplit : f.words = f.words.take (f.locate hash).1 ++ f.block (f.locate hash).1 ++
      f.words.drop ((f.locate hash).1 + wordsPerBlock) := by
    rw [block, List.append_assoc, ← List.drop_drop, List.take_append_drop, List.take_append_drop]
  conv => lhs; rw [hsplit]
  have hmask : (f.locate hash).2.length = wordsPerBlock := length_maskOf hash
  exact List.rel_append (List.rel_append (within_refl _) (within_or ((f.length_block hle).trans hmask.symm))) (within_refl _)

theorem Within.mayContainHash {g : BloomFilter} (h : Within f.words g.words) {hash : UInt64}
    (hmay : f.mayContainHash hash = true) : g.mayContainHash hash = true := by
  have hblocks : g.blocks = f.blocks := by rw [blocks, blocks, h.length_eq]
  have hlocate : g.locate hash = f.locate hash := by rw [locate, locate, hblocks]
  have hblock : Within (f.block (f.locate hash).1) (g.block (f.locate hash).1) := List.forall₂_take _ (List.forall₂_drop _ h)
  simp only [BloomFilter.mayContainHash, hlocate] at hmay ⊢
  generalize f.block (f.locate hash).1 = words at hmay hblock
  generalize g.block (f.locate hash).1 = words' at hblock ⊢
  generalize (f.locate hash).2 = mask at hmay ⊢
  induction hblock generalizing mask with
  | nil => rfl
  | cons hword _ ih =>
      cases mask with
      | nil => rfl
      | cons bit mask =>
          simp only [List.zip_cons_cons, List.all_cons, Bool.and_eq_true, bne_iff_ne] at hmay ⊢
          exact ⟨and_ne_zero hword hmay.1, ih mask hmay.2⟩

theorem mayContainHash_insertHash (f : BloomFilter) (hash : UInt64) : (f.insertHash hash).mayContainHash hash = true := by
  have hle := f.locate_le hash
  have hblocks : (f.insertHash hash).blocks = f.blocks := by rw [blocks, blocks, insertHash, length_wordsWith]
  have hlocate : (f.insertHash hash).locate hash = f.locate hash := by rw [locate, locate, hblocks]
  have hblock : (f.insertHash hash).block (f.locate hash).1 =
      List.zipWith (· ||| ·) (f.block (f.locate hash).1) (f.locate hash).2 := by
    have htake : (f.words.take (f.locate hash).1).length = (f.locate hash).1 := by
      rw [List.length_take]
      omega
    have hmask : (f.locate hash).2.length = wordsPerBlock := length_maskOf hash
    have hzip : (List.zipWith (· ||| ·) (f.block (f.locate hash).1) (f.locate hash).2).length = wordsPerBlock := by
      rw [List.length_zipWith, f.length_block hle, hmask, Nat.min_self]
    change ((f.wordsWith hash).drop (f.locate hash).1).take wordsPerBlock = _
    rw [wordsWith]
    dsimp only
    rw [List.append_assoc, List.drop_left' htake, List.take_left' hzip]
  have hbits : ∀ bit ∈ (f.locate hash).2, bit ≠ 0 := fun bit hbit => maskOf_ne_zero hbit
  simp only [mayContainHash, hlocate, hblock]
  generalize f.block (f.locate hash).1 = words
  generalize (f.locate hash).2 = mask at hbits ⊢
  induction mask generalizing words with
  | nil => simp
  | cons bit mask ih =>
      cases words with
      | nil => rfl
      | cons word words =>
          obtain ⟨hbit, hrest⟩ := List.forall_mem_cons.mp hbits
          rw [List.zipWith_cons_cons, List.zip_cons_cons, List.all_cons, Bool.and_eq_true, bne_iff_ne, or_and_right]
          exact ⟨hbit, ih words hrest⟩

/-- Every hash set along the way is found at the end. -/
theorem mayContainHash_foldl {hashes : List UInt64} {hash : UInt64} (h : hash ∈ hashes) (f : BloomFilter) :
    (hashes.foldl insertHash f).mayContainHash hash = true := by
  have hkept : ∀ (hashes : List UInt64) (f : BloomFilter), f.mayContainHash hash = true →
      (hashes.foldl insertHash f).mayContainHash hash = true := by
    intro hashes
    induction hashes with
    | nil => exact fun f hmay => hmay
    | cons other hashes ih => exact fun f hmay => ih _ ((within_insertHash f other).mayContainHash hmay)
  induction hashes generalizing f with
  | nil => cases h
  | cons other hashes ih =>
      rcases List.mem_cons.mp h with rfl | hrest
      · exact hkept hashes _ (mayContainHash_insertHash f hash)
      · exact ih hrest _

section Bytes

theorem ofLe_leWord (word : UInt32) : UInt32.ofNat (ofLe (leWord word)) = word := by
  have hlt : word.toNat < 2 ^ 32 := word.toNat_lt
  apply UInt32.toNat_inj.mp
  simp only [ofLe, leWord, List.foldr_cons, List.foldr_nil, UInt8.toNat_ofNat', UInt32.toNat_ofNat']
  omega

theorem wordsOf_flatMap (words : List UInt32) : wordsOf (words.flatMap leWord) = words := by
  induction words with
  | nil => rfl
  | cons word words ih =>
      rw [List.flatMap_cons, leWord, List.cons_append, List.cons_append, List.cons_append, List.cons_append,
        List.nil_append, wordsOf, ih]
      congr 1
      exact ofLe_leWord word

theorem length_toBytes (f : BloomFilter) : f.toBytes.length = f.byteLen := by
  rw [toBytes, List.length_flatMap, byteLen]
  simp [leWord]

/-- What is stored of a filter reads back as the filter. -/
theorem fromBytes_toBytes (f : BloomFilter) : fromBytes f.toBytes = .ok f := by
  have hlen := f.length_toBytes
  have hwhole := f.whole
  have hpos := List.length_pos_iff.mpr f.nonempty
  have hwords : f.toBytes.length % (wordsPerBlock * 4) = 0 ∧ f.toBytes ≠ [] := by
    constructor
    · rw [hlen, byteLen, Nat.mul_mod_mul_right, Nat.mod_eq_zero_of_dvd hwhole]
    · rw [← List.length_pos_iff, hlen, byteLen]
      omega
  rw [fromBytes, dif_pos hwords]
  congr 1
  exact BloomFilter.ext (wordsOf_flatMap f.words)

end Bytes

/-- True for the types a value can be hashed canonically as. -/
def supports (type : DataType) : Bool := isEncodable type

/-- The hashes of an array's non-null values, each of them once. -/
def hashesOf (H : Hashing) (array : ArrowArray) : Except Error (List UInt64) :=
  (List.range array.len).foldlM (fun hashes row =>
    if array.isNull row then return hashes
    else do
      let bytes ← encodeValue array.dataType (array.value row)
      return hashes.insert (H.checksum bytes)) []

/-- Build a filter over an array's non-null values, sized by the number of distinct ones. -/
def build (H : Hashing) (array : ArrowArray) (bitsPerValue : Nat) : Except Error (Option BloomFilter) :=
  if ¬supports array.dataType ∨ array.len = 0 then .ok none
  else do
    let hashes ← hashesOf H array
    if hashes.isEmpty then
      return none
    else
      return some ((H.drain hashes).foldl insertHash (withCapacity hashes.length bitsPerValue))

/-- The hash of a one-element array's value, as the column's type. A null says nothing, and neither does a value that cannot
be cast. -/
def hashValue (H : Hashing) (cast : ArrayRef DataType Value → DataType → Option (ArrayRef DataType Value))
    (value : ArrayRef DataType Value) (dataType : DataType) : Option UInt64 :=
  if value.values.length ≠ 1 ∨ value.values[0]? = some none then none
  else
    (if value.dataType = dataType then some value else cast value dataType).bind fun array =>
      if array.values[0]? = some none then none
      else
        match encodeValue array.dataType (array.values[0]?).join with
        | .ok bytes => some (H.checksum bytes)
        | .error _ => none

/-- True when this value may be present in the chunk. -/
def mayContain (H : Hashing) (cast : ArrayRef DataType Value → DataType → Option (ArrayRef DataType Value)) (f : BloomFilter)
    (value : ArrayRef DataType Value) (dataType : DataType) : Bool :=
  match hashValue H cast value dataType with
  | none => true
  | some hash => f.mayContainHash hash

variable {H : Hashing} {array : ArrowArray}

/-- The value of every row that is not null is among the hashes. -/
theorem hashesOf_mem {hashes : List UInt64} (h : hashesOf H array = .ok hashes) {row : Nat} (hrow : row < array.len)
    (hnull : array.isNull row = false) :
    ∃ bytes, encodeValue array.dataType (array.value row) = .ok bytes ∧ H.checksum bytes ∈ hashes := by
  have hrun : ∀ (count : Nat) (hashes : List UInt64), (List.range count).foldlM (fun hashes row =>
      if array.isNull row then return hashes
      else do
        let bytes ← encodeValue array.dataType (array.value row)
        return hashes.insert (H.checksum bytes)) [] = (.ok hashes : Except Error (List UInt64)) →
      ∀ row < count, array.isNull row = false →
        ∃ bytes, encodeValue array.dataType (array.value row) = .ok bytes ∧ H.checksum bytes ∈ hashes := by
    intro count
    induction count with
    | zero => exact fun hashes _ row hrow => absurd hrow (Nat.not_lt_zero row)
    | succ count ih =>
        intro hashes hfold row hrow hnull
        rw [List.range_succ, List.foldlM_append] at hfold
        obtain ⟨before, hbefore, hlast⟩ := bind_eq_ok.mp hfold
        rw [List.foldlM_cons] at hlast
        obtain ⟨after, hafter, hdone⟩ := bind_eq_ok.mp hlast
        obtain rfl := Except.ok.inj hdone
        rcases Nat.lt_succ_iff_lt_or_eq.mp hrow with hlt | rfl
        · obtain ⟨bytes, hbytes, hmem⟩ := ih before hbefore row hlt hnull
          refine ⟨bytes, hbytes, ?_⟩
          split at hafter
          · exact Except.ok.inj hafter ▸ hmem
          · obtain ⟨other, -, hinsert⟩ := bind_eq_ok.mp hafter
            rw [← Except.ok.inj hinsert]
            exact List.mem_insert_of_mem hmem
        · rw [if_neg (by simp [hnull])] at hafter
          obtain ⟨bytes, hbytes, hinsert⟩ := bind_eq_ok.mp hafter
          exact ⟨bytes, hbytes, Except.ok.inj hinsert ▸ List.mem_insert_self⟩
  exact hrun array.len hashes h row hrow hnull

/-- A filter finds the value of every row that is not null. -/
theorem build_mayContainHash {bitsPerValue : Nat} {f : BloomFilter} (h : build H array bitsPerValue = .ok (some f)) {row : Nat}
    (hrow : row < array.len) (hnull : array.isNull row = false) :
    ∃ bytes, encodeValue array.dataType (array.value row) = .ok bytes ∧ f.mayContainHash (H.checksum bytes) = true := by
  unfold build at h
  split at h
  · cases h
  · obtain ⟨hashes, hhashes, hfilter⟩ := bind_eq_ok.mp h
    split at hfilter
    · cases hfilter
    · obtain ⟨bytes, hbytes, hmem⟩ := hashesOf_mem hhashes hrow hnull
      rw [← Option.some.inj (Except.ok.inj hfilter)]
      exact ⟨bytes, hbytes, mayContainHash_foldl ((H.drain_perm hashes).mem_iff.mpr hmem) _⟩

end BloomFilter

/-- A hash that adds up bytes. -/
def plainHashing : Hashing where
  checksum bytes := bytes.foldl (fun sum byte => 31 * sum + UInt64.ofNat byte.toNat) 7
  drain hashes := hashes
  drain_perm hashes := .refl hashes

end LocalTables
