import KubuCore.Base.VarInt
import KubuCore.Nickname.Operation

/-!
# Serialized fields

The fields of `serialize.h`: fixed-width numbers, hashes, flags, and vectors
with their length in front. Every field reads back whatever follows it, and the
lengths and the `VARINT` numbers have one encoding each (`encodings_unique`).
-/

namespace KubuCore.Nickname

open Script
open VarInt

/-! ## Fields -/

def writeCompactSize (nSize : Nat) : Bytes :=
  if nSize < 253 then [UInt8.ofNat nSize]
  else if nSize ≤ 0xffff then 253 :: writeLE 2 nSize
  else if nSize ≤ 0xffffffff then 254 :: writeLE 4 nSize
  else 255 :: writeLE 8 nSize

/-- A string or byte vector with its length in front. -/
def writeVector (data : Bytes) : Bytes := writeCompactSize data.length ++ data

def readFixed (width : Nat) (stream : Bytes) : Option (Nat × Bytes) :=
  if stream.length < width then none
  else some (readLE (stream.take width), stream.drop width)

/-- A `CAmount`, as the eight bytes of its two's complement. -/
def writeAmount (amount : CAmount) : Bytes := writeLE 8 (amount % 2 ^ 64).toNat

def readAmount (stream : Bytes) : Option (CAmount × Bytes) := do
  let (n, rest) ← readFixed 8 stream
  pure (if n < 2 ^ 63 then (n : Int) else (n : Int) - 2 ^ 64, rest)

def writeUint256 (hash : Uint256) : Bytes := writeLE 32 hash.toNat

def readUint256 (stream : Bytes) : Option (Uint256 × Bytes) := do
  let (n, rest) ← readFixed 32 stream
  pure (BitVec.ofNat 256 n, rest)

def writeBool (b : Bool) : Bytes := [if b then 1 else 0]

def readBool : Bytes → Option (Bool × Bytes)
  | [] => none
  | f :: rest => some (f != 0, rest)

/-! ## Reading back -/

theorem readLE_lt (bytes : Bytes) : readLE bytes < 256 ^ bytes.length := by
  induction bytes with
  | nil => simp [readLE]
  | cons b bytes ih =>
    have hb := b.toNat_lt
    rw [readLE, List.length_cons]
    omega

theorem writeLE_readLE (bytes : Bytes) : writeLE bytes.length (readLE bytes) = bytes := by
  induction bytes with
  | nil => rfl
  | cons b bytes ih =>
    have hb := b.toNat_lt
    have hdiv : (b.toNat + 256 * readLE bytes) / 256 = readLE bytes := by omega
    have hmod : UInt8.ofNat (b.toNat + 256 * readLE bytes) = b := by
      rw [← UInt8.toNat_inj, UInt8.toNat_ofNat']
      omega
    rw [readLE, List.length_cons, writeLE, hdiv, hmod, ih]

variable {n : Nat} {stream rest : Bytes}

theorem readFixed_iff {width : Nat} : readFixed width stream = some (n, rest) ↔
      stream = writeLE width n ++ rest ∧ n < 256 ^ width := by
  constructor
  · intro h
    rw [readFixed] at h
    split_ifs at h with hlen
    obtain ⟨rfl, rfl⟩ : readLE (stream.take width) = n ∧ stream.drop width = rest := by
      simpa using h
    have htake : (stream.take width).length = width := List.length_take_of_le (by omega)
    have hwrite := writeLE_readLE (stream.take width)
    have hlt := readLE_lt (stream.take width)
    rw [htake] at hwrite hlt
    exact ⟨by rw [hwrite, List.take_append_drop], hlt⟩
  · rintro ⟨rfl, hlt⟩
    have hlen : ¬ (writeLE width n ++ rest).length < width := by
      simp [writeLE_length]
    rw [readFixed, if_neg hlen, List.take_left' (writeLE_length width n),
      List.drop_left' (writeLE_length width n), readLE_writeLE width n hlt]

theorem readWideSize_iff {width least : Nat} :
    readWideSize width least stream = some (n, rest) ↔
      (stream = writeLE width n ++ rest ∧ n < 256 ^ width) ∧ least ≤ n ∧ n ≤ maxSize := by
  rw [← readFixed_iff, readWideSize, readFixed]
  split_ifs <;> grind

theorem readCompactSize_writeCompactSize (rest : Bytes) (h : n ≤ maxSize) :
    readCompactSize (writeCompactSize n ++ rest) = some (n, rest) := by
  have hmax : maxSize ≤ 0xffffffff := by decide
  rw [writeCompactSize]
  split
  · have hb : UInt8.ofNat n < 253 := by
      rw [UInt8.lt_iff_toNat_lt, UInt8.toNat_ofNat']
      simp only [UInt8.reduceToNat]
      omega
    have ht : (UInt8.ofNat n).toNat = n := by
      rw [UInt8.toNat_ofNat']
      omega
    simp only [List.cons_append, List.nil_append, readCompactSize, if_pos hb, ht]
  · split
    · have hn : n < 256 ^ 2 := by omega
      have hleast : 253 ≤ n := by omega
      exact readWideSize_iff.mpr ⟨⟨rfl, hn⟩, hleast, h⟩
    · have hn : n < 256 ^ 4 := by omega
      have hleast : 0x10000 ≤ n := by omega
      rw [if_pos (by omega)]
      exact readWideSize_iff.mpr ⟨⟨rfl, hn⟩, hleast, h⟩

theorem readVector_writeVector {data : Bytes} (rest : Bytes) (h : data.length ≤ maxSize) :
    readVector (writeVector data ++ rest) = some (data, rest) := by
  rw [writeVector, List.append_assoc, readVector, readCompactSize_writeCompactSize _ h]
  simp

theorem readAmount_writeAmount {amount : Int} (rest : Bytes)
    (h : -2 ^ 63 ≤ amount ∧ amount < 2 ^ 63) :
    readAmount (writeAmount amount ++ rest) = some (amount, rest) := by
  have hlt : (amount % 2 ^ 64).toNat < 256 ^ 8 := by omega
  have hback : (if (amount % 2 ^ 64).toNat < 2 ^ 63 then ((amount % 2 ^ 64).toNat : Int)
      else (amount % 2 ^ 64).toNat - 2 ^ 64) = amount := by
    split_ifs <;> omega
  simp only [readAmount, writeAmount, readFixed_iff.mpr ⟨rfl, hlt⟩, Option.bind_eq_bind,
    Option.bind_some, Option.pure_def, hback]

theorem readUint256_writeUint256 (hash : Uint256) (rest : Bytes) :
    readUint256 (writeUint256 hash ++ rest) = some (hash, rest) := by
  have hlt : hash.toNat < 256 ^ 32 := hash.isLt
  simp only [readUint256, writeUint256, readFixed_iff.mpr ⟨rfl, hlt⟩,
    Option.bind_eq_bind, Option.bind_some, BitVec.ofNat_toNat]
  rfl

theorem readBool_writeBool (b : Bool) (rest : Bytes) :
    readBool (writeBool b ++ rest) = some (b, rest) := by
  cases b <;> rfl

/-! ## What a reader accepts -/

theorem readUint256_iff {hash : Uint256} :
    readUint256 stream = some (hash, rest) ↔ stream = writeUint256 hash ++ rest := by
  constructor
  · intro h
    simp only [readUint256, Option.bind_eq_bind, Option.bind_eq_some_iff, Prod.exists,
      readFixed_iff] at h
    obtain ⟨n, _, ⟨rfl, hlt⟩, rfl, rfl⟩ := h
    have hword : n < 2 ^ 256 := hlt
    rw [writeUint256, BitVec.toNat_ofNat, Nat.mod_eq_of_lt hword]
  · rintro rfl
    exact readUint256_writeUint256 hash rest

/-- The lengths read are the ones written in their shortest form. -/
theorem readCompactSize_iff : readCompactSize stream = some (n, rest) ↔
      n ≤ maxSize ∧ stream = writeCompactSize n ++ rest := by
  constructor
  · intro h
    cases stream with
    | nil => cases h
    | cons chSize tail =>
      rw [readCompactSize] at h
      split_ifs at h with hone htwo hfour
      · obtain ⟨rfl, rfl⟩ : chSize.toNat = n ∧ tail = rest := by simpa using h
        have hlt : chSize.toNat < 253 := hone
        refine ⟨hlt.le.trans (by decide), ?_⟩
        rw [writeCompactSize, if_pos hlt, UInt8.ofNat_toNat]
        rfl
      · obtain ⟨⟨rfl, hlt⟩, hleast, hmax⟩ := readWideSize_iff.mp h
        refine ⟨hmax, ?_⟩
        rw [writeCompactSize, if_neg (by omega), if_pos (by omega), htwo]
        rfl
      · obtain ⟨⟨rfl, hlt⟩, hleast, hmax⟩ := readWideSize_iff.mp h
        refine ⟨hmax, ?_⟩
        rw [writeCompactSize, if_neg (by omega), if_neg (by omega), if_pos (by omega), hfour]
        rfl
      · -- the eight byte form is too large for any accepted size
        obtain ⟨-, hleast, hmax⟩ := readWideSize_iff.mp h
        exact absurd (hleast.trans hmax) (by decide)
  · rintro ⟨hmax, rfl⟩
    exact readCompactSize_writeCompactSize rest hmax

theorem readVector_iff {data : Bytes} : readVector stream = some (data, rest) ↔
      data.length ≤ maxSize ∧ stream = writeVector data ++ rest := by
  constructor
  · intro h
    rw [readVector] at h
    split at h
    · cases h
    · rename_i nSize tail hsize
      split_ifs at h with hlen
      obtain ⟨rfl, rfl⟩ : tail.take nSize = data ∧ tail.drop nSize = rest := by simpa using h
      obtain ⟨hmax, rfl⟩ := readCompactSize_iff.mp hsize
      have htake : (tail.take nSize).length = nSize := List.length_take_of_le (by omega)
      refine ⟨htake.symm ▸ hmax, ?_⟩
      rw [writeVector, htake, List.append_assoc, List.take_append_drop]
  · rintro ⟨hmax, rfl⟩
    exact readVector_writeVector rest hmax

/-! ## Unique encodings -/

/-- `VARINT` at the two unsigned widths: every number has one encoding, none is the start of
another, the reader inverts it, and where nothing is shifted out what was read is written again as
it stood. The lengths of vectors are read in their shortest form only. -/
theorem encodings_unique {bits : Nat} (width : bits = 32 ∨ bits = 64) :
    (∀ n : Int, 0 ≤ n → n < 2 ^ bits → ∀ rest,
      readWord bits 0 (writeVarInt n ++ rest) = some (n, rest)) ∧
    (∀ m n : Int, 0 ≤ m → m < 2 ^ bits → 0 ≤ n → n < 2 ^ bits →
      writeVarInt m <+: writeVarInt n → m = n) ∧
    (∀ (n : Int) (stream rest : Bytes), readVarInt stream = some (n, rest) → n < 2 ^ bits →
      readWord bits 0 stream = some (n, rest) ∧ stream = writeVarInt n ++ rest) ∧
    ∀ (n : Nat) (stream rest : Bytes), readCompactSize stream = some (n, rest) ↔
      n ≤ maxSize ∧ stream = writeCompactSize n ++ rest := by
  have hbits : (2 : Int) ^ bits ≤ 2 ^ 64 := by rcases width with rfl | rfl <;> decide
  have hword : ∀ {n : Int} {stream rest : Bytes}, 0 ≤ n → n < 2 ^ bits →
      readVarInt stream = some (n, rest) → readWord bits 0 stream = some (n, rest) := by
    intro n stream rest h0 hn h
    have heq := readWord_eq bits 0 stream
    rw [show readDigits 0 stream = some (n, rest) from h, Option.map_some,
      Int.emod_eq_of_lt h0 hn] at heq
    exact heq
  refine ⟨fun n h0 hn rest => ?_, fun m n hm0 hm h0 hn hprefix => ?_, fun n stream rest h hn => ?_,
    fun n stream rest => readCompactSize_iff⟩
  · exact hword h0 hn (readVarInt_writeVarInt rest h0 (by omega))
  · obtain ⟨rest, hrest⟩ := hprefix
    have hread := readVarInt_writeVarInt rest hm0 (by omega)
    have hwhole := readVarInt_writeVarInt [] h0 (by omega : n < 2 ^ 64)
    rw [List.append_nil, ← hrest, hread] at hwhole
    exact congrArg Prod.fst (Option.some.inj hwhole)
  · exact ⟨hword (readDigits_nonneg (Int.le_refl 0) h) hn h,
      eq_writeVarInt_of_readVarInt h (by omega)⟩

theorem encodings_unique_32 :
    readWord 32 0 (writeVarInt 65535 ++ [7]) = some (65535, [7]) :=
  (encodings_unique (.inl rfl)).1 65535 (by decide) (by decide) [7]

end KubuCore.Nickname
