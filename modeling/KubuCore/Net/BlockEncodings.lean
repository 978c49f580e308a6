import KubuCore.Base.Stream
import KubuCore.Nickname.Serialization

/-!
# Requests for missing block transactions

`BlockTransactionsRequest` of `blockencodings.h`. The indexes are sent as
differences, and the reader adds them up in 16 bits: behind the index 65535 the
offset is 0 again, so such a request decodes to indexes that are not increasing.
The two laws of the codec hold just when the differences before the last leave
the offset below 65536 (`request_increasing_iff`).
-/

namespace KubuCore.Net

open Checked
open Nickname
open KubuCore.Stream

structure BlockTransactionsRequest where
  blockhash : Uint256
  indexes : List UInt16
deriving DecidableEq

/-! ## Writing -/

/-- The difference to the index expected next, as a `uint64_t`. -/
def difference (offset : Nat) (index : UInt16) : Nat :=
  (((index.toNat : Int) - offset) % 2 ^ 64).toNat

/-- The index loop of the writer; `offset` is 0 at first, then one more than the last index. -/
def writeIndexes (offset : Nat) : List UInt16 → Bytes
  | [] => []
  | index :: rest =>
    writeCompactSize (difference offset index) ++ writeIndexes (index.toNat + 1) rest

def serializeRequest (request : BlockTransactionsRequest) : Bytes :=
  writeUint256 request.blockhash ++
    (writeCompactSize request.indexes.length ++ writeIndexes 0 request.indexes)

/-! ## Reading -/

/-- One difference. The failures of `ReadCompactSize` are not told apart. -/
def readDifference (stream : Bytes) : Except String (UInt16 × Bytes) := do
  let (index, stream) ← orFail "ReadCompactSize()" (readCompactSize stream)
  require (index ≤ 0xffff) "index overflowed 16 bits"
  pure (UInt16.ofNat index, stream)

/-- The two reading loops: rounds that make room for 1000 more indexes each. -/
def readDifferences (indexesSize : Nat) (stream : Bytes) : Except String (List UInt16 × Bytes) :=
  readRounds readDifference 1000 indexesSize indexesSize [] stream

/-- The differences added up, with the offset in 16 bits. -/
def addOffsets (offset : UInt16) : List UInt16 → Except String (List UInt16)
  | [] => .ok []
  | difference :: rest => do
    require (difference.toNat + offset.toNat ≤ 0xffff) "indexes overflowed 16 bits"
    let index := difference + offset
    let indexes ← addOffsets (index + 1) rest
    pure (index :: indexes)

def deserializeRequest (stream : Bytes) : Except String (BlockTransactionsRequest × Bytes) := do
  let (blockhash, stream) ← orFail "CDataStream::read(): end of data" (readUint256 stream)
  let (indexesSize, stream) ← orFail "ReadCompactSize()" (readCompactSize stream)
  let (differences, stream) ← readDifferences indexesSize stream
  let indexes ← addOffsets 0 differences
  pure (⟨blockhash, indexes⟩, stream)

/-! ## The stream -/

variable {indexes differences : List UInt16} {offset : Nat} {stream rest : Bytes}

theorem readDifference_iff {d : UInt16} :
    readDifference stream = .ok (d, rest) ↔ stream = writeCompactSize d.toNat ++ rest := by
  simp only [readDifference, eq_ok, orFail_eq_ok, Prod.exists, Prod.mk.injEq, readCompactSize_iff]
  constructor
  · rintro ⟨index, _, ⟨-, rfl⟩, -, hsmall, rfl, rfl⟩
    rw [UInt16.toNat_ofNat', Nat.mod_eq_of_lt (by omega)]
  · rintro rfl
    have hd : d.toNat < 65536 := d.toNat_lt
    exact ⟨d.toNat, rest, ⟨by simp only [maxSize]; omega, rfl⟩, (), by omega, UInt16.ofNat_toNat,
      rfl⟩

theorem readDifferences_iff {n : Nat} : readDifferences n stream = .ok (differences, rest) ↔
      differences.length = n ∧
        stream = differences.flatMap (fun d => writeCompactSize d.toNat) ++ rest := by
  rw [readDifferences, readRounds_all (by decide), readMany_iff readDifference_iff]

/-! ## Offsets -/

/-- The indexes before the last take fewer than 65536 places, so that the offset of the last is
not 0 again. -/
def NoWrap (differences : List UInt16) : Prop :=
  (differences.dropLast.map fun d => d.toNat + 1).sum < 65536

/-- The sum of an offset and a difference that passes the check. -/
theorem toNat_add_offset {d : UInt16} (hoffset : offset ≤ 0xffff)
    (hsmall : d.toNat + (UInt16.ofNat offset).toNat ≤ 0xffff) :
    (d + UInt16.ofNat offset).toNat = d.toNat + offset ∧ d.toNat + offset ≤ 0xffff := by
  have hoff : (UInt16.ofNat offset).toNat = offset := by
    rw [UInt16.toNat_ofNat']
    omega
  rw [UInt16.toNat_add]
  omega

theorem offset_after {d : UInt16} (hindex : (d + UInt16.ofNat offset).toNat = d.toNat + offset) :
    d + UInt16.ofNat offset + 1 = UInt16.ofNat (d.toNat + offset + 1) := by
  rw [← UInt16.toNat_inj, UInt16.toNat_add, hindex]
  rfl

/-- Increasing sums did not wrap: nothing is above the largest. -/
theorem noWrap_of_increasing (hoffset : offset ≤ 0xffff)
    (h : addOffsets (UInt16.ofNat offset) differences = .ok indexes)
    (hpair : indexes.Pairwise (· < ·)) :
    offset + (differences.dropLast.map fun d => d.toNat + 1).sum < 65536 := by
  induction differences generalizing offset indexes with
  | nil => simpa using Nat.lt_succ_of_le hoffset
  | cons d differences ih =>
    simp only [addOffsets, eq_ok] at h
    obtain ⟨-, hsmall, rest, hrest, rfl⟩ := h
    obtain ⟨hindex, hle⟩ := toNat_add_offset hoffset hsmall
    obtain ⟨hfirst, hpair⟩ := List.pairwise_cons.mp hpair
    cases differences with
    | nil => simpa using Nat.lt_succ_of_le hoffset
    | cons e differences =>
      have hlt : d.toNat + offset < 0xffff := by
        obtain ⟨-, -, _, -, rfl⟩ := by simpa only [addOffsets, eq_ok] using hrest
        have hnext := UInt16.lt_iff_toNat_lt.mp (hfirst _ List.mem_cons_self)
        have hmax := UInt16.toNat_lt (e + (d + UInt16.ofNat offset + 1))
        omega
      rw [offset_after hindex] at hrest
      have := ih (by omega) hrest hpair
      rw [List.dropLast_cons_cons, List.map_cons, List.sum_cons]
      omega

theorem difference_of_le {index : UInt16} (h : offset ≤ index.toNat) :
    difference offset index = index.toNat - offset := by
  have hlt : index.toNat < 65536 := index.toNat_lt
  rw [difference]
  omega

/-- The differences of increasing indexes from `offset` on are added up to them again. -/
theorem addOffsets_increasing (hle : ∀ i ∈ indexes, offset ≤ i.toNat)
    (h : indexes.Pairwise (· < ·)) :
    ∃ differences, addOffsets (UInt16.ofNat offset) differences = .ok indexes ∧
      writeIndexes offset indexes = differences.flatMap (fun d => writeCompactSize d.toNat) := by
  induction indexes generalizing offset with
  | nil => exact ⟨[], rfl, rfl⟩
  | cons index rest ih =>
    obtain ⟨hfirst, hrest⟩ := List.pairwise_cons.mp h
    have hafter : ∀ i ∈ rest, index.toNat + 1 ≤ i.toNat := fun i hi => hfirst i hi
    obtain ⟨differences, hadd, hwrite⟩ := ih hafter hrest
    have hindex := hle index List.mem_cons_self
    have hlt : index.toNat < 65536 := index.toNat_lt
    have hto : (UInt16.ofNat (index.toNat - offset)).toNat = index.toNat - offset := by
      rw [UInt16.toNat_ofNat']
      omega
    have hoff : (UInt16.ofNat offset).toNat = offset := by
      rw [UInt16.toNat_ofNat']
      omega
    have hsum : UInt16.ofNat (index.toNat - offset) + UInt16.ofNat offset = index := by
      rw [← UInt16.toNat_inj, UInt16.toNat_add]
      omega
    refine ⟨UInt16.ofNat (index.toNat - offset) :: differences, ?_, ?_⟩
    · simp only [addOffsets, eq_ok, hsum]
      exact ⟨(), by omega, rest, hadd, rfl⟩
    · rw [writeIndexes, List.flatMap_cons, hto, difference_of_le hindex, hwrite]

/-- Without a wrap the sums increase and are written as the differences they came from. -/
theorem increasing_of_addOffsets (h : addOffsets (UInt16.ofNat offset) differences = .ok indexes)
    (hwrap : offset + (differences.dropLast.map fun d => d.toNat + 1).sum < 65536) :
    indexes.Pairwise (· < ·) ∧ (∀ i ∈ indexes, offset ≤ i.toNat) ∧
      writeIndexes offset indexes = differences.flatMap (fun d => writeCompactSize d.toNat) := by
  induction differences generalizing offset indexes with
  | nil =>
    cases h
    exact ⟨.nil, by simp, rfl⟩
  | cons d differences ih =>
    simp only [addOffsets, eq_ok] at h
    obtain ⟨-, hsmall, rest, hrest, rfl⟩ := h
    obtain ⟨hindex, -⟩ := toNat_add_offset (by omega) hsmall
    have hdiff : difference offset (d + UInt16.ofNat offset) = d.toNat := by
      rw [difference_of_le (by omega)]
      omega
    cases differences with
    | nil =>
      cases hrest
      refine ⟨List.pairwise_singleton _ _, ?_, ?_⟩
      · intro i hi
        obtain rfl := List.mem_singleton.mp hi
        omega
      · rw [writeIndexes, writeIndexes, List.flatMap_cons, List.flatMap_nil, hdiff]
    | cons e differences =>
      rw [List.dropLast_cons_cons, List.map_cons, List.sum_cons] at hwrap
      rw [offset_after hindex] at hrest
      obtain ⟨hpair, hbound, hwrite⟩ := ih hrest (by omega)
      refine ⟨List.pairwise_cons.mpr ⟨fun i hi => ?_, hpair⟩, fun i hi => ?_, ?_⟩
      · have := hbound i hi
        rw [UInt16.lt_iff_toNat_lt]
        omega
      · rcases List.mem_cons.mp hi with rfl | hi
        · omega
        · have := hbound i hi
          omega
      · rw [writeIndexes, List.flatMap_cons, hdiff, hindex, hwrite]

theorem length_addOffsets {offset : UInt16}
    (h : addOffsets offset differences = .ok indexes) : differences.length = indexes.length := by
  induction differences generalizing offset indexes with
  | nil =>
    cases h
    rfl
  | cons d differences ih =>
    simp only [addOffsets, eq_ok] at h
    obtain ⟨-, -, rest, hrest, rfl⟩ := h
    rw [List.length_cons, List.length_cons, ih hrest]

/-- Increasing indexes are distinct, so there are no more of them than values of 16 bits. -/
theorem length_of_increasing (h : indexes.Pairwise (· < ·)) : indexes.length ≤ 65536 := by
  have hnodup : (indexes.map UInt16.toNat).Nodup :=
    h.map _ fun _ _ hlt => ne_of_lt (UInt16.lt_iff_toNat_lt.mp hlt)
  have hrange : indexes.map UInt16.toNat ⊆ List.range 65536 := by
    intro n hn
    obtain ⟨i, -, rfl⟩ := List.mem_map.mp hn
    exact List.mem_range.mpr i.toNat_lt
  simpa using (hnodup.subperm hrange).length_le

/-! ## The codec -/

/-- The bytes that carry these differences. -/
def wireRequest (blockhash : Uint256) (differences : List UInt16) : Bytes :=
  writeUint256 blockhash ++ (writeCompactSize differences.length ++
    differences.flatMap (fun d => writeCompactSize d.toNat))

theorem deserializeRequest_iff {request : BlockTransactionsRequest} :
    deserializeRequest stream = .ok (request, rest) ↔
      ∃ differences, differences.length ≤ maxSize ∧
        addOffsets 0 differences = .ok request.indexes ∧
        stream = wireRequest request.blockhash differences ++ rest := by
  simp only [deserializeRequest, eq_ok, orFail_eq_ok, Prod.exists, Prod.mk.injEq, readUint256_iff,
    readCompactSize_iff, readDifferences_iff, wireRequest, List.append_assoc]
  constructor
  · rintro ⟨hash, _, rfl, _, _, ⟨hsize, rfl⟩, differences, _, ⟨rfl, rfl⟩, indexes, hadd, rfl, rfl⟩
    exact ⟨differences, hsize, hadd, rfl⟩
  · rintro ⟨differences, hsize, hadd, rfl⟩
    exact ⟨request.blockhash, _, rfl, differences.length, _, ⟨hsize, rfl⟩, differences, rest,
      ⟨rfl, rfl⟩, request.indexes, hadd, rfl, rfl⟩

/-- The bytes of a request that is decoded carry a list of differences. Its indexes increase and it
is written as it was read just when these differences do not wrap; and every increasing list of
indexes survives the codec. -/
theorem request_increasing_iff (stream rest : Bytes) (request : BlockTransactionsRequest) :
    (deserializeRequest stream = .ok (request, rest) →
      ∃ differences, stream = wireRequest request.blockhash differences ++ rest ∧
        (request.indexes.Pairwise (· < ·) ∧ serializeRequest request ++ rest = stream ↔
          NoWrap differences)) ∧
    (request.indexes.Pairwise (· < ·) →
      deserializeRequest (serializeRequest request ++ rest) = .ok (request, rest)) := by
  constructor
  · intro h
    obtain ⟨differences, -, hadd, rfl⟩ := deserializeRequest_iff.mp h
    refine ⟨differences, rfl, fun hlaws => ?_, fun hwrap => ?_⟩
    · simpa [NoWrap] using noWrap_of_increasing (Nat.zero_le _) hadd hlaws.1
    · obtain ⟨hpair, -, hwrite⟩ := increasing_of_addOffsets hadd (by rwa [Nat.zero_add])
      refine ⟨hpair, ?_⟩
      rw [serializeRequest, hwrite, ← length_addOffsets hadd, wireRequest]
  · intro h
    obtain ⟨differences, hadd, hwrite⟩ :=
      addOffsets_increasing (fun i _ => Nat.zero_le i.toNat) h
    have hlen := length_addOffsets hadd
    have hcount := length_of_increasing h
    refine deserializeRequest_iff.mpr ⟨differences, ?_, hadd, ?_⟩
    · rw [maxSize]
      omega
    · rw [serializeRequest, hwrite, ← hlen, wireRequest]

/-- A request for the indexes 1, 2 and 65535. -/
def topRequest : BlockTransactionsRequest := ⟨0, [1, 2, 0xffff]⟩

theorem request_increasing_top :
    deserializeRequest (serializeRequest topRequest ++ []) = .ok (topRequest, []) ∧
      ∃ differences,
        serializeRequest topRequest ++ [] = wireRequest topRequest.blockhash differences ++ [] ∧
        NoWrap differences := by
  have hread := (request_increasing_iff [] [] topRequest).2 (by decide)
  obtain ⟨differences, hwire, hlaws⟩ := (request_increasing_iff _ [] topRequest).1 hread
  exact ⟨hread, differences, hwire, hlaws.mp ⟨by decide, rfl⟩⟩

/-- The differences 65535 and 0. -/
def wrappingStream : Bytes := List.replicate 32 0 ++ [2, 253, 0xff, 0xff, 0]

/-- They decode to the indexes 65535 and 0, which are written otherwise. -/
theorem request_wraps :
    deserializeRequest wrappingStream = .ok (⟨0, [0xffff, 0]⟩, []) ∧
      ¬ ([0xffff, 0] : List UInt16).Pairwise (· < ·) ∧
      serializeRequest ⟨0, [0xffff, 0]⟩ ≠ wrappingStream := by
  decide +kernel

end KubuCore.Net
