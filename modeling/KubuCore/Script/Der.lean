import KubuCore.Script.Number

/-!
# Signature encoding

`IsValidSignatureEncoding` finds the parts of a signature by lengths that the
signature itself gives. It never reads outside the string, and it accepts
exactly the strict DER form of two integers followed by a hash type.
-/

namespace KubuCore.Script

/-- The checks of the integer of length `len` with its tag at `pos`, in their order. A byte outside
the string has no value. -/
def readInteger (sig : Bytes) (pos len : Nat) : Option Bool :=
  sig[pos]?.map (· == 0x02) <&&> some (len != 0) <&&> sig[pos + 2]?.map (· &&& 0x80 == 0) <&&>
    if 1 < len then do
      let first ← sig[pos + 2]?
      if first = 0 then sig[pos + 3]?.map (· &&& 0x80 != 0) else some true
    else some true

/-- `IsValidSignatureEncoding`, read by read. -/
def readSignatureEncoding (sig : Bytes) : Option Bool :=
  some (9 ≤ sig.length) <&&> some (sig.length ≤ 73) <&&> sig[0]?.map (· == 0x30) <&&>
    sig[1]?.map (fun total => total.toNat == sig.length - 3) <&&> do
      let lenR ← sig[3]?
      some (5 + lenR.toNat < sig.length) <&&> do
        let lenS ← sig[5 + lenR.toNat]?
        some (lenR.toNat + lenS.toNat + 7 == sig.length) <&&>
          (readInteger sig 2 lenR.toNat <&&> readInteger sig (lenR.toNat + 4) lenS.toNat)

/-- The DER form of two integers, and a hash type. -/
def derSignature (r s : Bytes) (nHashType : UInt8) : Bytes :=
  0x30 :: UInt8.ofNat (r.length + s.length + 4) :: 0x02 :: UInt8.ofNat r.length ::
    (r ++ 0x02 :: UInt8.ofNat s.length :: (s ++ [nHashType]))

/-- A check has a value if it has one whenever the checks before it succeed. -/
theorem andM_eq_some {x y : Option Bool} {a b : Bool} (hx : x = some a)
    (hy : a = true → y = some b) : (x <&&> y) = some (a && b) := by
  subst hx
  cases a with
  | false => rfl
  | true => exact hy rfl

/-- With a byte behind the integer its checks read inside the string. -/
theorem readInteger_eq {sig : Bytes} {pos : Nat} {tag len : UInt8} {content : Bytes}
    (at_pos : sig.drop pos = tag :: len :: content) (long : len.toNat < content.length) :
    readInteger sig pos len.toNat =
      some (tag == 0x02 && isDerInteger (content.take len.toNat)) := by
  have hread : ∀ i, sig[pos + i]? = (tag :: len :: content)[i]? := by
    intro i
    rw [← at_pos, List.getElem?_drop]
  have htag : sig[pos]? = some tag := hread 0
  rw [readInteger, htag, hread 2, hread 3]
  refine andM_eq_some rfl fun _ => ?_
  generalize len.toNat = n at long
  match n, content with
  | _, [] => simp at long
  | 0, _ :: _ => rfl
  | 1, first :: _ =>
    exact (andM_eq_some rfl fun _ => andM_eq_some rfl fun _ => rfl).trans (by simp [isDerInteger])
  | n + 2, [_] => simp at long
  | n + 2, first :: next :: _ =>
    refine (andM_eq_some rfl fun _ => andM_eq_some (b := !(first == 0 && next &&& 0x80 == 0)) rfl
      fun _ => ?_).trans (by simp [isDerInteger])
    by_cases hzero : first = 0
    · simp [hzero]
      rfl
    · simp [hzero]

/-- The parts behind the first integer. -/
theorem exists_parts {sig : Bytes} {lenR : Nat} (inside : 5 + lenR < sig.length) :
    ∃ tagS lenS content, sig.drop (lenR + 4) = tagS :: lenS :: content ∧
      sig.drop (5 + lenR) = lenS :: content ∧ sig.drop (lenR + 6) = content := by
  rw [Nat.add_comm 5 lenR] at inside ⊢
  refine ⟨sig[lenR + 4], _, _, ?_, List.drop_eq_getElem_cons inside, rfl⟩
  rw [List.drop_eq_getElem_cons, List.drop_eq_getElem_cons inside]

/-- No check reads outside the string. -/
theorem readSignatureEncoding_eq (sig : Bytes) :
    readSignatureEncoding sig = some (isValidSignatureEncoding sig) := by
  match sig with
  | [] | [_] | [_, _] | [_, _, _] => rfl
  | tag :: total :: tagR :: lenR :: body =>
    simp only [isValidSignatureEncoding, Bool.and_assoc]
    refine andM_eq_some rfl fun hlong => andM_eq_some rfl fun _ => andM_eq_some rfl fun _ =>
      andM_eq_some ?_ fun _ => andM_eq_some rfl fun inside => ?_
    · simp
    obtain ⟨tagS, lenS, content, hS, hread, hcontent⟩ := exists_parts (of_decide_eq_true inside)
    have hlenS : (tag :: total :: tagR :: lenR :: body)[5 + lenR.toNat]? = some lenS := by
      rw [← List.head?_drop, hread]
      rfl
    rw [hS, hread, hcontent, hlenS]
    refine andM_eq_some rfl fun hsum => ?_
    have hlength := congrArg List.length hS
    simp at hlength hsum
    have hR := @readInteger_eq (tag :: total :: tagR :: lenR :: body) 2 _ _ _ rfl (by omega)
    have hS := readInteger_eq hS (by omega)
    exact (andM_eq_some hR fun _ => hS).trans (by simp [Bool.and_assoc])

/-- The check reads only inside the string and accepts exactly the DER form of two minimal integers
that are not negative, with a hash type behind it, in 9 to 73 bytes. -/
theorem signatureEncoding_exact (sig : Bytes) :
    readSignatureEncoding sig = some (isValidSignatureEncoding sig) ∧
    (isValidSignatureEncoding sig = true ↔
      ∃ r s nHashType, sig = derSignature r s nHashType ∧ isDerInteger r = true ∧
        isDerInteger s = true ∧ 9 ≤ sig.length ∧ sig.length ≤ 73) := by
  refine ⟨readSignatureEncoding_eq sig, ?_⟩
  constructor
  · intro h
    unfold isValidSignatureEncoding at h
    split at h
    · rename_i tag total tagR lenR body
      simp only [Bool.and_eq_true, decide_eq_true_eq, beq_iff_eq, and_assoc] at h
      obtain ⟨hlong, hshort, rfl, htotal, inside, hsum, rfl, hr, htagS, hs⟩ := h
      obtain ⟨tagS, lenS, content, hS, hread, hcontent⟩ := exists_parts inside
      rw [hread, hcontent] at hs
      rw [hread] at hsum
      rw [hS] at htagS
      cases htagS
      have hbody : body.drop lenR.toNat = 2 :: lenS :: content := hS
      have hlength := congrArg List.length hbody
      simp only [List.length_drop, List.length_cons, List.headD_cons] at hlength hsum htotal hs
      obtain rfl | ⟨s, nHashType, rfl⟩ := content.eq_nil_or_concat'
      · simp at hlength
        omega
      rw [List.length_append, List.length_singleton] at hlength
      have hlenS : lenS.toNat = s.length := by omega
      have hlenR : (body.take lenR.toNat).length = lenR.toNat := List.length_take_of_le (by omega)
      rw [hlenS, List.take_left] at hs
      refine ⟨_, s, nHashType, ?_, hr, hs, hlong, hshort⟩
      have htotal' : lenR.toNat + lenS.toNat + 4 = total.toNat := by omega
      rw [derSignature, hlenR, ← hlenS, htotal', UInt8.ofNat_toNat, UInt8.ofNat_toNat,
        UInt8.ofNat_toNat, ← hbody, List.take_append_drop]
    · cases h
  · rintro ⟨r, s, nHashType, rfl, hr, hs, hlong, hshort⟩
    have hlength : (derSignature r s nHashType).length = r.length + s.length + 7 := by
      simp [derSignature]
      omega
    have hbyte : ∀ n ≤ 73, (UInt8.ofNat n).toNat = n := by
      intro n hn
      rw [UInt8.toNat_ofNat', Nat.mod_eq_of_lt (by omega)]
    have hlenR := hbyte r.length (by omega)
    have hlenS := hbyte s.length (by omega)
    simp [derSignature, isValidSignatureEncoding, hlenR, hlenS, Nat.add_comm 5, hr, hs]
    omega

end KubuCore.Script
