import Mathlib.Computability.Language
import KubuCore.Base.Trim
import KubuCore.Nickname.Block
import KubuCore.Nickname.Encode

/-!
# Valid names and the keys they lead to

The names `IsValidNormalizedNickname` accepts as a regular language, and the
one key under which every layer finds the record of a name
(`nickname_keys_agree`). Normalizing is not idempotent, since each pass drops an
at sign, but it is on inputs whose normal form is valid.
-/

namespace KubuCore.Nicknames

open Computability
open Checked

/-! ## The language -/

def underscore : UInt8 := 0x5f

/-- `[a-z0-9]` -/
def isWordChar (c : UInt8) : Bool := isAsciiLowerLetter c || isAsciiDigit c

/-- `[a-z0-9]+` -/
def word : Language UInt8 := {w | w ≠ [] ∧ ∀ c ∈ w, isWordChar c = true}

/-- `(_[a-z0-9]+)*` -/
def moreWords : Language UInt8 := ({[underscore]} * word)∗

/-- `[a-z0-9]+(_[a-z0-9]+)*` -/
def nicknameLanguage : Language UInt8 := word * moreWords

theorem mem_moreWords {w : Bytes} :
    w ∈ moreWords ↔ w = [] ∨ ∃ rest, w = underscore :: rest ∧ rest ∈ nicknameLanguage := by
  rw [moreWords, ← Language.one_add_self_mul_kstar_eq_kstar, mul_assoc, Language.mem_add]
  refine or_congr_right ?_
  constructor
  · rintro ⟨_, rfl, rest, hrest, rfl⟩
    exact ⟨rest, rfl, hrest⟩
  · rintro ⟨rest, rfl, hrest⟩
    exact ⟨[underscore], rfl, rest, hrest, rfl⟩

theorem nil_notMem_nicknameLanguage : [] ∉ nicknameLanguage := by
  rintro ⟨a, ⟨hne, -⟩, b, -, hab⟩
  exact hne (List.append_eq_nil_iff.mp hab).1

variable {c : UInt8} {rest name : Bytes}

theorem cons_mem_nicknameLanguage : c :: rest ∈ nicknameLanguage ↔
      isWordChar c = true ∧ (rest ∈ moreWords ∨ rest ∈ nicknameLanguage) := by
  constructor
  · rintro ⟨a, ⟨hne, hchars⟩, b, hb, hab⟩
    cases a with
    | nil => exact absurd rfl hne
    | cons d a =>
      obtain ⟨rfl, rfl⟩ : d = c ∧ a ++ b = rest := by simpa using hab
      refine ⟨hchars d List.mem_cons_self, ?_⟩
      by_cases ha : a = []
      · subst ha
        exact .inl hb
      · exact .inr ⟨a, ⟨ha, fun x hx => hchars x (List.mem_cons_of_mem d hx)⟩, b, hb, rfl⟩
  · rintro ⟨hc, hrest | ⟨a, ⟨-, hchars⟩, b, hb, rfl⟩⟩
    · exact ⟨[c], ⟨by simp, by simpa using hc⟩, rest, hrest, rfl⟩
    · exact ⟨c :: a, ⟨by simp, by simpa using ⟨hc, hchars⟩⟩, b, hb, rfl⟩

/-! ## The scan -/

theorem isWordChar_ne_underscore (h : isWordChar c = true) : c ≠ underscore := by
  revert c
  decide +kernel

theorem isAllowedChar_iff (c : UInt8) :
    isAllowedChar c = true ↔ c = underscore ∨ isWordChar c = true := by
  simp only [isAllowedChar, isWordChar, Bool.or_eq_true, beq_iff_eq]
  exact or_comm

variable {hasLetter previous result : Bool}

/-- One round of the character loop. -/
theorem scan_cons_iff :
    scanNickname hasLetter previous (c :: rest) = .ok result ↔
      (c = underscore ∧ previous = false ∧ scanNickname hasLetter true rest = .ok result) ∨
      (isWordChar c = true ∧
        scanNickname (hasLetter || isAsciiLowerLetter c) false rest = .ok result) := by
  simp only [scanNickname, eq_ok, isAllowedChar_iff]
  change (∃ _ : Unit, _ ∧ (if c = underscore then _ else _) = _) ↔ _
  by_cases hc : c = underscore
  · have hword : ¬ isWordChar c = true := fun h => isWordChar_ne_underscore h hc
    simp only [hc]
    rw [hc] at hword
    simp [hword]
  · simp [hc]

theorem scan_hasLetter (h : scanNickname hasLetter previous name = .ok result) :
    result = (hasLetter || name.any isAsciiLowerLetter) := by
  induction name generalizing hasLetter previous with
  | nil =>
    cases h
    simp
  | cons c rest ih =>
    rcases scan_cons_iff.mp h with ⟨rfl, -, h⟩ | ⟨-, h⟩
    · rw [ih h]
      rfl
    · rw [ih h, List.any_cons, Bool.or_assoc]

theorem getLast?_cons_ne {d : UInt8} :
    (c :: rest).getLast? ≠ some d ↔ rest.getLast? ≠ some d ∧ (c = d → rest ≠ []) := by
  cases rest with
  | nil => simp
  | cons e rest => simp

/-- The loop accepts what the language does, from either state of `previousUnderscore`. -/
theorem scan_iff_mem (name : Bytes) (hasLetter : Bool) :
    (((∃ result, scanNickname hasLetter false name = .ok result) ∧
        name.getLast? ≠ some underscore) ↔ name ∈ moreWords ∨ name ∈ nicknameLanguage) ∧
    (((∃ result, scanNickname hasLetter true name = .ok result) ∧
        name.getLast? ≠ some underscore) ↔ name = [] ∨ name ∈ nicknameLanguage) := by
  induction name generalizing hasLetter with
  | nil =>
    have hscan : ∀ previous, ∃ result, scanNickname hasLetter previous [] = .ok result :=
      fun _ => ⟨hasLetter, rfl⟩
    have hmore : [] ∈ moreWords := mem_moreWords.mpr (.inl rfl)
    simp [hscan, hmore]
  | cons c rest ih =>
    simp only [scan_cons_iff, getLast?_cons_ne, cons_mem_nicknameLanguage]
    by_cases hword : isWordChar c = true
    · -- a word goes on: both states behave as after a word character
      have hne := isWordChar_ne_underscore hword
      have hmore : c :: rest ∉ moreWords := by
        rw [mem_moreWords]
        rintro (h | ⟨_, h, -⟩)
        · cases h
        · exact hne (List.cons.inj h).1
      have hih := (ih (hasLetter || isAsciiLowerLetter c)).1
      simp only [hne, hword, hmore, false_and, true_and, false_or, false_implies, and_true,
        reduceCtorEq]
      exact ⟨hih, hih⟩
    · by_cases hc : c = underscore
      · -- an underscore: the next character starts a word
        subst hc
        have hih := (ih hasLetter).2
        have hmore : underscore :: rest ∈ moreWords ↔ rest ∈ nicknameLanguage := by
          rw [mem_moreWords]
          simp
        simp only [hword, hmore, true_and, false_and, or_false,
          reduceCtorEq, forall_const]
        refine ⟨?_, by simp⟩
        constructor
        · rintro ⟨hscan, hlast, hne⟩
          exact (hih.mp ⟨hscan, hlast⟩).resolve_left hne
        · intro hmem
          obtain ⟨hscan, hlast⟩ := hih.mpr (.inr hmem)
          exact ⟨hscan, hlast, fun hnil => nil_notMem_nicknameLanguage (hnil ▸ hmem)⟩
      · have hmore : c :: rest ∉ moreWords := by
          rw [mem_moreWords]
          rintro (h | ⟨_, h, -⟩)
          · cases h
          · exact hc (List.cons.inj h).1
        simp [hc, hword, hmore]

/-- The check accepts the words of the language that have 4 to 16 characters and a letter. -/
theorem isValidNormalizedNickname_iff : isValidNormalizedNickname name = .ok () ↔
      (4 ≤ name.length ∧ name.length ≤ 16) ∧ name ∈ nicknameLanguage ∧
        ∃ c ∈ name, isAsciiLowerLetter c = true := by
  simp only [isValidNormalizedNickname, eq_ok]
  constructor
  · rintro ⟨-, hlen, -, ⟨hhead, hlast⟩, result, hscan, hletter⟩
    refine ⟨hlen, ?_, ?_⟩
    · rcases (scan_iff_mem name false).1.mp ⟨⟨result, hscan⟩, hlast⟩ with hmore | hmem
      · rcases mem_moreWords.mp hmore with rfl | ⟨rest, rfl, -⟩
        · exact absurd hlen.1 (by decide)
        · exact absurd rfl hhead
      · exact hmem
    · rw [scan_hasLetter hscan] at hletter
      exact List.any_eq_true.mp hletter
  · rintro ⟨hlen, hmem, hletter⟩
    obtain ⟨⟨result, hscan⟩, hlast⟩ := (scan_iff_mem name false).1.mpr (.inr hmem)
    have hhead : name.head? ≠ some 0x5f := by
      cases name with
      | nil => simp
      | cons c rest =>
        have hne := isWordChar_ne_underscore (cons_mem_nicknameLanguage.mp hmem).1
        simpa [underscore] using hne
    refine ⟨(), hlen, (), ⟨hhead, hlast⟩, result, hscan, ?_⟩
    rw [scan_hasLetter hscan]
    exact List.any_eq_true.mpr hletter

/-! ## Normal forms -/

/-- `name` is `input` without the white space around it and one at sign in front, in lower case. -/
def NormalForm (input name : Bytes) : Prop :=
  ∃ middle, Trim.Trims isSpace input middle ∧ name = (stripAt middle).map toLower

theorem normalForm_iff {input : Bytes} :
    NormalForm input name ↔ name = normalizeNickname input := by
  constructor
  · rintro ⟨middle, htrims, rfl⟩
    rw [Trim.trims_iff.mp htrims]
    rfl
  · rintro rfl
    exact ⟨_, Trim.trims_iff.mpr rfl, rfl⟩

end KubuCore.Nicknames

namespace KubuCore.Nickname

open Nicknames
open Rows

/-! ## Keys -/

theorem states_indexBondOutpoint (scan : BlockScan) (nickname : Bytes)
    (state : NicknameWorkingState) :
    (scan.indexBondOutpoint nickname state).states = scan.states := by
  have hunindex : (scan.unindexBondOutpoint nickname).states = scan.states := by
    unfold BlockScan.unindexBondOutpoint
    split <;> rfl
  unfold BlockScan.indexBondOutpoint
  split
  · exact hunindex
  · exact hunindex

/-- The first use of a name in a block reads the row under it and keeps it under it. -/
theorem loadState_key (db : NicknameStateDB) {scan : BlockScan} {name : Bytes}
    (normal : normalizeNickname name = name) (fresh : scan.states[name]? = none) :
    ∃ state, (loadState db scan name).1.states[name]? = some state ∧
      state.existedBefore = (db.get? (.nickname name)).isSome ∧
      state.before = (db.get? (.nickname name)).getD {} := by
  have hload : (loadState db scan name).1 =
      (scan.setState name (readState db name)).indexBondOutpoint name (readState db name) := by
    simp [loadState, fresh]
  refine ⟨readState db name, ?_, ?_⟩
  · rw [hload, states_indexBondOutpoint]
    exact Std.ExtTreeMap.getElem?_insert_self
  · have hread : readNickname db name = db.get? (.nickname name) := by
      rw [readNickname, normalizeKeyName, normal]
    rw [readState, hread]
    cases db.get? (.nickname name) with
    | none => exact ⟨rfl, rfl⟩
    | some stored => exact ⟨rfl, rfl⟩

/-- Two names lead to the same record, whatever the database holds, when their keys agree. -/
theorem readNickname_same_iff {input other : Bytes} :
    (∀ db, readNickname db input = readNickname db other) ↔
      normalizeNickname input = normalizeNickname other := by
  constructor
  · intro h
    by_contra hne
    let op : RowOp Row := .write (.nickname (normalizeNickname input)) {}
    have hkey : op.key ≠ .nickname (normalizeNickname other) := fun heq =>
      hne (DbKey.nickname.inj heq)
    have hself : (op.apply ∅).get? (.nickname (normalizeNickname input)) = some {} :=
      get?_apply_write_self _ _ _
    have hsame := h (op.apply ∅)
    rw [readNickname, readNickname, normalizeKeyName, normalizeKeyName, hself,
      get?_apply_of_ne _ hkey] at hsame
    simp at hsame
  · intro h db
    rw [readNickname, readNickname, normalizeKeyName, normalizeKeyName, h]

/-- The layers that agree on the key `name` for an input: its normal form is itself, the database
and the working states of a block use it, and it is the name an encoded operation decodes to. -/
structure KeyOf (input name : Bytes) : Prop where
  fixed : normalizeNickname name = name
  read : ∀ db, readNickname db input = db.get? (.nickname name) ∧
    readNickname db name = db.get? (.nickname name)
  working : ∀ db (scan : BlockScan), scan.states[name]? = none →
    ∃ state, (loadState db scan name).1.states[name]? = some state ∧
      state.existedBefore = (db.get? (.nickname name)).isSome ∧
      state.before = (db.get? (.nickname name)).getD {}
  decoded : ∀ (env : Env) (parseAddress : String → Option CTxDestination)
    (operation : NicknameOperation) (script : CScript), operation.nickname = input →
    buildNicknameOpScript parseAddress operation = .ok script →
    ∃ decoded, extractNicknameOperation env script = .ok decoded ∧ decoded.nickname = name

theorem keyOf_normalizeNickname {input : Bytes}
    (valid : isValidNormalizedNickname (normalizeNickname input) = .ok ()) :
    KeyOf input (normalizeNickname input) := by
  have fixed := normalizeNickname_of_valid valid
  refine ⟨fixed, fun db => ⟨rfl, ?_⟩, fun db scan => loadState_key db fixed, ?_⟩
  · rw [readNickname, normalizeKeyName, fixed]
  · rintro env parseAddress operation script rfl hbuild
    refine ⟨_, (extract_build hbuild).2, ?_⟩
    rw [decodedOperation]
    split <;> rfl

/-- Which names are valid, that every layer uses the normal form of an input as its key when it is
valid, and that two such inputs address one record when their normal forms agree. -/
theorem nickname_keys_agree :
    (∀ name, isValidNormalizedNickname name = .ok () ↔
      (4 ≤ name.length ∧ name.length ≤ 16) ∧ name ∈ nicknameLanguage ∧
        ∃ c ∈ name, isAsciiLowerLetter c = true) ∧
    (∀ input, isValidNormalizedNickname (normalizeNickname input) = .ok () →
      KeyOf input (normalizeNickname input)) ∧
    ∀ input other, isValidNormalizedNickname (normalizeNickname input) = .ok () →
      isValidNormalizedNickname (normalizeNickname other) = .ok () →
      ((∀ db, readNickname db input = readNickname db other) ↔
        ∃ name, NormalForm input name ∧ NormalForm other name) := by
  refine ⟨fun name => isValidNormalizedNickname_iff, fun input => keyOf_normalizeNickname, ?_⟩
  intro input other _ _
  simp only [readNickname_same_iff, normalForm_iff, exists_eq_left]

/-- `@Bob_1` and ` bob_1` are one name. -/
theorem nickname_keys_agree_sample :
    KeyOf [0x40, 0x42, 0x6f, 0x62, 0x5f, 0x31] [0x62, 0x6f, 0x62, 0x5f, 0x31] ∧
      ∀ db, readNickname db [0x40, 0x42, 0x6f, 0x62, 0x5f, 0x31] =
        readNickname db [0x20, 0x62, 0x6f, 0x62, 0x5f, 0x31] :=
  ⟨nickname_keys_agree.2.1 _ (by decide),
    (nickname_keys_agree.2.2 _ _ (by decide) (by decide)).mpr
      ⟨[0x62, 0x6f, 0x62, 0x5f, 0x31], normalForm_iff.mpr (by decide),
        normalForm_iff.mpr (by decide)⟩⟩

end KubuCore.Nickname
