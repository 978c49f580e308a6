import KubuCore.Base.Paging
import KubuCore.Nickname.Index

/-!
# Listing the names of an owner

`ListNicknamesForOwnerKeyIDs` walks the owner index from a start name on and
returns the first records it met in the order of their names. The index is
ordered by the serialized key, in which the length of a name comes before its
letters; the result is ordered by the letters alone. A client that asks for the
next page from the last name it was given therefore sees all names exactly when
the two orders agree at the names where the pages begin.
-/

namespace KubuCore.Nickname

open Chain Checked Rows Paging Script
open Std

variable {ownerKeyID : Uint160} {name a b : Bytes} {ownerKeyIDs : List Uint160}

/-! ## The source -/

/-- The name of an owner-index key of the given owner. -/
def DbKey.ownedName (ownerKeyID : Uint160) : DbKey → Option Bytes
  | .ownerKeyID keyID name => if keyID = ownerKeyID then some name else none
  | _ => none

/-- The names the loop meets: from where the iterator is placed up to the first
key that is not one of the owner's. -/
def ownerNames (db : NicknameStateDB) (normalizedStart : Bytes) (ownerKeyID : Uint160) :
    List Bytes :=
  ((seek db (.ownerKeyID ownerKeyID normalizedStart)).takeWhile fun key =>
    (key.ownedName ownerKeyID).isSome).filterMap (DbKey.ownedName ownerKeyID)

def dedupName (db : NicknameStateDB) (dedup : ExtTreeMap Bytes NicknameInfo) (name : Bytes) :
    ExtTreeMap Bytes NicknameInfo :=
  match db.get? (.nickname name) with
  | some info => dedup.insert (normalizeKeyName info.nickname) info
  | none => dedup

/-- The map `dedup` when the loops are done. -/
def ownedFrom (env : Env) (db : NicknameStateDB) (ownerKeyIDs : List Uint160)
    (startNickname : Bytes) : ExtTreeMap Bytes NicknameInfo :=
  let db := ensureOwnerIndexReady env db
  let normalizedStart := normalizeKeyName startNickname
  ownerKeyIDs.foldl
    (fun dedup ownerKeyID => (ownerNames db normalizedStart ownerKeyID).foldl (dedupName db) dedup)
    ∅

/-- The order and repetitions of `ownerKeyIDs`, a set in the source, do not
matter. What `EnsureOwnerIndexReady` writes on the way is not returned. -/
def listNicknamesForOwnerKeyIDs (env : Env) (db : NicknameStateDB) (ownerKeyIDs : List Uint160)
    (startNickname : Bytes) (limit : Nat) : List NicknameInfo :=
  if limit = 0 ∨ ownerKeyIDs = [] then []
  else ((ownedFrom env db ownerKeyIDs startNickname).toList.map Prod.snd).take limit

/-- The page a client asks for: from the empty name, then from the last name it
was given. -/
def ownerPage (env : Env) (db : NicknameStateDB) (ownerKeyIDs : List Uint160) (limit : Nat)
    (last : Option NicknameInfo) : List NicknameInfo :=
  listNicknamesForOwnerKeyIDs env db ownerKeyIDs ((last.map NicknameInfo.nickname).getD []) limit

/-! ## The order of the index -/

/-- Whether one name stands before another in the index of their owner. -/
def indexBefore (a b : Bytes) : Bool :=
  (compare a.length b.length).then (compare a b) == .lt

theorem indexBefore_nil (name : Bytes) : indexBefore name [] = false := by
  cases name with
  | nil => rfl
  | cons x name => simp [indexBefore, Nat.compare_eq_gt.mpr (Nat.succ_pos name.length)]

theorem compare_append_left (p u v : List Nat) : compare (p ++ u) (p ++ v) = compare u v := by
  induction p with
  | nil => rfl
  | cons x p ih => rw [List.cons_append, List.cons_append, List.compare_cons_cons, ih]; simp

theorem compare_toNat (x y : UInt8) : compare x.toNat y.toNat = compare x y := by
  simp only [compare, compareOfLessAndEq, UInt8.lt_iff_toNat_lt, UInt8.toNat_inj]

theorem compare_map_toNat (a b : Bytes) :
    compare (a.map UInt8.toNat) (b.map UInt8.toNat) = compare a b := by
  induction a generalizing b with
  | nil => cases b <;> rfl
  | cons x a ih =>
    cases b with
    | nil => rfl
    | cons y b =>
      rw [List.map_cons, List.map_cons, List.compare_cons_cons, List.compare_cons_cons, ih,
        compare_toNat]

theorem compare_ownerKeyID (keyID : Uint160) (a b : Bytes) :
    compare (DbKey.ownerKeyID keyID a) (.ownerKeyID keyID b) =
      (compare a.length b.length).then (compare a b) := by
  change compare (DbKey.code _) (DbKey.code _) = _
  rw [DbKey.code, DbKey.code, List.compare_cons_cons, compare_append_left,
    List.compare_cons_cons, compare_map_toNat]
  simp

/-- What lies between two lists with a common beginning has that beginning. -/
theorem append_of_between {p u v x : List Nat} (low : compare x (p ++ u) ≠ .lt)
    (high : compare x (p ++ v) = .lt) : ∃ w, x = p ++ w := by
  induction p generalizing x with
  | nil => exact ⟨x, rfl⟩
  | cons a p ih =>
    cases x with
    | nil => exact absurd rfl low
    | cons b x =>
      rw [List.cons_append, List.compare_cons_cons] at low high
      rcases Nat.lt_trichotomy b a with hlt | rfl | hgt
      · rw [Nat.compare_eq_lt.mpr hlt] at low
        exact absurd rfl low
      · rw [Nat.compare_eq_eq.mpr rfl] at low high
        obtain ⟨w, rfl⟩ := ih low high
        exact ⟨w, rfl⟩
      · rw [Nat.compare_eq_gt.mpr hgt] at high
        cases high

variable {key : DbKey} {start : Bytes} {db : NicknameStateDB}

/-- A key whose code begins as the owner's keys do is one of them. -/
theorem ownedName_of_code {w : List Nat}
    (h : key.code = (0x6f :: ownerKeyID.val.map UInt8.toNat) ++ w) :
    (key.ownedName ownerKeyID).isSome = true := by
  cases key with
  | ownerKeyID keyID name =>
    obtain ⟨hkey, -⟩ := List.append_inj (List.cons.inj h).2
      (by simp [keyID.property, ownerKeyID.property])
    have hk : keyID = ownerKeyID := Subtype.ext (map_toNat_injective hkey)
    simp [DbKey.ownedName, hk]
  | _ => simp [DbKey.code] at h

theorem ownedName_eq_some :
    key.ownedName ownerKeyID = some name ↔ key = .ownerKeyID ownerKeyID name := by
  cases key with
  | ownerKeyID keyID n =>
    simp only [DbKey.ownedName]
    split <;> simp_all
  | _ => simp [DbKey.ownedName]

/-- The keys of one owner are adjacent. -/
theorem ownedName_convex {x y : DbKey} (low : compare x (.ownerKeyID ownerKeyID start) ≠ .lt)
    (high : compare x y = .lt) (hy : (y.ownedName ownerKeyID).isSome = true) :
    (x.ownedName ownerKeyID).isSome = true := by
  obtain ⟨name, hname⟩ := Option.isSome_iff_exists.mp hy
  obtain rfl := ownedName_eq_some.mp hname
  obtain ⟨w, hw⟩ : ∃ w, x.code = (0x6f :: ownerKeyID.val.map UInt8.toNat) ++ w :=
    append_of_between low high
  exact ownedName_of_code hw

theorem mem_ownerNames :
    name ∈ ownerNames db start ownerKeyID ↔
      (db.get? (.ownerKeyID ownerKeyID name)).isSome ∧ indexBefore name start = false := by
  rw [ownerNames, List.mem_filterMap]
  simp only [ownedName_eq_some, exists_eq_right]
  rw [mem_seek_takeWhile db (fun x y => ownedName_convex), compare_ownerKeyID,
    ExtDTreeMap.mem_keys]
  simp [DbKey.ownedName, indexBefore]

/-! ## What a call returns -/

/-- What a single call without a limit returns. -/
def ownedRows (env : Env) (db : NicknameStateDB) (ownerKeyIDs : List Uint160) :
    List NicknameInfo :=
  (ownedFrom env db ownerKeyIDs []).toList.map Prod.snd

/-- Whether a call that starts at the name of `last` still returns `info`. -/
def shownFrom (last info : NicknameInfo) : Bool :=
  !indexBefore info.nickname (normalizeKeyName last.nickname)

theorem ensureOwnerIndexReady_records (env : Env) (db : NicknameStateDB) :
    storedRecords (ensureOwnerIndexReady env db) = storedRecords db := by
  funext name
  unfold ensureOwnerIndexReady
  split
  · rfl
  · refine get?_of_untouched db ?_
    simp only [touches_append, touches_map, touches_flatMap, touches_cons, not_touches_nil]
    rintro ((⟨key, -, he⟩ | ⟨row, -, op, ho, he⟩) | he | he)
    · cases he
    · rw [writeOwnerIndexEntry] at ho
      split at ho
      · obtain rfl := List.mem_singleton.mp ho
        cases he
      · cases ho
    · cases he
    · exact he

theorem listNicknames_eq {env : Env} {limit : Nat} (startNickname : Bytes) (hlimit : limit ≠ 0) :
    listNicknamesForOwnerKeyIDs env db ownerKeyIDs startNickname limit =
      ((ownedFrom env db ownerKeyIDs startNickname).toList.map Prod.snd).take limit := by
  rw [listNicknamesForOwnerKeyIDs]
  split
  · rename_i hnone
    rw [hnone.resolve_left hlimit, show ownedFrom env db [] startNickname = ∅ from rfl]
    simp
  · rfl

section
variable {env : Env} {height : Int} {db : NicknameStateDB}
  (ok : ∀ name info, storedRecords db name = some info → RecordOk env height name info)
  (exact : OwnerExact env db)

include ok in
theorem getElem?_dedupName (dedup : ExtTreeMap Bytes NicknameInfo) (n name : Bytes) :
    (dedupName db dedup n)[name]? =
      if n = name then (storedRecords db name).or dedup[name]? else dedup[name]? := by
  rw [dedupName]
  cases hn : storedRecords db n with
  | none =>
    simp only [show db.get? (.nickname n) = none from hn]
    by_cases he : n = name
    · subst he
      rw [if_pos rfl, hn, Option.none_or]
    · rw [if_neg he]
  | some info =>
    have hkey : normalizeKeyName info.nickname = n := by
      rw [(ok n info hn).name, (ok n info hn).normal]
    simp only [show db.get? (.nickname n) = some info from hn, hkey,
      ExtTreeMap.getElem?_insert, LawfulEqCmp.compare_eq_iff_eq]
    by_cases he : n = name
    · subst he
      rw [if_pos rfl, if_pos rfl, hn, Option.some_or]
    · rw [if_neg he, if_neg he]

include ok in
theorem getElem?_dedupNames
    (names : List Bytes) (dedup : ExtTreeMap Bytes NicknameInfo) (name : Bytes) :
    (names.foldl (dedupName db) dedup)[name]? =
      if name ∈ names then (storedRecords db name).or dedup[name]? else dedup[name]? := by
  induction names generalizing dedup with
  | nil => simp
  | cons n names ih =>
    rw [List.foldl_cons, ih, getElem?_dedupName ok]
    by_cases hn : n = name
    · subst hn
      cases storedRecords db n <;> simp
    · simp [hn, Ne.symm hn]

include ok exact

/-- The names of the map are those of the owners that the index does not place
before the start. -/
theorem getElem?_ownedFrom (ownerKeyIDs : List Uint160) (startNickname name : Bytes)
    (info : NicknameInfo) :
    (ownedFrom env db ownerKeyIDs startNickname)[name]? = some info ↔
      storedRecords db name = some info ∧ env.hash160 info.ownerPubKey ∈ ownerKeyIDs ∧
        indexBefore name (normalizeKeyName startNickname) = false := by
  have hrecords := ensureOwnerIndexReady_records env db
  rw [ownedFrom, ← List.foldl_flatMap, getElem?_dedupNames (hrecords ▸ ok), hrecords]
  have hmem : name ∈ ownerKeyIDs.flatMap
      (ownerNames (ensureOwnerIndexReady env db) (normalizeKeyName startNickname)) ↔
      (∃ found, storedRecords db name = some found ∧ env.hash160 found.ownerPubKey ∈ ownerKeyIDs) ∧
        indexBefore name (normalizeKeyName startNickname) = false := by
    simp only [List.mem_flatMap, mem_ownerNames, ensureOwnerIndexReady_owner ok exact,
      exact.isSome_iff]
    constructor
    · rintro ⟨_, hkey, ⟨found, hr, rfl⟩, hbefore⟩
      exact ⟨⟨found, hr, hkey⟩, hbefore⟩
    · rintro ⟨⟨found, hr, hkey⟩, hbefore⟩
      exact ⟨_, hkey, ⟨found, hr, rfl⟩, hbefore⟩
  split_ifs with hin
  · obtain ⟨⟨found, hr, hkey⟩, hbefore⟩ := hmem.mp hin
    rw [hr]
    constructor
    · rintro ⟨⟩
      exact ⟨rfl, hkey, hbefore⟩
    · exact And.left
  · constructor
    · intro h
      cases h
    · rintro ⟨hr, hkey, hbefore⟩
      exact absurd (hmem.mpr ⟨⟨info, hr, hkey⟩, hbefore⟩) hin

theorem mem_ownedFrom {info : NicknameInfo} :
    (name, info) ∈ (ownedFrom env db ownerKeyIDs []).toList ↔
      storedRecords db name = some info ∧ env.hash160 info.ownerPubKey ∈ ownerKeyIDs := by
  rw [ExtTreeMap.mem_toList_iff_getElem?_eq_some, getElem?_ownedFrom ok exact,
    show normalizeKeyName [] = [] from rfl, indexBefore_nil]
  simp

theorem mem_ownedRows {info : NicknameInfo} : info ∈ ownedRows env db ownerKeyIDs ↔
      ∃ name, storedRecords db name = some info ∧
        env.hash160 info.ownerPubKey ∈ ownerKeyIDs := by
  simp only [ownedRows, List.mem_map, Prod.exists, exists_eq_right, mem_ownedFrom ok exact]

/-- The rows stand in the order of the letters of their names. -/
theorem ownedRows_ordered (ownerKeyIDs : List Uint160) :
    (ownedRows env db ownerKeyIDs).Pairwise
      fun a b => compare a.nickname b.nickname = .lt := by
  rw [ownedRows, List.pairwise_map]
  refine ExtTreeMap.ordered_keys_toList.imp_of_mem ?_
  rintro ⟨name, info⟩ ⟨name', info'⟩ hmem hmem' hlt
  rw [mem_ownedFrom ok exact] at hmem hmem'
  rw [(ok name info hmem.1).name, (ok name' info' hmem'.1).name]
  exact hlt

/-- A later start leaves out what the index places before it. -/
theorem ownedFrom_start (ownerKeyIDs : List Uint160) (last : NicknameInfo) :
    ownedFrom env db ownerKeyIDs last.nickname =
      (ownedFrom env db ownerKeyIDs []).filter fun _ info => shownFrom last info := by
  refine ExtTreeMap.ext_getElem? fun name => Option.ext fun info => ?_
  rw [ExtTreeMap.getElem?_filter', Option.filter_eq_some_iff, getElem?_ownedFrom ok exact,
    getElem?_ownedFrom ok exact, show normalizeKeyName [] = [] from rfl, indexBefore_nil,
    shownFrom, Bool.not_eq_true']
  constructor
  · rintro ⟨hr, hkey, hbefore⟩
    exact ⟨⟨hr, hkey, rfl⟩, (ok name info hr).name ▸ hbefore⟩
  · rintro ⟨⟨hr, hkey, -⟩, hbefore⟩
    exact ⟨hr, hkey, (ok name info hr).name ▸ hbefore⟩

/-- The pages of the source are pages of the rows, filtered by the index. -/
theorem ownerPage_eq (ownerKeyIDs : List Uint160) {limit : Nat} (hlimit : limit ≠ 0) :
    ownerPage env db ownerKeyIDs limit = pageOf (ownedRows env db ownerKeyIDs) shownFrom limit := by
  funext last
  rw [ownerPage, listNicknames_eq _ hlimit]
  cases last with
  | none => rfl
  | some last =>
    rw [Option.map_some, Option.getD_some, ownedFrom_start ok exact,
      ExtTreeMap.toList_filter, pageOf, ownedRows, List.filter_map]
    rfl

end

/-! ## Where the pages begin -/

theorem indexBefore_iff : indexBefore a b = true ↔
    a.length < b.length ∨ a.length = b.length ∧ compare a b = .lt := by
  rw [indexBefore, beq_iff_eq, Ordering.then_eq_lt, Nat.compare_eq_lt, Nat.compare_eq_eq]

theorem indexBefore_eq_false : indexBefore a b = false ↔
    b.length < a.length ∨ b.length = a.length ∧ (compare b a).isLE = true := by
  rw [← Bool.not_eq_true, indexBefore_iff, ← OrientedCmp.isGE_iff_isLE, ← Ordering.ne_lt_iff_isGE]
  constructor
  · intro h
    by_cases he : a.length = b.length
    · exact .inr ⟨he.symm, fun hlt => h (.inr ⟨he, hlt⟩)⟩
    · exact .inl (by omega)
  · rintro (hlt | ⟨he, hge⟩) (hlt' | ⟨he', hlt'⟩)
    · omega
    · omega
    · omega
    · exact hge hlt'

theorem indexBefore_trans {c : Bytes} (hab : indexBefore b a = false)
    (hbc : indexBefore c b = false) : indexBefore c a = false := by
  rw [indexBefore_eq_false] at hab hbc ⊢
  rcases hab with hab | ⟨heq, hab⟩ <;> rcases hbc with hbc | ⟨heq', hbc⟩
  · exact .inl (by omega)
  · exact .inl (by omega)
  · exact .inl (by omega)
  · exact .inr ⟨by omega, TransCmp.isLE_trans hab hbc⟩

/-- Among rows in the order of their letters, the index agrees at a row exactly
when none before it is longer and none after it is shorter. -/
theorem agrees_iff {before rest : List NicknameInfo} {s : NicknameInfo}
    (ordered : (before ++ s :: rest).Pairwise fun a b => compare a.nickname b.nickname = .lt)
    (normal : normalizeKeyName s.nickname = s.nickname) :
    Agrees shownFrom before s rest ↔
      (∀ x ∈ before, x.nickname.length ≤ s.nickname.length) ∧
        ∀ x ∈ rest, s.nickname.length ≤ x.nickname.length := by
  rw [List.pairwise_append, List.pairwise_cons] at ordered
  obtain ⟨-, ⟨hrest, -⟩, hbefore⟩ := ordered
  have hhidden : ∀ x ∈ before,
      (shownFrom s x = false ↔ x.nickname.length ≤ s.nickname.length) := by
    intro x hx
    rw [shownFrom, normal, Bool.not_eq_false', indexBefore_iff]
    have hlt := hbefore x hx s List.mem_cons_self
    simp only [hlt, and_true]
    omega
  have hshown : ∀ x ∈ rest,
      (shownFrom s x = true ↔ s.nickname.length ≤ x.nickname.length) := by
    intro x hx
    rw [shownFrom, normal, Bool.not_eq_true', indexBefore_eq_false]
    have hle : (compare s.nickname x.nickname).isLE = true := by rw [hrest x hx]; rfl
    simp only [hle, and_true]
    omega
  constructor
  · intro h
    exact ⟨fun x hx => (hhidden x hx).mp (h.hidden x hx),
      fun x hx => (hshown x hx).mp (h.shown x hx)⟩
  · intro h
    exact ⟨fun x hx => (hhidden x hx).mpr (h.1 x hx), fun x hx => (hshown x hx).mpr (h.2 x hx)⟩

/-- In every reachable ledger a call without a limit returns each record of the
owners once, and a client that asks for pages of at least two rows, each from
the last name of the one before it, comes to an end with exactly these rows if
and only if at each row where a page begins no earlier name is longer and no
later one is shorter. -/
theorem owner_pages_iff {env : Env} {ledger : Ledger} (h : Reachable env ledger)
    (ownerKeyIDs : List Uint160) {limit : Nat} (hlimit : 2 ≤ limit) :
    (∀ limit', (ownedRows env ledger.db ownerKeyIDs).length ≤ limit' →
      listNicknamesForOwnerKeyIDs env ledger.db ownerKeyIDs [] limit' =
        ownedRows env ledger.db ownerKeyIDs) ∧
    ((ownedRows env ledger.db ownerKeyIDs).map NicknameInfo.nickname).Nodup ∧
    (∀ info, info ∈ ownedRows env ledger.db ownerKeyIDs ↔
      ∃ name, storedRecords ledger.db name = some info ∧
        env.hash160 info.ownerPubKey ∈ ownerKeyIDs) ∧
    ((∃ fuel, readPages (ownerPage env ledger.db ownerKeyIDs limit) limit fuel none =
        some (ownedRows env ledger.db ownerKeyIDs)) ↔
      ∀ i before s rest, 0 < i → ownedRows env ledger.db ownerKeyIDs = before ++ s :: rest →
        before.length = i * (limit - 1) →
        (∀ x ∈ before, x.nickname.length ≤ s.nickname.length) ∧
          ∀ x ∈ rest, s.nickname.length ≤ x.nickname.length) := by
  have ok := h.ok.db.records
  have owner := h.ok.owner
  have ordered := ownedRows_ordered ok owner ownerKeyIDs
  have distinct : ((ownedRows env ledger.db ownerKeyIDs).map NicknameInfo.nickname).Nodup := by
    rw [List.Nodup, List.pairwise_map]
    refine ordered.imp fun {a b} hlt he => ?_
    have hself : compare b.nickname b.nickname = .eq := ReflCmp.compare_self
    rw [he, hself] at hlt
    cases hlt
  have normal : ∀ s ∈ ownedRows env ledger.db ownerKeyIDs,
      normalizeKeyName s.nickname = s.nickname := by
    intro s hs
    obtain ⟨name, hr, -⟩ := (mem_ownedRows ok owner).mp hs
    rw [(ok name s hr).name, (ok name s hr).normal]
  refine ⟨fun limit' hlen => ?_, distinct, fun info => mem_ownedRows ok owner, ?_⟩
  · by_cases hzero : limit' = 0
    · subst hzero
      rw [List.eq_nil_of_length_eq_zero (Nat.le_zero.mp hlen), listNicknamesForOwnerKeyIDs,
        if_pos (.inl rfl)]
    · rw [listNicknames_eq _ hzero]
      exact List.take_of_length_le hlen
  · rw [ownerPage_eq ok owner ownerKeyIDs (by omega),
      readPages_iff (List.Nodup.of_map _ distinct) ?_ ?_ hlimit]
    · refine forall₄_congr fun i before s rest => imp_congr_right fun _ =>
        forall_congr' fun hrows => imp_congr_right fun _ => ?_
      exact agrees_iff (hrows ▸ ordered) (normal s (by simp [hrows]))
    · intro s hs
      rw [shownFrom, normal s hs, Bool.not_eq_true', indexBefore_eq_false]
      have hself : compare s.nickname s.nickname = .eq := ReflCmp.compare_self
      exact .inr ⟨rfl, by rw [hself]; rfl⟩
    · intro a ha b hb c _ hab hbc
      rw [shownFrom, Bool.not_eq_true'] at hab hbc ⊢
      rw [normal b hb] at hbc
      exact indexBefore_trans hab hbc

/-! ## Clients that come to an end, and one that does not -/

/-- The registration of a name for the sample key, the `i`-th of a block. -/
def namedTx (i : Nat) (name : Bytes) : CTransaction where
  nVersion := 1
  vin := [⟨⟨1, i⟩, [], 0xffffffff, []⟩]
  vout := [⟨0, opReturn :: pushBytes (kubuNicknameMagic ++ [1, UInt8.ofNat name.length] ++ name ++
      (33 :: sampleKey ++ [21, destPKH] ++ sampleKeyHash.val))⟩,
    ⟨(Nicknames.getPricing name.length 1000).bondAmount, getScriptForRawPubKey sampleKey⟩]
  nLockTime := i + 1
  voutSize := two_le_maxSize

/-- The lock time stands for the id. -/
def namesEnv : Env := { sampleEnv with txHash := fun tx => BitVec.ofNat 256 (tx.nLockTime + 1) }

def namesBlock (names : List Bytes) : CBlock :=
  ⟨1, sampleCoinbase 1 :: names.zipIdx.map fun (name, i) => namedTx i name⟩

/-- The ledger after one block that registers the names. -/
def namesLedger (names : List Bytes) : Ledger :=
  Ledger.empty.next namesEnv (namesBlock names) (names.map fun _ => [{ txout := toSampleKey 4800 }])
    (0 :: names.map fun name => (Nicknames.getPricing name.length 1000).registrationFee)

def namesRows (names : List Bytes) : List NicknameInfo :=
  ownedRows namesEnv (namesLedger names).db [sampleKeyHash]

def namesPage (names : List Bytes) : Nat → Option NicknameInfo → List NicknameInfo :=
  ownerPage namesEnv (namesLedger names).db [sampleKeyHash]

/-- `bobby`, `carol` and `david`. -/
def threeNames : List Bytes :=
  [[0x62, 0x6f, 0x62, 0x62, 0x79], [0x63, 0x61, 0x72, 0x6f, 0x6c], [0x64, 0x61, 0x76, 0x69, 0x64]]

/-- Three equally long names are read with pages of two rows. -/
theorem owner_pages_iff_three :
    (namesRows threeNames).map NicknameInfo.nickname = threeNames ∧
      ∃ fuel, readPages (namesPage threeNames 2) 2 fuel none = some (namesRows threeNames) := by
  have reachable : Reachable namesEnv (namesLedger threeNames) :=
    .next .start (.connect (by decide +kernel) (Ledger.connect_next (by decide +kernel)))
  have hfive : ∀ info ∈ namesRows threeNames, info.nickname.length = 5 := by decide +kernel
  obtain ⟨-, -, -, hpages⟩ := owner_pages_iff reachable [sampleKeyHash] (show 2 ≤ 2 by decide)
  refine ⟨by decide +kernel, hpages.mpr fun i before s rest hi hrows hlength => ?_⟩
  have hlen : ∀ info ∈ before ++ s :: rest, info.nickname.length = 5 := hrows ▸ hfive
  have hs := hlen s (by simp)
  exact ⟨fun x hx => (hlen x (by simp [hx])).trans_le hs.ge,
    fun x hx => hs.trans_le (hlen x (by simp [hx])).ge⟩

/-- A short name that comes after `alice_kubu` by its letters, and before it in the index. -/
def twoNames : List Bytes := [sampleName, [0x62, 0x6f, 0x62, 0x62, 0x79]]

/-- With pages of two rows the client is given both names again and again. -/
theorem owner_pages_repeat :
    Reachable namesEnv (namesLedger twoNames) ∧
      (namesRows twoNames).map NicknameInfo.nickname = twoNames ∧
      ∀ fuel, readPages (namesPage twoNames 2) 2 fuel none = none := by
  have hfirst : namesPage twoNames 2 none = namesRows twoNames := by decide +kernel
  have hnext : namesPage twoNames 2 (namesRows twoNames).getLast? = namesRows twoNames := by
    decide +kernel
  have hlen : 2 ≤ (namesRows twoNames).length := by decide +kernel
  have hstuck : ∀ fuel,
      readPages (namesPage twoNames 2) 2 fuel (namesRows twoNames).getLast? = none := by
    intro fuel
    induction fuel with
    | zero => rfl
    | succ fuel ih =>
      rw [readPages_full (by rw [hnext]; exact hlen), hnext, ih]
      rfl
  refine ⟨.next .start (.connect (by decide +kernel) (Ledger.connect_next (by decide +kernel))),
    by decide +kernel, fun fuel => ?_⟩
  cases fuel with
  | zero => rfl
  | succ fuel =>
    rw [readPages_full (by rw [hfirst]; exact hlen), hfirst, hstuck]
    rfl

end KubuCore.Nickname
