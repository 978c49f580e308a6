import KubuCore.Base.Sets
import KubuCore.Primitives

/-!
# The encrypted key store

`CCryptoKeyStore` of `crypter.cpp` over `CBasicKeyStore`. AES, signing and the way from a
private to a public key are given. Watched keys and scripts are left out.
-/

namespace KubuCore.Wallet

open Std

/-- A valid private key. -/
structure CKey where
  secret : Bytes
  fCompressed : Bool
  size : secret.length = 32
deriving DecidableEq

/-- What the store takes from outside. -/
structure KeyCrypto where
  env : Env
  getPubKey : CKey → CPubKey
  /-- The bytes are a private key whose signatures this public key accepts. -/
  signsFor : Bytes → CPubKey → Bool
  /-- `AES256CBCEncrypt::Encrypt` with a key and an initialization vector. -/
  aesEncrypt : Bytes → Bytes → Bytes → Bytes
  /-- `AES256CBCDecrypt::Decrypt`; nothing stands for bad padding. -/
  aesDecrypt : Bytes → Bytes → Bytes → Bytes

structure CCryptoKeyStore where
  mapKeys : ExtTreeMap Bytes CKey := ∅
  mapCryptedKeys : ExtTreeMap Bytes (CPubKey × Bytes) := ∅
  vMasterKey : Bytes := []
  fUseCrypto : Bool := false
  fDecryptionThoroughlyChecked : Bool := false

section Crypter

variable (crypto : KeyCrypto)

/-- `GetID`, as the bytes of the hash. -/
def KeyCrypto.getID (pubkey : CPubKey) : Bytes := (crypto.env.hash160 pubkey).val

/-- The initialization vector: the first bytes of `GetHash`. -/
def KeyCrypto.chIV (pubkey : CPubKey) : Bytes := (crypto.env.hash256 pubkey).take 16

def encryptSecret (vMasterKey vchPlaintext chIV : Bytes) : Option Bytes :=
  if vMasterKey.length = 32 then
    let vchCiphertext := crypto.aesEncrypt vMasterKey chIV vchPlaintext
    if vchCiphertext.length < vchPlaintext.length then none else some vchCiphertext
  else none

def decryptSecret (vMasterKey vchCiphertext chIV : Bytes) : Option Bytes :=
  if vMasterKey.length = 32 then
    let vchPlaintext := crypto.aesDecrypt vMasterKey chIV vchCiphertext
    if vchPlaintext = [] then none else some vchPlaintext
  else none

/-- `VerifyPubKey` of a key that was `Set` from a secret. -/
def verifyPubKey (key : CKey) (pubkey : CPubKey) : Bool :=
  CPubKey.isCompressed pubkey == key.fCompressed && crypto.signsFor key.secret pubkey

def decryptKey (vMasterKey vchCryptedSecret : Bytes) (vchPubKey : CPubKey) : Option CKey := do
  let vchSecret ← decryptSecret crypto vMasterKey vchCryptedSecret (crypto.chIV vchPubKey)
  if h : vchSecret.length = 32 then
    let key : CKey := ⟨vchSecret, CPubKey.isCompressed vchPubKey, h⟩
    if verifyPubKey crypto key vchPubKey then some key else none
  else none

end Crypter

namespace CCryptoKeyStore

variable (crypto : KeyCrypto) (store : CCryptoKeyStore)

def isLocked : Bool := store.fUseCrypto && store.vMasterKey.isEmpty

/-- `SetCrypted`; no result stands for `false`. -/
def setCrypted : Option CCryptoKeyStore :=
  if store.fUseCrypto then some store
  else if !store.mapKeys.isEmpty then none
  else some { store with fUseCrypto := true }

def lock : Bool × CCryptoKeyStore :=
  match store.setCrypted with
  | none => (false, store)
  | some store => (true, { store with vMasterKey := [] })

/-- The loop of `Unlock`: whether a key was decrypted, and whether one was not. -/
def unlockLoop (vMasterKeyIn : Bytes) (keyPass : Bool) :
    List (Bytes × CPubKey × Bytes) → Bool × Bool
  | [] => (keyPass, false)
  | (_, vchPubKey, vchCryptedSecret) :: rest =>
    match decryptKey crypto vMasterKeyIn vchCryptedSecret vchPubKey with
    | none => (keyPass, true)
    | some _ =>
      if store.fDecryptionThoroughlyChecked then (true, false)
      else unlockLoop vMasterKeyIn true rest

/-- `Unlock`; no result stands for the failed assertion. -/
def unlock (vMasterKeyIn : Bytes) : Option (Bool × CCryptoKeyStore) :=
  match store.setCrypted with
  | none => some (false, store)
  | some store =>
    let (keyPass, keyFail) :=
      store.unlockLoop crypto vMasterKeyIn false store.mapCryptedKeys.toList
    if keyPass && keyFail then none
    else if keyFail || !keyPass then some (false, store)
    else some (true, { store with
      vMasterKey := vMasterKeyIn, fDecryptionThoroughlyChecked := true })

def addCryptedKey (vchPubKey : CPubKey) (vchCryptedSecret : Bytes) : Option CCryptoKeyStore := do
  let store ← store.setCrypted
  some { store with
    mapCryptedKeys := store.mapCryptedKeys.insert (crypto.getID vchPubKey)
      (vchPubKey, vchCryptedSecret) }

/-- `AddKeyPubKey`; no result stands for `false`, which leaves the store as it is. -/
def addKeyPubKey (key : CKey) (pubkey : CPubKey) : Option CCryptoKeyStore :=
  if !store.fUseCrypto then
    some { store with mapKeys := store.mapKeys.insert (crypto.getID pubkey) key }
  else if store.isLocked then none
  else do
    let vchCryptedSecret ←
      encryptSecret crypto store.vMasterKey key.secret (crypto.chIV pubkey)
    store.addCryptedKey crypto pubkey vchCryptedSecret

def getKey (address : Bytes) : Option CKey :=
  if !store.fUseCrypto then store.mapKeys[address]?
  else do
    let (vchPubKey, vchCryptedSecret) ← store.mapCryptedKeys[address]?
    decryptKey crypto store.vMasterKey vchCryptedSecret vchPubKey

/-- The body of the loop of `EncryptKeys`. -/
def encryptOne (vMasterKeyIn : Bytes) (store : CCryptoKeyStore) (mKey : Bytes × CKey) :
    Option CCryptoKeyStore := do
  let vchPubKey := crypto.getPubKey mKey.2
  let vchCryptedSecret ←
    encryptSecret crypto vMasterKeyIn mKey.2.secret (crypto.chIV vchPubKey)
  store.addCryptedKey crypto vchPubKey vchCryptedSecret

/-- `EncryptKeys`; no result stands for `false`. -/
def encryptKeys (vMasterKeyIn : Bytes) : Option CCryptoKeyStore :=
  if !store.mapCryptedKeys.isEmpty || store.fUseCrypto then none
  else do
    let store ← store.mapKeys.toList.foldlM (encryptOne crypto vMasterKeyIn)
      { store with fUseCrypto := true }
    some { store with mapKeys := ∅ }

end CCryptoKeyStore

/-! ## Sessions -/

inductive StoreOp where
  | add (key : CKey)
  | lock
  | unlock (vMasterKeyIn : Bytes)

/-- The store and, for each id, the key that was added last. -/
structure Session where
  store : CCryptoKeyStore := {}
  added : ExtTreeMap Bytes CKey := ∅

namespace Session

variable (crypto : KeyCrypto)

/-- Add a key with its own public key. -/
def add (session : Session) (key : CKey) : Session :=
  match session.store.addKeyPubKey crypto key (crypto.getPubKey key) with
  | none => session
  | some store =>
    { store, added := session.added.insert (crypto.getID (crypto.getPubKey key)) key }

/-- One call; no result stands for a failed assertion. -/
def apply (session : Session) : StoreOp → Option Session
  | .add key => some (session.add crypto key)
  | .lock => some { session with store := session.store.lock.2 }
  | .unlock vMasterKeyIn =>
    (session.store.unlock crypto vMasterKeyIn).map fun result =>
      { session with store := result.2 }

end Session

/-! ## Encryption and decryption of keys -/

/-- The assumptions on the crypter and on keys. -/
structure CrypterOk (crypto : KeyCrypto) : Prop where
  encrypts : ∀ vMasterKey chIV vchPlaintext,
    vchPlaintext.length ≤ (crypto.aesEncrypt vMasterKey chIV vchPlaintext).length
  inverts : ∀ vMasterKey chIV vchPlaintext, crypto.aesDecrypt vMasterKey chIV
    (crypto.aesEncrypt vMasterKey chIV vchPlaintext) = vchPlaintext
  foreign : ∀ vMasterKey other key, vMasterKey.length = 32 → vMasterKey ≠ other →
    decryptKey crypto other (crypto.aesEncrypt vMasterKey (crypto.chIV (crypto.getPubKey key))
      key.secret) (crypto.getPubKey key) = none
  own : ∀ key, crypto.signsFor key.secret (crypto.getPubKey key) = true
  compressed : ∀ key, CPubKey.isCompressed (crypto.getPubKey key) = key.fCompressed

/-- A key as it is stored under a master key. -/
def sealKey (crypto : KeyCrypto) (mk : Bytes) (key : CKey) : CPubKey × Bytes :=
  (crypto.getPubKey key,
    crypto.aesEncrypt mk (crypto.chIV (crypto.getPubKey key)) key.secret)

section Keys

variable {crypto : KeyCrypto} {mk : Bytes}

theorem encryptSecret_key (ok : CrypterOk crypto) (size : mk.length = 32) (key : CKey)
    (chIV : Bytes) :
    encryptSecret crypto mk key.secret chIV = some (crypto.aesEncrypt mk chIV key.secret) := by
  rw [encryptSecret, if_pos size]
  exact if_neg (Nat.not_lt.mpr (ok.encrypts mk chIV key.secret))

theorem decryptKey_seal (ok : CrypterOk crypto) (size : mk.length = 32) (key : CKey) :
    decryptKey crypto mk (sealKey crypto mk key).2 (sealKey crypto mk key).1 = some key := by
  have hsecret : key.secret ≠ [] := by
    intro h
    have := key.size
    rw [h] at this
    cases this
  have hdecrypt : decryptSecret crypto mk (sealKey crypto mk key).2
      (crypto.chIV (sealKey crypto mk key).1) = some key.secret := by
    simp only [decryptSecret, sealKey, ok.inverts, if_pos size, if_neg hsecret]
  have hverify : verifyPubKey crypto key (crypto.getPubKey key) = true := by
    simp [verifyPubKey, ok.compressed key, ok.own key]
  have hkey : (⟨key.secret, CPubKey.isCompressed (crypto.getPubKey key), key.size⟩ : CKey) = key := by
    simp only [ok.compressed key]
  rw [decryptKey, hdecrypt]
  change (if h : key.secret.length = 32 then _ else _) = _
  rw [dif_pos key.size]
  simp only [sealKey, hkey, hverify, if_true]

end Keys

/-! ## The store while it is encrypted -/

/-- Every key that was added is stored under the master key, and nothing else is. -/
structure Sealed (crypto : KeyCrypto) (mk : Bytes) (session : Session) : Prop where
  plain : session.store.mapKeys = ∅
  crypted : session.store.fUseCrypto = true
  master : session.store.vMasterKey = [] ∨ session.store.vMasterKey = mk
  entries : ∀ id : Bytes,
    session.store.mapCryptedKeys[id]? = session.added[id]?.map (sealKey crypto mk)
  nonempty : session.store.mapCryptedKeys.toList ≠ []

section Sealed

variable {crypto : KeyCrypto} {mk : Bytes} {session : Session}

variable {store : CCryptoKeyStore} {items : List (Bytes × CPubKey × Bytes)}

theorem setCrypted_of_crypted (h : store.fUseCrypto = true) :
    store.setCrypted = some store := if_pos h

theorem Sealed.item (inv : Sealed crypto mk session) {item : Bytes × CPubKey × Bytes}
    (h : item ∈ session.store.mapCryptedKeys.toList) : ∃ key, item.2 = sealKey crypto mk key := by
  have hitem := ExtTreeMap.mem_toList_iff_getElem?_eq_some.mp h
  rw [inv.entries] at hitem
  obtain ⟨key, -, hkey⟩ := Option.map_eq_some_iff.mp hitem
  exact ⟨key, hkey.symm⟩

/-- With the right key every entry is decrypted, whether all are tried or only the first. -/
theorem unlockLoop_right (ok : CrypterOk crypto) (size : mk.length = 32)
    (sealed : ∀ item ∈ items, ∃ key, item.2 = sealKey crypto mk key) (keyPass : Bool) :
    store.unlockLoop crypto mk keyPass items = (keyPass || !items.isEmpty, false) := by
  induction items generalizing keyPass with
  | nil => simp [CCryptoKeyStore.unlockLoop]
  | cons item items ih =>
    obtain ⟨id, pubkey, secret⟩ := item
    obtain ⟨key, hkey⟩ := sealed _ List.mem_cons_self
    cases hkey
    have hdecrypt := decryptKey_seal ok size key
    rw [sealKey] at hdecrypt
    rw [CCryptoKeyStore.unlockLoop, hdecrypt]
    simp only [ih fun item hitem => sealed item (List.mem_cons_of_mem _ hitem)]
    split <;> simp

section

variable (ok : CrypterOk crypto) (size : mk.length = 32) (inv : Sealed crypto mk session)
include ok size inv

theorem Sealed.unlock (vMasterKeyIn : Bytes) :
    session.store.unlock crypto vMasterKeyIn =
      if vMasterKeyIn = mk then some (true, { session.store with
        vMasterKey := mk, fDecryptionThoroughlyChecked := true })
      else some (false, session.store) := by
  rw [CCryptoKeyStore.unlock, setCrypted_of_crypted inv.crypted]
  dsimp only
  by_cases he : vMasterKeyIn = mk
  · subst he
    rw [unlockLoop_right ok size fun item => inv.item]
    have hitems : session.store.mapCryptedKeys.toList.isEmpty = false := by
      rw [List.isEmpty_eq_false_iff]
      exact inv.nonempty
    simp [hitems]
  · have hitem : ∀ item ∈ session.store.mapCryptedKeys.toList,
        ∃ key, item.2 = sealKey crypto mk key := fun item => inv.item
    have hnonempty := inv.nonempty
    cases hitems : session.store.mapCryptedKeys.toList with
    | nil => exact absurd hitems hnonempty
    | cons item items =>
      obtain ⟨id, pubkey, secret⟩ := item
      obtain ⟨key, hkey⟩ := hitem _ (hitems ▸ List.mem_cons_self)
      cases hkey
      rw [CCryptoKeyStore.unlockLoop, ok.foreign mk _ key size fun h => he h.symm, if_neg he]
      rfl

theorem Sealed.addKey (key : CKey) :
    session.store.addKeyPubKey crypto key (crypto.getPubKey key) =
      if session.store.isLocked then none
      else some { session.store with
        mapCryptedKeys := session.store.mapCryptedKeys.insert
          (crypto.getID (crypto.getPubKey key)) (sealKey crypto mk key) } := by
  rw [CCryptoKeyStore.addKeyPubKey, inv.crypted]
  simp only [Bool.not_true, Bool.false_eq_true, if_false]
  split
  · rfl
  · rename_i hlocked
    have hmaster : session.store.vMasterKey = mk := by
      refine inv.master.resolve_left fun h => hlocked ?_
      rw [CCryptoKeyStore.isLocked, inv.crypted, h]
      rfl
    have hsecret : encryptSecret crypto session.store.vMasterKey key.secret
        (crypto.chIV (crypto.getPubKey key)) = some (sealKey crypto mk key).2 := by
      rw [hmaster, encryptSecret_key ok size]
      rfl
    rw [hsecret]
    simp only [CCryptoKeyStore.addCryptedKey, setCrypted_of_crypted inv.crypted]
    rfl

theorem Sealed.add (key : CKey) : Sealed crypto mk (session.add crypto key) := by
  rw [Session.add, inv.addKey ok size]
  split
  · exact inv
  · rename_i store hstore
    split at hstore
    · cases hstore
    · cases hstore
      refine ⟨inv.plain, inv.crypted, inv.master, ?_, ?_⟩
      · intro id
        rw [ExtTreeMap.getElem?_insert, ExtTreeMap.getElem?_insert]
        split
        · rfl
        · exact inv.entries id
      · intro hnil
        have hmem : (crypto.getID (crypto.getPubKey key), sealKey crypto mk key) ∈
            (session.store.mapCryptedKeys.insert (crypto.getID (crypto.getPubKey key))
              (sealKey crypto mk key)).toList := by
          simp
        rw [hnil] at hmem
        cases hmem

theorem Sealed.apply (op : StoreOp) :
    ∃ session', session.apply crypto op = some session' ∧ Sealed crypto mk session' := by
  cases op with
  | add key => exact ⟨_, rfl, inv.add ok size key⟩
  | lock =>
    refine ⟨_, rfl, ?_⟩
    rw [CCryptoKeyStore.lock, setCrypted_of_crypted inv.crypted]
    exact ⟨inv.plain, inv.crypted, .inl rfl, inv.entries, inv.nonempty⟩
  | unlock vMasterKeyIn =>
    rw [Session.apply, inv.unlock ok size]
    split
    · exact ⟨_, rfl, inv.plain, inv.crypted, .inr rfl, inv.entries, inv.nonempty⟩
    · exact ⟨_, rfl, inv⟩

theorem Sealed.run (ops : List StoreOp) :
    ∃ session', ops.foldlM (Session.apply crypto) session = some session' ∧
      Sealed crypto mk session' := by
  induction ops generalizing session with
  | nil => exact ⟨session, rfl, inv⟩
  | cons op ops ih =>
    obtain ⟨next, hnext, hinv⟩ := inv.apply ok size op
    obtain ⟨session', hrun, hinv'⟩ := ih hinv
    exact ⟨session', by rw [List.foldlM_cons, hnext]; exact hrun, hinv'⟩

end

theorem Sealed.getKey_locked (inv : Sealed crypto mk session)
    (locked : session.store.isLocked = true) (id : Bytes) :
    session.store.getKey crypto id = none := by
  have hmaster : session.store.vMasterKey = [] := by
    rw [CCryptoKeyStore.isLocked, Bool.and_eq_true, List.isEmpty_iff] at locked
    exact locked.2
  rw [CCryptoKeyStore.getKey, inv.crypted, hmaster]
  cases h : session.store.mapCryptedKeys[id]? with
  | none => rfl
  | some entry => rfl

theorem Sealed.getKey_unlocked (ok : CrypterOk crypto) (size : mk.length = 32)
    (inv : Sealed crypto mk session) (unlocked : session.store.isLocked = false) {id : Bytes}
    {key : CKey} (h : session.added[id]? = some key) :
    session.store.getKey crypto id = some key := by
  have hmaster : session.store.vMasterKey = mk := by
    refine inv.master.resolve_left fun hnil => ?_
    rw [CCryptoKeyStore.isLocked, inv.crypted, hnil] at unlocked
    cases unlocked
  rw [CCryptoKeyStore.getKey, inv.crypted, hmaster, inv.entries, h]
  exact decryptKey_seal ok size key

end Sealed

/-! ## Encrypting the store -/

/-- The store before it is encrypted. -/
structure Plain (crypto : KeyCrypto) (session : Session) : Prop where
  uncrypted : session.store.fUseCrypto = false
  noCrypted : session.store.mapCryptedKeys = ∅
  noMaster : session.store.vMasterKey = []
  same : session.store.mapKeys = session.added
  ids : ∀ (id : Bytes) key, session.added[id]? = some key →
    crypto.getID (crypto.getPubKey key) = id

section Encrypt

variable {crypto : KeyCrypto} {mk : Bytes} {session : Session}

theorem Plain.add (inv : Plain crypto session) (key : CKey) :
    Plain crypto (session.add crypto key) ∧
      (session.add crypto key).added =
        session.added.insert (crypto.getID (crypto.getPubKey key)) key := by
  have hadd : session.store.addKeyPubKey crypto key (crypto.getPubKey key) =
      some { session.store with
        mapKeys := session.store.mapKeys.insert (crypto.getID (crypto.getPubKey key)) key } := by
    rw [CCryptoKeyStore.addKeyPubKey, if_pos (by rw [inv.uncrypted]; rfl)]
  rw [Session.add, hadd]
  refine ⟨⟨inv.uncrypted, inv.noCrypted, inv.noMaster, ?_, ?_⟩, rfl⟩
  · exact congrArg (fun keys => ExtTreeMap.insert keys _ key) inv.same
  · intro id other h
    rw [ExtTreeMap.getElem?_insert] at h
    split at h
    · rename_i he
      cases h
      exact LawfulEqCmp.eq_of_compare he
    · exact inv.ids id other h

/-- The keys added to an empty store. -/
def addAll (crypto : KeyCrypto) (keys : List CKey) : Session :=
  keys.foldl (fun session key => session.add crypto key) {}

theorem plain_addAll (keys : List CKey) : Plain crypto (addAll crypto keys) := by
  have start : Plain crypto {} := ⟨rfl, rfl, rfl, rfl, fun id key h => by simp at h⟩
  rw [addAll]
  generalize ({} : Session) = session at start ⊢
  induction keys generalizing session with
  | nil => exact start
  | cons key keys ih => exact ih _ (start.add key).1

theorem addAll_nonempty {keys : List CKey} (h : keys ≠ []) :
    ∃ (id : Bytes) (key : CKey), (addAll crypto keys).added[id]? = some key := by
  obtain ⟨init, last, rfl⟩ := List.eq_nil_or_concat keys |>.resolve_left h
  have hadd := (Plain.add (@plain_addAll crypto init) last).2
  refine ⟨crypto.getID (crypto.getPubKey last), last, ?_⟩
  rw [addAll, List.concat_eq_append, List.foldl_concat, ← addAll, hadd]
  simp

/-- The loop of `EncryptKeys` stores every key under its id. -/
theorem encryptLoop_spec (ok : CrypterOk crypto) (size : mk.length = 32)
    {items : List (Bytes × CKey)} (nodup : (items.map Prod.fst).Nodup)
    (ids : ∀ item ∈ items, crypto.getID (crypto.getPubKey item.2) = item.1)
    {store : CCryptoKeyStore} (crypted : store.fUseCrypto = true) :
    ∃ crypted' : ExtTreeMap Bytes (CPubKey × Bytes),
      items.foldlM (CCryptoKeyStore.encryptOne crypto mk) store =
        some { store with mapCryptedKeys := crypted' } ∧
      (∀ item ∈ items, crypted'[item.1]? = some (sealKey crypto mk item.2)) ∧
      ∀ id : Bytes, id ∉ items.map Prod.fst → crypted'[id]? = store.mapCryptedKeys[id]? := by
  induction items generalizing store with
  | nil => exact ⟨store.mapCryptedKeys, rfl, by simp, fun id _ => rfl⟩
  | cons item items ih =>
    rw [List.map_cons, List.nodup_cons] at nodup
    have hone : CCryptoKeyStore.encryptOne crypto mk store item = some { store with
        mapCryptedKeys := store.mapCryptedKeys.insert item.1 (sealKey crypto mk item.2) } := by
      rw [CCryptoKeyStore.encryptOne, encryptSecret_key ok size]
      simp [CCryptoKeyStore.addCryptedKey, setCrypted_of_crypted crypted, sealKey,
        ids item List.mem_cons_self]
    obtain ⟨crypted', hrest, hitems, hothers⟩ := @ih nodup.2
      (fun other hother => ids other (List.mem_cons_of_mem _ hother))
      { store with
        mapCryptedKeys := store.mapCryptedKeys.insert item.1 (sealKey crypto mk item.2) } crypted
    refine ⟨crypted', by rw [List.foldlM_cons, hone]; exact hrest, ?_, ?_⟩
    · intro other hother
      rcases List.mem_cons.mp hother with rfl | hother
      · rw [hothers _ nodup.1]
        simp
      · exact hitems other hother
    · intro id hid
      rw [List.map_cons, List.mem_cons, not_or] at hid
      have hne : ¬ item.1 = id := fun h => hid.1 h.symm
      rw [hothers id hid.2]
      simp [ExtTreeMap.getElem?_insert, hne]

theorem Plain.encryptKeys (ok : CrypterOk crypto) (size : mk.length = 32)
    (inv : Plain crypto session) (nonempty : ∃ (id : Bytes) (key : CKey),
      session.added[id]? = some key) :
    ∃ store, session.store.encryptKeys crypto mk = some store ∧
      Sealed crypto mk { session with store } ∧ store.isLocked = true := by
  have nodup : (session.store.mapKeys.toList.map Prod.fst).Nodup := by
    rw [ExtTreeMap.map_fst_toList_eq_keys]
    refine session.store.mapKeys.distinct_keys.imp ?_
    rintro a b hne rfl
    exact hne ReflCmp.compare_self
  have ids : ∀ item ∈ session.store.mapKeys.toList,
      crypto.getID (crypto.getPubKey item.2) = item.1 := by
    intro item hitem
    have := ExtTreeMap.mem_toList_iff_getElem?_eq_some.mp hitem
    exact inv.ids _ _ (inv.same ▸ this)
  obtain ⟨crypted', hloop, hitems, hothers⟩ := @encryptLoop_spec crypto mk ok size _ nodup ids
    { session.store with fUseCrypto := true } rfl
  have hentries : ∀ id : Bytes, crypted'[id]? = session.added[id]?.map (sealKey crypto mk) := by
    intro id
    cases hkey : session.added[id]? with
    | none =>
      rw [hothers id]
      · simp only [inv.noCrypted]
        simp
      · intro hmem
        obtain ⟨item, hitem, rfl⟩ := List.mem_map.mp hmem
        have := ExtTreeMap.mem_toList_iff_getElem?_eq_some.mp hitem
        rw [inv.same, hkey] at this
        cases this
    | some key =>
      refine hitems (id, key) ?_
      rw [ExtTreeMap.mem_toList_iff_getElem?_eq_some, inv.same, hkey]
  refine ⟨{ session.store with mapKeys := ∅, fUseCrypto := true, mapCryptedKeys := crypted' },
    ?_, ⟨rfl, rfl, .inl inv.noMaster, hentries, ?_⟩, ?_⟩
  · have hempty : session.store.mapCryptedKeys.isEmpty = true := by
      rw [inv.noCrypted]
      exact ExtTreeMap.isEmpty_empty
    rw [CCryptoKeyStore.encryptKeys, hempty, inv.uncrypted]
    simp only [hloop]
    rfl
  · intro hnil
    obtain ⟨id, key, hkey⟩ := nonempty
    have hmem : (id, sealKey crypto mk key) ∈ crypted'.toList := by
      rw [ExtTreeMap.mem_toList_iff_getElem?_eq_some, hentries, hkey]
      rfl
    rw [hnil] at hmem
    cases hmem
  · rw [CCryptoKeyStore.isLocked]
    simp [inv.noMaster]

/-- From the encryption of the store on, no key is lost, a locked store shows no key, and
exactly the master key unlocks it. -/
theorem encrypted_store_keeps_keys (ok : CrypterOk crypto) (size : mk.length = 32)
    {keys : List CKey} (nonempty : keys ≠ []) (ops : List StoreOp) :
    ∃ store session, (addAll crypto keys).store.encryptKeys crypto mk = some store ∧
      ops.foldlM (Session.apply crypto) { addAll crypto keys with store } = some session ∧
      session.store.mapKeys = ∅ ∧
      (session.store.isLocked = true → (∀ id, session.store.getKey crypto id = none) ∧
        ∀ key, session.store.addKeyPubKey crypto key (crypto.getPubKey key) = none) ∧
      (∀ vMasterKeyIn, ∃ unlocked, session.store.unlock crypto vMasterKeyIn = some unlocked ∧
        (unlocked.1 = true ↔ vMasterKeyIn = mk)) ∧
      (session.store.isLocked = false → ∀ (id : Bytes) key, session.added[id]? = some key →
        session.store.getKey crypto id = some key) := by
  obtain ⟨store, hstore, hsealed, -⟩ :=
    (plain_addAll keys).encryptKeys ok size (addAll_nonempty nonempty)
  obtain ⟨session, hrun, inv⟩ := hsealed.run ok size ops
  refine ⟨store, session, hstore, hrun, inv.plain, ?_, ?_, ?_⟩
  · intro hlocked
    refine ⟨inv.getKey_locked hlocked, fun key => ?_⟩
    rw [inv.addKey ok size, if_pos hlocked]
  · intro vMasterKeyIn
    rw [inv.unlock ok size]
    split
    · exact ⟨_, rfl, by simpa⟩
    · exact ⟨_, rfl, by simpa⟩
  · exact fun hunlocked id key hkey => inv.getKey_unlocked ok size hunlocked hkey

end Encrypt

/-- A crypter that writes the key in front of the text. -/
def openCrypto : KeyCrypto where
  env :=
    { hash160 := fun vch => ⟨(vch ++ List.replicate 20 0).take 20, by simp⟩
      sha256 := id, ripemd160 := id, sha1 := id, hash256 := id
      txHash := fun _ => 0, signatureHash := fun _ _ _ _ _ _ => 0
      ecPubkeyParse := fun _ => true, ecdsaVerify := fun _ _ _ => true, checkLowS := fun _ => true
      addressToString := fun _ => "", activeBlocks := 0, graceBlocks := 0 }
  getPubKey key := if key.fCompressed then 2 :: key.secret else 4 :: key.secret ++ key.secret
  signsFor _ _ := true
  aesEncrypt vMasterKey _ vchPlaintext := vMasterKey ++ vchPlaintext
  aesDecrypt vMasterKey _ vchCiphertext :=
    if vchCiphertext.take vMasterKey.length = vMasterKey then
      vchCiphertext.drop vMasterKey.length
    else []

theorem openCrypto_ok : CrypterOk openCrypto := by
  refine ⟨?_, ?_, ?_, fun _ => rfl, ?_⟩
  · simp [openCrypto]
  · simp [openCrypto]
  · intro vMasterKey other key size ne
    have hdecrypt : ∀ chIV, decryptSecret openCrypto other (vMasterKey ++ key.secret) chIV =
        none := by
      intro chIV
      rw [decryptSecret]
      split
      · rename_i hother
        have htake : (vMasterKey ++ key.secret).take other.length = vMasterKey := by
          rw [hother, ← size, List.take_left]
        simp [openCrypto, htake, ne]
      · rfl
    simp only [decryptKey, openCrypto] at hdecrypt ⊢
    rw [hdecrypt]
    rfl
  · intro key
    cases h : key.fCompressed <;>
      simp [openCrypto, h, CPubKey.isCompressed, compressedSize, key.size]

/-- Two keys and a master key. -/
def oneKey (fCompressed : Bool) : CKey := ⟨List.replicate 32 1, fCompressed, rfl⟩

def twoMaster : Bytes := List.replicate 32 2

/-- The second key is added while the encrypted store is unlocked, then it is locked and unlocked
again. -/
def addWhileUnlocked : List StoreOp :=
  [.unlock twoMaster, .add (oneKey false), .lock, .unlock twoMaster]

theorem encrypted_store_keeps_keys_two :
    CrypterOk openCrypto ∧ twoMaster.length = 32 ∧
      ∃ store session, (addAll openCrypto [oneKey true]).store.encryptKeys openCrypto twoMaster =
          some store ∧
        addWhileUnlocked.foldlM (Session.apply openCrypto)
          { addAll openCrypto [oneKey true] with store } = some session ∧
        ∀ fCompressed, session.store.getKey openCrypto
          (openCrypto.getID (openCrypto.getPubKey (oneKey fCompressed))) =
            some (oneKey fCompressed) := by
  obtain ⟨store, session, hstore, hrun, -, -, -, hkeys⟩ := @encrypted_store_keeps_keys openCrypto
    twoMaster openCrypto_ok rfl [oneKey true] (List.cons_ne_nil _ _) addWhileUnlocked
  have hends : (((addAll openCrypto [oneKey true]).store.encryptKeys openCrypto twoMaster).bind
      fun store => addWhileUnlocked.foldlM (Session.apply openCrypto)
        { addAll openCrypto [oneKey true] with store }).any (fun session =>
      !session.store.isLocked && decide (∀ fCompressed,
        session.added[openCrypto.getID (openCrypto.getPubKey (oneKey fCompressed))]? =
          some (oneKey fCompressed))) = true := by
    decide +kernel
  rw [hstore, Option.bind_some, hrun, Option.any_some, Bool.and_eq_true, Bool.not_eq_true',
    decide_eq_true_eq] at hends
  exact ⟨openCrypto_ok, rfl, store, session, hstore, hrun, fun fCompressed =>
    hkeys hends.1 _ _ (hends.2 fCompressed)⟩

end KubuCore.Wallet
