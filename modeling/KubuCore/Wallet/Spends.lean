import KubuCore.Base.Rows
import KubuCore.Base.Walk
import KubuCore.Primitives

/-!
# Transactions of the wallet and what spends them

`AbandonTransaction` and `IsSpent` of `wallet.cpp`, with `GetDepthInMainChain` of
`auxpow.cpp`. The walk of `AbandonTransaction` looks for the spenders of every
transaction it takes from the place in `mapTxSpends` where those of the first one
start, so that it finds the children of the first transaction only.

Cached balances and the wallet file are left out.
-/

namespace KubuCore.Wallet

open Walk
open Std

/-! ## Depth -/

def abandonHash : Uint256 := 1

/-- Where the wallet thinks a transaction is; index −1 with a block means that the block
conflicts with it. -/
structure CWalletTx where
  hashBlock : Uint256
  nIndex : Int
deriving DecidableEq, Repr

def CWalletTx.hashUnset (wtx : CWalletTx) : Bool :=
  wtx.hashBlock == 0 || wtx.hashBlock == abandonHash

def CWalletTx.isAbandoned (wtx : CWalletTx) : Bool := wtx.hashBlock == abandonHash

/-- The hashes of the blocks of `chainActive` by height. No block has one of the two
hashes that stand for no block. -/
structure ActiveChain where
  vChain : List Uint256
  set : ∀ hash ∈ vChain, hash ≠ 0 ∧ hash ≠ abandonHash

/-- The number of blocks from this one to the tip, 0 for a block elsewhere. -/
def ActiveChain.confirmations (chain : ActiveChain) (hashBlock : Uint256) : Int :=
  if hashBlock ∈ chain.vChain then chain.vChain.length - chain.vChain.idxOf hashBlock else 0

def ActiveChain.getDepthInMainChain (chain : ActiveChain) (wtx : CWalletTx) : Int :=
  if wtx.hashUnset then 0
  else (if wtx.nIndex = -1 then -1 else 1) * chain.confirmations wtx.hashBlock

variable {chain : ActiveChain} {hashBlock : Uint256}

theorem ActiveChain.confirmations_pos
    (h : hashBlock ∈ chain.vChain) : 0 < chain.confirmations hashBlock := by
  rw [confirmations, if_pos h]
  have := List.idxOf_lt_length_of_mem h
  omega

theorem ActiveChain.depth_of_unset {wtx : CWalletTx}
    (h : wtx.hashUnset = true) : chain.getDepthInMainChain wtx = 0 := by
  rw [getDepthInMainChain, if_pos h]

/-- A transaction in conflict with a block has minus its confirmations. -/
theorem ActiveChain.depth_of_conflict (h : hashBlock ∈ chain.vChain) :
    chain.getDepthInMainChain ⟨hashBlock, -1⟩ = -chain.confirmations hashBlock := by
  obtain ⟨hnull, habandon⟩ := chain.set hashBlock h
  have hset : CWalletTx.hashUnset ⟨hashBlock, -1⟩ = false := by
    simpa [CWalletTx.hashUnset] using ⟨hnull, habandon⟩
  simp [getDepthInMainChain, hset]

/-! ## Spends -/

structure WalletTxs where
  mapWallet : ExtTreeMap Uint256 CWalletTx
  /-- The transactions that spend an outpoint. -/
  mapTxSpends : ExtTreeMap COutPoint (List Uint256)

namespace WalletTxs

variable (wallet : WalletTxs)

/-- The loop from `lower_bound(COutPoint(first, 0))` while the outpoints belong to `now`. -/
def spendsFrom (first now : Uint256) : List Uint256 :=
  ((wallet.mapTxSpends.toList.dropWhile fun item => compare item.1 ⟨first, 0⟩ == .lt).takeWhile
    fun item => item.1.hash == now).flatMap Prod.snd

/-- The second transaction spends an output of the first. -/
def SpentBy (x y : Uint256) : Prop :=
  ∃ (outpoint : COutPoint) (ids : List Uint256), wallet.mapTxSpends[outpoint]? = some ids ∧
    outpoint.hash = x ∧ y ∈ ids

/-- Through any number of spends. -/
def Descends : Uint256 → Uint256 → Prop := Relation.TransGen wallet.SpentBy

/-- A transaction and its descendants. -/
def Family : Uint256 → Uint256 → Prop := Relation.ReflTransGen wallet.SpentBy

/-- Only transactions of the wallet are noted as spenders. -/
def Linked : Prop :=
  ∀ (outpoint : COutPoint) (ids : List Uint256), wallet.mapTxSpends[outpoint]? = some ids →
    ∀ id ∈ ids, id ∈ wallet.mapWallet

def isSpent (chain : ActiveChain) (outpoint : COutPoint) : Bool :=
  (wallet.mapTxSpends[outpoint]?.getD []).any fun wtxid =>
    wallet.mapWallet[wtxid]?.any fun wtx =>
      let depth := chain.getDepthInMainChain wtx
      0 < depth || (depth == 0 && !wtx.isAbandoned)

/-- The body of the loop of `AbandonTransaction`. -/
def abandonVisit (chain : ActiveChain) (inMempool : Uint256 → Bool) (now : Uint256)
    (wtx : CWalletTx) : Visit CWalletTx :=
  let currentconfirm := chain.getDepthInMainChain wtx
  if 0 < currentconfirm then .fail
  else if currentconfirm = 0 ∧ wtx.isAbandoned = false then
    if inMempool now then .fail else .update { hashBlock := abandonHash, nIndex := -1 }
  else .skip

/-- `AbandonTransaction`; no result stands for a failed assertion. -/
def abandonTransaction (chain : ActiveChain) (inMempool : Uint256 → Bool) (hashTx : Uint256) :
    Option (Bool × WalletTxs) :=
  match wallet.mapWallet[hashTx]? with
  | none => none
  | some origtx =>
    if 0 < chain.getDepthInMainChain origtx ∨ inMempool hashTx then some (false, wallet)
    else
      (walk (abandonVisit chain inMempool) (wallet.spendsFrom hashTx) hashTx
        wallet.mapWallet).map fun mapWallet => (true, { wallet with mapWallet })

end WalletTxs

/-! ## Ranges of outpoints -/

section Range

variable {γ : Type} {items : List (COutPoint × γ)}

theorem compare_outpoint (a b : COutPoint) :
    compare a b = (compare a.hash b.hash).then (compare a.n b.n) := rfl

/-- Outpoints before the first one of a transaction belong to others. -/
theorem hash_ne_of_before {o : COutPoint} {now : Uint256} (h : compare o ⟨now, 0⟩ = .lt) :
    o.hash ≠ now := by
  rintro rfl
  have hself : compare o.hash o.hash = .eq := ReflCmp.compare_self
  rw [compare_outpoint, hself, Ordering.then, Nat.compare_eq_lt] at h
  exact absurd h (Nat.not_lt_zero _)

/-- Between two outpoints of a transaction there are only its own. -/
theorem hash_le_of_le {a b : COutPoint} (h : compare a b ≠ .gt) : compare a.hash b.hash ≠ .gt := by
  intro hgt
  rw [compare_outpoint, hgt] at h
  exact h rfl

/-- The range of a transaction holds all its outpoints. -/
theorem range_eq_filter (now : Uint256) (sorted : items.Pairwise fun a b => compare a.1 b.1 = .lt) :
    (items.dropWhile fun item => compare item.1 ⟨now, 0⟩ == .lt).takeWhile
      (fun item => item.1.hash == now) = items.filter fun item => item.1.hash == now := by
  rw [Rows.dropWhile_eq_filter (sorted.imp fun hlt hb => ?_), Rows.takeWhile_eq_filter,
    List.filter_filter]
  · refine List.filter_congr fun item _ => ?_
    by_cases hbefore : compare item.1 ⟨now, 0⟩ = .lt
    · simp [hash_ne_of_before hbefore]
    · simp [hbefore]
  · refine (sorted.filter _).imp_of_mem fun {a b} ha _ hlt hb => ?_
    obtain rfl := eq_of_beq hb
    have hle := hash_le_of_le (a := a.1) (b := b.1) (by rw [hlt]; nofun)
    have hfrom : compare a.1 ⟨b.1.hash, 0⟩ ≠ .lt := by simpa using (List.mem_filter.mp ha).2
    rw [compare_outpoint] at hfrom
    cases hc : compare a.1.hash b.1.hash with
    | lt =>
      rw [hc] at hfrom
      exact absurd rfl hfrom
    | eq => exact beq_iff_eq.mpr (LawfulEqCmp.eq_of_compare hc)
    | gt => exact absurd hc hle
  · simpa using TransCmp.lt_trans hlt (by simpa using hb)

/-- A search that starts at the outpoints of one transaction meets no other. -/
theorem range_eq_nil {first now : Uint256} (ne : first ≠ now)
    (sorted : items.Pairwise fun a b => compare a.1 b.1 = .lt)
    {item : COutPoint × γ} (hitem : item ∈ items) (hhash : item.1.hash = first) :
    (items.dropWhile fun item => compare item.1 ⟨first, 0⟩ == .lt).takeWhile
      (fun item => item.1.hash == now) = [] := by
  have hrange := range_eq_filter first sorted
  have hmem : item ∈ items.filter fun item => item.1.hash == first := by simp [hitem, hhash]
  rw [← hrange] at hmem
  generalize (items.dropWhile fun item => compare item.1 ⟨first, 0⟩ == .lt) = rest at hmem ⊢
  cases rest with
  | nil => rfl
  | cons head rest =>
    by_cases hhead : head.1.hash = first
    · exact List.takeWhile_cons_of_neg (by simpa [hhead] using ne)
    · rw [List.takeWhile_cons_of_neg (by simpa using hhead)] at hmem
      cases hmem

end Range

namespace WalletTxs

variable {wallet : WalletTxs}

theorem mem_spendsFrom {first : Uint256} {y : Uint256} :
    y ∈ wallet.spendsFrom first first ↔ wallet.SpentBy first y := by
  rw [spendsFrom, range_eq_filter first ExtTreeMap.ordered_keys_toList, List.mem_flatMap]
  constructor
  · rintro ⟨⟨outpoint, ids⟩, hitem, hy⟩
    rw [List.mem_filter, ExtTreeMap.mem_toList_iff_getElem?_eq_some] at hitem
    exact ⟨outpoint, ids, hitem.1, by simpa using hitem.2, hy⟩
  · rintro ⟨outpoint, ids, hids, hhash, hy⟩
    refine ⟨(outpoint, ids), ?_, hy⟩
    rw [List.mem_filter, ExtTreeMap.mem_toList_iff_getElem?_eq_some]
    exact ⟨hids, by simpa using hhash⟩

theorem spendsFrom_other {first now y : Uint256} (ne : first ≠ now) (h : wallet.SpentBy first y) :
    wallet.spendsFrom first now = [] := by
  obtain ⟨outpoint, ids, hids, hhash, -⟩ := h
  have hitem : (outpoint, ids) ∈ wallet.mapTxSpends.toList :=
    ExtTreeMap.mem_toList_iff_getElem?_eq_some.mpr hids
  rw [spendsFrom, range_eq_nil ne ExtTreeMap.ordered_keys_toList hitem hhash]
  rfl

/-! ## Abandoning -/

section Abandon

variable {chain : ActiveChain} {inMempool : Uint256 → Bool} {hashTx : Uint256}

/-- A transaction of the wallet that, like everything built on it, is nowhere. -/
structure Abandonable (wallet : WalletTxs) (chain : ActiveChain) (inMempool : Uint256 → Bool)
    (hashTx : Uint256) : Prop where
  inWallet : hashTx ∈ wallet.mapWallet
  nowhere : ∀ x, wallet.Family hashTx x → ∀ wtx, wallet.mapWallet[x]? = some wtx →
    chain.getDepthInMainChain wtx = 0 ∧ wtx.isAbandoned = false ∧ inMempool x = false

theorem Family.inWallet {x : Uint256} (linked : wallet.Linked)
    (inWallet : hashTx ∈ wallet.mapWallet) (h : wallet.Family hashTx x) :
    x ∈ wallet.mapWallet := by
  cases h with
  | refl => exact inWallet
  | tail _ hspent =>
    obtain ⟨outpoint, ids, hids, -, hmem⟩ := hspent
    exact linked outpoint ids hids x hmem

section

variable (linked : wallet.Linked) (ok : wallet.Abandonable chain inMempool hashTx)
include linked ok

theorem Abandonable.visit {x : Uint256} (h : wallet.Family hashTx x) :
    ∃ wtx, wallet.mapWallet[x]? = some wtx ∧
      abandonVisit chain inMempool x wtx = .update ⟨abandonHash, -1⟩ := by
  obtain ⟨wtx, hwtx⟩ := Sets.mem_iff_exists.mp (h.inWallet linked ok.inWallet)
  obtain ⟨hdepth, habandoned, hpool⟩ := ok.nowhere x h wtx hwtx
  refine ⟨wtx, hwtx, ?_⟩
  simp [abandonVisit, hdepth, habandoned, hpool]

/-- The walk does not get past the children of the first transaction. -/
theorem abandon_visits {x : Uint256} :
    Visits (abandonVisit chain inMempool) (wallet.spendsFrom hashTx) wallet.mapWallet hashTx x ↔
      x = hashTx ∨ wallet.SpentBy hashTx x := by
  constructor
  · intro h
    induction h with
    | refl => exact .inl rfl
    | tail _ hfollows ih =>
      obtain ⟨-, hnext⟩ := hfollows
      rcases ih with rfl | ih
      · exact .inr (mem_spendsFrom.mp hnext)
      · rename_i y z _
        by_cases he : hashTx = y
        · subst he
          exact .inr (mem_spendsFrom.mp hnext)
        · rw [spendsFrom_other he ih] at hnext
          cases hnext
  · rintro (rfl | h)
    · exact .refl
    · obtain ⟨wtx, hwtx, hvisit⟩ := ok.visit linked .refl
      exact .single ⟨⟨wtx, _, hwtx, hvisit⟩, mem_spendsFrom.mpr h⟩

/-- What `AbandonTransaction` does to a transaction that may be abandoned. -/
theorem abandonTransaction_spec :
    ∃ wallet', wallet.abandonTransaction chain inMempool hashTx = some (true, wallet') ∧
      wallet'.mapTxSpends = wallet.mapTxSpends ∧
      (∀ x, x = hashTx ∨ wallet.SpentBy hashTx x →
        wallet'.mapWallet[x]? = some ⟨abandonHash, -1⟩) ∧
      ∀ x, ¬ (x = hashTx ∨ wallet.SpentBy hashTx x) →
        wallet'.mapWallet[x]? = wallet.mapWallet[x]? := by
  have family : ∀ {x}, x = hashTx ∨ wallet.SpentBy hashTx x → wallet.Family hashTx x := by
    rintro x (rfl | h)
    · exact .refl
    · exact .single h
  have known : ∀ x, Visits (abandonVisit chain inMempool) (wallet.spendsFrom hashTx)
      wallet.mapWallet hashTx x → ∃ wtx, wallet.mapWallet[x]? = some wtx ∧
        abandonVisit chain inMempool x wtx ≠ .fail := by
    intro x hx
    obtain ⟨wtx, hwtx, hvisit⟩ := ok.visit linked (family ((abandon_visits linked ok).mp hx))
    exact ⟨wtx, hwtx, by rw [hvisit]; nofun⟩
  obtain ⟨mapWallet, hwalk, hvisited, hother⟩ := walk_spec known
  refine ⟨{ wallet with mapWallet }, ?_, rfl, ?_, ?_⟩
  · obtain ⟨wtx, hwtx, -⟩ := ok.visit linked .refl
    obtain ⟨hdepth, -, hpool⟩ := ok.nowhere hashTx .refl wtx hwtx
    simp [abandonTransaction, hwtx, hdepth, hpool, hwalk]
  · intro x hx
    obtain ⟨wtx, hwtx, hvisit⟩ := ok.visit linked (family hx)
    rw [hvisited x ((abandon_visits linked ok).mpr hx), hwtx, Option.map_some, hvisit]
    rfl
  · intro x hx
    exact hother x fun h => hx ((abandon_visits linked ok).mp h)

end

/-- Everything built on a transaction is abandoned with it, and nothing else changes. -/
structure AbandonsFamily (wallet wallet' : WalletTxs) (chain : ActiveChain) (hashTx : Uint256) :
    Prop where
  family : ∀ x, wallet.Family hashTx x →
    ∃ wtx, wallet'.mapWallet[x]? = some wtx ∧ wtx.isAbandoned = true
  others : ∀ x, ¬ wallet.Family hashTx x → wallet'.mapWallet[x]? = wallet.mapWallet[x]?
  freed : ∀ outpoint : COutPoint,
    (∀ id ∈ wallet.mapTxSpends[outpoint]?.getD [], wallet.Family hashTx id) →
      wallet'.isSpent chain outpoint = false

/-- Transactions in the wallet that are abandoned spend nothing. -/
theorem isSpent_of_abandoned {outpoint : COutPoint}
    (h : ∀ id ∈ wallet.mapTxSpends[outpoint]?.getD [], ∀ wtx, wallet.mapWallet[id]? = some wtx →
      wtx.isAbandoned = true) : wallet.isSpent chain outpoint = false := by
  rw [isSpent, List.any_eq_false]
  intro id hid
  cases hwtx : wallet.mapWallet[id]? with
  | none => simp
  | some wtx =>
    have habandoned := h id hid wtx hwtx
    have hunset : wtx.hashUnset = true := by
      rw [CWalletTx.hashUnset, ← CWalletTx.isAbandoned, habandoned, Bool.or_true]
    simp [ActiveChain.depth_of_unset hunset, habandoned]

/-- Abandoning reaches everything built on the transaction exactly if all of it spends
outputs of the transaction itself. -/
theorem abandons_family_iff (linked : wallet.Linked)
    (ok : wallet.Abandonable chain inMempool hashTx) :
    ∃ wallet', wallet.abandonTransaction chain inMempool hashTx = some (true, wallet') ∧
      (wallet.AbandonsFamily wallet' chain hashTx ↔
        ∀ x, wallet.Family hashTx x → x = hashTx ∨ wallet.SpentBy hashTx x) := by
  obtain ⟨wallet', hresult, hspends, hchanged, hsame⟩ := abandonTransaction_spec linked ok
  refine ⟨wallet', hresult, ?_, ?_⟩
  · intro done x hx
    by_contra hnot
    obtain ⟨wtx, hwtx, habandoned⟩ := done.family x hx
    rw [hsame x hnot] at hwtx
    rw [(ok.nowhere x hx wtx hwtx).2.1] at habandoned
    cases habandoned
  · intro direct
    refine ⟨?_, ?_, ?_⟩
    · intro x hx
      exact ⟨_, hchanged x (direct x hx), rfl⟩
    · intro x hx
      refine hsame x ?_
      rintro (rfl | h)
      · exact hx .refl
      · exact hx (.single h)
    · intro outpoint hfamily
      refine isSpent_of_abandoned ?_
      intro id hid wtx hwtx
      rw [hspends] at hid
      rw [hchanged id (direct id (hfamily id hid))] at hwtx
      cases hwtx
      rfl

/-- A transaction, one that spends it, and one that spends the second. -/
def threeGenerations : WalletTxs where
  mapWallet := ((((∅ : ExtTreeMap Uint256 CWalletTx).insert 11 ⟨0, 0⟩).insert 12 ⟨0, 0⟩).insert
    13 ⟨0, 0⟩)
  mapTxSpends := ((∅ : ExtTreeMap COutPoint (List Uint256)).insert ⟨11, 0⟩ [12]).insert
    ⟨12, 0⟩ [13]

def noBlocks : ActiveChain := ⟨[], fun _ h => nomatch h⟩

theorem threeGenerations_spentBy {x y : Uint256} (h : threeGenerations.SpentBy x y) :
    x = 11 ∧ y = 12 ∨ x = 12 ∧ y = 13 := by
  obtain ⟨outpoint, ids, hids, rfl, hy⟩ := h
  have hlist : threeGenerations.mapTxSpends.toList = [(⟨11, 0⟩, [12]), (⟨12, 0⟩, [13])] := by
    decide +kernel
  have hmem := ExtTreeMap.mem_toList_iff_getElem?_eq_some.mpr hids
  rw [hlist] at hmem
  simp only [List.mem_cons, Prod.mk.injEq, List.not_mem_nil, or_false] at hmem
  rcases hmem with ⟨rfl, rfl⟩ | ⟨rfl, rfl⟩
  · exact .inl ⟨rfl, List.mem_singleton.mp hy⟩
  · exact .inr ⟨rfl, List.mem_singleton.mp hy⟩

theorem threeGenerations_linked : threeGenerations.Linked := by
  intro outpoint ids hids id hid
  rcases threeGenerations_spentBy ⟨outpoint, ids, hids, rfl, hid⟩ with ⟨-, rfl⟩ | ⟨-, rfl⟩
  · decide +kernel
  · decide +kernel

theorem threeGenerations_entry {x : Uint256} {wtx : CWalletTx}
    (h : threeGenerations.mapWallet[x]? = some wtx) : wtx = ⟨0, 0⟩ := by
  have hlist : threeGenerations.mapWallet.toList =
      [(11, ⟨0, 0⟩), (12, ⟨0, 0⟩), (13, ⟨0, 0⟩)] := by decide +kernel
  have hmem := ExtTreeMap.mem_toList_iff_getElem?_eq_some.mpr h
  rw [hlist] at hmem
  simp only [List.mem_cons, Prod.mk.injEq, List.not_mem_nil, or_false] at hmem
  rcases hmem with ⟨-, h⟩ | ⟨-, h⟩ | ⟨-, h⟩ <;> exact h

theorem threeGenerations_abandonable {hashTx : Uint256} (h : hashTx ∈ threeGenerations.mapWallet) :
    threeGenerations.Abandonable noBlocks (fun _ => false) hashTx := by
  refine ⟨h, ?_⟩
  intro x _ wtx hwtx
  rw [threeGenerations_entry hwtx]
  decide

theorem threeGenerations_family : threeGenerations.Family 11 13 :=
  .tail (.single ⟨⟨11, 0⟩, [12], by decide +kernel, rfl, List.mem_cons_self⟩)
    ⟨⟨12, 0⟩, [13], by decide +kernel, rfl, List.mem_cons_self⟩

/-- The grandchild stays as it was, and its input counts as spent. -/
theorem grandchild_not_abandoned :
    threeGenerations.Linked ∧ threeGenerations.Abandonable noBlocks (fun _ => false) 11 ∧
      threeGenerations.Family 11 13 ∧
      ((threeGenerations.abandonTransaction noBlocks (fun _ => false) 11).map fun result =>
        (result.1, result.2.mapWallet[(13 : Uint256)]?, result.2.isSpent noBlocks ⟨12, 0⟩)) =
        some (true, some ⟨0, 0⟩, true) :=
  ⟨threeGenerations_linked, threeGenerations_abandonable (by decide +kernel),
    threeGenerations_family, by decide +kernel⟩

/-- The child is abandoned with all that is built on it. -/
theorem abandons_family_iff_generations :
    threeGenerations.Linked ∧ threeGenerations.Abandonable noBlocks (fun _ => false) 12 ∧
      threeGenerations.Family 12 13 ∧
      ∃ wallet', threeGenerations.abandonTransaction noBlocks (fun _ => false) 12 =
        some (true, wallet') ∧ threeGenerations.AbandonsFamily wallet' noBlocks 12 := by
  have child : threeGenerations.SpentBy 12 13 :=
    ⟨⟨12, 0⟩, [13], by decide +kernel, rfl, List.mem_cons_self⟩
  have abandonable : threeGenerations.Abandonable noBlocks (fun _ => false) 12 :=
    threeGenerations_abandonable (by decide +kernel)
  obtain ⟨wallet', hresult, hiff⟩ := abandons_family_iff threeGenerations_linked abandonable
  refine ⟨threeGenerations_linked, abandonable, .single child, wallet', hresult, hiff.mpr ?_⟩
  intro x hx
  rcases Relation.ReflTransGen.cases_tail hx with rfl | ⟨y, -, hyx⟩
  · exact .inl rfl
  · -- Whatever spends anything here is the child itself or spends the child.
    rcases threeGenerations_spentBy hyx with ⟨-, rfl⟩ | ⟨-, rfl⟩
    · exact .inl rfl
    · exact .inr child

end Abandon

end WalletTxs

end KubuCore.Wallet
