import KubuCore.Wallet.Spends

/-!
# Marking conflicts

`MarkConflicted` of `wallet.cpp`. The walk stops at transactions that are in conflict
with a block at least as deep. Nothing is missed that way in a wallet where a conflict
has been passed on to all descendants, and the walk leaves such a wallet behind.
-/

namespace KubuCore.Wallet

open Walk

namespace WalletTxs

variable (wallet : WalletTxs)

/-- The body of the loop of `MarkConflicted`. -/
def conflictVisit (chain : ActiveChain) (hashBlock : Uint256) (_now : Uint256) (wtx : CWalletTx) :
    Visit CWalletTx :=
  if -chain.confirmations hashBlock < chain.getDepthInMainChain wtx then
    .update { hashBlock, nIndex := -1 }
  else .skip

/-- `MarkConflicted`; no result stands for a failed assertion. -/
def markConflicted (chain : ActiveChain) (hashBlock hashTx : Uint256) : Option WalletTxs :=
  if 0 ≤ -chain.confirmations hashBlock then some wallet
  else
    (walk (conflictVisit chain hashBlock) (fun now => wallet.spendsFrom now now) hashTx
      wallet.mapWallet).map fun mapWallet => { wallet with mapWallet }

/-- The depth of a transaction of the wallet. -/
def depthOf (chain : ActiveChain) (x : Uint256) : Option Int :=
  wallet.mapWallet[x]?.map chain.getDepthInMainChain

/-- A conflict holds for all descendants. -/
def Closed (chain : ActiveChain) : Prop :=
  ∀ x y, wallet.Descends x y → ∀ d, wallet.depthOf chain x = some d → d < 0 →
    ∀ d', wallet.depthOf chain y = some d' → d' ≤ d

variable {wallet} {chain : ActiveChain} {hashBlock hashTx : Uint256}

theorem conflict_follows {x y : Uint256} :
    Follows (conflictVisit chain hashBlock) (fun now => wallet.spendsFrom now now) wallet.mapWallet
      x y ↔ (∃ d, wallet.depthOf chain x = some d ∧ -chain.confirmations hashBlock < d) ∧
        wallet.SpentBy x y := by
  refine and_congr ?_ mem_spendsFrom
  constructor
  · rintro ⟨wtx, new, hwtx, hvisit⟩
    refine ⟨chain.getDepthInMainChain wtx, by rw [depthOf, hwtx]; rfl, ?_⟩
    by_contra hnot
    rw [conflictVisit, if_neg hnot] at hvisit
    cases hvisit
  · rintro ⟨d, hd, hless⟩
    obtain ⟨wtx, hwtx, rfl⟩ := Option.map_eq_some_iff.mp hd
    exact ⟨wtx, _, hwtx, by rw [conflictVisit, if_pos hless]⟩

theorem family_of_visits {x : Uint256}
    (h : Visits (conflictVisit chain hashBlock) (fun now => wallet.spendsFrom now now)
      wallet.mapWallet hashTx x) : wallet.Family hashTx x := by
  induction h with
  | refl => exact .refl
  | tail _ hfollows ih => exact ih.tail (conflict_follows.mp hfollows).2

section

variable (closed : wallet.Closed chain) (linked : wallet.Linked)
  (inChain : hashBlock ∈ chain.vChain) (inWallet : hashTx ∈ wallet.mapWallet)
include closed linked inChain inWallet

/-- What the walk leaves out is in conflict already. -/
theorem visits_or_conflicted {x : Uint256} (h : wallet.Family hashTx x) :
    Visits (conflictVisit chain hashBlock) (fun now => wallet.spendsFrom now now)
      wallet.mapWallet hashTx x ∨
      ∃ d, wallet.depthOf chain x = some d ∧ d ≤ -chain.confirmations hashBlock := by
  have hpos := ActiveChain.confirmations_pos inChain
  have depth : ∀ y, wallet.Family hashTx y → ∃ d, wallet.depthOf chain y = some d := by
    intro y hy
    obtain ⟨wtx, hwtx⟩ := Sets.mem_iff_exists.mp (hy.inWallet linked inWallet)
    exact ⟨_, by rw [depthOf, hwtx]; rfl⟩
  induction h with
  | refl => exact .inl .refl
  | @tail y z hy hspent ih =>
    obtain ⟨dz, hdz⟩ := depth z (hy.tail hspent)
    -- Below a transaction that is in conflict the invariant takes over.
    have below : ∀ d, wallet.depthOf chain y = some d → d ≤ -chain.confirmations hashBlock →
        ∃ d, wallet.depthOf chain z = some d ∧ d ≤ -chain.confirmations hashBlock := by
      intro d hd hle
      have := closed y z (.single hspent) d hd (by omega) dz hdz
      exact ⟨dz, hdz, by omega⟩
    rcases ih with hvisited | ⟨d, hd, hle⟩
    · obtain ⟨d, hd⟩ := depth y hy
      by_cases hless : -chain.confirmations hashBlock < d
      · exact .inl (hvisited.tail (conflict_follows.mpr ⟨⟨d, hd, hless⟩, hspent⟩))
      · exact .inr (below d hd (by omega))
    · exact .inr (below d hd hle)

/-- The depth of every transaction after the walk. -/
theorem markConflicted_depth :
    ∃ wallet', wallet.markConflicted chain hashBlock hashTx = some wallet' ∧
      wallet'.mapTxSpends = wallet.mapTxSpends ∧
      (∀ x, wallet.Family hashTx x → wallet'.depthOf chain x =
        (wallet.depthOf chain x).map fun d => min (-chain.confirmations hashBlock) d) ∧
      ∀ x, ¬ wallet.Family hashTx x → wallet'.mapWallet[x]? = wallet.mapWallet[x]? := by
  have known : ∀ x, Visits (conflictVisit chain hashBlock) (fun now => wallet.spendsFrom now now)
      wallet.mapWallet hashTx x → ∃ wtx, wallet.mapWallet[x]? = some wtx ∧
        conflictVisit chain hashBlock x wtx ≠ .fail := by
    intro x hx
    obtain ⟨wtx, hwtx⟩ :=
      Sets.mem_iff_exists.mp ((family_of_visits hx).inWallet linked inWallet)
    refine ⟨wtx, hwtx, ?_⟩
    rw [conflictVisit]
    split <;> nofun
  obtain ⟨mapWallet, hwalk, hvisited, hother⟩ := walk_spec known
  have hpos := ActiveChain.confirmations_pos inChain
  refine ⟨{ wallet with mapWallet }, ?_, rfl, ?_, fun x hx => hother x fun h =>
    hx (family_of_visits h)⟩
  · rw [markConflicted, if_neg (by omega), hwalk]
    rfl
  · intro x hx
    by_cases hvisits : Visits (conflictVisit chain hashBlock)
        (fun now => wallet.spendsFrom now now) wallet.mapWallet hashTx x
    · rw [depthOf, depthOf, hvisited x hvisits, Option.map_map, Option.map_map]
      congr 1
      funext wtx
      simp only [Function.comp_apply, conflictVisit]
      split_ifs with hless
      · rw [Visit.apply, ActiveChain.depth_of_conflict inChain, min_eq_left (le_of_lt hless)]
      · exact (min_eq_right (Int.not_lt.mp hless)).symm
    · obtain ⟨d, hd, hle⟩ :=
        (visits_or_conflicted closed linked inChain inWallet hx).resolve_left hvisits
      rw [depthOf, hother x hvisits, ← depthOf, hd, Option.map_some, min_eq_right hle]

end

/-- The depths of a marked family keep the invariant. -/
theorem Closed.mark {wallet' : WalletTxs} (closed : wallet.Closed chain)
    (spends : wallet'.mapTxSpends = wallet.mapTxSpends) {c : Int}
    (family : ∀ x, wallet.Family hashTx x →
      wallet'.depthOf chain x = (wallet.depthOf chain x).map fun d => min c d)
    (others : ∀ x, ¬ wallet.Family hashTx x → wallet'.depthOf chain x = wallet.depthOf chain x) :
    wallet'.Closed chain := by
  have hspent : wallet'.SpentBy = wallet.SpentBy := by
    funext x y
    simp only [SpentBy, spends]
  have lower : ∀ y d', wallet'.depthOf chain y = some d' →
      ∃ d, wallet.depthOf chain y = some d ∧ d' ≤ d := by
    intro y d' hd'
    by_cases hy : wallet.Family hashTx y
    · rw [family y hy] at hd'
      obtain ⟨d, hd, rfl⟩ := Option.map_eq_some_iff.mp hd'
      exact ⟨d, hd, min_le_right _ _⟩
    · rw [others y hy] at hd'
      exact ⟨d', hd', le_refl _⟩
  intro x y hxy d hd hneg d' hd'
  rw [Descends, hspent] at hxy
  obtain ⟨dy, hdy, hle⟩ := lower y d' hd'
  by_cases hx : wallet.Family hashTx x
  · have hy : wallet.Family hashTx y := hx.trans hxy.to_reflTransGen
    rw [family x hx] at hd
    obtain ⟨dx, hdx, rfl⟩ := Option.map_eq_some_iff.mp hd
    rw [family y hy, hdy] at hd'
    cases hd'
    by_cases hdeep : dx < 0
    · have := closed x y hxy dx hdx hdeep dy hdy
      exact min_le_min le_rfl this
    · exact le_trans (min_le_left _ _) (le_min le_rfl (by omega))
  · rw [others x hx] at hd
    exact le_trans hle (closed x y hxy d hd hneg dy hdy)

/-- Marking a conflict lowers the depth of the transaction and all its descendants to the
conflict of the block, and a wallet where conflicts are passed on stays one. -/
theorem markConflicted_closed (linked : wallet.Linked) (closed : wallet.Closed chain)
    (inChain : hashBlock ∈ chain.vChain) (inWallet : hashTx ∈ wallet.mapWallet) :
    ∃ wallet', wallet.markConflicted chain hashBlock hashTx = some wallet' ∧
      (∀ x, wallet.Family hashTx x → wallet'.depthOf chain x =
        (wallet.depthOf chain x).map fun d => min (-chain.confirmations hashBlock) d) ∧
      (∀ x, ¬ wallet.Family hashTx x → wallet'.depthOf chain x = wallet.depthOf chain x) ∧
      wallet'.Closed chain := by
  obtain ⟨wallet', hresult, hspends, hfamily, hothers⟩ :=
    markConflicted_depth closed linked inChain inWallet
  have hdepths : ∀ x, ¬ wallet.Family hashTx x →
      wallet'.depthOf chain x = wallet.depthOf chain x := by
    intro x hx
    rw [depthOf, hothers x hx, depthOf]
  exact ⟨wallet', hresult, hfamily, hdepths, closed.mark hspends hfamily hdepths⟩

/-- A chain of two blocks. -/
def twoBlocks : ActiveChain where
  vChain := [5, 6]
  set := by
    intro hash h
    simp only [List.mem_cons, List.not_mem_nil, or_false] at h
    rcases h with rfl | rfl <;> exact ⟨by decide +kernel, by decide +kernel⟩

/-- The last transaction is in conflict with the second block. -/
def thirdConflicted : WalletTxs :=
  { threeGenerations with mapWallet := threeGenerations.mapWallet.insert 13 ⟨6, -1⟩ }

theorem thirdConflicted_linked : thirdConflicted.Linked := fun outpoint ids hids id hid =>
  Std.ExtTreeMap.mem_insert.mpr (.inr (threeGenerations_linked outpoint ids hids id hid))

theorem thirdConflicted_closed : thirdConflicted.Closed twoBlocks := by
  intro x y hxy d hd hneg
  obtain ⟨z, hz, -⟩ := Relation.TransGen.head'_iff.mp hxy
  -- Nothing spends the last one, and the others are not in conflict.
  have hdepth : thirdConflicted.depthOf twoBlocks x = some 0 := by
    rcases threeGenerations_spentBy hz with ⟨rfl, -⟩ | ⟨rfl, -⟩
    · decide +kernel
    · decide +kernel
  rw [hdepth] at hd
  cases hd
  exact absurd hneg (lt_irrefl 0)

/-- The conflict of the first transaction with the first block lowers the depth of the last. -/
theorem markConflicted_closed_generations :
    thirdConflicted.Linked ∧ thirdConflicted.Closed twoBlocks ∧
      thirdConflicted.depthOf twoBlocks 13 = some (-1) ∧
      ∃ wallet', thirdConflicted.markConflicted twoBlocks 5 11 = some wallet' ∧
        wallet'.depthOf twoBlocks 13 = some (-2) ∧ wallet'.Closed twoBlocks := by
  refine ⟨thirdConflicted_linked, thirdConflicted_closed, by decide +kernel, ?_⟩
  obtain ⟨wallet', hresult, hfamily, -, hclosed⟩ := @markConflicted_closed thirdConflicted twoBlocks
    5 11 thirdConflicted_linked thirdConflicted_closed List.mem_cons_self (by decide +kernel)
  refine ⟨wallet', hresult, ?_, hclosed⟩
  rw [hfamily 13 threeGenerations_family]
  decide +kernel

end WalletTxs

end KubuCore.Wallet
