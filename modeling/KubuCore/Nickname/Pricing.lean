import KubuCore.Nickname.Runs

/-!
# The pricing state follows the chain

`WriteNicknameBatch` keeps a rolling count of registrations and a price
multiplier; `ApplyNicknameUndo` puts back what it remembered. Here both are run
at consecutive heights with any updates and any reorganisations, and the stored
state is compared with what the blocks of the current chain determine.
-/

namespace KubuCore.Nickname

open Rows
open Nicknames
open Checked
open Chain

/-! ## What a chain determines -/

/-- A block as the pricing rows see it. -/
structure PricedBlock where
  hash : Uint256
  height : Int
  count : Nat
deriving DecidableEq

/-- The registrations of the blocks at the heights selected. -/
def countWhere (p : Int → Bool) (chain : List PricedBlock) : Int :=
  ((chain.filter fun block => p block.height).map fun block => (block.count : Int)).sum

/-- Heights in `(h - PRICING_WINDOW_BLOCKS, h]`. -/
def inWindow (h height : Int) : Bool := h - pricingWindowBlocks < height ∧ height ≤ h

/-- The registrations of the blocks in the window that ends at `h`. -/
def windowCount (chain : List PricedBlock) (h : Int) : Int := countWhere (inWindow h) chain

/-- The multiplier after the blocks of a chain, latest first, starting from the
default: it moves at the positive multiples of `PRICING_EPOCH_BLOCKS` only. -/
def replayMultiplier : List PricedBlock → Int
  | [] => defaultPricingMultiplierPermille
  | block :: rest =>
    if 0 < block.height ∧ block.height % pricingEpochBlocks = 0 then
      computeNextPricingMultiplierPermille (replayMultiplier rest)
        (windowCount (block :: rest) block.height)
    else replayMultiplier rest

/-- The pricing row of a chain. -/
def chainPricing : List PricedBlock → Option NicknamePricingState
  | [] => none
  | block :: rest => some
    { lastProcessedHeight := block.height
      rollingRegistrations := windowCount (block :: rest) block.height
      multiplierPermille := replayMultiplier (block :: rest) }

/-- The next block of a chain: any first height, then one more each time. -/
def Follows : List PricedBlock → Int → Prop
  | [], height => 0 ≤ height
  | block :: _, height => height = block.height + 1

/-- Heights are consecutive, latest first. -/
inductive Consecutive : List PricedBlock → Prop where
  | nil : Consecutive []
  | cons {block : PricedBlock} {chain : List PricedBlock} (rest : Consecutive chain)
      (next : Follows chain block.height) : Consecutive (block :: chain)

variable {chain : List PricedBlock} {env : Env} {db : NicknameStateDB}

theorem Consecutive.heights {height : Int} (h : Consecutive chain)
    (next : Follows chain height) : ∀ block ∈ chain, 0 ≤ block.height ∧ block.height < height := by
  induction h generalizing height with
  | nil => intro block hb; cases hb
  | @cons last chain rest next' ih =>
    intro block hb
    have hheight : height = last.height + 1 := next
    rcases List.mem_cons.mp hb with rfl | hb
    · cases chain with
      | nil =>
        have h0 : 0 ≤ block.height := next'
        omega
      | cons c _ =>
        have h0 := (ih next' c List.mem_cons_self).1
        have h1 : block.height = c.height + 1 := next'
        omega
    · have := ih next' block hb
      omega

/-! ## Sliding the window -/

theorem countWhere_cons (p : Int → Bool) (block : PricedBlock) (chain : List PricedBlock) :
    countWhere p (block :: chain) =
      (if p block.height then (block.count : Int) else 0) + countWhere p chain := by
  by_cases h : p block.height = true
  · simp [countWhere, h]
  · simp [countWhere, h]

theorem countWhere_nonneg (p : Int → Bool) (chain : List PricedBlock) : 0 ≤ countWhere p chain := by
  induction chain with
  | nil => rfl
  | cons block chain ih =>
    rw [countWhere_cons]
    split <;> omega

/-- Counts add up over a split of the heights. -/
theorem countWhere_split {p q r : Int → Bool}
    (h : ∀ block ∈ chain, p block.height = (q block.height || r block.height) ∧
      (q block.height && r block.height) = false) :
    countWhere p chain = countWhere q chain + countWhere r chain := by
  induction chain with
  | nil => rfl
  | cons block chain ih =>
    rw [countWhere_cons, countWhere_cons, countWhere_cons]
    cases hq : q block.height <;> cases hr : r block.height <;> simp_all <;> omega

/-- The count of the block at a height of the chain. -/
def countAt (chain : List PricedBlock) (height : Int) : Option Nat :=
  (chain.find? fun block => block.height == height).map PricedBlock.count

theorem countAt_cons (block : PricedBlock) (chain : List PricedBlock) (height : Int) :
    countAt (block :: chain) height =
      if height = block.height then some block.count else countAt chain height := by
  by_cases h : height = block.height
  · simp [countAt, h]
  · simp [countAt, Ne.symm h, h]

theorem countAt_eq_none {height : Int}
    (h : ∀ block ∈ chain, block.height ≠ height) : countAt chain height = none := by
  rw [countAt, Option.map_eq_none_iff, List.find?_eq_none]
  intro block hb
  simpa using h block hb

/-- At most one block has a given height. -/
theorem countWhere_single (h : Consecutive chain) (height : Int) :
    countWhere (fun x => x == height) chain = ((countAt chain height).getD 0 : Nat) := by
  induction h with
  | nil => rfl
  | @cons block chain rest next ih =>
    rw [countWhere_cons, countAt_cons, ih]
    by_cases he : block.height = height
    · have hnone : countAt chain height = none :=
        countAt_eq_none fun b hb => by have := (rest.heights next b hb).2; omega
      simp [he, hnone]
    · simp [he, Ne.symm he]

/-- The window one block later: the new block comes in and the block at the
dropped height goes out. -/
theorem windowCount_cons {block : PricedBlock} (rest : Consecutive chain)
    (next : Follows chain block.height) :
    windowCount (block :: chain) block.height =
      windowCount chain (block.height - 1) -
        ((countAt chain (block.height - pricingWindowBlocks)).getD 0 : Nat) + block.count := by
  have hsplit : windowCount chain (block.height - 1) =
      countWhere (fun x => x == block.height - pricingWindowBlocks) chain +
        windowCount chain block.height := by
    refine countWhere_split fun b hb => ?_
    have hlt := (rest.heights next b hb).2
    constructor
    · rw [Bool.eq_iff_iff]
      simp only [inWindow, decide_eq_true_eq, Bool.or_eq_true, beq_iff_eq]
      omega
    · simp only [inWindow, Bool.and_eq_false_iff, beq_eq_false_iff_ne,
        decide_eq_false_iff_not]
      omega
  have hin : inWindow block.height block.height = true := by
    simp [inWindow, pricingWindowBlocks]
  have hcons : windowCount (block :: chain) block.height =
      block.count + windowCount chain block.height := by
    rw [windowCount, countWhere_cons, if_pos hin, windowCount]
  rw [hsplit, countWhere_single rest]
  omega

theorem clamp_replayMultiplier (chain : List PricedBlock) :
    clampPricingMultiplierPermille (replayMultiplier chain) = replayMultiplier chain := by
  induction chain with
  | nil => decide
  | cons block chain ih =>
    rw [replayMultiplier]
    split
    · exact clamp_idem _
    · exact ih

section

variable {chain' : List PricedBlock}
  (h : chain'.map (fun b => (b.height, b.count)) = chain.map (fun b => (b.height, b.count)))
include h

/-- Hashes play no part. -/
theorem countWhere_congr (p : Int → Bool) : countWhere p chain' = countWhere p chain := by
  induction chain generalizing chain' with
  | nil =>
    rw [List.map_nil, List.map_eq_nil_iff] at h
    rw [h]
  | cons block chain ih =>
    obtain ⟨block', chain', rfl, hb, hc⟩ := List.map_eq_cons_iff.mp h
    obtain ⟨hh, hn⟩ := Prod.mk.inj hb
    rw [countWhere_cons, countWhere_cons, hh, hn, ih hc]

theorem replayMultiplier_congr : replayMultiplier chain' = replayMultiplier chain := by
  induction chain generalizing chain' with
  | nil =>
    rw [List.map_nil, List.map_eq_nil_iff] at h
    rw [h]
  | cons block chain ih =>
    obtain ⟨block', chain', rfl, hb, hc⟩ := List.map_eq_cons_iff.mp h
    have hw := countWhere_congr h (inWindow block.height)
    rw [replayMultiplier, replayMultiplier, (Prod.mk.inj hb).1, windowCount, windowCount, hw, ih hc]

theorem chainPricing_congr : chainPricing chain' = chainPricing chain := by
  cases chain with
  | nil =>
    rw [List.map_nil, List.map_eq_nil_iff] at h
    rw [h]
  | cons block chain =>
    have hm := replayMultiplier_congr h
    have hw := countWhere_congr h (inWindow block.height)
    obtain ⟨block', chain', rfl, hb, -⟩ := List.map_eq_cons_iff.mp h
    simp only [chainPricing, (Prod.mk.inj hb).1, windowCount, hw, hm]

end

/-! ## What the batches do to the pricing rows -/

/-- The rows the pricing state lives in. -/
def DbKey.isPricing : DbKey → Bool
  | .pricingState | .pricingUndo _ | .regCount _ => true
  | _ => false

/-- No operation of the batch names a pricing row. -/
def Unpriced (ops : DbBatch) : Prop := ∀ op ∈ ops, op.key.isPricing = false

theorem Unpriced.append {a b : DbBatch} (ha : Unpriced a) (hb : Unpriced b) : Unpriced (a ++ b) :=
  List.forall_mem_append.mpr ⟨ha, hb⟩

theorem Unpriced.flatMap {α : Type} {items : List α} {f : α → DbBatch}
    (h : ∀ x, Unpriced (f x)) : Unpriced (items.flatMap f) := by
  intro op ho
  obtain ⟨x, -, ho⟩ := List.mem_flatMap.mp ho
  exact h x op ho

theorem Unpriced.untouched {ops : DbBatch} (h : Unpriced ops) {key : DbKey}
    (hk : key.isPricing = true) : ¬ Touches ops key := by
  rintro ⟨op, ho, rfl⟩
  rw [h op ho] at hk
  cases hk

theorem unpriced_eraseIndexEntries (env : Env) (db : NicknameStateDB) (name : Bytes) :
    Unpriced (eraseIndexEntries env db name) := by
  intro op ho
  simp only [eraseIndexEntries, eraseNicknameBondIndexEntry, eraseNicknameOwnerIndexEntry] at ho
  split at ho
  · split at ho <;> split at ho <;> simp at ho <;> rcases ho with rfl | rfl <;> rfl
  · cases ho

theorem unpriced_writeNicknameIndexEntries (env : Env) (info : NicknameInfo) (name : Bytes) :
    Unpriced (writeNicknameIndexEntries env info name) := by
  intro op ho
  simp only [writeNicknameIndexEntries] at ho
  split at ho <;> split at ho <;> simp at ho <;> rcases ho with rfl | rfl <;> rfl

theorem unpriced_upsertOps (env : Env) (db : NicknameStateDB) (info : NicknameInfo) :
    Unpriced (upsertOps env db info) := by
  refine .append (.append (unpriced_eraseIndexEntries env db _) ?_)
    (unpriced_writeNicknameIndexEntries env _ _)
  simp [Unpriced, DbKey.isPricing]

theorem unpriced_eraseOps (env : Env) (db : NicknameStateDB) (name : Bytes) :
    Unpriced (eraseOps env db name) := by
  refine .append (unpriced_eraseIndexEntries env db _) ?_
  simp [Unpriced, DbKey.isPricing]

theorem unpriced_restoreOps (env : Env) (undo : NicknameUndoEntry) :
    Unpriced (restoreOps env undo) := by
  rw [restoreOps]
  split
  · exact List.forall_mem_cons.mpr ⟨rfl, unpriced_writeNicknameIndexEntries env _ _⟩
  · simp [Unpriced, DbKey.isPricing]

theorem unpriced_restoreBondIndexOps (db : NicknameStateDB) (blockHash : Uint256) :
    Unpriced (restoreBondIndexOps db blockHash) := by
  rw [restoreBondIndexOps]
  split
  · refine .append ?_ (by simp [Unpriced, DbKey.isPricing])
    intro op ho
    obtain ⟨entry, -, rfl⟩ := List.mem_map.mp ho
    rw [restoreBondIndexOp]
    split <;> rfl
  · intro op ho
    cases ho

/-- Of a written block, only `pricingOps` reaches the pricing rows. -/
theorem writeNicknameBatch_priced (env : Env) (db : NicknameStateDB) (blockHash : Uint256)
    (updates : NicknameBlockUpdates) {key : DbKey} (hk : key.isPricing = true) :
    (writeNicknameBatch env db blockHash updates).get? key =
      (writeBatch db (pricingOps db blockHash updates.blockHeight
        updates.registeredCount)).get? key := by
  apply get?_append_of_untouched_left
  refine Unpriced.untouched ?_ hk
  refine .append (.append (.append (.append (.append
    (.flatMap (unpriced_upsertOps env db)) (.flatMap (unpriced_eraseOps env db))) ?_) ?_) ?_) ?_
  · simp [Unpriced, DbKey.isPricing]
  · simp [Unpriced, DbKey.isPricing]
  · intro op ho
    obtain ⟨item, -, rfl⟩ := List.mem_map.mp ho
    rfl
  · simp [Unpriced, DbKey.isPricing]

/-- Of an undone block, the erased count and `restorePricingOps`. -/
theorem applyNicknameUndo_priced (env : Env) (db : NicknameStateDB) (blockHash : Uint256)
    (blockHeight : Int) (undoEntries : List NicknameUndoEntry) {key : DbKey}
    (hk : key.isPricing = true) :
    (applyNicknameUndo env db blockHash blockHeight undoEntries).get? key =
      (writeBatch db (.erase (.regCount blockHeight) ::
        restorePricingOps db blockHash)).get? key := by
  rw [applyNicknameUndo,
    get?_append_of_untouched_middle db ((unpriced_restoreBondIndexOps db blockHash).untouched hk),
    List.append_assoc, get?_append_of_untouched_left]
  · refine get?_congr (get?_apply_of_ne db ?_) _
    rintro rfl
    cases hk
  · refine Unpriced.untouched (.append ?_ ?_) hk
    · exact .flatMap fun undo => unpriced_eraseIndexEntries env db _
    · exact .flatMap (unpriced_restoreOps env)

/-! ## Runs -/

/-- A database and the blocks it was written for, latest first. -/
structure PricedLedger where
  db : NicknameStateDB
  chain : List PricedBlock

/-- `WriteNicknameBatch` at the next height under a hash new to the chain, or
`ApplyNicknameUndo` of the latest height, with any entries. -/
inductive PricingStep (env : Env) : PricedLedger → PricedLedger → Prop where
  | write {db : NicknameStateDB} {chain : List PricedBlock} (hash : Uint256)
      (updates : NicknameBlockUpdates) (next : Follows chain updates.blockHeight)
      (fresh : hash ∉ chain.map PricedBlock.hash) :
      PricingStep env ⟨db, chain⟩
        ⟨writeNicknameBatch env db hash updates,
          ⟨hash, updates.blockHeight, updates.registeredCount⟩ :: chain⟩
  | undo {db : NicknameStateDB} {block : PricedBlock} {chain : List PricedBlock}
      (undoEntries : List NicknameUndoEntry) :
      PricingStep env ⟨db, block :: chain⟩
        ⟨applyNicknameUndo env db block.hash block.height undoEntries, chain⟩

inductive PricingReachable (env : Env) : PricedLedger → Prop where
  | start : PricingReachable env ⟨∅, []⟩
  | next {ledger ledger' : PricedLedger} (run : PricingReachable env ledger)
      (step : PricingStep env ledger ledger') : PricingReachable env ledger'

/-- The pricing rows are those of the chain: the state, the counts by height,
and under the hash of each block the state before it. -/
structure PricedOk (ledger : PricedLedger) : Prop where
  heights : Consecutive ledger.chain
  hashes : (ledger.chain.map PricedBlock.hash).Nodup
  state : ledger.db.get? .pricingState = chainPricing ledger.chain
  counts : ∀ height, ledger.db.get? (.regCount height) = countAt ledger.chain height
  undo : ∀ block rest, (block :: rest) <:+ ledger.chain →
    ledger.db.get? (.pricingUndo block.hash) =
      some ⟨(chainPricing rest).isSome, (chainPricing rest).getD {}⟩

variable {ledger : PricedLedger}

/-- Reading the state back changes nothing: it is already in range. -/
theorem PricedOk.read (ok : PricedOk ledger) : readNicknamePricingState ledger.db =
      ((chainPricing ledger.chain).isSome, (chainPricing ledger.chain).getD {}) := by
  rw [readNicknamePricingState, ok.state]
  cases ledger.chain with
  | nil => rfl
  | cons block rest =>
    have hw : ¬ windowCount (block :: rest) block.height < 0 := by
      have := countWhere_nonneg (inWindow block.height) (block :: rest)
      rw [windowCount]
      omega
    simp only [chainPricing, clamp_replayMultiplier, if_neg hw, Option.isSome_some,
      Option.getD_some]

/-- A height below zero has no count, whether it is asked for or not. -/
theorem PricedOk.readCount (ok : PricedOk ledger) {height : Int}
    (next : Follows ledger.chain height) (h : Int) :
    readRegistrationCountAtHeight ledger.db h = ((countAt ledger.chain h).getD 0 : Nat) := by
  rw [readRegistrationCountAtHeight]
  split
  · have hnone : countAt ledger.chain h = none :=
      countAt_eq_none fun b hb => by have := (ok.heights.heights next b hb).1; omega
    rw [hnone]
    rfl
  · rw [ok.counts]

/-- The rebuild branch is taken at the first block only, where there is nothing
to add up. -/
theorem rebuild_eq_zero (h : ∀ height, db.get? (.regCount height) = none)
    (tipHeight : Int) : rebuildRollingRegistrations db tipHeight = 0 := by
  rw [rebuildRollingRegistrations]
  split
  · rfl
  · apply List.sum_eq_zero
    intro x hx
    obtain ⟨i, -, rfl⟩ := List.mem_map.mp hx
    simp [readRegistrationCountAtHeight, h]

/-- The state computed for the next block is the one its chain determines. -/
theorem PricedOk.computeNext (ok : PricedOk ledger) (block : PricedBlock)
    (next : Follows ledger.chain block.height) :
    some (computeNextPricingState ledger.db (readNicknamePricingState ledger.db).2 block.height
      block.count) = chainPricing (block :: ledger.chain) := by
  have hslide := windowCount_cons ok.heights next
  have hpos := countWhere_nonneg (inWindow block.height) (block :: ledger.chain)
  have hmult : ((chainPricing ledger.chain).getD {}).multiplierPermille =
      replayMultiplier ledger.chain := by
    cases ledger.chain <;> rfl
  have hrolling : (if ((chainPricing ledger.chain).getD {}).lastProcessedHeight + 1 ≠ block.height
      then rebuildRollingRegistrations ledger.db (block.height - 1)
      else ((chainPricing ledger.chain).getD {}).rollingRegistrations) =
        windowCount ledger.chain (block.height - 1) := by
    cases hchain : ledger.chain with
    | nil =>
      have hnone : ∀ height, ledger.db.get? (.regCount height) = none := by
        intro height
        rw [ok.counts, hchain]
        rfl
      rw [rebuild_eq_zero hnone]
      split <;> rfl
    | cons last rest =>
      rw [hchain] at next
      have he : block.height = last.height + 1 := next
      simp [chainPricing, he]
  rw [ok.read]
  simp only [computeNextPricingState, hrolling, hmult, ok.readCount next, ← hslide]
  rw [windowCount] at hslide ⊢
  rw [max_eq_right hpos]
  simp only [chainPricing, Option.some.injEq, NicknamePricingState.mk.injEq, true_and]
  refine ⟨rfl, ?_⟩
  rw [← clamp_replayMultiplier (block :: ledger.chain)]
  rfl

theorem PricedOk.write (ok : PricedOk ⟨db, chain⟩) (hash : Uint256) (updates : NicknameBlockUpdates)
    (next : Follows chain updates.blockHeight) (fresh : hash ∉ chain.map PricedBlock.hash) :
    PricedOk ⟨writeNicknameBatch env db hash updates,
      ⟨hash, updates.blockHeight, updates.registeredCount⟩ :: chain⟩ where
  heights := .cons ok.heights next
  hashes := List.nodup_cons.mpr ⟨fresh, ok.hashes⟩
  state := by
    rw [writeNicknameBatch_priced env db hash updates rfl]
    exact (get?_write_last db [_, _] [] _ (not_touches_nil _)).trans
      (ok.computeNext ⟨hash, updates.blockHeight, updates.registeredCount⟩ next)
  counts := by
    intro height
    rw [writeNicknameBatch_priced env db hash updates rfl, countAt_cons, ← ok.counts height]
    by_cases he : height = updates.blockHeight
    · subst he
      rw [if_pos rfl]
      exact get?_write_last db [_] [_] _ (by simp)
    · rw [if_neg he]
      exact get?_of_untouched db (by simp [pricingOps, Ne.symm he])
  undo := by
    intro block rest hsuffix
    rw [writeNicknameBatch_priced env db hash updates rfl]
    rcases List.suffix_cons_iff.mp hsuffix with he | hold
    · obtain ⟨rfl, rfl⟩ := List.cons.inj he
      have hread := ok.read
      refine (get?_write_last db [] [_, _] _ (by simp)).trans ?_
      rw [hread]
      cases hc : chainPricing rest <;> rfl
    · have hne : hash ≠ block.hash := by
        intro he
        exact fresh (he ▸ List.mem_map_of_mem (hold.mem List.mem_cons_self))
      rw [← ok.undo block rest hold]
      exact get?_of_untouched db (by simp [pricingOps, hne])

theorem PricedOk.undone {block : PricedBlock} (ok : PricedOk ⟨db, block :: chain⟩)
    (undoEntries : List NicknameUndoEntry) :
    PricedOk ⟨applyNicknameUndo env db block.hash block.height undoEntries, chain⟩ := by
  obtain ⟨heights, hashes, -, counts, undo⟩ := ok
  obtain ⟨fresh, hashes⟩ := List.nodup_cons.mp hashes
  cases heights with
  | cons rest next =>
    have hops : restorePricingOps db block.hash =
        [if (chainPricing chain).isSome then .write .pricingState ((chainPricing chain).getD {})
          else .erase .pricingState, .erase (.pricingUndo block.hash)] := by
      rw [restorePricingOps, undo block chain (List.suffix_refl _)]
    refine ⟨rest, hashes, ?_, ?_, ?_⟩
    · rw [applyNicknameUndo_priced env db _ _ _ rfl, hops]
      cases hc : chainPricing chain with
      | none => exact get?_erase_last db [_] [_] (by simp)
      | some state => exact get?_write_last db [_] [_] _ (by simp)
    · intro height
      have hcons := counts height
      rw [countAt_cons] at hcons
      rw [applyNicknameUndo_priced env db _ _ _ rfl, hops]
      by_cases he : height = block.height
      · subst he
        have hnone : countAt chain block.height = none :=
          countAt_eq_none fun b hb => by have := (rest.heights next b hb).2; omega
        rw [hnone]
        refine get?_erase_last db [] _ ?_
        split <;> simp
      · rw [if_neg he] at hcons
        rw [← hcons]
        refine get?_of_untouched db ?_
        split <;> simp [Ne.symm he]
    · intro b tail hsuffix
      have hne : block.hash ≠ b.hash := by
        intro he
        exact fresh (he ▸ List.mem_map_of_mem (hsuffix.mem List.mem_cons_self))
      rw [applyNicknameUndo_priced env db _ _ _ rfl, hops,
        ← undo b tail (hsuffix.trans (List.suffix_cons _ _))]
      refine get?_of_untouched db ?_
      split <;> simp [hne]

theorem PricingReachable.ok (run : PricingReachable env ledger) : PricedOk ledger := by
  induction run with
  | start =>
    refine ⟨.nil, .nil, by simp [chainPricing], by simp [countAt], ?_⟩
    intro block rest hsuffix
    simp at hsuffix
  | next _ step ih =>
    cases step with
    | write hash updates next fresh => exact ih.write hash updates next fresh
    | undo undoEntries => exact ih.undone undoEntries

/-- The pricing state is a function of the chain. After any writes and undos
the stored state has the height of the latest block, the registrations of the
window that ends there, and the multiplier replayed from the first block; two
databases with the same heights and counts have the same state, whatever each
went through. -/
theorem pricing_follows_chain {env : Env} {ledger : PricedLedger}
    (run : PricingReachable env ledger) :
    (∀ block rest, ledger.chain = block :: rest →
      ∃ state, ledger.db.get? .pricingState = some state ∧
        state.lastProcessedHeight = block.height ∧
        state.rollingRegistrations =
          ((ledger.chain.filter fun b => block.height - pricingWindowBlocks < b.height ∧
            b.height ≤ block.height).map fun b => (b.count : Int)).sum ∧
        state.multiplierPermille = replayMultiplier ledger.chain) ∧
    readPricingMultiplierPermille ledger.db = replayMultiplier ledger.chain ∧
    ∀ env' other, PricingReachable env' other →
      other.chain.map (fun b => (b.height, b.count)) =
        ledger.chain.map (fun b => (b.height, b.count)) →
      other.db.get? .pricingState = ledger.db.get? .pricingState := by
  have ok := run.ok
  refine ⟨?_, ?_, ?_⟩
  · intro block rest hchain
    refine ⟨_, ok.state.trans (by rw [hchain]; rfl), rfl, ?_, by rw [hchain]⟩
    rw [hchain]
    rfl
  · rw [readPricingMultiplierPermille, ok.read]
    cases ledger.chain <;> rfl
  · intro env' other run' hsame
    rw [ok.state, run'.ok.state]
    exact chainPricing_congr hsame

/-- Six hundred registrations, then an epoch block replaced by another. -/
theorem pricing_follows_chain_reorganised :
    readPricingMultiplierPermille
      (writeNicknameBatch sampleEnv
        (applyNicknameUndo sampleEnv
          (writeNicknameBatch sampleEnv
            (writeNicknameBatch sampleEnv ∅ 1 { blockHeight := 1599, registeredCount := 600 })
            2 { blockHeight := 1600, registeredCount := 7000 }) 2 1600 [])
        3 { blockHeight := 1600 }) = 1100 := by
  have first := PricingReachable.next (PricingReachable.start : PricingReachable sampleEnv _)
    (.write 1 { blockHeight := 1599, registeredCount := 600 } (by simp [Follows]) (by simp))
  have second := PricingReachable.next first
    (.write 2 { blockHeight := 1600, registeredCount := 7000 } (by simp [Follows]) (by simp))
  have third := PricingReachable.next (PricingReachable.next second (.undo []))
    (.write 3 { blockHeight := 1600 } (by simp [Follows]) (by simp))
  exact (pricing_follows_chain third).2.1.trans (by decide)

end KubuCore.Nickname
