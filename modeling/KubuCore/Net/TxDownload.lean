import Mathlib.Data.Finset.Card
import Mathlib.Data.List.Sort

/-!
# Transactions asked of one peer

`m_tx_announced`, `m_tx_process_time` and `m_tx_in_flight` of a peer, under the handlers that change
them: `RequestTx`, the TX and NOTFOUND messages, and in `SendMessages` the expiry of old requests and
the getdata loop.
-/

namespace KubuCore.Net

def MAX_PEER_TX_IN_FLIGHT : Nat := 100
def MAX_PEER_TX_ANNOUNCEMENTS : Nat := 2 * 50000
def INBOUND_PEER_TX_DELAY : Int := 2 * 1000000
def GETDATA_TX_INTERVAL : Int := 30 * 1000000
def TX_EXPIRY_INTERVAL : Int := 10 * GETDATA_TX_INTERVAL
def MAX_BLOCKS_IN_TRANSIT_PER_PEER : Nat := 16
def MSG_TX : Nat := 1
def MSG_WITNESS_TX : Nat := MSG_TX ||| 1 <<< 30

structure TxDownloadState (T : Type) where
  m_tx_process_time : List (Int × T) := []
  m_tx_announced : Finset T := ∅
  m_tx_in_flight : List (T × Int) := []
  m_check_expiry_timer : Int := 0

/-- What the rest of the node says of a transaction: `AlreadyHave`, `GetTxRequestTime`, `GetRand`. -/
structure Answer where
  alreadyHave : Bool
  lastRequestTime : Int
  rand : Int

def calculateTxGetDataTime (a : Answer) (currentTime : Int) (useInboundDelay : Bool) : Int :=
  let processTime :=
    if a.lastRequestTime = 0 then currentTime
    else a.lastRequestTime + GETDATA_TX_INTERVAL + a.rand
  if useInboundDelay then processTime + INBOUND_PEER_TX_DELAY else processTime

namespace TxDownloadState

variable {T : Type} [DecidableEq T]

/-- `m_tx_process_time.emplace`: behind the entries of the same time. -/
def schedule (s : TxDownloadState T) (time : Int) (txid : T) : TxDownloadState T :=
  { s with m_tx_process_time := s.m_tx_process_time.orderedInsert (·.1 < ·.1) (time, txid) }

/-- `m_tx_in_flight.emplace`: the time of a transaction already in flight stays. -/
def send (s : TxDownloadState T) (txid : T) (time : Int) : TxDownloadState T :=
  { s with
    m_tx_in_flight :=
      if txid ∈ s.m_tx_in_flight.map Prod.fst then s.m_tx_in_flight
      else (txid, time) :: s.m_tx_in_flight }

/-- The erasure from `m_tx_announced` and `m_tx_in_flight` that four handlers make. -/
def forget (s : TxDownloadState T) (txid : T) : TxDownloadState T :=
  { s with
    m_tx_announced := s.m_tx_announced.erase txid
    m_tx_in_flight := s.m_tx_in_flight.filter (·.1 ≠ txid) }

def requestTx (s : TxDownloadState T) (txid : T) (currentTime : Int) (a : Answer)
    (fPreferredDownload : Bool) : TxDownloadState T :=
  if s.m_tx_announced.card ≥ MAX_PEER_TX_ANNOUNCEMENTS ∨
      s.m_tx_process_time.length ≥ MAX_PEER_TX_ANNOUNCEMENTS ∨ txid ∈ s.m_tx_announced then s
  else
    { s with m_tx_announced := insert txid s.m_tx_announced }.schedule
      (calculateTxGetDataTime a currentTime !fPreferredDownload) txid

def notFound (s : TxDownloadState T) (vInv : List (Nat × T)) : TxDownloadState T :=
  if vInv.length ≤ MAX_PEER_TX_IN_FLIGHT + MAX_BLOCKS_IN_TRANSIT_PER_PEER then
    vInv.foldl (fun s inv =>
      if (inv.1 = MSG_TX ∨ inv.1 = MSG_WITNESS_TX) ∧ inv.2 ∈ s.m_tx_in_flight.map Prod.fst then
        s.forget inv.2
      else s) s
  else s

def expire (s : TxDownloadState T) (currentTime rand : Int) : TxDownloadState T :=
  if s.m_check_expiry_timer ≤ currentTime then
    { s.m_tx_in_flight.foldl (fun s it =>
        if it.2 ≤ currentTime - TX_EXPIRY_INTERVAL then s.forget it.1 else s) s with
      m_check_expiry_timer := currentTime + TX_EXPIRY_INTERVAL / 5 + rand }
  else s

/-- One pass of the getdata loop; the state stays once the loop's condition fails. -/
def requestNext (currentTime : Int) (fPreferredDownload : Bool) (s : TxDownloadState T)
    (a : Answer) : TxDownloadState T :=
  match s.m_tx_process_time with
  | [] => s
  | (time, txid) :: rest =>
    if time ≤ currentTime ∧ s.m_tx_in_flight.length < MAX_PEER_TX_IN_FLIGHT then
      let s := { s with m_tx_process_time := rest }
      if a.alreadyHave then s.forget txid
      else if a.lastRequestTime ≤ currentTime - GETDATA_TX_INTERVAL then s.send txid currentTime
      else s.schedule (calculateTxGetDataTime a currentTime !fPreferredDownload) txid
    else s

/-- The getdata loop takes one answer a pass. -/
inductive Event (T : Type)
  | announced (txid : T) (currentTime : Int) (a : Answer) (fPreferredDownload : Bool)
  | received (txid : T)
  | notFound (vInv : List (Nat × T))
  | expiry (currentTime rand : Int)
  | getData (currentTime : Int) (fPreferredDownload : Bool) (answers : List Answer)

def handle (s : TxDownloadState T) : Event T → TxDownloadState T
  | .announced txid currentTime a fPreferredDownload =>
    s.requestTx txid currentTime a fPreferredDownload
  | .received txid => s.forget txid
  | .notFound vInv => s.notFound vInv
  | .expiry currentTime rand => s.expire currentTime rand
  | .getData currentTime fPreferredDownload answers =>
    answers.foldl (requestNext currentTime fPreferredDownload) s

def Pending (s : TxDownloadState T) (txid : T) : Prop :=
  txid ∈ s.m_tx_process_time.map Prod.snd ∨ txid ∈ s.m_tx_in_flight.map Prod.fst

structure Valid (s : TxDownloadState T) : Prop where
  pending : ∀ txid ∈ s.m_tx_announced, s.Pending txid
  unique : (s.m_tx_in_flight.map Prod.fst).Nodup
  inFlight : s.m_tx_in_flight.length ≤ MAX_PEER_TX_IN_FLIGHT
  announced : s.m_tx_announced.card ≤ MAX_PEER_TX_ANNOUNCEMENTS
  scheduled : s.m_tx_process_time.length ≤ MAX_PEER_TX_ANNOUNCEMENTS

variable {s : TxDownloadState T}

theorem Valid.forget (valid : Valid s) (txid : T) : Valid (s.forget txid) where
  pending := by
    intro other h
    obtain ⟨ne, h⟩ := Finset.mem_erase.1 h
    refine (valid.pending other h).imp_right fun h => ?_
    obtain ⟨entry, mem, rfl⟩ := List.mem_map.1 h
    exact List.mem_map_of_mem (List.mem_filter.2 ⟨mem, decide_eq_true ne⟩)
  unique := valid.unique.sublist (List.filter_sublist.map _)
  inFlight := (List.length_filter_le _ _).trans valid.inFlight
  announced := (Finset.card_le_card (Finset.erase_subset _ _)).trans valid.announced
  scheduled := valid.scheduled

theorem Valid.send (valid : Valid s) (room : s.m_tx_in_flight.length < MAX_PEER_TX_IN_FLIGHT)
    (txid : T) (time : Int) : Valid (s.send txid time) ∧
      txid ∈ (s.send txid time).m_tx_in_flight.map Prod.fst := by
  unfold TxDownloadState.send
  split
  next sent => exact ⟨valid, sent⟩
  next fresh =>
    refine ⟨⟨fun other h => ?_, List.nodup_cons.2 ⟨fresh, valid.unique⟩, room, valid.announced,
      valid.scheduled⟩, List.mem_cons_self⟩
    exact (valid.pending other h).imp_right (List.mem_cons_of_mem _)

theorem Valid.forgetEach {α : Type} (valid : Valid s) (xs : List α) (txid : α → T)
    (gone : TxDownloadState T → α → Prop) [∀ s x, Decidable (gone s x)] :
    Valid (xs.foldl (fun s x => if gone s x then s.forget (txid x) else s) s) := by
  refine List.foldlRecOn xs _ valid fun s valid x _ => ?_
  split
  · exact valid.forget (txid x)
  · exact valid

omit [DecidableEq T] in
/-- An entry can leave the schedule when its transaction is in flight or no longer announced. -/
theorem Valid.pop (valid : Valid s) {time : Int} {txid : T} {rest : List (Int × T)}
    (entries : s.m_tx_process_time = (time, txid) :: rest)
    (sent : txid ∈ s.m_tx_announced → txid ∈ s.m_tx_in_flight.map Prod.fst) :
    Valid { s with m_tx_process_time := rest } := by
  obtain ⟨pending, unique, inFlight, announced, scheduled⟩ := valid
  rw [entries] at scheduled
  refine ⟨fun other h => ?_, unique, inFlight, announced, (Nat.le_succ _).trans scheduled⟩
  have either := pending other h
  rw [Pending, entries, List.map_cons, List.mem_cons, or_assoc] at either
  exact either.elim (by rintro rfl; exact .inr (sent h)) id

omit [DecidableEq T] in
theorem pending_schedule {time : Int} {txid other : T} :
    (s.schedule time txid).Pending other ↔ other = txid ∨ s.Pending other := by
  simp [schedule, Pending, or_assoc, eq_comm]

theorem Valid.requestTx (valid : Valid s) (txid : T) (currentTime : Int) (a : Answer)
    (preferred : Bool) : Valid (s.requestTx txid currentTime a preferred) := by
  unfold TxDownloadState.requestTx
  split
  · exact valid
  next room =>
    push Not at room
    refine ⟨fun other h => (pending_schedule ..).2 ?_, valid.unique, valid.inFlight, ?_, ?_⟩
    · exact (Finset.mem_insert.1 h).imp_right (valid.pending other)
    · exact (Finset.card_insert_le _ _).trans room.1
    · exact (List.orderedInsert_length _ _ _).trans_le room.2.1

/-- A pass takes the first entry out of the schedule. Its transaction is put back, sent for or
forgotten. -/
theorem Valid.requestNext (valid : Valid s) (currentTime : Int) (preferred : Bool) (a : Answer) :
    Valid (requestNext currentTime preferred s a) := by
  unfold TxDownloadState.requestNext
  split
  · exact valid
  next time txid rest entries =>
    split
    next due =>
      dsimp only
      split
      · exact (valid.forget txid).pop entries fun h => absurd rfl (Finset.mem_erase.1 h).1
      split
      · obtain ⟨valid, sent⟩ := valid.send due.2 txid currentTime
        exact valid.pop entries fun _ => sent
      · refine ⟨fun other h => pending_schedule.2 ?_, valid.unique, valid.inFlight,
          valid.announced, ?_⟩
        · simpa [Pending, entries, or_assoc] using valid.pending other h
        · have := valid.scheduled
          rw [entries] at this
          exact (List.orderedInsert_length _ _ _).trans_le this
    · exact valid

theorem Valid.handle (valid : Valid s) (e : Event T) : Valid (s.handle e) := by
  cases e with
  | announced txid currentTime a preferred => exact valid.requestTx txid currentTime a preferred
  | received txid => exact valid.forget txid
  | notFound vInv =>
    change Valid (s.notFound vInv)
    unfold TxDownloadState.notFound
    split
    · exact valid.forgetEach vInv Prod.snd _
    · exact valid
  | expiry currentTime rand =>
    change Valid (s.expire currentTime rand)
    unfold TxDownloadState.expire
    split
    · obtain ⟨pending, unique, inFlight, announced, scheduled⟩ :=
        valid.forgetEach s.m_tx_in_flight Prod.fst fun _ it =>
          it.2 ≤ currentTime - TX_EXPIRY_INTERVAL
      exact ⟨pending, unique, inFlight, announced, scheduled⟩
    · exact valid
  | getData currentTime preferred answers =>
    exact List.foldlRecOn answers _ valid fun s valid a _ => valid.requestNext currentTime preferred a

/-- After every run an announced transaction is scheduled or in flight, and the three records keep
to their limits. With room left, an announcement is ignored only for a transaction still pending. -/
theorem announced_pending (events : List (Event T)) :
    Valid (events.foldl handle {}) ∧
      ∀ txid currentTime a preferred,
        let s : TxDownloadState T := events.foldl handle {}
        s.m_tx_announced.card < MAX_PEER_TX_ANNOUNCEMENTS →
        s.m_tx_process_time.length < MAX_PEER_TX_ANNOUNCEMENTS →
        s.requestTx txid currentTime a preferred = s → s.Pending txid := by
  have valid : Valid (events.foldl handle ({} : TxDownloadState T)) :=
    List.foldlRecOn events _ ⟨by simp, by simp, by simp, by simp, by simp⟩
      fun s valid e _ => valid.handle e
  refine ⟨valid, fun txid currentTime a preferred => ?_⟩
  intro s few short ignored
  refine valid.pending txid (by_contra fun fresh => fresh ?_)
  unfold TxDownloadState.requestTx at ignored
  rw [if_neg (by push Not; exact ⟨few, short, fresh⟩)] at ignored
  exact congrArg m_tx_announced ignored ▸ Finset.mem_insert_self ..

end TxDownloadState

end KubuCore.Net
