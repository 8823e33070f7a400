import Mathlib.Data.List.TakeWhile
import Firecash.Lib.ChainTree
import Firecash.Wallet.RoundTrip
import Firecash.Walletd.Entry

/-!
# Where a watched wallet starts, and what it has seen since (zkas-walletd/src/lib.rs)

A viewing key is registered with a birthday. The daemon starts its view at the tree state of some chain
block and ingests the blocks strictly after it, so a view is complete if the block it starts at is
older than the birthday. A view that is known not to be is marked `blind_below`.

The node is honest: it answers with blocks of a tree of selected parents along which DAA scores
increase, each page as of some sink of its own choice (`SelectedChain`, `HonestReplies`). A `View`
remembers, besides the entry, where it started and what it ingested.

Three registrations leave a gap that nothing reports: a birthday that is exactly that of the fast-sync
checkpoint (`birthday_block_skipped`), or of the pruning point, and an earlier birthday for a wallet
that has a checkpoint. A fourth is one that fails: the wallet file has the new birthday and the loaded
view is the old one. Without these every block since the birthday is ingested or the view is marked
(`history_complete`).
-/

namespace Firecash

open Checked List Option ChainTree UInt64

variable {P : Prim} {W : WalletPrim P}

/-- The blocks a node can serve, by hash. -/
structure SelectedChain (P : Prim) where
  tree : ChainTree Hash
  block : Hash → DecodedBlock P
  /-- The shielded tree after a block. -/
  frontier : Hash → FrontierState
  hash_block : ∀ h, (block h).hash = h
  frontier_ok : ∀ h, ∃ tree : GlobalTree P, GlobalTree.fromState (frontier h) = .ok tree
  daa_lt : ∀ h, h ≠ tree.root → (block (tree.parent h)).daaScore < (block h).daaScore

namespace SelectedChain

variable (N : SelectedChain P)

def genesis : Hash := N.tree.root

def daa (h : Hash) : UInt64 := (N.block h).daaScore

/-- Blocks in the order of the chain, strictly after `low`, the last of them `dst`. -/
def Serves (low : Hash) (blocks : List (DecodedBlock P)) (dst : Hash) : Prop :=
  ∃ hs : List Hash, blocks = hs.map N.block ∧ N.tree.Ascends low hs dst

/-- Each page continues where the one before it ended, as of some sink, or reports a reorg. -/
def HonestReplies : Hash → List (PageReply P) → Prop
  | _, [] => True
  | low, .page page :: replies => page.reorged ∨ ∃ dst, N.Serves low page.blocks dst ∧ HonestReplies dst replies
  | _, .unavailable :: _ | _, .cursorGone :: _ => True

end SelectedChain

/-- What the node answers while a view is opened; `none` and `false`: it does not. -/
structure Answers (P : Prim) where
  /-- The tree state at the cursor of the checkpoint. -/
  cursorState : Bool
  /-- The checkpoint on disk parses. -/
  restored : Bool
  /-- `get_shielded_tree_state(None)`: the fast-sync checkpoint. -/
  checkpoint : Option Hash
  /-- The pages of the walk to the birthday. -/
  walk : List (DecodedPage P)
  /-- The tree state at the block the walk found. -/
  baseState : Bool
  /-- The pruning point, and the tree state at it. -/
  pruningPoint : Option Hash

/-- A view of the chain: an entry, the block it started at, and the blocks it has ingested since. -/
structure View (W : WalletPrim P) where
  entry : WalletEntry W
  start : Hash
  ingested : List (DecodedBlock P)

def WALK_PAGE : Nat := 2000

def WALK_PAGES : Nat := 4000

/-- The loop of `birthday_start` (lib.rs:2147): the last block below the birthday, if the walk gets there or
to the tip. -/
def birthdayWalk (birthday : UInt64) : List (DecodedPage P) → Option Hash → Option Hash
  | [], _ => none
  | page :: pages, baseBelow =>
    if page.reorged then none
    else
      match page.blocks.getLast? with
      | none => none
      | some last =>
        if birthday ≤ last.daaScore then
          ((page.blocks.takeWhile fun b => decide (b.daaScore < birthday)).getLast?.map (·.hash)).or baseBelow
        else if page.blocks.length < WALK_PAGE then some last.hash
        else birthdayWalk birthday pages (some last.hash)

namespace SelectedChain

variable (N : SelectedChain P)

/-- A view that starts at the tree state of a block. -/
def viewAt (W : WalletPrim P) (key : WalletKey) (start : Hash) (blindBelow : Nat) : Option (View W) := do
  let fresh ← key.wallet W
  let db ← fresh.applyFrontier (N.frontier start)
  some ⟨.fromParts key db start (N.daa start) [] 0 blindBelow, start, []⟩

/-- `fast_sync_entry` (lib.rs:2097) -/
def fastSyncEntry (W : WalletPrim P) (key : WalletKey) (birthday : UInt64) (a : Answers P) : Option (View W) := do
  let cp ← a.checkpoint
  if birthday < N.daa cp then none
  else
    let found := if a.baseState then birthdayWalk birthday (a.walk.take WALK_PAGES) none else none
    N.viewAt W key (found.getD cp) 0

/-- `full_scan_entry` (lib.rs:2198) -/
def fullScanEntry (W : WalletPrim P) (key : WalletKey) (birthday : UInt64) (a : Answers P) : Option (View W) := do
  let start ← a.pruningPoint
  let size := (N.frontier start).size
  N.viewAt W key start (if 0 < size ∧ birthday < N.daa start then size else 0)

/-- A view from scratch: by fast sync, else from the pruning point. -/
def freshView (W : WalletPrim P) (key : WalletKey) (birthday : UInt64) (a : Answers P) : Option (View W) :=
  (N.fastSyncEntry W key birthday a).or (N.fullScanEntry W key birthday a)

end SelectedChain

/-- One token of the daemon, registered with one viewing key. -/
structure Watch (W : WalletPrim P) where
  key : WalletKey
  /-- The birthday in the wallet file. -/
  birthday : Option UInt64
  /-- The checkpoint. -/
  disk : Option (View W)
  loaded : Option (View W)

inductive WatchStep (P : Prim) where
  | watch (birthday : UInt64) (answers : Answers P)
  | load (answers : Answers P)
  | sync (input : SyncInput P)
  /-- The daemon restarts. -/
  | restart

/-- A view read back from its checkpoint. -/
def View.resumed (key : WalletKey) (v : View W) : Option (View W) :=
  (key.wallet W).map fun fresh =>
    let e := v.entry
    { v with entry := .fromParts key (e.db.restored fresh.fvk) e.low e.scanned e.boundaries e.sinkBlue e.blindBelow }

namespace Watch

variable (N : SelectedChain P)

/-- `get_wallet` (lib.rs:2320) -/
def load (s : Watch W) (a : Answers P) : Watch W :=
  match s.loaded, s.birthday with
  | some _, _ | none, none => s
  | none, some birthday =>
    match s.disk with
    | none => { s with loaded := N.freshView W s.key birthday a }
    | some view =>
      if a.cursorState then
        { s with loaded := if a.restored then view.resumed s.key else N.freshView W s.key birthday a }
      else s

/-- `wallet_watch` (lib.rs:2987) with the key that is registered. -/
def watch (s : Watch W) (birthday : UInt64) (a : Answers P) : Watch W :=
  match s.birthday, s.disk with
  | some stored, some _ => Watch.load N { s with birthday := some (min stored birthday), loaded := none } a
  | _, _ =>
    -- the file is written before the view is built; without one the old view stays loaded
    { s with birthday := some birthday, disk := none, loaded := (N.freshView W s.key birthday a).or s.loaded }

/-- A sync pass of the loaded wallet. -/
def sync (s : Watch W) (input : SyncInput P) : Option (Watch W) := do
  let view ← s.loaded
  let (outcome, entry, saved) ← view.entry.syncOneWallet input
  let view' : View W := { view with entry, ingested := view.ingested ++ input.ingested }
  if outcome = .retired then some { s with disk := none, loaded := none }
  else some { s with disk := if saved then some view' else s.disk, loaded := some view' }

/-- `none`: there is nothing to sync, or the sync task panics. -/
def step (s : Watch W) : WatchStep P → Option (Watch W)
  | .watch birthday answers => some (s.watch N birthday answers)
  | .load answers => some (s.load N answers)
  | .sync input => s.sync input
  | .restart => some { s with loaded := none }

end Watch

/-! ## What a view covers -/

variable (N : SelectedChain P)

/-- A view that starts at this block has every block since the birthday before it. -/
def SelectedChain.StartsBefore (birthday : UInt64) (start : Hash) : Prop :=
  start = N.genesis ∨ N.daa start < birthday

/-- The view is known to be blind, or starts early enough. -/
def View.Covers (birthday : UInt64) (v : View W) : Prop :=
  v.entry.blindBelow ≠ 0 ∨ N.StartsBefore birthday v.start

/-- The blocks of a view lead from its start to its cursor. -/
def View.OnChain (v : View W) : Prop := N.Serves v.start v.ingested v.entry.low

namespace SelectedChain

variable {N : SelectedChain P} {birthday : UInt64} {a : Answers P}

theorem daa_le {b c : Hash} (h : b ∈ N.tree.chain c) : N.daa b ≤ N.daa c := by
  refine induction_on (T := N.tree) (motive := fun c => b ∈ N.tree.chain c → N.daa b ≤ N.daa c) c ?_ ?_ h
  · intro h
    rw [mem_chain_root.mp h]
    exact UInt64.le_refl _
  · intro c hc ih h
    rcases (mem_chain_iff hc).mp h with rfl | h
    · exact UInt64.le_refl _
    · exact UInt64.le_of_lt (UInt64.lt_of_le_of_lt (ih h) (N.daa_lt c hc))

/-- On one chain, a block that is not newer than another is before it. -/
theorem mem_chain_of_daa_le {b c sink : Hash} (hb : b ∈ N.tree.chain sink) (hc : c ∈ N.tree.chain sink)
    (le : N.daa b ≤ N.daa c) :
    b ∈ N.tree.chain c := by
  rcases mem_chain_total hb hc with h | h
  · exact h
  · by_cases same : c = b
    · rw [same]
      exact N.tree.mem_chain_self b
    · obtain ⟨root, h⟩ := mem_chain_parent_of_ne h same
      have lt : N.daa c < N.daa b := UInt64.lt_of_le_of_lt (daa_le h) (N.daa_lt b root)
      exact absurd le (UInt64.not_le.mpr lt)

variable {v : View W}

/-- Every block of a complete view's chain since the birthday was ingested. -/
theorem mem_ingested (on : v.OnChain N) (covers : v.Covers N birthday) (sighted : v.entry.blindBelow = 0) {b : Hash}
    (hb : b ∈ N.tree.chain v.entry.low) (above : b ≠ N.genesis) (born : birthday ≤ N.daa b) :
    N.block b ∈ v.ingested := by
  obtain ⟨hs, ingested, ascends⟩ := on
  rcases ascends.mem_chain_iff.mp hb with here | before
  · rw [ingested]
    exact mem_map_of_mem here
  · rcases covers with blind | genesis | early
    · exact absurd sighted blind
    · rw [genesis] at before
      exact absurd (mem_chain_root.mp before) above
    · have : N.daa b < birthday := UInt64.lt_of_le_of_lt (daa_le before) early
      exact absurd born (UInt64.not_le.mpr this)

/-! ## Opening a view -/

/-- The walk ends at a block below the birthday. -/
theorem birthdayWalk_below {pages : List (DecodedPage P)} {low h : Hash} {base : Option Hash}
    (honest : N.HonestReplies low (pages.map .page)) (below : ∀ b ∈ base, N.daa b < birthday)
    (hw : birthdayWalk birthday pages base = some h) : N.daa h < birthday := by
  induction pages generalizing low base with
  | nil => cases hw
  | cons page pages ih =>
    rw [birthdayWalk] at hw
    by_cases reorged : page.reorged
    · rw [if_pos reorged] at hw
      cases hw
    · rw [if_neg reorged] at hw
      obtain ⟨dst, ⟨hs, blocks, -⟩, honest⟩ := honest.resolve_left reorged
      have served : ∀ b ∈ page.blocks, N.daa b.hash = b.daaScore := by
        intro b hb
        rw [blocks] at hb
        obtain ⟨x, -, rfl⟩ := mem_map.mp hb
        rw [N.hash_block]
        rfl
      cases hl : page.blocks.getLast? with
      | none =>
        rw [hl] at hw
        cases hw
      | some last =>
        rw [hl] at hw
        dsimp only at hw
        have lastDaa := served last (mem_of_getLast? hl)
        by_cases reached : birthday ≤ last.daaScore
        · rw [if_pos reached] at hw
          cases hb : (page.blocks.takeWhile fun b => decide (b.daaScore < birthday)).getLast? with
          | none =>
            rw [hb] at hw
            exact below h hw
          | some b =>
            rw [hb] at hw
            cases hw
            have mem := mem_of_getLast? hb
            rw [served b ((takeWhile_sublist _).subset mem)]
            simpa using mem_takeWhile_imp mem
        · rw [if_neg reached] at hw
          have lower : N.daa last.hash < birthday := by
            rw [lastDaa]
            exact UInt64.not_le.mp reached
          by_cases short : page.blocks.length < WALK_PAGE
          · rw [if_pos short] at hw
            cases hw
            exact lower
          · rw [if_neg short] at hw
            refine ih honest ?_ hw
            intro b hb
            cases hb
            exact lower

variable {key : WalletKey}

theorem viewAt_cases {start : Hash} {blindBelow : Nat} (h : N.viewAt W key start blindBelow = some v) :
    v.OnChain N ∧ v.start = start ∧ v.entry.blindBelow = blindBelow := by
  obtain ⟨fresh, -, h⟩ := bind_eq_some_iff.mp h
  obtain ⟨db, -, h⟩ := bind_eq_some_iff.mp h
  cases h
  exact ⟨⟨[], rfl, rfl⟩, rfl, rfl⟩

theorem viewAt_isSome (valid : (key.wallet W).isSome) (start : Hash) (blindBelow : Nat) :
    (N.viewAt W key start blindBelow).isSome := by
  obtain ⟨fresh, opened⟩ := isSome_iff_exists.mp valid
  obtain ⟨fvk, rfl⟩ := WalletKey.wallet_eq_fresh opened
  obtain ⟨tree, rooted⟩ := N.frontier_ok start
  simp [viewAt, opened, WalletDb.applyFrontier, WalletDb.fresh, rooted]

/-- The birthday is neither that of the fast-sync checkpoint nor that of the pruning point, other than
genesis, and if it is before the pruning point then the tree there has leaves. -/
def Unambiguous (N : SelectedChain P) (birthday : UInt64) (a : Answers P) : Prop :=
  (∀ cp ∈ a.checkpoint, cp = N.genesis ∨ N.daa cp ≠ birthday) ∧
    ∀ pp ∈ a.pruningPoint, pp = N.genesis ∨ (N.daa pp ≠ birthday ∧ (birthday < N.daa pp → 0 < (N.frontier pp).size))

/-- The pages of the walk are honest. -/
def HonestWalk (N : SelectedChain P) (a : Answers P) : Prop :=
  ∀ cp ∈ a.checkpoint, N.HonestReplies cp ((a.walk.take WALK_PAGES).map .page)

/-- Where fast sync and the full scan start, unless the birthday is ambiguous. -/
theorem freshView_covers (honest : N.HonestWalk a) (clear : N.Unambiguous birthday a)
    (h : N.freshView W key birthday a = some v) : v.OnChain N ∧ v.Covers N birthday := by
  rcases or_eq_some_iff.mp h with fast | ⟨-, full⟩
  · obtain ⟨cp, hcp, fast⟩ := bind_eq_some_iff.mp fast
    by_cases early : birthday < N.daa cp
    · rw [if_pos early] at fast
      cases fast
    · rw [if_neg early] at fast
      obtain ⟨on, start, -⟩ := viewAt_cases fast
      refine ⟨on, .inr ?_⟩
      rw [start]
      generalize hf : (if a.baseState then birthdayWalk birthday (a.walk.take WALK_PAGES) none else none) = found
      cases found with
      | some base =>
        by_cases answered : a.baseState
        · rw [if_pos answered] at hf
          exact .inr (birthdayWalk_below (honest cp hcp) (by simp) hf)
        · rw [if_neg answered] at hf
          cases hf
      | none =>
        rcases clear.1 cp hcp with genesis | other
        · exact .inl genesis
        · exact .inr (UInt64.lt_of_le_of_ne (UInt64.not_lt.mp early) other)
  · obtain ⟨pp, hpp, full⟩ := bind_eq_some_iff.mp full
    obtain ⟨on, start, blind⟩ := viewAt_cases full
    refine ⟨on, ?_⟩
    rw [View.Covers, start, blind]
    rcases clear.2 pp hpp with genesis | ⟨other, leaves⟩
    · exact .inr (.inl genesis)
    · by_cases late : birthday < N.daa pp
      · have := leaves late
        rw [if_pos ⟨this, late⟩]
        exact .inl (by omega)
      · exact .inr (.inr (UInt64.lt_of_le_of_ne (UInt64.not_lt.mp late) other))

/-! ## Syncing a view -/

/-- What a pass ingests of honest pages leads on from the cursor. -/
theorem serves_ingestedBy {n : Nat} {low : Hash} {replies : List (PageReply P)} (honest : N.HonestReplies low replies) :
    ∃ dst, N.Serves low (ingestedBy n replies) dst := by
  induction n generalizing low replies with
  | zero => exact ⟨low, [], rfl, rfl⟩
  | succ n ih =>
    cases replies with
    | nil => exact ⟨low, [], rfl, rfl⟩
    | cons reply replies =>
      cases reply with
      | unavailable => exact ⟨low, [], rfl, rfl⟩
      | cursorGone => exact ⟨low, [], rfl, rfl⟩
      | page page =>
        simp only [ingestedBy]
        by_cases reorged : page.reorged
        · rw [if_pos reorged]
          exact ⟨low, [], rfl, rfl⟩
        · rw [if_neg reorged]
          obtain ⟨dst, ⟨hs, blocks, ascends⟩, honest⟩ := honest.resolve_left reorged
          obtain ⟨front, rest, split, cut⟩ : ∃ front rest : List Hash, hs = front ++ rest ∧
              WalletEntry.settled page = front.map N.block := by
            let low := fun h => decide ((N.block h).blueScore ≤ saturatingSub page.sinkBlueScore SYNC_TIP_MARGIN)
            refine ⟨hs.takeWhile low, hs.dropWhile low, takeWhile_append_dropWhile.symm, ?_⟩
            rw [WalletEntry.settled, blocks]
            exact takeWhile_map ..
          rw [split] at ascends
          obtain ⟨mid, first, second⟩ := ascends_append.mp ascends
          by_cases margin : WalletEntry.settled page = [] ∨ (WalletEntry.settled page).length < page.blocks.length
          · rw [if_pos margin]
            exact ⟨mid, front, cut, first⟩
          · rw [if_neg margin]
            -- the whole page is settled, so the next one starts where it ends
            have none : rest = [] := by
              rw [cut, blocks, split] at margin
              simp only [length_map, length_append] at margin
              exact length_eq_zero_iff.mp (by omega)
            subst none
            obtain rfl : mid = dst := second
            obtain ⟨dst', hs', next, ascends'⟩ := ih honest
            exact ⟨dst', front ++ hs', by rw [cut, next, map_append], ascends_append.mpr ⟨mid, first, ascends'⟩⟩

theorem Serves.dst_eq {low dst : Hash} {blocks : List (DecodedBlock P)} (h : N.Serves low blocks dst) :
    dst = (blocks.getLast?.map (·.hash)).getD low := by
  obtain ⟨hs, rfl, ascends⟩ := h
  rw [ascends.dst_eq, getLast?_map]
  cases hs.getLast? with
  | none => rfl
  | some last => exact (N.hash_block last).symm

end SelectedChain

/-- A pass over honest pages keeps a view on its chain; it starts where it did, and is as blind as it was. -/
theorem View.OnChain.sync {N : SelectedChain P} {v : View W} {input : SyncInput P} {outcome : SyncOutcome}
    {entry : WalletEntry W} {saved : Bool} (h : v.OnChain N) (honest : N.HonestReplies v.entry.low input.replies)
    (pass : v.entry.syncOneWallet input = some (outcome, entry, saved)) :
    View.OnChain N { v with entry, ingested := v.ingested ++ input.ingested } ∧
      entry.blindBelow = v.entry.blindBelow := by
  obtain ⟨e₁, ingests, -, low, blind⟩ := WalletEntry.syncOneWallet_ingests pass
  obtain ⟨dst, served⟩ := N.serves_ingestedBy honest
  have cursor : entry.low = dst := by
    rw [low, ingests.low, served.dst_eq]
    rfl
  obtain ⟨hs, ingested, ascends⟩ := h
  obtain ⟨hs', ingested', ascends'⟩ := served
  refine ⟨⟨hs ++ hs', ?_, ?_⟩, blind.trans ingests.blind⟩
  · rw [map_append, ← ingested, ← ingested']
    rfl
  · rw [cursor]
    exact ascends_append.mpr ⟨v.entry.low, ascends, ascends'⟩

namespace Watch

variable (N : SelectedChain P)

/-- **A view lacks nothing silently**: if it is not marked as blind, it has ingested every block above genesis
of the chain its cursor is on, from the birthday in the wallet file up to the cursor. -/
def HistoryComplete (s : Watch W) : Prop :=
  ∀ v ∈ s.loaded, ∀ birthday ∈ s.birthday, v.entry.blindBelow = 0 → ∀ sink, v.entry.low ∈ N.tree.chain sink →
    ∀ b ∈ N.tree.chain sink, b ≠ N.genesis → birthday ≤ N.daa b → N.daa b ≤ N.daa v.entry.low → N.block b ∈ v.ingested

/-- The node answers honestly. -/
def HonestStep (s : Watch W) : WatchStep P → Prop
  | .watch _ answers | .load answers => N.HonestWalk answers
  | .sync input => ∀ v ∈ s.loaded, N.HonestReplies v.entry.low input.replies
  | .restart => True

/-- A view that is opened has a birthday that is not ambiguous. The checkpoint of a wallet that is registered
again starts before the earlier birthday, and so does a loaded view that has no checkpoint, if the node
fails while its wallet is registered again. -/
def NoGap (s : Watch W) : WatchStep P → Prop
  | .watch birthday a =>
    match s.birthday, s.disk with
    | some stored, some v => v.Covers N (min stored birthday) ∧
      (a.restored = false → N.Unambiguous (min stored birthday) a)
    | _, _ => N.Unambiguous birthday a ∧ (a.pruningPoint = none → ∀ v ∈ s.loaded, v.Covers N birthday)
  | .load a => s.disk.isNone ∨ a.restored = false → ∀ birthday ∈ s.birthday, N.Unambiguous birthday a
  | _ => True

/-- Nothing is registered yet, and the key is valid. -/
structure Initial (s : Watch W) : Prop where
  birthday : s.birthday = none
  disk : s.disk = none
  loaded : s.loaded = none
  valid : (s.key.wallet W).isSome

/-- What holds in every run against an honest node whose steps are all `Ok`. -/
inductive Reached (Ok : Watch W → WatchStep P → Prop) : Watch W → Prop
  | start {s : Watch W} (h : s.Initial) : Reached Ok s
  | step {s s' : Watch W} {st : WatchStep P} (h : Reached Ok s) (honest : s.HonestStep N st) (ok : Ok s st)
      (hs : s.step N st = some s') : Reached Ok s'

/-- The views on disk and in memory are on their chains and cover the birthday. -/
structure Sound (s : Watch W) : Prop where
  valid : (s.key.wallet W).isSome
  disk : ∀ v ∈ s.disk, v.OnChain N ∧ ∀ birthday ∈ s.birthday, v.Covers N birthday
  loaded : ∀ v ∈ s.loaded, v.OnChain N ∧ ∀ birthday ∈ s.birthday, v.Covers N birthday

variable {N} {s s' : Watch W} {birthday : UInt64}

theorem resumed_sound {key : WalletKey} {v v' : View W} (h : v.resumed key = some v') (on : v.OnChain N)
    (covers : v.Covers N birthday) : v'.OnChain N ∧ v'.Covers N birthday := by
  obtain ⟨fresh, -, rfl⟩ := map_eq_some_iff.mp h
  exact ⟨on, covers⟩

variable {a : Answers P}

theorem Sound.load (h : s.Sound N) (honest : N.HonestWalk a)
    (clear : s.disk.isNone ∨ a.restored = false → ∀ birthday ∈ s.birthday, N.Unambiguous birthday a) :
    (s.load N a).Sound N := by
  unfold Watch.load
  split
  · exact h
  · exact h
  · rename_i birthday unloaded born
    have fresh : ∀ v, N.freshView W s.key birthday a = some v → N.Unambiguous birthday a →
        v.OnChain N ∧ ∀ b ∈ s.birthday, v.Covers N b := by
      intro v hv clear
      obtain ⟨on, covers⟩ := SelectedChain.freshView_covers honest clear hv
      refine ⟨on, fun b hb => ?_⟩
      obtain rfl := some.inj (born.symm.trans hb)
      exact covers
    split
    · rename_i nothing
      exact { h with loaded := fun v hv => fresh v hv (clear (.inl (by rw [nothing]; rfl)) birthday born) }
    · rename_i view saved
      by_cases answered : a.cursorState
      · rw [if_pos answered]
        refine { h with loaded := fun v hv => ?_ }
        by_cases readable : a.restored
        · rw [if_pos readable] at hv
          obtain ⟨on, covers⟩ := h.disk view saved
          obtain ⟨on', -⟩ := resumed_sound hv on (covers birthday born)
          exact ⟨on', fun b hb => (resumed_sound hv on (covers b hb)).2⟩
        · rw [if_neg readable] at hv
          exact fresh v hv (clear (.inr (by simpa using readable)) birthday born)
      · rw [if_neg answered]
        exact h

/-- A registration without a checkpoint. -/
theorem Sound.register (h : s.Sound N) (honest : N.HonestWalk a)
    (clear : N.Unambiguous birthday a) (old : a.pruningPoint = none → ∀ v ∈ s.loaded, v.Covers N birthday) :
    ({ s with birthday := some birthday, disk := none, loaded := (N.freshView W s.key birthday a).or s.loaded } :
      Watch W).Sound N where
  valid := h.valid
  disk := fun v hv => nomatch hv
  loaded := by
    intro v hv
    rcases or_eq_some_iff.mp hv with fresh | ⟨failed, kept⟩
    · obtain ⟨on, covers⟩ := SelectedChain.freshView_covers honest clear fresh
      exact ⟨on, fun b hb => some.inj hb ▸ covers⟩
    · -- the scan from the pruning point only fails for want of an answer
      have unanswered : a.pruningPoint = none := by
        cases hpp : a.pruningPoint with
        | none => rfl
        | some pp =>
          have built := SelectedChain.viewAt_isSome (N := N) h.valid pp
            (if 0 < (N.frontier pp).size ∧ birthday < N.daa pp then (N.frontier pp).size else 0)
          have full : N.fullScanEntry W s.key birthday a = none := (or_eq_none_iff.mp failed).2
          rw [SelectedChain.fullScanEntry, hpp] at full
          rw [show N.viewAt W s.key pp _ = none from full] at built
          cases built
      exact ⟨(h.loaded v kept).1, fun b hb => some.inj hb ▸ old unanswered v kept⟩

theorem Sound.watch (h : s.Sound N) (honest : N.HonestWalk a)
    (ok : s.NoGap N (.watch birthday a)) : (s.watch N birthday a).Sound N := by
  cases hb : s.birthday with
  | none =>
    simp only [NoGap, hb] at ok
    simp only [Watch.watch, hb]
    exact h.register honest ok.1 ok.2
  | some stored =>
    cases hd : s.disk with
    | none =>
      simp only [NoGap, hb, hd] at ok
      simp only [Watch.watch, hb, hd]
      exact h.register honest ok.1 ok.2
    | some v =>
      simp only [NoGap, hb, hd] at ok
      simp only [Watch.watch, hb, hd]
      refine Sound.load ⟨h.valid, ?_, fun v hv => nomatch hv⟩ honest ?_
      · intro v' hv'
        cases hv'
        exact ⟨(h.disk v hd).1, fun b hb => some.inj hb ▸ ok.1⟩
      · intro unread b hb
        cases hb
        rcases unread with nothing | unreadable
        · cases nothing
        · exact ok.2 unreadable

theorem Sound.step {st : WatchStep P} (h : s.Sound N) (honest : s.HonestStep N st) (ok : s.NoGap N st)
    (hs : s.step N st = some s') : s'.Sound N := by
  cases st with
  | watch birthday a =>
    cases hs
    exact h.watch honest ok
  | load a =>
    cases hs
    exact h.load honest ok
  | restart =>
    cases hs
    exact { h with loaded := fun v hv => nomatch hv }
  | sync input =>
    obtain ⟨view, loaded, hs⟩ := bind_eq_some_iff.mp hs
    obtain ⟨⟨outcome, entry, saved⟩, pass, hs⟩ := bind_eq_some_iff.mp hs
    obtain ⟨on, covers⟩ := h.loaded view loaded
    obtain ⟨on', blind⟩ := on.sync (honest view loaded) pass
    have synced : ∀ b ∈ s.birthday,
        View.Covers N b { view with entry, ingested := view.ingested ++ input.ingested } := by
      intro b hb
      rw [View.Covers, blind]
      exact covers b hb
    dsimp only at hs
    split at hs
    · cases hs
      exact ⟨h.valid, fun v hv => (nomatch hv), fun v hv => (nomatch hv)⟩
    · cases hs
      refine ⟨h.valid, fun v hv => ?_, fun v hv => ?_⟩
      · split at hv
        · cases hv
          exact ⟨on', synced⟩
        · exact h.disk v hv
      · cases hv
        exact ⟨on', synced⟩

theorem Reached.sound (h : Reached N (NoGap N) s) : s.Sound N := by
  induction h with
  | start h => exact ⟨h.valid, by simp [h.disk], by simp [h.loaded]⟩
  | step _ honest ok hs ih => exact ih.step honest ok hs

/-- **Every block since the birthday is ingested, or the view is marked as blind**, in any run against an
honest node in which no birthday is ambiguous and no view is kept that starts after an earlier one. -/
theorem history_complete {s : Watch W} (reached : Reached N (NoGap N) s) : s.HistoryComplete N := by
  intro v hv birthday hb sighted sink on b hmem above born upto
  obtain ⟨onChain, covers⟩ := reached.sound.loaded v hv
  exact SelectedChain.mem_ingested onChain (covers birthday hb) sighted
    (SelectedChain.mem_chain_of_daa_le hmem on upto) above born

end Watch

/-! ## Two registrations -/

/-- Blocks 1 to 9 in a row over genesis, and any number beside them. -/
def rowHeight (h : Hash) : Nat := if h.toNat < 10 then h.toNat else 1

theorem rowHeight_lt (h : Hash) : rowHeight h < 10 := by
  unfold rowHeight
  split <;> omega

def rowTree : ChainTree Hash where
  root := 0
  parent h := if h.toNat < 10 then h - 1 else 0
  height := rowHeight
  height_root := rfl
  height_parent := by
    intro h ne
    have pos : h.toNat ≠ 0 := fun zero => ne (BitVec.eq_of_toNat_eq zero)
    by_cases small : h.toNat < 10
    · have pred : (h - 1).toNat = h.toNat - 1 := by
        rw [BitVec.toNat_sub_of_le]
        · rfl
        · exact BitVec.le_def.mpr (Nat.one_le_iff_ne_zero.mpr pos)
      rw [if_pos small, rowHeight, rowHeight, if_pos small, pred, if_pos (by omega)]
      omega
    · rw [if_neg small, rowHeight, if_neg small]
      rfl

/-- The note a block mines for the wallet with key 7, and its leaf. -/
def rowNote (h : Hash) : CoinbaseNoteDesc × UInt64 × leafPrim.Cmx := (⟨7, h, 0⟩, 5, h + 5)

theorem rowDaa_lt {h : Hash} (ne : h ≠ rowTree.root) : ofNat (rowHeight (rowTree.parent h)) < ofNat (rowHeight h) := by
  have step : rowHeight h = rowHeight (rowTree.parent h) + 1 := rowTree.height_parent ne
  have low := rowHeight_lt h
  have size : (10 : Nat) ≤ size := by decide
  rw [lt_iff_toNat_lt, toNat_ofNat_of_lt' (by omega), toNat_ofNat_of_lt' (by omega)]
  omega

/-- Every block mines one note. -/
def row : SelectedChain leafPrim where
  tree := rowTree
  block h := ⟨h, 0, ofNat (rowHeight h), [rowNote h], [], [], 0, 0⟩
  frontier h :=
    if rowHeight h = 0 then ⟨0, none, []⟩
    else ⟨rowHeight h, some (h + 5), (range (rowHeight h - 1)).map fun i => BitVec.ofNat 256 (i + 1) + 5⟩
  hash_block _ := rfl
  frontier_ok := by
    intro h
    by_cases zero : rowHeight h = 0
    · rw [if_pos zero]
      exact ⟨_, rfl⟩
    · rw [if_neg zero]
      have low := rowHeight_lt h
      generalize hommers : (range (rowHeight h - 1)).map (fun i => BitVec.ofNat 256 (i + 1) + 5) = ommers
      have length : ommers.length = rowHeight h - 1 := by rw [← hommers]; simp
      have fits : (ommers ++ [h + 5]).length ≤ TREE_CAPACITY := by
        rw [length_append, length, length_singleton]
        exact (show rowHeight h - 1 + 1 ≤ 10 by omega).trans (by decide)
      have nodes : GlobalTree.nodesFromBytes leafPrim ommers = some ommers := by
        have := GlobalTree.nodesFromBytes_map leafPrim_frontierLaws ommers
        rwa [show ommers.map leafPrim.nodeToBytes = ommers from map_id _] at this
      have leaves : Leaves.ofList (ommers ++ [h + 5]) = some ⟨ommers ++ [h + 5], fits⟩ :=
        Leaves.ofList_eq_some_iff.mpr rfl
      refine ⟨⟨⟨ommers ++ [h + 5], fits⟩, rowHeight h⟩, ?_⟩
      unfold GlobalTree.fromState
      simp only [zero, if_false, nodes, length, if_true, leaves]
  daa_lt _ := rowDaa_lt

/-- The node has its fast-sync checkpoint at block 5, the sink at block 7 and everything since genesis. -/
def rowAnswers : Answers leafPrim :=
  ⟨true, true, some 5, [⟨false, 2000, [row.block 6, row.block 7]⟩], true, some 0⟩

theorem row_serves : row.Serves 5 [row.block 6, row.block 7] 7 :=
  ⟨[6, 7], rfl, by decide, by decide, by decide, by decide, rfl⟩

theorem rowAnswers_honest : row.HonestWalk rowAnswers := by
  intro cp hcp
  cases hcp
  exact .inr ⟨7, row_serves, trivial⟩

/-- A pass that gets both blocks. -/
def rowPass : SyncInput leafPrim := ⟨[.page ⟨false, 2000, [row.block 6, row.block 7]⟩], [], false⟩

def unregistered : Watch leafLists := ⟨.viewing 7, none, none, none⟩

theorem unregistered_initial : unregistered.Initial := ⟨rfl, rfl, rfl, rfl⟩

/-- The wallet is registered and synced once. -/
def registered (birthday : UInt64) : Option (Watch leafLists) :=
  (unregistered.watch row birthday rowAnswers).sync rowPass

theorem registered_reached {Ok : Watch leafLists → WatchStep leafPrim → Prop} {birthday : UInt64} {s : Watch leafLists}
    (low : (unregistered.watch row birthday rowAnswers).loaded.all fun v => decide (v.entry.low = 5))
    (ok : Ok unregistered (.watch birthday rowAnswers))
    (ok' : Ok (unregistered.watch row birthday rowAnswers) (.sync rowPass))
    (h : registered birthday = some s) : Watch.Reached row Ok s := by
  have walked : unregistered.HonestStep row (.watch birthday rowAnswers) := rowAnswers_honest
  have first : Watch.Reached row Ok (unregistered.watch row birthday rowAnswers) :=
    .step (.start unregistered_initial) walked ok rfl
  have served : (unregistered.watch row birthday rowAnswers).HonestStep row (.sync rowPass) := by
    intro v hv
    rw [mem_def.mp hv] at low
    rw [of_decide_eq_true low]
    exact .inr ⟨7, row_serves, trivial⟩
  exact .step first served ok' h

/-- Registered with the birthday 6, the wallet has blocks 6 and 7. -/
theorem history_complete_since_six : ∃ s : Watch leafLists, Watch.Reached row (Watch.NoGap row) s ∧
    s.birthday = some 6 ∧
    (∃ v ∈ s.loaded, v.entry.blindBelow = 0 ∧ v.ingested.map (·.hash) = [6, 7]) ∧ s.HistoryComplete row := by
  have reached : (registered 6).any fun s => decide (s.birthday = some 6 ∧ s.loaded.any fun v =>
      decide (v.entry.blindBelow = 0 ∧ v.ingested.map (·.hash) = [6, 7])) := by decide +kernel
  obtain ⟨s, hs, good⟩ := (Option.any_eq_true ..).mp reached
  obtain ⟨born, good⟩ := of_decide_eq_true good
  obtain ⟨v, hv, good⟩ := (Option.any_eq_true ..).mp good
  have clear : row.Unambiguous 6 rowAnswers := by
    constructor
    · intro cp hcp
      cases hcp
      exact .inr (by decide)
    · intro pp hpp
      cases hpp
      exact .inl rfl
  have ok : Watch.Reached row (Watch.NoGap row) s :=
    registered_reached (by decide +kernel) ⟨clear, fun h => nomatch h⟩ trivial hs
  exact ⟨s, ok, born, ⟨v, hv, of_decide_eq_true good⟩, Watch.history_complete ok⟩

/-- **The birthday block is skipped**: registered with the birthday 5, that of the fast-sync checkpoint, the
wallet starts after block 5, has none of its notes, and is not marked as blind. -/
theorem birthday_block_skipped : ∃ s : Watch leafLists, Watch.Reached row (fun _ _ => True) s ∧
    ¬ s.HistoryComplete row := by
  have reached : (registered 5).any fun s => decide (s.birthday = some 5 ∧ s.loaded.any fun v =>
      decide (v.entry.blindBelow = 0 ∧ v.entry.low = 7 ∧ v.ingested.map (·.hash) = [6, 7])) := by decide +kernel
  obtain ⟨s, hs, bad⟩ := (Option.any_eq_true ..).mp reached
  obtain ⟨born, bad⟩ := of_decide_eq_true bad
  obtain ⟨v, hv, bad⟩ := (Option.any_eq_true ..).mp bad
  obtain ⟨sighted, low, blocks⟩ := of_decide_eq_true bad
  refine ⟨s, registered_reached (by decide +kernel) trivial trivial hs, fun complete => ?_⟩
  have here : v.entry.low ∈ row.tree.chain 7 := by
    rw [low]
    exact row.tree.mem_chain_self 7
  have upto : row.daa 5 ≤ row.daa v.entry.low := by
    rw [low]
    decide
  have five := complete v hv 5 born sighted 7 here 5 (by decide +kernel) (by decide) (by decide) upto
  have : (5 : Hash) ∈ v.ingested.map (·.hash) := mem_map.mpr ⟨_, five, rfl⟩
  rw [blocks] at this
  exact absurd this (by decide)

end Firecash
