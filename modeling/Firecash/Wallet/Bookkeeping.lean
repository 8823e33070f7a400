import Firecash.Wallet.LeafLists
import Firecash.Wallet.Paths

/-!
# Where an owned note is

A note that ingest recovers is listed as unspent, moves to the pending spends when its spend is
submitted and back when the spend is lost, and goes for good when its nullifier is revealed.
`Accounts` is what every call keeps. Parking and reclaiming only permute the notes that are held, so
all but the order of the list is about `held`.

`append_leaf` does not look at the nullifiers already seen. A note that is recovered after its nullifier
was revealed is listed although it is spent (`revealedFirst_listed`), so the result is about runs in
which this does not happen, `RunFresh`.
-/

namespace Firecash

open List Option

variable {P : Prim} {W : WalletPrim P}

/-- The notes that events recover, with the positions they get from leaf `k` on. -/
def eventNotes (fvk : W.Fvk) : Nat → List (WalletEvent W) → List (OwnedNote W)
  | _, [] => []
  | k, .leaf _ owned :: es => (owned.map fun note => ⟨note, k, W.noteNullifier fvk note⟩).toList ++
    eventNotes fvk (k + 1) es
  | k, .reveal _ :: es => eventNotes fvk k es

/-- No note is recovered whose nullifier was revealed before it. -/
def EventsFresh (fvk : W.Fvk) : Finset NullifierBytes → List (WalletEvent W) → Prop
  | _, [] => True
  | spent, .leaf _ owned :: es => (∀ note ∈ owned, W.noteNullifier fvk note ∉ spent) ∧ EventsFresh fvk spent es
  | spent, .reveal nf :: es => EventsFresh fvk (insert nf spent) es

instance decidableEventsFresh (fvk : W.Fvk) : ∀ spent es, Decidable (EventsFresh (W := W) fvk spent es)
  | _, [] => .isTrue trivial
  | spent, .leaf _ owned :: es =>
    have := decidableEventsFresh fvk spent es
    inferInstanceAs (Decidable ((∀ note ∈ owned, W.noteNullifier fvk note ∉ spent) ∧ EventsFresh fvk spent es))
  | spent, .reveal nf :: es => decidableEventsFresh fvk (insert nf spent) es

namespace WalletDb

variable (db : WalletDb W)

/-- The notes that are held, unspent or parked. -/
def held : List (OwnedNote W) := db.notes ++ db.pendingSpends.map (·.note)

def recoveredBy : WalletOp P → List (OwnedNote W)
  | .ingest block _ => eventNotes db.fvk db.size (blockEvents db.fvk db.spentNullifiers block)
  | _ => []

/-- The notes recovered in a run. -/
def recovered : WalletDb W → List (WalletOp P) → List (OwnedNote W)
  | _, [] => []
  | db, op :: ops => db.recoveredBy op ++ (db.apply op).elim [] fun db' => recovered db' ops

def OpFresh : WalletOp P → Prop
  | .ingest block _ => EventsFresh db.fvk db.spentNullifiers (blockEvents db.fvk db.spentNullifiers block)
  | _ => True

/-- In no block of the run is a note recovered whose nullifier was revealed before it. -/
def RunFresh : WalletDb W → List (WalletOp P) → Prop
  | _, [] => True
  | db, op :: ops => db.OpFresh op ∧ (db.apply op).elim True fun db' => RunFresh db' ops

instance decidableOpFresh (db : WalletDb W) : ∀ op, Decidable (db.OpFresh op)
  | .ingest .. => decidableEventsFresh ..
  | .markSpent .. | .reclaimExpired .. | .setWitnessBudget .. | .advanceWitnessesCapped .. | .advanceBaseCapped ..
  | .installWitness .. | .warmLeaves => .isTrue trivial

instance decidableRunFresh : ∀ (db : WalletDb W) ops, Decidable (db.RunFresh ops)
  | _, [] => .isTrue trivial
  | db, op :: ops =>
    have := fun db' : WalletDb W => decidableRunFresh db' ops
    inferInstanceAs (Decidable (db.OpFresh op ∧ _))

/-- The books of a wallet that has recovered the notes `rec`. That no held note is spent is known where
no note was recovered after its nullifier, `inOrder`. -/
structure Accounts (inOrder : Prop) (rec : List (OwnedNote W)) (db : WalletDb W) : Prop where
  sorted : db.notes.Pairwise fun m n => m.position < n.position
  range : ∀ n ∈ db.held, db.baseSize ≤ n.position ∧ n.position < db.size
  nodup : (db.held.map (·.position)).Nodup
  unspent : inOrder → ∀ n ∈ db.held, n.nullifier ∉ db.spentNullifiers
  base_le : db.baseSize ≤ db.size
  accounted : ∀ n ∈ rec, n ∈ db.held ∨ n.nullifier ∈ db.spentNullifiers

variable {inOrder : Prop} {rec : List (OwnedNote W)} {db db' : WalletDb W}

/-- Calls that only move notes between the two lists. -/
theorem Accounts.of_perm (h : Accounts inOrder rec db) (sorted : db'.notes.Pairwise fun m n => m.position < n.position)
    (held : db'.held.Perm db.held) (spent : db'.spentNullifiers = db.spentNullifiers) (size : db'.size = db.size)
    (base : db'.baseSize = db.baseSize) : Accounts inOrder rec db' where
  sorted := sorted
  range := by
    rw [size, base]
    exact fun n hn => h.range n (held.mem_iff.mp hn)
  nodup := (held.map _).nodup_iff.mpr h.nodup
  unspent := by
    rw [spent]
    exact fun ordered n hn => h.unspent ordered n (held.mem_iff.mp hn)
  base_le := by rw [size, base]; exact h.base_le
  accounted := by
    rw [spent]
    intro n hn
    rcases h.accounted n hn with mem | gone
    · exact .inl (held.mem_iff.mpr mem)
    · exact .inr gone

/-- Calls that leave the notes, the nullifiers and the ends of the stream alone. -/
theorem Accounts.of_same (h : Accounts inOrder rec db) (notes : db'.notes = db.notes)
    (pending : db'.pendingSpends = db.pendingSpends)
    (spent : db'.spentNullifiers = db.spentNullifiers) (size : db'.size = db.size) (base : db'.baseSize = db.baseSize) :
    Accounts inOrder rec db' := by
  have held : db'.held = db.held := by rw [WalletDb.held, WalletDb.held, notes, pending]
  exact h.of_perm (by rw [notes]; exact h.sorted) (by rw [held]) spent size base

theorem accounts_books : Accounts inOrder rec db.books ↔ Accounts inOrder rec db :=
  ⟨fun h => h.of_same rfl rfl rfl rfl rfl, fun h => h.of_same rfl rfl rfl rfl rfl⟩

/-! ## Ingest -/

theorem Accounts.appendLeaf {cmx : P.Cmx} {owned : Option W.Note} (h : Accounts inOrder rec db)
    (new : inOrder → ∀ note ∈ owned, W.noteNullifier db.fvk note ∉ db.spentNullifiers)
    (ha : db.appendLeaf cmx owned = some db') :
    Accounts inOrder (rec ++ (owned.map fun note => ⟨note, db.size, W.noteNullifier db.fvk note⟩).toList) db' := by
  obtain ⟨-, rfl⟩ := appendLeaf_eq ha
  generalize hlast : (owned.map fun note => (⟨note, db.size, W.noteNullifier db.fvk note⟩ : OwnedNote W)).toList = last
  have newest : ∀ n ∈ last, n.position = db.size ∧ (inOrder → n.nullifier ∉ db.spentNullifiers) := by
    intro n hn
    rw [← hlast, mem_toList, map_eq_some_iff] at hn
    obtain ⟨note, hnote, rfl⟩ := hn
    exact ⟨rfl, fun ordered => new ordered note hnote⟩
  have single : last.Pairwise fun m n => m.position < n.position := by
    rw [← hlast]
    cases owned with
    | none => exact List.Pairwise.nil
    | some note => exact pairwise_singleton _ _
  have perm : ((db.notes ++ last) ++ db.pendingSpends.map (·.note)).Perm (db.held ++ last) := by
    rw [held, append_assoc, append_assoc]
    exact (perm_append_comm).append_left _
  have mem : ∀ {n}, n ∈ (db.notes ++ last) ++ db.pendingSpends.map (·.note) ↔ n ∈ db.held ∨ n ∈ last := by
    intro n
    rw [perm.mem_iff, mem_append]
  have base := h.base_le
  exact
    { sorted := by
        refine pairwise_append.mpr ⟨h.sorted, single, fun m hm n hn => ?_⟩
        have := (h.range m (mem_append_left _ hm)).2
        have := (newest n hn).1
        omega
      range := by
        intro n hn
        rcases mem.mp hn with old | hn
        · have := h.range n old
          exact ⟨this.1, Nat.lt_succ_of_lt this.2⟩
        · rw [(newest n hn).1]
          exact ⟨base, Nat.lt_succ_self _⟩
      nodup := by
        refine (perm.map _).nodup_iff.mpr ?_
        rw [map_append]
        refine h.nodup.append ?_ ?_
        · rw [← hlast]
          cases owned with
          | none => exact nodup_nil
          | some note => exact nodup_singleton _
        · intro p hp hp'
          obtain ⟨m, hm, rfl⟩ := mem_map.mp hp
          obtain ⟨n, hn, same⟩ := mem_map.mp hp'
          have := (h.range m hm).2
          have := (newest n hn).1
          omega
      unspent := by
        intro ordered n hn
        rcases mem.mp hn with old | hn
        · exact h.unspent ordered n old
        · exact (newest n hn).2 ordered
      base_le := Nat.le_succ_of_le base
      accounted := by
        intro n hn
        rcases mem_append.mp hn with old | hn
        · rcases h.accounted n old with hold | gone
          · exact .inl (mem.mpr (.inl hold))
          · exact .inr gone
        · exact .inl (mem.mpr (.inr hn)) }

theorem held_reveal (nf : NullifierBytes) : (db.reveal nf).held = db.held.filter (·.nullifier != nf) := by
  simp only [held, reveal, filter_append, List.filter_map]
  rfl

theorem Accounts.reveal (h : Accounts inOrder rec db) (nf : NullifierBytes) : Accounts inOrder rec (db.reveal nf) where
  sorted := h.sorted.filter _
  range := by
    rw [held_reveal]
    exact fun n hn => h.range n (mem_of_mem_filter hn)
  nodup := by
    rw [held_reveal]
    exact h.nodup.sublist (filter_sublist.map _)
  unspent := by
    intro ordered n hn
    rw [held_reveal, mem_filter] at hn
    have other : n.nullifier ≠ nf := by simpa using hn.2
    have before := h.unspent ordered n hn.1
    show n.nullifier ∉ insert nf db.spentNullifiers
    simp [other, before]
  base_le := h.base_le
  accounted := by
    intro n hn
    show n ∈ (db.reveal nf).held ∨ n.nullifier ∈ insert nf db.spentNullifiers
    rw [held_reveal, mem_filter, Finset.mem_insert]
    by_cases this : n.nullifier = nf
    · exact .inr (.inl this)
    · rcases h.accounted n hn with mem | gone
      · exact .inl ⟨mem, by simpa using this⟩
      · exact .inr (.inr gone)

theorem Accounts.events {es : List (WalletEvent W)} (h : Accounts inOrder rec db)
    (new : inOrder → EventsFresh db.fvk db.spentNullifiers es) (hes : db.events es = some db') :
    Accounts inOrder (rec ++ eventNotes db.fvk db.size es) db' := by
  induction hes using foldlM_induction generalizing rec with
  | nil => rwa [eventNotes, append_nil]
  | cons e es db db₁ he _ ih =>
    cases e with
    | leaf cmx owned =>
      have step := h.appendLeaf (fun ordered => (new ordered).1) he
      obtain ⟨-, rfl⟩ := appendLeaf_eq he
      rw [eventNotes, ← append_assoc]
      exact ih step (fun ordered => (new ordered).2)
    | reveal nf =>
      cases he
      have step := ih (h.reveal nf) new
      exact step

theorem Accounts.ingest {block : WalletBlock P} {info : Option BlockMeta} (h : Accounts inOrder rec db)
    (new : inOrder → db.OpFresh (.ingest block info)) (hi : db.ingest block info = some db') :
    Accounts inOrder (rec ++ db.recoveredBy (.ingest block info)) db' := by
  have books : Accounts inOrder rec db.books := accounts_books.mpr h
  exact accounts_books.mp (books.events new (ingest_events hi))

/-! ## Parking and reclaiming -/

theorem held_markSpent (db : WalletDb W) (position : Nat) (txid : Bytes32) (daa : UInt64) :
    (db.markSpent position txid daa).held.Perm db.held ∧ (db.markSpent position txid daa).notes.Sublist db.notes := by
  unfold markSpent
  split
  · rename_i note hfind
    refine ⟨?_, eraseP_sublist⟩
    obtain ⟨found, before, after, hbefore, hp, hnotes, herase⟩ :=
      exists_of_eraseP (mem_of_find?_eq_some hfind) (find?_some hfind)
    have first : db.notes.find? (·.position == position) = some found := by
      rw [hnotes, find?_append, find?_eq_none.mpr hbefore, find?_cons, hp]
      rfl
    obtain rfl : found = note := some.inj (first.symm.trans hfind)
    have moved : (before ++ after ++ (db.pendingSpends.map (·.note) ++ [found])).Perm
        (before ++ found :: after ++ db.pendingSpends.map (·.note)) := by
      simp only [append_assoc, cons_append]
      refine List.Perm.append_left before ?_
      rw [← append_assoc]
      exact perm_append_singleton found _
    show (db.notes.eraseP (·.position == position) ++
      (db.pendingSpends ++ [(⟨found, txid, daa⟩ : PendingSpend W)]).map PendingSpend.note).Perm db.held
    rw [herase, map_append, held, hnotes]
    exact moved
  · exact ⟨List.Perm.refl _, List.Sublist.refl _⟩

theorem insertNote_cons (m n : OwnedNote W) (ms : List (OwnedNote W)) :
    insertNote (m :: ms) n = if m.position ≤ n.position then m :: insertNote ms n else n :: m :: ms := by
  unfold insertNote
  by_cases le : m.position ≤ n.position
  · simp [le]
  · simp [le]

theorem insertNote_perm (notes : List (OwnedNote W)) (n : OwnedNote W) : (insertNote notes n).Perm (n :: notes) := by
  refine perm_middle.trans ?_
  rw [takeWhile_append_dropWhile]

variable {n : OwnedNote W}

/-- A note goes back to its place in the order of positions. -/
theorem insertNote_sorted {notes : List (OwnedNote W)}
    (sorted : notes.Pairwise fun a b => a.position < b.position) (new : ∀ m ∈ notes, m.position ≠ n.position) :
    (insertNote notes n).Pairwise fun a b => a.position < b.position := by
  induction notes with
  | nil => exact pairwise_singleton _ _
  | cons m ms ih =>
    obtain ⟨head, tail⟩ := pairwise_cons.mp sorted
    have ne : m.position ≠ n.position := new m mem_cons_self
    rw [insertNote_cons]
    split
    · rename_i le
      refine pairwise_cons.mpr ⟨fun x hx => ?_, ih tail fun x hx => new x (mem_cons_of_mem m hx)⟩
      rcases mem_cons.mp ((insertNote_perm ms n).mem_iff.mp hx) with rfl | old
      · omega
      · exact head x old
    · rename_i gt
      refine pairwise_cons.mpr ⟨fun x hx => ?_, sorted⟩
      rcases mem_cons.mp hx with rfl | old
      · omega
      · have := head x old
        omega

theorem insertNotes_perm (notes lost : List (OwnedNote W)) : (lost.foldl insertNote notes).Perm (notes ++ lost) := by
  induction lost generalizing notes with
  | nil => simp
  | cons n lost ih =>
    refine (ih (insertNote notes n)).trans (((insertNote_perm notes n).append_right lost).trans ?_)
    exact perm_middle.symm

theorem insertNotes_sorted {notes lost : List (OwnedNote W)}
    (sorted : notes.Pairwise fun a b => a.position < b.position)
    (nodup : ((notes ++ lost).map (·.position)).Nodup) :
    (lost.foldl insertNote notes).Pairwise fun a b => a.position < b.position := by
  induction lost generalizing notes with
  | nil => exact sorted
  | cons n lost ih =>
    have same : ((insertNote notes n ++ lost).map (·.position)).Perm ((notes ++ n :: lost).map (·.position)) :=
      (((insertNote_perm notes n).append_right lost).trans perm_middle.symm).map _
    refine ih (insertNote_sorted sorted fun m hm eq => ?_) (same.nodup_iff.mpr nodup)
    rw [map_append, nodup_append] at nodup
    exact nodup.2.2 _ (mem_map_of_mem hm) _ (mem_map_of_mem mem_cons_self) eq

theorem Accounts.reclaimExpired (h : Accounts inOrder rec db) (now maxAge : UInt64) :
    Accounts inOrder rec (db.reclaimExpired now maxAge).1 := by
  generalize hlost : db.pendingSpends.filter (expired now maxAge) = lost
  generalize hkept : db.pendingSpends.filter (fun p => !expired now maxAge p) = kept
  have split : (lost ++ kept).Perm db.pendingSpends := by
    rw [← hlost, ← hkept]
    exact filter_append_perm _ _
  have regroup : (db.notes ++ lost.map (·.note) ++ kept.map (·.note)).Perm db.held := by
    rw [append_assoc, ← map_append]
    exact (split.map _).append_left _
  have parts : ((db.notes ++ lost.map (·.note)).map (·.position)).Nodup := by
    have all := (regroup.map (·.position)).nodup_iff.mpr h.nodup
    rw [map_append] at all
    exact (nodup_append.mp all).1
  refine h.of_perm ?_ ?_ rfl rfl rfl
  · show ((db.pendingSpends.filter (expired now maxAge)).map (·.note) |>.foldl insertNote db.notes).Pairwise _
    rw [hlost]
    exact insertNotes_sorted h.sorted parts
  · show ((db.pendingSpends.filter (expired now maxAge)).map (·.note) |>.foldl insertNote db.notes) ++
      (db.pendingSpends.filter fun p => !expired now maxAge p).map (·.note) |>.Perm db.held
    rw [hlost, hkept]
    exact ((insertNotes_perm db.notes (lost.map (·.note))).append_right _).trans regroup

theorem Accounts.markSpent (h : Accounts inOrder rec db) (position : Nat) (txid : Bytes32) (daa : UInt64) :
    Accounts inOrder rec (db.markSpent position txid daa) := by
  obtain ⟨held, notes⟩ := held_markSpent db position txid daa
  have sorted := h.sorted.sublist notes
  unfold WalletDb.markSpent at held sorted ⊢
  split
  · rename_i note found
    rw [found] at held sorted
    exact h.of_perm sorted held rfl rfl rfl
  · exact h

/-! ## Witnesses and compaction -/

theorem earliestHeld_le (hn : n ∈ db.held) : db.earliestHeld ≤ n.position := by
  have mem : n.position ∈ db.notes.map (·.position) ++ db.pendingSpends.map (·.note.position) := by
    have := List.mem_map_of_mem (f := OwnedNote.position) hn
    rwa [held, map_append, List.map_map] at this
  unfold earliestHeld
  cases hm : (db.notes.map (·.position) ++ db.pendingSpends.map (·.note.position)).min? with
  | none =>
    rw [min?_eq_none_iff] at hm
    rw [hm] at mem
    cases mem
  | some least => exact (min?_eq_some_iff.mp hm).2 _ mem

/-- The base stops at the earliest held note. -/
theorem Accounts.upkeep (h : Accounts inOrder rec db) (same : db'.ledger = db.ledger)
    (base : db'.baseSize = db.baseSize ∨ db'.baseSize ≤ db.earliestHeld ∧ db'.baseSize ≤ db.size) :
    Accounts inOrder rec db' := by
  have notes : db'.notes = db.notes := (congrArg WalletDb.notes same :)
  have pending : db'.pendingSpends = db.pendingSpends := (congrArg WalletDb.pendingSpends same :)
  have spent : db'.spentNullifiers = db.spentNullifiers := (congrArg WalletDb.spentNullifiers same :)
  have size : db'.size = db.size := (congrArg WalletDb.size same :)
  obtain base | ⟨held, tip⟩ := base
  · exact h.of_same notes pending spent size base
  · have moved : Accounts inOrder rec { db with baseSize := db'.baseSize } :=
      { h with
        range := fun n hn => ⟨held.trans (earliestHeld_le hn), (h.range n hn).2⟩
        base_le := tip }
    exact moved.of_same notes pending spent size rfl

/-! ## Runs -/

theorem Started.accounts (h : Started db) : Accounts inOrder [] db := by
  have empty : db.notes = [] ∧ db.pendingSpends = [] ∧ db.baseSize ≤ db.size := by
    cases h with
    | fresh fvk => exact ⟨rfl, rfl, le_rfl⟩
    | frontier h =>
      obtain ⟨gt, -, rfl⟩ := applyFrontier_fresh h
      exact ⟨rfl, rfl, le_rfl⟩
  obtain ⟨notes, pending, base⟩ := empty
  have held : db.held = [] := by rw [WalletDb.held, notes, pending]; rfl
  exact
    { sorted := by rw [notes]; exact List.Pairwise.nil
      range := by rw [held]; exact fun n hn => nomatch hn
      nodup := by rw [held]; exact nodup_nil
      unspent := by rw [held]; exact fun _ n hn => nomatch hn
      base_le := base
      accounted := fun n hn => nomatch hn }

theorem accounts_apply {op : WalletOp P} (h : Accounts inOrder rec db) (new : inOrder → db.OpFresh op)
    (hop : db.apply op = some db') :
    Accounts inOrder (rec ++ db.recoveredBy op) db' := by
  cases op with
  | ingest block info => exact h.ingest new hop
  | markSpent position txid submittedDaa =>
    cases hop
    simpa [recoveredBy] using h.markSpent position txid submittedDaa
  | reclaimExpired now maxAge =>
    cases hop
    simpa [recoveredBy] using h.reclaimExpired now maxAge
  | setWitnessBudget _ | advanceWitnessesCapped _ _ | advanceBaseCapped _ _ | installWitness _ _ | warmLeaves =>
    obtain ⟨same, base⟩ := apply_upkeep rfl hop
    simpa [recoveredBy] using h.upkeep same base

theorem accounts_run {ops : List (WalletOp P)} (h : Accounts inOrder rec db) (new : inOrder → db.RunFresh ops)
    (hrun : db.run ops = some db') : Accounts inOrder (rec ++ db.recovered ops) db' := by
  induction hrun using foldlM_induction generalizing rec with
  | nil => rwa [recovered, append_nil]
  | cons op ops db db₁ hop _ ih =>
    rw [RunFresh, hop] at new
    rw [recovered, hop, ← append_assoc]
    exact ih (accounts_apply h (fun ordered => (new ordered).1) hop) (fun ordered => (new ordered).2)

/-- A note is in exactly one place: listed, parked, or gone with its nullifier. -/
def Placed (db : WalletDb W) (n : OwnedNote W) : Prop :=
  (n ∈ db.notes ∧ n ∉ db.pendingSpends.map (·.note) ∧ n.nullifier ∉ db.spentNullifiers) ∨
  (n ∉ db.notes ∧ n ∈ db.pendingSpends.map (·.note) ∧ n.nullifier ∉ db.spentNullifiers) ∨
  (n ∉ db.notes ∧ n ∉ db.pendingSpends.map (·.note) ∧ n.nullifier ∈ db.spentNullifiers)

theorem Accounts.placed (h : Accounts inOrder rec db) (ordered : inOrder) (hn : n ∈ rec) : db.Placed n := by
  have apart : ∀ m ∈ db.notes, m ∉ db.pendingSpends.map (·.note) := by
    have nodup : db.held.Nodup := List.Nodup.of_map _ h.nodup
    intro m listed parked
    exact (nodup_append.mp nodup).2.2 m listed m parked rfl
  have unspent : ∀ m, m ∈ db.notes ∨ m ∈ db.pendingSpends.map (·.note) → m.nullifier ∉ db.spentNullifiers :=
    fun m hm => h.unspent ordered m (mem_append.mpr hm)
  rcases h.accounted n hn with mem | gone
  · rcases mem_append.mp mem with listed | parked
    · exact .inl ⟨listed, apart n listed, unspent n (.inl listed)⟩
    · exact .inr (.inl ⟨fun listed => apart n listed parked, parked, unspent n (.inr parked)⟩)
  · exact .inr (.inr ⟨fun listed => unspent n (.inl listed) gone, fun parked => unspent n (.inr parked) gone, gone⟩)

theorem Accounts.strandedNotes (h : Accounts inOrder rec db) : db.strandedNotes = [] := by
  unfold WalletDb.strandedNotes
  rw [filter_eq_nil_iff]
  intro n hn
  have := (h.range n (mem_append_left _ hn)).1
  simp [Nat.not_lt.mpr this]

/-- **No owned note is lost or counted twice**, in any run in which no note is recovered after its own
nullifier: each recovered note is in exactly one place, none is below the base, and those that are held
can be witnessed at every leaf count a tree can have. -/
theorem owned_notes_placed (laws : IncrementalLaws W) {db₀ db : WalletDb W} {ops : List (WalletOp P)}
    (start : Started db₀) (hrun : db₀.run ops = some db) (fresh : db₀.RunFresh ops) :
    (∀ n ∈ db₀.recovered ops, db.Placed n) ∧
      (db.held.map (·.position)).Nodup ∧
      (db.notes.Pairwise fun m n => m.position < n.position) ∧
      (∀ n ∈ db.held, n.nullifier ∉ db.spentNullifiers ∧ db.baseSize ≤ n.position ∧
        ∀ matured, n.position < matured → matured ≤ db.size → matured ≤ TREE_CAPACITY →
          (db.witnessPathAt n.position matured).isSome) ∧
      db.strandedNotes = [] := by
  have books : Accounts (db₀.RunFresh ops) ([] ++ db₀.recovered ops) db := accounts_run start.accounts id hrun
  rw [nil_append] at books
  obtain ⟨ns, b, u, tracks⟩ := tracks_run laws (start.tracks laws) hrun
  refine ⟨fun n hn => books.placed fresh hn, books.nodup, books.sorted, fun n hn => ?_, books.strandedNotes⟩
  have base := (books.range n hn).1
  exact ⟨books.unspent fresh n hn, base, fun matured inside held room =>
    tracks.witnessPathAt_isSome laws base inside held room⟩

/-! ## Two runs -/

/-- A coinbase note of the wallet with key 7; its nullifier is 41. -/
def minedNote : CoinbaseNoteDesc := ⟨7, 40, 0⟩

/-- The note is mined, its spend is submitted and lost, and the base is rolled forward. -/
def minedAndReclaimed : List (WalletOp leafPrim) :=
  [.ingest (.compact [(minedNote, 5)] []) none, .markSpent 0 9 1, .advanceBaseCapped 1 1, .reclaimExpired 100 10]

theorem minedAndReclaimed_placed : ∃ db, (fresh (W := leafLists) 7).run minedAndReclaimed = some db ∧
    (∀ n ∈ (fresh (W := leafLists) 7).recovered minedAndReclaimed, db.Placed n) ∧ db.strandedNotes = [] := by
  obtain ⟨db, hrun⟩ : ∃ db, (fresh (W := leafLists) 7).run minedAndReclaimed = some db :=
    isSome_iff_exists.mp (by decide +kernel)
  obtain ⟨placed, -, -, -, stranded⟩ :=
    owned_notes_placed leafLists_laws (Started.fresh (W := leafLists) 7) hrun (by decide +kernel)
  exact ⟨db, hrun, placed, stranded⟩

/-- A transaction reveals the nullifier 41, and only then the note is mined. -/
def revealedFirst : List (WalletOp leafPrim) :=
  [.ingest (.compact [] [[⟨41, 1, 0, 0⟩]]) none, .ingest (.compact [(minedNote, 5)] []) none]

/-- A note that is recovered after its nullifier was revealed is listed, and spent. -/
theorem revealedFirst_listed : ∃ db, (fresh (W := leafLists) 7).run revealedFirst = some db ∧
    (((fresh (W := leafLists) 7).recovered revealedFirst).map (·.nullifier)).Nodup ∧
    ∃ n ∈ db.notes, n.nullifier ∈ db.spentNullifiers := by
  have reached : ((fresh (W := leafLists) 7).run revealedFirst).any
      fun db => db.notes.any fun n => decide (n.nullifier ∈ db.spentNullifiers) := by decide +kernel
  obtain ⟨db, hrun, listed⟩ := (Option.any_eq_true ..).mp reached
  obtain ⟨n, hn, spent⟩ := any_eq_true.mp listed
  exact ⟨db, hrun, by decide +kernel, n, hn, of_decide_eq_true spent⟩

end WalletDb

end Firecash
