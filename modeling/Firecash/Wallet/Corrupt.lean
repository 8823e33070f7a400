import Firecash.Wallet.RoundTrip

/-!
# Checkpoints as they may be found

A blob declares a size, a base and its frontier, a stream of leaves and the frontier of the tip.
`restore` takes each of them as it is declared: only that a frontier fits its own size is checked, and
not even that if it is empty. It also reserves memory for as many elements as a count says, before it
has read one. So a restore ends cleanly exactly for the blobs whose counts can be allocated and, where
they are accepted, whose parts agree (`restore_clean_iff`).
-/

namespace Firecash

open Parse Option

variable {P : Prim} {W : WalletPrim P}

/-- The base frontier summarises the leaves below the base, and the stored leaves lead from it to the
tip. -/
structure WalletDb.Consistent (db : WalletDb W) : Prop where
  size : db.size = db.baseSize + db.leaves.length
  base : W.frontierSize db.baseFrontier = db.baseSize
  tip : (GlobalTree.nodesFromBytes P db.leaves).bind (W.treeExtend (W.treeFromFrontier db.baseFrontier)) = some db.tree

/-! ## What a blob declares -/

namespace Head

/-- The tip tree a head comes with, its own or the caller's; `none` inside: the leaves are replayed,
`none` outside: the caller's frontier is no frontier. -/
def declaredTip (h : Head W) (tip : Option FrontierState) : Option (Option W.Tree) :=
  match h.tip, tip.filter (·.size == h.size) with
  | some f, _ => some (some (W.treeFromFrontier f))
  | none, some fs => (stateFrontier P fs).map fun f => some (W.treeFromFrontier f)
  | none, none => some none

/-- The declared leaves, if they are nodes, on top of the declared base, if they fit. -/
def extended (h : Head W) : Option W.Tree :=
  (GlobalTree.nodesFromBytes P h.leaves).bind (W.treeExtend (W.treeFromFrontier h.baseFrontier))

/-- The size counts the base and the leaves, an empty base has size zero, and the leaves lead to the
tip. -/
structure Agrees (h : Head W) (tip : Option W.Tree) : Prop where
  size : h.size = h.baseSize + h.leaves.length
  base : P.frontierValue h.baseFrontier = none → h.baseSize = 0
  leaves : h.extended.isSome
  tip : ∀ t ∈ tip, h.extended = some t

end Head

/-- What is left of a blob after a section that it has from version `since` on. -/
def sectionEnd (since version : UInt8) (bs : List UInt8) : List UInt8 :=
  if version < since then bs else (readSection bs).2

/-- What is left after the three sections. -/
def sectionsEnd (version : UInt8) (bs : List UInt8) : List UInt8 :=
  sectionEnd CHECKPOINT_VERSION version
    (sectionEnd CHECKPOINT_VERSION_V6 version (sectionEnd CHECKPOINT_VERSION_V5 version bs))

/-- The buffer of the witness section. -/
def witnessBuffer (version : UInt8) (bs : List UInt8) : Option (List UInt8) :=
  if version < CHECKPOINT_VERSION_V5 then none else (readSection bs).1

/-- Every count that is reached can be allocated, and a head that is accepted agrees with itself. -/
def WellDeclared (W : WalletPrim P) (bytes : List UInt8) (tip : Option FrontierState) : Prop :=
  (∀ r ∈ (readHead W).requests bytes, r ≤ ISIZE_MAX) ∧
    ∀ h rest, (readHead W).run bytes = .ok (h, rest) →
      (∀ buf ∈ witnessBuffer h.version rest, ∀ r ∈ (readWitnesses W).requests buf, r ≤ ISIZE_MAX) ∧
      (sectionsEnd h.version rest = [] → ∀ t, h.declaredTip tip = some t → h.Agrees t)

namespace WalletDb

variable {db db' : WalletDb W}

/-- The fields that `Consistent` is about. -/
def stream (db : WalletDb W) : P.Frontier × Nat × List Bytes32 × Nat × W.Tree :=
  (db.baseFrontier, db.baseSize, db.leaves, db.size, db.tree)

/-! ## The sections -/

variable {buf : List UInt8}

theorem readWitnessSection_stream (h : readWitnessSection db buf = .ok db') : db'.stream = db.stream := by
  obtain ⟨found, -, h⟩ := Except.bind_eq_ok_iff.mp h
  split at h
  · split at h <;> (obtain rfl := Except.ok.inj h; rfl)
  · cases h
    rfl

theorem readHistorySection_stream (h : readHistorySection db buf = .ok db') : db'.stream = db.stream := by
  obtain ⟨found, -, h⟩ := Except.bind_eq_ok_iff.mp h
  split at h <;> (obtain rfl := Except.ok.inj h; rfl)

theorem readPendingSection_stream (h : readPendingSection db buf = .ok db') : db'.stream = db.stream := by
  obtain ⟨found, -, h⟩ := Except.bind_eq_ok_iff.mp h
  split at h <;> (obtain rfl := Except.ok.inj h; rfl)

theorem panics_readWitnessSection_iff (db : WalletDb W) (buf : List UInt8) :
    (readWitnessSection db buf).panics ↔ ∃ r ∈ (readWitnesses W).requests buf, ISIZE_MAX < r := by
  unfold readWitnessSection
  rw [Except.panics_bind_iff, panics_attempt_iff]
  refine ⟨fun h => h.resolve_right ?_, .inl⟩
  rintro ⟨found, -, h⟩
  split at h
  · split at h <;> cases h
  · cases h

theorem modest_readNote : (readNote W).Modest := by
  intro _ _ _ _ _ _
  exact (Modest.ofOption _).bind fun note => trivial

theorem modest_readPending : (readPending W).Modest := by
  have spend : (readPendingSpend W).Modest := modest_readNote.bind fun note => fun _ _ => trivial
  intro _ bs
  exact (spend.times _).bind fun _ => trivial

theorem modest_readHistoryEntry : readHistoryEntry.Modest := by
  have kind : readHistoryKind.Modest := by
    intro bs
    show (if bs.headD 0 = 0 then pure .coinbase else if bs.headD 0 = 1 then pure .received
      else if bs.headD 0 = 2 then pure .sent else .fail : Parse HistoryKind).Modest
    split_ifs <;> trivial
  have recipient : readRecipient.Modest := by
    intro bs
    show (if bs.headD 0 = 0 then pure none else if bs.headD 0 = 1 then _
      else .fail : Parse (Option AddressBytes)).Modest
    split_ifs
    · trivial
    · exact fun _ => trivial
    · trivial
  refine kind.bind fun _ => ?_
  intro _ _ _ _ _
  exact recipient.bind fun _ => fun _ _ => trivial

theorem modest_readHistory : readHistory.Modest := fun _ => modest_readHistoryEntry.times _

theorem exists_readHistorySection (db : WalletDb W) (buf : List UInt8) :
    ∃ db', readHistorySection db buf = .ok db' := by
  obtain ⟨found, hfound⟩ := modest_readHistory.attempt buf
  unfold readHistorySection
  rw [hfound]
  cases found with
  | none => exact ⟨_, rfl⟩
  | some history => exact ⟨_, rfl⟩

theorem exists_readPendingSection (db : WalletDb W) (buf : List UInt8) :
    ∃ db', readPendingSection db buf = .ok db' := by
  obtain ⟨found, hfound⟩ := (modest_readPending).attempt buf
  unfold readPendingSection
  rw [hfound]
  cases found with
  | none => exact ⟨_, rfl⟩
  | some pending => exact ⟨_, rfl⟩

theorem exists_readWitnessSection (db : WalletDb W)
    (fits : ∀ r ∈ (readWitnesses W).requests buf, r ≤ ISIZE_MAX) : ∃ db', readWitnessSection db buf = .ok db' := by
  obtain ⟨found, hfound⟩ := exists_attempt fits
  unfold readWitnessSection
  rw [hfound]
  cases found with
  | none => exact ⟨_, rfl⟩
  | some found =>
    obtain ⟨upto, lag, ws⟩ := found
    by_cases kept : db.baseSize ≤ upto ∧ upto ≤ db.size ∧ ∀ pw ∈ ws, pw.1 ∈ db.notes.map (·.position)
    · exact ⟨_, if_pos kept⟩
    · exact ⟨_, if_neg kept⟩

variable {read : WalletDb W → List UInt8 → Except (Fault Unit) (WalletDb W)} {version : UInt8} {bs : List UInt8}

/-- A section leaves the stream as it is, and what is left of the blob does not depend on what is in it. -/
theorem bestEffort_ok {since : UInt8}
    {rest : List UInt8} (keeps : ∀ {db db' : WalletDb W} {buf}, read db buf = .ok db' → db'.stream = db.stream)
    (h : bestEffort read since version db bs = .ok (db', rest)) :
    rest = sectionEnd since version bs ∧ db'.stream = db.stream := by
  unfold bestEffort at h
  unfold sectionEnd
  split at h
  · rename_i older
    cases h
    exact ⟨(if_pos older).symm, rfl⟩
  · rename_i newer
    rw [if_neg newer]
    split at h
    · rename_i left hs
      cases h
      exact ⟨by rw [hs], rfl⟩
    · rename_i buf left hs
      obtain ⟨db₁, hread, h⟩ := Except.bind_eq_ok_iff.mp h
      cases h
      exact ⟨by rw [hs], keeps hread⟩

theorem exists_bestEffort (db : WalletDb W)
    (since version : UInt8) (total : version < since ∨ ∀ buf ∈ (readSection bs).1, ∃ db', read db buf = .ok db') :
    ∃ db', bestEffort read since version db bs = .ok (db', sectionEnd since version bs) := by
  unfold bestEffort sectionEnd
  split
  · exact ⟨_, rfl⟩
  · rename_i newer
    have total := total.resolve_left newer
    split
    · rename_i left hs
      exact ⟨db, by rw [hs]⟩
    · rename_i buf left hs
      obtain ⟨db', hread⟩ := total buf (by rw [hs]; rfl)
      refine ⟨db', ?_⟩
      rw [hread, hs]
      rfl

/-! ## The head -/

theorem witnessBuffer_mem (newer : ¬version < CHECKPOINT_VERSION_V5)
    (h : buf ∈ (readSection bs).1) : buf ∈ witnessBuffer version bs := by
  unfold witnessBuffer
  rwa [if_neg newer]

variable {bytes : List UInt8} {h : Head W}

/-- From v4 on a head that was read has a tip. -/
theorem readHead_tip {rest : List UInt8} (hread : (readHead W).run bytes = .ok (h, rest))
    (newer : CHECKPOINT_VERSION_V4 ≤ h.version) : h.tip.isSome := by
  obtain ⟨body, mid, -, hread⟩ := run_bind_eq_ok_iff.mp hread
  split at hread
  · obtain ⟨tip, mid, -, hread⟩ := run_bind_eq_ok_iff.mp hread
    cases hread
    rfl
  · rename_i older
    cases hread
    exact absurd newer older

variable (laws : IncrementalLaws W)

include laws in
/-- A frontier that was read has the size it was read under, unless it is empty. -/
theorem readFrontier_size {size : Nat} {rest : List UInt8} {f : P.Frontier}
    (h : (readFrontier P size).run bs = .ok (f, rest)) :
    P.frontierValue f = none ∨ W.frontierSize f = size := by
  obtain ⟨tag, mid, -, h⟩ := run_bind_eq_ok_iff.mp h
  split at h
  · cases h
    exact .inl laws.frontierValue_empty
  · split at h
    · obtain ⟨leaf, mid, -, h⟩ := run_bind_eq_ok_iff.mp h
      obtain ⟨ommers, mid, -, h⟩ := run_bind_eq_ok_iff.mp h
      obtain ⟨h, -⟩ := run_ofOption_eq_ok_iff.mp h
      unfold stateFrontier at h
      split at h
      · rename_i gt hgt
        cases h
        refine .inr ?_
        rw [← frontierSize_of_fromState laws hgt, GlobalTree.fromState_size hgt]
      · cases h
    · cases h

include laws in
theorem readHead_base {rest : List UInt8} (hread : (readHead W).run bytes = .ok (h, rest)) :
    P.frontierValue h.baseFrontier = none ∨ W.frontierSize h.baseFrontier = h.baseSize := by
  obtain ⟨body, mid, hbody, hread⟩ := run_bind_eq_ok_iff.mp hread
  have base : P.frontierValue body.baseFrontier = none ∨ W.frontierSize body.baseFrontier = body.baseSize := by
    obtain ⟨version, mid, -, hbody⟩ := run_bind_eq_ok_iff.mp hbody
    split at hbody
    · cases hbody
    · obtain ⟨baseSize, mid, -, hbody⟩ := run_bind_eq_ok_iff.mp hbody
      obtain ⟨baseFrontier, mid, hf, hbody⟩ := run_bind_eq_ok_iff.mp hbody
      obtain ⟨size, mid, -, hbody⟩ := run_bind_eq_ok_iff.mp hbody
      obtain ⟨leaves, mid, -, hbody⟩ := run_bind_eq_ok_iff.mp hbody
      obtain ⟨notes, mid, -, hbody⟩ := run_bind_eq_ok_iff.mp hbody
      obtain ⟨nullifiers, mid, -, hbody⟩ := run_bind_eq_ok_iff.mp hbody
      cases hbody
      exact readFrontier_size laws hf
  split at hread
  · obtain ⟨tip, mid, -, hread⟩ := run_bind_eq_ok_iff.mp hread
    cases hread
    exact base
  · cases hread
    exact base

/-- What a head is installed as: its own parts, with the tip it comes with or the replay of its leaves. -/
theorem install_stream (h : Head W) (fvk : W.Fvk) (tip : Option FrontierState) :
    (h.install (fresh fvk) tip).map stream = (h.declaredTip tip).map fun t =>
      (h.baseFrontier, h.baseSize, h.leaves, h.size,
        t.getD (W.treeFill (W.treeFromFrontier h.baseFrontier) ((GlobalTree.nodesFromBytes P h.leaves).getD []))) := by
  unfold Head.install Head.declaredTip
  cases h.tip with
  | some f => rfl
  | none =>
    cases tip.filter (·.size == h.size) with
    | none => rfl
    | some fs =>
      dsimp only
      cases stateFrontier P fs <;> rfl

theorem agrees_iff {t : Option W.Tree}
    (base : P.frontierValue h.baseFrontier = none ∨ W.frontierSize h.baseFrontier = h.baseSize)
    (hdb : db.stream = (h.baseFrontier, h.baseSize, h.leaves, h.size,
      t.getD (W.treeFill (W.treeFromFrontier h.baseFrontier) ((GlobalTree.nodesFromBytes P h.leaves).getD [])))) :
    h.Agrees t ↔ db.Consistent := by
  simp only [stream, Prod.mk.injEq] at hdb
  obtain ⟨frontier, baseSize, leaves, size, tree⟩ := hdb
  have empty : P.frontierValue h.baseFrontier = none → W.frontierSize h.baseFrontier = 0 := by
    intro none
    rw [WalletPrim.frontierSize, none]
  have replayed : ∀ x, h.extended = some x →
      W.treeFill (W.treeFromFrontier h.baseFrontier) ((GlobalTree.nodesFromBytes P h.leaves).getD []) = x := by
    intro x hx
    obtain ⟨nodes, hnodes, hx⟩ := bind_eq_some_iff.mp hx
    rw [hnodes]
    exact WalletPrim.treeFill_of_extend hx
  constructor
  · rintro ⟨counted, emptyBase, fit, tipped⟩
    obtain ⟨x, hx⟩ := isSome_iff_exists.mp fit
    refine ⟨by rw [size, baseSize, leaves, counted], ?_, ?_⟩
    · rw [frontier, baseSize]
      rcases base with none | same
      · rw [empty none, emptyBase none]
      · exact same
    · rw [leaves, frontier, tree]
      show h.extended = _
      cases t with
      | some t => exact tipped t rfl
      | none => rw [hx, getD_none, replayed x hx]
  · rintro ⟨counted, based, tipped⟩
    rw [leaves, frontier, tree] at tipped
    have tipped : h.extended = _ := tipped
    refine ⟨by rw [← size, ← baseSize, ← leaves, counted], ?_, by rw [tipped]; rfl, ?_⟩
    · intro none
      rw [← baseSize, ← based, frontier, empty none]
    · rintro x hx
      obtain rfl : t = some x := hx
      exact tipped

/-! ## Restoring -/

variable {tip : Option FrontierState}

/-- An accepted blob: its head was read and installed and its sections end it. -/
theorem restore_ok (h : db.restore bytes tip = .ok db') :
    ∃ head rest db₁, (readHead W).run bytes = .ok (head, rest) ∧ head.install db tip = some db₁ ∧
      sectionsEnd head.version rest = [] ∧ db'.stream = db₁.stream := by
  obtain ⟨⟨head, rest⟩, hhead, h⟩ := Except.bind_eq_ok_iff.mp h
  obtain ⟨db₁, hinstall, h⟩ := Except.bind_eq_ok_iff.mp h
  obtain ⟨⟨db₂, rest₂⟩, hwitnesses, h⟩ := Except.bind_eq_ok_iff.mp h
  obtain ⟨⟨db₃, rest₃⟩, hhistory, h⟩ := Except.bind_eq_ok_iff.mp h
  obtain ⟨⟨db₄, rest₄⟩, hpending, h⟩ := Except.bind_eq_ok_iff.mp h
  obtain ⟨rfl, same₂⟩ := bestEffort_ok readWitnessSection_stream hwitnesses
  obtain ⟨rfl, same₃⟩ := bestEffort_ok readHistorySection_stream hhistory
  obtain ⟨rfl, same₄⟩ := bestEffort_ok readPendingSection_stream hpending
  dsimp only at h
  split at h
  · rename_i done
    cases h
    exact ⟨head, rest, db₁, hhead, Except.ofOption_eq_ok_iff.mp hinstall, done, same₄.trans (same₃.trans same₂)⟩
  · cases h

variable {head : Head W}

/-- Once the head is installed only the counts of the witness section can stop the sections. -/
theorem exists_sections {rest : List UInt8} {db₁ : WalletDb W}
    (hhead : (readHead W).run bytes = .ok (head, rest)) (hinstall : head.install db tip = some db₁)
    (fits : ∀ buf ∈ witnessBuffer head.version rest, ∀ r ∈ (readWitnesses W).requests buf, r ≤ ISIZE_MAX) :
    ∃ db₄, db₄.stream = db₁.stream ∧
      db.restore bytes tip = if sectionsEnd head.version rest = [] then .ok db₄ else .error (.err ()) := by
  obtain ⟨db₂, hwitnesses⟩ : ∃ db₂, bestEffort readWitnessSection CHECKPOINT_VERSION_V5 head.version db₁ rest =
      .ok (db₂, sectionEnd CHECKPOINT_VERSION_V5 head.version rest) := by
    refine exists_bestEffort db₁ _ _ ?_
    by_cases older : head.version < CHECKPOINT_VERSION_V5
    · exact .inl older
    · exact .inr fun buf hbuf => exists_readWitnessSection db₁ (fits buf (witnessBuffer_mem older hbuf))
  obtain ⟨db₃, hhistory⟩ := exists_bestEffort db₂ CHECKPOINT_VERSION_V6 head.version
    (.inr fun buf _ => exists_readHistorySection db₂ buf)
  obtain ⟨db₄, hpending⟩ := exists_bestEffort db₃ CHECKPOINT_VERSION head.version
    (.inr fun buf _ => exists_readPendingSection db₃ buf)
  have same₂ := (bestEffort_ok readWitnessSection_stream hwitnesses).2
  have same₃ := (bestEffort_ok readHistorySection_stream hhistory).2
  have same₄ := (bestEffort_ok readPendingSection_stream hpending).2
  exact ⟨db₄, same₄.trans (same₃.trans same₂), restore_of_stages hhead hinstall hwitnesses hhistory hpending⟩

theorem panics_bestEffort (hbuf : buf ∈ witnessBuffer version bs)
    (aborts : (readWitnessSection db buf).panics) :
    (bestEffort readWitnessSection CHECKPOINT_VERSION_V5 version db bs).panics := by
  unfold witnessBuffer at hbuf
  unfold bestEffort
  split at hbuf
  · cases hbuf
  · rename_i newer
    rw [if_neg newer]
    split
    · rename_i left hs
      rw [hs] at hbuf
      cases hbuf
    · rename_i found left hs
      rw [hs] at hbuf
      obtain rfl : found = buf := some.inj hbuf
      exact Except.panics_bind_iff.mpr (.inl aborts)

/-- A blob with a witness section has a tip, so its head is installed. -/
theorem exists_install {rest : List UInt8} (hhead : (readHead W).run bytes = .ok (head, rest))
    (hbuf : buf ∈ witnessBuffer head.version rest) (db : WalletDb W) (tip : Option FrontierState) :
    ∃ db₁, head.install db tip = some db₁ := by
  have newer : CHECKPOINT_VERSION_V4 ≤ head.version := by
    unfold witnessBuffer at hbuf
    split at hbuf
    · cases hbuf
    · rename_i newer
      exact UInt8.le_trans (by decide) (UInt8.not_lt.mp newer)
  obtain ⟨f, hf⟩ := isSome_iff_exists.mp (readHead_tip hhead newer)
  unfold Head.install
  rw [hf]
  exact ⟨_, rfl⟩

/-- A restore aborts exactly on a count that cannot be allocated: in the head, or in the witness section. -/
theorem panics_restore_iff :
    (db.restore bytes tip).panics ↔ (∃ r ∈ (readHead W).requests bytes, ISIZE_MAX < r) ∨
      ∃ head rest, (readHead W).run bytes = .ok (head, rest) ∧
        ∃ buf ∈ witnessBuffer head.version rest, ∃ r ∈ (readWitnesses W).requests buf, ISIZE_MAX < r := by
  rw [← panics_run_iff]
  constructor
  · intro aborted
    cases hhead : (readHead W).run bytes with
    | error e =>
      rw [restore, hhead] at aborted
      exact .inl ((Except.panics_bind_iff.mp aborted).resolve_right fun ⟨_, ok, _⟩ => nomatch ok)
    | ok r =>
      obtain ⟨head, rest⟩ := r
      refine .inr ⟨head, rest, rfl, ?_⟩
      cases hinstall : head.install db tip with
      | none =>
        rw [restore, hhead] at aborted
        replace aborted : (Except.ofOption (Fault.err ()) (head.install db tip) >>= _).panics = true := aborted
        rw [hinstall] at aborted
        cases aborted
      | some db₁ =>
        by_contra fits
        simp only [not_exists, not_and, Nat.not_lt] at fits
        obtain ⟨db₄, -, ended⟩ := exists_sections hhead hinstall fits
        rw [ended] at aborted
        split at aborted <;> cases aborted
  · rintro (aborts | ⟨head, rest, hhead, buf, hbuf, aborts⟩)
    · exact Except.panics_bind_iff.mpr (.inl aborts)
    · obtain ⟨db₁, hinstall⟩ := exists_install hhead hbuf db tip
      rw [restore, hhead]
      show (Except.ofOption (Fault.err ()) (head.install db tip) >>= _).panics = true
      rw [hinstall]
      have stopped := panics_bestEffort hbuf ((panics_readWitnessSection_iff db₁ buf).mpr aborts)
      exact Except.panics_bind_iff.mpr (.inr ⟨db₁, rfl, Except.panics_bind_iff.mpr (.inl stopped)⟩)

include laws in
/-- **When a restore ends cleanly**, for every key, blob and tip: it does not abort, and what it returns is
consistent. -/
theorem restore_clean_iff (key : WalletKey) (bytes : List UInt8) (tip : Option FrontierState) :
    (¬(restoreWith W key bytes tip).panics ∧ ∀ db, restoreWith W key bytes tip = .ok db → db.Consistent) ↔
      ((key.wallet W).isSome → WellDeclared W bytes tip) := by
  cases hkey : key.wallet W with
  | none =>
    have refused : restoreWith W key bytes tip = .error (.err ()) := by
      rw [restoreWith, hkey]
      rfl
    rw [refused]
    simp [Except.panics]
  | some db₀ =>
    obtain ⟨fvk, rfl⟩ := WalletKey.wallet_eq_fresh hkey
    rw [restoreWith_eq hkey, panics_restore_iff]
    simp only [isSome_some, true_implies, not_or, not_exists, not_and, Nat.not_lt]
    constructor
    · rintro ⟨⟨headFits, sectionFits⟩, consistent⟩
      refine ⟨headFits, fun h rest hhead => ⟨sectionFits h rest hhead, fun done t ht => ?_⟩⟩
      have installed := install_stream h fvk tip
      rw [ht] at installed
      obtain ⟨db₁, hinstall, hstream⟩ := map_eq_some_iff.mp installed
      obtain ⟨db₄, same, ended⟩ := exists_sections hhead hinstall (sectionFits h rest hhead)
      rw [if_pos done] at ended
      exact (agrees_iff (readHead_base laws hhead) (same.trans hstream)).mpr (consistent db₄ ended)
    · rintro ⟨headFits, sound⟩
      refine ⟨⟨headFits, fun h rest hhead => (sound h rest hhead).1⟩, fun db hdb => ?_⟩
      obtain ⟨h, rest, db₁, hhead, hinstall, done, same⟩ := restore_ok hdb
      have installed := install_stream h fvk tip
      rw [hinstall] at installed
      obtain ⟨t, ht, hstream⟩ := map_eq_some_iff.mp installed.symm
      exact (agrees_iff (readHead_base laws hhead) (same.trans hstream.symm)).mp ((sound h rest hhead).2 done t ht)

/-- A v4 blob of one leaf, with the leaf `last` in the tip. -/
def oneLeaf (last : Bytes32) : List UInt8 :=
  [4] ++ (leBytes 8 0 ++ ([0] ++ (leBytes 8 1 ++ (leBytes 8 1 ++ (writeBytes32 5 ++ (leBytes 8 0 ++ (leBytes 8 0 ++
    ([1] ++ (writeBytes32 last ++ leBytes 8 0)))))))))

theorem oneLeaf_clean : ¬(fromCheckpoint leafLists 7 (oneLeaf 5)).panics ∧
    ∀ db, fromCheckpoint leafLists 7 (oneLeaf 5) = .ok db → db.Consistent := by
  refine (restore_clean_iff leafLists_laws (.seed 7) (oneLeaf 5) none).mpr fun _ => ⟨by decide +kernel, ?_⟩
  intro h rest hhead
  have facts : ((readHead leafLists).run (oneLeaf 5)).toOption.all fun r => decide (r.1.version = 4 ∧ r.1.size = 1 ∧
      r.1.baseSize = 0 ∧ r.1.leaves.length = 1 ∧ r.1.tip.map (·.list) = some [5] ∧
      r.1.extended.map (·.list) = some [5]) := by
    decide +kernel
  rw [hhead] at facts
  obtain ⟨version, size, base, leaves, tip, extended⟩ : h.version = 4 ∧ h.size = 1 ∧ h.baseSize = 0 ∧
    h.leaves.length = 1 ∧
    h.tip.map (·.list) = some [5] ∧ h.extended.map (·.list) = some [5] := of_decide_eq_true facts
  obtain ⟨f, hf, flist⟩ := map_eq_some_iff.mp tip
  obtain ⟨x, hx, xlist⟩ := map_eq_some_iff.mp extended
  have noSection : witnessBuffer h.version rest = none := by rw [version]; rfl
  refine ⟨fun buf hbuf => ?_, fun _ t ht => ⟨by omega, fun _ => base, by rw [hx]; rfl, ?_⟩⟩
  · rw [noSection] at hbuf
    cases hbuf
  · rw [Head.declaredTip, hf] at ht
    obtain rfl : some f = t := some.inj ht
    intro t ht
    obtain rfl : f = t := some.inj ht
    rw [hx, Leaves.ext (xlist.trans flist.symm)]

/-- Declares 2^60 leaves. -/
def hugeCount : List UInt8 := [7] ++ (leBytes 8 0 ++ ([0] ++ (leBytes 8 0 ++ leBytes 8 1152921504606846976)))

/-- Declares a base of five leaves with the empty frontier, and nine leaves in all. -/
def emptyBase : List UInt8 :=
  [7] ++ (leBytes 8 5 ++ ([0] ++ (leBytes 8 9 ++ (leBytes 8 0 ++ (leBytes 8 0 ++ (leBytes 8 0 ++ [0]))))))

/-- A count that aborts the restore, an accepted base that is no base, and an accepted tip of other leaves. -/
theorem corrupt_blobs : (fromCheckpoint leafLists 7 hugeCount).panics ∧
    (∃ db, fromCheckpoint leafLists 7 emptyBase = .ok db ∧ db.size ≠ db.baseSize + db.leaves.length ∧
      leafLists.frontierSize db.baseFrontier ≠ db.baseSize) ∧
    ∃ db, fromCheckpoint leafLists 7 (oneLeaf 6) = .ok db ∧ db.leaves = [5] ∧ ¬db.Consistent := by
  refine ⟨by decide +kernel, ?_, ?_⟩
  · have read : (fromCheckpoint leafLists 7 emptyBase).toOption.any fun db =>
        decide (db.size ≠ db.baseSize + db.leaves.length ∧ leafLists.frontierSize db.baseFrontier ≠ db.baseSize) := by
      decide +kernel
    obtain ⟨db, read, facts⟩ := (any_eq_true ..).mp read
    exact ⟨db, Except.toOption_eq_some_iff.mp read, of_decide_eq_true facts⟩
  · have read : (fromCheckpoint leafLists 7 (oneLeaf 6)).toOption.any fun db => decide (db.leaves = [5] ∧
        ((GlobalTree.nodesFromBytes leafPrim db.leaves).bind
          (leafLists.treeExtend (leafLists.treeFromFrontier db.baseFrontier))).map (·.list) ≠ some db.tree.list) := by
      decide +kernel
    obtain ⟨db, read, facts⟩ := (any_eq_true ..).mp read
    obtain ⟨leaves, other⟩ := of_decide_eq_true facts
    refine ⟨db, Except.toOption_eq_some_iff.mp read, leaves, fun h => other ?_⟩
    rw [h.tip]
    rfl

end WalletDb

end Firecash
