import Mathlib.Data.List.AList
import Firecash.Consensus.Types

/-!
# UTXO diffs (consensus/core/src/utxo)

A diff is a collection of entries to add and one of entries to remove. An outpoint can be in both, with
two DAA scores: it was spent and created again. `with_diff_in_place` merges a second diff into a first
one, `add_transaction` the inputs and outputs of a transaction.

`Acts d U V` says what a diff is for: it can be applied to `U`, it removes nothing that it adds, and
applied to `U` it gives `V`. This is a statement about each outpoint alone, `ActsAt`, and all operations
come down to two changes there, `ActsAt.remove` and `ActsAt.add`. The rules compare DAA scores only, so
the results are about views in which the outpoint and the DAA score determine the entry, `Determined`.
-/

namespace Firecash.Utxo

open List AList

structure UtxoEntry where
  amount : UInt64
  scriptPublicKey : ScriptPublicKey
  blockDaaScore : UInt64
  isCoinbase : Bool
  covenantId : Option Hash
  deriving DecidableEq

/-- A hash map, in the order of its iteration. -/
abbrev UtxoCollection := AList fun _ : TransactionOutpoint => UtxoEntry

inductive UtxoAlgebraError where
  | duplicateRemovePoint (outpoint : TransactionOutpoint)
  | duplicateAddPoint (outpoint : TransactionOutpoint)
  | doubleRemoveCall (outpoint : TransactionOutpoint)
  | doubleAddCall (outpoint : TransactionOutpoint)
  deriving DecidableEq

/-- `UtxoView` -/
abbrev UtxoView := TransactionOutpoint → Option UtxoEntry

structure UtxoDiff where
  add : UtxoCollection
  remove : UtxoCollection

namespace UtxoCollection

/-- Is there an entry with this score? -/
def hasScore (found : Option UtxoEntry) (daaScore : UInt64) : Bool :=
  match found with
  | some entry => entry.blockDaaScore == daaScore
  | none => false

def containsWithDaaScore (c : UtxoCollection) (outpoint : TransactionOutpoint) (daaScore : UInt64) : Bool :=
  hasScore (c.lookup outpoint) daaScore

def removeCollection (c other : UtxoCollection) : UtxoCollection := other.entries.foldl (fun c p => c.erase p.1) c

/-- The first outpoint of the intersection that satisfies the rule; the smaller collection is iterated. -/
def intersectsWithRule (c other : UtxoCollection) (rule : TransactionOutpoint → UtxoEntry → UtxoEntry → Bool) :
    Option TransactionOutpoint :=
  if c.entries.length ≤ other.entries.length then
    c.entries.findSome? fun p => (other.lookup p.1).bind fun v₂ => if rule p.1 p.2 v₂ then some p.1 else none
  else
    other.entries.findSome? fun p => (c.lookup p.1).bind fun v₁ => if rule p.1 v₁ p.2 then some p.1 else none

/-- The loop of `intersection_with_remainder_having_daa_score_in_place`, for one of its two results. -/
def insertWhere (this : UtxoCollection) (p : TransactionOutpoint → UtxoEntry → Bool) (result : UtxoCollection) :
    UtxoCollection :=
  this.entries.foldl (fun c e => if p e.1 e.2 then c.insert e.1 e.2 else c) result

def intersectionWithRemainderHavingDaaScoreInPlace (this other result remainder : UtxoCollection) :
    UtxoCollection × UtxoCollection :=
  (this.insertWhere (fun o e => other.containsWithDaaScore o e.blockDaaScore) result,
    this.insertWhere (fun o e => !other.containsWithDaaScore o e.blockDaaScore) remainder)

end UtxoCollection

namespace UtxoDiff

instance : Inhabited UtxoDiff := ⟨⟨∅, ∅⟩⟩

/-- `as_reversed` -/
def asReversed (d : UtxoDiff) : UtxoDiff := ⟨d.remove, d.add⟩

def withDiffInPlace (d other : UtxoDiff) : Except UtxoAlgebraError UtxoDiff :=
  match other.remove.intersectsWithRule d.remove fun o toRemove _ =>
    !d.add.containsWithDaaScore o toRemove.blockDaaScore with
  | some offending => .error (.duplicateRemovePoint offending)
  | none =>
    match other.add.intersectsWithRule d.add fun o _ existing =>
      !other.remove.containsWithDaaScore o existing.blockDaaScore with
    | some offending => .error (.duplicateAddPoint offending)
    | none =>
      let (intersection, remove) := other.remove.intersectionWithRemainderHavingDaaScoreInPlace d.add ∅ d.remove
      let add := d.add.removeCollection intersection
      let (intersection, add) := other.add.intersectionWithRemainderHavingDaaScoreInPlace remove ∅ add
      .ok ⟨add, remove.removeCollection intersection⟩

def removeEntry (d : UtxoDiff) (outpoint : TransactionOutpoint) (entry : UtxoEntry) :
    Except UtxoAlgebraError UtxoDiff :=
  if d.add.containsWithDaaScore outpoint entry.blockDaaScore then .ok { d with add := d.add.erase outpoint }
  else if (d.remove.lookup outpoint).isNone then .ok { d with remove := d.remove.insert outpoint entry }
  else .error (.doubleRemoveCall outpoint)

def addEntry (d : UtxoDiff) (outpoint : TransactionOutpoint) (entry : UtxoEntry) : Except UtxoAlgebraError UtxoDiff :=
  if d.remove.containsWithDaaScore outpoint entry.blockDaaScore then .ok { d with remove := d.remove.erase outpoint }
  else if (d.add.lookup outpoint).isNone then .ok { d with add := d.add.insert outpoint entry }
  else .error (.doubleAddCall outpoint)

end UtxoDiff

/-- What `add_transaction` reads of a `VerifiableTransaction`; an output comes with its covenant id. -/
structure VerifiableTransaction where
  id : Hash
  isCoinbase : Bool
  populatedInputs : List (TransactionOutpoint × UtxoEntry)
  outputs : List (TransactionOutput × Option Hash)

/-- The entries a transaction creates. -/
def VerifiableTransaction.created (tx : VerifiableTransaction) (blockDaaScore : UInt64) :
    List (TransactionOutpoint × UtxoEntry) :=
  tx.outputs.zipIdx.map fun (output, i) =>
    (⟨tx.id, i % 2 ^ 32⟩, ⟨output.1.value, output.1.scriptPublicKey, blockDaaScore, tx.isCoinbase, output.2⟩)

def UtxoDiff.addTransaction (d : UtxoDiff) (tx : VerifiableTransaction) (blockDaaScore : UInt64) :
    Except UtxoAlgebraError UtxoDiff := do
  let d ← tx.populatedInputs.foldlM (fun d input => d.removeEntry input.1 input.2) d
  (tx.created blockDaaScore).foldlM (fun d output => d.addEntry output.1 output.2) d

/-- `ComposedUtxoView::get` on what is found in the diff and in the base view -/
def composed (added removed base : Option UtxoEntry) : Option UtxoEntry :=
  match added with
  | some entry => some entry
  | none => if removed.isSome then none else base

def UtxoView.compose (base : UtxoView) (diff : UtxoDiff) : UtxoView := fun outpoint =>
  composed (diff.add.lookup outpoint) (diff.remove.lookup outpoint) (base outpoint)

/-! ## The collections, outpoint by outpoint -/

namespace UtxoCollection

variable {c other : UtxoCollection} {o : TransactionOutpoint}

theorem lookup_removeCollection : (c.removeCollection other).lookup o = if (other.lookup o).isSome then none
    else c.lookup o := by
  have fold : ∀ (l : List (Sigma fun _ : TransactionOutpoint => UtxoEntry)) (c : UtxoCollection),
      (l.foldl (fun c p => c.erase p.1) c).lookup o = if (l.dlookup o).isSome then none else c.lookup o := by
    intro l
    induction l with
    | nil => simp
    | cons p l ih =>
      obtain ⟨a, e⟩ := p
      intro c
      rw [foldl_cons, ih]
      by_cases h : o = a
      · subst h
        simp
      · rw [dlookup_cons_ne _ _ h, lookup_erase_ne h]
  exact fold _ _

theorem lookup_insertWhere {p : TransactionOutpoint → UtxoEntry → Bool} {result : UtxoCollection} :
    (c.insertWhere p result).lookup o =
      match c.lookup o with
      | some e => if p o e then some e else result.lookup o
      | none => result.lookup o := by
  have fold : ∀ (l : List (Sigma fun _ : TransactionOutpoint => UtxoEntry)) (_ : l.NodupKeys) (r : UtxoCollection),
      (l.foldl (fun c e => if p e.1 e.2 then c.insert e.1 e.2 else c) r).lookup o =
        match l.dlookup o with
        | some e => if p o e then some e else r.lookup o
        | none => r.lookup o := by
    intro l
    induction l with
    | nil => simp
    | cons q l ih =>
      obtain ⟨a, e⟩ := q
      intro nodup r
      obtain ⟨fresh, nodup⟩ := nodupKeys_cons.mp nodup
      rw [foldl_cons, ih nodup]
      by_cases h : o = a
      · subst h
        rw [dlookup_eq_none.mpr fresh, dlookup_cons_eq]
        by_cases hp : p o e <;> simp [hp]
      · rw [dlookup_cons_ne _ _ h]
        by_cases hp : p a e <;> simp [hp, lookup_insert_ne h]
  exact fold _ c.nodupKeys _

/-- One half of `with_diff_in_place`: what `this` and `other` have in common leaves `other`, and the rest
of `this` goes to the remainder. -/
theorem lookup_phase {this remainder : UtxoCollection} {phase : UtxoCollection × UtxoCollection}
    (h : this.intersectionWithRemainderHavingDaaScoreInPlace other ∅ remainder = phase) :
    (other.removeCollection phase.1).lookup o =
        (match this.lookup o with
          | some e => if hasScore (other.lookup o) e.blockDaaScore then none else other.lookup o
          | none => other.lookup o) ∧
      phase.2.lookup o =
        match this.lookup o with
        | some e => if hasScore (other.lookup o) e.blockDaaScore then remainder.lookup o else some e
        | none => remainder.lookup o := by
  subst h
  simp only [intersectionWithRemainderHavingDaaScoreInPlace, lookup_removeCollection, lookup_insertWhere,
    containsWithDaaScore, lookup_empty]
  cases this.lookup o with
  | none => simp
  | some e => cases h : hasScore (other.lookup o) e.blockDaaScore <;> simp [h]

theorem intersectsWithRule_eq_none {rule : TransactionOutpoint → UtxoEntry → UtxoEntry → Bool}
    (h : ∀ o e f, c.lookup o = some e → other.lookup o = some f → rule o e f = false) :
    c.intersectsWithRule other rule = none := by
  unfold intersectsWithRule
  split <;> refine findSome?_eq_none_iff.mpr fun p hp => ?_
  · have here : c.lookup p.1 = some p.2 := mem_lookup_iff.mpr hp
    cases hf : other.lookup p.1 with
    | none => rfl
    | some f => simp [h p.1 p.2 f here hf]
  · have here : other.lookup p.1 = some p.2 := mem_lookup_iff.mpr hp
    cases he : c.lookup p.1 with
    | none => rfl
    | some e => simp [h p.1 e p.2 he here]

end UtxoCollection

/-! ## What a diff does -/

/-- The outpoint and the DAA score determine the entry. -/
def Determined (entryAt : TransactionOutpoint → UInt64 → UtxoEntry) (view : UtxoView) : Prop :=
  ∀ o e, view o = some e → entryAt o e.blockDaaScore = e

namespace UtxoDiff

/-- What is removed is there, and what is added is not, or is removed. -/
structure ValidOn (d : UtxoDiff) (U : UtxoView) : Prop where
  removed : ∀ o e, d.remove.lookup o = some e → U o = some e
  added : ∀ o e, d.add.lookup o = some e → U o = none ∨ (d.remove.lookup o).isSome

/-- No identical entry is both added and removed. -/
def Disjoint (d : UtxoDiff) : Prop :=
  ∀ o e f, d.add.lookup o = some e → d.remove.lookup o = some f → e.blockDaaScore ≠ f.blockDaaScore

/-- At one outpoint, with `a` added and `r` removed, the diff leads from `u` to `v`. -/
structure ActsAt (a r u v : Option UtxoEntry) : Prop where
  removed : ∀ e, r = some e → u = some e
  added : ∀ e, a = some e → u = none ∨ r.isSome
  disjoint : ∀ e f, a = some e → r = some f → e.blockDaaScore ≠ f.blockDaaScore
  result : v = composed a r u

/-- The diff leads from `U` to `V`. -/
def Acts (d : UtxoDiff) (U V : UtxoView) : Prop := ∀ o, ActsAt (d.add.lookup o) (d.remove.lookup o) (U o) (V o)

theorem acts_iff {d : UtxoDiff} {U V : UtxoView} : Acts d U V ↔ d.ValidOn U ∧ d.Disjoint ∧ U.compose d = V where
  mp h := ⟨⟨fun o => (h o).removed, fun o => (h o).added⟩, fun o => (h o).disjoint, funext fun o => (h o).result.symm⟩
  mpr h o := ⟨h.1.removed o, h.1.added o, h.2.1 o, congrFun h.2.2.symm o⟩

theorem acts_default (U : UtxoView) : Acts default U U := fun o => by constructor <;> simp [default, composed]

section At

open UtxoCollection

variable {a r u v : Option UtxoEntry} {e : UtxoEntry}

/-- An entry that is there is removed: taken back if the diff added it. -/
theorem ActsAt.remove (h : ActsAt a r u (some e)) :
    ActsAt (if hasScore a e.blockDaaScore then none else a) (if hasScore a e.blockDaaScore then r
      else some e) u none := by
  obtain ⟨removed, added, disjoint, result⟩ := h
  cases a with
  | some f =>
    obtain rfl := Option.some.inj result
    simp only [hasScore, beq_self_eq_true, ite_true]
    refine ⟨removed, by simp, by simp, ?_⟩
    rcases added e rfl with h | h <;> simp [composed, h]
  | none =>
    have : u = some e := by grind [composed]
    constructor <;> simp [hasScore, composed, this]

/-- An entry is added where there is none: if the diff removed it, it is put back. -/
theorem ActsAt.add (h : ActsAt a r u none) (determined : ∀ f, u = some f → f.blockDaaScore = e.blockDaaScore → f = e) :
    ActsAt (if hasScore r e.blockDaaScore then a else some e) (if hasScore r e.blockDaaScore then none
      else r) u (some e) := by
  obtain ⟨removed, added, disjoint, result⟩ := h
  cases a with
  | some f => cases result
  | none =>
    cases r with
    | none =>
      have : u = none := by simpa [composed] using result.symm
      constructor <;> simp [hasScore, composed, this]
    | some f =>
      have here := removed f rfl
      by_cases same : f.blockDaaScore = e.blockDaaScore
      · obtain rfl := determined f here same
        constructor <;> simp [hasScore, composed, here]
      · constructor <;> simp [hasScore, composed, here, same, Ne.symm same]

end At

variable {entryAt : TransactionOutpoint → UInt64 → UtxoEntry} {U V : UtxoView} {d d₂ : UtxoDiff}

/-- A diff that can be applied after another one is merged into it. -/
theorem Acts.withDiff (h : Acts d U V) (hU : Determined entryAt U) (valid : d₂.ValidOn V)
    (hW : Determined entryAt (V.compose d₂)) : ∃ d', d.withDiffInPlace d₂ = .ok d' ∧ Acts d' U (V.compose d₂) := by
  have removes : d₂.remove.intersectsWithRule d.remove
      (fun o toRemove _ => !d.add.containsWithDaaScore o toRemove.blockDaaScore) = none := by
    refine UtxoCollection.intersectsWithRule_eq_none fun o e f he hf => ?_
    have := (h o).result
    rw [valid.removed o e he, hf] at this
    cases ha : d.add.lookup o <;> simp_all [composed, UtxoCollection.containsWithDaaScore, UtxoCollection.hasScore]
  have adds : d₂.add.intersectsWithRule d.add
      (fun o _ existing => !d₂.remove.containsWithDaaScore o existing.blockDaaScore) = none := by
    refine UtxoCollection.intersectsWithRule_eq_none fun o e f he hf => ?_
    have listed : V o = some f := by rw [(h o).result, hf]; rfl
    obtain ⟨g, hg⟩ : ∃ g, d₂.remove.lookup o =
      some g := by simpa [listed, Option.isSome_iff_exists] using valid.added o e he
    have := valid.removed o g hg
    simp_all [UtxoCollection.containsWithDaaScore, UtxoCollection.hasScore]
  obtain ⟨first, hfirst⟩ : ∃ first, d₂.remove.intersectionWithRemainderHavingDaaScoreInPlace d.add ∅ d.remove =
    first := ⟨_, rfl⟩
  obtain ⟨second, hsecond⟩ : ∃ second, d₂.add.intersectionWithRemainderHavingDaaScoreInPlace first.2 ∅
      (d.add.removeCollection first.1) = second := ⟨_, rfl⟩
  refine ⟨⟨second.2, first.2.removeCollection second.1⟩, ?_, fun o => ?_⟩
  · rw [withDiffInPlace, removes]
    rw [adds]
    dsimp only
    rw [hfirst, hsecond]
  · have determined : ∀ e, d₂.add.lookup o = some e → ∀ f, U o = some f → f.blockDaaScore = e.blockDaaScore →
        f = e := by
      intro e he f hf same
      rw [← hU o f hf, same, hW o e (by simp [UtxoView.compose, composed, he])]
    -- what is removed, then what is added
    have without : ActsAt ((d.add.removeCollection first.1).lookup o) (first.2.lookup o) (U o)
        (if (d₂.remove.lookup o).isSome then none else V o) := by
      obtain ⟨add, remove⟩ := UtxoCollection.lookup_phase (o := o) hfirst
      rw [add, remove]
      cases hr : d₂.remove.lookup o with
      | none => exact h o
      | some e => exact (valid.removed o e hr ▸ h o).remove
    obtain ⟨remove, add⟩ := UtxoCollection.lookup_phase (o := o) hsecond
    rw [add, remove]
    unfold UtxoView.compose
    cases ha : d₂.add.lookup o with
    | none => exact without
    | some e =>
      have vacant : (if (d₂.remove.lookup o).isSome then none else V o) = none := by
        rcases valid.added o e ha with h | h <;> simp [h]
      exact (vacant ▸ without).add (determined e ha)

theorem ValidOn.asReversed (h : d.ValidOn U) :
    d.asReversed.ValidOn (U.compose d) ∧ (U.compose d).compose d.asReversed = U := by
  refine ⟨⟨fun o => ?_, fun o => ?_⟩, funext fun o => ?_⟩ <;> have := h.removed o <;> have := h.added o <;>
    cases ha : d.add.lookup o <;> cases hr : d.remove.lookup o <;>
      simp_all [UtxoView.compose, composed, UtxoDiff.asReversed]

variable {o : TransactionOutpoint} {e : UtxoEntry}

theorem Acts.update {d' : UtxoDiff} {v : Option UtxoEntry} (h : Acts d U V)
    (here : ActsAt (d'.add.lookup o) (d'.remove.lookup o) (U o) v)
    (others : ∀ x ≠ o, d'.add.lookup x = d.add.lookup x ∧ d'.remove.lookup x = d.remove.lookup x) :
    Acts d' U (Function.update V o v) := by
  intro x
  by_cases hx : x = o
  · subst hx
    simpa using here
  · rw [(others x hx).1, (others x hx).2, Function.update_of_ne hx]
    exact h x

theorem Acts.removeEntry (h : Acts d U V) (listed : V o = some e) :
    ∃ d', d.removeEntry o e = .ok d' ∧ Acts d' U (Function.update V o none) := by
  have here := (listed ▸ h o).remove
  unfold UtxoDiff.removeEntry UtxoCollection.containsWithDaaScore
  by_cases own : UtxoCollection.hasScore (d.add.lookup o) e.blockDaaScore
  · refine ⟨{ d with add := d.add.erase o }, by rw [if_pos own], h.update (by simpa [own] using here) fun x hx => ?_⟩
    simp [lookup_erase_ne hx]
  · have vacant : d.remove.lookup o = none := by
      have result := (h o).result
      cases ha : d.add.lookup o <;> cases hr : d.remove.lookup o <;> simp_all [composed, UtxoCollection.hasScore]
    refine ⟨{ d with remove := d.remove.insert o e }, by simp [own, vacant], ?_⟩
    refine h.update (by simpa [own] using here) fun x hx => ?_
    simp [lookup_insert_ne hx]

theorem Acts.addEntry (h : Acts d U V) (hU : Determined entryAt U) (new : V o = none)
    (determined : entryAt o e.blockDaaScore = e) :
    ∃ d', d.addEntry o e = .ok d' ∧ Acts d' U (Function.update V o (some e)) := by
  have here := (new ▸ h o).add fun f hf same => by rw [← hU o f hf, same, determined]
  unfold UtxoDiff.addEntry UtxoCollection.containsWithDaaScore
  by_cases back : UtxoCollection.hasScore (d.remove.lookup o) e.blockDaaScore
  · refine ⟨{ d with remove := d.remove.erase o }, by rw [if_pos back], ?_⟩
    refine h.update (by simpa [back] using here) fun x hx => ?_
    simp [lookup_erase_ne hx]
  · have vacant : d.add.lookup o = none := by
      have result := (h o).result
      cases ha : d.add.lookup o <;> simp_all [composed]
    refine ⟨{ d with add := d.add.insert o e }, by simp [back, vacant], ?_⟩
    refine h.update (by simpa [back] using here) fun x hx => ?_
    simp [lookup_insert_ne hx]

/-! ## Transactions -/

/-- The view without some entries, all of which it has. -/
def Spends : UtxoView → List (TransactionOutpoint × UtxoEntry) → UtxoView → Prop
  | U, [], V => U = V
  | U, (o, e) :: inputs, V => U o = some e ∧ Spends (Function.update U o none) inputs V

/-- The view with some entries at outpoints it does not have. -/
def Creates (entryAt : TransactionOutpoint → UInt64 → UtxoEntry) :
    UtxoView → List (TransactionOutpoint × UtxoEntry) → UtxoView → Prop
  | U, [], V => U = V
  | U, (o, e) :: outputs, V =>
    U o = none ∧ entryAt o e.blockDaaScore = e ∧ Creates entryAt (Function.update U o (some e)) outputs V

/-- Transactions that are accepted one after the other, each at its DAA score. -/
def Accepts (entryAt : TransactionOutpoint → UInt64 → UtxoEntry) :
    UtxoView → List (VerifiableTransaction × UInt64) → UtxoView → Prop
  | U, [], V => U = V
  | U, (tx, blockDaaScore) :: txs, V => ∃ S T, Spends U tx.populatedInputs S ∧
    Creates entryAt S (tx.created blockDaaScore) T ∧
    Determined entryAt T ∧ Accepts entryAt T txs V

variable {S W : UtxoView}

theorem Acts.removeEntries {inputs : List (TransactionOutpoint × UtxoEntry)} (h : Acts d U V)
    (spends : Spends V inputs W) :
    ∃ d', inputs.foldlM (fun d input => d.removeEntry input.1 input.2) d = .ok d' ∧ Acts d' U W := by
  induction inputs generalizing d V with
  | nil => exact ⟨d, rfl, spends ▸ h⟩
  | cons input inputs ih =>
    obtain ⟨d₁, first, h⟩ := h.removeEntry spends.1
    rw [foldlM_cons, first]
    exact ih h spends.2

theorem Acts.addEntries {outputs : List (TransactionOutpoint × UtxoEntry)} (h : Acts d U V) (hU : Determined entryAt U)
    (creates : Creates entryAt V outputs W) :
    ∃ d', outputs.foldlM (fun d output => d.addEntry output.1 output.2) d = .ok d' ∧ Acts d' U W := by
  induction outputs generalizing d V with
  | nil => exact ⟨d, rfl, creates ▸ h⟩
  | cons output outputs ih =>
    obtain ⟨new, determined, creates⟩ := creates
    obtain ⟨d₁, first, h⟩ := h.addEntry hU new determined
    rw [foldlM_cons, first]
    exact ih h creates

theorem Acts.addTransaction {tx : VerifiableTransaction} {score : UInt64} (h : Acts d U V) (hU : Determined entryAt U)
    (spends : Spends V tx.populatedInputs S) (creates : Creates entryAt S (tx.created score) W) :
    ∃ d', d.addTransaction tx score = .ok d' ∧ Acts d' U W := by
  obtain ⟨d₁, first, h⟩ := h.removeEntries spends
  obtain ⟨d₂, second, h⟩ := h.addEntries hU creates
  exact ⟨d₂, by rw [UtxoDiff.addTransaction, first]; exact second, h⟩

/-- The calls of `add_transaction`, and the diffs of the single transactions merged one after the other. -/
theorem Acts.addTransactions {c : UtxoDiff} {txs : List (VerifiableTransaction × UInt64)} (h : Acts d U V)
    (hc : Acts c U V) (hU : Determined entryAt U) (hV : Determined entryAt V) (accepts : Accepts entryAt V txs W) :
    ∃ d' singles c', txs.foldlM (fun d tx => d.addTransaction tx.1 tx.2) d = .ok d' ∧
      txs.mapM (fun tx => (default : UtxoDiff).addTransaction tx.1 tx.2) = .ok singles ∧
      singles.foldlM withDiffInPlace c = .ok c' ∧ Acts d' U W ∧ Acts c' U W := by
  induction txs generalizing d c V with
  | nil => exact ⟨d, [], c, rfl, rfl, rfl, accepts ▸ h, accepts ▸ hc⟩
  | cons tx txs ih =>
    obtain ⟨S, T, spends, creates, hT, accepts⟩ := accepts
    obtain ⟨d₁, step, h⟩ := h.addTransaction hU spends creates
    obtain ⟨single, alone, own⟩ := (acts_default V).addTransaction hV spends creates
    obtain ⟨valid, -, result⟩ := acts_iff.mp own
    obtain ⟨c₁, merge, hc⟩ := hc.withDiff hU valid (result ▸ hT)
    obtain ⟨d', singles, c', all, others, merged, acts⟩ := ih h (result ▸ hc) hT accepts
    refine ⟨d', single :: singles, c', ?_, ?_, ?_, acts⟩
    · rw [foldlM_cons, step]
      exact all
    · rw [mapM_cons, alone]
      simp only [others]
      rfl
    · rw [foldlM_cons, merge]
      exact merged

/-- **UTXO diffs compose.** A diff `d₂` that is valid after `d₁` is merged into it, which acts as one after the
other; its reversed view then leads back to `d₁`. Accepting transactions one by one acts as merging the
diffs of the single transactions. -/
theorem withDiffInPlace_composes {entryAt : TransactionOutpoint → UInt64 → UtxoEntry} {U V : UtxoView}
    {d₁ d₂ : UtxoDiff}
    {txs : List (VerifiableTransaction × UInt64)} (hU : Determined entryAt U) (h₁ : Determined entryAt (U.compose d₁))
    (h₂ : Determined entryAt ((U.compose d₁).compose d₂)) (valid₁ : d₁.ValidOn U) (disjoint : d₁.Disjoint)
    (valid₂ : d₂.ValidOn (U.compose d₁)) (accepts : Accepts entryAt (U.compose d₁) txs V) :
    (∃ d, d₁.withDiffInPlace d₂ = .ok d ∧ d.ValidOn U ∧ d.Disjoint ∧ U.compose d = (U.compose d₁).compose d₂ ∧
      ∃ d', d.withDiffInPlace d₂.asReversed = .ok d' ∧ d'.ValidOn U ∧ d'.Disjoint ∧ U.compose d' = U.compose d₁) ∧
    ∃ d singles d', txs.foldlM (fun d tx => d.addTransaction tx.1 tx.2) d₁ = .ok d ∧
      txs.mapM (fun tx => (default : UtxoDiff).addTransaction tx.1 tx.2) = .ok singles ∧
      singles.foldlM withDiffInPlace d₁ = .ok d' ∧ U.compose d = V ∧ U.compose d' = V := by
  have h : Acts d₁ U (U.compose d₁) := acts_iff.mpr ⟨valid₁, disjoint, rfl⟩
  constructor
  · obtain ⟨d, merged, acts⟩ := h.withDiff hU valid₂ h₂
    obtain ⟨back, undone⟩ := valid₂.asReversed
    obtain ⟨d', merged', acts'⟩ := acts.withDiff hU back (by rwa [undone])
    obtain ⟨valid, disjoint, result⟩ := acts_iff.mp acts
    obtain ⟨valid', disjoint', result'⟩ := acts_iff.mp acts'
    exact ⟨d, merged, valid, disjoint, result, d', merged', valid', disjoint', result'.trans undone⟩
  · obtain ⟨d, singles, d', all, alone, merged, acts, acts'⟩ := h.addTransactions h hU h₁ accepts
    exact ⟨d, singles, d', all, alone, merged, (acts_iff.mp acts).2.2, (acts_iff.mp acts').2.2⟩

/-- The entry of the one outpoint below at a DAA score. -/
def coinAt (_ : TransactionOutpoint) (score : UInt64) : UtxoEntry := ⟨7, ⟨0, []⟩, score, false, none⟩

def coin : TransactionOutpoint := ⟨1, 0⟩

variable (score : UInt64)

/-- The outpoint, created at a score. -/
def holding : UtxoView := fun o => if o = coin then some (coinAt o score) else none

def holdingOnly : UtxoCollection := insert coin (coinAt coin score) ∅

theorem lookup_holdingOnly (o : TransactionOutpoint) : (holdingOnly score).lookup o = holding score o := by
  unfold holdingOnly holding
  by_cases h : o = coin
  · rw [h, lookup_insert, if_pos rfl]
  · rw [lookup_insert_ne h, lookup_empty, if_neg h]

/-- The outpoint is spent and created again at another score. -/
def respend (score score' : UInt64) : UtxoDiff := ⟨holdingOnly score', holdingOnly score⟩

theorem holding_determined : Determined coinAt (holding score) := by
  intro o e h
  by_cases ho : o = coin <;> simp_all [holding]
  rw [← h]
  rfl

theorem respend_acts {score score' : UInt64} (ne : score' ≠ score) :
    Acts (respend score score') (holding score) (holding score') := by
  intro o
  simp only [respend, lookup_holdingOnly]
  by_cases ho : o = coin <;> constructor <;> simp [holding, composed, coinAt, ho, ne]

/-- The outpoint is spent, and its value goes to a new one. -/
def moving : VerifiableTransaction := ⟨2, false, [(coin, coinAt coin 1)], [(⟨7, ⟨0, []⟩⟩, none)]⟩

def moved : UtxoView := Function.update (Function.update (holding 1) coin none) ⟨2, 0⟩ (some (coinAt ⟨2, 0⟩ 2))

theorem moving_accepted : Accepts coinAt (holding 1) [(moving, 2)] moved := by
  refine ⟨_, moved, ⟨rfl, rfl⟩, ⟨by decide, rfl, rfl⟩, fun o e h => ?_, rfl⟩
  unfold moved at h
  rw [Function.update_apply] at h
  split at h
  · cases h
    rfl
  · rw [Function.update_apply] at h
    split at h
    · cases h
    · exact holding_determined 1 o e h

/-- There and back again: the second diff adds the entry that the first one removed. A transaction after
the first diff moves the entry. -/
theorem respend_composes :
    (∃ d, (respend 0 1).withDiffInPlace (respend 1 0) = .ok d ∧ (holding 0).compose d = holding 0) ∧
    ∃ d single d', (respend 0 1).addTransaction moving 2 = .ok d ∧
      (default : UtxoDiff).addTransaction moving 2 = .ok single ∧
      (respend 0 1).withDiffInPlace single = .ok d' ∧ (holding 0).compose d = moved ∧
        (holding 0).compose d' = moved := by
  obtain ⟨valid₁, disjoint, result₁⟩ := acts_iff.mp (respend_acts (by decide : (1 : UInt64) ≠ 0))
  obtain ⟨valid₂, -, result₂⟩ := acts_iff.mp (respend_acts (by decide : (0 : UInt64) ≠ 1))
  have accepts : Accepts coinAt ((holding 0).compose (respend 0 1)) [(moving, 2)] moved := result₁ ▸ moving_accepted
  obtain ⟨⟨d, merged, -, -, result, -⟩, d₁, singles, d₂, all, alone, each, one, other⟩ :=
    withDiffInPlace_composes (holding_determined 0)
    (result₁ ▸ holding_determined 1) (by rw [result₁, result₂]; exact holding_determined 0) valid₁ disjoint
      (result₁ ▸ valid₂) accepts
  refine ⟨⟨d, merged, by rw [result, result₁, result₂]⟩, ?_⟩
  simp only [foldlM_cons, foldlM_nil, bind_pure, mapM_cons, mapM_nil] at all alone
  obtain ⟨single, hsingle, rest⟩ := Except.bind_eq_ok_iff.mp alone
  cases rest
  simp only [foldlM_cons, foldlM_nil, bind_pure] at each
  exact ⟨d₁, single, d₂, all, hsingle, each, one, other⟩

end UtxoDiff

end Firecash.Utxo
