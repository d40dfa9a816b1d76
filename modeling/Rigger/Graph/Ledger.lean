import Rigger.Graph.Decide

/-!
# The ledger of applied positions

Whatever a transaction folds, the ledger only grows and a cause once recorded stays
(`transact_grows`), and an event that is read leaves its position in it.  A position in the ledger
is passed: in a committed file a transaction does what the events whose position is not in the
ledger do alone (`transact_fresh`).
-/

namespace Rigger.Graph

open Lib

/-- The ledger of `g` holds what `f`'s does, and every cause `f` recorded. -/
structure Grows (f g : Folded) : Prop where
  applied : ∀ p ∈ f.applied, p ∈ g.applied
  causes : ∀ (p : Nat) (cause : String), f.passedOver[p]? = some cause →
    g.passedOver[p]? = some cause

/-- Nothing is owed from one transaction to the next. -/
structure Committed (f : Folded) : Prop where
  relabels : f.tables.relabelOwed = ∅
  proofs : f.tables.proofsOwed = ∅

section
variable {reading : Reading} {f g : Folded}

theorem Grows.refl (f : Folded) : Grows f f := ⟨fun _ h => h, fun _ _ h => h⟩

theorem Grows.trans {k : Folded} (h : Grows f g) (h' : Grows g k) : Grows f k :=
  ⟨fun p hp => h'.applied p (h.applied p hp), fun p c hc => h'.causes p c (h.causes p c hc)⟩

/-- The tables are no part of the ledger. -/
theorem Grows.tables (h : Grows f g) (t : Tables) : Grows f { g with tables := t } :=
  ⟨h.applied, h.causes⟩

theorem mem_insert_self (f : Folded) (p : Nat) : p ∈ f.applied.insert p :=
  Std.ExtTreeSet.mem_insert.2 (Or.inl (Std.ReflCmp.compare_self))

theorem grows_insert (f : Folded) (p : Nat) (t : Tables) :
    Grows f { f with applied := f.applied.insert p, tables := t } :=
  ⟨fun _ hq => Std.ExtTreeSet.mem_insert.2 (Or.inr hq), fun _ _ h => h⟩

theorem grows_settled (f : Folded) : Grows f f.settled := (Grows.refl f).tables _

/-! ## One position -/

variable {position : Nat} {s' s : Folded × Option String} {passed rejected : Option String}
  {fold : Option (Folded × Decided)} {read : Bool} {call : FoldCall}

theorem passOver_some {cause : String} (h : f.passOver position cause = some g) :
    Grows f g ∧ position ∈ g.applied := by
  unfold Folded.passOver at h
  split at h
  · cases h
  · next hnot =>
    cases h
    refine ⟨⟨fun p hp => Std.ExtTreeSet.mem_insert.2 (Or.inr hp), fun p c hc => ?_⟩,
      mem_insert_self f position⟩
    have hne : p ≠ position := by
      rintro rfl
      exact hnot (Std.ExtTreeMap.mem_iff_isSome_getElem?.2 (by rw [hc]; rfl))
    show (f.passedOver.insert position cause)[p]? = some c
    rw [Std.ExtTreeMap.getElem?_insert, if_neg (by
      rw [Std.LawfulEqCmp.compare_eq_iff_eq]
      exact fun heq => hne heq.symm)]
    exact hc

variable {e entry : Event} {events : List Event} {batch : Option BatchAnswer}
  {outcome : EntryOutcome}

theorem foldOne_some (h : foldOne reading s e = some s') :
    Grows s.1 s'.1 ∧ e.position ∈ s'.1.applied := by
  obtain ⟨f, passed⟩ := s
  unfold foldOne at h
  dsimp only at h
  split at h
  · cases h
  · split at h
    · next hmem =>
      cases h
      exact ⟨Grows.refl f, hmem⟩
    · obtain ⟨p, -, rfl⟩ := Option.map_eq_some_iff.1 h
      exact ⟨grows_insert f e.position _, mem_insert_self f e.position⟩

theorem foldlM_records {σ : Type} (ledger : σ → Folded) {fold : σ → Event → Option σ}
    (hfold : ∀ {s s' : σ} {e : Event}, fold s e = some s' →
      Grows (ledger s) (ledger s') ∧ e.position ∈ (ledger s').applied) {s s' : σ}
    (h : events.foldlM fold s = some s') :
    Grows (ledger s) (ledger s') ∧ ∀ e ∈ events, e.position ∈ (ledger s').applied := by
  induction events generalizing s with
  | nil =>
    cases h
    exact ⟨Grows.refl _, by simp⟩
  | cons e events ih =>
    rw [List.foldlM_cons, Option.bind_eq_bind, Option.bind_eq_some_iff] at h
    obtain ⟨next, hnext, hrest⟩ := h
    obtain ⟨hgrows, hmem⟩ := hfold hnext
    obtain ⟨hgrows', hall⟩ := ih hrest
    refine ⟨hgrows.trans hgrows', fun x hx => ?_⟩
    rcases List.mem_cons.1 hx with rfl | hx
    · exact hgrows'.applied _ hmem
    · exact hall x hx

theorem foldNew_some (h : foldNew reading f events = some (g, passed)) :
    Grows f g ∧ ∀ e ∈ events, e.position ∈ g.applied := by
  unfold foldNew at h
  rw [Option.bind_eq_bind, Option.bind_eq_some_iff] at h
  obtain ⟨⟨folded, passed'⟩, hfold, heq⟩ := h
  cases heq
  obtain ⟨hgrows, hall⟩ := foldlM_records Prod.fst foldOne_some hfold
  exact ⟨hgrows.tables _, hall⟩

theorem foldNew_relabels (h : foldNew reading f events = some (g, passed)) :
    g.tables.relabelOwed = ∅ := by
  unfold foldNew at h
  rw [Option.bind_eq_bind, Option.bind_eq_some_iff] at h
  obtain ⟨_, -, heq⟩ := h
  cases heq
  rfl

theorem foldBatch_relabels {by_ : Asserter} {t t' : Tables}
    (h : foldBatch reading by_ position t events = some t') : t'.relabelOwed = ∅ := by
  unfold foldBatch at h
  rw [Option.bind_eq_bind, Option.bind_eq_some_iff] at h
  obtain ⟨_, -, heq⟩ := h
  cases heq
  rfl

/-- An entry's fold passes a recorded position, or records it over the tables it had or those of its
batch. -/
theorem foldEntry_ledger (h : foldEntry reading f entry batch = some (g, outcome)) :
    (g = f ∧ entry.position ∈ f.applied) ∨ ∃ t, (t = f.tables ∨ t.relabelOwed = ∅) ∧
      g = { f with applied := f.applied.insert entry.position, tables := t } := by
  unfold foldEntry at h
  split at h
  · next hmem =>
    cases h
    exact Or.inl ⟨rfl, hmem⟩
  · rw [Option.bind_eq_bind, Option.bind_eq_some_iff] at h
    obtain ⟨named, -, h⟩ := h
    dsimp only at h
    split at h
    · cases h
      exact Or.inr ⟨_, Or.inl rfl, rfl⟩
    · rw [Option.bind_eq_bind, Option.bind_eq_some_iff] at h
      obtain ⟨answer, -, h⟩ := h
      split at h
      · cases h
        exact Or.inr ⟨_, Or.inl rfl, rfl⟩
      · cases h
        exact Or.inr ⟨_, Or.inl rfl, rfl⟩
      · cases h
        exact Or.inr ⟨_, Or.inl rfl, rfl⟩
      · rw [Option.bind_eq_bind, Option.bind_eq_some_iff] at h
        obtain ⟨tables, htables, h⟩ := h
        cases h
        exact Or.inr ⟨tables, Or.inr (foldBatch_relabels htables), rfl⟩

/-- An entry's fold records its position, whatever becomes of its batch. -/
theorem foldEntry_some (h : foldEntry reading f entry batch = some (g, outcome)) :
    Grows f g ∧ entry.position ∈ g.applied := by
  rcases foldEntry_ledger h with ⟨rfl, hmem⟩ | ⟨t, -, rfl⟩
  · exact ⟨Grows.refl _, hmem⟩
  · exact ⟨grows_insert f _ t, mem_insert_self f _⟩

/-- A position under its savepoint is read as its fold left it, left unread, or passed over. -/
theorem foldInSavepoint_cases (h : foldInSavepoint f e fold rejected = some (g, read)) :
    (fold = some (g, .read) ∧ read = true) ∨
      ((∃ folded, fold = some (folded, .unread)) ∧ g = f ∧ read = false) ∨
      ∃ cause, f.passOver e.position cause = some g ∧ read = true := by
  have hpass : ∀ cause, (f.passOver e.position cause).map (·, true) = some (g, read) →
      f.passOver e.position cause = some g ∧ read = true := by
    intro cause hcause
    obtain ⟨g', hg', heq⟩ := Option.map_eq_some_iff.1 hcause
    cases heq
    exact ⟨hg', rfl⟩
  unfold foldInSavepoint at h
  split at h
  · cases h
    exact Or.inl ⟨rfl, rfl⟩
  · cases h
    exact Or.inr (Or.inl ⟨⟨_, rfl⟩, rfl, rfl⟩)
  · exact Or.inr (Or.inr ⟨_, hpass _ h⟩)
  · rw [Option.bind_eq_bind, Option.bind_eq_some_iff] at h
    obtain ⟨cause, -, h⟩ := h
    exact Or.inr (Or.inr ⟨_, hpass _ h⟩)

theorem decideEvent_some (h : decideEvent reading f e = some g) :
    Grows f g ∧ e.position ∈ g.applied := by
  obtain ⟨⟨g', read⟩, hg', rfl⟩ := Option.map_eq_some_iff.1 h
  rcases foldInSavepoint_cases hg' with ⟨hfold, -⟩ | ⟨⟨folded, hfold⟩, -⟩ | ⟨cause, hpass, -⟩
  · obtain ⟨⟨k, passed⟩, hk, heq⟩ := Option.map_eq_some_iff.1 hfold
    cases heq
    obtain ⟨hgrows, hall⟩ := foldNew_some hk
    exact ⟨hgrows, hall e (by simp)⟩
  · obtain ⟨r, -, hr⟩ := Option.map_eq_some_iff.1 hfold
    cases hr
  · exact passOver_some hpass

theorem decideEntry_some {extracted : Extracted}
    (h : decideEntry reading f entry extracted = some (g, read)) :
    Grows f g ∧ (read = true → entry.position ∈ g.applied) ∧ (read = false → g = f) := by
  rcases foldInSavepoint_cases h with ⟨hfold, rfl⟩ | ⟨-, rfl, rfl⟩ | ⟨cause, hpass, rfl⟩
  · obtain ⟨⟨k, outcome⟩, hk, heq⟩ := Option.map_eq_some_iff.1 hfold
    obtain ⟨hgrows, hmem⟩ := foldEntry_some hk
    cases outcome with
    | folded _ => cases heq; exact ⟨hgrows, fun _ => hmem, nofun⟩
    | unresolved => cases heq
    | unread => cases heq
  · exact ⟨Grows.refl _, nofun, fun _ => rfl⟩
  · exact ⟨(passOver_some hpass).1, fun _ => (passOver_some hpass).2, nofun⟩

/-! ## Transactions -/

theorem foldCall_some (h : foldCall reading f call = some g) : Grows f g := by
  cases call with
  | events es =>
    obtain ⟨⟨_, _⟩, hr, rfl⟩ := Option.map_eq_some_iff.1 h
    exact (foldNew_some hr).1
  | entry e batch =>
    obtain ⟨⟨_, _⟩, hr, rfl⟩ := Option.map_eq_some_iff.1 h
    exact (foldEntry_some hr).1
  | decidedEvent e => exact (decideEvent_some h).1
  | decidedEntry e extracted =>
    obtain ⟨⟨_, _⟩, hr, rfl⟩ := Option.map_eq_some_iff.1 h
    exact (decideEntry_some hr).1

theorem foldlM_foldCall {calls : List FoldCall} (h : calls.foldlM (foldCall reading) f = some g) :
    Grows f g := by
  induction calls generalizing f with
  | nil =>
    cases h
    exact Grows.refl _
  | cons call calls ih =>
    rw [List.foldlM_cons, Option.bind_eq_bind, Option.bind_eq_some_iff] at h
    obtain ⟨next, hnext, hrest⟩ := h
    exact (foldCall_some hnext).trans (ih hrest)

theorem transact_grows (f : Folded) (calls : List FoldCall) :
    Grows f (transact reading f calls) := by
  unfold transact
  split
  · next folded h => exact (foldlM_foldCall h).trans (grows_settled folded)
  · exact Grows.refl f

/-! ## What a transaction owes the next -/

theorem settleProofs_relabelOwed (t : Tables) : t.settleProofs.relabelOwed = t.relabelOwed := by
  have hwrites : ∀ (ids : List String) (t : Tables),
      (t.writeProofs ids).relabelOwed = t.relabelOwed := by
    intro ids
    induction ids with
    | nil => exact fun _ => rfl
    | cons id ids ih => exact fun t => ih (t.writeProof id)
  have hname : ∀ (name : String) (t : Tables), (t.settleName name).relabelOwed = t.relabelOwed := by
    intro name t
    unfold Tables.settleName Tables.resolveProofs
    rw [hwrites, hwrites]
    rfl
  have hnames : ∀ (names : List String) (t : Tables),
      (names.foldl Tables.settleName t).relabelOwed = t.relabelOwed := by
    intro names
    induction names with
    | nil => exact fun _ => rfl
    | cons name names ih => exact fun t => (ih (t.settleName name)).trans (hname name t)
  exact hnames t.proofsOwed.toList t

theorem foldEntry_relabels (hf : f.tables.relabelOwed = ∅)
    (h : foldEntry reading f entry batch = some (g, outcome)) : g.tables.relabelOwed = ∅ := by
  rcases foldEntry_ledger h with ⟨rfl, -⟩ | ⟨t, rfl | ht, rfl⟩
  · exact hf
  · exact hf
  · exact ht

theorem foldInSavepoint_relabels (hf : f.tables.relabelOwed = ∅)
    (hfold : ∀ folded decided, fold = some (folded, decided) → folded.tables.relabelOwed = ∅)
    (h : foldInSavepoint f e fold rejected = some (g, read)) : g.tables.relabelOwed = ∅ := by
  rcases foldInSavepoint_cases h with ⟨hread, -⟩ | ⟨-, rfl, -⟩ | ⟨cause, hpass, -⟩
  · exact hfold _ _ hread
  · exact hf
  · unfold Folded.passOver at hpass
    split at hpass
    · cases hpass
    · cases hpass
      exact hf

theorem foldCall_relabels (hf : f.tables.relabelOwed = ∅) (h : foldCall reading f call = some g) :
    g.tables.relabelOwed = ∅ := by
  cases call with
  | events es =>
    obtain ⟨⟨_, _⟩, hr, rfl⟩ := Option.map_eq_some_iff.1 h
    exact foldNew_relabels hr
  | entry e batch =>
    obtain ⟨⟨_, _⟩, hr, rfl⟩ := Option.map_eq_some_iff.1 h
    exact foldEntry_relabels hf hr
  | decidedEvent e =>
    obtain ⟨⟨_, _⟩, hr, rfl⟩ := Option.map_eq_some_iff.1 h
    refine foldInSavepoint_relabels hf (fun folded decided hfold => ?_) hr
    obtain ⟨⟨_, _⟩, hk, heq⟩ := Option.map_eq_some_iff.1 hfold
    cases heq
    exact foldNew_relabels hk
  | decidedEntry e extracted =>
    obtain ⟨⟨_, _⟩, hr, rfl⟩ := Option.map_eq_some_iff.1 h
    refine foldInSavepoint_relabels hf (fun folded decided hfold => ?_) hr
    obtain ⟨⟨k, outcome⟩, hk, heq⟩ := Option.map_eq_some_iff.1 hfold
    have := foldEntry_relabels hf hk
    cases outcome <;> cases heq <;> exact this

theorem transact_committed (calls : List FoldCall) (h : Committed f) :
    Committed (transact reading f calls) := by
  have hcalls : ∀ {calls : List FoldCall} {f g : Folded}, f.tables.relabelOwed = ∅ →
      calls.foldlM (foldCall reading) f = some g → g.tables.relabelOwed = ∅ := by
    intro calls
    induction calls with
    | nil =>
      intro f g hf h
      cases h
      exact hf
    | cons call calls ih =>
      intro f g hf h
      rw [List.foldlM_cons, Option.bind_eq_bind, Option.bind_eq_some_iff] at h
      obtain ⟨next, hnext, hrest⟩ := h
      exact ih (foldCall_relabels hf hnext) hrest
  unfold transact
  split
  · next folded hfold =>
    exact ⟨(settleProofs_relabelOwed _).trans (hcalls h.relabels hfold), rfl⟩
  · exact h

/-! ## Positions already in the ledger -/

/-- The ledger does not record the event; an entry among events fails the fold whatever it holds. -/
def Folded.unrecorded (f : Folded) (e : Event) : Bool :=
  isLedgerEntry e.type_ || !f.applied.contains e.position

/-- What of a call the ledger does not record. -/
def FoldCall.fresh (f : Folded) : FoldCall → Option FoldCall
  | .events es => some (.events (es.filter f.unrecorded))
  | .entry e batch => if e.position ∈ f.applied then none else some (.entry e batch)
  | .decidedEvent e =>
    if isLedgerEntry e.type_ = false ∧ e.position ∈ f.applied then none else some (.decidedEvent e)
  | .decidedEntry e extracted =>
    if e.position ∈ f.applied then none else some (.decidedEntry e extracted)

theorem relabelOwedCommunities_of_none {t : Tables} (h : t.relabelOwed = ∅) :
    t.relabelOwedCommunities = t := by
  unfold Tables.relabelOwedCommunities
  rw [h]
  show { t with relabelOwed := ∅ } = t
  rw [← h]

theorem foldOne_applied (he : isLedgerEntry e.type_ = false) (h : e.position ∈ f.applied)
    (passed : Option String) :
    foldOne reading (f, passed) e = some (f, passed.or f.passedOver[e.position]?) := by
  unfold foldOne
  dsimp only
  rw [he, if_neg Bool.false_ne_true, if_pos h]

/-- What a fold does with an event does not depend on the cause it carries. -/
theorem foldOne_passed (reading : Reading) (f : Folded) (e : Event)
    (passed passed' : Option String) :
    (foldOne reading (f, passed) e).map Prod.fst =
      (foldOne reading (f, passed') e).map Prod.fst := by
  unfold foldOne
  dsimp only
  split
  · rfl
  · split
    · rfl
    · rw [Option.map_map, Option.map_map]
      rfl

theorem foldlM_fresh (f : Folded) (events : List Event) (hs : s.1 = s'.1) (hgrows : Grows f s.1) :
    (events.foldlM (foldOne reading) s).map Prod.fst =
      ((events.filter f.unrecorded).foldlM (foldOne reading) s').map Prod.fst := by
  induction events generalizing s s' with
  | nil => exact congrArg some hs
  | cons e events ih =>
    obtain ⟨g, passed⟩ := s
    obtain ⟨g', passed'⟩ := s'
    obtain rfl : g = g' := hs
    by_cases hkept : f.unrecorded e = true
    · rw [List.filter_cons_of_pos hkept, List.foldlM_cons, List.foldlM_cons]
      have hboth := foldOne_passed reading g e passed passed'
      cases hone : foldOne reading (g, passed) e with
      | none =>
        rw [hone, Option.map_none] at hboth
        rw [Option.map_eq_none_iff.1 hboth.symm]
        rfl
      | some next =>
        rw [hone, Option.map_some] at hboth
        obtain ⟨next', hnext', heq⟩ := Option.map_eq_some_iff.1 hboth.symm
        rw [hnext']
        exact ih heq.symm (hgrows.trans (foldOne_some hone).1)
    · rw [List.filter_cons_of_neg hkept, List.foldlM_cons]
      rw [Bool.not_eq_true, Folded.unrecorded, Bool.or_eq_false_iff, Bool.not_eq_false'] at hkept
      have hmem : e.position ∈ g.applied :=
        hgrows.applied _ (Std.ExtTreeSet.contains_iff_mem.1 hkept.2)
      rw [foldOne_applied hkept.1 hmem]
      exact ih rfl hgrows

theorem foldCall_fresh (reading : Reading) {f g : Folded} (hgrows : Grows f g)
    (howes : g.tables.relabelOwed = ∅) (call : FoldCall) : foldCall reading g call =
      match call.fresh f with
      | some fresh => foldCall reading g fresh
      | none => some g := by
  cases call with
  | events es =>
    have hfold : ∀ es : List Event, (foldNew reading g es).map Prod.fst =
        ((es.foldlM (foldOne reading) (g, none)).map Prod.fst).map fun folded : Folded =>
          { folded with tables := folded.tables.relabelOwedCommunities } := by
      intro es
      unfold foldNew
      cases es.foldlM (foldOne reading) (g, none) <;> rfl
    show (foldNew reading g es).map Prod.fst = (foldNew reading g (es.filter _)).map Prod.fst
    rw [hfold, hfold, foldlM_fresh f es rfl hgrows]
  | entry e batch =>
    by_cases he : e.position ∈ f.applied
    · rw [FoldCall.fresh, if_pos he]
      show (foldEntry reading g e (batch.map .batch)).map Prod.fst = some g
      unfold foldEntry
      rw [if_pos (hgrows.applied _ he)]
      rfl
    · rw [FoldCall.fresh, if_neg he]
  | decidedEvent e =>
    by_cases he : isLedgerEntry e.type_ = false ∧ e.position ∈ f.applied
    · rw [FoldCall.fresh, if_pos he]
      show decideEvent reading g e = some g
      have hone : foldNew reading g [e] = some (g, (none : Option String).or
          g.passedOver[e.position]?) := by
        unfold foldNew
        rw [List.foldlM_cons, foldOne_applied he.1 (hgrows.applied _ he.2)]
        show some ({ g with tables := g.tables.relabelOwedCommunities }, _) = _
        rw [relabelOwedCommunities_of_none howes]
      unfold decideEvent
      rw [hone]
      rfl
    · rw [FoldCall.fresh, if_neg he]
  | decidedEntry e extracted =>
    by_cases he : e.position ∈ f.applied
    · rw [FoldCall.fresh, if_pos he]
      show (decideEntry reading g e extracted).map Prod.fst = some g
      unfold decideEntry foldEntry
      rw [if_pos (hgrows.applied _ he)]
      rfl
    · rw [FoldCall.fresh, if_neg he]

/-- A transaction on a committed file folds what the ledger does not record, and nothing else. -/
theorem transact_fresh (h : Committed f) (calls : List FoldCall) :
    transact reading f calls = transact reading f (calls.filterMap (FoldCall.fresh f)) := by
  have hcalls : ∀ (calls : List FoldCall) {g : Folded}, Grows f g → g.tables.relabelOwed = ∅ →
      calls.foldlM (foldCall reading) g =
        (calls.filterMap (FoldCall.fresh f)).foldlM (foldCall reading) g := by
    intro calls
    induction calls with
    | nil => exact fun _ _ => rfl
    | cons call calls ih =>
      intro g hgrows howes
      have hcall := foldCall_fresh reading hgrows howes call
      rw [List.foldlM_cons]
      cases hfresh : call.fresh f with
      | none =>
        rw [hfresh] at hcall
        dsimp only at hcall
        rw [List.filterMap_cons_none hfresh, hcall]
        exact ih hgrows howes
      | some fresh =>
        rw [hfresh] at hcall
        dsimp only at hcall
        rw [List.filterMap_cons_some hfresh, List.foldlM_cons, hcall]
        cases hnext : foldCall reading g fresh with
        | none => rfl
        | some next =>
          exact ih (hgrows.trans (foldCall_some hnext)) (foldCall_relabels howes hnext)
  unfold transact
  rw [hcalls calls (Grows.refl f) h.relabels]

theorem committed_run (transactions : List (List FoldCall)) :
    Committed (run (transact reading) .empty transactions) :=
  run_invariant (fun _ calls h => transact_committed calls h) ⟨rfl, rfl⟩ transactions

/-- However a log is cut into transactions, a further one over any of its events again does what it
does over those the ledger has not recorded: each position is folded at most once. -/
theorem folded_once (reading : Reading) (transactions : List (List FoldCall))
    (calls : List FoldCall) :
    let f := run (transact reading) .empty transactions
    Grows f (transact reading f calls) ∧
      transact reading f calls = transact reading f (calls.filterMap (FoldCall.fresh f)) :=
  ⟨transact_grows _ calls, transact_fresh (committed_run transactions) calls⟩

end

end Rigger.Graph
