import Rigger.Graph.Arms
import Rigger.Graph.Decide
import Rigger.Graph.Settle

/-!
# The tables a run passes through

`Reached C live t` says that folding events, each meeting `C` at the tables it is folded on, with
the settlements between them in any order leads from empty tables to `t`, and that `live` are the
assertions live there.  Every transaction of a run is such folds and settlements, however the log
was cut into transactions, so what holds of the reached tables holds of every file
(`reaches_of_run`).

`history` lists the payloads a run folded, in order: `Kept` says of an invariant of the tables and
of what was folded into them that folds and settlements keep it, and `Kept.run` puts a run together
once.
-/

namespace Rigger.Graph

open Lib

/-- Outside the generation rule neither an identity nor a generation is known. -/
def Asserter.Known (by_ : Asserter) : Prop := by_.identity = "" → by_.generation = ""

theorem Asserter.of_known (e : Event) : (Asserter.of e).Known := by
  unfold Known Asserter.of
  cases hparts : derivedGeneration e with
  | none => exact fun _ => rfl
  | some parts =>
    unfold derivedGeneration named at hparts
    split at hparts
    · obtain ⟨key, -, hkey⟩ := Option.bind_eq_some_iff.1 hparts
      exact fun h => absurd h (identity_ne_empty_of_key hkey)
    · cases hparts

/-- The asserter of an entry's batch. -/
def Asserter.ofEntry (named : GenerationIngested) (entry : Event) : Asserter :=
  ⟨named.identity, named.generation, toNanos entry.validFrom⟩

/-- The asserter's generation is current, or it asserts outside the generation rule. -/
def Asserter.Current (by_ : Asserter) (t : Tables) : Prop :=
  by_.identity = "" ∨ t.currentGeneration by_.identity = some by_.generation

theorem Asserter.Current.holds {by_ : Asserter} {t : Tables} (h : by_.Current t)
    {r : NodeAssertion} (hidentity : r.identity = by_.identity)
    (hgeneration : r.generation = by_.generation) : t.holds r = true := by
  rw [t.holds_iff, hidentity, hgeneration]
  exact h

variable {t' : Tables}

theorem Asserter.Current.congr {by_ : Asserter} {t : Tables} (h : by_.Current t)
    (hgens : t'.generations = t.generations) : by_.Current t' := by
  unfold Asserter.Current Tables.currentGeneration
  rw [hgens]
  exact h

/-! ## The generation an event folds at -/

namespace Tables

variable (t : Tables) (by_ : Asserter)

theorem ensureNode_generations (id : String) (kind : NodeKind) (attrs : List (String × String)) :
    (t.ensureNode by_ id kind attrs).generations = t.generations := by
  unfold ensureNode recordAssertion
  dsimp only
  split
  · split
    · rfl
    · rw [settleNode_generations]
      rfl
  · rfl

theorem foldPayload_generations (position : Nat) (p : Payload) :
    (t.foldPayload by_ position p).generations = t.generations := by
  have harms : NodeArms by_ (fun _ => True) fun _ t' => t'.generations = t.generations :=
    { ensure := fun {_ t'} id kind attrs _ _ h =>
      (t'.ensureNode_generations by_ id kind attrs).trans h
      frame := fun hs h => hs.generations.trans h
      undo := fun {_ t'} id defined h => (t'.undoWhatResolvedAgainst_rows id defined).2.trans h
      mark := fun h => h
      alias_ := fun h => h
      drop := fun _ h => h
      overwrite := fun _ h => h }
  have hproof : ∀ (t' : Tables) (r : EdgeInferred), t'.generations = t.generations →
      (t'.foldTestEvidence r position).generations = t.generations :=
    fun t' r h => (t'.foldTestEvidence_generations r position).trans h
  exact (harms.arms position fun {_ t' r} h => hproof t' r h).foldPayload []
    True.intro (fun _ _ => True.intro) (fun _ _ => True.intro) rfl

theorem fold_generations (position : Nat) (p : Payload) :
    (t.fold by_ position p).generations = (t.advanceGeneration by_).1.generations := by
  unfold fold
  dsimp only
  split
  · rw [retireUnheldNodes_eq, (settleNodes_rows _ _ _).2, foldPayload_generations]
  · exact foldPayload_generations _ _ _ _

theorem advanceGeneration_current : by_.Current (t.advanceGeneration by_).1 := by
  have hinsert : ∀ prior, by_.Current
      { t with generations := t.generations.insert by_.identity ⟨by_.generation, prior⟩ } :=
    fun prior => .inr ((t.currentGeneration_insert _ _).trans (if_pos rfl))
  rcases t.advanceGeneration_cases by_ with ⟨heq, hcurrent⟩ | ⟨-, -, heq⟩ | ⟨prior, -, -, -, heq⟩
  · rw [heq]
    exact hcurrent
  · rw [heq]
    exact hinsert none
  · rw [heq]
    exact (hinsert (some prior)).congr (settleEdges_sameNodes _ _ _).generations

end Tables

/-- A condition on the events a run folds, each at the tables it is folded on. -/
abbrev Condition := Tables → Asserter → Payload → Prop

inductive Reached (C : Condition) : List Assertion → Tables → Prop
  | empty : Reached C [] .empty
  | fold {live : List Assertion} {t : Tables} (by_ : Asserter) (position : Nat) (p : Payload)
    (h : Reached C live t) (hby : by_.Known) (hC : C t by_ p) :
    Reached C (t.assertedBy by_ live p) (t.fold by_ position p)
  | relabel {live : List Assertion} {t : Tables} (h : Reached C live t) :
    Reached C live t.relabelOwedCommunities
  | settle {live : List Assertion} {t : Tables} (h : Reached C live t) :
    Reached C live t.settleProofs
  | drop {live : List Assertion} {t : Tables} (identity : String) (h : Reached C live t) :
    Reached C live { t with refs := t.refs.filter (·.identity != identity) }
  | stage {live : List Assertion} {t : Tables} (by_ : Asserter) (position : Nat) (r : EdgeInferred)
    (h : Reached C live t) : Reached C live (t.stageReference by_ position r)
  | references {live : List Assertion} {t : Tables} (by_ : Asserter) (h : Reached C live t)
    (hid : by_.identity ≠ "") (hcurrent : by_.Current t) :
    Reached C live (t.settleReferences by_)

/-! ## The condition of a run -/

/-- `C` holds of the event where it is folded. -/
def EventMeets (reading : Reading) (C : Condition) (f : Folded) (e : Event) : Prop :=
  e.position ∉ f.applied → ∀ p, Payload.ofEvent reading e = some p → C f.tables (.of e) p

/-- `C` holds of every event of the entry's batch, where the entry folds it. -/
def EntryMeets (reading : Reading) (C : Condition) (f : Folded) (entry : Event)
    (batch : Option BatchAnswer) : Prop :=
  entry.position ∉ f.applied → ∀ named events, GenerationIngested.parse entry.data = some named →
    f.tables.currentGeneration named.identity ≠ some named.generation →
    batch = some (.batch (some events)) →
    AlongM (foldBatchEvent reading (.ofEntry named entry) entry.position)
      (fun t e => ∀ p, Payload.ofEvent reading e = some p → C t (.ofEntry named entry) p)
      { f.tables with refs := f.tables.refs.filter (·.identity != named.identity) } events

def CallMeets (reading : Reading) (C : Condition) (f : Folded) : FoldCall → Prop
  | .events es => AlongM (foldOne reading) (fun s e => EventMeets reading C s.1 e) (f, none) es
  | .entry e batch => EntryMeets reading C f e (batch.map .batch)
  | .decidedEvent e => EventMeets reading C f e
  | .decidedEntry e extracted => EntryMeets reading C f e (some extracted.answer)

/-- `C` holds of every event the transaction folds. -/
def TransactionMeets (reading : Reading) (C : Condition) (f : Folded) (calls : List FoldCall) :
    Prop :=
  AlongM (foldCall reading) (CallMeets reading C) f calls

/-! ## What a run folds -/

/-- The payload an event folds: none where its position has folded or its data is refused. -/
def foldedEvent (reading : Reading) (f : Folded) (e : Event) : List Payload :=
  if isLedgerEntry e.type_ ∨ e.position ∈ f.applied then []
  else (Payload.ofEvent reading e).toList

/-- The payloads an entry folds, where it opens a generation. -/
def foldedBatch (reading : Reading) (f : Folded) (entry : Event) :
    Option BatchAnswer → List Payload
  | some (.batch (some events)) =>
    if asksBatch f entry then events.filterMap (Payload.ofEvent reading) else []
  | _ => []

def foldedCall (reading : Reading) (f : Folded) : FoldCall → List Payload
  | .events es => traceM (fun s e => foldedEvent reading s.1 e) (foldOne reading) (f, none) es
  | .entry e batch => foldedBatch reading f e (batch.map .batch)
  | .decidedEvent e => foldedEvent reading f e
  | .decidedEntry e extracted =>
    -- an entry whose fold fails is passed over, and its savepoint leaves nothing folded
    if (foldEntry reading f e (some extracted.answer)).isSome then
      foldedBatch reading f e (some extracted.answer)
    else []

/-- The payloads a transaction commits, none where it is rolled back. -/
def foldedTransaction (reading : Reading) (f : Folded) (calls : List FoldCall) : List Payload :=
  if (calls.foldlM (foldCall reading) f).isSome then
    traceM (foldedCall reading) (foldCall reading) f calls
  else []

/-- The payloads a run committed, in the order it folded them. -/
def history (reading : Reading) (transactions : List (List FoldCall)) : List Payload :=
  trace (foldedTransaction reading) (transact reading) .empty transactions

/-! ## A run's transactions -/

/-- Every fold under `C` and every settlement keeps `I` of the payloads folded and the tables. -/
structure Kept (reading : Reading) (C : Condition) (I : List Payload → Tables → Prop) : Prop where
  fold : ∀ {folded t by_ e p} (position : Nat), by_.Known → Payload.ofEvent reading e = some p →
    C t by_ p → I folded t → I (folded ++ [p]) (t.fold by_ position p)
  relabel : ∀ {folded t}, I folded t → I folded t.relabelOwedCommunities
  settle : ∀ {folded t}, I folded t → I folded t.settleProofs
  drop : ∀ {folded t} (identity : String), I folded t →
    I folded { t with refs := t.refs.filter (·.identity != identity) }
  stage : ∀ {folded t} (by_ : Asserter) (position : Nat) (r : EdgeInferred), I folded t →
    I folded (t.stageReference by_ position r)
  references : ∀ {folded t by_}, by_.identity ≠ "" → by_.Current t → I folded t →
    I folded (t.settleReferences by_)

theorem Asserter.ofEntry_identity (named : GenerationIngested) (entry : Event) :
    (Asserter.ofEntry named entry).identity ≠ "" := by
  intro h
  have := congrArg String.toList h
  simp [ofEntry, GenerationIngested.identity] at this

/-- An entry's fold leaves the tables, or folds the batch it opens its generation with. -/
theorem foldEntry_cases {reading : Reading} {f : Folded} {entry : Event}
    {batch : Option BatchAnswer}
    {r : Folded × EntryOutcome} (hfold : foldEntry reading f entry batch = some r) :
    r.1.tables = f.tables ∧ foldedBatch reading f entry batch = [] ∨
      ∃ named e events, entry.position ∉ f.applied ∧
        GenerationIngested.parse entry.data = some named ∧
        f.tables.currentGeneration named.identity ≠ some named.generation ∧
        batch = some (.batch (some (e :: events))) ∧
        foldedBatch reading f entry batch = (e :: events).filterMap (Payload.ofEvent reading) ∧
        r.2 = .folded .batchAsked ∧
        foldBatch reading (.ofEntry named entry) entry.position f.tables (e :: events) =
          some r.1.tables := by
  have hasks : ∀ {named}, entry.position ∉ f.applied →
      GenerationIngested.parse entry.data = some named →
      (asksBatch f entry = true ↔
        f.tables.currentGeneration named.identity ≠ some named.generation) := by
    intro named hnew hnamed
    simp [asksBatch, hnew, hnamed]
  have hsilent : asksBatch f entry = false → foldedBatch reading f entry batch = [] := by
    intro hno
    unfold foldedBatch
    split
    · rw [hno]
      rfl
    · rfl
  unfold foldEntry at hfold
  split at hfold
  case isTrue hold =>
    cases hfold
    exact .inl ⟨rfl, hsilent (by simp [asksBatch, hold])⟩
  case isFalse hnew =>
    simp only [Option.bind_eq_bind, Option.bind_eq_some_iff] at hfold
    obtain ⟨named, hnamed, hfold⟩ := hfold
    split at hfold
    case isTrue hcurrent =>
      cases hfold
      refine .inl ⟨rfl, hsilent (Bool.eq_false_iff.2 fun hyes => ?_)⟩
      exact (hasks hnew hnamed).1 hyes hcurrent
    case isFalse hcurrent =>
      obtain ⟨answer, rfl, hanswer⟩ := Option.bind_eq_some_iff.1 hfold
      -- only a batch of some events folds anything
      match answer with
      | .unread | .batch none =>
        cases hanswer
        exact .inl ⟨rfl, rfl⟩
      | .batch (some []) =>
        cases hanswer
        exact .inl ⟨rfl, by simp [foldedBatch]⟩
      | .batch (some (e :: es)) =>
        obtain ⟨tables, htables, hr⟩ := Option.bind_eq_some_iff.1 hanswer
        cases hr
        exact .inr ⟨named, e, es, hnew, hnamed, hcurrent, rfl,
          if_pos ((hasks hnew hnamed).2 hcurrent), rfl, htables⟩

theorem foldBatchEvent_current {reading : Reading} {by_ : Asserter} {position : Nat} {t : Tables}
    {e : Event} (hfold : foldBatchEvent reading by_ position t e = some t') : by_.Current t' := by
  unfold foldBatchEvent at hfold
  rw [Option.bind_eq_bind, Option.bind_eq_some_iff] at hfold
  obtain ⟨p, -, hfold⟩ := hfold
  have hcurrent : by_.Current (t.fold by_ position p) :=
    (t.advanceGeneration_current by_).congr (t.fold_generations by_ position p)
  dsimp only at hfold
  split at hfold
  · cases hfold
    exact hcurrent.congr (Tables.stageReference_sameNodes _ _ _ _).generations
  · cases hfold
    exact hcurrent

namespace Kept

variable {reading : Reading} {C : Condition} {I : List Payload → Tables → Prop} {f : Folded}
  {folded : List Payload} {e : Event}

theorem foldOne (h : Kept reading C I) {s s' : Folded × Option String}
    (hC : EventMeets reading C s.1 e) (hfold : Graph.foldOne reading s e = some s')
    (hI : I folded s.1.tables) : I (folded ++ foldedEvent reading s.1 e) s'.1.tables := by
  unfold Graph.foldOne at hfold
  unfold foldedEvent
  dsimp only at hfold
  split at hfold
  · cases hfold
  · split at hfold
    case isTrue hold =>
      cases hfold
      rw [if_pos (.inr hold), List.append_nil]
      exact hI
    case isFalse hplain hnew =>
      obtain ⟨p, hp, rfl⟩ := Option.map_eq_some_iff.1 hfold
      rw [if_neg (by rintro (hl | ha); exacts [hplain hl, hnew ha]), hp]
      exact h.fold e.position (Asserter.of_known e) hp (hC hnew p hp) hI

theorem foldNew (h : Kept reading C I) {es : List Event} {r : Folded × Option String}
    (hC : AlongM (Graph.foldOne reading) (fun s e => EventMeets reading C s.1 e) (f, none) es)
    (hfold : Graph.foldNew reading f es = some r) (hI : I folded f.tables) :
    I (folded ++ foldedCall reading f (.events es)) r.1.tables := by
  unfold Graph.foldNew at hfold
  rw [Option.bind_eq_bind, Option.bind_eq_some_iff] at hfold
  obtain ⟨s, hs, hr⟩ := hfold
  cases hr
  exact h.relabel (foldlM_trace_along (I := fun folded s => I folded s.1.tables)
    (fun _ _ _ _ hC hfold hI => h.foldOne hC hfold hI) hC hs hI)

variable {t' : Tables} {entry : Event}

theorem foldBatchEvent (h : Kept reading C I) {by_ : Asserter} {position : Nat} {t : Tables}
    (hby : by_.Known) (hC : ∀ p, Payload.ofEvent reading e = some p → C t by_ p)
    (hfold : Graph.foldBatchEvent reading by_ position t e = some t') (hI : I folded t) :
    I (folded ++ (Payload.ofEvent reading e).toList) t' ∧ by_.Current t' := by
  refine ⟨?_, foldBatchEvent_current hfold⟩
  unfold Graph.foldBatchEvent at hfold
  rw [Option.bind_eq_bind, Option.bind_eq_some_iff] at hfold
  obtain ⟨p, hp, hfold⟩ := hfold
  have hfolded := h.fold position hby hp (hC p hp) hI
  rw [hp]
  dsimp only at hfold
  split at hfold
  · cases hfold
    exact h.stage by_ position _ hfolded
  · cases hfold
    exact hfolded

theorem foldBatch (h : Kept reading C I) {named : GenerationIngested} {events : List Event}
    {t : Tables} (hC : AlongM (Graph.foldBatchEvent reading (.ofEntry named entry) entry.position)
      (fun t e => ∀ p, Payload.ofEvent reading e = some p → C t (.ofEntry named entry) p)
      { t with refs := t.refs.filter (·.identity != named.identity) } (e :: events))
    (hfold : Graph.foldBatch reading (.ofEntry named entry) entry.position t
      (e :: events) = some t')
    (hI : I folded t) : I (folded ++ (e :: events).filterMap (Payload.ofEvent reading)) t' := by
  have hknown : (Asserter.ofEntry named entry).Known :=
    fun h => absurd h (Asserter.ofEntry_identity named entry)
  unfold Graph.foldBatch at hfold
  obtain ⟨last, hlast, hsettled⟩ := Option.bind_eq_some_iff.1 hfold
  cases hsettled
  rw [List.foldlM_cons] at hlast
  obtain ⟨opened, hopened, hlast⟩ := Option.bind_eq_some_iff.1 hlast
  have hfirst := h.foldBatchEvent hknown hC.1 hopened (h.drop named.identity hI)
  have htold : ∀ (t : Tables) (es : List Event) (t' : Tables),
      es.foldlM (Graph.foldBatchEvent reading (.ofEntry named entry) entry.position) t = some t' →
      traceM (fun _ e => (Payload.ofEvent reading e).toList)
        (Graph.foldBatchEvent reading (.ofEntry named entry) entry.position) t es =
          es.filterMap (Payload.ofEvent reading) := by
    intro t es
    induction es generalizing t with
    | nil => exact fun _ _ => rfl
    | cons e es ih =>
      intro t' hrun
      rw [List.foldlM_cons] at hrun
      obtain ⟨next, hnext, hrest⟩ := Option.bind_eq_some_iff.1 hrun
      rw [traceM, hnext, Option.map_some, Option.getD_some, ih next t' hrest]
      cases hp : Payload.ofEvent reading e with
      | none => rw [List.filterMap_cons_none hp]; rfl
      | some p => rw [List.filterMap_cons_some hp]; rfl
  have hrest := foldlM_trace_along
    (I := fun folded t => I folded t ∧ (Asserter.ofEntry named entry).Current t)
    (fun _ _ _ _ hC hfold hI => h.foldBatchEvent hknown hC hfold hI.1) (hC.2 opened hopened) hlast
    hfirst
  rw [htold opened events last hlast, List.append_assoc] at hrest
  have hall : (Payload.ofEvent reading e).toList ++ events.filterMap (Payload.ofEvent reading) =
      (e :: events).filterMap (Payload.ofEvent reading) := by
    cases hp : Payload.ofEvent reading e with
    | none => rw [List.filterMap_cons_none hp]; rfl
    | some p => rw [List.filterMap_cons_some hp]; rfl
  rw [hall] at hrest
  exact h.relabel (h.references (Asserter.ofEntry_identity named entry) hrest.2 hrest.1)

theorem foldEntry (h : Kept reading C I) {batch : Option BatchAnswer} {r : Folded × EntryOutcome}
    (hC : EntryMeets reading C f entry batch)
    (hfold : Graph.foldEntry reading f entry batch = some r) (hI : I folded f.tables) :
    I (folded ++ foldedBatch reading f entry batch) r.1.tables := by
  rcases foldEntry_cases hfold with
    ⟨heq, hnone⟩ | ⟨named, e, events, hnew, hnamed, hcurrent, hbatch, hall, -, hbatched⟩
  · rw [heq, hnone, List.append_nil]
    exact hI
  · rw [hall]
    exact h.foldBatch (hC hnew named _ hnamed hcurrent hbatch) hbatched hI

theorem foldInSavepoint {fold : Option (Folded × Decided)} {rejected : Option String}
    {r : Folded × Bool} (hfold : Graph.foldInSavepoint f e fold rejected = some r) :
    fold = some (r.1, .read) ∨
      r.1.tables = f.tables ∧ ∀ folded, fold ≠ some (folded, .read) := by
  have hpass : ∀ {cause : String}, ((f.passOver e.position cause).map (·, true)) = some r →
      r.1.tables = f.tables := by
    intro cause hr
    obtain ⟨passed, hpassed, rfl⟩ := Option.map_eq_some_iff.1 hr
    unfold Folded.passOver at hpassed
    split at hpassed
    · cases hpassed
    · cases hpassed
      rfl
  unfold Graph.foldInSavepoint at hfold
  split at hfold
  · cases hfold
    exact .inl rfl
  · cases hfold
    exact .inr ⟨rfl, by simp⟩
  · exact .inr ⟨hpass hfold, by simp⟩
  · obtain ⟨cause, -, hr⟩ := Option.bind_eq_some_iff.1 hfold
    exact .inr ⟨hpass hr, by simp⟩

theorem foldNew_single (reading : Reading) (f : Folded) (e : Event) :
    (Graph.foldNew reading f [e]).isSome = (Graph.foldOne reading (f, none) e).isSome := by
  unfold Graph.foldNew
  rw [List.foldlM_cons]
  cases Graph.foldOne reading (f, none) e <;> rfl

theorem foldedCall_single (reading : Reading) (f : Folded) (e : Event) :
    foldedCall reading f (.events [e]) = foldedEvent reading f e := by
  show foldedEvent reading f e ++ _ = _
  cases Graph.foldOne reading (f, none) e <;> exact List.append_nil _

theorem foldedEvent_of_fails (hfails : Graph.foldOne reading (f, none) e = none) :
    foldedEvent reading f e = [] := by
  unfold Graph.foldOne at hfails
  unfold foldedEvent
  dsimp only at hfails
  split at hfails
  case isTrue hledger => exact if_pos (.inl hledger)
  case isFalse =>
    split at hfails
    · cases hfails
    · rw [Option.map_eq_none_iff.1 hfails]
      split <;> rfl

theorem foldCall (h : Kept reading C I) {call : FoldCall} {f' : Folded}
    (hC : CallMeets reading C f call) (hfold : Graph.foldCall reading f call = some f')
    (hI : I folded f.tables) : I (folded ++ foldedCall reading f call) f'.tables := by
  cases call with
  | events es =>
    obtain ⟨r, hr, rfl⟩ := Option.map_eq_some_iff.1 hfold
    exact h.foldNew hC hr hI
  | entry e batch =>
    obtain ⟨r, hr, rfl⟩ := Option.map_eq_some_iff.1 hfold
    exact h.foldEntry hC hr hI
  | decidedEvent e =>
    obtain ⟨r, hr, rfl⟩ := Option.map_eq_some_iff.1 hfold
    rcases foldInSavepoint hr with hread | ⟨hsame, hnone⟩
    · obtain ⟨r', hr', hfolded⟩ := Option.map_eq_some_iff.1 hread
      have heq : r'.1 = r.1 := congrArg Prod.fst hfolded
      have hone : AlongM (Graph.foldOne reading) (fun s e => EventMeets reading C s.1 e)
          (f, none) [e] :=
        ⟨hC, fun _ _ => True.intro⟩
      have hkept := h.foldNew hone hr' hI
      rwa [foldedCall_single, heq] at hkept
    · have hfails : Graph.foldOne reading (f, none) e = none := by
        rw [← Option.isNone_iff_eq_none, ← Option.not_isSome, ← foldNew_single]
        cases hnew : Graph.foldNew reading f [e] with
        | none => rfl
        | some r' => exact absurd (by rw [hnew]; rfl) (hnone r'.1)
      rw [foldedCall, foldedEvent_of_fails hfails, List.append_nil, hsame]
      exact hI
  | decidedEntry e extracted =>
    obtain ⟨r, hr, rfl⟩ := Option.map_eq_some_iff.1 hfold
    rcases foldInSavepoint hr with hread | ⟨hsame, hnone⟩
    · obtain ⟨⟨f', outcome⟩, hr', hfolded⟩ := Option.map_eq_some_iff.1 hread
      cases outcome with
      | folded _ =>
        have heq : f' = r.1 := congrArg Prod.fst hfolded
        subst heq
        show I (folded ++ if (Graph.foldEntry reading f e (some extracted.answer)).isSome then
          foldedBatch reading f e (some extracted.answer) else []) _
        rw [hr', Option.isSome_some, if_pos rfl]
        exact h.foldEntry hC hr' hI
      | unresolved => cases hfolded
      | unread => cases hfolded
    · have hsilent : foldedCall reading f (.decidedEntry e extracted) = [] := by
        show (if (Graph.foldEntry reading f e (some extracted.answer)).isSome then
          foldedBatch reading f e (some extracted.answer) else []) = []
        cases hfolds : Graph.foldEntry reading f e (some extracted.answer) with
        | none => rfl
        | some r' =>
          rcases foldEntry_cases hfolds with ⟨-, hsilent⟩ | ⟨-, -, -, -, -, -, -, -, houtcome, -⟩
          · exact hsilent
          · exact absurd (by rw [hfolds, Option.map_some, houtcome]) (hnone r'.1)
      rw [hsilent, List.append_nil, hsame]
      exact hI

/-- A transaction, committed or rolled back, keeps what its folds keep. -/
theorem transact (h : Kept reading C I) {calls : List FoldCall}
    (hC : TransactionMeets reading C f calls) (hI : I folded f.tables) :
    I (folded ++ foldedTransaction reading f calls) (Graph.transact reading f calls).tables := by
  unfold Graph.transact foldedTransaction
  cases hcalls : calls.foldlM (Graph.foldCall reading) f with
  | none =>
    show I (folded ++ []) f.tables
    rwa [List.append_nil]
  | some committed =>
    exact h.settle (foldlM_trace_along (I := fun folded f => I folded f.tables)
      (fun _ _ _ _ hC hfold hI => h.foldCall hC hfold hI) hC hcalls hI)

/-- However a log is cut into transactions, the file it folds into keeps it. -/
theorem run (h : Kept reading C I) (hempty : I [] .empty) {transactions : List (List FoldCall)}
    (hC : Along (Graph.transact reading) (TransactionMeets reading C) .empty transactions) :
    I (history reading transactions) (run (Graph.transact reading) .empty transactions).tables :=
  run_trace_along (I := fun folded f => I folded f.tables) (fun _ _ _ hC hI => h.transact hC hI) hC
    hempty

end Kept

/-- Some assertions are live at the reached tables. -/
def Reaches (C : Condition) (t : Tables) : Prop := ∃ live, Reached C live t

theorem Reaches.kept (reading : Reading) (C : Condition) : Kept reading C fun _ t =>
    Reaches C t where
  fold := fun position hby _ hC ⟨_, h⟩ => ⟨_, h.fold _ position _ hby hC⟩
  relabel := fun ⟨_, h⟩ => ⟨_, h.relabel⟩
  settle := fun ⟨_, h⟩ => ⟨_, h.settle⟩
  drop := fun identity ⟨_, h⟩ => ⟨_, h.drop identity⟩
  stage := fun by_ position r ⟨_, h⟩ => ⟨_, h.stage by_ position r⟩
  references := fun hid hcurrent ⟨_, h⟩ => ⟨_, h.references _ hid hcurrent⟩

/-- However a log is cut into transactions, the tables of the file it folds into are reached. -/
theorem reaches_of_run {reading : Reading} {C : Condition} {transactions : List (List FoldCall)}
    (hC : Along (transact reading) (TransactionMeets reading C) .empty transactions) :
    Reaches C (run (transact reading) .empty transactions).tables :=
  (Reaches.kept reading C).run ⟨[], .empty⟩ hC

end Rigger.Graph
