import Rigger.Graph.Evidence

/-!
# Test proofs over a run

A test reference is recorded landing nowhere and its name owed; settling a name lands its rows and
writes the nodes they leave, reach and keep.  A transaction settles every name it owed before it
commits, so at every commit every row has landed and every node carries its evidence
(`proofs_landed`).
-/

namespace Rigger.Graph

open Lib

/-! ## Recording -/

namespace Evidence

variable {space : String → NodeKind} {pending : NodeAssertion → Prop} {owed owed' : String → Prop}
  {t : Tables}

/-- A file's proofs superseded: the nodes they proved carry what the other files' give. -/
theorem supersedeFileProof (h : Evidence space pending owed t) (file : String) :
    Evidence space pending owed (t.supersedeFileProof file) := by
  unfold Tables.supersedeFileProof
  dsimp only
  generalize hids : sortedSet (t.proofTargetsBy (·.file == file) ++
    Tables.proofTargetsBy { t with proofs := t.proofs.filter (·.file != file) }
    (·.file == file)) = ids
  have hkept := (t.proofsChanged_sameDefinitions (t.proofs.filter (·.file != file))
    t.proofsOwed).trans (Tables.writeProofs_sameDefinitions _ ids)
  have hproofs := Tables.writeProofs_proofs
    { t with proofs := t.proofs.filter (·.file != file) } ids
  have hgone : ∀ row ∈ t.proofs, row.file = file → ∀ id, row.target = some id → id ∈ ids := by
    intro row hrow hfile id htarget
    rw [← hids, Tables.mem_sortedSet, List.mem_append]
    refine .inl (List.mem_filterMap.2 ⟨row, List.mem_filter.2 ⟨hrow, ?_⟩, htarget⟩)
    simpa using hfile
  generalize ht' : Tables.writeProofs
    { t with proofs := t.proofs.filter (·.file != file) } ids = t' at *
  have hrows : ∀ row ∈ t'.proofs, row ∈ t.proofs := by
    rw [hproofs.proofs]
    exact fun row hrow => (List.mem_filter.1 hrow).1
  have hdef : ∀ id, t'.definitionName id = t.definitionName id := hkept.definitionName
  refine ⟨h.names.frame hkept.names, h.agrees.frame hkept, ⟨?_, ?_, ?_⟩, ?_⟩
  · intro row hrow hnot
    simp only [hdef]
    exact h.landing.lands row (hrows row hrow) hnot
  · intro id n' hn' hunowed
    have hevidence : t'.evidenceOf id =
        Tables.evidenceOf { t with proofs := t.proofs.filter (·.file != file) } id := by
      unfold Tables.evidenceOf
      rw [hproofs.proofs]
    rw [← ht', Tables.writeProofs_getElem?] at hn'
    obtain ⟨n, hn, rfl⟩ := Option.map_eq_some_iff.1 hn'
    rw [hevidence]
    split
    · rfl
    case isFalse hid =>
      -- no row of the file's proved it
      have hstays : ∀ row ∈ t.proofs, row.target = some id → row.file ≠ file :=
        fun row hrow htarget hfile => hid (hgone row hrow hfile id htarget)
      have hsamerows : (t.proofs.filter (·.file != file)).filter (·.target == some id) =
          t.proofs.filter (·.target == some id) := by
        rw [List.filter_filter]
        refine List.filter_congr fun row hrow => ?_
        by_cases htarget : row.target = some id
        · simp [htarget, hstays row hrow htarget]
        · simp [htarget]
      rw [Tables.evidenceOf_congr (t := t) hsamerows]
      refine h.landing.proof id n hn fun row hrow htarget => hunowed row ?_ htarget
      rw [hproofs.proofs]
      exact List.mem_filter.2 ⟨hrow, by simpa using hstays row hrow htarget⟩
  · intro id n hn
    rw [← ht', Tables.writeProofs_retired] at hn
    exact h.landing.retired id n hn
  · intro r hr hp hlive hname row hrow
    rw [hkept.names.nodeAssertions] at hr
    rw [hkept.names.liveAssertions] at hlive
    rw [hdef] at hname
    exact h.waiting r hr hp hlive hname row (hrows row hrow)

theorem recordProof (h : Evidence space pending owed t) (name file evidence : String)
    (source : Nat) (howed : ∀ other, owed other → owed' other) (hname : owed' name)
    (names : Std.ExtTreeSet String) :
    Evidence space pending owed'
      { t.recordProof name file evidence source with proofsOwed := names } := by
  have hmem : ∀ row, row ∈ t.proofs ++ [⟨name, file, evidence, source, none⟩] →
      row ∈ t.proofs ∨ row.name = name ∧ row.target = none := by
    intro row hrow
    refine (List.mem_append.1 hrow).imp_right fun hrow => ?_
    rw [List.mem_singleton.1 hrow]
    exact ⟨rfl, rfl⟩
  refine ⟨h.names.frame (t.proofsChanged_keepsNames _ _), h.agrees, ⟨?_, ?_, h.landing.retired⟩, ?_⟩
  · intro row hrow hnot
    rcases hmem row hrow with hrow | ⟨rfl, -⟩
    · exact h.landing.lands row hrow fun ho => hnot (howed _ ho)
    · exact absurd hname hnot
  · intro id n hn hunowed
    have hevidence : Tables.evidenceOf
        { t.recordProof name file evidence source with proofsOwed := names } id =
          t.evidenceOf id := by
      refine Tables.evidenceOf_congr ?_
      show (t.proofs ++ [_]).filter _ = _
      simp
    rw [hevidence]
    exact h.landing.proof id n hn fun row hrow htarget ho =>
      hunowed row (List.mem_append_left _ hrow) htarget (howed _ ho)
  · intro r hr hp hlive hdef row hrow
    rcases hmem row hrow with hrow | ⟨-, htarget⟩
    · exact h.waiting r hr hp hlive hdef row hrow
    · rw [htarget]
      exact nofun

end Evidence

variable {live : List Assertion} {by_ : Asserter} {reading : Reading}

theorem Unsettled.foldTestEvidence {space : String → NodeKind} {prior : Option String}
    {live' : List Assertion} {t : Tables} (h : Unsettled space by_ prior (fun _ => False) live t)
    (r : EdgeInferred) (position : Nat) :
    Unsettled space by_ prior (fun _ => False) live' (t.foldTestEvidence r position) := by
  have hopened : Evidence space (by_.Pending prior) (fun name => name ∈
        (if r.fresh then t.supersedeFileProof (t.resolve r.file) else t).proofsOwed ∨ False)
      (if r.fresh then t.supersedeFileProof (t.resolve r.file) else t) := by
    split
    · have howed : (t.supersedeFileProof (t.resolve r.file)).proofsOwed = t.proofsOwed :=
        (Tables.writeProofs_proofs _ _).proofsOwed
      rw [howed]
      exact h.1.supersedeFileProof _
    · exact h.1
  refine ⟨?_, h.2.1.congr (t.foldTestEvidence_generations r position), h.2.2⟩
  unfold Tables.foldTestEvidence
  dsimp only
  split
  · exact hopened
  · refine hopened.recordProof _ _ _ _ (fun name hname => hname.imp_left fun hn => ?_)
      (.inl Std.ExtTreeSet.mem_insert_self) _
    exact Std.ExtTreeSet.mem_insert.2 (.inr hn)

/-! ## Settling a name -/

namespace Evidence

variable {space : String → NodeKind} {owed : String → Prop} {t : Tables}

/-- Between events what an assertion defines and what its node's row does are the same. -/
theorem callDefinition_iff (h : Evidence space (fun _ => False) owed t) (name id : String) :
    t.CallDefinition name id ↔ t.definitionName id = some name := by
  have hcontains : ∀ attrs : Attrs, (nodeLeaf attrs).isSome = true →
      attrs.contains "name" = true := by
    intro attrs hleaf
    obtain ⟨leaf, hleaf⟩ := Option.isSome_iff_exists.1 hleaf
    rw [Std.ExtTreeMap.contains_eq_isSome_getElem?, (Option.filter_eq_some_iff.1 hleaf).1]
    rfl
  rw [definitionName_eq]
  unfold Tables.CallDefinition
  constructor
  · rintro ⟨n, hn, hkind, hleaf, hlive⟩
    obtain ⟨r, hr, hdefines⟩ := List.any_eq_true.1 hlive
    have hnamed := hcontains n.attrs (by rw [hleaf]; rfl)
    have hrnamed := hcontains _ (Bool.and_eq_true_iff.1 hdefines).1
    rw [h.agrees id n hn hnamed r hr hrnamed] at hdefines
    rw [hn, Option.bind_some, nameOf, if_pos ⟨hkind, (Bool.and_eq_true_iff.1 hdefines).2⟩]
    exact hleaf
  · intro hdefined
    obtain ⟨n, hn, hname⟩ := Option.bind_eq_some_iff.1 hdefined
    unfold nameOf at hname
    split at hname
    case isFalse => cases hname
    case isTrue hcall =>
      have hnamed := hcontains n.attrs (by rw [hname]; rfl)
      obtain ⟨-, r, hr, hrnode, hlive, hrnamed⟩ := h.names.nodeName id n hn hnamed
      have hrlive := t.mem_liveAssertions.2 ⟨hr, hrnode, hlive.resolve_right fun hf => hf⟩
      refine ⟨n, hn, hcall.1, hname, List.any_eq_true.2 ⟨r, hrlive, ?_⟩⟩
      rw [h.agrees id n hn hnamed r hrlive hrnamed, defines, hname, hcall.2]
      rfl

theorem settleName (h : Evidence space (fun _ => False) owed t) (name : String) :
    Evidence space (fun _ => False) (fun other => owed other ∧ other ≠ name)
      (t.settleName name) := by
  generalize hmoved : sortedSet (t.movedTargets name) = moved
  generalize hheld : sortedSet (((t.retargeted name).writeProofs moved).proofTargetsBy
    (·.name == name)) = held
  have hsettled : t.settleName name = ((t.retargeted name).writeProofs moved).writeProofs held := by
    unfold Tables.settleName Tables.resolveProofs
    dsimp only
    rw [hmoved, hheld]
  have hsame : SameDefinitions t (t.settleName name) := by
    rw [hsettled]
    exact ((t.proofsChanged_sameDefinitions _ t.proofsOwed).trans
      ((t.retargeted name).writeProofs_sameDefinitions moved)).trans
        (Tables.writeProofs_sameDefinitions _ held)
  have hproofs : (t.settleName name).proofs = (t.retargeted name).proofs := by
    rw [hsettled]
    exact (Tables.writeProofs_proofs _ _).proofs.trans (Tables.writeProofs_proofs _ _).proofs
  have hevidence : ∀ id, (t.settleName name).evidenceOf id = (t.retargeted name).evidenceOf id := by
    intro id
    unfold Tables.evidenceOf
    rw [hproofs]
  have hnode : ∀ (id : String) (n' : Node), (t.settleName name).nodes[id]? = some n' → ∃ n : Node,
      t.nodes[id]? = some n ∧ (n'.proof = (t.retargeted name).evidenceOf id ∨
        id ∉ moved ∧ id ∉ held ∧ n'.proof = n.proof) := by
    intro id n' hn'
    rw [hsettled, Tables.writeProofs_getElem?, Tables.writeProofs_getElem?, Option.map_map] at hn'
    obtain ⟨n, hn, rfl⟩ := Option.map_eq_some_iff.1 hn'
    refine ⟨n, hn, ?_⟩
    rw [Function.comp_apply]
    by_cases hinheld : id ∈ held
    · rw [if_pos hinheld]
      exact .inl (Tables.writeProofs_evidenceOf _ _ _)
    · by_cases hinmoved : id ∈ moved
      · rw [if_neg hinheld, if_pos hinmoved]
        exact .inl rfl
      · rw [if_neg hinheld, if_neg hinmoved]
        exact .inr ⟨hinmoved, hinheld, rfl⟩
  -- a row of the name whose target the settling neither left nor reached has no target
  have huntouched : ∀ row ∈ t.proofs, ∀ id, id ∉ moved → id ∉ held → row.name = name →
      row.target ≠ some id ∧ t.provenTarget name row.file ≠ some id := by
    intro row hrow id hinmoved hinheld hname
    have hreached : t.provenTarget name row.file ≠ some id := by
      intro htarget
      refine hinheld ?_
      rw [← hheld, Tables.mem_sortedSet]
      unfold Tables.proofTargetsBy
      rw [(Tables.writeProofs_proofs _ _).proofs]
      refine List.mem_filterMap.2 ⟨{ row with target := t.provenTarget name row.file },
        List.mem_filter.2 ⟨List.mem_map.2 ⟨row, hrow, if_pos hname⟩, by simpa using hname⟩, htarget⟩
    refine ⟨fun htarget => ?_, hreached⟩
    refine hinmoved ?_
    rw [← hmoved, Tables.mem_sortedSet]
    refine List.mem_flatMap.2 ⟨row, List.mem_filter.2 ⟨hrow, ?_⟩, ?_⟩
    · rw [htarget]
      simpa [hname] using hreached
    · simp [htarget]
  refine ⟨h.names.frame hsame.names, h.agrees.frame hsame, ⟨?_, ?_, ?_⟩, fun _ _ hf => hf.elim⟩
  · rw [hproofs]
    intro row' hrow' hnot
    obtain ⟨row, hrow, rfl⟩ := List.mem_map.1 hrow'
    simp only [hsame.definitionName]
    split
    case isTrue hname =>
      rw [hname]
      exact (t.provenTarget_lands name row.file).congr (h.callDefinition_iff name)
    case isFalse hname =>
      rw [if_neg hname] at hnot
      exact h.landing.lands row hrow fun ho => hnot ⟨ho, hname⟩
  · intro id n' hn' hunowed
    rw [hproofs] at hunowed
    rw [hevidence]
    obtain ⟨n, hn, hproof | ⟨hinmoved, hinheld, hproof⟩⟩ := hnode id n' hn'
    · exact hproof
    · have hrest : ∀ row ∈ t.proofs, row.target = some id → row.name ≠ name :=
        fun row hrow htarget hname => (huntouched row hrow id hinmoved hinheld hname).1 htarget
      have hsamerows : (t.retargeted name).proofs.filter (·.target == some id) =
          t.proofs.filter (·.target == some id) := by
        unfold Tables.retargeted
        rw [List.filter_map]
        have hfilter : t.proofs.filter ((fun row : ProofRow => row.target == some id) ∘ fun row =>
            if row.name = name then { row with target := t.provenTarget name row.file } else row) =
            t.proofs.filter (·.target == some id) := by
          refine List.filter_congr fun row hrow => ?_
          rw [Function.comp_apply]
          split
          case isTrue hname =>
            obtain ⟨hold, hnew⟩ := huntouched row hrow id hinmoved hinheld hname
            simp [hold, hnew]
          · rfl
        rw [hfilter]
        refine (List.map_congr_left fun row hrow => ?_).trans (List.map_id _)
        obtain ⟨hrow, htarget⟩ := List.mem_filter.1 hrow
        rw [if_neg (hrest row hrow (by simpa using htarget))]
        rfl
      rw [hproof, Tables.evidenceOf_congr (t := t) hsamerows]
      refine h.landing.proof id n hn fun row hrow htarget ho => ?_
      have hname := hrest row hrow htarget
      exact hunowed row (List.mem_map.2 ⟨row, hrow, if_neg hname⟩) htarget ⟨ho, hname⟩
  · intro id n hn
    rw [hsettled, Tables.writeProofs_retired, Tables.writeProofs_retired] at hn
    exact h.landing.retired id n hn

theorem settleNames (h : Evidence space (fun _ => False) owed t) (names : List String) :
    Evidence space (fun _ => False) (fun other => owed other ∧ other ∉ names)
      (names.foldl Tables.settleName t) := by
  induction names generalizing t owed with
  | nil => exact h.sameNodes (.refl t) rfl fun name hname => ⟨hname, List.not_mem_nil⟩
  | cons name names ih =>
    refine (ih (h.settleName name)).sameNodes (.refl _) rfl fun other hother => ?_
    exact ⟨hother.1.1, List.not_mem_cons_of_ne_of_not_mem hother.1.2 hother.2⟩

theorem settleProofs (h : Evidence space (fun _ => False) (· ∈ t.proofsOwed) t) :
    Evidence space (fun _ => False) (· ∈ t.settleProofs.proofsOwed) t.settleProofs := by
  refine (h.settleNames t.proofsOwed.toList).sameNodes ⟨rfl, rfl, rfl, rfl, rfl⟩ rfl ?_
  exact fun name hname => absurd (Std.ExtTreeSet.mem_toList.2 hname.1) hname.2

theorem relabel (h : Evidence space (fun _ => False) owed t) (community : String) :
    Evidence space (fun _ => False) owed (t.relabel community) := by
  refine h.frame (t.relabel_sameDefinitions community) rfl (fun _ hn => hn)
    (fun id n' hn' => .inl ?_) h.landing.retired
  unfold Tables.relabel at hn'
  rw [alter_map_getElem?] at hn'
  obtain ⟨n, hn, rfl⟩ := Option.map_eq_some_iff.1 hn'
  refine ⟨n, hn, ?_⟩
  split
  · split <;> rfl
  · rfl

theorem relabels (h : Evidence space (fun _ => False) owed t) (communities : List String) :
    Evidence space (fun _ => False) owed (communities.foldl Tables.relabel t) := by
  induction communities generalizing t with
  | nil => exact h
  | cons community rest ih => exact ih (h.relabel community)

theorem relabelOwedCommunities (h : Evidence space (fun _ => False) (· ∈ t.proofsOwed) t) :
    Evidence space (fun _ => False) (· ∈ t.relabelOwedCommunities.proofsOwed)
      t.relabelOwedCommunities := by
  have hproofs : SameProofs t (t.relabelOwed.toList.foldl Tables.relabel t) :=
    SameProofs.foldl (f := Tables.relabel) (fun _ _ => ⟨rfl, rfl⟩) t _
  refine (h.relabels t.relabelOwed.toList).sameNodes ⟨rfl, rfl, rfl, rfl, rfl⟩ rfl fun name hn => ?_
  show name ∈ (t.relabelOwed.toList.foldl Tables.relabel t).proofsOwed
  rwa [hproofs.proofsOwed]

end Evidence

/-! ## Every run -/

/-- Every id is asserted as an artifact or as one kind of its own; a definition folds onto a node
whose other live assertions agree on whether it defines; and no event retires a node that still
holds a proof of a name it defines no longer. -/
def ProofCondition (space : String → NodeKind) : Condition := fun t by_ p =>
  (∀ a ∈ (t.advanceGeneration by_).1.asserted by_ p, OneKind space a) ∧
    (∀ c, p = .codeEntityExtracted c → DefinitionAgrees (t.advanceGeneration by_).1 by_ c) ∧
    KeepsTargets t by_

theorem Evidence.fold {space : String → NodeKind} {t : Tables} {position : Nat} {p : Payload}
    (h : Evidence space (fun _ => False) (· ∈ t.proofsOwed) t) (hby : by_.Known)
    (hC : ProofCondition space t by_ p) :
    Evidence space (fun _ => False) (· ∈ (t.fold by_ position p).proofsOwed)
      (t.fold by_ position p) := by
  -- within the event nothing but the definition's own arm leaves a name to owe
  have hwithin : ∀ {prior live t}, Within (fun pending _ t =>
      Evidence space pending (· ∈ t.proofsOwed) t) by_ prior live t ↔
        Unsettled space by_ prior (fun _ => False) live t := by
    intro prior live t
    simp only [Within, Unsettled, or_false]
  have harms : ∀ prior, Arms by_ position (OneKind space) (fun _ => True)
      (fun t p => ∀ c, p = .codeEntityExtracted c → DefinitionAgrees t by_ c)
      (Within (fun pending _ t => Evidence space pending (· ∈ t.proofsOwed) t) by_ prior) := by
    intro prior
    have hI : Within (fun pending _ t => Evidence space pending (· ∈ t.proofsOwed) t) by_ prior =
        Unsettled space by_ prior fun _ => False := by
      funext live t
      exact propext hwithin
    rw [hI]
    exact (Unsettled.bareArms space hby prior _).arms position
      (fun hG hA h => h.foldDefinition hby position (hG _ rfl) hA)
      fun h => h.foldTestEvidence _ position
  exact (Evidence.settling space by_).fold [] harms hC.2.1 hC.1 (fun _ _ => True.intro)
    hC.2.2 h

theorem evidence_of_reached {space : String → NodeKind} {t : Tables}
    (h : Reached (ProofCondition space) live t) :
    Evidence space (fun _ => False) (· ∈ t.proofsOwed) t := by
  induction h with
  | empty => exact .empty
  | fold by_ position p _ hby hC ih => exact ih.fold hby hC
  | relabel _ ih => exact ih.relabelOwedCommunities
  | settle _ ih => exact ih.settleProofs
  | drop identity _ ih => exact ih.sameNodes ⟨rfl, rfl, rfl, rfl, rfl⟩ rfl fun _ hn => hn
  | @stage live t by_ position r _ ih =>
    have hp := t.stageReference_sameProofs by_ position r
    exact ih.sameNodes (t.stageReference_sameNodes by_ position r) hp.proofs
      fun name hn => by rwa [hp.proofsOwed]
  | @references live t by_ _ _ _ ih =>
    have hp := t.settleReferences_sameProofs by_
    exact ih.sameNodes (t.settleReferences_sameNodes by_) hp.proofs
      fun name hn => by rwa [hp.proofsOwed]

theorem transact_owes_nothing {f : Folded} {calls : List FoldCall} (h : f.tables.proofsOwed = ∅) :
    (transact reading f calls).tables.proofsOwed = ∅ := by
  unfold transact
  split
  · rfl
  · exact h

/-- At every commit each test reference lands on the one live definition that answers it, its file's
before the project's, and each node's proof is the evidence of the references that land on it. -/
theorem proofs_landed {reading : Reading} {space : String → NodeKind}
    {transactions : List (List FoldCall)}
    (hC : Along (transact reading) (TransactionMeets reading (ProofCondition space)) .empty
      transactions) :
    let t := (run (transact reading) .empty transactions).tables
    (∀ row ∈ t.proofs, Lands (t.CallDefinition row.name) row.file row.target) ∧
      ∀ id n, t.nodes[id]? = some n → n.proof = t.evidenceOf id := by
  dsimp only
  obtain ⟨live, hreached⟩ := reaches_of_run hC
  have h := evidence_of_reached hreached
  have hpaid : (run (transact reading) .empty transactions).tables.proofsOwed = ∅ :=
    run_invariant (I := fun f : Folded => f.tables.proofsOwed = ∅)
      (fun _ _ h => transact_owes_nothing h) rfl transactions
  have hunowed : ∀ name, name ∉ (run (transact reading) .empty transactions).tables.proofsOwed := by
    rw [hpaid]
    exact fun name => Std.ExtTreeSet.not_mem_empty
  refine ⟨fun row hrow => ?_, fun id n hn => h.landing.proof id n hn fun row _ _ => hunowed _⟩
  exact (h.landing.lands row hrow (hunowed _)).congr fun id => (h.callDefinition_iff _ id).symm

/-! A name two identities give one entity, a field the one and a function the other. -/

def plainReading : Reading := ⟨fun _ => none, fun _ => none, fun _ _ => ""⟩

/-- A derived-index event of the log, keyed where a batch recorded it. -/
def indexEvent (position : Nat) (type_ : String) (key : Option String)
    (members : List (String × Json)) : Event where
  id := toString position
  stream := "p"
  type_ := type_
  data := .json (.obj members)
  meta_ := key.elim ∅ fun key => (∅ : Meta).insert metaReplayKey key
  validFrom := position
  recordedAt := position
  position := position
  revision := position

def definitionEvent (position : Nat) (name kind : String) (key : Option String) : Event :=
  indexEvent position typeCodeEntityExtracted key [("file", .str "a.rs"), ("name", .str name),
    ("kind", .str kind), ("line", .num 3), ("fresh", .bool true)]

def testEvent (position : Nat) (name : String) : Event :=
  indexEvent position typeEdgeInferred none [("file", .str "b.rs"), ("name", .str name),
    ("line", .num 4), ("is_test", .bool true)]

def sharedEntity : List (List FoldCall) :=
  [[.events [definitionEvent 1 "x" "field" none,
      definitionEvent 2 "x" "function" (some "gc/a.rs@h1#0"), testEvent 3 "x"]],
    [.events [definitionEvent 4 "y" "function" (some "gc/a.rs@h2#0")]]]

/-- The function's batch superseded, the reference stays on a field. -/
theorem proofs_not_landed : ¬∀ (reading : Reading) (transactions : List (List FoldCall)),
    let t := (run (transact reading) .empty transactions).tables
    (∀ row ∈ t.proofs, Lands (t.CallDefinition row.name) row.file row.target) ∧
      ∀ id n, t.nodes[id]? = some n → n.proof = t.evidenceOf id := by
  intro h
  have hrun : (run (transact plainReading) .empty sharedEntity).tables.proofs =
        [⟨"x", "b.rs", "b.rs:4", 3, some "a.rs::x"⟩] ∧
      (run (transact plainReading) .empty sharedEntity).tables.liveDefinition
          "a.rs::x" = false := by
    decide +kernel
  have hlands := (h plainReading sharedEntity).1
  rw [hrun.1] at hlands
  obtain ⟨n, -, -, -, hlive⟩ := (hlands _ (List.mem_singleton_self _)).definition
  rw [hrun.2] at hlive
  cases hlive

def provenEntity : List (List FoldCall) :=
  [[.events [definitionEvent 1 "x" "function" (some "gc/a.rs@h1#0"), testEvent 2 "x"]]]

def entitySpace (id : String) : NodeKind := if id = "a.rs" then .file else .codeEntity

theorem meets_provenEntity : Along (transact plainReading)
    (TransactionMeets plainReading (ProofCondition entitySpace)) .empty provenEntity := by
  have hfirst : ProofCondition entitySpace .empty
      (.of (definitionEvent 1 "x" "function" (some "gc/a.rs@h1#0")))
      (.codeEntityExtracted ⟨"a.rs", "x", none, none, "function", 3, "", true, false⟩) := by
    refine ⟨?_, fun c hc => ?_, fun row hrow => by cases hrow⟩
    · unfold OneKind
      decide +kernel
    · cases hc
      unfold DefinitionAgrees OthersAgree
      decide +kernel
  have hsecond : ∀ {t : Tables}, t.proofs = [] → ∀ p,
      Payload.ofEvent plainReading (testEvent 2 "x") = some p →
        ProofCondition entitySpace t (.of (testEvent 2 "x")) p := by
    intro t ht p hp
    have hread : Payload.ofEvent plainReading (testEvent 2 "x") =
        some (.edgeInferred ⟨"b.rs", "x", "", false, none, 4, true, false, none⟩) := by
      decide +kernel
    rw [hread, Option.some.injEq] at hp
    subst hp
    refine ⟨nofun, nofun, fun row hrow => ?_⟩
    rw [ht] at hrow
    cases hrow
  have hread : Payload.ofEvent plainReading
      (definitionEvent 1 "x" "function" (some "gc/a.rs@h1#0")) = some (.codeEntityExtracted
        ⟨"a.rs", "x", none, none, "function", 3, "", true, false⟩) := by decide +kernel
  refine ⟨⟨⟨fun _ p hp => ?_, fun s hs => ⟨fun _ => hsecond ?_, fun _ _ => True.intro⟩⟩,
    fun _ _ => True.intro⟩, True.intro⟩
  · rw [hread, Option.some.injEq] at hp
    subst hp
    exact hfirst
  · have hfolded : (foldOne plainReading (.empty, none)
        (definitionEvent 1 "x" "function" (some "gc/a.rs@h1#0"))).map (·.1.tables.proofs) =
          some [] := by decide +kernel
    rw [hs, Option.map_some, Option.some.injEq] at hfolded
    exact hfolded

theorem proofs_landed_provenEntity :
    let t := (run (transact plainReading) .empty provenEntity).tables
    (∀ row ∈ t.proofs, Lands (t.CallDefinition row.name) row.file row.target) ∧
      ∀ id n, t.nodes[id]? = some n → n.proof = t.evidenceOf id :=
  proofs_landed meets_provenEntity

end Rigger.Graph
