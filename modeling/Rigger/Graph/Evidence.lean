import Rigger.Graph.Names

/-!
# Where test proofs land

A committed test reference lands on the one live definition that answers its name: its file's, or
the project's where its file has none.  Between transactions every name whose definers changed has
been settled, so `Landing` holds of the rows whose name is not owed, and a node's proof is the
evidence of the rows it is the target of.
-/

namespace Rigger.Graph

open Lib

/-! ## The one that answers -/

/-- The one member of `p`. -/
def IsOnly {α : Type} (p : α → Prop) (a : α) : Prop := p a ∧ ∀ b, p b → b = a

theorem theOne_eq_some_iff {α : Type} {l : List α} (hl : l.Nodup) {a : α} :
    theOne l = some a ↔ IsOnly (· ∈ l) a := by
  unfold IsOnly
  match l with
  | [] => simp [theOne]
  | [b] => simp [theOne, eq_comm]
  | b :: c :: rest =>
    have hbc : b ≠ c := fun he => by simp [he] at hl
    simp only [theOne, reduceCtorEq, List.mem_cons, false_iff, not_and]
    intro _ honly
    exact hbc ((honly b (.inl rfl)).trans (honly c (.inr (.inl rfl))).symm)

theorem IsOnly.congr {α : Type} {p q : α → Prop} (h : ∀ a, p a ↔ q a) {a : α} :
    IsOnly p a ↔ IsOnly q a := by
  unfold IsOnly
  rw [h a]
  exact and_congr_right fun _ => forall_congr' fun b => by rw [h b]

/-- Where a reference from `file` lands, of the definitions that answer it. -/
def Lands (definition : String → Prop) (file : String) (target : Option String) : Prop :=
  ∀ id, target = some id ↔
    IsOnly (fun other => definition other ∧ idRange file other = true) id ∨
      (∀ other, definition other → idRange file other = false) ∧ IsOnly definition id

variable {p : String → Prop} {file name defined : String}

theorem Lands.congr {q : String → Prop} (h : ∀ id, p id ↔ q id) {target : Option String}
    (hlands : Lands p file target) : Lands q file target := by
  intro id
  rw [hlands id, IsOnly.congr h, IsOnly.congr fun other => and_congr_left' (h other)]
  simp only [h]

theorem Lands.definition {id : String} (h : Lands p file (some id)) : p id := by
  rcases (h id).1 rfl with hfile | hproject
  · exact hfile.1.1
  · exact hproject.2.1

namespace Tables

variable (t : Tables)

/-- A live call-target definition of a leaf: a code entity of the name that a live assertion
defines. -/
def CallDefinition (name id : String) : Prop :=
  ∃ n, t.nodes[id]? = some n ∧ n.kind = .codeEntity ∧ nodeLeaf n.attrs = some name ∧
    t.liveDefinition id = true

theorem nodup_leafDefinitions (leaf : String) (rule : String → Attrs → Bool)
    (file : Option String) : (t.leafDefinitions leaf rule file).Nodup := by
  have hkeys : t.nodes.keys.Nodup :=
    t.nodes.distinct_keys.imp fun hne he => hne (by rw [he]; exact Std.ReflCmp.compare_self)
  exact hkeys.filter _

theorem nodup_liveCallTargets (leaf : String) (file : Option String) :
    (t.liveCallTargets leaf file).Nodup := t.nodup_leafDefinitions _ _ _

variable {id : String}

theorem mem_liveCallTargets {leaf : String} {file : Option String} :
    id ∈ t.liveCallTargets leaf file ↔
      t.CallDefinition leaf id ∧ ∀ f, file = some f → idRange f id = true := by
  unfold liveCallTargets leafDefinitions CallDefinition
  rw [List.mem_filter, Std.ExtTreeMap.mem_keys, Option.any_eq_true]
  simp only [Bool.and_eq_true, beq_iff_eq, Option.all_eq_true]
  constructor
  · rintro ⟨-, n, hn, ⟨⟨hleaf, hkind⟩, hlive⟩, hfile⟩
    exact ⟨⟨n, hn, hkind, hleaf, hlive⟩, hfile⟩
  · rintro ⟨⟨n, hn, hkind, hleaf, hlive⟩, hfile⟩
    exact ⟨(Std.ExtTreeMap.mem_iff_isSome_getElem?).2 (by rw [hn]; rfl), n, hn,
      ⟨⟨hleaf, hkind⟩, hlive⟩, hfile⟩

theorem provenTarget_lands (name file : String) :
    Lands (t.CallDefinition name) file (t.provenTarget name file) := by
  have hsame : ∀ id, id ∈ t.sameFileCandidates file name ↔
      t.CallDefinition name id ∧ idRange file id = true := by
    intro id
    rw [sameFileCandidates, t.mem_liveCallTargets]
    simp
  have hproject : ∀ id, id ∈ t.liveCallTargets name none ↔ t.CallDefinition name id := by
    intro id
    rw [t.mem_liveCallTargets]
    simp
  intro id
  have hone := theOne_eq_some_iff (t.nodup_liveCallTargets name (some file)) (a := id)
  rw [← sameFileCandidates, IsOnly.congr hsame] at hone
  rw [← hone]
  unfold provenTarget
  cases hcandidates : t.sameFileCandidates file name with
  | nil =>
    rw [hcandidates] at hsame
    have hnone : ∀ other, t.CallDefinition name other → idRange file other = false := by
      intro other hdef
      rw [← Bool.not_eq_true]
      exact fun hrange => by simpa using (hsame other).2 ⟨hdef, hrange⟩
    have hproj := theOne_eq_some_iff (t.nodup_liveCallTargets name none) (a := id)
    rw [IsOnly.congr hproject] at hproj
    dsimp only
    simp only [theOne, reduceCtorEq, false_or, iff_true_intro hnone, true_and]
    exact hproj
  | cons one rest =>
    rw [hcandidates] at hsame
    have hsome : ¬∀ other, t.CallDefinition name other → idRange file other = false := by
      intro hnone
      obtain ⟨hdef, hrange⟩ := (hsame one).1 (List.mem_cons_self ..)
      simp [hnone one hdef] at hrange
    rw [iff_false_intro hsome, false_and, or_false]
    cases rest <;> simp [theOne]

/-! ## Writing proofs -/

theorem evidenceOf_congr {t t' : Tables}
    (h : t'.proofs.filter (·.target == some id) = t.proofs.filter (·.target == some id)) :
    t'.evidenceOf id = t.evidenceOf id := by
  unfold evidenceOf
  rw [h]

theorem evidenceOf_eq_nil (h : ∀ row ∈ t.proofs, row.target ≠ some id) : t.evidenceOf id = [] := by
  have hnone : t.proofs.filter (·.target == some id) = [] := by simpa using h
  unfold evidenceOf
  rw [hnone]
  rfl

theorem writeProofs_proofs (ids : List String) : SameProofs t (t.writeProofs ids) :=
  SameProofs.foldl (f := writeProof) (fun _ _ => ⟨rfl, rfl⟩) t ids

theorem writeProofs_evidenceOf (ids : List String) (id : String) :
    (t.writeProofs ids).evidenceOf id = t.evidenceOf id := by
  unfold evidenceOf
  rw [(t.writeProofs_proofs ids).proofs]

theorem writeProofs_retired (ids : List String) : (t.writeProofs ids).retired = t.retired := by
  unfold writeProofs
  induction ids generalizing t with
  | nil => rfl
  | cons id ids ih => exact ih (t.writeProof id)

theorem writeProofs_getElem? (ids : List String) (id : String) :
    (t.writeProofs ids).nodes[id]? = t.nodes[id]?.map fun n =>
      if id ∈ ids then { n with proof := t.evidenceOf id } else n := by
  unfold writeProofs
  induction ids generalizing t with
  | nil => simp
  | cons first ids ih =>
    have hwritten : (t.writeProof first).evidenceOf id = t.evidenceOf id := rfl
    rw [List.foldl_cons, ih, hwritten]
    show Option.map _ ((t.nodes.alter first _)[id]?) = _
    rw [Std.ExtTreeMap.getElem?_alter]
    by_cases he : first = id
    · subst he
      simp only [Std.ReflCmp.compare_self, if_true, Option.map_map, List.mem_cons, true_or]
      congr 1
      funext n
      simp
    · rw [if_neg fun hc => he (Std.LawfulEqCmp.eq_of_compare hc)]
      have hmem : id ∈ first :: ids ↔ id ∈ ids := by simp [Ne.symm he]
      simp only [hmem]

theorem mem_sortedSet {names : List String} {name : String} :
    name ∈ sortedSet names ↔ name ∈ names := by
  unfold sortedSet
  rw [Std.ExtTreeSet.mem_toList, Std.ExtTreeSet.mem_ofList, List.contains_iff_mem]

end Tables

/-! ## The invariant -/

/-- The live assertions that name a node agree with its row on whether they define it. -/
def Agrees (t : Tables) : Prop :=
  ∀ id n, t.nodes[id]? = some n → n.attrs.contains "name" = true →
    ∀ r ∈ t.liveAssertions id, r.attrs.contains "name" = true → defines r.attrs = defines n.attrs

/-- The proof rows have landed, but those of an owed name. -/
structure Landing (owed : String → Prop) (t : Tables) : Prop where
  lands : ∀ row ∈ t.proofs, ¬owed row.name →
    Lands (fun id => t.definitionName id = some row.name) row.file row.target
  proof : ∀ (id : String) (n : Node), t.nodes[id]? = some n →
    (∀ row ∈ t.proofs, row.target = some id → ¬owed row.name) → n.proof = t.evidenceOf id
  retired : ∀ (id : String) (n : Node), t.retired[id]? = some n → n.proof = []

namespace Landing

variable {owed owed' : String → Prop} {t t' : Tables}

theorem empty : Landing owed .empty := ⟨by simp [Tables.empty], by simp [Tables.empty],
  by simp [Tables.empty]⟩

/-- A row that lands nowhere owed lands on a definition, so what defines nothing is no target. -/
theorem no_target (h : Landing owed t) {id : String} (hid : t.definitionName id = none)
    (howed : ∀ row ∈ t.proofs, row.target = some id → ¬owed row.name) :
    ∀ row ∈ t.proofs, row.target ≠ some id := by
  intro row hrow htarget
  have hlands := h.lands row hrow (howed row hrow htarget)
  rw [htarget] at hlands
  have hdefined := hlands.definition
  rw [hid] at hdefined
  cases hdefined

/-- What leaves the rows alone and owes every name whose definers it changes, a node's proof as it
was or empty where it defined nothing. -/
theorem step (h : Landing owed t) (hproofs : t'.proofs = t.proofs)
    (howed : ∀ name, owed name → owed' name)
    (hnames : ∀ id name, ¬owed' name →
      (t'.definitionName id = some name ↔ t.definitionName id = some name))
    (hheld : ∀ (id : String) (n' : Node), t'.nodes[id]? = some n' →
      (∃ n : Node, t.nodes[id]? = some n ∧ n'.proof = n.proof) ∨
        t.definitionName id = none ∧ n'.proof = [])
    (hretired : ∀ (id : String) (n : Node), t'.retired[id]? = some n → n.proof = []) :
    Landing owed' t' where
  lands := by
    rw [hproofs]
    intro row hrow hnot
    exact (h.lands row hrow fun ho => hnot (howed _ ho)).congr fun id => (hnames id _ hnot).symm
  proof := by
    rw [hproofs]
    intro id n' hn' hrows
    have hevidence : t'.evidenceOf id = t.evidenceOf id := by
      unfold Tables.evidenceOf
      rw [hproofs]
    have hrows' : ∀ row ∈ t.proofs, row.target = some id → ¬owed row.name :=
      fun row hrow htarget ho => hrows row hrow htarget (howed _ ho)
    rw [hevidence]
    rcases hheld id n' hn' with ⟨n, hn, hproof⟩ | ⟨hnone, hproof⟩
    · rw [hproof]
      exact h.proof id n hn hrows'
    · rw [hproof, t.evidenceOf_eq_nil (h.no_target hnone hrows')]
  retired := hretired

end Landing

/-- What the tables keep between an event's steps; `owed` are the names still to settle. -/
structure Evidence (space : String → NodeKind) (pending : NodeAssertion → Prop)
    (owed : String → Prop) (t : Tables) : Prop where
  names : Names space pending t
  agrees : Agrees t
  landing : Landing owed t
  -- a superseded node that defines nothing is retired as it stands, its proof with it
  waiting : ∀ r ∈ t.nodeAssertions, pending r → t.liveAssertions r.node = [] →
    t.definitionName r.node = none → ∀ row ∈ t.proofs, row.target ≠ some r.node

/-- The nodes define what they defined, and are asserted as they were. -/
structure SameDefinitions (t t' : Tables) : Prop where
  names : KeepsNames t t'
  defines : ∀ (id : String) (n' : Node), t'.nodes[id]? = some n' →
    n'.attrs.contains "name" = true → ∃ n : Node, t.nodes[id]? = some n ∧
      n.attrs.contains "name" = true ∧ defines n'.attrs = defines n.attrs
  definitionName : ∀ id, t'.definitionName id = t.definitionName id

theorem KeepsNames.liveAssertions {t t' : Tables} (h : KeepsNames t t') (id : String) :
    t'.liveAssertions id = t.liveAssertions id := by
  unfold Tables.liveAssertions
  rw [h.nodeAssertions]
  exact List.filter_congr fun r hr => by rw [h.holds r hr]

theorem SameNodes.sameDefinitions {t t' : Tables} (h : SameNodes t t') : SameDefinitions t t' where
  names := h.keepsNames
  defines := fun _ n' hn' hname => ⟨n', h.nodes ▸ hn', hname, rfl⟩
  definitionName := Tables.definitionName_congr h.nodes

theorem SameDefinitions.trans {t t' t'' : Tables} (h : SameDefinitions t t')
    (h' : SameDefinitions t' t'') : SameDefinitions t t'' where
  names := h.names.trans h'.names
  defines := by
    intro id n'' hn'' hname
    obtain ⟨n', hn', hname', hdefines'⟩ := h'.defines id n'' hn'' hname
    obtain ⟨n, hn, hname, hdefines⟩ := h.defines id n' hn' hname'
    exact ⟨n, hn, hname, hdefines'.trans hdefines⟩
  definitionName := fun id => (h'.definitionName id).trans (h.definitionName id)

theorem Tables.proofsChanged_sameDefinitions (t : Tables) (proofs : List ProofRow)
    (owed : Std.ExtTreeSet String) :
    SameDefinitions t { t with proofs := proofs, proofsOwed := owed } :=
  SameNodes.sameDefinitions ⟨rfl, rfl, rfl, rfl, rfl⟩

theorem Agrees.frame {t t' : Tables} (h : Agrees t) (hs : SameDefinitions t t') : Agrees t' := by
  intro id n' hn' hname r hr hrname
  obtain ⟨n, hn, hnname, hdefines⟩ := hs.defines id n' hn' hname
  rw [hs.names.liveAssertions] at hr
  rw [hdefines]
  exact h id n hn hnname r hr hrname

namespace Evidence

variable {space : String → NodeKind} {pending : NodeAssertion → Prop} {owed owed' : String → Prop}
  {t t' : Tables} {by_ : Asserter}

theorem empty : Evidence space pending owed .empty :=
  ⟨.empty, by simp [Agrees, Tables.empty], .empty, by simp [Tables.empty]⟩

theorem frame (h : Evidence space pending owed t) (hs : SameDefinitions t t')
    (hproofs : t'.proofs = t.proofs) (howed : ∀ name, owed name → owed' name)
    (hheld : ∀ (id : String) (n' : Node), t'.nodes[id]? = some n' →
      (∃ n : Node, t.nodes[id]? = some n ∧ n'.proof = n.proof) ∨
        t.definitionName id = none ∧ n'.proof = [])
    (hretired : ∀ (id : String) (n : Node), t'.retired[id]? = some n → n.proof = []) :
    Evidence space pending owed' t' where
  names := h.names.frame hs.names
  agrees := h.agrees.frame hs
  landing := h.landing.step hproofs howed
    (fun id name _ => by rw [hs.definitionName]) hheld hretired
  waiting := by
    rw [hs.names.nodeAssertions, hproofs]
    intro r hr hp hlive hname
    rw [hs.names.liveAssertions] at hlive
    rw [hs.definitionName] at hname
    exact h.waiting r hr hp hlive hname

theorem sameNodes (h : Evidence space pending owed t) (hs : SameNodes t t')
    (hproofs : t'.proofs = t.proofs) (howed : ∀ name, owed name → owed' name) :
    Evidence space pending owed' t' :=
  h.frame hs.sameDefinitions hproofs howed
    (fun _ n' hn' => .inl ⟨n', hs.nodes ▸ hn', rfl⟩)
    fun id n hn => h.landing.retired id n (hs.retired ▸ hn)

theorem mono (h : Evidence space pending owed t) {pending' : NodeAssertion → Prop}
    (hp : ∀ r ∈ t.nodeAssertions, pending r ↔ pending' r) : Evidence space pending' owed t :=
  ⟨h.names.mono hp, h.agrees, h.landing,
    fun r hr hpend => h.waiting r hr ((hp r hr).2 hpend)⟩

end Evidence

/-! ## Asserting a node -/

theorem patch_defines {attrs asserted : Attrs}
    (hkeys : asserted.contains "kind" = asserted.contains "name") :
    defines (patch attrs asserted) =
      if asserted.contains "name" then defines asserted else defines attrs := by
  cases hname : asserted.contains "name" with
  | true =>
    rw [if_pos rfl]
    have hkind := hkeys.trans hname
    rw [Std.ExtTreeMap.contains_eq_isSome_getElem?, Option.isSome_iff_exists] at hname hkind
    obtain ⟨name, hname⟩ := hname
    obtain ⟨kind, hkind⟩ := hkind
    exact defines_congr (by rw [patch_getElem?, hname, Option.some_or])
      (by rw [patch_getElem?, hkind, Option.some_or])
  | false =>
    rw [if_neg Bool.false_ne_true]
    have hkind := hkeys.trans hname
    rw [contains_eq_false_iff] at hname hkind
    exact defines_congr (by rw [patch_getElem?, hname, Option.none_or])
      (by rw [patch_getElem?, hkind, Option.none_or])

namespace Tables

variable (t : Tables) (by_ : Asserter) (id : String) (kind : NodeKind)

theorem upserted_defines (held : Option Node) {asserted : Attrs}
    (hkeys : asserted.contains "kind" = asserted.contains "name")
    (hname : asserted.contains "name" = true) :
    defines (upserted held kind asserted).attrs = defines asserted := by
  cases held with
  | none => rfl
  | some n =>
    show defines (patch n.attrs asserted) = _
    rw [patch_defines hkeys, if_pos hname]

theorem upserted_proof (attrs : Attrs) : (upserted (t.restored id kind) kind attrs).proof =
    (((t.nodes[id]?).or (t.retired[id]?)).map Node.proof).getD [] := by
  unfold restored upserted
  cases t.nodes[id]? with
  | some n => rfl
  | none => cases t.retired[id]? <;> rfl

/-- The row asserting leaves: the upserted one, its name and kind as upserted while it is named. -/
theorem ensureNode_self {attrs : List (String × String)} (hrows : DistinctRows t.nodeAssertions)
    {n' : Node} (hn' : (t.ensureNode by_ id kind attrs).nodes[id]? = some n') :
    let row := upserted (t.restored id kind) kind (.ofList attrs)
    n'.proof = row.proof ∧ (n'.attrs = row.attrs ∨
      ∃ r ∈ t.nodeAssertions, n'.attrs = retract row.attrs r.attrs
        (((t.ensureNode by_ id kind attrs).liveAssertions id).map NodeAssertion.attrs)) := by
  obtain ⟨-, -, -, hself⟩ := t.ensureNode_cases by_ id kind hrows attrs
  dsimp only
  rcases hself with ⟨hself, -⟩ | ⟨r, hr, -, -, hself⟩
  · rw [hself] at hn'
    cases hn'
    exact ⟨rfl, .inl rfl⟩
  · rw [hself] at hn'
    obtain ⟨settled, -, rfl⟩ := Option.map_eq_some_iff.1 hn'
    exact ⟨rfl, .inr ⟨r, hr, rfl⟩⟩

theorem ensureNode_holds (hrows : DistinctRows t.nodeAssertions)
    (attrs : List (String × String)) : (t.ensureNode by_ id kind attrs).holds = t.holds := by
  funext r
  simp only [holds, currentGeneration, (t.ensureNode_cases by_ id kind hrows attrs).2.1]

/-- Asserting one node leaves the live assertions of the others. -/
theorem ensureNode_liveAssertions_ne (hrows : DistinctRows t.nodeAssertions)
    (attrs : List (String × String)) {other : String} (h : other ≠ id) :
    (t.ensureNode by_ id kind attrs).liveAssertions other = t.liveAssertions other := by
  unfold liveAssertions
  rw [t.ensureNode_holds by_ id kind hrows attrs]
  refine (t.ensureNode_cases by_ id kind hrows attrs).1.filter_eq fun r hr => ?_
  simp [hr, Ne.symm h]

end Tables

/-- The other identities' live assertions that name the node agree with the asserted attrs on
whether they define it. -/
def OthersAgree (t : Tables) (by_ : Asserter) (id : String) (asserted : Attrs) : Prop :=
  ∀ r ∈ t.liveAssertions id, r.identity ≠ by_.identity → r.attrs.contains "name" = true →
    defines r.attrs = defines asserted

theorem Asserter.Current.liveAssertions_ne_nil {by_ : Asserter} {t : Tables}
    (h : by_.Current t) (hrows : DistinctRows t.nodeAssertions) (id : String) (kind : NodeKind)
    (attrs : List (String × String)) :
    (t.ensureNode by_ id kind attrs).liveAssertions id ≠ [] := by
  obtain ⟨hrec, -⟩ := t.ensureNode_cases by_ id kind hrows attrs
  obtain ⟨own, hof, hgen, hmem, -⟩ := hrec.own
  obtain ⟨hownId, hownNode⟩ := NodeAssertion.isOf_iff.1 hof
  refine List.ne_nil_of_mem
    (Tables.mem_liveAssertions _ |>.2 ⟨(hmem own).2 (.inl rfl), hownNode, ?_⟩)
  rw [t.ensureNode_holds by_ id kind hrows attrs]
  exact h.holds hownId hgen

namespace Evidence

variable {space : String → NodeKind} {pending : NodeAssertion → Prop} {owed owed' : String → Prop}
  {t t' : Tables} {by_ : Asserter} {attrs : List (String × String)} {kind : NodeKind} {id : String}

theorem agrees_ensureNode (h : Evidence space pending owed t) (hcurrent : by_.Current t)
    (hkind : kind = .artifact ∨ kind = space id) (hattrs : Asserts kind attrs)
    (hensured : Names space pending (t.ensureNode by_ id kind attrs))
    (hothers : (Std.ExtTreeMap.ofList attrs : Attrs).contains "name" = true →
      OthersAgree t by_ id (.ofList attrs)) : Agrees (t.ensureNode by_ id kind attrs) := by
  intro other n' hn' hname r hr hrname
  have hrows := h.names.rows.distinct
  obtain ⟨hrec, hgens, hne, -⟩ := t.ensureNode_cases by_ id kind hrows attrs
  by_cases hother : other = id
  swap
  · rw [hne other hother] at hn'
    rw [t.ensureNode_liveAssertions_ne by_ id kind hrows attrs hother] at hr
    exact h.agrees other n' hn' hname r hr hrname
  subst hother
  obtain ⟨hkeys, -⟩ := hattrs.keys
  -- the row defines what was upserted
  have hrow : (Tables.upserted (t.restored other kind) kind (.ofList attrs)).attrs.contains "name" =
      true ∧ defines n'.attrs =
        defines (Tables.upserted (t.restored other kind) kind (.ofList attrs)).attrs := by
    obtain ⟨-, hself | ⟨old, hold, hself⟩⟩ := t.ensureNode_self by_ other kind hrows hn'
    · rw [hself] at hname ⊢
      exact ⟨hname, rfl⟩
    · rw [hself] at hname ⊢
      obtain ⟨hkeepName, hkeepKind⟩ := retract_keys (h.names.recorded old hold).keys
        (fun x hx => (hensured.recorded x (Tables.mem_liveAssertions _ |>.1 hx).1).keys) hname
      refine ⟨?_, defines_congr hkeepName hkeepKind⟩
      rw [Std.ExtTreeMap.contains_eq_isSome_getElem?] at hname ⊢
      rwa [← hkeepName]
  rw [hrow.2]
  obtain ⟨own, hof, hgen, hmem, hown⟩ := hrec.own
  obtain ⟨hrmem, hrnode, hrholds⟩ := (Tables.mem_liveAssertions _).1 hr
  rw [t.ensureNode_holds by_ other kind hrows attrs] at hrholds
  -- a row of another identity was live before
  have hforeign : r ≠ own → r ∈ t.liveAssertions other ∧ r.identity ≠ by_.identity := by
    intro hrown
    obtain ⟨hrt, hrof⟩ := ((hmem r).1 hrmem).resolve_left hrown
    refine ⟨t.mem_liveAssertions.2 ⟨hrt, hrnode, hrholds⟩, fun hid => ?_⟩
    rw [NodeAssertion.isOf_iff.2 ⟨hid, hrnode⟩] at hrof
    cases hrof
  cases hasserted : (Std.ExtTreeMap.ofList attrs : Attrs).contains "name" with
  | true =>
    rw [Tables.upserted_defines kind _ hkeys hasserted]
    by_cases hrown : r = own
    · subst hrown
      rcases hown with ⟨-, hoa, -⟩ | ⟨old, -, -, -, -, hoa⟩
      · rw [hoa]
      · rw [hoa, patch_defines hkeys, if_pos hasserted]
    · obtain ⟨hlive, hid⟩ := hforeign hrown
      exact hothers hasserted r hlive hid hrname
  | false =>
    obtain ⟨n, hn, hnname, -⟩ := (h.names.upserted_name hrow.1).resolve_left (by simp [hasserted])
    have hdefines : defines (Tables.upserted (t.restored other kind) kind (.ofList attrs)).attrs =
        defines n.attrs := by
      unfold Tables.restored Tables.upserted
      rw [hn, Option.some_or]
      show defines (patch n.attrs _) = _
      rw [patch_defines hkeys, hasserted, if_neg Bool.false_ne_true]
    rw [hdefines]
    by_cases hrown : r = own
    · subst hrown
      rcases hown with ⟨-, hoa, -⟩ | ⟨old, hold, holdof, holdgen, -, hoa⟩
      · rw [hoa, hasserted] at hrname
        cases hrname
      · obtain ⟨holdid, holdnode⟩ := NodeAssertion.isOf_iff.1 holdof
        rw [hoa, patch_contains, hasserted, Bool.or_false] at hrname
        rw [hoa, patch_defines hkeys, hasserted, if_neg Bool.false_ne_true]
        exact h.agrees other n hn hnname old
          (t.mem_liveAssertions.2 ⟨hold, holdnode, hcurrent.holds holdid holdgen⟩) hrname
    · exact h.agrees other n hn hnname r (hforeign hrown).1 hrname

/-- Asserting a node keeps the invariant, where what changes of its definition is owed. -/
theorem ensureNode (h : Evidence space pending owed t)
    (hpending : ∀ r, pending r → r.identity = by_.identity ∧ r.generation ≠ by_.generation)
    (hby : by_.Known) (hcurrent : by_.Current t) (hkind : kind = .artifact ∨ kind = space id)
    (hattrs : Asserts kind attrs)
    (hothers : (Std.ExtTreeMap.ofList attrs : Attrs).contains "name" = true →
      OthersAgree t by_ id (.ofList attrs)) (howed : ∀ name, owed name → owed' name)
    (hnames : ∀ name, ¬owed' name →
      ((t.ensureNode by_ id kind attrs).definitionName id = some name ↔
      t.definitionName id = some name)) :
    Evidence space pending owed' (t.ensureNode by_ id kind attrs) := by
  have hrows := h.names.rows.distinct
  have hensured := h.names.ensureNode hpending hby hcurrent hkind hattrs
  have hproofs := (t.ensureNode_proofs by_ id kind hrows attrs).1
  obtain ⟨hrec, -, hne, -⟩ := t.ensureNode_cases by_ id kind hrows attrs
  have hlive := hcurrent.liveAssertions_ne_nil hrows id kind attrs
  have hnameNe : ∀ other, other ≠ id →
      (t.ensureNode by_ id kind attrs).definitionName other = t.definitionName other := by
    intro other hother
    rw [definitionName_eq, definitionName_eq, hne other hother]
  refine ⟨hensured, h.agrees_ensureNode hcurrent hkind hattrs hensured hothers,
    h.landing.step hproofs howed ?_ ?_ ?_, ?_⟩
  · intro other name hnot
    by_cases hother : other = id
    · subst hother
      exact hnames name hnot
    · rw [hnameNe other hother]
  · intro other n' hn'
    by_cases hother : other = id
    · subst hother
      obtain ⟨hproof, -⟩ := t.ensureNode_self by_ other kind hrows hn'
      rw [hproof, t.upserted_proof]
      cases hheld : t.nodes[other]? with
      | some n => exact .inl ⟨n, rfl, rfl⟩
      | none =>
        refine .inr ⟨by rw [definitionName_eq, hheld]; rfl, ?_⟩
        cases hretired : t.retired[other]? with
        | none => rfl
        | some n => exact h.landing.retired other n hretired
    · rw [hne other hother] at hn'
      exact .inl ⟨n', hn', rfl⟩
  · intro other n hn
    by_cases hother : other = id
    · subst hother
      rw [t.ensureNode_retired_self by_ other kind hrows attrs hlive] at hn
      cases hn
    · rw [t.ensureNode_retired_ne by_ id kind hrows attrs hother] at hn
      exact h.landing.retired other n hn
  · intro r hr hp hdead hname
    obtain ⟨own, -, hgen, hmem, -⟩ := hrec.own
    have hrt : r ∈ t.nodeAssertions := by
      rcases (hmem r).1 hr with rfl | ⟨hr, -⟩
      · exact absurd hgen (hpending r hp).2
      · exact hr
    by_cases hother : r.node = id
    · exact absurd (hother ▸ hdead) hlive
    · rw [t.ensureNode_liveAssertions_ne by_ id kind hrows attrs hother] at hdead
      rw [hnameNe _ hother] at hname
      rw [hproofs]
      exact h.waiting r hrt hp hdead hname

theorem ensurePlain (h : Evidence space pending owed t)
    (hpending : ∀ r, pending r → r.identity = by_.identity ∧ r.generation ≠ by_.generation)
    (hby : by_.Known) (hcurrent : by_.Current t) (hkind : kind = .artifact ∨ kind = space id)
    (hplain : Plain attrs) (howed : ∀ name, owed name → owed' name)
    (hensured : ∀ name ∈ (t.ensureNode by_ id kind attrs).proofsOwed, owed' name) :
    Evidence space pending owed' (t.ensureNode by_ id kind attrs) := by
  refine h.ensureNode hpending hby hcurrent hkind (.inl hplain) (fun hname => ?_) howed
    fun name hnot => ?_
  · rw [contains_eq_false_iff.2 hplain.name] at hname
    cases hname
  · have hwritten := h.names.written_definitionName id kind hplain
    rcases h.names.ensureNode_definitionName hpending hby hcurrent hkind
      (.inl hplain) with heq | hnone
    · rw [heq, hwritten]
    · rw [hnone]
      refine ⟨nofun, fun he => ?_⟩
      refine absurd (hensured name ?_) hnot
      refine (t.ensureNode_proofs by_ id kind h.names.rows.distinct attrs).2.2 name ?_ ?_
      · rw [hwritten, he]
      · rw [hnone]
        exact (Option.some_ne_none name).symm

/-! ## Settling a node -/

theorem stripped_proof (u : Tables) (id : String) (defined : Option String) {n : Node}
    (h : n.proof = []) : (u.stripped id defined n).proof = [] := by
  unfold Tables.stripped
  split
  · split
    · exact h
    · rfl
  · exact h

theorem settleNode (h : Evidence space pending (· ∈ t.proofsOwed) t) {r : NodeAssertion}
    (hr : r ∈ t.nodeAssertions) (hp : pending r) (at_ : Int) :
    Evidence space (fun x => pending x ∧ x.node ≠ r.node)
      (· ∈ (t.settleNode r.node r.attrs at_).proofsOwed) (t.settleNode r.node r.attrs at_) := by
  have hnameNe : ∀ other, other ≠ r.node →
      (t.settleNode r.node r.attrs at_).definitionName other = t.definitionName other := by
    intro other hother
    rw [definitionName_eq, definitionName_eq, t.settleNode_ne _ _ _ hother]
  have hself : ∀ n', (t.settleNode r.node r.attrs at_).nodes[r.node]? = some n' → ∃ n,
      t.nodes[r.node]? = some n ∧ n'.proof = n.proof ∧ n'.attrs = retract n.attrs r.attrs
        ((t.liveAssertions r.node).map NodeAssertion.attrs) := by
    intro n' hn'
    rw [t.settleNode_self, Tables.settledNode] at hn'
    split at hn'
    · obtain ⟨n, hn, rfl⟩ := Option.map_eq_some_iff.1 hn'
      exact ⟨n, hn, rfl, rfl⟩
    · cases hn'
  refine ⟨h.names.settleNode hr hp at_, ?_,
    h.landing.step (t.settleNode_proofs _ _ _) ?_ ?_ ?_ ?_, ?_⟩
  · intro other n' hn' hname x hx hxname
    rw [t.settleNode_liveAssertions] at hx
    by_cases hother : other = r.node
    · subst hother
      obtain ⟨n, hn, -, hattrs⟩ := hself n' hn'
      rw [hattrs] at hname ⊢
      obtain ⟨hkeepName, hkeepKind⟩ := retract_keys (h.names.recorded r hr).keys
        (fun y hy => (h.names.recorded y (t.mem_liveAssertions.1 hy).1).keys) hname
      rw [defines_congr hkeepName hkeepKind]
      refine h.agrees _ n hn ?_ x hx hxname
      rw [Std.ExtTreeMap.contains_eq_isSome_getElem?] at hname ⊢
      rwa [← hkeepName]
    · rw [t.settleNode_ne _ _ _ hother] at hn'
      exact h.agrees other n' hn' hname x hx hxname
  · exact fun name hname => (t.mem_settleNode_owed _ _ _ name).2 (.inl hname)
  · intro other name hnot
    by_cases hother : other = r.node
    · subst hother
      rcases h.names.settleNode_definitionName hr hp at_ with heq | hnone
      · rw [heq]
      · rw [hnone]
        refine ⟨fun he => (Option.some_ne_none name he.symm).elim, fun he => ?_⟩
        refine absurd ((t.mem_settleNode_owed _ _ _ name).2 (.inr ⟨he, ?_⟩)) hnot
        rw [hnone]
        exact (Option.some_ne_none name).symm
    · rw [hnameNe other hother]
  · intro other n' hn'
    by_cases hother : other = r.node
    · subst hother
      obtain ⟨n, hn, hproof, -⟩ := hself n' hn'
      exact .inl ⟨n, hn, hproof⟩
    · rw [t.settleNode_ne _ _ _ hother] at hn'
      exact .inl ⟨n', hn', rfl⟩
  · intro other n' hn'
    by_cases hother : other = r.node
    swap
    · rw [t.settleNode_retired_ne _ _ _ hother] at hn'
      exact h.landing.retired other n' hn'
    subst hother
    by_cases hlive : t.liveAssertions r.node = []
    swap
    · obtain ⟨u, hu⟩ := t.settleNode_retired_of_live r.node r.attrs at_ hlive
      rw [hu] at hn'
      obtain ⟨n, hn, rfl⟩ := Option.map_eq_some_iff.1 hn'
      exact stripped_proof _ _ _ (h.landing.retired _ n hn)
    · -- the node is retired: stripped of its proof where it defined a name, else proving nothing
      obtain ⟨u, hunheld, hu⟩ := t.settleNode_retired_of_dead r.node r.attrs at_ hlive
      rw [hu] at hn'
      obtain ⟨n, hn, rfl⟩ := Option.map_eq_some_iff.1 hn'
      cases hname : t.definitionName r.node with
      | some name =>
        have hundefined : u.definitionName r.node ≠ some name := by
          rw [definitionName_eq, hunheld]
          exact (Option.some_ne_none name).symm
        unfold Tables.stripped
        dsimp only
        rw [if_neg hundefined]
      | none =>
        refine stripped_proof _ _ _ ?_
        show n.proof = []
        have huntargeted := h.waiting r hr hp hlive hname
        cases hheld : t.nodes[r.node]? with
        | some held =>
          rw [hheld, Option.some_or, Option.some.injEq] at hn
          subst hn
          rw [h.landing.proof _ _ hheld fun row hrow ht => absurd ht (huntargeted row hrow),
            t.evidenceOf_eq_nil huntargeted]
        | none =>
          rw [hheld, Option.none_or] at hn
          exact h.landing.retired _ n hn
  · rw [t.settleNode_nodeAssertions, t.settleNode_proofs]
    intro x hx hpx hlive hname
    rw [t.settleNode_liveAssertions] at hlive
    rw [hnameNe _ hpx.2] at hname
    exact h.waiting x hx hpx.1 hlive hname

end Evidence

/-! ## Opening a generation -/

/-- A node a proof has yet to leave, which defines nothing now, keeps a live assertion as the
event's generation opens. -/
def KeepsTargets (t : Tables) (by_ : Asserter) : Prop :=
  ∀ row ∈ t.proofs, ∀ id, row.target = some id → t.definitionName id = none →
    t.liveAssertions id ≠ [] → (t.advanceGeneration by_).1.liveAssertions id ≠ []

namespace Evidence

variable {space : String → NodeKind} {t : Tables} {by_ : Asserter}

theorem began (h : Evidence space (fun _ => False) (· ∈ t.proofsOwed) t) (hid : by_.identity ≠ "")
    (hnone : t.currentGeneration by_.identity = none) :
    Evidence space (fun _ => False) (· ∈ (t.began by_).proofsOwed) (t.began by_) := by
  have hsame : SameDefinitions t (t.began by_) := ⟨h.names.began_keepsNames hid hnone,
    fun _ n hn hname => ⟨n, hn, hname, rfl⟩, fun _ => rfl⟩
  exact h.frame hsame rfl (fun _ h => h) (fun _ n hn => .inl ⟨n, hn, rfl⟩) h.landing.retired

theorem opened (h : Evidence space (fun _ => False) (· ∈ t.proofsOwed) t) {prior : String}
    (hid : by_.identity ≠ "") (hprior : t.currentGeneration by_.identity = some prior)
    (hne : prior ≠ by_.generation) (hkeeps : ∀ row ∈ t.proofs, ∀ id, row.target = some id →
      t.definitionName id = none → t.liveAssertions id ≠ [] →
      (t.opened by_ prior).liveAssertions id ≠ []) :
    Evidence space (by_.Pending (some prior)) (· ∈ t.proofsOwed) (t.opened by_ prior) where
  names := h.names.opened hid hprior
  agrees := by
    intro id n hn hname r hr hrname
    rw [t.opened_liveAssertions by_ hid hne] at hr
    exact h.agrees id n hn hname r (List.mem_filter.1 hr).1 hrname
  landing := ⟨h.landing.lands, h.landing.proof, h.landing.retired⟩
  waiting := by
    intro r hr hp hdead hname row hrow htarget
    have hrt := ((t.mem_opened by_).1 hr).1
    have hgen := ((t.mem_opened by_).1 hr).2 hp.1
    -- the superseded row was live until now
    have hlive : t.liveAssertions r.node ≠ [] := by
      refine List.ne_nil_of_mem (t.mem_liveAssertions.2 ⟨hrt, rfl, ?_⟩)
      rw [t.holds_iff, hp.1, hprior, hgen]
      exact .inr rfl
    exact hkeeps row hrow r.node htarget hname hlive hdead

theorem settling (space : String → NodeKind) (by_ : Asserter) :
    Settling by_ (KeepsTargets · by_)
      fun pending _ t => Evidence space pending (· ∈ t.proofsOwed) t where
  rows := fun h => h.names.rows
  mono := fun hp h => h.mono hp
  first := fun hid hnone h => h.began hid hnone
  supersede := by
    intro live t prior hid hprior hne hkeeps h
    have hs := t.settledEdges_sameNodes by_ prior
    have hp : SameProofs (t.opened by_ prior) (t.settledEdges by_ prior) :=
      Tables.settleEdges_sameProofs _ _ _
    have hadvanced : (t.advanceGeneration by_).1 = t.settledEdges by_ prior := by
      rcases t.advanceGeneration_cases by_ with ⟨-, hcurrent⟩ | ⟨-, hnone, -⟩ |
        ⟨prior', -, hprior', -, heq⟩
      · rw [hprior, Option.some.injEq] at hcurrent
        exact absurd (hcurrent.resolve_left hid) hne
      · rw [hprior] at hnone
        cases hnone
      · rw [hprior, Option.some.injEq] at hprior'
        rw [heq, hprior']
        rfl
    have hopened := h.opened hid hprior hne fun row hrow id ht hn hl => by
      have := hkeeps row hrow id ht hn hl
      rwa [hadvanced, hs.keepsNames.liveAssertions] at this
    refine hopened.sameNodes hs hp.proofs fun name hname => ?_
    rw [hp.proofsOwed]
    exact hname
  settle := fun hr hp h => h.settleNode hr hp _

end Evidence

/-! ## Every arm -/

/-- A row's rewriting that keeps its kind, and the name and kind it carries. -/
theorem SameDefinitions.alter (t : Tables) (id : String) {f : Node → Node}
    (hk : ∀ n, (f n).kind = n.kind) (hname : ∀ n, (f n).attrs["name"]? = n.attrs["name"]?)
    (hkind : ∀ n, (f n).attrs["kind"]? = n.attrs["kind"]?) :
    SameDefinitions t { t with nodes := t.nodes.alter id fun n => n.map f } where
  names := .alter t id hk fun n name h => hname n ▸ h
  defines := by
    intro other n' hn' hnamed
    have hget : (t.nodes.alter id fun n => n.map f)[other]? = some n' := hn'
    rw [alter_map_getElem?] at hget
    obtain ⟨n, hn, rfl⟩ := Option.map_eq_some_iff.1 hget
    refine ⟨n, hn, ?_⟩
    split at hnamed
    case isTrue he =>
      rw [if_pos he, defines_congr (hname n) (hkind n)]
      rw [Std.ExtTreeMap.contains_eq_isSome_getElem?, hname,
        ← Std.ExtTreeMap.contains_eq_isSome_getElem?] at hnamed
      exact ⟨hnamed, rfl⟩
    case isFalse he =>
      rw [if_neg he]
      exact ⟨hnamed, rfl⟩
  definitionName := by
    intro other
    rw [definitionName_eq, definitionName_eq]
    show ((t.nodes.alter id fun n => n.map f)[other]?).bind nameOf = _
    rw [alter_map_getElem?, Option.bind_map]
    congr 1
    funext n
    rw [Function.comp_apply]
    split
    · exact nameOf_congr (hk n) (hname n) (hkind n)
    · rfl

namespace Tables

variable (t : Tables)

theorem aliased_sameDefinitions (aliases : Std.ExtTreeMap String String) :
    SameDefinitions t { t with aliases := aliases } :=
  ⟨t.aliased_keepsNames aliases, fun _ n hn hname => ⟨n, hn, hname, rfl⟩, fun _ => rfl⟩

theorem markUpheld_sameDefinitions (unit finding : String) :
    SameDefinitions t (t.markUpheld unit finding) := by
  refine .alter t finding (fun n => by split <;> rfl) (fun n => ?_) fun n => ?_ <;>
  · split
    · rw [Std.ExtTreeMap.getElem?_insert, if_neg (by decide), Std.ExtTreeMap.getElem?_insert,
        if_neg (by decide)]
    · rfl

theorem relabel_sameDefinitions (community : String) : SameDefinitions t (t.relabel community) := by
  refine .alter t community (fun n => by split <;> rfl) (fun n => ?_) fun n => ?_ <;>
  · split
    · rw [Std.ExtTreeMap.getElem?_insert, if_neg (by decide)]
    · rfl

theorem dropMemberless_sameDefinitions {kind : NodeKind}
    (hkind : kind = .community ∨ kind = .concept)
    (grain : String) (rel : Rel) : SameDefinitions t (t.dropMemberless grain kind rel) where
  names := t.dropMemberless_keepsNames grain kind rel
  defines := by
    intro id n' hn' hname
    rw [dropMemberless_getElem?] at hn'
    exact ⟨n', (Option.filter_eq_some_iff.1 hn').1, hname, rfl⟩
  definitionName := by
    intro id
    rw [definitionName_eq, definitionName_eq, dropMemberless_getElem?]
    cases t.nodes[id]? with
    | none => rfl
    | some n =>
      by_cases hn : n.kind = kind
      · have hcode : n.kind ≠ .codeEntity := by
          rw [hn]
          rcases hkind with rfl | rfl <;> decide
        rw [Option.filter_some]
        split
        · rfl
        · exact (nameOf_of_ne hcode).symm
      · rw [Option.filter_some, if_pos (by simp [hn])]

end Tables

theorem Tables.writeProofs_sameDefinitions (t : Tables) (ids : List String) :
    SameDefinitions t (t.writeProofs ids) where
  names := t.writeProofs_keepsNames ids
  defines := by
    intro id n' hn' hname
    rw [writeProofs_getElem?] at hn'
    obtain ⟨n, hn, rfl⟩ := Option.map_eq_some_iff.1 hn'
    refine ⟨n, hn, ?_⟩
    split at hname <;> split <;> exact ⟨hname, rfl⟩
  definitionName := by
    intro id
    rw [definitionName_eq, definitionName_eq, writeProofs_getElem?, Option.bind_map]
    congr 1
    funext n
    rw [Function.comp_apply]
    split <;> rfl

namespace Names

variable {space : String → NodeKind} {pending : NodeAssertion → Prop} {t : Tables} {id : String}

theorem community_definitionName (h : Names space pending t) (hspace : space id = .community) :
    t.definitionName id = none := by
  rw [definitionName_eq]
  cases hn : t.nodes[id]? with
  | none => rfl
  | some n =>
    refine nameOf_of_ne ?_
    rcases h.nodeKind id n hn with hk | hk
    · rw [hk]
      decide
    · rw [hk, hspace]
      decide

theorem overwriteAttrs_sameDefinitions (h : Names space pending t) (hspace : space id = .community)
    {attrs : List (String × String)} (hplain : Plain attrs) :
    SameDefinitions t (t.overwriteAttrs id (.ofList attrs)) := by
  have hget : ∀ other, (t.overwriteAttrs id (.ofList attrs)).nodes[other]? =
      t.nodes[other]?.map fun n =>
        if other = id then { n with attrs := .ofList attrs, proof := [] } else n :=
    fun other => alter_map_getElem? t.nodes id _ other
  refine ⟨t.overwriteAttrs_keepsNames id hplain, ?_, ?_⟩
  · intro other n' hn' hname
    rw [hget] at hn'
    obtain ⟨n, hn, rfl⟩ := Option.map_eq_some_iff.1 hn'
    refine ⟨n, hn, ?_⟩
    split at hname
    · rw [contains_eq_false_iff.2 hplain.name] at hname
      cases hname
    case isFalse he =>
      rw [if_neg he]
      exact ⟨hname, rfl⟩
  · intro other
    by_cases he : other = id
    · subst he
      rw [h.community_definitionName hspace, definitionName_eq, hget]
      cases t.nodes[other]? with
      | none => rfl
      | some n =>
        simp only [Option.map_some, if_true, Option.bind_some]
        exact nameOf_unnamed (contains_eq_false_iff.2 hplain.name)
    · rw [definitionName_eq, definitionName_eq, hget]
      simp [he]

end Names

/-- What holds within an event whose arm has yet to owe the names of `extra`. -/
def Unsettled (space : String → NodeKind) (by_ : Asserter) (prior : Option String)
    (extra : String → Prop) (_ : List Assertion) (t : Tables) : Prop :=
  Evidence space (by_.Pending prior) (fun name => name ∈ t.proofsOwed ∨ extra name) t ∧
    by_.Current t ∧ prior ≠ some by_.generation

namespace Unsettled

variable {space : String → NodeKind} {by_ : Asserter} {prior : Option String}
  {extra extra' : String → Prop} {live live' : List Assertion} {t t' : Tables}

theorem pending (h : Unsettled space by_ prior extra live t) :
    ∀ r, by_.Pending prior r → r.identity = by_.identity ∧ r.generation ≠ by_.generation :=
  fun _ hr => ⟨hr.1, fun he => h.2.2 (he ▸ hr.2)⟩

theorem sameNodes (h : Unsettled space by_ prior extra live t) (hs : SameNodes t t')
    (hproofs : t'.proofs = t.proofs)
    (howed : ∀ name, name ∈ t.proofsOwed ∨ extra name → name ∈ t'.proofsOwed ∨ extra' name) :
    Unsettled space by_ prior extra' live' t' :=
  ⟨h.1.sameNodes hs hproofs howed, h.2.1.congr hs.generations, h.2.2⟩

theorem sameDefinitions (h : Unsettled space by_ prior extra live t) (hs : SameDefinitions t t')
    (hgens : t'.generations = t.generations) (hproofs : SameProofs t t')
    (hheld : ∀ (id : String) (n' : Node), t'.nodes[id]? = some n' →
      (∃ n : Node, t.nodes[id]? = some n ∧ n'.proof = n.proof) ∨
        t.definitionName id = none ∧ n'.proof = [])
    (hretired : t'.retired = t.retired) : Unsettled space by_ prior extra live' t' := by
  refine ⟨h.1.frame hs hproofs.proofs (fun name hname => ?_) hheld ?_, h.2.1.congr hgens, h.2.2⟩
  · rwa [hproofs.proofsOwed]
  · rw [hretired]
    exact h.1.landing.retired

theorem bareArms (space : String → NodeKind) (hby : by_.Known) (prior : Option String)
    (extra : String → Prop) :
    BareArms by_ (OneKind space) (Unsettled space by_ prior extra) where
  ensure := by
    intro live t id kind attrs hplain hA h
    have hproofs := t.ensureNode_proofs by_ id kind h.1.names.rows.distinct attrs
    exact ⟨h.1.ensurePlain h.pending hby h.2.1 hA hplain
      (fun name hname => hname.imp_left (hproofs.2.1 name)) fun name hname => .inl hname,
      h.2.1.congr (t.ensureNode_cases by_ id kind h.1.names.rows.distinct attrs).2.1, h.2.2⟩
  frame := fun hs hp h => h.sameNodes hs hp.proofs fun name hname => by rwa [hp.proofsOwed]
  mark := by
    intro live t unit finding h
    refine h.sameDefinitions (t.markUpheld_sameDefinitions unit finding) rfl ⟨rfl, rfl⟩
      (fun id n' hn' => .inl ?_) rfl
    unfold Tables.markUpheld at hn'
    rw [alter_map_getElem?] at hn'
    obtain ⟨n, hn, rfl⟩ := Option.map_eq_some_iff.1 hn'
    refine ⟨n, hn, ?_⟩
    split
    · split <;> rfl
    · rfl
  alias_ := fun {_ t aliases} h => h.sameDefinitions (t.aliased_sameDefinitions aliases)
    rfl ⟨rfl, rfl⟩ (fun _ n hn => .inl ⟨n, hn, rfl⟩) rfl
  drop := by
    intro live t grain kind rel hkind h
    refine h.sameDefinitions (t.dropMemberless_sameDefinitions hkind grain rel) rfl ⟨rfl, rfl⟩
      (fun id n' hn' => .inl ⟨n', ?_, rfl⟩) rfl
    rw [Tables.dropMemberless_getElem?] at hn'
    exact (Option.filter_eq_some_iff.1 hn').1
  overwrite := by
    intro live t id attrs hplain hA h
    have hspace : space id = .community := (hA.resolve_left nofun).symm
    have hget : ∀ other, (t.overwriteAttrs id (.ofList attrs)).nodes[other]? =
        t.nodes[other]?.map fun n =>
          if other = id then { n with attrs := .ofList attrs, proof := [] } else n :=
      fun other => alter_map_getElem? t.nodes id _ other
    refine h.sameDefinitions (h.1.names.overwriteAttrs_sameDefinitions hspace hplain) rfl ⟨rfl, rfl⟩
      ?_ rfl
    intro other n' hn'
    rw [hget] at hn'
    obtain ⟨n, hn, rfl⟩ := Option.map_eq_some_iff.1 hn'
    split
    case isTrue he =>
      subst he
      exact .inr ⟨h.1.names.community_definitionName hspace, rfl⟩
    · exact .inl ⟨n, hn, rfl⟩

end Unsettled

/-! ## The definition arm -/

/-- The attrs a definition's assertion carries. -/
def Tables.definitionAttrs (t : Tables) (by_ : Asserter) (c : CodeEntityExtracted)
    (entity : String) : List (String × String) :=
  let (kind, line) := t.settlingDefinition by_ entity c.kind c.line
  [("name", c.name), ("kind", kind), ("line", toString line), ("lang", c.lang)]

/-- Whoever else names the entity agrees on whether what it is now asserted as defines it. -/
def DefinitionAgrees (t : Tables) (by_ : Asserter) (c : CodeEntityExtracted) : Prop :=
  let entity := entityId (t.resolve c.file) c.idPath
  OthersAgree t by_ entity (.ofList (t.definitionAttrs by_ c entity))

theorem nameOf_eq_some {n : Node} (h : nameOf n = some name) : n.attrs["name"]? = some name := by
  unfold nameOf nodeLeaf at h
  split at h
  · exact (Option.filter_eq_some_iff.1 h).1
  · cases h

theorem Tables.written_naming {t : Tables} {id : String} {kind : NodeKind}
    {dkind line lang : String} (h : (t.written id kind (.ofList [("name", name), ("kind", dkind),
      ("line", line), ("lang", lang)])).definitionName id = some defined) : defined = name := by
  rw [definitionName_eq, t.written_self, Option.bind_some] at h
  have hkey := nameOf_eq_some h
  obtain ⟨hasserted, -⟩ := naming_getElem? name dkind line lang
  unfold Tables.upserted at hkey
  split at hkey
  · rw [patch_getElem?, hasserted, Option.some_or, Option.some.injEq] at hkey
    exact hkey.symm
  · rw [hasserted, Option.some.injEq] at hkey
    exact hkey.symm

theorem Names.ensureNode_naming {space : String → NodeKind} {pending : NodeAssertion → Prop}
    {t : Tables} {by_ : Asserter} (h : Names space pending t)
    (hpending : ∀ r, pending r → r.identity = by_.identity ∧ r.generation ≠ by_.generation)
    (hby : by_.Known) (hcurrent : by_.Current t) {id : String}
    (hkind : NodeKind.codeEntity = .artifact ∨ NodeKind.codeEntity = space id)
    (name kind line lang : String) (hdefined : (t.ensureNode by_ id .codeEntity
      [("name", name), ("kind", kind), ("line", line), ("lang", lang)]).definitionName id =
        some defined) : defined = name := by
  have hasserts : Asserts .codeEntity
      [("name", name), ("kind", kind), ("line", line), ("lang", lang)] :=
    .inr ⟨rfl, name, kind, line, lang, rfl⟩
  rcases h.ensureNode_definitionName hpending hby hcurrent hkind hasserts with heq | hnone
  · exact Tables.written_naming (heq ▸ hdefined)
  · rw [hnone] at hdefined
    cases hdefined

theorem entityId_ne (file rest : String) : entityId file rest ≠ file := by
  intro h
  have := congrArg (fun s : String => s.toList.length) h
  simp [entityId] at this

namespace Tables

variable (t : Tables) (by_ : Asserter)

theorem recordedAssertion_ensureNode_ne {id other : String} (hrows : DistinctRows t.nodeAssertions)
    (kind : NodeKind) (attrs : List (String × String)) (h : other ≠ id) (identity : String) :
    (t.ensureNode by_ id kind attrs).recordedAssertion identity other =
      t.recordedAssertion identity other := by
  unfold recordedAssertion
  rw [← List.head?_filter, ← List.head?_filter]
  congr 1
  refine (t.ensureNode_cases by_ id kind hrows attrs).1.filter_eq fun r hr => ?_
  simp [hr, Ne.symm h]

theorem definitionAttrs_congr {t t' : Tables} {entity : String}
    (h : t'.recordedAssertion by_.identity entity = t.recordedAssertion by_.identity entity)
    (c : CodeEntityExtracted) :
    t'.definitionAttrs by_ c entity = t.definitionAttrs by_ c entity := by
  unfold definitionAttrs settlingDefinition
  rw [h]

theorem undoWhatResolvedAgainst_sameDefinitions (id : String) (defined : Option String) :
    SameDefinitions t (t.undoWhatResolvedAgainst id defined) where
  names := t.undoWhatResolvedAgainst_keepsNames id defined
  defines := fun other n' hn' hname =>
    ⟨n', by rwa [undoWhatResolvedAgainst_nodes] at hn', hname, rfl⟩
  definitionName := definitionName_congr (t.undoWhatResolvedAgainst_nodes id defined)

end Tables

namespace Unsettled

variable {space : String → NodeKind} {by_ : Asserter} {prior : Option String}
  {live live' : List Assertion} {t : Tables} {c : CodeEntityExtracted}

/-- A definition's entity keeps or takes its name, or the name it had is owed. -/
theorem defineEntity (h : Unsettled space by_ prior (fun _ => False) live t)
    (live' : List Assertion) (hby : by_.Known) {entity : String}
    (hA : OneKind space (by_.assert entity .codeEntity))
    (hothers : OthersAgree t by_ entity (.ofList (t.definitionAttrs by_ c entity))) :
    Unsettled space by_ prior
      (fun name => name = c.name ∧
      ((t.defineEntity by_ c entity).definitionName entity).isSome = true)
      live' (t.defineEntity by_ c entity) := by
  have hkind : NodeKind.codeEntity = .artifact ∨ NodeKind.codeEntity = space entity := hA
  have hasserts : Asserts .codeEntity (t.definitionAttrs by_ c entity) :=
    .inr ⟨rfl, c.name, _, _, c.lang, rfl⟩
  have hrows := h.1.names.rows.distinct
  have hdefine : t.defineEntity by_ c entity =
      (t.ensureNode by_ entity .codeEntity (t.definitionAttrs by_ c entity)).undoWhatResolvedAgainst
        entity (t.definitionName entity) := rfl
  rw [hdefine]
  generalize hens : t.ensureNode by_ entity .codeEntity (t.definitionAttrs by_ c entity) = ensured
  have hnamed : ∀ name, ensured.definitionName entity = some name → name = c.name := by
    rw [← hens]
    exact fun defined =>
      h.1.names.ensureNode_naming h.pending hby h.2.1 hkind c.name _ _ c.lang
  have hsame := ensured.undoWhatResolvedAgainst_sameDefinitions entity (t.definitionName entity)
  have howed : ∀ name, name ∈ t.proofsOwed → name ∈ ensured.proofsOwed := by
    rw [← hens]
    exact (t.ensureNode_proofs by_ entity .codeEntity hrows _).2.1
  have hensured : Evidence space (by_.Pending prior)
      (fun name => name ∈
      (ensured.undoWhatResolvedAgainst entity (t.definitionName entity)).proofsOwed ∨
        name = c.name ∧ ((ensured.undoWhatResolvedAgainst entity
          (t.definitionName entity)).definitionName entity).isSome = true) ensured := by
    rw [← hens]
    refine h.1.ensureNode h.pending hby h.2.1 hkind hasserts (fun _ => hothers) ?_ ?_ <;> rw [hens]
    · rintro name (hname | hname)
      · exact .inl ((ensured.mem_undoWhatResolvedAgainst_owed _ _ name).2 (.inl (howed name hname)))
      · exact hname.elim
    · intro name hnot
      rw [hsame.definitionName] at hnot
      constructor
      · intro hdefined
        refine absurd (.inr ⟨hnamed name hdefined, ?_⟩) hnot
        rw [hdefined]
        rfl
      · intro hdefined
        by_contra hlost
        refine hnot (.inl ((ensured.mem_undoWhatResolvedAgainst_owed _ _ name).2 (.inr ?_)))
        exact ⟨hdefined, hlost⟩
  refine ⟨hensured.frame hsame (ensured.undoWhatResolvedAgainst_proofs _ _) (fun _ hn => hn)
    (fun id n' hn' => .inl ⟨n', ?_, rfl⟩) fun id n' hn' => ?_, h.2.1.congr ?_, h.2.2⟩
  · rwa [Tables.undoWhatResolvedAgainst_nodes] at hn'
  · by_cases hid : id = entity
    · subst hid
      rw [Tables.undoWhatResolvedAgainst_retired_self] at hn'
      obtain ⟨n, hn, rfl⟩ := Option.map_eq_some_iff.1 hn'
      exact Evidence.stripped_proof _ _ _ (hensured.landing.retired _ n hn)
    · rw [Tables.undoWhatResolvedAgainst_retired_ne _ _ _ hid] at hn'
      exact hensured.landing.retired id n' hn'
  · rw [(Tables.undoWhatResolvedAgainst_rows _ _ _).2, ← hens]
    exact (t.ensureNode_cases by_ entity .codeEntity hrows _).2.1

theorem foldDefinition (h : Unsettled space by_ prior (fun _ => False) live t) (hby : by_.Known)
    (position : Nat) (hagrees : DefinitionAgrees t by_ c)
    (hA : ∀ a ∈ t.assertedDefinition by_ c, OneKind space a) :
    Unsettled space by_ prior (fun _ => False) live' (t.foldDefinition by_ position c) := by
  have bare := bareArms space hby prior
  have hopened := ((bare fun _ => False).calls position).superseded c.fresh (t.resolve c.file) h
  unfold Tables.foldDefinition
  dsimp only
  have hlive : ∀ id, (if c.fresh then t.supersedeFileEdges (t.resolve c.file) by_.at_
      else t).liveAssertions id = t.liveAssertions id := fun id => by split <;> rfl
  have hrecorded : ∀ id, (if c.fresh then t.supersedeFileEdges (t.resolve c.file) by_.at_
      else t).recordedAssertion by_.identity id = t.recordedAssertion by_.identity id :=
    fun id => by split <;> rfl
  generalize (if c.fresh then t.supersedeFileEdges (t.resolve c.file) by_.at_ else t) = opened at *
  have hrows := hopened.1.names.rows.distinct
  have hne := entityId_ne (t.resolve c.file) c.idPath
  have hheld := (bare fun _ => False).ensure (t.resolve c.file) .file
    (Tables.fileAttrs c.lang c.partial_) (plain_fileAttrs _ _)
    (hA _ (List.mem_cons_self ..)) hopened
  have hothers : OthersAgree (opened.ensureNode by_ (t.resolve c.file) .file
      (Tables.fileAttrs c.lang c.partial_)) by_ (entityId (t.resolve c.file) c.idPath)
      (.ofList ((opened.ensureNode by_ (t.resolve c.file) .file
        (Tables.fileAttrs c.lang c.partial_)).definitionAttrs by_ c
          (entityId (t.resolve c.file) c.idPath))) := by
    unfold OthersAgree
    rw [opened.ensureNode_liveAssertions_ne by_ _ _ hrows _ hne, hlive,
      Tables.definitionAttrs_congr by_ ((opened.recordedAssertion_ensureNode_ne by_ hrows _ _ hne
        _).trans (hrecorded _))]
    exact hagrees
  have hdefined := hheld.defineEntity live' hby
    (hA _ (List.mem_cons_of_mem _ (List.mem_cons_self ..))) hothers
  generalize (opened.ensureNode by_ (t.resolve c.file) .file
    (Tables.fileAttrs c.lang c.partial_)).defineEntity by_ c
      (entityId (t.resolve c.file) c.idPath) = defined at hdefined ⊢
  have hcontained := ((bare _).calls position).contain c (t.resolve c.file)
    (entityId (t.resolve c.file) c.idPath)
    (fun parent hparent => hA _ (by simp [Tables.assertedDefinition, hparent])) hdefined
  -- what the definition gives or leaves is owed
  split
  case isTrue hsome =>
    refine hcontained.sameNodes ((Tables.updateEdges_sameNodes _ _ _).trans
      (Tables.oweProofs_sameNodes _ _)) rfl ?_
    rintro name (hname | ⟨rfl, -⟩)
    · exact .inl (Std.ExtTreeSet.mem_insert.2 (.inr hname))
    · exact .inl Std.ExtTreeSet.mem_insert_self
  case isFalse hnone =>
    refine hcontained.sameNodes (.refl _) rfl fun name hname => ?_
    exact hname.imp_right fun hx => absurd hx.2 hnone

end Unsettled

end Rigger.Graph
