import Rigger.Graph.Fold
import Rigger.Graph.Frame

/-!
# What an invariant of the fold survives

`asserted` lists the assertions an event's arm makes, in order; the live ones of a run are those
made outside the generation rule or since their identity's generation opened (`assertedBy`).

`Arms` says of an invariant of the tables and the live assertions that every operation an arm is
made of keeps it, the code arms taken whole.  `Arms.foldPayload` puts the arms together once;
`UngroupedArms` leaves the arms of the derived groupings out, for what those arms change.
-/

namespace Rigger.Graph

open Lib

/-- An assertion a fold makes. -/
structure Assertion where
  identity : String
  node : String
  kind : NodeKind
deriving DecidableEq

def Asserter.assert (by_ : Asserter) (node : String) (kind : NodeKind) : Assertion :=
  ⟨by_.identity, node, kind⟩

namespace Tables

variable (t : Tables) (by_ : Asserter)

def tied (locations : List String) : List Assertion :=
  locations.map fun path => by_.assert (t.resolve path) .artifact

def assertedDefinition (c : CodeEntityExtracted) : List Assertion :=
  let file := t.resolve c.file
  by_.assert file .file :: by_.assert (entityId file c.idPath) .codeEntity ::
    c.parentPath.toList.map fun parent => by_.assert (entityId file parent) .codeEntity

/-- The tables a call is folded on: its file superseded where fresh, then asserted. -/
def referenced (r : EdgeInferred) : Tables :=
  (if r.fresh then t.supersedeFileEdges (t.resolve r.file) by_.at_ else t).ensureNode by_
    (t.resolve r.file) .file (fileAttrs r.lang r.partial_)

def assertedReference (r : EdgeInferred) : List Assertion :=
  if r.isTest ∨ r.name = "" then []
  else
    let file := t.resolve r.file
    by_.assert file .file ::
      if r.refKind.isSome then []
      else by_.assert ((t.referenced by_ r).landing file r.name).1 .codeEntity ::
        r.caller.toList.map fun caller => by_.assert (entityId file caller) .codeEntity

def assertedDecision (d : DecisionMade) : List Assertion :=
  (by_.assert d.id .decision :: t.tied by_ d.governs) ++
    if d.supersedes = "" then [] else [by_.assert d.supersedes .decision]

def assertedConcept (c : DocConceptExtracted) : List Assertion :=
  match conceptKind c.kind with
  | some kind => [by_.assert (c.asserted t.resolve) kind]
  | none => []

def assertedLink (l : DocLinkExtracted) : List Assertion :=
  let (from_, rel, to_) := l.asserted t.resolve
  match linkRel rel with
  | some _ => [by_.assert from_ .artifact, by_.assert to_ .artifact]
  | none => []

/-- The assertions an event's arm makes, in order. -/
def asserted : Payload → List Assertion
  | .decisionMade d => t.assertedDecision by_ d
  | .lessonLearned l => by_.assert l.id .lesson :: t.tied by_ (locations l.about l.file)
  | .reviewFinding f => by_.assert f.id .finding :: t.tied by_ (locations f.about f.file)
  | .codeEntityExtracted c => t.assertedDefinition by_ c
  | .edgeInferred r => t.assertedReference by_ r
  | .docConceptExtracted c => t.assertedConcept by_ c
  | .docLinkExtracted l => t.assertedLink by_ l
  | .aliasUnresolved mention => [by_.assert mention .artifact]
  | .communityAssigned c => [by_.assert c.community .community]
  | .conceptDerived c => [by_.assert c.concept .concept]
  | .conceptRealized r => [by_.assert r.concept .concept]
  | .unitIntegrated _ | .spawnResult _ | .aliasDefined _ | .unread => []

/-- The live assertions after a fold of those before it. -/
def assertedBy (live : List Assertion) (p : Payload) : List Assertion :=
  let (advanced, prior) := t.advanceGeneration by_
  (if prior.isSome then live.filter (·.identity ≠ by_.identity) else live) ++
    advanced.asserted by_ p

end Tables

/-! ## The arms -/

/-- The attrs no arm but a definition's asserts: none names a definition. -/
def Plain (attrs : List (String × String)) : Prop := ∀ a ∈ attrs, a.1 ≠ "name" ∧ a.1 ≠ "kind"

theorem plain_nil : Plain [] := by simp [Plain]

theorem plain_fileAttrs (lang : String) (partial_ : Bool) :
    Plain (Tables.fileAttrs lang partial_) := by
  cases partial_ <;> simp [Plain, Tables.fileAttrs]

/-- The attrs a definition's assertion carries. -/
def Naming (attrs : List (String × String)) : Prop :=
  ∃ name kind line lang, attrs = [("name", name), ("kind", kind), ("line", line), ("lang", lang)]

/-- The attrs an arm asserts a node of a kind with. -/
def Asserts (kind : NodeKind) (attrs : List (String × String)) : Prop :=
  Plain attrs ∨ kind = .codeEntity ∧ Naming attrs

/-- The nodes an event attaches to a super-node. -/
def Payload.attached : Payload → List String
  | .communityAssigned c => [c.node]
  | .conceptRealized r => [r.node]
  | _ => []

/-- An event of a derived grouping. -/
def Payload.grouping : Payload → Bool
  | .communityAssigned _ | .conceptDerived _ | .conceptRealized _ => true
  | _ => false

/-- The relations of a record's edges, and those whose edges a record's resolution retires. -/
def recordRels : List Rel := [.governs, .supersedes, .about]
def resolvedRels : List Rel := [.governs, .about, .raised]

/-- Every operation an arm of no grouping is made of keeps the invariant `I` of live assertions and
tables: the assertions meet `A`, and the code arms' payloads `G` at the tables they are folded
on. -/
structure UngroupedArms (by_ : Asserter) (position : Nat) (A : Assertion → Prop)
    (G : Tables → Payload → Prop) (I : List Assertion → Tables → Prop) : Prop where
  ensure : ∀ {live t} id kind attrs, Plain attrs → A (by_.assert id kind) → I live t →
    I (live ++ [by_.assert id kind]) (t.ensureNode by_ id kind attrs)
  record : ∀ {live t src dst rel}, rel ∈ recordRels → I live t →
    I live (t.addEdge src dst rel by_.at_ position .extracted).1
  resolve : ∀ {live t p}, (∀ e, p e = true → e.rel ∈ resolvedRels) → I live t →
    I live (t.retireEdges p by_.at_)
  mark : ∀ {live t unit finding}, I live t → I live (t.markUpheld unit finding)
  alias_ : ∀ {live t} {aliases : Std.ExtTreeMap String String}, I live t →
    I live { t with aliases := aliases }
  definition : ∀ {live t c}, G t (.codeEntityExtracted c) →
    (∀ a ∈ t.assertedDefinition by_ c, A a) → I live t →
    I (live ++ t.assertedDefinition by_ c) (t.foldDefinition by_ position c)
  reference : ∀ {live t r}, G t (.edgeInferred r) → (∀ a ∈ t.assertedReference by_ r, A a) →
    I live t → I (live ++ t.assertedReference by_ r) (t.foldReference by_ position r)
  link : ∀ {live t src dst name rel}, linkRel name = some rel → I live t →
    I live (t.assertLink by_ src dst rel by_.at_ position .extracted)

/-- So do the operations of a grouping's arm, the attached nodes meeting `N`. -/
structure Arms (by_ : Asserter) (position : Nat) (A : Assertion → Prop) (N : String → Prop)
    (G : Tables → Payload → Prop) (I : List Assertion → Tables → Prop) : Prop
    extends UngroupedArms by_ position A G I where
  reset : ∀ {live t fresh grain kind rel}, kind = .community ∧ rel = .inCommunity ∨
    kind = .concept ∧ rel = .realizes → I live t → I live (t.resetGrain by_ fresh grain kind rel)
  attach : ∀ {live t node dst rel}, rel = .inCommunity ∨ rel = .realizes → N node → I live t →
    I live (t.attach node dst rel by_.at_ position)
  overwrite : ∀ {live t id attrs}, Plain attrs → A (by_.assert id .community) → I live t →
    I live ((t.overwriteAttrs id (.ofList attrs)).oweRelabel [id])

namespace UngroupedArms

variable {by_ : Asserter} {position : Nat} {A : Assertion → Prop} {G : Tables → Payload → Prop}
  {I : List Assertion → Tables → Prop} {live : List Assertion} {t : Tables}

theorem tie (h : UngroupedArms by_ position A G I) (record : String) {rel : Rel}
    (hrel : rel ∈ recordRels)
    (locations : List String) (hA : ∀ a ∈ t.tied by_ locations, A a) (hI : I live t) :
    I (live ++ t.tied by_ locations) (t.tie by_ position record rel locations) := by
  induction locations generalizing live t with
  | nil => simpa [Tables.tied, Tables.tie] using hI
  | cons path rest ih =>
    let tied := ((t.ensureNode by_ (t.resolve path) .artifact []).addEdge record (t.resolve path)
      rel by_.at_ position .extracted).1
    have haliases : tied.aliases = t.aliases := by
      rw [(Tables.addEdge_sameNodes _ _ _ _ _ _ _).aliases, Tables.ensureNode_aliases]
    have hrest : tied.tied by_ rest = t.tied by_ rest := by
      simp only [Tables.tied, Tables.resolve, haliases]
    have hfirst : I (live ++ [by_.assert (t.resolve path) .artifact]) tied :=
      h.record hrel (h.ensure _ _ _ plain_nil (hA _ (by simp [Tables.tied])) hI)
    have :=
      ih (t := tied) (by rw [hrest]; exact fun a ha => hA a (List.mem_cons_of_mem _ ha)) hfirst
    rw [hrest, List.append_assoc] at this
    exact this

theorem foldDecision (h : UngroupedArms by_ position A G I) {d : DecisionMade}
    (hA : ∀ a ∈ t.assertedDecision by_ d, A a) (hI : I live t) :
    I (live ++ t.assertedDecision by_ d) (t.foldDecision by_ position d) := by
  have hown := h.ensure d.id .decision [("summary", d.summary)] (by simp [Plain])
    (hA _ (by simp [Tables.assertedDecision])) hI
  have haliases : (t.ensureNode by_ d.id .decision [("summary", d.summary)]).tied by_ d.governs =
      t.tied by_ d.governs := by
    simp only [Tables.tied, Tables.resolve, Tables.ensureNode_aliases]
  have hgoverns : Rel.governs ∈ recordRels := by decide
  have htied := h.tie d.id hgoverns d.governs (by
      rw [haliases]
      intro a ha
      exact hA a (by simp [Tables.assertedDecision, ha])) hown
  rw [haliases, List.append_assoc] at htied
  unfold Tables.foldDecision Tables.assertedDecision
  by_cases hs : d.supersedes = ""
  · simpa [hs] using htied
  · rw [if_neg hs, if_neg hs, ← List.append_assoc]
    have hsuper := h.ensure d.supersedes .decision [] plain_nil
      (hA _ (by simp [Tables.assertedDecision, hs])) htied
    exact h.resolve (by
      intro e he
      simp only [Bool.and_eq_true, beq_iff_eq] at he
      simp [resolvedRels, he.1.2]) (h.record (by decide) hsuper)

theorem invalidateFinding (h : UngroupedArms by_ position A G I) {finding : String}
    (hI : I live t) :
    I live (t.invalidateFindingEdges finding by_.at_) := by
  unfold Tables.invalidateFindingEdges
  split
  · refine h.resolve (fun e he => ?_) hI
    simp only [Bool.and_eq_true, Bool.or_eq_true, beq_iff_eq] at he
    rcases he.2 with he | he <;> simp [resolvedRels, he.2]
  · exact hI

theorem invalidateFindings (h : UngroupedArms by_ position A G I) {findings : List String}
    (hI : I live t) : I live (t.invalidateFindings by_ findings) := by
  induction findings generalizing t with
  | nil => exact hI
  | cons finding rest ih => exact ih (h.invalidateFinding hI)

theorem foldVerdict (h : UngroupedArms by_ position A G I) {v : Verdict} (hI : I live t) :
    I live (t.foldVerdict by_ v) := by
  have hdiscarded : I live (t.invalidateFindings by_ (sortedSet v.discarded)) :=
    h.invalidateFindings hI
  unfold Tables.foldVerdict
  generalize t.invalidateFindings by_ (sortedSet v.discarded) = t' at hdiscarded ⊢
  induction sortedSet v.upheld generalizing t' with
  | nil => exact hdiscarded
  | cons finding rest ih => exact ih _ (h.mark hdiscarded)

theorem foldConcept (h : UngroupedArms by_ position A G I) {c : DocConceptExtracted}
    (hA : ∀ a ∈ t.assertedConcept by_ c, A a) (hI : I live t) :
    I (live ++ t.assertedConcept by_ c) (t.foldConcept by_ c) := by
  unfold Tables.foldConcept
  unfold Tables.assertedConcept at hA ⊢
  cases hkind : conceptKind c.kind with
  | none => simpa using hI
  | some kind =>
    rw [hkind] at hA
    exact h.ensure _ _ _ (by simp [Plain]) (hA _ (by simp)) hI

theorem foldLink (h : UngroupedArms by_ position A G I) {l : DocLinkExtracted}
    (hA : ∀ a ∈ t.assertedLink by_ l, A a) (hI : I live t) :
    I (live ++ t.assertedLink by_ l) (t.foldLink by_ position l) := by
  unfold Tables.foldLink
  unfold Tables.assertedLink at hA ⊢
  dsimp only at hA ⊢
  cases hrel : linkRel (l.asserted t.resolve).2.1 with
  | none => simpa using hI
  | some rel =>
    rw [hrel] at hA
    have hfrom := h.ensure (l.asserted t.resolve).1 .artifact [] plain_nil
      (hA _ (by simp)) hI
    have hboth := h.ensure (l.asserted t.resolve).2.2 .artifact [] plain_nil
      (hA _ (by simp)) hfrom
    rw [List.append_assoc] at hboth
    exact h.link hrel hboth

theorem foldPayload (h : UngroupedArms by_ position A G I) (live : List Assertion) {p : Payload}
    (hp : p.grouping = false) (hG : G t p) (hA : ∀ a ∈ t.asserted by_ p, A a) (hI : I live t) :
    I (live ++ t.asserted by_ p) (t.foldPayload by_ position p) := by
  have habout : Rel.about ∈ recordRels := by decide
  cases p with
  | decisionMade d => exact h.foldDecision hA hI
  | unitIntegrated unit =>
    show I (live ++ []) (t.invalidateFindings by_ (t.addressed unit))
    rw [List.append_nil]
    exact h.invalidateFindings hI
  | lessonLearned l =>
    have hown := h.ensure l.id .lesson [("summary", l.summary)] (by simp [Plain])
      (hA _ (List.mem_cons_self ..)) hI
    have htied := h.tie l.id habout (locations l.about l.file) (by
        intro a ha
        simp only [Tables.tied, Tables.resolve, Tables.ensureNode_aliases] at ha
        exact hA a (List.mem_cons_of_mem _ ha)) hown
    simpa [Tables.asserted, Tables.foldPayload, Tables.foldLesson, Tables.tied, Tables.resolve]
      using htied
  | reviewFinding f =>
    have hown := h.ensure f.id .finding [("summary", f.summary), ("by", f.by_), ("unit", f.unit)]
      (by simp [Plain]) (hA _ (List.mem_cons_self ..)) hI
    have htied := h.tie f.id habout (locations f.about f.file) (by
        intro a ha
        simp only [Tables.tied, Tables.resolve, Tables.ensureNode_aliases] at ha
        exact hA a (List.mem_cons_of_mem _ ha)) hown
    simpa [Tables.asserted, Tables.foldPayload, Tables.foldFinding, Tables.tied, Tables.resolve]
      using htied
  | codeEntityExtracted c => exact h.definition hG hA hI
  | edgeInferred r => exact h.reference hG hA hI
  | docConceptExtracted c => exact h.foldConcept hA hI
  | docLinkExtracted l => exact h.foldLink hA hI
  | spawnResult v =>
    show I (live ++ []) (t.foldVerdict by_ v)
    rw [List.append_nil]
    exact h.foldVerdict hI
  | aliasDefined a =>
    show I (live ++ []) { t with aliases := t.aliases.insert a.alias_ a.canonical }
    rw [List.append_nil]
    exact h.alias_ hI
  | aliasUnresolved mention =>
    exact h.ensure _ _ _ (by simp [Plain]) (hA _ (by simp [Tables.asserted])) hI
  | communityAssigned _ | conceptDerived _ | conceptRealized _ => cases hp
  | unread =>
    show I (live ++ []) t
    rw [List.append_nil]
    exact hI

end UngroupedArms

namespace Arms

variable {by_ : Asserter} {position : Nat} {A : Assertion → Prop} {N : String → Prop}
  {G : Tables → Payload → Prop} {I : List Assertion → Tables → Prop} {live : List Assertion}
  {t : Tables}

theorem foldCommunity (h : Arms by_ position A N G I) {c : CommunityAssigned}
    (hA : A (by_.assert c.community .community)) (hN : N c.node) (hI : I live t) :
    I (live ++ [by_.assert c.community .community]) (t.foldCommunity by_ position c) :=
  h.overwrite (by simp [Plain]) hA (h.attach (.inl rfl) hN
    (h.ensure _ _ _ plain_nil hA (h.reset (.inl ⟨rfl, rfl⟩) hI)))

theorem foldPayload (h : Arms by_ position A N G I) (live : List Assertion) {p : Payload}
    (hG : G t p) (hA : ∀ a ∈ t.asserted by_ p, A a) (hN : ∀ n ∈ p.attached, N n) (hI : I live t) :
    I (live ++ t.asserted by_ p) (t.foldPayload by_ position p) := by
  by_cases hp : p.grouping = false
  · exact h.toUngroupedArms.foldPayload live hp hG hA hI
  cases p with
  | communityAssigned c =>
    exact h.foldCommunity (hA _ (by simp [Tables.asserted])) (hN _ (by simp [Payload.attached])) hI
  | conceptDerived c =>
    exact h.ensure _ _ _ (by simp [Plain]) (hA _ (by simp [Tables.asserted]))
      (h.reset (.inr ⟨rfl, rfl⟩) hI)
  | conceptRealized r =>
    exact h.attach (.inr rfl) (hN _ (by simp [Payload.attached]))
      (h.ensure _ _ _ plain_nil (hA _ (by simp [Tables.asserted])) hI)
  | _ => exact absurd rfl hp

end Arms

/-- A whole event: what holds between events holds after it, where `M prior` holds of the tables
from the generation's opening to the settling of what it superseded. -/
theorem Arms.fold {by_ : Asserter} {position : Nat} {A : Assertion → Prop} {N : String → Prop}
    {G : Tables → Payload → Prop} {I : List Assertion → Tables → Prop}
    {M : Option String → List Assertion → Tables → Prop} {live : List Assertion} {t : Tables}
    {p : Payload} (h : ∀ prior, Arms by_ position A N G (M prior))
    (hadvance : M (t.advanceGeneration by_).2
      (if (t.advanceGeneration by_).2.isSome then live.filter (·.identity ≠ by_.identity) else live)
      (t.advanceGeneration by_).1)
    (hretire : ∀ {prior live t}, M (some prior) live t → I live (t.retireUnheldNodes by_ prior))
    (hsame : ∀ {live t}, M none live t → I live t) (hG : G (t.advanceGeneration by_).1 p)
    (hA : ∀ a ∈ (t.advanceGeneration by_).1.asserted by_ p, A a) (hN : ∀ n ∈ p.attached, N n) :
    I (t.assertedBy by_ live p) (t.fold by_ position p) := by
  have harm := (h _).foldPayload _ hG hA hN hadvance
  unfold Tables.fold Tables.assertedBy
  dsimp only
  cases hprior : (t.advanceGeneration by_).2 with
  | none =>
    rw [hprior] at harm
    exact hsame harm
  | some prior =>
    rw [hprior] at harm
    exact hretire harm

/-! ## What the code arms are made of -/

/-- The relations of a file's structure. -/
def fileRels : List Rel := [.references, .calls, .contains]

/-- Every operation a call's arm is made of keeps the invariant. -/
structure CallArms (by_ : Asserter) (position : Nat) (A : Assertion → Prop)
    (I : List Assertion → Tables → Prop) : Prop where
  ensure : ∀ {live t} id kind attrs, Plain attrs → A (by_.assert id kind) → I live t →
    I (live ++ [by_.assert id kind]) (t.ensureNode by_ id kind attrs)
  add : ∀ {live t} src dst rel tier, rel ∈ fileRels → I live t →
    I live (t.addEdge src dst rel by_.at_ position tier).1
  supersede : ∀ {live t} file, I live t → I live (t.supersedeFileEdges file by_.at_)

namespace CallArms

variable {by_ : Asserter} {position : Nat} {A : Assertion → Prop}
  {I : List Assertion → Tables → Prop} {live : List Assertion} {t : Tables}

theorem superseded (h : CallArms by_ position A I) (fresh : Bool) (file : String) (hI : I live t) :
    I live (if fresh then t.supersedeFileEdges file by_.at_ else t) := by
  split
  · exact h.supersede file hI
  · exact hI

theorem contain (h : CallArms by_ position A I) (c : CodeEntityExtracted) (file entity : String)
    (hA : ∀ parent, c.parentPath = some parent → A (by_.assert (entityId file parent) .codeEntity))
    (hI : I live t) :
    I (live ++ c.parentPath.toList.map fun parent => by_.assert (entityId file parent) .codeEntity)
      (t.contain by_ position c file entity) := by
  unfold Tables.contain
  cases hparent : c.parentPath with
  | none =>
    rw [Option.toList_none, List.map_nil, List.append_nil]
    exact h.add _ _ _ _ (by simp [fileRels]) hI
  | some parent =>
    exact h.add _ _ _ _ (by simp [fileRels]) (h.ensure _ _ [] plain_nil (hA parent hparent) hI)

theorem foldReference (h : CallArms by_ position A I) {r : EdgeInferred}
    (hproof : ∀ {live t}, I live t → I live (t.foldTestEvidence r position))
    (hA : ∀ a ∈ t.assertedReference by_ r, A a) (hI : I live t) :
    I (live ++ t.assertedReference by_ r) (t.foldReference by_ position r) := by
  unfold Tables.foldReference
  by_cases htest : r.isTest = true
  · rw [if_pos htest, Tables.assertedReference, if_pos (.inl htest), List.append_nil]
    exact hproof hI
  · have hopened := h.superseded r.fresh (t.resolve r.file) hI
    rw [if_neg htest]
    unfold Tables.assertedReference at hA ⊢
    dsimp only at hA ⊢
    by_cases hname : r.name = ""
    · rw [if_pos hname, if_pos (.inr hname), List.append_nil]
      exact hopened
    · have hneither : ¬(r.isTest = true ∨ r.name = "") := fun he => he.elim htest hname
      rw [if_neg hneither] at hA ⊢
      rw [if_neg hname]
      have hheld := h.ensure (t.resolve r.file) .file (Tables.fileAttrs r.lang r.partial_)
        (plain_fileAttrs _ _)
        (hA _ (List.mem_cons_self ..)) hopened
      by_cases hkind : r.refKind.isSome = true
      · rw [if_pos hkind, if_pos hkind]
        exact hheld
      · rw [if_neg hkind] at hA ⊢
        rw [if_neg hkind]
        have htarget := h.ensure
          ((t.referenced by_ r).landing (t.resolve r.file) r.name).1 .codeEntity
          [] plain_nil (hA _ (by simp)) hheld
        rw [List.append_assoc] at htarget
        have hrefd := h.add (t.resolve r.file)
          ((t.referenced by_ r).landing (t.resolve r.file) r.name).1 .references
          ((t.referenced by_ r).landing (t.resolve r.file) r.name).2 (by simp [fileRels]) htarget
        unfold Tables.foldCall
        dsimp only
        cases hcaller : r.caller with
        | none => exact hrefd
        | some caller =>
          rw [hcaller] at hA
          have hcalled := h.ensure (entityId (t.resolve r.file) caller) .codeEntity
            [] plain_nil (hA _ (by simp)) hrefd
          rw [List.append_assoc] at hcalled
          exact h.add _ _ _ _ (by simp [fileRels]) hcalled

end CallArms

/-- Every operation a definition's arm is made of keeps the invariant. -/
structure CodeArms (by_ : Asserter) (position : Nat) (A : Assertion → Prop)
    (I : List Assertion → Tables → Prop) : Prop extends CallArms by_ position A I where
  define : ∀ {live t} id attrs, Naming attrs → A (by_.assert id .codeEntity) → I live t →
    I (live ++ [by_.assert id .codeEntity]) (t.ensureNode by_ id .codeEntity attrs)
  undo : ∀ {live t} id defined, I live t → I live (t.undoWhatResolvedAgainst id defined)
  promote : ∀ {live t} entity name, I live t → I live ((t.promoteEdges entity name).oweProofs name)

namespace CodeArms

variable {by_ : Asserter} {position : Nat} {A : Assertion → Prop}
  {I : List Assertion → Tables → Prop} {live : List Assertion} {t : Tables}

theorem defineEntity (h : CodeArms by_ position A I) (c : CodeEntityExtracted) (entity : String)
    (hA : A (by_.assert entity .codeEntity)) (hI : I live t) :
    I (live ++ [by_.assert entity .codeEntity]) (t.defineEntity by_ c entity) := by
  unfold Tables.defineEntity
  exact h.undo _ _ (h.define _ _ ⟨_, _, _, _, rfl⟩ hA hI)

theorem foldDefinition (h : CodeArms by_ position A I) {c : CodeEntityExtracted}
    (hA : ∀ a ∈ t.assertedDefinition by_ c, A a) (hI : I live t) :
    I (live ++ t.assertedDefinition by_ c) (t.foldDefinition by_ position c) := by
  have hfile := h.ensure (t.resolve c.file) .file
    (Tables.fileAttrs c.lang c.partial_) (plain_fileAttrs _ _) (hA _ (List.mem_cons_self ..))
    (h.superseded c.fresh (t.resolve c.file) hI)
  have hentity := h.defineEntity c (entityId (t.resolve c.file) c.idPath)
    (hA _ (List.mem_cons_of_mem _ (List.mem_cons_self ..))) hfile
  have hcontained := h.contain c (t.resolve c.file)
    (entityId (t.resolve c.file) c.idPath)
    (fun parent hparent => hA _ (by simp [Tables.assertedDefinition, hparent])) hentity
  rw [List.append_assoc, List.append_assoc] at hcontained
  unfold Tables.foldDefinition
  dsimp only
  generalize (if c.fresh = true then t.supersedeFileEdges (t.resolve c.file) by_.at_ else t) =
    opened at hcontained ⊢
  split
  · exact h.promote _ _ hcontained
  · exact hcontained

end CodeArms

/-! ## Invariants no edge bears on -/

/-- An invariant no edge bears on, which a bare assertion keeps. -/
structure BareArms (by_ : Asserter) (A : Assertion → Prop) (I : List Assertion → Tables → Prop) :
    Prop where
  ensure : ∀ {live t} id kind attrs, Plain attrs → A (by_.assert id kind) → I live t →
    I (live ++ [by_.assert id kind]) (t.ensureNode by_ id kind attrs)
  frame : ∀ {live t t'}, SameNodes t t' → SameProofs t t' → I live t → I live t'
  mark : ∀ {live t unit finding}, I live t → I live (t.markUpheld unit finding)
  alias_ : ∀ {live t} {aliases : Std.ExtTreeMap String String}, I live t →
    I live { t with aliases := aliases }
  drop : ∀ {live t grain kind rel}, kind = .community ∨ kind = .concept → I live t →
    I live (t.dropMemberless grain kind rel)
  overwrite : ∀ {live t id attrs}, Plain attrs → A (by_.assert id .community) → I live t →
    I live (t.overwriteAttrs id (.ofList attrs))

namespace BareArms

variable {by_ : Asserter} {A : Assertion → Prop} {I : List Assertion → Tables → Prop}
  {live : List Assertion} {t : Tables}

theorem addEdge (h : BareArms by_ A I) (src dst : String) (rel : Rel) (at_ : Int) (source : Nat)
    (tier : Tier) (hI : I live t) : I live (t.addEdge src dst rel at_ source tier).1 :=
  h.frame (t.addEdge_sameNodes ..) (t.addEdge_sameProofs ..) hI

theorem calls (h : BareArms by_ A I) (position : Nat) : CallArms by_ position A I where
  ensure := h.ensure
  add := fun _ _ _ _ _ hI => h.addEdge _ _ _ _ _ _ hI
  supersede := fun file hI => h.frame (Tables.supersedeFileEdges_sameNodes _ file by_.at_)
    (Tables.supersedeFileEdges_sameProofs _ file by_.at_) hI

theorem arms (h : BareArms by_ A I) (position : Nat) {G : Tables → Payload → Prop}
    (hdefinition : ∀ {live t c}, G t (.codeEntityExtracted c) →
      (∀ a ∈ t.assertedDefinition by_ c, A a) → I live t →
      I (live ++ t.assertedDefinition by_ c) (t.foldDefinition by_ position c))
    (hproof : ∀ {live t r}, I live t → I live (t.foldTestEvidence r position)) :
    Arms by_ position A (fun _ => True) G I where
  ensure := h.ensure
  record := fun _ hI => h.addEdge _ _ _ _ _ _ hI
  resolve := fun _ hI => h.frame (Tables.retireEdges_sameNodes _ _ _)
    (Tables.retireEdges_sameProofs _ _ _) hI
  mark := h.mark
  alias_ := h.alias_
  definition := hdefinition
  reference := fun _ hA hI => (h.calls position).foldReference hproof hA hI
  link := fun _ hI => h.frame (Tables.assertLink_sameNodes _ _ _ _ _ _ _ _)
    (Tables.assertLink_sameProofs _ _ _ _ _ _ _ _) hI
  reset := by
    intro live t fresh grain kind rel hkind hI
    unfold Tables.resetGrain
    split
    · exact h.drop (hkind.imp And.left And.left)
        (h.frame (Tables.retireGrain_sameNodes _ _ _ _) ⟨rfl, rfl⟩ hI)
    · exact hI
  attach := fun _ _ hI => h.frame (Tables.attach_sameNodes _ _ _ _ _ _)
    (Tables.attach_sameProofs _ _ _ _ _ _) hI
  overwrite := fun hplain hA hI => h.frame (Tables.oweRelabel_sameNodes _ _)
    (Tables.oweRelabel_sameProofs _ _) (h.overwrite hplain hA hI)

end BareArms

/-! ## Invariants of the nodes alone -/

/-- An invariant no edge, proof or debt bears on, which an assertion of any attrs keeps. -/
structure NodeArms (by_ : Asserter) (A : Assertion → Prop) (I : List Assertion → Tables → Prop) :
    Prop where
  ensure : ∀ {live t} id kind attrs, Asserts kind attrs → A (by_.assert id kind) → I live t →
    I (live ++ [by_.assert id kind]) (t.ensureNode by_ id kind attrs)
  frame : ∀ {live t t'}, SameNodes t t' → I live t → I live t'
  undo : ∀ {live t} id defined, I live t → I live (t.undoWhatResolvedAgainst id defined)
  mark : ∀ {live t unit finding}, I live t → I live (t.markUpheld unit finding)
  alias_ : ∀ {live t} {aliases : Std.ExtTreeMap String String}, I live t →
    I live { t with aliases := aliases }
  drop : ∀ {live t grain kind rel}, kind = .community ∨ kind = .concept → I live t →
    I live (t.dropMemberless grain kind rel)
  overwrite : ∀ {live t id attrs}, Plain attrs → I live t →
    I live (t.overwriteAttrs id (.ofList attrs))

namespace NodeArms

variable {by_ : Asserter} {A : Assertion → Prop} {I : List Assertion → Tables → Prop}
  {live : List Assertion} {t : Tables}

theorem bare (h : NodeArms by_ A I) : BareArms by_ A I where
  ensure := fun _ _ _ hplain hA hI => h.ensure _ _ _ (.inl hplain) hA hI
  frame := fun hs _ hI => h.frame hs hI
  mark := h.mark
  alias_ := h.alias_
  drop := h.drop
  overwrite := fun hplain _ hI => h.overwrite hplain hI

theorem code (h : NodeArms by_ A I) (position : Nat) : CodeArms by_ position A I :=
  { h.bare.calls position with
    define := fun _ _ hnaming hA hI => h.ensure _ _ _ (.inr ⟨rfl, hnaming⟩) hA hI
    undo := h.undo
    promote := fun _ _ hI => h.frame ((Tables.updateEdges_sameNodes _ _ _).trans
      (Tables.oweProofs_sameNodes _ _)) hI }

theorem arms (h : NodeArms by_ A I) (position : Nat)
    (hproof : ∀ {live t r}, I live t → I live (t.foldTestEvidence r position)) :
    Arms by_ position A (fun _ => True) (fun _ _ => True) I :=
  h.bare.arms position (fun _ hA hI => (h.code position).foldDefinition hA hI) hproof

end NodeArms

end Rigger.Graph
