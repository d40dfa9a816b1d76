import Rigger.Graph.Graded
import Rigger.Graph.Proven

/-!
# Tiers over a run

Every arm keeps the grade of the edges: a definition promotes what bound its name before, a call is
graded where it lands, and whatever takes a name from a node demotes what the name graded.  So in
every committed file the tier of a call or reference is its target's (`tiers_hold`).
-/

namespace Rigger.Graph

open Lib

/-- A node that may be attached: no super-node, which a grain's re-run may delete. -/
def Attachable (space : String → NodeKind) (id : String) : Prop :=
  space id ≠ .community ∧ space id ≠ .concept

/-- What the tables keep between an event's steps, but for the definitions of `skip` their arm has
yet to promote by. -/
structure Tiers (called : String → Prop) (space : String → NodeKind)
    (pending : NodeAssertion → Prop)
    (skip : String → Prop) (t : Tables) : Prop where
  names : Names space pending t
  named : Named called t
  graded : Graded called (Attachable space) skip (fun _ _ => False) t

/-! ## What leaves the edges alone -/

structure KeepsTiers (t t' : Tables) : Prop where
  edges : SameEdges t t'
  definitions : SameDefinitions t t'
  generations : t'.generations = t.generations
  held : ∀ id, t'.nodes.contains id = t.nodes.contains id

namespace KeepsTiers

variable {t t' t'' : Tables}

theorem refl (t : Tables) : KeepsTiers t t :=
  ⟨.refl t, (SameNodes.refl t).sameDefinitions, rfl, fun _ => rfl⟩

theorem trans (h : KeepsTiers t t') (h' : KeepsTiers t' t'') : KeepsTiers t t'' :=
  ⟨h.edges.trans h'.edges, h.definitions.trans h'.definitions,
    h'.generations.trans h.generations, fun id => (h'.held id).trans (h.held id)⟩

theorem foldl {α : Type} {f : Tables → α → Tables} (hf : ∀ t a, KeepsTiers t (f t a)) (t : Tables)
    (as : List α) : KeepsTiers t (as.foldl f t) := by
  induction as generalizing t with
  | nil => exact refl t
  | cons a as ih => exact (hf t a).trans (ih _)

theorem of_sameNodes (hs : SameNodes t t') (he : SameEdges t t') : KeepsTiers t t' :=
  ⟨he, hs.sameDefinitions, hs.generations, fun _ => by rw [hs.nodes]⟩

end KeepsTiers

namespace Tables

variable (t : Tables)

theorem writeProofs_keepsTiers (ids : List String) : KeepsTiers t (t.writeProofs ids) where
  edges := SameEdges.foldl (f := writeProof) (fun _ _ => ⟨rfl, rfl, rfl, rfl, rfl⟩) t ids
  definitions := t.writeProofs_sameDefinitions ids
  generations := t.writeProofs_generations ids
  held := by
    intro id
    rw [Std.ExtTreeMap.contains_eq_isSome_getElem?, writeProofs_getElem?, Option.isSome_map,
      Std.ExtTreeMap.contains_eq_isSome_getElem?]

theorem proofsChanged_keepsTiers (proofs : List ProofRow) (owed : Std.ExtTreeSet String) :
    KeepsTiers t { t with proofs := proofs, proofsOwed := owed } :=
  .of_sameNodes ⟨rfl, rfl, rfl, rfl, rfl⟩ ⟨rfl, rfl, rfl, rfl, rfl⟩

theorem foldTestEvidence_keepsTiers (r : EdgeInferred) (position : Nat) :
    KeepsTiers t (t.foldTestEvidence r position) := by
  have hopened : KeepsTiers t
      (if r.fresh then t.supersedeFileProof (t.resolve r.file) else t) := by
    split
    · exact (t.proofsChanged_keepsTiers _ t.proofsOwed).trans (writeProofs_keepsTiers _ _)
    · exact .refl t
  unfold foldTestEvidence
  dsimp only
  split
  · exact hopened
  · exact hopened.trans (proofsChanged_keepsTiers _ _ _)

theorem settleName_keepsTiers (name : String) : KeepsTiers t (t.settleName name) :=
  ((t.proofsChanged_keepsTiers _ t.proofsOwed).trans (writeProofs_keepsTiers _ _)).trans
    (writeProofs_keepsTiers _ _)

theorem settleProofs_keepsTiers : KeepsTiers t t.settleProofs :=
  (KeepsTiers.foldl settleName_keepsTiers t _).trans (proofsChanged_keepsTiers _ _ _)

theorem relabel_keepsTiers (community : String) : KeepsTiers t (t.relabel community) :=
  ⟨⟨rfl, rfl, rfl, rfl, rfl⟩, t.relabel_sameDefinitions community, rfl,
    Links.contains_alter_map _ _ _⟩

theorem relabelOwedCommunities_keepsTiers : KeepsTiers t t.relabelOwedCommunities :=
  (KeepsTiers.foldl relabel_keepsTiers t _).trans
    (.of_sameNodes ⟨rfl, rfl, rfl, rfl, rfl⟩ ⟨rfl, rfl, rfl, rfl, rfl⟩)

end Tables

namespace Tiers

variable {called : String → Prop} {space : String → NodeKind} {pending : NodeAssertion → Prop}
    {skip : String → Prop}
  {t t' : Tables} {by_ : Asserter}

theorem empty : Tiers called space pending skip .empty := ⟨.empty, .empty, .empty⟩

theorem keepsTiers (h : Tiers called space pending skip t) (hk : KeepsTiers t t') :
    Tiers called space pending skip t' :=
  ⟨h.names.frame hk.definitions.names, h.named.frame hk.definitions.names,
    h.graded.sameEdges hk.edges hk.generations hk.held hk.definitions.definitionName⟩

theorem sameNodes (h : Tiers called space pending skip t) (hs : SameNodes t t')
    (hg : Graded called (Attachable space) skip (fun _ _ => False) t') :
    Tiers called space pending skip t' :=
  ⟨h.names.frame hs.keepsNames, h.named.frame hs.keepsNames, hg⟩

/-! ## The generation rule -/

theorem settling (called : String → Prop) (space : String → NodeKind) (by_ : Asserter) :
    Settling by_ (fun _ => True) fun pending _ t =>
    Tiers called space pending (fun _ => False) t where
  rows := fun h => h.names.rows
  mono := fun hp h => ⟨h.names.mono hp, h.named, h.graded⟩
  first := fun hid hnone h =>
    ⟨h.names.frame (h.names.began_keepsNames hid hnone), h.named,
      h.graded.fadeSame (h.graded.links.began hnone) (.of_edges rfl) (.of_rows rfl) fun _ => rfl⟩
  supersede := fun {_ t prior} hid hprior hne _ h =>
    ⟨h.names.settledEdges hid hprior,
      fun id n name hn => h.named id n name
        (by rw [(t.settledEdges_sameNodes by_ prior).nodes] at hn; exact hn),
      h.graded.settledEdges hid hprior⟩
  settle := fun hr hp h => ⟨h.names.settleNode hr hp _, h.named.settleNode _ _ _,
    h.graded.settleNode _ _ (fun _ hname => (h.named.of_definitionName hname).2)
      (h.names.settleNode_definitionName hr hp _)⟩

/-! ## Staged references -/

theorem refsChanged (h : Tiers called space pending skip t) (refs : List StagedRow) :
    Tiers called space pending skip { t with refs := refs } := by
  have hs : SameNodes t { t with refs := refs } := ⟨rfl, rfl, rfl, rfl, rfl⟩
  exact h.sameNodes hs
    (h.graded.fadeSame (h.graded.links.fade (.of_edges rfl) rfl rfl rfl (fun _ hd => hd)
      (fun _ => rfl) fun _ hl => .inl hl) (.of_edges rfl) (.of_rows rfl) fun _ => rfl)

theorem leafDefinitions_named {leaf : String} {rule : String → Attrs → Bool} {file : Option String}
    {id : String} (h : id ∈ t.leafDefinitions leaf rule file) :
    (∃ n : Node, t.nodes[id]? = some n ∧ n.attrs["name"]? = some leaf) ∧
      ∀ f, file = some f → idRange f id = true := by
  obtain ⟨-, hany⟩ := List.mem_filter.1 h
  obtain ⟨n, hn, hof⟩ := (Option.any_eq_true _ _).1 hany
  simp only [Bool.and_eq_true, beq_iff_eq, Option.all_eq_true] at hof
  obtain ⟨⟨⟨hleaf, -⟩, -⟩, hfile⟩ := hof
  exact ⟨⟨n, hn, (Option.filter_eq_some_iff.1 hleaf).1⟩, hfile⟩

/-- Where a reference's row settles: on a definition, extracted where it is of the row's file. -/
theorem settling_target (h : Named called t) {rel : Rel} {row : StagedRow} {target : String}
    (hrel : stagedRel row.refKind = some rel) (href : referring rel = true)
    (htarget : (t.settling rel row).target = some target) :
    leafOf target = none ∧ ((t.settling rel row).tier = .extracted ∨
      (t.settling rel row).tier = .inferred ∧ idRange (splitId row.from_).1 target = false) := by
  have hkind : row.refKind ≠ refKindModule := by
    intro hmodule
    rw [stagedRel, if_pos hmodule, Option.some.injEq] at hrel
    subst hrel
    cases href
  unfold Tables.settling at htarget ⊢
  rw [if_neg hkind] at htarget ⊢
  unfold Tables.settledTarget at htarget ⊢
  dsimp only at htarget ⊢
  generalize hrule : (fun (_ : String) (attrs : Attrs) =>
    attrs["kind"]?.any (referenceCandidateKinds row.refKind).contains &&
      attrs["lang"]? == some row.lang) = rule at htarget ⊢
  have hone : ∀ {l : List String}, theOne l = some target → l = [target] := by
    intro l hl
    unfold theOne at hl
    split at hl
    · rw [Option.some.inj hl]
    · cases hl
  have hnamed : ∀ file, target ∈ t.leafDefinitions row.leaf rule file → leafOf target = none := by
    intro file hmem
    obtain ⟨⟨n, hn, hname⟩, -⟩ := leafDefinitions_named hmem
    exact (h target n row.leaf hn hname).1
  rcases Option.or_eq_some_iff.1 htarget with hsame | ⟨hnone, hproject⟩
  · rw [hsame] at htarget ⊢
    refine ⟨hnamed (some (splitId row.from_).1) ?_, .inl ?_⟩
    · rw [hone hsame]
      exact List.mem_singleton_self _
    · simp
  · have hmem : target ∈ t.leafDefinitions row.leaf rule none := by
      rw [hone hproject]
      exact List.mem_singleton_self _
    refine ⟨hnamed none hmem, .inr ⟨?_, ?_⟩⟩
    · rw [hnone, hproject]
      simp
    · -- of the file's range, it would be the file's one as it is the project's
      rw [← Bool.not_eq_true]
      intro hrange
      have hfile : ∀ id, id ∈ t.leafDefinitions row.leaf rule (some (splitId row.from_).1) ↔
          id = target := by
        intro id
        have hsub : id ∈ t.leafDefinitions row.leaf rule (some (splitId row.from_).1) →
            id ∈ t.leafDefinitions row.leaf rule none := by
          unfold Tables.leafDefinitions
          simp only [List.mem_filter, Option.any_eq_true, Bool.and_eq_true, Option.all_none]
          rintro ⟨hid, n, hn, hof, -⟩
          exact ⟨hid, n, hn, hof, True.intro⟩
        constructor
        · intro hid
          have := hsub hid
          rwa [hone hproject, List.mem_singleton] at this
        · rintro rfl
          unfold Tables.leafDefinitions at hmem ⊢
          simp only [List.mem_filter, Option.any_eq_true, Bool.and_eq_true, Option.all_none] at hmem
          obtain ⟨hid, n, hn, hof, -⟩ := hmem
          simp only [List.mem_filter, Option.any_eq_true, Bool.and_eq_true, Option.all_some]
          exact ⟨hid, n, hn, hof, hrange⟩
      have honly := (theOne_eq_some_iff (t.nodup_leafDefinitions row.leaf rule
        (some (splitId row.from_).1)) (a := target)).2
          ⟨(hfile target).2 rfl, fun id hid => (hfile id).1 hid⟩
      rw [hnone] at honly
      cases honly

theorem settleReference (h : Tiers called space pending skip t) (by_ : Asserter) (row : StagedRow) :
    Tiers called space pending skip (t.settleReference by_ row) := by
  refine Tables.settleReference_keeps t by_ (I := Tiers called space pending skip) (fun hu => ?_)
    (fun hu => ?_) (fun hrel htarget hu => ?_) h
  · exact hu.refsChanged _
  · exact hu.sameNodes (Tables.releaseReference_sameNodes _ _ _ _)
      (hu.graded.releaseReference _ _ _)
  · refine hu.sameNodes (Tables.assertLink_sameNodes _ _ _ _ _ _ _ _)
      (hu.graded.assertLink _ _ _ _ _ _ _ ?_ fun href => settling_target h.named hrel href htarget)
    unfold stagedRel at hrel
    split at hrel
    · cases hrel
      rfl
    · split at hrel
      · cases hrel
        rfl
      · cases hrel

theorem settleReferences (h : Tiers called space pending skip t) (hid : by_.identity ≠ "")
    (hcurrent : by_.Current t) : Tiers called space pending skip (t.settleReferences by_) := by
  have hsettled : ∀ (rows : List StagedRow) {t : Tables}, Tiers called space pending skip t →
      Tiers called space pending skip (rows.foldl (fun t row => t.settleReference by_ row) t) := by
    intro rows
    induction rows with
    | nil => exact fun h => h
    | cons row rows ih => exact fun h => ih (h.settleReference by_ row)
  have hnodes := SameNodes.foldl (fun t row => t.settleReference_sameNodes by_ row) t
    (t.stagedRows by_.identity)
  have hall := hsettled (t.stagedRows by_.identity) h
  exact hall.sameNodes ⟨rfl, rfl, rfl, rfl, rfl⟩
    (hall.graded.dropStale hid ((hcurrent.congr hnodes.generations).resolve_left hid) _)

end Tiers

/-! ## Asserting a node -/

/-- What holds within an event, but for the definitions of `skip`. -/
def Grading (called : String → Prop) (space : String → NodeKind) (by_ : Asserter)
    (prior : Option String)
    (skip : String → Prop) (_ : List Assertion) (t : Tables) : Prop :=
  Tiers called space (by_.Pending prior) skip t ∧ by_.Current t ∧ prior ≠ some by_.generation

theorem Names.ensureNode_held {space : String → NodeKind} {pending : NodeAssertion → Prop}
    {t : Tables} {by_ : Asserter} (h : Names space pending t)
    (hpending : ∀ r, pending r → r.identity = by_.identity ∧ r.generation ≠ by_.generation)
    (hby : by_.Known) (hcurrent : by_.Current t) {id : String} {kind : NodeKind}
    (hkind : kind = .artifact ∨ kind = space id) {attrs : List (String × String)}
    (hattrs : Asserts kind attrs) {x : NodeAssertion} (hx : x ∈ t.liveAssertions id)
    (hxname : x.attrs.contains "name" = true) :
    (t.ensureNode by_ id kind attrs).definitionName id =
      (t.written id kind (.ofList attrs)).definitionName id := by
  have hensured := h.ensureNode hpending hby hcurrent hkind hattrs
  obtain ⟨hrec, hgens, -, hself⟩ := t.ensureNode_cases by_ id kind h.rows.distinct attrs
  rw [definitionName_eq, definitionName_eq, t.written_self, Option.bind_some]
  rcases hself with ⟨hself, -⟩ | ⟨r, hr, hof, hgen, hself⟩
  · rw [hself]
    rfl
  · obtain ⟨hxmem, hxnode, hxholds⟩ := t.mem_liveAssertions.1 hx
    obtain ⟨own, -, -, hmem, -⟩ := hrec.own
    -- the live row is another identity's, so it is live after
    have hforeign : x.isOf by_.identity id = false := by
      rw [← Bool.not_eq_true]
      intro hxof
      have hxr := h.rows.distinct.eq_of_isOf hxmem hr hxof hof
      exact hgen (hxr ▸ h.rows.generation_of_holds hby hcurrent hxmem
        (NodeAssertion.isOf_iff.1 hxof).1 hxholds)
    have hxlive : x ∈ (t.ensureNode by_ id kind attrs).liveAssertions id := by
      refine (Tables.mem_liveAssertions _).2 ⟨(hmem x).2 (.inr ⟨hxmem, hforeign⟩), hxnode, ?_⟩
      rw [t.ensureNode_holds by_ id kind h.rows.distinct attrs]
      exact hxholds
    have hsettled := Names.settled_codeEntity hensured.recorded hxlive hxname
    rw [hsettled, Option.map_some] at hself
    rw [hself, Option.bind_some]
    have hkeys : ∀ key, x.attrs.contains key = true → ∀ row retracted : Attrs,
        (retract row retracted (((t.ensureNode by_ id kind attrs).liveAssertions id).map
          NodeAssertion.attrs))[key]? = row[key]? := by
      intro key hkey row retracted
      have hany : (((t.ensureNode by_ id kind attrs).liveAssertions id).map
          NodeAssertion.attrs).any (·.contains key) = true :=
        List.any_eq_true.2 ⟨x.attrs, List.mem_map_of_mem hxlive, hkey⟩
      rw [retract_getElem?, hany]
      simp
    have hname := hkeys "name" hxname
      (Tables.upserted (t.restored id kind) kind (.ofList attrs)).attrs
      r.attrs
    have hkindKey := hkeys "kind" (by rw [(h.recorded x hxmem).keys, hxname])
      (Tables.upserted (t.restored id kind) kind (.ofList attrs)).attrs r.attrs
    cases hnamed : (Tables.upserted (t.restored id kind) kind
        (.ofList attrs)).attrs.contains "name" with
    | true =>
      refine nameOf_congr ?_ hname hkindKey
      rw [h.upserted_codeEntity hkind hattrs.keys.2 hnamed]
    | false =>
      rw [nameOf_unnamed hnamed, nameOf_unnamed]
      rw [contains_eq_false_iff] at hnamed ⊢
      exact hname.trans hnamed

namespace Grading

variable {called : String → Prop} {space : String → NodeKind} {by_ : Asserter}
    {prior : Option String}
  {skip skip' : String → Prop} {live live' : List Assertion} {t t' : Tables} {id : String}

theorem pending (h : Grading called space by_ prior skip live t) :
    ∀ r, by_.Pending prior r → r.identity = by_.identity ∧ r.generation ≠ by_.generation :=
  fun _ hr => ⟨hr.1, fun he => h.2.2 (he ▸ hr.2)⟩

theorem sameNodes (h : Grading called space by_ prior skip live t) (hs : SameNodes t t')
    (hg : Graded called (Attachable space) skip' (fun _ _ => False) t') :
    Grading called space by_ prior skip' live' t' :=
  ⟨⟨h.1.names.frame hs.keepsNames, h.1.named.frame hs.keepsNames, hg⟩, h.2.1.congr hs.generations,
    h.2.2⟩

theorem keepsTiers (h : Grading called space by_ prior skip live t) (hk : KeepsTiers t t') :
    Grading called space by_ prior skip live' t' :=
  ⟨h.1.keepsTiers hk, h.2.1.congr hk.generations, h.2.2⟩

theorem addEdge (h : Grading called space by_ prior skip live t) (src dst : String) {rel : Rel}
    (at_ : Int) (source : Nat) (tier : Tier) (hattach : attaching rel = false)
    (hrefers : referring rel = false) :
    Grading called space by_ prior skip live' (t.addEdge src dst rel at_ source tier).1 := by
  have hnot : ¬referring rel = true := by simp [hrefers]
  have hnone : ¬attaching rel = true := by simp [hattach]
  exact h.sameNodes (t.addEdge_sameNodes ..) (h.1.graded.addEdge src dst _ at_ source tier
    (fun hr => absurd hr hnone) (fun hr => absurd hr hnot) (fun hr => absurd hr hnot)
    fun hr => absurd hr hnot)

theorem superseded (h : Grading called space by_ prior skip live t) (live' : List Assertion)
    (fresh : Bool) (file : String) : Grading called space by_ prior skip live'
    (if fresh then t.supersedeFileEdges file by_.at_ else t) := by
  split
  · have howed : Graded called (Attachable space) skip (fun _ _ => False)
        (t.oweRelabelOf file true) :=
      h.1.graded.sameEdges (t.oweRelabel_sameEdges _) rfl (fun _ => rfl) fun _ => rfl
    exact h.sameNodes (t.supersedeFileEdges_sameNodes file by_.at_) (howed.retireEdges _ _)
  · exact h

variable {attrs : List (String × String)} {kind : NodeKind}

/-- What is asserted bare defines what it defined, or nothing. -/
theorem ensurePlain_definitionName (h : Grading called space by_ prior skip live t)
    (hby : by_.Known) (hA : OneKind space (by_.assert id kind)) (hplain : Plain attrs) :
    (∀ other, other ≠ id →
      (t.ensureNode by_ id kind attrs).definitionName other = t.definitionName other) ∧
    ((t.ensureNode by_ id kind attrs).definitionName id = t.definitionName id ∨
      (t.ensureNode by_ id kind attrs).definitionName id = none) := by
  obtain ⟨-, -, hne, -⟩ := t.ensureNode_cases by_ id kind h.1.names.rows.distinct attrs
  refine ⟨fun other hother => ?_, ?_⟩
  · rw [definitionName_eq, definitionName_eq, hne other hother]
  · rw [← h.1.names.written_definitionName id kind hplain]
    exact h.1.names.ensureNode_definitionName h.pending hby h.2.1 hA (.inl hplain)

theorem ensurePlain (h : Grading called space by_ prior skip live t) (live' : List Assertion)
    (hby : by_.Known) (id : String) (hA : OneKind space (by_.assert id kind))
    (hplain : Plain attrs) :
    Grading called space by_ prior skip live' (t.ensureNode by_ id kind attrs) := by
  have hrows := h.1.names.rows.distinct
  have hsame : ∀ other, (t.written id kind (.ofList attrs)).definitionName other =
      t.definitionName other := by
    intro other
    by_cases hother : other = id
    · subst hother
      exact h.1.names.written_definitionName _ kind hplain
    · rw [definitionName_eq, definitionName_eq, t.written_ne id kind _ hother]
  have hwritten : Graded called (Attachable space) skip (fun _ _ => False)
      (t.written id kind (.ofList attrs)) :=
    h.1.graded.written id kind _ (fun name to_ => (Graded.bound_congr hsame name to_).1)
      fun name to_ hb => hb.imp_left (Graded.bound_congr hsame name to_).2
  refine ⟨⟨h.1.names.ensureNode h.pending hby h.2.1 hA (.inl hplain),
    h.1.named.ensureNode h.1.names by_ id kind attrs fun name hname => ?_,
    hwritten.ensureNode hrows (fun name hname => ?_) ?_⟩,
    h.2.1.congr (t.ensureNode_generations by_ id kind attrs), h.2.2⟩
  · rw [hplain.name] at hname
    cases hname
  · rw [hsame] at hname
    exact (h.1.named.of_definitionName hname).2
  · exact h.1.names.ensureNode_definitionName h.pending hby h.2.1 hA (.inl hplain)

/-! ## A definition -/

variable {c : CodeEntityExtracted} {entity : String}

/-- A node named by a definition: the name it had is undone, its new one left to promote by. -/
theorem defineEntity (h : Grading called space by_ prior (fun _ => False) live t)
    (live' : List Assertion) (hby : by_.Known) (hA : OneKind space (by_.assert entity .codeEntity))
    (hleaf : leafOf entity = none) (hsigil : Unsigiled called c.name) :
    Grading called space by_ prior (· = entity) live' (t.defineEntity by_ c entity) ∧
      ∀ name, (t.defineEntity by_ c entity).definitionName entity = some name → name = c.name := by
  have hasserts : Asserts .codeEntity (t.definitionAttrs by_ c entity) :=
    .inr ⟨rfl, c.name, _, _, c.lang, rfl⟩
  have hrows := h.1.names.rows.distinct
  have hdefine : t.defineEntity by_ c entity =
      (t.ensureNode by_ entity .codeEntity (t.definitionAttrs by_ c entity)).undoWhatResolvedAgainst
        entity (t.definitionName entity) := rfl
  have hnaming : ∀ name, (t.written entity .codeEntity
      (.ofList (t.definitionAttrs by_ c entity))).definitionName entity = some name →
      name = c.name :=
    fun name hname => Tables.written_naming hname
  have hne : ∀ other, other ≠ entity → (t.written entity .codeEntity
      (.ofList (t.definitionAttrs by_ c entity))).definitionName other =
      t.definitionName other := by
    intro other hother
    rw [definitionName_eq, definitionName_eq, t.written_ne entity .codeEntity _ hother]
  have hwritten : Graded called (Attachable space) (· = entity)
      (fun name to_ => False ∨ t.definitionName entity = some name ∧ to_ ≠ entity)
      (t.written entity .codeEntity (.ofList (t.definitionAttrs by_ c entity))) := by
    refine h.1.graded.written entity .codeEntity _ ?_ ?_
    · rintro name to_ ⟨other, hother, hto, hdef⟩
      exact ⟨other, fun hf => hf, hto, (hne other hother).symm.trans hdef⟩
    · rintro name to_ (⟨other, -, hto, hdef⟩ | hf)
      · by_cases hother : other = entity
        · subst hother
          exact .inr (.inr ⟨hdef, Ne.symm hto⟩)
        · exact .inl ⟨other, fun hf => hf, hto, (hne other hother).trans hdef⟩
      · exact hf.elim
  have hensured := hwritten.ensureNode hrows
    (fun name hname => hnaming name hname ▸ hsigil)
    (h.1.names.ensureNode_definitionName h.pending hby h.2.1 hA hasserts)
  have hnames := h.1.names.ensureNode h.pending hby h.2.1 hA hasserts
  have hkeeps := (t.ensureNode by_ entity .codeEntity
    (t.definitionAttrs by_ c entity)).undoWhatResolvedAgainst_keepsNames entity
      (t.definitionName entity)
  have hnamed := h.1.named.ensureNode h.1.names by_ entity .codeEntity
    (t.definitionAttrs by_ c entity) fun name hname => by
      have hasserted := (naming_getElem? c.name (t.settlingDefinition by_ entity c.kind c.line).1
        (toString (t.settlingDefinition by_ entity c.kind c.line).2) c.lang).1
      have hname : some c.name = some name := hasserted.symm.trans hname
      rw [← Option.some.inj hname]
      exact ⟨hleaf, hsigil⟩
  have hgens := t.ensureNode_generations by_ entity .codeEntity (t.definitionAttrs by_ c entity)
  rw [hdefine]
  refine ⟨⟨⟨hnames.frame hkeeps, hnamed.frame hkeeps,
    Graded.undoWhatResolvedAgainst hensured fun name hname =>
      (h.1.named.of_definitionName hname).2⟩, ?_, h.2.2⟩, fun name hname => ?_⟩
  · exact (h.2.1.congr hgens).congr (Tables.undoWhatResolvedAgainst_rows _ _ _).2
  · rw [Tables.definitionName_congr (Tables.undoWhatResolvedAgainst_nodes _ _ _)] at hname
    exact h.1.names.ensureNode_naming h.pending hby h.2.1 hA _ _ _ _ hname

/-- An asserter's node asserted once keeps its name when it asserts it bare again. -/
theorem ensureNode_asserted (h : Grading called space by_ prior skip live t) (hplain : Plain attrs)
    (hasserted : ∀ r ∈ t.nodeAssertions, r.isOf by_.identity id = true →
      r.generation = by_.generation) :
    (t.ensureNode by_ id kind attrs).definitionName id = t.definitionName id := by
  obtain ⟨-, -, -, hself⟩ := t.ensureNode_cases by_ id kind h.1.names.rows.distinct attrs
  rw [← h.1.names.written_definitionName id kind hplain, definitionName_eq,
    definitionName_eq, t.written_self]
  rcases hself with ⟨hself, -⟩ | ⟨r, hr, hof, hgen, -⟩
  · rw [hself]
  · exact absurd (hasserted r hr hof) hgen

theorem contain (h : Grading called space by_ prior skip live t) (live' : List Assertion)
    (hby : by_.Known) (position : Nat) (c : CodeEntityExtracted) (file : String)
    (hA : ∀ parent, c.parentPath = some parent →
      OneKind space (by_.assert (entityId file parent) .codeEntity))
    (hasserted : ∀ r ∈ t.nodeAssertions, r.isOf by_.identity entity = true →
      r.generation = by_.generation) :
    Grading called space by_ prior skip live' (t.contain by_ position c file entity) ∧
      (t.contain by_ position c file entity).definitionName entity = t.definitionName entity := by
  unfold Tables.contain
  cases hparent : c.parentPath with
  | none =>
    exact ⟨h.addEdge _ _ _ _ _ rfl rfl,
      Tables.definitionName_congr (t.addEdge_sameNodes _ _ _ _ _ _).nodes entity⟩
  | some parent =>
    have hensured : Grading called space by_ prior skip live
        (t.ensureNode by_ (entityId file parent) .codeEntity []) :=
      h.ensurePlain _ hby _ (hA parent hparent) plain_nil
    refine ⟨hensured.addEdge _ _ _ _ _ rfl rfl, ?_⟩
    rw [Tables.definitionName_congr (Tables.addEdge_sameNodes _ _ _ _ _ _ _).nodes]
    by_cases hself : entity = entityId file parent
    · rw [hself] at hasserted ⊢
      exact h.ensureNode_asserted plain_nil hasserted
    · exact (h.ensurePlain_definitionName hby (hA parent hparent) plain_nil).1 entity hself

theorem foldDefinition (h : Grading called space by_ prior (fun _ => False) live t)
    (hby : by_.Known) (position : Nat)
    (hleaf : leafOf (entityId (t.resolve c.file) c.idPath) = none)
    (hsigil : Unsigiled called c.name) (hA : ∀ a ∈ t.assertedDefinition by_ c, OneKind space a) :
    Grading called space by_ prior (fun _ => False) live' (t.foldDefinition by_ position c) := by
  have hheld : Grading called space by_ prior (fun _ => False) live
      ((if c.fresh then t.supersedeFileEdges (t.resolve c.file) by_.at_ else t).ensureNode by_
        (t.resolve c.file) .file (Tables.fileAttrs c.lang c.partial_)) :=
    (h.superseded live c.fresh (t.resolve c.file)).ensurePlain _ hby _
      (hA _ (List.mem_cons_self ..)) (plain_fileAttrs _ _)
  unfold Tables.foldDefinition
  dsimp only
  generalize (if c.fresh then t.supersedeFileEdges (t.resolve c.file) by_.at_ else t).ensureNode by_
    (t.resolve c.file) .file (Tables.fileAttrs c.lang c.partial_) = held at hheld ⊢
  have hentity := hA _ (List.mem_cons_of_mem _ (List.mem_cons_self ..))
  obtain ⟨hdefined, hname⟩ := hheld.defineEntity live hby hentity hleaf hsigil
  -- the entity's own row is of this generation now
  have hasserted : ∀ r ∈ (held.defineEntity by_ c
      (entityId (t.resolve c.file) c.idPath)).nodeAssertions,
      r.isOf by_.identity (entityId (t.resolve c.file) c.idPath) = true →
        r.generation = by_.generation := by
    intro r hr hof
    obtain ⟨hrec, -⟩ := held.ensureNode_cases by_ (entityId (t.resolve c.file) c.idPath) .codeEntity
      hheld.1.names.rows.distinct
      (held.definitionAttrs by_ c (entityId (t.resolve c.file) c.idPath))
    obtain ⟨own, -, hgen, hmem, -⟩ := hrec.own
    have hr : r ∈ (held.ensureNode by_ (entityId (t.resolve c.file) c.idPath) .codeEntity
        (held.definitionAttrs by_ c (entityId (t.resolve c.file) c.idPath))).nodeAssertions := by
      rw [← (Tables.undoWhatResolvedAgainst_rows _ (entityId (t.resolve c.file) c.idPath)
        (held.definitionName (entityId (t.resolve c.file) c.idPath))).1]
      exact hr
    rcases (hmem r).1 hr with rfl | ⟨-, hnot⟩
    · exact hgen
    · rw [hof] at hnot
      cases hnot
  generalize held.defineEntity by_ c (entityId (t.resolve c.file) c.idPath) = defined at *
  obtain ⟨hcontained, hkept⟩ := hdefined.contain live hby position c (t.resolve c.file)
      (fun parent hparent =>
      hA _ (by simp [Tables.assertedDefinition, hparent])) hasserted
  rw [← hkept] at hname
  split
  case isTrue hsome =>
    obtain ⟨name, hdef⟩ := Option.isSome_iff_exists.1 hsome
    rw [← hkept] at hdef
    have hdefName := hname name hdef
    subst hdefName
    have hpromoted := hcontained.1.graded.promoteEdges hname hdef hsigil
    refine hcontained.sameNodes ((Tables.updateEdges_sameNodes _ _ _).trans
      (Tables.oweProofs_sameNodes _ _)) ?_
    exact hpromoted.sameEdges (Tables.oweProofs_sameEdges _ _) rfl (fun _ => rfl) fun _ => rfl
  case isFalse hnone =>
    rw [Bool.not_eq_true, Option.isSome_eq_false_iff, Option.isNone_iff_eq_none, ← hkept] at hnone
    refine hcontained.sameNodes (.refl _) (hcontained.1.graded.mono (fun name to_ => ?_)
      fun _ _ hf => hf.elim)
    rintro ⟨id, -, hto, hdef⟩
    refine ⟨id, ?_, hto, hdef⟩
    rintro rfl
    rw [hnone] at hdef
    cases hdef

/-! ## A call -/

end Grading

namespace Tables

variable (t : Tables)

/-- A call lands on its file's one candidate, or on its placeholder at the tier its leaf gives. -/
theorem landing_cases (file name : String) :
    (∃ one ∈ t.sameFileCandidates file name, t.landing file name = (one, .extracted)) ∨
      ∃ tier, t.landing file name = (placeholderId file name, tier) ∧ tier ≠ .extracted ∧
        (tier = .inferred ↔ t.Bound (fun _ => False) name (placeholderId file name)) := by
  unfold landing
  split
  case h_1 one hone => exact .inl ⟨one, by rw [hone]; exact List.mem_singleton_self _, rfl⟩
  case h_2 =>
    refine .inr ⟨_, rfl, ?_, ?_⟩
    · split <;> exact nofun
    · rw [← any_callTargets]
      split
      case isTrue hany => simp [hany]
      case isFalse hnone => simp [hnone]

/-- A caller that defines the very name it calls is named by a live assertion, or another node
defines the name too. -/
def CallerHolds (r : EdgeInferred) (file : String) : Prop :=
  ∀ caller, r.caller = some caller → t.definitionName (entityId file caller) = some r.name →
    (∃ x ∈ t.liveAssertions (entityId file caller), x.attrs.contains "name" = true) ∨
      ∃ other, other ≠ entityId file caller ∧ t.definitionName other = some r.name

end Tables

/-- A call's target and tier: a definition, or a placeholder inferred exactly while bound. -/
def Tables.Grades (t : Tables) (name dst : String) (tier : Tier) : Prop :=
  leafOf dst = none ∧ tier = .extracted ∨ leafOf dst = some name ∧ tier ≠ .extracted ∧
    (tier = .inferred ↔ t.Bound (fun _ => False) name dst)

namespace Grading

variable {called : String → Prop} {space : String → NodeKind} {by_ : Asserter}
    {prior : Option String}
  {live live' : List Assertion} {t t' : Tables} {id : String}
  {dst file : String} {tier : Tier} {kind : NodeKind} {r : EdgeInferred}

theorem addCall (h : Grading called space by_ prior (fun _ => False) live t) (src : String)
    {name : String} {rel : Rel} (at_ : Int) (source : Nat) (hattach : attaching rel = false)
    (hcalled : called name) (hgrades : t.Grades name dst tier) :
    Grading called space by_ prior (fun _ => False) live'
    (t.addEdge src dst rel at_ source tier).1 := by
  have hnot : ¬attaching rel = true := by simp [hattach]
  refine h.sameNodes (t.addEdge_sameNodes ..) (h.1.graded.addEdge src dst _ at_ source tier
    (fun hr => absurd hr hnot) ?_ ?_ ?_)
  · intro hrel hleaf e he hl hfrom hto herel
    rcases hgrades with ⟨hnone, -⟩ | ⟨hsome, htier, hbound⟩
    · rw [hnone] at hleaf
      cases hleaf
    · obtain ⟨-, -, hne, hlow, hhigh⟩ := (h.1.graded.fits e he hl (herel ▸ hrel)).placeholder name
        (hto ▸ hsome)
      rw [hto] at hlow hhigh
      by_cases hb : t.Bound (fun _ => False) name dst
      · rw [hlow hb, hbound.2 hb]
      · have hambiguous : e.tier ≠ .inferred := fun ht => (hhigh ht).elim hb fun hf => hf
        have hambiguous' : tier ≠ .inferred := fun ht => hb (hbound.1 ht)
        revert hne hambiguous htier hambiguous'
        cases e.tier <;> cases tier <;> simp
  · intro _ leaf hleaf
    rcases hgrades with ⟨hnone, -⟩ | ⟨hsome, htier, hbound⟩
    · rw [hnone] at hleaf
      cases hleaf
    · rw [hsome, Option.some.injEq] at hleaf
      subst hleaf
      exact ⟨hcalled, htier, hbound.2, fun ht => .inl (hbound.1 ht)⟩
  · intro _ hleaf
    rcases hgrades with ⟨-, htier⟩ | ⟨hsome, -⟩
    · exact htier
    · rw [hsome] at hleaf
      cases hleaf

theorem landing_grades (h : Named called t) (name : String) (hfile : IsPath file) :
    t.Grades name (t.landing file name).1 (t.landing file name).2 := by
  rcases t.landing_cases file name with ⟨one, hone, heq⟩ | ⟨tier, heq, hne, hbound⟩
  · rw [heq]
    unfold Tables.sameFileCandidates Tables.liveCallTargets at hone
    obtain ⟨⟨n, hn, hname⟩, -⟩ := Tiers.leafDefinitions_named hone
    exact .inl ⟨(h one n name hn hname).1, rfl⟩
  · rw [heq]
    exact .inr ⟨leafOf_placeholderId hfile name, hne, hbound⟩

/-- Asserting a node bare leaves a target its grade, where the node keeps the target's name or
another bears it. -/
theorem grades_ensurePlain (h : Grading called space by_ prior (fun _ => False) live t)
    (hby : by_.Known) (hA : OneKind space (by_.assert id kind)) {attrs : List (String × String)}
    (hplain : Plain attrs) (name : String) (hgrades : t.Grades name dst tier)
    (hkept : leafOf dst = some name → t.definitionName id = some name →
      (t.ensureNode by_ id kind attrs).definitionName id = some name ∨
        ∃ other, other ≠ id ∧ other ≠ dst ∧ t.definitionName other = some name) :
    (t.ensureNode by_ id kind attrs).Grades name dst tier := by
  obtain ⟨hne, hself⟩ := h.ensurePlain_definitionName hby hA hplain
  refine hgrades.imp_right fun ⟨hleaf, htier, hbound⟩ => ⟨hleaf, htier, hbound.trans ⟨?_, ?_⟩⟩
  · rintro ⟨other, -, hto, hdef⟩
    by_cases hother : other = id
    · subst hother
      rcases hkept hleaf hdef with hkeep | ⟨third, hthird, hto', hdef'⟩
      · exact ⟨other, fun hf => hf, hto, hkeep⟩
      · exact ⟨third, fun hf => hf, hto', (hne third hthird).trans hdef'⟩
    · exact ⟨other, fun hf => hf, hto, (hne other hother).trans hdef⟩
  · rintro ⟨other, -, hto, hdef⟩
    refine ⟨other, fun hf => hf, hto, ?_⟩
    by_cases hother : other = id
    · subst hother
      rcases hself with heq | hnone
      · rw [← heq, hdef]
      · rw [hnone] at hdef
        cases hdef
    · rw [← hne other hother, hdef]

theorem foldCall (h : Grading called space by_ prior (fun _ => False) live t) (hby : by_.Known)
    (position : Nat) (hfile : IsPath file) (hcalled : called r.name)
    (htarget : OneKind space (by_.assert (t.landing file r.name).1 .codeEntity))
    (hcaller : ∀ caller, r.caller = some caller →
      OneKind space (by_.assert (entityId file caller) .codeEntity))
      (hholds : t.CallerHolds r file) :
    Grading called space by_ prior (fun _ => False) live' (t.foldCall by_ position r file) := by
  have hgrades := landing_grades h.1.named r.name hfile
  unfold Tables.foldCall
  dsimp only
  generalize t.landing file r.name = landed at htarget hgrades ⊢
  obtain ⟨target, tier⟩ := landed
  dsimp only at htarget hgrades ⊢
  have hunnamed : leafOf target = some r.name → ∀ {u : Tables}, Named called u →
      u.definitionName target = none := by
    intro hleaf u hu
    cases hdef : u.definitionName target with
    | none => rfl
    | some name =>
      rw [(hu.of_definitionName hdef).1] at hleaf
      cases hleaf
  have hensured : Grading called space by_ prior (fun _ => False) live
      (t.ensureNode by_ target .codeEntity []) := h.ensurePlain _ hby _ htarget plain_nil
  have hgraded := h.grades_ensurePlain hby htarget plain_nil r.name hgrades fun hleaf hdef => by
    rw [hunnamed hleaf h.1.named] at hdef
    cases hdef
  have hreferenced : Grading called space by_ prior (fun _ => False) live
      ((t.ensureNode by_ target .codeEntity []).addEdge file target .references by_.at_ position
        tier).1 := hensured.addCall file _ _ rfl hcalled hgraded
  have hnodes := (t.ensureNode by_ target .codeEntity []).addEdge_sameNodes file target .references
    by_.at_ position tier
  have hsame := Tables.definitionName_congr hnodes.nodes
  obtain ⟨hne, -⟩ := h.ensurePlain_definitionName hby htarget plain_nil
  have hlive : ∀ other, other ≠ target → ((t.ensureNode by_ target .codeEntity []).addEdge file
      target .references by_.at_ position tier).1.liveAssertions other =
      t.liveAssertions other := by
    intro other hother
    rw [hnodes.keepsNames.liveAssertions]
    exact t.ensureNode_liveAssertions_ne by_ target .codeEntity h.1.names.rows.distinct [] hother
  generalize ((t.ensureNode by_ target .codeEntity []).addEdge file target .references by_.at_
    position tier).1 = referenced at hreferenced hnodes hsame hlive ⊢
  cases hc : r.caller with
  | none => exact hreferenced
  | some caller =>
    have hA := hcaller caller hc
    refine (hreferenced.ensurePlain live hby _ hA plain_nil).addCall _ _ _ rfl hcalled
      (hreferenced.grades_ensurePlain hby hA plain_nil r.name ?_ fun hleaf hdef => ?_)
    · exact hgraded.imp_right fun ⟨hleaf, htier, hbound⟩ =>
        ⟨hleaf, htier, hbound.trans (Graded.bound_of_sameNodes hnodes _ _).symm⟩
    · -- the caller defines the name it calls: it keeps it, or another bears it
      have hne_target : entityId file caller ≠ target := by
        rintro heq
        rw [heq, hunnamed hleaf hreferenced.1.named] at hdef
        cases hdef
      rw [hsame, hne _ hne_target] at hdef
      rcases hholds caller hc hdef with ⟨x, hx, hxname⟩ | ⟨other, hother, hodef⟩
      · left
        rw [← hlive _ hne_target] at hx
        have hkept := hreferenced.1.names.ensureNode_held hreferenced.pending hby hreferenced.2.1 hA
          (.inl plain_nil) hx hxname
        rw [hreferenced.1.names.written_definitionName _ _ plain_nil, hsame] at hkept
        exact hkept.trans ((hne _ hne_target).trans hdef)
      · have hother_target : other ≠ target := by
          rintro rfl
          rw [hunnamed hleaf h.1.named] at hodef
          cases hodef
        exact .inr ⟨other, hother, hother_target, by rw [hsame, hne _ hother_target, hodef]⟩

theorem foldReference (h : Grading called space by_ prior (fun _ => False) live t) (hby : by_.Known)
    (position : Nat) (hcall : r.isTest = false → r.name ≠ "" → r.refKind = none →
      called r.name ∧ IsPath (t.resolve r.file) ∧ t.CallerHolds r (t.resolve r.file))
    (hA : ∀ a ∈ t.assertedReference by_ r, OneKind space a) :
    Grading called space by_ prior (fun _ => False) live' (t.foldReference by_ position r) := by
  unfold Tables.foldReference
  by_cases htest : r.isTest = true
  · rw [if_pos htest]
    exact h.keepsTiers (t.foldTestEvidence_keepsTiers r position)
  rw [if_neg htest]
  dsimp only
  have hopened := h.superseded live r.fresh (t.resolve r.file)
  by_cases hname : r.name = ""
  · rw [if_pos hname]
    exact hopened
  rw [if_neg hname]
  have hneither : ¬(r.isTest = true ∨ r.name = "") := fun he => he.elim htest hname
  unfold Tables.assertedReference at hA
  rw [if_neg hneither] at hA
  dsimp only at hA
  have hfileA := hA _ (List.mem_cons_self ..)
  have hheld : Grading called space by_ prior (fun _ => False) live (t.referenced by_ r) :=
    hopened.ensurePlain _ hby _ hfileA (plain_fileAttrs _ _)
  by_cases hkind : r.refKind.isSome = true
  · rw [if_pos hkind]
    exact hheld
  rw [if_neg hkind] at hA ⊢
  rw [Bool.not_eq_true, Option.isSome_eq_false_iff, Option.isNone_iff_eq_none] at hkind
  obtain ⟨hcalled, hpath, hholds⟩ := hcall (Bool.eq_false_iff.2 htest) hname hkind
  refine hheld.foldCall hby position hpath hcalled (hA _ (by simp)) (fun caller hc =>
    hA _ (by simp [hc])) fun caller hc hdef => ?_
  -- the file's node defines nothing, before it is asserted or after
  have hopenedNames : ∀ id, (if r.fresh then t.supersedeFileEdges (t.resolve r.file) by_.at_
      else t).definitionName id = t.definitionName id := fun id => by split <;> rfl
  have hopenedLive : ∀ id, (if r.fresh then t.supersedeFileEdges (t.resolve r.file) by_.at_
      else t).liveAssertions id = t.liveAssertions id := fun id => by split <;> rfl
  obtain ⟨hne, -⟩ := hopened.ensurePlain_definitionName hby hfileA
    (plain_fileAttrs r.lang r.partial_)
  have hcallerNe := entityId_ne (t.resolve r.file) caller
  have hfileNone : t.definitionName (t.resolve r.file) = none := by
    have hspace : space (t.resolve r.file) = .file := (hfileA.resolve_left nofun).symm
    rw [definitionName_eq]
    cases hn : t.nodes[t.resolve r.file]? with
    | none => rfl
    | some n =>
      refine nameOf_of_ne ?_
      rcases h.1.names.nodeKind _ n hn with hk | hk
      · rw [hk]
        decide
      · rw [hk, hspace]
        decide
  have hdef : (t.referenced by_ r).definitionName (entityId (t.resolve r.file) caller) =
      some r.name := hdef
  rw [Tables.referenced, hne _ hcallerNe, hopenedNames] at hdef
  refine (hholds caller hc hdef).imp
      (fun ⟨x, hx, hxname⟩ => ⟨x, ?_, hxname⟩) fun ⟨other, hother, hodef⟩ =>
    ⟨other, hother, ?_⟩
  · rw [← hopenedLive] at hx
    rw [Tables.referenced, Tables.ensureNode_liveAssertions_ne _ by_ _ _
      hopened.1.names.rows.distinct _ hcallerNe]
    exact hx
  · have hotherNe : other ≠ t.resolve r.file := by
      rintro rfl
      rw [hfileNone] at hodef
      cases hodef
    rw [Tables.referenced, hne _ hotherNe, hopenedNames, hodef]

/-! ## Every arm -/

/-- What a code payload meets where it is folded. -/
def GradedPayload (called : String → Prop) (t : Tables) (p : Payload) : Prop :=
  (∀ c, p = .codeEntityExtracted c →
    leafOf (entityId (t.resolve c.file) c.idPath) = none ∧ Unsigiled called c.name) ∧
  ∀ r, p = .edgeInferred r → r.isTest = false → r.name ≠ "" → r.refKind = none →
    called r.name ∧ IsPath (t.resolve r.file) ∧ t.CallerHolds r (t.resolve r.file)

theorem reset (h : Grading called space by_ prior (fun _ => False) live t) (fresh : Bool)
    (grain : String) (hkind : kind = .community ∨ kind = .concept) (rel : Rel) :
    Grading called space by_ prior (fun _ => False) live'
    (t.resetGrain by_ fresh grain kind rel) := by
  unfold Tables.resetGrain
  split
  swap
  · exact h
  have hretired : Grading called space by_ prior (fun _ => False) live
      (t.retireGrain grain rel by_.at_) :=
    h.sameNodes (t.retireGrain_sameNodes grain rel by_.at_) (h.1.graded.fadeSame
      (h.1.graded.links.retireGrain grain rel by_.at_) (t.retireEdges_faded _ _) (.of_rows rfl)
      fun _ => rfl)
  have hdefs := (t.retireGrain grain rel by_.at_).dropMemberless_sameDefinitions hkind grain rel
  refine ⟨⟨hretired.1.names.frame hdefs.names, hretired.1.named.frame hdefs.names,
    hretired.1.graded.fadeSame (hretired.1.graded.links.dropMemberless grain kind rel ?_)
    (.of_edges rfl)
      (.of_rows rfl) hdefs.definitionName⟩, hretired.2.1.congr rfl, hretired.2.2⟩
  intro id n hn hk hattachable
  rcases hretired.1.names.nodeKind id n hn with ha | hs
  · rcases hkind with rfl | rfl <;>
    · rw [hk] at ha
      cases ha
  · rcases hkind with rfl | rfl
    · exact hattachable.1 (hs.symm.trans hk)
    · exact hattachable.2 (hs.symm.trans hk)

theorem arms (called : String → Prop) (space : String → NodeKind) (hby : by_.Known)
    (prior : Option String)
    (position : Nat) : Arms by_ position (OneKind space) (Attachable space)
      (GradedPayload called)
      (Grading called space by_ prior fun _ => False) where
  ensure := fun id _ _ hplain hA h => h.ensurePlain _ hby id hA hplain
  record := by
    intro live t src dst rel hrel h
    have hneither : attaching rel = false ∧ referring rel = false := by
      revert hrel
      cases rel <;> decide
    exact h.addEdge _ _ _ _ _ hneither.1 hneither.2
  resolve := fun _ h => h.sameNodes (Tables.retireEdges_sameNodes _ _ _)
    (h.1.graded.retireEdges _ _)
  mark := fun {_ t unit finding} h => h.keepsTiers
    ⟨⟨rfl, rfl, rfl, rfl, rfl⟩, t.markUpheld_sameDefinitions unit finding, rfl,
      Links.contains_alter_map _ _ _⟩
  alias_ := fun {_ t aliases} h => h.keepsTiers
    ⟨⟨rfl, rfl, rfl, rfl, rfl⟩, t.aliased_sameDefinitions aliases, rfl, fun _ => rfl⟩
  definition := fun hG hA h =>
    h.foldDefinition hby position (hG.1 _ rfl).1 (hG.1 _ rfl).2 hA
  reference := fun hG hA h => h.foldReference hby position (hG.2 _ rfl) hA
  link := by
    intro live t src dst name rel hrel h
    have hneither : attaching rel = false ∧ referring rel = false := by
      unfold linkRel at hrel
      split at hrel <;> first | (cases hrel; decide) | cases hrel
    exact h.sameNodes (t.assertLink_sameNodes ..) (h.1.graded.assertLink by_ _ _ _ _ _ _ hneither.1
      fun hr => absurd hr (by simp [hneither.2]))
  reset := fun hkind h => h.reset _ _ (hkind.imp And.left And.left) _
  attach := by
    intro live t node dst rel hrel hnode h
    refine h.sameNodes (t.attach_sameNodes ..) (h.1.graded.attach _ _ _ _ _ ?_ hnode)
    rcases hrel with rfl | rfl <;> decide
  overwrite := by
    intro live t id attrs hplain hA h
    have hspace : space id = .community := (hA.resolve_left nofun).symm
    have hoverwritten : KeepsTiers t (t.overwriteAttrs id (.ofList attrs)) :=
      ⟨⟨rfl, rfl, rfl, rfl, rfl⟩, h.1.names.overwriteAttrs_sameDefinitions hspace hplain, rfl,
        Links.contains_alter_map _ _ _⟩
    exact h.keepsTiers (hoverwritten.trans
      (.of_sameNodes (Tables.oweRelabel_sameNodes _ _) (Tables.oweRelabel_sameEdges _ _)))

end Grading

/-! ## Every run -/

/-- Every id is asserted as an artifact or as one kind of its own, and none of a super-node is
attached; a definition is no placeholder's node, nor its name spelled as the placeholder of a name
`called`; a call's name is, its file is a path, and a caller that defines the very name it calls
keeps it. -/
def TierCondition (space : String → NodeKind) (called : String → Prop) : Condition := fun t by_ p =>
  (∀ a ∈ (t.advanceGeneration by_).1.asserted by_ p, OneKind space a) ∧
    (∀ n ∈ p.attached, Attachable space n) ∧
    Grading.GradedPayload called (t.advanceGeneration by_).1 p

theorem tiers_of_reached {space : String → NodeKind} {called : String → Prop}
    {live : List Assertion} {t : Tables}
    (h : Reached (TierCondition space called) live t) :
    Tiers called space (fun _ => False) (fun _ => False) t := by
  induction h with
  | empty => exact .empty
  | @fold live t by_ position p _ hby hC ih =>
    exact (Tiers.settling called space by_).fold []
      (fun prior => Grading.arms called space hby prior position) hC.2.2 hC.1 hC.2.1 True.intro ih
  | relabel _ ih => exact ih.keepsTiers (Tables.relabelOwedCommunities_keepsTiers _)
  | settle _ ih => exact ih.keepsTiers (Tables.settleProofs_keepsTiers _)
  | drop _ _ ih => exact ih.refsChanged _
  | @stage live t by_ position r _ ih =>
    unfold Tables.stageReference
    split
    · exact ih
    · dsimp only
      split
      · exact ih
      · exact ih.refsChanged _
  | references by_ _ hid hcurrent ih => exact ih.settleReferences hid hcurrent

/-- A live call or reference that no assertion holds and that landed on a placeholder is inferred
where another call target bears its leaf and ambiguous otherwise; one landed in its own file is
extracted; and no two live edges are of one key. -/
structure Tiered (t : Tables) : Prop where
  placeholder : ∀ e ∈ t.edges, e.isLive = true → referring e.rel = true →
    t.unasserted e.id = true → ∀ name, leafOf e.to_ = some name →
      (e.tier = .inferred ↔ ∃ id, id ≠ e.to_ ∧ t.definitionName id = some name) ∧
      (e.tier = .ambiguous ↔ ¬∃ id, id ≠ e.to_ ∧ t.definitionName id = some name)
  sameFile : ∀ e ∈ t.edges, e.isLive = true → referring e.rel = true → leafOf e.to_ = none →
    idRange (splitId e.from_).1 e.to_ = true → e.tier = .extracted
  unique : (t.edges.filter Edge.isLive).Pairwise fun a b =>
    ¬(a.from_ = b.from_ ∧ a.to_ = b.to_ ∧ a.rel = b.rel ∧ a.tier = b.tier)

/-- In every committed file the tier of each call and reference is its target's. -/
theorem tiers_hold {reading : Reading} {space : String → NodeKind} {called : String → Prop}
    {transactions : List (List FoldCall)}
    (hC : Along (transact reading) (TransactionMeets reading (TierCondition space called)) .empty
      transactions) : Tiered (run (transact reading) .empty transactions).tables := by
  obtain ⟨live, hreached⟩ := reaches_of_run hC
  obtain ⟨hlinks, hfits⟩ := (tiers_of_reached hreached).graded
  generalize (run (transact reading) .empty transactions).tables = t at hlinks hfits
  refine ⟨fun e he hl hrel _ name hleaf => ?_, fun e he hl hrel hleaf hrange => ?_, ?_⟩
  · obtain ⟨-, -, hne, hlow, hhigh⟩ := (hfits e he hl hrel).placeholder name hleaf
    have hbound : t.Bound (fun _ => False) name e.to_ ↔
        ∃ id, id ≠ e.to_ ∧ t.definitionName id = some name :=
      exists_congr fun id => and_iff_right fun hf => hf
    rw [← hbound]
    have hinferred : e.tier = .inferred ↔ t.Bound (fun _ => False) name e.to_ :=
      ⟨fun ht => (hhigh ht).resolve_right fun hf => hf, hlow⟩
    refine ⟨hinferred, ?_⟩
    rw [← hinferred]
    revert hne
    cases e.tier <;> simp
  · rcases (hfits e he hl hrel).landed hleaf with ht | ⟨-, -, hnot⟩
    · exact ht
    · rw [hrange] at hnot
      cases hnot
  · refine (hlinks.ids.filter _).imp_of_mem fun {a b} ha hb hlt hkey => ?_
    obtain ⟨ha, hla⟩ := List.mem_filter.1 ha
    obtain ⟨hb, hlb⟩ := List.mem_filter.1 hb
    exact Nat.ne_of_lt hlt (hlinks.unique a ha b hb hla hlb
      ⟨hkey.1, hkey.2.1, hkey.2.2.1, .inl hkey.2.2.2⟩)

/-! A reference to the operator `%` lands on the placeholder `%%` of its file, which a definition of
the operator `%%` promotes though nothing bears the name `%`. -/

def callEvent (position : Nat) (file name : String) : Event :=
  indexEvent position typeEdgeInferred none
    [("file", .str file), ("name", .str name), ("line", .num 4)]

def operatorEvent (position : Nat) (file name : String) : Event :=
  indexEvent position typeCodeEntityExtracted none [("file", .str file), ("name", .str name),
    ("kind", .str "function"), ("line", .num 3)]

def operators : List (List FoldCall) :=
  [[.events [callEvent 1 "b.hs" "%"]], [.events [operatorEvent 2 "a.hs" "%%"]]]

/-- The placeholder's reference is inferred, and no node defines its leaf. -/
theorem tiers_not_held : ¬∀ (reading : Reading) (transactions : List (List FoldCall)),
    Tiered (run (transact reading) .empty transactions).tables := by
  intro h
  have hrun : ⟨1, "b.hs", "b.hs::%%", .references, 1, none, 1, .inferred⟩ ∈
        (run (transact plainReading) .empty operators).tables.edges ∧
      (run (transact plainReading) .empty operators).tables.unasserted 1 = true ∧
      (run (transact plainReading) .empty operators).tables.callTargets "%" = [] := by
    decide +kernel
  obtain ⟨id, -, hdef⟩ := ((h plainReading operators).placeholder _ hrun.1 (by decide) (by decide)
    hrun.2.1 "%" (by decide)).1.1 rfl
  have hmem := (Tables.mem_callTargets _).2 ⟨by decide, hdef⟩
  rw [hrun.2.2] at hmem
  cases hmem

def callSpace (id : String) : NodeKind :=
  if id = "a.hs" ∨ id = "b.hs" then .file else .codeEntity

def ratioEvent : Event :=
  indexEvent 2 typeCodeEntityExtracted none [("file", .str "a.hs"), ("name", .str "%"),
    ("path", .str "Ratio.%"), ("kind", .str "function"), ("line", .num 3)]

/-- A call of the operator `%`, then the definition that promotes it. -/
def operatorCall : List (List FoldCall) :=
  [[.events [callEvent 1 "b.hs" "%"]], [.events [ratioEvent]]]

theorem meets_operatorCall : Along (transact plainReading)
    (TransactionMeets plainReading (TierCondition callSpace (· = "%"))) .empty operatorCall := by
  have hcall : Payload.ofEvent plainReading (callEvent 1 "b.hs" "%") =
      some (.edgeInferred ⟨"b.hs", "%", "", false, none, 4, false, false, none⟩) := by
    decide +kernel
  have hdefinition : Payload.ofEvent plainReading ratioEvent =
      some (.codeEntityExtracted ⟨"a.hs", "%", some "Ratio.%", none, "function", 3, "",
      false, false⟩) := by
    decide +kernel
  refine ⟨⟨⟨fun _ p hp => ?_, fun _ _ => True.intro⟩, fun _ _ => True.intro⟩,
    ⟨⟨fun _ p hp => ?_, fun _ _ => True.intro⟩, fun _ _ => True.intro⟩, True.intro⟩
  · rw [hcall, Option.some.injEq] at hp
    subst hp
    refine ⟨?_, nofun, nofun, fun r hr _ _ _ => ?_⟩
    · unfold OneKind
      decide +kernel
    · cases hr
      exact ⟨rfl, by decide +kernel, nofun⟩
  · rw [hdefinition, Option.some.injEq] at hp
    subst hp
    refine ⟨?_, nofun, fun c hc => ?_, nofun⟩
    · unfold OneKind
      decide +kernel
    · cases hc
      refine ⟨by decide +kernel, ?_⟩
      rintro _ rfl
      decide

theorem tiers_hold_operatorCall : Tiered (run (transact plainReading) .empty operatorCall).tables ∧
    ⟨1, "b.hs", "b.hs::%%", .references, 1, none, 1, .inferred⟩ ∈
      (run (transact plainReading) .empty operatorCall).tables.edges :=
  ⟨tiers_hold meets_operatorCall, by decide +kernel⟩

end Rigger.Graph
