import Rigger.Graph.Rule

/-!
# The kind of a node

`Kinds` relates the nodes to the assertions that are live: a row of an identity's records the kind
its assertions of the node settle on, a node some assertion holds is held, and where its assertions
name one specific kind at most, the node is of the kind its live rows settle on, in order.

Within one event the rows of the generation it supersedes are `pending`: no longer live, and their
nodes not settled yet.
-/

namespace Rigger.Graph

open Lib

/-- The kinds of the super-nodes of derived groupings, the only nodes a fold deletes. -/
def Grouping (kind : NodeKind) : Prop := kind = .community ∨ kind = .concept

/-- The kinds an identity asserts of a node, in order. -/
def kindsBy (live : List Assertion) (identity id : String) : List NodeKind :=
  (live.filter fun a => a.identity == identity && a.node == id).map Assertion.kind

theorem kindsBy_append_self (live : List Assertion) (by_ : Asserter) (id : String)
    (kind : NodeKind) : kindsBy (live ++ [by_.assert id kind]) by_.identity id =
      kindsBy live by_.identity id ++ [kind] := by
  simp [kindsBy, Asserter.assert]

variable {id : String} {kind : NodeKind}

theorem kindsBy_append_ne (live : List Assertion) {by_ : Asserter} (kind : NodeKind)
    {r : NodeAssertion} (h : r.isOf by_.identity id = false) :
    kindsBy (live ++ [by_.assert id kind]) r.identity r.node = kindsBy live r.identity r.node := by
  have hne : ¬(by_.identity = r.identity ∧ id = r.node) := fun he => by
    rw [NodeAssertion.isOf_iff.2 ⟨he.1.symm, he.2.symm⟩] at h
    cases h
  simp only [kindsBy, Asserter.assert, List.filter_append, List.map_append]
  simp [hne]

namespace Tables

/-- The kinds a node's live rows record, in rowid order. -/
def liveKinds (t : Tables) (id : String) : List NodeKind :=
  (t.liveAssertions id).map NodeAssertion.kind

theorem contains_of_kindOf {t t' : Tables} {id : String} (h : t'.kindOf id = t.kindOf id) :
    t'.nodes.contains id = t.nodes.contains id := by
  have hsome := congrArg Option.isSome h
  rw [kindOf, kindOf, Option.isSome_map, Option.isSome_map] at hsome
  rw [Std.ExtTreeMap.contains_eq_isSome_getElem?, Std.ExtTreeMap.contains_eq_isSome_getElem?, hsome]

theorem settleNode_kindOf (t : Tables) (id : String) (retracted : Attrs) (at_ : Int) :
    (t.settleNode id retracted at_).kindOf id =
      (settledKind (t.liveKinds id)).bind fun k => (t.kindOf id).map fun _ => k := by
  rw [kindOf, settleNode_self, settledNode, kindOf, liveKinds]
  cases settledKind ((t.liveAssertions id).map NodeAssertion.kind) with
  | none => rfl
  | some k => cases t.nodes[id]? <;> rfl

theorem settleNode_kindOf_ne (t : Tables) {id other : String} (retracted : Attrs) (at_ : Int)
    (h : other ≠ id) : (t.settleNode id retracted at_).kindOf other = t.kindOf other := by
  rw [kindOf, settleNode_ne t id retracted at_ h, kindOf]

end Tables

/-- The nodes are of the kinds they were, their rows as they were and as live. -/
structure SameKinds (t t' : Tables) : Prop where
  kinds : ∀ id, t'.kindOf id = t.kindOf id
  nodeAssertions : t'.nodeAssertions = t.nodeAssertions
  holds : ∀ r ∈ t.nodeAssertions, t'.holds r = t.holds r
  known : ∀ identity, t.currentGeneration identity ≠ none → t'.currentGeneration identity ≠ none

namespace SameKinds

variable {t t' t'' : Tables}

theorem of_generations (hkinds : ∀ id, t'.kindOf id = t.kindOf id)
    (hrows : t'.nodeAssertions = t.nodeAssertions) (hgens : t'.generations = t.generations) :
    SameKinds t t' where
  kinds := hkinds
  nodeAssertions := hrows
  holds := fun r _ => by simp only [Tables.holds, Tables.currentGeneration, hgens]
  known := fun identity h => by rwa [Tables.currentGeneration, hgens]

theorem refl (t : Tables) : SameKinds t t := of_generations (fun _ => rfl) rfl rfl

theorem trans (h : SameKinds t t') (h' : SameKinds t' t'') : SameKinds t t'' where
  kinds := fun id => (h'.kinds id).trans (h.kinds id)
  nodeAssertions := h'.nodeAssertions.trans h.nodeAssertions
  holds := fun r hr => (h'.holds r (h.nodeAssertions ▸ hr)).trans (h.holds r hr)
  known := fun identity hk => h'.known identity (h.known identity hk)

theorem foldl {α : Type} {f : Tables → α → Tables} (hf : ∀ t a, SameKinds t (f t a))
    (t : Tables) (as : List α) : SameKinds t (as.foldl f t) := by
  induction as generalizing t with
  | nil => exact refl t
  | cons a as ih => exact (hf t a).trans (ih _)

theorem liveAssertions (h : SameKinds t t') (id : String) :
    t'.liveAssertions id = t.liveAssertions id := by
  rw [Tables.liveAssertions, h.nodeAssertions]
  exact List.filter_congr fun r hr => by rw [h.holds r hr]

theorem contains (h : SameKinds t t') (id : String) :
    t'.nodes.contains id = t.nodes.contains id := Tables.contains_of_kindOf (h.kinds id)

/-- A node's row rewritten to one of its kind. -/
theorem alter (t : Tables) (id : String) {f : Node → Node} (hf : ∀ n, (f n).kind = n.kind) :
    SameKinds t { t with nodes := t.nodes.alter id fun n => n.map f } := by
  refine of_generations (fun other => ?_) rfl rfl
  show ((t.nodes.alter id _)[other]?).map Node.kind = (t.nodes[other]?).map Node.kind
  rw [Std.ExtTreeMap.getElem?_alter]
  by_cases he : compare id other = .eq
  · rw [if_pos he, ← Std.LawfulEqCmp.eq_of_compare he]
    cases t.nodes[id]? <;> simp [hf]
  · rw [if_neg he]

end SameKinds

theorem SameNodes.sameKinds {t t' : Tables} (h : SameNodes t t') : SameKinds t t' :=
  .of_generations (fun id => by rw [Tables.kindOf, h.nodes, Tables.kindOf]) h.nodeAssertions
    h.generations

namespace Tables

variable (t : Tables)

theorem writeProofs_sameKinds (ids : List String) : SameKinds t (t.writeProofs ids) :=
  SameKinds.foldl (fun t id => .alter t id (f := fun n => { n with proof := t.evidenceOf id })
    fun _ => rfl) t ids

theorem foldTestEvidence_sameKinds (r : EdgeInferred) (position : Nat) :
    SameKinds t (t.foldTestEvidence r position) := by
  have hopened : SameKinds t
      (if r.fresh then t.supersedeFileProof (t.resolve r.file) else t) := by
    split
    · refine SameKinds.trans ?_ (writeProofs_sameKinds _ _)
      exact .of_generations (fun _ => rfl) rfl rfl
    · exact .refl t
  unfold foldTestEvidence
  dsimp only
  split
  · exact hopened
  · exact hopened.trans (.of_generations (fun _ => rfl) rfl rfl)

theorem settleProofs_sameKinds : SameKinds t t.settleProofs := by
  have hsettle : ∀ (u : Tables) (name : String), SameKinds u (u.settleName name) := by
    intro u name
    have hretargeted : SameKinds u (u.retargeted name) := .of_generations (fun _ => rfl) rfl rfl
    have hresolved : SameKinds u (u.resolveProofs name) :=
      hretargeted.trans (writeProofs_sameKinds _ _)
    exact hresolved.trans (writeProofs_sameKinds _ _)
  exact (SameKinds.foldl hsettle t _).trans (.of_generations (fun _ => rfl) rfl rfl)

theorem relabelOwedCommunities_sameKinds : SameKinds t t.relabelOwedCommunities := by
  have hrelabel : ∀ (u : Tables) (community : String), SameKinds u (u.relabel community) := by
    intro u community
    refine .alter u community fun n => ?_
    split <;> rfl
  exact (SameKinds.foldl hrelabel t _).trans (.of_generations (fun _ => rfl) rfl rfl)

end Tables

/-! ## The invariant -/

structure Kinds (pending : NodeAssertion → Prop) (live : List Assertion) (t : Tables) : Prop where
  rows : Rows t
  merged : ∀ r ∈ t.nodeAssertions, t.holds r = true →
    settledKind (kindsBy live r.identity r.node) = some r.kind
  recorded : ∀ a ∈ live, ∃ r ∈ t.nodeAssertions, r.isOf a.identity a.node = true ∧
    t.holds r = true
  outsideRule : ∀ a ∈ live, Grouping a.kind → a.identity = ""
  grouping : ∀ id kind, t.kindOf id = some kind → Grouping kind →
    ∃ a ∈ live, a.node = id ∧ Grouping a.kind
  held : ∀ id, (∀ a ∈ live, a.node = id → ¬Grouping a.kind) → t.liveAssertions id ≠ [] →
    t.kindOf id ≠ none
  settled : ∀ id specific, ¬Grouping specific →
    (∀ r ∈ t.nodeAssertions, r.node = id → ¬pending r) →
    (∀ a ∈ live, a.node = id → a.kind = .artifact ∨ a.kind = specific) →
    ∀ kind, t.kindOf id = some kind → settledKind (t.liveKinds id) = some kind

theorem artifact_not_grouping : ¬Grouping .artifact := by simp [Grouping]

theorem specific_not_grouping {specific : NodeKind} (hs : ¬Grouping specific)
    (h : kind = .artifact ∨ kind = specific) : ¬Grouping kind := by
  rcases h with rfl | rfl
  · exact artifact_not_grouping
  · exact hs

namespace Kinds

variable {pending : NodeAssertion → Prop} {live : List Assertion} {t t' : Tables} {by_ : Asserter}

theorem empty : Kinds pending [] .empty where
  rows := .empty
  merged := by simp [Tables.empty]
  recorded := by simp
  outsideRule := by simp
  grouping := by simp [Tables.kindOf, Tables.empty]
  held := by simp [Tables.liveAssertions, Tables.empty]
  settled := by simp [Tables.kindOf, Tables.empty]

theorem frame (h : Kinds pending live t) (hs : SameKinds t t') : Kinds pending live t' where
  rows := h.rows.frame hs.nodeAssertions hs.known
  merged := fun r hr hholds =>
    have hr := hs.nodeAssertions ▸ hr
    h.merged r hr (hs.holds r hr ▸ hholds)
  recorded := fun a ha => by
    obtain ⟨r, hr, hof, hholds⟩ := h.recorded a ha
    exact ⟨r, hs.nodeAssertions ▸ hr, hof, (hs.holds r hr).trans hholds⟩
  outsideRule := h.outsideRule
  grouping := fun id kind hkind => h.grouping id kind (hs.kinds id ▸ hkind)
  held := fun id hlive hne => by
    rw [hs.kinds]
    exact h.held id hlive (hs.liveAssertions id ▸ hne)
  settled := fun id specific hspecific hpending hlive kind hkind => by
    rw [Tables.liveKinds, hs.liveAssertions]
    rw [hs.nodeAssertions] at hpending
    rw [hs.kinds] at hkind
    exact h.settled id specific hspecific hpending hlive kind hkind

variable {kind : NodeKind}

/-- The kinds the live rows of a node record are its assertions' own. -/
theorem liveKinds_mem (hmerged : ∀ r ∈ t.nodeAssertions, t.holds r = true →
    settledKind (kindsBy live r.identity r.node) = some r.kind) {id : String}
    (hkind : kind ∈ t.liveKinds id) : ∃ a ∈ live, a.node = id ∧ a.kind = kind := by
  obtain ⟨r, hr, rfl⟩ := List.mem_map.1 hkind
  obtain ⟨hr, hrow⟩ := List.mem_filter.1 hr
  simp only [Bool.and_eq_true, beq_iff_eq] at hrow
  have hmem := settledKind_mem (hmerged r hr hrow.2)
  simp only [kindsBy, List.mem_map, List.mem_filter, Bool.and_eq_true, beq_iff_eq] at hmem
  obtain ⟨a, ⟨ha, -, hnode⟩, hak⟩ := hmem
  exact ⟨a, ha, hnode.trans hrow.1, hak⟩

theorem ensureNode (h : Kinds pending live t)
    (hpending : ∀ r, pending r → r.identity = by_.identity ∧ r.generation ≠ by_.generation)
    (hby : by_.Known) (hcurrent : by_.Current t) {id : String}
    (hgrouping : Grouping kind → by_.identity = "") (attrs : List (String × String)) :
    Kinds pending (live ++ [by_.assert id kind]) (t.ensureNode by_ id kind attrs) := by
  obtain ⟨hrec, hgens, hothers, hself⟩ := t.ensureNode_cases by_ id kind h.rows.distinct attrs
  have hrows := h.rows.ensureNode hby hcurrent id kind attrs
  generalize t.ensureNode by_ id kind attrs = ensured at hrec hgens hothers hself hrows ⊢
  obtain ⟨own, hof, hgen, hmem, hown⟩ := hrec.own
  have hnew : by_.assert id kind ∈ live ++ [by_.assert id kind] := by simp
  have hsub : ∀ {a}, a ∈ live → a ∈ live ++ [by_.assert id kind] := List.mem_append_left _
  have hholds : ensured.holds = t.holds := by
    funext r
    simp only [Tables.holds, Tables.currentGeneration, hgens]
  have hownHolds : t.holds own = true :=
    hcurrent.holds (NodeAssertion.isOf_iff.1 hof).1 hgen
  have hownMem : own ∈ ensured.nodeAssertions := (hmem own).2 (.inl rfl)
  have hkindOther : ∀ other, other ≠ id → ensured.kindOf other = t.kindOf other :=
    fun other hother => by rw [Tables.kindOf, hothers other hother, Tables.kindOf]
  have hliveOther : ∀ other, other ≠ id →
      ensured.liveAssertions other = t.liveAssertions other := by
    intro other hother
    rw [Tables.liveAssertions, hholds]
    refine hrec.filter_eq fun r hr => ?_
    simp [hr, Ne.symm hother]
  -- what the identity's rows record of the node
  have hmerged : ∀ r ∈ ensured.nodeAssertions, ensured.holds r = true →
      settledKind (kindsBy (live ++ [by_.assert id kind]) r.identity r.node) = some r.kind := by
    intro r hr hrow
    rcases (hmem r).1 hr with rfl | ⟨hr, hne⟩
    · obtain ⟨hidentity, hnode⟩ := NodeAssertion.isOf_iff.1 hof
      rw [hidentity, hnode, kindsBy_append_self, settledKind_append]
      rcases hown with ⟨hkind, -, hstale⟩ | ⟨r, hr, hrof, hrgen, hkind, -⟩
      · have hnone : kindsBy live by_.identity id = [] := by
          rw [kindsBy, List.map_eq_nil_iff, List.filter_eq_nil_iff]
          intro a ha haof
          simp only [Bool.and_eq_true, beq_iff_eq] at haof
          obtain ⟨r, hr, hrof, hrholds⟩ := h.recorded a ha
          rw [haof.1, haof.2] at hrof
          exact hstale r hr hrof
            (h.rows.generation_of_holds hby hcurrent hr (NodeAssertion.isOf_iff.1 hrof).1 hrholds)
        rw [hnone, hkind]
        rfl
      · obtain ⟨hrid, hrnode⟩ := NodeAssertion.isOf_iff.1 hrof
        have hrow := h.merged r hr (hcurrent.holds hrid hrgen)
        rw [hrid, hrnode] at hrow
        rw [hrow, hkind]
        rfl
    · rw [kindsBy_append_ne live kind hne]
      exact h.merged r hr (hholds ▸ hrow)
  have hlive : own ∈ ensured.liveAssertions id := by
    refine List.mem_filter.2 ⟨hownMem, ?_⟩
    rw [hholds, hownHolds]
    simp [(NodeAssertion.isOf_iff.1 hof).2]
  -- the node: upserted, or settled on its live rows
  have hnode : (ensured.kindOf id = some (((t.kindOf id).map (promote · kind)).getD kind) ∧
      ∀ r ∈ t.nodeAssertions, r.isOf by_.identity id = true → r.generation = by_.generation) ∨
      ensured.kindOf id = settledKind (ensured.liveKinds id) := by
    rcases hself with ⟨hself, hown⟩ | ⟨r, -, -, -, hself⟩
    · refine .inl ⟨?_, hown⟩
      rw [Tables.kindOf, hself, Option.map_some, Tables.upserted_kind]
    · refine .inr ?_
      rw [Tables.kindOf, hself, Option.map_map]
      exact congrFun Option.map_id _
  refine ⟨hrows, hmerged, ?_, ?_, ?_, ?_, ?_⟩
  · intro a ha
    rw [hholds]
    by_cases hakey : a.identity = by_.identity ∧ a.node = id
    · rw [hakey.1, hakey.2]
      exact ⟨own, hownMem, hof, hownHolds⟩
    · rcases List.mem_append.1 ha with ha | ha
      · obtain ⟨r, hr, hrof, hrholds⟩ := h.recorded a ha
        refine ⟨r, (hmem r).2 (.inr ⟨hr, ?_⟩), hrof, hrholds⟩
        rw [NodeAssertion.isOf_iff] at hrof
        simp only [NodeAssertion.isOf, hrof.1, hrof.2]
        simpa using hakey
      · rw [List.mem_singleton.1 ha] at hakey
        exact absurd ⟨rfl, rfl⟩ hakey
  · intro a ha hag
    rcases List.mem_append.1 ha with ha | ha
    · exact h.outsideRule a ha hag
    · rw [List.mem_singleton.1 ha] at hag ⊢
      exact hgrouping hag
  · intro other k hk hg
    by_cases hother : other = id
    · subst hother
      rcases hnode with ⟨hself, -⟩ | hself
      · rw [hself, Option.some.injEq] at hk
        cases hheld : t.kindOf other with
        | none =>
          rw [hheld, Option.map_none, Option.getD_none] at hk
          exact ⟨_, hnew, rfl, hk ▸ hg⟩
        | some k₀ =>
          rw [hheld, Option.map_some, Option.getD_some] at hk
          rcases promote_eq_or k₀ kind with hp | hp
          · obtain ⟨a, ha, haof⟩ := h.grouping other k₀ hheld (by rw [← hp, hk]; exact hg)
            exact ⟨a, hsub ha, haof⟩
          · exact ⟨_, hnew, rfl, (hp.symm.trans hk) ▸ hg⟩
      · rw [hself] at hk
        obtain ⟨a, ha, hanode, hak⟩ := liveKinds_mem hmerged (settledKind_mem hk)
        exact ⟨a, ha, hanode, hak ▸ hg⟩
    · obtain ⟨a, ha, haof⟩ := h.grouping other k (hkindOther other hother ▸ hk) hg
      exact ⟨a, hsub ha, haof⟩
  · intro other hnone hne
    by_cases hother : other = id
    · subst hother
      rcases hnode with ⟨hself, -⟩ | hself
      · rw [hself]
        exact Option.some_ne_none _
      · rw [hself]
        intro hnil
        rw [settledKind_eq_none_iff, Tables.liveKinds, List.map_eq_nil_iff] at hnil
        exact hne hnil
    · rw [hkindOther other hother]
      exact h.held other (fun a ha => hnone a (hsub ha)) (hliveOther other hother ▸ hne)
  · intro other specific hspecific hpend hkinds k hk
    by_cases hother : other = id
    · subst hother
      rcases hnode with ⟨hself, hcur⟩ | hself
      · have hbefore : ∀ a ∈ live, a.node = other → a.kind = .artifact ∨ a.kind = specific :=
          fun a ha => hkinds a (hsub ha)
        have hlist : settledKind (ensured.liveKinds other) =
            some (((settledKind (t.liveKinds other)).map (promote · kind)).getD kind) := by
          unfold Tables.liveKinds Tables.liveAssertions
          rw [hholds]
          refine hrec.settledKind_filter hcur (fun r hr hrgen => ?_) specific (fun k hk => ?_)
            (hkinds _ hnew rfl)
          · obtain ⟨hrid, hrnode⟩ := NodeAssertion.isOf_iff.1 hr
            rw [hcurrent.holds hrid hrgen]
            simp [hrnode]
          · obtain ⟨a, ha, hanode, rfl⟩ := liveKinds_mem h.merged hk
            exact hbefore a ha hanode
        rw [hlist, ← hk, hself]
        cases hheld : t.kindOf other with
        | some k₀ =>
          rw [h.settled other specific hspecific (fun r hr hrnode hrp => ?_) hbefore k₀ hheld]
          obtain ⟨hrid, hrgen⟩ := hpending r hrp
          exact hrgen (hcur r hr (NodeAssertion.isOf_iff.2 ⟨hrid, hrnode⟩))
        | none =>
          have hnil : t.liveAssertions other = [] := by
            by_contra hne
            exact h.held other
              (fun a ha hanode => specific_not_grouping hspecific (hbefore a ha hanode)) hne hheld
          rw [Tables.liveKinds, hnil]
          rfl
      · rw [← hself, hk]
    · rw [Tables.liveKinds, hliveOther other hother]
      refine h.settled other specific hspecific (fun r hr hrnode => ?_)
        (fun a ha => hkinds a (hsub ha)) k (hkindOther other hother ▸ hk)
      refine hpend r ((hmem r).2 (.inr ⟨hr, ?_⟩)) hrnode
      simp [NodeAssertion.isOf, hrnode, hother]

theorem dropMemberless (h : Kinds pending live t) (hkind : Grouping kind) (grain : String)
    (rel : Rel) : Kinds pending live (t.dropMemberless grain kind rel) := by
  have hget : ∀ id, (t.dropMemberless grain kind rel).nodes[id]? = t.nodes[id]?.filter fun n =>
      !(n.kind == kind && inGrain grain id &&
        !t.edges.any fun e => e.to_ == id && e.rel == rel && e.isLive) :=
    fun id => Std.ExtTreeMap.getElem?_filter'
  have hof : ∀ id k, (t.dropMemberless grain kind rel).kindOf id = some k →
      t.kindOf id = some k := by
    intro id k hk
    rw [Tables.kindOf, hget] at hk
    obtain ⟨n, hn, rfl⟩ := Option.map_eq_some_iff.1 hk
    rw [Tables.kindOf, (Option.filter_eq_some_iff.1 hn).1]
    rfl
  exact
    { rows := h.rows.congr rfl rfl
      merged := h.merged
      recorded := h.recorded
      outsideRule := h.outsideRule
      grouping := fun id k hk => h.grouping id k (hof id k hk)
      held := fun id hnone hne => by
        have hheld := h.held id hnone hne
        cases hn : t.nodes[id]? with
        | none => exact absurd (by rw [Tables.kindOf, hn]; rfl) hheld
        | some n =>
          have hne : n.kind ≠ kind := by
            rintro rfl
            obtain ⟨a, ha, hnode, hag⟩ := h.grouping id n.kind
              (by rw [Tables.kindOf, hn]; rfl) hkind
            exact hnone a ha hnode hag
          rw [Tables.kindOf, hget, hn]
          simp [Option.filter, hne]
      settled := fun id specific hspecific hpending hlive k hk =>
        h.settled id specific hspecific hpending hlive k (hof id k hk) }

theorem settleNode (h : Kinds pending live t) (id : String) (retracted : Attrs) (at_ : Int) :
    Kinds (fun r => pending r ∧ r.node ≠ id) live (t.settleNode id retracted at_) := by
  have hlive := t.settleNode_liveAssertions id retracted at_
  have hholds := t.settleNode_holds id retracted at_
  have hother : ∀ other, other ≠ id →
      (t.settleNode id retracted at_).kindOf other = t.kindOf other :=
    fun _ hne => t.settleNode_kindOf_ne retracted at_ hne
  have hself := t.settleNode_kindOf id retracted at_
  refine ⟨h.rows.settleNode id retracted at_, ?_, ?_, h.outsideRule, ?_, ?_, ?_⟩
  · rw [Tables.settleNode_nodeAssertions, hholds]
    exact h.merged
  · rw [Tables.settleNode_nodeAssertions, hholds]
    exact h.recorded
  · intro other k hk hg
    by_cases hne : other = id
    · subst hne
      rw [hself, Option.bind_eq_some_iff] at hk
      obtain ⟨k', hk', hmap⟩ := hk
      obtain ⟨-, -, rfl⟩ := Option.map_eq_some_iff.1 hmap
      obtain ⟨a, ha, hnode, hak⟩ := liveKinds_mem h.merged (settledKind_mem hk')
      exact ⟨a, ha, hnode, hak ▸ hg⟩
    · exact h.grouping other k (hother other hne ▸ hk) hg
  · intro other hnone hlist
    rw [hlive] at hlist
    have hheld := h.held other hnone hlist
    by_cases hne : other = id
    · subst hne
      rw [hself]
      cases hk : settledKind (t.liveKinds other) with
      | none =>
        rw [settledKind_eq_none_iff, Tables.liveKinds, List.map_eq_nil_iff] at hk
        exact absurd hk hlist
      | some k => simpa using hheld
    · rwa [hother other hne]
  · intro other specific hspecific hpend hkinds k hk
    rw [Tables.liveKinds, hlive]
    by_cases hne : other = id
    · subst hne
      rw [hself, Option.bind_eq_some_iff] at hk
      obtain ⟨k', hk', hmap⟩ := hk
      obtain ⟨-, -, rfl⟩ := Option.map_eq_some_iff.1 hmap
      exact hk'
    · rw [Tables.settleNode_nodeAssertions] at hpend
      refine h.settled other specific hspecific (fun r hr hnode hp => ?_) hkinds k
        (hother other hne ▸ hk)
      exact hpend r hr hnode ⟨hp, hnode ▸ hne⟩

theorem mono {pending' : NodeAssertion → Prop} (h : Kinds pending live t)
    (hp : ∀ r ∈ t.nodeAssertions, pending r → pending' r) : Kinds pending' live t :=
  { h with
    settled := fun id specific hspecific hpend =>
      h.settled id specific hspecific fun r hr hnode hpr => hpend r hr hnode (hp r hr hpr) }

/-- A newer generation opens: the one it supersedes is pending, its assertions live no longer. -/
theorem opened (h : Kinds (fun _ => False) live t) {prior : String} (hid : by_.identity ≠ "")
    (hprior : t.currentGeneration by_.identity = some prior) (hne : prior ≠ by_.generation) :
    Kinds (by_.Pending (some prior)) (live.filter (·.identity ≠ by_.identity))
      (t.opened by_ prior) := by
  have hof : ∀ r ∈ (t.opened by_ prior).nodeAssertions, r ∈ t.nodeAssertions :=
    fun r hr => ((t.mem_opened by_).1 hr).1
  have hlive := t.opened_liveAssertions by_ hid hne
  -- an assertion the identity drops leaves its row pending
  have hsub : ∀ id a, a ∈ live → a.node = id → (∀ r ∈ (t.opened by_ prior).nodeAssertions,
      r.node = id → ¬by_.Pending (some prior) r) → a.identity ≠ by_.identity := by
    intro id a ha hnode hpend haid
    obtain ⟨r, hr, hrof, hrholds⟩ := h.recorded a ha
    obtain ⟨hrid, hrnode⟩ := NodeAssertion.isOf_iff.1 hrof
    have hrgen := t.generation_of_holds_prior by_ hid hprior (hrid.trans haid) hrholds
    exact hpend r ((t.mem_opened by_).2 ⟨hr, fun _ => hrgen⟩) (hrnode.trans hnode)
      ⟨hrid.trans haid, congrArg some hrgen.symm⟩
  refine ⟨h.rows.opened by_ prior, ?_, ?_, fun a ha => h.outsideRule a (List.mem_filter.1 ha).1,
    ?_, ?_, ?_⟩
  · intro r hr hholds
    have hrid : r.identity ≠ by_.identity := fun he => by
      rw [t.opened_holds_self by_ hid hne hr he] at hholds
      cases hholds
    have hkinds : kindsBy (live.filter (·.identity ≠ by_.identity)) r.identity r.node =
        kindsBy live r.identity r.node := by
      unfold kindsBy
      rw [List.filter_filter]
      refine congrArg _ (List.filter_congr fun a _ => ?_)
      by_cases ha : a.identity = r.identity
      · simp [ha, hrid]
      · simp [ha]
    rw [hkinds]
    exact h.merged r (hof r hr) (t.opened_holds_ne by_ hrid ▸ hholds)
  · intro a ha
    obtain ⟨ha, haid⟩ := List.mem_filter.1 ha
    obtain ⟨r, hr, hrof, hrholds⟩ := h.recorded a ha
    have hrid : r.identity ≠ by_.identity := by
      rw [(NodeAssertion.isOf_iff.1 hrof).1]
      simpa using haid
    exact ⟨r, (t.mem_opened by_).2 ⟨hr, fun he => absurd he hrid⟩, hrof,
      (t.opened_holds_ne by_ hrid).trans hrholds⟩
  · intro id k hk hg
    obtain ⟨a, ha, hnode, hag⟩ := h.grouping id k hk hg
    refine ⟨a, List.mem_filter.2 ⟨ha, ?_⟩, hnode, hag⟩
    simpa [h.outsideRule a ha hag] using Ne.symm hid
  · intro id hnone hlist
    refine h.held id (fun a ha hnode hag => ?_) fun hnil => ?_
    · refine hnone a (List.mem_filter.2 ⟨ha, ?_⟩) hnode hag
      simpa [h.outsideRule a ha hag] using Ne.symm hid
    · rw [hlive, hnil] at hlist
      exact hlist rfl
  · intro id specific hspecific hpend hkinds k hk
    have hsame : (t.opened by_ prior).liveAssertions id = t.liveAssertions id := by
      rw [hlive, List.filter_eq_self]
      intro r hr
      obtain ⟨hr, hrow⟩ := List.mem_filter.1 hr
      simp only [Bool.and_eq_true, beq_iff_eq] at hrow
      refine decide_eq_true fun hrid => ?_
      have hrgen := t.generation_of_holds_prior by_ hid hprior hrid hrow.2
      exact hpend r ((t.mem_opened by_).2 ⟨hr, fun _ => hrgen⟩) hrow.1
        ⟨hrid, congrArg some hrgen.symm⟩
    rw [Tables.liveKinds, hsame]
    refine h.settled id specific hspecific (fun _ _ _ hf => hf) (fun a ha hnode => ?_) k hk
    refine hkinds a (List.mem_filter.2 ⟨ha, ?_⟩) hnode
    simpa using hsub id a ha hnode hpend

theorem settling (by_ : Asserter) : Settling by_ (fun _ => True) Kinds where
  rows := Kinds.rows
  mono := fun hp h => h.mono fun r hr => (hp r hr).1
  first := fun hid hnone h => h.frame ⟨fun _ => rfl, rfl,
    fun _ hr => Tables.began_holds _ _ h.rows hid hnone hr, fun _ => Tables.began_known _ _⟩
  supersede := fun hid hprior hne _ h =>
    (h.opened hid hprior hne).frame (Tables.settledEdges_sameNodes _ _ _).sameKinds
  settle := fun _ _ h => h.settleNode _ _ _

theorem within_frame {prior : Option String} (h : Within Kinds by_ prior live t)
    (hs : SameKinds t t') (hgens : t'.generations = t.generations) :
    Within Kinds by_ prior live t' := ⟨h.1.frame hs, h.2.1.congr hgens, h.2.2⟩

theorem nodeArms (hby : by_.Known) (prior : Option String) :
    NodeArms by_ (fun a => Grouping a.kind → a.identity = "") (Within Kinds by_ prior) where
  ensure := fun {_ t} id kind attrs _ hA h =>
    ⟨h.1.ensureNode (fun r hr => ⟨hr.1, fun he => h.2.2 (he ▸ hr.2)⟩) hby h.2.1 hA attrs,
      h.2.1.congr (t.ensureNode_cases by_ id kind h.1.rows.distinct attrs).2.1, h.2.2⟩
  frame := fun hs h => within_frame h hs.sameKinds hs.generations
  undo := by
    intro live t id defined h
    have hrows := t.undoWhatResolvedAgainst_rows id defined
    refine within_frame h (.of_generations (fun other => ?_) hrows.1 hrows.2) hrows.2
    rw [Tables.kindOf, Tables.undoWhatResolvedAgainst_nodes, Tables.kindOf]
  mark := by
    intro live t unit finding h
    refine within_frame h (.alter t finding fun n => ?_) rfl
    split <;> rfl
  alias_ := fun h => within_frame h (.of_generations (fun _ => rfl) rfl rfl) rfl
  drop := fun hkind h => ⟨h.1.dropMemberless hkind _ _, h.2⟩
  overwrite := fun _ h => within_frame h (.alter _ _ fun _ => rfl) rfl

end Kinds

/-! ## Every run -/

/-- The groupings are asserted outside the generation rule, as their own events are. -/
def GroupingsOutsideRule : Condition := fun _ by_ p =>
  (∃ c, p = .communityAssigned c) ∨ (∃ c, p = .conceptDerived c) ∨ (∃ r, p = .conceptRealized r) →
    by_.identity = ""

theorem conceptKind_not_grouping {name : String} (h : conceptKind name = some kind) :
    ¬Grouping kind := by
  unfold conceptKind at h
  split at h <;> cases h <;> simp [Grouping]

variable {a : Assertion} {p : Payload}

theorem asserted_not_grouping {t : Tables} {by_ : Asserter} (hp : p.grouping = false)
    (ha : a ∈ t.asserted by_ p) : ¬Grouping a.kind := by
  intro hg
  have htied : ∀ {ids : List String}, a ∈ t.tied by_ ids → False := by
    intro ids hm
    obtain ⟨path, -, rfl⟩ := List.mem_map.1 hm
    exact artifact_not_grouping hg
  cases p with
  | decisionMade d =>
    simp only [Tables.asserted, Tables.assertedDecision, List.mem_append, List.mem_cons] at ha
    rcases ha with (rfl | ha) | ha
    · simp [Asserter.assert, Grouping] at hg
    · exact (htied ha).elim
    · split at ha
      · cases ha
      · rw [List.mem_singleton.1 ha] at hg
        simp [Asserter.assert, Grouping] at hg
  | lessonLearned l =>
    rcases List.mem_cons.1 ha with rfl | ha
    · simp [Asserter.assert, Grouping] at hg
    · exact (htied ha).elim
  | reviewFinding f =>
    rcases List.mem_cons.1 ha with rfl | ha
    · simp [Asserter.assert, Grouping] at hg
    · exact (htied ha).elim
  | codeEntityExtracted c =>
    simp only [Tables.asserted, Tables.assertedDefinition, List.mem_cons, List.mem_map] at ha
    rcases ha with rfl | rfl | ⟨parent, -, rfl⟩ <;> simp [Asserter.assert, Grouping] at hg
  | edgeInferred r =>
    simp only [Tables.asserted, Tables.assertedReference] at ha
    split at ha
    · cases ha
    · split at ha
      · rw [List.mem_singleton.1 ha] at hg
        simp [Asserter.assert, Grouping] at hg
      · simp only [List.mem_cons, List.mem_map] at ha
        rcases ha with rfl | rfl | ⟨caller, -, rfl⟩ <;> simp [Asserter.assert, Grouping] at hg
  | docConceptExtracted c =>
    simp only [Tables.asserted, Tables.assertedConcept] at ha
    split at ha
    case h_1 kind hkind =>
      rw [List.mem_singleton.1 ha] at hg
      exact (conceptKind_not_grouping hkind hg).elim
    case h_2 => cases ha
  | docLinkExtracted l =>
    simp only [Tables.asserted, Tables.assertedLink] at ha
    split at ha
    · simp only [List.mem_cons, List.not_mem_nil, or_false] at ha
      rcases ha with rfl | rfl <;> exact (artifact_not_grouping hg).elim
    · cases ha
  | aliasUnresolved mention =>
    rw [List.mem_singleton.1 ha] at hg
    exact (artifact_not_grouping hg).elim
  | communityAssigned _ | conceptDerived _ | conceptRealized _ => cases hp
  | unitIntegrated _ | spawnResult _ | aliasDefined _ | unread => cases ha

theorem grouping_asserted {t u : Tables} {by_ : Asserter} (hC : GroupingsOutsideRule u by_ p)
    (ha : a ∈ t.asserted by_ p) (hg : Grouping a.kind) : a.identity = "" := by
  cases p with
  | communityAssigned c =>
    rw [List.mem_singleton.1 ha]
    exact hC (.inl ⟨c, rfl⟩)
  | conceptDerived c =>
    rw [List.mem_singleton.1 ha]
    exact hC (.inr (.inl ⟨c, rfl⟩))
  | conceptRealized r =>
    rw [List.mem_singleton.1 ha]
    exact hC (.inr (.inr ⟨r, rfl⟩))
  | _ => exact absurd hg (asserted_not_grouping rfl ha)

theorem kinds_of_reached {live : List Assertion} {t : Tables}
    (h : Reached GroupingsOutsideRule live t) : Kinds (fun _ => False) live t := by
  induction h with
  | empty => exact .empty
  | @fold live t by_ position p _ hby hC ih =>
    refine (Kinds.settling by_).fold _ (fun prior => (Kinds.nodeArms hby prior).arms position ?_)
      True.intro (fun a ha => grouping_asserted hC ha) (fun _ _ => True.intro) True.intro ih
    exact fun h => Kinds.within_frame h (Tables.foldTestEvidence_sameKinds _ _ _)
      (Tables.foldTestEvidence_generations _ _ _)
  | relabel _ ih => exact ih.frame (Tables.relabelOwedCommunities_sameKinds _)
  | settle _ ih => exact ih.frame (Tables.settleProofs_sameKinds _)
  | drop identity _ ih => exact ih.frame (.of_generations (fun _ => rfl) rfl rfl)
  | stage by_ position r _ ih =>
    exact ih.frame (Tables.stageReference_sameNodes _ by_ position r).sameKinds
  | references by_ _ _ _ ih => exact ih.frame (Tables.settleReferences_sameNodes _ by_).sameKinds

/-- What a node's kind should be, from its live assertions alone: the specific kind they name, an
artifact where none names another. -/
def specificKind (live : List Assertion) (id : String) (kind : NodeKind) : NodeKind :=
  if (live.any fun a => a.node == id && a.kind == kind) = true then kind else .artifact

/-- The identity whose record of the node is the oldest of the live ones asserted it of the kind
first. -/
def RecordedFirst (live : List Assertion) (t : Tables) (id : String) (kind : NodeKind) : Prop :=
  ∃ r, (t.liveAssertions id).head? = some r ∧ (kindsBy live r.identity id).head? = some kind

theorem kindsBy_mem {live : List Assertion} {identity : String}
    (h : kind ∈ kindsBy live identity id) : ∃ a ∈ live, a.node = id ∧ a.kind = kind := by
  simp only [kindsBy, List.mem_map, List.mem_filter, Bool.and_eq_true, beq_iff_eq] at h
  obtain ⟨a, ⟨ha, -, hnode⟩, hkind⟩ := h
  exact ⟨a, ha, hnode, hkind⟩

/-- A node that is asserted is held, of the kind its live rows settle on. -/
theorem Kinds.asserted {live : List Assertion} {t : Tables} (h : Kinds (fun _ => False) live t)
    (hkind : ¬Grouping kind) (hasserted : ∃ a ∈ live, a.node = id)
    (hkinds : ∀ a ∈ live, a.node = id → a.kind = .artifact ∨ a.kind = kind) :
    t.kindOf id = settledKind (t.liveKinds id) ∧ t.liveAssertions id ≠ [] := by
  obtain ⟨a, ha, hnode⟩ := hasserted
  obtain ⟨r, hr, hof, hholds⟩ := h.recorded a ha
  have hlive : t.liveAssertions id ≠ [] := by
    refine List.ne_nil_of_mem (List.mem_filter.2 ⟨hr, ?_⟩)
    rw [hholds, (NodeAssertion.isOf_iff.1 hof).2, hnode]
    simp
  refine ⟨?_, hlive⟩
  cases hk : t.kindOf id with
  | none =>
    exact absurd hk (h.held id
      (fun a ha hnode => specific_not_grouping hkind (hkinds a ha hnode)) hlive)
  | some k => exact (h.settled id kind hkind (fun _ _ _ hf => hf) hkinds k hk).symm

/-- Where a node's live assertions name one specific kind at most, the node is of that kind exactly
where the kind promotes, or no live assertion names it, or its oldest record named it first. -/
theorem kindOf_eq_specific_iff {live : List Assertion} {t : Tables}
    (h : Reached GroupingsOutsideRule live t) {id : String} {kind : NodeKind}
    (hkind : ¬Grouping kind) (hasserted : ∃ a ∈ live, a.node = id)
    (hkinds : ∀ a ∈ live, a.node = id → a.kind = .artifact ∨ a.kind = kind) :
    t.kindOf id = some (specificKind live id kind) ↔
      kind ∈ promotingKinds ∨ (∀ a ∈ live, a.node = id → a.kind ≠ kind) ∨
        RecordedFirst live t id kind := by
  have hk := kinds_of_reached h
  obtain ⟨hsettled, hlive⟩ := hk.asserted hkind hasserted hkinds
  have hlist : ∀ k ∈ t.liveKinds id, k = .artifact ∨ k = kind := by
    intro k hm
    obtain ⟨a, ha, hnode, rfl⟩ := Kinds.liveKinds_mem hk.merged hm
    exact hkinds a ha hnode
  rw [hsettled]
  by_cases hnamed : ∃ a ∈ live, a.node = id ∧ a.kind = kind
  · have hspecific : specificKind live id kind = kind := by
      obtain ⟨a, ha, hnode, hak⟩ := hnamed
      exact if_pos (List.any_eq_true.2 ⟨a, ha, by simp [hnode, hak]⟩)
    have hnot : ¬∀ a ∈ live, a.node = id → a.kind ≠ kind := fun hall => by
      obtain ⟨a, ha, hnode, hak⟩ := hnamed
      exact hall a ha hnode hak
    rw [hspecific]
    by_cases hp : kind ∈ promotingKinds
    · -- the identity that names the kind records it, and the kind promotes
      refine iff_of_true (settledKind_eq_promoting hp hlist ?_) (.inl hp)
      obtain ⟨a, ha, hnode, hak⟩ := hnamed
      obtain ⟨r, hr, hof, hholds⟩ := hk.recorded a ha
      obtain ⟨hrid, hrnode⟩ := NodeAssertion.isOf_iff.1 hof
      have hmem : kind ∈ kindsBy live r.identity r.node := by
        refine List.mem_map.2 ⟨a, List.mem_filter.2 ⟨ha, ?_⟩, hak⟩
        simp [hrid, hrnode]
      have hrow := hk.merged r hr hholds
      rw [settledKind_eq_promoting hp (fun k hm => ?_) hmem, Option.some.injEq] at hrow
      · refine List.mem_map.2 ⟨r, List.mem_filter.2 ⟨hr, ?_⟩, hrow.symm⟩
        simp [hrnode, hnode, hholds]
      · obtain ⟨b, hb, hbnode, rfl⟩ := kindsBy_mem hm
        exact hkinds b hb (hbnode.trans (hrnode.trans hnode))
    · -- no kind promotes: the oldest record's first decides
      rw [settledKind_eq_head? hp hlist, Tables.liveKinds, List.head?_map]
      cases hhead : t.liveAssertions id with
      | nil => exact absurd hhead hlive
      | cons r rest =>
        have hr : r ∈ t.liveAssertions id := by simp [hhead]
        obtain ⟨hmem, hrow⟩ := List.mem_filter.1 hr
        simp only [Bool.and_eq_true, beq_iff_eq] at hrow
        have hfirst : (kindsBy live r.identity id).head? = some r.kind := by
          have := hk.merged r hmem hrow.2
          rw [hrow.1, settledKind_eq_head? hp fun k hm => ?_] at this
          · exact this
          · obtain ⟨b, hb, hbnode, rfl⟩ := kindsBy_mem hm
            exact hkinds b hb hbnode
        simp only [RecordedFirst, hp, hnot, hhead, List.head?_cons, Option.map_some,
          Option.some.injEq, false_or]
        constructor
        · intro heq
          exact ⟨r, rfl, heq ▸ hfirst⟩
        · rintro ⟨r', rfl, hr'⟩
          rw [hfirst] at hr'
          exact Option.some.inj hr'
  · have hnone : ∀ a ∈ live, a.node = id → a.kind ≠ kind :=
      fun a ha hnode hak => hnamed ⟨a, ha, hnode, hak⟩
    have hspecific : specificKind live id kind = .artifact := by
      refine if_neg fun hany => hnamed ?_
      obtain ⟨a, ha, hof⟩ := List.any_eq_true.1 hany
      simp only [Bool.and_eq_true, beq_iff_eq] at hof
      exact ⟨a, ha, hof⟩
    refine iff_of_true ?_ (.inr (.inl hnone))
    rw [hspecific]
    cases hs : settledKind (t.liveKinds id) with
    | none =>
      rw [settledKind_eq_none_iff, Tables.liveKinds, List.map_eq_nil_iff] at hs
      exact absurd hs hlive
    | some k =>
      obtain ⟨a, ha, hnode, hak⟩ := Kinds.liveKinds_mem hk.merged (settledKind_mem hs)
      rw [← hak]
      exact congrArg some ((hkinds a ha hnode).resolve_right (hnone a ha hnode))

/-! A stage a decision governs before its own extraction asserts it. -/

def governedStage : Tables :=
  Tables.empty.fold ⟨"", "", 1⟩ 1 (.decisionMade ⟨"d", "", ["stage:plan"], ""⟩)

def extractedStage : Tables :=
  governedStage.fold ⟨"gw/workflow.yml", "h1", 2⟩ 2
    (.docConceptExtracted ⟨"stage", "stage:plan", "plan", "workflow.yml"⟩)

def stageAssertions : List Assertion :=
  [⟨"", "d", .decision⟩, ⟨"", "stage:plan", .artifact⟩, ⟨"gw/workflow.yml", "stage:plan", .stage⟩]

theorem reached_extractedStage : Reached GroupingsOutsideRule stageAssertions extractedStage := by
  have hgoverned := Reached.empty.fold (C := GroupingsOutsideRule) ⟨"", "", 1⟩ 1
    (.decisionMade ⟨"d", "", ["stage:plan"], ""⟩) (fun _ => rfl) (by simp [GroupingsOutsideRule])
  have hextracted := hgoverned.fold ⟨"gw/workflow.yml", "h1", 2⟩ 2
    (.docConceptExtracted ⟨"stage", "stage:plan", "plan", "workflow.yml"⟩)
    (fun h => absurd h (by decide)) (by simp [GroupingsOutsideRule])
  have hlive :
    (Tables.empty.fold ⟨"", "", 1⟩ 1 (.decisionMade ⟨"d", "", ["stage:plan"], ""⟩)).assertedBy
      ⟨"gw/workflow.yml", "h1", 2⟩
      (Tables.empty.assertedBy ⟨"", "", 1⟩ [] (.decisionMade ⟨"d", "", ["stage:plan"], ""⟩))
      (.docConceptExtracted ⟨"stage", "stage:plan", "plan", "workflow.yml"⟩) = stageAssertions := by
    decide +kernel
  rw [hlive] at hextracted
  exact hextracted

/-- The stage stays the artifact the decision named it. -/
theorem kindOf_extractedStage : Reached GroupingsOutsideRule stageAssertions extractedStage ∧
    (∀ a ∈ stageAssertions, a.node = "stage:plan" → a.kind = .artifact ∨ a.kind = .stage) ∧
    specificKind stageAssertions "stage:plan" .stage = .stage ∧
    extractedStage.kindOf "stage:plan" = some .artifact :=
  ⟨reached_extractedStage, by decide, by decide, by decide +kernel⟩

theorem kindOf_eq_specific_iff_stage :
    extractedStage.kindOf "stage:plan" = some (specificKind stageAssertions "stage:plan" .stage) ↔
      .stage ∈ promotingKinds ∨
        (∀ a ∈ stageAssertions, a.node = "stage:plan" → a.kind ≠ .stage) ∨
        RecordedFirst stageAssertions extractedStage "stage:plan" .stage :=
  kindOf_eq_specific_iff reached_extractedStage (by simp [Grouping]) (by decide) (by decide)

end Rigger.Graph
