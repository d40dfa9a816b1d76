import Rigger.Graph.Attachments
import Rigger.Graph.Kinds
import Rigger.Graph.Tiers

/-!
# The derived groupings

A pass derives the groups of one grain anew: its first event supersedes the grain, and each event
names a group, or a group and a member.  `Gathered` says that the tables' members and groups are
those of `M` and `G`: an event of no grouping leaves both (`Gathered.foldUngrouped`), and a pass's
event makes them the ones named since their grain was last superseded (`Gathered.foldGrouping`).
-/

namespace Rigger.Graph

open Lib

/-! ## What a pass says -/

/-- The kind of the groups a relation attaches to. -/
def groupKind (rel : Rel) : NodeKind := if rel = .realizes then .concept else .community

/-- The grain of a resolution. -/
def grainOf (rel : Rel) (resolution : String) : String :=
  (if rel = .realizes then "concept/" else "community/") ++ resolution ++ "/"

namespace Payload

/-- The membership an event names. -/
def membership : Payload → Option (Rel × String × String)
  | .communityAssigned c => some (.inCommunity, c.node, c.community)
  | .conceptRealized r => some (.realizes, r.node, r.concept)
  | _ => none

/-- The group an event names, under the relation its members are attached by. -/
def group : Payload → Option (Rel × String)
  | .communityAssigned c => some (.inCommunity, c.community)
  | .conceptDerived c => some (.realizes, c.concept)
  | .conceptRealized r => some (.realizes, r.concept)
  | _ => none

/-- The resolution whose grain a fresh event supersedes. -/
def opens : Payload → Option (Rel × String)
  | .communityAssigned c => if c.fresh then some (.inCommunity, c.resolution) else none
  | .conceptDerived c => if c.fresh then some (.realizes, c.resolution) else none
  | _ => none

/-- The event supersedes a grain the group is in. -/
def Supersedes (rel : Rel) (group : String) (p : Payload) : Prop :=
  ∃ resolution, p.opens = some (rel, resolution) ∧ inGrain (grainOf rel resolution) group = true

end Payload

/-- The membership was named since its grain was last superseded. -/
def NamedMember (folded : List Payload) (rel : Rel) (node group : String) : Prop :=
  Since (·.membership = some (rel, node, group)) (Payload.Supersedes rel group) folded

/-- The group was named since its grain was last superseded. -/
def NamedGroup (folded : List Payload) (rel : Rel) (group : String) : Prop :=
  Since (·.group = some (rel, group)) (Payload.Supersedes rel group) folded

theorem grouping_groupKind (rel : Rel) : Grouping (groupKind rel) := by
  unfold groupKind
  split
  · exact .inr rfl
  · exact .inl rfl

theorem groupKind_inj {rel rel' : Rel} (hrel : attaching rel = true) (hrel' : attaching rel' = true)
    (h : groupKind rel = groupKind rel') : rel = rel' := by
  revert h
  cases rel <;> cases hrel <;> cases rel' <;> cases hrel' <;> decide

/-! ## The groups -/

/-- The groups held are those of `G`, and no other node is of a group's kind: an id is a group's by
its kind in `space`, and its assertions are outside the generation rule. -/
structure Grouped (space : String → NodeKind) (G : Rel → String → Prop) (t : Tables) : Prop where
  rows : Rows t
  outside : ∀ r ∈ t.nodeAssertions, Grouping (space r.node) → r.identity = ""
  plain : ∀ r ∈ t.nodeAssertions, ¬Grouping (space r.node) → ¬Grouping r.kind
  kinds : ∀ id kind, t.kindOf id = some kind →
    kind = space id ∨ ¬Grouping (space id) ∧ ¬Grouping kind
  groups : ∀ rel id, attaching rel = true → space id = groupKind rel →
    (t.kindOf id ≠ none ↔ G rel id)

namespace Grouped

variable {space : String → NodeKind} {G : Rel → String → Prop} {t t' : Tables} {by_ : Asserter}

theorem empty : Grouped space (fun _ _ => False) .empty where
  rows := .empty
  outside := by simp [Tables.empty]
  plain := by simp [Tables.empty]
  kinds := by simp [Tables.kindOf, Tables.empty]
  groups := by simp [Tables.kindOf, Tables.empty]

theorem frame (h : Grouped space G t) (hs : SameKinds t t') : Grouped space G t' where
  rows := h.rows.frame hs.nodeAssertions hs.known
  outside := hs.nodeAssertions ▸ h.outside
  plain := hs.nodeAssertions ▸ h.plain
  kinds := fun id kind hkind => h.kinds id kind (hs.kinds id ▸ hkind)
  groups := fun rel id hrel hspace => by
    rw [hs.kinds]
    exact h.groups rel id hrel hspace

variable {id : String} {kind : NodeKind}

/-- A node of a group's kind is a group of it. -/
theorem space_of_kind (h : Grouped space G t) (hkind : t.kindOf id = some kind)
    (hg : Grouping kind) :
    space id = kind :=
  ((h.kinds id kind hkind).resolve_right fun hno => hno.2 hg).symm

variable {rel : Rel}

theorem kindOf_iff (h : Grouped space G t) (hrel : attaching rel = true)
    (hspace : space id = groupKind rel) : t.kindOf id = some (groupKind rel) ↔ G rel id := by
  rw [← h.groups rel id hrel hspace]
  constructor
  · intro hkind hnone
    rw [hnone] at hkind
    cases hkind
  · intro hheld
    obtain ⟨kind, hkind⟩ := Option.ne_none_iff_exists'.1 hheld
    have hgrouping : Grouping (space id) := hspace ▸ grouping_groupKind rel
    rw [hkind, (h.kinds id kind hkind).resolve_right fun hno => hno.1 hgrouping, hspace]

/-! ### Nodes of no group -/

theorem record_rows (h : Grouped space G t) {attrs : Attrs}
    (hgroup : Grouping (space id) → by_.identity = "")
    (hplain : ¬Grouping (space id) → ¬Grouping kind)
    (hrec : Recorded by_ id kind attrs t.nodeAssertions t'.nodeAssertions) :
    (∀ r ∈ t'.nodeAssertions, Grouping (space r.node) → r.identity = "") ∧
      ∀ r ∈ t'.nodeAssertions, ¬Grouping (space r.node) → ¬Grouping r.kind := by
  obtain ⟨own, hof, -, hmem, hown⟩ := hrec.own
  obtain ⟨hidentity, hnode⟩ := NodeAssertion.isOf_iff.1 hof
  refine ⟨fun r hr hg => ?_, fun r hr hg => ?_⟩
  · rcases (hmem r).1 hr with rfl | ⟨hr, -⟩
    · rw [hidentity]
      exact hgroup (hnode ▸ hg)
    · exact h.outside r hr hg
  · rcases (hmem r).1 hr with rfl | ⟨hr, -⟩
    · rw [hnode] at hg
      rcases hown with ⟨hkind, -⟩ | ⟨r', hr', hof', -, hkind, -⟩
      · rw [hkind]
        exact hplain hg
      · rw [hkind]
        rcases promote_eq_or r'.kind kind with hp | hp
        · rw [hp]
          exact h.plain r' hr' ((NodeAssertion.isOf_iff.1 hof').2 ▸ hg)
        · rw [hp]
          exact hplain hg
    · exact h.plain r hr hg

theorem settled_plain (h : Grouped space G t) (hid : ¬Grouping (space id))
    (hkind : settledKind (t.liveKinds id) = some kind) : ¬Grouping kind := by
  obtain ⟨r, hr, rfl⟩ := List.mem_map.1 (settledKind_mem hkind)
  obtain ⟨hr, hnode, -⟩ := (Tables.mem_liveAssertions _).1 hr
  exact h.plain r hr (hnode ▸ hid)

theorem ensureOther (h : Grouped space G t) (hby : by_.Known) (hcurrent : by_.Current t)
    (hid : ¬Grouping (space id)) (hkind : ¬Grouping kind) (attrs : List (String × String)) :
    Grouped space G (t.ensureNode by_ id kind attrs) := by
  obtain ⟨hrec, -, hothers, hself⟩ := t.ensureNode_cases by_ id kind h.rows.distinct attrs
  have hrows := h.rows.ensureNode hby hcurrent id kind attrs
  obtain ⟨houtside, hplain⟩ := h.record_rows (fun hg => absurd hg hid) (fun _ => hkind) hrec
  generalize t.ensureNode by_ id kind attrs = ensured at hrec hothers hself hrows houtside hplain ⊢
  have hother : ∀ other, other ≠ id → ensured.kindOf other = t.kindOf other :=
    fun other hne => by rw [Tables.kindOf, hothers other hne, Tables.kindOf]
  refine ⟨hrows, houtside, hplain, fun other k hk => ?_, fun rel other hrel hspace => ?_⟩
  · by_cases hne : other = id
    · subst hne
      refine .inr ⟨hid, ?_⟩
      rcases hself with ⟨hself, -⟩ | ⟨r, -, -, -, hself⟩
      · rw [Tables.kindOf, hself, Option.map_some, Tables.upserted_kind, Option.some.injEq] at hk
        cases hheld : t.kindOf other with
        | none =>
          rw [hheld] at hk
          exact hk ▸ hkind
        | some held =>
          rw [hheld, Option.map_some, Option.getD_some] at hk
          have hheldPlain : ¬Grouping held := by
            rcases h.kinds other held hheld with rfl | ⟨-, hno⟩
            · exact hid
            · exact hno
          rcases promote_eq_or held kind with hp | hp
          · rwa [← hk, hp]
          · rwa [← hk, hp]
      · rw [Tables.kindOf, hself, Option.map_map] at hk
        obtain ⟨settled, hsettled, rfl⟩ := Option.map_eq_some_iff.1 hk
        obtain ⟨r, hr, rfl⟩ := List.mem_map.1 (settledKind_mem hsettled)
        obtain ⟨hr, hnode, -⟩ := (Tables.mem_liveAssertions _).1 hr
        exact hplain r hr (hnode ▸ hid)
    · exact h.kinds other k (hother other hne ▸ hk)
  · have hne : other ≠ id := by
      rintro rfl
      exact hid (hspace ▸ grouping_groupKind rel)
    rw [hother other hne]
    exact h.groups rel other hrel hspace

theorem settleNode (h : Grouped space G t) (hid : ¬Grouping (space id)) (retracted : Attrs)
    (at_ : Int) : Grouped space G (t.settleNode id retracted at_) where
  rows := h.rows.settleNode id retracted at_
  outside := by
    rw [Tables.settleNode_nodeAssertions]
    exact h.outside
  plain := by
    rw [Tables.settleNode_nodeAssertions]
    exact h.plain
  kinds := fun other k hk => by
    by_cases hne : other = id
    · subst hne
      rw [Tables.settleNode_kindOf, Option.bind_eq_some_iff] at hk
      obtain ⟨settled, hsettled, hmap⟩ := hk
      obtain ⟨-, -, rfl⟩ := Option.map_eq_some_iff.1 hmap
      exact .inr ⟨hid, h.settled_plain hid hsettled⟩
    · exact h.kinds other k (t.settleNode_kindOf_ne retracted at_ hne ▸ hk)
  groups := fun rel other hrel hspace => by
    have hne : other ≠ id := by
      rintro rfl
      exact hid (hspace ▸ grouping_groupKind rel)
    rw [t.settleNode_kindOf_ne retracted at_ hne]
    exact h.groups rel other hrel hspace

theorem opened (h : Grouped space G t) (by_ : Asserter) (prior : String) :
    Grouped space G (t.opened by_ prior) where
  rows := h.rows.opened by_ prior
  outside := fun r hr => h.outside r ((t.mem_opened by_).1 hr).1
  plain := fun r hr => h.plain r ((t.mem_opened by_).1 hr).1
  kinds := h.kinds
  groups := h.groups

/-! ### Groups -/

theorem ensureGroup (h : Grouped space G t) (hby : by_.Known) (hidentity : by_.identity = "")
    (hrel : attaching rel = true) (hspace : space id = groupKind rel)
    (attrs : List (String × String)) :
    Grouped space (fun r g => G r g ∨ r = rel ∧ g = id)
      (t.ensureNode by_ id (groupKind rel) attrs) := by
  have hgrouping : Grouping (space id) := hspace ▸ grouping_groupKind rel
  obtain ⟨hrec, -, hothers, hself⟩ :=
    t.ensureNode_cases by_ id (groupKind rel) h.rows.distinct attrs
  have hrows := h.rows.ensureNode hby (.inl hidentity) id (groupKind rel) attrs
  obtain ⟨houtside, hplain⟩ := h.record_rows (fun _ => hidentity)
    (fun hg => absurd hgrouping hg) hrec
  -- the row there is of the same generation, so the node is upserted and not settled
  have hkind : (t.ensureNode by_ id (groupKind rel) attrs).kindOf id = some (groupKind rel) := by
    rcases hself with ⟨hself, -⟩ | ⟨r, hr, hof, hgen, -⟩
    · rw [Tables.kindOf, hself, Option.map_some, Tables.upserted_kind]
      cases hheld : t.kindOf id with
      | none => rfl
      | some held =>
        have hsame : held = groupKind rel :=
          ((h.kinds id held hheld).resolve_right fun hno => hno.1 hgrouping).trans hspace
        rw [Option.map_some, Option.getD_some, hsame]
        rcases promote_eq_or (groupKind rel) (groupKind rel) with hp | hp <;> rw [hp]
    · refine absurd ?_ hgen
      rw [h.rows.outside r hr (((NodeAssertion.isOf_iff.1 hof).1).trans hidentity), hby hidentity]
  generalize t.ensureNode by_ id (groupKind rel) attrs =
    ensured at hothers hrows houtside hplain hkind ⊢
  have hother : ∀ other, other ≠ id → ensured.kindOf other = t.kindOf other :=
    fun other hne => by rw [Tables.kindOf, hothers other hne, Tables.kindOf]
  refine ⟨hrows, houtside, hplain, fun other k hk => ?_, fun r other hr hspace' => ?_⟩
  · by_cases hne : other = id
    · subst hne
      rw [hkind, Option.some.injEq] at hk
      exact .inl (hk ▸ hspace.symm)
    · exact h.kinds other k (hother other hne ▸ hk)
  · by_cases hne : other = id
    · subst hne
      rw [hkind]
      exact iff_of_true (Option.some_ne_none _)
        (.inr ⟨groupKind_inj hr hrel (hspace'.symm.trans hspace), rfl⟩)
    · rw [hother other hne, h.groups r other hr hspace']
      exact (or_iff_left fun he => hne he.2).symm

theorem dropMemberless (h : Grouped space G t) {grain : String} (hrel : attaching rel = true)
    (hmembers : ∀ e ∈ t.edges, e.rel = rel → inGrain grain e.to_ = true → e.isLive = false) :
    Grouped space (fun r g => G r g ∧ ¬(r = rel ∧ inGrain grain g = true))
      (t.dropMemberless grain (groupKind rel) rel) := by
  have hget : ∀ id, (t.dropMemberless grain (groupKind rel) rel).kindOf id =
      (t.kindOf id).filter fun kind => !(kind == groupKind rel && inGrain grain id) := by
    intro id
    rw [Tables.kindOf, Tables.dropMemberless_getElem?, Tables.kindOf]
    cases hn : t.nodes[id]? with
    | none => rfl
    | some n =>
      by_cases hin : inGrain grain id = true
      · have hnone : (t.edges.any fun e => e.to_ == id && e.rel == rel && e.isLive) = false := by
          rw [List.any_eq_false]
          intro e he hof
          simp only [Bool.and_eq_true, beq_iff_eq] at hof
          rw [hmembers e he hof.1.2 (hof.1.1 ▸ hin)] at hof
          cases hof.2
        rw [hnone]
        by_cases hk : n.kind = groupKind rel <;> simp [Option.filter, hin, hk]
      · simp [Option.filter, hin]
  have hof : ∀ id k, (t.dropMemberless grain (groupKind rel) rel).kindOf id = some k →
      t.kindOf id = some k := by
    intro id k hk
    rw [hget] at hk
    exact (Option.filter_eq_some_iff.1 hk).1
  refine ⟨h.rows.congr rfl rfl, h.outside, h.plain, fun id k hk => h.kinds id k (hof id k hk),
    fun r id hr hspace => ?_⟩
  rw [← h.groups r id hr hspace, hget]
  cases hheld : t.kindOf id with
  | none => simp
  | some k =>
    have hk : k = groupKind r := by
      have hgrouping : Grouping (space id) := hspace ▸ grouping_groupKind r
      exact ((h.kinds id k hheld).resolve_right fun hno => hno.1 hgrouping).trans hspace
    have hsame : k = groupKind rel ↔ r = rel := by
      rw [hk]
      exact ⟨groupKind_inj hr hrel, congrArg groupKind⟩
    simp [Option.filter, hsame]

end Grouped

/-! ## The arms of no grouping -/

/-- What the tables keep of the groupings: the members are those of `M`, the groups those of `G`,
and no row outside the generation rule is pending. -/
structure Gathered (space : String → NodeKind) (M : Rel → String → String → Prop)
    (G : Rel → String → Prop) (pending : NodeAssertion → Prop) (t : Tables) : Prop where
  hung : Hung (fun node => ¬Grouping (space node)) M t
  grouped : Grouped space G t
  ruled : ∀ r ∈ t.nodeAssertions, pending r → r.identity ≠ ""

namespace Gathered

variable {space : String → NodeKind} {M : Rel → String → String → Prop} {G : Rel → String → Prop}
  {pending : NodeAssertion → Prop} {t t' : Tables} {by_ : Asserter}

theorem frame (h : Gathered space M G pending t) (hedges : SameEdges t t') (hs : SameKinds t t') :
    Gathered space M G pending t' :=
  ⟨h.hung.sameEdges hedges hs.contains, h.grouped.frame hs, hs.nodeAssertions ▸ h.ruled⟩

theorem settling (space : String → NodeKind) (M : Rel → String → String → Prop)
    (G : Rel → String → Prop) (by_ : Asserter) :
    Settling by_ (fun _ => True) fun pending _ t => Gathered space M G pending t where
  rows := fun h => h.grouped.rows
  mono := fun hp h => ⟨h.hung, h.grouped, fun r hr hpending => h.ruled r hr ((hp r hr).2 hpending)⟩
  first := fun hid hnone h => ⟨h.hung.began _, h.grouped.frame ⟨fun _ => rfl, rfl,
    fun _ hr => Tables.began_holds _ _ h.grouped.rows hid hnone hr, fun _ =>
      Tables.began_known _ _⟩,
    h.ruled⟩
  supersede := fun hid _ _ _ h => ⟨h.hung.settledEdges _ _,
    (h.grouped.opened _ _).frame (Tables.settledEdges_sameNodes _ _ _).sameKinds,
    fun _ _ hpending => hpending.1 ▸ hid⟩
  settle := by
    intro pending live t r hr hpending h
    have hid : ¬Grouping (space r.node) :=
      fun hg => h.ruled r hr hpending (h.grouped.outside r hr hg)
    refine ⟨h.hung.settleNode _ _ _, h.grouped.settleNode hid _ _, ?_⟩
    rw [Tables.settleNode_nodeAssertions]
    exact fun x hx hp => h.ruled x hx hp.1

end Gathered

/-- What the tables keep of the groupings within an event. -/
def Gathering (space : String → NodeKind) (M : Rel → String → String → Prop)
    (G : Rel → String → Prop) (by_ : Asserter) (prior : Option String) (live : List Assertion)
    (t : Tables) : Prop :=
  Within (fun pending _ t => Gathered space M G pending t) by_ prior live t

/-- An assertion of a node of no group. -/
def Other (space : String → NodeKind) (a : Assertion) : Prop :=
  ¬Grouping (space a.node) ∧ ¬Grouping a.kind

namespace Gathering

variable {space : String → NodeKind} {M : Rel → String → String → Prop} {G : Rel → String → Prop}
  {t t' : Tables} {by_ : Asserter} {live : List Assertion} {prior : Option String}

theorem within (h : Gathering space M G by_ prior live t)
    (hhung : Hung (fun node => ¬Grouping (space node)) M t') (hs : SameKinds t t')
    (hgens : t'.generations = t.generations) (live' : List Assertion) :
    Gathering space M G by_ prior live' t' :=
  ⟨⟨hhung, h.1.grouped.frame hs, hs.nodeAssertions ▸ h.1.ruled⟩, h.2.1.congr hgens, h.2.2⟩

theorem withinNodes (h : Gathering space M G by_ prior live t)
    (hhung : Hung (fun node => ¬Grouping (space node)) M t') (hs : SameNodes t t') :
    Gathering space M G by_ prior live t' :=
  h.within hhung hs.sameKinds hs.generations live

theorem withinKinds (h : Gathering space M G by_ prior live t) (hedges : SameEdges t t')
    (hs : SameKinds t t') (hgens : t'.generations = t.generations) :
    Gathering space M G by_ prior live t' :=
  h.within (h.1.hung.sameEdges hedges hs.contains) hs hgens live

theorem ensureNode (h : Gathering space M G by_ prior live t) (hby : by_.Known) {id : String}
    {kind : NodeKind} (hA : Other space (by_.assert id kind)) (attrs : List (String × String))
    (live' : List Assertion) : Gathering space M G by_ prior live'
    (t.ensureNode by_ id kind attrs) := by
  obtain ⟨hrec, hgens, -, -⟩ := t.ensureNode_cases by_ id kind h.1.grouped.rows.distinct attrs
  refine ⟨⟨h.1.hung.ensureNode h.1.grouped.rows.distinct by_ id kind attrs,
    h.1.grouped.ensureOther hby h.2.1 hA.1 hA.2 attrs, fun r hr hpending => ?_⟩,
    h.2.1.congr hgens, h.2.2⟩
  obtain ⟨own, -, hgen, hmem, -⟩ := hrec.own
  rcases (hmem r).1 hr with rfl | ⟨hr, -⟩
  · exact absurd (hgen ▸ hpending.2) h.2.2
  · exact h.1.ruled r hr hpending

theorem calls (hby : by_.Known) (prior : Option String) (position : Nat) :
    CallArms by_ position (Other space) (Gathering space M G by_ prior) where
  ensure := fun _ _ attrs _ hA h => h.ensureNode hby hA attrs _
  add := by
    intro live t src dst rel tier hrel h
    have hnone : attaching rel = false := by
      revert hrel
      cases rel <;> decide
    exact h.withinNodes (h.1.hung.addEdge src dst hnone by_.at_ position tier).1
      (t.addEdge_sameNodes ..)
  supersede := by
    intro live t file h
    have howed := h.1.hung.sameEdges (Tables.oweRelabel_sameEdges t (t.communitiesOf file true))
      fun _ => rfl
    refine h.withinNodes (howed.retireEdges by_.at_ fun e _ hof => ?_)
      (t.supersedeFileEdges_sameNodes _ _)
    simp only [ofFile, Bool.and_eq_true, Bool.or_eq_true, beq_iff_eq] at hof
    rcases hof.2 with hof | hof
    · rcases hof.2 with hrel | hrel <;> rw [hrel] <;> rfl
    · rcases hof.1 with hrel | hrel <;> rw [hrel] <;> rfl

theorem code (hby : by_.Known) (prior : Option String) (position : Nat) :
    CodeArms by_ position (Other space) (Gathering space M G by_ prior) :=
  { calls hby prior position with
    define := fun _ attrs _ hA h => h.ensureNode hby hA attrs _
    undo := by
      intro live t id defined h
      have hrows := t.undoWhatResolvedAgainst_rows id defined
      refine h.within (h.1.hung.undoWhatResolvedAgainst id defined)
        (.of_generations (fun other => ?_) hrows.1 hrows.2) hrows.2 live
      rw [Tables.kindOf, Tables.undoWhatResolvedAgainst_nodes, Tables.kindOf]
    promote := by
      intro live t entity name h
      have hpromoted := h.1.hung.updateEdges
        (p := fun e => (e.rel == .references || e.rel == .calls) &&
        e.tier == .ambiguous && e.isLive && e.to_ != entity && edgeBindsLeaf e.to_ name)
        (f := fun e => { e with tier := .inferred }) (fun _ => ⟨rfl, rfl⟩) fun e _ hp => by
          simp only [Bool.and_eq_true, Bool.or_eq_true, beq_iff_eq] at hp
          rcases hp.1.1.1.1 with hrel | hrel <;> rw [hrel] <;> rfl
      exact h.withinNodes (hpromoted.sameEdges (Tables.oweProofs_sameEdges _ _) fun _ => rfl)
        ((Tables.updateEdges_sameNodes _ _ _).trans (Tables.oweProofs_sameNodes _ _)) }

theorem ungrouped (hby : by_.Known) (prior : Option String) (position : Nat) :
    UngroupedArms by_ position (Other space) (fun _ _ => True) (Gathering space M G by_ prior) where
  ensure := fun _ _ attrs _ hA h => h.ensureNode hby hA attrs _
  record := by
    intro live t src dst rel hrel h
    have hnone : attaching rel = false := by
      revert hrel
      cases rel <;> decide
    exact h.withinNodes (h.1.hung.addEdge src dst hnone by_.at_ position .extracted).1
      (t.addEdge_sameNodes ..)
  resolve := by
    intro live t p hp h
    refine h.withinNodes (h.1.hung.retireEdges by_.at_ fun e _ hof => ?_)
      (t.retireEdges_sameNodes _ _)
    have hrel := hp e hof
    revert hrel
    cases e.rel <;> decide
  mark := by
    intro live t unit finding h
    have hedges : SameEdges t (t.markUpheld unit finding) := ⟨rfl, rfl, rfl, rfl, rfl⟩
    refine h.withinKinds hedges (.alter t finding fun n => ?_) rfl
    split <;> rfl
  alias_ := by
    intro live t aliases h
    have hedges : SameEdges t { t with aliases := aliases } := ⟨rfl, rfl, rfl, rfl, rfl⟩
    exact h.withinKinds hedges (.of_generations (fun _ => rfl) rfl rfl) rfl
  definition := fun _ hA h => (code hby prior position).foldDefinition hA h
  reference := by
    intro live t r _ hA h
    refine (calls hby prior position).foldReference (fun {live t} h => ?_) hA h
    have hkept := t.foldTestEvidence_keepsTiers r position
    exact h.withinKinds hkept.edges (t.foldTestEvidence_sameKinds r position) hkept.generations
  link := by
    intro live t src dst name rel hrel h
    have hnone : attaching rel = false := by
      unfold linkRel at hrel
      split at hrel <;> first | (cases hrel; rfl) | cases hrel
    exact h.withinNodes (h.1.hung.assertLink by_ src dst hnone by_.at_ position .extracted)
      (t.assertLink_sameNodes ..)

end Gathering

variable {p : Payload}

theorem Gathered.foldUngrouped {space : String → NodeKind} {M : Rel → String → String → Prop}
    {G : Rel → String → Prop} {t : Tables} {by_ : Asserter}
    (h : Gathered space M G (fun _ => False) t) (hby : by_.Known) (hp : p.grouping = false)
    (hA : ∀ a ∈ (t.advanceGeneration by_).1.asserted by_ p, ¬Grouping (space a.node))
    (position : Nat) : Gathered space M G (fun _ => False) (t.fold by_ position p) := by
  have hsettling := settling space M G by_
  have hadvanced : Gathering space M G by_ (t.advanceGeneration by_).2
      (if (t.advanceGeneration by_).2.isSome then [] else []) (t.advanceGeneration by_).1 :=
    hsettling.advance True.intro h
  have harm : Gathering space M G by_ (t.advanceGeneration by_).2 _ _ :=
    (Gathering.ungrouped hby _ position).foldPayload _ hp True.intro
      (fun a ha => ⟨hA a ha, asserted_not_grouping hp ha⟩) hadvanced
  unfold Tables.fold
  dsimp only
  cases hprior : (t.advanceGeneration by_).2 with
  | none =>
    rw [hprior] at harm
    exact ⟨harm.1.hung, harm.1.grouped, fun _ _ hf => hf.elim⟩
  | some prior =>
    rw [hprior] at harm
    exact hsettling.retire harm

/-! ## The arms of the groupings -/

theorem Tables.fold_outside {by_ : Asserter} (h : by_.identity = "") (t : Tables) (position : Nat)
    (p : Payload) : t.fold by_ position p = t.foldPayload by_ position p := by
  have hadvance : t.advanceGeneration by_ = (t, none) := if_pos h
  unfold Tables.fold
  rw [hadvance]

theorem Payload.supersedes_iff {rel : Rel} {resolution : String} {fresh : Bool}
    (h : p.opens = if fresh then some (rel, resolution) else none) (r : Rel) (g : String) :
    p.Supersedes r g ↔ fresh = true ∧ r = rel ∧ inGrain (grainOf rel resolution) g = true := by
  unfold Supersedes
  rw [h]
  cases fresh with
  | false => simp
  | true =>
    simp only [if_true, Option.some.injEq, Prod.mk.injEq, true_and]
    constructor
    · rintro ⟨text, ⟨rfl, rfl⟩, hin⟩
      exact ⟨rfl, hin⟩
    · rintro ⟨rfl, hin⟩
      exact ⟨resolution, ⟨rfl, rfl⟩, hin⟩

namespace Gathered

variable {space : String → NodeKind} {M M' : Rel → String → String → Prop}
  {G G' : Rel → String → Prop} {t : Tables} {by_ : Asserter} {folded : List Payload}

theorem congr (h : Gathered space M G (fun _ => False) t)
    (hM : ∀ r node group, M r node group ↔ M' r node group)
    (hG : ∀ r group, G r group ↔ G' r group) :
    Gathered space M' G' (fun _ => False) t := by
  have hM : M = M' := funext fun r => funext fun node => funext fun group =>
    propext (hM r node group)
  have hG : G = G' := funext fun r => funext fun group => propext (hG r group)
  exact hM ▸ hG ▸ h

theorem resetGrain (h : Gathered space M G (fun _ => False) t) (by_ : Asserter) (fresh : Bool)
    (rel : Rel) (hrel : attaching rel = true) (resolution : String) :
    Gathered space
      (fun r node group => M r node group ∧
        ¬(fresh = true ∧ r = rel ∧ inGrain (grainOf rel resolution) group = true))
      (fun r group => G r group ∧
        ¬(fresh = true ∧ r = rel ∧ inGrain (grainOf rel resolution) group = true))
      (fun _ => False)
      (t.resetGrain by_ fresh (grainOf rel resolution) (groupKind rel) rel) := by
  unfold Tables.resetGrain
  cases fresh with
  | false => exact h.congr (by simp) (by simp)
  | true =>
    have hretired := h.hung.retireGrain (grainOf rel resolution) rel by_.at_
    have hgrouped := h.grouped.frame
      (t.retireGrain_sameNodes (grainOf rel resolution) rel by_.at_).sameKinds
    have hdropped : Gathered space _ _ (fun _ => False) _ :=
      ⟨hretired.dropMemberless (grainOf rel resolution)
        (groupKind rel) hrel fun id n hn hk hno => hno ?_,
        hgrouped.dropMemberless hrel fun e he hr hin => ?_, fun _ _ hf => hf.elim⟩
    · exact hdropped.congr (by simp) (by simp)
    · -- what the pass drops is of a group's kind, so its id is a group's
      have hkind :
          (t.retireGrain (grainOf rel resolution) rel by_.at_).kindOf id = some n.kind := by
        rw [Tables.kindOf, hn, Option.map_some]
      rw [hgrouped.space_of_kind hkind (hk ▸ grouping_groupKind rel), hk]
      exact grouping_groupKind rel
    · obtain ⟨e, -, rfl⟩ := List.mem_map.1 he
      split
      · rfl
      case isFalse hno =>
        rw [if_neg hno] at hr hin
        rw [← Bool.not_eq_true]
        exact fun hl => hno (by simp [hl, hr, hin])

variable {id : String}

theorem ensureGroup (h : Gathered space M G (fun _ => False) t) (hby : by_.Known)
    (hidentity : by_.identity = "") (rel : Rel) (hrel : attaching rel = true)
    (hspace : space id = groupKind rel) (attrs : List (String × String)) :
    Gathered space M (fun r group => G r group ∨ r = rel ∧ group = id) (fun _ => False)
      (t.ensureNode by_ id (groupKind rel) attrs) :=
  ⟨h.hung.ensureNode h.grouped.rows.distinct by_ id (groupKind rel) attrs,
    h.grouped.ensureGroup hby hidentity hrel hspace attrs, fun _ _ hf => hf.elim⟩

theorem attach (h : Gathered space M G (fun _ => False) t) {node : String}
    (group : String) (rel : Rel)
    (hrel : attaching rel = true) (hnode : ¬Grouping (space node)) (at_ : Int) (source : Nat) :
    Gathered space (fun r n g => M r n g ∨ r = rel ∧ n = node ∧ g = group) G (fun _ => False)
      (t.attach node group rel at_ source) :=
  ⟨h.hung.attach node group hrel at_ source hnode,
    h.grouped.frame (t.attach_sameNodes node group rel at_ source).sameKinds, fun _ _ hf => hf.elim⟩

variable {p : Payload}

theorem foldGrouping
    (h : Gathered space (NamedMember folded) (NamedGroup folded) (fun _ => False) t)
    (hby : by_.Known) (hidentity : by_.identity = "") (hp : p.grouping = true)
    (hgroup : ∀ rel g, p.group = some (rel, g) → space g = groupKind rel)
    (hnode : ∀ node ∈ p.attached, ¬Grouping (space node)) (position : Nat) :
    Gathered space (NamedMember (folded ++ [p])) (NamedGroup (folded ++ [p])) (fun _ => False)
      (t.fold by_ position p) := by
  rw [Tables.fold_outside hidentity]
  have hM : ∀ rel node group, NamedMember (folded ++ [p]) rel node group ↔
      p.membership = some (rel, node, group) ∨
        NamedMember folded rel node group ∧ ¬p.Supersedes rel group := fun _ _ _ => since_concat
  have hG : ∀ rel group, NamedGroup (folded ++ [p]) rel group ↔
      p.group = some (rel, group) ∨ NamedGroup folded rel group ∧ ¬p.Supersedes rel group :=
    fun _ _ => since_concat
  cases p with
  | communityAssigned c =>
    have hsupersedes := fun r g => Payload.supersedes_iff (p := .communityAssigned c) rfl r g
    have hreset := h.resetGrain by_ c.fresh .inCommunity rfl c.resolution
    have hheld := hreset.ensureGroup hby hidentity .inCommunity rfl (hgroup _ _ rfl) []
    have hattached := hheld.attach c.community .inCommunity rfl
      (hnode c.node (by simp [Payload.attached])) by_.at_ position
    refine ((hattached.frame ?_ ?_).frame (Tables.oweRelabel_sameEdges _ _)
      (Tables.oweRelabel_sameNodes _ _).sameKinds).congr (fun r n g => ?_) fun r g => ?_
    · exact ⟨rfl, rfl, rfl, rfl, rfl⟩
    · exact .alter _ c.community fun _ => rfl
    · rw [hM, hsupersedes, or_comm]
      simp only [Payload.membership, Option.some.injEq, Prod.mk.injEq, eq_comm]
    · rw [hG, hsupersedes, or_comm]
      simp only [Payload.group, Option.some.injEq, Prod.mk.injEq, eq_comm]
  | conceptDerived c =>
    have hsupersedes := fun r g => Payload.supersedes_iff (p := .conceptDerived c) rfl r g
    have hreset := h.resetGrain by_ c.fresh .realizes rfl c.resolution
    refine (hreset.ensureGroup hby hidentity .realizes rfl (hgroup _ _ rfl)
      [("resolution", c.resolution), ("hash", c.hash), ("label", c.label)]).congr
        (fun r n g => ?_) fun r g => ?_
    · rw [hM, hsupersedes]
      simp [Payload.membership]
    · rw [hG, hsupersedes, or_comm]
      simp only [Payload.group, Option.some.injEq, Prod.mk.injEq, eq_comm]
  | conceptRealized r =>
    have hsupersedes : ∀ rel g, ¬(Payload.conceptRealized r).Supersedes rel g := by
      rintro rel g ⟨_, hopens, -⟩
      cases hopens
    have hheld := h.ensureGroup hby hidentity .realizes rfl (hgroup _ _ rfl) []
    refine (hheld.attach r.concept .realizes rfl
      (hnode r.node (by simp [Payload.attached])) by_.at_ position).congr (fun rel n g => ?_)
        fun rel g => ?_
    · rw [hM, or_comm]
      simp only [hsupersedes, not_false_eq_true, and_true, Payload.membership, Option.some.injEq,
        Prod.mk.injEq, eq_comm]
    · rw [hG, or_comm]
      simp only [hsupersedes, not_false_eq_true, and_true, Payload.group, Option.some.injEq,
        Prod.mk.injEq, eq_comm]
  | _ => cases hp

theorem resetGrain_kindOf (h : Gathered space M G (fun _ => False) t) (by_ : Asserter)
    (fresh : Bool) {rel : Rel} (grain : String) (hid : ¬Grouping (space id)) :
    (t.resetGrain by_ fresh grain (groupKind rel) rel).kindOf id = t.kindOf id := by
  unfold Tables.resetGrain
  cases fresh with
  | false => rfl
  | true =>
    rw [if_pos rfl, Tables.kindOf, Tables.dropMemberless_getElem?,
      (t.retireGrain_sameNodes grain rel by_.at_).nodes, Tables.kindOf]
    cases hn : t.nodes[id]? with
    | none => rfl
    | some n =>
      have hkind : ¬n.kind = groupKind rel := fun hk => by
        have hof : t.kindOf id = some n.kind := by rw [Tables.kindOf, hn, Option.map_some]
        refine hid (h.grouped.space_of_kind hof (hk ▸ grouping_groupKind rel) ▸ ?_)
        exact hk ▸ grouping_groupKind rel
      simp [Option.filter, hkind]

theorem ensureGroup_kindOf (h : Gathered space M G (fun _ => False) t) (by_ : Asserter)
    {group : String} {rel : Rel} (hgroup : space group = groupKind rel) (hid : ¬Grouping (space id))
    (kind : NodeKind) (attrs : List (String × String)) :
    (t.ensureNode by_ group kind attrs).kindOf id = t.kindOf id := by
  have hne : id ≠ group := by
    rintro rfl
    exact hid (hgroup ▸ grouping_groupKind rel)
  rw [Tables.kindOf, (t.ensureNode_cases by_ group kind h.grouped.rows.distinct attrs).2.2.1 id hne,
    Tables.kindOf]

theorem foldGrouping_kindOf (h : Gathered space M G (fun _ => False) t)
    (hidentity : by_.identity = "") (hp : p.grouping = true)
    (hgroup : ∀ rel g, p.group = some (rel, g) → space g = groupKind rel) (position : Nat)
    (hid : ¬Grouping (space id)) : (t.fold by_ position p).kindOf id = t.kindOf id := by
  rw [Tables.fold_outside hidentity]
  cases p with
  | communityAssigned c =>
    have hspace : space c.community = groupKind .inCommunity := hgroup _ _ rfl
    have hreset := h.resetGrain by_ c.fresh .inCommunity rfl c.resolution
    have hheld := hreset.ensureGroup_kindOf by_ hspace hid .community []
    rw [h.resetGrain_kindOf by_ c.fresh _ hid] at hheld
    refine Eq.trans ?_ hheld
    refine (SameKinds.alter _ c.community (f := fun n => { n with
      attrs := .ofList [("resolution", c.resolution), ("hash", c.hash), ("label", "")],
      proof := [] })
        fun _ => rfl).kinds id |>.trans ?_
    rw [Tables.kindOf, (Tables.attach_sameNodes _ _ _ _ _ _).nodes]
    rfl
  | conceptDerived c =>
    have hreset := h.resetGrain by_ c.fresh .realizes rfl c.resolution
    exact (hreset.ensureGroup_kindOf by_ (hgroup _ _ rfl) hid _ _).trans
      (h.resetGrain_kindOf by_ _ _ hid)
  | conceptRealized r =>
    have hheld := h.ensureGroup_kindOf by_ (hgroup _ _ rfl) hid .concept []
    refine Eq.trans ?_ hheld
    show ((Tables.attach _ _ _ _ _ _).nodes[id]?).map _ = _
    rw [(Tables.attach_sameNodes _ _ _ _ _ _).nodes]
    rfl
  | _ => cases hp

end Gathered

end Rigger.Graph
