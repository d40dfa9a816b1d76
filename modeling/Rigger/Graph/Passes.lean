import Rigger.Graph.Groupings

/-!
# Passes over the groupings

`NewestPass` says that the live memberships of a grain are those named since it was last superseded
whose node is held, and the groups of the grain those named since.  It holds of every file a run
commits where no group is itself a member, each group's id is of one kind no other event asserts,
and the groupings are asserted outside the generation rule (`groupings_newest`).
-/

namespace Rigger.Graph

open Lib

/-- The text of a resolution: no separator of an id stands in it. -/
def IsResolution (text : String) : Prop := ¬ '/' ∈ text.toList

instance (text : String) : Decidable (IsResolution text) := by
  unfold IsResolution
  infer_instance

/-- The event is one of a pass over the grain. -/
structure Payload.OfPass (rel : Rel) (resolution : String) (p : Payload) : Prop where
  grouping : p.grouping = true
  group : ∀ r g, p.group = some (r, g) → r = rel ∧ inGrain (grainOf rel resolution) g = true
  opens : ∀ r text, p.opens = some (r, text) → r = rel ∧ text = resolution

/-! ## Grains -/

variable {rel : Rel} {p : Payload} {text : String}

theorem resolution_unique {group r r' : String} (hr : IsResolution r) (hr' : IsResolution r')
    (h : inGrain (grainOf rel r) group = true) (h' : inGrain (grainOf rel r') group = true) :
    r = r' := by
  have htext : ∀ {r : String}, IsResolution r → inGrain (grainOf rel r) group = true →
      (group.toList.drop
      (if rel = .realizes then "concept/" else "community/").toList.length).takeWhile
        (· ≠ '/') = r.toList := by
    intro r hr hin
    obtain ⟨rest, hrest⟩ := List.isPrefixOf_iff_prefix.1 hin
    have hgroup : (if rel = .realizes then "concept/" else "community/").toList ++
        (r.toList ++ '/' :: rest) = group.toList := by
      simpa [grainOf] using hrest
    rw [← hgroup, List.drop_left, List.takeWhile_append_of_pos fun c hc => ?_]
    · simp
    · refine decide_eq_true ?_
      rintro rfl
      exact hr hc
  exact String.toList_injective ((htext hr h).symm.trans (htext hr' h'))

/-- A group of the grain is superseded by the events that open the grain. -/
theorem Payload.supersedes_iff_opens {resolution group : String}
    (hp : ∀ r text, p.opens = some (r, text) → IsResolution text) (hr : IsResolution resolution)
    (hin : inGrain (grainOf rel resolution) group = true) :
    p.Supersedes rel group ↔ p.opens = some (rel, resolution) := by
  constructor
  · rintro ⟨text, hopens, htext⟩
    rw [hopens, resolution_unique (hp _ _ hopens) hr htext hin]
  · intro hopens
    exact ⟨resolution, hopens, hin⟩

variable {e : Event}

theorem ofEvent_opens {reading : Reading} (hp : Payload.ofEvent reading e = some p)
    (hopens : p.opens = some (rel, text)) :
    (∃ c, CommunityAssigned.decode reading.f64 e.data = some c ∧ c.resolution = text) ∨
      ∃ c, ConceptDerived.decode reading.f64 e.data = some c ∧ c.resolution = text := by
  have hresult : (Payload.ofSpawnResult reading e.data).opens = none := by
    unfold Payload.ofSpawnResult
    dsimp only
    split <;> rfl
  have hfresh : ∀ {fresh : Bool} {r : Rel} {resolution : String},
      (if fresh then some (r, resolution) else none) = some (rel, text) → resolution = text := by
    intro fresh r resolution h
    split at h
    · cases h
      rfl
    · cases h
  have harm : ∀ {c : Prop} [Decidable c] {a b : Option Payload}, (if c then a else b) = some p →
      a = some p ∨ b = some p := by
    intro c _ a b h
    split at h
    · exact .inl h
    · exact .inr h
  -- the arms of the other types answer payloads that open nothing
  have hother : ∀ {α : Type} {decoded : Option α} {f : α → Payload}, (∀ a, (f a).opens = none) →
      decoded.map f ≠ some p := by
    intro α decoded f hf h
    obtain ⟨a, -, rfl⟩ := Option.map_eq_some_iff.1 h
    rw [hf a] at hopens
    cases hopens
  unfold Payload.ofEvent at hp
  iterate 8
    replace hp := (harm hp).resolve_left (hother fun _ => rfl)
  rcases harm hp with hp | hp
  · rw [← Option.some.inj hp, hresult] at hopens
    cases hopens
  iterate 2
    replace hp := (harm hp).resolve_left (hother fun _ => rfl)
  rcases harm hp with hp | hp
  · obtain ⟨c, hc, rfl⟩ := Option.map_eq_some_iff.1 hp
    exact .inl ⟨c, hc, hfresh hopens⟩
  rcases harm hp with hp | hp
  · obtain ⟨c, hc, rfl⟩ := Option.map_eq_some_iff.1 hp
    exact .inr ⟨c, hc, hfresh hopens⟩
  replace hp := (harm hp).resolve_left (hother fun _ => rfl)
  cases hp
  cases hopens

theorem ofEvent_resolution {reading : Reading}
    (hf64 : ∀ v text, reading.f64 v = some text → IsResolution text)
    (hp : Payload.ofEvent reading e = some p) (hopens : p.opens = some (rel, text)) :
    IsResolution text := by
  have hdefault : ∀ {v : Option Json} {text : String},
    Json.orDefault reading.f64 "0" v = some text →
      IsResolution text := by
    intro v text hv
    cases v with
    | none =>
      cases hv
      decide
    | some v => exact hf64 v text hv
  rcases ofEvent_opens hp hopens with ⟨c, hc, rfl⟩ | ⟨c, hc, rfl⟩
  · unfold CommunityAssigned.decode at hc
    simp only [Option.bind_eq_bind, Option.bind_eq_some_iff] at hc
    obtain ⟨value, -, slots, -, hc⟩ := hc
    split at hc
    · simp only [Option.bind_eq_some_iff] at hc
      obtain ⟨_, -, _, -, text, htext, _, -, _, -, hc⟩ := hc
      cases hc
      exact hdefault htext
    · cases hc
  · unfold ConceptDerived.decode at hc
    simp only [Option.bind_eq_bind, Option.bind_eq_some_iff] at hc
    obtain ⟨value, -, slots, -, hc⟩ := hc
    split at hc
    · simp only [Option.bind_eq_some_iff] at hc
      obtain ⟨_, -, _, -, text, htext, _, -, _, -, hc⟩ := hc
      cases hc
      exact hdefault htext
    · cases hc

/-! ## Every run -/

/-- A group's id is of its kind in `space` and asserted as a group outside the generation rule, no
other assertion names it, and none is a member. -/
structure KeepsApart (space : String → NodeKind) (t : Tables) (by_ : Asserter) (p : Payload) :
    Prop where
  outside : p.grouping = true → by_.identity = ""
  group : ∀ rel g, p.group = some (rel, g) → space g = groupKind rel
  member : ∀ node ∈ p.attached, ¬Grouping (space node)
  other : p.grouping = false →
    ∀ a ∈ (t.advanceGeneration by_).1.asserted by_ p, ¬Grouping (space a.node)

/-- What a file keeps of the events folded into it. -/
structure Passed (space : String → NodeKind) (folded : List Payload) (t : Tables) : Prop where
  gathered : Gathered space (NamedMember folded) (NamedGroup folded) (fun _ => False) t
  group : ∀ p ∈ folded, ∀ rel g, p.group = some (rel, g) → space g = groupKind rel
  opens : ∀ p ∈ folded, ∀ rel text, p.opens = some (rel, text) → IsResolution text

theorem Payload.of_ungrouped (hp : p.grouping = false) :
    p.membership = none ∧ p.group = none ∧ p.opens = none := by
  cases p <;> first | exact ⟨rfl, rfl, rfl⟩ | cases hp

namespace Passed

variable {reading : Reading} {space : String → NodeKind} {folded : List Payload} {t t' : Tables}

theorem empty : Passed space [] .empty where
  gathered := by
    have hempty : Gathered space (fun _ _ _ => False) (fun _ _ => False) (fun _ => False) .empty :=
      ⟨.empty, .empty, fun _ _ hf => hf.elim⟩
    exact hempty.congr (fun _ _ _ => iff_of_false id (not_since_nil _ _))
      fun _ _ => iff_of_false id (not_since_nil _ _)
  group := by simp
  opens := by simp

theorem frame (h : Passed space folded t) (hkept : KeepsTiers t t') (hs : SameKinds t t') :
    Passed space folded t' := ⟨h.gathered.frame hkept.edges hs, h.group, h.opens⟩

theorem refsChanged (h : Passed space folded t) (refs : List StagedRow) :
    Passed space folded { t with refs := refs } :=
  ⟨⟨h.gathered.hung.apart h.gathered.hung.ids h.gathered.hung.seq h.gathered.hung.rows rfl
      (Nat.le_refl _) rfl fun _ => rfl,
    h.gathered.grouped.frame (.of_generations (fun _ => rfl) rfl rfl), h.gathered.ruled⟩,
    h.group, h.opens⟩

theorem fold (h : Passed space folded t) {by_ : Asserter} (hby : by_.Known) {p : Payload}
    (hC : KeepsApart space t by_ p)
    (hopens : ∀ rel text, p.opens = some (rel, text) → IsResolution text) (position : Nat) :
    Passed space (folded ++ [p]) (t.fold by_ position p) := by
  refine ⟨?_, fun q hq => ?_, fun q hq => ?_⟩
  · cases hp : p.grouping with
    | true => exact h.gathered.foldGrouping hby (hC.outside hp) hp hC.group hC.member position
    | false =>
      obtain ⟨hmember, hgroup, hnone⟩ := Payload.of_ungrouped hp
      have hsupersedes : ∀ rel group, ¬p.Supersedes rel group := by
        rintro rel group ⟨_, hof, -⟩
        rw [hnone] at hof
        cases hof
      refine (h.gathered.foldUngrouped hby hp (hC.other hp) position).congr
        (fun rel node group => ?_)
        fun rel group => ?_
      · refine (since_append fun q hq => ?_).symm
        rw [List.mem_singleton.1 hq, hmember]
        exact ⟨nofun, hsupersedes rel group⟩
      · refine (since_append fun q hq => ?_).symm
        rw [List.mem_singleton.1 hq, hgroup]
        exact ⟨nofun, hsupersedes rel group⟩
  · rcases List.mem_append.1 hq with hq | hq
    · exact h.group q hq
    · rw [List.mem_singleton.1 hq]
      exact hC.group
  · rcases List.mem_append.1 hq with hq | hq
    · exact h.opens q hq
    · rw [List.mem_singleton.1 hq]
      exact hopens

theorem kept (hf64 : ∀ v text, reading.f64 v = some text → IsResolution text) :
    Kept reading (KeepsApart space) (Passed space) where
  fold := fun position hby hp hC h => h.fold hby hC (fun _ _ => ofEvent_resolution hf64 hp) position
  relabel := fun h => h.frame (Tables.relabelOwedCommunities_keepsTiers _)
    (Tables.relabelOwedCommunities_sameKinds _)
  settle := fun h => h.frame (Tables.settleProofs_keepsTiers _) (Tables.settleProofs_sameKinds _)
  drop := fun _ h => h.refsChanged _
  stage := by
    intro folded t by_ position r h
    unfold Tables.stageReference
    split
    · exact h
    · dsimp only
      split
      · exact h
      · exact h.refsChanged _
  references := by
    intro folded t by_ _ _ h
    exact ⟨⟨h.gathered.hung.settleReferences by_,
      h.gathered.grouped.frame (t.settleReferences_sameNodes by_).sameKinds,
      fun _ _ hf => hf.elim⟩, h.group, h.opens⟩

theorem keptNodes (hf64 : ∀ v text, reading.f64 v = some text → IsResolution text)
    (before : List Payload) (t₀ : Tables) :
    Kept reading (KeepsApart space) fun folded t => Passed space (before ++ folded) t ∧
      ((∀ p ∈ folded, p.grouping = true) →
        ∀ id, ¬Grouping (space id) → t.kindOf id = t₀.kindOf id) where
  fold := by
    intro folded t by_ e p position hby hp hC h
    refine ⟨?_, fun hall id hid => ?_⟩
    · rw [← List.append_assoc]
      exact (kept hf64).fold position hby hp hC h.1
    · have hgrouping := hall p (by simp)
      exact (h.1.gathered.foldGrouping_kindOf
        (hC.outside hgrouping) hgrouping hC.group position hid).trans
        (h.2 (fun q hq => hall q (List.mem_append_left _ hq)) id hid)
  relabel := fun {_ t} h => ⟨(kept hf64).relabel h.1, fun hall id hid =>
    (t.relabelOwedCommunities_sameKinds.kinds id).trans (h.2 hall id hid)⟩
  settle := fun {_ t} h => ⟨(kept hf64).settle h.1, fun hall id hid =>
    (t.settleProofs_sameKinds.kinds id).trans (h.2 hall id hid)⟩
  drop := fun identity h => ⟨(kept hf64).drop identity h.1, h.2⟩
  stage := fun {_ t} by_ position r h => ⟨(kept hf64).stage by_ position r h.1, fun hall id hid =>
    ((t.stageReference_sameNodes by_ position r).sameKinds.kinds id).trans (h.2 hall id hid)⟩
  references := fun {_ t by_} hid hcurrent h => ⟨(kept hf64).references hid hcurrent h.1,
    fun hall id hother =>
      ((t.settleReferences_sameNodes by_).sameKinds.kinds id).trans (h.2 hall id hother)⟩

end Passed

/-- The live memberships and the groups of each grain are those of its newest pass. -/
structure NewestPass (folded : List Payload) (t : Tables) : Prop where
  members : ∀ rel resolution, attaching rel = true → IsResolution resolution →
    ∀ node group, inGrain (grainOf rel resolution) group = true →
      (t.LiveMember rel node group ↔
        Since (·.membership = some (rel, node, group)) (·.opens = some (rel, resolution)) folded ∧
          t.nodes.contains node = true)
  unique : (t.edges.filter Edge.isLive).Pairwise fun a b => attaching a.rel = true →
    ¬(a.from_ = b.from_ ∧ a.to_ = b.to_ ∧ a.rel = b.rel)
  groups : ∀ rel resolution, attaching rel = true → IsResolution resolution →
    ∀ group, inGrain (grainOf rel resolution) group = true →
      (t.kindOf group = some (groupKind rel) ↔
        Since (·.group = some (rel, group)) (·.opens = some (rel, resolution)) folded)

/-- The live memberships of every other grain and relation stay. -/
def KeepsOthers (rel : Rel) (resolution : String) (t t' : Tables) : Prop :=
  ∀ r text, attaching r = true → IsResolution text → ¬(r = rel ∧ text = resolution) →
    ∀ node group, inGrain (grainOf r text) group = true →
      (t'.LiveMember r node group ↔ t.LiveMember r node group)

namespace Passed

variable {reading : Reading} {space : String → NodeKind} {folded : List Payload} {t : Tables}

theorem newest (h : Passed space folded t) : NewestPass folded t where
  members := by
    intro rel resolution hrel hr node group hin
    rw [h.gathered.hung.live_iff hrel node group]
    exact and_congr_left fun _ =>
      since_congr fun p hp => Payload.supersedes_iff_opens (h.opens p hp) hr hin
  unique := by
    refine (h.gathered.hung.ids.filter _).imp_of_mem fun {a b} ha hb hlt hrel hkey => ?_
    obtain ⟨ha, hla⟩ := List.mem_filter.1 ha
    obtain ⟨hb, hlb⟩ := List.mem_filter.1 hb
    exact Nat.ne_of_lt hlt (h.gathered.hung.unique ha hb hla hlb hrel hkey.1 hkey.2.1 hkey.2.2)
  groups := by
    intro rel resolution hrel hr group hin
    have hnamed : NamedGroup folded rel group ↔
        Since (·.group = some (rel, group)) (·.opens = some (rel, resolution)) folded :=
      since_congr fun p hp => Payload.supersedes_iff_opens (h.opens p hp) hr hin
    rw [← hnamed]
    constructor
    · intro hkind
      have hspace := h.gathered.grouped.space_of_kind hkind (grouping_groupKind rel)
      exact (h.gathered.grouped.kindOf_iff hrel hspace).1 hkind
    · intro hsince
      obtain ⟨p, hp, hgroup⟩ := hsince.exists
      exact (h.gathered.grouped.kindOf_iff hrel (h.group p hp rel group hgroup)).2 hsince

/-- A transaction of one grain's pass leaves every other grain's memberships. -/
theorem keepsOthers (hf64 : ∀ v text, reading.f64 v = some text → IsResolution text) {f : Folded}
    (h : Passed space folded f.tables) {calls : List FoldCall}
    (hC : TransactionMeets reading (KeepsApart space) f calls) {rel : Rel} {resolution : String}
    (hr : IsResolution resolution)
    (hpass : ∀ p ∈ foldedTransaction reading f calls, p.OfPass rel resolution) :
    KeepsOthers rel resolution f.tables (transact reading f calls).tables := by
  have hstart : Passed space (folded ++ []) f.tables ∧
    ((∀ p ∈ ([] : List Payload), p.grouping = true) →
      ∀ id, ¬Grouping (space id) → f.tables.kindOf id = f.tables.kindOf id) := by
    rw [List.append_nil]
    exact ⟨h, fun _ _ _ => rfl⟩
  obtain ⟨hpassed, hnodes⟩ := (keptNodes hf64 folded f.tables).transact hC hstart
  rw [List.nil_append] at hpassed hnodes
  intro r text hattaching htext hother node group hin
  -- a group of the pass is of its grain alone
  have hapart : ¬(r = rel ∧ inGrain (grainOf rel resolution) group = true) := by
    rintro ⟨rfl, hgrain⟩
    exact hother ⟨rfl, resolution_unique htext hr hin hgrain⟩
  have hnamed : NamedMember (folded ++ foldedTransaction reading f calls) r node group ↔
      NamedMember folded r node group := by
    refine since_append fun p hp => ⟨fun hmember => ?_, ?_⟩
    · have hgroup : p.group = some (r, group) := by
        cases p <;> cases hmember <;> rfl
      exact hapart ((hpass p hp).group r group hgroup)
    · rintro ⟨_, hopens, hgrain⟩
      obtain ⟨rfl, rfl⟩ := (hpass p hp).opens _ _ hopens
      exact hapart ⟨rfl, hgrain⟩
  rw [hpassed.gathered.hung.live_iff hattaching, h.gathered.hung.live_iff hattaching, hnamed]
  refine and_congr_right fun hM => ?_
  rw [Tables.contains_of_kindOf (hnodes (fun p hp => (hpass p hp).grouping) node
    (h.gathered.hung.node_of_member hattaching hM))]

end Passed

/-- However a log is cut into transactions, the live memberships and the groups of each grain are
those of its newest pass, and a pass changes the memberships of no other grain. -/
theorem groupings_newest {reading : Reading} {space : String → NodeKind}
    {transactions : List (List FoldCall)}
    (hf64 : ∀ v text, reading.f64 v = some text → IsResolution text)
    (hC : Along (transact reading) (TransactionMeets reading (KeepsApart space)) .empty
    transactions) :
    NewestPass (history reading transactions) (run (transact reading) .empty transactions).tables ∧
      ∀ calls rel resolution,
        TransactionMeets reading (KeepsApart space)
        (run (transact reading) .empty transactions) calls →
        IsResolution resolution →
        (∀ p ∈ foldedTransaction reading (run (transact reading) .empty transactions) calls,
          p.OfPass rel resolution) →
        KeepsOthers rel resolution (run (transact reading) .empty transactions).tables
          (transact reading (run (transact reading) .empty transactions) calls).tables := by
  have hpassed : Passed space (history reading transactions) _ := (Passed.kept hf64).run .empty hC
  exact ⟨hpassed.newest, fun calls rel resolution hmeets hr hpass =>
    hpassed.keepsOthers hf64 hmeets hr hpass⟩

def unitReading : Reading :=
  ⟨fun v => if v = .num 1 then some "1" else none, fun _ => none, fun _ _ => ""⟩

def assignedEvent (position : Nat) (node community : String) : Event :=
  indexEvent position typeCommunityAssigned none
    [("node", .str node), ("community", .str community),
    ("resolution", .num 1), ("hash", .str "h"), ("fresh", .bool true)]

def derivedEvent (position : Nat) (concept : String) : Event :=
  indexEvent position typeConceptDerived none [("concept", .str concept), ("label", .str "auth"),
    ("resolution", .num 1), ("hash", .str "h"), ("fresh", .bool true)]

def realizedEvent (position : Nat) (node concept : String) : Event :=
  indexEvent position typeConceptRealized none [("node", .str node), ("concept", .str concept),
    ("resolution", .num 1), ("hash", .str "h")]

theorem unitReading_f64 {v : Json} (h : unitReading.f64 v = some text) : IsResolution text := by
  have htext : (if v = .num 1 then some "1" else none) = some text := h
  split at htext
  · cases htext
    decide
  · cases htext

def assignedSpace (id : String) : NodeKind :=
  if id = "community/1/0" ∨ id = "community/1/1" then .community
  else if id = "concept/1/0" then .concept else .codeEntity

/-- An event of a grouping keeps the groups apart by what it groups and what it attaches. -/
theorem KeepsApart.of_grouping {space : String → NodeKind} {t : Tables} {by_ : Asserter}
    (hp : p.grouping = true) (hby : by_.identity = "")
    (hgroup : ∀ rel g, p.group = some (rel, g) → space g = groupKind rel)
    (hmember : ∀ node ∈ p.attached, ¬Grouping (space node)) : KeepsApart space t by_ p :=
  ⟨fun _ => hby, hgroup, hmember, fun hnot => absurd (hp.symm.trans hnot) (by decide)⟩

theorem meets_events {space : String → NodeKind} (hread : Payload.ofEvent unitReading e = some p)
    (h : ∀ t by_, by_.identity = "" → KeepsApart space t by_ p)
    (hby : (Asserter.of e).identity = "") (f : Folded) :
    TransactionMeets unitReading (KeepsApart space) f [.events [e]] := by
  refine ⟨⟨fun _ q hq => ?_, fun _ _ => True.intro⟩, fun _ _ => True.intro⟩
  rw [hread, Option.some.injEq] at hq
  exact hq ▸ h _ _ hby

def mentionedEvent : Event :=
  indexEvent 1 typeAliasUnresolved none [("mention", .str "a.rs")]

/-- A file, its community pass and the re-run. -/
def reassigned : List (List FoldCall) :=
  [[.events [mentionedEvent]], [.events [assignedEvent 2 "a.rs" "community/1/0"]],
    [.events [assignedEvent 3 "a.rs" "community/1/1"]]]

/-- The file's community after the re-run and, after it, the file's concept. -/
theorem groupings_newest_assigned :
    NewestPass (history unitReading reassigned)
    (run (transact unitReading) .empty reassigned).tables ∧
      (run (transact unitReading) .empty reassigned).tables.LiveMember .inCommunity "a.rs"
        "community/1/1" ∧
      KeepsOthers .realizes "1" (run (transact unitReading) .empty reassigned).tables
        (transact unitReading (run (transact unitReading) .empty reassigned)
          [.events [realizedEvent 4 "a.rs" "concept/1/0"]]).tables := by
  have hmentioned :
      Payload.ofEvent unitReading mentionedEvent = some (.aliasUnresolved "a.rs") := by
    decide +kernel
  have hfirst : Payload.ofEvent unitReading (assignedEvent 2 "a.rs" "community/1/0") =
      some (.communityAssigned ⟨"a.rs", "community/1/0", "1", "h", true⟩) := by decide +kernel
  have hagain : Payload.ofEvent unitReading (assignedEvent 3 "a.rs" "community/1/1") =
      some (.communityAssigned ⟨"a.rs", "community/1/1", "1", "h", true⟩) := by decide +kernel
  have hrealized : Payload.ofEvent unitReading (realizedEvent 4 "a.rs" "concept/1/0") =
      some (.conceptRealized ⟨"a.rs", "concept/1/0"⟩) := by decide +kernel
  have hfolded : foldedTransaction unitReading (run (transact unitReading) .empty reassigned)
      [.events [realizedEvent 4 "a.rs" "concept/1/0"]] =
        [.conceptRealized ⟨"a.rs", "concept/1/0"⟩] := by decide +kernel
  have hassigned : ∀ community, community = "community/1/0" ∨ community = "community/1/1" →
      ∀ t by_, by_.identity = "" → KeepsApart assignedSpace t by_
        (.communityAssigned ⟨"a.rs", community, "1", "h", true⟩) := by
    intro community hcommunity t by_ hby
    refine .of_grouping rfl hby (fun rel g hg => ?_) ?_
    · cases hg
      rcases hcommunity with rfl | rfl <;> decide
    · simp [Payload.attached, assignedSpace, Grouping]
  have hapart : ∀ t by_, KeepsApart assignedSpace t by_ (.aliasUnresolved "a.rs") := by
    intro t by_
    refine ⟨fun h => ?_, fun rel g h => ?_, fun node h => ?_, fun _ a ha => ?_⟩
    · cases h
    · cases h
    · cases h
    · rw [List.mem_singleton.1 ha]
      simp [assignedSpace, Grouping, Asserter.assert]
  have hC : Along (transact unitReading) (TransactionMeets unitReading (KeepsApart assignedSpace))
      .empty reassigned :=
    ⟨meets_events hmentioned (fun _ _ _ => hapart _ _) rfl _,
      meets_events hfirst (hassigned _ (.inl rfl)) rfl _,
      meets_events hagain (hassigned _ (.inr rfl)) rfl _, True.intro⟩
  have hmeets : TransactionMeets unitReading (KeepsApart assignedSpace)
      (run (transact unitReading) .empty reassigned)
      [.events [realizedEvent 4 "a.rs" "concept/1/0"]] := by
    refine meets_events hrealized
      (fun t by_ hby => .of_grouping rfl hby (fun rel g hg => ?_) ?_) rfl _
    · cases hg
      decide
    · simp [Payload.attached, assignedSpace, Grouping]
  obtain ⟨hnewest, hothers⟩ := groupings_newest (fun _ _ => unitReading_f64) hC
  refine ⟨hnewest, ?_, hothers _ .realizes "1" hmeets (by decide) ?_⟩
  · have hedge : ⟨2, "a.rs", "community/1/1", .inCommunity, 3, none, 3, .inferred⟩ ∈
        (run (transact unitReading) .empty reassigned).tables.edges := by decide +kernel
    exact ⟨_, hedge, rfl, rfl, rfl, rfl⟩
  · rw [hfolded]
    simp only [List.mem_singleton, forall_eq]
    refine ⟨rfl, fun r g hg => ?_, fun r text hopens => ?_⟩
    · cases hg
      exact ⟨rfl, by decide⟩
    · cases hopens

/-! A community may itself realize a concept; a re-run that drops it leaves it a member. -/

/-- A community pass, a concept pass over the community, and the community pass again. -/
def regrouped : List (List FoldCall) :=
  [[.events [assignedEvent 1 "a.rs" "community/1/0"]],
    [.events [derivedEvent 2 "concept/1/0", realizedEvent 3 "community/1/0" "concept/1/0"]],
    [.events [assignedEvent 4 "a.rs" "community/1/1"]]]

theorem history_regrouped : history unitReading regrouped =
    [.communityAssigned ⟨"a.rs", "community/1/0", "1", "h", true⟩,
      .conceptDerived ⟨"concept/1/0", "auth", "1", "h", true⟩,
      .conceptRealized ⟨"community/1/0", "concept/1/0"⟩,
      .communityAssigned ⟨"a.rs", "community/1/1", "1", "h", true⟩] := by
  decide +kernel

/-- Each event is of a pass of its grain, opened fresh, and the dropped community is a live member
of the concept. -/
theorem regrouped_not_newest :
    (∀ v text, unitReading.f64 v = some text → IsResolution text) ∧
      (∀ p ∈ history unitReading regrouped, ∃ rel, p.OfPass rel "1") ∧
      (history unitReading regrouped).map Payload.opens =
        [some (.inCommunity, "1"), some (.realizes, "1"), none, some (.inCommunity, "1")] ∧
      ¬NewestPass (history unitReading regrouped)
        (run (transact unitReading) .empty regrouped).tables := by
  refine ⟨fun _ _ => unitReading_f64, ?_, by rw [history_regrouped]; rfl, fun h => ?_⟩
  · rw [history_regrouped]
    simp only [List.mem_cons, List.not_mem_nil, or_false, forall_eq_or_imp, forall_eq]
    refine ⟨⟨.inCommunity, rfl, ?_, ?_⟩, ⟨.realizes, rfl, ?_, ?_⟩, ⟨.realizes, rfl, ?_, ?_⟩,
      .inCommunity, rfl, ?_, ?_⟩
    all_goals
      rintro r text hof
      cases hof <;> exact ⟨rfl, by decide⟩
  · have hrun : ⟨2, "community/1/0", "concept/1/0", .realizes, 3, none, 3, .inferred⟩ ∈
          (run (transact unitReading) .empty regrouped).tables.edges ∧
        (run (transact unitReading) .empty regrouped).tables.nodes.contains
            "community/1/0" = false := by
      decide +kernel
    have hlive :=
      (h.members .realizes "1" rfl (by decide) "community/1/0" "concept/1/0" (by decide)).1
      ⟨_, hrun.1, rfl, rfl, rfl, rfl⟩
    rw [hrun.2] at hlive
    exact Bool.false_ne_true hlive.2

end Rigger.Graph
