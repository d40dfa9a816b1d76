import Rigger.Graph.Frame

/-!
# What asserting and settling a node leave

`settleNode` and `ensureNode` read back row by row: the node's own row, every other node's, the
assertions and the generations.  The invariants of the nodes are proved from these and unfold
neither.
-/

namespace Rigger.Graph

open Lib

/-! ## Attrs -/

variable {key : String} {settled : NodeKind}

theorem contains_eq_false_iff {attrs : Attrs} :
    attrs.contains key = false ↔ attrs[key]? = none := by
  rw [Std.ExtTreeMap.contains_eq_isSome_getElem?, Option.isSome_eq_false_iff,
    Option.isNone_iff_eq_none]

theorem patch_contains (attrs incoming : Attrs) (key : String) :
    (patch attrs incoming).contains key = (attrs.contains key || incoming.contains key) :=
  Std.ExtTreeMap.contains_union

theorem patch_getElem? (attrs incoming : Attrs) (key : String) :
    (patch attrs incoming)[key]? = incoming[key]?.or attrs[key]? := Std.ExtTreeMap.getElem?_union

theorem retract_getElem? (attrs retracted : Attrs) (held : List Attrs) (key : String) :
    (retract attrs retracted held)[key]? =
      if retracted.contains key && !held.any (·.contains key) then none else attrs[key]? := by
  unfold retract
  rw [Std.ExtTreeMap.getElem?_filter']
  cases attrs[key]? with
  | none => simp
  | some value => cases retracted.contains key && !held.any (·.contains key) <;> simp

theorem retract_contains (attrs retracted : Attrs) (held : List Attrs) (key : String) :
    (retract attrs retracted held).contains key =
      (attrs.contains key && !(retracted.contains key && !held.any (·.contains key))) := by
  rw [Std.ExtTreeMap.contains_eq_isSome_getElem?, retract_getElem?,
    Std.ExtTreeMap.contains_eq_isSome_getElem? (t := attrs)]
  generalize (retracted.contains key && !held.any (·.contains key)) = dropped
  cases dropped <;> simp

/-- A key the attrs asserted do not carry is theirs no more than it was the node's. -/
theorem ofList_getElem?_of_ne {attrs : List (String × String)} (h : ∀ a ∈ attrs, a.1 ≠ key) :
    (Std.ExtTreeMap.ofList attrs : Attrs)[key]? = none := by
  refine Std.ExtTreeMap.getElem?_ofList_of_contains_eq_false ?_
  rw [← Bool.not_eq_true, List.contains_iff_mem, List.mem_map]
  rintro ⟨a, ha, rfl⟩
  exact h a ha rfl

/-! ## Kinds -/

theorem settledKind_append (kinds : List NodeKind) (kind : NodeKind) :
    settledKind (kinds ++ [kind]) =
      some (((settledKind kinds).map (promote · kind)).getD kind) := by
  unfold settledKind
  rw [List.foldl_append]
  cases kinds.foldl _ none <;> rfl

variable {kinds : List NodeKind} {r : NodeAssertion} {identity node : String}

theorem settledKind_eq_none_iff : settledKind kinds = none ↔ kinds = [] := by
  induction kinds using List.reverseRecOn with
  | nil => simp [settledKind]
  | append_singleton kinds kind => simp [settledKind_append]

theorem promote_eq_or (settled kind : NodeKind) :
    promote settled kind = settled ∨ promote settled kind = kind := by
  unfold promote
  split
  · exact .inr rfl
  · exact .inl rfl

theorem settledKind_mem {kind : NodeKind} (h : settledKind kinds = some kind) : kind ∈ kinds := by
  induction kinds using List.reverseRecOn generalizing kind with
  | nil => simp [settledKind] at h
  | append_singleton kinds last ih =>
    rw [settledKind_append, Option.some.injEq] at h
    cases hsettled : settledKind kinds with
    | none => simp_all
    | some settled =>
      have hmem := ih hsettled
      rw [hsettled] at h
      rcases promote_eq_or settled last with hp | hp <;> simp_all

theorem promote_of_ne (h : settled ≠ .artifact) (kind : NodeKind) :
    promote settled kind = settled := if_neg fun hp => h hp.1

theorem promote_of_not_promoting {kind : NodeKind} (h : kind ∉ promotingKinds)
    (settled : NodeKind) : promote settled kind = settled := if_neg fun hp => h hp.2

theorem artifact_not_promoting : NodeKind.artifact ∉ promotingKinds := by decide

/-- Kinds that name one specific kind settle on it where it promotes, and on the first otherwise. -/
theorem settledKind_of_subset {first kind : NodeKind} {rest : List NodeKind}
    (h : ∀ k ∈ first :: rest, k = .artifact ∨ k = kind) : settledKind (first :: rest) =
      some (if kind ∈ promotingKinds ∧ kind ∈ first :: rest then kind else first) := by
  induction rest using List.reverseRecOn with
  | nil =>
    by_cases hk : kind = first
    · subst hk
      simp [settledKind]
    · simp [settledKind, hk]
  | append_singleton rest last ih =>
    have hinit := ih fun k hk => h k (by
      rw [← List.cons_append]
      exact List.mem_append_left _ hk)
    have hlast := h last (by simp)
    rw [← List.cons_append, settledKind_append, hinit, Option.map_some, Option.getD_some]
    congr 1
    by_cases hp : kind ∈ promotingKinds
    · have hne : kind ≠ .artifact := fun he => artifact_not_promoting (he ▸ hp)
      by_cases hmem : kind ∈ first :: rest
      · rw [if_pos ⟨hp, hmem⟩, if_pos ⟨hp, List.mem_append_left _ hmem⟩, promote_of_ne hne]
      · have hfirst : first = .artifact :=
          (h first (by simp)).resolve_right fun he => hmem (by simp [he])
        rw [if_neg fun hm => hmem hm.2]
        rcases hlast with rfl | rfl
        · rw [promote_of_not_promoting artifact_not_promoting, if_neg fun hm => ?_]
          rcases List.mem_append.1 hm.2 with hm | hm
          · exact hmem hm
          · exact hne (List.mem_singleton.1 hm)
        · rw [if_pos ⟨hp, by simp⟩, hfirst]
          exact if_pos ⟨rfl, hp⟩
    · have hlast' : last ∉ promotingKinds := by
        rcases hlast with rfl | rfl
        · exact artifact_not_promoting
        · exact hp
      rw [if_neg fun hm => hp hm.1, if_neg fun hm => hp hm.1, promote_of_not_promoting hlast']

/-- A list of kinds that settles on none that promotes settles on its first. -/
theorem settledKind_eq_head? {kind : NodeKind} (hp : kind ∉ promotingKinds)
    (h : ∀ k ∈ kinds, k = .artifact ∨ k = kind) : settledKind kinds = kinds.head? := by
  cases kinds with
  | nil => rfl
  | cons first rest => rw [settledKind_of_subset h, if_neg fun hk => hp hk.1, List.head?_cons]

/-- A list of kinds that names one that promotes settles on it. -/
theorem settledKind_eq_promoting {kind : NodeKind} (hp : kind ∈ promotingKinds)
    (h : ∀ k ∈ kinds, k = .artifact ∨ k = kind) (hmem : kind ∈ kinds) :
    settledKind kinds = some kind := by
  cases kinds with
  | nil => cases hmem
  | cons first rest => rw [settledKind_of_subset h, if_pos ⟨hp, hmem⟩]

/-- One kind of such a list promoted: the list settles as if promoted last. -/
theorem settledKind_middle {before after : List NodeKind} {asserted kind : NodeKind}
    (h : ∀ k ∈ before ++ settled :: after, k = .artifact ∨ k = kind)
    (hasserted : asserted = .artifact ∨ asserted = kind) :
    settledKind (before ++ promote settled asserted :: after) =
      (settledKind (before ++ settled :: after)).map (promote · asserted) := by
  by_cases hp : asserted ∈ promotingKinds
  · have hkind : asserted = kind :=
      hasserted.resolve_left fun he => artifact_not_promoting (he ▸ hp)
    subst hkind
    have hne : asserted ≠ .artifact := fun he => artifact_not_promoting (he ▸ hp)
    -- the list promoted names the kind, so it settles on it
    have hnamed : ∀ {k}, k = .artifact ∨ k = asserted → promote k asserted = asserted := by
      rintro k (rfl | rfl)
      · exact if_pos ⟨rfl, hp⟩
      · exact promote_of_ne hne _
    have hafter : settledKind (before ++ promote settled asserted :: after) = some asserted := by
      rw [hnamed (h settled (by simp))]
      cases before with
      | nil =>
        rw [List.nil_append, settledKind_eq_promoting hp _ (by simp)]
        intro k hk
        rcases List.mem_cons.1 hk with rfl | hk
        · exact .inr rfl
        · exact h k (List.mem_cons_of_mem _ hk)
      | cons first before =>
        rw [List.cons_append, settledKind_eq_promoting hp _ (by simp)]
        intro k hk
        rw [← List.cons_append] at hk
        rcases List.mem_append.1 hk with hk | hk
        · exact h k (List.mem_append_left _ hk)
        · rcases List.mem_cons.1 hk with rfl | hk
          · exact .inr rfl
          · exact h k (List.mem_append_right _ (List.mem_cons_of_mem _ hk))
    rw [hafter]
    cases hsettled : settledKind (before ++ settled :: after) with
    | none => simp [settledKind_eq_none_iff] at hsettled
    | some k => rw [Option.map_some, hnamed (h k (settledKind_mem hsettled))]
  · rw [promote_of_not_promoting hp]
    simp [promote_of_not_promoting hp]

/-! ## Settling -/

namespace Tables

variable (t : Tables) (by_ : Asserter) (id : String) (retracted : Attrs) (at_ : Int)

def kindOf (t : Tables) (id : String) : Option NodeKind := t.nodes[id]?.map Node.kind

variable {r : NodeAssertion} {other : String}

theorem holds_iff : t.holds r = true ↔
    r.identity = "" ∨ t.currentGeneration r.identity = some r.generation := by
  simp [holds]

theorem mem_liveAssertions {id : String} : r ∈ t.liveAssertions id ↔
    r ∈ t.nodeAssertions ∧ r.node = id ∧ t.holds r = true := by
  simp [liveAssertions]

theorem undoWhatResolvedAgainst_nodes (defined : Option String) :
    (t.undoWhatResolvedAgainst id defined).nodes = t.nodes := by
  unfold undoWhatResolvedAgainst
  split
  · split <;> rfl
  · rfl

theorem undoWhatResolvedAgainst_rows (defined : Option String) :
    (t.undoWhatResolvedAgainst id defined).nodeAssertions = t.nodeAssertions ∧
      (t.undoWhatResolvedAgainst id defined).generations = t.generations := by
  unfold undoWhatResolvedAgainst
  split
  · split <;> exact ⟨rfl, rfl⟩
  · exact ⟨rfl, rfl⟩

theorem settleRow_rows : (t.settleRow id retracted at_).nodeAssertions = t.nodeAssertions ∧
    (t.settleRow id retracted at_).generations = t.generations := by
  unfold settleRow
  dsimp only
  split <;> exact ⟨rfl, rfl⟩

@[simp] theorem settleNode_nodeAssertions :
    (t.settleNode id retracted at_).nodeAssertions = t.nodeAssertions :=
  (undoWhatResolvedAgainst_rows _ _ _).1.trans (settleRow_rows _ _ _ _).1

@[simp] theorem settleNode_generations :
    (t.settleNode id retracted at_).generations = t.generations :=
  (undoWhatResolvedAgainst_rows _ _ _).2.trans (settleRow_rows _ _ _ _).2

theorem settleNode_holds : (t.settleNode id retracted at_).holds = t.holds := by
  funext r
  simp only [holds, currentGeneration, settleNode_generations]

theorem settleNode_liveAssertions (other : String) :
    (t.settleNode id retracted at_).liveAssertions other = t.liveAssertions other := by
  unfold liveAssertions
  rw [settleNode_nodeAssertions, settleNode_holds]

theorem definitionName_congr {t t' : Tables} (h : t'.nodes = t.nodes) (other : String) :
    t'.definitionName other = t.definitionName other := by
  unfold definitionName
  rw [h]

theorem undoWhatResolvedAgainst_proofs (defined : Option String) :
    (t.undoWhatResolvedAgainst id defined).proofs = t.proofs := by
  unfold undoWhatResolvedAgainst
  split
  · split <;> rfl
  · rfl

theorem mem_undoWhatResolvedAgainst_owed (defined : Option String) (name : String) :
    name ∈ (t.undoWhatResolvedAgainst id defined).proofsOwed ↔
      name ∈ t.proofsOwed ∨ defined = some name ∧ t.definitionName id ≠ some name := by
  unfold undoWhatResolvedAgainst
  cases defined with
  | none => simp
  | some old =>
    dsimp only
    split
    case isTrue hsame => simp [hsame]
    case isFalse hchanged =>
      show name ∈ t.proofsOwed.insert old ↔ _
      rw [Std.ExtTreeSet.mem_insert, Std.LawfulEqCmp.compare_eq_iff_eq, Option.some.injEq, or_comm]
      refine or_congr_right ⟨fun he => ⟨he, he ▸ hchanged⟩, fun he => he.1⟩

theorem settleRow_proofs : SameProofs t (t.settleRow id retracted at_) := by
  unfold settleRow
  dsimp only
  split <;> exact ⟨rfl, rfl⟩

theorem settleNode_proofs : (t.settleNode id retracted at_).proofs = t.proofs :=
  (undoWhatResolvedAgainst_proofs _ _ _).trans (settleRow_proofs _ _ _ _).proofs

theorem mem_settleNode_owed (name : String) : name ∈ (t.settleNode id retracted at_).proofsOwed ↔
    name ∈ t.proofsOwed ∨ t.definitionName id = some name ∧
      (t.settleNode id retracted at_).definitionName id ≠ some name := by
  have hnodes :=
    (t.oweRelabelOf id false |>.settleRow id retracted at_).undoWhatResolvedAgainst_nodes
    id (t.definitionName id)
  have hname := definitionName_congr hnodes id
  unfold settleNode
  rw [mem_undoWhatResolvedAgainst_owed, (settleRow_proofs _ _ _ _).proofsOwed]
  dsimp only
  rw [hname]
  rfl

/-- Settle nodes one after another. -/
def settleNodes (rows : List NodeAssertion) : Tables :=
  rows.foldl (fun t r => t.settleNode r.node r.attrs at_) t

theorem settleNodes_rows (rows : List NodeAssertion) :
    (t.settleNodes at_ rows).nodeAssertions = t.nodeAssertions ∧
      (t.settleNodes at_ rows).generations = t.generations := by
  unfold settleNodes
  induction rows generalizing t with
  | nil => exact ⟨rfl, rfl⟩
  | cons r rows ih =>
    have := ih (t.settleNode r.node r.attrs at_)
    simpa using this

/-- The rows of the generation superseded, in node order. -/
def superseded (prior : String) : List NodeAssertion :=
  (t.nodeAssertions.filter fun r =>
    r.identity == by_.identity && r.generation == prior).insertionSort fun a b => a.node ≤ b.node

theorem retireUnheldNodes_eq (prior : String) :
    t.retireUnheldNodes by_ prior = t.settleNodes by_.at_ (t.superseded by_ prior) := rfl

theorem mem_superseded {prior : String} : r ∈ t.superseded by_ prior ↔
    r ∈ t.nodeAssertions ∧ r.identity = by_.identity ∧ r.generation = prior := by
  simp [superseded, List.mem_insertionSort]

/-- The row settling leaves of the node: none where no live assertion holds it. -/
def settledNode : Option Node :=
  match settledKind ((t.liveAssertions id).map NodeAssertion.kind) with
  | some kind => t.nodes[id]?.map fun n =>
    { n with
      kind := kind
      attrs := retract n.attrs retracted ((t.liveAssertions id).map NodeAssertion.attrs) }
  | none => none

theorem settleNode_self :
    (t.settleNode id retracted at_).nodes[id]? = t.settledNode id retracted := by
  have hnodes : (t.settleNode id retracted at_).nodes =
      ((t.oweRelabelOf id false).settleRow id retracted at_).nodes :=
    undoWhatResolvedAgainst_nodes _ _ _
  rw [hnodes]
  unfold settleRow settledNode
  show _ = match settledKind ((t.liveAssertions id).map NodeAssertion.kind) with
    | some _ => _
    | none => none
  have hlive : (t.oweRelabelOf id false).liveAssertions id = t.liveAssertions id := rfl
  simp only [hlive]
  cases settledKind ((t.liveAssertions id).map NodeAssertion.kind) with
  | some kind =>
    show (t.nodes.alter id _)[id]? = _
    rw [Std.ExtTreeMap.getElem?_alter_self]
  | none =>
    show (t.nodes.erase id)[id]? = _
    rw [Std.ExtTreeMap.getElem?_erase_self]

theorem settleNode_ne (h : other ≠ id) :
    (t.settleNode id retracted at_).nodes[other]? = t.nodes[other]? := by
  have hnodes : (t.settleNode id retracted at_).nodes =
      ((t.oweRelabelOf id false).settleRow id retracted at_).nodes :=
    undoWhatResolvedAgainst_nodes _ _ _
  have hne : ¬compare id other = .eq := fun he => h (Std.LawfulEqCmp.eq_of_compare he).symm
  rw [hnodes]
  unfold settleRow
  dsimp only
  split
  · show (t.nodes.alter id _)[other]? = _
    rw [Std.ExtTreeMap.getElem?_alter, if_neg hne]
  · show (t.nodes.erase id)[other]? = _
    rw [Std.ExtTreeMap.getElem?_erase, if_neg hne]

theorem undoWhatResolvedAgainst_retired_ne (defined : Option String) (h : other ≠ id) :
    (t.undoWhatResolvedAgainst id defined).retired[other]? = t.retired[other]? := by
  have hne : ¬compare id other = .eq := fun he => h (Std.LawfulEqCmp.eq_of_compare he).symm
  unfold undoWhatResolvedAgainst
  split
  · split
    · rfl
    · show (t.retired.alter id _)[other]? = _
      rw [Std.ExtTreeMap.getElem?_alter, if_neg hne]
  · rfl

theorem settleNode_retired_ne (h : other ≠ id) :
    (t.settleNode id retracted at_).retired[other]? = t.retired[other]? := by
  have hne : ¬compare id other = .eq := fun he => h (Std.LawfulEqCmp.eq_of_compare he).symm
  unfold settleNode
  dsimp only
  rw [undoWhatResolvedAgainst_retired_ne _ _ _ h]
  unfold settleRow
  dsimp only
  split
  · rfl
  · show (t.retired.alter id _)[other]? = _
    rw [Std.ExtTreeMap.getElem?_alter, if_neg hne]

/-- The node's retired row after its undoing: its proof stripped where it defined a name before. -/
def stripped (defined : Option String) (n : Node) : Node :=
  match defined with
  | some name => if t.definitionName id = some name then n else { n with proof := [] }
  | none => n

theorem undoWhatResolvedAgainst_retired_self (defined : Option String) :
    (t.undoWhatResolvedAgainst id defined).retired[id]? =
      (t.retired[id]?).map (t.stripped id defined) := by
  unfold undoWhatResolvedAgainst stripped
  cases defined with
  | none => simp
  | some name =>
    dsimp only
    split
    · simp
    · show (t.retired.alter id _)[id]? = _
      rw [Std.ExtTreeMap.getElem?_alter_self]

theorem stripped_attrs (defined : Option String) (n : Node) :
    (t.stripped id defined n).attrs = n.attrs := by
  unfold stripped
  split
  · split <;> rfl
  · rfl

/-- A node some live assertion holds: its retired row stands, if there is one. -/
theorem settleNode_retired_of_live (hlive : t.liveAssertions id ≠ []) :
    ∃ u : Tables, (t.settleNode id retracted at_).retired[id]? =
      (t.retired[id]?).map (u.stripped id (t.definitionName id)) := by
  refine ⟨(t.oweRelabelOf id false).settleRow id retracted at_, ?_⟩
  unfold settleNode
  dsimp only
  rw [undoWhatResolvedAgainst_retired_self]
  have hkind : settledKind (((t.oweRelabelOf id false).liveAssertions id).map NodeAssertion.kind) ≠
      none := by
    rw [Ne, settledKind_eq_none_iff, List.map_eq_nil_iff]
    exact hlive
  have hretired : ((t.oweRelabelOf id false).settleRow id retracted at_).retired[id]? =
      t.retired[id]? := by
    unfold settleRow
    dsimp only
    cases hk : settledKind
      (((t.oweRelabelOf id false).liveAssertions id).map NodeAssertion.kind) with
    | none => exact absurd hk hkind
    | some kind => rfl
  rw [hretired]

/-- A node no live assertion holds: its row moved to the retired ones, less what was retracted. -/
theorem settleNode_retired_of_dead (hdead : t.liveAssertions id = []) :
    ∃ u : Tables, u.nodes[id]? = none ∧ (t.settleNode id retracted at_).retired[id]? =
      ((t.nodes[id]?.or t.retired[id]?).map fun n =>
        u.stripped id (t.definitionName id) { n with attrs := retract n.attrs retracted [] }) := by
  refine ⟨(t.oweRelabelOf id false).settleRow id retracted at_, ?_, ?_⟩
  · rw [← undoWhatResolvedAgainst_nodes _ id (t.definitionName id)]
    show (t.settleNode id retracted at_).nodes[id]? = none
    rw [settleNode_self, settledNode, hdead]
    rfl
  · unfold settleNode
    dsimp only
    rw [undoWhatResolvedAgainst_retired_self]
    have hretired : ((t.oweRelabelOf id false).settleRow id retracted at_).retired[id]? =
        (t.nodes[id]?.or t.retired[id]?).map fun n =>
          { n with attrs := retract n.attrs retracted [] } := by
      have hlive : (t.oweRelabelOf id false).liveAssertions id = [] := hdead
      unfold settleRow
      dsimp only
      rw [hlive]
      show (t.retired.alter id _)[id]? = _
      rw [Std.ExtTreeMap.getElem?_alter_self]
      rfl
    rw [hretired, Option.map_map]
    rfl

end Tables

/-! ## Recording -/

/-- The row is the identity's of the node: the key of `node_assertions`. -/
def NodeAssertion.isOf (identity node : String) (r : NodeAssertion) : Bool :=
  r.identity == identity && r.node == node

theorem NodeAssertion.isOf_iff :
    r.isOf identity node = true ↔ r.identity = identity ∧ r.node = node := by
  simp [isOf]

/-- An identity asserts a node once. -/
def DistinctRows (rows : List NodeAssertion) : Prop :=
  rows.Pairwise fun a b => ¬(a.identity = b.identity ∧ a.node = b.node)

theorem DistinctRows.eq_of_isOf {rows : List NodeAssertion} (h : DistinctRows rows)
    {r' : NodeAssertion} (hr : r ∈ rows) (hr' : r' ∈ rows) (hof : r.isOf identity node = true)
    (hof' : r'.isOf identity node = true) : r = r' := by
  have hnodup : (rows.map fun r => (r.identity, r.node)).Nodup :=
    List.pairwise_map.2 (h.imp fun hab he => hab (Prod.mk.inj he))
  rw [NodeAssertion.isOf_iff] at hof hof'
  exact List.inj_on_of_nodup_map hnodup hr hr' (by simp [hof, hof'])

theorem DistinctRows.split {rows : List NodeAssertion} (h : DistinctRows rows)
    (hr : rows.find? (NodeAssertion.isOf identity node) = some r) :
    ∃ before after, rows = before ++ r :: after ∧ r.isOf identity node = true ∧
      (∀ x ∈ before, x.isOf identity node = false) ∧ ∀ x ∈ after, x.isOf identity node = false := by
  obtain ⟨hof, before, after, rfl, hbefore⟩ := List.find?_eq_some_iff_append.1 hr
  refine ⟨before, after, rfl, hof, fun x hx => by simpa using hbefore x hx, fun x hx => ?_⟩
  have hpair := (List.pairwise_cons.1 (List.pairwise_append.1 h).2.1).1 x hx
  rw [NodeAssertion.isOf_iff] at hof
  by_contra hx'
  rw [Bool.not_eq_false, NodeAssertion.isOf_iff] at hx'
  exact hpair ⟨hof.1.trans hx'.1.symm, hof.2.trans hx'.2.symm⟩

theorem map_update_split {before after : List NodeAssertion} {p : NodeAssertion → Bool}
    (f : NodeAssertion → NodeAssertion) (hr : p r = true) (hbefore : ∀ x ∈ before, p x = false)
    (hafter : ∀ x ∈ after, p x = false) :
    ((before ++ r :: after).map fun x => if p x then f x else x) = before ++ f r :: after := by
  have hid : ∀ l : List NodeAssertion, (∀ x ∈ l, p x = false) →
      (l.map fun x => if p x then f x else x) = l := by
    intro l hl
    conv_rhs => rw [← List.map_id l]
    exact List.map_congr_left fun x hx => by simp [hl x hx]
  rw [List.map_append, List.map_cons, hid before hbefore, hid after hafter, if_pos hr]

/-- What recording an assertion leaves of the rows: a row more, the identity's row of the generation
merged with, or its row of another generation replaced. -/
inductive Recorded (by_ : Asserter) (id : String) (kind : NodeKind) (attrs : Attrs)
    (rows : List NodeAssertion) : List NodeAssertion → Prop
  | fresh (h : ∀ x ∈ rows, x.isOf by_.identity id = false) :
    Recorded by_ id kind attrs rows (rows ++ [⟨by_.identity, by_.generation, id, kind, attrs⟩])
  | merged (before after : List NodeAssertion) (r : NodeAssertion) (h : rows = before ++ r :: after)
    (hof : r.isOf by_.identity id = true) (hbefore : ∀ x ∈ before, x.isOf by_.identity id = false)
    (hafter : ∀ x ∈ after, x.isOf by_.identity id = false) (hgen : r.generation = by_.generation) :
    Recorded by_ id kind attrs rows
      (before ++ { r with kind := promote r.kind kind, attrs := patch r.attrs attrs } :: after)
  | replaced (before after : List NodeAssertion) (r : NodeAssertion)
    (h : rows = before ++ r :: after) (hof : r.isOf by_.identity id = true)
    (hbefore : ∀ x ∈ before, x.isOf by_.identity id = false)
    (hafter : ∀ x ∈ after, x.isOf by_.identity id = false) (hgen : r.generation ≠ by_.generation) :
    Recorded by_ id kind attrs rows
      (before ++ ⟨by_.identity, by_.generation, id, kind, attrs⟩ :: after)

namespace Tables

variable (t : Tables) (by_ : Asserter) (id : String) (kind : NodeKind)

/-- Everything `ensureNode` writes before it records the assertion. -/
def written (attrs : Attrs) : Tables :=
  ((t.writeNode id kind attrs).reviveAttachments id).oweRelabelOf id false

theorem ensureNode_eq (attrs : List (String × String)) :
    t.ensureNode by_ id kind attrs =
      (t.written id kind (.ofList attrs)).recordAssertion by_ id kind (.ofList attrs) := rfl

@[simp] theorem written_nodeAssertions (attrs : Attrs) :
    (t.written id kind attrs).nodeAssertions = t.nodeAssertions := rfl

@[simp] theorem written_generations (attrs : Attrs) :
    (t.written id kind attrs).generations = t.generations := rfl

theorem written_self (attrs : Attrs) : (t.written id kind attrs).nodes[id]? =
    some (upserted (t.restored id kind) kind attrs) := by
  show (t.nodes.insert id _)[id]? = _
  rw [Std.ExtTreeMap.getElem?_insert_self]

variable {other : String}

theorem written_ne (attrs : Attrs) (h : other ≠ id) :
    (t.written id kind attrs).nodes[other]? = t.nodes[other]? := by
  have hne : ¬compare id other = .eq := fun he => h (Std.LawfulEqCmp.eq_of_compare he).symm
  show (t.nodes.insert id _)[other]? = _
  rw [Std.ExtTreeMap.getElem?_insert, if_neg hne]

theorem upserted_kind (attrs : Attrs) :
    (upserted (t.restored id kind) kind attrs).kind =
      ((t.kindOf id).map (promote · kind)).getD kind := by
  have hself : promote kind kind = kind := (promote_eq_or kind kind).elim (fun h => h) fun h => h
  unfold restored kindOf upserted
  cases t.nodes[id]? with
  | some n => rfl
  | none => cases t.retired[id]? <;> simp [hself]

/-- Replace the identity's row of the node with this assertion. -/
def replaceRow (attrs : Attrs) : Tables :=
  t.updateAssertion by_.identity id fun r =>
    { r with generation := by_.generation, kind := kind, attrs := attrs }

/-- Recording inverted: it merges or adds a row and leaves the nodes, or replaces a row of another
generation and settles the node. -/
theorem recordAssertion_cases (hrows : DistinctRows t.nodeAssertions) (attrs : Attrs) :
    (∃ rows, Recorded by_ id kind attrs t.nodeAssertions rows ∧
      t.recordAssertion by_ id kind attrs = { t with nodeAssertions := rows } ∧
      ∀ r ∈ t.nodeAssertions, r.isOf by_.identity id = true → r.generation = by_.generation) ∨
    ∃ r, r ∈ t.nodeAssertions ∧ r.isOf by_.identity id = true ∧ r.generation ≠ by_.generation ∧
      Recorded by_ id kind attrs t.nodeAssertions
        (t.replaceRow by_ id kind attrs).nodeAssertions ∧
      t.recordAssertion by_ id kind attrs =
        (t.replaceRow by_ id kind attrs).settleNode id r.attrs by_.at_ := by
  unfold recordAssertion recordedAssertion
  cases hfind : t.nodeAssertions.find? (NodeAssertion.isOf by_.identity id) with
  | none =>
    have hnone : ∀ x ∈ t.nodeAssertions, x.isOf by_.identity id = false := by
      simpa using List.find?_eq_none.1 hfind
    have hfind' : t.nodeAssertions.find? (fun r => r.identity == by_.identity && r.node == id) =
        none := hfind
    refine .inl ⟨_, .fresh hnone, ?_, fun r hr hof => absurd hof (by simp [hnone r hr])⟩
    rw [hfind']
  | some r =>
    have hfind' : t.nodeAssertions.find? (fun r => r.identity == by_.identity && r.node == id) =
        some r := hfind
    obtain ⟨before, after, heq, hof, hbefore, hafter⟩ := hrows.split hfind
    have hr : r ∈ t.nodeAssertions := by simp [heq]
    have hother : ∀ x ∈ t.nodeAssertions, x.isOf by_.identity id = true → x = r := by
      intro x hx hxof
      rw [heq] at hx
      rcases List.mem_append.1 hx with hx | hx
      · simp [hbefore x hx] at hxof
      · rcases List.mem_cons.1 hx with rfl | hx
        · rfl
        · simp [hafter x hx] at hxof
    rw [hfind']
    dsimp only
    by_cases hgen : r.generation = by_.generation
    · rw [if_pos hgen]
      refine .inl ⟨_, .merged before after r heq hof hbefore hafter hgen, ?_, ?_⟩
      · have hmap := map_update_split (p := NodeAssertion.isOf by_.identity id)
          (fun r => { r with kind := promote r.kind kind, attrs := patch r.attrs attrs })
          hof hbefore hafter
        rw [← heq] at hmap
        unfold updateAssertion
        exact congrArg (fun rows => { t with nodeAssertions := rows }) hmap
      · intro x hx hxof
        rw [hother x hx hxof, hgen]
    · rw [if_neg hgen]
      refine .inr ⟨r, hr, hof, hgen, ?_, rfl⟩
      have hmap := map_update_split (p := NodeAssertion.isOf by_.identity id)
        (fun r => { r with generation := by_.generation, kind := kind, attrs := attrs })
        hof hbefore hafter
      rw [← heq] at hmap
      have hrow : ({ r with generation := by_.generation, kind := kind, attrs := attrs } :
          NodeAssertion) = ⟨by_.identity, by_.generation, id, kind, attrs⟩ := by
        rw [NodeAssertion.isOf_iff] at hof
        rw [hof.1, hof.2]
      rw [hrow] at hmap
      show Recorded _ _ _ _ _ (t.nodeAssertions.map _)
      exact hmap ▸ .replaced before after r heq hof hbefore hafter hgen

/-- What `ensureNode` leaves: the rows with the assertion recorded, every other node as it was, and
the node upserted, or settled where the assertion replaces an older generation's. -/
theorem ensureNode_cases (hrows : DistinctRows t.nodeAssertions) (attrs : List (String × String)) :
    let ensured := t.ensureNode by_ id kind attrs
    let row := upserted (t.restored id kind) kind (.ofList attrs)
    Recorded by_ id kind (.ofList attrs) t.nodeAssertions ensured.nodeAssertions ∧
      ensured.generations = t.generations ∧
      (∀ other, other ≠ id → ensured.nodes[other]? = t.nodes[other]?) ∧
      ((ensured.nodes[id]? = some row ∧
          ∀ r ∈ t.nodeAssertions, r.isOf by_.identity id = true → r.generation = by_.generation) ∨
        ∃ r ∈ t.nodeAssertions, r.isOf by_.identity id = true ∧ r.generation ≠ by_.generation ∧
          ensured.nodes[id]? =
            (settledKind ((ensured.liveAssertions id).map NodeAssertion.kind)).map fun settled =>
              { row with
                kind := settled
                attrs := retract row.attrs r.attrs
                  ((ensured.liveAssertions id).map NodeAssertion.attrs) }) := by
  dsimp only
  rw [ensureNode_eq]
  rcases (t.written id kind (.ofList attrs)).recordAssertion_cases by_ id kind
    (by simpa using hrows) (.ofList attrs) with ⟨rows, hrec, heq, hown⟩ | ⟨r, hr, hof,
    hgen, hrec, heq⟩
  · rw [heq]
    refine ⟨hrec, rfl, fun other hother => ?_, .inl ⟨?_, hown⟩⟩
    · exact t.written_ne id kind _ hother
    · exact t.written_self id kind _
  · rw [heq]
    refine ⟨by simpa using hrec, by simp [replaceRow, updateAssertion], fun other hother => ?_,
      .inr ⟨r, hr, hof, hgen, ?_⟩⟩
    · rw [settleNode_ne _ _ _ _ hother]
      exact t.written_ne id kind _ hother
    · rw [settleNode_self]
      unfold settledNode
      have hself : ((t.written id kind (.ofList attrs)).replaceRow by_ id kind
          (.ofList attrs)).nodes[id]? = some (upserted (t.restored id kind) kind (.ofList attrs)) :=
        t.written_self id kind _
      rw [settleNode_liveAssertions, hself]
      cases settledKind _ <;> rfl

/-- What asserting a node leaves of the proofs: as they were, every name owed that the node's row
upserted defines and its row settled does not. -/
theorem ensureNode_proofs (hrows : DistinctRows t.nodeAssertions)
    (attrs : List (String × String)) :
    let ensured := t.ensureNode by_ id kind attrs
    ensured.proofs = t.proofs ∧ (∀ name, name ∈ t.proofsOwed → name ∈ ensured.proofsOwed) ∧
      ∀ name, (t.written id kind (.ofList attrs)).definitionName id = some name →
        ensured.definitionName id ≠ some name → name ∈ ensured.proofsOwed := by
  dsimp only
  rw [ensureNode_eq]
  rcases (t.written id kind (.ofList attrs)).recordAssertion_cases by_ id kind
    (by simpa using hrows) (.ofList attrs) with ⟨rows, -, heq, -⟩ | ⟨r, -, -, -, -, heq⟩
  · rw [heq]
    exact ⟨rfl, fun _ h => h, fun name h hne => absurd h hne⟩
  · rw [heq]
    refine ⟨settleNode_proofs _ _ _ _, fun name h => ?_, fun name h hne => ?_⟩
    · exact (mem_settleNode_owed _ _ _ _ name).2 (.inl h)
    · exact (mem_settleNode_owed _ _ _ _ name).2 (.inr ⟨h, hne⟩)

theorem ensureNode_retired_ne (hrows : DistinctRows t.nodeAssertions)
    (attrs : List (String × String)) (h : other ≠ id) :
    (t.ensureNode by_ id kind attrs).retired[other]? = t.retired[other]? := by
  have hwritten : (t.written id kind (.ofList attrs)).retired[other]? = t.retired[other]? := by
    have hne : ¬compare id other = .eq := fun he => h (Std.LawfulEqCmp.eq_of_compare he).symm
    show (t.retired.erase id)[other]? = _
    rw [Std.ExtTreeMap.getElem?_erase, if_neg hne]
  rw [ensureNode_eq]
  rcases (t.written id kind (.ofList attrs)).recordAssertion_cases by_ id kind
    (by simpa using hrows) (.ofList attrs) with ⟨rows, -, heq, -⟩ | ⟨r, -, -, -, -, heq⟩
  · rw [heq]
    exact hwritten
  · rw [heq, settleNode_retired_ne _ _ _ _ h]
    exact hwritten

theorem ensureNode_retired_self (hrows : DistinctRows t.nodeAssertions)
    (attrs : List (String × String))
    (hlive : (t.ensureNode by_ id kind attrs).liveAssertions id ≠ []) :
    (t.ensureNode by_ id kind attrs).retired[id]? = none := by
  have hwritten : (t.written id kind (.ofList attrs)).retired[id]? = none := by
    show (t.retired.erase id)[id]? = _
    rw [Std.ExtTreeMap.getElem?_erase_self]
  rw [ensureNode_eq] at hlive ⊢
  rcases (t.written id kind (.ofList attrs)).recordAssertion_cases by_ id kind
    (by simpa using hrows) (.ofList attrs) with ⟨rows, -, heq, -⟩ | ⟨r, -, -, -, -, heq⟩
  · rw [heq]
    exact hwritten
  · rw [heq] at hlive ⊢
    rw [settleNode_liveAssertions] at hlive
    obtain ⟨u, hu⟩ := settleNode_retired_of_live _ _ r.attrs by_.at_ hlive
    rw [hu]
    show Option.map _ ((t.written id kind (.ofList attrs)).retired[id]?) = none
    rw [hwritten]
    rfl

end Tables

/-! ## Generations -/

namespace Tables

variable (t : Tables) (by_ : Asserter)

/-- The tables a newer generation opens on: the rows older than the one it supersedes dropped. -/
def opened (prior : String) : Tables :=
  { t with
    nodeAssertions := t.nodeAssertions.filter fun r =>
      !(r.identity == by_.identity && r.generation != prior)
    edgeAssertions := t.edgeAssertions.filter fun a =>
      !(a.identity == by_.identity && a.generation != prior)
    generations := t.generations.insert by_.identity ⟨by_.generation, some prior⟩ }

/-- Advancing inverted: the generation stands, or is its identity's first, or supersedes one. -/
theorem advanceGeneration_cases :
    (t.advanceGeneration by_ = (t, none) ∧
        (by_.identity = "" ∨ t.currentGeneration by_.identity = some by_.generation)) ∨
      (by_.identity ≠ "" ∧ t.currentGeneration by_.identity = none ∧ t.advanceGeneration by_ =
        ({ t with generations := t.generations.insert by_.identity ⟨by_.generation, none⟩ },
          none)) ∨
      ∃ prior, by_.identity ≠ "" ∧ t.currentGeneration by_.identity = some prior ∧
        prior ≠ by_.generation ∧ t.advanceGeneration by_ =
          ((t.opened by_ prior).settleEdges (((t.opened by_ prior).edges.filter fun e => e.isLive &&
            (t.opened by_ prior).edgeAssertions.any fun a => a.identity == by_.identity &&
              a.generation == prior && a.edge == e.id).map Edge.id) by_.at_, some prior) := by
  unfold advanceGeneration
  by_cases hid : by_.identity = ""
  · exact .inl ⟨if_pos hid, .inl hid⟩
  · rw [if_neg hid]
    cases hcurrent : t.currentGeneration by_.identity with
    | none => exact .inr (.inl ⟨hid, rfl, rfl⟩)
    | some prior =>
      dsimp only
      by_cases hsame : prior = by_.generation
      · rw [if_pos hsame]
        exact .inl ⟨rfl, .inr (congrArg some hsame)⟩
      · rw [if_neg hsame]
        exact .inr (.inr ⟨prior, hid, rfl, hsame, rfl⟩)

theorem currentGeneration_insert {identity : String} (generation : Generation) (other : String) :
    ({ t with generations := t.generations.insert identity generation } : Tables).currentGeneration
      other = if other = identity then some generation.current else t.currentGeneration other := by
  show ((t.generations.insert identity generation)[other]?).map Generation.current = _
  rw [Std.ExtTreeMap.getElem?_insert]
  by_cases he : other = identity
  · rw [if_pos (by rw [he]; exact Std.ReflCmp.compare_self), if_pos he]
    rfl
  · rw [if_neg fun hc => he (Std.LawfulEqCmp.eq_of_compare hc).symm, if_neg he]
    rfl

end Tables

/-! ## The recorded rows -/

namespace Recorded

variable {by_ : Asserter} {id : String} {kind : NodeKind} {attrs : Attrs}
  {rows rows' : List NodeAssertion}

/-- The asserter's own row after, the other rows as they were. -/
theorem own (h : Recorded by_ id kind attrs rows rows') :
    ∃ own : NodeAssertion, own.isOf by_.identity id = true ∧ own.generation = by_.generation ∧
      (∀ x, x ∈ rows' ↔ x = own ∨ x ∈ rows ∧ x.isOf by_.identity id = false) ∧
      ((own.kind = kind ∧ own.attrs = attrs ∧
          ∀ x ∈ rows, x.isOf by_.identity id = true → x.generation ≠ by_.generation) ∨
        ∃ r ∈ rows, r.isOf by_.identity id = true ∧ r.generation = by_.generation ∧
          own.kind = promote r.kind kind ∧ own.attrs = patch r.attrs attrs) := by
  have hnew : (⟨by_.identity, by_.generation, id, kind, attrs⟩ : NodeAssertion).isOf
      by_.identity id = true := by simp [NodeAssertion.isOf]
  -- the rows around the one rewritten are those of other keys
  have hsplit : ∀ {before after : List NodeAssertion} {r own : NodeAssertion},
      rows = before ++ r :: after → r.isOf by_.identity id = true →
      (∀ x ∈ before, x.isOf by_.identity id = false) →
      (∀ x ∈ after, x.isOf by_.identity id = false) → ∀ x, x ∈ before ++ own :: after ↔
        x = own ∨ x ∈ rows ∧ x.isOf by_.identity id = false := by
    intro before after r own heq hof hbefore hafter x
    subst heq
    simp only [List.mem_append, List.mem_cons]
    constructor
    · rintro (hx | rfl | hx)
      · exact .inr ⟨.inl hx, hbefore x hx⟩
      · exact .inl rfl
      · exact .inr ⟨.inr (.inr hx), hafter x hx⟩
    · rintro (rfl | ⟨hx | rfl | hx, hof'⟩)
      · exact .inr (.inl rfl)
      · exact .inl hx
      · simp [hof] at hof'
      · exact .inr (.inr hx)
  cases h with
  | fresh h =>
    refine ⟨_, hnew, rfl, fun x => ?_, .inl ⟨rfl, rfl, fun x hx hof => ?_⟩⟩
    · simp only [List.mem_append, List.mem_singleton]
      constructor
      · rintro (hx | rfl)
        · exact .inr ⟨hx, h x hx⟩
        · exact .inl rfl
      · rintro (rfl | hx)
        · exact .inr rfl
        · exact .inl hx.1
    · simp [h x hx] at hof
  | merged before after r heq hof hbefore hafter hgen =>
    exact ⟨{ r with kind := promote r.kind kind, attrs := patch r.attrs attrs }, hof, hgen,
      hsplit heq hof hbefore hafter, .inr ⟨r, by simp [heq], hof, hgen, rfl, rfl⟩⟩
  | replaced before after r heq hof hbefore hafter hgen =>
    refine ⟨_, hnew, rfl, hsplit heq hof hbefore hafter, .inl ⟨rfl, rfl, fun x hx hxof => ?_⟩⟩
    subst heq
    rcases List.mem_append.1 hx with hx | hx
    · simp [hbefore x hx] at hxof
    · rcases List.mem_cons.1 hx with rfl | hx
      · exact hgen
      · simp [hafter x hx] at hxof

theorem distinct (h : Recorded by_ id kind attrs rows rows') (hrows : DistinctRows rows) :
    DistinctRows rows' := by
  -- a row rewritten in place keeps its key
  have hkey : ∀ {before after : List NodeAssertion} {r own : NodeAssertion},
      r.isOf by_.identity id = true → own.isOf by_.identity id = true →
      DistinctRows (before ++ r :: after) → DistinctRows (before ++ own :: after) := by
    intro before after r own hr hown h
    rw [NodeAssertion.isOf_iff] at hr hown
    unfold DistinctRows at h ⊢
    rw [List.pairwise_append, List.pairwise_cons] at h ⊢
    refine ⟨h.1, ⟨fun x hx => ?_, h.2.1.2⟩, fun x hx y hy => ?_⟩
    · rw [hown.1, hown.2, ← hr.1, ← hr.2]
      exact h.2.1.1 x hx
    · rcases List.mem_cons.1 hy with rfl | hy
      · rw [hown.1, hown.2, ← hr.1, ← hr.2]
        exact h.2.2 x hx r (List.mem_cons_self ..)
      · exact h.2.2 x hx y (List.mem_cons_of_mem _ hy)
  cases h with
  | fresh h =>
    refine List.pairwise_append.2 ⟨hrows, by simp, fun x hx y hy => ?_⟩
    rw [List.mem_singleton.1 hy]
    intro hxy
    have := h x hx
    rw [NodeAssertion.isOf_iff.2 hxy] at this
    cases this
  | merged before after r heq hof hbefore hafter hgen => exact hkey hof hof (heq ▸ hrows)
  | replaced before after r heq hof hbefore hafter hgen =>
    exact hkey hof (by simp [NodeAssertion.isOf]) (heq ▸ hrows)

variable {q : NodeAssertion → Bool}

/-- The rows of other nodes are as they were, in order. -/
theorem filter_eq (h : Recorded by_ id kind attrs rows rows')
    (hq : ∀ r, r.node = id → q r = false) :
    rows'.filter q = rows.filter q := by
  have hnode : ∀ {r : NodeAssertion}, r.isOf by_.identity id = true → q r = false :=
    fun hr => hq _ (NodeAssertion.isOf_iff.1 hr).2
  cases h with
  | fresh h => simp [List.filter_append, hq]
  | merged before after r heq hof hbefore hafter hgen =>
    have hown : q { r with kind := promote r.kind kind, attrs := patch r.attrs attrs } = false :=
      hnode hof
    simp [heq, hnode hof, hown]
  | replaced before after r heq hof hbefore hafter hgen => simp [heq, hnode hof, hq]

/-- Within the asserter's generation, the kinds of a node's rows settle as the node promotes. -/
theorem settledKind_filter (h : Recorded by_ id kind attrs rows rows')
    (hcurrent : ∀ r ∈ rows, r.isOf by_.identity id = true → r.generation = by_.generation)
    (hq : ∀ r, r.isOf by_.identity id = true → r.generation = by_.generation → q r = true)
    (specific : NodeKind)
    (hkinds : ∀ k ∈ (rows.filter q).map NodeAssertion.kind, k = .artifact ∨ k = specific)
    (hkind : kind = .artifact ∨ kind = specific) :
    settledKind ((rows'.filter q).map NodeAssertion.kind) =
      some (((settledKind ((rows.filter q).map NodeAssertion.kind)).map (promote · kind)).getD
        kind) := by
  cases h with
  | fresh h =>
    have hnew := hq ⟨by_.identity, by_.generation, id, kind, attrs⟩
      (by simp [NodeAssertion.isOf]) rfl
    rw [List.filter_append, List.filter_cons_of_pos hnew, List.filter_nil, List.map_append]
    exact settledKind_append _ _
  | merged before after r heq hof hbefore hafter hgen =>
    have hmerged := hq { r with kind := promote r.kind kind, attrs := patch r.attrs attrs } hof hgen
    have hrows :
      (rows.filter q).map NodeAssertion.kind = (before.filter q).map NodeAssertion.kind ++
        r.kind :: (after.filter q).map NodeAssertion.kind := by
      rw [heq, List.filter_append, List.filter_cons_of_pos (hq r hof hgen), List.map_append,
        List.map_cons]
    rw [hrows] at hkinds ⊢
    rw [List.filter_append, List.filter_cons_of_pos hmerged, List.map_append, List.map_cons,
      settledKind_middle hkinds hkind]
    cases hsettled : settledKind ((before.filter q).map NodeAssertion.kind ++
        r.kind :: (after.filter q).map NodeAssertion.kind) with
    | none => simp [settledKind_eq_none_iff] at hsettled
    | some k => rfl
  | replaced before after r heq hof hbefore hafter hgen =>
    exact absurd (hcurrent r (by simp [heq]) hof) hgen

end Recorded

end Rigger.Graph
