import Rigger.Graph.Rule

/-!
# Which nodes carry a name

Only a definition's assertion carries the `name` and `kind` keys.  Where every id is asserted as an
artifact or as one kind of its own (`space`), a node carries a name only as a code entity some
assertion of it names, and no retired node carries one (`Names`).
-/

namespace Rigger.Graph

open Lib

/-- The assertion is of an artifact, or of the kind its node's id is of. -/
def OneKind (space : String → NodeKind) (a : Assertion) : Prop :=
  a.kind = .artifact ∨ a.kind = space a.node

variable {attrs : List (String × String)} {attrs' : Attrs}

theorem Plain.name (h : Plain attrs) :
    (Std.ExtTreeMap.ofList attrs : Attrs)["name"]? = none := ofList_getElem?_of_ne fun a ha =>
    (h a ha).1

theorem Plain.kind (h : Plain attrs) :
    (Std.ExtTreeMap.ofList attrs : Attrs)["kind"]? = none := ofList_getElem?_of_ne fun a ha =>
    (h a ha).2

theorem naming_getElem? (name kind line lang : String) :
    let attrs : Attrs := .ofList [("name", name), ("kind", kind), ("line", line), ("lang", lang)]
    attrs["name"]? = some name ∧ attrs["kind"]? = some kind := by
  have hkeys : ["name", "kind", "line", "lang"].Pairwise fun a b => ¬compare a b = .eq := by decide
  have hdistinct : [("name", name), ("kind", kind), ("line", line), ("lang", lang)].Pairwise
      fun a b => ¬compare a.1 b.1 = .eq :=
      (List.pairwise_map (f := Prod.fst) (R := fun a b => ¬compare a b = .eq)).1 hkeys
  constructor <;>
    exact Std.ExtTreeMap.getElem?_ofList_of_mem Std.ReflCmp.compare_self hdistinct (by simp)

/-- The two keys go together, and only onto a code entity. -/
theorem Asserts.keys {kind : NodeKind} (h : Asserts kind attrs) :
    let asserted : Attrs := .ofList attrs
    asserted.contains "kind" = asserted.contains "name" ∧
      (asserted.contains "name" = true → kind = .codeEntity) := by
  dsimp only
  rw [Std.ExtTreeMap.contains_eq_isSome_getElem?, Std.ExtTreeMap.contains_eq_isSome_getElem?]
  rcases h with hplain | ⟨rfl, name, kind, line, lang, rfl⟩
  · rw [hplain.name, hplain.kind]
    simp
  · obtain ⟨hname, hkind⟩ := naming_getElem? name kind line lang
    rw [hname, hkind]
    simp

/-- One node's row rewritten. -/
theorem alter_map_getElem? (nodes : Std.ExtTreeMap String Node) (id : String) (f : Node → Node)
    (other : String) : (nodes.alter id fun n => n.map f)[other]? =
      nodes[other]?.map fun n => if other = id then f n else n := by
  rw [Std.ExtTreeMap.getElem?_alter]
  by_cases he : id = other
  · subst he
    simp
  · rw [if_neg fun hc => he (Std.LawfulEqCmp.eq_of_compare hc)]
    simp [Ne.symm he]

/-- The nodes keep kind and name, or lose the name, and are asserted as they were. -/
structure KeepsNames (t t' : Tables) : Prop where
  nodes : ∀ (id : String) (n' : Node), t'.nodes[id]? = some n' → ∃ n : Node,
    t.nodes[id]? = some n ∧ n'.kind = n.kind ∧
      ∀ name, n'.attrs["name"]? = some name → n.attrs["name"]? = some name
  retired : ∀ (id : String) (n' : Node), t'.retired[id]? = some n' → ∃ n : Node,
    t.retired[id]? = some n ∧ (n'.attrs.contains "name" = true → n.attrs.contains "name" = true)
  nodeAssertions : t'.nodeAssertions = t.nodeAssertions
  holds : ∀ r ∈ t.nodeAssertions, t'.holds r = t.holds r
  known : ∀ identity, t.currentGeneration identity ≠ none → t'.currentGeneration identity ≠ none

theorem SameNodes.keepsNames {t t' : Tables} (h : SameNodes t t') : KeepsNames t t' where
  nodes := fun id n' hn => ⟨n', h.nodes ▸ hn, rfl, fun _ h => h⟩
  retired := fun id n' hn => ⟨n', h.retired ▸ hn, fun h => h⟩
  nodeAssertions := h.nodeAssertions
  holds := fun r _ => by simp only [Tables.holds, Tables.currentGeneration, h.generations]
  known := fun identity hk => by rwa [Tables.currentGeneration, h.generations]

theorem contains_iff_getElem? {attrs : Attrs} {key : String} :
    attrs.contains key = true ↔ ∃ value, attrs[key]? = some value := by
  rw [Std.ExtTreeMap.contains_eq_isSome_getElem?, Option.isSome_iff_exists]

namespace KeepsNames

variable {t t' t'' : Tables}

theorem refl (t : Tables) : KeepsNames t t := (SameNodes.refl t).keepsNames

theorem trans (h : KeepsNames t t') (h' : KeepsNames t' t'') : KeepsNames t t'' where
  nodes := fun id n'' hn'' => by
    obtain ⟨n', hn', hk', hname'⟩ := h'.nodes id n'' hn''
    obtain ⟨n, hn, hk, hname⟩ := h.nodes id n' hn'
    exact ⟨n, hn, hk'.trans hk, fun name hnm => hname name (hname' name hnm)⟩
  retired := fun id n'' hn'' => by
    obtain ⟨n', hn', hname'⟩ := h'.retired id n'' hn''
    obtain ⟨n, hn, hname⟩ := h.retired id n' hn'
    exact ⟨n, hn, fun hnm => hname (hname' hnm)⟩
  nodeAssertions := h'.nodeAssertions.trans h.nodeAssertions
  holds := fun r hr => (h'.holds r (h.nodeAssertions ▸ hr)).trans (h.holds r hr)
  known := fun identity hk => h'.known identity (h.known identity hk)

theorem foldl {α : Type} {f : Tables → α → Tables} (hf : ∀ t a, KeepsNames t (f t a))
    (t : Tables) (as : List α) : KeepsNames t (as.foldl f t) := by
  induction as generalizing t with
  | nil => exact refl t
  | cons a as ih => exact (hf t a).trans (ih _)

/-- A node's row rewritten to one of its kind that carries no name it did not. -/
theorem alter (t : Tables) (id : String) {f : Node → Node} (hk : ∀ n, (f n).kind = n.kind)
    (hname : ∀ n name, (f n).attrs["name"]? = some name → n.attrs["name"]? = some name) :
    KeepsNames t { t with nodes := t.nodes.alter id fun n => n.map f } where
  nodes := fun other n' hn' => by
    have hget : (t.nodes.alter id fun n => n.map f)[other]? = some n' := hn'
    rw [alter_map_getElem?] at hget
    obtain ⟨n, hn, rfl⟩ := Option.map_eq_some_iff.1 hget
    refine ⟨n, hn, ?_⟩
    split
    · exact ⟨hk n, hname n⟩
    · exact ⟨rfl, fun _ h => h⟩
  retired := fun _ n' hn' => ⟨n', hn', fun h => h⟩
  nodeAssertions := rfl
  holds := fun _ _ => rfl
  known := fun _ hk => hk

end KeepsNames

namespace Tables

variable (t : Tables)

theorem undoWhatResolvedAgainst_keepsNames (id : String) (defined : Option String) :
    KeepsNames t (t.undoWhatResolvedAgainst id defined) where
  nodes := fun other n' hn' => by
    rw [undoWhatResolvedAgainst_nodes] at hn'
    exact ⟨n', hn', rfl, fun _ h => h⟩
  retired := fun other n' hn' => by
    by_cases hne : other = id
    · subst hne
      rw [undoWhatResolvedAgainst_retired_self] at hn'
      obtain ⟨n, hn, rfl⟩ := Option.map_eq_some_iff.1 hn'
      exact ⟨n, hn, fun h => by rwa [stripped_attrs] at h⟩
    · rw [undoWhatResolvedAgainst_retired_ne _ _ _ hne] at hn'
      exact ⟨n', hn', fun h => h⟩
  nodeAssertions := (t.undoWhatResolvedAgainst_rows id defined).1
  holds := fun r _ => by
    simp only [holds, currentGeneration, (t.undoWhatResolvedAgainst_rows id defined).2]
  known := fun identity hk => by
    rwa [currentGeneration, (t.undoWhatResolvedAgainst_rows id defined).2]

theorem dropMemberless_getElem? (grain : String) (kind : NodeKind) (rel : Rel) (id : String) :
    (t.dropMemberless grain kind rel).nodes[id]? = t.nodes[id]?.filter fun n =>
      !(n.kind == kind && inGrain grain id &&
        !t.edges.any fun e => e.to_ == id && e.rel == rel && e.isLive) :=
  Std.ExtTreeMap.getElem?_filter'

theorem dropMemberless_keepsNames (grain : String) (kind : NodeKind) (rel : Rel) :
    KeepsNames t (t.dropMemberless grain kind rel) where
  nodes := fun id n' hn' => by
    rw [dropMemberless_getElem?] at hn'
    exact ⟨n', (Option.filter_eq_some_iff.1 hn').1, rfl, fun _ h => h⟩
  retired := fun _ n' hn' => ⟨n', hn', fun h => h⟩
  nodeAssertions := rfl
  holds := fun _ _ => rfl
  known := fun _ hk => hk

theorem overwriteAttrs_keepsNames (id : String) {attrs : List (String × String)}
    (hplain : Plain attrs) : KeepsNames t (t.overwriteAttrs id (.ofList attrs)) := by
  refine .alter t id (f := fun n => { n with attrs := .ofList attrs, proof := [] })
    (fun _ => rfl) fun n name hname => ?_
  rw [hplain.name] at hname
  cases hname

theorem aliased_keepsNames (aliases : Std.ExtTreeMap String String) :
    KeepsNames t { t with aliases := aliases } :=
  ⟨fun _ n hn => ⟨n, hn, rfl, fun _ h => h⟩, fun _ n hn => ⟨n, hn, fun h => h⟩, rfl,
    fun _ _ => rfl, fun _ hk => hk⟩

theorem writeProofs_keepsNames (ids : List String) : KeepsNames t (t.writeProofs ids) :=
  KeepsNames.foldl (fun t id => .alter t id (f := fun n => { n with proof := t.evidenceOf id })
    (fun _ => rfl) fun _ _ h => h) t ids

theorem proofsChanged_keepsNames (proofs : List ProofRow) (owed : Std.ExtTreeSet String) :
    KeepsNames t { t with proofs := proofs, proofsOwed := owed } :=
  SameNodes.keepsNames ⟨rfl, rfl, rfl, rfl, rfl⟩

end Tables

/-- What a recorded assertion is of, and what it says. -/
structure Recording (space : String → NodeKind) (r : NodeAssertion) : Prop where
  kind : r.kind = .artifact ∨ r.kind = space r.node
  name : r.attrs.contains "name" = true → r.kind = .codeEntity
  keys : r.attrs.contains "kind" = r.attrs.contains "name"

structure Names (space : String → NodeKind) (pending : NodeAssertion → Prop) (t : Tables) :
    Prop where
  rows : Rows t
  unique : ∀ r ∈ t.nodeAssertions, ∀ r' ∈ t.nodeAssertions, pending r → pending r' →
    r.node = r'.node → r = r'
  recorded : ∀ r ∈ t.nodeAssertions, Recording space r
  nodeKind : ∀ (id : String) (n : Node), t.nodes[id]? = some n →
    n.kind = .artifact ∨ n.kind = space id
  nodeName : ∀ (id : String) (n : Node), t.nodes[id]? = some n → n.attrs.contains "name" = true →
    n.kind = .codeEntity ∧ ∃ r ∈ t.nodeAssertions, r.node = id ∧
      (t.holds r = true ∨ pending r) ∧ r.attrs.contains "name" = true
  retiredName : ∀ (id : String) (n : Node), t.retired[id]? = some n →
    n.attrs.contains "name" = false

namespace Names

variable {space : String → NodeKind} {pending : NodeAssertion → Prop} {t t' : Tables}
  {by_ : Asserter}

theorem empty : Names space pending .empty where
  rows := .empty
  unique := by simp [Tables.empty]
  recorded := by simp [Tables.empty]
  nodeKind := by simp [Tables.empty]
  nodeName := by simp [Tables.empty]
  retiredName := by simp [Tables.empty]

theorem mono {pending' : NodeAssertion → Prop} (h : Names space pending t)
    (hp : ∀ r ∈ t.nodeAssertions, pending r ↔ pending' r) : Names space pending' t :=
  { h with
    unique := fun r hr r' hr' hpr hpr' =>
      h.unique r hr r' hr' ((hp r hr).2 hpr) ((hp r' hr').2 hpr')
    nodeName := fun id n hn hname => by
      obtain ⟨hkind, r, hr, hnode, hlive, hrname⟩ := h.nodeName id n hn hname
      exact ⟨hkind, r, hr, hnode, hlive.imp (fun h => h) (hp r hr).1, hrname⟩ }

theorem frame (h : Names space pending t) (hs : KeepsNames t t') : Names space pending t' where
  rows := h.rows.frame hs.nodeAssertions hs.known
  unique := hs.nodeAssertions ▸ h.unique
  recorded := hs.nodeAssertions ▸ h.recorded
  nodeKind := fun id n' hn' => by
    obtain ⟨n, hn, hkind, -⟩ := hs.nodes id n' hn'
    rw [hkind]
    exact h.nodeKind id n hn
  nodeName := fun id n' hn' hname => by
    obtain ⟨n, hn, hkind, hnames⟩ := hs.nodes id n' hn'
    obtain ⟨name, hname⟩ := contains_iff_getElem?.1 hname
    obtain ⟨hcode, r, hr, hnode, hlive, hrname⟩ :=
      h.nodeName id n hn (contains_iff_getElem?.2 ⟨name, hnames name hname⟩)
    refine ⟨hkind.trans hcode, r, hs.nodeAssertions ▸ hr, hnode, ?_, hrname⟩
    rw [hs.holds r hr]
    exact hlive
  retiredName := fun id n' hn' => by
    obtain ⟨n, hn, hnames⟩ := hs.retired id n' hn'
    rw [← Bool.not_eq_true]
    intro hname
    rw [h.retiredName id n hn] at hnames
    exact absurd (hnames hname) (by simp)

variable {id : String} {r : NodeAssertion} {kind : NodeKind} {attrs : Attrs}

/-- The live rows of a node named by one of them settle it a code entity. -/
theorem settled_codeEntity (h : ∀ r ∈ t.nodeAssertions, Recording space r)
    (hr : r ∈ t.liveAssertions id) (hname : r.attrs.contains "name" = true) :
    settledKind ((t.liveAssertions id).map NodeAssertion.kind) = some .codeEntity := by
  obtain ⟨hmem, hnode, -⟩ := t.mem_liveAssertions.1 hr
  have hkind := (h r hmem).name hname
  have hspace : space id = .codeEntity := by
    rcases (h r hmem).kind with hk | hk
    · rw [hkind] at hk
      cases hk
    · rw [← hnode, ← hk, hkind]
  refine settledKind_eq_promoting (by decide) (fun k hk => ?_)
    (List.mem_map.2 ⟨r, hr, hkind⟩)
  obtain ⟨x, hx, rfl⟩ := List.mem_map.1 hk
  obtain ⟨hx, hxnode, -⟩ := t.mem_liveAssertions.1 hx
  have := (h x hx).kind
  rwa [hxnode, hspace] at this

theorem settled_oneKind (h : ∀ r ∈ t.nodeAssertions, Recording space r)
    (hk : settledKind ((t.liveAssertions id).map NodeAssertion.kind) = some kind) :
    kind = .artifact ∨ kind = space id := by
  obtain ⟨r, hr, rfl⟩ := List.mem_map.1 (settledKind_mem hk)
  obtain ⟨hr, hnode, -⟩ := t.mem_liveAssertions.1 hr
  rw [← hnode]
  exact (h r hr).kind

variable {settled : NodeKind} {prior : String}

theorem promote_oneKind (hs : settled = .artifact ∨ settled = space id)
    (hk : kind = .artifact ∨ kind = space id) :
    promote settled kind = .artifact ∨ promote settled kind = space id := by
  rcases promote_eq_or settled kind with hp | hp
  · rwa [hp]
  · rwa [hp]

/-- A row of either kind promotes to a code entity where one is asserted. -/
theorem promote_codeEntity (hs : settled = .artifact ∨ settled = space id)
    (hk : NodeKind.codeEntity = .artifact ∨ NodeKind.codeEntity = space id) :
    promote settled .codeEntity = .codeEntity := by
  have hspace := hk.resolve_left (by decide)
  rw [← hspace] at hs
  rcases hs with rfl | rfl <;> decide

theorem record_rows (h : Names space pending t) {rows : List NodeAssertion}
    (hrec : Recorded by_ id kind attrs t.nodeAssertions rows)
    (hkind : kind = .artifact ∨ kind = space id)
    (hkeys : attrs.contains "kind" = attrs.contains "name")
    (hname : attrs.contains "name" = true → kind = .codeEntity) :
    ∀ r ∈ rows, Recording space r := by
  obtain ⟨own, hof, -, hmem, hown⟩ := hrec.own
  intro x hx
  rcases (hmem x).1 hx with rfl | ⟨hx, -⟩
  · have hnode := (NodeAssertion.isOf_iff.1 hof).2
    rcases hown with ⟨hok, hoa, -⟩ | ⟨r, hr, hrof, -, hok, hoa⟩
    · exact ⟨by rwa [hok, hnode], by rwa [hok, hoa], by rwa [hoa]⟩
    · have hrow := h.recorded r hr
      have hrkind := hrow.kind
      rw [(NodeAssertion.isOf_iff.1 hrof).2] at hrkind
      refine ⟨by rw [hok, hnode]; exact promote_oneKind hrkind hkind, fun hn => ?_,
        by rw [hoa, patch_contains, patch_contains, hrow.keys, hkeys]⟩
      rw [hoa, patch_contains, Bool.or_eq_true] at hn
      rw [hok]
      rcases hn with hn | hn
      · rw [hrow.name hn]
        exact promote_of_ne (by decide) kind
      · rw [hname hn] at hkind ⊢
        exact promote_codeEntity hrkind hkind
  · exact h.recorded x hx

/-- What names the upserted row names the one it found, or is the assertion's own. -/
theorem upserted_name (h : Names space pending t)
    (hname : (Tables.upserted (t.restored id kind) kind attrs).attrs.contains "name" = true) :
    attrs.contains "name" = true ∨
      ∃ n, t.nodes[id]? = some n ∧ n.attrs.contains "name" = true ∧
        (Tables.upserted (t.restored id kind) kind attrs).kind = promote n.kind kind := by
  unfold Tables.restored Tables.upserted at *
  cases hn : t.nodes[id]? with
  | some n =>
    rw [hn] at hname
    simp only [Option.some_or, patch_contains, Bool.or_eq_true] at hname
    rcases hname with hname | hname
    · exact .inr ⟨n, rfl, hname, rfl⟩
    · exact .inl hname
  | none =>
    rw [hn] at hname
    cases hr : t.retired[id]? with
    | none =>
      rw [hr] at hname
      exact .inl hname
    | some n =>
      rw [hr] at hname
      simp only [Option.none_or, Option.map_some, patch_contains, h.retiredName id n hr,
        Bool.false_or] at hname
      exact .inl hname

/-- A row upserted with a name is a code entity. -/
theorem upserted_codeEntity (h : Names space pending t) (hkind : kind = .artifact ∨ kind = space id)
    (hcode : attrs.contains "name" = true → kind = .codeEntity)
    (hname : (Tables.upserted (t.restored id kind) kind attrs).attrs.contains "name" = true) :
    (Tables.upserted (t.restored id kind) kind attrs).kind = .codeEntity := by
  rcases h.upserted_name hname with hasserted | ⟨n, hn, hnname, hnk⟩
  · have hcode := hcode hasserted
    subst hcode
    rw [Tables.upserted_kind, Tables.kindOf]
    cases hheld : t.nodes[id]? with
    | none => rfl
    | some n => exact promote_codeEntity (h.nodeKind id n hheld) hkind
  · rw [hnk, (h.nodeName id n hn hnname).1]
    exact promote_of_ne (by decide) kind

theorem ensureNode (h : Names space pending t)
    (hpending : ∀ r, pending r → r.identity = by_.identity ∧ r.generation ≠ by_.generation)
    (hby : by_.Known) (hcurrent : by_.Current t) (hkind : kind = .artifact ∨ kind = space id)
    {attrs : List (String × String)} (hattrs : Asserts kind attrs) :
    Names space pending (t.ensureNode by_ id kind attrs) := by
  obtain ⟨hrec, hgens, hothers, hself⟩ := t.ensureNode_cases by_ id kind h.rows.distinct attrs
  have hrows := h.rows.ensureNode hby hcurrent id kind attrs
  have hretiredNe := fun other (hne : other ≠ id) =>
    t.ensureNode_retired_ne by_ id kind h.rows.distinct attrs hne
  have hretired := t.ensureNode_retired_self by_ id kind h.rows.distinct attrs
  generalize t.ensureNode by_ id kind attrs = ensured at *
  obtain ⟨hkeys, hname⟩ := hattrs.keys
  have hrecorded := h.record_rows hrec hkind hkeys hname
  obtain ⟨own, hof, hgen, hmem, hown⟩ := hrec.own
  obtain ⟨hownId, hownNode⟩ := NodeAssertion.isOf_iff.1 hof
  have hholds : ensured.holds = t.holds := by
    funext r
    simp only [Tables.holds, Tables.currentGeneration, hgens]
  have hownHolds : ensured.holds own = true := hholds ▸ hcurrent.holds hownId hgen
  have hownMem : own ∈ ensured.nodeAssertions := (hmem own).2 (.inl rfl)
  have hownLive : own ∈ ensured.liveAssertions id :=
    ensured.mem_liveAssertions.2 ⟨hownMem, hownNode, hownHolds⟩
  have hownPending : ¬pending own := fun hp => (hpending own hp).2 hgen
  have hkept : ∀ r ∈ t.nodeAssertions, ¬(r.identity = by_.identity ∧ r.node = id) →
      r ∈ ensured.nodeAssertions := by
    intro r hr hne
    refine (hmem r).2 (.inr ⟨hr, ?_⟩)
    rw [← Bool.not_eq_true, NodeAssertion.isOf_iff]
    exact hne
  refine ⟨hrows, ?_, hrecorded, ?_, ?_, ?_⟩
  · intro r hr r' hr' hp hp' hnode
    rcases (hmem r).1 hr with rfl | ⟨hr, -⟩
    · exact absurd hp hownPending
    · rcases (hmem r').1 hr' with rfl | ⟨hr', -⟩
      · exact absurd hp' hownPending
      · exact h.unique r hr r' hr' hp hp' hnode
  · intro other n hn
    by_cases hother : other = id
    · subst hother
      rcases hself with ⟨hself, -⟩ | ⟨r, -, -, -, hself⟩
      · rw [hself] at hn
        cases hn
        rw [Tables.upserted_kind, Tables.kindOf]
        cases hheld : t.nodes[other]? with
        | none => exact hkind
        | some n => exact promote_oneKind (h.nodeKind other n hheld) hkind
      · rw [hself] at hn
        obtain ⟨settled, hsettled, rfl⟩ := Option.map_eq_some_iff.1 hn
        exact settled_oneKind hrecorded hsettled
    · exact h.nodeKind other n (hothers other hother ▸ hn)
  · intro other n hn hnamed
    by_cases hother : other = id
    · subst hother
      rcases hself with ⟨hself, hcur⟩ | ⟨r, hr, hrof, hrgen, hself⟩
      · rw [hself] at hn
        cases hn
        refine ⟨h.upserted_codeEntity hkind hname hnamed, ?_⟩
        rcases h.upserted_name hnamed with hasserted | ⟨n, hn, hnname, -⟩
        · -- the assertion itself names the node
          refine ⟨own, hownMem, hownNode, .inl hownHolds, ?_⟩
          rcases hown with ⟨-, hoa, -⟩ | ⟨r, -, -, -, -, hoa⟩
          · rwa [hoa]
          · rw [hoa, patch_contains, hasserted, Bool.or_true]
        · -- the row that named it before still does
          obtain ⟨-, r, hr, hrnode, hlive, hrname⟩ := h.nodeName other n hn hnname
          by_cases hrid : r.identity = by_.identity
          · have hrof := NodeAssertion.isOf_iff.2 ⟨hrid, hrnode⟩
            refine ⟨own, hownMem, hownNode, .inl hownHolds, ?_⟩
            rcases hown with ⟨-, -, hstale⟩ | ⟨r', hr', hrof', -, -, hoa⟩
            · exact absurd (hcur r hr hrof) (hstale r hr hrof)
            · rw [h.rows.distinct.eq_of_isOf hr' hr hrof' hrof] at hoa
              rw [hoa, patch_contains, hrname, Bool.true_or]
          · exact ⟨r, hkept r hr fun he => hrid he.1, hrnode, by rwa [hholds], hrname⟩
      · rw [hself] at hn
        obtain ⟨settled, hsettled, rfl⟩ := Option.map_eq_some_iff.1 hn
        have hlive : ∃ x ∈ ensured.liveAssertions other, x.attrs.contains "name" = true := by
          by_contra hnone
          have hany : ((ensured.liveAssertions other).map NodeAssertion.attrs).any
              (·.contains "name") = false := by
            rw [← Bool.not_eq_true, List.any_eq_true]
            rintro ⟨a, ha, haname⟩
            obtain ⟨x, hx, rfl⟩ := List.mem_map.1 ha
            exact hnone ⟨x, hx, haname⟩
          simp only [retract_contains, hany, Bool.not_false, Bool.and_true, Bool.and_eq_true,
            Bool.not_eq_true'] at hnamed
          rcases h.upserted_name hnamed.1 with hasserted | ⟨n, hn, hnname, -⟩
          · refine hnone ⟨own, hownLive, ?_⟩
            rcases hown with ⟨-, hoa, -⟩ | ⟨r', hr', hrof', hrgen', -⟩
            · rwa [hoa]
            · rw [h.rows.distinct.eq_of_isOf hr' hr hrof' hrof] at hrgen'
              exact absurd hrgen' hrgen
          · obtain ⟨-, x, hx, hxnode, hlive, hxname⟩ := h.nodeName other n hn hnname
            by_cases hxid : x.identity = by_.identity
            · rw [h.rows.distinct.eq_of_isOf hx hr (NodeAssertion.isOf_iff.2 ⟨hxid, hxnode⟩) hrof,
                hnamed.2] at hxname
              cases hxname
            · rcases hlive with hxlive | hxpend
              · exact hnone ⟨x, ensured.mem_liveAssertions.2
                  ⟨hkept x hx fun he => hxid he.1, hxnode, hholds ▸ hxlive⟩, hxname⟩
              · exact hxid (hpending x hxpend).1
        obtain ⟨x, hx, hxname⟩ := hlive
        rw [settled_codeEntity hrecorded hx hxname, Option.some.injEq] at hsettled
        obtain ⟨hxmem, hxnode, hxholds⟩ := ensured.mem_liveAssertions.1 hx
        exact ⟨hsettled.symm, x, hxmem, hxnode, .inl hxholds, hxname⟩
    · rw [hothers other hother] at hn
      obtain ⟨hk, r, hr, hnode, hlive, hrname⟩ := h.nodeName other n hn hnamed
      refine ⟨hk, r, hkept r hr fun he => hother (hnode.symm.trans he.2), hnode, ?_, hrname⟩
      rwa [hholds]
  · intro other n hn
    by_cases hother : other = id
    · subst hother
      rw [hretired (List.ne_nil_of_mem hownLive)] at hn
      cases hn
    · rw [hretiredNe other hother] at hn
      exact h.retiredName other n hn

theorem settled_name (h : Names space pending t) (hr : r ∈ t.nodeAssertions) (hp : pending r)
    {n : Node} (hn : t.nodes[r.node]? = some n) (hname : (retract n.attrs r.attrs
      ((t.liveAssertions r.node).map NodeAssertion.attrs)).contains "name" = true) :
    ∃ x ∈ t.liveAssertions r.node, x.attrs.contains "name" = true := by
  by_contra hnone
  have hany : ((t.liveAssertions r.node).map NodeAssertion.attrs).any
      (·.contains "name") = false := by
    rw [← Bool.not_eq_true, List.any_eq_true]
    rintro ⟨a, ha, haname⟩
    obtain ⟨x, hx, rfl⟩ := List.mem_map.1 ha
    exact hnone ⟨x, hx, haname⟩
  simp only [retract_contains, hany, Bool.not_false, Bool.and_true, Bool.and_eq_true,
    Bool.not_eq_true'] at hname
  obtain ⟨-, x, hx, hxnode, hlive, hxname⟩ := h.nodeName r.node n hn hname.1
  rcases hlive with hxlive | hxpend
  · exact hnone ⟨x, t.mem_liveAssertions.2 ⟨hx, hxnode, hxlive⟩, hxname⟩
  · rw [h.unique x hx r hr hxpend hp hxnode, hname.2] at hxname
    cases hxname

theorem settleNode (h : Names space pending t) (hr : r ∈ t.nodeAssertions) (hp : pending r)
    (at_ : Int) :
    Names space (fun x => pending x ∧ x.node ≠ r.node) (t.settleNode r.node r.attrs at_) := by
  have hother : ∀ other, other ≠ r.node →
      (t.settleNode r.node r.attrs at_).nodes[other]? = t.nodes[other]? :=
    fun other hne => t.settleNode_ne r.node r.attrs at_ hne
  have hself : ∀ n', (t.settleNode r.node r.attrs at_).nodes[r.node]? = some n' → ∃ kind n,
      settledKind ((t.liveAssertions r.node).map NodeAssertion.kind) = some kind ∧
        t.nodes[r.node]? = some n ∧ n' = { n with
          kind := kind
          attrs := retract n.attrs r.attrs
            ((t.liveAssertions r.node).map NodeAssertion.attrs) } := by
    intro n' hn'
    rw [t.settleNode_self, Tables.settledNode] at hn'
    split at hn'
    case h_1 kind hkind =>
      obtain ⟨n, hn, rfl⟩ := Option.map_eq_some_iff.1 hn'
      exact ⟨kind, n, hkind, hn, rfl⟩
    case h_2 => cases hn'
  refine ⟨h.rows.settleNode _ _ _, ?_, ?_, ?_, ?_, ?_⟩
  · rw [t.settleNode_nodeAssertions]
    exact fun x hx y hy hpx hpy => h.unique x hx y hy hpx.1 hpy.1
  · rw [t.settleNode_nodeAssertions]
    exact h.recorded
  · intro other n' hn'
    by_cases hne : other = r.node
    · subst hne
      obtain ⟨kind, n, hkind, -, rfl⟩ := hself n' hn'
      exact settled_oneKind h.recorded hkind
    · exact h.nodeKind other n' (hother other hne ▸ hn')
  · intro other n' hn' hname
    rw [t.settleNode_nodeAssertions, t.settleNode_holds]
    by_cases hne : other = r.node
    · subst hne
      obtain ⟨kind, n, hkind, hn, rfl⟩ := hself n' hn'
      obtain ⟨x, hx, hxname⟩ := h.settled_name hr hp hn hname
      rw [settled_codeEntity h.recorded hx hxname, Option.some.injEq] at hkind
      obtain ⟨hxmem, hxnode, hxholds⟩ := t.mem_liveAssertions.1 hx
      exact ⟨hkind.symm, x, hxmem, hxnode, .inl hxholds, hxname⟩
    · obtain ⟨hcode, x, hx, hxnode, hlive, hxname⟩ :=
        h.nodeName other n' (hother other hne ▸ hn') hname
      exact ⟨hcode, x, hx, hxnode, hlive.imp_right fun hxp => ⟨hxp, hxnode ▸ hne⟩, hxname⟩
  · intro other n' hn'
    by_cases hne : other = r.node
    · subst hne
      by_cases hlive : t.liveAssertions r.node = []
      · obtain ⟨u, -, hu⟩ := t.settleNode_retired_of_dead r.node r.attrs at_ hlive
        rw [hu] at hn'
        obtain ⟨n, hn, rfl⟩ := Option.map_eq_some_iff.1 hn'
        rw [Tables.stripped_attrs, ← Bool.not_eq_true]
        intro hname
        cases hheld : t.nodes[r.node]? with
        | some held =>
          rw [hheld, Option.some_or, Option.some.injEq] at hn
          subst hn
          obtain ⟨x, hx, -⟩ := h.settled_name hr hp hheld (by rw [hlive]; exact hname)
          rw [hlive] at hx
          cases hx
        | none =>
          rw [hheld, Option.none_or] at hn
          rw [retract_contains, h.retiredName _ n hn, Bool.false_and] at hname
          cases hname
      · obtain ⟨u, hu⟩ := t.settleNode_retired_of_live r.node r.attrs at_ hlive
        rw [hu] at hn'
        obtain ⟨n, hn, rfl⟩ := Option.map_eq_some_iff.1 hn'
        rw [Tables.stripped_attrs]
        exact h.retiredName _ n hn
    · rw [t.settleNode_retired_ne _ _ _ hne] at hn'
      exact h.retiredName other n' hn'

/-- A newer generation opens: what the one it supersedes named is pending. -/
theorem opened (h : Names space (fun _ => False) t) (hid : by_.identity ≠ "")
    (hprior : t.currentGeneration by_.identity = some prior) :
    Names space (by_.Pending (some prior)) (t.opened by_ prior) where
  rows := h.rows.opened by_ prior
  unique := fun r hr r' hr' hp hp' hnode =>
    h.rows.distinct.eq_of_isOf ((t.mem_opened by_).1 hr).1 ((t.mem_opened by_).1 hr').1
      (NodeAssertion.isOf_iff.2 ⟨hp.1, hnode⟩) (NodeAssertion.isOf_iff.2 ⟨hp'.1, rfl⟩)
  recorded := fun r hr => h.recorded r ((t.mem_opened by_).1 hr).1
  nodeKind := h.nodeKind
  nodeName := fun id n hn hname => by
    obtain ⟨hcode, r, hr, hnode, hlive, hrname⟩ := h.nodeName id n hn hname
    have hholds := hlive.resolve_right fun hf => hf
    refine ⟨hcode, r, ?_⟩
    by_cases hrid : r.identity = by_.identity
    · have hgen := t.generation_of_holds_prior by_ hid hprior hrid hholds
      exact ⟨(t.mem_opened by_).2 ⟨hr, fun _ => hgen⟩, hnode, .inr ⟨hrid, congrArg some hgen.symm⟩,
        hrname⟩
    · exact ⟨(t.mem_opened by_).2 ⟨hr, fun he => absurd he hrid⟩, hnode,
        .inl ((t.opened_holds_ne by_ hrid).trans hholds), hrname⟩
  retiredName := h.retiredName

theorem began_keepsNames (h : Names space (fun _ => False) t) (hid : by_.identity ≠ "")
    (hnone : t.currentGeneration by_.identity = none) : KeepsNames t (t.began by_) where
  nodes := fun _ n hn => ⟨n, hn, rfl, fun _ h => h⟩
  retired := fun _ n hn => ⟨n, hn, fun h => h⟩
  nodeAssertions := rfl
  holds := fun _ hr => Tables.began_holds _ _ h.rows hid hnone hr
  known := fun _ => Tables.began_known _ _

theorem settledEdges (h : Names space (fun _ => False) t) (hid : by_.identity ≠ "")
    (hprior : t.currentGeneration by_.identity = some prior) :
    Names space (by_.Pending (some prior)) (t.settledEdges by_ prior) :=
  (h.opened hid hprior).frame (t.settledEdges_sameNodes by_ prior).keepsNames

end Names

/-! ## What a node defines -/

/-- The name a row defines. -/
def nameOf (n : Node) : Option String :=
  if n.kind = .codeEntity ∧ callTarget n.attrs then nodeLeaf n.attrs else none

theorem definitionName_eq (t : Tables) (id : String) :
    t.definitionName id = t.nodes[id]?.bind nameOf := by
  unfold Tables.definitionName nameOf
  cases t.nodes[id]? <;> rfl

theorem nodeLeaf_congr {attrs : Attrs} (h : attrs'["name"]? = attrs["name"]?) :
    nodeLeaf attrs' = nodeLeaf attrs := by
  unfold nodeLeaf
  rw [h]

theorem callTarget_congr {attrs : Attrs} (h : attrs'["kind"]? = attrs["kind"]?) :
    callTarget attrs' = callTarget attrs := by
  unfold callTarget
  rw [h]

theorem defines_congr {attrs : Attrs} (hname : attrs'["name"]? = attrs["name"]?)
    (hkind : attrs'["kind"]? = attrs["kind"]?) : defines attrs' = defines attrs := by
  unfold defines
  rw [nodeLeaf_congr hname, callTarget_congr hkind]

variable {n : Node}

theorem nameOf_congr {n' : Node} (hk : n'.kind = n.kind)
    (hname : n'.attrs["name"]? = n.attrs["name"]?) (hkind : n'.attrs["kind"]? = n.attrs["kind"]?) :
    nameOf n' = nameOf n := by
  unfold nameOf
  rw [hk, nodeLeaf_congr hname, callTarget_congr hkind]

theorem nameOf_of_ne (h : n.kind ≠ .codeEntity) : nameOf n = none :=
  if_neg fun hn => h hn.1

theorem nameOf_unnamed (h : n.attrs.contains "name" = false) : nameOf n = none := by
  have hname : n.attrs["name"]? = none := contains_eq_false_iff.1 h
  unfold nameOf nodeLeaf
  rw [hname]
  exact ite_self _

/-- What retraction leaves of a name it leaves of the kind that goes with it. -/
theorem retract_keys {r : NodeAssertion} {rows : List NodeAssertion} {attrs : Attrs}
    (hr : r.attrs.contains "kind" = r.attrs.contains "name")
    (hrows : ∀ x ∈ rows, x.attrs.contains "kind" = x.attrs.contains "name")
    (hkept : (retract attrs r.attrs (rows.map NodeAssertion.attrs)).contains "name" = true) :
    (retract attrs r.attrs (rows.map NodeAssertion.attrs))["name"]? = attrs["name"]? ∧
      (retract attrs r.attrs (rows.map NodeAssertion.attrs))["kind"]? = attrs["kind"]? := by
  have hany : (rows.map NodeAssertion.attrs).any (·.contains "kind") =
      (rows.map NodeAssertion.attrs).any (·.contains "name") := by
    rw [Bool.eq_iff_iff, List.any_map, List.any_map, List.any_eq_true, List.any_eq_true]
    refine exists_congr fun x => and_congr_right fun hx => ?_
    rw [Function.comp_apply, Function.comp_apply, hrows x hx]
  rw [retract_contains, Bool.and_eq_true] at hkept
  rw [retract_getElem?, retract_getElem?, hr, hany]
  generalize (r.attrs.contains "name" &&
    !(rows.map NodeAssertion.attrs).any (·.contains "name")) = dropped at hkept ⊢
  cases dropped
  · exact ⟨rfl, rfl⟩
  · simp at hkept

namespace Names

variable {space : String → NodeKind} {pending : NodeAssertion → Prop} {t : Tables}
  {by_ : Asserter} {r : NodeAssertion}

theorem settleNode_nameOf (h : Names space pending t) (hr : r ∈ t.nodeAssertions) (hp : pending r)
    {kind : NodeKind} {n : Node}
    (hk : settledKind ((t.liveAssertions r.node).map NodeAssertion.kind) = some kind)
    (hn : t.nodes[r.node]? = some n) :
    let settled : Node := { n with
      kind := kind
      attrs := retract n.attrs r.attrs ((t.liveAssertions r.node).map NodeAssertion.attrs) }
    nameOf settled = nameOf n ∨ nameOf settled = none := by
  dsimp only
  cases hname : (retract n.attrs r.attrs
      ((t.liveAssertions r.node).map NodeAssertion.attrs)).contains "name" with
  | false => exact .inr (nameOf_unnamed hname)
  | true =>
    obtain ⟨x, hx, hxname⟩ := h.settled_name hr hp hn hname
    rw [settled_codeEntity h.recorded hx hxname, Option.some.injEq] at hk
    subst hk
    obtain ⟨hkeep, hkeepKind⟩ := retract_keys (h.recorded r hr).keys
      (fun x hx => (h.recorded x (t.mem_liveAssertions.1 hx).1).keys) hname
    have hnamed : n.attrs.contains "name" = true := by
      rw [Std.ExtTreeMap.contains_eq_isSome_getElem?] at hname ⊢
      rwa [← hkeep]
    exact .inl (nameOf_congr (h.nodeName _ n hn hnamed).1.symm hkeep hkeepKind)

theorem settleNode_definitionName (h : Names space pending t) (hr : r ∈ t.nodeAssertions)
    (hp : pending r) (at_ : Int) :
    (t.settleNode r.node r.attrs at_).definitionName r.node = t.definitionName r.node ∨
      (t.settleNode r.node r.attrs at_).definitionName r.node = none := by
  rw [definitionName_eq, definitionName_eq, t.settleNode_self, Tables.settledNode]
  cases hk : settledKind ((t.liveAssertions r.node).map NodeAssertion.kind) with
  | none => exact .inr rfl
  | some kind =>
    cases hn : t.nodes[r.node]? with
    | none => exact .inl rfl
    | some n => exact h.settleNode_nameOf hr hp hk hn

/-- A bare assertion upserts a row that defines what the node defined. -/
theorem written_definitionName (h : Names space pending t) (id : String) (kind : NodeKind)
    {attrs : List (String × String)} (hplain : Plain attrs) :
    (t.written id kind (.ofList attrs)).definitionName id = t.definitionName id := by
  rw [definitionName_eq, definitionName_eq, t.written_self, Option.bind_some]
  unfold Tables.restored Tables.upserted
  cases hn : t.nodes[id]? with
  | some n =>
    simp only [Option.some_or, Option.bind_some]
    cases hnamed : n.attrs.contains "name" with
    | true =>
      refine nameOf_congr ?_ ?_ ?_
      · have hcode := (h.nodeName id n hn hnamed).1
        rw [hcode]
        show promote .codeEntity kind = .codeEntity
        exact promote_of_ne (by decide) kind
      · rw [patch_getElem?, hplain.name, Option.none_or]
      · rw [patch_getElem?, hplain.kind, Option.none_or]
    | false =>
      rw [nameOf_unnamed hnamed]
      refine nameOf_unnamed ?_
      rw [patch_contains, hnamed, Bool.false_or, contains_eq_false_iff, hplain.name]
  | none =>
    rw [Option.none_or, Option.bind_none]
    cases hr : t.retired[id]? with
    | some n =>
      refine nameOf_unnamed ?_
      simp only [Option.map_some, patch_contains, h.retiredName id n hr, Bool.false_or]
      exact contains_eq_false_iff.2 hplain.name
    | none => exact nameOf_unnamed (contains_eq_false_iff.2 hplain.name)

/-- An asserted node defines what its row upserted does, or nothing. -/
theorem ensureNode_definitionName (h : Names space pending t)
    (hpending : ∀ r, pending r → r.identity = by_.identity ∧ r.generation ≠ by_.generation)
    (hby : by_.Known) (hcurrent : by_.Current t) {id : String} {kind : NodeKind}
    (hkind : kind = .artifact ∨ kind = space id) {attrs : List (String × String)}
    (hattrs : Asserts kind attrs) :
    (t.ensureNode by_ id kind attrs).definitionName id =
        (t.written id kind (.ofList attrs)).definitionName id ∨
      (t.ensureNode by_ id kind attrs).definitionName id = none := by
  have hensured := h.ensureNode hpending hby hcurrent hkind hattrs
  obtain ⟨hrec, -, -, hself⟩ := t.ensureNode_cases by_ id kind h.rows.distinct attrs
  rw [definitionName_eq, definitionName_eq, t.written_self, Option.bind_some]
  rcases hself with ⟨hself, -⟩ | ⟨r, hr, -, -, hself⟩
  · rw [hself]
    exact .inl rfl
  · rw [hself]
    cases hk : settledKind (((t.ensureNode by_ id kind attrs).liveAssertions id).map
        NodeAssertion.kind) with
    | none => exact .inr rfl
    | some settled =>
      rw [hk] at hself
      rw [Option.map_some, Option.bind_some]
      cases hname :
        (retract (Tables.upserted (t.restored id kind) kind (.ofList attrs)).attrs r.attrs
          (((t.ensureNode by_ id kind attrs).liveAssertions id).map
            NodeAssertion.attrs)).contains "name" with
      | false => exact .inr (nameOf_unnamed hname)
      | true =>
        obtain ⟨hkeep, hkeepKind⟩ := retract_keys (h.recorded r hr).keys
          (fun x hx => (hensured.recorded x ((Tables.mem_liveAssertions _).1 hx).1).keys) hname
        refine .inl (nameOf_congr ?_ hkeep hkeepKind)
        -- settled and upserted, a named row is a code entity
        have hnamed : (Tables.upserted (t.restored id kind) kind
            (.ofList attrs)).attrs.contains "name" = true := by
          rw [Std.ExtTreeMap.contains_eq_isSome_getElem?] at hname ⊢
          rwa [← hkeep]
        rw [h.upserted_codeEntity hkind hattrs.keys.2 hnamed]
        exact (hensured.nodeName id _ hself hname).1

end Names

end Rigger.Graph
