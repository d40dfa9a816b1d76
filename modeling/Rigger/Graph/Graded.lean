import Rigger.Graph.Evidence
import Rigger.Graph.Links

/-!
# The tiers of calls and references

A call or reference that no assertion holds is extracted where it landed on a definition of its
file, and where it landed on a placeholder inferred exactly while some other call target bears its
leaf (`Bound`).  `Graded` says so of the tables between an event's steps: `skip` are the definitions
their arm has yet to promote by, `extra` the names it has yet to demote by.
-/

namespace Rigger.Graph

open Lib

/-! ## Names and placeholders -/

/-- A name that the text of no placeholder of a called name spells. -/
def Unsigiled (called : String → Prop) (name : String) : Prop :=
  ∀ leaf, called leaf → name ≠ placeholderSigil ++ leaf

variable {leaf : String}

theorem edgeText_of_leafOf {id : String} (h : leafOf id = some leaf) :
    edgeText id = placeholderSigil ++ leaf := by
  unfold leafOf splitId at h
  unfold edgeText
  cases hcut : splitPathList id.toList with
  | none =>
    rw [hcut] at h
    cases h
  | some cut =>
    rw [hcut, Option.bind_some] at h
    exact stripPrefix_eq_some h

theorem edgeBindsLeaf_iff {called : String → Prop} {to_ name : String}
    (hleaf : leafOf to_ = some leaf) (hcalled : called leaf) (hname : Unsigiled called name) :
    edgeBindsLeaf to_ name = true ↔ leaf = name := by
  unfold edgeBindsLeaf
  rw [edgeText_of_leafOf hleaf, Bool.or_eq_true, beq_iff_eq, beq_iff_eq]
  constructor
  · rintro (h | h)
    · exact absurd h.symm (hname leaf hcalled)
    · have := congrArg String.toList h
      rw [String.toList_append, String.toList_append] at this
      exact String.toList_inj.1 (List.append_cancel_left this)
  · rintro rfl
    exact .inr rfl

namespace Tables

variable (t : Tables) {id name : String}

theorem mem_callTargets {leaf : String} :
    id ∈ t.callTargets leaf ↔ leaf ≠ "" ∧ t.definitionName id = some leaf := by
  unfold callTargets leafDefinitions
  rw [List.mem_filter, Std.ExtTreeMap.mem_keys, Option.any_eq_true, definitionName_eq,
    Option.bind_eq_some_iff]
  simp only [Bool.and_eq_true, beq_iff_eq, Option.all_none, and_true]
  constructor
  · rintro ⟨-, n, hn, ⟨hleaf, hkind⟩, hcall⟩
    refine ⟨?_, n, hn, (if_pos ⟨hkind, hcall⟩).trans hleaf⟩
    simpa using (Option.filter_eq_some_iff.1 hleaf).2
  · rintro ⟨-, n, hn, hname⟩
    unfold nameOf at hname
    split at hname
    case isTrue hcall =>
      refine ⟨?_, n, hn, ⟨hname, hcall.1⟩, hcall.2⟩
      rw [Std.ExtTreeMap.mem_iff_isSome_getElem?, hn]
      rfl
    case isFalse => cases hname

/-- A node other than `to_` is a call target of the name, none of `skip` counted. -/
def Bound (skip : String → Prop) (name to_ : String) : Prop :=
  ∃ id, ¬skip id ∧ id ≠ to_ ∧ t.definitionName id = some name

theorem definitionName_ne_empty (h : t.definitionName id = some name) : name ≠ "" := by
  rw [definitionName_eq, Option.bind_eq_some_iff] at h
  obtain ⟨n, -, hname⟩ := h
  unfold nameOf nodeLeaf at hname
  split at hname
  · simpa using (Option.filter_eq_some_iff.1 hname).2
  · cases hname

theorem any_callTargets {to_ : String} :
    (t.callTargets name).any (· != to_) = true ↔ t.Bound (fun _ => False) name to_ := by
  rw [List.any_eq_true]
  refine exists_congr fun id => ?_
  rw [mem_callTargets, bne_iff_ne]
  constructor
  · rintro ⟨⟨-, hname⟩, hne⟩
    exact ⟨fun hf => hf, hne, hname⟩
  · rintro ⟨-, hne, hname⟩
    exact ⟨⟨t.definitionName_ne_empty hname, hname⟩, hne⟩

variable {t}

end Tables

/-- A node that carries a name is no placeholder's, and its name none's text. -/
def Named (called : String → Prop) (t : Tables) : Prop :=
  ∀ (id : String) (n : Node) (name : String), t.nodes[id]? = some n →
    n.attrs["name"]? = some name → leafOf id = none ∧ Unsigiled called name

namespace Named

variable {called : String → Prop} {space : String → NodeKind} {pending : NodeAssertion → Prop}
    {t t' : Tables}

theorem empty : Named called .empty := by simp [Named, Tables.empty]

theorem frame (h : Named called t) (hs : KeepsNames t t') : Named called t' := by
  intro id n' name hn' hname
  obtain ⟨n, hn, -, hkeep⟩ := hs.nodes id n' hn'
  exact h id n name hn (hkeep name hname)

variable {name : String}

theorem of_definitionName (h : Named called t) {id : String}
    (hname : t.definitionName id = some name) : leafOf id = none ∧ Unsigiled called name := by
  rw [definitionName_eq, Option.bind_eq_some_iff] at hname
  obtain ⟨n, hn, hname⟩ := hname
  exact h id n name hn (nameOf_eq_some hname)

theorem retract_name {attrs retracted : Attrs} {held : List Attrs}
    (h : (retract attrs retracted held)["name"]? = some name) : attrs["name"]? = some name := by
  rw [retract_getElem?] at h
  split at h
  · cases h
  · exact h

theorem ensureNode (h : Named called t) (hnames : Names space pending t)
    (by_ : Asserter) (id : String)
    (kind : NodeKind) (attrs : List (String × String)) (hattrs : ∀ name,
      (Std.ExtTreeMap.ofList attrs : Attrs)["name"]? = some name → leafOf id = none ∧
      Unsigiled called name) :
    Named called (t.ensureNode by_ id kind attrs) := by
  obtain ⟨-, -, hne, -⟩ := t.ensureNode_cases by_ id kind hnames.rows.distinct attrs
  intro other n' name hn' hname
  by_cases hother : other = id
  swap
  · rw [hne other hother] at hn'
    exact h other n' name hn' hname
  subst hother
  obtain ⟨-, hself⟩ := t.ensureNode_self by_ other kind hnames.rows.distinct hn'
  have hrow : (Tables.upserted (t.restored other kind) kind (.ofList attrs)).attrs["name"]? =
      some name := by
    rcases hself with hself | ⟨r, -, hself⟩
    · rwa [← hself]
    · rw [hself] at hname
      exact retract_name hname
  -- the name is the assertion's, or the node's before it
  unfold Tables.restored Tables.upserted at hrow
  cases hheld : t.nodes[other]? with
  | some n =>
    rw [hheld, Option.some_or] at hrow
    dsimp only at hrow
    rw [patch_getElem?] at hrow
    rcases Option.or_eq_some_iff.1 hrow with hasserted | ⟨-, hkept⟩
    · exact hattrs name hasserted
    · exact h other n name hheld hkept
  | none =>
    rw [hheld, Option.none_or] at hrow
    cases hretired : t.retired[other]? with
    | none =>
      rw [hretired] at hrow
      exact hattrs name hrow
    | some n =>
      rw [hretired, Option.map_some] at hrow
      dsimp only at hrow
      rw [patch_getElem?] at hrow
      rcases Option.or_eq_some_iff.1 hrow with hasserted | ⟨-, hkept⟩
      · exact hattrs name hasserted
      · have hunnamed := hnames.retiredName other n hretired
        rw [contains_eq_false_iff, hkept] at hunnamed
        cases hunnamed

theorem settleNode (h : Named called t) (id : String) (retracted : Attrs) (at_ : Int) :
    Named called (t.settleNode id retracted at_) := by
  intro other n' name hn' hname
  by_cases hother : other = id
  swap
  · rw [t.settleNode_ne _ _ _ hother] at hn'
    exact h other n' name hn' hname
  subst hother
  rw [t.settleNode_self, Tables.settledNode] at hn'
  split at hn'
  · obtain ⟨n, hn, rfl⟩ := Option.map_eq_some_iff.1 hn'
    exact h other n name hn (retract_name hname)
  · cases hn'

end Named

/-! ## The invariant -/

/-- The edge names no assertion in either tables, or one in both, while it is live. -/
def KeepsAsserted (t t' : Tables) : Prop :=
  ∀ e ∈ t'.edges, e.isLive = true → t'.unasserted e.id = t.unasserted e.id

theorem KeepsAsserted.of_rows {t t' : Tables} (h : t'.edgeAssertions = t.edgeAssertions) :
    KeepsAsserted t t' := fun e _ _ => by rw [Tables.unasserted, h, Tables.unasserted]

/-- The tier of a live call or reference is its target's. -/
structure Edge.Fits (called : String → Prop) (t : Tables) (skip : String → Prop)
    (extra : String → String → Prop) (e : Edge) : Prop where
  placeholder : ∀ name, leafOf e.to_ = some name → called name ∧ t.unasserted e.id = true ∧
    e.tier ≠ .extracted ∧ (t.Bound skip name e.to_ → e.tier = .inferred) ∧
    (e.tier = .inferred → t.Bound (fun _ => False) name e.to_ ∨ extra name e.to_)
  landed : leafOf e.to_ = none → e.tier = .extracted ∨ t.unasserted e.id = false ∧
    e.tier = .inferred ∧ idRange (splitId e.from_).1 e.to_ = false

structure Graded (called N skip : String → Prop) (extra : String → String → Prop)
    (t : Tables) : Prop where
  links : Links N (fun _ => False) t
  fits : ∀ e ∈ t.edges, e.isLive = true → referring e.rel = true → e.Fits called t skip extra

namespace Graded

variable {called N skip skip' : String → Prop} {extra extra' : String → String → Prop}
  {t t' : Tables} {id entity retired : String}

theorem empty : Graded called N skip extra .empty := ⟨.empty, by simp [Tables.empty]⟩

theorem fits_fades {e e' : Edge} (h : e.Fits called t skip extra) (hfades : e.Fades e')
    (hrows : t'.unasserted e'.id = t.unasserted e'.id)
    (hlow : ∀ name to_, t'.Bound skip' name to_ → t.Bound skip name to_)
    (hhigh : ∀ name to_, t.Bound (fun _ => False) name to_ ∨ extra name to_ →
      t'.Bound (fun _ => False) name to_ ∨ extra' name to_) : e'.Fits called t' skip' extra' where
  placeholder := by
    intro name hleaf
    rw [hrows, hfades.id, hfades.tier, hfades.to_]
    rw [hfades.to_] at hleaf
    obtain ⟨hcalled, hun, hne, hbound, hinferred⟩ := h.placeholder name hleaf
    exact ⟨hcalled, hun, hne, fun hb => hbound (hlow name e.to_ hb), fun ht =>
      hhigh _ _ (hinferred ht)⟩
  landed := by
    intro hleaf
    rw [hrows, hfades.id, hfades.tier, hfades.to_, hfades.from_]
    rw [hfades.to_] at hleaf
    exact h.landed hleaf

/-- Edges that fade keep their grade and others fit, where what binds their names stays. -/
theorem step (h : Graded called N skip extra t) (hlinks : Links N (fun _ => False) t')
    (hlow : ∀ name to_, t'.Bound skip' name to_ → t.Bound skip name to_)
    (hhigh : ∀ name to_, t.Bound (fun _ => False) name to_ ∨ extra name to_ →
      t'.Bound (fun _ => False) name to_ ∨ extra' name to_)
    (hedges : ∀ e' ∈ t'.edges, e'.isLive = true → referring e'.rel = true →
      (∃ e ∈ t.edges, e.Fades e' ∧ t'.unasserted e'.id = t.unasserted e'.id) ∨
        e'.Fits called t' skip' extra') : Graded called N skip' extra' t' := by
  refine ⟨hlinks, fun e' he' hl hrel => ?_⟩
  rcases hedges e' he' hl hrel with ⟨e, he, hfades, hrows⟩ | hfits
  · exact fits_fades (h.fits e he (hfades.live hl) (hfades.rel ▸ hrel)) hfades hrows hlow hhigh
  · exact hfits

theorem fade (h : Graded called N skip extra t) (hlinks : Links N (fun _ => False) t')
    (hf : Faded t t') (hrows : KeepsAsserted t t')
    (hlow : ∀ name to_, t'.Bound skip' name to_ → t.Bound skip name to_)
    (hhigh : ∀ name to_, t.Bound (fun _ => False) name to_ ∨ extra name to_ →
      t'.Bound (fun _ => False) name to_ ∨ extra' name to_) : Graded called N skip' extra' t' :=
  h.step hlinks hlow hhigh fun e' he' hl _ => by
    obtain ⟨e, he, hfades⟩ := hf.mem he'
    exact .inl ⟨e, he, hfades, hrows e' he' hl⟩

theorem mono (h : Graded called N skip extra t)
    (hlow : ∀ name to_, t.Bound skip' name to_ → t.Bound skip name to_)
    (hhigh : ∀ name to_, extra name to_ → t.Bound (fun _ => False) name to_ ∨ extra' name to_) :
    Graded called N skip' extra' t :=
  h.fade h.links (.refl t) (.of_rows rfl) hlow fun name to_ hb => hb.elim .inl (hhigh name to_)

theorem bound_congr (hnames : ∀ id, t'.definitionName id = t.definitionName id)
    (name to_ : String) :
    t'.Bound skip name to_ ↔ t.Bound skip name to_ := by
  unfold Tables.Bound
  simp only [hnames]

/-- Edges that fade, every node defining what it did. -/
theorem fadeSame (h : Graded called N skip extra t) (hlinks : Links N (fun _ => False) t')
    (hf : Faded t t') (hrows : KeepsAsserted t t')
    (hnames : ∀ id, t'.definitionName id = t.definitionName id) : Graded called N skip extra t' :=
  h.fade hlinks hf hrows (fun name to_ => (bound_congr hnames name to_).1) fun name to_ hb =>
    hb.imp_left (bound_congr hnames name to_).2

theorem sameEdges (h : Graded called N skip extra t) (hs : SameEdges t t')
    (hgens : t'.generations = t.generations)
    (hnodes : ∀ id, t'.nodes.contains id = t.nodes.contains id)
    (hnames : ∀ id, t'.definitionName id = t.definitionName id) : Graded called N skip extra t' :=
  h.fadeSame (h.links.sameEdges hs hgens hnodes) (.of_edges hs.edges) (.of_rows hs.edgeAssertions)
    hnames

theorem retireEdges (h : Graded called N skip extra t) (p : Edge → Bool) (at_ : Int) :
    Graded called N skip extra (t.retireEdges p at_) :=
  h.fadeSame (h.links.fade (t.retireEdges_faded p at_) rfl rfl rfl (fun _ hd => hd) (fun _ => rfl)
    fun _ hl => .inl hl) (t.retireEdges_faded p at_) (.of_rows rfl) fun _ => rfl

/-! ### Promoting and demoting -/

/-- A demoted edge is a placeholder's, none that landed being both inferred and unasserted. -/
theorem leafOf_of_inferred (h : Graded called N skip extra t) {e : Edge} (he : e ∈ t.edges)
    (hl : e.isLive = true) (hrel : referring e.rel = true) (htier : e.tier = .inferred)
    (hun : t.unasserted e.id = true) : (leafOf e.to_).isSome = true := by
  cases hleaf : leafOf e.to_ with
  | some leaf => rfl
  | none =>
    rcases (h.fits e he hl hrel).landed hleaf with ht | ⟨hnot, -⟩
    · rw [htier] at ht
      cases ht
    · rw [hun] at hnot
      cases hnot

/-- Demoting what a definition that is no more bound leaves every name bound by what still defines
it. -/
theorem definitionRetired (h : Graded called N skip
      (fun name to_ => extra name to_ ∨ name = retired ∧ to_ ≠ id) t)
      (hname : Unsigiled called retired) :
    Graded called N skip extra (t.definitionRetired id retired) := by
  let demoted : Edge → Bool := fun e =>
    (e.rel == .references || e.rel == .calls) && e.tier == .inferred && e.isLive &&
      edgeBindsLeaf e.to_ retired && t.unasserted e.id && !(t.callTargets retired).any (· != e.to_)
  have hdemoted : ∀ {e}, demoted e = true → e.isLive = true ∧ referring e.rel = true ∧
      e.tier = .inferred ∧ edgeBindsLeaf e.to_ retired = true ∧ t.unasserted e.id = true ∧
      ¬t.Bound (fun _ => False) retired e.to_ := by
    intro e he
    simp only [demoted, Bool.and_eq_true, Bool.not_eq_true', beq_iff_eq] at he
    obtain ⟨⟨⟨⟨⟨hrel, htier⟩, hl⟩, hbinds⟩, hun⟩, hnone⟩ := he
    refine ⟨hl, ?_, htier, hbinds, hun, ?_⟩
    · rw [referring, Bool.or_comm]
      exact hrel
    · rw [← t.any_callTargets, hnone]
      exact Bool.false_ne_true
  have hmem : ∀ {e'}, e' ∈ (t.definitionRetired id retired).edges → ∃ e ∈ t.edges,
      e' = if demoted e then { e with tier := .ambiguous } else e := by
    intro e' he'
    obtain ⟨e, he, rfl⟩ := List.mem_map.1 he'
    exact ⟨e, he, rfl⟩
  have hretiered := h.links.retier demoted .ambiguous fun e he hd => by
    obtain ⟨hl, hrel, htier, -, hun, -⟩ := hdemoted hd
    exact ⟨hl, hrel, h.leafOf_of_inferred he hl hrel htier hun⟩
  refine ⟨hretiered.sameEdges ⟨rfl, rfl, rfl, rfl, rfl⟩ rfl fun _ => rfl, fun e' he' hl hrel => ?_⟩
  obtain ⟨e, he, rfl⟩ := hmem he'
  refine ⟨fun name hleaf => ?_, fun hleaf => ?_⟩
  · by_cases hd : demoted e = true
    · rw [if_pos hd] at hleaf ⊢
      obtain ⟨hl, hrel, -, hbinds, hun, hnot⟩ := hdemoted hd
      obtain ⟨hcalled, -⟩ := (h.fits e he hl hrel).placeholder name hleaf
      have hleafname := (edgeBindsLeaf_iff hleaf hcalled hname).1 hbinds
      subst hleafname
      refine ⟨hcalled, hun, by simp, ?_, by simp⟩
      rintro ⟨other, -, hne, hdef⟩
      exact absurd ⟨other, fun hf => hf, hne, hdef⟩ hnot
    · rw [if_neg hd] at hl hrel hleaf ⊢
      obtain ⟨hcalled, hun, hne, hbound, hinferred⟩ :=
        (h.fits e he hl hrel).placeholder name hleaf
      refine ⟨hcalled, hun, hne, hbound, fun htier => ?_⟩
      rcases hinferred htier with hb | hx | ⟨rfl, -⟩
      · exact .inl hb
      · exact .inr hx
      · -- inferred still, though it binds the name: another bears it
        refine .inl (Classical.byContradiction fun hnot => hd ?_)
        have hnot : ¬t.Bound (fun _ => False) name e.to_ := hnot
        rw [← t.any_callTargets, Bool.not_eq_true] at hnot
        have hrel' : (e.rel == .references || e.rel == .calls) = true := by
          rw [Bool.or_comm]
          exact hrel
        simp [demoted, hrel', htier, hl, (edgeBindsLeaf_iff hleaf hcalled hname).2 rfl, hun, hnot]
  · by_cases hd : demoted e = true
    · rw [if_pos hd] at hleaf
      obtain ⟨hl, hrel, htier, -, hun, -⟩ := hdemoted hd
      have := h.leafOf_of_inferred he hl hrel htier hun
      rw [show leafOf e.to_ = none from hleaf] at this
      cases this
    · rw [if_neg hd] at hl hrel hleaf ⊢
      exact (h.fits e he hl hrel).landed hleaf

theorem undoWhatResolvedAgainst {id : String} {defined : Option String}
    (h : Graded called N skip (fun name to_ => extra name to_ ∨ defined = some name ∧ to_ ≠ id) t)
    (hname : ∀ name, defined = some name → Unsigiled called name) :
    Graded called N skip extra (t.undoWhatResolvedAgainst id defined) := by
  unfold Tables.undoWhatResolvedAgainst
  cases defined with
  | none =>
    refine h.mono (fun _ _ hb => hb) fun name to_ hx => ?_
    rcases hx with hx | ⟨hx, -⟩
    · exact .inr hx
    · cases hx
  | some old =>
    dsimp only
    split
    case isTrue hstill =>
      refine h.mono (fun _ _ hb => hb) fun name to_ hx => ?_
      rcases hx with hx | ⟨hx, hne⟩
      · exact .inr hx
      · cases hx
        exact .inl ⟨id, fun hf => hf, Ne.symm hne, hstill⟩
    case isFalse =>
      refine (h.mono (fun _ _ hb => hb) fun name to_ hx => .inr ?_).definitionRetired
        (hname old rfl)
      exact hx.imp_right fun hx => ⟨(Option.some.inj hx.1).symm, hx.2⟩

theorem promoteEdges (h : Graded called N (· = entity) extra t) {name : String}
    (hname : ∀ defined, t.definitionName entity = some defined → defined = name)
    (hdefined : t.definitionName entity = some name) (hsigil : Unsigiled called name) :
    Graded called N (fun _ => False) extra (t.promoteEdges entity name) := by
  let promoted : Edge → Bool := fun e =>
    (e.rel == .references || e.rel == .calls) && e.tier == .ambiguous && e.isLive &&
      e.to_ != entity && edgeBindsLeaf e.to_ name
  have hpromoted : ∀ {e}, promoted e = true → e.isLive = true ∧ referring e.rel = true ∧
      e.tier = .ambiguous ∧ e.to_ ≠ entity ∧ edgeBindsLeaf e.to_ name = true := by
    intro e he
    simp only [promoted, Bool.and_eq_true, beq_iff_eq, bne_iff_ne] at he
    obtain ⟨⟨⟨⟨hrel, htier⟩, hl⟩, hne⟩, hbinds⟩ := he
    exact ⟨hl, by rw [referring, Bool.or_comm]; exact hrel, htier, hne, hbinds⟩
  have hleafOf : ∀ {e}, e ∈ t.edges → promoted e = true → (leafOf e.to_).isSome = true := by
    intro e he hp
    obtain ⟨hl, hrel, htier, -, -⟩ := hpromoted hp
    cases hleaf : leafOf e.to_ with
    | some leaf => rfl
    | none =>
      rcases (h.fits e he hl hrel).landed hleaf with ht | ⟨-, ht, -⟩ <;>
      · rw [htier] at ht
        cases ht
  have hmem : ∀ {e'}, e' ∈ (t.promoteEdges entity name).edges → ∃ e ∈ t.edges,
      e' = if promoted e then { e with tier := .inferred } else e := by
    intro e' he'
    obtain ⟨e, he, rfl⟩ := List.mem_map.1 he'
    exact ⟨e, he, rfl⟩
  refine ⟨h.links.retier promoted .inferred fun e he hp =>
    ⟨(hpromoted hp).1, (hpromoted hp).2.1, hleafOf he hp⟩, fun e' he' hl hrel => ?_⟩
  obtain ⟨e, he, rfl⟩ := hmem he'
  refine ⟨fun leaf hleaf => ?_, fun hleaf => ?_⟩
  · by_cases hp : promoted e = true
    · rw [if_pos hp] at hleaf ⊢
      obtain ⟨hl, hrel, -, hne, hbinds⟩ := hpromoted hp
      obtain ⟨hcalled, hun, -⟩ := (h.fits e he hl hrel).placeholder leaf hleaf
      obtain rfl := (edgeBindsLeaf_iff hleaf hcalled hsigil).1 hbinds
      refine ⟨hcalled, hun, by simp, fun _ => rfl, fun _ => ?_⟩
      exact .inl ⟨entity, fun hf => hf, Ne.symm hne, hdefined⟩
    · rw [if_neg hp] at hl hrel hleaf ⊢
      obtain ⟨hcalled, hun, hne, hbound, hinferred⟩ :=
        (h.fits e he hl hrel).placeholder leaf hleaf
      refine ⟨hcalled, hun, hne, ?_, hinferred⟩
      rintro ⟨id, -, hid, hdef⟩
      have hdef : t.definitionName id = some leaf := hdef
      by_cases hentity : id = entity
      · -- bound by the new definition alone, it would be promoted
        subst hentity
        have hleafname := hname leaf hdef
        subst hleafname
        by_contra htier
        refine hp ?_
        have hambiguous : e.tier = .ambiguous := by
          cases ht : e.tier with
          | extracted => exact absurd ht hne
          | inferred => exact absurd ht htier
          | ambiguous => rfl
        have hrel' : (e.rel == .references || e.rel == .calls) = true := by
          rw [Bool.or_comm]
          exact hrel
        simp [promoted, hrel', hambiguous, hl, Ne.symm hid,
          (edgeBindsLeaf_iff hleaf hcalled hsigil).2 rfl]
      · exact hbound ⟨id, hentity, hid, hdef⟩
  · by_cases hp : promoted e = true
    · rw [if_pos hp] at hleaf
      have := hleafOf he hp
      rw [show leafOf e.to_ = none from hleaf] at this
      cases this
    · rw [if_neg hp] at hl hrel hleaf ⊢
      exact (h.fits e he hl hrel).landed hleaf

/-! ### Nodes -/

theorem settleNode (h : Graded called N skip extra t) {id : String} (retracted : Attrs) (at_ : Int)
    (hname : ∀ name, t.definitionName id = some name → Unsigiled called name)
    (hsettled : (t.settleNode id retracted at_).definitionName id = t.definitionName id ∨
      (t.settleNode id retracted at_).definitionName id = none) :
    Graded called N skip extra (t.settleNode id retracted at_) := by
  have howed := t.oweRelabel_sameEdges (t.communitiesOf id false)
  have hrelinks : Links N (fun _ => False) (t.oweRelabelOf id false) :=
    h.links.sameEdges howed rfl fun _ => rfl
  let row := (t.oweRelabelOf id false).settleRow id retracted at_
  have hrow : t.settleNode id retracted at_ =
    row.undoWhatResolvedAgainst id (t.definitionName id) := rfl
  have hnames : ∀ other, row.definitionName other =
      (t.settleNode id retracted at_).definitionName other := fun other => by
    rw [hrow, Tables.definitionName_congr (row.undoWhatResolvedAgainst_nodes _ _)]
  have hne : ∀ other, other ≠ id → row.definitionName other = t.definitionName other := by
    intro other hother
    rw [hnames, definitionName_eq, definitionName_eq, t.settleNode_ne _ _ _ hother]
  have hfaded : Faded t row := by
    show Faded t ((t.oweRelabelOf id false).settleRow id retracted at_)
    unfold Tables.settleRow
    dsimp only
    split
    · exact .of_edges rfl
    · exact t.retireEdges_faded (Tables.attachment id) at_
  have hrows : row.edgeAssertions = t.edgeAssertions := by
    show ((t.oweRelabelOf id false).settleRow id retracted at_).edgeAssertions = _
    unfold Tables.settleRow
    dsimp only
    split <;> rfl
  rw [← hnames] at hsettled
  rw [hrow]
  refine Graded.undoWhatResolvedAgainst (h.fade (hrelinks.settleRow id retracted at_) hfaded
    (.of_rows hrows) ?_ ?_) hname
  · rintro name to_ ⟨other, hnot, hto, hdef⟩
    refine ⟨other, hnot, hto, ?_⟩
    have hdef : row.definitionName other = some name := hdef
    by_cases hother : other = id
    · subst hother
      rcases hsettled with heq | hnone
      · rw [← heq, hdef]
      · rw [hnone] at hdef
        cases hdef
    · rw [← hne other hother, hdef]
  · rintro name to_ (⟨other, hnot, hto, hdef⟩ | hx)
    · by_cases hother : other = id
      · subst hother
        exact .inr (.inr ⟨hdef, Ne.symm hto⟩)
      · exact .inl ⟨other, hnot, hto, (hne other hother).trans hdef⟩
    · exact .inr (.inl hx)

theorem written (h : Graded called N skip extra t) (id : String) (kind : NodeKind) (attrs : Attrs)
    (hlow : ∀ name to_, (t.written id kind attrs).Bound skip' name to_ → t.Bound skip name to_)
    (hhigh : ∀ name to_, t.Bound (fun _ => False) name to_ ∨ extra name to_ →
      (t.written id kind attrs).Bound (fun _ => False) name to_ ∨ extra' name to_) :
    Graded called N skip' extra' (t.written id kind attrs) := by
  refine h.step (h.links.written id kind attrs) hlow hhigh fun e' he' hl hrel => .inl ?_
  have hmem : ∃ e ∈ t.edges, e' = if (t.detached.filter (·.node == id)).any (·.edge == e.id) then
      { e with validTo := none } else e := by
    obtain ⟨e, he, heq⟩ := List.mem_map.1 he'
    exact ⟨e, he, heq.symm⟩
  obtain ⟨e, he, rfl⟩ := hmem
  refine ⟨e, he, ?_, rfl⟩
  by_cases hrev : (t.detached.filter (·.node == id)).any (·.edge == e.id) = true
  · rw [if_pos hrev] at hrel
    obtain ⟨d, hd, hedge⟩ := List.any_eq_true.1 hrev
    obtain ⟨-, hattach, -⟩ := (h.links.detached d (List.mem_filter.1 hd).1).2 e he
      (beq_iff_eq.1 hedge).symm
    have hrel : referring e.rel = true := hrel
    revert hattach hrel
    cases e.rel <;> simp [attaching, referring]
  · rw [if_neg hrev]
    exact .refl e

variable {by_ : Asserter} {kind : NodeKind}

/-- Recording an assertion settles the node where it replaces an older one. -/
theorem recordAssertion (h : Graded called N skip extra t) {id : String} {attrs : Attrs}
    (hrows : DistinctRows t.nodeAssertions)
    (hname : ∀ name, t.definitionName id = some name → Unsigiled called name)
    (hsettled : (t.recordAssertion by_ id kind attrs).definitionName id = t.definitionName id ∨
      (t.recordAssertion by_ id kind attrs).definitionName id = none) :
    Graded called N skip extra (t.recordAssertion by_ id kind attrs) := by
  rcases t.recordAssertion_cases by_ id kind hrows attrs with
    ⟨rows, -, heq, -⟩ | ⟨r, -, -, -, -, heq⟩
  · rw [heq]
    exact h.sameEdges ⟨rfl, rfl, rfl, rfl, rfl⟩ rfl (fun _ => rfl) fun _ => rfl
  · rw [heq] at hsettled ⊢
    have hreplaced : Graded called N skip extra (t.replaceRow by_ id kind attrs) :=
      h.sameEdges ⟨rfl, rfl, rfl, rfl, rfl⟩ rfl (fun _ => rfl) fun _ => rfl
    exact hreplaced.settleNode r.attrs by_.at_ hname hsettled

theorem ensureNode {id : String} {attrs : List (String × String)}
    (h : Graded called N skip extra (t.written id kind (.ofList attrs)))
    (hrows : DistinctRows t.nodeAssertions)
    (hname : ∀ name, (t.written id kind (.ofList attrs)).definitionName id = some name →
      Unsigiled called name) (hsettled : (t.ensureNode by_ id kind attrs).definitionName id =
        (t.written id kind (.ofList attrs)).definitionName id ∨
      (t.ensureNode by_ id kind attrs).definitionName id = none) :
    Graded called N skip extra (t.ensureNode by_ id kind attrs) := by
  rw [Tables.ensureNode_eq] at hsettled ⊢
  exact h.recordAssertion hrows hname hsettled

/-! ### Edges -/

theorem bound_of_sameNodes (hs : SameNodes t t') (name to_ : String) :
    t'.Bound skip name to_ ↔ t.Bound skip name to_ :=
  bound_congr (Tables.definitionName_congr hs.nodes) name to_

theorem stepSame (h : Graded called N skip extra t) (hlinks : Links N (fun _ => False) t')
    (hs : SameNodes t t') (hedges : ∀ e' ∈ t'.edges, e'.isLive = true → referring e'.rel = true →
      (∃ e ∈ t.edges, e.Fades e' ∧ t'.unasserted e'.id = t.unasserted e'.id) ∨
        e'.Fits called t' skip extra) : Graded called N skip extra t' :=
  h.step hlinks (fun name to_ => (bound_of_sameNodes hs name to_).1)
    (fun name to_ hb => hb.imp_left (bound_of_sameNodes hs name to_).2) hedges

theorem addEdge (h : Graded called N skip extra t) (src dst : String) (rel : Rel) (at_ : Int)
    (source : Nat) (tier : Tier) (hattach : attaching rel = true → N src ∧
    t.nodes.contains src = true)
    (hexact : referring rel = true → (leafOf dst).isSome = true → ∀ e ∈ t.edges,
      e.isLive = true → e.from_ = src → e.to_ = dst → e.rel = rel → e.tier = tier)
    (hplace : referring rel = true → ∀ name, leafOf dst = some name → called name ∧
      tier ≠ .extracted ∧
      (t.Bound skip name dst → tier = .inferred) ∧
      (tier = .inferred → t.Bound (fun _ => False) name dst ∨ extra name dst))
    (hland : referring rel = true → leafOf dst = none → tier = .extracted) :
    Graded called N skip extra (t.addEdge src dst rel at_ source tier).1 := by
  have hnodes := t.addEdge_sameNodes src dst rel at_ source tier
  refine h.stepSame (h.links.addEdge src dst rel at_ source tier hattach hexact) hnodes ?_
  have hbound : ∀ (skip : String → Prop) (name : String),
      (t.addEdge src dst rel at_ source tier).1.Bound skip name dst ↔ t.Bound skip name dst :=
    fun _ name => bound_of_sameNodes hnodes name dst
  unfold Tables.addEdge at hbound ⊢
  split at hbound
  · intro e' he' _ _
    obtain ⟨e, he, hfades⟩ := (t.updateEdges_faded (Edge.standing src dst rel tier)
      (f := (·.reassert at_ source)) fun _ => ⟨⟨rfl, rfl, rfl, rfl, rfl⟩, fun h => h⟩).mem he'
    exact .inl ⟨e, he, hfades, rfl⟩
  · intro e' he' _ hrel
    have hends := Tables.oweRelabelOfEnds_sameEdges
      (t.insertEdge src dst rel at_ none source tier) src dst rel
      ((t.insertEdge src dst rel at_ none source tier).declaration rel dst)
    have hrows : ∀ edge, Tables.unasserted
        ((t.insertEdge src dst rel at_ none source tier).oweRelabelOfEnds src dst rel
          ((t.insertEdge src dst rel at_ none source tier).declaration rel dst)) edge =
        t.unasserted edge := fun edge => by
      unfold Tables.unasserted
      rw [hends.edgeAssertions]
      rfl
    dsimp only at he' hbound ⊢
    rw [hends.edges] at he'
    rcases List.mem_append.1 he' with he | he
    · exact .inl ⟨e', he, .refl e', hrows e'.id⟩
    · rw [List.mem_singleton.1 he] at hrel ⊢
      refine .inr ⟨fun name hleaf => ?_, fun hleaf => .inl (hland hrel hleaf)⟩
      obtain ⟨hcalled, hne, hlow, hhigh⟩ := hplace hrel name hleaf
      refine ⟨hcalled, ?_, hne, fun hb => hlow ((hbound _ name).1 hb), fun ht =>
        (hhigh ht).imp_left (hbound _ name).2⟩
      rw [hrows, ← Bool.not_eq_false, Tables.unasserted_eq_false]
      rintro ⟨a, ha, hedge⟩
      have := h.links.rowSeq a ha
      have hedge : a.edge = t.edgeSeq + 1 := hedge
      omega

theorem assertLink (h : Graded called N skip extra t) (by_ : Asserter)
    (src dst : String) (rel : Rel)
    (at_ : Int) (source : Nat) (tier : Tier) (hattach : attaching rel = false)
    (hland : referring rel = true → leafOf dst = none ∧ (tier = .extracted ∨
      tier = .inferred ∧ idRange (splitId src).1 dst = false)) :
    Graded called N skip extra (t.assertLink by_ src dst rel at_ source tier) := by
  have hlinks := h.links.assertLink by_ src dst rel at_ source tier hattach
    fun hr => (hland hr).1
  refine h.stepSame hlinks (t.assertLink_sameNodes by_ src dst rel at_ source tier) ?_
  obtain ⟨-, -, hkey⟩ := h.links.linkedEdge by_ src dst rel at_ source tier hattach
    fun hr => (hland hr).1
  have hothers := t.linkedEdge_ne by_ src dst rel at_ source tier
  have hlinkedRows : (t.linkedEdge by_ src dst rel at_ source tier).1.edgeAssertions =
      t.edgeAssertions := by
    unfold Tables.linkedEdge
    split
    · rfl
    · unfold Tables.addEdge
      split
      · rfl
      · exact (Tables.oweRelabelOfEnds_sameEdges _ _ _ _ _).edgeAssertions
  unfold Tables.assertLink
  dsimp only
  generalize t.linkedEdge by_ src dst rel at_ source tier = linked at *
  obtain ⟨hfaded, -, hrows, -⟩ :=
    (linked.1.recordEdgeAssertion by_ linked.2 at_ source).settleEdge_cases linked.2 at_
  obtain ⟨hself, hne⟩ := linked.1.recordEdgeAssertion_unasserted by_ linked.2 at_ source
  have hun : ∀ edge, ((linked.1.recordEdgeAssertion by_ linked.2 at_ source).settleEdge
      linked.2 at_).unasserted edge =
        (linked.1.recordEdgeAssertion by_ linked.2 at_ source).unasserted edge := fun edge => by
    rw [Tables.unasserted, hrows, Tables.unasserted]
  intro e' he' hl hrel
  obtain ⟨e, he, hfades⟩ := hfaded.mem he'
  have he : e ∈ linked.1.edges := by
    revert he
    unfold Tables.recordEdgeAssertion
    split <;> exact fun he => he
  rw [hun]
  by_cases hid : e.id = linked.2
  · have hkeyed := hkey e he hid
    simp only [Edge.keyed, Bool.and_eq_true, beq_iff_eq] at hkeyed
    obtain ⟨⟨⟨hfrom, hto⟩, herel⟩, htier⟩ := hkeyed
    rw [hfades.rel, herel] at hrel
    obtain ⟨hleaf, htiers⟩ := hland hrel
    refine .inr ⟨fun name hname => ?_, fun _ => ?_⟩
    · rw [hfades.to_, hto, hleaf] at hname
      cases hname
    · rw [hun, hfades.tier, htier, hfades.id, hid, hfades.from_, hfrom, hfades.to_, hto]
      exact htiers.imp_right fun h => ⟨hself, h.1, h.2⟩
  · obtain ⟨e₀, he₀, hfades₀⟩ := hothers e he hid
    refine .inl ⟨e₀, he₀, hfades₀.trans hfades, ?_⟩
    rw [hfades.id, hne _ hid, Tables.unasserted, hlinkedRows, Tables.unasserted]

theorem attach (h : Graded called N skip extra t) (node dst : String) (rel : Rel) (at_ : Int)
    (source : Nat) (hrel : attaching rel = true) (hnode : N node) :
    Graded called N skip extra (t.attach node dst rel at_ source) := by
  refine h.stepSame (h.links.attach node dst rel at_ source hrel hnode)
    (t.attach_sameNodes node dst rel at_ source) ?_
  have hnot : ¬referring rel = true := by
    revert hrel
    cases rel <;> simp [attaching, referring]
  intro e' he' hl hrefers
  unfold Tables.attach at he' ⊢
  split at he'
  · rw [if_pos ‹_›]
    unfold Tables.addEdge at he' ⊢
    split at he'
    · obtain ⟨e, he, hfades⟩ := (t.updateEdges_faded (Edge.standing node dst rel .inferred)
        (f := (·.reassert at_ source)) fun _ => ⟨⟨rfl, rfl, rfl, rfl, rfl⟩, fun h => h⟩).mem he'
      exact .inl ⟨e, he, hfades, rfl⟩
    · have hends := Tables.oweRelabelOfEnds_sameEdges
        (t.insertEdge node dst rel at_ none source .inferred) node dst rel
        ((t.insertEdge node dst rel at_ none source .inferred).declaration rel dst)
      rw [hends.edges] at he'
      rcases List.mem_append.1 he' with he | he
      · refine .inl ⟨e', he, .refl e', ?_⟩
        rw [Tables.unasserted, hends.edgeAssertions]
        rfl
      · rw [List.mem_singleton.1 he] at hrefers
        exact absurd hrefers hnot
  · rw [if_neg ‹_›]
    split at he'
    · rw [if_pos ‹_›]
      obtain ⟨e, he, hfades⟩ := (t.updateEdges_faded (t.detachedHere node dst rel)
        (f := (·.reassert at_ source)) fun _ => ⟨⟨rfl, rfl, rfl, rfl, rfl⟩, fun h => h⟩).mem he'
      exact .inl ⟨e, he, hfades, rfl⟩
    · rw [if_neg ‹_›]
      rcases List.mem_append.1 he' with he | he
      · exact .inl ⟨e', he, .refl e', rfl⟩
      · rw [List.mem_singleton.1 he] at hl
        cases hl

/-! ### Rows dropped -/

/-- Rows dropped leave an edge they leave live a row: the one that holds it, or none was. -/
theorem dropped (h : Graded called N skip extra t) (hlinks : Links N (fun _ => False) t')
    (hf : Faded t t') (hs : ∀ id, t'.definitionName id = t.definitionName id)
    (hsub : ∀ a ∈ t'.edgeAssertions, a ∈ t.edgeAssertions)
    (hkeep : ∀ e ∈ t'.edges, e.isLive = true → ∀ w ∈ t.edgeAssertions, w.edge = e.id →
      (w.identity = "" ∨ t.currentGeneration w.identity = some w.generation) →
      t'.unasserted e.id = false) : Graded called N skip extra t' := by
  refine h.fadeSame hlinks hf (fun e' he' hl => ?_) hs
  obtain ⟨e, he, hfades⟩ := hf.mem he'
  rw [Bool.eq_iff_iff, ← not_iff_not, Bool.not_eq_true, Bool.not_eq_true,
    Tables.unasserted_eq_false, Tables.unasserted_eq_false]
  constructor
  · rintro ⟨a, ha, hedge⟩
    exact ⟨a, hsub a ha, hedge⟩
  · rintro ⟨a, ha, hedge⟩
    obtain ⟨w, hw, hwedge, hholds⟩ := h.links.holder he (hfades.live hl) (fun hf => hf) ha
      (hedge.trans hfades.id)
    exact (Tables.unasserted_eq_false _).1
      (hkeep e' he' hl w hw (hwedge.trans hfades.id.symm) hholds)

theorem settledEdges (h : Graded called N skip extra t) {prior : String} (hid : by_.identity ≠ "")
    (hprior : t.currentGeneration by_.identity = some prior) :
    Graded called N skip extra (t.settledEdges by_ prior) := by
  have hrows : (t.settledEdges by_ prior).edgeAssertions = (t.opened by_ prior).edgeAssertions :=
    Tables.settleEdges_rows _ _ _
  refine h.dropped (h.links.settledEdges hid hprior) ((Faded.of_edges rfl).trans
    ((t.opened by_ prior).settleEdges_faded _ by_.at_))
    (Tables.definitionName_congr (t.settledEdges_sameNodes by_ prior).nodes) (fun a ha => ?_)
    fun e _ _ w hw hwedge hholds => ?_
  · rw [hrows] at ha
    exact (List.mem_filter.1 ha).1
  · refine (Tables.unasserted_eq_false _).2 ⟨w, ?_, hwedge⟩
    rw [hrows]
    refine List.mem_filter.2 ⟨hw, ?_⟩
    by_cases hwid : w.identity = by_.identity
    · rw [hwid, hprior] at hholds
      simp [(Option.some.inj (hholds.resolve_left hid))]
    · simp [hwid]

theorem releaseReference (h : Graded called N skip extra t) (by_ : Asserter) (src target : String) :
    Graded called N skip extra (t.releaseReference by_ src target) := by
  have hlinks := h.links.releaseReference by_ src target
  have hnodes := t.releaseReference_sameNodes by_ src target
  unfold Tables.releaseReference at hlinks hnodes ⊢
  split at hlinks
  · rw [if_pos ‹_›]
    exact h
  rw [if_neg ‹_›] at hnodes ⊢
  refine h.dropped hlinks ((Faded.of_edges rfl).trans (Tables.settleEdges_faded _ _ _))
    (Tables.definitionName_congr hnodes.nodes) (fun a ha => ?_) fun e he hl w hw hwedge hholds => ?_
  · rw [Tables.settleEdges_rows] at ha
    exact (List.mem_filter.1 ha).1
  · rw [← Bool.not_eq_true]
    intro hun
    -- its last row dropped, the edge was settled dead
    rw [Tables.unasserted, Tables.settleEdges_rows] at hun
    have hnone := List.all_eq_true.1 hun
    refine absurd hl ?_
    rw [Bool.not_eq_true]
    refine Tables.settleEdges_dead _ (List.mem_map.2 ⟨w, List.mem_filter.2 ⟨hw, ?_⟩, hwedge⟩) _ ?_ e
      he rfl
    · by_contra hkept
      have hnot :=
        hnone w (List.mem_filter.2 ⟨hw, by rw [Bool.not_eq_true', ← Bool.not_eq_true]; exact hkept⟩)
      simp [hwedge] at hnot
    · refine List.filter_eq_nil_iff.2 fun a ha => ?_
      have := hnone a ha
      simp only [bne_iff_ne, ne_eq] at this
      simp [this]

theorem dropStale (h : Graded called N skip extra t) (hid : by_.identity ≠ "")
    (hcurrent : t.currentGeneration by_.identity = some by_.generation) (p : EdgeAssertion → Bool) :
    Graded called N skip extra { t with
      edgeAssertions := t.edgeAssertions.filter fun a =>
        !(a.identity == by_.identity && a.generation != by_.generation && p a) } := by
  refine h.dropped (h.links.dropStale hid hcurrent p) (.of_edges rfl) (fun _ => rfl)
    (fun a ha => (List.mem_filter.1 ha).1) fun e _ _ w hw hwedge hholds => ?_
  refine (Tables.unasserted_eq_false _).2 ⟨w, List.mem_filter.2 ⟨hw, ?_⟩, hwedge⟩
  by_cases hwid : w.identity = by_.identity
  · rw [hwid, hcurrent] at hholds
    simp [(Option.some.inj (hholds.resolve_left hid)).symm]
  · simp [hwid]

end Graded

end Rigger.Graph
