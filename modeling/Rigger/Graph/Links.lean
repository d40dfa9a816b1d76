import Rigger.Graph.Names

/-!
# The edges

An edge keeps its id, ends and relation for good; what changes is whether it is live and at what
tier.  `Links` says that no two live edges are one (`Edge.Clashes`), that an edge an assertion names
is live only while one holds it, and that the attachments of a node are live exactly while it is
held, waiting detached until then.
-/

namespace Rigger.Graph

open Lib

/-- A relation a node is attached by. -/
def attaching (rel : Rel) : Bool := rel == .inCommunity || rel == .realizes

/-- A relation a reference is folded to. -/
def referring (rel : Rel) : Bool := rel == .calls || rel == .references

/-- Two edges that are never both live: of one key, or references of one placeholder. -/
def Edge.Clashes (a b : Edge) : Prop :=
  a.from_ = b.from_ ∧ a.to_ = b.to_ ∧ a.rel = b.rel ∧
    (a.tier = b.tier ∨ referring a.rel = true ∧ (leafOf a.to_).isSome = true)

variable {a b : Edge}

theorem Edge.Clashes.symm (h : a.Clashes b) : b.Clashes a := by
  obtain ⟨hfrom, hto, hrel, htier⟩ := h
  exact ⟨hfrom.symm, hto.symm, hrel.symm, htier.imp Eq.symm fun h => by rwa [← hrel, ← hto]⟩

/-! ## Fading -/

/-- The edge as it was, its dates and source apart. -/
structure Edge.Same (e e' : Edge) : Prop where
  id : e'.id = e.id
  from_ : e'.from_ = e.from_
  to_ : e'.to_ = e.to_
  rel : e'.rel = e.rel
  tier : e'.tier = e.tier

theorem Edge.Same.refl (e : Edge) : e.Same e := ⟨rfl, rfl, rfl, rfl, rfl⟩

theorem Edge.Same.trans {c : Edge} (h : a.Same b) (h' : b.Same c) : a.Same c :=
  ⟨h'.id.trans h.id, h'.from_.trans h.from_, h'.to_.trans h.to_, h'.rel.trans h.rel,
    h'.tier.trans h.tier⟩

/-- The edge as it was, or live no more. -/
structure Edge.Fades (e e' : Edge) : Prop extends Edge.Same e e' where
  live : e'.isLive = true → e.isLive = true

theorem Edge.Fades.refl (e : Edge) : e.Fades e := ⟨.refl e, fun h => h⟩

theorem Edge.Fades.trans {c : Edge} (h : a.Fades b) (h' : b.Fades c) : a.Fades c :=
  ⟨h.toSame.trans h'.toSame, fun hl => h.live (h'.live hl)⟩

theorem Edge.Same.clashes {a' b' : Edge} (ha : a.Same a') (hb : b.Same b') (h : a'.Clashes b') :
    a.Clashes b := by
  unfold Edge.Clashes at h ⊢
  rw [ha.from_, ha.to_, ha.rel, ha.tier, hb.from_, hb.to_, hb.rel, hb.tier] at h
  exact h

/-- Every edge fades, none is added. -/
def Faded (t t' : Tables) : Prop :=
  ∃ f : Edge → Edge, (∀ e : Edge, e.Fades (f e)) ∧ t'.edges = t.edges.map f

namespace Faded

variable {t t' t'' : Tables}

theorem refl (t : Tables) : Faded t t := ⟨id, Edge.Fades.refl, (List.map_id _).symm⟩

theorem of_edges (h : t'.edges = t.edges) : Faded t t' :=
  ⟨id, Edge.Fades.refl, h.trans (List.map_id _).symm⟩

theorem trans (h : Faded t t') (h' : Faded t' t'') : Faded t t'' := by
  obtain ⟨f, hf, heq⟩ := h
  obtain ⟨g, hg, heq'⟩ := h'
  exact ⟨g ∘ f, fun e => (hf e).trans (hg (f e)), by rw [heq', heq, List.map_map]⟩

theorem foldl {α : Type} {f : Tables → α → Tables} (hf : ∀ t a, Faded t (f t a)) (t : Tables)
    (as : List α) : Faded t (as.foldl f t) := by
  induction as generalizing t with
  | nil => exact refl t
  | cons a as ih => exact (hf t a).trans (ih _)

/-- An edge of the faded tables is one of those before. -/
theorem mem (h : Faded t t') {e' : Edge} (he' : e' ∈ t'.edges) :
    ∃ e ∈ t.edges, e.Fades e' := by
  obtain ⟨f, hf, heq⟩ := h
  rw [heq] at he'
  obtain ⟨e, he, rfl⟩ := List.mem_map.1 he'
  exact ⟨e, he, hf e⟩

end Faded

namespace Tables

variable (t : Tables)

theorem updateEdges_faded (p : Edge → Bool) {f : Edge → Edge} (hf : ∀ e : Edge, e.Fades (f e)) :
    Faded t (t.updateEdges p f) := by
  refine ⟨fun e => if p e then f e else e, fun e => ?_, rfl⟩
  dsimp only
  split
  · exact hf e
  · exact .refl e

theorem retireEdges_faded (p : Edge → Bool) (at_ : Int) : Faded t (t.retireEdges p at_) :=
  t.updateEdges_faded p fun _ => ⟨⟨rfl, rfl, rfl, rfl, rfl⟩, fun h => by cases h⟩

/-- Settling an edge inverted: redated where a live assertion holds it, else retired. -/
theorem settleEdge_cases (edge : Nat) (at_ : Int) :
    Faded t (t.settleEdge edge at_) ∧ (t.settleEdge edge at_).edgeSeq = t.edgeSeq ∧
      (t.settleEdge edge at_).edgeAssertions = t.edgeAssertions ∧
      (t.settleEdge edge at_).detached = t.detached ∧ (t.settleEdge edge at_).refs = t.refs ∧
      (t.liveEdgeAssertions edge = [] →
        ∀ e ∈ (t.settleEdge edge at_).edges, e.id = edge → e.isLive = false) := by
  unfold settleEdge
  cases hlive : t.liveEdgeAssertions edge with
  | cons first rest =>
    refine ⟨t.updateEdges_faded _ fun _ => ⟨⟨rfl, rfl, rfl, rfl, rfl⟩, fun h => h⟩, rfl,
      rfl, rfl, rfl,
      nofun⟩
  | nil =>
    have hretired : ∀ e ∈ (t.retireEdges (·.id == edge) at_).edges, e.id = edge →
        e.isLive = false := by
      intro e he hid
      obtain ⟨e₀, -, rfl⟩ := List.mem_map.1 he
      by_cases h₀ : (e₀.id == edge) = true
      · rw [if_pos h₀]
        rfl
      · rw [if_neg h₀] at hid
        simp [hid] at h₀
    dsimp only
    split
    case h_1 e _ =>
      have hends := (t.retireEdges (·.id == edge) at_).oweRelabelOfEnds_sameEdges e.from_ e.to_
        e.rel ((t.retireEdges (·.id == edge) at_).declaration e.rel e.to_)
      refine ⟨(t.retireEdges_faded _ _).trans (.of_edges hends.edges), hends.edgeSeq,
        hends.edgeAssertions, hends.detached, hends.refs, fun _ => ?_⟩
      rw [hends.edges]
      exact hretired
    case h_2 => exact ⟨t.retireEdges_faded _ _, rfl, rfl, rfl, rfl, fun _ => hretired⟩

theorem settleEdges_faded (edges : List Nat) (at_ : Int) : Faded t (t.settleEdges edges at_) :=
  Faded.foldl (fun t edge => (t.settleEdge_cases edge at_).1) t edges

theorem settleEdges_rows (edges : List Nat) (at_ : Int) :
    (t.settleEdges edges at_).edgeAssertions = t.edgeAssertions := by
  unfold settleEdges
  induction edges generalizing t with
  | nil => rfl
  | cons edge edges ih => exact (ih _).trans (t.settleEdge_cases edge at_).2.2.1

theorem liveEdgeAssertions_congr {t t' : Tables} (hrows : t'.edgeAssertions = t.edgeAssertions)
    (hgens : t'.generations = t.generations) (edge : Nat) :
    t'.liveEdgeAssertions edge = t.liveEdgeAssertions edge := by
  simp only [Tables.liveEdgeAssertions, Tables.holdsEdge, Tables.currentGeneration, hrows, hgens]

theorem settleEdges_dead {edges : List Nat} {edge : Nat} (hmem : edge ∈ edges) (at_ : Int)
    (hnone : t.liveEdgeAssertions edge = []) :
    ∀ e ∈ (t.settleEdges edges at_).edges, e.id = edge → e.isLive = false := by
  unfold settleEdges
  induction edges generalizing t with
  | nil => cases hmem
  | cons first rest ih =>
    obtain ⟨-, -, hrows, -, -, hdead⟩ := t.settleEdge_cases first at_
    rcases List.mem_cons.1 hmem with rfl | hmem
    · intro e he hid
      obtain ⟨e₀, he₀, hfades⟩ := (settleEdges_faded (t.settleEdge edge at_) rest at_).mem he
      rw [← Bool.not_eq_true]
      intro hl
      have := hdead hnone e₀ he₀ (hfades.id.symm.trans hid)
      rw [hfades.live hl] at this
      cases this
    · refine ih _ hmem ?_
      rw [liveEdgeAssertions_congr hrows (t.settleEdge_sameNodes first at_).generations]
      exact hnone

/-- The link's edge aside, linking leaves the edges as they were but for their dates. -/
theorem linkedEdge_ne (by_ : Asserter) (src dst : String) (rel : Rel) (at_ : Int) (source : Nat)
    (tier : Tier) : ∀ e ∈ (t.linkedEdge by_ src dst rel at_ source tier).1.edges,
      e.id ≠ (t.linkedEdge by_ src dst rel at_ source tier).2 → ∃ e₀ ∈ t.edges, e₀.Fades e := by
  unfold linkedEdge
  split
  case h_1 found _ =>
    intro e he hne
    obtain ⟨e₀, he₀, rfl⟩ := List.mem_map.1 he
    refine ⟨e₀, he₀, ?_⟩
    by_cases hid : e₀.id = found.id
    · rw [if_pos (beq_iff_eq.2 hid)] at hne
      exact absurd hid hne
    · rw [if_neg fun hb => hid (beq_iff_eq.1 hb)]
      exact .refl e₀
  case h_2 =>
    unfold addEdge
    split
    · intro e he _
      exact (t.updateEdges_faded (Edge.standing src dst rel tier) (f := (·.reassert at_ source))
        fun _ => ⟨⟨rfl, rfl, rfl, rfl, rfl⟩, fun h => h⟩).mem he
    · intro e he hne
      have he : e ∈ t.edges ++ [⟨t.edgeSeq + 1, src, dst, rel, at_, none, source, tier⟩] := by
        rwa [(oweRelabelOfEnds_sameEdges _ _ _ _ _).edges] at he
      rcases List.mem_append.1 he with he | he
      · exact ⟨e, he, .refl e⟩
      · rw [List.mem_singleton.1 he] at hne
        exact absurd rfl hne

theorem unasserted_eq_false {edge : Nat} :
    t.unasserted edge = false ↔ ∃ a ∈ t.edgeAssertions, a.edge = edge := by
  simp [unasserted]

theorem recordEdgeAssertion_unasserted (by_ : Asserter) (edge : Nat) (at_ : Int) (source : Nat) :
    (t.recordEdgeAssertion by_ edge at_ source).unasserted edge = false ∧
      ∀ other, other ≠ edge →
        (t.recordEdgeAssertion by_ edge at_ source).unasserted other = t.unasserted other := by
  unfold recordEdgeAssertion
  split
  case isTrue hany =>
    have hedge : ∀ a : EdgeAssertion, (if a.isOf by_.identity edge then
        a.renew by_ (t.generations[by_.identity]?.bind Generation.prior) at_ source else a).edge =
          a.edge := fun a => by split <;> rfl
    refine ⟨(unasserted_eq_false _).2 ?_, fun other _ => ?_⟩
    · obtain ⟨a, ha, hof⟩ := List.any_eq_true.1 hany
      refine ⟨_, List.mem_map.2 ⟨a, ha, rfl⟩, (hedge a).trans ?_⟩
      simp only [EdgeAssertion.isOf, Bool.and_eq_true, beq_iff_eq] at hof
      exact hof.2
    · unfold unasserted
      rw [List.all_map]
      congr 1
      funext a
      rw [Function.comp_apply, hedge]
  case isFalse =>
    refine ⟨(unasserted_eq_false _).2 ⟨_, List.mem_concat_self, rfl⟩,
      fun other hne => ?_⟩
    unfold unasserted
    rw [List.all_append]
    simp [Ne.symm hne]

end Tables

/-! ## The invariant -/

/-- What holds of the edges, but for the assertions of the `loose` ones: those an assertion names
and maybe none holds. -/
structure Links (N : String → Prop) (loose : Nat → Prop) (t : Tables) : Prop where
  ids : t.edges.Pairwise fun a b => a.id < b.id
  seq : ∀ e ∈ t.edges, e.id ≤ t.edgeSeq
  rowSeq : ∀ a ∈ t.edgeAssertions, a.edge ≤ t.edgeSeq
  detachedSeq : ∀ d ∈ t.detached, d.edge ≤ t.edgeSeq
  unique : ∀ a ∈ t.edges, ∀ b ∈ t.edges, a.isLive = true → b.isLive = true → a.Clashes b →
    a.id = b.id
  node : ∀ e ∈ t.edges, attaching e.rel = true → N e.from_
  held : ∀ e ∈ t.edges, e.isLive = true → attaching e.rel = true →
    t.nodes.contains e.from_ = true
  linked : ∀ e ∈ t.edges, ∀ a ∈ t.edgeAssertions, a.edge = e.id → attaching e.rel = false
  standing : ∀ e ∈ t.edges, e.isLive = true → ¬loose e.id → ∀ a ∈ t.edgeAssertions,
    a.edge = e.id → t.liveEdgeAssertions e.id ≠ []
  detached : ∀ d ∈ t.detached, t.nodes.contains d.node = false ∧ ∀ e ∈ t.edges, e.id = d.edge →
    e.from_ = d.node ∧ attaching e.rel = true ∧ e.isLive = false
  apart : ∀ d ∈ t.detached, ∀ d' ∈ t.detached, ∀ e ∈ t.edges, ∀ e' ∈ t.edges, e.id = d.edge →
    e'.id = d'.edge → e.Clashes e' → e.id = e'.id

namespace Links

variable {N : String → Prop} {loose loose' : Nat → Prop} {t t' : Tables}

theorem empty : Links N loose .empty := by
  constructor <;> simp [Tables.empty]

theorem eq_of_id (h : Links N loose t) {a b : Edge} (ha : a ∈ t.edges) (hb : b ∈ t.edges)
    (hid : a.id = b.id) : a = b := by
  have hids : (t.edges.map Edge.id).Nodup :=
    List.pairwise_map.2 (h.ids.imp fun hab => Nat.ne_of_lt hab)
  exact List.inj_on_of_nodup_map hids ha hb hid

/-- Edges that keep their keys while some live no more, or live again. -/
theorem relive (h : Links N loose t) {g : Edge → Edge} (hg : ∀ e : Edge, e.Same (g e))
    (hedges : t'.edges = t.edges.map g) (hseq : t'.edgeSeq = t.edgeSeq)
    (hrows : t'.edgeAssertions = t.edgeAssertions) (hgens : t'.generations = t.generations)
    (hdetached : ∀ d ∈ t'.detached, d ∈ t.detached ∧ t'.nodes.contains d.node = false ∧
      ∀ e ∈ t.edges, e.id = d.edge → (g e).isLive = false)
    (hunique : ∀ a ∈ t.edges, ∀ b ∈ t.edges, (g a).isLive = true → (g b).isLive = true →
      a.Clashes b → a.id = b.id)
    (hheld : ∀ e ∈ t.edges, (g e).isLive = true → attaching e.rel = true →
      t'.nodes.contains e.from_ = true)
    (hstanding : ∀ e ∈ t.edges, (g e).isLive = true → ¬loose' e.id →
      ∀ a ∈ t.edgeAssertions, a.edge = e.id → t.liveEdgeAssertions e.id ≠ []) :
    Links N loose' t' := by
  have hmem : ∀ {e'}, e' ∈ t'.edges → ∃ e ∈ t.edges, g e = e' := by
    intro e' he'
    rw [hedges] at he'
    exact List.mem_map.1 he'
  constructor
  · rw [hedges, List.pairwise_map]
    exact h.ids.imp fun hab => by rwa [(hg _).id, (hg _).id]
  · intro e' he'
    obtain ⟨e, he, rfl⟩ := hmem he'
    rw [(hg e).id, hseq]
    exact h.seq e he
  · rw [hrows, hseq]
    exact h.rowSeq
  · rw [hseq]
    exact fun d hd => h.detachedSeq d (hdetached d hd).1
  · intro a' ha' b' hb' hla hlb hc
    obtain ⟨a, ha, rfl⟩ := hmem ha'
    obtain ⟨b, hb, rfl⟩ := hmem hb'
    rw [(hg a).id, (hg b).id]
    exact hunique a ha b hb hla hlb ((hg a).clashes (hg b) hc)
  · intro e' he' hrel
    obtain ⟨e, he, rfl⟩ := hmem he'
    rw [(hg e).from_]
    exact h.node e he ((hg e).rel ▸ hrel)
  · intro e' he' hlive hrel
    obtain ⟨e, he, rfl⟩ := hmem he'
    rw [(hg e).from_]
    exact hheld e he hlive ((hg e).rel ▸ hrel)
  · rw [hrows]
    intro e' he' a ha hedge
    obtain ⟨e, he, rfl⟩ := hmem he'
    rw [(hg e).rel]
    exact h.linked e he a ha (hedge.trans (hg e).id)
  · rw [hrows]
    intro e' he' hlive hnot a ha hedge
    obtain ⟨e, he, rfl⟩ := hmem he'
    rw [Tables.liveEdgeAssertions_congr hrows hgens]
    rw [(hg e).id] at hnot hedge ⊢
    exact hstanding e he hlive hnot a ha hedge
  · intro d hd
    obtain ⟨hdt, hnode, hdead⟩ := hdetached d hd
    refine ⟨hnode, fun e' he' hid => ?_⟩
    obtain ⟨e, he, rfl⟩ := hmem he'
    rw [(hg e).id] at hid
    obtain ⟨hfrom, hrel, -⟩ := (h.detached d hdt).2 e he hid
    exact ⟨(hg e).from_.trans hfrom, (hg e).rel ▸ hrel, hdead e he hid⟩
  · intro d hd d' hd' e₁ he₁ e₂ he₂ h₁ h₂ hc
    obtain ⟨e, he, rfl⟩ := hmem he₁
    obtain ⟨e', he', rfl⟩ := hmem he₂
    rw [(hg e).id] at h₁ ⊢
    rw [(hg e').id] at h₂ ⊢
    exact h.apart d (hdetached d hd).1 d' (hdetached d' hd').1 e he e' he' h₁ h₂
      ((hg e).clashes (hg e') hc)

/-- Edges that fade, none detached more, stay linked as they were. -/
theorem fade (h : Links N loose t) (hf : Faded t t') (hseq : t'.edgeSeq = t.edgeSeq)
    (hrows : t'.edgeAssertions = t.edgeAssertions) (hgens : t'.generations = t.generations)
    (hdetached : ∀ d ∈ t'.detached, d ∈ t.detached)
    (hnodes : ∀ id, t'.nodes.contains id = t.nodes.contains id)
    (hloose : ∀ edge, loose edge → loose' edge ∨
      ∀ e ∈ t'.edges, e.id = edge → e.isLive = true → t.liveEdgeAssertions edge ≠ []) :
    Links N loose' t' := by
  obtain ⟨g, hg, hedges⟩ := hf
  refine h.relive (fun e => (hg e).toSame) hedges hseq hrows hgens (fun d hd => ?_)
    (fun a ha b hb hla hlb => h.unique a ha b hb ((hg a).live hla) ((hg b).live hlb))
    (fun e he hl hrel => ?_) fun e he hl hnot a ha hedge => ?_
  · obtain ⟨hnode, hdead⟩ := h.detached d (hdetached d hd)
    refine ⟨hdetached d hd, (hnodes _).trans hnode, fun e he hid => ?_⟩
    rw [← Bool.not_eq_true]
    intro hl
    exact absurd ((hg e).live hl) (by simp [(hdead e he hid).2.2])
  · rw [hnodes]
    exact h.held e he ((hg e).live hl) hrel
  · by_cases hlse : loose e.id
    · refine (hloose _ hlse).resolve_left hnot (g e) ?_ (hg e).id hl
      rw [hedges]
      exact List.mem_map_of_mem he
    · exact h.standing e he ((hg e).live hl) hlse a ha hedge

theorem mono (h : Links N loose t)
    (hloose : ∀ e ∈ t.edges, e.isLive = true → loose e.id → loose' e.id) : Links N loose' t :=
  { h with
    standing := fun e he hl hnot => h.standing e he hl fun hlse => hnot (hloose e he hl hlse) }

theorem settleEdge (h : Links N loose t) (edge : Nat) (at_ : Int) :
    Links N (fun other => loose other ∧ other ≠ edge) (t.settleEdge edge at_) := by
  obtain ⟨hfaded, hseq, hrows, hdetached, -, hdead⟩ := t.settleEdge_cases edge at_
  have hnodes := t.settleEdge_sameNodes edge at_
  refine h.fade hfaded hseq hrows hnodes.generations (fun d hd => hdetached ▸ hd)
    (fun id => by rw [hnodes.nodes]) fun other hl => ?_
  by_cases hother : other = edge
  · subst hother
    refine .inr fun e he hid hlive hnil => ?_
    rw [hdead hnil e he hid] at hlive
    cases hlive
  · exact .inl ⟨hl, hother⟩

theorem settleEdges (h : Links N loose t) (edges : List Nat) (at_ : Int) :
    Links N (fun other => loose other ∧ other ∉ edges) (t.settleEdges edges at_) := by
  unfold Tables.settleEdges
  induction edges generalizing t loose with
  | nil => exact h.mono fun _ _ _ hl => ⟨hl, List.not_mem_nil⟩
  | cons edge edges ih =>
    exact (ih (h.settleEdge edge at_)).mono fun _ _ _ hl =>
      ⟨hl.1.1, List.not_mem_cons_of_ne_of_not_mem hl.1.2 hl.2⟩

/-! ### Inserting -/

theorem insertEdge (h : Links N loose t) (src dst : String) (rel : Rel) (at_ : Int)
    (validTo : Option Int) (source : Nat) (tier : Tier) (hnode : attaching rel = true → N src)
    (hlive : validTo = none → (attaching rel = true → t.nodes.contains src = true) ∧
      ∀ e ∈ t.edges, e.isLive = true →
        ¬e.Clashes ⟨t.edgeSeq + 1, src, dst, rel, at_, validTo, source, tier⟩) :
    Links N loose (t.insertEdge src dst rel at_ validTo source tier) := by
  have hmem : ∀ {e}, e ∈ (t.insertEdge src dst rel at_ validTo source tier).edges ↔
      e ∈ t.edges ∨ e = ⟨t.edgeSeq + 1, src, dst, rel, at_, validTo, source, tier⟩ := by
    intro e
    show e ∈ t.edges ++ [_] ↔ _
    rw [List.mem_append, List.mem_singleton]
  have hbelow : ∀ {n}, n ≤ t.edgeSeq → n ≠ t.edgeSeq + 1 := by omega
  have hopen : ∀ {e : Edge}, e = ⟨t.edgeSeq + 1, src, dst, rel, at_, validTo, source, tier⟩ →
      e.isLive = true → validTo = none := by
    rintro _ rfl hl
    exact Option.isNone_iff_eq_none.1 hl
  constructor
  · refine List.pairwise_append.2 ⟨h.ids, List.pairwise_singleton _ _, fun a ha b hb => ?_⟩
    rw [List.mem_singleton.1 hb]
    exact Nat.lt_succ_of_le (h.seq a ha)
  · intro e he
    rcases hmem.1 he with he | rfl
    · exact Nat.le_succ_of_le (h.seq e he)
    · exact Nat.le_refl _
  · exact fun a ha => Nat.le_succ_of_le (h.rowSeq a ha)
  · exact fun d hd => Nat.le_succ_of_le (h.detachedSeq d hd)
  · intro a ha b hb hla hlb hc
    rcases hmem.1 ha with ha | ha
    · rcases hmem.1 hb with hb | hb
      · exact h.unique a ha b hb hla hlb hc
      · exact absurd (hb ▸ hc) ((hlive (hopen hb hlb)).2 a ha hla)
    · rcases hmem.1 hb with hb | hb
      · exact absurd (ha ▸ hc.symm) ((hlive (hopen ha hla)).2 b hb hlb)
      · rw [ha, hb]
  · intro e he hrel
    rcases hmem.1 he with he | rfl
    · exact h.node e he hrel
    · exact hnode hrel
  · intro e he hl hrel
    rcases hmem.1 he with he | he
    · exact h.held e he hl hrel
    · subst he
      exact (hlive (hopen rfl hl)).1 hrel
  · intro e he a ha hedge
    rcases hmem.1 he with he | rfl
    · exact h.linked e he a ha hedge
    · exact absurd hedge (hbelow (h.rowSeq a ha))
  · intro e he hl hnot a ha hedge
    rcases hmem.1 he with he | rfl
    · exact h.standing e he hl hnot a ha hedge
    · exact absurd hedge (hbelow (h.rowSeq a ha))
  · intro d hd
    refine ⟨(h.detached d hd).1, fun e he hid => ?_⟩
    rcases hmem.1 he with he | rfl
    · exact (h.detached d hd).2 e he hid
    · exact absurd hid.symm (hbelow (h.detachedSeq d hd))
  · intro d hd d' hd' e he e' he' hid hid' hc
    rcases hmem.1 he with he | rfl
    · rcases hmem.1 he' with he' | rfl
      · exact h.apart d hd d' hd' e he e' he' hid hid' hc
      · exact absurd hid'.symm (hbelow (h.detachedSeq d' hd'))
    · exact absurd hid.symm (hbelow (h.detachedSeq d hd))

theorem sameEdges (h : Links N loose t) (hs : SameEdges t t')
    (hgens : t'.generations = t.generations)
    (hnodes : ∀ id, t'.nodes.contains id = t.nodes.contains id) : Links N loose t' :=
  h.fade (.of_edges hs.edges) hs.edgeSeq hs.edgeAssertions hgens
    (fun _ hd => hs.detached ▸ hd) hnodes
    fun _ hl => .inl hl

/-- An added edge merges into the one of its key, or clashes with none. -/
theorem addEdge (h : Links N loose t) (src dst : String) (rel : Rel) (at_ : Int) (source : Nat)
    (tier : Tier) (hnode : attaching rel = true → N src ∧ t.nodes.contains src = true)
    (htier : referring rel = true → (leafOf dst).isSome = true → ∀ e ∈ t.edges,
      e.isLive = true → e.from_ = src → e.to_ = dst → e.rel = rel → e.tier = tier) :
    Links N loose (t.addEdge src dst rel at_ source tier).1 := by
  unfold Tables.addEdge
  split
  case h_1 e he =>
    exact h.fade (t.updateEdges_faded _ fun _ =>
      ⟨⟨rfl, rfl, rfl, rfl, rfl⟩, fun h => h⟩) rfl rfl rfl
      (fun _ hd => hd) (fun _ => rfl) fun edge hl => .inl hl
  case h_2 hnone =>
    have hinserted := h.insertEdge src dst rel at_ none source tier
      (fun hrel => (hnode hrel).1) fun _ => ⟨fun hrel => (hnode hrel).2, fun e he hl hc => by
        obtain ⟨hfrom : e.from_ = src, hto : e.to_ = dst, hrel : e.rel = rel, htiers⟩ := hc
        refine List.find?_eq_none.1 hnone e he ?_
        have hsame : e.tier = tier := htiers.elim (fun h => h) fun hr =>
          htier (hrel ▸ hr.1) (hto ▸ hr.2) e he hl hfrom hto hrel
        simp [Edge.standing, Edge.keyed, hfrom, hto, hrel, hsame, hl]⟩
    refine hinserted.sameEdges (Tables.oweRelabelOfEnds_sameEdges _ _ _ _ _) ?_ fun id => ?_
    · rw [(Tables.oweRelabelOfEnds_sameNodes _ _ _ _ _).generations]
    · rw [(Tables.oweRelabelOfEnds_sameNodes _ _ _ _ _).nodes]

/-! ### Asserting a link -/

/-- Rows added or dropped, of edges that attach no node. -/
theorem withRows (h : Links N loose t) (rows : List EdgeAssertion)
    (generations : Std.ExtTreeMap String Generation)
    (hrows : ∀ a ∈ rows, (∃ a' ∈ t.edgeAssertions, a'.edge = a.edge) ∨
      a.edge ≤ t.edgeSeq ∧ ∀ e ∈ t.edges, e.id = a.edge → attaching e.rel = false)
    (hstanding : ∀ e ∈ t.edges, e.isLive = true → ¬loose' e.id → ∀ a ∈ rows, a.edge = e.id →
      ({ t with edgeAssertions := rows, generations := generations } : Tables).liveEdgeAssertions
        e.id ≠ []) :
    Links N loose' { t with edgeAssertions := rows, generations := generations } where
  ids := h.ids
  seq := h.seq
  rowSeq := by
    intro a ha
    rcases hrows a ha with ⟨a', ha', hedge⟩ | ⟨hle, -⟩
    · exact hedge ▸ h.rowSeq a' ha'
    · exact hle
  detachedSeq := h.detachedSeq
  unique := h.unique
  node := h.node
  held := h.held
  linked := by
    intro e he a ha hedge
    rcases hrows a ha with ⟨a', ha', hedge'⟩ | ⟨-, hrel⟩
    · exact h.linked e he a' ha' (hedge'.trans hedge)
    · exact hrel e he hedge.symm
  standing := hstanding
  detached := h.detached
  apart := h.apart

theorem recordEdgeAssertion (h : Links N loose t) (by_ : Asserter) {edge : Nat} (at_ : Int)
    (source : Nat) (hle : edge ≤ t.edgeSeq)
    (hrel : ∀ e ∈ t.edges, e.id = edge → attaching e.rel = false) :
    Links N (fun other => loose other ∨ other = edge)
      (t.recordEdgeAssertion by_ edge at_ source) := by
  unfold Tables.recordEdgeAssertion
  split
  case isTrue hany =>
    refine h.withRows _ t.generations (fun a ha => .inl ?_) fun e he hl hnot a ha hedge => ?_
    · obtain ⟨a', ha', rfl⟩ := List.mem_map.1 ha
      refine ⟨a', ha', ?_⟩
      split <;> rfl
    · obtain ⟨a', ha', rfl⟩ := List.mem_map.1 ha
      have hother : e.id ≠ edge := fun he => hnot (.inr he)
      have hedge' : a'.edge = e.id := by
        rw [← hedge]
        split <;> rfl
      obtain ⟨row, hrow⟩ := List.exists_mem_of_ne_nil _
        (h.standing e he hl (fun hl => hnot (.inl hl)) a' ha' hedge')
      obtain ⟨hrow, hof⟩ := List.mem_filter.1 hrow
      refine List.ne_nil_of_mem (List.mem_filter.2 ⟨List.mem_map.2 ⟨row, hrow, if_neg ?_⟩, hof⟩)
      simp only [Bool.and_eq_true, beq_iff_eq] at hof
      simp [EdgeAssertion.isOf, hof.1, hother]
  case isFalse hnone =>
    refine h.withRows _ t.generations (fun a ha => ?_) fun e he hl hnot a ha hedge => ?_
    · rcases List.mem_append.1 ha with ha | ha
      · exact .inl ⟨a, ha, rfl⟩
      · rw [List.mem_singleton.1 ha]
        exact .inr ⟨hle, hrel⟩
    · rcases List.mem_append.1 ha with ha | ha
      · obtain ⟨row, hrow⟩ := List.exists_mem_of_ne_nil _
          (h.standing e he hl (fun hl => hnot (.inl hl)) a ha hedge)
        obtain ⟨hrow, hof⟩ := List.mem_filter.1 hrow
        exact List.ne_nil_of_mem (List.mem_filter.2 ⟨List.mem_append_left _ hrow, hof⟩)
      · rw [List.mem_singleton.1 ha] at hedge
        exact absurd (.inr hedge.symm) hnot

variable {e : Edge} {by_ : Asserter}

theorem revive (h : Links N loose t) (he : e ∈ t.edges) (hrel : attaching e.rel = false)
    (hclash : ∀ b ∈ t.edges, b.isLive = true → ¬b.Clashes e) :
    Links N (fun other => loose other ∨ other = e.id)
      (t.updateEdges (·.id == e.id) fun e => { e with validTo := none }) := by
  have hsame : ∀ b : Edge, b.Same (if b.id == e.id then { b with validTo := none } else b) := by
    intro b
    split <;> exact ⟨rfl, rfl, rfl, rfl, rfl⟩
  have hother : ∀ b : Edge, b.id ≠ e.id →
      (if b.id == e.id then { b with validTo := none } else b) = b := fun b hne => by simp [hne]
  refine h.relive hsame rfl rfl rfl rfl (fun d hd => ?_) (fun a ha b hb hla hlb hc => ?_)
    (fun b hb hl hattach => ?_) fun b hb hl hnot a ha hedge => ?_
  · refine ⟨hd, (h.detached d hd).1, fun b hb hid => ?_⟩
    obtain ⟨-, hattach, hdead⟩ := (h.detached d hd).2 b hb hid
    have hne : b.id ≠ e.id := fun heq => by
      rw [h.eq_of_id hb he heq, hrel] at hattach
      cases hattach
    rw [hother b hne]
    exact hdead
  · by_cases hae : a.id = e.id
    · by_cases hbe : b.id = e.id
      · exact hae.trans hbe.symm
      · rw [hother b hbe] at hlb
        rw [h.eq_of_id ha he hae] at hc
        exact absurd hc.symm (hclash b hb hlb)
    · rw [hother a hae] at hla
      by_cases hbe : b.id = e.id
      · rw [h.eq_of_id hb he hbe] at hc
        exact absurd hc (hclash a ha hla)
      · rw [hother b hbe] at hlb
        exact h.unique a ha b hb hla hlb hc
  · have hne : b.id ≠ e.id := fun heq => by
      rw [h.eq_of_id hb he heq, hrel] at hattach
      cases hattach
    rw [hother b hne] at hl
    exact h.held b hb hl hattach
  · have hne : b.id ≠ e.id := fun heq => hnot (.inr heq)
    rw [hother b hne] at hl
    exact h.standing b hb hl (fun hl => hnot (.inl hl)) a ha hedge

theorem revivable_eq_some {by_ : String} {src dst : String} {rel : Rel} {tier : Tier}
    (h : t.revivable by_ src dst rel tier = some e) : e ∈ t.edges ∧
      e.keyed src dst rel tier = true ∧ e.isLive = false ∧ t.assertedBefore by_ e.id = true ∧
      t.edges.any (Edge.standing src dst rel tier) = false := by
  unfold Tables.revivable at h
  split at h
  · cases h
  case isFalse hnone =>
    obtain ⟨he, hkey⟩ := List.mem_filter.1 (List.mem_of_getLast? h)
    simp only [Bool.and_eq_true, Bool.not_eq_true'] at hkey
    exact ⟨he, hkey.1.1, hkey.1.2, hkey.2, Bool.eq_false_iff.2 hnone⟩

/-- The edge a link's assertion is of: revived or added, of the link's key. -/
theorem linkedEdge (h : Links N loose t) (by_ : Asserter) (src dst : String) (rel : Rel) (at_ : Int)
    (source : Nat) (tier : Tier) (hrel : attaching rel = false)
    (hto : referring rel = true → leafOf dst = none) :
    let linked := t.linkedEdge by_ src dst rel at_ source tier
    Links N (fun other => loose other ∨ other = linked.2) linked.1 ∧
      linked.2 ≤ linked.1.edgeSeq ∧
      ∀ e ∈ linked.1.edges, e.id = linked.2 → e.keyed src dst rel tier = true := by
  have hattach : ¬attaching rel = true := by simp [hrel]
  unfold Tables.linkedEdge
  dsimp only
  split
  case h_1 e hrev =>
    obtain ⟨he, hkey, hdead, -, hnone⟩ := revivable_eq_some hrev
    obtain ⟨⟨⟨hfrom, hdst⟩, herel⟩, htier⟩ : ((e.from_ = src ∧ e.to_ = dst) ∧ e.rel = rel) ∧
        e.tier = tier := by simpa [Edge.keyed] using hkey
    refine ⟨h.revive he (herel ▸ hrel) fun b hb hl hc => ?_, h.seq e he, fun b hb hid => ?_⟩
    · obtain ⟨hbfrom, hbto, hbrel, hbtier⟩ := hc
      rcases hbtier with hbtier | ⟨hr, hp⟩
      · refine absurd ?_ (Bool.eq_false_iff.1 hnone)
        refine List.any_eq_true.2 ⟨b, hb, ?_⟩
        simp [Edge.standing, Edge.keyed, hbfrom, hbto, hbrel, hbtier, hfrom, hdst, herel, htier, hl]
      · rw [hbrel, herel] at hr
        rw [hbto, hdst, hto hr] at hp
        cases hp
    · obtain ⟨b₀, hb₀, rfl⟩ := List.mem_map.1 hb
      by_cases hbe : b₀.id = e.id
      · rw [h.eq_of_id hb₀ he hbe, if_pos (beq_self_eq_true e.id)]
        exact hkey
      · simp only [beq_iff_eq, if_neg hbe] at hid
        exact absurd hid hbe
  case h_2 hrev =>
    have hadded := h.addEdge src dst rel at_ source tier
      (fun hr => absurd hr hattach) fun hr hp => by
        rw [hto hr] at hp
        cases hp
    refine ⟨hadded.mono fun _ _ _ hl => .inl hl, ?_⟩
    unfold Tables.addEdge
    split
    case h_1 e hfind =>
      have he := List.mem_of_find?_eq_some hfind
      have hstanding := List.find?_some hfind
      refine ⟨h.seq e he, fun b hb hid => ?_⟩
      obtain ⟨b₀, hb₀, rfl⟩ := List.mem_map.1 hb
      have hb₀id : b₀.id = e.id := by
        refine Eq.trans ?_ hid
        split <;> rfl
      rw [h.eq_of_id hb₀ he hb₀id, if_pos hstanding]
      exact (Bool.and_eq_true_iff.1 hstanding).1
    case h_2 hnone =>
      have hends := Tables.oweRelabelOfEnds_sameEdges
        (t.insertEdge src dst rel at_ none source tier) src dst rel
        ((t.insertEdge src dst rel at_ none source tier).declaration rel dst)
      dsimp only
      rw [hends.edges, hends.edgeSeq]
      refine ⟨Nat.le_refl _, fun b hb hid => ?_⟩
      rcases List.mem_append.1 hb with hb | hb
      · have := h.seq b hb
        omega
      · rw [List.mem_singleton.1 hb]
        simp [Edge.keyed]

theorem assertLink (h : Links N loose t) (by_ : Asserter) (src dst : String) (rel : Rel)
    (at_ : Int) (source : Nat) (tier : Tier) (hrel : attaching rel = false)
    (hto : referring rel = true → leafOf dst = none) :
    Links N loose (t.assertLink by_ src dst rel at_ source tier) := by
  obtain ⟨hlinked, hle, hkey⟩ := h.linkedEdge by_ src dst rel at_ source tier hrel hto
  unfold Tables.assertLink
  dsimp only
  generalize t.linkedEdge by_ src dst rel at_ source tier = linked at *
  have hrecorded := hlinked.recordEdgeAssertion by_ at_ source hle fun e he hid => by
    have hkeyed := hkey e he hid
    have herel : e.rel = rel := by
      simp only [Edge.keyed, Bool.and_eq_true, beq_iff_eq] at hkeyed
      exact hkeyed.1.2
    rw [herel]
    exact hrel
  refine (hrecorded.settleEdge linked.2 at_).mono fun _ _ _ hl => ?_
  obtain ⟨(hl | hl) | hl, hne⟩ := hl
  · exact hl
  · exact absurd hl hne
  · exact absurd hl hne

/-! ### Attachments -/

theorem detach (h : Links N loose t) (ds : List Detached)
    (hds : ∀ d ∈ ds, d.edge ≤ t.edgeSeq ∧ t.nodes.contains d.node = false ∧
      ∀ e ∈ t.edges, e.id = d.edge → e.from_ = d.node ∧ attaching e.rel = true ∧ e.isLive = false)
    (hapart : ∀ d ∈ ds, ∀ d' ∈ t.detached ++ ds, ∀ e ∈ t.edges, ∀ e' ∈ t.edges, e.id = d.edge →
      e'.id = d'.edge → e.Clashes e' → e.id = e'.id) :
    Links N loose { t with detached := t.detached ++ ds } where
  ids := h.ids
  seq := h.seq
  rowSeq := h.rowSeq
  detachedSeq := by
    intro d hd
    rcases List.mem_append.1 hd with hd | hd
    · exact h.detachedSeq d hd
    · exact (hds d hd).1
  unique := h.unique
  node := h.node
  held := h.held
  linked := h.linked
  standing := h.standing
  detached := by
    intro d hd
    rcases List.mem_append.1 hd with hd | hd
    · exact h.detached d hd
    · exact (hds d hd).2
  apart := by
    intro d hd d' hd' e he e' he' hid hid' hc
    rcases List.mem_append.1 hd with hdt | hdn
    · rcases List.mem_append.1 hd' with hdt' | hdn'
      · exact h.apart d hdt d' hdt' e he e' he' hid hid' hc
      · exact (hapart d' hdn' d hd e' he' e he hid' hid hc.symm).symm
    · exact hapart d hdn d' hd' e he e' he' hid hid' hc

theorem attach (h : Links N loose t) (node dst : String) (rel : Rel) (at_ : Int) (source : Nat)
    (hrel : attaching rel = true) (hnode : N node) :
    Links N loose (t.attach node dst rel at_ source) := by
  have hrefers : ¬referring rel = true := by
    revert hrel
    cases rel <;> simp [attaching, referring]
  unfold Tables.attach
  split
  case isTrue hheld =>
    exact h.addEdge node dst rel at_ source .inferred (fun _ => ⟨hnode, hheld⟩) fun hr =>
      absurd hr hrefers
  case isFalse hunheld =>
    split
    · exact h.fade (t.updateEdges_faded _ fun _ => ⟨⟨rfl, rfl, rfl, rfl, rfl⟩, fun h => h⟩) rfl rfl
        rfl (fun _ hd => hd) (fun _ => rfl) fun _ hl => .inl hl
    case isFalse hnew =>
      have hinserted := h.insertEdge node dst rel at_ (some at_) source .inferred (fun _ => hnode)
        nofun
      refine hinserted.detach [⟨t.edgeSeq + 1, node⟩] (fun d hd => ?_) fun d hd d' hd' e he e' he'
        hid hid' hc => ?_
      · rw [List.mem_singleton.1 hd]
        refine ⟨Nat.le_refl _, Bool.eq_false_iff.2 hunheld, fun e he hid => ?_⟩
        have hid : e.id = t.edgeSeq + 1 := hid
        rcases List.mem_append.1 he with he | he
        · have := h.seq e he
          omega
        · rw [List.mem_singleton.1 he]
          exact ⟨rfl, hrel, rfl⟩
      · -- a detached edge of the key would have been found
        have hid : e.id = t.edgeSeq + 1 := by rw [hid, List.mem_singleton.1 hd]
        have hen : e = ⟨t.edgeSeq + 1, node, dst, rel, at_, some at_, source, .inferred⟩ := by
          rcases List.mem_append.1 he with he | he
          · have := h.seq e he
            omega
          · exact List.mem_singleton.1 he
        rcases List.mem_append.1 hd' with hdt | hdn
        swap
        · rw [List.mem_singleton.1 hdn] at hid'
          rw [hid, hid']
        rcases List.mem_append.1 he' with he' | he'
        swap
        · rw [List.mem_singleton.1 he', hid]
        refine absurd ?_ hnew
        obtain ⟨hfrom, -, -⟩ := (h.detached d' hdt).2 e' he' hid'
        subst hen
        obtain ⟨hcfrom : node = e'.from_, hcto : dst = e'.to_, hcrel : rel = e'.rel,
          hctier | ⟨hr, -⟩⟩ := hc
        · have hctier : Tier.inferred = e'.tier := hctier
          refine List.any_eq_true.2 ⟨e', he', ?_⟩
          simp only [Tables.detachedHere, Bool.and_eq_true, beq_iff_eq, List.any_eq_true]
          exact ⟨⟨⟨⟨d', hdt, hfrom.symm.trans hcfrom.symm, hid'.symm⟩, hcto.symm⟩, hcrel.symm⟩,
            hctier.symm⟩
        · exact absurd hr hrefers

/-! ### Nodes held and retired -/

theorem contains_alter_map (nodes : Std.ExtTreeMap String Node) (id : String) (f : Node → Node)
    (other : String) : (nodes.alter id fun n => n.map f).contains other = nodes.contains other := by
  rw [Std.ExtTreeMap.contains_eq_isSome_getElem?, alter_map_getElem?, Option.isSome_map,
    Std.ExtTreeMap.contains_eq_isSome_getElem?]

theorem written (h : Links N loose t) (id : String) (kind : NodeKind) (attrs : Attrs) :
    Links N loose (t.written id kind attrs) := by
  have hcontains : ∀ other, (t.written id kind attrs).nodes.contains other =
      (other == id || t.nodes.contains other) := by
    intro other
    show (t.nodes.insert id _).contains other = _
    rw [Std.ExtTreeMap.contains_insert]
    congr 1
    rw [Bool.eq_iff_iff, beq_iff_eq, beq_iff_eq, Std.LawfulEqCmp.compare_eq_iff_eq, eq_comm]
  have hmem : ∀ {d}, d ∈ (t.written id kind attrs).detached ↔ d ∈ t.detached ∧ d.node ≠ id := by
    intro d
    show d ∈ t.detached.filter (·.node != id) ↔ _
    rw [List.mem_filter, bne_iff_ne]
  have hrevived : ∀ e : Edge, (t.detached.filter (·.node == id)).any (·.edge == e.id) = true →
      ∃ d ∈ t.detached, d.node = id ∧ e.id = d.edge := by
    intro e he
    obtain ⟨d, hd, hedge⟩ := List.any_eq_true.1 he
    obtain ⟨hd, hnode⟩ := List.mem_filter.1 hd
    exact ⟨d, hd, beq_iff_eq.1 hnode, (beq_iff_eq.1 hedge).symm⟩
  -- an attachment of the node live before, and one revived, cannot both be
  have hwaiting : ∀ {e b : Edge}, e ∈ t.edges → b ∈ t.edges → b.isLive = true → b.Clashes e →
      (∃ d ∈ t.detached, d.node = id ∧ e.id = d.edge) → False := by
    rintro e b he hb hl ⟨hfrom, -, hrel, -⟩ ⟨d, hd, hnode, hid⟩
    obtain ⟨hunheld, hedges⟩ := h.detached d hd
    obtain ⟨hefrom, herel, -⟩ := hedges e he hid
    have := h.held b hb hl (hrel ▸ herel)
    rw [hfrom, hefrom, hunheld] at this
    cases this
  refine h.relive (g := fun e => if (t.detached.filter (·.node == id)).any (·.edge == e.id) then
      { e with validTo := none } else e) (fun e => ?_) rfl rfl rfl rfl (fun d hd => ?_)
    (fun a ha b hb hla hlb hc => ?_) (fun e he hl hrel => ?_) fun e he hl hnot a ha hedge => ?_
  · split <;> exact ⟨rfl, rfl, rfl, rfl, rfl⟩
  · obtain ⟨hdt, hne⟩ := hmem.1 hd
    obtain ⟨hunheld, hedges⟩ := h.detached d hdt
    refine ⟨hdt, ?_, fun e he hid => ?_⟩
    · rw [hcontains, hunheld, Bool.or_false, beq_eq_false_iff_ne]
      exact hne
    · obtain ⟨hfrom, -, hdead⟩ := hedges e he hid
      rw [if_neg fun hrev => ?_]
      · exact hdead
      · obtain ⟨d', hd', hnode, hid'⟩ := hrevived e hrev
        exact hne (hfrom.symm.trans (((h.detached d' hd').2 e he hid').1.trans hnode))
  · by_cases hra : (t.detached.filter (·.node == id)).any (·.edge == a.id) = true
    · by_cases hrb : (t.detached.filter (·.node == id)).any (·.edge == b.id) = true
      · obtain ⟨d, hd, -, hid⟩ := hrevived a hra
        obtain ⟨d', hd', -, hid'⟩ := hrevived b hrb
        exact h.apart d hd d' hd' a ha b hb hid hid' hc
      · rw [if_neg hrb] at hlb
        exact (hwaiting ha hb hlb hc.symm (hrevived a hra)).elim
    · rw [if_neg hra] at hla
      by_cases hrb : (t.detached.filter (·.node == id)).any (·.edge == b.id) = true
      · exact (hwaiting hb ha hla hc (hrevived b hrb)).elim
      · rw [if_neg hrb] at hlb
        exact h.unique a ha b hb hla hlb hc
  · rw [hcontains, Bool.or_eq_true, beq_iff_eq]
    by_cases hrev : (t.detached.filter (·.node == id)).any (·.edge == e.id) = true
    · obtain ⟨d, hd, hnode, hid⟩ := hrevived e hrev
      exact .inl (((h.detached d hd).2 e he hid).1.trans hnode)
    · rw [if_neg hrev] at hl
      exact .inr (h.held e he hl hrel)
  · by_cases hrev : (t.detached.filter (·.node == id)).any (·.edge == e.id) = true
    · obtain ⟨d, hd, -, hid⟩ := hrevived e hrev
      have hlinked := h.linked e he a ha hedge
      rw [((h.detached d hd).2 e he hid).2.1] at hlinked
      cases hlinked
    · rw [if_neg hrev] at hl
      exact h.standing e he hl hnot a ha hedge

theorem unhold (h : Links N loose t) (id : String) (retired : Std.ExtTreeMap String Node)
    (hfree : ∀ e ∈ t.edges, e.isLive = true → attaching e.rel = true → e.from_ ≠ id) :
    Links N loose { t with nodes := t.nodes.erase id, retired := retired } := by
  have hcontains : ∀ other, (t.nodes.erase id).contains other = true ↔
      other ≠ id ∧ t.nodes.contains other = true := by
    intro other
    rw [Std.ExtTreeMap.contains_erase, Bool.and_eq_true, bne_iff_ne, Ne,
      Std.LawfulEqCmp.compare_eq_iff_eq, eq_comm]
  refine h.relive Edge.Same.refl (List.map_id _).symm rfl rfl rfl (fun d hd => ?_) h.unique
    (fun e he hl hrel => ?_) h.standing
  · obtain ⟨hunheld, hedges⟩ := h.detached d hd
    refine ⟨hd, ?_, fun e he hid => (hedges e he hid).2.2⟩
    rw [← Bool.not_eq_true] at hunheld ⊢
    exact fun hc => hunheld ((hcontains _).1 hc).2
  · exact (hcontains _).2 ⟨hfree e he hl hrel, h.held e he hl hrel⟩

theorem attachment_iff {id : String} : Tables.attachment id e = true ↔
    e.from_ = id ∧ attaching e.rel = true ∧ e.isLive = true := by
  simp only [Tables.attachment, attaching, Bool.and_eq_true, beq_iff_eq, and_assoc]

theorem settleRow (h : Links N loose t) (id : String) (retracted : Attrs) (at_ : Int) :
    Links N loose (t.settleRow id retracted at_) := by
  unfold Tables.settleRow
  dsimp only
  split
  · exact h.fade (.of_edges rfl) rfl rfl rfl (fun _ hd => hd) (contains_alter_map _ _ _)
      fun _ hl => .inl hl
  · have hretired : Links N loose (t.retireEdges (Tables.attachment id) at_) :=
      h.fade (t.retireEdges_faded _ _) rfl rfl rfl (fun _ hd => hd) (fun _ => rfl) fun _ hl =>
        .inl hl
    have hmem : ∀ {e'}, e' ∈ (t.retireEdges (Tables.attachment id) at_).edges →
        ∃ e ∈ t.edges, e.Same e' ∧ (e'.isLive = true → Tables.attachment id e = false) ∧
          (Tables.attachment id e = true → e'.isLive = false) := by
      intro e' he'
      obtain ⟨e, he, rfl⟩ := List.mem_map.1 he'
      refine ⟨e, he, ?_⟩
      by_cases ha : Tables.attachment id e = true
      · rw [if_pos ha]
        exact ⟨⟨rfl, rfl, rfl, rfl, rfl⟩, nofun, fun _ => rfl⟩
      · rw [if_neg ha]
        exact ⟨.refl e, fun _ => Bool.eq_false_iff.2 ha, fun h => absurd h ha⟩
    have hunheld := hretired.unhold id (t.retired.alter id fun _ =>
        ((t.nodes[id]?.or t.retired[id]?).map fun n =>
          { n with attrs := retract n.attrs retracted [] })) fun e' he' hl hrel hfrom => by
      obtain ⟨e, he, hsame, hnot, -⟩ := hmem he'
      have hfaded := hnot hl
      rw [Bool.eq_false_iff] at hfaded
      obtain ⟨f, hf, heq⟩ := t.retireEdges_faded (Tables.attachment id) at_
      refine hfaded (attachment_iff.2 ⟨hsame.from_.symm.trans hfrom, hsame.rel ▸ hrel, ?_⟩)
      obtain ⟨e₀, he₀, hfe⟩ := (t.retireEdges_faded (Tables.attachment id) at_).mem he'
      rw [h.eq_of_id he he₀ (hsame.id.symm.trans hfe.id)]
      exact hfe.live hl
    refine hunheld.detach ((t.toDetach id).map fun e => ⟨e.id, id⟩) (fun d hd => ?_)
      fun d hd d' hd' e₁ he₁ e₂ he₂ hid₁ hid₂ hc => ?_
    · obtain ⟨e, he, rfl⟩ := List.mem_map.1 hd
      obtain ⟨he, hof⟩ := List.mem_filter.1 he
      have hattach := (Bool.and_eq_true_iff.1 hof).1
      refine ⟨h.seq e he, ?_, fun e' he' hid => ?_⟩
      · show (t.nodes.erase id).contains id = false
        rw [Std.ExtTreeMap.contains_erase]
        simp
      · obtain ⟨e₀, he₀, hsame, -, hdead⟩ := hmem he'
        have heq : e₀ = e := h.eq_of_id he₀ he (hsame.id.symm.trans hid)
        rw [heq] at hsame hdead
        obtain ⟨hfrom, hrel, -⟩ := attachment_iff.1 hattach
        exact ⟨hsame.from_.trans hfrom, hsame.rel ▸ hrel, hdead hattach⟩
    · obtain ⟨e, he, rfl⟩ := List.mem_map.1 hd
      obtain ⟨he, hof⟩ := List.mem_filter.1 he
      obtain ⟨hfrom, hrel, hl⟩ := attachment_iff.1 (Bool.and_eq_true_iff.1 hof).1
      obtain ⟨a, ha, hsame₁, -, -⟩ := hmem he₁
      obtain ⟨b, hb, hsame₂, -, -⟩ := hmem he₂
      have hae : a = e := h.eq_of_id ha he (hsame₁.id.symm.trans hid₁)
      subst hae
      have hcab := hsame₁.clashes hsame₂ hc
      rw [hsame₁.id, hsame₂.id]
      rcases List.mem_append.1 hd' with hdt | hdn
      · -- what is detached already is of a node not held
        obtain ⟨hnot, hedges⟩ := h.detached d' hdt
        obtain ⟨hbfrom, -, -⟩ := hedges b hb (hsame₂.id.symm.trans hid₂)
        have hheld := h.held a ha hl hrel
        rw [hcab.1, hbfrom, hnot] at hheld
        cases hheld
      · obtain ⟨e', he', rfl⟩ := List.mem_map.1 hdn
        obtain ⟨he', hof'⟩ := List.mem_filter.1 he'
        obtain ⟨-, -, hl'⟩ := attachment_iff.1 (Bool.and_eq_true_iff.1 hof').1
        have hbe : b = e' := h.eq_of_id hb he' (hsame₂.id.symm.trans hid₂)
        subst hbe
        exact h.unique a ha b hb hl hl' hcab

/-- A live reference of a placeholder keeps apart from the others whatever its tier. -/
theorem retier (h : Links N loose t) (p : Edge → Bool) (tier : Tier)
    (hp : ∀ e ∈ t.edges, p e = true →
      e.isLive = true ∧ referring e.rel = true ∧ (leafOf e.to_).isSome = true) :
    Links N loose (t.updateEdges p fun e => { e with tier := tier }) := by
  have hmem : ∀ {e'}, e' ∈ (t.updateEdges p fun e => { e with tier := tier }).edges →
      ∃ e ∈ t.edges, e'.id = e.id ∧ e'.from_ = e.from_ ∧ e'.to_ = e.to_ ∧ e'.rel = e.rel ∧
        e'.isLive = e.isLive ∧ (p e = false → e'.tier = e.tier) := by
    intro e' he'
    obtain ⟨e, he, rfl⟩ := List.mem_map.1 he'
    refine ⟨e, he, ?_⟩
    by_cases hpe : p e = true
    · rw [if_pos hpe]
      exact ⟨rfl, rfl, rfl, rfl, rfl, fun h => by simp [hpe] at h⟩
    · rw [if_neg hpe]
      exact ⟨rfl, rfl, rfl, rfl, rfl, fun _ => rfl⟩
  constructor
  · refine List.pairwise_map.2 (h.ids.imp fun hab => ?_)
    have hid : ∀ e : Edge, (if p e then { e with tier := tier } else e).id = e.id := fun e => by
      split <;> rfl
    rwa [hid, hid]
  · intro e' he'
    obtain ⟨e, he, hid, -⟩ := hmem he'
    exact hid ▸ h.seq e he
  · exact h.rowSeq
  · exact h.detachedSeq
  · intro a' ha' b' hb' hla hlb hc
    obtain ⟨a, ha, hida, hfroma, htoa, hrela, hlivea, htiera⟩ := hmem ha'
    obtain ⟨b, hb, hidb, hfromb, htob, hrelb, hliveb, htierb⟩ := hmem hb'
    rw [Edge.Clashes, hfroma, hfromb, htoa, htob, hrela, hrelb] at hc
    rw [hida, hidb]
    refine h.unique a ha b hb (hlivea ▸ hla) (hliveb ▸ hlb) ⟨hc.1, hc.2.1, hc.2.2.1, ?_⟩
    rcases hc.2.2.2 with htier | hplace
    · by_cases hpa : p a = true
      · exact .inr (hp a ha hpa).2
      · by_cases hpb : p b = true
        · obtain ⟨-, hrefers, hplace⟩ := hp b hb hpb
          rw [hc.2.2.1, hc.2.1]
          exact .inr ⟨hrefers, hplace⟩
        · rw [htiera (Bool.eq_false_iff.2 hpa), htierb (Bool.eq_false_iff.2 hpb)] at htier
          exact .inl htier
    · exact .inr hplace
  · intro e' he' hrel
    obtain ⟨e, he, -, hfrom, -, hrel', -⟩ := hmem he'
    exact hfrom ▸ h.node e he (hrel' ▸ hrel)
  · intro e' he' hl hrel
    obtain ⟨e, he, -, hfrom, -, hrel', hlive, -⟩ := hmem he'
    rw [hfrom]
    exact h.held e he (hlive ▸ hl) (hrel' ▸ hrel)
  · intro e' he' a ha hedge
    obtain ⟨e, he, hid, -, -, hrel', -⟩ := hmem he'
    exact hrel' ▸ h.linked e he a ha (hedge.trans hid)
  · intro e' he' hl hnot a ha hedge
    obtain ⟨e, he, hid, -, -, -, hlive, -⟩ := hmem he'
    rw [hid] at hnot hedge ⊢
    exact h.standing e he (hlive ▸ hl) hnot a ha hedge
  · intro d hd
    refine ⟨(h.detached d hd).1, fun e' he' hid' => ?_⟩
    obtain ⟨e, he, hid, hfrom, -, hrel', hlive, -⟩ := hmem he'
    rw [hfrom, hrel', hlive]
    exact (h.detached d hd).2 e he (hid.symm.trans hid')
  · intro d hd d' hd' e₁ he₁ e₂ he₂ hid₁ hid₂ hc
    obtain ⟨a, ha, hida, hfroma, htoa, hrela, -, htiera⟩ := hmem he₁
    obtain ⟨b, hb, hidb, hfromb, htob, hrelb, -, htierb⟩ := hmem he₂
    -- what is detached is no reference, so neither is retiered
    have hwas : ∀ {e : Edge}, e ∈ t.edges → (∃ d ∈ t.detached, e.id = d.edge) → p e = false := by
      rintro e he ⟨d, hd, hid⟩
      rw [Bool.eq_false_iff]
      intro hpe
      have hdead := ((h.detached d hd).2 e he hid).2.2
      rw [(hp e he hpe).1] at hdead
      cases hdead
    rw [hida] at hid₁ ⊢
    rw [hidb] at hid₂ ⊢
    rw [Edge.Clashes, hfroma, hfromb, htoa, htob, hrela, hrelb, htiera (hwas ha ⟨d, hd, hid₁⟩),
      htierb (hwas hb ⟨d', hd', hid₂⟩)] at hc
    exact h.apart d hd d' hd' a ha b hb hid₁ hid₂ hc

theorem dropMemberless (h : Links N loose t) (grain : String) (kind : NodeKind) (rel : Rel)
    (hnodes : ∀ (id : String) (n : Node), t.nodes[id]? = some n → n.kind = kind → ¬N id) :
    Links N loose (t.dropMemberless grain kind rel) := by
  refine h.relive Edge.Same.refl (List.map_id _).symm rfl rfl rfl (fun d hd => ?_) h.unique
    (fun e he hl hrel => ?_) h.standing
  · obtain ⟨hunheld, hedges⟩ := h.detached d hd
    refine ⟨hd, ?_, fun e he hid => (hedges e he hid).2.2⟩
    rw [Std.ExtTreeMap.contains_eq_isSome_getElem?, Option.isSome_eq_false_iff,
      Option.isNone_iff_eq_none] at hunheld ⊢
    rw [Tables.dropMemberless_getElem?, hunheld]
    rfl
  · have hheld := h.held e he hl hrel
    rw [Std.ExtTreeMap.contains_eq_isSome_getElem?, Option.isSome_iff_exists] at hheld ⊢
    obtain ⟨n, hn⟩ := hheld
    have hkind : n.kind ≠ kind := fun hk => hnodes _ n hn hk (h.node e he hrel)
    refine ⟨n, ?_⟩
    rw [Tables.dropMemberless_getElem?, hn, Option.filter_some, if_pos (by simp [hkind])]

theorem retireGrain (h : Links N loose t) (pre : String) (rel : Rel) (at_ : Int) :
    Links N loose (t.retireGrain pre rel at_) :=
  h.fade (t.retireEdges_faded _ _) rfl rfl rfl (fun _ hd => (List.mem_filter.1 hd).1) (fun _ => rfl)
    fun _ hl => .inl hl

/-! ### Opening a generation -/

theorem mem_liveEdgeAssertions {edge : Nat} {a : EdgeAssertion} : a ∈ t.liveEdgeAssertions edge ↔
    a ∈ t.edgeAssertions ∧ a.edge = edge ∧
      (a.identity = "" ∨ t.currentGeneration a.identity = some a.generation) := by
  simp [Tables.liveEdgeAssertions, Tables.holdsEdge]

/-- The row that holds a live edge some row names. -/
theorem holder (h : Links N loose t) (he : e ∈ t.edges) (hl : e.isLive = true) (hnot : ¬loose e.id)
    {a : EdgeAssertion} (ha : a ∈ t.edgeAssertions) (hedge : a.edge = e.id) :
    ∃ w ∈ t.edgeAssertions, w.edge = e.id ∧
      (w.identity = "" ∨ t.currentGeneration w.identity = some w.generation) := by
  obtain ⟨w, hw⟩ := List.exists_mem_of_ne_nil _ (h.standing e he hl hnot a ha hedge)
  exact ⟨w, mem_liveEdgeAssertions.1 hw⟩

theorem began (h : Links N loose t) (hnone : t.currentGeneration by_.identity = none) :
    Links N loose (t.began by_) := by
  refine h.withRows t.edgeAssertions _
    (fun a ha => .inl ⟨a, ha, rfl⟩) fun e he hl hnot a ha hedge => ?_
  obtain ⟨w, hw, hwedge, hholds⟩ := h.holder he hl hnot ha hedge
  refine List.ne_nil_of_mem (mem_liveEdgeAssertions.2 ⟨hw, hwedge, hholds.imp_right fun hg => ?_⟩)
  have hne : w.identity ≠ by_.identity := fun heq => by
    rw [heq, hnone] at hg
    cases hg
  exact (t.began_currentGeneration by_ _).trans ((if_neg hne).trans hg)

variable {prior : String}

/-- The edges the superseded generation asserted are loose as the newer one opens. -/
theorem opened (h : Links N (fun _ => False) t) (hid : by_.identity ≠ "")
    (hprior : t.currentGeneration by_.identity = some prior) :
    Links N (fun edge => ∃ a ∈ (t.opened by_ prior).edgeAssertions, a.identity = by_.identity ∧
      a.generation = prior ∧ a.edge = edge) (t.opened by_ prior) := by
  refine (h.withRows (t.edgeAssertions.filter fun a =>
    !(a.identity == by_.identity && a.generation != prior)) _ (fun a ha =>
      .inl ⟨a, (List.mem_filter.1 ha).1, rfl⟩) fun e he hl hnot a ha hedge => ?_).sameEdges
    ⟨rfl, rfl, rfl, rfl, rfl⟩ rfl fun _ => rfl
  obtain ⟨w, hw, hwedge, hholds⟩ := h.holder he hl (fun hf => hf) (List.mem_filter.1 ha).1 hedge
  -- what held the edge was the superseded generation, or still holds it
  by_cases hwid : w.identity = by_.identity
  · have hwgen : w.generation = prior := by
      rw [hwid, hprior] at hholds
      exact (Option.some.inj (hholds.resolve_left hid)).symm
    exact absurd ⟨w, List.mem_filter.2 ⟨hw, by simp [hwgen]⟩, hwid, hwgen, hwedge⟩ hnot
  · refine List.ne_nil_of_mem (mem_liveEdgeAssertions.2
      ⟨List.mem_filter.2 ⟨hw, by simp [hwid]⟩, hwedge, hholds.imp_right fun hg => ?_⟩)
    exact (t.opened_currentGeneration by_ _).trans ((if_neg hwid).trans hg)

theorem settledEdges (h : Links N (fun _ => False) t) (hid : by_.identity ≠ "")
    (hprior : t.currentGeneration by_.identity = some prior) :
    Links N (fun _ => False) (t.settledEdges by_ prior) := by
  refine ((h.opened hid hprior).settleEdges _ by_.at_).mono fun e' he' hl hloose => ?_
  obtain ⟨⟨a, ha, haid, hagen, haedge⟩, hnot⟩ := hloose
  obtain ⟨e, he, hfades⟩ := ((t.opened by_ prior).settleEdges_faded _ by_.at_).mem he'
  refine hnot (List.mem_map.2 ⟨e, List.mem_filter.2 ⟨he, ?_⟩, hfades.id.symm⟩)
  rw [Bool.and_eq_true, List.any_eq_true]
  exact ⟨hfades.live hl, a, ha, by simp [haid, hagen, haedge, hfades.id]⟩

/-! ### Staged references -/

theorem dropRows (h : Links N (fun _ => False) t) (dropped : EdgeAssertion → Bool) (at_ : Int) :
    Links N (fun _ => False)
      ({ t with edgeAssertions := t.edgeAssertions.filter fun a => !dropped a }.settleEdges
        ((t.edgeAssertions.filter dropped).map EdgeAssertion.edge) at_) := by
  have hloose : Links N (· ∈ (t.edgeAssertions.filter dropped).map EdgeAssertion.edge)
      { t with edgeAssertions := t.edgeAssertions.filter fun a => !dropped a } := by
    refine h.withRows _ t.generations (fun a ha => .inl ⟨a, (List.mem_filter.1 ha).1, rfl⟩)
      fun e he hl hnot a ha hedge => ?_
    obtain ⟨w, hw, hwedge, hholds⟩ := h.holder he hl (fun hf => hf) (List.mem_filter.1 ha).1 hedge
    refine List.ne_nil_of_mem
      (mem_liveEdgeAssertions.2 ⟨List.mem_filter.2 ⟨hw, ?_⟩, hwedge, hholds⟩)
    rw [Bool.not_eq_true', ← Bool.not_eq_true]
    exact fun hwdropped => hnot (List.mem_map.2 ⟨w, List.mem_filter.2 ⟨hw, hwdropped⟩, hwedge⟩)
  exact (hloose.settleEdges _ at_).mono fun _ _ _ hl => absurd hl.1 hl.2

theorem releaseReference (h : Links N (fun _ => False) t) (by_ : Asserter) (src target : String) :
    Links N (fun _ => False) (t.releaseReference by_ src target) := by
  unfold Tables.releaseReference
  split
  · exact h
  · exact h.dropRows _ by_.at_

theorem dropStale (h : Links N (fun _ => False) t) (hid : by_.identity ≠ "")
    (hcurrent : t.currentGeneration by_.identity = some by_.generation) (p : EdgeAssertion → Bool) :
    Links N (fun _ => False) { t with
      edgeAssertions := t.edgeAssertions.filter fun a =>
        !(a.identity == by_.identity && a.generation != by_.generation && p a) } := by
  refine h.withRows _ t.generations (fun a ha => .inl ⟨a, (List.mem_filter.1 ha).1, rfl⟩)
    fun e he hl hnot a ha hedge => ?_
  obtain ⟨w, hw, hwedge, hholds⟩ := h.holder he hl hnot (List.mem_filter.1 ha).1 hedge
  refine List.ne_nil_of_mem (mem_liveEdgeAssertions.2 ⟨List.mem_filter.2 ⟨hw, ?_⟩, hwedge, hholds⟩)
  by_cases hwid : w.identity = by_.identity
  · rw [hwid, hcurrent] at hholds
    simp [(Option.some.inj (hholds.resolve_left hid)).symm]
  · simp [hwid]

end Links

end Rigger.Graph
