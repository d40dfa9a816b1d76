import Rigger.Graph.Links

/-!
# Attachments

An attachment is no reference and no assertion names it, so `Links` holds of the attachments taken
alone (`hanging`) whatever the other edges are.  A node is a member of a group while an attachment
of it is live or waits detached (`Member`); `Hung` says that the members are those of `M`, and so
the live attachments are the memberships of `M` whose node is held (`Hung.live_iff`).
-/

namespace Rigger.Graph

open Lib

namespace Tables

variable (t : Tables)

/-- The tables with their attachments as the only edges. -/
def hanging : Tables :=
  { t with edges := t.edges.filter fun e => attaching e.rel, edgeAssertions := [] }

/-- An id given to an edge that attaches no node. -/
def Loose (edge : Nat) : Prop :=
  edge ≤ t.edgeSeq ∧ ∀ e ∈ t.edges, e.id = edge → attaching e.rel = false

/-- The edge is live, or waits detached. -/
def Stands (e : Edge) : Prop := e.isLive = true ∨ ∃ d ∈ t.detached, d.edge = e.id

/-- A live attachment of the node to the group. -/
def LiveMember (rel : Rel) (node group : String) : Prop :=
  ∃ e ∈ t.edges, e.isLive = true ∧ e.rel = rel ∧ e.from_ = node ∧ e.to_ = group

/-- An attachment of the node to the group is live, or waits for the node. -/
def Member (rel : Rel) (node group : String) : Prop :=
  ∃ e ∈ t.edges, e.rel = rel ∧ e.from_ = node ∧ e.to_ = group ∧ t.Stands e

variable {t} {t' : Tables}

theorem mem_hanging {e : Edge} : e ∈ t.hanging.edges ↔ e ∈ t.edges ∧ attaching e.rel = true :=
  List.mem_filter

theorem member_hanging {rel : Rel} (hrel : attaching rel = true) (node group : String) :
    t.hanging.Member rel node group ↔ t.Member rel node group := by
  constructor
  · rintro ⟨e, he, hof⟩
    exact ⟨e, (mem_hanging.1 he).1, hof⟩
  · rintro ⟨e, he, rfl, hof⟩
    exact ⟨e, mem_hanging.2 ⟨he, hrel⟩, rfl, hof⟩

variable {g : Edge → Edge}

/-- The attachments of mapped edges are the attachments mapped. -/
theorem hanging_map (hg : ∀ e : Edge, e.Same (g e)) (hedges : t'.edges = t.edges.map g) :
    t'.hanging.edges = t.hanging.edges.map g := by
  show t'.edges.filter _ = (t.edges.filter _).map g
  rw [hedges, List.filter_map]
  refine congrArg (List.map g) (List.filter_congr fun e _ => ?_)
  show attaching (g e).rel = attaching e.rel
  rw [(hg e).rel]

/-- Edges that keep their keys: the members are those whose edges stand. -/
theorem member_map (hg : ∀ e : Edge, e.Same (g e)) (hedges : t'.edges = t.edges.map g) {rel : Rel}
    {node group : String} {q : Prop}
    (hstands : ∀ e ∈ t.edges, e.rel = rel → e.from_ = node → e.to_ = group →
      (t'.Stands (g e) ↔ t.Stands e ∧ q)) :
    t'.Member rel node group ↔ t.Member rel node group ∧ q := by
  constructor
  · rintro ⟨e', he', hrel, hfrom, hto, hst⟩
    rw [hedges] at he'
    obtain ⟨e, he, rfl⟩ := List.mem_map.1 he'
    rw [(hg e).rel] at hrel
    rw [(hg e).from_] at hfrom
    rw [(hg e).to_] at hto
    obtain ⟨hst, hq⟩ := (hstands e he hrel hfrom hto).1 hst
    exact ⟨⟨e, he, hrel, hfrom, hto, hst⟩, hq⟩
  · rintro ⟨⟨e, he, hrel, hfrom, hto, hst⟩, hq⟩
    refine ⟨g e, ?_, (hg e).rel.trans hrel, (hg e).from_.trans hfrom, (hg e).to_.trans hto,
      (hstands e he hrel hfrom hto).2 ⟨hst, hq⟩⟩
    rw [hedges]
    exact List.mem_map_of_mem he

theorem member_congr (hg : ∀ e : Edge, e.Same (g e)) (hedges : t'.edges = t.edges.map g)
    (hstands : ∀ e ∈ t.edges, t'.Stands (g e) ↔ t.Stands e) (rel : Rel) (node group : String) :
    t'.Member rel node group ↔ t.Member rel node group :=
  (member_map hg hedges fun e he _ _ _ => (hstands e he).trans (iff_of_eq (and_true _).symm)).trans
    (iff_of_eq (and_true _))

end Tables

/-- Attachments alone, as they were. -/
theorem Links.hang {N : String → Prop} {loose : Nat → Prop} {t t' : Tables} (h : Links N loose t)
    (hedges : t'.edges = t.edges) (hle : t.edgeSeq ≤ t'.edgeSeq) (hrows : t'.edgeAssertions = [])
    (hdetached : t'.detached = t.detached)
    (hheld : ∀ id, t'.nodes.contains id = t.nodes.contains id) : Links N loose t' where
  ids := hedges ▸ h.ids
  seq := fun e he => (h.seq e (hedges ▸ he)).trans hle
  rowSeq := by simp [hrows]
  detachedSeq := fun d hd => (h.detachedSeq d (hdetached ▸ hd)).trans hle
  unique := by
    rw [hedges]
    exact h.unique
  node := by
    rw [hedges]
    exact h.node
  held := by
    rw [hedges]
    exact fun e he hl hrel => (hheld _).trans (h.held e he hl hrel)
  linked := by simp [hrows]
  standing := by simp [hrows]
  detached := by
    rw [hedges, hdetached]
    exact fun d hd => ⟨(hheld _).trans (h.detached d hd).1, (h.detached d hd).2⟩
  apart := by
    rw [hedges, hdetached]
    exact h.apart

/-! ## The invariant -/

/-- The members of the groups are those of `M`, by attachments of nodes of `N`. -/
structure Hung (N : String → Prop) (M : Rel → String → String → Prop) (t : Tables) : Prop where
  ids : t.edges.Pairwise fun a b => a.id < b.id
  seq : ∀ e ∈ t.edges, e.id ≤ t.edgeSeq
  rows : ∀ a ∈ t.edgeAssertions, t.Loose a.edge
  tier : ∀ e ∈ t.edges, attaching e.rel = true → e.tier = .inferred
  links : Links N (fun _ => False) t.hanging
  members : ∀ rel node group, attaching rel = true → (t.Member rel node group ↔ M rel node group)

namespace Hung

variable {N : String → Prop} {M : Rel → String → String → Prop} {t t' : Tables}

theorem empty : Hung N (fun _ _ _ => False) .empty where
  ids := List.Pairwise.nil
  seq := by simp [Tables.empty]
  rows := by simp [Tables.empty]
  tier := by simp [Tables.empty]
  links := by constructor <;> simp [Tables.empty, Tables.hanging]
  members := by simp [Tables.Member, Tables.empty]

theorem eq_of_id (h : Hung N M t) {a b : Edge} (ha : a ∈ t.edges) (hb : b ∈ t.edges)
    (hid : a.id = b.id) : a = b := by
  have hids : (t.edges.map Edge.id).Nodup :=
    List.pairwise_map.2 (h.ids.imp fun hab => Nat.ne_of_lt hab)
  exact List.inj_on_of_nodup_map hids ha hb hid

variable {rel : Rel} {p : Edge → Bool}

theorem live_iff (h : Hung N M t) (hrel : attaching rel = true) (node group : String) :
    t.LiveMember rel node group ↔ M rel node group ∧ t.nodes.contains node = true := by
  rw [← h.members rel node group hrel]
  constructor
  · rintro ⟨e, he, hl, rfl, rfl, rfl⟩
    exact ⟨⟨e, he, rfl, rfl, rfl, .inl hl⟩,
      h.links.held e (Tables.mem_hanging.2 ⟨he, hrel⟩) hl hrel⟩
  · rintro ⟨⟨e, he, rfl, rfl, rfl, hl | ⟨d, hd, hid⟩⟩, hheld⟩
    · exact ⟨e, he, hl, rfl, rfl, rfl⟩
    · -- what waits is of a node not held
      obtain ⟨hunheld, hedges⟩ := h.links.detached d hd
      rw [(hedges e (Tables.mem_hanging.2 ⟨he, hrel⟩) hid.symm).1] at hheld
      exact absurd hheld (by rw [show t.nodes.contains d.node = false from hunheld]; decide)

theorem node_of_member (h : Hung N M t) (hrel : attaching rel = true) {node group : String}
    (hM : M rel node group) : N node := by
  obtain ⟨e, he, rfl, rfl, -, -⟩ := (h.members rel node group hrel).2 hM
  exact h.links.node e (Tables.mem_hanging.2 ⟨he, hrel⟩) hrel

theorem unique (h : Hung N M t) {a b : Edge} (ha : a ∈ t.edges) (hb : b ∈ t.edges)
    (hla : a.isLive = true) (hlb : b.isLive = true) (hrel : attaching a.rel = true)
    (hfrom : a.from_ = b.from_) (hto : a.to_ = b.to_) (hsame : a.rel = b.rel) : a.id = b.id := by
  have hrel' : attaching b.rel = true := hsame ▸ hrel
  exact h.links.unique a (Tables.mem_hanging.2 ⟨ha, hrel⟩) b
    (Tables.mem_hanging.2 ⟨hb, hrel'⟩) hla hlb
    ⟨hfrom, hto, hsame, .inl ((h.tier a ha hrel).trans (h.tier b hb hrel').symm)⟩

/-! ### What leaves the attachments alone -/

theorem apart (h : Hung N M t) (hids : t'.edges.Pairwise fun a b => a.id < b.id)
    (hseq : ∀ e ∈ t'.edges, e.id ≤ t'.edgeSeq)
    (hrows : ∀ a ∈ t'.edgeAssertions, t'.Loose a.edge)
    (hhanging : t'.hanging.edges = t.hanging.edges) (hle : t.edgeSeq ≤ t'.edgeSeq)
    (hdetached : t'.detached = t.detached)
    (hheld : ∀ id, t'.nodes.contains id = t.nodes.contains id) : Hung N M t' where
  ids := hids
  seq := hseq
  rows := hrows
  tier := fun e he hrel => by
    have he : e ∈ t'.hanging.edges := Tables.mem_hanging.2 ⟨he, hrel⟩
    rw [hhanging] at he
    exact h.tier e (Tables.mem_hanging.1 he).1 hrel
  links := h.links.hang hhanging hle rfl hdetached hheld
  members := fun rel node group hrel => by
    have hsame : t'.hanging.Member rel node group ↔ t.hanging.Member rel node group := by
      unfold Tables.Member Tables.Stands
      rw [hhanging, show t'.hanging.detached = t.hanging.detached from hdetached]
    rw [← h.members rel node group hrel, ← Tables.member_hanging hrel, hsame,
      Tables.member_hanging hrel]

theorem sameEdges (h : Hung N M t) (hs : SameEdges t t')
    (hheld : ∀ id, t'.nodes.contains id = t.nodes.contains id) : Hung N M t' :=
  h.apart (hs.edges ▸ h.ids) (by rw [hs.edges, hs.edgeSeq]; exact h.seq)
    (by unfold Tables.Loose; rw [hs.edgeAssertions, hs.edges, hs.edgeSeq]; exact h.rows)
    (by show t'.edges.filter _ = t.edges.filter _; rw [hs.edges]) (Nat.le_of_eq hs.edgeSeq.symm)
    hs.detached hheld

/-- Edges that attach no node changed, their keys kept. -/
theorem updateEdges (h : Hung N M t) {f : Edge → Edge}
    (hf : ∀ e : Edge, (f e).id = e.id ∧ (f e).rel = e.rel)
    (hp : ∀ e ∈ t.edges, p e = true → attaching e.rel = false) : Hung N M (t.updateEdges p f) := by
  have hkeys : ∀ e : Edge, (if p e then f e else e).id = e.id ∧
      (if p e then f e else e).rel = e.rel := fun e => by
    split
    · exact hf e
    · exact ⟨rfl, rfl⟩
  have hmem : ∀ {e'}, e' ∈ (t.updateEdges p f).edges → ∃ e ∈ t.edges, e'.id = e.id ∧
      e'.rel = e.rel := by
    intro e' he'
    obtain ⟨e, he, rfl⟩ := List.mem_map.1 he'
    exact ⟨e, he, hkeys e⟩
  refine h.apart ?_ (fun e' he' => ?_) (fun a ha => ⟨(h.rows a ha).1, fun e' he' hid => ?_⟩) ?_
    (Nat.le_refl _) rfl fun _ => rfl
  · refine List.pairwise_map.2 (h.ids.imp fun {a b} hab => ?_)
    rwa [(hkeys a).1, (hkeys b).1]
  · obtain ⟨e, he, hid, -⟩ := hmem he'
    exact hid ▸ h.seq e he
  · obtain ⟨e, he, hide, hrel⟩ := hmem he'
    rw [hrel]
    exact (h.rows a ha).2 e he (hide.symm.trans hid)
  · -- an edge that attaches stays as it was
    show (t.edges.map _).filter _ = t.edges.filter _
    rw [List.filter_map]
    have hsame : t.edges.filter ((fun e => attaching e.rel) ∘ fun e => if p e then f e else e) =
        t.edges.filter fun e => attaching e.rel :=
      List.filter_congr fun e _ => congrArg attaching (hkeys e).2
    rw [hsame]
    refine (List.map_congr_left fun e he => ?_).trans (List.map_id _)
    obtain ⟨he, hrel⟩ := List.mem_filter.1 he
    refine if_neg fun hpe => ?_
    rw [hp e he hpe] at hrel
    cases hrel

theorem retireEdges (h : Hung N M t) (at_ : Int)
    (hp : ∀ e ∈ t.edges, p e = true → attaching e.rel = false) : Hung N M (t.retireEdges p at_) :=
  h.updateEdges (fun _ => ⟨rfl, rfl⟩) hp

theorem addEdge (h : Hung N M t) (src dst : String) (hrel : attaching rel = false) (at_ : Int)
    (source : Nat) (tier : Tier) :
    Hung N M (t.addEdge src dst rel at_ source tier).1 ∧
      (t.addEdge src dst rel at_ source tier).1.Loose
      (t.addEdge src dst rel at_ source tier).2 := by
  unfold Tables.addEdge
  split
  case h_1 found hfound =>
    have hkeyed : found.rel = rel := by
      have := List.find?_some hfound
      simp only [Edge.standing, Edge.keyed, Bool.and_eq_true, beq_iff_eq] at this
      exact this.1.1.2
    have hupdated : Hung N M
        (t.updateEdges (Edge.standing src dst rel tier) (·.reassert at_ source)) :=
      h.updateEdges (fun _ => ⟨rfl, rfl⟩) fun e _ hp => by
        simp only [Edge.standing, Edge.keyed, Bool.and_eq_true, beq_iff_eq] at hp
        rw [hp.1.1.2, hrel]
    refine ⟨hupdated, h.seq found (List.mem_of_find?_eq_some hfound), fun e' he' hid => ?_⟩
    obtain ⟨e, he, rfl⟩ := List.mem_map.1 he'
    have hsame : ∀ {e : Edge}, (if Edge.standing src dst rel tier e then e.reassert at_ source
        else e).id = e.id ∧ (if Edge.standing src dst rel tier e then e.reassert at_ source
        else e).rel = e.rel := by
      intro e
      split <;> exact ⟨rfl, rfl⟩
    rw [hsame.2, h.eq_of_id he (List.mem_of_find?_eq_some hfound) (hsame.1.symm.trans hid), hkeyed]
    exact hrel
  case h_2 =>
    have hedges : ∀ {e}, e ∈ t.edges ++ [⟨t.edgeSeq + 1, src, dst, rel, at_, none, source, tier⟩] ↔
        e ∈ t.edges ∨ e = ⟨t.edgeSeq + 1, src, dst, rel, at_, none, source, tier⟩ := by
      intro e
      rw [List.mem_append, List.mem_singleton]
    have hinserted : Hung N M (t.insertEdge src dst rel at_ none source tier) := by
      refine h.apart ?_ (fun e he => ?_) (fun a ha => ⟨Nat.le_succ_of_le (h.rows a ha).1,
        fun e he hid => ?_⟩) ?_ (Nat.le_succ _) rfl fun _ => rfl
      · refine List.pairwise_append.2 ⟨h.ids, List.pairwise_singleton _ _, fun a ha b hb => ?_⟩
        rw [List.mem_singleton.1 hb]
        exact Nat.lt_succ_of_le (h.seq a ha)
      · rcases hedges.1 he with he | rfl
        · exact Nat.le_succ_of_le (h.seq e he)
        · exact Nat.le_refl _
      · rcases hedges.1 he with he | rfl
        · exact (h.rows a ha).2 e he hid
        · exact hrel
      · show (t.edges ++ [_]).filter _ = t.edges.filter _
        rw [List.filter_append, List.filter_singleton]
        simp [hrel]
    have howed := Tables.oweRelabelOfEnds_sameEdges (t.insertEdge src dst rel at_ none source tier)
      src dst rel ((t.insertEdge src dst rel at_ none source tier).declaration rel dst)
    refine ⟨hinserted.sameEdges howed fun id => ?_, Nat.le_of_eq howed.edgeSeq.symm,
      fun e he hid => ?_⟩
    · rw [(Tables.oweRelabelOfEnds_sameNodes _ _ _ _ _).nodes]
    · rw [howed.edges] at he
      rcases hedges.1 he with he | rfl
      · have := h.seq e he
        have hid : e.id = t.edgeSeq + 1 := hid
        omega
      · exact hrel

/-- Rows added or dropped, of edges that attach no node. -/
theorem withRows (h : Hung N M t) (rows : List EdgeAssertion)
    (generations : Std.ExtTreeMap String Generation)
    (hrows : ∀ a ∈ rows, (∃ a' ∈ t.edgeAssertions, a'.edge = a.edge) ∨ t.Loose a.edge) :
    Hung N M { t with edgeAssertions := rows, generations := generations } :=
  h.apart h.ids h.seq (fun a ha => by
    rcases hrows a ha with ⟨a', ha', hedge⟩ | hloose
    · exact hedge ▸ h.rows a' ha'
    · exact hloose) rfl (Nat.le_refl _) rfl fun _ => rfl

variable {edge : Nat}

theorem settleEdge (h : Hung N M t) (hedge : t.Loose edge) (at_ : Int) :
    Hung N M (t.settleEdge edge at_) := by
  have hof : ∀ e ∈ t.edges, (e.id == edge) = true → attaching e.rel = false :=
    fun e he hid => hedge.2 e he (beq_iff_eq.1 hid)
  unfold Tables.settleEdge
  split
  · exact h.updateEdges (fun _ => ⟨rfl, rfl⟩) hof
  · have hretired := h.retireEdges at_ hof
    dsimp only
    split
    · exact hretired.sameEdges (Tables.oweRelabelOfEnds_sameEdges _ _ _ _ _) fun id => by
        rw [(Tables.oweRelabelOfEnds_sameNodes _ _ _ _ _).nodes]
    · exact hretired

theorem loose_settleEdge (h : t.Loose edge) (other : Nat) (at_ : Int) :
    (t.settleEdge other at_).Loose edge := by
  obtain ⟨hfaded, hseq, -⟩ := t.settleEdge_cases other at_
  refine ⟨hseq ▸ h.1, fun e' he' hid => ?_⟩
  obtain ⟨e, he, hfades⟩ := hfaded.mem he'
  rw [hfades.rel]
  exact h.2 e he (hfades.id.symm.trans hid)

theorem settleEdges (h : Hung N M t) {edges : List Nat} (hedges : ∀ edge ∈ edges, t.Loose edge)
    (at_ : Int) : Hung N M (t.settleEdges edges at_) := by
  unfold Tables.settleEdges
  induction edges generalizing t with
  | nil => exact h
  | cons edge edges ih =>
    refine ih (h.settleEdge (hedges edge (by simp)) at_) fun other hother => ?_
    exact loose_settleEdge (hedges other (List.mem_cons_of_mem _ hother)) edge at_

theorem recordEdgeAssertion (h : Hung N M t) (by_ : Asserter) (hedge : t.Loose edge) (at_ : Int)
    (source : Nat) : Hung N M (t.recordEdgeAssertion by_ edge at_ source) := by
  unfold Tables.recordEdgeAssertion
  split
  · refine h.withRows _ t.generations fun a ha => .inl ?_
    obtain ⟨a', ha', rfl⟩ := List.mem_map.1 ha
    refine ⟨a', ha', ?_⟩
    split <;> rfl
  · refine h.withRows _ t.generations fun a ha => ?_
    rcases List.mem_append.1 ha with ha | ha
    · exact .inl ⟨a, ha, rfl⟩
    · rw [List.mem_singleton.1 ha]
      exact .inr hedge

theorem linkedEdge (h : Hung N M t) (by_ : Asserter) (src dst : String)
    (hrel : attaching rel = false) (at_ : Int) (source : Nat) (tier : Tier) :
    Hung N M (t.linkedEdge by_ src dst rel at_ source tier).1 ∧
      (t.linkedEdge by_ src dst rel at_ source tier).1.Loose
        (t.linkedEdge by_ src dst rel at_ source tier).2 := by
  unfold Tables.linkedEdge
  split
  case h_1 found hfound =>
    have hmem : found ∈ t.edges ∧ found.rel = rel := by
      unfold Tables.revivable at hfound
      split at hfound
      · cases hfound
      · obtain ⟨hmem, hof⟩ := List.mem_filter.1 (List.mem_of_getLast? hfound)
        simp only [Edge.keyed, Bool.and_eq_true, beq_iff_eq] at hof
        exact ⟨hmem, hof.1.1.1.2⟩
    have hloose : t.Loose found.id := by
      refine ⟨h.seq found hmem.1, fun e he hid => ?_⟩
      rw [h.eq_of_id he hmem.1 hid, hmem.2, hrel]
    refine ⟨h.updateEdges (fun _ => ⟨rfl, rfl⟩) fun e he hid => hloose.2 e he (beq_iff_eq.1 hid),
      hloose.1, fun e' he' hid => ?_⟩
    obtain ⟨e, he, rfl⟩ := List.mem_map.1 he'
    dsimp only at hid ⊢
    split at hid
    case isTrue hof =>
      rw [if_pos hof]
      exact hloose.2 e he hid
    case isFalse hof =>
      rw [if_neg hof]
      exact hloose.2 e he hid
  case h_2 => exact h.addEdge src dst hrel at_ source tier

theorem assertLink (h : Hung N M t) (by_ : Asserter) (src dst : String)
    (hrel : attaching rel = false) (at_ : Int) (source : Nat) (tier : Tier) :
    Hung N M (t.assertLink by_ src dst rel at_ source tier) := by
  obtain ⟨hlinked, hloose⟩ := h.linkedEdge by_ src dst hrel at_ source tier
  refine (hlinked.recordEdgeAssertion by_ hloose at_ source).settleEdge ?_ at_
  unfold Tables.recordEdgeAssertion
  dsimp only
  split <;> exact hloose

theorem dropRows (h : Hung N M t) (dropped : EdgeAssertion → Bool) (at_ : Int) :
    Hung N M ({ t with edgeAssertions := t.edgeAssertions.filter fun a => !dropped a }.settleEdges
      ((t.edgeAssertions.filter dropped).map EdgeAssertion.edge) at_) := by
  refine (h.withRows _ t.generations fun a ha =>
    .inl ⟨a, (List.mem_filter.1 ha).1, rfl⟩).settleEdges (fun edge hedge => ?_) at_
  obtain ⟨a, ha, rfl⟩ := List.mem_map.1 hedge
  exact h.rows a (List.mem_filter.1 ha).1

theorem releaseReference (h : Hung N M t) (by_ : Asserter) (src target : String) :
    Hung N M (t.releaseReference by_ src target) := by
  unfold Tables.releaseReference
  split
  · exact h
  · exact h.dropRows _ by_.at_

theorem settleReferences (h : Hung N M t) (by_ : Asserter) : Hung N M (t.settleReferences by_) := by
  have hrow : ∀ (t : Tables) (row : StagedRow), Hung N M t →
      Hung N M (t.settleReference by_ row) := by
    intro t row h
    refine Tables.settleReference_keeps t by_ (I := Hung N M) (fun hu => ?_) (fun hu => ?_)
      (fun {_ _ rel} hrel _ hu => ?_) h
    · exact hu.apart hu.ids hu.seq hu.rows rfl (Nat.le_refl _) rfl fun _ => rfl
    · exact hu.releaseReference _ _ _
    · refine hu.assertLink _ _ _ ?_ _ _ _
      unfold stagedRel at hrel
      split at hrel
      · cases hrel
        rfl
      · split at hrel
        · cases hrel
          rfl
        · cases hrel
  have hrows : ∀ (rows : List StagedRow) (t : Tables), Hung N M t →
      Hung N M (rows.foldl (fun t row => t.settleReference by_ row) t) := by
    intro rows
    induction rows with
    | nil => exact fun _ h => h
    | cons row rows ih => exact fun t h => ih _ (hrow t row h)
  exact (hrows _ t h).withRows _ _ fun a ha => .inl ⟨a, (List.mem_filter.1 ha).1, rfl⟩

theorem began (h : Hung N M t) (by_ : Asserter) : Hung N M (t.began by_) :=
  h.withRows _ _ fun a ha => .inl ⟨a, ha, rfl⟩

/-- A newer generation opened, the edges of the one it supersedes settled. -/
theorem settledEdges (h : Hung N M t) (by_ : Asserter) (prior : String) :
    Hung N M (t.settledEdges by_ prior) := by
  have hopened : Hung N M (t.opened by_ prior) :=
    h.apart h.ids h.seq (fun a ha => h.rows a (List.mem_filter.1 ha).1) rfl (Nat.le_refl _) rfl
      fun _ => rfl
  refine hopened.settleEdges (fun edge hedge => ?_) by_.at_
  obtain ⟨e, he, rfl⟩ := List.mem_map.1 hedge
  obtain ⟨a, ha, hof⟩ := List.any_eq_true.1 (Bool.and_eq_true_iff.1 (List.mem_filter.1 he).2).2
  simp only [Bool.and_eq_true, beq_iff_eq] at hof
  exact hof.2 ▸ hopened.rows a ha

/-! ### Nodes held and retired -/

/-- Edges that keep their keys, each loose as it was. -/
theorem relive (h : Hung N M t) {M' : Rel → String → String → Prop} {g : Edge → Edge}
    (hg : ∀ e : Edge, e.Same (g e)) (hedges : t'.edges = t.edges.map g)
    (hseq : t'.edgeSeq = t.edgeSeq)
    (hrows : t'.edgeAssertions = t.edgeAssertions)
    (hlinks : Links N (fun _ => False) t'.hanging)
    (hmembers : ∀ rel node group, attaching rel = true →
      (t'.Member rel node group ↔ M' rel node group)) : Hung N M' t' where
  ids := by
    rw [hedges, List.pairwise_map]
    exact h.ids.imp fun {a b} hab => by rwa [(hg a).id, (hg b).id]
  seq := by
    rw [hedges, hseq, List.forall_mem_map]
    exact fun e he => (hg e).id ▸ h.seq e he
  rows := by
    rw [hrows]
    refine fun a ha => ⟨hseq ▸ (h.rows a ha).1, ?_⟩
    rw [hedges, List.forall_mem_map]
    intro e he hid
    rw [(hg e).rel]
    exact (h.rows a ha).2 e he ((hg e).id.symm.trans hid)
  tier := by
    rw [hedges, List.forall_mem_map]
    intro e he hrel
    rw [(hg e).rel] at hrel
    exact (hg e).tier.trans (h.tier e he hrel)
  links := hlinks
  members := hmembers

theorem written (h : Hung N M t) (id : String) (kind : NodeKind) (attrs : Attrs) :
    Hung N M (t.written id kind attrs) := by
  let revive : Edge → Edge := fun e =>
    if (t.detached.filter (·.node == id)).any (·.edge ==
      e.id) then { e with validTo := none } else e
  have hg : ∀ e : Edge, e.Same (revive e) := fun e => by
    dsimp only [revive]
    split <;> exact ⟨rfl, rfl, rfl, rfl, rfl⟩
  have hedges : (t.written id kind attrs).edges = t.edges.map revive := rfl
  refine h.relive hg hedges rfl rfl ?_ fun rel node group hrel => ?_
  · exact (h.links.written id kind attrs).hang (Tables.hanging_map hg hedges)
      (Nat.le_refl _) rfl rfl
      fun _ => rfl
  rw [← h.members rel node group hrel]
  refine Tables.member_congr hg hedges (fun e _ => ?_) rel node group
  have hdetached : ∀ d, d ∈ (t.written id kind attrs).detached ↔ d ∈ t.detached ∧ d.node ≠ id := by
    intro d
    show d ∈ t.detached.filter (·.node != id) ↔ _
    rw [List.mem_filter, bne_iff_ne]
  unfold Tables.Stands
  dsimp only [revive]
  split
  case isTrue hrev =>
    obtain ⟨d, hd, hid⟩ := List.any_eq_true.1 hrev
    exact iff_of_true (.inl rfl) (.inr ⟨d, (List.mem_filter.1 hd).1, beq_iff_eq.1 hid⟩)
  case isFalse hrev =>
    refine or_congr_right ⟨fun ⟨d, hd, hid⟩ => ⟨d, ((hdetached d).1 hd).1, hid⟩,
      fun ⟨d, hd, hid⟩ => ?_⟩
    refine ⟨d, (hdetached d).2 ⟨hd, fun hnode => hrev ?_⟩, hid⟩
    exact List.any_eq_true.2 ⟨d, List.mem_filter.2 ⟨hd, beq_iff_eq.2 hnode⟩, beq_iff_eq.2 hid⟩

theorem settleRow (h : Hung N M t) (id : String) (retracted : Attrs) (at_ : Int) :
    Hung N M (t.settleRow id retracted at_) := by
  have hlinks := h.links.settleRow id retracted at_
  have hsame : t.hanging.liveAssertions id = t.liveAssertions id := rfl
  unfold Tables.settleRow at hlinks ⊢
  dsimp only at hlinks ⊢
  rw [hsame] at hlinks
  split
  · exact h.apart h.ids h.seq h.rows rfl (Nat.le_refl _) rfl (Links.contains_alter_map _ _ _)
  case h_2 hnone =>
    rw [hnone] at hlinks
    let retire : Edge → Edge := fun e =>
      if Tables.attachment id e then { e with validTo := some at_ } else e
    have hg : ∀ e : Edge, e.Same (retire e) := fun e => by
      dsimp only [retire]
      split <;> exact ⟨rfl, rfl, rfl, rfl, rfl⟩
    generalize hafter : Tables.detachAttachments { t with
      nodes := t.nodes.erase id
      retired := t.retired.alter id fun _ => (t.nodes[id]?.or t.retired[id]?).map fun n =>
        { n with attrs := retract n.attrs retracted [] } } id at_ = after
    have hedges : after.edges = t.edges.map retire := by rw [← hafter]; rfl
    have hdetached : after.detached =
        t.detached ++ (t.toDetach id).map fun e => ⟨e.id, id⟩ := by rw [← hafter]; rfl
    have hdetach : (t.hanging.toDetach id) = t.toDetach id := by
      show (t.edges.filter _).filter _ = t.edges.filter _
      rw [List.filter_filter]
      refine List.filter_congr fun e _ => ?_
      by_cases ha : Tables.attachment id e = true
      · simp only [ha, (Links.attachment_iff.1 ha).2.1, Bool.and_true, Bool.true_and]
        rfl
      · rw [Bool.not_eq_true] at ha
        simp only [ha, Bool.false_and]
    refine h.relive hg hedges (by rw [← hafter]; rfl) (by rw [← hafter]; rfl) ?_
      fun rel node group hrel => ?_
    · refine hlinks.hang (Tables.hanging_map hg hedges) ?_ rfl ?_ ?_
      · rw [← hafter]
        exact Nat.le_refl _
      · show after.detached = t.detached ++ (t.hanging.toDetach id).map _
        rw [hdetached, hdetach]
      · rw [← hafter]
        exact fun _ => rfl
    rw [← h.members rel node group hrel]
    refine Tables.member_congr hg hedges (fun e he => ?_) rel node group
    have hwaits : (∃ d ∈ after.detached, d.edge = e.id) ↔
        (∃ d ∈ t.detached, d.edge = e.id) ∨ Tables.attachment id e = true := by
      rw [hdetached]
      constructor
      · rintro ⟨d, hd, hid⟩
        rcases List.mem_append.1 hd with hd | hd
        · exact .inl ⟨d, hd, hid⟩
        · obtain ⟨e', he', rfl⟩ := List.mem_map.1 hd
          obtain ⟨he', hof⟩ := List.mem_filter.1 he'
          rw [h.eq_of_id he he' hid.symm]
          exact .inr (Bool.and_eq_true_iff.1 hof).1
      · rintro (⟨d, hd, hid⟩ | ha)
        · exact ⟨d, List.mem_append_left _ hd, hid⟩
        · by_cases hrecorded : t.detached.any (·.edge == e.id) = true
          · obtain ⟨d, hd, hid⟩ := List.any_eq_true.1 hrecorded
            exact ⟨d, List.mem_append_left _ hd, beq_iff_eq.1 hid⟩
          · refine ⟨⟨e.id, id⟩, List.mem_append_right _ (List.mem_map.2 ⟨e, ?_, rfl⟩), rfl⟩
            exact List.mem_filter.2 ⟨he, by simp [ha, hrecorded]⟩
    unfold Tables.Stands
    rw [show (retire e).id = e.id from (hg e).id, hwaits]
    dsimp only [retire]
    split
    case isTrue ha => exact iff_of_true (.inr (.inr ha)) (.inl (Links.attachment_iff.1 ha).2.2)
    case isFalse ha => simp [ha]

theorem undoWhatResolvedAgainst (h : Hung N M t) (id : String) (defined : Option String) :
    Hung N M (t.undoWhatResolvedAgainst id defined) := by
  unfold Tables.undoWhatResolvedAgainst
  split
  case h_2 => exact h
  split
  · exact h
  · refine (h.updateEdges (p := fun e => (e.rel == .references || e.rel == .calls) &&
      e.tier == .inferred && e.isLive && edgeBindsLeaf e.to_ _ && t.unasserted e.id &&
        !(t.callTargets _).any (· != e.to_)) (f := fun e => { e with tier := .ambiguous })
      (fun _ => ⟨rfl, rfl⟩) fun e _ hp => ?_).sameEdges ⟨rfl, rfl, rfl, rfl, rfl⟩ fun _ => rfl
    simp only [Bool.and_eq_true, Bool.or_eq_true, beq_iff_eq] at hp
    rcases hp.1.1.1.1.1 with hrel | hrel <;> rw [hrel] <;> rfl

theorem settleNode (h : Hung N M t) (id : String) (retracted : Attrs) (at_ : Int) :
    Hung N M (t.settleNode id retracted at_) :=
  ((h.sameEdges (Tables.oweRelabel_sameEdges _ _) fun _ => rfl).settleRow id retracted at_)
    |>.undoWhatResolvedAgainst id _

/-- A node asserted, whether its assertion is recorded or settles an older one's. -/
theorem ensureNode (h : Hung N M t) (hrows : DistinctRows t.nodeAssertions) (by_ : Asserter)
    (id : String) (kind : NodeKind) (attrs : List (String × String)) :
    Hung N M (t.ensureNode by_ id kind attrs) := by
  have hwritten := h.written id kind (.ofList attrs)
  rw [Tables.ensureNode_eq]
  rcases (t.written id kind (.ofList attrs)).recordAssertion_cases by_ id kind
    (by simpa using hrows) (.ofList attrs) with ⟨rows, -, heq, -⟩ | ⟨r, -, -, -, -, heq⟩
  · rw [heq]
    exact hwritten.sameEdges ⟨rfl, rfl, rfl, rfl, rfl⟩ fun _ => rfl
  · rw [heq]
    have hreplaced : Hung N M ((t.written id kind (.ofList attrs)).replaceRow by_ id kind
        (.ofList attrs)) := hwritten.sameEdges ⟨rfl, rfl, rfl, rfl, rfl⟩ fun _ => rfl
    exact hreplaced.settleNode id _ _

/-! ### Groups -/

theorem retireGrain (h : Hung N M t) (pre : String) (rel : Rel) (at_ : Int) :
    Hung N (fun r node group => M r node group ∧ ¬(r = rel ∧ inGrain pre group = true))
      (t.retireGrain pre rel at_) := by
  let retire : Edge → Edge := fun e =>
    if e.isLive && e.rel == rel && inGrain pre e.to_ then { e with validTo := some at_ } else e
  have hg : ∀ e : Edge, e.Same (retire e) := fun e => by
    dsimp only [retire]
    split <;> exact ⟨rfl, rfl, rfl, rfl, rfl⟩
  have hedges : (t.retireGrain pre rel at_).edges = t.edges.map retire := rfl
  have hdetached : ∀ d, d ∈ (t.retireGrain pre rel at_).detached ↔ d ∈ t.detached ∧
      ∀ e ∈ t.edges, e.id = d.edge → ¬(e.rel = rel ∧ inGrain pre e.to_ = true) := by
    intro d
    show d ∈ t.detached.filter _ ↔ _
    rw [List.mem_filter, Bool.not_eq_true', List.any_eq_false]
    refine and_congr_right fun _ => ?_
    rw [show (t.retireEdges (fun e => e.isLive && e.rel == rel && inGrain pre e.to_) at_).edges =
      t.edges.map retire from rfl, List.forall_mem_map]
    refine forall₂_congr fun e _ => ?_
    rw [(hg e).id, (hg e).rel, (hg e).to_]
    simp only [Bool.and_eq_true, beq_iff_eq, not_and, and_imp]
  refine h.relive hg hedges rfl rfl ?_ fun r node group hrel => ?_
  · have hgrain : Links N (fun _ => False) { t.hanging with
        edges := t.hanging.edges.map retire, detached :=
        (t.retireGrain pre rel at_).detached } := by
      refine h.links.fade ⟨retire, fun e => ⟨hg e, fun hl => ?_⟩, rfl⟩ rfl rfl rfl
        (fun d hd => ((hdetached d).1 hd).1) (fun _ => rfl) fun _ hl => .inl hl
      dsimp only [retire] at hl
      split at hl
      · cases hl
      · exact hl
    exact hgrain.hang (Tables.hanging_map hg hedges) (Nat.le_refl _) rfl rfl fun _ => rfl
  rw [← h.members r node group hrel]
  refine Tables.member_map hg hedges fun e he hr hfrom hto => ?_
  have hwaits : (∃ d ∈ (t.retireGrain pre rel at_).detached, d.edge = e.id) ↔
      (∃ d ∈ t.detached, d.edge = e.id) ∧ ¬(r = rel ∧ inGrain pre group = true) := by
    constructor
    · rintro ⟨d, hd, hid⟩
      obtain ⟨hd, hout⟩ := (hdetached d).1 hd
      exact ⟨⟨d, hd, hid⟩, hr ▸ hto ▸ hout e he hid.symm⟩
    · rintro ⟨⟨d, hd, hid⟩, hout⟩
      refine ⟨d, (hdetached d).2 ⟨hd, fun e' he' hid' => ?_⟩, hid⟩
      rw [h.eq_of_id he' he (hid'.trans hid), hr, hto]
      exact hout
  unfold Tables.Stands
  rw [show (retire e).id = e.id from (hg e).id, hwaits]
  dsimp only [retire]
  by_cases hin : r = rel ∧ inGrain pre group = true
  · refine iff_of_false ?_ fun hst => hst.2 hin
    rintro (hl | hw)
    · split at hl
      · cases hl
      case isFalse hno => exact hno (by simp [hl, hr, hto, hin.1, hin.2])
    · exact hw.2 hin
  · have hkept : (e.isLive && e.rel == rel && inGrain pre e.to_) = false := by
      rw [Bool.eq_false_iff]
      intro hp
      simp only [Bool.and_eq_true, beq_iff_eq] at hp
      exact hin ⟨hr ▸ hp.1.2, hto ▸ hp.2⟩
    rw [hkept, if_neg Bool.false_ne_true]
    simp only [hin, not_false_eq_true, and_true]

theorem dropMemberless (h : Hung N M t) (grain : String) (kind : NodeKind)
    (hrel : attaching rel = true)
    (hnodes : ∀ (id : String) (n : Node), t.nodes[id]? = some n → n.kind = kind → ¬N id) :
    Hung N M (t.dropMemberless grain kind rel) := by
  refine h.relive Edge.Same.refl (List.map_id _).symm rfl rfl ?_ h.members
  have hdropped := h.links.dropMemberless grain kind rel hnodes
  refine hdropped.hang rfl (Nat.le_refl _) rfl rfl fun id => ?_
  -- the members of a group are attachments, so leaving the other edges out drops the same nodes
  have hmembers : ∀ id, t.hanging.edges.any (fun e => e.to_ == id && e.rel == rel && e.isLive) =
      t.edges.any fun e => e.to_ == id && e.rel == rel && e.isLive := by
    intro id
    show (t.edges.filter _).any _ = _
    rw [List.any_filter]
    congr 1
    funext e
    by_cases he : e.rel = rel
    · rw [he, hrel, Bool.true_and]
    · simp [he]
  rw [Std.ExtTreeMap.contains_eq_isSome_getElem?, Std.ExtTreeMap.contains_eq_isSome_getElem?,
    Tables.dropMemberless_getElem?, hmembers]
  exact congrArg Option.isSome (t.dropMemberless_getElem? grain kind rel id)

theorem append (h : Hung N M t) (new : Edge) (hedges : t'.edges = t.edges ++ [new])
    (hid : new.id = t.edgeSeq + 1) (hseq : t'.edgeSeq = t.edgeSeq + 1)
    (hrows : t'.edgeAssertions = t.edgeAssertions) (htier : new.tier = .inferred)
    (hlinks : Links N (fun _ => False) t'.hanging)
    (hstands : ∀ e ∈ t.edges, t'.Stands e ↔ t.Stands e) (hnew : t'.Stands new) :
    Hung N (fun r n g => M r n g ∨ r = new.rel ∧ n = new.from_ ∧ g = new.to_) t' := by
  have hmem : ∀ {e}, e ∈ t'.edges ↔ e ∈ t.edges ∨ e = new := by
    intro e
    rw [hedges, List.mem_append, List.mem_singleton]
  constructor
  · rw [hedges]
    refine List.pairwise_append.2 ⟨h.ids, List.pairwise_singleton _ _, fun a ha b hb => ?_⟩
    rw [List.mem_singleton.1 hb, hid]
    exact Nat.lt_succ_of_le (h.seq a ha)
  · intro e he
    rw [hseq]
    rcases hmem.1 he with he | rfl
    · exact Nat.le_succ_of_le (h.seq e he)
    · exact Nat.le_of_eq hid
  · rw [hrows]
    refine fun a ha => ⟨hseq ▸ Nat.le_succ_of_le (h.rows a ha).1, fun e he hedge => ?_⟩
    rcases hmem.1 he with he | rfl
    · exact (h.rows a ha).2 e he hedge
    · have := (h.rows a ha).1
      omega
  · intro e he hrel
    rcases hmem.1 he with he | rfl
    · exact h.tier e he hrel
    · exact htier
  · exact hlinks
  · intro r n g hrel
    rw [← h.members r n g hrel]
    constructor
    · rintro ⟨e, he, hr, hn, hg, hst⟩
      rcases hmem.1 he with he | rfl
      · exact .inl ⟨e, he, hr, hn, hg, (hstands e he).1 hst⟩
      · exact .inr ⟨hr.symm, hn.symm, hg.symm⟩
    · rintro (⟨e, he, hr, hn, hg, hst⟩ | ⟨rfl, rfl, rfl⟩)
      · exact ⟨e, hmem.2 (.inl he), hr, hn, hg, (hstands e he).2 hst⟩
      · exact ⟨new, hmem.2 (.inr rfl), rfl, rfl, rfl, hnew⟩

theorem merge (h : Hung N M t) {at_ : Int} {source : Nat} {e : Edge} (he : e ∈ t.edges)
    (hst : t.Stands e)
    (hlinks : Links N (fun _ => False) (t.updateEdges p (·.reassert at_ source)).hanging) :
    Hung N (fun r n g => M r n g ∨ r = e.rel ∧ n = e.from_ ∧ g = e.to_)
      (t.updateEdges p (·.reassert at_ source)) := by
  have hg : ∀ e : Edge, e.Same (if p e then e.reassert at_ source else e) ∧
      (if p e then e.reassert at_ source else e).isLive = e.isLive := fun e => by
    split <;> exact ⟨⟨rfl, rfl, rfl, rfl, rfl⟩, rfl⟩
  refine h.relive (fun e => (hg e).1) rfl rfl rfl hlinks fun r n g hr => ?_
  have hstands : ∀ e ∈ t.edges, (t.updateEdges p (·.reassert at_ source)).Stands
      (if p e then e.reassert at_ source else e) ↔ t.Stands e := fun e _ => by
    unfold Tables.Stands
    rw [(hg e).2, (hg e).1.id]
    rfl
  have hsame := Tables.member_congr (fun e => (hg e).1) rfl hstands r n g
  rw [hsame, ← h.members r n g hr]
  refine ⟨.inl, fun hm => hm.elim (fun h => h) ?_⟩
  rintro ⟨rfl, rfl, rfl⟩
  exact ⟨e, he, rfl, rfl, rfl, hst⟩

/-- A node attached to a group, live where the node is held and waiting otherwise. -/
theorem attach (h : Hung N M t) (node group : String) (hrel : attaching rel = true) (at_ : Int)
    (source : Nat) (hnode : N node) :
    Hung N (fun r n g => M r n g ∨ r = rel ∧ n = node ∧ g = group)
      (t.attach node group rel at_ source) := by
  have hlinks := h.links.attach node group rel at_ source hrel hnode
  -- an edge of the key is an attachment, so leaving the other edges out finds the same
  have hfind : ∀ {p : Edge → Bool}, (∀ e, p e = true → e.rel = rel) →
      t.hanging.edges.find? p = t.edges.find? p ∧ t.hanging.edges.any p = t.edges.any p := by
    intro p hp
    have hattach : ∀ e, p e = true → attaching e.rel = true := fun e he => hp e he ▸ hrel
    constructor
    · show (t.edges.filter _).find? p = _
      rw [List.find?_filter]
      congr 1
      funext e
      by_cases he : p e = true <;> simp [he, hattach e]
    · show (t.edges.filter _).any p = _
      rw [List.any_filter]
      congr 1
      funext e
      by_cases he : p e = true <;> simp [he, hattach e]
  have hstanding : ∀ e, Edge.standing node group rel .inferred e = true → e.rel = rel := by
    intro e he
    simp only [Edge.standing, Edge.keyed, Bool.and_eq_true, beq_iff_eq] at he
    exact he.1.1.2
  have hhere : ∀ e, t.detachedHere node group rel e = true → e.rel = rel := by
    intro e he
    simp only [Tables.detachedHere, Bool.and_eq_true, beq_iff_eq] at he
    exact he.1.2
  have hmap : ∀ {p : Edge → Bool}, (t.updateEdges p (·.reassert at_ source)).hanging.edges =
      (t.hanging.updateEdges p (·.reassert at_ source)).edges := by
    intro p
    refine Tables.hanging_map (g := fun e => if p e then e.reassert at_ source else e)
      (fun e => ?_) rfl
    split <;> exact ⟨rfl, rfl, rfl, rfl, rfl⟩
  unfold Tables.attach Tables.addEdge at hlinks ⊢
  rw [show t.hanging.nodes = t.nodes from rfl, (hfind hstanding).1,
    show t.hanging.detachedHere node group rel = t.detachedHere node group rel from rfl,
    (hfind hhere).2] at hlinks
  by_cases hheld : t.nodes.contains node = true
  · rw [if_pos hheld] at hlinks ⊢
    cases hfound : t.edges.find? (Edge.standing node group rel .inferred) with
    | some e =>
      rw [hfound] at hlinks
      have hof := List.find?_some hfound
      simp only [Edge.standing, Edge.keyed, Bool.and_eq_true, beq_iff_eq] at hof
      obtain ⟨⟨⟨⟨rfl, rfl⟩, rfl⟩, -⟩, hl⟩ := hof
      exact h.merge (List.mem_of_find?_eq_some hfound) (.inl hl)
        (hlinks.hang hmap (Nat.le_refl _) rfl rfl fun _ => rfl)
    | none =>
      rw [hfound] at hlinks
      have howed := Tables.oweRelabelOfEnds_sameEdges (t.insertEdge node group rel at_ none source
        .inferred) node group rel
        ((t.insertEdge node group rel at_ none source .inferred).declaration
          rel group)
      refine h.append _ howed.edges rfl howed.edgeSeq howed.edgeAssertions rfl ?_
        (fun e _ => ?_) (.inl rfl)
      · refine hlinks.hang ?_ ?_ rfl ?_ fun id => ?_
        · rw [(Tables.oweRelabelOfEnds_sameEdges _ _ _ _ _).edges]
          show List.filter _ _ = _
          rw [howed.edges]
          exact (List.filter_append _ _).trans (by rw [List.filter_singleton]; simp [hrel]; rfl)
        · rw [(Tables.oweRelabelOfEnds_sameEdges _ _ _ _ _).edgeSeq]
          exact Nat.le_of_eq howed.edgeSeq.symm
        · rw [(Tables.oweRelabelOfEnds_sameEdges _ _ _ _ _).detached]
          exact howed.detached
        · rw [(Tables.oweRelabelOfEnds_sameNodes _ _ _ _ _).nodes]
          show ((Tables.oweRelabelOfEnds _ _ _ _ _).nodes).contains id = _
          rw [(Tables.oweRelabelOfEnds_sameNodes _ _ _ _ _).nodes]
          rfl
      · unfold Tables.Stands
        rw [howed.detached]
        rfl
  · rw [if_neg hheld] at hlinks ⊢
    by_cases hwaits : t.edges.any (t.detachedHere node group rel) = true
    · rw [if_pos hwaits] at hlinks ⊢
      obtain ⟨e, he, hof⟩ := List.any_eq_true.1 hwaits
      have hr := hhere e hof
      simp only [Tables.detachedHere, Bool.and_eq_true, beq_iff_eq, List.any_eq_true] at hof
      obtain ⟨⟨⟨⟨d, hd, rfl, hid⟩, rfl⟩, rfl⟩, -⟩ := hof
      have hfrom := ((h.links.detached d hd).2 e (Tables.mem_hanging.2 ⟨he, hrel⟩) hid.symm).1
      rw [← hfrom] at hlinks ⊢
      exact h.merge he (.inr ⟨d, hd, hid⟩) (hlinks.hang hmap (Nat.le_refl _) rfl rfl fun _ => rfl)
    · rw [if_neg hwaits] at hlinks ⊢
      refine h.append ⟨t.edgeSeq + 1, node, group, rel, at_, some at_, source,
        .inferred⟩ rfl rfl rfl
        rfl rfl ?_ (fun e he => ?_)
        (.inr ⟨⟨t.edgeSeq + 1, node⟩, List.mem_concat_self, rfl⟩)
      · refine hlinks.hang ?_ (Nat.le_refl _) rfl rfl fun _ => rfl
        exact (List.filter_append _ _).trans (by rw [List.filter_singleton]; simp [hrel]; rfl)
      · refine or_congr_right ?_
        constructor
        · rintro ⟨d, hd, hid⟩
          rcases List.mem_append.1 hd with hd | hd
          · exact ⟨d, hd, hid⟩
          · rw [List.mem_singleton.1 hd] at hid
            have := h.seq e he
            have hid : t.edgeSeq + 1 = e.id := hid
            omega
        · rintro ⟨d, hd, hid⟩
          exact ⟨d, List.mem_append_left _ hd, hid⟩

end Hung

end Rigger.Graph
