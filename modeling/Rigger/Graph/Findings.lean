import Rigger.Graph.Disposition
import Rigger.Graph.Proven

/-!
# The findings of a graph file

No event of a finding's log is the generation rule's: its nodes are written, never settled, and its
edges are ties no assertion holds (`OutsideRule`).  Each arm of the log takes a finding's part of
the tables where `Disposal.step` takes its disposal, so a file folded from the log shows what the
disposal does, however the log was cut into transactions.
-/

namespace Rigger.Graph

open Lib

/-! ## Tables no event of the rule wrote -/

structure OutsideRule (t : Tables) : Prop where
  retired : t.retired = ∅
  aliases : t.aliases = ∅
  detached : t.detached = []
  relabelOwed : t.relabelOwed = ∅
  proofsOwed : t.proofsOwed = ∅
  about : ∀ e ∈ t.edges, e.rel = .about
  generation : ∀ r ∈ t.nodeAssertions, r.generation = ""

/-- The finding's live edges reach the location. -/
def Tables.AboutLive (t : Tables) (finding location : String) : Prop :=
  ∃ e ∈ t.edges, e.isLive = true ∧ e.from_ = finding ∧ e.to_ = location ∧ e.rel = .about

/-- The finding's part of the tables is `s`. -/
structure Follows (t : Tables) (finding : String) (s : Disposal) : Prop where
  kind : t.nodes[finding]?.map Node.kind = s.kind
  upheld : (t.nodes[finding]?.any fun n => n.attrs["disposition"]? == some "upheld") = s.upheld
  unit : t.nodes[finding]?.bind (fun n => n.attrs["unit"]?) = s.unit
  about : ∀ l, t.AboutLive finding l ↔ l ∈ s.about

theorem OutsideRule.empty : OutsideRule .empty :=
  ⟨rfl, rfl, rfl, rfl, rfl, nofun, nofun⟩

theorem Follows.empty (finding : String) : Follows .empty finding .start := by
  refine ⟨rfl, rfl, rfl, fun l => ⟨?_, nofun⟩⟩
  rintro ⟨e, he, -⟩
  cases he

namespace OutsideRule

variable {t : Tables} {by_ : Asserter}

theorem resolve (h : OutsideRule t) (mention : String) : t.resolve mention = mention := by
  unfold Tables.resolve
  rw [h.aliases]
  rfl

theorem communitiesOf (h : OutsideRule t) (member : String) (wholeFile : Bool) :
    t.communitiesOf member wholeFile = [] := by
  unfold Tables.communitiesOf
  rw [List.map_eq_nil_iff, List.filter_eq_nil_iff]
  intro e he
  rw [h.about e he]
  simp

theorem oweRelabelOf (h : OutsideRule t) (member : String) (wholeFile : Bool) :
    t.oweRelabelOf member wholeFile = t := by
  unfold Tables.oweRelabelOf
  rw [h.communitiesOf]
  rfl

theorem restored (h : OutsideRule t) (id : String) (kind : NodeKind) :
    t.restored id kind = t.nodes[id]? := by
  unfold Tables.restored
  rw [h.retired]
  simp

theorem ensureNode (h : OutsideRule t) (hby : by_.generation = "") (id : String) (kind : NodeKind)
    (attrs : List (String × String)) : ∃ rows, (∀ r ∈ rows, r.generation = "") ∧
      t.ensureNode by_ id kind attrs =
        { t with
          nodes := t.nodes.insert id (Tables.upserted t.nodes[id]? kind (.ofList attrs))
          nodeAssertions := rows } := by
  have hwritten :
    ((t.writeNode id kind (.ofList attrs)).reviveAttachments id).oweRelabelOf id false =
      { t with nodes :=
          t.nodes.insert id (Tables.upserted t.nodes[id]? kind (.ofList attrs)) } := by
    have hrevived : (t.writeNode id kind (.ofList attrs)).reviveAttachments id =
        { t with nodes :=
            t.nodes.insert id (Tables.upserted t.nodes[id]? kind (.ofList attrs)) } := by
      unfold Tables.reviveAttachments Tables.writeNode Tables.updateEdges
      rw [h.restored]
      simp [h.detached, h.retired]
    rw [hrevived]
    refine OutsideRule.oweRelabelOf (t := { t with nodes := _ }) ?_ id false
    exact ⟨h.retired, h.aliases, h.detached, h.relabelOwed, h.proofsOwed, h.about, h.generation⟩
  unfold Tables.ensureNode
  dsimp only
  rw [hwritten]
  unfold Tables.recordAssertion
  split
  case h_1 r hr =>
    have hgen : r.generation = "" := h.generation r (List.mem_of_find?_eq_some hr)
    rw [if_pos (hgen.trans hby.symm)]
    refine ⟨_, fun x hx => ?_, rfl⟩
    obtain ⟨y, hy, rfl⟩ := List.mem_map.1 hx
    have := h.generation y hy
    split <;> exact this
  case h_2 =>
    refine ⟨_, fun x hx => ?_, rfl⟩
    rcases List.mem_append.1 hx with hx | hx
    · exact h.generation x hx
    · rw [List.mem_singleton.1 hx, hby]

theorem written (h : OutsideRule t) (nodes : Std.ExtTreeMap String Node)
    {rows : List NodeAssertion} (hrows : ∀ r ∈ rows, r.generation = "") :
    OutsideRule { t with nodes := nodes, nodeAssertions := rows } :=
  ⟨h.retired, h.aliases, h.detached, h.relabelOwed, h.proofsOwed, h.about, hrows⟩

theorem addEdge (h : OutsideRule t) (record location : String) (at_ : Int) (source : Nat)
    (tier : Tier) : OutsideRule (t.addEdge record location .about at_ source tier).1 ∧
      (t.addEdge record location .about at_ source tier).1.nodes = t.nodes ∧
      ∀ f l, (t.addEdge record location .about at_ source tier).1.AboutLive f l ↔
        t.AboutLive f l ∨ record = f ∧ location = l := by
  unfold Tables.addEdge
  split
  case h_1 e he =>
    have hstanding := List.find?_some he
    simp only [Edge.standing, Edge.keyed, Bool.and_eq_true, beq_iff_eq] at hstanding
    obtain ⟨⟨⟨⟨hfrom, hto⟩, hrel⟩, -⟩, hlive⟩ := hstanding
    have hsame : ∀ e : Edge, ∀ p : Bool,
        (if p then e.reassert at_ source else e).isLive = e.isLive ∧
        (if p then e.reassert at_ source else e).from_ = e.from_ ∧
        (if p then e.reassert at_ source else e).to_ = e.to_ ∧
        (if p then e.reassert at_ source else e).rel = e.rel := by
      intro e p
      cases p <;> exact ⟨rfl, rfl, rfl, rfl⟩
    refine ⟨⟨h.retired, h.aliases, h.detached, h.relabelOwed, h.proofsOwed, fun x hx => ?_,
      h.generation⟩, rfl, fun f l => ⟨?_, ?_⟩⟩
    · obtain ⟨y, hy, rfl⟩ := List.mem_map.1 hx
      rw [(hsame y _).2.2.2]
      exact h.about y hy
    · rintro ⟨x, hx, hxlive, hxfrom, hxto, hxrel⟩
      obtain ⟨y, hy, rfl⟩ := List.mem_map.1 hx
      rw [(hsame y _).1] at hxlive
      rw [(hsame y _).2.1] at hxfrom
      rw [(hsame y _).2.2.1] at hxto
      rw [(hsame y _).2.2.2] at hxrel
      exact .inl ⟨y, hy, hxlive, hxfrom, hxto, hxrel⟩
    · have hkept : ∀ y ∈ t.edges, y.isLive = true → (t.updateEdges (Edge.standing record location
          .about tier) (·.reassert at_ source)).AboutLive y.from_ y.to_ := by
        intro y hy hylive
        refine ⟨_, List.mem_map.2 ⟨y, hy, rfl⟩, ?_⟩
        obtain ⟨hl, hf, ht, hr⟩ := hsame y (Edge.standing record location .about tier y)
        exact ⟨hl.trans hylive, hf, ht, hr.trans (h.about y hy)⟩
      rintro (⟨y, hy, hylive, rfl, rfl, -⟩ | ⟨rfl, rfl⟩)
      · exact hkept y hy hylive
      · have := hkept e (List.mem_of_find?_eq_some he) hlive
        rwa [hfrom, hto] at this
  case h_2 hnone =>
    have hends : (t.insertEdge record location .about at_ none source tier).oweRelabelOfEnds record
        location .about ((t.insertEdge record location .about at_ none source tier).declaration
          .about location) = t.insertEdge record location .about at_ none source tier := rfl
    dsimp only
    rw [hends]
    refine ⟨⟨h.retired, h.aliases, h.detached, h.relabelOwed, h.proofsOwed, fun x hx => ?_,
      h.generation⟩, rfl, fun f l => ?_⟩
    · rcases List.mem_append.1 hx with hx | hx
      · exact h.about x hx
      · rw [List.mem_singleton.1 hx]
    · unfold Tables.AboutLive Tables.insertEdge
      simp only [List.mem_append, List.mem_singleton, or_and_right, exists_or, exists_eq_left]
      simp [Edge.isLive]

theorem retireEdges (h : OutsideRule t) (p : Edge → Bool) (at_ : Int) :
    OutsideRule (t.retireEdges p at_) ∧ (t.retireEdges p at_).nodes = t.nodes ∧
      ∀ f l, (t.retireEdges p at_).AboutLive f l ↔
        ∃ e ∈ t.edges, p e = false ∧ e.isLive = true ∧ e.from_ = f ∧ e.to_ = l ∧
        e.rel = .about := by
  refine ⟨⟨h.retired, h.aliases, h.detached, h.relabelOwed, h.proofsOwed, fun x hx => ?_,
    h.generation⟩, rfl, fun f l => ⟨?_, ?_⟩⟩
  · obtain ⟨y, hy, rfl⟩ := List.mem_map.1 hx
    have := h.about y hy
    split <;> exact this
  · rintro ⟨x, hx, hlive, hends⟩
    obtain ⟨y, hy, rfl⟩ := List.mem_map.1 hx
    cases hp : p y with
    | true =>
      simp only [hp, if_true] at hlive
      cases hlive
    | false =>
      simp only [hp, Bool.false_eq_true, if_false] at hlive hends
      exact ⟨y, hy, hp, hlive, hends⟩
  · rintro ⟨y, hy, hp, hrest⟩
    refine ⟨y, List.mem_map.2 ⟨y, hy, ?_⟩, hrest⟩
    simp [hp]

end OutsideRule

/-! ## What each arm does to a finding's part -/

namespace Follows

variable {t t' : Tables} {finding : String} {s : Disposal} {by_ : Asserter}

theorem edges (h : Follows t finding s) (hnodes : t'.nodes = t.nodes) (about : List String)
    (habout : ∀ l, t'.AboutLive finding l ↔ l ∈ about) :
    Follows t' finding { s with about := about } :=
  ⟨by rw [hnodes]; exact h.kind, by rw [hnodes]; exact h.upheld, by rw [hnodes]; exact h.unit,
    habout⟩

theorem written (h : Follows t finding s) (id : String) (kind : NodeKind) (attrs : Attrs)
    (hkind : kind ∉ promotingKinds) (hplain : attrs["disposition"]? = none)
    (rows : List NodeAssertion) :
    Follows { t with
        nodes := t.nodes.insert id (Tables.upserted t.nodes[id]? kind attrs)
        nodeAssertions := rows } finding
      { s with
        kind := if id = finding then some (s.kind.getD kind) else s.kind
        unit := if id = finding then attrs["unit"]?.or s.unit else s.unit } := by
  have habout : ∀ l, Tables.AboutLive { t with
        nodes := t.nodes.insert id (Tables.upserted t.nodes[id]? kind attrs)
        nodeAssertions := rows } finding l ↔ l ∈ s.about := h.about
  by_cases hid : id = finding
  · subst hid
    have hrow : (t.nodes.insert id (Tables.upserted t.nodes[id]? kind attrs))[id]? =
        some (Tables.upserted t.nodes[id]? kind attrs) := Std.ExtTreeMap.getElem?_insert_self
    have hk := h.kind
    have hu := h.upheld
    have hn := h.unit
    refine ⟨?_, ?_, ?_, habout⟩ <;> dsimp only <;> rw [hrow] <;> revert hk hu hn
    · intro hk _ _
      rw [if_pos rfl, ← hk]
      cases t.nodes[id]? with
      | none => rfl
      | some n => simp [Tables.upserted, promote_of_not_promoting hkind]
    · intro _ hu _
      rw [← hu]
      cases t.nodes[id]? with
      | none => simp [Tables.upserted, hplain]
      | some n => simp [Tables.upserted, patch_getElem?, hplain]
    · intro _ _ hn
      rw [if_pos rfl, ← hn]
      cases t.nodes[id]? with
      | none => simp [Tables.upserted]
      | some n => simp [Tables.upserted, patch_getElem?]
  · have hrow : (t.nodes.insert id (Tables.upserted t.nodes[id]? kind attrs))[finding]? =
        t.nodes[finding]? := by
      rw [Std.ExtTreeMap.getElem?_insert,
        if_neg fun he => hid (Std.LawfulEqCmp.eq_of_compare he)]
    rw [if_neg hid, if_neg hid]
    refine ⟨?_, ?_, ?_, habout⟩ <;> dsimp only <;> rw [hrow]
    · exact h.kind
    · exact h.upheld
    · exact h.unit

theorem tied (h : Follows t finding s) (hout : OutsideRule t) (hby : by_.generation = "")
    (position : Nat) (record location : String) :
    let t' := ((t.ensureNode by_ (t.resolve location) .artifact []).addEdge record
      (t.resolve location) .about by_.at_ position .extracted).1
    OutsideRule t' ∧ Follows t' finding (s.tied finding record location) := by
  dsimp only
  rw [hout.resolve]
  obtain ⟨rows, hrows, heq⟩ := hout.ensureNode hby location .artifact []
  have hplain : (.ofList ([] : List (String × String)) : Attrs)["disposition"]? = none := rfl
  have hensured := h.written location .artifact _ (by decide) hplain rows
  have houtside : OutsideRule (t.ensureNode by_ location .artifact []) := by
    rw [heq]
    exact hout.written _ hrows
  rw [← heq] at hensured
  generalize t.ensureNode by_ location .artifact [] = ensured at hensured houtside ⊢
  obtain ⟨hadded, hnodes, habout⟩ := houtside.addEdge record location by_.at_ position .extracted
  refine ⟨hadded, ?_⟩
  have hunit : (.ofList ([] : List (String × String)) : Attrs)["unit"]? = none := rfl
  rw [hunit, Option.none_or, ite_self] at hensured
  refine hensured.edges hnodes (if record = finding then s.about ++ [location] else s.about)
    fun l => ?_
  rw [habout finding l, hensured.about l]
  by_cases hr : record = finding
  · simp [hr, eq_comm]
  · simp [hr]

theorem foldFinding (h : Follows t finding s) (hout : OutsideRule t) (hby : by_.generation = "")
    (position : Nat) (r : ReviewFinding) :
    OutsideRule (t.foldFinding by_ position r) ∧
      Follows (t.foldFinding by_ position r) finding (s.step finding (.reviewFinding r)) := by
  let attrs := [("summary", r.summary), ("by", r.by_), ("unit", r.unit)]
  have hkeys : ["summary", "by", "unit"].Pairwise fun a b => ¬compare a b = .eq := by decide
  have hdistinct : attrs.Pairwise fun a b => ¬compare a.1 b.1 = .eq :=
    (List.pairwise_map (f := Prod.fst) (R := fun a b => ¬compare a b = .eq)).1 hkeys
  have hunit : (.ofList attrs : Attrs)["unit"]? = some r.unit :=
    Std.ExtTreeMap.getElem?_ofList_of_mem Std.ReflCmp.compare_self hdistinct (by simp [attrs])
  have hplain : (.ofList attrs : Attrs)["disposition"]? = none :=
    ofList_getElem?_of_ne (by simp [attrs])
  obtain ⟨rows, hrows, heq⟩ := hout.ensureNode hby r.id .finding attrs
  have hensured := h.written r.id .finding _ (by decide) hplain rows
  have houtside : OutsideRule (t.ensureNode by_ r.id .finding attrs) := by
    rw [heq]
    exact hout.written _ hrows
  have hraised : Follows (t.ensureNode by_ r.id .finding attrs) finding (s.raised finding r) := by
    rw [heq]
    unfold Disposal.raised
    rw [hunit, Option.some_or] at hensured
    by_cases hid : r.id = finding
    · simpa only [if_pos hid] using hensured
    · simpa only [if_neg hid] using hensured
  have htied : ∀ (ls : List String) {t : Tables} {s : Disposal}, OutsideRule t →
      Follows t finding s → OutsideRule (t.tie by_ position r.id .about ls) ∧
        Follows (t.tie by_ position r.id .about ls) finding
          (ls.foldl (fun s location => s.tied finding r.id location) s) := by
    intro ls
    induction ls with
    | nil => exact fun hout h => ⟨hout, h⟩
    | cons l ls ih =>
      intro t s hout h
      obtain ⟨hout', h'⟩ := h.tied hout hby position r.id l
      exact ih hout' h'
  exact htied _ houtside hraised

theorem invalidateFindings (h : Follows t finding s) (hout : OutsideRule t) (by_ : Asserter)
    (findings : List String) : OutsideRule (t.invalidateFindings by_ findings) ∧
      Follows (t.invalidateFindings by_ findings) finding
        { s with about := if s.kind = some .finding ∧ finding ∈ findings then [] else s.about
        } := by
  induction findings generalizing t s with
  | nil =>
    refine ⟨hout, ?_⟩
    show Follows t finding _
    simpa using h
  | cons g findings ih =>
    have hstep : OutsideRule (t.invalidateFindingEdges g by_.at_) ∧
        Follows (t.invalidateFindingEdges g by_.at_) finding
          { s with about := if s.kind = some .finding ∧ finding = g then [] else s.about } := by
      have hkind :
          (t.nodes[finding]?.any (·.kind == .finding)) = decide (s.kind = some .finding) := by
        rw [← h.kind]
        cases t.nodes[finding]? with
        | none => rfl
        | some n =>
          rw [Option.any_some, Option.map_some, beq_eq_decide]
          exact decide_eq_decide.2 Option.some_inj.symm
      unfold Tables.invalidateFindingEdges
      split
      case isTrue hg =>
        obtain ⟨houtside, hnodes, habout⟩ := hout.retireEdges (fun e => e.isLive &&
          ((e.from_ == g && e.rel == .about) || (e.to_ == g && e.rel == .raised))) by_.at_
        refine ⟨houtside, h.edges hnodes _ fun l => ?_⟩
        rw [habout finding l]
        by_cases hfg : finding = g
        · subst hfg
          rw [hkind, decide_eq_true_eq] at hg
          rw [if_pos ⟨hg, rfl⟩]
          refine ⟨?_, nofun⟩
          rintro ⟨e, he, hp, hlive, hfrom, -, hrel⟩
          simp [hlive, hfrom, hrel] at hp
        · rw [if_neg fun hk => hfg hk.2, ← h.about l]
          constructor
          · rintro ⟨e, he, -, hrest⟩
            exact ⟨e, he, hrest⟩
          · rintro ⟨e, he, hlive, hfrom, hto, hrel⟩
            refine ⟨e, he, ?_, hlive, hfrom, hto, hrel⟩
            simp [hrel, hfrom, hfg]
      case isFalse hg =>
        have hkeep : (if s.kind = some .finding ∧ finding = g then [] else s.about) = s.about := by
          refine if_neg ?_
          rintro ⟨hk, rfl⟩
          rw [hkind, decide_eq_true_eq] at hg
          exact hg hk
        rw [hkeep]
        exact ⟨hout, h⟩
    obtain ⟨hout', h'⟩ := hstep
    obtain ⟨houtside, hfolded⟩ := ih h' hout'
    refine ⟨houtside, ?_⟩
    show Follows ((t.invalidateFindingEdges g by_.at_).invalidateFindings by_ findings) finding _
    have habout : (if s.kind = some .finding ∧ finding ∈ findings then []
        else if s.kind = some .finding ∧ finding = g then [] else s.about) =
        if s.kind = some .finding ∧ finding ∈ g :: findings then [] else s.about := by
      by_cases hk : s.kind = some .finding <;> by_cases hg : finding = g <;>
        by_cases hm : finding ∈ findings <;> simp [hk, hg, hm]
    rw [← habout]
    exact hfolded

theorem markUpheld (h : Follows t finding s) (unit g : String) :
    Follows (t.markUpheld unit g) finding
      { s with
        upheld := s.upheld || decide (s.kind = some .finding ∧ finding = g)
        unit := if s.kind = some .finding ∧ finding = g then some unit else s.unit } := by
  have hrow := alter_map_getElem? t.nodes g (fun n => if n.kind = .finding then
    { n with attrs := (n.attrs.insert "disposition" "upheld").insert "unit" unit } else n) finding
  have hdisposition : ∀ attrs : Attrs,
      ((attrs.insert "disposition" "upheld").insert "unit" unit)["disposition"]? =
      some "upheld" := by
    intro attrs
    rw [Std.ExtTreeMap.getElem?_insert, if_neg (by decide), Std.ExtTreeMap.getElem?_insert_self]
  have hunit : ∀ attrs : Attrs,
      ((attrs.insert "disposition" "upheld").insert "unit" unit)["unit"]? = some unit :=
    fun attrs => Std.ExtTreeMap.getElem?_insert_self
  have hk := h.kind
  have hu := h.upheld
  have hn := h.unit
  unfold Tables.markUpheld
  cases hnode : t.nodes[finding]? with
  | none =>
    rw [hnode] at hrow hk hu hn
    have hnone : s.kind ≠ some .finding := by
      rw [← hk]
      nofun
    refine ⟨?_, ?_, ?_, h.about⟩ <;> dsimp only <;> rw [hrow]
    · exact hk
    · rw [← hu]
      simp [hnone]
    · rw [if_neg fun hm => hnone hm.1, ← hn]
      rfl
  | some n =>
    rw [hnode] at hrow hk hu hn
    rw [Option.map_some] at hk
    by_cases hmark : s.kind = some .finding ∧ finding = g
    · have hkind : n.kind = .finding := by
        rw [← hk, Option.some.injEq] at hmark
        exact hmark.1
      rw [Option.map_some, if_pos hmark.2, if_pos hkind] at hrow
      refine ⟨?_, ?_, ?_, h.about⟩ <;> dsimp only <;> rw [hrow]
      · exact hk
      · rw [Option.any_some, hdisposition]
        simp [hmark]
      · rw [if_pos hmark]
        exact hunit n.attrs
    · have hsame : (if finding = g then if n.kind = .finding then
          { n with attrs := (n.attrs.insert "disposition" "upheld").insert "unit" unit } else n
          else n) = n := by
        by_cases hg : finding = g
        · rw [if_pos hg, if_neg]
          intro hkind
          exact hmark ⟨by rw [← hk, hkind], hg⟩
        · rw [if_neg hg]
      rw [Option.map_some, hsame] at hrow
      refine ⟨?_, ?_, ?_, h.about⟩ <;> dsimp only <;> rw [hrow]
      · exact hk
      · rw [hu]
        simp [hmark]
      · rw [if_neg hmark]
        exact hn

theorem markUpheldAll (h : Follows t finding s) (hout : OutsideRule t) (unit : String)
    (findings : List String) :
    OutsideRule (findings.foldl (fun t g => t.markUpheld unit g) t) ∧
      Follows (findings.foldl (fun t g => t.markUpheld unit g) t) finding
        { s with
          upheld := s.upheld || decide (s.kind = some .finding ∧ finding ∈ findings)
          unit := if s.kind = some .finding ∧ finding ∈ findings then some unit else s.unit } := by
  induction findings generalizing t s with
  | nil => exact ⟨hout, by simpa using h⟩
  | cons g findings ih =>
    have houtside : OutsideRule (t.markUpheld unit g) :=
      ⟨hout.retired, hout.aliases, hout.detached, hout.relabelOwed, hout.proofsOwed, hout.about,
        hout.generation⟩
    obtain ⟨hfolded, hfollows⟩ := ih (h.markUpheld unit g) houtside
    refine ⟨hfolded, ?_⟩
    rw [List.foldl_cons]
    convert hfollows using 2
    · by_cases hk : s.kind = some .finding <;> by_cases hg : finding = g <;>
        by_cases hm : finding ∈ findings <;> simp [hk, hg, hm]
    · by_cases hk : s.kind = some .finding <;> by_cases hg : finding = g <;>
        by_cases hm : finding ∈ findings <;> simp [hk, hg, hm]

theorem foldVerdict (h : Follows t finding s) (hout : OutsideRule t) (v : Verdict) :
    OutsideRule (t.foldVerdict by_ v) ∧
      Follows (t.foldVerdict by_ v) finding (s.step finding (.spawnResult v)) := by
  obtain ⟨hdiscarded, hfollows⟩ := h.invalidateFindings hout by_ (sortedSet v.discarded)
  obtain ⟨hmarked, hfinal⟩ := hfollows.markUpheldAll hdiscarded v.unit (sortedSet v.upheld)
  refine ⟨hmarked, ?_⟩
  have hstep : s.step finding (.spawnResult v) =
      { s with
        about := if s.kind = some .finding ∧ finding ∈ sortedSet v.discarded then [] else s.about
        upheld := s.upheld || decide (s.kind = some .finding ∧ finding ∈ sortedSet v.upheld)
        unit := if s.kind = some .finding ∧ finding ∈ sortedSet v.upheld then some v.unit
          else s.unit } := by
    simp only [Tables.mem_sortedSet, Disposal.step]
    by_cases hk : s.kind = some .finding
    · simp [hk]
    · simp [hk]
  rw [hstep]
  exact hfinal

theorem unitIntegrated (h : Follows t finding s) (hout : OutsideRule t) (unit : String) :
    OutsideRule (t.invalidateFindings by_ (t.addressed unit)) ∧
      Follows (t.invalidateFindings by_ (t.addressed unit)) finding
        (s.step finding (.unitIntegrated unit)) := by
  obtain ⟨houtside, hfollows⟩ := h.invalidateFindings hout by_ (t.addressed unit)
  refine ⟨houtside, ?_⟩
  have haddressed : finding ∈ t.addressed unit ↔
      s.kind = some .finding ∧ s.upheld = true ∧ s.unit = some unit := by
    unfold Tables.addressed
    rw [List.mem_filter, ← h.kind, ← h.upheld, ← h.unit]
    cases hnode : t.nodes[finding]? with
    | none => simp
    | some n =>
      have hmem : finding ∈ t.nodes.keys := by
        rw [Std.ExtTreeMap.mem_keys, Std.ExtTreeMap.mem_iff_isSome_getElem?, hnode]
        rfl
      simp [hmem, and_assoc]
  have hstep : s.step finding (.unitIntegrated unit) =
      { s with about := if s.kind = some .finding ∧ finding ∈ t.addressed unit then []
          else s.about } := by
    show (if s.kind = some .finding ∧ s.upheld = true ∧ s.unit = some unit then
      { s with about := [] } else s) = _
    by_cases ha : s.kind = some .finding ∧ s.upheld = true ∧ s.unit = some unit
    · rw [if_pos ha, if_pos ⟨ha.1, haddressed.2 ha⟩]
    · rw [if_neg ha, if_neg fun hm => ha (haddressed.1 hm.2)]
  rw [hstep]
  exact hfollows

end Follows

/-! ## A log of a finding's events -/

/-- The types of a finding's log. -/
def dispositionTypes : List String :=
  [typeReviewFinding, typeSpawnResult, Ledger.typeUnitIntegrated]

/-- What the fold reads of a log: the payloads that decode. -/
def payloads (reading : Reading) (log : List Event) : List Payload :=
  log.filterMap (Payload.ofEvent reading)

/-- The events a call folds of the log. -/
def FoldCall.log : FoldCall → List Event
  | .events es => es
  | .decidedEvent e => [e]
  | .entry e _ => [e]
  | .decidedEntry e _ => [e]

/-- The call folds events, directly where all of them decode. -/
inductive FoldCall.Reads (reading : Reading) : FoldCall → Prop
  | direct {es : List Event} (h : ∀ e ∈ es, (Payload.ofEvent reading e).isSome = true) :
    Reads reading (.events es)
  | decided (e : Event) : Reads reading (.decidedEvent e)

def logOf (transactions : List (List FoldCall)) : List Event :=
  transactions.flatten.flatMap FoldCall.log

/-- The transactions fold a log of a finding's events, each position once. -/
structure FoldsLog (reading : Reading) (transactions : List (List FoldCall)) : Prop where
  types : ∀ e ∈ logOf transactions, e.type_ ∈ dispositionTypes
  positions : ((logOf transactions).map Event.position).Nodup
  reads : ∀ calls ∈ transactions, ∀ call ∈ calls, call.Reads reading

variable {e : Event}

theorem asserter_of_disposition (h : e.type_ ∈ dispositionTypes) :
    (Asserter.of e).identity = "" ∧ (Asserter.of e).generation = "" := by
  have hnot : isDerivedIndexType e.type_ = false := by
    revert h
    generalize e.type_ = type_
    simp only [dispositionTypes, List.mem_cons, List.not_mem_nil, or_false]
    rintro (rfl | rfl | rfl) <;> decide
  unfold Asserter.of derivedGeneration
  rw [hnot]
  exact ⟨rfl, rfl⟩

theorem not_ledger_of_disposition (h : e.type_ ∈ dispositionTypes) :
    isLedgerEntry e.type_ = false := by
  revert h
  generalize e.type_ = type_
  simp only [dispositionTypes, List.mem_cons, List.not_mem_nil, or_false]
  rintro (rfl | rfl | rfl) <;> decide

theorem mem_positions {log : List Event} {n : Nat}
    (h : compare e.position n = .eq ∨ n ∈ log.map Event.position) :
    n ∈ (log ++ [e]).map Event.position := by
  rw [List.map_append, List.mem_append]
  rcases h with heq | hn
  · rw [← Std.LawfulEqCmp.eq_of_compare heq]
    exact .inr (by simp)
  · exact .inl hn

/-- The payloads of the log's types. -/
def Payload.Disposes : Payload → Prop
  | .reviewFinding _ | .spawnResult _ | .unitIntegrated _ | .unread => True
  | _ => False

variable {p : Payload} {transactions : List (List FoldCall)}

theorem disposes_of_disposition {reading : Reading} (h : e.type_ ∈ dispositionTypes)
    (hp : Payload.ofEvent reading e = some p) : p.Disposes := by
  simp only [dispositionTypes, List.mem_cons, List.not_mem_nil, or_false] at h
  unfold Payload.ofEvent at hp
  rcases h with h | h | h
  · rw [h, if_neg (by decide), if_neg (by decide), if_neg (by decide), if_pos rfl] at hp
    obtain ⟨r, -, rfl⟩ := Option.map_eq_some_iff.1 hp
    trivial
  · rw [h, if_neg (by decide), if_neg (by decide), if_neg (by decide), if_neg (by decide),
      if_neg (by decide), if_neg (by decide), if_neg (by decide), if_neg (by decide),
      if_pos rfl] at hp
    cases hp
    unfold Payload.ofSpawnResult
    dsimp only
    split <;> trivial
  · rw [h, if_neg (by decide), if_pos rfl] at hp
    obtain ⟨u, -, rfl⟩ := Option.map_eq_some_iff.1 hp
    trivial

theorem OutsideRule.relabelOwedCommunities {t : Tables} (h : OutsideRule t) :
    t.relabelOwedCommunities = t := by
  unfold Tables.relabelOwedCommunities
  rw [h.relabelOwed]
  show { t with relabelOwed := ∅ } = t
  rw [← h.relabelOwed]

theorem OutsideRule.settleProofs {t : Tables} (h : OutsideRule t) : t.settleProofs = t := by
  unfold Tables.settleProofs
  rw [h.proofsOwed]
  show { t with proofsOwed := ∅ } = t
  rw [← h.proofsOwed]

theorem Follows.fold {t : Tables} {finding : String} {s : Disposal} {by_ : Asserter}
    (h : Follows t finding s) (hout : OutsideRule t) (hid : by_.identity = "")
    (hby : by_.generation = "") (position : Nat) (hp : p.Disposes) :
    OutsideRule (t.fold by_ position p) ∧
      Follows (t.fold by_ position p) finding (s.step finding p) := by
  have hfold : t.fold by_ position p = t.foldPayload by_ position p := by
    unfold Tables.fold Tables.advanceGeneration
    rw [if_pos hid]
  rw [hfold]
  cases p with
  | reviewFinding r => exact h.foldFinding hout hby position r
  | spawnResult v => exact h.foldVerdict hout v
  | unitIntegrated unit => exact h.unitIntegrated hout unit
  | unread => exact ⟨hout, h⟩
  | _ => exact hp.elim

/-! ## A file folded from the log -/

/-- The file's tables show what the log's disposal does, and its ledgers hold the log's
positions. -/
structure Shows (reading : Reading) (finding : String) (log : List Event) (f : Folded) : Prop where
  outside : OutsideRule f.tables
  follows : Follows f.tables finding (run (Disposal.step finding) .start (payloads reading log))
  applied : ∀ n ∈ f.applied, n ∈ log.map Event.position
  passedOver : ∀ n ∈ f.passedOver, n ∈ log.map Event.position

namespace Shows

variable {reading : Reading} {finding : String} {log : List Event} {f : Folded}

theorem empty : Shows reading finding [] .empty :=
  ⟨.empty, .empty finding, fun n hn => by simp [Folded.empty] at hn,
    fun n hn => by simp [Folded.empty] at hn⟩

theorem foldOne (h : Shows reading finding log f) {e : Event} (htype : e.type_ ∈ dispositionTypes)
    (hpos : e.position ∉ log.map Event.position) {p : Payload}
    (hp : Payload.ofEvent reading e = some p) (passed : Option String) :
    ∃ f', foldOne reading (f, passed) e = some (f', passed) ∧
      Shows reading finding (log ++ [e]) f' := by
  have hledger := not_ledger_of_disposition htype
  have hnew : e.position ∉ f.applied := fun hm => hpos (h.applied _ hm)
  obtain ⟨hid, hby⟩ := asserter_of_disposition htype
  obtain ⟨hout, hfollows⟩ := h.follows.fold h.outside hid hby e.position
    (disposes_of_disposition htype hp)
  refine ⟨{ f with
    applied := f.applied.insert e.position
    tables := f.tables.fold (.of e) e.position p }, ?_, hout, ?_, fun n hn => ?_, fun n hn => ?_⟩
  · unfold Graph.foldOne
    dsimp only
    rw [hledger, if_neg (by decide), if_neg hnew, hp]
    rfl
  · have hread : payloads reading (log ++ [e]) = payloads reading log ++ [p] := by
      simp [payloads, List.filterMap_append, hp]
    rw [hread, run_append]
    exact hfollows
  · exact mem_positions ((Std.ExtTreeSet.mem_insert.1 hn).imp_right (h.applied n))
  · exact mem_positions (.inr (h.passedOver n hn))

theorem foldlM (es : List Event) (h : Shows reading finding log f)
    (htypes : ∀ e ∈ es, e.type_ ∈ dispositionTypes)
    (hpositions : ((log ++ es).map Event.position).Nodup)
    (hreads : ∀ e ∈ es, (Payload.ofEvent reading e).isSome = true) (passed : Option String) :
    ∃ f', es.foldlM (Graph.foldOne reading) (f, passed) = some (f', passed) ∧
      Shows reading finding (log ++ es) f' := by
  induction es generalizing log f with
  | nil => exact ⟨f, rfl, by simpa using h⟩
  | cons e es ih =>
    obtain ⟨p, hp⟩ := Option.isSome_iff_exists.1 (hreads e (by simp))
    have hsplit : log ++ e :: es = log ++ [e] ++ es := by simp
    rw [hsplit] at hpositions ⊢
    have hpos : e.position ∉ log.map Event.position := by
      rw [List.map_append, List.map_append] at hpositions
      have := (List.nodup_append.1 hpositions).1
      intro hm
      exact (List.nodup_append.1 this).2.2 _ hm _ (by simp) rfl
    obtain ⟨f', hfold, hshows⟩ := h.foldOne (htypes e (by simp)) hpos hp passed
    obtain ⟨f'', hrest, hfinal⟩ := ih hshows (fun e he => htypes e (by simp [he])) hpositions
      fun e he => hreads e (by simp [he])
    refine ⟨f'', ?_, hfinal⟩
    rw [List.foldlM_cons, hfold]
    exact hrest

theorem foldNew (es : List Event) (h : Shows reading finding log f)
    (htypes : ∀ e ∈ es, e.type_ ∈ dispositionTypes)
    (hpositions : ((log ++ es).map Event.position).Nodup)
    (hreads : ∀ e ∈ es, (Payload.ofEvent reading e).isSome = true) :
    ∃ f', Graph.foldNew reading f es = some (f', none) ∧ Shows reading finding (log ++ es) f' := by
  obtain ⟨f', hfold, hshows⟩ := h.foldlM es htypes hpositions hreads none
  refine ⟨f', ?_, hshows⟩
  unfold Graph.foldNew
  rw [hfold]
  show some ({ f' with tables := f'.tables.relabelOwedCommunities }, none) = _
  rw [hshows.outside.relabelOwedCommunities]

theorem passOver (h : Shows reading finding log f) {e : Event} (hpos : e.position ∉
    log.map Event.position) (hp : Payload.ofEvent reading e = none) (cause : String) :
    ∃ f', f.passOver e.position cause = some f' ∧ Shows reading finding (log ++ [e]) f' := by
  have hnew : e.position ∉ f.passedOver := fun hm => hpos (h.passedOver _ hm)
  refine ⟨_, if_neg hnew, h.outside, ?_, fun n hn => ?_, fun n hn => ?_⟩
  · have hread : payloads reading (log ++ [e]) = payloads reading log := by
      simp [payloads, List.filterMap_append, hp]
    rw [hread]
    exact h.follows
  · exact mem_positions ((Std.ExtTreeSet.mem_insert.1 hn).imp_right (h.applied n))
  · exact mem_positions ((Std.ExtTreeMap.mem_insert.1 hn).imp_right (h.passedOver n))

theorem foldCall (h : Shows reading finding log f) {call : FoldCall} (hreads : call.Reads reading)
    (htypes : ∀ e ∈ call.log, e.type_ ∈ dispositionTypes)
    (hpositions : ((log ++ call.log).map Event.position).Nodup) :
    ∃ f', Graph.foldCall reading f call = some f' ∧
      Shows reading finding (log ++ call.log) f' := by
  cases hreads with
  | @direct es hreads =>
    obtain ⟨f', hfold, hshows⟩ := h.foldNew es htypes hpositions hreads
    refine ⟨f', ?_, hshows⟩
    show (Graph.foldNew reading f es).map Prod.fst = some f'
    rw [hfold]
    rfl
  | decided e =>
    show ∃ f', decideEvent reading f e = some f' ∧ Shows reading finding (log ++ [e]) f'
    unfold decideEvent
    cases hp : Payload.ofEvent reading e with
    | some p =>
      obtain ⟨f', hfold, hshows⟩ := h.foldNew [e] htypes hpositions fun x hx => by
        rw [List.mem_singleton.1 hx, hp]
        rfl
      refine ⟨f', ?_, hshows⟩
      rw [hfold]
      rfl
    | none =>
      have htype : e.type_ ∈ dispositionTypes := htypes e (by simp [FoldCall.log])
      have hledger := not_ledger_of_disposition htype
      have hpos : e.position ∉ log.map Event.position := by
        rw [List.map_append] at hpositions
        intro hm
        exact (List.nodup_append.1 hpositions).2.2 _ hm _ (by simp [FoldCall.log]) rfl
      have hfails : Graph.foldNew reading f [e] = none := by
        have hnew : e.position ∉ f.applied := fun hm => hpos (h.applied _ hm)
        have hone : Graph.foldOne reading (f, none) e = none := by
          unfold Graph.foldOne
          dsimp only
          rw [hledger, if_neg (by decide), if_neg hnew, hp]
          rfl
        unfold Graph.foldNew
        rw [List.foldlM_cons, hone]
        rfl
      have hrejected : rejectedPayload reading e =
          some (payloadRejected ++ ": " ++ reading.why e.type_ e.data) := by
        unfold rejectedPayload rejection refused
        rw [hledger, hp]
        rfl
      obtain ⟨f', hpassed, hshows⟩ := h.passOver hpos hp
        (payloadRejected ++ ": " ++ reading.why e.type_ e.data)
      refine ⟨f', ?_, hshows⟩
      rw [hfails, hrejected]
      unfold foldInSavepoint
      show ((f.passOver e.position _).map (·, true)).map Prod.fst = some f'
      rw [hpassed]
      rfl

theorem transact (calls : List FoldCall) (h : Shows reading finding log f)
    (hreads : ∀ call ∈ calls, call.Reads reading)
    (htypes : ∀ e ∈ calls.flatMap FoldCall.log, e.type_ ∈ dispositionTypes)
    (hpositions : ((log ++ calls.flatMap FoldCall.log).map Event.position).Nodup) :
    Shows reading finding (log ++ calls.flatMap FoldCall.log) (Graph.transact reading f calls) := by
  have hcalls : ∀ (calls : List FoldCall) (log : List Event) (f : Folded),
      Shows reading finding log f → (∀ call ∈ calls, call.Reads reading) →
      (∀ e ∈ calls.flatMap FoldCall.log, e.type_ ∈ dispositionTypes) →
      ((log ++ calls.flatMap FoldCall.log).map Event.position).Nodup →
      ∃ f', calls.foldlM (Graph.foldCall reading) f = some f' ∧
        Shows reading finding (log ++ calls.flatMap FoldCall.log) f' := by
    intro calls
    induction calls with
    | nil => exact fun log f h _ _ _ => ⟨f, rfl, by simpa using h⟩
    | cons call calls ih =>
      intro log f h hreads htypes hpositions
      rw [List.flatMap_cons] at htypes hpositions ⊢
      rw [← List.append_assoc] at hpositions ⊢
      have hfirst : ((log ++ call.log).map Event.position).Nodup := by
        rw [List.map_append] at hpositions
        exact (List.nodup_append.1 hpositions).1
      obtain ⟨f', hfold, hshows⟩ := h.foldCall (hreads call (by simp))
        (fun e he => htypes e (List.mem_append_left _ he)) hfirst
      obtain ⟨f'', hrest, hfinal⟩ := ih _ f' hshows (fun c hc => hreads c (by simp [hc]))
        (fun e he => htypes e (List.mem_append_right _ he)) hpositions
      refine ⟨f'', ?_, hfinal⟩
      rw [List.foldlM_cons, hfold]
      exact hrest
  obtain ⟨f', hfold, hshows⟩ := hcalls calls log f h hreads htypes hpositions
  unfold Graph.transact
  rw [hfold]
  show Shows reading finding _ { f' with tables := f'.tables.settleProofs }
  rw [hshows.outside.settleProofs]
  exact hshows

end Shows

/-- However a finding's log is cut into transactions, the file shows its disposal. -/
theorem shows_of_run {reading : Reading} (h : FoldsLog reading transactions) (finding : String) :
    Shows reading finding (logOf transactions) (run (transact reading) .empty transactions) := by
  induction transactions using List.reverseRecOn with
  | nil => exact .empty
  | append_singleton transactions calls ih =>
    have hlog : logOf (transactions ++ [calls]) =
        logOf transactions ++ calls.flatMap FoldCall.log := by
      simp [logOf, List.flatMap_append]
    obtain ⟨htypes, hpositions, hreads⟩ := h
    rw [hlog] at htypes hpositions ⊢
    have hbefore : FoldsLog reading transactions :=
      ⟨fun e he => htypes e (List.mem_append_left _ he),
        by rw [List.map_append] at hpositions; exact (List.nodup_append.1 hpositions).1,
        fun calls hcalls => hreads calls (List.mem_append_left _ hcalls)⟩
    rw [run_append, run_cons, run_nil]
    exact (ih hbefore).transact calls (hreads calls (by simp))
      (fun e he => htypes e (List.mem_append_right _ he)) hpositions

/-- After folding, a finding's edges are live as the log says of it exactly where the finding is
neither misnamed nor marked stale. -/
theorem aboutLive_iff {reading : Reading} {transactions : List (List FoldCall)}
    (h : FoldsLog reading transactions) (finding : String) :
    Disposal.AboutHolds finding (payloads reading (logOf transactions))
        ((run (transact reading) .empty transactions).tables.AboutLive finding) ↔
      ¬Disposal.Misnamed finding (payloads reading (logOf transactions)) ∧
        ¬Disposal.MarkedStale finding (payloads reading (logOf transactions)) := by
  rw [← Disposal.aboutHolds_iff]
  have hlive : (run (transact reading) .empty transactions).tables.AboutLive finding =
      (· ∈ (run (Disposal.step finding) .start (payloads reading (logOf transactions))).about) :=
    funext fun l => propext ((shows_of_run h finding).follows.about l)
  rw [hlive]

/-! A finding upheld for the unit it names, raised again before the unit integrates. -/

def upheldLine : String := "\x7b\"verdict\":\"approve\",\"upheld\":[\"f\"]\x7d"

def verdictReading : Reading where
  f64 := plainReading.f64
  verdictLine := fun line =>
    if line = upheldLine then
      some (.obj [("verdict", .str "approve"), ("upheld", .arr [.str "f"])])
    else none
  why := plainReading.why

def raiseEvent (position : Nat) : Event :=
  indexEvent position typeReviewFinding none
    [("id", .str "f"), ("unit", .str "u"), ("about", .arr [.str "a.rs"])]

def upholdEvent (position : Nat) : Event :=
  indexEvent position typeSpawnResult none
    [("id", .str "u/adjudicator#1"), ("output", .str upheldLine)]

def integrateEvent (position : Nat) : Event :=
  indexEvent position Ledger.typeUnitIntegrated none [("id", .str "u")]

def reraised : List (List FoldCall) :=
  [[.events [raiseEvent 1, upholdEvent 2, raiseEvent 3]], [.decidedEvent (integrateEvent 4)]]

def raisedFinding : ReviewFinding := ⟨"f", "", "u", "", ["a.rs"], none⟩

theorem payloads_reraised : payloads verdictReading (logOf reraised) =
    [.reviewFinding raisedFinding, .spawnResult ⟨"u", [], ["f"]⟩, .reviewFinding raisedFinding,
      .unitIntegrated "u"] := by
  decide +kernel

theorem foldsLog_reraised : FoldsLog verdictReading reraised where
  types := by decide +kernel
  positions := by decide
  reads := by
    intro calls hcalls call hcall
    simp only [reraised, List.mem_cons, List.not_mem_nil, or_false] at hcalls
    rcases hcalls with rfl | rfl <;> rw [List.mem_singleton.1 hcall]
    · exact .direct (by decide +kernel)
    · exact .decided _

/-- The mark of before the second raise ends its edges. -/
theorem aboutHolds_not_held : ¬∀ (reading : Reading) (transactions : List (List FoldCall)),
    FoldsLog reading transactions → ∀ finding,
      Disposal.AboutHolds finding (payloads reading (logOf transactions))
        ((run (transact reading) .empty transactions).tables.AboutLive finding) := by
  intro h
  have hdead : (run (transact verdictReading) .empty reraised).tables.edges.all
      (fun e => !e.isLive) = true := by decide +kernel
  have hlatest : LatestRaise "f" (payloads verdictReading (logOf reraised))
      [.reviewFinding raisedFinding, .spawnResult ⟨"u", [], ["f"]⟩] raisedFinding
      [.unitIntegrated "u"] :=
    ⟨payloads_reraised, rfl, by decide⟩
  have hstands : ¬Disposed "f" [.unitIntegrated "u"] := by
    rintro (⟨p, hp, hdiscards⟩ | ⟨before, p, after, heq, unit, -, hlatest⟩)
    · rw [List.mem_singleton.1 hp] at hdiscards
      cases hdiscards
    · cases before with
      | nil => cases hlatest
      | cons q before =>
        have := congrArg List.length heq
        simp at this
  obtain ⟨e, he, hlive, -⟩ := ((h _ _ foldsLog_reraised "f").1 _ _ _ hlatest "a.rs" (by decide)).2
    (hlatest.standing_iff.2 hstands)
  have := List.all_eq_true.1 hdead e he
  rw [hlive] at this
  cases this

def integratedOnce : List (List FoldCall) :=
  [[.events [raiseEvent 1, upholdEvent 2]], [.decidedEvent (integrateEvent 3)]]

theorem foldsLog_integratedOnce : FoldsLog verdictReading integratedOnce where
  types := by decide +kernel
  positions := by decide
  reads := by
    intro calls hcalls call hcall
    simp only [integratedOnce, List.mem_cons, List.not_mem_nil, or_false] at hcalls
    rcases hcalls with rfl | rfl <;> rw [List.mem_singleton.1 hcall]
    · exact .direct (by decide +kernel)
    · exact .decided _

theorem aboutLive_iff_integratedOnce :
    Disposal.AboutHolds "f" (payloads verdictReading (logOf integratedOnce))
        ((run (transact verdictReading) .empty integratedOnce).tables.AboutLive "f") ↔
      ¬Disposal.Misnamed "f" (payloads verdictReading (logOf integratedOnce)) ∧
        ¬Disposal.MarkedStale "f" (payloads verdictReading (logOf integratedOnce)) :=
  aboutLive_iff foldsLog_integratedOnce "f"

end Rigger.Graph
