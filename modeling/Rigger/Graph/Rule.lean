import Rigger.Graph.Reach

/-!
# The generation rule

`Rows` says of the recorded assertions what every fold keeps: an identity asserts a node once, at no
generation outside the rule, and within it only once a generation of it is current.

An event that opens a generation leaves the rows of the one it supersedes `Pending` while its arm
folds, and then settles their nodes.  `Settling` is what an invariant told which rows are pending
needs for a whole event to keep it (`Settling.fold`): the arms' part is `Arms`.
-/

namespace Rigger.Graph

open Lib

/-- The rows an event's superseded generation left. -/
def Asserter.Pending (by_ : Asserter) (prior : Option String) (r : NodeAssertion) : Prop :=
  r.identity = by_.identity ∧ prior = some r.generation

/-! ## The recorded assertions -/

structure Rows (t : Tables) : Prop where
  distinct : DistinctRows t.nodeAssertions
  outside : ∀ r ∈ t.nodeAssertions, r.identity = "" → r.generation = ""
  known : ∀ r ∈ t.nodeAssertions, r.identity ≠ "" → t.currentGeneration r.identity ≠ none

namespace Rows

variable {t t' : Tables} {by_ : Asserter}

theorem empty : Rows .empty := ⟨List.Pairwise.nil, by simp [Tables.empty], by simp [Tables.empty]⟩

theorem frame (h : Rows t) (hrows : t'.nodeAssertions = t.nodeAssertions)
    (hknown : ∀ identity, t.currentGeneration identity ≠ none →
      t'.currentGeneration identity ≠ none) : Rows t' where
  distinct := hrows ▸ h.distinct
  outside := hrows ▸ h.outside
  known := fun r hr hne => hknown _ (h.known r (hrows ▸ hr) hne)

theorem congr (h : Rows t) (hrows : t'.nodeAssertions = t.nodeAssertions)
    (hgens : t'.generations = t.generations) : Rows t' :=
  h.frame hrows fun identity hk => by rwa [Tables.currentGeneration, hgens]

variable {r : NodeAssertion}

theorem generation_of_holds (h : Rows t) (hby : by_.Known) (hcurrent : by_.Current t)
    (hr : r ∈ t.nodeAssertions) (hidentity : r.identity = by_.identity)
    (hholds : t.holds r = true) :
    r.generation = by_.generation := by
  by_cases hempty : r.identity = ""
  · rw [h.outside r hr hempty, hby (hidentity ▸ hempty)]
  · have hne : by_.identity ≠ "" := hidentity ▸ hempty
    rw [t.holds_iff, hidentity, hcurrent.resolve_left hne] at hholds
    exact (Option.some.inj (hholds.resolve_left hne)).symm

theorem record (h : Rows t) (hby : by_.Known) (hcurrent : by_.Current t) {id : String}
    {kind : NodeKind} {attrs : Attrs}
    (hrec : Recorded by_ id kind attrs t.nodeAssertions t'.nodeAssertions)
    (hgens : t'.generations = t.generations) : Rows t' := by
  obtain ⟨own, hof, hgen, hmem, -⟩ := hrec.own
  refine ⟨hrec.distinct h.distinct, fun r hr hempty => ?_, fun r hr hne => ?_⟩
  · rcases (hmem r).1 hr with rfl | ⟨hr, -⟩
    · rw [hgen]
      exact hby ((NodeAssertion.isOf_iff.1 hof).1 ▸ hempty)
    · exact h.outside r hr hempty
  · rw [Tables.currentGeneration, hgens]
    rcases (hmem r).1 hr with rfl | ⟨hr, -⟩
    · rw [(NodeAssertion.isOf_iff.1 hof).1] at hne ⊢
      have := hcurrent.resolve_left hne
      rw [Tables.currentGeneration] at this
      rw [this]
      exact Option.some_ne_none _
    · exact h.known r hr hne

theorem ensureNode (h : Rows t) (hby : by_.Known) (hcurrent : by_.Current t) (id : String)
    (kind : NodeKind) (attrs : List (String × String)) : Rows (t.ensureNode by_ id kind attrs) :=
  h.record hby hcurrent (t.ensureNode_cases by_ id kind h.distinct attrs).1
    (t.ensureNode_cases by_ id kind h.distinct attrs).2.1

theorem settleNode (h : Rows t) (id : String) (retracted : Attrs) (at_ : Int) :
    Rows (t.settleNode id retracted at_) := h.congr (by simp) (by simp)

/-- Where the identity knows no generation, none of the rows is its own. -/
theorem first (h : Rows t) (hid : by_.identity ≠ "")
    (hnone : t.currentGeneration by_.identity = none) (hr : r ∈ t.nodeAssertions) :
    r.identity ≠ by_.identity :=
  fun he => h.known r hr (he ▸ hid) (he ▸ hnone)

end Rows

/-! ## Opening a generation -/

namespace Tables

variable (t : Tables) (by_ : Asserter)

/-- The identity's first generation opened. -/
def began : Tables :=
  { t with generations := t.generations.insert by_.identity ⟨by_.generation, none⟩ }

theorem began_currentGeneration (identity : String) : (t.began by_).currentGeneration identity =
    if identity = by_.identity then some by_.generation else t.currentGeneration identity :=
  t.currentGeneration_insert _ _

variable {r : NodeAssertion}

theorem began_holds (hrows : Rows t) (hid : by_.identity ≠ "")
    (hnone : t.currentGeneration by_.identity = none) (hr : r ∈ t.nodeAssertions) :
    (t.began by_).holds r = t.holds r := by
  unfold holds
  rw [began_currentGeneration, if_neg (hrows.first hid hnone hr)]

variable {identity : String}

theorem began_known (h : t.currentGeneration identity ≠ none) :
    (t.began by_).currentGeneration identity ≠ none := by
  rw [began_currentGeneration]
  split
  · exact Option.some_ne_none _
  · exact h

variable {prior : String}

theorem opened_currentGeneration (identity : String) :
    (t.opened by_ prior).currentGeneration identity =
      if identity = by_.identity then some by_.generation else t.currentGeneration identity :=
  t.currentGeneration_insert _ _

theorem opened_holds_ne (h : r.identity ≠ by_.identity) :
    (t.opened by_ prior).holds r = t.holds r := by
  unfold holds
  rw [opened_currentGeneration, if_neg h]

theorem mem_opened : r ∈ (t.opened by_ prior).nodeAssertions ↔
    r ∈ t.nodeAssertions ∧ (r.identity = by_.identity → r.generation = prior) := by
  simp [opened]
  tauto

theorem opened_holds_self (hid : by_.identity ≠ "") (hne : prior ≠ by_.generation)
    (hr : r ∈ (t.opened by_ prior).nodeAssertions) (hrid : r.identity = by_.identity) :
    (t.opened by_ prior).holds r = false := by
  have hrgen := ((t.mem_opened by_).1 hr).2 hrid
  rw [← Bool.not_eq_true, holds_iff, opened_currentGeneration, if_pos hrid, hrgen]
  rintro (h | h)
  · exact hid (hrid ▸ h)
  · exact hne (Option.some.inj h).symm

theorem generation_of_holds_prior (hid : by_.identity ≠ "")
    (hprior : t.currentGeneration by_.identity = some prior) (hrid : r.identity = by_.identity)
    (hholds : t.holds r = true) : r.generation = prior := by
  rw [t.holds_iff, hrid, hprior] at hholds
  exact (Option.some.inj (hholds.resolve_left hid)).symm

theorem opened_liveAssertions (hid : by_.identity ≠ "") (hne : prior ≠ by_.generation)
    (id : String) : (t.opened by_ prior).liveAssertions id =
      (t.liveAssertions id).filter (·.identity ≠ by_.identity) := by
  unfold liveAssertions
  rw [List.filter_filter]
  show ((t.nodeAssertions.filter _).filter _) = _
  rw [List.filter_filter]
  refine List.filter_congr fun r hr => ?_
  by_cases hrid : r.identity = by_.identity
  · by_cases hrgen : r.generation = prior
    · simp [hrid, t.opened_holds_self by_ hid hne ((t.mem_opened by_).2 ⟨hr, fun _ => hrgen⟩) hrid]
    · simp [hrid, hrgen]
  · simp [hrid, t.opened_holds_ne by_ hrid]

theorem opened_known (h : t.currentGeneration identity ≠ none) :
    (t.opened by_ prior).currentGeneration identity ≠ none := by
  rw [opened_currentGeneration]
  split
  · exact Option.some_ne_none _
  · exact h

/-- The edges the superseded generation asserted, settled as the newer one opens. -/
def settledEdges (prior : String) : Tables :=
  (t.opened by_ prior).settleEdges (((t.opened by_ prior).edges.filter fun e => e.isLive &&
    (t.opened by_ prior).edgeAssertions.any fun a => a.identity == by_.identity &&
      a.generation == prior && a.edge == e.id).map Edge.id) by_.at_

theorem settledEdges_sameNodes (prior : String) :
    SameNodes (t.opened by_ prior) (t.settledEdges by_ prior) := settleEdges_sameNodes _ _ _

end Tables

theorem Rows.opened {t : Tables} (h : Rows t) (by_ : Asserter) (prior : String) :
    Rows (t.opened by_ prior) where
  distinct := h.distinct.filter _
  outside := fun r hr => h.outside r ((t.mem_opened by_).1 hr).1
  known := fun r hr hrid => t.opened_known by_ (h.known r ((t.mem_opened by_).1 hr).1 hrid)

/-! ## Invariants told what is pending -/

/-- What holds within an event: its generation current, the rows of the one it superseded
pending. -/
def Within (K : (NodeAssertion → Prop) → List Assertion → Tables → Prop) (by_ : Asserter)
    (prior : Option String) (live : List Assertion) (t : Tables) : Prop :=
  K (by_.Pending prior) live t ∧ by_.Current t ∧ prior ≠ some by_.generation

/-- What an invariant `K`, told which rows are pending, needs of the generation rule, where the
tables an event supersedes a generation of meet `S`. -/
structure Settling (by_ : Asserter) (S : Tables → Prop)
    (K : (NodeAssertion → Prop) → List Assertion → Tables → Prop) : Prop where
  rows : ∀ {pending live t}, K pending live t → Rows t
  mono : ∀ {pending pending' live t}, (∀ r ∈ t.nodeAssertions, pending r ↔ pending' r) →
    K pending live t → K pending' live t
  first : ∀ {live t}, by_.identity ≠ "" → t.currentGeneration by_.identity = none →
    K (fun _ => False) live t → K (fun _ => False) live (t.began by_)
  supersede : ∀ {live t prior}, by_.identity ≠ "" →
    t.currentGeneration by_.identity = some prior → prior ≠ by_.generation → S t →
    K (fun _ => False) live t → K (by_.Pending (some prior))
      (live.filter (·.identity ≠ by_.identity)) (t.settledEdges by_ prior)
  settle : ∀ {pending live t r}, r ∈ t.nodeAssertions → pending r → K pending live t →
    K (fun x => pending x ∧ x.node ≠ r.node) live (t.settleNode r.node r.attrs by_.at_)

namespace Settling

variable {by_ : Asserter} {S : Tables → Prop}
  {K : (NodeAssertion → Prop) → List Assertion → Tables → Prop} {live : List Assertion} {t : Tables}

theorem advance (h : Settling by_ S K) (hS : S t) (hK : K (fun _ => False) live t) :
    Within K by_ (t.advanceGeneration by_).2
      (if (t.advanceGeneration by_).2.isSome then live.filter (·.identity ≠ by_.identity) else live)
      (t.advanceGeneration by_).1 := by
  have hnone : ∀ r : NodeAssertion, False ↔ by_.Pending none r :=
    fun r => ⟨False.elim, fun hp => by cases hp.2⟩
  rcases t.advanceGeneration_cases by_ with ⟨heq, hcurrent⟩ | ⟨hid, hnew, heq⟩ |
    ⟨prior, hid, hprior, hne, heq⟩
  · rw [heq]
    exact ⟨h.mono (fun r _ => hnone r) hK, hcurrent, by simp⟩
  · rw [heq]
    refine ⟨h.mono (fun r _ => hnone r) (h.first hid hnew hK), .inr ?_, by simp⟩
    exact (t.began_currentGeneration by_ _).trans (if_pos rfl)
  · rw [heq]
    refine ⟨h.supersede hid hprior hne hS hK, .inr ?_, by simpa using hne⟩
    rw [Tables.currentGeneration, (Tables.settleEdges_sameNodes _ _ _).generations]
    exact (t.opened_currentGeneration by_ _).trans (if_pos rfl)

theorem settleNodes (h : Settling by_ S K) {pending : NodeAssertion → Prop}
    {rows : List NodeAssertion}
    (hrows : ∀ r ∈ rows, r ∈ t.nodeAssertions ∧ pending r)
    (hnodes : rows.Pairwise fun a b => a.node ≠ b.node) (hK : K pending live t) :
    K (fun x => pending x ∧ ∀ r ∈ rows, x.node ≠ r.node) live (t.settleNodes by_.at_ rows) := by
  induction rows generalizing t pending with
  | nil => exact h.mono (fun r _ => by simp) hK
  | cons r rows ih =>
    obtain ⟨hr, hrest⟩ := List.pairwise_cons.1 hnodes
    have hsettled := h.settle (hrows r (List.mem_cons_self ..)).1
      (hrows r (List.mem_cons_self ..)).2 hK
    refine h.mono (fun x _ => ?_) (ih (fun x hx => ?_) hrest hsettled)
    · simp only [List.forall_mem_cons, and_assoc]
    · rw [Tables.settleNode_nodeAssertions]
      have hx' := hrows x (List.mem_cons_of_mem _ hx)
      exact ⟨hx'.1, hx'.2, Ne.symm (hr x hx)⟩

theorem retire (h : Settling by_ S K) {prior : String} (hK : Within K by_ (some prior) live t) :
    K (fun _ => False) live (t.retireUnheldNodes by_ prior) := by
  have hmem : ∀ r ∈ t.superseded by_ prior, r ∈ t.nodeAssertions ∧ by_.Pending (some prior) r := by
    intro r hr
    obtain ⟨hr, hid, hgen⟩ := (t.mem_superseded by_).1 hr
    exact ⟨hr, hid, congrArg some hgen.symm⟩
  have hnodup : (t.superseded by_ prior).Nodup := by
    have hrows : t.nodeAssertions.Nodup :=
      (h.rows hK.1).distinct.imp fun hab he => hab (by rw [he]; exact ⟨rfl, rfl⟩)
    exact (List.perm_insertionSort _ _).nodup_iff.2 (hrows.filter _)
  have hnodes : (t.superseded by_ prior).Pairwise fun a b => a.node ≠ b.node := by
    refine hnodup.imp_of_mem fun {a b} ha hb hab he => hab ?_
    obtain ⟨ha, haid, -⟩ := (t.mem_superseded by_).1 ha
    obtain ⟨hb, hbid, -⟩ := (t.mem_superseded by_).1 hb
    exact (h.rows hK.1).distinct.eq_of_isOf ha hb (NodeAssertion.isOf_iff.2 ⟨haid, he⟩)
      (NodeAssertion.isOf_iff.2 ⟨hbid, rfl⟩)
  rw [Tables.retireUnheldNodes_eq]
  refine h.mono (fun r hr => ⟨fun hp => ?_, False.elim⟩) (h.settleNodes hmem hnodes hK.1)
  rw [(Tables.settleNodes_rows _ _ _).1] at hr
  have hr' := (t.mem_superseded by_).2 ⟨hr, hp.1.1, (Option.some.inj hp.1.2).symm⟩
  exact hp.2 r hr' rfl

/-- A whole event keeps what its arm and the generation rule keep. -/
theorem fold (h : Settling by_ S K) (live : List Assertion) {position : Nat} {A : Assertion → Prop}
    {N : String → Prop}
    {G : Tables → Payload → Prop} {p : Payload}
    (harms : ∀ prior, Arms by_ position A N G (Within K by_ prior))
    (hG : G (t.advanceGeneration by_).1 p)
    (hA : ∀ a ∈ (t.advanceGeneration by_).1.asserted by_ p, A a) (hN : ∀ n ∈ p.attached, N n)
    (hS : S t) (hK : K (fun _ => False) live t) :
    K (fun _ => False) (t.assertedBy by_ live p) (t.fold by_ position p) := by
  refine Arms.fold (I := K fun _ => False) harms (h.advance hS hK) h.retire (fun hK => ?_) hG hA hN
  refine h.mono (fun r _ => ⟨fun hp => ?_, False.elim⟩) hK.1
  cases hp.2

end Settling

end Rigger.Graph
