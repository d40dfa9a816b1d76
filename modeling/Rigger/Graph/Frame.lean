import Rigger.Graph.Proof
import Rigger.Graph.Staged

/-!
# What each operation leaves alone

The tables fall in three parts: the nodes with the assertions and generations that settle them
(`SameNodes`), the edges with theirs (`SameEdges`), and the proof rows with the names owed
(`SameProofs`).  An operation of one part leaves the others as they were.
-/

namespace Rigger.Graph

open Lib

structure SameNodes (t t' : Tables) : Prop where
  nodes : t'.nodes = t.nodes
  retired : t'.retired = t.retired
  nodeAssertions : t'.nodeAssertions = t.nodeAssertions
  generations : t'.generations = t.generations
  aliases : t'.aliases = t.aliases

structure SameEdges (t t' : Tables) : Prop where
  edges : t'.edges = t.edges
  edgeSeq : t'.edgeSeq = t.edgeSeq
  edgeAssertions : t'.edgeAssertions = t.edgeAssertions
  detached : t'.detached = t.detached
  refs : t'.refs = t.refs

structure SameProofs (t t' : Tables) : Prop where
  proofs : t'.proofs = t.proofs
  proofsOwed : t'.proofsOwed = t.proofsOwed

namespace SameNodes

variable {t t' t'' : Tables}

theorem refl (t : Tables) : SameNodes t t := ⟨rfl, rfl, rfl, rfl, rfl⟩

theorem trans (h : SameNodes t t') (h' : SameNodes t' t'') : SameNodes t t'' :=
  ⟨h'.nodes.trans h.nodes, h'.retired.trans h.retired,
    h'.nodeAssertions.trans h.nodeAssertions, h'.generations.trans h.generations,
    h'.aliases.trans h.aliases⟩

theorem foldl {α : Type} {f : Tables → α → Tables} (hf : ∀ t a, SameNodes t (f t a))
    (t : Tables) (as : List α) : SameNodes t (as.foldl f t) := by
  induction as generalizing t with
  | nil => exact refl t
  | cons a as ih => exact (hf t a).trans (ih _)

end SameNodes

namespace SameEdges

variable {t t' t'' : Tables}

theorem refl (t : Tables) : SameEdges t t := ⟨rfl, rfl, rfl, rfl, rfl⟩

theorem trans (h : SameEdges t t') (h' : SameEdges t' t'') : SameEdges t t'' :=
  ⟨h'.edges.trans h.edges, h'.edgeSeq.trans h.edgeSeq,
    h'.edgeAssertions.trans h.edgeAssertions, h'.detached.trans h.detached, h'.refs.trans h.refs⟩

theorem foldl {α : Type} {f : Tables → α → Tables} (hf : ∀ t a, SameEdges t (f t a))
    (t : Tables) (as : List α) : SameEdges t (as.foldl f t) := by
  induction as generalizing t with
  | nil => exact refl t
  | cons a as ih => exact (hf t a).trans (ih _)

end SameEdges

namespace SameProofs

variable {t t' t'' : Tables}

theorem refl (t : Tables) : SameProofs t t := ⟨rfl, rfl⟩

theorem trans (h : SameProofs t t') (h' : SameProofs t' t'') : SameProofs t t'' :=
  ⟨h'.proofs.trans h.proofs, h'.proofsOwed.trans h.proofsOwed⟩

theorem foldl {α : Type} {f : Tables → α → Tables} (hf : ∀ t a, SameProofs t (f t a))
    (t : Tables) (as : List α) : SameProofs t (as.foldl f t) := by
  induction as generalizing t with
  | nil => exact refl t
  | cons a as ih => exact (hf t a).trans (ih _)

end SameProofs

namespace Tables

variable (t : Tables) (by_ : Asserter)

/-! ## Debts and row updates -/

theorem oweRelabel_sameNodes (cs : List String) : SameNodes t (t.oweRelabel cs) :=
  ⟨rfl, rfl, rfl, rfl, rfl⟩

theorem oweRelabel_sameEdges (cs : List String) : SameEdges t (t.oweRelabel cs) :=
  ⟨rfl, rfl, rfl, rfl, rfl⟩

theorem oweRelabel_sameProofs (cs : List String) : SameProofs t (t.oweRelabel cs) := ⟨rfl, rfl⟩

theorem oweRelabelOfEnds_sameNodes (src dst : String) (rel : Rel) (declaration : Bool) :
    SameNodes t (t.oweRelabelOfEnds src dst rel declaration) := by
  unfold oweRelabelOfEnds
  split
  · exact (oweRelabel_sameNodes t _).trans (oweRelabel_sameNodes _ _)
  · exact .refl t

theorem oweRelabelOfEnds_sameEdges (src dst : String) (rel : Rel) (declaration : Bool) :
    SameEdges t (t.oweRelabelOfEnds src dst rel declaration) := by
  unfold oweRelabelOfEnds
  split
  · exact (oweRelabel_sameEdges t _).trans (oweRelabel_sameEdges _ _)
  · exact .refl t

theorem oweRelabelOfEnds_sameProofs (src dst : String) (rel : Rel) (declaration : Bool) :
    SameProofs t (t.oweRelabelOfEnds src dst rel declaration) := by
  unfold oweRelabelOfEnds
  split
  · exact (oweRelabel_sameProofs t _).trans (oweRelabel_sameProofs _ _)
  · exact .refl t

theorem oweProofs_sameNodes (name : String) : SameNodes t (t.oweProofs name) :=
  ⟨rfl, rfl, rfl, rfl, rfl⟩

theorem oweProofs_sameEdges (name : String) : SameEdges t (t.oweProofs name) :=
  ⟨rfl, rfl, rfl, rfl, rfl⟩

theorem updateEdges_sameNodes (p : Edge → Bool) (f : Edge → Edge) :
    SameNodes t (t.updateEdges p f) := ⟨rfl, rfl, rfl, rfl, rfl⟩

theorem updateEdges_sameProofs (p : Edge → Bool) (f : Edge → Edge) :
    SameProofs t (t.updateEdges p f) := ⟨rfl, rfl⟩

theorem retireEdges_sameNodes (p : Edge → Bool) (at_ : Int) : SameNodes t (t.retireEdges p at_) :=
  ⟨rfl, rfl, rfl, rfl, rfl⟩

theorem retireEdges_sameProofs (p : Edge → Bool) (at_ : Int) :
    SameProofs t (t.retireEdges p at_) := ⟨rfl, rfl⟩

/-! ## Edges -/

theorem insertEdge_sameNodes (src dst : String) (rel : Rel) (at_ : Int) (validTo : Option Int)
    (source : Nat) (tier : Tier) :
    SameNodes t (t.insertEdge src dst rel at_ validTo source tier) := ⟨rfl, rfl, rfl, rfl, rfl⟩

theorem addEdge_sameNodes (src dst : String) (rel : Rel) (at_ : Int) (source : Nat) (tier : Tier) :
    SameNodes t (t.addEdge src dst rel at_ source tier).1 := by
  unfold addEdge
  split
  · exact updateEdges_sameNodes t _ _
  · exact (insertEdge_sameNodes t _ _ _ _ _ _ _).trans (oweRelabelOfEnds_sameNodes _ _ _ _ _)

theorem addEdge_sameProofs (src dst : String) (rel : Rel) (at_ : Int) (source : Nat)
    (tier : Tier) : SameProofs t (t.addEdge src dst rel at_ source tier).1 := by
  unfold addEdge
  split
  · exact updateEdges_sameProofs t _ _
  · have hinserted : SameProofs t (t.insertEdge src dst rel at_ none source tier) := ⟨rfl, rfl⟩
    exact hinserted.trans (oweRelabelOfEnds_sameProofs _ _ _ _ _)

theorem settleEdge_sameNodes (edge : Nat) (at_ : Int) : SameNodes t (t.settleEdge edge at_) := by
  unfold settleEdge
  split
  · exact updateEdges_sameNodes t _ _
  · dsimp only
    split
    · exact (retireEdges_sameNodes t _ _).trans (oweRelabelOfEnds_sameNodes _ _ _ _ _)
    · exact retireEdges_sameNodes t _ _

theorem settleEdge_sameProofs (edge : Nat) (at_ : Int) : SameProofs t (t.settleEdge edge at_) := by
  unfold settleEdge
  split
  · exact updateEdges_sameProofs t _ _
  · dsimp only
    split
    · exact (retireEdges_sameProofs t _ _).trans (oweRelabelOfEnds_sameProofs _ _ _ _ _)
    · exact retireEdges_sameProofs t _ _

theorem settleEdges_sameNodes (edges : List Nat) (at_ : Int) :
    SameNodes t (t.settleEdges edges at_) :=
  SameNodes.foldl (fun t edge => settleEdge_sameNodes t edge at_) t edges

theorem settleEdges_sameProofs (edges : List Nat) (at_ : Int) :
    SameProofs t (t.settleEdges edges at_) :=
  SameProofs.foldl (fun t edge => settleEdge_sameProofs t edge at_) t edges

theorem recordEdgeAssertion_sameNodes (edge : Nat) (at_ : Int) (source : Nat) :
    SameNodes t (t.recordEdgeAssertion by_ edge at_ source) := by
  unfold recordEdgeAssertion
  dsimp only
  split <;> exact ⟨rfl, rfl, rfl, rfl, rfl⟩

theorem recordEdgeAssertion_sameProofs (edge : Nat) (at_ : Int) (source : Nat) :
    SameProofs t (t.recordEdgeAssertion by_ edge at_ source) := by
  unfold recordEdgeAssertion
  dsimp only
  split <;> exact ⟨rfl, rfl⟩

theorem linkedEdge_sameNodes (src dst : String) (rel : Rel) (at_ : Int) (source : Nat)
    (tier : Tier) : SameNodes t (t.linkedEdge by_ src dst rel at_ source tier).1 := by
  unfold linkedEdge
  split
  · exact updateEdges_sameNodes t _ _
  · exact addEdge_sameNodes t _ _ _ _ _ _

theorem linkedEdge_sameProofs (src dst : String) (rel : Rel) (at_ : Int) (source : Nat)
    (tier : Tier) : SameProofs t (t.linkedEdge by_ src dst rel at_ source tier).1 := by
  unfold linkedEdge
  split
  · exact updateEdges_sameProofs t _ _
  · exact addEdge_sameProofs t _ _ _ _ _ _

theorem assertLink_sameNodes (src dst : String) (rel : Rel) (at_ : Int) (source : Nat)
    (tier : Tier) : SameNodes t (t.assertLink by_ src dst rel at_ source tier) :=
  ((linkedEdge_sameNodes t by_ src dst rel at_ source tier).trans
    (recordEdgeAssertion_sameNodes _ by_ _ at_ source)).trans (settleEdge_sameNodes _ _ at_)

theorem assertLink_sameProofs (src dst : String) (rel : Rel) (at_ : Int) (source : Nat)
    (tier : Tier) : SameProofs t (t.assertLink by_ src dst rel at_ source tier) :=
  ((linkedEdge_sameProofs t by_ src dst rel at_ source tier).trans
    (recordEdgeAssertion_sameProofs _ by_ _ at_ source)).trans (settleEdge_sameProofs _ _ at_)

theorem attach_sameNodes (node dst : String) (rel : Rel) (at_ : Int) (source : Nat) :
    SameNodes t (t.attach node dst rel at_ source) := by
  unfold attach
  split
  · exact addEdge_sameNodes t _ _ _ _ _ _
  · dsimp only
    split <;> exact ⟨rfl, rfl, rfl, rfl, rfl⟩

theorem attach_sameProofs (node dst : String) (rel : Rel) (at_ : Int) (source : Nat) :
    SameProofs t (t.attach node dst rel at_ source) := by
  unfold attach
  split
  · exact addEdge_sameProofs t _ _ _ _ _ _
  · dsimp only
    split <;> exact ⟨rfl, rfl⟩

theorem retireGrain_sameNodes (pre : String) (rel : Rel) (at_ : Int) :
    SameNodes t (t.retireGrain pre rel at_) := ⟨rfl, rfl, rfl, rfl, rfl⟩

theorem supersedeFileEdges_sameNodes (file : String) (at_ : Int) :
    SameNodes t (t.supersedeFileEdges file at_) := ⟨rfl, rfl, rfl, rfl, rfl⟩

theorem supersedeFileEdges_sameProofs (file : String) (at_ : Int) :
    SameProofs t (t.supersedeFileEdges file at_) := ⟨rfl, rfl⟩

/-! ## Aliases -/

theorem settleNode_aliases (id : String) (retracted : Attrs) (at_ : Int) :
    (t.settleNode id retracted at_).aliases = t.aliases := by
  unfold settleNode undoWhatResolvedAgainst settleRow
  dsimp only
  split
  · split
    · split <;> rfl
    · split <;> rfl
  · split <;> rfl

theorem recordAssertion_aliases (id : String) (kind : NodeKind) (attrs : Attrs) :
    (t.recordAssertion by_ id kind attrs).aliases = t.aliases := by
  unfold recordAssertion
  split
  · split
    · rfl
    · exact settleNode_aliases _ _ _ _
  · rfl

@[simp] theorem ensureNode_aliases (id : String) (kind : NodeKind)
    (attrs : List (String × String)) : (t.ensureNode by_ id kind attrs).aliases = t.aliases :=
  recordAssertion_aliases _ _ _ _ _

/-! ## Staged references -/

theorem stageReference_sameNodes (position : Nat) (r : EdgeInferred) :
    SameNodes t (t.stageReference by_ position r) := by
  unfold stageReference
  split
  · exact .refl t
  · dsimp only
    split <;> exact ⟨rfl, rfl, rfl, rfl, rfl⟩

theorem stageReference_sameProofs (position : Nat) (r : EdgeInferred) :
    SameProofs t (t.stageReference by_ position r) := by
  unfold stageReference
  split
  · exact .refl t
  · dsimp only
    split <;> exact ⟨rfl, rfl⟩

theorem releaseReference_sameNodes (src target : String) :
    SameNodes t (t.releaseReference by_ src target) := by
  unfold releaseReference
  split
  · exact .refl t
  · refine SameNodes.trans ?_ (settleEdges_sameNodes _ _ _)
    exact ⟨rfl, rfl, rfl, rfl, rfl⟩

theorem releaseReference_sameProofs (src target : String) :
    SameProofs t (t.releaseReference by_ src target) := by
  unfold releaseReference
  split
  · exact .refl t
  · refine SameProofs.trans ?_ (settleEdges_sameProofs _ _ _)
    exact ⟨rfl, rfl⟩

/-- What settling a row answers, by the row's kind. -/
def settling (rel : Rel) (row : StagedRow) : Settled :=
  if row.refKind = refKindModule then t.settledModule row else t.settledTarget rel row

/-- What the row held before, released. -/
def releaseHeld (t : Tables) (by_ : Asserter) (row : StagedRow) : Tables :=
  match row.target with
  | some old => t.releaseReference ⟨row.identity, row.generation, by_.at_⟩ row.from_ old
  | none => t

/-- What a row's retargeting, the release of what it held and the link it asserts keep, settling it
keeps. -/
theorem settleReference_keeps {I : Tables → Prop} {row : StagedRow}
    (hretarget : ∀ {u target}, I u → I (u.retargetRow row target))
    (hrelease : ∀ {u target}, I u →
      I (u.releaseReference ⟨row.identity, row.generation, by_.at_⟩ row.from_ target))
    (hlink : ∀ {u target rel}, stagedRel row.refKind = some rel →
      (t.settling rel row).target = some target → I u →
      I (u.assertLink ⟨row.identity, row.generation, by_.at_⟩ row.from_ target rel by_.at_
        row.position (t.settling rel row).tier)) (h : I t) : I (t.settleReference by_ row) := by
  have hreleased : ∀ {u : Tables}, I u → I (u.releaseHeld by_ row) := by
    intro u hu
    unfold releaseHeld
    cases row.target with
    | none => exact hu
    | some old => exact hrelease hu
  unfold settleReference
  cases hrel : stagedRel row.refKind with
  | none => exact h
  | some rel =>
    dsimp only
    rw [← settling]
    split
    · exact hreleased h
    · split
      case h_1 target htarget =>
        split
        · exact hreleased (hretarget h)
        · exact hlink hrel htarget (hreleased (hretarget h))
      case h_2 => exact hreleased (hretarget h)

theorem settleReference_sameNodes (row : StagedRow) :
    SameNodes t (t.settleReference by_ row) :=
  settleReference_keeps t by_ (I := SameNodes t) (fun h => h.trans ⟨rfl, rfl, rfl, rfl, rfl⟩)
    (fun h => h.trans (releaseReference_sameNodes _ _ _ _))
    (fun _ _ h => h.trans (assertLink_sameNodes _ _ _ _ _ _ _ _)) (.refl t)

theorem settleReference_sameProofs (row : StagedRow) :
    SameProofs t (t.settleReference by_ row) :=
  settleReference_keeps t by_ (I := SameProofs t) (fun h => h.trans ⟨rfl, rfl⟩)
    (fun h => h.trans (releaseReference_sameProofs _ _ _ _))
    (fun _ _ h => h.trans (assertLink_sameProofs _ _ _ _ _ _ _ _)) (.refl t)

theorem settleReferences_sameNodes : SameNodes t (t.settleReferences by_) :=
  (SameNodes.foldl (fun t row => settleReference_sameNodes t by_ row) t _).trans
    ⟨rfl, rfl, rfl, rfl, rfl⟩

theorem settleReferences_sameProofs : SameProofs t (t.settleReferences by_) :=
  (SameProofs.foldl (fun t row => settleReference_sameProofs t by_ row) t _).trans ⟨rfl, rfl⟩

/-! ## Proofs -/

theorem writeProofs_generations (ids : List String) :
    (t.writeProofs ids).generations = t.generations := by
  unfold writeProofs
  induction ids generalizing t with
  | nil => rfl
  | cons id ids ih => exact ih (t.writeProof id)

theorem foldTestEvidence_generations (r : EdgeInferred) (position : Nat) :
    (t.foldTestEvidence r position).generations = t.generations := by
  have hopened : (if r.fresh then t.supersedeFileProof (t.resolve r.file) else t).generations =
      t.generations := by
    split
    · exact writeProofs_generations _ _
    · rfl
  unfold foldTestEvidence
  dsimp only
  split
  · exact hopened
  · exact hopened

end Tables

end Rigger.Graph
