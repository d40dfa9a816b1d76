import Mathlib.Data.List.Sort
import Rigger.Graph.Tiers

/-!
# One hop of the call walks (`sqlite.rs`, `resolve_down_hop` and `callers_of`)

DOWN resolves the target of a call forward, by the leaf a placeholder's id names; UP finds the
callers of a definition backward, by the text of the calls' targets.  The two read one call's target
differently where its text spells a name its leaf is not (`Misread`) or its node is not held
(`Unheld`), and are each other's reverse nowhere else (`mirrors_iff`).
-/

namespace Rigger.Graph

open Lib

def tierRank : Tier → Nat
  | .extracted => 2
  | .inferred => 1
  | .ambiguous => 0

/-- `tier_rank` of a requested floor: one no tier spells is the resolvable floor. -/
def floorRank (tierFloor : String) : Nat :=
  match tierFloor with
  | "extracted" => 2
  | "inferred" => 1
  | "ambiguous" => 0
  | _ => 1

structure CallHop where
  neighbor : String
  tier : Tier
  validFrom : Int
  source : Nat
  frontier : Option (List String)
deriving DecidableEq

/-- The hop an edge is, onto one of its ends. -/
def Edge.hop (e : Edge) (neighbor : String) (frontier : Option (List String)) : CallHop where
  neighbor := neighbor
  tier := e.tier
  validFrom := e.validFrom
  source := e.source
  frontier := frontier

/-- `node_leaf`: a node's name, else the leaf its id alone names. -/
def leafOfNode (id : String) (n : Node) : Option String := (nodeLeaf n.attrs).or (leafOf id)

namespace Tables

variable (t : Tables)

/-- Whether a named node is a call target; none where the id has no named node. -/
def namedCallTarget (id : String) : Option Bool :=
  t.nodes[id]?.bind fun n => (nodeLeaf n.attrs).map fun _ => callTarget n.attrs

/-! ## DOWN -/

def callsOut (from_ : String) : List Edge :=
  (t.edges.filter fun e => e.from_ == from_ && e.rel == .calls && e.isLive).insertionSort
    fun a b => a.to_ ≤ b.to_

/-- Where a call's hop lands, with the candidates that make it a frontier. -/
def resolveDownHop (rawTo : String) : String × Option (List String) :=
  if t.namedCallTarget rawTo = some true then (rawTo, none)
  else
    match (leafOf rawTo).elim [] t.callTargets with
    | [one] => (one, none)
    | [] => (rawTo, none)
    | cands => (rawTo, some cands)

/-- The hops of `calls_down` from a node it expands. -/
def downHops (tierFloor cur : String) : List CallHop :=
  ((t.callsOut cur).filter fun e => floorRank tierFloor ≤ tierRank e.tier).map fun e =>
    e.hop (t.resolveDownHop e.to_).1 (t.resolveDownHop e.to_).2

/-! ## UP -/

def callersDirect (to_ : String) : List Edge :=
  (t.edges.filter fun e => e.to_ == to_ && e.rel == .calls && e.isLive).insertionSort
    fun a b => a.from_ ≤ b.from_

/-- The id has a node no call lands on: one without a name, or a data member or declaration. -/
def isBare (id : String) : Bool :=
  t.nodes[id]?.any fun n => (nodeLeaf n.attrs).isNone || !callTarget n.attrs

def callersViaBare (leaf : String) : List Edge :=
  (t.edges.filter fun e =>
    e.rel == .calls && e.isLive && edgeBindsLeaf e.to_ leaf && t.isBare e.to_).insertionSort
    fun a b => a.from_ ≤ b.from_

/-- The callers of a node, each a frontier where its leaf has several definitions. -/
def callersOf (cur : String) : List CallHop :=
  match t.namedCallTarget cur with
  | some false => []
  | target =>
    let direct := (t.callersDirect cur).map fun e => e.hop e.from_ none
    let node := if target.isSome then t.nodes[cur]? else none
    match node.bind (leafOfNode cur) with
    | some leaf =>
      let cands := t.callTargets leaf
      let frontier := if cands.length > 1 then some cands else none
      direct ++ (t.callersViaBare leaf).map fun e => e.hop e.from_ frontier
    | none => direct

/-- The hops of `calls_up` from a node it expands. -/
def upHops (tierFloor cur : String) : List CallHop :=
  (t.callersOf cur).filter fun h => floorRank tierFloor ≤ tierRank h.tier

/-! ## The reverse -/

/-- The walks are each other's reverse at a caller: they lead to the same definitions, and stop at
the same names of several definitions. -/
structure Mirrors (tierFloor caller : String) : Prop where
  lands : ∀ name, ∀ d ∈ t.callTargets name,
    (∃ h ∈ t.downHops tierFloor caller, h.neighbor = d ∧ h.frontier = none) ↔
      ∃ h ∈ t.upHops tierFloor d, h.neighbor = caller ∧ h.frontier = none
  stops : ∀ name, 1 < (t.callTargets name).length →
    ((∃ h ∈ t.downHops tierFloor caller, h.frontier = some (t.callTargets name)) ↔
      ∀ d ∈ t.callTargets name, ∃ h ∈ t.upHops tierFloor d,
        h.neighbor = caller ∧ h.frontier = some (t.callTargets name))

/-- A live call out of `caller` at the floor or above. -/
structure Calls (tierFloor caller : String) (e : Edge) : Prop where
  mem : e ∈ t.edges
  live : e.isLive = true
  rel : e.rel = .calls
  from_ : e.from_ = caller
  floor : floorRank tierFloor ≤ tierRank e.tier

/-- The caller calls a definition of the name by its id. -/
def Direct (tierFloor caller d : String) : Prop := ∃ e, t.Calls tierFloor caller e ∧ e.to_ = d

/-- The caller calls the name's placeholder. -/
def Named (tierFloor caller name : String) : Prop :=
  ∃ e, t.Calls tierFloor caller e ∧ t.namedCallTarget e.to_ ≠ some true ∧ leafOf e.to_ = some name

/-- The caller calls a held bare node whose text spells the name. -/
def Spelled (tierFloor caller name : String) : Prop :=
  ∃ e, t.Calls tierFloor caller e ∧ t.isBare e.to_ = true ∧ edgeBindsLeaf e.to_ name = true

/-- The text of a bare target spells the name, and no placeholder the caller calls is the name's. -/
def Misread (tierFloor caller name : String) : Prop :=
  t.Spelled tierFloor caller name ∧ ¬t.Named tierFloor caller name

/-- The caller calls a placeholder of the name, and no node of one is held. -/
def Unheld (tierFloor caller name : String) : Prop :=
  t.Named tierFloor caller name ∧ ¬t.Spelled tierFloor caller name

variable {t}

/-! ## What the hops are -/

variable {tierFloor name d caller rawTo : String} {h : CallHop}

theorem mem_downHops {cur : String} :
    h ∈ t.downHops tierFloor cur ↔ ∃ e, t.Calls tierFloor cur e ∧
      e.hop (t.resolveDownHop e.to_).1 (t.resolveDownHop e.to_).2 = h := by
  simp only [downHops, callsOut, List.mem_map, List.mem_filter, List.mem_insertionSort,
    Bool.and_eq_true, beq_iff_eq, decide_eq_true_eq]
  refine exists_congr fun e => and_congr_left fun _ => ?_
  constructor
  · rintro ⟨⟨he, ⟨hfrom, hrel⟩, hlive⟩, hfloor⟩
    exact ⟨he, hlive, hrel, hfrom, hfloor⟩
  · intro he
    exact ⟨⟨he.mem, ⟨he.from_, he.rel⟩, he.live⟩, he.floor⟩

theorem namedCallTarget_of_definitionName (h : t.definitionName d = some name) :
    t.namedCallTarget d = some true ∧ ∃ n, t.nodes[d]? = some n ∧ nodeLeaf n.attrs = some name := by
  rw [definitionName_eq] at h
  obtain ⟨n, hn, hname⟩ := Option.bind_eq_some_iff.1 h
  unfold nameOf at hname
  split at hname
  case isTrue hcall =>
    refine ⟨?_, n, hn, hname⟩
    rw [namedCallTarget, hn, Option.bind_some, hname, Option.map_some, hcall.2]
  case isFalse => cases hname

/-- What a call by the spelling of `name` is marked with. -/
def frontierOf (t : Tables) (name : String) : Option (List String) :=
  if (t.callTargets name).length > 1 then some (t.callTargets name) else none

theorem callersOf_definition (h : t.definitionName d = some name) :
    t.callersOf d = ((t.callersDirect d).map fun e => e.hop e.from_ none) ++
      (t.callersViaBare name).map fun e => e.hop e.from_ (t.frontierOf name) := by
  obtain ⟨htarget, n, hn, hleaf⟩ := namedCallTarget_of_definitionName h
  have hnode : leafOfNode d n = some name := by rw [leafOfNode, hleaf, Option.some_or]
  simp [callersOf, frontierOf, htarget, hn, hnode]

theorem mem_upHops (hd : t.definitionName d = some name) :
    h ∈ t.upHops tierFloor d ↔ ∃ e, t.Calls tierFloor e.from_ e ∧
      (e.to_ = d ∧ e.hop e.from_ none = h ∨
        (t.isBare e.to_ = true ∧ edgeBindsLeaf e.to_ name = true) ∧
          e.hop e.from_ (t.frontierOf name) = h) := by
  simp only [upHops, callersOf_definition hd, callersDirect, callersViaBare, List.mem_filter,
    List.mem_append, List.mem_map, List.mem_insertionSort, Bool.and_eq_true, beq_iff_eq,
    decide_eq_true_eq]
  constructor
  · rintro ⟨⟨e, ⟨he, ⟨hto, hrel⟩, hlive⟩, rfl⟩ | ⟨e, ⟨he, ⟨⟨hrel, hlive⟩, hbinds⟩, hbare⟩, rfl⟩,
      hfloor⟩
    · exact ⟨e, ⟨he, hlive, hrel, rfl, hfloor⟩, .inl ⟨hto, rfl⟩⟩
    · exact ⟨e, ⟨he, hlive, hrel, rfl, hfloor⟩, .inr ⟨⟨hbare, hbinds⟩, rfl⟩⟩
  · rintro ⟨e, he, ⟨hto, rfl⟩ | ⟨⟨hbare, hbinds⟩, rfl⟩⟩
    · exact ⟨.inl ⟨e, ⟨he.mem, ⟨hto, he.rel⟩, he.live⟩, rfl⟩, he.floor⟩
    · exact ⟨.inr ⟨e, ⟨he.mem, ⟨⟨he.rel, he.live⟩, hbinds⟩, hbare⟩, rfl⟩, he.floor⟩

theorem exists_upHop (hd : t.definitionName d = some name) {frontier : Option (List String)} :
    (∃ h ∈ t.upHops tierFloor d, h.neighbor = caller ∧ h.frontier = frontier) ↔
      (t.Direct tierFloor caller d ∧ frontier = none) ∨
        (t.Spelled tierFloor caller name ∧ frontier = t.frontierOf name) := by
  simp only [mem_upHops hd]
  constructor
  · rintro ⟨h, ⟨e, he, ⟨hto, rfl⟩ | ⟨hspelled, rfl⟩⟩, rfl, rfl⟩
    · exact .inl ⟨⟨e, he, hto⟩, rfl⟩
    · exact .inr ⟨⟨e, he, hspelled⟩, rfl⟩
  · rintro (⟨⟨e, he, hto⟩, rfl⟩ | ⟨⟨e, he, hspelled⟩, rfl⟩)
    · obtain rfl := he.from_
      exact ⟨_, ⟨e, he, .inl ⟨hto, rfl⟩⟩, rfl, rfl⟩
    · obtain rfl := he.from_
      exact ⟨_, ⟨e, he, .inr ⟨hspelled, rfl⟩⟩, rfl, rfl⟩

/-! ## Where a call's hop lands -/

theorem resolveDownHop_target (h : t.namedCallTarget rawTo = some true) :
    t.resolveDownHop rawTo = (rawTo, none) := by rw [resolveDownHop, if_pos h]

/-- A name some node defines: its candidates are read off its placeholder alone. -/
theorem callTargets_inj {name' : String} (hd : d ∈ t.callTargets name)
    (hd' : d ∈ t.callTargets name') : name = name' := by
  have h := (t.mem_callTargets.1 hd).2
  rw [(t.mem_callTargets.1 hd').2] at h
  exact (Option.some.inj h).symm

/-- The hop that lands on a definition: the target is its id, or the placeholder of the one
definition its name has. -/
theorem resolveDownHop_eq_definition (hd : d ∈ t.callTargets name) :
    t.resolveDownHop rawTo = (d, none) ↔
      rawTo = d ∨ (t.namedCallTarget rawTo ≠ some true ∧ leafOf rawTo = some name ∧
        t.callTargets name = [d]) := by
  obtain ⟨htarget, -⟩ := namedCallTarget_of_definitionName (t.mem_callTargets.1 hd).2
  by_cases hraw : t.namedCallTarget rawTo = some true
  · rw [resolveDownHop_target hraw]
    constructor
    · intro h
      exact .inl (congrArg Prod.fst h)
    · rintro (rfl | ⟨hne, -⟩)
      · rfl
      · exact absurd hraw hne
  · have hrawd : rawTo ≠ d := by
      rintro rfl
      exact hraw htarget
    rw [resolveDownHop, if_neg hraw]
    constructor
    · intro h
      cases hleaf : leafOf rawTo with
      | none =>
        simp only [hleaf, Option.elim_none, Prod.mk.injEq] at h
        exact absurd h.1 hrawd
      | some leaf =>
        rw [hleaf, Option.elim_some] at h
        split at h
        case h_1 one hone =>
          obtain rfl : one = d := congrArg Prod.fst h
          obtain rfl := callTargets_inj (by rw [hone]; exact List.mem_singleton_self _) hd
          exact .inr ⟨hraw, rfl, hone⟩
        case h_2 => exact absurd (congrArg Prod.fst h) hrawd
        case h_3 => cases congrArg Prod.snd h
    · rintro (rfl | ⟨-, hleaf, hone⟩)
      · exact absurd rfl hrawd
      · rw [hleaf, Option.elim_some, hone]

theorem resolveDownHop_frontier (hname : 1 < (t.callTargets name).length) :
    (t.resolveDownHop rawTo).2 = some (t.callTargets name) ↔
      t.namedCallTarget rawTo ≠ some true ∧ leafOf rawTo = some name := by
  by_cases hraw : t.namedCallTarget rawTo = some true
  · rw [resolveDownHop_target hraw]
    simp [hraw]
  · rw [resolveDownHop, if_neg hraw]
    constructor
    · intro h
      refine ⟨hraw, ?_⟩
      cases hleaf : leafOf rawTo with
      | none => simp [hleaf] at h
      | some leaf =>
        rw [hleaf, Option.elim_some] at h
        split at h
        case h_1 => cases h
        case h_2 => cases h
        case h_3 =>
          obtain ⟨d, hd⟩ := List.exists_mem_of_length_pos (Nat.zero_lt_of_lt hname)
          have hd' := hd
          rw [← Option.some.inj h] at hd'
          rw [callTargets_inj hd' hd]
    · rintro ⟨-, hleaf⟩
      rw [hleaf, Option.elim_some]
      split
      case h_1 one hone => simp [hone] at hname
      case h_2 hnone => simp [hnone] at hname
      case h_3 => rfl

theorem exists_downHop_landing (hd : d ∈ t.callTargets name) :
    (∃ h ∈ t.downHops tierFloor caller, h.neighbor = d ∧ h.frontier = none) ↔
      t.Direct tierFloor caller d ∨
        (t.Named tierFloor caller name ∧ t.callTargets name = [d]) := by
  have hlands : (∃ h ∈ t.downHops tierFloor caller, h.neighbor = d ∧ h.frontier = none) ↔
      ∃ e, t.Calls tierFloor caller e ∧ t.resolveDownHop e.to_ = (d, none) := by
    simp only [mem_downHops]
    constructor
    · rintro ⟨h, ⟨e, he, rfl⟩, hto, hfrontier⟩
      exact ⟨e, he, Prod.ext hto hfrontier⟩
    · rintro ⟨e, he, hto⟩
      exact ⟨_, ⟨e, he, rfl⟩, congrArg Prod.fst hto, congrArg Prod.snd hto⟩
  rw [hlands]
  simp only [resolveDownHop_eq_definition hd]
  constructor
  · rintro ⟨e, he, hto | ⟨hraw, hleaf, hone⟩⟩
    · exact .inl ⟨e, he, hto⟩
    · exact .inr ⟨⟨e, he, hraw, hleaf⟩, hone⟩
  · rintro (⟨e, he, hto⟩ | ⟨⟨e, he, hraw, hleaf⟩, hone⟩)
    · exact ⟨e, he, .inl hto⟩
    · exact ⟨e, he, .inr ⟨hraw, hleaf, hone⟩⟩

theorem exists_downHop_frontier (hname : 1 < (t.callTargets name).length) :
    (∃ h ∈ t.downHops tierFloor caller, h.frontier = some (t.callTargets name)) ↔
      t.Named tierFloor caller name := by
  simp only [mem_downHops]
  constructor
  · rintro ⟨h, ⟨e, he, rfl⟩, hfrontier⟩
    exact ⟨e, he, (resolveDownHop_frontier hname).1 hfrontier⟩
  · rintro ⟨e, he, hnamed⟩
    exact ⟨_, ⟨e, he, rfl⟩, (resolveDownHop_frontier hname).2 hnamed⟩

/-! ## The reverse -/

theorem not_misread_unheld_iff :
    (¬t.Misread tierFloor caller name ∧ ¬t.Unheld tierFloor caller name) ↔
      (t.Named tierFloor caller name ↔ t.Spelled tierFloor caller name) := by
  unfold Misread Unheld
  tauto

theorem frontierOf_eq_none_iff (hd : d ∈ t.callTargets name) :
    none = t.frontierOf name ↔ t.callTargets name = [d] := by
  unfold frontierOf
  constructor
  · intro h
    split at h
    case isTrue => cases h
    case isFalse hlen =>
      obtain ⟨one, hone⟩ := List.length_eq_one_iff.1
        (show (t.callTargets name).length = 1 from
          Nat.le_antisymm (Nat.not_lt.1 hlen) (List.length_pos_of_mem hd))
      rw [hone] at hd ⊢
      rw [List.mem_singleton.1 hd]
  · intro h
    simp [h]

/-- At a definition: the two walks lead to it from the same callers exactly where its one name is
called by its id, or spelled where it is named. -/
theorem lands_iff (hd : d ∈ t.callTargets name) :
    ((∃ h ∈ t.downHops tierFloor caller, h.neighbor = d ∧ h.frontier = none) ↔
      ∃ h ∈ t.upHops tierFloor d, h.neighbor = caller ∧ h.frontier = none) ↔
      (t.callTargets name = [d] → t.Direct tierFloor caller d ∨
        (t.Named tierFloor caller name ↔ t.Spelled tierFloor caller name)) := by
  rw [exists_downHop_landing hd, exists_upHop (t.mem_callTargets.1 hd).2,
    frontierOf_eq_none_iff hd]
  tauto

/-- At a name of several definitions: the two walks stop at it from the same callers exactly where
it is spelled where it is named. -/
theorem stops_iff (hname : 1 < (t.callTargets name).length) :
    ((∃ h ∈ t.downHops tierFloor caller, h.frontier = some (t.callTargets name)) ↔
      ∀ d ∈ t.callTargets name, ∃ h ∈ t.upHops tierFloor d,
        h.neighbor = caller ∧ h.frontier = some (t.callTargets name)) ↔
      (t.Named tierFloor caller name ↔ t.Spelled tierFloor caller name) := by
  have hfrontier : t.frontierOf name = some (t.callTargets name) := if_pos hname
  have hspelled : (∀ d ∈ t.callTargets name, ∃ h ∈ t.upHops tierFloor d,
      h.neighbor = caller ∧ h.frontier = some (t.callTargets name)) ↔
      t.Spelled tierFloor caller name := by
    obtain ⟨d, hd⟩ := List.exists_mem_of_length_pos (Nat.zero_lt_of_lt hname)
    constructor
    · intro h
      rcases (exists_upHop (t.mem_callTargets.1 hd).2).1 (h d hd) with ⟨-, hnone⟩ | ⟨hspelled, -⟩
      · cases hnone
      · exact hspelled
    · intro hspelled d' hd'
      exact (exists_upHop (t.mem_callTargets.1 hd').2).2 (.inr ⟨hspelled, hfrontier.symm⟩)
  rw [exists_downHop_frontier hname, hspelled]

/-- The walks mirror each other exactly where no call is misread and no placeholder unheld, a name
whose one definition is called by its id aside. -/
theorem mirrors_iff (t : Tables) (tierFloor caller : String) :
    t.Mirrors tierFloor caller ↔ ∀ name, t.callTargets name ≠ [] →
      (∃ d, t.callTargets name = [d] ∧ t.Direct tierFloor caller d) ∨
        (¬t.Misread tierFloor caller name ∧ ¬t.Unheld tierFloor caller name) := by
  simp only [not_misread_unheld_iff]
  constructor
  · intro h name hne
    obtain ⟨d, hd⟩ := List.exists_mem_of_ne_nil _ hne
    by_cases hlen : 1 < (t.callTargets name).length
    · exact .inr ((stops_iff hlen).1 (h.stops name hlen))
    · have hone : t.callTargets name = [d] :=
        (frontierOf_eq_none_iff hd).1 (if_neg hlen).symm
      rcases (lands_iff hd).1 (h.lands name d hd) hone with hdirect | hspelled
      · exact .inl ⟨d, hone, hdirect⟩
      · exact .inr hspelled
  · intro h
    constructor
    · intro name d hd
      refine (lands_iff hd).2 fun hone => ?_
      rcases h name (List.ne_nil_of_mem hd) with ⟨d', hone', hdirect⟩ | hspelled
      · obtain rfl : d' = d := by
          rw [hone] at hone'
          exact (List.cons.inj hone').1.symm
        exact .inl hdirect
      · exact .inr hspelled
    · intro name hlen
      refine (stops_iff hlen).2 ?_
      rcases h name (List.ne_nil_of_length_pos (Nat.zero_lt_of_lt hlen)) with ⟨d,
        hone, -⟩ | hspelled
      · rw [hone] at hlen
        exact absurd hlen (Nat.lt_irrefl 1)
      · exact hspelled

end Tables

/-! A call of the operator `%` lands on the placeholder `%%` of its file, which UP reads as a call
of the operator `%%` another file defines and DOWN resolves to nothing. -/

def callFrom (position : Nat) (file caller name : String) : Event :=
  indexEvent position typeEdgeInferred none
    [("file", .str file), ("name", .str name), ("caller", .str caller), ("line", .num 4)]

def operatorCalled : List (List FoldCall) :=
  [[.events [callFrom 1 "b.hs" "go" "%"]], [.events [operatorEvent 2 "a.hs" "%%"]]]

/-- The operator's definition has a caller that calls nothing but an unresolved placeholder. -/
theorem mirrors_not_held : ¬∀ (reading : Reading) (transactions : List (List FoldCall))
    (tierFloor caller : String),
    (run (transact reading) .empty transactions).tables.Mirrors tierFloor caller := by
  intro h
  have hrun : "a.hs::%%" ∈
        (run (transact plainReading) .empty operatorCalled).tables.callTargets "%%" ∧
      (run (transact plainReading) .empty operatorCalled).tables.upHops "" "a.hs::%%" =
        [⟨"b.hs::go", .inferred, 1, 1, none⟩] ∧
      (run (transact plainReading) .empty operatorCalled).tables.downHops "" "b.hs::go" =
        [⟨"b.hs::%%", .inferred, 1, 1, none⟩] := by
    decide +kernel
  obtain ⟨hdef, hup, hdown⟩ := hrun
  have hlands := (h plainReading operatorCalled "" "b.hs::go").lands "%%" "a.hs::%%" hdef
  rw [hup, hdown] at hlands
  obtain ⟨hop, hhop, hneighbor, -⟩ := hlands.2 ⟨_, List.mem_singleton_self _, rfl, rfl⟩
  rw [List.mem_singleton.1 hhop] at hneighbor
  exact absurd hneighbor (by decide)

end Rigger.Graph
