import Rigger.Conductor.Harvest
import Rigger.Conductor.Keyed
import Rigger.Lib.Run

/-!
# What harvests record (`rigger-conductor/src/conductor.rs`, `harvest_proposed`)

A harvest records a signal for each proposal it refuses or takes up unmatched, and the two events of
each unit it lands.  Only a refused retarget and a landing carry a replay key; the set of keys is
seeded from the log by the process, whose stage graph starts over.
-/

namespace Rigger.Conductor.Recorded

open Lib Proposed

def typeScopeCreep : String := "ScopeCreep"

/-! ## Records -/

def retargetKey (unit : String) (position : Nat) : String :=
  unit ++ "/refine-retarget#" ++ toString position

/-- The type and payload of a signal's record. -/
def body : Signal → String × Json
  | .refineRetarget unit _ => (typeScopeCreep, .obj [("unit", .str unit),
      ("reason",
      .str ("same-id refine resolves to a criterion its unit does not serve; the unit " ++
        "keeps its text and criterion"))])
  | .noCriterion unit => (typeScopeCreep, .obj [("unit", .str unit),
      ("reason", .str "proposed unit has no spec_criterion")])
  | .unmatched unit => (typeDecisionMade, .obj [("id", .str ("unmatched-proposal:" ++ unit)),
      ("summary", .str ("unmatched-proposal: proposed unit " ++ unit ++
        " maps to no baseline criterion id; running it as a genuinely-new sub-unit")),
      ("governs", .arr [])])

def key : Signal → Option String
  | .refineRetarget unit position => some (retargetKey unit position)
  | _ => none

/-- Whether an event is a signal's record. -/
def records (s : Signal) (e : Event) : Bool :=
  e.type_ == (body s).1 && e.data == .json (body s).2 && e.meta_[metaReplayKey]? == key s

/-- What a harvest appends for a proposal. -/
inductive Item where
  | signal (s : Signal)
  | landing (st : Stage)

def Item.signalled : Item → Option Signal
  | .signal s => some s
  | .landing _ => none

/-- What every process of a run starts over: the planning, the run's id, the ids and times of its
events, and the payloads of a landing. -/
structure Recorder where
  planning : Planning
  runId : String
  mint : Nat → Mint
  started : Stage → Json
  landedFrom : Stage → Json

/-- A log and the replay keys of the process that appends to it. -/
structure Trail where
  log : List Event
  keys : List String

def nextPosition (log : List Event) : Nat := (log.map Event.position).foldr max 0 + 1

namespace Recorder
variable (r : Recorder)

def event (log : List Event) (type_ : String) (payload : Json) (key : Option String) : Event :=
  let ev := eventWithMeta (r.mint (nextPosition log)) type_ payload []
  { Keyed.stamped r.runId
  (key.elim ev (ev.withMeta metaReplayKey)) with position := nextPosition log }

/-- `emit_keyed`. -/
def emitKeyed (t : Trail) (key type_ : String) (payload : Json) : Trail :=
  if t.keys.contains key then t
  else ⟨t.log ++ [r.event t.log type_ payload (some key)], key :: t.keys⟩

def record (t : Trail) : Item → Trail
  | .signal s =>
    match key s with
    | some k => r.emitKeyed t k (body s).1 (body s).2
    | none => { t with log := t.log ++ [r.event t.log (body s).1 (body s).2 none] }
  | .landing st =>
    r.emitKeyed (r.emitKeyed t (st.name ++ "/started") Ledger.typeUnitStarted (r.started st))
      (st.name ++ "/landed") Ledger.typeUnitIntegrated (r.landedFrom st)

end Recorder

/-! ## One harvest -/

section
variable (h : Harvest)

/-- Whether a proposal becomes a stage. -/
def adds (d : Dag) (u : UnitProposed) : Bool :=
  !u.id.isEmpty && (d.stages[u.id]?).isNone && decide (u.id ∉ d.proposed) &&
    !(!h.criteria.isEmpty && Harvest.blank u)

def lands (d : Dag) (u : UnitProposed) : Bool :=
  adds h d u && decide (u.id ∉ d.terminal) && h.landed (h.stageOf u)

def itemsOf (d : Dag) (u : UnitProposed) : List Item :=
  (h.signal d u).toList.map .signal ++ if lands h d u then [.landing (h.stageOf u)] else []

/-- What a walk appends. -/
def items : Walk → List UnitProposed → List Item
  | _, [] => []
  | w, u :: us => itemsOf h w.dag u ++ items (w.step h u) us

end

/-! ## Processes -/

/-- A process between harvests: the proposals its last one walked are all it has harvested. -/
structure Process where
  dag : Dag
  keys : List String
  walked : List UnitProposed

/-- An event that records no signal, and keys that are no signal's. -/
structure Foreign (e : Event) (claimed : List String) : Prop where
  records : ∀ s, records s e = false
  key : ∀ k ∈ e.meta_[metaReplayKey]?, ∀ unit position, k ≠ retargetKey unit position
  claimed : ∀ k ∈ claimed, ∀ unit position, k ≠ retargetKey unit position

/-- `other` is what anyone else appends, with the keys the process claims meanwhile.  A harvest that
stops ends its process after some of its emits. -/
inductive Act where
  | other (e : Event) (gap : Nat) (claimed : List String) (h : Foreign e claimed)
  | start (integrated terminal : Finset String) (stops : Option Nat)
  | harvest (integrated terminal : Finset String) (stops : Option Nat)

/-- `raised` is every signal an emit of a harvest was made for. -/
structure World where
  log : List Event
  process : Option Process
  raised : List Signal

def World.new : World := ⟨[], none, []⟩

namespace Recorder
variable (r : Recorder)

def walkItems (us : List UnitProposed) (d : Dag) : List Item :=
  items (r.planning.harvest us d) (Walk.start d) us

def harvestOver (w : World) (p : Process) (stops : Option Nat) : World :=
  let us := proposals w.log
  let made := stops.elim (r.walkItems us p.dag) fun n => (r.walkItems us p.dag).take n
  let trail := made.foldl r.record ⟨w.log, p.keys⟩
  { log := trail.log
    process := if stops.isNone then some ⟨(r.planning.walk us p.dag).dag, trail.keys, us⟩ else none
    raised := w.raised ++ made.filterMap Item.signalled }

def fresh (w : World) (integrated terminal : Finset String) : Process :=
  ⟨r.planning.fresh integrated terminal, seededKeys w.log, []⟩

def later (p : Process) (integrated terminal : Finset String) : Process :=
  { p with dag := { p.dag with integrated := integrated, terminal := terminal } }

def step (w : World) : Act → World
  | .other e gap claimed _ =>
    { w with
      log := w.log ++ [{ e with position := nextPosition w.log + gap }]
      process := w.process.map fun p => { p with keys := claimed ++ p.keys } }
  | .start integrated terminal stops => r.harvestOver w (r.fresh w integrated terminal) stops
  | .harvest integrated terminal stops =>
    match w.process with
    | some p => r.harvestOver w (later p integrated terminal) stops
    | none => w

end Recorder

/-! ## What a record leaves -/

theorem reverse_retargetKey (unit : String) (position : Nat) :
    (retargetKey unit position).toList.reverse =
    (toString position).toList.reverse ++ '#' :: (unit ++ "/refine-retarget").toList.reverse := by
  simp [retargetKey]

variable {position : Nat} {unit : String}

theorem retargetKey_inj {unit' : String} {position' : Nat}
    (h : retargetKey unit position = retargetKey unit' position') :
    unit = unit' ∧ position = position' := by
  have hdigits : ∀ n : Nat, '#' ∉ (toString n).toList.reverse := fun n hn =>
    not_mem_digits (by decide) n (List.mem_reverse.1 hn)
  have hrev : (retargetKey unit position).toList.reverse =
      (retargetKey unit' position').toList.reverse := by
    rw [h]
  rw [reverse_retargetKey, reverse_retargetKey] at hrev
  obtain ⟨hposition, hunit⟩ := append_cons_inj (hdigits _) (hdigits _) hrev
  refine ⟨?_, toString_nat_inj (String.toList_inj.1 (List.reverse_inj.1 hposition))⟩
  exact (String.append_left_inj _).1 (String.toList_inj.1 (List.reverse_inj.1 hunit))

theorem retargetKey_ne (name text : String) {c : Char} (hc : c.isDigit = false)
    (htext : text.toList.getLast? = some c) : name ++ text ≠ retargetKey unit position := by
  intro heq
  have hrev := congrArg (fun s : String => s.toList.reverse.head?) heq
  rw [reverse_retargetKey, String.toList_append, List.reverse_append] at hrev
  have hfirst : (text.toList.reverse ++ name.toList.reverse).head? = some c := by
    rw [List.head?_append, List.head?_reverse, htext]
    rfl
  obtain ⟨d, digits, hdigits⟩ := List.exists_cons_of_ne_nil
    (List.reverse_eq_nil_iff.not.2 (digits_ne_nil position))
  rw [hfirst, hdigits, List.cons_append, List.head?_cons] at hrev
  have hmem : d ∈ (toString position).toList := List.mem_reverse.1 (hdigits ▸ List.mem_cons_self)
  exact not_mem_digits hc position (Option.some.inj hrev ▸ hmem)

theorem eq_of_records {s s' : Signal} (htype : (body s).1 = (body s').1)
    (hbody : (body s).2 = (body s').2)
    (hkey : key s = key s') : s = s' := by
  have htypes : typeScopeCreep ≠ typeDecisionMade := by decide
  cases s with
  | refineRetarget unit position =>
    cases s' with
    | refineRetarget unit' position' =>
      obtain ⟨rfl, rfl⟩ := retargetKey_inj (Option.some.inj hkey)
      rfl
    | noCriterion unit' => cases hkey
    | unmatched unit' => cases hkey
  | noCriterion unit =>
    cases s' with
    | refineRetarget unit' position' => cases hkey
    | noCriterion unit' => simpa [body] using hbody
    | unmatched unit' => exact absurd htype htypes
  | unmatched unit =>
    cases s' with
    | refineRetarget unit' position' => cases hkey
    | noCriterion unit' => exact absurd htype.symm htypes
    | unmatched unit' =>
      simp only [body, Json.obj.injEq, List.cons.injEq, Prod.mk.injEq, Json.str.injEq,
        true_and] at hbody
      rw [(String.append_right_inj _).1 hbody.1]

section
variable {r : Recorder} {log : List Event} {type_ : String} {payload : Json} {k : Option String}

@[simp] theorem event_type : (r.event log type_ payload k).type_ = type_ := by
  unfold Recorder.event Keyed.stamped
  cases k <;> split <;> exact eventWithMeta_type _ _ _ _

@[simp] theorem event_data : (r.event log type_ payload k).data = .json payload := by
  unfold Recorder.event Keyed.stamped
  cases k <;> split <;> exact eventWithMeta_data _ _ _ _

@[simp] theorem event_key : (r.event log type_ payload k).meta_[metaReplayKey]? = k := by
  have hne : ¬compare Keyed.metaRunId metaReplayKey = .eq := by decide
  have hbare : (k.elim (eventWithMeta (r.mint (nextPosition log)) type_ payload [])
      ((eventWithMeta (r.mint (nextPosition log)) type_ payload []).withMeta
      metaReplayKey)).meta_[metaReplayKey]? =
        k := by
    cases k with
    | none => exact Std.ExtTreeMap.getElem?_empty
    | some key => exact Std.ExtTreeMap.getElem?_insert_self
  unfold Recorder.event Keyed.stamped
  split
  · exact hbare
  · show (Std.ExtTreeMap.insert _ _ _)[metaReplayKey]? = k
    rw [Std.ExtTreeMap.getElem?_insert, if_neg hne]
    exact hbare

theorem records_event (s : Signal) : records s (r.event log type_ payload k) = true ↔
    type_ = (body s).1 ∧ payload = (body s).2 ∧ k = key s := by
  simp [records, and_assoc]

/-- A signal's own event records it and no other. -/
theorem records_signal (s s' : Signal) :
    records s' (r.event log (body s).1 (body s).2 (key s)) = true ↔ s' = s := by
  rw [records_event]
  constructor
  · rintro ⟨htype, hbody, hkey⟩
    exact (eq_of_records htype hbody hkey).symm
  · rintro rfl
    exact ⟨rfl, rfl, rfl⟩

theorem seededKeys_event (htype : perceptionTypes.contains type_ = false) :
    seededKeys (log ++ [r.event log type_ payload k]) = seededKeys log ++ k.toList := by
  rw [Keyed.seededKeys_append]
  unfold seededKeys
  rw [List.filter_cons_of_pos (by rw [event_type, htype]; rfl), List.filter_nil]
  cases k with
  | none => simp
  | some key => simp

end

theorem body_lifecycle (s : Signal) : perceptionTypes.contains (body s).1 = false := by
  cases s
  · show perceptionTypes.contains typeScopeCreep = false
    decide
  · show perceptionTypes.contains typeScopeCreep = false
    decide
  · show perceptionTypes.contains typeDecisionMade = false
    decide

/-- The keys of the log's retargets are those the process holds, and each is on one event. -/
structure Sound (t : Trail) : Prop where
  held : ∀ unit position, retargetKey unit position ∈ t.keys ↔
    retargetKey unit position ∈ seededKeys t.log
  tallied : ∀ unit position, t.log.countP (records (.refineRetarget unit position)) =
    if retargetKey unit position ∈ seededKeys t.log then 1 else 0

section
variable {r : Recorder} {t : Trail}

/-- An event of a landing, which records no signal and has no retarget's key. -/
theorem emitKeyed_landing {k type_ : String} (payload : Json) (h : Sound t)
    (htype : ∀ s, type_ ≠ (body s).1) (hlife : perceptionTypes.contains type_ = false)
    (hkey : ∀ unit position, k ≠ retargetKey unit position) :
    Sound (r.emitKeyed t k type_ payload) ∧
      (∀ s, (r.emitKeyed t k type_ payload).log.countP (records s) = t.log.countP (records s)) ∧
      t.keys ⊆ (r.emitKeyed t k type_ payload).keys := by
  unfold Recorder.emitKeyed
  split
  · exact ⟨h, fun _ => rfl, fun _ hx => hx⟩
  · have hcount : ∀ s, (t.log ++ [r.event t.log type_ payload (some k)]).countP (records s) =
        t.log.countP (records s) := by
      intro s
      have hnone : records s (r.event t.log type_ payload (some k)) = false :=
        Bool.eq_false_iff.2 fun hrec => htype s ((records_event s).1 hrec).1
      rw [List.countP_append, List.countP_singleton, hnone]
      rfl
    have hseeded : ∀ unit position, retargetKey unit position ∈
        seededKeys (t.log ++ [r.event t.log type_ payload (some k)]) ↔
          retargetKey unit position ∈ seededKeys t.log := by
      intro unit position
      rw [seededKeys_event hlife, List.mem_append, Option.toList_some, List.mem_singleton]
      exact or_iff_left fun heq => hkey unit position heq.symm
    refine ⟨⟨fun unit position => ?_, fun unit position => ?_⟩, hcount, fun _ hx =>
      List.mem_cons_of_mem _ hx⟩
    · rw [hseeded, List.mem_cons, h.held unit position]
      exact or_iff_right fun heq => hkey unit position heq.symm
    · rw [hcount, h.tallied]
      simp only [hseeded]

theorem emitKeyed_retarget {unit : String} {position : Nat} (h : Sound t)
    (hnew : retargetKey unit position ∉ t.keys) :
    Sound ⟨t.log ++ [r.event t.log (body (.refineRetarget unit position)).1
        (body (.refineRetarget unit position)).2 (some (retargetKey unit position))],
      retargetKey unit position :: t.keys⟩ := by
  have hseeded : ∀ unit' position', retargetKey unit' position' ∈
      seededKeys (t.log ++ [r.event t.log (body (.refineRetarget unit position)).1
        (body (.refineRetarget unit position)).2 (some (retargetKey unit position))]) ↔
        retargetKey unit' position' ∈ seededKeys t.log ∨
          retargetKey unit' position' = retargetKey unit position := by
    intro unit' position'
    rw [seededKeys_event (body_lifecycle _), List.mem_append, Option.toList_some,
      List.mem_singleton]
  refine ⟨fun unit' position' => ?_, fun unit' position' => ?_⟩
  · rw [hseeded, List.mem_cons, h.held unit' position', or_comm]
  · rw [List.countP_append, List.countP_singleton, h.tallied]
    simp only [hseeded]
    by_cases heq : retargetKey unit' position' = retargetKey unit position
    · obtain ⟨rfl, rfl⟩ := retargetKey_inj heq
      have hself : records (.refineRetarget unit' position') (r.event t.log
          (body (.refineRetarget unit' position')).1 (body (.refineRetarget unit' position')).2
          (some (retargetKey unit' position'))) = true := (records_signal _ _).2 rfl
      rw [if_neg (mt (h.held unit' position').2 hnew), if_pos hself, if_pos (Or.inr rfl)]
    · have hother : records (.refineRetarget unit' position') (r.event t.log
          (body (.refineRetarget unit position)).1 (body (.refineRetarget unit position)).2
          (some (retargetKey unit position))) = false := by
        refine Bool.eq_false_iff.2 fun hrec => ?_
        have hs := (records_signal (r := r) (.refineRetarget unit position) _).1 hrec
        cases hs
        exact heq rfl
      rw [hother, if_neg Bool.false_ne_true, Nat.add_zero]
      simp only [heq, or_false]

theorem append_unkeyed {s : Signal} (h : Sound t) (hkey : key s = none) :
    Sound ⟨t.log ++ [r.event t.log (body s).1 (body s).2 none], t.keys⟩ ∧
      ∀ s', (t.log ++ [r.event t.log (body s).1 (body s).2 none]).countP (records s') =
        t.log.countP (records s') + [s].count s' := by
  have hseeded :
      seededKeys (t.log ++ [r.event t.log (body s).1 (body s).2 none]) = seededKeys t.log := by
    rw [seededKeys_event (body_lifecycle s), Option.toList_none, List.append_nil]
  have hcount : ∀ s', (t.log ++ [r.event t.log (body s).1 (body s).2 none]).countP (records s') =
      t.log.countP (records s') + [s].count s' := by
    intro s'
    have hrec : records s' (r.event t.log (body s).1 (body s).2 (key s)) = true ↔ s' = s :=
      records_signal s s'
    rw [hkey] at hrec
    rw [List.countP_append, List.countP_singleton, List.count_singleton]
    by_cases heq : s = s'
    · rw [if_pos (hrec.2 heq.symm), if_pos (beq_iff_eq.2 heq)]
    · rw [if_neg fun hother => heq (hrec.1 hother).symm, if_neg fun hbeq => heq (beq_iff_eq.1 hbeq)]
  refine ⟨⟨fun unit position => ?_, fun unit position => ?_⟩, hcount⟩
  · rw [hseeded]
    exact h.held unit position
  · have hne : s ≠ .refineRetarget unit position := by
      rintro rfl
      cases hkey
    have hcountne : [s].count (.refineRetarget unit position) = 0 :=
      List.count_eq_zero.2 fun hmem => hne (List.mem_singleton.1 hmem).symm
    rw [hcount, hseeded, h.tallied, hcountne, Nat.add_zero]

/-- An item adds its signal's record, where the signal has no key or the process does not hold
it. -/
theorem record_spec (h : Sound t) (item : Item) : Sound (r.record t item) ∧
    t.keys ⊆ (r.record t item).keys ∧
    (∀ s, key s = none → (r.record t item).log.countP (records s) =
      t.log.countP (records s) + item.signalled.toList.count s) ∧
    ∀ unit position, item.signalled = some (.refineRetarget unit position) →
      retargetKey unit position ∈ (r.record t item).keys := by
  cases item with
  | landing st =>
    have htype : ∀ s, Ledger.typeUnitStarted ≠ (body s).1 ∧
        Ledger.typeUnitIntegrated ≠ (body s).1 := by
      intro s
      have hone : ∀ type_ ∈ [typeScopeCreep, typeDecisionMade],
          Ledger.typeUnitStarted ≠ type_ ∧ Ledger.typeUnitIntegrated ≠ type_ := by decide
      cases s
      · exact hone _ (by simp [body])
      · exact hone _ (by simp [body])
      · exact hone _ (by simp [body])
    obtain ⟨hstarted, hcount, hkeys⟩ := emitKeyed_landing (r := r) (r.started st) h
      (fun s => (htype s).1) (by decide)
      (fun _ _ => retargetKey_ne st.name "/started" (c := 'd') (by decide) (by decide))
    obtain ⟨hlanded, hcount', hkeys'⟩ := emitKeyed_landing (r := r) (r.landedFrom st) hstarted
      (fun s => (htype s).2) (by decide)
      (fun _ _ => retargetKey_ne st.name "/landed" (c := 'd') (by decide) (by decide))
    refine ⟨hlanded, List.Subset.trans hkeys hkeys', fun s _ => ?_, fun _ _ hsig => by cases hsig⟩
    exact (hcount' s).trans (hcount s)
  | signal s =>
    cases hkey : key s with
    | none =>
      rw [Recorder.record, hkey]
      dsimp only
      obtain ⟨hsound, hcount⟩ := append_unkeyed (r := r) h hkey
      refine ⟨hsound, fun _ hx => hx, fun s' _ => hcount s', fun unit position hsig => ?_⟩
      cases hsig
      cases hkey
    | some k =>
      obtain ⟨unit, position, rfl⟩ : ∃ unit position, s = .refineRetarget unit position := by
        cases s with
        | refineRetarget unit position => exact ⟨unit, position, rfl⟩
        | noCriterion unit => cases hkey
        | unmatched unit => cases hkey
      have hrecord : r.record t (.signal (.refineRetarget unit position)) =
        r.emitKeyed t (retargetKey unit position) (body (.refineRetarget unit position)).1
          (body (.refineRetarget unit position)).2 := rfl
      have hne : ∀ s', key s' = none →
          (Item.signal (.refineRetarget unit position)).signalled.toList.count s' = 0 := by
        intro s' hs'
        refine List.count_eq_zero.2 fun hmem => ?_
        rw [List.mem_singleton.1 hmem] at hs'
        cases hs'
      rw [hrecord, Recorder.emitKeyed]
      split
      · next hheld =>
        refine ⟨h, fun _ hx => hx, fun s' hs' => ?_, fun unit' position' hsig => ?_⟩
        · rw [hne s' hs', Nat.add_zero]
        · cases hsig
          exact List.contains_iff_mem.1 hheld
      · next hnew =>
        refine ⟨emitKeyed_retarget h fun hmem => hnew (List.contains_iff_mem.2 hmem),
          fun _ hx => List.mem_cons_of_mem _ hx, fun s' hs' => ?_, fun unit' position' hsig => ?_⟩
        · have hother : records s' (r.event t.log (body (.refineRetarget unit position)).1
              (body (.refineRetarget unit position)).2
              (some (retargetKey unit position))) = false := by
            refine Bool.eq_false_iff.2 fun hrec => ?_
            have hs := (records_signal (r := r) (.refineRetarget unit position) s').1 hrec
            rw [hs] at hs'
            cases hs'
          rw [List.countP_append, List.countP_singleton, hother, hne s' hs',
            if_neg Bool.false_ne_true]
        · cases hsig
          exact List.mem_cons_self

end

end Rigger.Conductor.Recorded
