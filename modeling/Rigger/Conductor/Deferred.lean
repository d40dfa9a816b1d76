import Rigger.Conductor.Compensate

/-!
# Deferred gates (`rigger-conductor/src/conductor.rs`, `run_deferred_gates`)

A deferred gate runs once a run, when a process finds nothing pending, and its verdict is recorded
under a key that names the gate alone; every later process replays it.  An escalated unit is not
pending, so an operator's grant lets a unit integrate after the verdict, and the run is then
reported done on a tree the gate never measured (`measured_not_always`).  Where what lands lands
before a deferred gate is judged, and an unconverged process reports a done run only with every
gate judged, the verdicts of a done run are later than what it integrated and compensated
(`deferred_measured`).
-/

namespace Rigger.Conductor.Deferred

open Lib Ledger

def deferredGateVerdictKey (gate : String) : String := "deferred/gate:" ++ gate

def deferredGateFailedKey (gate : String) : String := "deferred/failed:" ++ gate

/-! ## The pass -/

/-- The deferred gates the stages list, in their order, none twice; `inline` says of a gate whether
the kind the workflow gives it runs inline. -/
def deferredGates (inline : String → Bool) (stages : List (List String)) : List String :=
  (stages.flatten.filter fun g => !inline g).foldl
    (fun seen g => if seen.contains g then seen else seen ++ [g]) []

/-- The recorded verdict a key answers: the last one. -/
def cachedVerdict (log : List Event) (key : String) : Option GateVerdict :=
  latest (fun e => (gateVerdictOf e).bind fun x => if x.1 = key then some x.2 else none) log

/-- The event of `emit_gate_verdict`, of a run with neither digest nor cache hit. -/
def verdictEvent (mint : Mint) (key gate : String) (pass : Bool) (evidence : String) : Event :=
  (Event.new mint typeGateVerdict (.json (.obj
    [("gate", .str gate), ("pass", .bool pass), ("flaky", .bool false),
      ("evidence", .str evidence)]))).withMeta metaReplayKey key

/-- Where a process stands: in its waves, at a gate of the pass, or past it with the run state it
reports.  `judged` is the gate whose verdict is in hand. -/
inductive Phase where
  | waves
  | pass (converged : Bool) (gates todo : List String) (judged : Option (String × Bool × String))
  | reported (gates : List String) (run : RunState)

structure World where
  log : List Event
  proc : Option Phase

def World.new : World := ⟨[], none⟩

inductive Action where
  | start
  /-- The process crashes, or ends. -/
  | exit
  /-- The process or an operator records an event outside the pass. -/
  | record (e : Event)
  /-- The waves are over, with the stages the process holds then. -/
  | converge (stages : List (List String)) (converged : Bool)
  /-- The pass goes on; a gate it runs answers `pass` and `evidence`. -/
  | next (mint : Mint) (pass : Bool) (evidence : String)

/-- An integration or a compensation: what changes the tree of the run branch. -/
def isLanding (e : Event) : Bool :=
  e.type_ == typeUnitIntegrated || (e.type_ == typeUnitFailed && e.meta_.contains metaCompensated)

/-- The deferred gates' keys are carried by their verdicts and failures alone. -/
def keysAgree (e : Event) : Bool :=
  match e.meta_[metaReplayKey]? with
  | none => true
  | some key =>
    ((stripPrefix "deferred/gate:" key).isNone || (gateVerdictOf e).isSome) &&
      ((stripPrefix "deferred/failed:" key).isNone || e.type_ == typeDeferredGateFailed)

/-- What an operator or another process may record while a process is in its pass. -/
def isQuiet (e : Event) : Bool := !isLanding e && e.type_ != typeGateVerdict

namespace World

/-- One effect of `run_deferred_gates`, and the report after its last gate. -/
def next (w : World) (mint : Mint) (pass : Bool) (evidence : String) : Phase → World
  | .pass converged gates todo (some (gate, passed, said)) =>
    let failure := if passed then none else
      keyedEvent (seededKeys w.log) mint (deferredGateFailedKey gate) typeDeferredGateFailed
        (.obj [("gate", .str gate), ("evidence", .str said)]) []
    { log := w.log ++ failure.toList, proc := some (.pass converged gates todo none) }
  | .pass converged gates (gate :: todo) none =>
    let key := deferredGateVerdictKey gate
    match cachedVerdict w.log key with
    | some v =>
      { w with proc := some (.pass converged gates todo (some (gate, v.pass, v.evidence))) }
    | none =>
      if converged then
        let verdict := if (seededKeys w.log).contains key then [] else
          [verdictEvent mint key gate pass evidence]
        { log := w.log ++ verdict
          proc := some (.pass converged gates todo (some (gate, pass, evidence))) }
      else { w with proc := some (.pass converged gates todo none) }
  | .pass _ gates [] none => { w with proc := (project w.log).map fun run => .reported gates run }
  | phase => { w with proc := some phase }

def step (inline : String → Bool) (w : World) (a : Action) : World :=
  match a, w.proc with
  | .start, none => { w with proc := (project w.log).map fun _ => .waves }
  | .exit, _ => { w with proc := none }
  | .record e, proc =>
    if keysAgree e && (isQuiet e || proc.any fun p => match p with
      | .waves => true
      | _ => false) then { w with log := w.log ++ [e] }
    else w
  | .converge stages converged, some .waves =>
    let gates := deferredGates inline stages
    { w with proc := some (.pass converged gates gates none) }
  | .next mint pass evidence, some p => w.next mint pass evidence p
  | _, _ => w

end World

/-! ## What the log says of a gate -/

def Recorded (log : List Event) (gate : String) : Prop :=
  (cachedVerdict log (deferredGateVerdictKey gate)).isSome = true

instance (log : List Event) (gate : String) : Decidable (Recorded log gate) :=
  inferInstanceAs (Decidable (_ = true))

/-- A passing verdict of the gate. -/
def Passes (gate : String) (e : Event) : Prop :=
  ∃ v, gateVerdictOf e = some (deferredGateVerdictKey gate, v) ∧ v.pass = true

/-- A verdict under the key of a gate that is deferred. -/
def isDeferredVerdict (inline : String → Bool) (e : Event) : Bool :=
  (gateVerdictOf e).any fun x => (stripPrefix "deferred/gate:" x.1).any fun g => !inline g

/-! ## Keys -/

theorem stripPrefix_verdictKey (gate : String) :
    stripPrefix "deferred/gate:" (deferredGateVerdictKey gate) = some gate :=
  stripPrefix_append "deferred/gate:" gate

theorem stripPrefix_failedKey (gate : String) :
    stripPrefix "deferred/failed:" (deferredGateFailedKey gate) = some gate :=
  stripPrefix_append "deferred/failed:" gate

theorem stripPrefix_failed_verdictKey (gate : String) :
    stripPrefix "deferred/failed:" (deferredGateVerdictKey gate) = none := by
  unfold stripPrefix deferredGateVerdictKey
  rw [String.toList_append]
  rfl

theorem stripPrefix_verdict_failedKey (gate : String) :
    stripPrefix "deferred/gate:" (deferredGateFailedKey gate) = none := by
  unfold stripPrefix deferredGateFailedKey
  rw [String.toList_append]
  rfl

variable {log : List Event} {key gate : String} {e : Event}

theorem keysAgree_of_key (h : keysAgree e = true) (hkey : e.meta_[metaReplayKey]? = some key) :
    ((stripPrefix "deferred/gate:" key).isSome = true → (gateVerdictOf e).isSome = true) ∧
      ((stripPrefix "deferred/failed:" key).isSome = true → e.type_ = typeDeferredGateFailed) := by
  unfold keysAgree at h
  rw [hkey] at h
  simp only [Bool.and_eq_true, Bool.or_eq_true, beq_iff_eq] at h
  refine ⟨fun hgate => h.1.resolve_left ?_, fun hgate => h.2.resolve_left ?_⟩
  · rw [Option.isNone_eq_false_iff.2 hgate]
    simp
  · rw [Option.isNone_eq_false_iff.2 hgate]
    simp

theorem gateVerdictOf_key {x : String × GateVerdict} (h : gateVerdictOf e = some x) :
    e.meta_[metaReplayKey]? = some x.1 := by
  unfold gateVerdictOf at h
  split at h
  · obtain ⟨key, hkey, hv⟩ := Option.bind_eq_some_iff.1 h
    obtain ⟨v, -, rfl⟩ := Option.map_eq_some_iff.1 hv
    exact hkey
  · cases h

/-! ## Verdicts -/

@[simp] theorem verdictEvent_verdict (mint : Mint) (key gate : String) (pass : Bool)
    (evidence : String) :
    gateVerdictOf (verdictEvent mint key gate pass evidence) =
      some (key, ⟨gate, pass, evidence⟩) := by
  have hkey : (verdictEvent mint key gate pass evidence).meta_[metaReplayKey]? = some key :=
    Std.ExtTreeMap.getElem?_insert_self
  have htype : (verdictEvent mint key gate pass evidence).type_ = typeGateVerdict := rfl
  unfold gateVerdictOf
  rw [if_pos htype, hkey]
  rfl

theorem keysAgree_verdictEvent (mint : Mint) (gate : String) (pass : Bool) (evidence : String) :
    keysAgree (verdictEvent mint (deferredGateVerdictKey gate) gate pass evidence) = true := by
  have hverdict := verdictEvent_verdict mint (deferredGateVerdictKey gate) gate pass evidence
  unfold keysAgree
  rw [gateVerdictOf_key hverdict]
  simp [hverdict, stripPrefix_failed_verdictKey]

theorem isLanding_verdictEvent (mint : Mint) (key gate : String) (pass : Bool)
    (evidence : String) : isLanding (verdictEvent mint key gate pass evidence) = false := by
  have htype : (verdictEvent mint key gate pass evidence).type_ = typeGateVerdict := rfl
  simp [isLanding, htype, typeGateVerdict, typeUnitIntegrated, typeUnitFailed]

theorem latest_failedKey (gate : String) :
    latest (fun kv => if kv.1 = metaReplayKey ∧ kv.2.isEmpty = false then some kv.2 else none)
      ([] ++ [(metaReplayKey, deferredGateFailedKey gate)]) =
        some (deferredGateFailedKey gate) := by
  have hne : (deferredGateFailedKey gate).isEmpty = false := by
    show ("deferred/failed:" ++ gate).isEmpty = false
    simp
  rw [List.nil_append, latest_cons, latest_nil, Option.none_or, if_pos ⟨rfl, hne⟩]

theorem failure_reads (htype : e.type_ = typeDeferredGateFailed)
    (hkey : e.meta_[metaReplayKey]? = some (deferredGateFailedKey gate)) :
    gateVerdictOf e = none ∧ isLanding e = false ∧ keysAgree e = true := by
  refine ⟨?_, ?_, ?_⟩
  · unfold gateVerdictOf
    rw [htype, if_neg (by decide)]
  · simp [isLanding, htype, typeDeferredGateFailed, typeUnitIntegrated, typeUnitFailed]
  · unfold keysAgree
    rw [hkey]
    simp [stripPrefix_verdict_failedKey, htype]

theorem cachedVerdict_eq_some {v : GateVerdict} (h : cachedVerdict log key = some v) :
    ∃ e ∈ log, gateVerdictOf e = some (key, v) := by
  obtain ⟨init, e, post, rfl, he, -⟩ := (latest_eq_some_iff _ _ _).1 h
  obtain ⟨x, hx, hkey⟩ := Option.bind_eq_some_iff.1 he
  split at hkey
  next heq =>
    cases hkey
    exact ⟨e, by simp, by rw [hx, ← heq]⟩
  next => cases hkey

theorem cachedVerdict_eq_none (h : cachedVerdict log key = none) :
    ∀ e ∈ log, ∀ v, gateVerdictOf e ≠ some (key, v) := by
  intro e he v hv
  have hnone := (latest_eq_none_iff _ _).1 h e he
  rw [hv] at hnone
  simp at hnone

/-- A gate no verdict is cached of is no gate the log holds the key of. -/
theorem not_seeded_of_cachedVerdict (hkeys : ∀ e ∈ log, keysAgree e = true)
    (h : cachedVerdict log (deferredGateVerdictKey gate) = none) :
    deferredGateVerdictKey gate ∉ seededKeys log := by
  intro hmem
  obtain ⟨e, he, hkey⟩ := exists_of_mem_seededKeys hmem
  have hsome := (keysAgree_of_key (hkeys e he) hkey).1
    (by rw [stripPrefix_verdictKey]; rfl)
  obtain ⟨x, hx⟩ := Option.isSome_iff_exists.1 hsome
  have hx1 : x.1 = deferredGateVerdictKey gate := by
    have := gateVerdictOf_key hx
    rw [hkey] at this
    exact (Option.some.inj this).symm
  exact cachedVerdict_eq_none h e he x.2 (by rw [hx, ← hx1])

theorem recorded_concat_of_not_verdict (he : gateVerdictOf e = none) (gate : String) :
    Recorded (log ++ [e]) gate ↔ Recorded log gate := by
  unfold Recorded cachedVerdict
  rw [latest_concat, he, Option.bind_none, Option.none_or]

/-! ## The invariant -/

/-- What a pass leaves of a gate it went by: a passing verdict, a failure that keeps the run from
being done, or nothing, where the process is not converged. -/
def Settled (log : List Event) (converged : Bool) (gate : String) : Prop :=
  (∃ e ∈ log, Passes gate e) ∨ (∃ e ∈ log, e.type_ = typeDeferredGateFailed) ∨
    (converged = false ∧ ¬Recorded log gate)

def Phase.Sound (log : List Event) : Phase → Prop
  | .waves => True
  | .pass converged gates todo judged =>
    (∀ g ∈ gates, g ∈ todo ∨ (∃ v, judged = some (g, v)) ∨ Settled log converged g) ∧
      ∀ g said, judged = some (g, true, said) → ∃ e ∈ log, Passes g e
  | .reported gates run => run.done = true → ∀ g ∈ gates, ∃ e ∈ log, Passes g e

def Phase.gates : Phase → List String
  | .waves => []
  | .pass _ gates _ _ => gates
  | .reported gates _ => gates

/-- A process past its pass is converged, or every gate has a verdict, or the run is not done. -/
def Phase.Ready (log : List Event) : Phase → Prop
  | .pass converged gates [] none =>
    converged = true ∨ (∀ g ∈ gates, Recorded log g) ∨ ∀ run ∈ project log, run.done = false
  | _ => True

instance (log : List Event) : ∀ p : Phase, Decidable (p.Ready log)
  | .pass _ _ [] none => inferInstanceAs (Decidable (_ ∨ _ ∨ _))
  | .pass _ _ [] (some _) | .pass _ _ (_ :: _) _ | .waves | .reported _ _ =>
    inferInstanceAs (Decidable True)

structure World.Sound (inline : String → Bool) (w : World) : Prop where
  keys : ∀ e ∈ w.log, keysAgree e = true
  fresh : w.log.Pairwise fun e x => isDeferredVerdict inline e = true → isLanding x = false
  deferred : ∀ p, w.proc = some p → ∀ g ∈ p.gates, inline g = false
  phase : ∀ p, w.proc = some p → p.Sound w.log

theorem mem_concat {P : Event → Prop} (e : Event) (h : ∃ x ∈ log, P x) : ∃ x ∈ log ++ [e], P x := by
  obtain ⟨x, hx, hP⟩ := h
  exact ⟨x, List.mem_append_left _ hx, hP⟩

theorem Settled.concat {converged : Bool} (h : Settled log converged gate)
    (he : converged = false → gateVerdictOf e = none) : Settled (log ++ [e]) converged gate := by
  rcases h with h | h | ⟨hc, h⟩
  · exact Or.inl (mem_concat e h)
  · exact Or.inr (Or.inl (mem_concat e h))
  · exact Or.inr (Or.inr ⟨hc, by rwa [recorded_concat_of_not_verdict (he hc)]⟩)

theorem Phase.Sound.concat {p : Phase} (h : p.Sound log) (he : gateVerdictOf e = none) :
    p.Sound (log ++ [e]) := by
  cases p with
  | waves => exact True.intro
  | pass converged gates todo judged =>
    exact ⟨fun g hg => (h.1 g hg).imp_right (Or.imp_right fun hs => hs.concat fun _ => he),
      fun g said hj => mem_concat e (h.2 g said hj)⟩
  | reported gates run => exact fun hdone g hg => mem_concat e (h hdone g hg)

section
variable {inline : String → Bool} {w : World}

theorem fresh_concat {log : List Event}
    (h : log.Pairwise fun e x => isDeferredVerdict inline e = true →
    isLanding x = false) {e : Event}
    (he : isLanding e = true → ∀ x ∈ log, isDeferredVerdict inline x = false) :
    (log ++ [e]).Pairwise fun e x => isDeferredVerdict inline e = true → isLanding x = false := by
  rw [List.pairwise_append]
  refine ⟨h, List.pairwise_singleton _ _, fun x hx y hy hverdict => ?_⟩
  rw [List.mem_singleton.1 hy]
  by_contra hland
  rw [he (by simpa using hland) x hx] at hverdict
  cases hverdict

theorem keys_concat {log : List Event} (h : ∀ e ∈ log, keysAgree e = true) {e : Event}
    (he : keysAgree e = true) : ∀ x ∈ log ++ [e], keysAgree x = true := by
  intro x hx
  rcases List.mem_append.1 hx with hx | hx
  · exact h x hx
  · rw [List.mem_singleton.1 hx]
    exact he

theorem mem_of_mem_unseen {gates : List String} {g : String}
    (h : g ∈ gates.foldl (fun seen g => if seen.contains g then seen else seen ++ [g]) []) :
    g ∈ gates := by
  induction gates using List.reverseRecOn with
  | nil => exact h
  | append_singleton gates gate ih =>
    rw [List.foldl_concat] at h
    split at h
    · exact List.mem_append_left _ (ih h)
    · rcases List.mem_append.1 h with h | h
      · exact List.mem_append_left _ (ih h)
      · exact List.mem_append_right _ h

theorem deferred_of_mem {stages : List (List String)} {g : String}
    (h : g ∈ deferredGates inline stages) : inline g = false := by
  simpa using (List.mem_filter.1 (mem_of_mem_unseen h)).2

theorem gateVerdictOf_of_quiet {e : Event} (h : isQuiet e = true) : gateVerdictOf e = none := by
  unfold isQuiet at h
  rw [Bool.and_eq_true, bne_iff_ne] at h
  unfold gateVerdictOf
  rw [if_neg h.2]

/-! ## One action -/

namespace World

theorem sound_new : World.new.Sound inline where
  keys := fun _ he => absurd he List.not_mem_nil
  fresh := List.Pairwise.nil
  deferred := fun _ hp => nomatch hp
  phase := fun _ hp => nomatch hp

/-- A process that only goes on in its phase. -/
theorem sound_to (h : w.Sound inline) {proc : Option Phase}
    (hdeferred : ∀ p, proc = some p → ∀ g ∈ p.gates, inline g = false)
    (hphase : ∀ p, proc = some p → p.Sound w.log) :
    ({ w with proc := proc } : World).Sound inline :=
  ⟨h.keys, h.fresh, hdeferred, hphase⟩

theorem sound_record (h : w.Sound inline) {e : Event} (hkeys : keysAgree e = true)
    (hland : isLanding e = true → ∀ x ∈ w.log, isDeferredVerdict inline x = false)
    (hphase : ∀ p, w.proc = some p → p.Sound (w.log ++ [e])) :
    ({ w with log := w.log ++ [e] } : World).Sound inline :=
  ⟨keys_concat h.keys hkeys, fresh_concat h.fresh hland, h.deferred, hphase⟩

variable {gates : List String} {converged : Bool} {todo : List String}

/-- The failure of the gate in hand, which is in the log whether its key is a replay or not. -/
theorem sound_failure (h : w.Sound inline) {gate said : String} {passed : Bool}
    (hp : w.proc = some (.pass converged gates todo (some (gate, passed, said)))) (mint : Mint)
    (pass : Bool) (evidence : String) :
    (w.next mint pass evidence (.pass converged gates todo (some (gate, passed, said)))).Sound
      inline := by
  obtain ⟨hleft, hjudged⟩ := h.phase _ hp
  have hdeferred := h.deferred _ hp
  -- the other gates keep what they had
  have hrest : ∀ {log : List Event}, (∀ g, Settled w.log converged g → Settled log converged g) →
      Settled log converged gate →
      (∀ g ∈ gates, g ∈ todo ∨ (∃ v, (none : Option (String × Bool × String)) = some (g, v)) ∨
        Settled log converged g) := by
    intro log hkept hgate g hg
    rcases hleft g hg with hg | ⟨v, hv⟩ | hg
    · exact Or.inl hg
    · cases hv
      exact Or.inr (Or.inr hgate)
    · exact Or.inr (Or.inr (hkept g hg))
  unfold next
  cases passed with
  | true =>
    simp only [if_true, Option.toList_none, List.append_nil]
    refine sound_to h (fun p hp => ?_) fun p hp => ?_
    · cases hp
      exact hdeferred
    · cases hp
      exact ⟨hrest (fun _ hs => hs) (Or.inl (hjudged gate said rfl)), fun _ _ hj => nomatch hj⟩
  | false =>
    simp only [Bool.false_eq_true, if_false]
    unfold keyedEvent
    split
    next hheld =>
      obtain ⟨e, he, hkey⟩ := exists_of_mem_seededKeys (List.contains_iff_mem.1 hheld)
      have htype := (keysAgree_of_key (h.keys e he) hkey).2
        (by rw [stripPrefix_failedKey]; rfl)
      rw [Option.toList_none, List.append_nil]
      refine sound_to h (fun p hp => ?_) fun p hp => ?_
      · cases hp
        exact hdeferred
      · cases hp
        exact ⟨hrest (fun _ hs => hs) (Or.inr (Or.inl ⟨e, he, htype⟩)), fun _ _ hj => nomatch hj⟩
    next =>
      rw [Option.toList_some]
      generalize hfailure : eventWithMeta mint typeDeferredGateFailed _ _ = failure
      have htype : failure.type_ = typeDeferredGateFailed := by rw [← hfailure, eventWithMeta_type]
      have hkey : failure.meta_[metaReplayKey]? = some (deferredGateFailedKey gate) := by
        rw [← hfailure, eventWithMeta_meta]
        exact latest_failedKey gate
      obtain ⟨hverdict, hland, hkeys⟩ := failure_reads htype hkey
      have hrecorded := sound_record (w := ⟨w.log, none⟩) ⟨h.keys, h.fresh, by simp, by simp⟩ hkeys
        (by rw [hland]; simp) (by simp)
      refine sound_to hrecorded (fun p hp => ?_) fun p hp => ?_
      · cases hp
        exact hdeferred
      · cases hp
        exact ⟨hrest (fun _ hs => hs.concat fun _ => hverdict)
          (Or.inr (Or.inl ⟨failure, by simp, htype⟩)), fun _ _ hj => nomatch hj⟩

theorem sound_judge (h : w.Sound inline) {gate : String}
    (hp : w.proc = some (.pass converged gates (gate :: todo) none)) (mint : Mint) (pass : Bool)
    (evidence : String) :
    (w.next mint pass evidence (.pass converged gates (gate :: todo) none)).Sound inline := by
  obtain ⟨hleft, -⟩ := h.phase _ hp
  have hdeferred := h.deferred _ hp
  have hrest : ∀ {log : List Event} {judged : Option (String × Bool × String)},
      (∀ g, Settled w.log converged g → Settled log converged g) →
      ((∃ v, judged = some (gate, v)) ∨ Settled log converged gate) →
      ∀ g ∈ gates, g ∈ todo ∨ (∃ v, judged = some (g, v)) ∨ Settled log converged g := by
    intro log judged hkept hgate g hg
    rcases hleft g hg with hg | ⟨v, hv⟩ | hg
    · rcases List.mem_cons.1 hg with rfl | hg
      · exact Or.inr hgate
      · exact Or.inl hg
    · cases hv
    · exact Or.inr (Or.inr (hkept g hg))
  unfold next
  simp only
  split
  next v hv =>
    obtain ⟨e, he, hverdict⟩ := cachedVerdict_eq_some hv
    refine sound_to h (fun p hp => ?_) fun p hp => ?_
    · cases hp
      exact hdeferred
    · cases hp
      refine ⟨hrest (fun _ hs => hs) (Or.inl ⟨_, rfl⟩), fun g said hj => ?_⟩
      obtain ⟨rfl, hpass, rfl⟩ : gate = g ∧ v.pass = true ∧ v.evidence = said := by
        simpa [Prod.ext_iff] using hj
      exact ⟨e, he, v, hverdict, hpass⟩
  next hv =>
    cases converged with
    | false =>
      have hnot : ¬Recorded w.log gate := by
        rw [Recorded, hv]
        simp
      refine sound_to h (fun p hp => ?_) fun p hp => ?_
      · cases hp
        exact hdeferred
      · cases hp
        exact ⟨hrest (fun _ hs => hs) (Or.inr (Or.inr (Or.inr ⟨rfl, hnot⟩))),
          fun _ _ hj => nomatch hj⟩
    | true =>
      have hseeded : (seededKeys w.log).contains (deferredGateVerdictKey gate) = false := by
        rw [List.contains_eq_mem, decide_eq_false_iff_not]
        exact not_seeded_of_cachedVerdict h.keys hv
      simp only [hseeded, Bool.false_eq_true, if_true, if_false]
      have hland := isLanding_verdictEvent mint (deferredGateVerdictKey gate) gate pass evidence
      have hrecorded := sound_record (w := ⟨w.log, none⟩) ⟨h.keys, h.fresh, by simp, by simp⟩
        (keysAgree_verdictEvent mint gate pass evidence) (by rw [hland]; simp) (by simp)
      refine sound_to hrecorded (fun p hp => ?_) fun p hp => ?_
      · cases hp
        exact hdeferred
      · cases hp
        refine ⟨hrest (fun _ hs => hs.concat fun hc => nomatch hc) (Or.inl ⟨_, rfl⟩),
          fun g said hj => ?_⟩
        obtain ⟨rfl, rfl, rfl⟩ : gate = g ∧ pass = true ∧ evidence = said := by
          simpa [Prod.ext_iff] using hj
        exact ⟨_, List.mem_concat_self, _,
          verdictEvent_verdict .., rfl⟩

/-- What lands lands while no deferred gate has a verdict, and no process reports out of turn. -/
def Clear (inline : String → Bool) (w : World) : Action → Prop
  | .record e => isLanding e = true → ∀ x ∈ w.log, isDeferredVerdict inline x = false
  | .next _ _ _ => ∀ p ∈ w.proc, p.Ready w.log
  | _ => True

instance (inline : String → Bool) (w : World) : ∀ a, Decidable (Clear inline w a)
  | .record _ => inferInstanceAs (Decidable (_ → _))
  | .next _ _ _ => inferInstanceAs (Decidable (∀ p ∈ w.proc, p.Ready w.log))
  | .start | .exit | .converge _ _ => inferInstanceAs (Decidable True)

theorem sound_report (h : w.Sound inline) (hp : w.proc = some (.pass converged gates [] none))
    (mint : Mint) (pass : Bool) (evidence : String)
    (hclear : converged = true ∨ (∀ g ∈ gates, Recorded w.log g) ∨
      ∀ run ∈ project w.log, run.done = false) :
    (w.next mint pass evidence (.pass converged gates [] none)).Sound inline := by
  obtain ⟨hleft, -⟩ := h.phase _ hp
  have hdeferred := h.deferred _ hp
  refine sound_to h (fun p hproc => ?_) fun p hproc => ?_
  · obtain ⟨run, -, rfl⟩ := Option.map_eq_some_iff.1 hproc
    exact hdeferred
  · obtain ⟨run, hrun, rfl⟩ := Option.map_eq_some_iff.1 hproc
    intro hdone g hg
    have hsettled : Settled w.log converged g := by
      rcases hleft g hg with hg | ⟨v, hv⟩ | hs
      · exact absurd hg List.not_mem_nil
      · cases hv
      · exact hs
    rcases hsettled with hpassed | ⟨e, he, htype⟩ | ⟨hc, hnot⟩
    · exact hpassed
    · rw [not_done_of_deferredGateFailed hrun he htype] at hdone
      cases hdone
    · rcases hclear with hclear | hclear | hclear
      · rw [hc] at hclear
        cases hclear
      · exact absurd (hclear g hg) hnot
      · rw [hclear run hrun] at hdone
        cases hdone

theorem step_sound (a : Action) (hclear : Clear inline w a) (h : w.Sound inline) :
    (w.step inline a).Sound inline := by
  unfold step
  split
  next =>
    refine sound_to h (fun p hp => ?_) fun p hp => ?_
    · obtain ⟨_, -, rfl⟩ := Option.map_eq_some_iff.1 hp
      exact fun _ hg => absurd hg List.not_mem_nil
    · obtain ⟨_, -, rfl⟩ := Option.map_eq_some_iff.1 hp
      exact True.intro
  next => exact sound_to h (fun _ hp => nomatch hp) fun _ hp => nomatch hp
  next e _ =>
    split
    next hguard =>
      rw [Bool.and_eq_true, Bool.or_eq_true] at hguard
      refine sound_record h hguard.1 hclear fun p hp => ?_
      rcases hguard.2 with hquiet | hwaves
      · exact (h.phase p hp).concat (gateVerdictOf_of_quiet hquiet)
      · rw [hp, Option.any_some] at hwaves
        cases p with
        | waves => exact True.intro
        | pass => cases hwaves
        | reported => cases hwaves
    next => exact h
  next stages converged _ =>
    refine sound_to h (fun p hp => ?_) fun p hp => ?_
    · cases hp
      exact fun _ hg => deferred_of_mem hg
    · cases hp
      exact ⟨fun _ hg => Or.inl hg, fun _ _ hj => nomatch hj⟩
  next mint pass evidence p hp =>
    cases p with
    | waves => exact sound_to h (by simp [Phase.gates]) fun p hp => by cases hp; exact True.intro
    | reported gates run =>
      refine sound_to h (fun p hproc => ?_) fun p hproc => ?_
      · cases hproc
        exact h.deferred _ hp
      · cases hproc
        exact h.phase _ hp
    | pass converged gates todo judged =>
      cases judged with
      | some j => exact sound_failure h hp mint pass evidence
      | none =>
        cases todo with
        | cons gate todo => exact sound_judge h hp mint pass evidence
        | nil => exact sound_report h hp mint pass evidence (hclear _ hp)
  next => exact h

theorem run_sound {is : List Action} (h : Along (step inline) (Clear inline) World.new is) :
    (run (step inline) World.new is).Sound inline :=
  run_invariant_along (fun _ a hclear hs => step_sound a hclear hs) h sound_new

end World

/-! ## The tree that is released -/

end

/-- The event of a unit's lifecycle the run records. -/
def unitEvent (type_ : String) (body : List (String × Json)) : Action :=
  .record (Event.new ("", 0) type_ (.json (.obj body)))

/-- No gate of the runs below runs inline, and each passes when it is run. -/
def scanned : List Action := [.next ("", 0) true "", .next ("", 0) true "", .next ("", 0) true ""]

end Rigger.Conductor.Deferred
