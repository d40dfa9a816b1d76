import Rigger.Driver.Frontier
import Rigger.Lib.Run
import Rigger.Store.Writers

/-!
# The replay driver over the steps of a run (`rigger-driver/src/driver/replay.rs`)

A run advances by step processes, one at a time.  Each replays the conductor, whose spawn calls are
answered from the run's log or park their request there, and prints the frontier the log is left
with; it may die between any two store calls, and anything may land on the log between them.  A
spawn is requested once, answered with its latest real result, and printed, hung or ended
(`no_spawn_lost`).
-/

namespace Rigger.Replay

open Lib hiding slice
open Spawn Liveness Conditional

def metaRunId : String := "run_id"
def metaResolvedModel : String := "resolved_model"

/-- A spawn call: the request it would park, the run it is of and the scratch root of its marker. -/
structure SpawnCall where
  req : Request
  runId : String
  markerRoot : String
  bounded : ∀ secs ∈ req.maxWallClock, secs < 2 ^ 64

/-- The event `park_in_run` appends. -/
def parkEvent (mint : Mint) (call : SpawnCall) : Event :=
  let ev := Event.new mint typeSpawnRequested (.json call.req.encode)
  let ev := if call.runId = "" then ev else ev.withMeta metaRunId call.runId
  if call.markerRoot = "" then ev else ev.withMeta metaMarkerRoot call.markerRoot

structure AgentResult where
  output : String
  resolvedModel : String

/-- `answered`: a recorded failure as that failure. -/
def answered (res : Result) : Except String AgentResult :=
  if res.error ≠ "" then .error res.error else .ok ⟨res.output, metaStr res metaResolvedModel⟩

inductive Answer where
  | ended (result : Except String AgentResult)
  | parked
  | unread

/-- A call between its store calls; `log` is the log its read met. -/
inductive Phase where
  | idle
  | reading (call : SpawnCall)
  | parking (call : SpawnCall) (log : List Event)

/-- An answered call, with the log its read met. -/
structure Answered where
  id : String
  log : List Event
  answer : Answer

structure Printed (α : Type) where
  log : List Event
  pass : Pass α
  step : Step α
  hung : List HungSpawn

structure World (α : Type) where
  log : List Event
  stepping : Bool
  phase : String → Phase
  answers : List Answered
  printed : List (Printed α)

/-- An event others record during a run: no boundary, no request, and a result that can be read. -/
def Other (e : Event) : Prop :=
  isRunStarted e = false ∧ e.type_ ≠ typeSpawnRequested ∧
    (e.type_ = typeSpawnResult → (resultIn e).isSome = true)

/-- `turn` is a call's next store call, and `finish` the end of a pass, which reads the log back and
prints. -/
inductive Act (α : Type) where
  | record (events : List {e : Event // Other e})
  | start
  | call (call : SpawnCall)
  | turn (id : String) (mint : Mint)
  | finish (pass : Pass α)
  | kill

namespace World

section
variable {α : Type}

/-- `read_or_park` and `ReplayDriver::spawn`, one store call at a time. -/
def turned (w : World α) (id : String) (mint : Mint) : World α :=
  match w.phase id with
  | .idle => w
  | .reading call =>
    match endedBy (slice w.log) id with
    | none =>
      { w with
        phase := Function.update w.phase id .idle
        answers := w.answers ++ [⟨id, w.log, .unread⟩] }
    | some (some res) =>
      { w with
        phase := Function.update w.phase id .idle
        answers := w.answers ++ [⟨id, w.log, .ended (answered res)⟩] }
    | some none =>
      if isRecorded (slice w.log) id then
        { w with
          phase := Function.update w.phase id .idle
          answers := w.answers ++ [⟨id, w.log, .parked⟩] }
      else { w with phase := Function.update w.phase id (.parking call w.log) }
  | .parking call log =>
    { w with
      log := w.log ++ [parkEvent mint call]
      phase := Function.update w.phase id .idle
      answers := w.answers ++ [⟨id, log, .parked⟩] }

/-- The end of a step process, whose open calls are gone with it. -/
def ended (w : World α) : World α := { w with stepping := false, phase := fun _ => .idle }

variable (cacheSibling : String → Option String)

/-- What a step prints over the log it reads back. -/
def prints (w : World α) (pass : Pass α) : Option (Printed α) :=
  (stepOfPass cacheSibling (slice w.log) pass).bind fun step =>
    (hungSpawns (slice w.log)).map fun hung => ⟨w.log, pass, step, hung⟩

def step (w : World α) : Act α → World α
  | .record events => { w with log := w.log ++ events.map Subtype.val }
  | .start =>
    if w.stepping then w else { w with stepping := true, phase := fun _ => .idle }
  | .call call =>
    match w.stepping, w.phase call.req.id with
    | true, .idle => { w with phase := Function.update w.phase call.req.id (.reading call) }
    | _, _ => w
  | .turn id mint => w.turned id mint
  | .finish p =>
    if w.stepping then { w.ended with printed := w.printed ++ (w.prints cacheSibling p).toList }
    else w
  | .kill => w.ended

/-- A run that begins behind what earlier runs left. -/
def new (earlier : List Event) (boundary : Event) : World α :=
  ⟨earlier ++ [boundary], false, fun _ => .idle, [], []⟩

def after (earlier : List Event) (boundary : Event) (acts : List (Act α)) : World α :=
  run (step cacheSibling) (new earlier boundary) acts

end

end World

/-! ## The requests of a run -/

/-- The requests of an id in the current run. -/
def requested (id : String) (log : List Event) : List Event :=
  (slice log).filter fun e => (requestOf e).any fun req => req.id == id

/-- What a call is to be answered with: the latest result of its id in the current run, when it is
no liveness fault, else a park. -/
def due (id : String) (log : List Event) : Answer :=
  ((latestFor id (slice log)).filter fun res => !res.isLivenessFault).elim .parked fun res =>
    .ended (answered res)

variable {log : List Event}

theorem requested_eq_nil {id : String} :
    requested id log = [] ↔ isRecorded (slice log) id = false := by
  unfold requested isRecorded
  rw [List.filter_eq_nil_iff, List.any_eq_false]

/-- A run's bodies can all be read. -/
def RunReadable (log : List Event) : Prop :=
  unreadable typeSpawnRequested requestOf (slice log) = false ∧ Readable (slice log)

theorem due_of_endedBy {id : String} {r : Option Result} (h : endedBy (slice log) id = some r) :
    due id log = r.elim .parked fun res => .ended (answered res) := by
  rw [endedBy_eq, standing_eq_some] at h
  unfold due
  rw [h.2]

theorem endedBy_of_readable (h : RunReadable log) (id : String) :
    ∃ r, endedBy (slice log) id = some r := by
  rw [endedBy_eq]
  exact ⟨_, standing_eq_some.2 ⟨h.2, rfl⟩⟩

theorem requestOf_parkEvent (mint : Mint) (call : SpawnCall) :
    requestOf (parkEvent mint call) = some call.req := by
  have hbody : (parkEvent mint call).type_ = typeSpawnRequested ∧
      (parkEvent mint call).data = .json call.req.encode := by
    unfold parkEvent
    dsimp only
    split <;> split <;> exact ⟨rfl, rfl⟩
  rw [requestOf, if_pos hbody.1, hbody.2, Request.decode_encode call.bounded]

theorem parkEvent_type (mint : Mint) (call : SpawnCall) :
    (parkEvent mint call).type_ = typeSpawnRequested := by
  unfold parkEvent
  dsimp only
  split <;> split <;> rfl

/-- What lands on a run's log beside its boundary. -/
theorem slice_parked (log : List Event) (mint : Mint) (call : SpawnCall) :
    slice (log ++ [parkEvent mint call]) = slice log ++ [parkEvent mint call] := by
  have hkept : isPerception (parkEvent mint call) = false := by
    rw [isPerception, parkEvent_type]
    decide
  rw [slice_landed log fun e he => ?_]
  · unfold unperceived
    rw [List.filter_singleton, hkept]
    rfl
  · rw [List.mem_singleton.1 he, isRunStarted, parkEvent_type]
    decide

theorem requested_parked {id : String} (log : List Event) (mint : Mint) (call : SpawnCall) :
    requested id (log ++ [parkEvent mint call]) =
      requested id log ++ if call.req.id = id then [parkEvent mint call] else [] := by
  unfold requested
  rw [slice_parked, List.filter_append, List.filter_singleton, requestOf_parkEvent]
  by_cases hid : call.req.id = id
  · simp [hid]
  · rw [if_neg hid, Option.any_some, beq_eq_false_iff_ne.2 hid]
    rfl

/-! ## The invariant -/

section
variable {α : Type} {cacheSibling : String → Option String} {earlier : List Event}
    {boundary : Event}
  {w : World α}

def Phase.Sound (id : String) (log : List Event) : Phase → Prop
  | .idle => True
  | .reading call => call.req.id = id
  | .parking call read => call.req.id = id ∧ read <+: log ∧ requested id log = [] ∧
      due id read = .parked

/-- The answer is the one due where its call read, and the request of a parked call is in the
log. -/
structure Answered.Sound (log : List Event) (a : Answered) : Prop where
  read : a.log <+: log
  due : a.answer = due a.id a.log
  parked : a.answer = .parked → requested a.id log ≠ []

structure Sound (cacheSibling : String → Option String) (earlier : List Event) (boundary : Event)
    (w : World α) : Prop where
  current : ∃ more, w.log = earlier ++ boundary :: more ∧ slice w.log = boundary :: unperceived more
  readable : RunReadable w.log
  once : ∀ id, (requested id w.log).length ≤ 1
  phases : ∀ id, (w.phase id).Sound id w.log
  answers : ∀ a ∈ w.answers, a.Sound w.log
  printed : ∀ p ∈ w.printed, p.log <+: w.log ∧
    stepOfPass cacheSibling (slice p.log) p.pass = some p.step ∧
    hungSpawns (slice p.log) = some p.hung

variable {id : String} {since : List Event} {p : Phase} {more : List Event}

theorem Phase.Sound.grow {log : List Event} (h : p.Sound id log)
    (hmore : requested id (log ++ more) = requested id log) : p.Sound id (log ++ more) := by
  cases p with
  | idle => exact True.intro
  | reading call => exact h
  | parking call read =>
    exact ⟨h.1, h.2.1.trans (List.prefix_append _ _), hmore.trans h.2.2.1, h.2.2.2⟩

theorem Answered.Sound.grow {a : Answered} {log : List Event} (h : a.Sound log)
    (hmore : requested a.id log <+: requested a.id (log ++ more)) : a.Sound (log ++ more) := by
  refine ⟨h.read.trans (List.prefix_append _ _), h.due, fun hparked hnone => h.parked hparked ?_⟩
  rw [hnone] at hmore
  exact List.prefix_nil.1 hmore

theorem sound_new (hboundary : isRunStarted boundary = true) :
    Sound (α := α) cacheSibling earlier boundary (.new earlier boundary) := by
  have hslice : slice (earlier ++ [boundary]) = [boundary] := slice_started earlier hboundary
  have htype : boundary.type_ = typeRunStarted := beq_iff_eq.1 hboundary
  have hrequest : requestOf boundary = none := by
    rw [requestOf, htype]
    rfl
  refine ⟨⟨[], rfl, hslice⟩, ⟨?_, ?_⟩, fun id => ?_, fun _ => True.intro, ?_, ?_⟩
  · show unreadable _ _ (slice (earlier ++ [boundary])) = false
    rw [hslice, unreadable, List.any_cons, List.any_nil, htype]
    rfl
  · show unreadable _ _ (slice (earlier ++ [boundary])) = false
    rw [hslice, unreadable, List.any_cons, List.any_nil, htype]
    rfl
  · show (List.filter _ (slice (earlier ++ [boundary]))).length ≤ 1
    rw [hslice]
    exact List.length_filter_le _ _
  · intro a ha
    cases ha
  · intro p hp
    cases hp

theorem Sound.record (h : Sound cacheSibling earlier boundary w)
    (events : List {e : Event // Other e}) :
    Sound cacheSibling earlier boundary
      (World.step cacheSibling w (.record events)) := by
  have hother : ∀ e ∈ events.map Subtype.val, Other e := by
    intro e he
    obtain ⟨x, -, rfl⟩ := List.mem_map.1 he
    exact x.2
  have hslice := slice_landed w.log fun e he => (hother e he).1
  have hlanded : ∀ e ∈ unperceived (events.map Subtype.val), Other e :=
    fun e he => hother e (List.mem_filter.1 he).1
  have hrequested : ∀ id, requested id (w.log ++ events.map Subtype.val) = requested id w.log := by
    intro id
    have hnone : (unperceived (events.map Subtype.val)).filter
        (fun e => (requestOf e).any fun req => req.id == id) = [] := by
      refine List.filter_eq_nil_iff.2 fun e he => ?_
      rw [requestOf, if_neg (hlanded e he).2.1]
      exact Bool.false_ne_true
    unfold requested
    rw [hslice, List.filter_append, hnone, List.append_nil]
  have hreads : ∀ e ∈ unperceived (events.map Subtype.val),
      (e.type_ == typeSpawnRequested && (requestOf e).isNone) = false ∧
      (e.type_ == typeSpawnResult && (resultIn e).isNone) = false := by
    intro e he
    obtain ⟨-, hrequest, hresult⟩ := hlanded e he
    rw [beq_eq_false_iff_ne.2 hrequest]
    refine ⟨rfl, ?_⟩
    by_cases htype : e.type_ = typeSpawnResult
    · rw [Option.isNone_eq_false_iff.2 (hresult htype), Bool.and_false]
    · rw [beq_eq_false_iff_ne.2 htype, Bool.false_and]
  have hgrow : ∀ read : List Event, read <+: w.log → read <+: w.log ++ events.map Subtype.val :=
    fun read hread => hread.trans (List.prefix_append _ _)
  obtain ⟨more, hlog, hmore⟩ := h.current
  refine ⟨⟨more ++ events.map Subtype.val, ?_, ?_⟩, ⟨?_, ?_⟩, fun id => ?_, fun id => ?_,
    fun a ha => (h.answers a ha).grow (hrequested a.id ▸ List.prefix_rfl),
    fun p hp => ⟨hgrow _ (h.printed p hp).1, (h.printed p hp).2⟩⟩
  · show w.log ++ _ = _
    rw [hlog, List.append_assoc, List.cons_append]
  · show slice (w.log ++ _) = _
    rw [hslice, hmore, unperceived_append, List.cons_append]
  · show unreadable _ _ (slice (w.log ++ _)) = false
    rw [hslice, unreadable, List.any_append, Bool.or_eq_false_iff]
    exact ⟨h.readable.1, List.any_eq_false.2
      fun e he => by rw [(hreads e he).1]; exact Bool.false_ne_true⟩
  · show unreadable _ _ (slice (w.log ++ _)) = false
    rw [hslice, unreadable, List.any_append, Bool.or_eq_false_iff]
    exact ⟨h.readable.2, List.any_eq_false.2
      fun e he => by rw [(hreads e he).2]; exact Bool.false_ne_true⟩
  · show (requested id (w.log ++ _)).length ≤ 1
    rw [hrequested]
    exact h.once id
  · exact (h.phases id).grow (hrequested id)

theorem Sound.parks (h : Sound cacheSibling earlier boundary w) {call : SpawnCall}
    {read : List Event} (hp : w.phase id = .parking call read) (mint : Mint) :
    Sound cacheSibling earlier boundary (w.turned id mint) := by
  have hphase := h.phases id
  rw [hp] at hphase
  obtain ⟨hid, hread, hnone, hdue⟩ := hphase
  have hslice := slice_parked w.log mint call
  have htype := parkEvent_type mint call
  have hgrow : w.log <+: w.log ++ [parkEvent mint call] := List.prefix_append _ _
  have hkept : ∀ id', id' ≠ id →
      requested id' (w.log ++ [parkEvent mint call]) = requested id' w.log := by
    intro id' hne
    rw [requested_parked, if_neg fun heq => hne (heq.symm.trans hid), List.append_nil]
  unfold World.turned
  rw [hp]
  obtain ⟨more, hlog, hmore⟩ := h.current
  refine ⟨⟨more ++ [parkEvent mint call], ?_, ?_⟩, ⟨?_, ?_⟩, fun id' => ?_, fun id' => ?_,
    fun a ha => ?_, fun p hp => ⟨(h.printed p hp).1.trans hgrow, (h.printed p hp).2⟩⟩
  · show w.log ++ _ = _
    rw [hlog, List.append_assoc, List.cons_append]
  · show slice (w.log ++ _) = _
    have hperceived : isPerception (parkEvent mint call) = false := by
      rw [isPerception, htype]
      decide
    rw [hslice, hmore, unperceived_append, List.cons_append]
    unfold unperceived
    rw [List.filter_singleton, hperceived]
    rfl
  · show unreadable _ _ (slice (w.log ++ _)) = false
    rw [hslice, unreadable, List.any_append, Bool.or_eq_false_iff]
    refine ⟨h.readable.1, ?_⟩
    rw [List.any_cons, List.any_nil, requestOf_parkEvent, Option.isNone_some, Bool.and_false]
    rfl
  · show unreadable _ _ (slice (w.log ++ _)) = false
    rw [hslice, unreadable, List.any_append, Bool.or_eq_false_iff]
    refine ⟨h.readable.2, ?_⟩
    rw [List.any_cons, List.any_nil, htype]
    rfl
  · show (requested id' (w.log ++ _)).length ≤ 1
    by_cases hid' : id' = id
    · rw [hid', requested_parked, if_pos hid, hnone]
      exact Nat.le_refl _
    · rw [hkept id' hid']
      exact h.once id'
  · show (Function.update w.phase id .idle id').Sound id' (w.log ++ _)
    by_cases hid' : id' = id
    · rw [hid', Function.update_self]
      exact True.intro
    · rw [Function.update_of_ne hid']
      exact (h.phases id').grow (hkept id' hid')
  · rcases List.mem_append.1 ha with ha | ha
    · refine (h.answers a ha).grow ?_
      rw [requested_parked]
      exact List.prefix_append _ _
    · rw [List.mem_singleton.1 ha]
      refine ⟨hread.trans hgrow, hdue.symm, fun _ => ?_⟩
      show requested id (w.log ++ [parkEvent mint call]) ≠ []
      rw [requested_parked, if_pos hid, hnone]
      exact List.cons_ne_nil _ _

theorem Sound.moves (h : Sound cacheSibling earlier boundary w) (id : String)
    (hp : p.Sound id w.log) (more : List Answered) (stepping : Bool)
    (hmore : ∀ a ∈ more, a.Sound w.log) :
    Sound cacheSibling earlier boundary
      { w with
        stepping := stepping
        phase := Function.update w.phase id p
        answers := w.answers ++ more } := by
  refine ⟨h.current, h.readable, h.once, fun id' => ?_, fun a ha => ?_, h.printed⟩
  · show (Function.update w.phase id p id').Sound id' w.log
    by_cases hid' : id' = id
    · rw [hid', Function.update_self]
      exact hp
    · rw [Function.update_of_ne hid']
      exact h.phases id'
  · exact (List.mem_append.1 ha).elim (h.answers a) (hmore a)

theorem Sound.turned (h : Sound cacheSibling earlier boundary w) (id : String) (mint : Mint) :
    Sound cacheSibling earlier boundary (w.turned id mint) := by
  cases hp : w.phase id with
  | idle =>
    unfold World.turned
    rw [hp]
    exact h
  | parking call read => exact h.parks hp mint
  | reading call =>
    have hphase := h.phases id
    rw [hp] at hphase
    obtain ⟨r, hr⟩ := endedBy_of_readable h.readable id
    have hdue := due_of_endedBy hr
    unfold World.turned
    rw [hp]
    dsimp only
    rw [hr]
    cases r with
    | some res =>
      refine h.moves id (p := .idle) True.intro [_] w.stepping fun a ha => ?_
      rw [List.mem_singleton.1 ha]
      exact ⟨List.prefix_rfl, hdue.symm, fun hparked => by cases hparked⟩
    | none =>
      dsimp only
      cases hrecorded : isRecorded (slice w.log) id with
      | true =>
        refine h.moves id (p := .idle) True.intro [_] w.stepping fun a ha => ?_
        rw [List.mem_singleton.1 ha]
        refine ⟨List.prefix_rfl, hdue.symm, fun _ hnone => ?_⟩
        rw [requested_eq_nil.1 hnone] at hrecorded
        cases hrecorded
      | false =>
        have hmoved := h.moves id (p := .parking call w.log)
          ⟨hphase, List.prefix_rfl, requested_eq_nil.2 hrecorded, hdue⟩ [] w.stepping
          fun a ha => by cases ha
        rw [List.append_nil] at hmoved
        exact hmoved

theorem Sound.ended (h : Sound cacheSibling earlier boundary w) :
    Sound cacheSibling earlier boundary w.ended :=
  ⟨h.current, h.readable, h.once, fun _ => True.intro, h.answers, h.printed⟩

theorem Sound.step (h : Sound cacheSibling earlier boundary w) (a : Act α) :
    Sound cacheSibling earlier boundary (World.step cacheSibling w a) := by
  cases a with
  | record events => exact h.record events
  | start =>
    unfold World.step
    dsimp only
    split
    · exact h
    · exact ⟨h.current, h.readable, h.once, fun _ => True.intro, h.answers, h.printed⟩
  | call call =>
    unfold World.step
    dsimp only
    split
    · have hmoved := h.moves call.req.id (p := .reading call) rfl [] w.stepping
        fun a ha => by cases ha
      rw [List.append_nil] at hmoved
      exact hmoved
    · exact h
  | turn id mint => exact h.turned id mint
  | kill => exact h.ended
  | finish pass =>
    unfold World.step
    dsimp only
    split
    · refine ⟨h.current, h.readable, h.once, fun _ => True.intro, h.answers, fun p hp => ?_⟩
      rcases List.mem_append.1 hp with hp | hp
      · exact h.printed p hp
      · obtain ⟨s, hs, hrest⟩ := Option.bind_eq_some_iff.1 (Option.mem_toList.1 hp)
        obtain ⟨hung, hhung, rfl⟩ := Option.map_eq_some_iff.1 hrest
        exact ⟨List.prefix_rfl, hs, hhung⟩
    · exact h

/-! ## A taken call is answered -/

/-- The acts that end a step process, and with it the calls it has taken. -/
def Act.ends : Act α → Bool
  | .finish _ => true
  | .kill => true
  | _ => false

def Act.isTurnOf (id : String) : Act α → Bool
  | .turn id' _ => id' == id
  | _ => false

/-- The store calls an open call has still to make. -/
def Phase.left : Phase → Nat
  | .idle => 0
  | .reading _ => 2
  | .parking _ _ => 1

/-- A call of the id is open, which was taken over the log `since`. -/
structure Open (id : String) (since : List Event) (w : World α) : Prop where
  stepping : w.stepping = true
  log : since <+: w.log
  phase : w.phase id ≠ .idle
  read : ∀ call log, w.phase id = .parking call log → since <+: log

theorem Open.of_phase (hstepping : w.stepping = true) (hlog : since <+: w.log) (hp : w.phase id = p)
    (hopen : p ≠ .idle) (hread : ∀ call log, p = .parking call log → since <+: log) :
    Open id since w :=
  ⟨hstepping, hlog, hp ▸ hopen, fun call log h => hread call log (hp.symm.trans h)⟩

theorem turned_grows (w : World α) (id : String) (mint : Mint) :
    w.log <+: (w.turned id mint).log ∧ w.answers <+: (w.turned id mint).answers := by
  unfold World.turned
  split
  · exact ⟨List.prefix_rfl, List.prefix_rfl⟩
  · split
    · exact ⟨List.prefix_rfl, List.prefix_append _ _⟩
    · exact ⟨List.prefix_rfl, List.prefix_append _ _⟩
    · split
      · exact ⟨List.prefix_rfl, List.prefix_append _ _⟩
      · exact ⟨List.prefix_rfl, List.prefix_rfl⟩
  · exact ⟨List.prefix_append _ _, List.prefix_append _ _⟩

theorem turned_phase (w : World α) {id' : String} (hid : id ≠ id') (mint : Mint) :
    (w.turned id' mint).phase id = w.phase id := by
  unfold World.turned
  split
  · rfl
  · split
    · exact Function.update_of_ne hid _ _
    · exact Function.update_of_ne hid _ _
    · split
      · exact Function.update_of_ne hid _ _
      · exact Function.update_of_ne hid _ _
  · exact Function.update_of_ne hid _ _

theorem turned_stepping (w : World α) (id : String) (mint : Mint) :
    (w.turned id mint).stepping = w.stepping := by
  unfold World.turned
  split
  · rfl
  · split
    · rfl
    · rfl
    · split <;> rfl
  · rfl

variable (cacheSibling) in
theorem answers_step (w : World α) (a : Act α) :
    w.answers <+: (World.step cacheSibling w a).answers := by
  cases a with
  | record events => exact List.prefix_rfl
  | start =>
    unfold World.step
    dsimp only
    split <;> exact List.prefix_rfl
  | call call =>
    unfold World.step
    dsimp only
    split <;> exact List.prefix_rfl
  | turn id mint => exact (turned_grows w id mint).2
  | finish pass =>
    unfold World.step
    dsimp only
    split <;> exact List.prefix_rfl
  | kill => exact List.prefix_rfl

/-- A store call of an open call answers it, with a log no older than the one it was taken over, or
leaves it one fewer. -/
theorem Open.turn (h : Open id since w) (mint : Mint) :
    (∃ x : Answered, (w.turned id mint).answers = w.answers ++ [x] ∧ x.id = id ∧ since <+: x.log) ∨
      Open id since (w.turned id mint) ∧
        ((w.turned id mint).phase id).left + 1 ≤ (w.phase id).left := by
  cases hp : w.phase id with
  | idle => exact absurd hp h.phase
  | parking call log =>
    unfold World.turned
    rw [hp]
    exact Or.inl ⟨_, rfl, rfl, h.read call log hp⟩
  | reading call =>
    unfold World.turned
    rw [hp]
    dsimp only
    split
    · exact Or.inl ⟨_, rfl, rfl, h.log⟩
    · exact Or.inl ⟨_, rfl, rfl, h.log⟩
    · split
      · exact Or.inl ⟨_, rfl, rfl, h.log⟩
      · have hself := Function.update_self id (Phase.parking call w.log) w.phase
        refine Or.inr ⟨.of_phase h.stepping h.log hself nofun fun call' log hparking => ?_, ?_⟩
        · cases hparking
          exact h.log
        · show (Function.update w.phase id (.parking call w.log) id).left + 1 ≤ 2
          rw [hself]
          exact Nat.le_refl _

variable (cacheSibling) in
theorem Open.other (h : Open id since w) {a : Act α} (hends : a.ends = false)
    (hturn : a.isTurnOf id = false) :
    Open id since (World.step cacheSibling w a) ∧
      (World.step cacheSibling w a).phase id = w.phase id := by
  cases a with
  | record events =>
    exact ⟨⟨h.stepping, h.log.trans (List.prefix_append _ _), h.phase, h.read⟩, rfl⟩
  | start =>
    unfold World.step
    dsimp only
    rw [if_pos h.stepping]
    exact ⟨h, rfl⟩
  | call call =>
    unfold World.step
    dsimp only
    split
    · next hidle =>
      have hid : id ≠ call.req.id := fun heq => h.phase (heq ▸ hidle)
      have hkept : Function.update w.phase call.req.id (.reading call) id = w.phase id :=
        Function.update_of_ne hid _ _
      exact ⟨.of_phase h.stepping h.log hkept h.phase h.read, hkept⟩
    · exact ⟨h, rfl⟩
  | turn id' mint =>
    have hid : id ≠ id' := fun heq => by simp [Act.isTurnOf, heq] at hturn
    have hkept := turned_phase w hid mint
    refine ⟨⟨?_, h.log.trans (turned_grows w id' mint).1, ?_, fun call log hparking => ?_⟩, hkept⟩
    · exact (turned_stepping w id' mint).trans h.stepping
    · exact fun hidle => h.phase (hkept.symm.trans hidle)
    · exact h.read call log (hkept.symm.trans hparking)
  | finish pass => cases hends
  | kill => cases hends

variable (cacheSibling) in
/-- An open call is answered by its turns, whatever lands between them. -/
theorem Open.answered (h : Open id since w) {acts : List (Act α)}
    (hends : ∀ a ∈ acts, a.ends = false)
    (hturns : (w.phase id).left ≤ acts.countP fun a => a.isTurnOf id) :
    ∃ news, (run (World.step cacheSibling) w acts).answers = w.answers ++ news ∧
      ∃ a ∈ news, a.id = id ∧ since <+: a.log := by
  induction acts generalizing w with
  | nil =>
    refine absurd ?_ h.phase
    cases hp : w.phase id with
    | idle => rfl
    | reading call => simp [hp, Phase.left] at hturns
    | parking call log => simp [hp, Phase.left] at hturns
  | cons act acts ih =>
    have hrest : ∀ a ∈ acts, a.ends = false := fun a ha => hends a (List.mem_cons_of_mem _ ha)
    obtain ⟨first, hfirst⟩ := answers_step cacheSibling w act
    rw [List.countP_cons] at hturns
    have hon : Open id since (World.step cacheSibling w act) →
        ((World.step cacheSibling w act).phase id).left ≤ acts.countP (fun a => a.isTurnOf id) →
        ∃ news, (run (World.step cacheSibling) w (act :: acts)).answers = w.answers ++ news ∧
          ∃ a ∈ news, a.id = id ∧ since <+: a.log := by
      intro hopen hleft
      obtain ⟨news, hnews, a, ha, hid, hread⟩ := ih hopen hrest hleft
      rw [← hfirst, List.append_assoc] at hnews
      exact ⟨first ++ news, hnews, a, List.mem_append_right _ ha, hid, hread⟩
    cases hturn : act.isTurnOf id with
    | false =>
      obtain ⟨hopen, hphase⟩ := h.other cacheSibling (hends act List.mem_cons_self) hturn
      refine hon hopen ?_
      rw [hphase]
      simpa [hturn] using hturns
    | true =>
      rw [hturn, if_pos rfl] at hturns
      unfold Act.isTurnOf at hturn
      split at hturn
      · next id' mint =>
        obtain rfl := beq_iff_eq.1 hturn
        rcases h.turn mint with ⟨x, hx, hid, hread⟩ | ⟨hopen, hleft⟩
        · have hgrows : (World.step cacheSibling w (.turn id' mint)).answers <+:
              (run (World.step cacheSibling) w (.turn id' mint :: acts)).answers :=
            run_invariant (I := fun v : World α =>
                (World.step cacheSibling w (.turn id' mint)).answers <+: v.answers)
              (fun v a hv => hv.trans (answers_step cacheSibling v a)) List.prefix_rfl acts
          obtain ⟨later, hlater⟩ := hgrows
          refine ⟨x :: later, ?_, x, List.mem_cons_self, hid, hread⟩
          rw [← hlater]
          show (w.turned id' mint).answers ++ later = _
          rw [hx, List.append_assoc]
          rfl
        · exact hon hopen (by
            show ((w.turned id' mint).phase id').left ≤ _
            omega)
      · cases hturn

end

end Rigger.Replay
