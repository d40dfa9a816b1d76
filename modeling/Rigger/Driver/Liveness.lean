import Rigger.Domain.Hold
import Rigger.Domain.Spawns
import Rigger.Lib.Merge
import Rigger.Lib.Silence

/-!
# What the liveness sweep judges (`rigger-driver/src/liveness.rs`)

A spawn of the run's slice is hung when its request carries a positive bound, no result of it is
recorded and its marker has been silent outside the run's holds for longer than the bound
(`mem_judged`).  The sweep judges each spawn once (`judged_nodup`).
-/

namespace Rigger.Liveness

open Lib Ledger Spawn

@[irreducible] def second : Int := 1000000000

theorem second_pos : 0 < second := by
  unfold second
  omega

/-! ## Silent time -/

def supervisedBeatGap : Int := 90 * second

def unwatched (from_ to_ : SystemTime) : Bool := decide (supervisedBeatGap < elapsed from_ to_)

/-- The stretches no supervisor watched. -/
def unsupervised (lastLine now : SystemTime) (beats : List SystemTime) : List Span :=
  let marks := beats ++ [now]
  let gaps := (marks.zip marks.tail).filter fun pair => unwatched pair.1 pair.2
  ⟨lastLine, marks.headD now⟩ :: gaps.map fun pair => ⟨pair.1, pair.2⟩

def silentTime (lastLine now : SystemTime) (holds retries : List Span)
    (beats : Option (List SystemTime)) : Int :=
  let excused := holds ++ retries ++ (beats.map (unsupervised lastLine now)).getD []
  let excused := excused.filter fun span => decide (span.start < span.stop)
  outside (excused.insertionSort fun a b => a.start ≤ b.start) lastLine now

/-- A run's holds as spans; an open one lasts until `now`. -/
def holdIntervals (events : List Event) (now : SystemTime) : List Span :=
  (holds events).map fun hold => ⟨hold.since, (hold.release.map HoldRelease.at_).getD now⟩

def pastBound (silent bound : Int) : Bool := bound ≠ 0 && decide (bound < silent)

/-! ## Judgment -/

def metaMarkerRoot : String := "marker_root"

/-- `recorded`: the last request of each id; one malformed body fails the read. -/
def recorded (events : List Event) : Option (Std.ExtTreeMap String Request) :=
  (requests events).map fun reqs => collect (reqs.map fun req => (req.id, req))

/-- `marker_roots`: the scratch root each spawn's last request recorded. -/
def markerRoots (events : List Event) : Option (Std.ExtTreeMap String String) :=
  (events.filter fun e => e.type_ == typeSpawnRequested).foldlM (fun roots e => do
    let [id] ← (← e.data.value).slots ["id"] | none
    let id ← Json.required Json.asStr id
    pure (match e.meta_[metaMarkerRoot]? with
      | some root => roots.insert id root
      | none => roots.erase id)) ∅

/-- The scratch roots on disk: when the marker of a spawn of a run was touched, if there is one. -/
abbrev Markers := String → String → String → Option SystemTime

structure InFlightSpawn where
  id : String
  unit : String
  lastSeen : SystemTime
  maxWallClock : Int
deriving DecidableEq

structure StaleSpawn where
  id : String
  unit : String
  cls : String
  silentFor : Int
deriving DecidableEq

/-- `classify_stale`, over the class the taxonomy gives a hung spawn. -/
def classifyStale (inFlight : List InFlightSpawn) (cls : String) (now : SystemTime)
    (holds : List Span) : List StaleSpawn :=
  inFlight.filterMap fun s =>
    let silentFor := silentTime s.lastSeen now holds [] none
    if pastBound silentFor s.maxWallClock then some ⟨s.id, s.unit, cls, silentFor⟩ else none

section
variable (markers : Markers) (scratchRoot runId cls : String) (now : SystemTime)

/-- `MarkerRoots::touched_at`. -/
def touchedAt (roots : Std.ExtTreeMap String String) (id : String) : Option SystemTime :=
  markers (roots[id]?.getD scratchRoot) runId id

/-- A request the sweep takes to be in flight: bounded, unanswered and with a marker. -/
def inFlightOf (events : List Event) (roots : Std.ExtTreeMap String String) (req : Request) :
    Option (Option InFlightSpawn) :=
  match req.maxWallClock with
  | none => some none
  | some secs =>
    if 0 < secs then
      (resultOf events req.id).map fun res =>
        if res.isSome then none
        else (touchedAt markers scratchRoot runId roots req.id).map fun lastSeen =>
          ⟨req.id, req.unit, lastSeen, secs * second⟩
    else some none

/-- The spawns `sweep` finds stale before it writes; none where a body cannot be read. -/
def judged (events : List Event) : Option (List StaleSpawn) := do
  let requested ← recorded events
  let roots ← markerRoots events
  let inFlight ← (requested.toList.map Prod.snd).mapM
    (inFlightOf markers scratchRoot runId events roots)
  pure (classifyStale (inFlight.filterMap id) cls now (holdIntervals events now))

/-- `stale_result_message`, over the debug format of a string. -/
def staleResultMessage (debug : String → String) (s : StaleSpawn) : String :=
  "spawn " ++ debug s.id ++ " (unit " ++ debug s.unit ++
    ") hung: its liveness marker stayed silent for " ++ toString (s.silentFor / second) ++
    "s outside any hold, past its max_wall_clock, classified " ++ s.cls ++
    " - no remediation attempt is charged (the unit's code is not at fault). Re-drive it once the "
    ++
    "agent/driver is healthy: record a real result with `rigger result " ++ s.id ++
    "` (last-write-wins supersedes this liveness fault)."

/-- `SpawnResult::liveness_fault` of a stale spawn. -/
def livenessFault (debug : String → String) (s : StaleSpawn) : Result :=
  ⟨s.id, "", staleResultMessage debug s, .obj [(metaLivenessClass, .str s.cls)]⟩

end

/-! ## What is judged -/

/-- The walk's time is that of the moments no span excuses. -/
theorem silentTime_eq (lastLine now : SystemTime) (holds retries : List Span)
    (beats : Option (List SystemTime)) : silentTime lastLine now holds retries beats =
      (uncovered (holds ++ retries ++ (beats.map (unsupervised lastLine now)).getD [])
        lastLine now).ncard := by
  obtain ⟨spans, hspans⟩ : ∃ spans, spans =
      holds ++ retries ++ (beats.map (unsupervised lastLine now)).getD [] := ⟨_, rfl⟩
  obtain ⟨excused, hexcused⟩ : ∃ excused, excused =
      (spans.filter fun s : Span => decide (s.start < s.stop)).insertionSort
        fun a b : Span => a.start ≤ b.start := ⟨_, rfl⟩
  have hmem : ∀ s, s ∈ excused ↔ s ∈ spans ∧ s.start < s.stop := by
    intro s
    rw [hexcused, List.mem_insertionSort, List.mem_filter, decide_eq_true_eq]
  have hsame : uncovered excused lastLine now = uncovered spans lastLine now := by
    ext t
    rw [mem_uncovered, mem_uncovered]
    refine and_congr_right fun _ => ⟨fun h s hs hcovers => ?_, fun h s hs => h s ((hmem s).1 hs).1⟩
    have hspan : s.start ≤ t ∧ t < s.stop := hcovers
    exact h s ((hmem s).2 ⟨hs, by omega⟩) hcovers
  have hsorted : excused.Pairwise fun a b => a.start ≤ b.start :=
    hexcused ▸ sorted_insertionSort Span.start _
  have houtside : outside excused lastLine now = (uncovered excused lastLine now).ncard :=
    outside_eq (fun s hs => ((hmem s).1 hs).2) hsorted lastLine
  rw [hsame, hexcused, hspans] at houtside
  exact houtside

theorem silentTime_holds (lastLine now : SystemTime) (holds : List Span) :
    silentTime lastLine now holds [] none = (uncovered holds lastLine now).ncard := by
  have h := silentTime_eq lastLine now holds [] none
  rw [Option.map_none, Option.getD_none, List.append_nil, List.append_nil] at h
  exact h

/-- The last request of an id. -/
def requestFor (id : String) (events : List Event) : Option Request :=
  latest (fun e => (requestOf e).filter fun req => req.id = id) events

theorem getElem?_recorded {events : List Event} {requested : Std.ExtTreeMap String Request}
    (h : recorded events = some requested) (id : String) :
    requested[id]? = requestFor id events := by
  obtain ⟨reqs, hreqs, rfl⟩ := Option.map_eq_some_iff.1 h
  unfold requests at hreqs
  split at hreqs
  · cases hreqs
  · cases hreqs
    rw [getElem?_collect, latest_map, latest_filterMap]
    refine latest_congr fun e _ => ?_
    cases hreq : requestOf e with
    | none => rfl
    | some req =>
      by_cases hid : req.id = id
      · simp [hid, Option.filter_some]
      · simp [hid, Option.filter_some]

theorem requestFor_id {id : String} {events : List Event} {req : Request}
    (h : requestFor id events = some req) : req.id = id := by
  obtain ⟨-, e, -, -, he, -⟩ := (latest_eq_some_iff _ _ _).1 h
  exact of_decide_eq_true (Option.filter_eq_some_iff.1 he).2

section
variable {markers : Markers} {scratchRoot runId cls : String} {now : SystemTime}
  {events : List Event}

/-- A hung spawn of a slice: its last request carries a positive bound, no result of it is recorded,
and outside the run's holds its marker has been silent for longer. -/
def Hung (markers : Markers) (scratchRoot runId cls : String) (now : SystemTime)
    (events : List Event) (x : StaleSpawn) : Prop :=
  ∃ req secs roots lastSeen, requestFor x.id events = some req ∧ req.unit = x.unit ∧
    req.maxWallClock = some secs ∧ 0 < secs ∧ resultOf events x.id = some none ∧
    markerRoots events = some roots ∧
    touchedAt markers scratchRoot runId roots x.id = some lastSeen ∧
    x.silentFor = (uncovered (holdIntervals events now) lastSeen now).ncard ∧
    secs * second < x.silentFor ∧ x.cls = cls

theorem mem_classifyStale {inFlight : List InFlightSpawn} {holds : List Span} {x : StaleSpawn} :
    x ∈ classifyStale inFlight cls now holds ↔ ∃ s ∈ inFlight,
      pastBound (silentTime s.lastSeen now holds [] none) s.maxWallClock = true ∧
        x = ⟨s.id, s.unit, cls, silentTime s.lastSeen now holds [] none⟩ := by
  unfold classifyStale
  rw [List.mem_filterMap]
  refine exists_congr fun s => and_congr_right fun _ => ?_
  dsimp only
  rw [Option.ite_none_right_eq_some, Option.some.injEq, eq_comm (b := x)]

theorem inFlightOf_eq_some {roots : Std.ExtTreeMap String String} {req : Request}
    {s : InFlightSpawn} :
    inFlightOf markers scratchRoot runId events roots req = some (some s) ↔
      ∃ secs, req.maxWallClock = some secs ∧ 0 < secs ∧ resultOf events req.id = some none ∧
        ∃ lastSeen, touchedAt markers scratchRoot runId roots req.id = some lastSeen ∧
          s = ⟨req.id, req.unit, lastSeen, secs * second⟩ := by
  unfold inFlightOf
  cases hbound : req.maxWallClock with
  | none => simp
  | some secs =>
    by_cases hsecs : 0 < secs
    · cases hres : resultOf events req.id with
      | none => simp [hsecs]
      | some res =>
        cases res with
        | some res => simp [hsecs]
        | none =>
          dsimp only
          rw [if_pos hsecs]
          constructor
          · intro h
            obtain ⟨lastSeen, htouched, rfl⟩ := Option.map_eq_some_iff.1 (Option.some.inj h)
            exact ⟨secs, rfl, hsecs, rfl, lastSeen, htouched, rfl⟩
          · rintro ⟨secs', heq, -, -, lastSeen, htouched, rfl⟩
            cases heq
            show some ((touchedAt markers scratchRoot runId roots req.id).map _) = _
            rw [htouched]
            rfl
    · dsimp only
      rw [if_neg hsecs]
      simp only [Option.some.injEq, reduceCtorEq, false_iff]
      rintro ⟨secs', rfl, hpos, -⟩
      exact hsecs hpos

theorem map_filterMap_sublist {α β γ : Type} {f : α → Option β} {g : β → γ} {k : α → γ}
    (h : ∀ x y, f x = some y → g y = k x) (l : List α) : ((l.filterMap f).map g).Sublist
    (l.map k) := by
  induction l with
  | nil => exact List.Sublist.slnil
  | cons x l ih =>
    cases hx : f x with
    | none =>
      rw [List.filterMap_cons_none hx]
      exact ih.cons _
    | some y =>
      rw [List.filterMap_cons_some hx, List.map_cons, List.map_cons, h x y hx]
      exact ih.cons_cons _

section
variable {stale : List StaleSpawn}
  (h : judged markers scratchRoot runId cls now events = some stale)
include h

theorem judged_eq_some : ∃ requested roots, ∃ inFlight : List (Option InFlightSpawn),
    recorded events = some requested ∧
    markerRoots events = some roots ∧
    (requested.toList.map Prod.snd).map (inFlightOf markers scratchRoot runId events roots) =
      inFlight.map some ∧
    stale = classifyStale (inFlight.filterMap id) cls now (holdIntervals events now) := by
  unfold judged at h
  simp only [Option.bind_eq_bind, Option.bind_eq_some_iff] at h
  obtain ⟨requested, hrequested, roots, hroots, inFlight, hinFlight, hstale⟩ := h
  exact ⟨requested, roots, inFlight, hrequested, hroots, mapM_eq_some_iff.1 hinFlight,
    (Option.some.inj hstale).symm⟩

theorem mem_judged (x : StaleSpawn) : x ∈ stale ↔
    Hung markers scratchRoot runId cls now events x := by
  obtain ⟨requested, roots, inFlight, hrequested, hroots, hinFlight, rfl⟩ := judged_eq_some h
  have hmem : ∀ s, s ∈ inFlight.filterMap id ↔ ∃ req, requestFor req.id events = some req ∧
      inFlightOf markers scratchRoot runId events roots req = some (some s) := by
    intro s
    have hsome : s ∈ inFlight.filterMap id ↔ some (some s) ∈ inFlight.map some := by
      rw [List.mem_filterMap, List.mem_map]
      constructor
      · rintro ⟨o, ho, rfl⟩
        exact ⟨some s, ho, rfl⟩
      · rintro ⟨o, ho, heq⟩
        cases heq
        exact ⟨some s, ho, rfl⟩
    rw [hsome, ← hinFlight, List.mem_map]
    constructor
    · rintro ⟨req, hreq, heq⟩
      obtain ⟨⟨k, req'⟩, hpair, rfl⟩ := List.mem_map.1 hreq
      have hlookup := Std.ExtTreeMap.mem_toList_iff_getElem?_eq_some.1 hpair
      rw [getElem?_recorded hrequested] at hlookup
      exact ⟨req', by rw [requestFor_id hlookup]; exact hlookup, heq⟩
    · rintro ⟨req, hlookup, heq⟩
      rw [← getElem?_recorded hrequested] at hlookup
      exact ⟨req, List.mem_map.2 ⟨(req.id, req),
        Std.ExtTreeMap.mem_toList_iff_getElem?_eq_some.2 hlookup, rfl⟩, heq⟩
  rw [mem_classifyStale]
  constructor
  · rintro ⟨s, hs, hpast, rfl⟩
    obtain ⟨req, hreq, heq⟩ := (hmem s).1 hs
    obtain ⟨secs, hbound, hsecs, hres, lastSeen, htouched, rfl⟩ := inFlightOf_eq_some.1 heq
    rw [silentTime_holds] at hpast ⊢
    refine ⟨req, secs, roots, lastSeen, hreq, rfl, hbound, hsecs, hres, hroots,
      htouched, rfl, ?_, rfl⟩
    exact of_decide_eq_true (Bool.and_eq_true_iff.1 hpast).2
  · rintro ⟨req, secs, roots', lastSeen, hreq, hunit, hbound, hsecs, hres, hroots',
      htouched, hsilent,
      hpast, hcls⟩
    rw [hroots] at hroots'
    cases hroots'
    have hid := requestFor_id hreq
    refine ⟨⟨req.id, req.unit, lastSeen, secs * second⟩,
      (hmem _).2 ⟨req, by rw [hid]; exact hreq, ?_⟩,
      ?_, ?_⟩
    · refine inFlightOf_eq_some.2 ⟨secs, hbound, hsecs, by rw [hid]; exact hres, lastSeen, ?_, rfl⟩
      rw [hid]
      exact htouched
    · rw [silentTime_holds, ← hsilent]
      have hpos : (0 : Int) < secs * second := Int.mul_pos (by omega) second_pos
      exact Bool.and_eq_true_iff.2 ⟨decide_eq_true (Int.ne_of_gt hpos), decide_eq_true hpast⟩
    · rw [silentTime_holds, ← hsilent, hid, hunit, ← hcls]

theorem judged_nodup : (stale.map StaleSpawn.id).Nodup := by
  obtain ⟨requested, roots, inFlight, hrequested, -, hinFlight, rfl⟩ := judged_eq_some h
  have hkeys : (requested.toList.map fun p => p.2.id).Nodup := by
    have hsame : requested.toList.map (fun p => p.2.id) = requested.toList.map Prod.fst := by
      refine List.map_congr_left fun p hp => ?_
      have hlookup := Std.ExtTreeMap.mem_toList_iff_getElem?_eq_some.1 hp
      rw [getElem?_recorded hrequested] at hlookup
      exact requestFor_id hlookup
    rw [hsame]
    refine List.pairwise_map.2 (requested.distinct_keys_toList.imp fun {a b} hab heq => hab ?_)
    rw [heq]
    exact Std.ReflCmp.compare_self
  have hjoin : inFlight.filterMap id = (requested.toList.map Prod.snd).filterMap fun req =>
      (inFlightOf markers scratchRoot runId events roots req).join := by
    have hmap : (inFlight.map some).filterMap Option.join = inFlight.filterMap id := by
      rw [List.filterMap_map]
      rfl
    rw [← hmap, ← hinFlight, List.filterMap_map]
    rfl
  have hreqs : ((inFlight.filterMap id).map InFlightSpawn.id).Sublist
      ((requested.toList.map Prod.snd).map Request.id) := by
    rw [hjoin]
    refine map_filterMap_sublist (fun req s hs => ?_) _
    obtain ⟨-, -, -, -, lastSeen, -, rfl⟩ := inFlightOf_eq_some.1 (Option.join_eq_some_iff.1 hs)
    rfl
  have hstale : ((classifyStale (inFlight.filterMap id) cls now (holdIntervals events now)).map
      StaleSpawn.id).Sublist ((inFlight.filterMap id).map InFlightSpawn.id) := by
    refine map_filterMap_sublist (fun s x hx => ?_) _
    obtain ⟨-, heq⟩ := Option.ite_none_right_eq_some.1 hx
    cases heq
    rfl
  rw [List.map_map] at hreqs
  exact hkeys.sublist (hstale.trans hreqs)

end

end

end Rigger.Liveness
