import Rigger.Driver.Liveness
import Rigger.Store.Conditional

/-!
# The liveness sweep (`rigger-driver/src/liveness.rs`)

The sweep judges the run's slice it was handed and records a liveness fault on each stale spawn, one
conditional write after another, while other processes append anything to the log.  As long as
nobody starts a run or records a result of a spawn still to be written, every fault lands in the run
that was judged, on a spawn with no result, and the spawns answered are those whose fault was
recorded (`sweep_faults`).  A write that appends nothing is answered like one that does, and a fault
decided after a boundary lands in the next run (`sweep_overtaken`).
-/

namespace Rigger.Liveness

open Lib Spawn Conditional

/-- The sweep over its store calls and the appends of others.  A write has been made for each
outcome of `world`, in the order of the stale spawns. -/
structure Sweep where
  world : World Unit
  failed : Bool

/-- `fail` is a store call of the sweep that fails. -/
inductive Act where
  | record (on : String) (events : List Event) (now : SystemTime)
  | turn (now : SystemTime)
  | fail

namespace Sweep

def new (store : Store) : Sweep := ⟨⟨store, fun _ => .idle, fun _ => [], []⟩, false⟩

/-- The writes made. -/
def made (s : Sweep) : Nat := s.world.outcomes.length

section
variable (debug : String → String) (stale : List StaleSpawn) (mints : Nat → Mint)

/-- `record_result_if_absent` of the stale spawn the sweep is at. -/
def write (n : Nat) : Option Conditional.Call :=
  stale[n]?.map fun x => .ifAbsent (livenessFault debug x) (mints n)

/-- A write that ends without an answer ends the sweep. -/
def step (s : Sweep) : Act → Sweep
  | .record on events now => { s with world := Conditional.step s.world (.record on events now) }
  | .turn now =>
    match write debug stale mints s.made with
    | none => s
    | some call =>
      if s.failed then s
      else
        match s.world.phase () with
        | .idle => { s with world := Conditional.step s.world (.start () call) }
        | _ =>
          let world := Conditional.step s.world (.turn () now)
          ⟨world, (world.phase ()).call?.isNone && world.outcomes.length == s.made⟩
  | .fail =>
    match write debug stale mints s.made with
    | none => s
    | some _ => ⟨Conditional.step s.world (.fail ()), true⟩

/-- What `sweep` answers once it has returned. -/
def answer (s : Sweep) : Option (List StaleSpawn) :=
  if s.failed = false ∧ s.made = stale.length then some stale else none

/-- The spawns whose fault it recorded. -/
def recordedBy (s : Sweep) : List StaleSpawn :=
  ((stale.zip s.world.outcomes).filter fun p => p.2.isAppended).map Prod.fst

/-- Until the last write nobody starts a run, or records a result of a spawn still to be written. -/
def Quiet (s : Sweep) : Act → Prop
  | .record on events _ => on = stream → s.made < stale.length → ∀ e ∈ events,
      isRunStarted e = false ∧ ∀ r, resultIn e = some r → ∀ x ∈ stale.drop s.made, r.id ≠ x.id
  | _ => True

end

/-! ## The invariant -/

section
variable {debug : String → String} {stale : List StaleSpawn} {mints : Nat → Mint} {handed : Store}
  {s : Sweep}

/-- A result of a spawn that is still to be written from write `n` on. -/
def Answers (stale : List StaleSpawn) (n : Nat) (e : Event) : Prop :=
  ∃ r, resultIn e = some r ∧ ∃ x ∈ stale.drop n, r.id = x.id

structure Sound (debug : String → String) (stale : List StaleSpawn) (mints : Nat → Mint)
    (handed : Store) (s : Sweep) : Prop where
  base : s.world.Inv
  writing : ∀ call, (s.world.phase ()).call? = some call →
    write debug stale mints s.made = some call
  quiet : s.made < stale.length → ∃ more, s.world.log = handed.log stream ++ more ∧
    ∀ e ∈ more, isRunStarted e = false ∧ ¬Answers stale s.made e
  moments : (s.world.phase ()).call?.isSome = true →
    ∀ m ∈ s.world.moments (), handed.log stream <+: m
  recorded : ∀ i o, s.world.outcomes[i]? = some o → ∃ x log ev, stale[i]? = some x ∧
    o = Outcome.appended (.ifAbsent (livenessFault debug x) (mints i)) log ev ∧
    slice (handed.log stream) <+: slice log

variable {n : Nat} {x : StaleSpawn}

theorem write_eq_some {call : Conditional.Call} (h : write debug stale mints n = some call) :
    n < stale.length ∧ ∃ x, stale[n]? = some x ∧
      call = .ifAbsent (livenessFault debug x) (mints n) := by
  obtain ⟨x, hx, rfl⟩ := Option.map_eq_some_iff.1 h
  exact ⟨(List.getElem?_eq_some_iff.1 hx).1, x, hx, rfl⟩

theorem Sound.start (h : handed.Ordered) : Sound debug stale mints handed (new handed) := by
  refine ⟨⟨h, fun _ => True.intro, ?_⟩, ?_, fun _ => ⟨[], (List.append_nil _).symm, ?_⟩, ?_, ?_⟩
  · intro o ho
    cases ho
  · intro call hcall
    cases hcall
  · intro e he
    cases he
  · intro hcall
    cases hcall
  · intro i o ho
    cases ho

theorem Sound.record (h : Sound debug stale mints handed s) {on : String} {events : List Event}
    {now : SystemTime} (hquiet : Quiet stale s (.record on events now)) :
    Sound debug stale mints handed (s.step debug stale mints (.record on events now)) := by
  obtain ⟨landed, hlog, hlanded⟩ := log_record h.base.ordered on events now
  have hnew : s.made < stale.length → ∀ e ∈ landed, isRunStarted e = false ∧
      ¬Answers stale s.made e := by
    intro hmade e he
    obtain ⟨hon, x, hx, htype, hdata⟩ := hlanded e he
    obtain ⟨hstarted, hresult⟩ := hquiet hon hmade x hx
    refine ⟨(isRunStarted_congr htype).trans hstarted, ?_⟩
    rintro ⟨r, hr, y, hy, hid⟩
    rw [resultIn_congr htype hdata] at hr
    exact hresult r hr y hy hid
  have hbounded : Bounded s.world (.record on events now) := by
    rintro ⟨⟩ call hcall
    rw [hlog]
    exact landed_of_not_started fun e he => (hnew (write_eq_some (h.writing call hcall)).1 e he).1
  refine ⟨h.base.step hbounded, h.writing, fun hmade => ?_, fun hcall m hm => ?_, h.recorded⟩
  · obtain ⟨more, hmore, hkept⟩ := h.quiet hmade
    refine ⟨more ++ landed, ?_, fun e he => ?_⟩
    · show (s.world.store.exec _).log stream = _
      rw [hlog, show s.world.store.log stream = handed.log stream ++ more from hmore,
        List.append_assoc]
    · exact (List.mem_append.1 he).elim (hkept e) (hnew hmade e)
  · rcases List.mem_append.1 hm with hm | hm
    · exact h.moments hcall m hm
    · obtain ⟨call, hcall⟩ := Option.isSome_iff_exists.1 hcall
      obtain ⟨more, hmore, -⟩ := h.quiet (write_eq_some (h.writing call hcall)).1
      rw [List.mem_singleton.1 hm]
      show handed.log stream <+: (s.world.store.exec _).log stream
      rw [hlog, show s.world.store.log stream = handed.log stream ++ more from hmore,
        List.append_assoc]
      exact List.prefix_append _ _

theorem not_answers_of_written {e : Event} (hnodup : (stale.map StaleSpawn.id).Nodup)
    (hx : stale[n]? = some x) (he : resultIn e = some (livenessFault debug x)) :
    ¬Answers stale (n + 1) e := by
  rintro ⟨r, hr, y, hy, hid⟩
  rw [he] at hr
  cases hr
  obtain ⟨hn, rfl⟩ := List.getElem?_eq_some_iff.1 hx
  have hsplit : stale.map StaleSpawn.id =
      (stale.take n).map StaleSpawn.id ++
      stale[n].id :: (stale.drop (n + 1)).map StaleSpawn.id := by
    rw [← List.map_cons, ← List.map_append, List.cons_getElem_drop_succ, List.take_append_drop]
  rw [hsplit] at hnodup
  have hlate := (List.nodup_cons.1 (List.nodup_append.1 hnodup).2.1).1
  exact hlate (List.mem_map.2 ⟨y, hy, hid.symm⟩)

theorem not_answers_succ {e : Event} (h : ¬Answers stale n e) : ¬Answers stale (n + 1) e := by
  rintro ⟨r, hr, y, hy, hid⟩
  refine h ⟨r, hr, y, ?_, hid⟩
  rw [← List.drop_drop] at hy
  exact List.mem_of_mem_drop hy

/-- In a log that only quiet events landed on, no result stands on the spawn the sweep is at. -/
theorem absent_of_quiet {log more : List Event}
    (hunanswered : ∀ x ∈ stale, ∀ e ∈ slice log, ∀ r, resultIn e = some r → r.id ≠ x.id)
    (hx : stale[n]? = some x) (hmore : ∀ e ∈ more, isRunStarted e = false ∧ ¬Answers stale n e) :
    ∀ e ∈ slice (log ++ more), ∀ r, resultIn e = some r → r.id ≠ x.id := by
  intro e he r hr hid
  obtain ⟨hn, rfl⟩ := List.getElem?_eq_some_iff.1 hx
  rw [slice_landed log fun e he => (hmore e he).1] at he
  rcases List.mem_append.1 he with he | he
  · exact hunanswered _ (List.getElem_mem hn) e he r hr hid
  · refine (hmore e (List.mem_filter.1 he).1).2 ⟨r, hr, _, ?_, hid⟩
    rw [List.drop_eq_getElem_cons hn]
    exact List.mem_cons_self

section
variable (hnodup : (stale.map StaleSpawn.id).Nodup)
  (hunanswered : ∀ x ∈ stale, ∀ e ∈ slice (handed.log stream), ∀ r,
  resultIn e = some r → r.id ≠ x.id)
include hnodup hunanswered

theorem Sound.turned (h : Sound debug stale mints handed s) {call : Conditional.Call}
    {now : SystemTime}
    {failed : Bool} (hcall : (s.world.phase ()).call? = some call) :
    Sound debug stale mints handed ⟨Conditional.step s.world (.turn () now), failed⟩ := by
  have hbase : (Conditional.step s.world (.turn () now)).Inv := h.base.step True.intro
  obtain ⟨hmade, x, hx, rfl⟩ := write_eq_some (h.writing call hcall)
  obtain ⟨more, hlog, hmore⟩ := h.quiet hmade
  have hmoments := h.moments (by rw [hcall]; rfl)
  rcases turned_cases s.world () now with ⟨hstore, houtcomes, hmoms, hphase⟩ |
    ⟨call', carried, head, ev, a, store, hdecided, happend, hturned⟩ | ⟨call', hcall', hturned⟩
  · have hsame : (s.world.turned () now).log = s.world.log := by
      unfold World.log
      rw [hstore]
    refine ⟨hbase, fun call' hcall' => ?_, fun _ => ⟨more, ?_, ?_⟩, fun _ m hm => ?_,
      fun i o ho => ?_⟩
    · show write debug stale mints (s.world.turned () now).outcomes.length = _
      rw [houtcomes]
      exact h.writing call' (hphase call' hcall')
    · exact hsame.trans hlog
    · show ∀ e ∈ more, isRunStarted e = false ∧
        ¬Answers stale (s.world.turned () now).outcomes.length e
      rw [houtcomes]
      exact hmore
    · rcases List.mem_append.1 hm with hm | hm
      · rw [hmoms] at hm
        exact hmoments m hm
      · rw [List.mem_singleton.1 hm, hsame, hlog]
        exact List.prefix_append _ _
    · refine h.recorded i o ?_
      rw [← houtcomes]
      exact ho
  · rw [hdecided] at hcall
    cases hcall
    have hout : (Conditional.step s.world (.turn () now)).outcomes =
        s.world.outcomes ++
        [.appended (.ifAbsent (livenessFault debug x) (mints s.made)) s.world.log ev] := by
      show (s.world.turned () now).outcomes = _
      rw [hturned]
      rfl
    have hidle : (Conditional.step s.world (.turn () now)).phase () = .idle := by
      show (s.world.turned () now).phase () = _
      rw [hturned]
      show Function.update s.world.phase () Phase.idle () = Phase.idle
      exact Function.update_self ..
    have hlin :=
      hbase.linearized (.appended (.ifAbsent (livenessFault debug x) (mints s.made)) s.world.log ev)
      (by rw [hout]; simp)
    have hwritten : ev = resultEvent (mints s.made) (livenessFault debug x) := by
      rcases decision_ifAbsent hlin with ⟨heq, -⟩ | ⟨heq, -⟩
      · exact Option.some.inj heq
      · cases heq
    obtain ⟨landed, hlanded, hkept⟩ := log_append h.base.ordered happend
    refine ⟨hbase, fun call' hcall' => ?_, fun _ => ⟨more ++ landed, ?_, fun e he => ?_⟩,
      fun hcall' => ?_,
      fun i o ho => ?_⟩
    · rw [hidle] at hcall'
      cases hcall'
    · show (s.world.turned () now).log = _
      rw [hturned]
      show store.log stream = _
      rw [hlanded, show s.world.store.log stream = _ from hlog, List.append_assoc]
    · show isRunStarted e = false ∧ ¬Answers stale (s.world.turned () now).outcomes.length e
      have hlen : (s.world.turned () now).outcomes.length = s.made + 1 := by
        have : (s.world.turned () now).outcomes = _ := hout
        rw [this, List.length_append]
        rfl
      rw [hlen]
      rcases List.mem_append.1 he with he | he
      · exact ⟨(hmore e he).1, not_answers_succ (hmore e he).2⟩
      · obtain ⟨-, y, hy, htype, hdata⟩ := hkept e he
        rw [List.mem_singleton.1 hy, hwritten] at htype hdata
        have hread : resultIn e = some (livenessFault debug x) := by
          rw [resultIn_congr htype hdata, resultIn_resultEvent]
        refine ⟨?_, not_answers_of_written hnodup hx hread⟩
        rw [isRunStarted_congr htype]
        rfl
    · rw [hidle] at hcall'
      cases hcall'
    · have ho : (Conditional.step s.world (.turn () now)).outcomes[i]? = some o := ho
      rw [hout] at ho
      by_cases hi : i < s.world.outcomes.length
      · rw [List.getElem?_append_left hi] at ho
        exact h.recorded i o ho
      · rw [List.getElem?_append_right (Nat.le_of_not_lt hi), List.getElem?_singleton] at ho
        obtain ⟨hi', heq⟩ := Option.ite_none_right_eq_some.1 ho
        obtain rfl : i = s.made := by
          unfold made
          omega
        cases heq
        refine ⟨x, _, ev, hx, rfl, ?_⟩
        rw [hlog, slice_landed _ fun e he => (hmore e he).1]
        exact List.prefix_append _ _
  · rw [hcall] at hcall'
    cases hcall'
    have hlin := hbase.linearized (.nothing (.ifAbsent (livenessFault debug x) (mints s.made))
      (s.world.moments ())) (by
        show _ ∈ (s.world.turned () now).outcomes
        rw [hturned]
        exact List.mem_concat_self)
    obtain ⟨m, hm, hnothing⟩ := hlin
    obtain ⟨b, htracked⟩ := (h.base.sound ()).tracked hcall
    obtain ⟨early, hearly⟩ := hmoments m hm
    obtain ⟨late, hlate⟩ := htracked.grown m hm
    have hmem : ∀ e ∈ early, e ∈ more := by
      intro e he
      have hsplit : handed.log stream ++ (early ++ late) = handed.log stream ++ more := by
        rw [← List.append_assoc, hearly, hlate]
        exact hlog
      rw [← List.append_cancel_left hsplit]
      exact List.mem_append_left _ he
    have habsent := absent_of_quiet hunanswered hx fun e he => hmore e (hmem e he)
    rw [hearly] at habsent
    rcases decision_ifAbsent hnothing with ⟨heq, -⟩ | ⟨-, e, he, r, hr, hid⟩
    · cases heq
    · exact absurd hid (habsent e he r hr)

theorem Sound.step (h : Sound debug stale mints handed s) {a : Act} (hquiet : Quiet stale s a) :
    Sound debug stale mints handed (s.step debug stale mints a) := by
  cases a with
  | record on events now => exact h.record hquiet
  | turn now =>
    unfold Sweep.step
    dsimp only
    split
    · exact h
    · rename_i call hwrite
      obtain ⟨hmade, -⟩ := write_eq_some hwrite
      obtain ⟨more, hlog, hmore⟩ := h.quiet hmade
      by_cases hfailed : s.failed = true
      · rw [if_pos hfailed]
        exact h
      · rw [if_neg hfailed]
        cases hphase : s.world.phase () with
        | idle =>
          dsimp only
          have hbase : (Conditional.step s.world (.start () call)).Inv := h.base.step True.intro
          have hstart : Conditional.step s.world (.start () call) =
              { s.world.enter () (.looked call s.world.store) with
                moments := Function.update s.world.moments () [s.world.log] } := by
            unfold Conditional.step
            dsimp only
            rw [hphase]
          have hlooked : (Conditional.step s.world (.start () call)).phase () =
              .looked call s.world.store := by
            rw [hstart]
            show Function.update s.world.phase () (Phase.looked call s.world.store) () = _
            exact Function.update_self ..
          refine ⟨hbase, fun call' hcall' => ?_, fun _ => ⟨more, ?_, ?_⟩, fun _ m hm => ?_, ?_⟩
          · have hcall' :
              ((Conditional.step s.world (.start () call)).phase ()).call? = some call' := hcall'
            rw [hlooked] at hcall'
            cases hcall'
            show write debug stale mints
              (Conditional.step s.world (.start () call)).outcomes.length = _
            rw [hstart]
            exact hwrite
          · show (Conditional.step s.world (.start () call)).log = _
            rw [hstart]
            exact hlog
          · show ∀ e ∈ more, _ ∧ ¬Answers stale
              (Conditional.step s.world (.start () call)).outcomes.length e
            rw [hstart]
            exact hmore
          · have hm : m ∈ (Conditional.step s.world (.start () call)).moments () := hm
            rw [hstart] at hm
            have hm : m ∈ Function.update s.world.moments () [s.world.log] () := hm
            rw [Function.update_self] at hm
            rw [List.mem_singleton.1 hm, hlog]
            exact List.prefix_append _ _
          · show ∀ i o, (Conditional.step s.world (.start () call)).outcomes[i]? = some o → _
            rw [hstart]
            exact h.recorded
        | _ => exact h.turned hnodup hunanswered (by rw [hphase]; rfl)
  | fail =>
    unfold Sweep.step
    dsimp only
    split
    · exact h
    · have hbase : (Conditional.step s.world (.fail ())).Inv := h.base.step True.intro
      have hidle : (Conditional.step s.world (.fail ())).phase () = .idle := by
        show Function.update s.world.phase () Phase.idle () = Phase.idle
        exact Function.update_self ..
      refine ⟨hbase, fun call hcall => ?_, h.quiet, fun hcall => ?_, h.recorded⟩
      · rw [hidle] at hcall
        cases hcall
      · rw [hidle] at hcall
        cases hcall

end

end

/-- Where nothing but the sweep answers its spawns and no run is started before its last write, each
fault is recorded in the run that was judged, on a hung spawn with no result, and the spawns
answered are those whose fault was recorded. -/
theorem sweep_faults (markers : Markers) (scratchRoot runId cls : String) (now : SystemTime)
    (debug : String → String) (mints : Nat → Mint) (handed : Store) (stale : List StaleSpawn)
    (hordered : handed.Ordered)
    (hjudged : judged markers scratchRoot runId cls now (slice (handed.log stream)) = some stale)
    (acts : List Act)
    (hquiet : Along (step debug stale mints) (Quiet stale) (new handed) acts) :
    (∀ (i : Nat) (o : Outcome),
      (run (step debug stale mints) (new handed) acts).world.outcomes[i]? = some o →
      ∃ x log ev, stale[i]? = some x ∧
        o = Outcome.appended (.ifAbsent (livenessFault debug x) (mints i)) log ev ∧
        resultIn ev = some (livenessFault debug x) ∧ slice (handed.log stream) <+: slice log ∧
        (∀ e ∈ slice log, ∀ r, resultIn e = some r → r.id ≠ x.id) ∧
        Hung markers scratchRoot runId cls now (slice (handed.log stream)) x) ∧
      (stale.map StaleSpawn.id).Nodup ∧
      ∀ answered, (run (step debug stale mints) (new handed) acts).answer stale = some answered →
        (run (step debug stale mints) (new handed) acts).recordedBy stale = answered := by
  have hnodup := judged_nodup hjudged
  have hunanswered : ∀ x ∈ stale, ∀ e ∈ slice (handed.log stream), ∀ r, resultIn e = some r →
      r.id ≠ x.id := by
    intro x hx
    obtain ⟨-, -, -, -, -, -, -, -, hres, -⟩ := (mem_judged hjudged x).1 hx
    rcases resultOf_eq_some hres with ⟨-, habsent⟩ | ⟨found, heq, -⟩
    · exact habsent
    · cases heq
  have hsound : Sound debug stale mints handed (run (step debug stale mints) (new handed) acts) :=
    run_invariant_along (I := Sound debug stale mints handed)
      (fun _ _ hq hs => hs.step hnodup hunanswered hq) hquiet (.start hordered)
  refine ⟨fun i o ho => ?_, hnodup, fun answered hanswered => ?_⟩
  · obtain ⟨x, log, ev, hx, rfl, hrun⟩ := hsound.recorded i o ho
    have hlin := hsound.base.linearized _ (List.mem_of_getElem? ho)
    rcases decision_ifAbsent hlin with ⟨heq, habsent⟩ | ⟨heq, -⟩
    · cases heq
      exact ⟨x, log, _, hx, rfl, resultIn_resultEvent _ _, hrun, habsent,
        (mem_judged hjudged x).1 (List.mem_of_getElem? hx)⟩
    · cases heq
  · obtain ⟨⟨-, hmade⟩, heq⟩ := Option.ite_none_right_eq_some.1 hanswered
    cases heq
    unfold recordedBy
    have hall : ∀ p ∈ stale.zip (run (step debug stale mints) (new handed) acts).world.outcomes,
        p.2.isAppended = true := by
      intro p hp
      obtain ⟨i, hi⟩ := List.mem_iff_getElem?.1 (List.of_mem_zip hp).2
      obtain ⟨x, log, ev, -, heq, -⟩ := hsound.recorded i p.2 hi
      rw [heq]
      rfl
    rw [List.filter_eq_self.2 hall]
    exact List.map_fst_zip (Nat.le_of_eq hmade.symm)

/-! ## A hung reviewer -/

/-- A run and a spawn of it bounded by ten seconds. -/
def hungRun : Store := Store.empty.exec (.append stream .any
  [startedEvent "r1", Event.new ("q", 2) typeSpawnRequested (.json (.obj [("id", .str "u/review#0"),
    ("unit", .str "u"), ("stage", .str "review"), ("prompt", .str "p"),
    ("max_wall_clock", .num 10)]))] 3)

/-- Its marker was touched at the start of time and is read a hundred seconds later. -/
def hungReview : List StaleSpawn := [⟨"u/review#0", "u", "infra", 100000000000⟩]

theorem judged_hungRun : judged (fun _ _ _ => some 0) "scratch" "r1" "infra" 100000000000
    (slice (hungRun.log stream)) = some hungReview := by decide +kernel

def sweeping : List Act := [.turn 5, .turn 5, .turn 5, .turn 5, .turn 5, .turn 5]

/-- The sweep of `hungRun` while `events` land before its first store call. -/
def swept (events : List Event) : Sweep :=
  run (step id hungReview fun _ => ("f", 6)) (new hungRun) (.record stream events 4 :: sweeping)

def lesson : Event := Event.new ("l", 4) typeLessonLearned (.json .null)

theorem sweep_faults_lesson : (swept [lesson]).answer hungReview = some hungReview ∧
    (∀ (i : Nat) (o : Outcome), (swept [lesson]).world.outcomes[i]? = some o →
      ∃ x log ev, hungReview[i]? = some x ∧
        o = Outcome.appended (.ifAbsent (livenessFault id x) ("f", 6)) log ev ∧
        resultIn ev = some (livenessFault id x) ∧ slice (hungRun.log stream) <+: slice log ∧
        (∀ e ∈ slice log, ∀ r, resultIn e = some r → r.id ≠ x.id) ∧
        Hung (fun _ _ _ => some 0) "scratch" "r1" "infra" 100000000000
        (slice (hungRun.log stream)) x) ∧
      (hungReview.map StaleSpawn.id).Nodup ∧
      ∀ answered, (swept [lesson]).answer hungReview = some answered →
        (swept [lesson]).recordedBy hungReview = answered := by
  refine ⟨by decide +kernel, sweep_faults _ _ _ _ _ id (fun _ => ("f", 6)) hungRun hungReview
    (Store.ordered_exec Store.ordered_empty _) judged_hungRun
    (.record stream [lesson] 4 :: sweeping) ?_⟩
  refine ⟨fun _ _ e he => ?_, True.intro, True.intro, True.intro, True.intro,
    True.intro, True.intro,
    True.intro⟩
  rw [List.mem_singleton.1 he]
  refine ⟨by decide, fun r hr => ?_⟩
  cases hr

/-- A reviewer's own result and the next run. -/
def reported : Event := Event.new ("s", 4) typeSpawnResult
  (.json (.obj [("id", .str "u/review#0"), ("output", .str "approve")]))

/-- A result recorded behind the read is answered as a recorded fault, and a fault decided behind
the start of the next run lands in that run. -/
theorem sweep_overtaken :
    judged (fun _ _ _ => some 0) "scratch" "r1" "infra" 100000000000 (slice (hungRun.log stream)) =
        some hungReview ∧
      (swept [reported]).answer hungReview = some hungReview ∧
      (swept [reported]).recordedBy hungReview = [] ∧
      (swept [startedEvent "r2"]).recordedBy hungReview = hungReview ∧
      (slice (swept [startedEvent "r2"]).world.log).map Event.type_ =
        [typeRunStarted, typeSpawnResult] := by
  refine ⟨judged_hungRun, ?_⟩
  decide +kernel

end Sweep

end Rigger.Liveness
