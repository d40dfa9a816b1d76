import Rigger.Conductor.ReviewRound

/-!
# A round replayed (`rigger-driver/src/driver/replay.rs`, `rigger-conductor/src/conductor.rs`)

The replay driver answers a spawn from the log of its run.  Over a log that keeps what a round's
spawns ended in (`Kept`), the round replayed answers as it did and asks for nothing new
(`runReviewer_faithful`).
-/

namespace Rigger.Conductor.Reviewer

open Lib hiding slice
open Agent Spawn Conditional
open Replay (SpawnCall parkEvent)

/-! ## The driver -/

section
variable (h : Host) (markerRoot : String)

/-- What an ended spawn is answered with; a replay runs no session. -/
def answeredBy (res : Result) : Except String AgentResult :=
  (Replay.answered res).map fun result => ⟨result, "", ""⟩

/-- `ReplayDriver::spawn`, between whose store calls nothing lands. -/
def replayDriver : Driver := fun w agent prompt opts =>
  let events := slice w.log
  match endedBy events opts.id with
  | none => ⟨0, .error h.unread, w⟩
  | some (some res) => ⟨0, answeredBy res, w⟩
  | some none =>
    let parked : Except String AgentResult := .error (parkedSpawn h.debug opts.id)
    if isRecorded events opts.id then ⟨0, parked, w⟩
    else
      let call : SpawnCall :=
        ⟨spawnRequest agent prompt opts, opts.runId, markerRoot, agent.bounded⟩
      ⟨0, parked, { w with log := w.log ++ [parkEvent (h.mint opts.id) call] }⟩

end

/-- What a call leaves: the answer of a record, a park over the request that stands, or one that it
appends. -/
theorem replayDriver_cases (h : Host) (markerRoot : String) (w : World) (agent : AgentDef)
    (prompt : String) (opts : SpawnOpts) :
    (endedBy (slice w.log) opts.id = none ∧
      replayDriver h markerRoot w agent prompt opts = ⟨0, .error h.unread, w⟩) ∨
    (∃ res, endedBy (slice w.log) opts.id = some (some res) ∧
      replayDriver h markerRoot w agent prompt opts = ⟨0, answeredBy res, w⟩) ∨
    endedBy (slice w.log) opts.id = some none ∧
      (replayDriver h markerRoot w agent prompt opts).result =
        .error (parkedSpawn h.debug opts.id) ∧
      ((replayDriver h markerRoot w agent prompt opts).world.log = w.log ∧
          isRecorded (slice w.log) opts.id = true ∨
        ∃ mint call, call.req.id = opts.id ∧
          (replayDriver h markerRoot w agent prompt opts).world.log = w.log ++
            [parkEvent mint call]) := by
  unfold replayDriver
  dsimp only
  cases endedBy (slice w.log) opts.id with
  | none => exact .inl ⟨rfl, rfl⟩
  | some found =>
    cases found with
    | some res => exact .inr (.inl ⟨res, rfl, rfl⟩)
    | none =>
      refine .inr (.inr ⟨rfl, ?_⟩)
      dsimp only
      split
      · next hrecorded => exact ⟨rfl, .inl ⟨rfl, hrecorded⟩⟩
      · exact ⟨rfl, .inr ⟨_, _, rfl, rfl⟩⟩

theorem left_replayDriver (h : Host) (markerRoot : String) (w : World) (agent : AgentDef)
    (prompt : String) (opts : SpawnOpts) :
    h.left opts (replayDriver h markerRoot w agent prompt opts) =
      (replayDriver h markerRoot w agent prompt opts).world := by
  unfold Host.left
  rcases replayDriver_cases h markerRoot w agent prompt opts with
    ⟨-, hturn⟩ | ⟨res, -, hturn⟩ | ⟨-, hresult, -⟩
  · rw [hturn]
  · rw [hturn]
    dsimp only
    rw [answeredBy]
    cases Replay.answered res with
    | error e => rfl
    | ok result => exact if_pos rfl
  · rw [hresult]

section
variable {α : Type} {v : Replay.World α} {id : String} {call : SpawnCall}

theorem turned_ends (mint : Mint) (hphase : v.phase id = .reading call)
    (hends : endedBy (slice v.log) id = some none → isRecorded (slice v.log) id = true) :
    (v.turned id mint).phase id = .idle ∧ (v.turned id mint).log = v.log := by
  unfold Replay.World.turned
  rw [hphase]
  dsimp only
  split
  · exact ⟨Function.update_self .., rfl⟩
  · exact ⟨Function.update_self .., rfl⟩
  · next hnone =>
    rw [if_pos (hends hnone)]
    exact ⟨Function.update_self .., rfl⟩

theorem turned_parks (mint : Mint) (hphase : v.phase id = .reading call)
    (hended : endedBy (slice v.log) id = some none)
    (hrecorded : isRecorded (slice v.log) id = false) :
    ((v.turned id mint).turned id mint).log = v.log ++ [parkEvent mint call] := by
  have hfirst : v.turned id mint =
      { v with phase := Function.update v.phase id (.parking call v.log) } := by
    unfold Replay.World.turned
    rw [hphase]
    dsimp only
    rw [hended]
    dsimp only
    rw [hrecorded, if_neg Bool.false_ne_true]
  rw [hfirst]
  unfold Replay.World.turned
  dsimp only
  rw [Function.update_self]

end

theorem turned_replayDriver {α : Type} (h : Host) (markerRoot : String) (w : World)
    (agent : AgentDef)
    (prompt : String) (opts : SpawnOpts) (v : Replay.World α) (hlog : v.log = w.log)
    (hphase : v.phase opts.id =
      .reading ⟨spawnRequest agent prompt opts, opts.runId, markerRoot, agent.bounded⟩) :
    ((v.turned opts.id (h.mint opts.id)).turned opts.id (h.mint opts.id)).log =
      (replayDriver h markerRoot w agent prompt opts).world.log := by
  have hidle : ∀ u : Replay.World α, u.phase opts.id = .idle →
      (u.turned opts.id (h.mint opts.id)).log = u.log := by
    intro u hu
    unfold Replay.World.turned
    rw [hu]
  by_cases hparks : endedBy (slice v.log) opts.id = some none ∧
    isRecorded (slice v.log) opts.id = false
  · rw [turned_parks _ hphase hparks.1 hparks.2, replayDriver, ← hlog, hparks.1, hparks.2]
    rfl
  · have hends := turned_ends (h.mint opts.id) hphase fun hnone => by
      by_contra hrecorded
      exact hparks ⟨hnone, Bool.eq_false_iff.2 hrecorded⟩
    rw [hidle _ hends.1, hends.2, replayDriver, ← hlog]
    dsimp only
    split
    · exact hlog
    · exact hlog
    · next hnone =>
      rw [if_pos (by simpa [hnone] using hparks)]
      exact hlog

/-! ## One attempt replayed -/

section
variable {h : Host} {r : Round} {retry : Nat}

theorem opts_error {e : String} {events : List Event}
    (herror : h.spawnOpts (r.spawnId retry) = .error e) :
    r.opts h retry events = .error e := by
  rw [Round.opts, herror]
  rfl

theorem continuePriorSession_id (r : Round) (events : List Event) (opts : SpawnOpts) :
    (r.continuePriorSession events opts).id = opts.id := by
  unfold Round.continuePriorSession
  split
  · rfl
  · split <;> rfl

theorem opts_ok {opts : SpawnOpts} (events : List Event)
    (hok : h.spawnOpts (r.spawnId retry) = .ok opts) :
    ∃ opts', opts'.id = r.spawnId retry ∧ r.opts h retry events = .ok opts' := by
  rw [Round.opts, hok]
  refine ⟨_, ?_, rfl⟩
  dsimp only
  split
  · exact continuePriorSession_id r events _
  · rfl

end

/-- An id is halted, refused or spawned by what its options, the budget and its worktree say. -/
theorem attemptAt_cases (h : Host) (driver : Driver) (r : Round) (agent : AgentDef) (retry : Nat)
    (s : State) :
    let id := r.spawnId retry
    let reserved := { s.world with process := (s.world.process.reserveSpawn id).2 }
    (∃ e, h.spawnOpts id = .error e ∧
      r.attemptAt h driver agent retry s = .answered (.halted id) (.error e) s) ∨
    (∃ opts, h.spawnOpts id = .ok opts) ∧
      (((s.world.process.reserveSpawn id).1 = false ∧ r.attemptAt h driver agent retry s =
          .answered (.refused id) (.error (r.budgetRefused h)) ⟨reserved, s.flags⟩) ∨
        (s.world.process.reserveSpawn id).1 = true ∧
          ((∃ e, h.ensurePresent id = .error e ∧ r.attemptAt h driver agent retry s =
              .answered (.halted id) (.error e) ⟨reserved, s.flags⟩) ∨
            h.ensurePresent id = .ok () ∧ ∃ opts, opts.id = id ∧
              r.attemptAt h driver agent retry s =
                r.spawn h driver agent retry opts reserved s.flags)) := by
  intro id reserved
  cases hopts : h.spawnOpts id with
  | error e =>
    refine .inl ⟨e, rfl, ?_⟩
    rw [Round.attemptAt, opts_error hopts]
  | ok opts =>
    obtain ⟨opts', hid, hopts'⟩ := opts_ok (slice s.world.log) hopts
    refine .inr ⟨⟨opts, rfl⟩, ?_⟩
    unfold Round.attemptAt
    rw [hopts']
    dsimp only
    cases hadmitted : (s.world.process.reserveSpawn id).1 with
    | false => exact .inl ⟨rfl, rfl⟩
    | true =>
      refine .inr ⟨rfl, ?_⟩
      rw [if_pos rfl]
      cases hpresent : h.ensurePresent id with
      | error e => exact .inl ⟨e, rfl, rfl⟩
      | ok u => exact .inr ⟨rfl, opts', hid, rfl⟩

/-! ## What a log keeps of a round -/

/-- The same error, or results of one output and one model; the sessions they ran as may differ. -/
def SameAnswer : Except String AgentResult → Except String AgentResult → Prop
  | .ok res, .ok res' => res.output = res'.output ∧ res.resolvedModel = res'.resolvedModel
  | .error e, .error e' => e = e'
  | _, _ => False

/-- A result that is judged alike before it is on record. -/
def Substantial (r : Round) (findings : Nat) : Except String AgentResult → Prop
  | .ok res => r.output ≠ .findings ∨ (trim res.output).isEmpty = false ∨ 0 < findings
  | .error _ => False

/-- What the replay driver answers a spawn with. -/
def replayed (h : Host) (events : List Event) (id : String) : Except String AgentResult :=
  match endedBy events id with
  | none => .error h.unread
  | some none => .error (parkedSpawn h.debug id)
  | some (some res) => answeredBy res

/-- A budget that has charged a spawned id, and admits a halted one and no refused one. -/
def Charged (p : Budget.Process) : Step → Prop
  | .halted id => (p.reserveSpawn id).1 = true
  | .refused id => (p.reserveSpawn id).1 = false
  | .spawned id .. => id ∈ p.recordedSpawnIds

/-- The log answers a spawn as its driver did, by an outcome or, where it parked, by the request
that stands; an outcome was on record when it was judged, or is substantial; and no verdict was
emitted since. -/
def Recorded (h : Host) (r : Round) (log : List Event) : Step → Prop
  | .spawned id turn events _ =>
    SameAnswer turn.result (replayed h (slice log) id) ∧
      emittedApprove (slice log) id = emittedApprove events id ∧
      if endedBy (slice log) id = some none then isRecorded (slice log) id = true
      else resultOf events id = resultOf (slice log) id ∨ Substantial r turn.findings turn.result
  | _ => True

structure Kept (h : Host) (r : Round) (w : World) (t : Step) : Prop where
  charged : Charged w.process t
  recorded : Recorded h r w.log t

instance (r : Round) (findings : Nat) : DecidablePred (Substantial r findings)
  | .ok res =>
    inferInstanceAs
      (Decidable (r.output ≠ .findings ∨ (trim res.output).isEmpty = false ∨ 0 < findings))
  | .error _ => inferInstanceAs (Decidable False)

instance : DecidableRel SameAnswer := fun a b =>
  match a, b with
  | .ok res, .ok res' =>
    inferInstanceAs (Decidable (res.output = res'.output ∧ res.resolvedModel = res'.resolvedModel))
  | .error e, .error e' => inferInstanceAs (Decidable (e = e'))
  | .ok _, .error _ | .error _, .ok _ => inferInstanceAs (Decidable False)

instance (p : Budget.Process) : DecidablePred (Charged p)
  | .halted id => inferInstanceAs (Decidable ((p.reserveSpawn id).1 = true))
  | .refused id => inferInstanceAs (Decidable ((p.reserveSpawn id).1 = false))
  | .spawned id .. => inferInstanceAs (Decidable (id ∈ p.recordedSpawnIds))

instance (h : Host) (r : Round) (log : List Event) : DecidablePred (Recorded h r log)
  | .spawned id turn events _ => inferInstanceAs (Decidable
    (SameAnswer turn.result (replayed h (slice log) id) ∧
      emittedApprove (slice log) id = emittedApprove events id ∧
      if endedBy (slice log) id = some none then isRecorded (slice log) id = true
      else resultOf events id = resultOf (slice log) id ∨ Substantial r turn.findings turn.result))
  | .halted _ | .refused _ => inferInstanceAs (Decidable True)

instance (h : Host) (r : Round) (w : World) : DecidablePred (Kept h r w) := fun t =>
  decidable_of_iff (Charged w.process t ∧ Recorded h r w.log t)
    ⟨fun ⟨hcharged, hrecorded⟩ => ⟨hcharged, hrecorded⟩, fun hkept =>
    ⟨hkept.charged, hkept.recorded⟩⟩

def SameFate : Fate → Fate → Prop
  | .answered a, .answered a' => SameAnswer a a'
  | .redriven why, .redriven why' => why = why'
  | _, _ => False

theorem SameAnswer.refl (a : Except String AgentResult) : SameAnswer a a := by
  cases a with
  | ok res => exact ⟨rfl, rfl⟩
  | error e => rfl

theorem SameFate.refl (f : Fate) : SameFate f f := by
  cases f with
  | answered a => exact SameAnswer.refl a
  | redriven why => rfl

theorem resultOf_of_replayed {h : Host} {events : List Event} {id : String} {out : AgentResult}
    (hout : replayed h events id = .ok out) : ∃ res, resultOf events id = some (some res) := by
  unfold replayed at hout
  split at hout
  · cases hout
  · cases hout
  · next res hended =>
    obtain ⟨found, hfound, hreal⟩ := Option.map_eq_some_iff.1 hended
    exact ⟨res, by rw [hfound, (Option.filter_eq_some_iff.1 hreal).1]⟩

section
variable {h : Host} {r : Round} {retry : Nat} {flags : Flags}

theorem judge_parked (turn turn' : Turn) (events events' : List Event)
    (hresult : turn.result = .error (parkedSpawn h.debug (r.spawnId retry)))
    (hresult' : turn'.result = .error (parkedSpawn h.debug (r.spawnId retry))) :
    r.judge h flags retry turn events = r.judge h flags retry turn' events' := by
  have hstops : isParkedOrRefused (parkedSpawn h.debug (r.spawnId retry)) budgetMarker = true := by
    rw [isParkedOrRefused, isParked_parkedSpawn, Bool.true_or]
  unfold Round.judge
  rw [hresult, hresult']
  dsimp only
  unfold Round.judgeError
  rw [if_pos hstops, if_pos hstops]

variable {events' events : List Event}

theorem judgeError_congr {e : String}
    (hsame : resultOf events (r.spawnId retry) = resultOf events' (r.spawnId retry)) :
    r.judgeError h flags retry e events = r.judgeError h flags retry e events' := by
  unfold Round.judgeError spawnErrored
  rw [hsame]

variable {findings : Nat}

theorem judgeResult_same {findings' : Nat} {res res' : AgentResult}
    (hres : SameAnswer (.ok res) (.ok res'))
    (hdegenerate : degenerate h.line r.output (r.spawnId retry) res.output findings events =
      degenerate h.line r.output (r.spawnId retry) res.output findings' events')
    (hemitted : emittedApprove events' (r.spawnId retry) =
      emittedApprove events (r.spawnId retry)) :
    SameFate (r.judgeResult h flags retry findings res events)
      (r.judgeResult h flags retry findings' res' events') := by
  obtain ⟨houtput, hmodel⟩ := hres
  unfold Round.judgeResult
  rw [← houtput, ← hdegenerate, hemitted]
  split
  · exact SameFate.refl _
  · exact SameFate.refl _
  · split
    · split
      · exact SameFate.refl _
      · split <;> exact SameFate.refl _
    · exact ⟨houtput, hmodel⟩

theorem degenerate_kept {line : String → Option Json} {output : ReviewerOutput} {id text : String}
    {res : Result} (hrecorded : resultOf events' id = some (some res))
    (htimely : resultOf events id = resultOf events' id ∨
      output ≠ .findings ∨ (trim text).isEmpty = false ∨ 0 < findings) :
    degenerate line output id text findings events = degenerate line output id text 0 events' := by
  unfold degenerate
  split
  · rfl
  · split
    · rfl
    · next hblank =>
      split
      · rfl
      · next hfindings =>
        rw [if_neg (Nat.lt_irrefl 0), hrecorded]
        split
        · rfl
        · next hnone =>
          rcases htimely with htimely | hgating | htext | hsome
          · rw [htimely, hrecorded]
          · exact absurd hgating hfindings
          · exact absurd (by rw [htext]; exact Bool.false_ne_true) hblank
          · exact absurd hsome hnone

end

/-! ## The replay -/

section
variable {h : Host} {r : Round} {retry : Nat} {w : World}

/-- It asks for nothing where the spawn has ended or its request stands. -/
theorem replayDriver_recorded (markerRoot : String) (agent : AgentDef) (prompt : String)
    {opts : SpawnOpts}
    (hrecorded : endedBy (slice w.log) opts.id = some none →
    isRecorded (slice w.log) opts.id = true) :
    replayDriver h markerRoot w agent prompt opts = ⟨0, replayed h (slice w.log) opts.id, w⟩ := by
  unfold replayDriver replayed
  dsimp only
  rcases hended : endedBy (slice w.log) opts.id with _ | (_ | res)
  · rfl
  · rw [if_pos (hrecorded hended)]
  · rfl

variable {a : Except String AgentResult} {turn : Turn} {fate : Fate} {id : String}

theorem SameAnswer.error {e : String} (hsame : SameAnswer a (.error e)) : a = .error e := by
  cases a with
  | ok res => exact hsame.elim
  | error e' => exact congrArg _ hsame

theorem SameAnswer.ok {res : AgentResult} (hsame : SameAnswer a (.ok res)) :
    ∃ res', a = .ok res' := by
  cases a with
  | ok res' => exact ⟨res', rfl⟩
  | error e => exact hsame.elim

variable {events : List Event}

theorem judge_kept (flags : Flags)
    (hkept : Recorded h r w.log (.spawned (r.spawnId retry) turn events fate)) :
    SameFate (r.judge h flags retry turn events) (r.judge h flags retry
      ⟨0, replayed h (slice w.log) (r.spawnId retry), w⟩ (slice w.log)) := by
  obtain ⟨hsame, hemitted, htimely⟩ := hkept
  by_cases hended : endedBy (slice w.log) (r.spawnId retry) = some none
  · have hreplayed : replayed h (slice w.log) (r.spawnId retry) =
        .error (parkedSpawn h.debug (r.spawnId retry)) := by
      rw [replayed, hended]
    rw [hreplayed] at hsame
    rw [judge_parked turn ⟨0, _, w⟩ events (slice w.log) hsame.error hreplayed]
    exact SameFate.refl _
  · rw [if_neg hended] at htimely
    cases hanswer : replayed h (slice w.log) (r.spawnId retry) with
    | error e =>
      rw [hanswer] at hsame
      have hturn := hsame.error
      have hboth :
          resultOf events (r.spawnId retry) = resultOf (slice w.log) (r.spawnId retry) := by
        refine htimely.resolve_right fun hsubstantial => ?_
        rw [hturn] at hsubstantial
        exact hsubstantial
      unfold Round.judge
      rw [hturn]
      dsimp only
      rw [judgeError_congr hboth]
      exact SameFate.refl _
    | ok out =>
      rw [hanswer] at hsame
      obtain ⟨out', hturn⟩ := hsame.ok
      obtain ⟨res, hresult⟩ := resultOf_of_replayed hanswer
      rw [hturn] at hsame
      unfold Round.judge
      rw [hturn]
      dsimp only
      refine judgeResult_same hsame (degenerate_kept hresult ?_) hemitted
      refine htimely.imp_right fun hsubstantial => ?_
      rw [hturn] at hsubstantial
      exact hsubstantial

theorem Recorded.requested (hkept : Recorded h r w.log (.spawned id turn events fate))
    (hended : endedBy (slice w.log) id = some none) : isRecorded (slice w.log) id = true := by
  obtain ⟨-, -, hrecorded⟩ := hkept
  rw [if_pos hended] at hrecorded
  exact hrecorded

theorem attemptAt_replayed (markerRoot : String) (agent : AgentDef) (flags : Flags)
    (hopts : ∃ opts, h.spawnOpts (r.spawnId retry) = .ok opts)
    (hpresent : h.ensurePresent (r.spawnId retry) = .ok ())
    (hid : r.spawnId retry ∈ w.process.recordedSpawnIds)
    (hrecorded : endedBy (slice w.log) (r.spawnId retry) = some none →
      isRecorded (slice w.log) (r.spawnId retry) = true) :
    let turn : Turn := ⟨0, replayed h (slice w.log) (r.spawnId retry), w⟩
    let fate := r.judge h flags retry turn (slice w.log)
    let step := Step.spawned (r.spawnId retry) turn (slice w.log) fate
    r.attemptAt h (replayDriver h markerRoot) agent retry ⟨w, flags⟩ =
      match fate with
      | .answered a => .answered step a ⟨w, flags⟩
      | .redriven why => .redriven step ⟨w, flags.after why⟩ := by
  have hreserved := Budget.Process.reserveSpawn_of_mem hid
  rcases attemptAt_cases h (replayDriver h markerRoot) r agent retry ⟨w, flags⟩ with
    ⟨e, herror, -⟩ | ⟨-, ⟨hrefused, -⟩ | ⟨-, ⟨e, herror, -⟩ | ⟨-, opts, hopts', hattempt⟩⟩⟩
  · obtain ⟨opts, hok⟩ := hopts
    rw [hok] at herror
    cases herror
  · rw [hreserved] at hrefused
    cases hrefused
  · rw [hpresent] at herror
    cases herror
  · rw [hattempt, hreserved]
    unfold Round.spawn
    dsimp only
    rewrite [left_replayDriver,
      replayDriver_recorded markerRoot agent _ (by rw [hopts']; exact hrecorded), hopts']
    rfl

theorem spawnable {driver : Driver} {agent : AgentDef} {s : State}
    (htrace : (r.attemptAt h driver agent retry s).trace = .spawned id turn events fate) :
    (∃ opts, h.spawnOpts (r.spawnId retry) = .ok opts) ∧
    h.ensurePresent (r.spawnId retry) = .ok () := by
  rcases attemptAt_cases h driver r agent retry s with
    ⟨e, -, hattempt⟩ | ⟨hopts, ⟨-, hattempt⟩ | ⟨-, ⟨e, -, hattempt⟩ | ⟨hpresent, -⟩⟩⟩
  · rw [hattempt] at htrace
    cases htrace
  · rw [hattempt] at htrace
    cases htrace
  · rw [hattempt] at htrace
    cases htrace
  · exact ⟨hopts, hpresent⟩

section
variable {driver : Driver} {agent : AgentDef} {s s' : State} {t : Step} (markerRoot : String)
include markerRoot

/-- A kept step that asked for the next id asks for it again, over the log as it is. -/
theorem redriven_again (hattempt : r.attemptAt h driver agent retry s = .redriven t s')
    (hkept : Kept h r w t) : ∃ t' s₂,
      r.attemptAt h (replayDriver h markerRoot) agent retry ⟨w, s.flags⟩ = .redriven t' s₂ ∧
        s'.flags = s₂.flags ∧ s₂.world = w := by
  obtain ⟨turn, events, why, rfl, hjudge, hflags⟩ := attemptAt_redriven hattempt
  obtain ⟨hopts, hpresent⟩ := spawnable (by rw [hattempt]; rfl)
  have hsame := judge_kept s.flags hkept.recorded
  rw [hjudge] at hsame
  have hagain := attemptAt_replayed markerRoot agent s.flags hopts hpresent hkept.charged
    hkept.recorded.requested
  dsimp only at hagain
  cases hfate : r.judge h s.flags retry ⟨0, replayed h (slice w.log) (r.spawnId retry), w⟩
    (slice w.log) with
  | answered a =>
    rw [hfate] at hsame
    exact hsame.elim
  | redriven why' =>
    rw [hfate] at hsame hagain
    cases hsame
    exact ⟨_, _, hagain, hflags, rfl⟩

theorem answered_again {a : Except String AgentResult}
    (hattempt : r.attemptAt h driver agent retry s = .answered t a s') (hkept : Kept h r w t) :
    ∃ t' a' s₂, r.attemptAt h (replayDriver h markerRoot) agent retry ⟨w, s.flags⟩ =
      .answered t' a' s₂ ∧
      SameAnswer a a' ∧ s₂.world.log = w.log := by
  have hagain := attemptAt_cases h (replayDriver h markerRoot) r agent retry ⟨w, s.flags⟩
  rcases attemptAt_cases h driver r agent retry s with
    ⟨e, hopts, hhalted⟩ | ⟨⟨opts, hopts⟩,
    ⟨-, hrefused⟩ | ⟨-, ⟨e, hpresent, hhalted⟩ | ⟨hpresent, _, -, hspawn⟩⟩⟩
  · rw [hhalted] at hattempt
    cases hattempt
    rcases hagain with ⟨e', hopts', hagain⟩ | ⟨⟨opts', hopts'⟩, -⟩
    · rw [hopts] at hopts'
      cases hopts'
      exact ⟨_, _, _, hagain, rfl, rfl⟩
    · rw [hopts] at hopts'
      cases hopts'
  · rw [hrefused] at hattempt
    cases hattempt
    rcases hagain with ⟨e', hopts', -⟩ | ⟨-, ⟨-, hagain⟩ | ⟨hadmitted, -⟩⟩
    · rw [hopts] at hopts'
      cases hopts'
    · exact ⟨_, _, _, hagain, rfl, rfl⟩
    · exact absurd (hkept.charged.symm.trans hadmitted) Bool.false_ne_true
  · rw [hhalted] at hattempt
    cases hattempt
    rcases hagain with ⟨e', hopts', -⟩ |
      ⟨-, ⟨hrefused, -⟩ | ⟨-, ⟨e', hpresent', hagain⟩ | ⟨hpresent', -⟩⟩⟩
    · rw [hopts] at hopts'
      cases hopts'
    · exact absurd (hrefused.symm.trans hkept.charged) Bool.false_ne_true
    · rw [hpresent] at hpresent'
      cases hpresent'
      exact ⟨_, _, _, hagain, rfl, rfl⟩
    · rw [hpresent] at hpresent'
      cases hpresent'
  · rw [hspawn] at hattempt
    obtain ⟨turn, events, rfl, hjudge⟩ := spawn_answered hattempt
    have hsame := judge_kept s.flags hkept.recorded
    rw [hjudge] at hsame
    have hreplayed := attemptAt_replayed markerRoot agent s.flags
      ⟨opts, hopts⟩ hpresent hkept.charged
      hkept.recorded.requested
    dsimp only at hreplayed
    cases hfate : r.judge h s.flags retry ⟨0, replayed h (slice w.log) (r.spawnId retry), w⟩
      (slice w.log) with
    | redriven why =>
      rw [hfate] at hsame
      exact hsame.elim
    | answered a' =>
      rw [hfate] at hsame hreplayed
      exact ⟨_, _, _, hreplayed, hsame, rfl⟩

end

end

/-- A round over whose spawns a log keeps what they ended in, replayed over it, answers as it did
and appends nothing. -/
theorem rerun_kept {h : Host} {driver : Driver} {r : Round} {w w' : World}
    (hkept : ∀ t ∈ (r.runReviewer h driver w).steps, Kept h r w' t) (markerRoot : String) :
    SameAnswer (r.runReviewer h driver w).answer
        (r.runReviewer h (replayDriver h markerRoot) w').answer ∧
      (r.runReviewer h (replayDriver h markerRoot) w').world.log = w'.log := by
  unfold Round.runReviewer at hkept ⊢
  cases hagent : h.agents r.agentId with
  | none => exact ⟨SameAnswer.refl _, rfl⟩
  | some agent =>
    rw [hagent] at hkept
    have hrun : Runs (r.attemptAt h driver agent) (r.spent h) r.window (⟨w, .new⟩ : State) _ _ _ :=
      runs_retry r.window _
    refine hrun.rerun (R := fun (s s₂ : State) => s.flags = s₂.flags ∧ s₂.world = w')
      (E := fun (_ s₂ : State) => s₂.world.log = w'.log)
      (P := Kept h r w') ?_ ?_ ?_ hkept ⟨rfl, rfl⟩
    · rintro s s₂ ⟨hflags, hworld⟩
      rw [Round.spent, Round.spent, hflags]
      exact ⟨SameAnswer.refl _, congrArg World.log hworld⟩
    · rintro i s ⟨world, flags⟩ t a s' ⟨hflags, rfl⟩ hkept hans
      rw [← show s.flags = flags from hflags]
      exact answered_again markerRoot hans hkept
    · rintro i s ⟨world, flags⟩ t s' ⟨hflags, rfl⟩ hkept hred
      rw [← show s.flags = flags from hflags]
      exact redriven_again markerRoot hred hkept

/-! ## A replay of its own log -/

section
variable {h : Host} {id : String}

theorem carriesMarker_parkedSpawn (h : Host) (id : String) :
    carriesMarker (parkedSpawn h.debug id) emitRefusedMarker = false := by
  rw [← Bool.not_eq_true, carriesMarker_iff]
  rintro ⟨a, b, hinfix⟩
  have hmarker : emitRefusedMarker.toList =
      '\x01' :: ("rigger:emit-refused".toList ++ '\x01' :: []) := by decide
  have htext : (parkedSpawn h.debug id).toList = '\x01' :: ("rigger:spawn-parked".toList ++
      '\x01' :: (" spawn " ++ h.debug id ++ " parked: nothing serves it in-process").toList) := by
    have hparked : parkedMarker.toList =
        '\x01' :: ("rigger:spawn-parked".toList ++ '\x01' :: []) := by decide
    rw [parkedSpawn, String.append_assoc, String.append_assoc, String.toList_append, hparked,
      String.append_assoc]
    simp
  have hfree :
      '\x01' ∉ (" spawn " ++ h.debug id ++ " parked: nothing serves it in-process").toList := by
    simp only [String.toList_append, List.mem_append, not_or]
    exact ⟨⟨by decide, h.escaped id⟩, by decide⟩
  rw [hmarker, htext] at hinfix
  simp only [List.append_assoc, List.cons_append, List.nil_append] at hinfix
  -- the text has two control characters, and the marker takes both
  have hcount := congrArg (List.count '\x01') hinfix
  simp only [List.count_append, List.count_cons_self, List.count_eq_zero_of_not_mem hfree] at hcount
  have ha : '\x01' ∉ a := by
    rw [← List.count_eq_zero]
    have hemit : List.count '\x01' "rigger:emit-refused".toList = 0 := by decide
    have hparked : List.count '\x01' "rigger:spawn-parked".toList = 0 := by decide
    omega
  obtain ⟨-, hrest⟩ := append_cons_inj ha List.not_mem_nil hinfix
  obtain ⟨hname, -⟩ := append_cons_inj (by decide) (by decide) hrest
  exact absurd hname (by decide)

section
variable (log : List Event) (mint : Conditional.Mint) (call : SpawnCall)

theorem resultOf_parked :
    resultOf (slice (log ++ [parkEvent mint call])) id = resultOf (slice log) id := by
  have hkept : ∀ events : List Event,
    resultOf (events.filter fun e => e.type_ == typeSpawnResult) id =
      resultOf events id := by
    intro events
    rw [resultOf_eq]
    exact standing_filter fun e _ htype => beq_iff_eq.2 htype
  rw [Replay.slice_parked, ← hkept, ← hkept (slice log), List.filter_append,
    List.filter_cons_of_neg (by rw [Replay.parkEvent_type]; decide), List.filter_nil,
    List.append_nil]

theorem emittedApprove_parked :
    emittedApprove (slice (log ++ [parkEvent mint call])) id = emittedApprove (slice log) id := by
  have htype : ((parkEvent mint call).type_ == typeDecisionMade) = false := by
    rw [Replay.parkEvent_type]
    decide
  rw [Replay.slice_parked, emittedApprove, List.any_append, List.any_cons, List.any_nil, htype]
  simp [emittedApprove]

theorem isRecorded_parked :
    isRecorded (slice (log ++ [parkEvent mint call])) call.req.id = true := by
  rw [Replay.slice_parked, isRecorded, List.any_append, List.any_cons, Replay.requestOf_parkEvent]
  simp

end

end

/-- How a step of a replay stands to the log the replay met and the one it left. -/
def OfLog (h : Host) (met left : List Event) : Step → Prop
  | .spawned id turn events _ =>
    turn.result = replayed h (slice met) id ∧ (events = slice met ∨ events = slice left) ∧
      (endedBy (slice met) id = some none → isRecorded (slice left) id = true)
  | _ => True

/-- A replay leaves the log as it met it, or a park behind it. -/
def Leaves (met left : List Event) : Prop :=
  left = met ∨ ∃ mint call, left = met ++ [parkEvent mint call]

/-- What an attempt of a replay leaves: only an answer leaves a park. -/
def Attempted (h : Host) (met : List Event) : Attempt State Step (Except String AgentResult) → Prop
  | .answered t _ s => Leaves met s.world.log ∧ OfLog h met s.world.log t
  | .redriven t s => s.world.log = met ∧ ∀ left, OfLog h met left t

section
variable {h : Host} {r : Round} {agent : AgentDef} {markerRoot : String} {met : List Event}

theorem attempted_spawn {retry : Nat} {opts : SpawnOpts} {w : World} {flags : Flags}
    (hw : w.log = met)
    (hid : opts.id = r.spawnId retry) :
    Attempted h met (r.spawn h (replayDriver h markerRoot) agent retry opts w flags) := by
  unfold Round.spawn
  dsimp only
  rw [left_replayDriver]
  by_cases hended : endedBy (slice met) (r.spawnId retry) = some none
  · rcases replayDriver_cases h markerRoot w agent (flags.task r.prompt) opts with
      ⟨hnone, -⟩ | ⟨res, hres, -⟩ | ⟨-, hresult, hparks⟩
    · rw [hw, hid, hended] at hnone
      cases hnone
    · rw [hw, hid, hended] at hres
      cases hres
    · generalize replayDriver h markerRoot w agent (flags.task r.prompt) opts = turn at *
      rw [hw, hid] at hparks
      rw [hid] at hresult
      have hstops : isParkedOrRefused
          (parkedSpawn h.debug (r.spawnId retry)) budgetMarker = true := by
        rw [isParkedOrRefused, isParked_parkedSpawn, Bool.true_or]
      rw [judge_parkedOrRefused hresult hstops (carriesMarker_parkedSpawn h _)]
      have hreplayed : turn.result = replayed h (slice met) (r.spawnId retry) := by
        rw [hresult, replayed, hended]
      rcases hparks with ⟨hlog, hrecorded⟩ | ⟨mint, call, hcall, hlog⟩
      · exact ⟨.inl hlog, hreplayed, .inr rfl, fun _ => by rw [hlog]; exact hrecorded⟩
      · refine ⟨.inr ⟨mint, call, hlog⟩, hreplayed, .inr rfl, fun _ => ?_⟩
        rw [hlog, ← hcall]
        exact isRecorded_parked met mint call
  · rw [replayDriver_recorded markerRoot agent _
      (by rw [hw, hid]; exact fun h => absurd h hended), hid]
    dsimp only
    generalize hturn : (⟨0, replayed h (slice w.log) (r.spawnId retry), w⟩ : Turn) = turn
    have hstep : ∀ left fate, OfLog h met left
        (.spawned (r.spawnId retry) turn (slice w.log) fate) :=
      fun left fate => ⟨by rw [← hturn, hw], .inl (by rw [hw]), fun h => absurd h hended⟩
    cases r.judge h flags retry turn (slice w.log) with
    | answered a => exact ⟨.inl hw, hstep _ _⟩
    | redriven why => exact ⟨hw, fun left => hstep left _⟩

theorem attempted_attemptAt (retry : Nat) {s : State} (hs : s.world.log = met) :
    Attempted h met (r.attemptAt h (replayDriver h markerRoot) agent retry s) := by
  rcases attemptAt_cases h (replayDriver h markerRoot) r agent retry s with
    ⟨e, -, hattempt⟩ | ⟨-, ⟨-, hattempt⟩ | ⟨-, ⟨e, -, hattempt⟩ | ⟨-, opts, hid, hattempt⟩⟩⟩
  · rw [hattempt]
    exact ⟨.inl hs, True.intro⟩
  · rw [hattempt]
    exact ⟨.inl hs, True.intro⟩
  · rw [hattempt]
    exact ⟨.inl hs, True.intro⟩
  · rw [hattempt]
    exact attempted_spawn hs hid

theorem ofLog_run {is : List Nat} {s s' : State} {steps : List Step} {a : Except String AgentResult}
    (hrun : Runs (r.attemptAt h (replayDriver h markerRoot) agent) (r.spent h) is s steps a s')
    (hs : s.world.log = met) :
    Leaves met s'.world.log ∧ ∀ t ∈ steps, OfLog h met s'.world.log t := by
  induction hrun with
  | spent s => exact ⟨.inl hs, by simp⟩
  | @answered i is s s' t a hattempt =>
    have hleft : Attempted h met (r.attemptAt h (replayDriver h markerRoot) agent i s) :=
      attempted_attemptAt i hs
    rw [hattempt] at hleft
    exact ⟨hleft.1, List.forall_mem_singleton.2 hleft.2⟩
  | @redriven i is s s₁ s' t steps a hattempt hrest ih =>
    have hleft : Attempted h met (r.attemptAt h (replayDriver h markerRoot) agent i s) :=
      attempted_attemptAt i hs
    rw [hattempt] at hleft
    obtain ⟨hends, hsteps⟩ := ih hleft.1
    exact ⟨hends, List.forall_mem_cons.2 ⟨hleft.2 _, hsteps⟩⟩

end

section
variable {h : Host} {r : Round} {met left : List Event} {t : Step}

theorem OfLog.recorded (hof : OfLog h met left t)
    (hleft : Leaves met left) : Recorded h r left t := by
  cases t with
  | halted id => exact True.intro
  | refused id => exact True.intro
  | spawned id turn events fate =>
    have hresult : resultOf (slice left) id = resultOf (slice met) id := by
      rcases hleft with rfl | ⟨mint, call, rfl⟩
      · rfl
      · exact resultOf_parked met mint call
    have hended : endedBy (slice left) id = endedBy (slice met) id := by
      rw [endedBy, hresult, endedBy]
    have hemitted : emittedApprove (slice left) id = emittedApprove (slice met) id := by
      rcases hleft with rfl | ⟨mint, call, rfl⟩
      · rfl
      · exact emittedApprove_parked met mint call
    obtain ⟨hturn, hevents, hrequested⟩ := hof
    have hreplayed : replayed h (slice left) id = replayed h (slice met) id := by
      rw [replayed, hended, replayed]
    refine ⟨by rw [hturn, hreplayed]; exact SameAnswer.refl _, ?_, ?_⟩
    · rcases hevents with rfl | rfl
      · exact hemitted
      · rfl
    · split
      · next hnone => exact hrequested (hended ▸ hnone)
      · rcases hevents with rfl | rfl
        · exact .inl hresult.symm
        · exact .inl rfl

end

theorem kept_own {h : Host} {r : Round} {w w' : World} {markerRoot : String}
    (hlog : w'.log = (r.runReviewer h (replayDriver h markerRoot) w).world.log)
    (hcharged : ∀ t ∈ (r.runReviewer h (replayDriver h markerRoot) w).steps, Charged w'.process t) :
    ∀ t ∈ (r.runReviewer h (replayDriver h markerRoot) w).steps, Kept h r w' t := by
  intro t ht
  refine ⟨hcharged t ht, ?_⟩
  rw [hlog]
  unfold Round.runReviewer at ht ⊢
  cases hagent : h.agents r.agentId with
  | none =>
    rw [hagent] at ht
    cases ht
  | some agent =>
    rw [hagent] at ht
    obtain ⟨hleft, hsteps⟩ := ofLog_run (runs_retry r.window (⟨w, .new⟩ : State)) rfl
    exact (hsteps t ht).recorded hleft

/-- Every round spawns the first ids of its window in order, each once; answers a result only where
the last spawn ended in it and it is a verdict; asks again for a verdict-less one at most once;
stops at a park or a refusal; comes to a crash where its window is spent with a recorded error; and,
replayed over a log that keeps what its spawns ended in, answers as it did and asks for nothing new,
as a replay does over the log it leaves. -/
theorem runReviewer_faithful (h : Host) (driver : Driver) (r : Round) (w : World) :
    r.Faithful h (r.runReviewer h driver w) ∧
      (∀ w' markerRoot, (∀ t ∈ (r.runReviewer h driver w).steps, Kept h r w' t) →
        SameAnswer (r.runReviewer h driver w).answer
            (r.runReviewer h (replayDriver h markerRoot) w').answer ∧
          (r.runReviewer h (replayDriver h markerRoot) w').world.log = w'.log) ∧
      ∀ w' markerRoot, w'.log = (r.runReviewer h (replayDriver h markerRoot) w).world.log →
        (∀ t ∈ (r.runReviewer h (replayDriver h markerRoot) w).steps, Charged w'.process t) →
        SameAnswer (r.runReviewer h (replayDriver h markerRoot) w).answer
            (r.runReviewer h (replayDriver h markerRoot) w').answer ∧
          (r.runReviewer h (replayDriver h markerRoot) w').world.log = w'.log :=
  ⟨faithful_runReviewer h driver r w, fun _ markerRoot hkept => rerun_kept hkept markerRoot,
    fun _ markerRoot hlog hcharged => rerun_kept (kept_own hlog hcharged) markerRoot⟩

/-! ## A round of its own -/

def plainHost : Host where
  debug s := String.ofList (s.toList.filter (· ≠ '\x01'))
  escaped s := by simp [List.mem_filter]
  line text := if text = "approve" then some (.obj [("verdict", .str "approve")]) else none
  unread := "a recorded result cannot be read"
  agents _ := some ⟨"opus", [], [], false, none, by simp⟩
  spawnOpts id := .ok ⟨id, "u", "u", 0, "", "", [], "", "", [], [], "", ""⟩
  ensurePresent _ := .ok ()
  mint key := (key, 0)

def adjudication : Round :=
  ⟨"u", "adjudicator", "adjudicator", "judge", 0, 0, .verdict, "judge the unit", none⟩

def requestFor (id : String) : Event :=
  Event.new ("request", 0) typeSpawnRequested (.json (.obj [("id", .str id), ("unit", .str "u"),
    ("stage", .str "u"), ("prompt", .str "judge the unit")]))

def resultFor (id key value : String) : Event :=
  Event.new ("result", 0) typeSpawnResult (.json (.obj [("id", .str id), (key, .str value)]))

def requestedLog : List Event :=
  [Event.new ("run", 0) typeRunStarted (.json (.obj [])), requestFor "u/adjudicator#0"]

def crashRecorded : List Event := requestedLog ++ [resultFor "u/adjudicator#0" "error" "died"]

def approveRecorded : List Event :=
  crashRecorded ++ [requestFor "u/adjudicator#0~retry1",
    resultFor "u/adjudicator#0~retry1" "output" "approve"]

/-- A process of the run that admitted the spawns, its budget unbounded. -/
def running (spawns : List String) (log : List Event) : World :=
  ⟨log, [], Budget.Process.seeded 0 (spawns.map .spawnRequested)⟩

/-- A spawn that dies on record, and approves when it is driven again. -/
def approvingDriver : Driver := fun w _ _ opts =>
  if opts.id = "u/adjudicator#0" then
    ⟨0, .error "died", { w with log := w.log ++ [resultFor opts.id "error" "died"] }⟩
  else ⟨0, .ok ⟨⟨"approve", ""⟩, "", ""⟩, w⟩

/-- The round drives its spawn again once, and answers the same when it is replayed. -/
theorem approved_again :
    let w := running ["u/adjudicator#0"] requestedLog
    let w' := running ["u/adjudicator#0", "u/adjudicator#0~retry1"] approveRecorded
    let first := adjudication.runReviewer plainHost approvingDriver w
    let again := adjudication.runReviewer plainHost (replayDriver plainHost "") w'
    first.steps.filterMap Step.spawnedId = ["u/adjudicator#0", "u/adjudicator#0~retry1"] ∧
      (∀ t ∈ first.steps, Kept plainHost adjudication w' t) ∧
      SameAnswer first.answer again.answer ∧ again.world.log = approveRecorded := by
  intro w w' first again
  have hkept : ∀ t ∈ first.steps, Kept plainHost adjudication w' t := by decide +kernel
  exact ⟨by decide +kernel, hkept,
    (runReviewer_faithful plainHost approvingDriver adjudication w).2.1 w' "" hkept⟩

/-- A spawn that dies and leaves no record. -/
def crashingDriver : Driver := fun w _ _ _ => ⟨0, .error "died", w⟩

/-- The crash answers the round; replayed with its outcome recorded since, the round asks for the
next id. -/
theorem crash_asks_again :
    (adjudication.runReviewer plainHost crashingDriver
    (running ["u/adjudicator#0"] requestedLog)).steps.filterMap
        Step.spawnedId = ["u/adjudicator#0"] ∧
      (adjudication.runReviewer plainHost crashingDriver
        (running ["u/adjudicator#0"] requestedLog)).world.log.length =
        requestedLog.length ∧
      endedBy (slice crashRecorded) "u/adjudicator#0" =
        some (some ⟨"u/adjudicator#0", "", "died", .null⟩) ∧
      isRecorded (slice crashRecorded) "u/adjudicator#0~retry1" = false ∧
      isRecorded (slice (adjudication.runReviewer plainHost (replayDriver plainHost "")
        (running ["u/adjudicator#0"] crashRecorded)).world.log)
        "u/adjudicator#0~retry1" = true := by
  refine ⟨?_, ?_, ?_, ?_, ?_⟩ <;> decide +kernel

end Rigger.Conductor.Reviewer
