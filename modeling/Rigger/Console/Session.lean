import Rigger.Console.Fold
import Rigger.Lib.Redelivered

/-!
# A page's console session (`console-core/src/lib.rs`)

A session keeps the log a page has delivered to it and the last fold it computed.  Whatever a page
delivers in order, some of it again, the log is what the session accepted, once and in order, and a
fold at a position reads just that part of it (`Sound`).

A push of an event the log holds answers the last fold, and a scrub leaves one of a part of the log
there: such a push answers as a reset to the whole log does just where that part folds to the same
(`pushes_answer_log_iff`).
-/

namespace Rigger

open Lib Ledger

namespace Console

/-! ## Inputs and replies -/

structure WireEvent where
  type_ : String
  data : Option Json
  position : ℕ
  recordedAt : Option ℕ

/-- A page mints neither an id nor a time. -/
def WireEvent.intoEvent (e : WireEvent) : Event :=
  { Event.new ("", 0) e.type_ (.json (e.data.getD .null)) with
    position := e.position
    recordedAt := (e.recordedAt.map fun secs => (secs : Int) * 1000000000).getD 0 }

structure FoldResetInput where
  events : List WireEvent
  maxRetries : Option ℕ

/-- The ops of a page; an input that is malformed comes with the parser's error. -/
inductive Call where
  | foldReset (input : Except String FoldResetInput)
  | foldPush (input : Except String WireEvent)
  | foldAt (input : Except String ℕ)
  | view (input : Except String String)
  | scrubTrack
  | paletteCommands (input : Except String (Option ℕ))

/-- `{"error": ..}`, or what an op answers. -/
abbrev Reply := Except String Json

end Console

open Console (WireEvent FoldResetInput Call Reply)

structure ConsoleSession where
  events : List Event
  maxRetries : ℕ
  current : ConsoleState

namespace ConsoleSession

def new : ConsoleSession := ⟨[], 0, (Console.fold [] 0).getD .default⟩

def entryReply (e : Conductor.AttentionEntry) : Json :=
  .obj (Json.members [("kind", some (.str e.kind)), ("unit", Json.unlessEmpty e.unit),
    ("detail", some (.str e.detail))])

def unitsReply (units : Console.UnitStatuses) : Json := .obj (units.map fun u => (u.1, .str u.2))

def foldStateReply (state : ConsoleState) : Json :=
  .obj [("units", unitsReply state.units), ("blockers", .arr (state.blockers.map .str)),
    ("dock", .arr (state.dock.map entryReply)), ("statusline", .str state.statusline)]

def markReply (m : Console.ScrubMark) : Json :=
  .obj [("position", .num m.position), ("kind", .str m.kind), ("color", .str m.color),
    ("tall", .bool m.tall), ("tooltip", .str m.tooltip)]

def tickReply (t : Console.ScrubTick) : Json :=
  .obj [("position", .num t.position), ("label", .str t.label)]

def commandsReply (commands : List Console.PaletteCommand) : Json :=
  .obj [("commands", .arr (commands.map fun c =>
    .obj [("kind", .str c.kind), ("id", .str c.id), ("label", .str c.label)]))]

/-! ## Ops -/

/-- What the ops take from outside: the text of the fold's error, the debug format of a string and
the parser of a verdict's line. -/
structure Host where
  foldError : List Event → String
  debug : String → String
  line : String → Option Json

def eventsUpTo (events : List Event) (position : ℕ) : List Event :=
  events.filter fun e => decide (e.position ≤ position)

/-- The part of a log up to a position, if there is one. -/
def eventsAt (events : List Event) (position : Option ℕ) : List Event :=
  match position with
  | some p => eventsUpTo events p
  | none => events

section
variable (host : Host) (s : ConsoleSession)

def foldReset : Except String FoldResetInput → ConsoleSession × Reply
  | .error e => (s, .error ("fold_reset: malformed input: " ++ e))
  | .ok input =>
    let events := input.events.map WireEvent.intoEvent
    let maxRetries := input.maxRetries.getD s.maxRetries
    match Console.fold events maxRetries with
    | some state => (⟨events, maxRetries, state⟩, .ok (foldStateReply state))
    | none => (s, .error ("fold_reset: " ++ host.foldError events))

def foldPush : Except String WireEvent → ConsoleSession × Reply
  | .error e => (s, .error ("fold_push: malformed input: " ++ e))
  | .ok ev =>
    -- a position the log holds answers the last fold, and is not folded again
    if s.events.any fun e => e.position == ev.position then (s, .ok (foldStateReply s.current))
    else
      let events := s.events ++ [ev.intoEvent]
      match Console.fold events s.maxRetries with
      | some state => ({ s with events := events, current := state }, .ok (foldStateReply state))
      | none => (s, .error ("fold_push: " ++ host.foldError events))

def foldAt : Except String ℕ → ConsoleSession × Reply
  | .error e => (s, .error ("fold_at: malformed input: " ++ e))
  | .ok position =>
    let slice := eventsUpTo s.events position
    match Console.fold slice s.maxRetries with
    | some state => ({ s with current := state }, .ok (foldStateReply state))
    | none => (s, .error ("fold_at: " ++ host.foldError slice))

def view : Except String String → Reply
  | .error e => .error ("view: malformed input: " ++ e)
  | .ok name =>
    if name = "units" then .ok (.obj [("units", unitsReply s.current.units)])
    else if name = "blockers" then .ok (.obj [("blockers", .arr (s.current.blockers.map .str))])
    else if name = "dock" then .ok (.obj [("dock", .arr (s.current.dock.map entryReply))])
    else if name = "statusline" then .ok (.obj [("statusline", .str s.current.statusline)])
    else .error ("view: " ++ host.debug name ++ " is not yet available")

def scrubTrack : Reply :=
  let track := Console.scrubTrack host.line s.events
  .ok (.obj [("marks", .arr (track.marks.map markReply)),
  ("ticks", .arr (track.ticks.map tickReply))])

/-- Malformed input asks for no position. -/
def askedPosition : Except String (Option ℕ) → Option ℕ
  | .ok position => position
  | .error _ => none

def paletteCommands (input : Except String (Option ℕ)) : Reply :=
  let events := eventsAt s.events (askedPosition input)
  let units := ((Console.fold events s.maxRetries).map ConsoleState.units).getD s.current.units
  .ok (commandsReply (Console.paletteCommands events units))

def call : Call → ConsoleSession × Reply
  | .foldReset input => s.foldReset host input
  | .foldPush input => s.foldPush host input
  | .foldAt input => s.foldAt host input
  | .view input => (s, s.view host input)
  | .scrubTrack => (s, s.scrubTrack host)
  | .paletteCommands input => (s, s.paletteCommands input)

end

/-! ## Pages -/

/-- What a page was answered, the last call first. -/
abbrev Transcript := List (Call × Reply)

/-- The events delivered since the last reset that was answered, with its own. -/
def delivered : Transcript → List Event
  | [] => []
  | (.foldReset (.ok input), .ok _) :: _ => input.events.map WireEvent.intoEvent
  | (.foldPush (.ok ev), _) :: t => ev.intoEvent :: delivered t
  | _ :: t => delivered t

/-- Those of them that were accepted. -/
def accepted : Transcript → List Event
  | [] => []
  | (.foldReset (.ok input), .ok _) :: _ => input.events.map WireEvent.intoEvent
  | (.foldPush (.ok ev), .ok _) :: t => ev.intoEvent :: accepted t
  | _ :: t => accepted t

/-- The position last scrubbed to since the log last changed. -/
def scrubbed : Transcript → Option ℕ
  | [] => none
  | (.foldReset (.ok _), .ok _) :: _ => none
  | (.foldPush (.ok ev), .ok _) :: t => if ev.intoEvent ∈ accepted t then scrubbed t else none
  | (.foldAt (.ok position), .ok _) :: _ => some position
  | _ :: t => scrubbed t

/-- A page resets to a log in the order of its positions, and pushes in that order, some events
again. -/
def Ordered (t : Transcript) : Call → Prop
  | .foldReset (.ok input) =>
    (input.events.map WireEvent.intoEvent).Pairwise fun a b => a.position < b.position
  | .foldPush (.ok ev) => InOrder Event.position (delivered t) ev.intoEvent
  | _ => True

/-- The sessions pages bring about. -/
inductive Reached (host : Host) : ConsoleSession → Transcript → Prop where
  | new : Reached host .new []
  | call {s : ConsoleSession} {t : Transcript} (c : Call) : Reached host s t → Ordered t c →
      Reached host (s.call host c).1 ((c, (s.call host c).2) :: t)

/-- A reset to the log a session holds, with its bound. -/
def Relogs (s : ConsoleSession) (input : FoldResetInput) : Prop :=
  input.events.map WireEvent.intoEvent = s.events ∧ input.maxRetries = some s.maxRetries

/-- What the log answers up to a position. -/
def answersAt (s : ConsoleSession) (position : Option ℕ) : Option Json :=
  (Console.fold (eventsAt s.events position) s.maxRetries).map foldStateReply

/-! ## What holds of a session -/

/-- The log keeps what was delivered and can be read, the last fold is of the part last asked for,
and a page can send the log. -/
structure Sound (s : ConsoleSession) (t : Transcript) : Prop where
  kept : Kept Event.position folds (delivered t) s.events
  accepted_iff : ∀ e, e ∈ s.events ↔ e ∈ accepted t
  current : Console.fold (eventsAt s.events (scrubbed t)) s.maxRetries = some s.current
  relogs : ∃ input, s.Relogs input

theorem eventsAt_subset (events : List Event) (position : Option ℕ) :
    eventsAt events position ⊆ events := by
  cases position with
  | none => exact List.Subset.refl _
  | some p => exact List.filter_subset_self _

theorem Sound.fold_eventsAt {s : ConsoleSession} {t : Transcript} (h : s.Sound t)
    (position : Option ℕ) :
    ∃ state, Console.fold (eventsAt s.events position) s.maxRetries = some state :=
  Option.isSome_iff_exists.1 ((Console.fold_isSome _ _).2 fun e he =>
    ((h.kept.mem_iff e).1 (eventsAt_subset s.events position he)).2)

theorem Sound.new : ConsoleSession.new.Sound [] := by
  obtain ⟨state, hstate⟩ := Option.isSome_iff_exists.1 ((Console.fold_isSome [] 0).2 (by simp))
  refine ⟨.nil, fun e => Iff.rfl, ?_, ⟨⟨[], some 0⟩, rfl, rfl⟩⟩
  show Console.fold [] 0 = some ((Console.fold [] 0).getD .default)
  rw [hstate]
  rfl

section
variable {host : Host} {s : ConsoleSession} {t : Transcript}

/-- What a reset does: it takes the events, all of them ones that can be read, or fails. -/
theorem foldReset_cases (host : Host) (s : ConsoleSession) (input : FoldResetInput) :
    (∃ state, Console.fold (input.events.map WireEvent.intoEvent)
          (input.maxRetries.getD s.maxRetries) = some state ∧
        s.foldReset host (.ok input) = (⟨input.events.map WireEvent.intoEvent,
          input.maxRetries.getD s.maxRetries, state⟩, .ok (foldStateReply state))) ∨
      ∃ msg, s.foldReset host (.ok input) = (s, .error msg) := by
  unfold foldReset
  cases hfold : Console.fold (input.events.map WireEvent.intoEvent)
      (input.maxRetries.getD s.maxRetries) with
  | some state => exact .inl ⟨state, rfl, by simp only [hfold]⟩
  | none => exact .inr ⟨_, by simp only [hfold]; rfl⟩

variable {ev : WireEvent} {input : FoldResetInput}

/-- What a push in order does: the log holds the event, or it is appended, or it cannot be read. -/
theorem Sound.foldPush_cases (h : s.Sound t) (host : Host)
    (hev : InOrder Event.position (delivered t) ev.intoEvent) :
    (ev.intoEvent ∈ s.events ∧
      s.foldPush host (.ok ev) = (s, .ok (foldStateReply s.current))) ∨
    (ev.intoEvent ∉ s.events ∧ folds ev.intoEvent = true ∧ ∃ state,
      Console.fold (s.events ++ [ev.intoEvent]) s.maxRetries = some state ∧
        s.foldPush host (.ok ev) =
          ({ s with events := s.events ++ [ev.intoEvent], current := state },
          .ok (foldStateReply state))) ∨
    (ev.intoEvent ∉ s.events ∧ folds ev.intoEvent = false ∧
      ∃ msg, s.foldPush host (.ok ev) = (s, .error msg)) := by
  have hany : (s.events.any fun e => e.position == ev.position) = true ↔ ev.intoEvent ∈ s.events :=
    h.kept.any_key hev
  by_cases hmem : ev.intoEvent ∈ s.events
  · exact .inl ⟨hmem, by simp only [foldPush, if_pos (hany.2 hmem)]⟩
  · simp only [foldPush, if_neg fun hheld => hmem (hany.1 hheld)]
    have hsome := Console.fold_isSome (s.events ++ [ev.intoEvent]) s.maxRetries
    have hlog : ∀ e ∈ s.events, folds e = true := fun e he => ((h.kept.mem_iff e).1 he).2
    cases hfold : Console.fold (s.events ++ [ev.intoEvent]) s.maxRetries with
    | some state =>
      rw [hfold] at hsome
      exact .inr (.inl ⟨hmem, hsome.1 rfl _ (by simp), state, rfl, rfl⟩)
    | none =>
      refine .inr (.inr ⟨hmem, ?_, _, rfl⟩)
      rw [← Bool.not_eq_true]
      intro hev
      rw [hfold] at hsome
      have hall : ∀ e ∈ s.events ++ [ev.intoEvent], folds e = true := by
        simpa [or_imp, forall_and] using ⟨hlog, hev⟩
      exact Bool.false_ne_true (hsome.2 hall)

theorem Sound.foldAt_eq (h : s.Sound t) (host : Host) (position : ℕ) : ∃ state,
    Console.fold (eventsUpTo s.events position) s.maxRetries = some state ∧
      s.foldAt host (.ok position) = ({ s with current := state }, .ok (foldStateReply state)) := by
  obtain ⟨state, hstate⟩ := h.fold_eventsAt (some position)
  have hupTo : Console.fold (eventsUpTo s.events position) s.maxRetries = some state := hstate
  exact ⟨state, hupTo, by simp only [foldAt, hupTo]⟩

theorem Sound.same {t' : Transcript} (h : s.Sound t) (hdelivered : delivered t' = delivered t)
    (haccepted : accepted t' = accepted t) (hscrubbed : scrubbed t' = scrubbed t) : s.Sound t' where
  kept := hdelivered ▸ h.kept
  accepted_iff := haccepted ▸ h.accepted_iff
  current := hscrubbed ▸ h.current
  relogs := h.relogs

theorem Sound.foldReset (h : s.Sound t) (host : Host)
    (hinput : Ordered t (.foldReset (.ok input))) :
    (s.foldReset host (.ok input)).1.Sound
      ((.foldReset (.ok input), (s.foldReset host (.ok input)).2) :: t) := by
  rcases foldReset_cases host s input with ⟨state, hfold, heq⟩ | ⟨msg, heq⟩
  · rw [heq]
    have hfolds := (Console.fold_isSome _ _).1 (by rw [hfold]; rfl)
    exact ⟨.of_sorted hinput hfolds, fun e => Iff.rfl, hfold,
      ⟨input.events, some (input.maxRetries.getD s.maxRetries)⟩, rfl, rfl⟩
  · rw [heq]
    exact h.same rfl rfl rfl

theorem scrubbed_push (ev : WireEvent) (reply : Json) (t : Transcript) :
    scrubbed ((.foldPush (.ok ev), .ok reply) :: t) =
      if ev.intoEvent ∈ accepted t then scrubbed t else none := rfl

theorem Sound.foldPush (h : s.Sound t) (host : Host) (hev : Ordered t (.foldPush (.ok ev))) :
    (s.foldPush host (.ok ev)).1.Sound
      ((.foldPush (.ok ev), (s.foldPush host (.ok ev)).2) :: t) := by
  have hkept := h.kept.deliver hev
  have hany := h.kept.any_key hev
  unfold deliver at hkept
  rcases h.foldPush_cases host hev with ⟨hmem, heq⟩ | ⟨hnew, hfolds, state, hfold, heq⟩ |
    ⟨hnew, hfolds, msg, heq⟩
  · rw [heq]
    rw [if_pos (hany.2 hmem)] at hkept
    refine ⟨hkept, fun e => ?_, ?_, h.relogs⟩
    · show e ∈ s.events ↔ e ∈ ev.intoEvent :: accepted t
      rw [List.mem_cons, ← h.accepted_iff]
      exact ⟨.inr, fun he => he.elim (fun he => he ▸ hmem) id⟩
    · rw [scrubbed_push, if_pos ((h.accepted_iff _).1 hmem)]
      exact h.current
  · rw [heq]
    rw [if_neg fun hheld => hnew (hany.1 hheld), if_pos hfolds] at hkept
    obtain ⟨input, hevents, hbound⟩ := h.relogs
    refine ⟨hkept, fun e => ?_, ?_, ⟨input.events ++ [ev], input.maxRetries⟩, ?_, hbound⟩
    · show e ∈ s.events ++ [ev.intoEvent] ↔ e ∈ ev.intoEvent :: accepted t
      rw [List.mem_append, List.mem_singleton, List.mem_cons, ← h.accepted_iff]
      exact or_comm
    · rw [scrubbed_push, if_neg fun hmem => hnew ((h.accepted_iff _).2 hmem)]
      exact hfold
    · rw [List.map_append, hevents]
      rfl
  · rw [heq]
    rw [if_neg fun hheld => hnew (hany.1 hheld), hfolds, if_neg Bool.false_ne_true] at hkept
    exact ⟨hkept, h.accepted_iff, h.current, h.relogs⟩

theorem Sound.call (h : s.Sound t) (host : Host) {c : Call} (hc : Ordered t c) :
    (s.call host c).1.Sound ((c, (s.call host c).2) :: t) := by
  cases c with
  | foldReset input =>
    cases input with
    | error e => exact h.same rfl rfl rfl
    | ok input => exact h.foldReset host hc
  | foldPush input =>
    cases input with
    | error e => exact h.same rfl rfl rfl
    | ok ev => exact h.foldPush host hc
  | foldAt input =>
    cases input with
    | error e => exact h.same rfl rfl rfl
    | ok position =>
      obtain ⟨state, hstate, heq⟩ := h.foldAt_eq host position
      show (s.foldAt host (.ok position)).1.Sound
        ((.foldAt (.ok position), (s.foldAt host (.ok position)).2) :: t)
      rw [heq]
      exact ⟨h.kept, h.accepted_iff, hstate, h.relogs⟩
  | view input => exact h.same rfl rfl rfl
  | scrubTrack => exact h.same rfl rfl rfl
  | paletteCommands input => exact h.same rfl rfl rfl

theorem sound_of_reached (h : Reached host s t) : s.Sound t := by
  induction h with
  | new => exact .new
  | call c _ hc ih => exact ih.call host hc

theorem call_error (host : Host) (s : ConsoleSession) (c : Call) {msg : String}
    (h : (s.call host c).2 = .error msg) : (s.call host c).1 = s := by
  cases c with
  | foldReset input =>
    cases input with
    | error e => rfl
    | ok input =>
      rcases foldReset_cases host s input with ⟨state, -, heq⟩ | ⟨msg', heq⟩
      · rw [show s.call host (.foldReset (.ok input)) = _ from heq] at h
        cases h
      · rw [show s.call host (.foldReset (.ok input)) = _ from heq]
  | foldPush input =>
    cases input with
    | error e => rfl
    | ok ev =>
      by_cases hheld : (s.events.any fun e => e.position == ev.position) = true
      · simp only [ConsoleSession.call, ConsoleSession.foldPush, if_pos hheld] at h
        cases h
      · cases hfold : Console.fold (s.events ++ [ev.intoEvent]) s.maxRetries with
        | some state =>
          simp only [ConsoleSession.call, ConsoleSession.foldPush, if_neg hheld, hfold] at h
          cases h
        | none => simp only [ConsoleSession.call, ConsoleSession.foldPush, if_neg hheld, hfold]
  | foldAt input =>
    cases input with
    | error e => rfl
    | ok position =>
      cases hfold : Console.fold (eventsUpTo s.events position) s.maxRetries with
      | some state =>
        simp only [ConsoleSession.call, ConsoleSession.foldAt, hfold] at h
        cases h
      | none => simp only [ConsoleSession.call, ConsoleSession.foldAt, hfold]
  | view input => rfl
  | scrubTrack => rfl
  | paletteCommands input => rfl

/-! ## What a push answers -/

theorem Sound.answersAt_some (h : s.Sound t) (position : Option ℕ) :
    ∃ reply, s.answersAt position = some reply := by
  obtain ⟨state, hstate⟩ := h.fold_eventsAt position
  exact ⟨foldStateReply state, by rw [answersAt, hstate]; rfl⟩

variable {reply : Json}

theorem foldReset_relogs (host : Host) (hinput : s.Relogs input)
    (h : s.answersAt none = some reply) :
    (s.foldReset host (.ok input)).2 = .ok reply := by
  obtain ⟨hevents, hbound⟩ := hinput
  obtain ⟨state, hstate, rfl⟩ := Option.map_eq_some_iff.1 h
  have hfold : Console.fold s.events s.maxRetries = some state := hstate
  simp only [foldReset, hevents, hbound, Option.getD_some, hfold]

/-- A push of an event the log holds answers what the part last scrubbed to does. -/
theorem Sound.foldPush_held (h : s.Sound t) (host : Host)
    (hev : InOrder Event.position (delivered t) ev.intoEvent) (hheld : ev.intoEvent ∈ s.events) :
    ∃ reply, s.foldPush host (.ok ev) = (s, .ok reply) ∧
      s.answersAt (scrubbed t) = some reply := by
  rcases h.foldPush_cases host hev with ⟨-, heq⟩ | ⟨hnew, -⟩ | ⟨hnew, -⟩
  · exact ⟨_, heq, by rw [answersAt, h.current]; rfl⟩
  · exact absurd hheld hnew
  · exact absurd hheld hnew

theorem Sound.foldPush_new (h : s.Sound t) (host : Host)
    (hev : InOrder Event.position (delivered t) ev.intoEvent) (hnew : ev.intoEvent ∉ s.events)
    (hok : (s.foldPush host (.ok ev)).2 = .ok reply) :
    (s.foldPush host (.ok ev)).1.answersAt none = some reply := by
  rcases h.foldPush_cases host hev with ⟨hheld, -⟩ | ⟨-, -, state, hfold, heq⟩ | ⟨-, -, msg, heq⟩
  · exact absurd hheld hnew
  · rw [heq] at hok ⊢
    cases hok
    exact Option.map_eq_some_iff.2 ⟨state, hfold, rfl⟩
  · rw [heq] at hok
    cases hok

theorem Sound.push_answers_iff (h : s.Sound t) (host : Host)
    (hev : InOrder Event.position (delivered t) ev.intoEvent)
    (hok : (s.foldPush host (.ok ev)).2 = .ok reply)
    (hinput : (s.foldPush host (.ok ev)).1.Relogs input) :
    ((s.foldPush host (.ok ev)).1.foldReset host (.ok input)).2 = .ok reply ↔
      (ev.intoEvent ∈ accepted t → ∀ p, scrubbed t = some p →
        s.answersAt (some p) = s.answersAt none) := by
  rw [← h.accepted_iff]
  by_cases hheld : ev.intoEvent ∈ s.events
  · obtain ⟨reply', heq, hscrubbed⟩ := h.foldPush_held host hev hheld
    rw [heq] at hok hinput ⊢
    cases hok
    obtain ⟨whole, hwhole⟩ := h.answersAt_some none
    rw [show (s.foldReset host (.ok input)).2 = .ok whole from foldReset_relogs host hinput hwhole,
      hwhole]
    constructor
    · rintro heq - p hp
      cases heq
      rw [← hp, hscrubbed]
    · intro hanswers
      cases hp : scrubbed t with
      | none =>
        rw [hp, hwhole] at hscrubbed
        cases hscrubbed
        rfl
      | some p =>
        rw [hp, hanswers hheld p hp] at hscrubbed
        cases hscrubbed
        rfl
  · exact ⟨fun _ hmem => absurd hmem hheld,
      fun _ => foldReset_relogs host hinput (h.foldPush_new host hev hheld hok)⟩

/-- The palette reads the units off the fold of the part it is asked for. -/
theorem Sound.paletteCommands_eq (h : s.Sound t) (asked : Except String (Option ℕ)) :
    ∃ state, Console.fold (eventsAt s.events (askedPosition asked)) s.maxRetries = some state ∧
      s.paletteCommands asked = .ok (commandsReply
        (Console.paletteCommands (eventsAt s.events (askedPosition asked)) state.units)) := by
  obtain ⟨state, hstate⟩ := h.fold_eventsAt (askedPosition asked)
  exact ⟨state, hstate, by simp only [paletteCommands, hstate, Option.map_some, Option.getD_some]⟩

/-- In a session whose page delivers in order, the log is what was accepted, a push answers the
whole log but where it is of an event the log holds and the part last scrubbed to answers otherwise,
a scrub and a palette read the part they name and leave the log, and an error leaves the session. -/
theorem pushes_answer_log_iff (host : Host) (hs : Reached host s t) :
    s.events.Pairwise (fun a b => a.position < b.position) ∧
    (∀ e, e ∈ s.events ↔ e ∈ accepted t) ∧
    ∀ c, Ordered t c →
      (∀ ev reply, c = .foldPush (.ok ev) → (s.call host c).2 = .ok reply →
        (∃ input, (s.call host c).1.Relogs input) ∧
        ∀ input, (s.call host c).1.Relogs input →
          (((s.call host c).1.foldReset host (.ok input)).2 = .ok reply ↔
            (ev.intoEvent ∈ accepted t → ∀ p, scrubbed t = some p →
              s.answersAt (some p) = s.answersAt none))) ∧
      (∀ p, c = .foldAt (.ok p) → (s.call host c).1.events = s.events ∧
        ∃ state, Console.fold (eventsUpTo s.events p) s.maxRetries = some state ∧
          (s.call host c).2 = .ok (foldStateReply state)) ∧
      (∀ asked, c = .paletteCommands asked → (s.call host c).1.events = s.events ∧
        ∃ state, Console.fold (eventsAt s.events (askedPosition asked)) s.maxRetries = some state ∧
          (s.call host c).2 = .ok (commandsReply
            (Console.paletteCommands (eventsAt s.events (askedPosition asked)) state.units))) ∧
      ∀ msg, (s.call host c).2 = .error msg → (s.call host c).1 = s := by
  have h := sound_of_reached hs
  refine ⟨h.kept.sorted, h.accepted_iff, fun c hc => ⟨?_, ?_, ?_, fun msg => call_error host s c⟩⟩
  · rintro ev reply rfl hok
    exact ⟨(h.call host hc).relogs, fun input hinput => h.push_answers_iff host hc hok hinput⟩
  · rintro p rfl
    obtain ⟨state, hstate, heq⟩ := h.foldAt_eq host p
    rw [show s.call host (.foldAt (.ok p)) = _ from heq]
    exact ⟨rfl, state, hstate, rfl⟩
  · rintro asked rfl
    exact ⟨rfl, h.paletteCommands_eq asked⟩

end

/-! ## A push of an event the log holds, after a scrub -/

def plainHost : Host where
  foldError := fun _ => ""
  debug := id
  line := fun _ => none

def started : WireEvent := ⟨"UnitStarted", some (.obj [("id", .str "u1")]), 1, none⟩

def integrated : WireEvent := ⟨"UnitIntegrated", some (.obj [("id", .str "u1")]), 2, none⟩

/-- The statuses a log folds to. -/
def statusesOf (events : List Event) : Option Console.UnitStatuses :=
  (project events).map fun run => run.units.toList.map fun x => (x.1, x.2.status.asStr)

theorem statusesOf_eq {events : List Event} {maxRetries : ℕ} {state : ConsoleState}
    (h : Console.fold events maxRetries = some state) : statusesOf events = some state.units := by
  unfold Console.fold Blocker.fromEvents at h
  unfold statusesOf
  cases hrun : project events with
  | none =>
    rw [hrun] at h
    cases h
  | some run =>
    rw [hrun] at h
    cases h
    rfl

theorem eventsUpTo_one :
    eventsUpTo [started.intoEvent, integrated.intoEvent] 1 = [started.intoEvent] := by
  decide

/-- A page resets to a unit's start, pushes its integration and scrubs back. -/
theorem reached_scrubbed : ∃ state t, Reached plainHost
      ⟨[started.intoEvent, integrated.intoEvent], 0, state⟩ t ∧
    delivered t = [integrated.intoEvent, started.intoEvent] ∧
    accepted t = [integrated.intoEvent, started.intoEvent] ∧ scrubbed t = some 1 := by
  have hfolds : ∀ e ∈ [started.intoEvent, integrated.intoEvent], folds e = true := by decide
  obtain ⟨first, hfirst⟩ := Option.isSome_iff_exists.1
    ((Console.fold_isSome [started.intoEvent] 0).2 fun e he => hfolds e (by simp_all))
  obtain ⟨whole, hwhole⟩ := Option.isSome_iff_exists.1
    ((Console.fold_isSome [started.intoEvent, integrated.intoEvent] 0).2 hfolds)
  have hreset : ConsoleSession.new.call plainHost (.foldReset (.ok ⟨[started], none⟩)) =
      (⟨[started.intoEvent], 0, first⟩, .ok (foldStateReply first)) := by
    simp only [call, foldReset, ConsoleSession.new, List.map_cons, List.map_nil,
      Option.getD_none, hfirst]
  have hpush : ConsoleSession.call plainHost ⟨[started.intoEvent], 0, first⟩
      (.foldPush (.ok integrated)) = (⟨[started.intoEvent, integrated.intoEvent], 0, whole⟩,
        .ok (foldStateReply whole)) := by
    have hheld : ¬([started.intoEvent].any fun e => e.position == integrated.position) = true := by
      decide
    simp only [call, foldPush, if_neg hheld, List.singleton_append, hwhole]
  have hscrub : ConsoleSession.call plainHost
      ⟨[started.intoEvent, integrated.intoEvent], 0, whole⟩ (.foldAt (.ok 1)) =
        (⟨[started.intoEvent, integrated.intoEvent], 0, first⟩, .ok (foldStateReply first)) := by
    simp only [call, foldAt, eventsUpTo_one, hfirst]
  have h₀ : Reached plainHost .new [] := .new
  have h₁ := h₀.call _
    (show Ordered [] (.foldReset (.ok ⟨[started], none⟩)) from List.pairwise_singleton _ _)
  rw [hreset] at h₁
  have h₂ := h₁.call (.foldPush (.ok integrated)) (Or.inr fun b hb => by
    rw [List.mem_singleton.1 hb]
    decide)
  rw [hpush] at h₂
  have h₃ := h₂.call (.foldAt (.ok 1)) trivial
  rw [hscrub] at h₃
  exact ⟨first, _, h₃, rfl, rfl, rfl⟩

/-- The log of the scrubbed page is what it accepted, in order; a push of the integration it holds
answers the whole log just where the part scrubbed to answers it. -/
theorem scrubbed_log : ∃ state t, Reached plainHost
      ⟨[started.intoEvent, integrated.intoEvent], 0, state⟩ t ∧ scrubbed t = some 1 ∧
    ([started.intoEvent, integrated.intoEvent].Pairwise fun a b => a.position < b.position) ∧
    (∀ e, e ∈ [started.intoEvent, integrated.intoEvent] ↔ e ∈ accepted t) ∧
    let s : ConsoleSession := ⟨[started.intoEvent, integrated.intoEvent], 0, state⟩
    let pushed := s.call plainHost (.foldPush (.ok integrated))
    ∀ reply, pushed.2 = .ok reply → ∀ input, pushed.1.Relogs input →
      ((pushed.1.foldReset plainHost (.ok input)).2 = .ok reply ↔
        s.answersAt (some 1) = s.answersAt none) := by
  obtain ⟨state, t, hreached, hdelivered, -, hscrubbed⟩ := reached_scrubbed
  obtain ⟨hsorted, haccepted, hcalls⟩ := pushes_answer_log_iff plainHost hreached
  refine ⟨state, t, hreached, hscrubbed, hsorted, haccepted, fun reply hreply input hinput => ?_⟩
  have hordered : Ordered t (.foldPush (.ok integrated)) :=
    .inl (by rw [hdelivered]; exact List.mem_cons_self)
  have hheld : integrated.intoEvent ∈ accepted t := (haccepted _).1
    (show integrated.intoEvent ∈ [started.intoEvent, integrated.intoEvent] by decide)
  have hpush := ((hcalls _ hordered).1 integrated reply rfl hreply).2 input hinput
  rw [hpush, hscrubbed]
  simp [hheld]

/-- The integration delivered again to the scrubbed page is answered with the unit as it started, a
reset to the log with the unit integrated. -/
theorem redelivery_answers_scrub : ∃ state t, Reached plainHost
      ⟨[started.intoEvent, integrated.intoEvent], 0, state⟩ t ∧
    Ordered t (.foldPush (.ok integrated)) ∧
    ∃ reply s, ConsoleSession.call plainHost
        ⟨[started.intoEvent, integrated.intoEvent], 0, state⟩ (.foldPush (.ok integrated)) =
          (s, .ok reply) ∧
      ∀ input, s.Relogs input → (s.foldReset plainHost (.ok input)).2 ≠ .ok reply := by
  obtain ⟨state, t, hreached, hdelivered, -, hscrubbed⟩ := reached_scrubbed
  have h := sound_of_reached hreached
  have hev : Ordered t (.foldPush (.ok integrated)) :=
    .inl (by rw [hdelivered]; exact List.mem_cons_self)
  obtain ⟨reply, heq, hpart⟩ := h.foldPush_held plainHost hev
    (show integrated.intoEvent ∈ [started.intoEvent, integrated.intoEvent] by decide)
  refine ⟨state, t, hreached, hev, reply, _, heq, fun input hinput hreset => ?_⟩
  obtain ⟨answer, hwhole⟩ := h.answersAt_some none
  rw [foldReset_relogs plainHost hinput hwhole] at hreset
  cases hreset
  -- the two folds differ in the unit's status
  rw [hscrubbed] at hpart
  obtain ⟨first, hfirst, hfirstReply⟩ := Option.map_eq_some_iff.1 hpart
  obtain ⟨whole, hfold, hwholeReply⟩ := Option.map_eq_some_iff.1 hwhole
  have hpartStatus : statusesOf [started.intoEvent] = some [("u1", "grounding")] := by decide
  have hwholeStatus : statusesOf [started.intoEvent, integrated.intoEvent] =
      some [("u1", "integrated")] := by decide
  have hgrounding : statusesOf (eventsUpTo [started.intoEvent, integrated.intoEvent] 1) =
      some first.units := statusesOf_eq hfirst
  have hintegrated : statusesOf [started.intoEvent, integrated.intoEvent] = some whole.units :=
    statusesOf_eq hfold
  rw [eventsUpTo_one, hpartStatus, Option.some_inj] at hgrounding
  rw [hwholeStatus, Option.some_inj] at hintegrated
  have hunits := hfirstReply.trans hwholeReply.symm
  simp [foldStateReply, unitsReply, ← hgrounding, ← hintegrated] at hunits

end ConsoleSession

end Rigger
