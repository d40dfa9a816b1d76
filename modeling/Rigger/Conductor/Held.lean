import Rigger.Domain.Agent
import Rigger.Lib.Run
import Rigger.Store.Writers

/-!
# The held run's driver (`rigger-conductor/src/held.rs`)

`HeldDriver` launches a spawn only after a read of the run that found no hold, relaunches what a
hold or a wait class ended up to `relaunchBound` times, and on `rigger run` records the error it
hands on as the spawn's result.  Calls of distinct ids run beside each other and beside every other
writer of the run; `held_run` says what each call does over its store calls.  A call whose store
fails hands its error on unrecorded (`held_run_unrecorded`).
-/

namespace Rigger.Held

open Lib Ledger Spawn Agent

def relaunchBound : Nat := 2

inductive Results where
  | recorded
  | handedBack
deriving DecidableEq

/-- `debug` quotes an id. -/
structure HeldDriver where
  debug : String → String
  results : Results
  session : Bool

/-- An error that is handed on at once: a park, a refusal or a store fault. -/
def isMarked (e : String) : Bool := isParkedOrRefused e emitRefusedMarker || isStoreFault e

/-- `SpawnResult::failed`. -/
def failed (id e : String) : Result := ⟨id, "", e, .null⟩

/-- `hold_stands`, of the log a read met. -/
def holdStands (log : List Event) : Option Bool :=
  (holdFold none (Conditional.slice log)).map Option.isSome

/-- `carries_across`; `run` is the run's slice where it could be read. -/
def carriesAcross (e id : String) (run : Option (List Event)) : Bool :=
  if isMarked e then false
  else
    match run with
    | none => false
    | some run =>
      if endedBy run id ≠ some none then false
      else if isInterrupted e then true
      else (project run).any fun state =>
        state.hold.isSome || (failureClass e).any fun category => category.row.waits

def relaunchOwed (counts : String → Nat) (id : String) : Bool := decide (counts id < relaunchBound)

/-- What a call has done, the log it met with it. -/
inductive Did where
  | called
  | looked (log : List Event) (held : Option Bool)
  | paused
  | launched (again : Bool)
  | succeeded
  | failed (e : String)
  | relaunching
  | unread
  | read (log : List Event)
  | stood (log : List Event)
  | unwritten
  | wrote (log : List Event) (ev : Event)
  | returned (e : String)
deriving DecidableEq

/-- Where a call stands. -/
inductive Phase where
  | idle
  | waiting (paused : Bool) (relaunched : Option String)
  | looked (paused : Bool) (relaunched : Option String) (held : Option Bool) (said : String)
  | launched
  | failed (e : String)
  | handing (e : String)
  | writing (e : String)

/-- `did` is each spawn id's history, newest first. -/
structure World where
  log : List Event
  closed : Bool
  counts : String → Nat
  phase : String → Phase
  did : String → List Did

/-- `turn` is a call's next step: whether its store call succeeds, what a failed one says, the inner
driver's outcome and the mint of what it writes. -/
inductive Act where
  | record (events : List Event)
  | close
  | call (id : String)
  | turn (id : String) (ok : Bool) (said : String) (outcome : Option String)
    (mint : Conditional.Mint)

def Act.isTurn (id : String) : Act → Bool
  | .turn id' .. => id' == id
  | _ => false

namespace World

def new (log : List Event) : World := ⟨log, false, fun _ => 0, fun _ => .idle, fun _ => []⟩

def moves (w : World) (id : String) (did : List Did) (p : Phase) : World :=
  { w with
    phase := Function.update w.phase id p
    did := Function.update w.did id (did ++ w.did id) }

def counted (w : World) (id : String) (n : Nat) : World :=
  { w with counts := Function.update w.counts id n }

section
variable (w : World) (id : String) (did : List Did) (p : Phase) (n : Nat)

@[simp] theorem moves_phase : (w.moves id did p).phase id = p := Function.update_self _ _ _

@[simp] theorem moves_did : (w.moves id did p).did id = did ++ w.did id :=
    Function.update_self _ _ _

@[simp] theorem moves_counts : (w.moves id did p).counts = w.counts := rfl

@[simp] theorem counted_phase : (w.counted id n).phase = w.phase := rfl

@[simp] theorem counted_did : (w.counted id n).did = w.did := rfl

@[simp] theorem counted_counts : (w.counted id n).counts id = n := Function.update_self _ _ _

end

/-- `record_error` up to its read of the run. -/
def handsBack (d : HeldDriver) (w : World) (id e : String) : World :=
  if d.results = .handedBack || isMarked e || isInterrupted e && relaunchOwed w.counts id then
    w.moves id [.returned e] .idle
  else w.moves id [] (.handing e)

/-- A call's next step: `wait_out_the_hold`, the launch, `carries_across` and `try_spend_relaunch`,
`record_error`. -/
def turned (d : HeldDriver) (w : World) (id : String) (ok : Bool) (said : String)
    (outcome : Option String) (mint : Conditional.Mint) : World :=
  match w.phase id with
  | .idle => w
  | .waiting paused relaunched =>
    let held := if ok then holdStands w.log else none
    w.moves id [.looked w.log held] (.looked paused relaunched held said)
  | .looked paused relaunched held said =>
    -- the flag is read after the hold
    if (paused || held == some true) && w.closed then
      w.moves id [.returned (parkedSpawn d.debug id)] .idle
    else
      match held with
      | none => w.moves id [.returned (relaunched.getD (storeFault said))] .idle
      | some true => w.moves id [.paused] (.waiting true relaunched)
      | some false => w.moves id [.launched relaunched.isSome] .launched
  | .launched =>
    match outcome with
    | none => (w.moves id [.succeeded] .idle).counted id 0
    | some e => w.moves id [.failed e] (.failed e)
  | .failed e =>
    let run := if ok then some (Conditional.slice w.log) else none
    if carriesAcross e id run && relaunchOwed w.counts id then
      (w.moves id [.relaunching] (.waiting false (some e))).counted id (w.counts id + 1)
    else w.handsBack d id e
  | .handing e =>
    if !ok then w.moves id [.returned e, .unread] .idle
    else if isRecorded (Conditional.slice w.log) id then w.moves id [.read w.log] (.writing e)
    else w.moves id [.returned e, .read w.log] .idle
  | .writing e =>
    let decided := if ok then
      Conditional.decision (.unlessEnded (Held.failed id e) mint)
        (Conditional.slice w.log) else none
    match decided with
    | none => w.moves id [.returned e, .unwritten] .idle
    | some none => w.moves id [.returned e, .stood w.log] .idle
    | some (some ev) =>
      { w.moves id [.returned e, .wrote w.log ev] .idle with log := w.log ++ [ev] }

/-- A call of an id begins once the last one of it has returned. -/
def step (d : HeldDriver) (w : World) : Act → World
  | .record events => { w with log := w.log ++ events }
  | .close => if d.session then { w with closed := true } else w
  | .call id =>
    match w.phase id with
    | .idle => w.moves id [.called] (.waiting false none)
    | _ => w
  | .turn id ok said outcome mint => w.turned d id ok said outcome mint

/-- The world after `acts`. -/
def after (d : HeldDriver) (log : List Event) (acts : List Act) : World :=
    run (step d) (new log) acts

end World

/-! ## Histories -/

namespace Did

def isSuccess : Did → Bool
  | .succeeded => true
  | _ => false

def isRelaunch : Did → Bool
  | .launched again => again
  | _ => false

def isSpent : Did → Bool
  | .relaunching => true
  | _ => false

/-- A store call of the driver itself failed. -/
def isFailedCall : Did → Bool
  | .looked _ none | .unread | .unwritten => true
  | _ => false

/-- It leaves nothing for the next entry to answer. -/
def isSettled : Did → Bool
  | .failed _ | .wrote .. => false
  | _ => true

/-- The log it met, with what it wrote. -/
def saw : Did → Option (List Event)
  | .looked log _ | .read log | .stood log => some log
  | .wrote log ev => some (log ++ [ev])
  | _ => none

/-- How many entries of a kind there are since the last success. -/
def since (p : Did → Bool) (past : List Did) : Nat :=
  (past.takeWhile fun x => !x.isSuccess).countP p

theorem since_cons (p : Did → Bool) (x : Did) (past : List Did) :
    since p (x :: past) = if x.isSuccess then 0 else since p past + if p x then 1 else 0 := by
  unfold since
  cases hx : x.isSuccess <;> simp [hx, List.countP_cons]

theorem since_append (p : Did → Bool) {seg : List Did} (h : ∀ x ∈ seg, x.isSuccess = false)
    (past : List Did) : since p (seg ++ past) = seg.countP p + since p past := by
  induction seg with
  | nil => rw [List.nil_append, List.countP_nil, Nat.zero_add]
  | cons x seg ih =>
    obtain ⟨hx, hseg⟩ := List.forall_mem_cons.1 h
    rw [List.cons_append, since_cons, hx, ih hseg, List.countP_cons]
    simp only [Bool.false_eq_true, if_false]
    omega

/-- The relaunches spent. -/
def spent (past : List Did) : Nat := since isSpent past

def relaunches (past : List Did) : Nat := since isRelaunch past

end Did

/-- `record_error` records the error where the run parked its spawn. -/
def Recordable (d : HeldDriver) (e : String) (past : List Did) : Prop :=
  d.results = .recorded ∧ isMarked e = false ∧
    ¬(isInterrupted e = true ∧ Did.spent past < relaunchBound)

/-- What an entry says of the ones before it. -/
def Did.Allowed (d : HeldDriver) (id : String) (past : List Did) : Did → Prop
  | .looked log held => ∀ h, held = some h → holdStands log = some h
  | .launched _ => ∃ log, past.head? = some (.looked log (some false))
  | .read _ => ∃ e rest, past = .failed e :: rest ∧ Recordable d e past
  | .stood log => ∃ r, endedBy (Conditional.slice log) id = some (some r)
  | .wrote log ev => ∃ seen e rest mint, past = .read seen :: .failed e :: rest ∧
      Recordable d e past ∧ isRecorded (Conditional.slice seen) id = true ∧
      endedBy (Conditional.slice log) id = some none ∧
      ev = Conditional.resultEvent mint (Held.failed id e)
  | .returned e => Recordable d e past → ∃ x rest, past = x :: rest ∧ (x.isFailedCall = true ∨
      (∃ log, x = .read log ∧ isRecorded (Conditional.slice log) id = false) ∨
      (∃ log, x = .stood log) ∨
      ∃ log ev, x = .wrote log ev)
  | _ => True

/-- What the entry after a failure or a write is. -/
def Did.Followed (x : Did) : List Did → Prop
  | .failed e :: _ => isMarked e = true → x = .returned e
  | .wrote _ _ :: .read _ :: .failed e :: _ => x = .returned e
  | _ => True

/-- A call's history over a log, with `n` relaunches spent. -/
structure History (d : HeldDriver) (id : String) (n : Nat) (log : List Event) (did : List Did) :
    Prop where
  counted : Did.spent did = n
  owed : n ≤ relaunchBound
  relaunched : Did.relaunches did ≤ n
  bounded : ∀ past, past <:+ did → Did.relaunches past ≤ relaunchBound
  allowed : ∀ x past, x :: past <:+ did → x.Allowed d id past ∧ x.Followed past
  saw : ∀ x ∈ did, ∀ seen, x.saw = some seen → seen <+: log

/-- What a call's phase says of its history. -/
def Phase.Sound (d : HeldDriver) (id : String) (did : List Did) : Phase → Prop
  | .idle | .launched => did.head?.all Did.isSettled = true
  | .waiting _ relaunched => did.head?.all Did.isSettled = true ∧
      (relaunched.isSome = true → Did.relaunches did < Did.spent did)
  | .looked _ relaunched held _ => ∃ log rest, did = .looked log held :: rest ∧
      (relaunched.isSome = true → Did.relaunches did < Did.spent did)
  | .failed e => did.head? = some (.failed e)
  | .handing e => ∃ rest, did = .failed e :: rest ∧ Recordable d e did
  | .writing e => ∃ log rest, did = .read log :: .failed e :: rest ∧ Recordable d e did ∧
      isRecorded (Conditional.slice log) id = true

theorem decision_unlessEnded (res : Result) (mint : Conditional.Mint) (run : List Event) :
    Conditional.decision (.unlessEnded res mint) run = (endedBy run res.id).map fun r =>
      if r.isSome then none else some (Conditional.resultEvent mint res) := by
  show ((endedBy run res.id).map _).map Prod.snd = _
  rw [Option.map_map]
  rfl

section
variable {d : HeldDriver} {id : String} {n : Nat} {log : List Event} {did : List Did} {x : Did}

theorem Did.followed_of_settled (h : did.head?.all Did.isSettled = true) :
    x.Followed did := by
  cases did with
  | nil => exact True.intro
  | cons y did =>
    have hy : y.isSettled = true := h
    cases y with
    | failed e => cases hy
    | wrote log ev => cases hy
    | _ => exact True.intro

theorem History.new (log : List Event) : History d id 0 log [] where
  counted := rfl
  owed := Nat.zero_le _
  relaunched := Nat.le_refl _
  bounded past h := by
    rw [List.suffix_nil.1 h]
    exact Nat.zero_le _
  allowed x past h := by cases List.suffix_nil.1 h
  saw x hx := by cases hx

theorem History.grow (h : History d id n log did) {log' : List Event} (hlog : log <+: log') :
    History d id n log' did :=
  { h with saw := fun x hx seen hseen => (h.saw x hx seen hseen).trans hlog }

/-- A history goes on by an entry that fits it. -/
theorem History.push (h : History d id n log did) {n' : Nat} (hcounted : Did.spent (x :: did) = n')
    (howed : n' ≤ relaunchBound) (hrelaunched : Did.relaunches (x :: did) ≤ n')
    (hallowed : x.Allowed d id did) (hfollowed : x.Followed did)
    (hsaw : ∀ seen, x.saw = some seen → seen <+: log) : History d id n' log (x :: did) := by
  refine ⟨hcounted, howed, hrelaunched, fun past hpast => ?_, fun y past hpast => ?_,
    fun y hy seen hseen => ?_⟩
  · rcases List.suffix_cons_iff.1 hpast with rfl | hpast
    · exact Nat.le_trans hrelaunched howed
    · exact h.bounded past hpast
  · rcases List.suffix_cons_iff.1 hpast with heq | hpast
    · cases heq
      exact ⟨hallowed, hfollowed⟩
    · exact h.allowed y past hpast
  · rcases List.mem_cons.1 hy with rfl | hy
    · exact hsaw seen hseen
    · exact h.saw y hy seen hseen

/-- An entry that neither succeeds nor relaunches leaves the counts. -/
theorem History.plain (h : History d id n log did) (hsuccess : x.isSuccess = false)
    (hspent : x.isSpent = false) (hrelaunch : x.isRelaunch = false) (hallowed : x.Allowed d id did)
    (hfollowed : x.Followed did) (hsaw : ∀ seen, x.saw = some seen → seen <+: log) :
    History d id n log (x :: did) := by
  have hkept : ∀ p : Did → Bool, p x = false → Did.since p (x :: did) = Did.since p did := by
    intro p hp
    rw [Did.since_cons, hsuccess, hp]
    rfl
  refine h.push ((hkept _ hspent).trans h.counted) h.owed ?_ hallowed hfollowed hsaw
  rw [Did.relaunches, hkept _ hrelaunch]
  exact h.relaunched

theorem decided_eq_some {ok : Bool} {res : Result} {mint : Conditional.Mint} {run : List Event}
    {o : Option Event} (h : (if ok = true then Conditional.decision (.unlessEnded res mint) run
      else none) = some o) : ∃ r, endedBy run res.id = some r ∧
        (if r.isSome then none else some (Conditional.resultEvent mint res)) = o := by
  cases ok with
  | false => cases h
  | true =>
    rw [if_pos rfl, decision_unlessEnded] at h
    exact Option.map_eq_some_iff.1 h

/-! ## Steps -/

namespace World

variable {w : World}

/-- What holds of a spawn id at any time. -/
def Sound (d : HeldDriver) (w : World) (id : String) : Prop :=
  History d id (w.counts id) w.log (w.did id) ∧ (w.phase id).Sound d id (w.did id)

variable {w' : World} {id' : String}

theorem Sound.of_eq (h : w.Sound d id) (hcounts : w'.counts id = w.counts id)
    (hphase : w'.phase id = w.phase id) (hdid : w'.did id = w.did id) (hlog : w.log <+: w'.log) :
    w'.Sound d id := by
  unfold Sound
  rw [hcounts, hphase, hdid]
  exact ⟨h.1.grow hlog, h.2⟩

theorem sound_moves {entries : List Did} {p : Phase}
    (hhistory : History d id (w.counts id) w.log (entries ++ w.did id))
    (hphase : p.Sound d id (entries ++ w.did id)) : (w.moves id entries p).Sound d id := by
  unfold Sound
  rw [moves_phase, moves_did]
  exact ⟨hhistory, hphase⟩

/-- What a step of a call leaves of another one. -/
structure Spared (id' : String) (w w' : World) : Prop where
  counts : w'.counts id' = w.counts id'
  phase : w'.phase id' = w.phase id'
  did : w'.did id' = w.did id'
  log : w.log <+: w'.log

theorem Spared.sound (h : Spared id w w') (hsound : w.Sound d id) : w'.Sound d id :=
  hsound.of_eq h.counts h.phase h.did h.log

theorem spared_moves (h : id' ≠ id) (entries : List Did) (p : Phase) :
    Spared id' w (w.moves id entries p) :=
  ⟨rfl, Function.update_of_ne h _ _, Function.update_of_ne h _ _, List.prefix_rfl⟩

theorem Spared.counted (h : Spared id' w w') (hne : id' ≠ id) (n : Nat) :
    Spared id' w (w'.counted id n) :=
  ⟨(Function.update_of_ne hne _ _).trans h.counts, h.phase, h.did, h.log⟩

theorem Spared.logged (h : Spared id' w w') (more : List Event) :
    Spared id' w { w' with log := w.log ++ more } :=
  ⟨h.counts, h.phase, h.did, List.prefix_append _ _⟩

theorem spared_handsBack (h : id' ≠ id) (e : String) : Spared id' w (w.handsBack d id e) := by
  unfold handsBack
  split <;> exact spared_moves h _ _

theorem spared_turned (h : id' ≠ id) (ok : Bool) (said : String) (outcome : Option String)
    (mint : Conditional.Mint) : Spared id' w (w.turned d id ok said outcome mint) := by
  unfold turned
  cases w.phase id with
  | idle => exact ⟨rfl, rfl, rfl, List.prefix_rfl⟩
  | waiting paused relaunched => exact spared_moves h _ _
  | looked paused relaunched held said =>
    dsimp only
    split
    · exact spared_moves h _ _
    · split <;> exact spared_moves h _ _
  | launched =>
    cases outcome with
    | none => exact (spared_moves h _ _).counted h 0
    | some e => exact spared_moves h _ _
  | failed e =>
    dsimp only
    generalize (carriesAcross _ _ _ && _) = carried
    cases carried with
    | true => exact (spared_moves h _ _).counted h _
    | false => exact spared_handsBack h e
  | handing e =>
    dsimp only
    split
    · exact spared_moves h _ _
    · split <;> exact spared_moves h _ _
  | writing e =>
    dsimp only
    split
    · exact spared_moves h _ _
    · exact spared_moves h _ _
    · exact (spared_moves h _ _).logged _

variable {e : String}

theorem Sound.returns (h : w.Sound d id) (hallowed : (Did.returned e).Allowed d id (w.did id))
    (hfollowed : (Did.returned e).Followed (w.did id)) :
    (w.moves id [.returned e] .idle).Sound d id :=
  sound_moves (h.1.plain rfl rfl rfl hallowed hfollowed fun _ hseen => by cases hseen) rfl

/-- What leaves a call's counts, its history going on by a settled entry. -/
theorem Sound.settles (h : w.Sound d id) {x : Did} {p : Phase}
    (hsettled : (w.did id).head?.all Did.isSettled = true) (hsuccess : x.isSuccess = false)
    (hspent : x.isSpent = false) (hrelaunch : x.isRelaunch = false)
    (hallowed : x.Allowed d id (w.did id)) (hsaw : ∀ seen, x.saw = some seen → seen <+: w.log)
    (hphase : p.Sound d id (x :: w.did id)) : (w.moves id [x] p).Sound d id :=
  sound_moves (h.1.plain hsuccess hspent hrelaunch hallowed (Did.followed_of_settled hsettled) hsaw)
    hphase

theorem Sound.handsBack (h : w.Sound d id) {rest : List Did} (hdid : w.did id = .failed e :: rest) :
    (w.handsBack d id e).Sound d id := by
  unfold World.handsBack
  have hfollowed : (Did.returned e).Followed (w.did id) := by
    rw [hdid]
    exact fun _ => rfl
  split
  · rename_i hunrecorded
    refine h.returns (fun hrecordable => ?_) hfollowed
    obtain ⟨hresults, hmarked, hinterrupted⟩ := hrecordable
    rw [Did.spent, ← Did.spent, h.1.counted] at hinterrupted
    simp [hresults, hmarked, relaunchOwed] at hunrecorded
    exact absurd hunrecorded hinterrupted
  · rename_i hrecorded
    refine sound_moves h.1 ⟨rest, hdid, ?_⟩
    simp only [Bool.or_eq_true, Bool.and_eq_true, decide_eq_true_eq, not_or] at hrecorded
    obtain ⟨⟨hresults, hmarked⟩, hinterrupted⟩ := hrecorded
    refine ⟨?_, by simpa using hmarked, ?_⟩
    · cases hmode : d.results with
      | recorded => rfl
      | handedBack => exact absurd hmode hresults
    · rw [List.nil_append, h.1.counted]
      simpa [relaunchOwed] using hinterrupted

theorem Sound.relaunches (h : w.Sound d id) (hdid : (w.did id).head? = some (.failed e))
    {run : Option (List Event)}
    (hcarried : (carriesAcross e id run && relaunchOwed w.counts id) = true) :
    ((w.moves id [.relaunching] (.waiting false (some e))).counted id
    (w.counts id + 1)).Sound d id := by
  obtain ⟨hcarries, howed⟩ := Bool.and_eq_true_iff.1 hcarried
  have howed : w.counts id < relaunchBound := of_decide_eq_true howed
  have hunmarked : isMarked e = false := by
    rw [← Bool.not_eq_true]
    intro hmarked
    unfold carriesAcross at hcarries
    rw [if_pos hmarked] at hcarries
    cases hcarries
  have hspent : Did.spent (.relaunching :: w.did id) = w.counts id + 1 := by
    rw [← h.1.counted]
    exact Did.since_cons _ _ _
  have hrelaunches : Did.relaunches (.relaunching :: w.did id) = Did.relaunches (w.did id) :=
    Did.since_cons _ _ _
  have hkept := h.1.relaunched
  have hhistory : History d id (w.counts id + 1) w.log (.relaunching :: w.did id) := by
    refine h.1.push hspent (by omega) (by omega) True.intro ?_ fun _ hseen => by cases hseen
    obtain ⟨rest, hdid⟩ := List.head?_eq_some_iff.1 hdid
    rw [hdid]
    intro hmarked
    rw [hunmarked] at hmarked
    cases hmarked
  unfold Sound
  rw [counted_counts, counted_phase, counted_did, moves_phase, moves_did]
  exact ⟨hhistory, rfl, fun _ => by rw [List.cons_append, List.nil_append]; omega⟩

theorem Sound.turned (h : w.Sound d id) (ok : Bool) (said : String) (outcome : Option String)
    (mint : Conditional.Mint) : (w.turned d id ok said outcome mint).Sound d id := by
  obtain ⟨hhistory, hphase⟩ := And.intro h.1 h.2
  unfold World.turned
  cases hp : w.phase id with
  | idle => exact h
  | waiting paused relaunched =>
    rw [hp] at hphase
    refine h.settles hphase.1 rfl rfl rfl (fun held hheld => ?_) (fun seen hseen => ?_)
      ⟨_, _, rfl, fun hr => ?_⟩
    · cases ok with
      | true => exact hheld
      | false => cases hheld
    · cases hseen
      exact List.prefix_rfl
    · rw [Did.relaunches, Did.spent, Did.since_cons, Did.since_cons]
      exact hphase.2 hr
  | looked paused relaunched held said =>
    rw [hp] at hphase
    obtain ⟨log, rest, hdid, hrelaunched⟩ := hphase
    have hsettled : (w.did id).head?.all Did.isSettled = true := by
      rw [hdid]
      rfl
    dsimp only
    split
    · refine h.settles hsettled rfl rfl rfl (fun hr => ?_) (fun _ hseen => by cases hseen) rfl
      have hmarked := hr.2.1
      unfold isMarked isParkedOrRefused at hmarked
      rw [isParked_parkedSpawn] at hmarked
      cases hmarked
    · split
      · exact h.settles hsettled rfl rfl rfl (fun _ => ⟨_, rest, hdid, Or.inl rfl⟩)
          (fun _ hseen => by cases hseen) rfl
      · refine h.settles hsettled rfl rfl rfl True.intro (fun _ hseen => by cases hseen)
          ⟨rfl, fun hr => ?_⟩
        rw [Did.relaunches, Did.spent, Did.since_cons, Did.since_cons]
        exact hrelaunched hr
      · -- a launch follows the read that found no hold
        have hallowed : (Did.launched relaunched.isSome).Allowed d id (w.did id) := by
          rw [hdid]
          exact ⟨log, rfl⟩
        refine sound_moves (hhistory.push ?_ hhistory.owed ?_ hallowed
          (Did.followed_of_settled hsettled) fun _ hseen => by cases hseen) rfl
        · exact (Did.since_cons _ _ _).trans hhistory.counted
        · have hkept := hhistory.relaunched
          have hcounted := hhistory.counted
          rw [Did.relaunches, Did.since_cons, ← Did.relaunches]
          cases hr : relaunched.isSome with
          | true =>
            have := hrelaunched hr
            simp [Did.isSuccess, Did.isRelaunch]
            omega
          | false =>
            simp [Did.isSuccess, Did.isRelaunch]
            omega
  | launched =>
    rw [hp] at hphase
    cases outcome with
    | none =>
      have hhistory' : History d id 0 w.log (.succeeded :: w.did id) :=
        hhistory.push rfl (Nat.zero_le _) (Nat.le_refl _) True.intro
          (Did.followed_of_settled hphase) fun _ hseen => by cases hseen
      unfold Sound
      rw [counted_counts, counted_phase, counted_did, moves_phase, moves_did]
      exact ⟨hhistory', rfl⟩
    | some e =>
      exact h.settles hphase rfl rfl rfl True.intro (fun _ hseen => by cases hseen) rfl
  | failed e =>
    rw [hp] at hphase
    dsimp only
    cases hcarried :
        (carriesAcross e id (if ok = true then some (Conditional.slice w.log) else none) &&
          relaunchOwed w.counts id) with
    | true => exact h.relaunches hphase hcarried
    | false =>
      obtain ⟨rest, hdid⟩ := List.head?_eq_some_iff.1 hphase
      exact h.handsBack hdid
  | handing e =>
    rw [hp] at hphase
    obtain ⟨rest, hdid, hrecordable⟩ := hphase
    have hunmarked : ∀ x : Did, x.Followed (w.did id) := by
      intro x
      rw [hdid]
      intro hmarked
      rw [hrecordable.2.1] at hmarked
      cases hmarked
    have hread : History d id (w.counts id) w.log (.read w.log :: w.did id) := by
      refine hhistory.plain rfl rfl rfl ⟨e, rest, hdid, hrecordable⟩ (hunmarked _) fun _ hseen => ?_
      cases hseen
      exact List.prefix_rfl
    dsimp only
    split
    · have hunread : History d id (w.counts id) w.log (.unread :: w.did id) :=
        hhistory.plain rfl rfl rfl True.intro (hunmarked _) fun _ hseen => by cases hseen
      exact sound_moves (hunread.plain rfl rfl rfl (fun _ => ⟨_, _, rfl, Or.inl rfl⟩) True.intro
        fun _ hseen => by cases hseen) rfl
    · split
      · rename_i hrecorded
        refine sound_moves hread ⟨_, rest, by rw [hdid]; rfl, ?_, hrecorded⟩
        refine ⟨hrecordable.1, hrecordable.2.1, ?_⟩
        rw [List.cons_append, List.nil_append, Did.spent, Did.since_cons]
        exact hrecordable.2.2
      · rename_i hrecorded
        refine sound_moves
          (hread.plain rfl rfl rfl (fun _ => ⟨_, _, rfl, Or.inr (Or.inl ?_)⟩) True.intro
          fun _ hseen => by cases hseen) rfl
        exact ⟨w.log, rfl, by simpa using hrecorded⟩
  | writing e =>
    rw [hp] at hphase
    obtain ⟨seen, rest, hdid, hrecordable, hrecorded⟩ := hphase
    have hsettled : (w.did id).head?.all Did.isSettled = true := by
      rw [hdid]
      rfl
    dsimp only
    split
    · have hunwritten : History d id (w.counts id) w.log (.unwritten :: w.did id) :=
        hhistory.plain rfl rfl rfl True.intro (Did.followed_of_settled hsettled)
          fun _ hseen => by cases hseen
      exact sound_moves (hunwritten.plain rfl rfl rfl (fun _ => ⟨_, _, rfl, Or.inl rfl⟩) True.intro
        fun _ hseen => by cases hseen) rfl
    · rename_i hdecided
      obtain ⟨r, hr, hnone⟩ := decided_eq_some hdecided
      cases r with
      | none => cases hnone
      | some r =>
        have hstood : History d id (w.counts id) w.log (.stood w.log :: w.did id) := by
          refine hhistory.plain rfl rfl rfl ⟨r, hr⟩
            (Did.followed_of_settled hsettled) fun _ hseen => ?_
          cases hseen
          exact List.prefix_rfl
        exact sound_moves (hstood.plain rfl rfl rfl
          (fun _ => ⟨_, _, rfl, Or.inr (Or.inr (Or.inl ⟨_, rfl⟩))⟩) True.intro
          fun _ hseen => by cases hseen) rfl
    · rename_i ev hdecided
      obtain ⟨r, hr, hsome⟩ := decided_eq_some hdecided
      cases r with
      | some r => cases hsome
      | none =>
        have hev : Conditional.resultEvent mint (Held.failed id e) = ev := Option.some.inj hsome
        have hlog : w.log <+: w.log ++ [ev] := List.prefix_append _ _
        have hwrote : History d id (w.counts id) (w.log ++ [ev]) (.wrote w.log ev :: w.did id) := by
          refine (hhistory.grow hlog).plain rfl rfl rfl
            ⟨seen, e, rest, mint, hdid, hrecordable, hrecorded, hr, hev.symm⟩
            (Did.followed_of_settled hsettled) fun _ hseen => ?_
          cases hseen
          exact List.prefix_rfl
        have hreturned : History d id (w.counts id) (w.log ++ [ev])
            (.returned e :: .wrote w.log ev :: w.did id) :=
          hwrote.plain rfl rfl rfl (fun _ => ⟨_, _, rfl, Or.inr (Or.inr (Or.inr ⟨_, _, rfl⟩))⟩)
            (by rw [hdid]; rfl) fun _ hseen => by cases hseen
        unfold Sound
        dsimp only
        rw [moves_phase, moves_did]
        exact ⟨hreturned, rfl⟩

theorem sound_step (h : ∀ id, w.Sound d id) (a : Act) (id : String) : (step d w a).Sound d id := by
  cases a with
  | record events => exact (h id).of_eq rfl rfl rfl (List.prefix_append _ _)
  | close =>
    unfold step
    dsimp only
    split
    · exact (h id).of_eq rfl rfl rfl List.prefix_rfl
    · exact h id
  | call called =>
    unfold step
    dsimp only
    split
    · rename_i hidle
      by_cases hid : id = called
      · subst hid
        have hphase := (h id).2
        rw [hidle] at hphase
        refine (h id).settles hphase rfl rfl rfl True.intro
          (fun _ hseen => by cases hseen) ⟨rfl, ?_⟩
        intro hr
        cases hr
      · exact (spared_moves hid _ _).sound (h id)
    · exact h id
  | turn turned ok said outcome mint =>
    by_cases hid : id = turned
    · subst hid
      exact (h id).turned ok said outcome mint
    · exact (spared_turned hid ok said outcome mint).sound (h id)

theorem sound_after (d : HeldDriver) (log : List Event) (acts : List Act) (id : String) :
    (after d log acts).Sound d id :=
  run_invariant (I := fun w : World => ∀ id, w.Sound d id) (fun _ a h => sound_step h a)
    (fun id => (⟨.new log, rfl⟩ : (new log).Sound d id)) acts id

/-! ## Every call returns -/

/-- Where `id` takes a turn, the session is closed or the run is not held. -/
def Served (id : String) (w : World) (a : Act) : Prop :=
  a.isTurn id = true → w.closed = true ∨ holdStands w.log ≠ some true

end World

/-- How far a phase is from the end of its launch. -/
def Phase.rank (closed : Bool) : Phase → Nat
  | .idle => 0
  | .writing _ => 2
  | .handing _ => 3
  | .failed _ => 4
  | .launched => 5
  | .looked _ _ held _ => if held = some true ∧ closed = false then 8 else 6
  | .waiting .. => 7

/-- At most how many turns a call takes yet, with `n` relaunches spent. -/
def Phase.left (closed : Bool) (n : Nat) : Phase → Nat
  | .idle => 0
  | p => 8 * (relaunchBound - n) + p.rank closed

namespace World

variable {w : World}

theorem left_le (closed : Bool) (n : Nat) (p : Phase) : p.left closed n ≤ 24 := by
  have hrank : p.rank closed ≤ 8 := by
    unfold Phase.rank
    split <;> (try split) <;> omega
  have hbound : relaunchBound = 2 := rfl
  unfold Phase.left
  split
  · exact Nat.zero_le _
  · rw [hbound]
    omega

theorem left_eq {closed : Bool} {n : Nat} {p : Phase} (hp : p ≠ .idle) :
    p.left closed n = 8 * (relaunchBound - n) + p.rank closed := by
  cases p with
  | idle => exact absurd rfl hp
  | _ => rfl

theorem left_le_rank (closed : Bool) (n : Nat) (p : Phase) :
    p.left closed n ≤ 8 * (relaunchBound - n) + p.rank closed := by
  cases p with
  | idle => exact Nat.zero_le _
  | _ => exact Nat.le_refl _

theorem left_moves (hidle : w.phase id ≠ .idle) (entries : List Did) {p : Phase}
    (h : p.rank w.closed < (w.phase id).rank w.closed) :
    ((w.moves id entries p).phase id).left w.closed ((w.moves id entries p).counts id) <
      (w.phase id).left w.closed (w.counts id) := by
  rw [moves_phase, moves_counts, left_eq hidle]
  have := left_le_rank w.closed (w.counts id) p
  omega

theorem left_turned (hidle : w.phase id ≠ .idle) (ok : Bool) (said : String)
    (outcome : Option String) (mint : Conditional.Mint)
    (hserved : w.closed = true ∨ holdStands w.log ≠ some true) :
    ((w.turned d id ok said outcome mint).phase id).left w.closed
      ((w.turned d id ok said outcome mint).counts id) <
      (w.phase id).left w.closed (w.counts id) := by
  have hmoves := fun (entries : List Did) (p : Phase) => left_moves (p := p) hidle entries
  unfold turned
  cases hp : w.phase id with
  | idle => exact absurd hp hidle
  | waiting paused relaunched =>
    rw [hp] at hmoves
    refine hmoves _ _ ?_
    have hlooked : ¬((if ok then holdStands w.log else none) = some true ∧ w.closed = false) := by
      rintro ⟨hheld, hopen⟩
      cases ok with
      | false => cases hheld
      | true => exact hserved.elim (fun h => by rw [hopen] at h; cases h) fun h => h hheld
    show (if _ then 8 else 6) < 7
    rw [if_neg hlooked]
    decide
  | looked paused relaunched held said =>
    rw [hp] at hmoves
    have hrank : 6 ≤ Phase.rank w.closed (.looked paused relaunched held said) := by
      show 6 ≤ if _ then 8 else 6
      split <;> decide
    dsimp only
    split
    · exact hmoves _ _ (Nat.lt_of_lt_of_le (by simp [Phase.rank]) hrank)
    · rename_i hopen
      split
      · exact hmoves _ _ (Nat.lt_of_lt_of_le (by simp [Phase.rank]) hrank)
      · refine hmoves _ _ ?_
        have hclosed : w.closed = false := by simpa using hopen
        show 7 < if _ then 8 else 6
        rw [if_pos ⟨rfl, hclosed⟩]
        decide
      · exact hmoves _ _ (Nat.lt_of_lt_of_le (by simp [Phase.rank]) hrank)
  | launched =>
    rw [hp] at hmoves
    cases outcome with
    | none =>
      rw [counted_phase, moves_phase]
      show 0 < 8 * (relaunchBound - w.counts id) + 5
      omega
    | some e => exact hmoves _ _ (by simp [Phase.rank])
  | failed e =>
    rw [hp] at hmoves
    dsimp only
    cases hcarried :
        (carriesAcross e id (if ok = true then some (Conditional.slice w.log) else none) &&
          relaunchOwed w.counts id) with
    | true =>
      have howed : w.counts id < relaunchBound :=
        of_decide_eq_true (Bool.and_eq_true_iff.1 hcarried).2
      rw [if_pos rfl, counted_phase, moves_phase, counted_counts]
      show 8 * (relaunchBound - (w.counts id + 1)) + 7 < 8 * (relaunchBound - w.counts id) + 4
      omega
    | false =>
      rw [if_neg Bool.false_ne_true]
      unfold handsBack
      split
      · exact hmoves _ _ (by simp [Phase.rank])
      · exact hmoves _ _ (by simp [Phase.rank])
  | handing e =>
    rw [hp] at hmoves
    dsimp only
    split
    · exact hmoves _ _ (by simp [Phase.rank])
    · split <;> exact hmoves _ _ (by simp [Phase.rank])
  | writing e =>
    rw [hp] at hmoves
    dsimp only
    split
    · exact hmoves _ _ (by simp [Phase.rank])
    · exact hmoves _ _ (by simp [Phase.rank])
    · rename_i ev _
      exact hmoves [.returned e, .wrote w.log ev] .idle (by simp [Phase.rank])

theorem handsBack_closed (e : String) : (w.handsBack d id e).closed = w.closed := by
  unfold handsBack
  split <;> rfl

theorem turned_closed (ok : Bool) (said : String) (outcome : Option String)
    (mint : Conditional.Mint) : (w.turned d id ok said outcome mint).closed = w.closed := by
  unfold turned
  cases w.phase id with
  | idle => rfl
  | waiting paused relaunched => rfl
  | looked paused relaunched held said =>
    dsimp only
    split
    · rfl
    · split <;> rfl
  | launched => cases outcome <;> rfl
  | failed e =>
    dsimp only
    generalize (carriesAcross _ _ _ && _) = carried
    cases carried with
    | true => rfl
    | false => exact handsBack_closed e
  | handing e =>
    dsimp only
    split
    · rfl
    · split <;> rfl
  | writing e =>
    dsimp only
    split <;> rfl

/-- The turns a call takes at most until it returns. -/
def left (w : World) (id : String) : Nat := (w.phase id).left w.closed (w.counts id)

theorem left_pos (hidle : w.phase id ≠ .idle) : 0 < w.left id := by
  unfold left
  rw [left_eq hidle]
  cases hp : w.phase id with
  | idle => exact absurd hp hidle
  | looked paused relaunched held said =>
    show 0 < _ + if _ then 8 else 6
    split <;> omega
  | _ => exact Nat.lt_of_lt_of_le (by simp [Phase.rank]) (Nat.le_add_left _ _)

theorem left_closed (n : Nat) (p : Phase) (closed : Bool) : p.left true n ≤ p.left closed n := by
  cases p with
  | looked paused relaunched held said =>
    show _ + (if _ then 8 else 6) ≤ _ + if _ then 8 else 6
    rw [if_neg (by simp)]
    split <;> omega
  | _ => exact Nat.le_refl _

/-- Every step of a served call's run leaves it no further from its end, and its turns bring it
nearer. -/
theorem left_step (hidle : w.phase id ≠ .idle) {a : Act} (hserved : Served id w a) :
    (step d w a).left id + (if a.isTurn id then 1 else 0) ≤ w.left id := by
  cases a with
  | record events => exact Nat.le_refl _
  | close =>
    unfold step
    dsimp only
    split
    · exact left_closed _ _ _
    · exact Nat.le_refl _
  | call called =>
    unfold step
    dsimp only
    split
    · rename_i hcalled
      have hid : id ≠ called := by
        rintro rfl
        exact hidle hcalled
      have hspared := spared_moves (w := w) hid [.called] (.waiting false none)
      unfold left
      rw [hspared.phase, hspared.counts]
      exact Nat.le_refl _
    · exact Nat.le_refl _
  | turn turned ok said outcome mint =>
    by_cases hid : turned = id
    · subst hid
      have hturn : (Act.turn turned ok said outcome mint).isTurn turned = true := beq_self_eq_true _
      rw [if_pos hturn]
      have := left_turned (d := d) hidle ok said outcome mint (hserved hturn)
      unfold left step
      dsimp only
      rw [turned_closed]
      exact this
    · have hspared := spared_turned (w := w) (d := d) (Ne.symm hid) ok said outcome mint
      have hturn : (Act.turn turned ok said outcome mint).isTurn id = false :=
        beq_eq_false_iff_ne.2 hid
      rw [hturn]
      unfold left step
      dsimp only
      rw [hspared.phase, hspared.counts, turned_closed]
      exact Nat.le_refl _

theorem returns_of_served (acts : List Act) {w : World}
    (hserved : Along (step d) (Served id) w acts)
    (hturns : w.left id ≤ acts.countP (Act.isTurn id)) :
    ∃ done rest, acts = done ++ rest ∧ (run (step d) w done).phase id = .idle := by
  induction acts generalizing w with
  | nil =>
    refine ⟨[], [], rfl, ?_⟩
    show w.phase id = .idle
    by_contra hidle
    have := left_pos hidle
    have : w.left id ≤ 0 := hturns
    omega
  | cons a acts ih =>
    by_cases hidle : w.phase id = .idle
    · exact ⟨[], a :: acts, rfl, hidle⟩
    · have hstep := left_step (d := d) hidle hserved.1
      rw [List.countP_cons] at hturns
      obtain ⟨done, rest, rfl, hdone⟩ := ih hserved.2 (by omega)
      exact ⟨a :: done, rest, rfl, hdone⟩

end World

theorem Phase.Sound.settled_or_failed {did : List Did} {p : Phase} (h : p.Sound d id did) :
    did.head?.all Did.isSettled = true ∨ ∃ e, did.head? = some (.failed e) := by
  cases p with
  | idle => exact Or.inl h
  | launched => exact Or.inl h
  | waiting paused relaunched => exact Or.inl h.1
  | looked paused relaunched held said =>
    obtain ⟨log, rest, rfl, -⟩ := h
    exact Or.inl rfl
  | failed e => exact Or.inr ⟨e, h⟩
  | handing e =>
    obtain ⟨rest, rfl, -⟩ := h
    exact Or.inr ⟨e, rfl⟩
  | writing e =>
    obtain ⟨log, rest, rfl, -⟩ := h
    exact Or.inl rfl

theorem History.answered {log : List Event} {did rest : List Did} {p : Phase}
    (h : History d id n log did) (hphase : p.Sound d id did) {seen read : List Event} {ev : Event}
    {e : String} (hpast : .wrote seen ev :: .read read :: .failed e :: rest <:+ did) :
    .returned e :: .wrote seen ev :: .read read :: .failed e :: rest <:+ did := by
  obtain ⟨early, hearly⟩ := hpast
  rcases List.eq_nil_or_concat early with rfl | ⟨early, y, rfl⟩
  · have hhead : did.head? = some (.wrote seen ev) := by
      rw [← hearly]
      rfl
    rcases hphase.settled_or_failed with hsettled | ⟨e, hfailed⟩
    · rw [hhead] at hsettled
      cases hsettled
    · rw [hhead] at hfailed
      cases hfailed
  · have hsuffix : y :: .wrote seen ev :: .read read :: .failed e :: rest <:+ did :=
      ⟨early, by rw [← hearly]; simp⟩
    obtain rfl : y = .returned e := (h.allowed _ _ hsuffix).2
    exact hsuffix

end

/-! ## What a held run does -/

/-- Over any log, any appends of others, any failures of the store and any outcomes of the inner
driver, and for every spawn id: a launch follows a read that found no hold; no more than
`relaunchBound` relaunches lie between two successes; a marked error is returned at once; what is
written is the error of a spawn the run parked, over no result that ended it, and is then returned;
every other error handed on in recorded mode was written, unless the run did not park the spawn, a
result had ended it or a store call failed, an interrupted one with a relaunch left aside; and a
call has returned after 24 turns at which the session is closed or the run not held. -/
theorem held_run (d : HeldDriver) (log : List Event) (acts : List Act) (id : String) :
    (∀ again past, .launched again :: past <:+ (World.after d log acts).did id → ∃ seen rest,
      past = .looked seen (some false) :: rest ∧ holdStands seen = some false ∧
        seen <+: (World.after d log acts).log) ∧
    (∀ seg past, seg ++ past <:+ (World.after d log acts).did id →
      (∀ x ∈ seg, x.isSuccess = false) → seg.countP Did.isRelaunch ≤ relaunchBound) ∧
    (∀ x e past, x :: .failed e :: past <:+ (World.after d log acts).did id → isMarked e = true →
      x = .returned e) ∧
    (∀ seen ev past, .wrote seen ev :: past <:+ (World.after d log acts).did id →
      ∃ read e rest mint, past = .read read :: .failed e :: rest ∧
        .returned e :: .wrote seen ev :: past <:+ (World.after d log acts).did id ∧
        d.results = .recorded ∧ isMarked e = false ∧
        ¬(isInterrupted e = true ∧ Did.spent past < relaunchBound) ∧
        isRecorded (Conditional.slice read) id = true ∧
        endedBy (Conditional.slice seen) id = some none ∧
        ev = Conditional.resultEvent mint (failed id e) ∧
        seen ++ [ev] <+: (World.after d log acts).log) ∧
    (∀ e past, .returned e :: past <:+ (World.after d log acts).did id → d.results = .recorded →
      isMarked e = false → ¬(isInterrupted e = true ∧ Did.spent past < relaunchBound) →
      ∃ x rest, past = x :: rest ∧ (x.isFailedCall = true ∨
        (∃ seen, x = .read seen ∧ isRecorded (Conditional.slice seen) id = false) ∨
        (∃ seen r, x = .stood seen ∧ endedBy (Conditional.slice seen) id = some (some r)) ∨
        ∃ seen ev mint, x = .wrote seen ev ∧ ev = Conditional.resultEvent mint (failed id e))) ∧
    ∀ more, Along (World.step d) (World.Served id) (World.after d log acts) more →
      24 ≤ more.countP (Act.isTurn id) →
      ∃ done rest, more = done ++ rest ∧ (World.after d log (acts ++ done)).phase id = .idle := by
  obtain ⟨hhistory, hphase⟩ := World.sound_after d log acts id
  have hsaw : ∀ x past, x :: past <:+ (World.after d log acts).did id → ∀ seen, x.saw = some seen →
      seen <+: (World.after d log acts).log :=
    fun x past hpast => hhistory.saw x (hpast.subset List.mem_cons_self)
  refine ⟨fun again past hpast => ?_, fun seg past hseg hnone => ?_, fun x e past hpast => ?_,
    fun seen ev past hpast => ?_, fun e past hpast hresults hmarked hinterrupted => ?_,
    fun more hserved hturns => ?_⟩
  · obtain ⟨seen, hseen⟩ := (hhistory.allowed _ _ hpast).1
    obtain ⟨rest, rfl⟩ := List.head?_eq_some_iff.1 hseen
    have hlooked := (List.suffix_cons _ _).trans hpast
    exact ⟨seen, rest, rfl, (hhistory.allowed _ _ hlooked).1 _ rfl, hsaw _ _ hlooked _ rfl⟩
  · have hbounded := hhistory.bounded _ hseg
    rw [Did.relaunches, Did.since_append _ hnone] at hbounded
    omega
  · exact (hhistory.allowed _ _ hpast).2
  · obtain ⟨read, e, rest, mint, rfl, hrecordable, hparked, hunended, hev⟩ :=
      (hhistory.allowed _ _ hpast).1
    exact ⟨read, e, rest, mint, rfl, hhistory.answered hphase hpast, hrecordable.1, hrecordable.2.1,
      hrecordable.2.2, hparked, hunended, hev, hsaw _ _ hpast _ rfl⟩
  · obtain ⟨x, rest, rfl, hx⟩ := (hhistory.allowed _ _ hpast).1 ⟨hresults, hmarked, hinterrupted⟩
    refine ⟨x, rest, rfl, ?_⟩
    have hbefore := (List.suffix_cons _ _).trans hpast
    rcases hx with hfailed | hread | ⟨seen, rfl⟩ | ⟨seen, ev, rfl⟩
    · exact Or.inl hfailed
    · exact Or.inr (Or.inl hread)
    · obtain ⟨r, hr⟩ := (hhistory.allowed _ _ hbefore).1
      exact Or.inr (Or.inr (Or.inl ⟨seen, r, rfl, hr⟩))
    · obtain ⟨read, e', rest', mint, rfl, -, -, -, hev⟩ := (hhistory.allowed _ _ hbefore).1
      cases (hhistory.allowed _ _ hpast).2
      exact Or.inr (Or.inr (Or.inr ⟨seen, ev, mint, rfl, hev⟩))
  · have hleft := World.left_le (World.after d log acts).closed ((World.after d log acts).counts id)
      ((World.after d log acts).phase id)
    obtain ⟨done, rest, hmore, hidle⟩ :=
      World.returns_of_served more hserved (Nat.le_trans hleft hturns)
    refine ⟨done, rest, hmore, ?_⟩
    unfold World.after at hidle ⊢
    rw [run_append]
    exact hidle

/-- A parked spawn whose first launch is rate limited. -/
def rateLimited : HeldDriver × List Event × List Act :=
  let request : Event := Event.new ("e1", 5) typeSpawnRequested
    (.json (.obj [("id", .str "u/sdet#0"),
    ("unit", .str "u"), ("stage", .str "s"), ("prompt", .str "p")]))
  let turn := fun (ok : Bool) (outcome : Option String) =>
    Act.turn "u/sdet#0" ok "the run read failed" outcome ("e2", 6)
  (⟨fun id => id, .recorded, false⟩, [request],
    [.call "u/sdet#0", turn true none, turn true none,
      turn true (some (noResultError .rateLimit "the session ended on its class")), turn true none,
      turn false none, turn true none])

/-- The hold read of its relaunch fails, and the error is handed on with nothing recorded. -/
theorem held_run_unrecorded :
    let d := rateLimited.1
    let w := World.after d rateLimited.2.1 rateLimited.2.2
    let e := noResultError .rateLimit "the session ended on its class"
    (w.did "u/sdet#0").head? = some (.returned e) ∧ d.results = .recorded ∧ isMarked e = false ∧
      isInterrupted e = false ∧ isRecorded (Conditional.slice w.log) "u/sdet#0" = true ∧
      endedBy (Conditional.slice w.log) "u/sdet#0" = some none ∧ w.log = rateLimited.2.1 := by
  decide +kernel

end Rigger.Held
