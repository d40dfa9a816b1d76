import Rigger.Domain.Closure
import Rigger.Graph.Decide
import Rigger.Graph.Prune
import Rigger.Lib.Follow
import Rigger.Store.LiveSelection
import Rigger.Store.Namespace

/-!
# The graph file and the log it follows (`sqlite.rs`, `seed_cursor`, `catch_up` and `rebuild`)

A graph file keeps, beside what its folds write, the fold rule it was folded under, the `caught_up`
cursor with the log it was recorded beside, and the state of a rebuild whose tail it still owes.  A
catch-up reads a page of the log with no lock and folds one cut of it, a rebuild folds the live
selection into a shadow file and swaps a pruned copy of it in; appenders fold directly beside both.

`World` is the file, its shadow, the logs a projector may fold and the calls under way; `step` is
one transaction, read or append of any of them.  The page and the batch a cut folds are those read
at an earlier step, whatever happened since.
-/

namespace Rigger.Graph

open Lib

/-! ## The file -/

/-- `PROJECTION_VERSION`. -/
def projectionVersion : Int := 5

/-- The `caught_up` row; a table that predates it names no log. -/
structure CaughtUp where
  position : Nat
  store : Option String
deriving DecidableEq

/-- A `rebuild_run_closure` row. -/
structure ClosureRow where
  type_ : String
  data : Data
  validFrom : Int
deriving DecidableEq

/-- `REBUILD_STATE`: the last position a rebuild folded, what its prune removed, and the run
attribution it gathered. -/
structure RebuildState where
  position : Nat
  pruned : PruneStats
  runClosure : Std.ExtTreeMap Nat ClosureRow

def RebuildState.new : RebuildState := ⟨0, ⟨0, 0⟩, ∅⟩

structure File where
  folded : Folded
  rule : Int
  caughtUp : Option CaughtUp
  rebuild : Option RebuildState

/-- A file just made. -/
def File.empty : File := ⟨.empty, 0, none, none⟩

/-- Why a file folds no catch-up of its own. -/
inductive Inert where
  | rebuildState
  | olderRule
  | logSwitched
  | noCursor
deriving DecidableEq

def logSwitched (recorded : Option String) (selected : String) : Bool := recorded != some selected

namespace File

variable (f : File)

def stale : Bool := decide (f.rule < projectionVersion)

def rebuildOwed : Bool := f.stale && !f.folded.applied.isEmpty

def standingCursor (store : String) : Except Inert Nat :=
  if f.rebuild.isSome then .error .rebuildState
  else if f.rebuildOwed then .error .olderRule
  else
    match f.caughtUp with
    | none => .error .noCursor
    | some c => if logSwitched c.store store then .error .logSwitched else .ok c.position

/-- `INSERT OR IGNORE`: a cursor that stands keeps where it stands. -/
def createCursor (at_ : Nat) (store : String) : File :=
  { f with caughtUp := f.caughtUp.or (some ⟨at_, some store⟩) }

/-- `set_cursor` on `caught_up`. -/
def setCaughtUp (at_ : Nat) : File :=
  { f with caughtUp := f.caughtUp.map fun c => { c with position := max c.position at_ } }

def appliedBetween (after through : Nat) : Nat :=
  f.folded.applied.toList.countP fun p => after < p && p ≤ through

end File

/-! ## Seeding -/

/-- `CATCH_UP_HORIZON`, in nanoseconds. -/
def catchUpHorizon : Int := 660 * 10 ^ 9

def olderThan (stamp : Option SystemTime) (bound : Int) (now : SystemTime) : Bool :=
  match stamp with
  | none => true
  | some stamp => decide (stamp ≤ now) && decide (bound < now - stamp)

def Folded.hasApplied (f : Folded) (position : Nat) : Bool := f.applied.contains position

def Folded.highestApplied (f : Folded) : Option Nat := f.applied.toList.getLast?

namespace File

variable (f : File)

/-- Up to where the ledger is read against the log: on a file that owes a rebuild's tail, up to
that rebuild's cursor. -/
def seedThrough : Option Nat :=
  match f.rebuild with
  | some state => f.folded.highestApplied.map fun h => min h state.position
  | none => f.folded.highestApplied

def missedPositions (live : List Nat) : List Nat :=
  match f.seedThrough with
  | some through => missing live f.folded.hasApplied through
  | none => []

def oldMiss (live : List Nat) (stampOf : Nat → Option SystemTime) (now : SystemTime) : Bool :=
  (f.missedPositions live).any fun p => olderThan (stampOf p) catchUpHorizon now

/-- Where the cursor is seeded; none where the file's prefix of the log is violated. -/
def seedPosition (live : List Nat) (stampOf : Nat → Option SystemTime) (now : SystemTime) :
    Option Nat :=
  match f.folded.highestApplied, live.getLast? with
  | none, none => some 0
  | some h, some head =>
    if h ≤ head && !f.oldMiss live stampOf now then
      some (((f.missedPositions live).head?.map fun p => p - 1).getD h)
    else none
  | _, _ => none

/-- `seed_cursor`: the file, and whether it lost a fold. -/
def seedCursor (store : String) (live : List Nat) (stampOf : Nat → Option SystemTime)
    (logHead : Option Nat) (now : SystemTime) : File × Bool :=
  match f.caughtUp with
  | some c => (f, logSwitched c.store store ||
      match logHead with
      | some head => decide (head < c.position)
      | none => decide (0 < c.position))
  | none =>
    if f.rebuildOwed || f.rebuild.isSome then (f, f.oldMiss live stampOf now)
    else
      match f.seedPosition live stampOf now with
      | some at_ => (f.createCursor at_ store, false)
      | none => (f, true)

end File

/-! ## Cuts -/

/-- `run::STREAM`. -/
def runStream : String := "run"

/-- `FOLD_BATCH`. -/
def foldBatchSize : Nat := 256

/-- Every ledger entry alone, and every run of other events in chunks. -/
def foldTransactions (events : List Event) : List (List Event) :=
  (events.splitBy fun a b => !isLedgerEntry a.type_ && !isLedgerEntry b.type_).flatMap
    (chunks (foldBatchSize - 1))

/-- The entry a part is, when it is one. -/
def partEntry : List Event → Option Event
  | [e] => if isLedgerEntry e.type_ then some e else none
  | _ => none

/-- `decide_step`: a part decided position by position, and whether it is read. -/
def decidePart (reading : Reading) (f : Folded) (part : List Event) (extracted : Extracted) :
    Option (Folded × Bool) :=
  match partEntry part with
  | some entry => decideEntry reading f entry extracted
  | none => (part.foldlM (decideEvent reading) f).map (·, true)

/-- A page of the log, read past `from_`. -/
structure Page where
  from_ : Nat
  events : List Event

namespace Page

variable (p : Page)

/-- The page's events of the run stream. -/
def run : List Event := p.events.filter fun e => e.stream == runStream

/-- The first of the transactions the page is cut into. -/
def part : List Event := (foldTransactions p.run).head?.getD []

def last : Nat := (p.events.getLast?.map Event.position).getD p.from_

/-- Where the cut moves the cursor: to its last position, or to the page's where it holds the
page's whole run. -/
def through : Nat :=
  match p.part.getLast? with
  | some last => if p.part.length < p.run.length then last.position else p.last
  | none => p.last

end Page

inductive CutAnswer where
  | advanced (recorded : Nat)
  | reread (at_ : Nat)
  | inert (cause : Inert)
  | unread
  | failed
deriving DecidableEq

/-- One transaction of a catch-up over a page, which reads the cursor again under the write lock. -/
def File.cut (reading : Reading) (f : File) (store : String) (p : Page) (extracted : Extracted) :
    File × CutAnswer :=
  match f.standingCursor store with
  | .error cause => (f, .inert cause)
  | .ok at_ =>
    if ¬(p.from_ ≤ at_ ∧ at_ < p.through) then (f, .reread at_)
    else
      match decidePart reading f.folded p.part extracted with
      | none => (f, .failed)
      | some (_, false) => (f, .unread)
      | some (folded, true) =>
        let next := { f with folded := folded.settled }.setCaughtUp p.through
        (next, .advanced (next.appliedBetween at_ p.through - f.appliedBetween at_ p.through))

/-! ## The shadow -/

/-- `prune_in`, on the rows of the file's project. -/
def Tables.pruneIn (t : Tables) (ids : List String) (before : Option Int) : Tables × PruneStats :=
  let cascaded := t.edges.filter fun e => !(ids.contains e.from_ || ids.contains e.to_)
  let nodes := t.nodes.filter fun id _ => !ids.contains id
  let superseded := fun e : Edge =>
    (before.any fun before => e.validTo.any fun to_ => decide (to_ < before)) &&
      (t.edgeAssertions.all fun a => a.edge != e.id) && t.detached.all fun d => d.edge != e.id
  ({ t with nodes := nodes, edges := cascaded.filter fun e => !superseded e },
    ⟨t.nodes.size - nodes.size, cascaded.countP superseded⟩)

/-- The events the gathered rows stand for, in position order. -/
def RebuildState.gathered (state : RebuildState) : List Event :=
  state.runClosure.toList.map fun row =>
    { Event.new ("", 0) row.2.type_ row.2.data with
      position := row.1
      validFrom := fromNanos row.2.validFrom }

/-- What is gathered of an event. -/
def closureRow (e : Event) : ClosureRow := ⟨e.type_, e.data, toNanos e.validFrom⟩

/-- The rows of the run-closure types a part adds, each position once. -/
def RebuildState.gather (state : RebuildState) (part : List Event) : RebuildState :=
  { state with
    runClosure := (part.filter Run.inClosure).foldl
      (fun rows e => rows.insertIfNew e.position (closureRow e)) state.runClosure }

/-- `set_cursor` on `rebuild_cursor`. -/
def RebuildState.set (state : RebuildState) (at_ : Nat) : RebuildState :=
  { state with position := max state.position at_ }

namespace File

variable (f : File)

/-- One transaction of a rebuild's fold pass. -/
def refold (reading : Reading) (part : List Event) (extracted : Extracted) (gather : Bool) :
    Option (File × Bool) :=
  match decidePart reading f.folded part extracted with
  | none => none
  | some (_, false) => some (f, false)
  | some (folded, true) =>
    some ({ f with
      folded := folded.settled
      rebuild := f.rebuild.map fun state =>
        (if gather then state.gather part else state).set
          ((part.getLast?.map Event.position).getD 0) }, true)

/-- Whether a standing shadow can be resumed from the log `store` names. -/
def resumable (store : String) : Bool :=
  f.rebuild.isSome && decide (f.rule = projectionVersion) &&
    f.caughtUp.all fun c => !logSwitched c.store store

/-- `open_shadow` and the transaction that opens its rebuild state. -/
def openShadow (store : String) : File :=
  let state := f.rebuild.getD .new
  { f with rule := projectionVersion, rebuild := some state }.createCursor state.position store

/-- `prune_a_copy`: what the swap puts in place of the live file. -/
def prunedCopy : File :=
  let gathered := (f.rebuild.map RebuildState.gathered).getD []
  let (tables, pruned) := f.folded.tables.pruneIn (Run.supersededGraphNodes gathered)
    (Run.supersededEdgeBoundary gathered)
  { f with
    folded := { f.folded with tables := tables }.settled
    rule := projectionVersion
    rebuild := f.rebuild.map fun state => { state with pruned := pruned } }

/-- The rebuild's last transaction: the cursor set at the last position it folded, its state
dropped. -/
def finish (store : String) : File :=
  let through := (f.rebuild.map RebuildState.position).getD 0
  { (f.createCursor through store).setCaughtUp through with rebuild := none }

end File

/-! ## The logs and the calls -/

/-- What a catch-up call answers. -/
inductive CatchUp where
  | inert (cause : Inert)
  | atHead
  | advanced (recorded : Nat)
  | skipped (at_ : Nat)
  | failed (at_ : Nat)
deriving DecidableEq

/-- A catch-up call under way: the page it holds, and what it extracted for a page whose part is an
entry. -/
structure Caller where
  store : String
  from_ : Nat
  outrun : Bool
  page : Option (List Event)
  extracted : Option Extracted
  retried : Bool

/-- Where a rebuild stands in its work. -/
inductive Stage where
  | shadow
  | swapped
  | tail
deriving DecidableEq

/-- The rebuild the lock's holder runs: the parts its source has still to hand, and the head of the
log it read them of. -/
structure Rebuilding where
  store : String
  stage : Stage
  parts : List (List Event)
  head : Nat
  extracted : Option Extracted
  retried : Bool

structure World where
  logs : String → Store
  file : File
  shadow : Option File
  callers : Nat → Option Caller
  answers : Nat → Option CatchUp
  /-- What the lock's holder seeded the file with: the log it pays from, and whether its seeding
  lost a fold. -/
  seeded : Option (String × Bool)
  rebuilding : Option Rebuilding

/-- A file no seeding has given a cursor, beside the logs. -/
def World.new (logs : String → Store) (folded : Folded) (rule : Int) : World :=
  ⟨logs, ⟨folded, rule, none, none⟩, none, fun _ => none, fun _ => none, none, none⟩

inductive Act where
  /-- A log is appended to, or migrated. -/
  | log (store : String) (call : Call)
  /-- A call begins: it reads where the file stands. -/
  | start (c : Nat) (store : String)
  | page (c : Nat)
  | extract (c : Nat) (reextract : Event → Option (Option (List Event)))
  | cut (c : Nat)
  /-- The cut meets another writer's lock past the busy timeout. -/
  | contended (c : Nat)
  /-- The log's open or the page's read fails. -/
  | broken (c : Nat)
  /-- An appender's direct fold. -/
  | fold (calls : List FoldCall)
  | prune (ids : List String) (before : Option Int)
  /-- The lock's holder seeds the file. -/
  | seed (store : String) (logHead : Option Nat) (now : SystemTime)
  /-- Its seeding meets another writer's lock: it has read and written nothing. -/
  | unseeded (store : String)
  | rebuild
  | gather (reextract : Event → Option (Option (List Event)))
  | refold
  | swap
  | unshadow
  | finish
  /-- The lock's holder ends, by failure or death. -/
  | die

section
variable (project : String) (reading : Reading)

def runPrefix : String := Namespaced.prefixFor project

/-- The live positions of a log's run stream. -/
def livePositions (s : Store) : List Nat := s.readLivePositions (runPrefix project) runStream

def readPage (s : Store) (from_ : Nat) : List Event :=
  (Namespaced.scoping project).readAllPage s from_ ⟨none⟩ foldBatchSize

/-- How many events a rebuild reads of the log in a batch. -/
def rebuildBatch : Nat := 10000

/-- The parts a rebuild's source hands past a position. -/
def sourceParts (s : Store) (after : Nat) : List (List Event) :=
  (chunks (rebuildBatch - 1)
    (s.readLiveSelection (runPrefix project) runStream after)).flatMap foldTransactions

namespace World

variable (w : World)

def answer (c : Nat) (a : CatchUp) : World :=
  { w with
    callers := Function.update w.callers c none
    answers := Function.update w.answers c (some a) }

/-- A call under way has answered nothing. -/
def hold (c : Nat) (k : Caller) : World :=
  { w with
    callers := Function.update w.callers c (some k)
    answers := Function.update w.answers c none }

def start (c : Nat) (store : String) : World :=
  match w.file.standingCursor store with
  | .error cause => w.answer c (.inert cause)
  | .ok at_ => w.hold c ⟨store, at_, false, none, none, false⟩

def readPageOf (c : Nat) (k : Caller) : World :=
  match readPage project (w.logs k.store) k.from_ with
  | [] => w.answer c .atHead
  | events => w.hold c { k with page := some events }

def extractOf (c : Nat) (k : Caller) (events : List Event)
    (reextract : Event → Option (Option (List Event))) : World :=
  match partEntry (Page.mk k.from_ events).part with
  | some entry =>
    match extractedBatch reading w.file.folded entry reextract with
    | some extracted => w.hold c { k with extracted := some extracted }
    | none => w.answer c (.failed k.from_)
  | none => w

/-- What a part that is no entry is decided with: it asks nothing. -/
def unasked : Extracted := ⟨.unread, none⟩

def cutOf (c : Nat) (k : Caller) (events : List Event) (extracted : Extracted) : World :=
  let (file, cut) := w.file.cut reading k.store ⟨k.from_, events⟩ extracted
  let next := { w with file := file }
  match cut with
  | .advanced recorded => next.answer c (.advanced recorded)
  | .inert cause => next.answer c (.inert cause)
  | .failed => next.answer c (.failed k.from_)
  | .reread at_ =>
    if k.outrun then next.answer c (.skipped k.from_)
    else next.hold c ⟨k.store, at_, true, none, none, false⟩
  | .unread =>
    if k.retried then next.answer c (.failed k.from_)
    else next.hold c { k with extracted := none, retried := true }

def seed (store : String) (logHead : Option Nat) (now : SystemTime) : World :=
  let (file, lost) := w.file.seedCursor store (livePositions project (w.logs store))
    (w.logs store).recordedAt logHead now
  { w with file := file, seeded := some (store, lost) }

/-- A rebuild begins: its shadow is opened, fresh or resumed, or only a tail is left to fold. -/
def beginRebuild (store : String) (owed : Bool) : World :=
  let fresh : Bool := match w.shadow with
    | some shadow => !shadow.resumable store
    | none => owed || w.file.rebuildOwed
  if fresh || w.shadow.isSome then
    let shadow := (if fresh then File.empty else w.shadow.getD .empty).openShadow store
    { w with
      shadow := some shadow
      rebuilding := some ⟨store, .shadow,
        sourceParts project (w.logs store) ((shadow.rebuild.map RebuildState.position).getD 0),
        (w.logs store).seq, none, false⟩ }
  else
    match w.file.rebuild with
    | some state =>
      { w with
        rebuilding := some ⟨store, .tail, sourceParts project (w.logs store) state.position,
          (w.logs store).seq, none, false⟩ }
    | none => w

/-- The file a rebuild's pass folds into. -/
def target (rb : Rebuilding) : File :=
  match rb.stage with
  | .shadow => w.shadow.getD .empty
  | _ => w.file

def setTarget (rb : Rebuilding) (f : File) : World :=
  match rb.stage with
  | .shadow => { w with shadow := some f }
  | _ => { w with file := f }

def gatherOf (rb : Rebuilding) (reextract : Event → Option (Option (List Event))) : World :=
  match rb.parts.head?.bind partEntry with
  | some entry =>
    match extractedBatch reading (w.target rb).folded entry reextract with
    | some extracted => { w with rebuilding := some { rb with extracted := some extracted } }
    | none => { w with rebuilding := none }
  | none => w

def refoldOf (rb : Rebuilding) (part : List Event) (parts : List (List Event))
    (extracted : Extracted) : World :=
  match (w.target rb).refold reading part extracted (decide (rb.stage = .shadow)) with
  | none => { w with rebuilding := none }
  | some (_, false) =>
    if rb.retried then { w with rebuilding := none }
    else { w with rebuilding := some { rb with extracted := none, retried := true } }
  | some (f, true) =>
    { w.setTarget rb f with
      rebuilding := some { rb with parts := parts, extracted := none, retried := false } }

end World

/-- A cut or a part may be decided: it is no entry, or its batch is extracted. -/
def ready (part : List Event) (extracted : Option Extracted) : Option Extracted :=
  match partEntry part with
  | some _ => extracted
  | none => some World.unasked

def step (w : World) : Act → World
  | .log store call => { w with logs := Function.update w.logs store ((w.logs store).exec call) }
  | .start c store => if (w.callers c).isSome then w else w.start c store
  | .page c =>
    match w.callers c with
    | some k => if k.page.isSome then w else w.readPageOf project c k
    | none => w
  | .extract c reextract =>
    match w.callers c with
    | some ⟨store, from_, outrun, some events, none, retried⟩ =>
      w.extractOf reading c ⟨store, from_, outrun, some events, none, retried⟩ events reextract
    | _ => w
  | .cut c =>
    match w.callers c with
    | some k =>
      match k.page with
      | some events =>
        match ready (Page.mk k.from_ events).part k.extracted with
        | some extracted => w.cutOf reading c k events extracted
        | none => w
      | none => w
    | none => w
  | .contended c =>
    match w.callers c with
    | some k => if k.page.isSome then w.answer c (.skipped k.from_) else w
    | none => w
  | .broken c =>
    match w.callers c with
    | some k => if k.page.isSome then w else w.answer c (.failed k.from_)
    | none => w
  | .fold calls =>
    if w.file.rebuildOwed then w
    else { w with file := { w.file with folded := transact reading w.file.folded calls } }
  | .prune ids before =>
    { w with
      file := { w.file with
        folded := { w.file.folded with
          tables := (w.file.folded.tables.pruneIn ids before).1 }.settled } }
  | .seed store logHead now =>
    if w.seeded.isSome || w.rebuilding.isSome then w else w.seed project store logHead now
  | .unseeded store =>
    if w.seeded.isSome || w.rebuilding.isSome then w else { w with seeded := some (store, false) }
  | .rebuild =>
    match w.seeded with
    | some (store, lost) => { w with seeded := none }.beginRebuild project store lost
    | none => w
  | .gather reextract =>
    match w.rebuilding with
    | some rb => if rb.extracted.isSome then w else w.gatherOf reading rb reextract
    | none => w
  | .refold =>
    match w.rebuilding with
    | some rb =>
      match rb.stage, rb.parts with
      | .swapped, _ => w
      | _, [] => w
      | _, part :: parts =>
        match ready part rb.extracted with
        | some extracted => w.refoldOf reading rb part parts extracted
        | none => w
    | none => w
  | .swap =>
    match w.rebuilding, w.shadow with
    | some rb, some shadow =>
      if rb.stage = .shadow ∧ rb.parts = [] then
        { w with file := shadow.prunedCopy, rebuilding := some { rb with stage := .swapped } }
      else w
    | _, _ => w
  | .unshadow =>
    match w.rebuilding, w.file.rebuild with
    | some rb, some state =>
      if rb.stage = .swapped then
        { w with
          shadow := none
          rebuilding := some ⟨rb.store, .tail,
            sourceParts project (w.logs rb.store) state.position,
            (w.logs rb.store).seq, none, false⟩ }
      else w
    | _, _ => w
  | .finish =>
    match w.rebuilding with
    | some rb =>
      if rb.stage = .tail ∧ rb.parts = [] then
        { w with file := w.file.finish rb.store, rebuilding := none }
      else w
    | none => w
  | .die => { w with seeded := none, rebuilding := none }

end

end Rigger.Graph
