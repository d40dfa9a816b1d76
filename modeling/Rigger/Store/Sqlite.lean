import Mathlib.Data.List.Sort
import Rigger.Domain.Ingest
import Rigger.Lib.Like
import Rigger.Lib.Table

/-!
# The SQLite event store (`rigger-store-sqlite/src/eventstore/sqlite.rs`)

The `events` table with its `AUTOINCREMENT` position and its `UNIQUE(stream, revision)` index,
the reads over it and `append`.  Every statement of the source is the list operation it runs on
the rows in position order; a transaction that fails leaves the store it began on.

`Ordered` is the invariant every write keeps: within a stream, revisions strictly increase in
position order.  Under it the cursor is the highest revision, so `append` is refused only for a
derived event or a stale expectation (`Ordered.append_cases`), and otherwise adds exactly its batch
(`Ordered.append_ok`).
-/

namespace Rigger

open Lib

/-! ## The table -/

structure Columns where
  stream : String
  type_ : String
  id : String
  data : Data
  meta_ : Meta
  validFrom : Int
  recordedAt : Int
  revision : Int
deriving DecidableEq

abbrev Row := Nat × Columns

/-- The columns of the `UNIQUE` index. -/
def Columns.index (c : Columns) : String × Int := (c.stream, c.revision)

abbrev Store := Table Columns.index

namespace Store

/-- A store just created. -/
def empty : Store := Table.empty

def rowToEvent (r : Row) : Event where
  id := r.2.id
  stream := r.2.stream
  type_ := r.2.type_
  data := r.2.data
  meta_ := r.2.meta_
  validFrom := fromNanos r.2.validFrom
  recordedAt := fromNanos r.2.recordedAt
  position := r.1
  revision := r.2.revision

/-- The rows of one stream, in position order. -/
def streamRows (s : Store) (stream : String) : List Row :=
  s.rows.filter fun r => r.2.stream == stream

/-- The log of one stream: its events in position order. -/
def log (s : Store) (stream : String) : List Event := (s.streamRows stream).map rowToEvent

/-! ## Reads -/

/-- The forward read: revisions from `from_` on, `ORDER BY revision`. -/
def readForward (s : Store) (stream : String) (from_ : Int) : List Event :=
  (((s.streamRows stream).filter fun r => decide (from_ ≤ r.2.revision)).insertionSort
    fun a b => a.2.revision ≤ b.2.revision).map rowToEvent

def readStream (s : Store) (stream : String) (from_ : Int) (dir : Direction) : List Event :=
  match dir with
  | .forward => s.readForward stream from_
  | .backward => (s.readForward stream from_).reverse

def likeOf (filter : Filter) : String :=
  match filter.streamPrefix with
  | some p => p ++ "%"
  | none => "%"

/-- `LIKE` folds the ASCII letters. -/
def likes (pattern text : String) : Bool := like Char.toLower pattern.toList text.toList

/-- The global read: rows past `from_` whose stream the pattern takes, in position order. -/
def globalEvents (s : Store) (from_ : Nat) (pattern : String) : List Event :=
  (s.rows.filter fun r => decide (from_ < r.1) && likes pattern r.2.stream).map rowToEvent

def readAll (s : Store) (from_ : Nat) (dir : Direction) (filter : Filter) : List Event :=
  match dir with
  | .forward => s.globalEvents from_ (likeOf filter)
  | .backward => (s.globalEvents from_ (likeOf filter)).reverse

def readAllPage (s : Store) (from_ : Nat) (filter : Filter) (max : Nat) : List Event :=
  (s.globalEvents from_ (likeOf filter)).take max

/-- The boundary lookup: the revision of the stream's newest event of a type. -/
def lastPosition (s : Store) (stream eventType : String) : Option Int :=
  ((s.streamRows stream).filter fun r => r.2.type_ == eventType).getLast?.map fun r => r.2.revision

/-- Where a typed read starts: the position of the event with the lowest revision from `from_`. -/
def typedReadStart (s : Store) (stream : String) (from_ : Int) : Option Nat :=
  (((s.streamRows stream).filter fun r => decide (from_ ≤ r.2.revision)).insertionSort
    fun a b => a.2.revision ≤ b.2.revision).head?.map Prod.fst

def readStreamTyped (s : Store) (stream : String) (from_ : Int)
    (selection : TypeSelection) : List Event :=
  let start := if 0 < from_ then s.typedReadStart stream from_ else some 0
  match start with
  | none => []
  | some start =>
    ((s.streamRows stream).filter fun r =>
      decide (start ≤ r.1) && selection.selects r.2.type_).map rowToEvent

/-- The group lookup: the newest row of the stream that carries the group. -/
def latestInGroup (s : Store) (stream group : String) : Option GroupHead :=
  ((s.streamRows stream).filter fun r => r.2.meta_[metaGroup]? == some group).getLast?.map
    fun r => ⟨r.1, r.2.type_, r.2.meta_⟩

/-! ## Subscriptions -/

/-- What a subscription's polling thread keeps: the place of the last event it delivered. -/
structure Watermark where
  position : Nat
  revision : Int
deriving DecidableEq

/-- The thread moves the watermark to each event it delivers. -/
def Watermark.deliver (w : Watermark) (events : List Event) : Watermark :=
  events.foldl (fun _ e => ⟨e.position, e.revision⟩) w

def subscribeAll (from_ : Nat) : Watermark := ⟨from_, noStream⟩

def subscribeStream (from_ : Int) : Watermark := ⟨0, from_ - 1⟩

def pollAll (s : Store) (after : Nat) (pattern : String) : List Event :=
  s.globalEvents after pattern

def pollStream (s : Store) (stream : String) (after : Int) : List Event :=
  s.readForward stream (after + 1)

/-! ## Append -/

/-- The cursor: the revision of the stream's last row in position order. -/
def lastRevision (s : Store) (stream : String) : Int :=
  ((s.streamRows stream).getLast?.map fun r => r.2.revision).getD noStream

/-- `COALESCE(MAX(revision), NO_STREAM)`. -/
def recordedMax (s : Store) (stream : String) : Int :=
  ((s.streamRows stream).map fun r => r.2.revision).max?.getD noStream

def refuseDerived (events : List Event) : Except Error Unit :=
  match events.find? fun e => decide (classOf e.type_ = .derived) with
  | some derived => .error (.derivedAppend derived.type_)
  | none => .ok ()

def columnsOf (stream : String) (recordedAt : Int) (revision : Int) (e : Event) :
    Columns where
  stream := stream
  type_ := e.type_
  id := e.id
  data := e.data
  meta_ := e.meta_
  validFrom := toNanos e.validFrom
  recordedAt := recordedAt
  revision := revision

/-- The inserts of one batch, from `revision` on: the positions issued, and the store. -/
def insertAll (s : Store) (stream : String) (recordedAt : Int) (revision : Int) :
    List Event → Except Error (List (Option Nat) × Store)
  | [] => .ok ([], s)
  | e :: events =>
    match s.insert (columnsOf stream recordedAt revision e) with
    | none => .error (.backend "UNIQUE constraint failed: events.stream, events.revision")
    | some s' =>
      (insertAll s' stream recordedAt (revision + 1) events).map fun p => (some s'.seq :: p.1, p.2)

def append (s : Store) (stream : String) (expected : ExpectedRevision) (events : List Event)
    (now : SystemTime) : Except Error (Appended × Store) :=
  match refuseDerived events with
  | .error err => .error err
  | .ok _ =>
    let last := s.lastRevision stream
    if !expected.admits last then .error (.conflict stream expected last)
    else
      let recorded := s.recordedMax stream
      if last < recorded then .error (.outOfOrder stream (last + 1) recorded)
      else (insertAll s stream (toNanos now) (last + 1) events).map fun p => (⟨p.1⟩, p.2)

/-! ## Streams -/

variable {r : Row}

theorem mem_streamRows {s : Store} {stream : String} :
    r ∈ s.streamRows stream ↔ r ∈ s.rows ∧ r.2.stream = stream := by
  rw [streamRows, List.mem_filter, beq_iff_eq]

theorem sorted_streamRows (s : Store) (stream : String) :
    (s.streamRows stream).Pairwise fun a b => a.1 < b.1 :=
  s.sorted.sublist List.filter_sublist

theorem streamRows_append {s s' : Store} {rows : List Row} (h : s'.rows = s.rows ++ rows)
    (stream : String) : s'.streamRows stream =
      s.streamRows stream ++ rows.filter fun r => r.2.stream == stream := by
  rw [streamRows, h, List.filter_append]
  rfl

/-- Within a stream, revisions strictly increase in position order. -/
structure Ordered (s : Store) : Prop where
  increasing : s.rows.Pairwise fun a b => a.2.stream = b.2.stream → a.2.revision < b.2.revision
  nonneg : ∀ r ∈ s.rows, 0 ≤ r.2.revision

theorem ordered_empty : empty.Ordered := ⟨List.Pairwise.nil, by simp [empty]⟩

section
variable {s : Store} (h : s.Ordered) {stream : String}
include h

theorem Ordered.increasing_streamRows :
    (s.streamRows stream).Pairwise fun a b => a.2.revision < b.2.revision := by
  refine (h.increasing.sublist List.filter_sublist).imp_of_mem fun ha hb hab => hab ?_
  rw [(mem_streamRows.1 ha).2, (mem_streamRows.1 hb).2]

theorem Ordered.noStream_lt {r : Row} (hr : r ∈ s.rows) : Rigger.noStream < r.2.revision := by
  have := h.nonneg r hr
  have hno : Rigger.noStream = -1 := rfl
  omega

/-- No row of the stream lies above the cursor. -/
theorem Ordered.le_lastRevision {r : Row} (hr : r ∈ s.streamRows stream) :
    r.2.revision ≤ s.lastRevision stream := by
  have hpair : (s.streamRows stream).Pairwise _ := h.increasing_streamRows
  unfold lastRevision
  rcases List.eq_nil_or_concat (s.streamRows stream) with hnil | ⟨init, last, hlast⟩
  · rw [hnil] at hr
    cases hr
  · rw [List.concat_eq_append] at hlast
    rw [hlast] at hr hpair ⊢
    rw [List.getLast?_concat]
    show r.2.revision ≤ last.2.revision
    rcases List.mem_append.1 hr with hr | hr
    · have := (List.pairwise_append.1 hpair).2.2 r hr last (List.mem_singleton_self last)
      omega
    · rw [List.mem_singleton.1 hr]

theorem Ordered.recordedMax_eq : s.recordedMax stream = s.lastRevision stream := by
  unfold recordedMax
  cases hmax : ((s.streamRows stream).map fun r => r.2.revision).max? with
  | none =>
    rw [List.max?_eq_none_iff, List.map_eq_nil_iff] at hmax
    rw [lastRevision, hmax]
    rfl
  | some m =>
    obtain ⟨hm, hle⟩ := List.max?_eq_some_iff.1 hmax
    obtain ⟨r, hr, rfl⟩ := List.mem_map.1 hm
    show r.2.revision = s.lastRevision stream
    refine Int.le_antisymm (h.le_lastRevision hr) ?_
    unfold lastRevision
    cases hlast : (s.streamRows stream).getLast? with
    | none => exact absurd (List.getLast?_eq_none_iff.1 hlast) (List.ne_nil_of_mem hr)
    | some last => exact hle _ (List.mem_map_of_mem (List.mem_of_getLast? hlast))

/-- The forward read is a filter of the stream: its order is the log's. -/
theorem Ordered.readForward_eq (from_ : Int) : s.readForward stream from_ =
    ((s.streamRows stream).filter fun r => decide (from_ ≤ r.2.revision)).map rowToEvent := by
  unfold readForward
  rw [List.Pairwise.insertionSort_eq]
  exact (h.increasing_streamRows.sublist List.filter_sublist).imp Int.le_of_lt

end

/-! ## What an append writes -/

/-- The rows a batch becomes, from a position and a revision on. -/
def batchRows (stream : String) (recordedAt : Int) : Nat → Int → List Event → List Row
  | _, _, [] => []
  | position, revision, e :: events =>
    (position, columnsOf stream recordedAt revision e) ::
      batchRows stream recordedAt (position + 1) (revision + 1) events

section
variable {stream : String} {recordedAt : Int}

@[simp] theorem length_batchRows (position : Nat) (revision : Int)
    (events : List Event) :
    (batchRows stream recordedAt position revision events).length = events.length := by
  induction events generalizing position revision with
  | nil => rfl
  | cons e events ih => simp [batchRows, ih]

/-- Event `i` of the batch takes position and revision `i` of the run. -/
theorem getElem?_batchRows (position : Nat) (revision : Int) (events : List Event)
    (i : Nat) : (batchRows stream recordedAt position revision events)[i]? =
      events[i]?.map fun e => (position + i, columnsOf stream recordedAt (revision + i) e) := by
  induction events generalizing position revision i with
  | nil => rfl
  | cons e events ih =>
    cases i with
    | zero => simp [batchRows]
    | succ i =>
      rw [batchRows, List.getElem?_cons_succ, ih, List.getElem?_cons_succ]
      refine congrArg (events[i]?.map ·) (funext fun e => ?_)
      have hp : position + 1 + i = position + (i + 1) := by omega
      have hr : revision + 1 + (i : Int) = revision + ((i + 1 : Nat) : Int) := by omega
      rw [hp, hr]

theorem mem_batchRows {position : Nat} {revision : Int} {events : List Event} {r : Row} :
    r ∈ batchRows stream recordedAt position revision events ↔
      ∃ (i : Nat) (e : Event), events[i]? = some e ∧
        r = (position + i, columnsOf stream recordedAt (revision + i) e) := by
  rw [List.mem_iff_getElem?]
  simp only [getElem?_batchRows, Option.map_eq_some_iff]
  constructor
  · rintro ⟨i, e, he, rfl⟩
    exact ⟨i, e, he, rfl⟩
  · rintro ⟨i, e, he, rfl⟩
    exact ⟨i, e, he, rfl⟩

theorem increasing_batchRows (position : Nat) (revision : Int) (events : List Event) :
    (batchRows stream recordedAt position revision events).Pairwise fun a b =>
      a.1 < b.1 ∧ a.2.revision < b.2.revision := by
  induction events generalizing position revision with
  | nil => exact List.Pairwise.nil
  | cons e events ih =>
    refine List.Pairwise.cons (fun r hr => ?_) (ih _ _)
    obtain ⟨i, e', -, rfl⟩ := mem_batchRows.1 hr
    refine ⟨?_, ?_⟩
    · show position < position + 1 + i
      omega
    · show revision < revision + 1 + i
      omega

end

/-- The inserts run through when no row of the stream lies at or above the first revision. -/
theorem insertAll_ok (s : Store) (stream : String) (recordedAt : Int) (revision : Int)
    (events : List Event) (hfree : ∀ r ∈ s.rows, r.2.stream = stream → r.2.revision < revision) :
    ∃ s', insertAll s stream recordedAt revision events =
        .ok ((batchRows stream recordedAt (s.seq + 1) revision events).map fun r => some r.1, s') ∧
      s'.rows = s.rows ++ batchRows stream recordedAt (s.seq + 1) revision events ∧
      s'.seq = s.seq + events.length := by
  induction events generalizing s revision with
  | nil => exact ⟨s, rfl, (List.append_nil _).symm, rfl⟩
  | cons e events ih =>
    have hindex : ∀ r ∈ s.rows,
        r.2.index ≠ (columnsOf stream recordedAt revision e).index := by
      intro r hr heq
      have := hfree r hr (congrArg Prod.fst heq)
      have hrev : r.2.revision = revision := congrArg Prod.snd heq
      omega
    obtain ⟨s₁, hs₁⟩ := Table.insert_isSome hindex
    obtain ⟨hrows, hseq⟩ := Table.insert_eq_some hs₁
    obtain ⟨s', hs', hrows', hseq'⟩ := ih s₁ (revision + 1) (by
      intro r hr hstream
      rw [hrows] at hr
      rcases List.mem_append.1 hr with hr | hr
      · have := hfree r hr hstream
        omega
      · rw [List.mem_singleton.1 hr]
        show revision < revision + 1
        omega)
    refine ⟨s', ?_, ?_, ?_⟩
    · rw [insertAll, hs₁]
      show (insertAll s₁ stream recordedAt (revision + 1) events).map _ = _
      rw [hs', hseq]
      rfl
    · rw [hrows', hrows, hseq, List.append_assoc]
      rfl
    · rw [hseq', hseq, List.length_cons]
      omega

/-! ## Append on an ordered log -/

theorem refuseDerived_eq_ok_iff (events : List Event) :
    refuseDerived events = .ok () ↔ ∀ e ∈ events, isDerivedIndexType e.type_ = false := by
  unfold refuseDerived
  cases hfind : events.find? fun e => decide (classOf e.type_ = .derived) with
  | none =>
    simp only [true_iff]
    intro e he
    have := List.find?_eq_none.1 hfind e he
    simpa [classOf_eq_derived] using this
  | some e =>
    simp only [reduceCtorEq, false_iff]
    intro hall
    have hderived := List.find?_some hfind
    rw [decide_eq_true_eq, classOf_eq_derived] at hderived
    rw [hall e (List.mem_of_find?_eq_some hfind)] at hderived
    cases hderived

/-- The batch an append of `events` adds to `s`. -/
def batch (s : Store) (stream : String) (events : List Event) (now : SystemTime) : List Row :=
  batchRows stream (toNanos now) (s.seq + 1) (s.lastRevision stream + 1) events

section
variable {s : Store} (h : s.Ordered) (stream : String) (expected : ExpectedRevision)
  (events : List Event) (now : SystemTime)
include h

/-- Everything an append can do to an ordered log. -/
theorem Ordered.append_cases :
    (∃ e ∈ events, isDerivedIndexType e.type_ = true ∧
      s.append stream expected events now = .error (.derivedAppend e.type_)) ∨
    ((∀ e ∈ events, isDerivedIndexType e.type_ = false) ∧
      expected.admits (s.lastRevision stream) = false ∧
      s.append stream expected events now =
        .error (.conflict stream expected (s.lastRevision stream))) ∨
    ((∀ e ∈ events, isDerivedIndexType e.type_ = false) ∧
      expected.admits (s.lastRevision stream) = true ∧
      ∃ s', s.append stream expected events now =
          .ok (⟨(s.batch stream events now).map fun r => some r.1⟩, s') ∧
        s'.rows = s.rows ++ s.batch stream events now ∧ s'.seq = s.seq + events.length) := by
  cases hrefuse : refuseDerived events with
  | error err =>
    refine Or.inl ?_
    unfold refuseDerived at hrefuse
    split at hrefuse
    · rename_i e hfind
      cases hrefuse
      have hderived := List.find?_some hfind
      rw [decide_eq_true_eq, classOf_eq_derived] at hderived
      refine ⟨e, List.mem_of_find?_eq_some hfind, hderived, ?_⟩
      rw [append, refuseDerived, hfind]
    · cases hrefuse
  | ok u =>
    have hkept := (refuseDerived_eq_ok_iff events).1 hrefuse
    refine Or.inr ?_
    cases hadmits : expected.admits (s.lastRevision stream) with
    | false =>
      refine Or.inl ⟨hkept, rfl, ?_⟩
      simp [append, hrefuse, hadmits]
    | true =>
      refine Or.inr ⟨hkept, rfl, ?_⟩
      obtain ⟨s', hs', hrows, hseq⟩ := insertAll_ok s stream (toNanos now)
        (s.lastRevision stream + 1) events (by
          intro r hr hstream
          have := h.le_lastRevision (mem_streamRows.2 ⟨hr, hstream⟩)
          omega)
      refine ⟨s', ?_, hrows, hseq⟩
      simp [append, hrefuse, hadmits, h.recordedMax_eq, hs', Except.map, batch]

variable {stream expected events now}

/-- A successful append adds exactly its batch, at the placements it reports. -/
theorem Ordered.append_ok {a : Appended} {s' : Store}
    (hok : s.append stream expected events now = .ok (a, s')) :
    (∀ e ∈ events, isDerivedIndexType e.type_ = false) ∧
      expected.admits (s.lastRevision stream) = true ∧
      a.placements = (s.batch stream events now).map (fun r => some r.1) ∧
      s'.rows = s.rows ++ s.batch stream events now ∧ s'.seq = s.seq + events.length := by
  rcases h.append_cases stream expected events now with ⟨e, -, -, herr⟩ | ⟨-, -, herr⟩ |
    ⟨hkept, hadmits, s₁, hs₁, hrows, hseq⟩
  · rw [herr] at hok
    cases hok
  · rw [herr] at hok
    cases hok
  · rw [hs₁] at hok
    cases hok
    exact ⟨hkept, hadmits, rfl, hrows, hseq⟩

end

theorem mem_batch {s : Store} {stream : String} {events : List Event} {now : SystemTime} :
    r ∈ s.batch stream events now ↔ ∃ (i : Nat) (e : Event), events[i]? = some e ∧
      r = (s.seq + 1 + i,
        columnsOf stream (toNanos now) (s.lastRevision stream + 1 + i) e) := mem_batchRows

/-- Where an append puts its batch: past every position issued and past the cursor. -/
theorem batch_above {s : Store} {stream : String} {events : List Event} {now : SystemTime}
    (hr : r ∈ s.batch stream events now) :
    r.2.stream = stream ∧ s.seq < r.1 ∧ s.lastRevision stream < r.2.revision := by
  obtain ⟨i, e, -, rfl⟩ := mem_batch.1 hr
  refine ⟨rfl, ?_, ?_⟩
  · show s.seq < s.seq + 1 + i
    omega
  · show s.lastRevision stream < s.lastRevision stream + 1 + i
    omega

theorem Ordered.lastRevision_ge {s : Store} (h : s.Ordered) (stream : String) :
    -1 ≤ s.lastRevision stream := by
  unfold lastRevision
  cases hlast : (s.streamRows stream).getLast? with
  | none => exact Int.le_refl _
  | some r =>
    have := h.nonneg r (mem_streamRows.1 (List.mem_of_getLast? hlast)).1
    show -1 ≤ r.2.revision
    omega

/-- Appending rows of one stream above its cursor keeps the order. -/
theorem Ordered.append {s s' : Store} (h : s.Ordered) {stream : String} {events : List Event}
    {now : SystemTime} (hrows : s'.rows = s.rows ++ s.batch stream events now) : s'.Ordered := by
  refine ⟨?_, ?_⟩
  · rw [hrows]
    refine List.pairwise_append.2 ⟨h.increasing, ?_, fun a ha b hb hab => ?_⟩
    · exact (increasing_batchRows _ _ events).imp fun hlt _ => hlt.2
    · obtain ⟨hstream, -, hrev⟩ := batch_above hb
      have := h.le_lastRevision (mem_streamRows.2 ⟨ha, hab.trans hstream⟩)
      omega
  · intro r hr
    rw [hrows] at hr
    rcases List.mem_append.1 hr with hr | hr
    · exact h.nonneg r hr
    · have hrev := (batch_above hr).2.2
      have := h.lastRevision_ge stream
      omega

end Store

end Rigger
