import Rigger.Conductor.Wave
import Rigger.Graph.Tiers
import Rigger.Store.Group

/-!
# What a sink records, and how it is read back (`rigger-grounder/src/ingest.rs`)

A walk hands a sink one file's keyed batch.  `entryOfBatch` reads the file's bytes once, extracts
them through the half its identity names and records that extraction: the ledger entry names the
generation, the flag and the blob of the bytes.  `resolveEntry` re-extracts an entry from the first
source whose batch has its generation: its blob, the tree's file, no bytes.

The halves, the tree, the object database and the two sides' answers are handed in, as they are in
the source.  `entryOfBatch_eq_some` says once what is recorded; with it a recorded entry re-extracts
to its own batch, and is not recorded again where both sides hold it (`recorded_reextracts`).
-/

namespace Rigger.Grounder

open Lib

abbrev Bytes := List UInt8

/-! ## Generations -/

/-- `replace("\r\n", "\n")`. -/
def replaceCrLf : List Char → List Char
  | '\r' :: '\n' :: cs => '\n' :: replaceCrLf cs
  | c :: cs => c :: replaceCrLf cs
  | [] => []

def contentHash (src : String) : String :=
  Conductor.hex16
    (Conductor.fnv1a64 (String.ofList (replaceCrLf src.toList)).toUTF8.toList)

/-- A half's `(path, bytes, excluded)` function. -/
abbrev Half := String → Option Bytes → Bool → List Event

/-- The halves, the text of an event's bytes where they are UTF-8, and `{:?}` of a text. -/
structure Halves where
  code : Half
  design : Half
  workflow : Half
  text : Data → Option String
  debug : String → String

section
variable (x : Halves)

def batchGeneration (batch : List Event) : String :=
  contentHash (String.join (batch.filterMap fun e => x.text e.data))

def halfOf (pre : String) : Option Half :=
  if pre = "gc" then some x.code
  else if pre = "gd" then some x.design
  else if pre = "gw" then some x.workflow
  else none

/-- One file's batch under the keys the walk hands it with. -/
def keyBatch (pre file : String) (batch : List Event) : List (String × Event) :=
  let hash := batchGeneration x batch
  batch.mapIdx fun i e => (pre ++ "/" ++ file ++ "@" ++ hash ++ "#" ++ toString i, e)

/-- The generation `keyBatch` keys a batch under, none for the empty batch. -/
def keyedGeneration (pre path : String) (batch : List Event) : Option String :=
  (keyBatch x pre path batch).head?.bind fun keyed => (derivedKeyParts keyed.1).map Prod.snd

end

/-! ## The tree -/

inductive ReadError where
  | notFound
  | failed (e : String)

/-- What a process finds under a root: the names its guarded walk visits, and each path joined to
the root, as a regular file, as a read and as it is displayed. -/
structure Tree where
  walks : String → Bool
  isFile : String → Bool
  read : String → Except ReadError Bytes
  display : String → String

def workflowDoc : String := ".rigger/workflow.yml"

namespace Tree

variable (tree : Tree)

def inWalkScope (pre path : String) : Bool :=
  if pre = "gw" then path == workflowDoc else tree.walks path

/-- The tree's one read rule. -/
def treeBytes (pre path : String) : Option Bytes :=
  if !tree.inWalkScope pre path || !tree.isFile path then none
  else (tree.read path).toOption

/-- A sink's read, which fails where the tree's rule hands none for an unreadable file. -/
def sinkBytes (pre path : String) : Except String (Option Bytes) :=
  if !tree.inWalkScope pre path then .ok none
  else
    match tree.read path with
    | .ok bytes => .ok (some bytes)
    | .error .notFound => .ok none
    | .error (.failed e) => .error (tree.display path ++ " could not be read: " ++ e)

end Tree

/-! ## Resolution -/

/-- An object database: an id to the bytes it holds under it, none, or the failure of the read. -/
abbrev BlobSource := String → Except String (Option Bytes)

section
variable (x : Halves)

/-- The bytes of the entry's blob, where it names one and an object database can be asked. -/
def heldBlob (blobs : Option BlobSource) (blob : String) : Except String (Option Bytes) :=
  match blobs with
  | some blobs => if blob.isEmpty then .ok none else blobs blob
  | none => .ok none

/-- The batch of one source, where it has the entry's generation. -/
def resolved (half : Half) (named : GenerationIngested) (bytes : Option Bytes) :
    Option (List Event) :=
  let batch := half named.file bytes named.excluded
  if !batch.isEmpty && batchGeneration x batch == named.generation then some batch else none

def resolveEntry (tree : Tree) (entry : Event) (blobs : Option BlobSource) :
    Except String (Option (List Event)) :=
  match GenerationIngested.parse entry.data with
  | none => .ok none
  | some named =>
    match halfOf x named.pre with
    | none => .ok none
    | some half => do
      let blob ← heldBlob blobs named.blob
      let fromHeld := fun held : Option Bytes =>
        held.bind fun bytes => resolved x half named (some bytes)
      pure (((fromHeld blob).or (fromHeld (tree.treeBytes named.pre named.file))).or
        (resolved x half named none))

end

/-! ## Recording -/

/-- The graph's side of `batchIsCurrent`. -/
inductive GraphSide where
  | owed
  | holds (current : Option String)

def batchIsCurrent (logged : Option String) (graph : GraphSide) (generation : String) : Bool :=
  let holds := fun side : Option String => side == some generation
  holds logged &&
    match graph with
    | .owed => true
    | .holds current => holds current

/-- What a sink asks of the graph. -/
structure Projection where
  rebuildOwed : Except String Bool
  currentGeneration : String → Except String (Option String)

structure EntryOfBatch where
  entry : GenerationIngested
  batch : List Event

/-- A batch's identity and walked generation, the prefix and path of the identity and the half the
prefix names. -/
structure BatchName where
  identity : String
  walked : String
  pre : String
  path : String
  half : Half

section
variable (x : Halves)

def batchName (key : String) : Option BatchName := do
  let (identity, walked) ← derivedKeyParts key
  let (pre, path) ← GenerationIngested.identityParts identity
  pure ⟨identity, walked, pre, path, ← halfOf x pre⟩

/-- The blob an entry names: none for an entry recorded from no bytes. -/
def blobOf (hash : Bytes → Except String String) (identity : String) :
    Option Bytes → Except String String
  | some bytes => (hash bytes).mapError fun e =>
    "the bytes of " ++ identity ++ " could not be hashed: " ++ e
  | none => .ok ""

/-- What a batch that is not current records: the extraction of the file's bytes, unless it is empty
or itself current. -/
def recordOf (tree : Tree) (b : BatchName) (excluded : Bool) (current : String → Bool)
    (hash : Bytes → Except String String) : Except String (Option EntryOfBatch) := do
  let bytes ← tree.sinkBytes b.pre b.path
  let batch := b.half b.path bytes excluded
  match (keyedGeneration x b.pre b.path batch).filter fun own => !current own with
  | none => pure none
  | some generation =>
    let blob ← blobOf hash b.identity bytes
    pure (some ⟨⟨b.pre, b.path, generation, blob, excluded⟩, batch⟩)

/-- What a sink records for one batch: an entry with the extraction it names, nothing, or the
failure that fails the emit. -/
def entryOfBatch (tree : Tree) (keyed : List (String × Event)) (excluded : Bool)
    (logged : String → Except String (Option String)) (graph : Projection)
    (hash : Bytes → Except String String) : Except String (Option EntryOfBatch) :=
  let key := (keyed.head?.map Prod.fst).getD ""
  match batchName x key with
  | none => .error ("the batch key " ++ x.debug key ++ " names no identity")
  | some b => do
    let logged ← (logged b.identity).mapError fun e =>
      "the log's latest generation of " ++ b.identity ++ " could not be read: " ++ e
    let owed ← graph.rebuildOwed.mapError fun e =>
      "whether graph.db owes its rebuild could not be read: " ++ e
    let held ← (graph.currentGeneration b.identity).mapError fun e =>
      "graph.db's current generation of " ++ b.identity ++ " could not be read: " ++ e
    let current := batchIsCurrent logged (if owed then .owed else .holds held)
    if current b.walked then pure none else recordOf x tree b excluded current hash

end

/-! ## Names and generations -/

theorem bind_eq_ok {ε α β : Type} {m : Except ε α} {f : α → Except ε β} {b : β} :
    m >>= f = .ok b ↔ ∃ a, m = .ok a ∧ f a = .ok b := by
  cases m with
  | error e => simp [bind, Except.bind]
  | ok a => simp [bind, Except.bind]

theorem ok_bind {ε α β : Type} (a : α) (f : α → Except ε β) :
    (.ok a : Except ε α) >>= f = f a := rfl

theorem map_eq_ok {ε α β : Type} {m : Except ε α} {f : α → β} {b : β} :
    m.map f = .ok b ↔ ∃ a, m = .ok a ∧ f a = b := by
  cases m <;> simp [Except.map]

theorem mapError_eq_ok {ε ε' α : Type} {m : Except ε α} {f : ε → ε'} {a : α} :
    m.mapError f = .ok a ↔ m = .ok a := by
  cases m <;> simp [Except.mapError]

theorem at_notMem_toDigits (n : Nat) : '@' ∉ Nat.toDigits 16 n := by
  intro h
  obtain ⟨d, hd, heq⟩ := Conductor.mem_toDigits h
  have hdigit : ∀ d < 16, '@' ≠ d.digitChar := by decide
  exact hdigit d hd heq

theorem contentHash_ne (src : String) : contentHash src ≠ "" := by
  intro h
  have := congrArg String.toList h
  simp [contentHash, Conductor.hex16, Nat.toDigits_ne_nil] at this

theorem contentHash_at (src : String) : '@' ∉ (contentHash src).toList := by
  simp only [contentHash, Conductor.hex16, String.toList_ofList, List.mem_append, not_or]
  exact ⟨fun h => absurd (List.eq_of_mem_replicate h) (by decide), at_notMem_toDigits _⟩

section
variable {x : Halves}

/-- Under a named prefix and path every batch of some events is keyed by its generation. -/
theorem keyedGeneration_eq {pre path : String}
    (hnamed : ∀ src, GenerationIngested.Named ⟨pre, path, contentHash src, "", false⟩)
    (batch : List Event) : keyedGeneration x pre path batch =
      if batch = [] then none else some (batchGeneration x batch) := by
  cases batch with
  | nil => rfl
  | cons e es =>
    rw [if_neg (List.cons_ne_nil e es), keyedGeneration, keyBatch, List.mapIdx_cons]
    have hkey := derivedKeyParts_text ((hnamed (String.join
      ((e :: es).filterMap fun e => x.text e.data))).key 0)
    exact congrArg (Option.map Prod.snd) hkey

variable {key : String} {bytes : Option Bytes}

theorem batchName_eq_some {b : BatchName} (h : batchName x key = some b) :
    b.identity = b.pre ++ "/" ++ b.path ∧
      GenerationIngested.identityParts b.identity = some (b.pre, b.path) ∧
      halfOf x b.pre = some b.half ∧ ∀ src,
        GenerationIngested.Named ⟨b.pre, b.path, contentHash src, "", false⟩ := by
  unfold batchName at h
  simp only [Option.bind_eq_bind, Option.pure_def, Option.bind_eq_some_iff, Prod.exists] at h
  obtain ⟨identity, walked, hkey, pre, path, hparts, half, hhalf, hb⟩ := h
  cases hb
  obtain ⟨pre', path', hparts', hnamed⟩ := Named.of_parts hkey
  rw [hparts, Option.some.injEq, Prod.mk.injEq] at hparts'
  obtain ⟨rfl, rfl⟩ := hparts'
  refine ⟨((identityParts_eq_some_iff _ _ _).1 hparts).1, hparts, hhalf, fun src => ?_⟩
  have hn := hnamed "" false
  exact ⟨hn.pre_ne, hn.pre_slash, hn.file_ne, contentHash_ne src, contentHash_at src⟩

/-! ## What is recorded -/

variable {tree : Tree} {keyed : List (String × Event)} {excluded : Bool}
  {logged : String → Except String (Option String)} {graph : Projection}
  {hash : Bytes → Except String String} {r : EntryOfBatch} {b : BatchName} {current : String → Bool}

/-- The extraction of the bytes read is recorded under its own generation, where it is not empty
and not current. -/
theorem recordOf_eq (hb : batchName x key = some b)
    (hbytes : tree.sinkBytes b.pre b.path = .ok bytes) :
    recordOf x tree b excluded current hash =
      let batch := b.half b.path bytes excluded
      if batch = [] ∨ current (batchGeneration x batch) = true then .ok none
      else (blobOf hash b.identity bytes).map fun blob =>
        some ⟨⟨b.pre, b.path, batchGeneration x batch, blob, excluded⟩, batch⟩ := by
  obtain ⟨-, -, -, hnamed⟩ := batchName_eq_some hb
  unfold recordOf
  rw [hbytes, ok_bind]
  dsimp only
  rw [keyedGeneration_eq hnamed]
  by_cases hempty : b.half b.path bytes excluded = []
  · rw [if_pos hempty, if_pos (.inl hempty)]
    rfl
  · rw [if_neg hempty]
    cases hcurrent : current (batchGeneration x (b.half b.path bytes excluded)) with
    | true =>
      rw [if_pos (.inr rfl), Option.filter_some, hcurrent]
      rfl
    | false =>
      rw [if_neg (by simp [hempty]), Option.filter_some, hcurrent]
      cases blobOf hash b.identity bytes <;> rfl

theorem entryOfBatch_eq {log : Option String} {owed : Bool} {held : Option String}
    (hb : batchName x ((keyed.head?.map Prod.fst).getD "") = some b)
    (hlog : logged b.identity = .ok log) (howed : graph.rebuildOwed = .ok owed)
    (hheld : graph.currentGeneration b.identity = .ok held) :
    entryOfBatch x tree keyed excluded logged graph hash =
      let current := batchIsCurrent log (if owed then .owed else .holds held)
      if current b.walked then .ok none else recordOf x tree b excluded current hash := by
  unfold entryOfBatch
  dsimp only
  rw [hb]
  dsimp only
  rw [hlog, howed, hheld]
  rfl

/-- A batch is recorded only where its name, both lookups and the file's bytes are answered. -/
theorem entryOfBatch_eq_some (h : entryOfBatch x tree keyed excluded logged graph hash =
    .ok (some r)) :
    ∃ b bytes, batchName x ((keyed.head?.map Prod.fst).getD "") = some b ∧
      tree.sinkBytes b.pre b.path = .ok bytes ∧
      r.batch = b.half b.path bytes excluded ∧ r.batch ≠ [] ∧
      ∃ blob, blobOf hash b.identity bytes = .ok blob ∧
        r.entry = ⟨b.pre, b.path, batchGeneration x r.batch, blob, excluded⟩ := by
  unfold entryOfBatch at h
  dsimp only at h
  split at h
  · cases h
  · rename_i b hb
    obtain ⟨log, -, h⟩ := bind_eq_ok.1 h
    obtain ⟨owed, -, h⟩ := bind_eq_ok.1 h
    obtain ⟨held, -, h⟩ := bind_eq_ok.1 h
    generalize (if owed = true then GraphSide.owed else .holds held) = side at h
    split at h
    · cases h
    · obtain ⟨bytes, hbytes, -⟩ := bind_eq_ok.1 h
      rw [recordOf_eq hb hbytes] at h
      dsimp only at h
      split at h
      · cases h
      · rename_i hrecords
        cases hblob : blobOf hash b.identity bytes with
        | error e =>
          rw [hblob] at h
          cases h
        | ok blob =>
          rw [hblob] at h
          cases h
          exact ⟨b, bytes, hb, hbytes, rfl, fun hempty => hrecords (.inl hempty), blob, hblob, rfl⟩

/-! ## What is read back -/

theorem parse_toData (g : GenerationIngested) : GenerationIngested.parse g.toData = some g := by
  let fields : List (String × Option Json) := [("prefix", some (.str g.pre)),
    ("file", some (.str g.file)), ("generation", some (.str g.generation)),
    ("blob", some (.str g.blob)), ("excluded", some (.bool g.excluded))]
  have hnodup : (fields.map Prod.fst).Nodup := by simp [fields]
  have hslots := Json.slots_members hnodup
  unfold GenerationIngested.parse
  rw [Option.bind_eq_bind, Option.bind_eq_some_iff]
  exact ⟨_, rfl, Option.bind_eq_some_iff.2 ⟨_, hslots, rfl⟩⟩

variable {named : GenerationIngested}

theorem resolved_eq_some_iff {half : Half} {batch : List Event} :
    resolved x half named bytes = some batch ↔
      half named.file bytes named.excluded = batch ∧ batch ≠ [] ∧
        batchGeneration x batch = named.generation := by
  unfold resolved
  dsimp only
  split
  · rename_i h
    rw [Bool.and_eq_true, beq_iff_eq, Bool.not_eq_true', List.isEmpty_eq_false_iff] at h
    rw [Option.some.injEq]
    refine ⟨?_, And.left⟩
    rintro rfl
    exact ⟨rfl, h⟩
  · rename_i h
    rw [Bool.and_eq_true, beq_iff_eq, Bool.not_eq_true', List.isEmpty_eq_false_iff] at h
    simp only [reduceCtorEq, false_iff]
    rintro ⟨rfl, hbatch⟩
    exact h hbatch

theorem resolveEntry_eq {entry : Event} {half : Half}
    (hparse : GenerationIngested.parse entry.data = some named)
    (hhalf : halfOf x named.pre = some half) (blobs : Option BlobSource) :
    resolveEntry x tree entry blobs = (heldBlob blobs named.blob).map fun blob =>
      ((blob.bind fun bytes => resolved x half named (some bytes)).or
        ((tree.treeBytes named.pre named.file).bind fun bytes =>
          resolved x half named (some bytes))).or (resolved x half named none) := by
  unfold resolveEntry
  rw [hparse]
  dsimp only
  rw [hhalf]
  cases heldBlob blobs named.blob <;> rfl

theorem generation_of_resolveEntry {entry : Event} {blobs : Option BlobSource} {batch : List Event}
    (hparse : GenerationIngested.parse entry.data = some named)
    (h : resolveEntry x tree entry blobs = .ok (some batch)) :
    batch ≠ [] ∧ batchGeneration x batch = named.generation := by
  cases hhalf : halfOf x named.pre with
  | none =>
    unfold resolveEntry at h
    rw [hparse] at h
    dsimp only at h
    rw [hhalf] at h
    cases h
  | some half =>
    rw [resolveEntry_eq hparse hhalf] at h
    obtain ⟨blob, -, h⟩ := map_eq_ok.1 h
    have hone : ∃ bytes, resolved x half named bytes = some batch := by
      rcases Option.or_eq_some_iff.1 h with h | ⟨-, h⟩
      · rcases Option.or_eq_some_iff.1 h with h | ⟨-, h⟩
        · obtain ⟨bytes, -, h⟩ := Option.bind_eq_some_iff.1 h
          exact ⟨some bytes, h⟩
        · obtain ⟨bytes, -, h⟩ := Option.bind_eq_some_iff.1 h
          exact ⟨some bytes, h⟩
      · exact ⟨none, h⟩
    obtain ⟨bytes, hbytes⟩ := hone
    exact (resolved_eq_some_iff.1 hbytes).2

end

/-! ## Both sides of a recorded entry -/

variable {g : GenerationIngested}

theorem latestGeneration_append {s s' : Store} {stream : String} {expected : ExpectedRevision}
    {mint : String × SystemTime} {n : Nat} {now : SystemTime} {a : Appended} (hs : s.Ordered)
    (hg : g.Named) (happend : s.append stream expected [g.event mint n] now = .ok (a, s')) :
    s'.latestGeneration stream g.identity = some g.generation := by
  have hrows := (hs.append_ok happend).2.2.2.1
  have hlast : s'.latestInGroup stream g.identity =
      some ⟨s.seq + 1, typeGenerationIngested, (g.event mint n).meta_⟩ := by
    unfold Store.latestInGroup
    rw [Store.streamRows_batch hrows, List.filter_append]
    have hone : (s.batch stream [g.event mint n] now).filter
        (fun r => r.2.meta_[metaGroup]? == some g.identity) =
          s.batch stream [g.event mint n] now := by
      refine List.filter_eq_self.2 fun r hr => ?_
      obtain ⟨i, e, hi, rfl⟩ := Store.mem_batch.1 hr
      obtain rfl := List.mem_singleton.1 (List.mem_of_getElem? hi)
      exact beq_iff_eq.2 (GenerationIngested.event_group mint g n)
    rw [hone]
    show (List.getLast? (_ ++ [_])).map _ = _
    rw [List.getLast?_concat]
    rfl
  unfold Store.latestGeneration
  rw [hlast]
  show (if !perceptionTypes.contains typeGenerationIngested then none
    else (named (g.event mint n).meta_).map Prod.snd) = _
  rw [if_neg (by decide), named_event hg]
  rfl

open Rigger.Graph in
/-- Folded with a batch of some events, an entry's generation is its identity's current one. -/
theorem currentGeneration_foldEntry {reading : Reading} {f f' : Folded} {entry : Event}
    {batch : List Event} {outcome : EntryOutcome}
    (hdata : GenerationIngested.parse entry.data = some g) (hnew : entry.position ∉ f.applied)
    (hbatch : batch ≠ []) (hfold : foldEntry reading f entry (some (.batch (some batch))) =
      some (f', outcome)) : f'.settled.tables.currentGeneration g.identity = some g.generation := by
  -- the last event of the batch leaves the entry's generation current
  have hlast : ∀ (es : List Event) (t t' : Tables), (Asserter.ofEntry g entry).Current t →
      es.foldlM (foldBatchEvent reading (.ofEntry g entry) entry.position) t = some t' →
      (Asserter.ofEntry g entry).Current t' := by
    intro es
    induction es with
    | nil =>
      intro t t' ht hrun
      cases hrun
      exact ht
    | cons e es ih =>
      intro t t' _ hrun
      rw [List.foldlM_cons] at hrun
      obtain ⟨next, hnext, hrest⟩ := Option.bind_eq_some_iff.1 hrun
      exact ih next t' (foldBatchEvent_current hnext) hrest
  have hcurrent : (Asserter.ofEntry g entry).Current f'.tables := by
    unfold foldEntry at hfold
    rw [if_neg hnew] at hfold
    obtain ⟨named, hnamed, hfold⟩ := Option.bind_eq_some_iff.1 hfold
    cases hdata.symm.trans hnamed
    split at hfold
    · rename_i hheld
      cases hfold
      exact .inr hheld
    · obtain ⟨answer, hanswer, hfold⟩ := Option.bind_eq_some_iff.1 hfold
      cases hanswer
      cases batch with
      | nil => exact absurd rfl hbatch
      | cons e es =>
        obtain ⟨tables, htables, hr⟩ := Option.bind_eq_some_iff.1 hfold
        cases hr
        unfold foldBatch at htables
        obtain ⟨last, hrun, hdone⟩ := Option.bind_eq_some_iff.1 htables
        obtain rfl := Option.some.inj hdone
        rw [List.foldlM_cons] at hrun
        obtain ⟨next, hnext, hrest⟩ := Option.bind_eq_some_iff.1 hrun
        have hend := hlast es next last (foldBatchEvent_current hnext) hrest
        exact (hend.congr (Tables.settleReferences_sameNodes _ _).generations).congr
          (Tables.relabelOwedCommunities_keepsTiers _).generations
  have hsettled := hcurrent.congr (Tables.settleProofs_keepsTiers f'.tables).generations
  exact hsettled.resolve_left (Asserter.ofEntry_identity g entry)

/-- Where the log holds a generation, and the graph holds it or owes its rebuild, that one alone is
current. -/
theorem batchIsCurrent_held {owed : Bool} {held : Option String} {generation own : String}
    (hheld : owed = false → held = some generation) :
    batchIsCurrent (some generation) (if owed then .owed else .holds held) own = true ↔
      generation = own := by
  cases owed with
  | true => simp [batchIsCurrent]
  | false => simp [batchIsCurrent, hheld rfl]

/-! ## Recorded entries -/

/-- A sink's lookups of an identity over a log and a graph: the log's latest generation and, unless
the graph owes its rebuild, its current one. -/
structure Answers (identity : String) (s : Store) (stream : String) (f : Graph.Folded)
    (logged : String → Except String (Option String)) (graph : Projection) : Prop where
  log : logged identity = .ok (s.latestGeneration stream identity)
  graph : ∃ owed held, graph.rebuildOwed = .ok owed ∧ graph.currentGeneration identity = .ok held ∧
    (owed = false → held = f.tables.currentGeneration identity)

/-- The entry appended to the stream's log, and folded with its batch where the graph had not folded
its position. -/
def AppendedAndFolded (r : EntryOfBatch) (s : Store) (stream : String) (f : Graph.Folded) : Prop :=
  ∃ mint now expected appended before reading folding entry folded outcome,
    Store.Ordered before ∧
      before.append stream expected [r.entry.event mint r.batch.length] now = .ok (appended, s) ∧
      entry.data = (r.entry.event mint r.batch.length).data ∧ entry.position ∉ folding.applied ∧
      Graph.foldEntry reading folding entry (some (.batch (some r.batch))) =
        some (folded, outcome) ∧ f = folded.settled

/-- A recorded generation re-extracts to itself.  The entry's batch is what its half extracts from
the bytes read; it resolves to that batch from its blob, and from the tree where it still hands the
bytes (or none); whatever it resolves to has its generation; and once it is appended and folded a
batch of its identity is recorded again where it and the file's extraction are of another
generation, and not over the same bytes and flag. -/
theorem recorded_reextracts (x : Halves) (hash : Bytes → Except String String)
    (hid : ∀ bytes id, hash bytes = .ok id → id ≠ "") (tree : Tree)
    (keyed : List (String × Event)) (excluded : Bool)
    (logged : String → Except String (Option String)) (graph : Projection) (r : EntryOfBatch)
    (h : entryOfBatch x tree keyed excluded logged graph hash = .ok (some r)) :
    ∃ (half : Half) (bytes : Option Bytes), halfOf x r.entry.pre = some half ∧
      tree.sinkBytes r.entry.pre r.entry.file = .ok bytes ∧
      half r.entry.file bytes excluded = r.batch ∧ r.entry.excluded = excluded ∧
      (∀ (later : Tree) (mint : String × SystemTime) (blobs : BlobSource) (b : Bytes),
        bytes = some b → blobs r.entry.blob = .ok (some b) →
        resolveEntry x later (r.entry.event mint r.batch.length) (some blobs) =
          .ok (some r.batch)) ∧
      (∀ (later : Tree) (mint : String × SystemTime),
        later.treeBytes r.entry.pre r.entry.file = bytes →
        resolveEntry x later (r.entry.event mint r.batch.length) none = .ok (some r.batch)) ∧
      (∀ (later : Tree) (mint : String × SystemTime) (blobs : Option BlobSource)
        (batch : List Event),
        resolveEntry x later (r.entry.event mint r.batch.length) blobs = .ok (some batch) →
        batchGeneration x batch = r.entry.generation) ∧
      ∀ (s : Store) (stream : String) (f : Graph.Folded), AppendedAndFolded r s stream f →
        ∀ (later : Tree) (keyed' : List (String × Event)) (excluded' : Bool)
          (logged' : String → Except String (Option String)) (graph' : Projection) (b : BatchName)
          (bytes' : Option Bytes),
          Answers r.entry.identity s stream f logged' graph' →
          batchName x ((keyed'.head?.map Prod.fst).getD "") = some b →
          b.identity = r.entry.identity →
          later.sinkBytes r.entry.pre r.entry.file = .ok bytes' →
          (bytes' = bytes → excluded' = excluded →
            entryOfBatch x later keyed' excluded' logged' graph' hash = .ok none) ∧
          (b.walked ≠ r.entry.generation → half r.entry.file bytes' excluded' ≠ [] →
            batchGeneration x (half r.entry.file bytes' excluded') ≠ r.entry.generation →
            (∀ found ∈ bytes', ∃ id, hash found = .ok id) →
            ∃ blob, entryOfBatch x later keyed' excluded' logged' graph' hash =
              .ok (some ⟨⟨r.entry.pre, r.entry.file,
                batchGeneration x (half r.entry.file bytes' excluded'), blob, excluded'⟩,
                half r.entry.file bytes' excluded'⟩)) := by
  obtain ⟨b, bytes, hb, hbytes, hbatch, hsome, blob, hblob, hentry⟩ := entryOfBatch_eq_some h
  obtain ⟨hidentity, hparts, hhalf, hnamed⟩ := batchName_eq_some hb
  obtain ⟨entry, batch⟩ := r
  dsimp only at hbatch hsome hentry ⊢
  subst hentry
  let g : GenerationIngested := ⟨b.pre, b.path, batchGeneration x batch, blob, excluded⟩
  have hg : g.Named := by
    obtain ⟨h₁, h₂, h₃, h₄, h₅⟩ := hnamed (String.join (batch.filterMap fun e => x.text e.data))
    exact ⟨h₁, h₂, h₃, h₄, h₅⟩
  have hparse : ∀ mint, GenerationIngested.parse (g.event mint batch.length).data = some g :=
    fun _ => parse_toData g
  have hown : resolved x b.half g bytes = some batch :=
    resolved_eq_some_iff.2 ⟨hbatch.symm, hsome, rfl⟩
  refine ⟨b.half, bytes, hhalf, hbytes, hbatch.symm, rfl, ?_, ?_, ?_, ?_⟩
  · -- the blob's bytes are tried first
    rintro later mint blobs found rfl hfound
    obtain hhash := mapError_eq_ok.1 hblob
    rw [resolveEntry_eq (hparse mint) hhalf, heldBlob,
      if_neg (by rw [String.isEmpty_iff]; exact hid _ _ hhash), hfound]
    show Except.ok (((resolved x b.half g (some found)).or _).or _) = _
    rw [hown]
    rfl
  · intro later mint htree
    rw [resolveEntry_eq (hparse mint) hhalf, heldBlob]
    show Except.ok (((none : Option (List Event)).or
      ((later.treeBytes b.pre b.path).bind fun found => resolved x b.half g (some found))).or
        (resolved x b.half g none)) = _
    rw [htree]
    cases bytes with
    | none =>
      rw [hown]
      rfl
    | some found =>
      show Except.ok (((none : Option (List Event)).or (resolved x b.half g (some found))).or _) = _
      rw [hown]
      rfl
  · intro later mint blobs other hother
    exact (generation_of_resolveEntry (hparse mint) hother).2
  · rintro s stream f ⟨mint, now, expected, appended, before, reading, folding, entry,
      folded, outcome,
      hordered, happend, hdata, hnew, hfold,
      rfl⟩ later keyed' flag logged' graph' b' bytes' hanswers
      hb' hsame hbytes'
    obtain ⟨-, hparts', hhalf', -⟩ := batchName_eq_some hb'
    have hnames : b'.pre = b.pre ∧ b'.path = b.path := by
      have hg' : GenerationIngested.identityParts g.identity = some (b.pre, b.path) :=
        hg.identityParts_identity
      rw [hsame] at hparts'
      simpa using hparts'.symm.trans hg'
    obtain ⟨hpre, hpath⟩ := hnames
    rw [hpre, hhalf, Option.some.injEq] at hhalf'
    have hlog : s.latestGeneration stream g.identity = some g.generation :=
      latestGeneration_append hordered hg happend
    have hheld : folded.settled.tables.currentGeneration g.identity = some g.generation :=
      currentGeneration_foldEntry (by rw [hdata]; exact hparse mint) hnew hsome hfold
    obtain ⟨owed, held, howed, hcurrent, hsides⟩ := hanswers.graph
    have hlogged := hanswers.log
    rw [hheld] at hsides
    rw [hlog] at hlogged
    rw [← hsame] at hlogged hcurrent
    rw [entryOfBatch_eq hb' hlogged howed hcurrent]
    have hfile : later.sinkBytes b'.pre b'.path = .ok bytes' := by rw [hpre, hpath]; exact hbytes'
    -- only the entry's generation is current to both sides
    have hone : ∀ own, batchIsCurrent (some g.generation)
        (if owed then .owed else .holds held) own = true ↔ g.generation = own :=
      fun own => batchIsCurrent_held hsides
    dsimp only
    rw [recordOf_eq hb' hfile, ← hhalf', hpath, hpre]
    dsimp only
    generalize batchIsCurrent (some g.generation)
      (if owed then GraphSide.owed else .holds held) = current at hone ⊢
    refine ⟨?_, ?_⟩
    · rintro rfl rfl
      have hfull : current (batchGeneration x (b.half b.path bytes' flag)) = true :=
        (hone _).2 (by rw [← hbatch])
      split
      · rfl
      · rw [if_pos (.inr hfull)]
    · intro hwalked hsome' hother hhashes
      rw [if_neg (fun hw => hwalked ((hone _).1 hw).symm),
        if_neg (by
          rintro (hempty | hw)
          · exact hsome' hempty
          · exact hother ((hone _).1 hw).symm)]
      cases bytes' with
      | none => exact ⟨"", rfl⟩
      | some found =>
        obtain ⟨id, hhash⟩ := hhashes found rfl
        refine ⟨id, ?_⟩
        rw [blobOf, hhash]
        rfl

/-- The one event a file no grammar reads is lowered to. -/
def notesBoundary : Event :=
  Event.new ("e1", 0) typeEdgeInferred (.json (.obj [("file", .str "notes.txt"),
    ("name", .str ""), ("lang", .str "unknown"), ("fresh", .bool true)]))

def notesHalves : Halves where
  code := fun _ _ _ => [notesBoundary]
  design := fun _ _ _ => []
  workflow := fun _ _ _ => []
  text := fun _ =>
    some "\x7b\"file\":\"notes.txt\",\"name\":\"\",\"lang\":\"unknown\",\"fresh\":true\x7d"
  debug := id

def notesTree : Tree where
  walks := fun path => path == "notes.txt"
  isFile := fun path => path == "notes.txt"
  read := fun path => if path = "notes.txt" then .ok [97] else .error .notFound
  display := id

def notesBlob : String := "2e65efe2a145dda7ee51d1741299f848e5bf752e"

def notesEntry : GenerationIngested :=
  ⟨"gc", "notes.txt", batchGeneration notesHalves [notesBoundary], notesBlob, false⟩

theorem batchName_notes : batchName notesHalves "gc/notes.txt@h#0" =
    some ⟨"gc/notes.txt", "h", "gc", "notes.txt", notesHalves.code⟩ := by
  have hkey : derivedKeyParts "gc/notes.txt@h#0" = some ("gc/notes.txt", "h") := by decide
  have hparts : GenerationIngested.identityParts "gc/notes.txt" = some ("gc", "notes.txt") := by
    decide
  unfold batchName
  simp only [hkey, hparts, Option.bind_eq_bind, Option.bind_some]
  rfl

theorem entryOfBatch_notes :
    entryOfBatch notesHalves notesTree [("gc/notes.txt@h#0", notesBoundary)] false
      (fun _ => .ok none) ⟨.ok false, fun _ => .ok none⟩ (fun _ => .ok notesBlob) =
        .ok (some ⟨notesEntry, [notesBoundary]⟩) := by
  have hsink : notesTree.sinkBytes "gc" "notes.txt" = .ok (some [97]) := rfl
  have hnone : (Except.ok none : Except String (Option String)) = .ok none := rfl
  have howed : (Except.ok false : Except String Bool) = .ok false := rfl
  have hcurrent : ∀ own, batchIsCurrent none (.holds none) own = false := fun _ => rfl
  have hname : batchName notesHalves
      (([("gc/notes.txt@h#0", notesBoundary)].head?.map Prod.fst).getD "") = some _ :=
    batchName_notes
  refine (entryOfBatch_eq hname hnone howed hnone).trans ?_
  dsimp only
  rw [if_neg Bool.false_ne_true, hcurrent, if_neg Bool.false_ne_true, recordOf_eq hname hsink]
  dsimp only
  rw [hcurrent, if_neg (by simp [notesHalves])]
  rfl

/-- One file's entry, recorded for the first time: it resolves from its blob and from the tree, what
it resolves to is of its generation, and once it is folded the same bytes are not recorded again. -/
theorem recorded_reextracts_notes :
    resolveEntry notesHalves ⟨fun _ => false, fun _ => false, fun _ => .error .notFound, id⟩
        (notesEntry.event ("e2", 1) 1) (some fun _ => .ok (some [97])) =
          .ok (some [notesBoundary]) ∧
      resolveEntry notesHalves notesTree (notesEntry.event ("e2", 1) 1) none =
        .ok (some [notesBoundary]) ∧
      (∀ blobs batch, resolveEntry notesHalves notesTree (notesEntry.event ("e2", 1) 1) blobs =
        .ok (some batch) → batchGeneration notesHalves batch = notesEntry.generation) ∧
      ∀ s stream f, AppendedAndFolded ⟨notesEntry, [notesBoundary]⟩ s stream f →
        ∀ logged graph, Answers notesEntry.identity s stream f logged graph →
          entryOfBatch notesHalves notesTree [("gc/notes.txt@h#0", notesBoundary)] false logged
            graph (fun _ => .ok notesBlob) = .ok none := by
  have hid : ∀ (bytes : Bytes) (id : String),
      (Except.ok notesBlob : Except String String) = .ok id → id ≠ "" := by
    intro _ id h
    cases h
    decide
  have hbytes : notesTree.sinkBytes "gc" "notes.txt" = .ok (some [97]) := rfl
  have htree : notesTree.treeBytes "gc" "notes.txt" = some [97] := rfl
  obtain ⟨half, bytes, -, hsink, -, -, hblob, hheld, hgeneration, hagain⟩ :=
    recorded_reextracts notesHalves (fun _ => .ok notesBlob) hid notesTree _ false _ _ _
      entryOfBatch_notes
  have hread : bytes = some [97] := (Except.ok.inj (hbytes.symm.trans hsink)).symm
  refine ⟨hblob _ ("e2", 1) _ [97] hread rfl, hheld notesTree ("e2", 1) (htree.trans hread.symm),
    hgeneration notesTree ("e2", 1), fun s stream f hfolded logged graph hanswers => ?_⟩
  have hname : batchName notesHalves
      (([("gc/notes.txt@h#0", notesBoundary)].head?.map Prod.fst).getD "") = some _ :=
    batchName_notes
  exact (hagain s stream f hfolded notesTree _ false logged graph _ bytes hanswers hname rfl
    hsink).1 rfl rfl

end Rigger.Grounder
