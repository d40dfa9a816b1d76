import Rigger.Domain.Contextgraph
import Rigger.Lib.Cut
import Rigger.Lib.Latest

/-!
# Perception in the log (`rigger-domain/src/retention.rs`, `rigger-domain/src/ingest.rs`)

The derived index, the ledger entry that stands for a batch of it, and the replay key
`<prefix>/<file>@<generation>#<n>` both name their identity and generation by.
`derivedKeyParts_eq_some_iff` is the one reading of the key parser; everything later cites it
and never cuts a key again.
-/

namespace Rigger

open Lib

/-- The metadata key an event carries its replay key under. -/
def metaReplayKey : String := "replay_key"

def derivedIndexTypes : List String :=
  [typeCodeEntityExtracted, typeEdgeInferred, typeDocConceptExtracted, typeDocLinkExtracted]

def isDerivedIndexType (type_ : String) : Bool := derivedIndexTypes.contains type_

def typeGenerationIngested : String := "GenerationIngested"

def isLedgerEntry (type_ : String) : Bool := type_ == typeGenerationIngested

/-- Perception: the derived index and the ledger entry that stands for it. -/
def perceptionTypes : List String := derivedIndexTypes ++ [typeGenerationIngested]

inductive Class where
  | derived
  | kept
deriving DecidableEq

def classOf (type_ : String) : Class := if isDerivedIndexType type_ then .derived else .kept

variable {type_ : String}

theorem classOf_eq_derived : classOf type_ = .derived ↔ isDerivedIndexType type_ = true := by
  unfold classOf
  split <;> simp_all

theorem not_derived_of_ledger (h : isLedgerEntry type_ = true) :
    isDerivedIndexType type_ = false := by
  rw [isLedgerEntry, beq_iff_eq] at h
  subst h
  decide

theorem mem_perceptionTypes :
    perceptionTypes.contains type_ = true ↔
      isDerivedIndexType type_ = true ∨ isLedgerEntry type_ = true := by
  simp [perceptionTypes, isDerivedIndexType, isLedgerEntry]

/-! ## The ledger entry -/

structure GenerationIngested where
  pre : String
  file : String
  generation : String
  blob : String
  excluded : Bool
deriving DecidableEq

namespace GenerationIngested

def identity (g : GenerationIngested) : String := g.pre ++ "/" ++ g.file

/-- The payload `serde_json::to_vec` writes. -/
def toData (g : GenerationIngested) : Data :=
  .json (.obj [("prefix", .str g.pre), ("file", .str g.file), ("generation", .str g.generation),
    ("blob", .str g.blob), ("excluded", .bool g.excluded)])

def parse (data : Data) : Option GenerationIngested := do
  let [pre, file, generation, blob, excluded] ←
    (← data.value).slots ["prefix", "file", "generation", "blob", "excluded"] | none
  pure
    { pre := ← Json.required Json.asStr pre
      file := ← Json.required Json.asStr file
      generation := ← Json.required Json.asStr generation
      blob := ← Json.required Json.asStr blob
      excluded := ← Json.required Json.asBool excluded }

/-- The one constructor of an entry's event, for a batch of `n` events. -/
def event (mint : String × SystemTime) (g : GenerationIngested) (n : Nat) : Event :=
  ((Event.new mint typeGenerationIngested g.toData).withMeta metaReplayKey
    (g.identity ++ "@" ++ g.generation ++ "#" ++ toString n)).withMeta metaGroup g.identity

/-- `(prefix, file)` of an identity, cut at its first slash; none when it names no prefix. -/
def identityParts (identity : String) : Option (String × String) :=
  (splitOnce '/' identity).filter fun p => !p.1.isEmpty

section
variable (mint : String × SystemTime) (g : GenerationIngested) (n : Nat)

theorem event_replayKey : (g.event mint n).meta_[metaReplayKey]? =
    some (g.identity ++ "@" ++ g.generation ++ "#" ++ toString n) := by
  have hne : ¬compare metaGroup metaReplayKey = .eq := by decide
  unfold event Event.withMeta
  rw [Std.ExtTreeMap.getElem?_insert, if_neg hne, Std.ExtTreeMap.getElem?_insert_self]

theorem event_group : (g.event mint n).meta_[metaGroup]? = some g.identity := by
  simp [event, Event.withMeta]

end

end GenerationIngested

/-! ## The key parser -/

/-- The byte ranges of a content key's batch identity and of its generation. -/
def derivedKeySpans (key : String) : Option ((Nat × Nat) × (Nat × Nat)) := do
  let (pre, remainder) ← GenerationIngested.identityParts key
  let (head, index) ← rsplitOnce '#' remainder
  if index.isEmpty || !index.toList.all Char.isDigit then none
  else
    let (file, hash) ← rsplitOnce '@' head
    if file.isEmpty || hash.isEmpty then none
    else
      let identity := byteLen pre.toList + 1 + byteLen file.toList
      some ((0, identity), (identity + 1, identity + 1 + byteLen hash.toList))

/-- The two slices themselves.  A slice off a character boundary panics in the source;
`derivedKeySpans_boundary` shows that none is taken. -/
def derivedKeyParts (key : String) : Option (String × String) := do
  let (identity, generation) ← derivedKeySpans key
  pure (← slice key identity.1 identity.2, ← slice key generation.1 generation.2)

/-- A replay key in its parts, each free of the separators the parser cuts at. -/
structure ReplayKey where
  pre : String
  file : String
  generation : String
  index : String
  pre_ne : pre ≠ ""
  pre_slash : '/' ∉ pre.toList
  file_ne : file ≠ ""
  generation_ne : generation ≠ ""
  generation_at : '@' ∉ generation.toList
  index_ne : index ≠ ""
  index_digits : index.toList.all Char.isDigit = true

namespace ReplayKey

def identity (k : ReplayKey) : String := k.pre ++ "/" ++ k.file

def text (k : ReplayKey) : String := k.identity ++ "@" ++ k.generation ++ "#" ++ k.index

def spans (k : ReplayKey) : (Nat × Nat) × (Nat × Nat) :=
  ((0, byteLen k.identity.toList),
    (byteLen k.identity.toList + 1,
      byteLen k.identity.toList + 1 + byteLen k.generation.toList))

theorem text_eq (k : ReplayKey) :
    k.text = k.pre ++ "/" ++ (k.file ++ String.singleton '@' ++ k.generation ++
      String.singleton '#' ++ k.index) := by
  rw [← String.toList_inj]
  simp [text, identity]

theorem byteLen_identity (k : ReplayKey) :
    byteLen k.identity.toList = byteLen k.pre.toList + 1 + byteLen k.file.toList := by
  have hslash : '/'.utf8Size = 1 := by decide
  simp only [identity, String.toList_append, byteLen_append]
  simp [hslash]

theorem index_hash (k : ReplayKey) : '#' ∉ k.index.toList := by
  intro h
  have := List.all_eq_true.1 k.index_digits '#' h
  exact absurd this (by decide)

end ReplayKey

theorem identityParts_eq_some_iff (identity pre file : String) :
    GenerationIngested.identityParts identity = some (pre, file) ↔
      identity = pre ++ "/" ++ file ∧ '/' ∉ pre.toList ∧ pre ≠ "" := by
  unfold GenerationIngested.identityParts
  rw [Option.filter_eq_some_iff, splitOnce_eq_some_iff]
  simp [and_assoc]

/-- The parser cuts exactly the texts of replay keys, at the ends of their parts. -/
theorem derivedKeySpans_eq_some_iff (key : String) (spans : (Nat × Nat) × (Nat × Nat)) :
    derivedKeySpans key = some spans ↔ ∃ k : ReplayKey, k.text = key ∧ k.spans = spans := by
  unfold derivedKeySpans
  simp only [Option.bind_eq_bind, Option.bind_eq_some_iff, Prod.exists,
    Option.ite_none_left_eq_some, Bool.or_eq_true, Bool.not_eq_true', not_or, String.isEmpty_iff,
    Bool.not_eq_false, identityParts_eq_some_iff, rsplitOnce_eq_some_iff]
  constructor
  · rintro ⟨pre, _, ⟨rfl, hslash, hpre⟩, _, index, ⟨rfl, hhash⟩, ⟨hindex, hdigits⟩, file, hash,
      ⟨rfl, hat⟩, ⟨hfile, hgen⟩, h⟩
    let k : ReplayKey :=
      ⟨pre, file, hash, index, hpre, hslash, hfile, hgen, hat, hindex, hdigits⟩
    refine ⟨k, k.text_eq, ?_⟩
    cases h
    rw [ReplayKey.spans, k.byteLen_identity]
  · rintro ⟨k, rfl, rfl⟩
    refine ⟨k.pre, _, ⟨k.text_eq, k.pre_slash, k.pre_ne⟩, _, k.index, ⟨rfl, k.index_hash⟩,
      ⟨k.index_ne, k.index_digits⟩, k.file, k.generation, ⟨rfl, k.generation_at⟩,
      ⟨k.file_ne, k.generation_ne⟩, ?_⟩
    rw [ReplayKey.spans, k.byteLen_identity]

/-- The one reading of the parser: what it answers, and for which texts. -/
theorem derivedKeyParts_eq_some_iff (key identity generation : String) :
    derivedKeyParts key = some (identity, generation) ↔
      ∃ k : ReplayKey, k.text = key ∧ k.identity = identity ∧ k.generation = generation := by
  -- both slices of a key's text are its parts
  have parts : ∀ k : ReplayKey,
      slice k.text k.spans.1.1 k.spans.1.2 = some k.identity ∧
        slice k.text k.spans.2.1 k.spans.2.2 = some k.generation := by
    intro k
    constructor
    · have := slice_middle k.text [] k.identity.toList
        ("@" ++ k.generation ++ "#" ++ k.index).toList (by simp [ReplayKey.text])
      simpa [ReplayKey.spans] using this
    · have := slice_middle k.text (k.identity ++ "@").toList k.generation.toList
        ("#" ++ k.index).toList (by simp [ReplayKey.text])
      have hat : '@'.utf8Size = 1 := by decide
      simpa [ReplayKey.spans, hat] using this
  unfold derivedKeyParts
  simp only [Option.bind_eq_bind, Option.pure_def, Option.bind_eq_some_iff,
    derivedKeySpans_eq_some_iff, Option.some.injEq, Prod.mk.injEq]
  constructor
  · rintro ⟨_, ⟨k, rfl, rfl⟩, i, hi, g, hg, rfl, rfl⟩
    rw [(parts k).1] at hi
    rw [(parts k).2] at hg
    exact ⟨k, rfl, Option.some.inj hi, Option.some.inj hg⟩
  · rintro ⟨k, rfl, rfl, rfl⟩
    exact ⟨k.spans, ⟨k, rfl, rfl⟩, k.identity, (parts k).1, k.generation, (parts k).2, rfl, rfl⟩

theorem identity_ne_empty_of_key {key identity generation : String}
    (h : derivedKeyParts key = some (identity, generation)) : identity ≠ "" := by
  obtain ⟨k, -, rfl, -⟩ := (derivedKeyParts_eq_some_iff _ _ _).1 h
  intro hempty
  have := congrArg String.toList hempty
  simp [ReplayKey.identity] at this

theorem derivedKeyParts_text (k : ReplayKey) :
    derivedKeyParts k.text = some (k.identity, k.generation) :=
  (derivedKeyParts_eq_some_iff _ _ _).2 ⟨k, rfl, rfl, rfl⟩

/-- Every range the parser answers lies in the text and ends on character boundaries. -/
theorem derivedKeySpans_boundary {key : String} {identity generation : Nat × Nat}
    (h : derivedKeySpans key = some (identity, generation)) :
    (Boundary key identity.1 ∧ Boundary key identity.2 ∧ identity.1 ≤ identity.2) ∧
      Boundary key generation.1 ∧ Boundary key generation.2 ∧ generation.1 ≤ generation.2 := by
  obtain ⟨k, rfl, hk⟩ := (derivedKeySpans_eq_some_iff _ _).1 h
  cases hk
  -- the inner cuts of the text, each after a whole part
  have hidentity : Boundary k.text (byteLen k.identity.toList) :=
    ⟨_, ("@" ++ k.generation ++ "#" ++ k.index).toList, by simp [ReplayKey.text], rfl⟩
  have hat : Boundary k.text (byteLen k.identity.toList + 1) :=
    ⟨(k.identity ++ "@").toList, (k.generation ++ "#" ++ k.index).toList,
      by simp [ReplayKey.text], by simp [show '@'.utf8Size = 1 by decide]⟩
  have hgeneration :
      Boundary k.text (byteLen k.identity.toList + 1 + byteLen k.generation.toList) :=
    ⟨(k.identity ++ "@" ++ k.generation).toList, ("#" ++ k.index).toList,
      by simp [ReplayKey.text], by simp [show '@'.utf8Size = 1 by decide]; omega⟩
  exact ⟨⟨⟨[], _, rfl, rfl⟩, hidentity, Nat.zero_le _⟩, hat, hgeneration, Nat.le_add_right _ _⟩

/-! ## Round trip -/

namespace GenerationIngested

/-- What every writer of a batch names it by: a prefix with no slash, a file, and a generation
with no `@`. -/
structure Named (g : GenerationIngested) : Prop where
  pre_ne : g.pre ≠ ""
  pre_slash : '/' ∉ g.pre.toList
  file_ne : g.file ≠ ""
  generation_ne : g.generation ≠ ""
  generation_at : '@' ∉ g.generation.toList

variable {g : GenerationIngested}

/-- The key of a named batch of `n` events. -/
def Named.key (h : g.Named) (n : Nat) : ReplayKey where
  pre := g.pre
  file := g.file
  generation := g.generation
  index := toString n
  pre_ne := h.pre_ne
  pre_slash := h.pre_slash
  file_ne := h.file_ne
  generation_ne := h.generation_ne
  generation_at := h.generation_at
  index_ne := Nat.repr_ne_empty
  index_digits := all_isDigit_toString n

theorem Named.event_key (h : g.Named) (mint : String × SystemTime) (n : Nat) :
    (g.event mint n).meta_[metaReplayKey]? = some (h.key n).text := event_replayKey mint g n

theorem Named.identityParts_identity (h : g.Named) :
    identityParts g.identity = some (g.pre, g.file) :=
  (identityParts_eq_some_iff _ _ _).2 ⟨rfl, h.pre_slash, h.pre_ne⟩

end GenerationIngested

theorem ReplayKey.text_inj {k l : ReplayKey} (h : k.text = l.text) :
    k.pre = l.pre ∧ k.file = l.file ∧ k.generation = l.generation ∧ k.index = l.index := by
  have hparts := (derivedKeyParts_text k).symm.trans (h ▸ derivedKeyParts_text l)
  simp only [Option.some.injEq, Prod.mk.injEq] at hparts
  obtain ⟨hidentity, hgeneration⟩ := hparts
  have hk := (identityParts_eq_some_iff k.identity _ _).2 ⟨rfl, k.pre_slash, k.pre_ne⟩
  have hl := (identityParts_eq_some_iff l.identity _ _).2 ⟨rfl, l.pre_slash, l.pre_ne⟩
  rw [hidentity, hl] at hk
  simp only [Option.some.injEq, Prod.mk.injEq] at hk
  refine ⟨hk.1.symm, hk.2.symm, hgeneration, ?_⟩
  rw [ReplayKey.text, ReplayKey.text, hidentity, hgeneration, ← String.toList_inj] at h
  rw [← String.toList_inj]
  simpa using h

/-- A key is what a named batch's entry writes, up to zeros before its index. -/
theorem ReplayKey.exists_named (k : ReplayKey) : ∃ (g : GenerationIngested) (zeros n : Nat),
    g.Named ∧ g.identity = k.identity ∧ g.generation = k.generation ∧
      k.index = String.ofList (List.replicate zeros '0') ++ toString n := by
  obtain ⟨zeros, n, hindex⟩ := digits_eq_zeros_append k.index.toList
    (fun h => k.index_ne (String.toList_inj.1 h)) k.index_digits
  refine ⟨⟨k.pre, k.file, k.generation, "", false⟩, zeros, n,
    ⟨k.pre_ne, k.pre_slash, k.file_ne, k.generation_ne, k.generation_at⟩, rfl, rfl, ?_⟩
  rw [← String.toList_inj, hindex, String.toList_append, String.toList_ofList]

/-- The key grammar: what a named batch's entry writes parses back to its identity and
generation, and the identity to its prefix and file; different names or counts make different
keys; the parser cuts every text within its bounds and at characters; and it accepts only keys
of named batches, up to zeros before the index. -/
theorem replayKey_grammar :
    (∀ (mint : String × SystemTime) (g : GenerationIngested) (n : Nat), g.Named →
      (g.event mint n).meta_[metaReplayKey]? =
          some (g.pre ++ "/" ++ g.file ++ "@" ++ g.generation ++ "#" ++ toString n) ∧
        derivedKeyParts (g.pre ++ "/" ++ g.file ++ "@" ++ g.generation ++ "#" ++ toString n) =
          some (g.pre ++ "/" ++ g.file, g.generation) ∧
        GenerationIngested.identityParts (g.pre ++ "/" ++ g.file) = some (g.pre, g.file)) ∧
    (∀ (mint mint' : String × SystemTime) (g g' : GenerationIngested) (n n' : Nat),
      g.Named → g'.Named →
      (g.event mint n).meta_[metaReplayKey]? = (g'.event mint' n').meta_[metaReplayKey]? →
      g.pre = g'.pre ∧ g.file = g'.file ∧ g.generation = g'.generation ∧ n = n') ∧
    (∀ (key : String) (identity generation : Nat × Nat),
      derivedKeySpans key = some (identity, generation) →
      (Boundary key identity.1 ∧ Boundary key identity.2 ∧ identity.1 ≤ identity.2 ∧
          identity.2 ≤ byteLen key.toList) ∧
        Boundary key generation.1 ∧ Boundary key generation.2 ∧
          generation.1 ≤ generation.2 ∧ generation.2 ≤ byteLen key.toList) ∧
    (∀ key identity generation : String, derivedKeyParts key = some (identity, generation) →
      ∃ (g : GenerationIngested) (zeros n : Nat), g.Named ∧
        identity = g.pre ++ "/" ++ g.file ∧ generation = g.generation ∧
        key = g.pre ++ "/" ++ g.file ++ "@" ++ g.generation ++ "#" ++
          String.ofList (List.replicate zeros '0') ++ toString n) := by
  refine ⟨fun mint g n hg => ?_, fun mint mint' g g' n n' hg hg' h => ?_,
    fun key identity generation h => ?_, fun key identity generation h => ?_⟩
  · exact ⟨hg.event_key mint n, derivedKeyParts_text (hg.key n), hg.identityParts_identity⟩
  · rw [hg.event_key, hg'.event_key, Option.some.injEq] at h
    obtain ⟨hpre, hfile, hgeneration, hindex⟩ := ReplayKey.text_inj h
    exact ⟨hpre, hfile, hgeneration, toString_nat_inj hindex⟩
  · obtain ⟨⟨ha, hb, hle⟩, hc, hd, hle'⟩ := derivedKeySpans_boundary h
    exact ⟨⟨ha, hb, hle, hb.le_size⟩, hc, hd, hle', hd.le_size⟩
  · obtain ⟨k, rfl, rfl, rfl⟩ := (derivedKeyParts_eq_some_iff _ _ _).1 h
    obtain ⟨g, zeros, n, hg, hidentity, hgeneration, hindex⟩ := k.exists_named
    refine ⟨g, zeros, n, hg, hidentity.symm, hgeneration.symm, ?_⟩
    rw [ReplayKey.text, ← hidentity, ← hgeneration, hindex, ← String.append_assoc]
    rfl

/-- A zero before the index: accepted, and no entry's key. -/
theorem replayKey_leading_zero :
    derivedKeyParts "gc/a@h#00" = some ("gc/a", "h") ∧
      ¬∃ (mint : String × SystemTime) (g : GenerationIngested) (n : Nat), g.Named ∧
        (g.event mint n).meta_[metaReplayKey]? = some "gc/a@h#00" := by
  refine ⟨by decide, ?_⟩
  rintro ⟨mint, g, n, hg, h⟩
  rw [hg.event_key, Option.some.injEq] at h
  let k : ReplayKey := ⟨"gc", "a", "h", "00", by decide, by decide, by decide, by decide,
    by decide, by decide, by decide⟩
  have hindex : toString n = "00" := (ReplayKey.text_inj (h.trans (by decide : _ = k.text))).2.2.2
  have hn : n = Nat.ofDigitChars 10 "00".toList 0 := by
    rw [← hindex, Nat.toString_eq_ofList_toDigits]
    simp
  rw [hn] at hindex
  exact absurd hindex (by decide)

/-! ## Recordings -/

/-- The identity and generation a row's replay key names. -/
def named (meta_ : Meta) : Option (String × String) := meta_[metaReplayKey]?.bind derivedKeyParts

/-- The identity and generation a row of the derived index names. -/
def derivedGeneration (e : Event) : Option (String × String) :=
  if isDerivedIndexType e.type_ then named e.meta_ else none

/-- The generation an event of a kind records of `identity`: type first, then the whole key. -/
def recordedAs (kind : String → Bool) (identity type_ : String) (meta_ : Meta) : Option String :=
  if kind type_ then (named meta_).bind fun p => if p.1 = identity then some p.2 else none
  else none

theorem recordedAs_eq_some_iff {kind : String → Bool} {identity generation : String}
    {meta_ : Meta} :
    recordedAs kind identity type_ meta_ = some generation ↔
      kind type_ = true ∧ named meta_ = some (identity, generation) := by
  unfold recordedAs
  by_cases ht : kind type_ = true
  · rw [if_pos ht, and_iff_right ht]
    cases named meta_ with
    | none => simp
    | some p =>
      obtain ⟨i, g⟩ := p
      by_cases hi : i = identity <;> simp [hi]
  · rw [if_neg ht]
    simp only [reduceCtorEq, false_iff, not_and]
    exact fun h => absurd h ht

/-- The generation a recording of perception records. -/
abbrev recorded : String → String → Meta → Option String := recordedAs perceptionTypes.contains

theorem named_event {g : GenerationIngested} (h : g.Named) (mint : String × SystemTime) (n : Nat) :
    named (g.event mint n).meta_ = some (g.identity, g.generation) := by
  rw [named, h.event_key mint n]
  exact derivedKeyParts_text (h.key n)

/-- What a key names is a named batch, whatever else its entry records. -/
theorem Named.of_parts {key identity generation : String}
    (h : derivedKeyParts key = some (identity, generation)) :
    ∃ pre file, GenerationIngested.identityParts identity = some (pre, file) ∧
      ∀ blob excluded, GenerationIngested.Named ⟨pre, file, generation, blob, excluded⟩ := by
  obtain ⟨k, rfl, rfl, rfl⟩ := (derivedKeyParts_eq_some_iff _ _ _).1 h
  exact ⟨k.pre, k.file, (identityParts_eq_some_iff _ _ _).2 ⟨rfl, k.pre_slash, k.pre_ne⟩,
    fun _ _ => ⟨k.pre_ne, k.pre_slash, k.file_ne, k.generation_ne, k.generation_at⟩⟩

/-- The log's side of perception: each identity with its latest recorded generation. -/
def projectScopedLatestGenerations (prior : List Event) : Std.ExtTreeMap String String :=
  collect ((prior.filter fun e => perceptionTypes.contains e.type_).filterMap
    fun e => named e.meta_)

theorem getElem?_projectScopedLatestGenerations (prior : List Event) (identity : String) :
    (projectScopedLatestGenerations prior)[identity]? =
      latest (fun e => recorded identity e.type_ e.meta_) prior := by
  unfold projectScopedLatestGenerations
  rw [getElem?_collect, latest_filterMap, latest_filter]
  rfl

/-! ## The derived index's policy -/

def reassertedDerivedTypes : List String :=
  derivedIndexTypes.filter fun t => !refoldSupersedesPriorEdges t

def derivedIndexIdentity : ContentIdentity :=
  { ContentIdentity.new metaReplayKey derivedIndexTypes with
    reasserting := some reassertedDerivedTypes
    keyParts := derivedKeyParts
    facts := some ⟨typeAliasDefined, aliasDefinition, assertedFact⟩ }

end Rigger
