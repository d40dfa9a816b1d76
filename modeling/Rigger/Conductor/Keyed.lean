import Mathlib.Data.List.Nodup
import Mathlib.Logic.Function.Basic
import Rigger.Conductor.Emit
import Rigger.Lib.Run

/-!
# Keyed emits of concurrent stages (`rigger-conductor/src/conductor.rs`)

A keyed emit claims its key in the process's set and then appends its event; a group claims its
keys one by one and appends the events of those it claimed together.  Any number of stages emit
between one another, an append may fail or write a part of what it was handed, and a process that
resumes the run seeds the set from the log.

No key is recorded twice (`run_once`).  A claim is not given back where its append fails, so a
later emit of the key answers `Ok` and nothing is on the log (`acknowledged_not_recorded`); every
emit that answered `Ok` is on it where none finds a claim whose event never came
(`acknowledged_recorded`).
-/

namespace Rigger.Conductor.Keyed

open Lib

def metaRunId : String := "run_id"

/-- `stamped`. -/
def stamped (runId : String) (e : Event) : Event :=
  if runId.isEmpty then e else e.withMeta metaRunId runId

/-- An event to emit under a replay key: a lifecycle one, never perception. -/
structure Emit where
  mint : Mint
  key : String
  type_ : String
  payload : Json
  extra : List (String × String)
  lifecycle : perceptionTypes.contains type_ = false

namespace Emit

/-- The event `keyed_event` builds, as the run appends it. -/
def event (runId : String) (k : Emit) : Event :=
  stamped runId ((eventWithMeta k.mint k.type_ k.payload k.extra).withMeta metaReplayKey k.key)

end Emit

/-- The run's log, and the replay keys the running process holds. -/
structure Shared where
  log : List Event
  keys : List String

/-- Where a stage stands in a call of `emit_keyed` (one item) or `emit_keyed_together`: `todo` are
the items whose key it has not asked for yet, `fresh` those whose key it claimed. -/
inductive Phase where
  | idle
  | claiming (items todo fresh : List Emit)

/-- `placed` says which of the events an append wrote, `ok` whether it answered. -/
inductive Move where
  | emit (items : List Emit)
  | claim
  | append (placed : List Bool) (ok : Bool)

section
variable (runId : String)

/-- What an append wrote of the events it was handed. -/
def written (fresh : List Emit) (placed : List Bool) : List Emit :=
  ((fresh.zip placed).filter Prod.snd).map Prod.fst

/-- One step of a stage, with the items it is answered `Ok` for. -/
def turn (s : Shared) : Phase → Move → Option (Shared × Phase × List Emit)
  | .idle, .emit items => some (s, .claiming items items [], [])
  | .claiming items (k :: todo) fresh, .claim =>
    if s.keys.contains k.key then some (s, .claiming items todo fresh, [])
    else some ({ s with keys := k.key :: s.keys }, .claiming items todo (fresh ++ [k]), [])
  | .claiming items [] fresh, .append placed ok =>
    let landed := written fresh placed
    some ({ s with log := s.log ++ landed.map (Emit.event runId) }, .idle,
      if fresh.isEmpty || (ok && landed.length == fresh.length) then items else [])
  | _, _ => none

end

/-- `other` is an event that no keyed emit writes: without a replay key, or perception. -/
inductive Act (τ : Type) where
  | other (e : Event) (h : e.meta_[metaReplayKey]? = none ∨ perceptionTypes.contains e.type_ = true)
  | stage (t : τ) (m : Move)
  | resume

/-- `acknowledged` are the items whose emit answered `Ok`, in any process of the run. -/
structure World (τ : Type) where
  shared : Shared
  stages : τ → Phase
  acknowledged : List Emit

abbrev World.log {τ : Type} (w : World τ) : List Event := w.shared.log

def World.new {τ : Type} : World τ := ⟨⟨[], []⟩, fun _ => .idle, []⟩

/-- A process that resumes the run, wherever the one before it stopped, holds the keys of the log
and no emit. -/
def step {τ : Type} [DecidableEq τ] (runId : String) (w : World τ) : Act τ → World τ
  | .other e _ => { w with shared := { w.shared with log := w.log ++ [e] } }
  | .stage t m =>
    match turn runId w.shared (w.stages t) m with
    | some (s, p, answered) => ⟨s, Function.update w.stages t p, w.acknowledged ++ answered⟩
    | none => w
  | .resume => { w with shared := ⟨w.log, seededKeys w.log⟩, stages := fun _ => .idle }

/-! ## What is written -/

@[simp] theorem event_type (runId : String) (k : Emit) : (k.event runId).type_ = k.type_ := by
  unfold Emit.event stamped
  split
  · exact eventWithMeta_type _ _ _ _
  · exact eventWithMeta_type _ _ _ _

theorem event_key (runId : String) (k : Emit) :
    (k.event runId).meta_[metaReplayKey]? = some k.key := by
  have hne : ¬compare metaRunId metaReplayKey = .eq := by decide
  have hkey : ((eventWithMeta k.mint k.type_ k.payload k.extra).withMeta metaReplayKey
      k.key).meta_[metaReplayKey]? = some k.key := Std.ExtTreeMap.getElem?_insert_self
  unfold Emit.event stamped
  split
  · exact hkey
  · rw [Event.withMeta, Std.ExtTreeMap.getElem?_insert, if_neg hne]
    exact hkey

theorem seededKeys_append (a b : List Event) : seededKeys (a ++ b) = seededKeys a ++
    seededKeys b := by
  unfold seededKeys
  rw [List.filter_append, List.filterMap_append]

theorem seededKeys_events (runId : String) (ks : List Emit) :
    seededKeys (ks.map (Emit.event runId)) = ks.map Emit.key := by
  induction ks with
  | nil => rfl
  | cons k ks ih =>
    have hone : seededKeys [k.event runId] = [k.key] := by
      unfold seededKeys
      rw [List.filter_cons_of_pos (by rw [event_type, k.lifecycle]; rfl), List.filter_nil]
      simp only [List.filterMap_cons, event_key, List.filterMap_nil]
    rw [List.map_cons, List.map_cons, ← List.singleton_append, seededKeys_append, ih, hone]
    rfl

theorem seededKeys_other {e : Event}
    (h : e.meta_[metaReplayKey]? = none ∨ perceptionTypes.contains e.type_ = true) :
    seededKeys [e] = [] := by
  unfold seededKeys
  rcases h with h | h
  · cases hp : perceptionTypes.contains e.type_ with
    | true => rw [List.filter_cons_of_neg (by simp only [hp]; decide)]; rfl
    | false =>
      rw [List.filter_cons_of_pos (by rw [hp]; rfl), List.filter_nil]
      simp only [List.filterMap_cons, h, List.filterMap_nil]
  · rw [List.filter_cons_of_neg (by rw [h]; decide)]
    rfl

theorem written_sublist (fresh : List Emit) (placed : List Bool) :
    (written fresh placed).Sublist fresh := by
  unfold written
  induction fresh generalizing placed with
  | nil => exact List.Sublist.refl _
  | cons k fresh ih =>
    cases placed with
    | nil => exact List.nil_sublist _
    | cons b placed =>
      rw [List.zip_cons_cons]
      cases b with
      | true =>
        rw [List.filter_cons_of_pos rfl, List.map_cons]
        exact (ih placed).cons_cons k
      | false =>
        rw [List.filter_cons_of_neg Bool.false_ne_true]
        exact (ih placed).cons k

/-! ## At most once -/

/-- The items whose key a stage claimed and has not appended. -/
def Phase.fresh : Phase → List Emit
  | .idle => []
  | .claiming _ _ fresh => fresh

/-- The claims of one stage: each once, in the set, and not on the log. -/
structure Claims (s : Shared) (p : Phase) : Prop where
  nodup : (p.fresh.map Emit.key).Nodup
  held : ∀ k ∈ p.fresh, k.key ∈ s.keys
  absent : ∀ k ∈ p.fresh, k.key ∉ seededKeys s.log

structure World.Sound {τ : Type} (w : World τ) : Prop where
  nodup : (seededKeys w.log).Nodup
  seeded : ∀ key ∈ seededKeys w.log, key ∈ w.shared.keys
  claims : ∀ t, Claims w.shared (w.stages t)
  apart : ∀ t t', t ≠ t' → ∀ k ∈ (w.stages t).fresh, ∀ k' ∈ (w.stages t').fresh, k.key ≠ k'.key

theorem Claims.idle (s : Shared) : Claims s .idle := ⟨List.nodup_nil, nofun, nofun⟩

section
variable {runId : String} {s s' : Shared} {p p' : Phase} {m : Move} {answered : List Emit}

/-- What one step of a stage does: it keeps the keys held, puts some of its claims on the log, and
claims no key that is held. -/
structure Turned (s s' : Shared) (p p' : Phase) : Prop where
  keys : ∀ key ∈ s.keys, key ∈ s'.keys
  log : ∃ landed : List Emit, landed.Sublist p.fresh ∧
    seededKeys s'.log = seededKeys s.log ++ landed.map Emit.key
  fresh : ∀ k ∈ p'.fresh, k ∈ p.fresh ∨ k.key ∉ s.keys
  claims : Claims s p → (∀ key ∈ seededKeys s.log, key ∈ s.keys) → Claims s' p' ∧
    ∀ key ∈ seededKeys s'.log, key ∈ s'.keys

theorem turn_turned (h : turn runId s p m = some (s', p', answered)) : Turned s s' p p' := by
  unfold turn at h
  split at h
  case h_1 items =>
    cases h
    refine ⟨fun _ hk => hk, ⟨[], List.nil_sublist _, (List.append_nil _).symm⟩, nofun, ?_⟩
    exact fun _ hseeded => ⟨⟨List.nodup_nil, nofun, nofun⟩, hseeded⟩
  case h_2 items k todo fresh =>
    split at h
    · cases h
      refine ⟨fun _ hk => hk, ⟨[], List.nil_sublist _, (List.append_nil _).symm⟩,
        fun _ hk => Or.inl hk, fun hclaims hseeded => ⟨?_, hseeded⟩⟩
      exact ⟨hclaims.nodup, hclaims.held, hclaims.absent⟩
    · next hnew =>
      have hnew : k.key ∉ s.keys := fun hc => hnew (List.contains_iff_mem.2 hc)
      cases h
      refine ⟨fun _ hk => List.mem_cons_of_mem _ hk,
        ⟨[], List.nil_sublist _, (List.append_nil _).symm⟩, fun k' hk' => ?_,
        fun hclaims hseeded => ⟨⟨?_, fun k' hk' => ?_, fun k' hk' => ?_⟩, fun key hkey => ?_⟩⟩
      · rcases List.mem_append.1 hk' with hk' | hk'
        · exact Or.inl hk'
        · cases List.mem_singleton.1 hk'
          exact Or.inr hnew
      · show ((fresh ++ [k]).map Emit.key).Nodup
        rw [List.map_append]
        refine List.nodup_append'.2 ⟨hclaims.nodup, List.nodup_singleton _,
          fun key hkey hkey' => ?_⟩
        obtain ⟨k', hk', rfl⟩ := List.mem_map.1 hkey
        rw [List.map_cons, List.map_nil, List.mem_singleton] at hkey'
        exact hnew (hkey' ▸ hclaims.held k' hk')
      · rcases List.mem_append.1 hk' with hk' | hk'
        · exact List.mem_cons_of_mem _ (hclaims.held k' hk')
        · cases List.mem_singleton.1 hk'
          exact List.mem_cons_self
      · rcases List.mem_append.1 hk' with hk' | hk'
        · exact hclaims.absent k' hk'
        · cases List.mem_singleton.1 hk'
          exact fun hc => hnew (hseeded _ hc)
      · exact List.mem_cons_of_mem _ (hseeded key hkey)
  case h_3 items fresh placed ok =>
    cases h
    have hlog : seededKeys (s.log ++ (written fresh placed).map (Emit.event runId)) =
        seededKeys s.log ++ (written fresh placed).map Emit.key := by
      rw [seededKeys_append, seededKeys_events]
    refine ⟨fun _ hk => hk, ⟨_, written_sublist fresh placed, hlog⟩, nofun,
      fun hclaims hseeded => ⟨Claims.idle _, fun key hkey => ?_⟩⟩
    rcases List.mem_append.1 (hlog ▸ hkey) with hkey | hkey
    · exact hseeded key hkey
    · obtain ⟨k, hk, rfl⟩ := List.mem_map.1 hkey
      exact hclaims.held k ((written_sublist fresh placed).subset hk)
  case h_4 => cases h

end

theorem sound_new {τ : Type} : (World.new : World τ).Sound :=
  ⟨List.nodup_nil, nofun, fun _ => Claims.idle _, fun _ _ _ _ hk => by cases hk⟩

section
variable {τ : Type} [DecidableEq τ] {w : World τ} {runId : String}
  {p : Phase} {answered : List Emit}

theorem World.Sound.stage (h : w.Sound) {t : τ} {m : Move} {s : Shared} {acknowledged : List Emit}
    (hturn : turn runId w.shared (w.stages t) m = some (s, p, answered)) :
    World.Sound ⟨s, Function.update w.stages t p, acknowledged⟩ := by
  have hturned := turn_turned hturn
  obtain ⟨landed, hlanded, hlog⟩ := hturned.log
  obtain ⟨hclaims, hseeded⟩ := hturned.claims (h.claims t) h.seeded
  have hother : ∀ t', t' ≠ t → Function.update w.stages t p t' = w.stages t' := fun t' ht =>
    Function.update_of_ne ht p w.stages
  have hself : Function.update w.stages t p t = p := Function.update_self t p w.stages
  have hfresh : ∀ t', t' ≠ t → ∀ k ∈ p.fresh, ∀ k' ∈ (w.stages t').fresh, k.key ≠ k'.key := by
    intro t' ht k hk k' hk'
    rcases hturned.fresh k hk with hk | hk
    · exact h.apart t t' ht.symm k hk k' hk'
    · intro hc
      exact hk (hc ▸ (h.claims t').held k' hk')
  refine ⟨?_, hseeded, fun t' => ?_, fun t₁ t₂ hne k hk k' hk' => ?_⟩
  · show (seededKeys s.log).Nodup
    rw [hlog]
    refine List.nodup_append'.2 ⟨h.nodup, (h.claims t).nodup.sublist (hlanded.map _), ?_⟩
    intro key hkey hkey'
    obtain ⟨k, hk, rfl⟩ := List.mem_map.1 hkey'
    exact (h.claims t).absent k (hlanded.subset hk) hkey
  · show Claims s (Function.update w.stages t p t')
    by_cases ht : t' = t
    · rw [ht, hself]
      exact hclaims
    · rw [hother t' ht]
      refine ⟨(h.claims t').nodup, fun k hk => hturned.keys _ ((h.claims t').held k hk), ?_⟩
      intro k hk
      show k.key ∉ seededKeys s.log
      rw [hlog, List.mem_append, not_or]
      refine ⟨(h.claims t').absent k hk, fun hc => ?_⟩
      obtain ⟨k', hk', heq⟩ := List.mem_map.1 hc
      exact h.apart t t' (Ne.symm ht) k' (hlanded.subset hk') k hk heq
  · change k ∈ (Function.update w.stages t p t₁).fresh at hk
    change k' ∈ (Function.update w.stages t p t₂).fresh at hk'
    by_cases h₁ : t₁ = t
    · subst h₁
      rw [hself] at hk
      rw [hother t₂ hne.symm] at hk'
      exact hfresh t₂ hne.symm k hk k' hk'
    · rw [hother t₁ h₁] at hk
      by_cases h₂ : t₂ = t
      · subst h₂
        rw [hself] at hk'
        exact (hfresh t₁ h₁ k' hk' k hk).symm
      · rw [hother t₂ h₂] at hk'
        exact h.apart t₁ t₂ hne k hk k' hk'

theorem World.Sound.step (h : w.Sound) (a : Act τ) : (step runId w a).Sound := by
  cases a with
  | other e he =>
    have hlog : seededKeys (w.log ++ [e]) = seededKeys w.log := by
      rw [seededKeys_append, seededKeys_other he, List.append_nil]
    refine ⟨?_, fun key hkey => h.seeded key (hlog ▸ hkey), fun t => ?_, h.apart⟩
    · show (seededKeys (w.log ++ [e])).Nodup
      rw [hlog]
      exact h.nodup
    · refine ⟨(h.claims t).nodup, (h.claims t).held, fun k hk => ?_⟩
      show k.key ∉ seededKeys (w.log ++ [e])
      rw [hlog]
      exact (h.claims t).absent k hk
  | stage t m =>
    simp only [Keyed.step]
    split
    · next s p answered hturn => exact h.stage hturn
    · exact h
  | resume =>
    exact ⟨h.nodup, fun _ hkey => hkey, fun _ => Claims.idle _, fun _ _ _ _ hk => by cases hk⟩

/-- No two events of the run's log carry one replay key, but for perception. -/
theorem run_once (runId : String) (acts : List (Act τ)) :
    (seededKeys (run (step runId) World.new acts).log).Nodup :=
  (run_invariant (fun _ a h => h.step a) sound_new acts).nodup

/-! ## Acknowledged emits -/

/-- A stage that finds its key claimed finds its event on the log, or among those it is about to
append. -/
def Landed (w : World τ) : Act τ → Prop
  | .stage t .claim => ∀ items k todo fresh, w.stages t = .claiming items (k :: todo) fresh →
    k.key ∈ w.shared.keys → k.key ∈ seededKeys w.log ∨ k.key ∈ fresh.map Emit.key
  | _ => True

/-- The items a stage is done claiming are on the log or among those it claimed. -/
def Phase.Kept (log : List Event) : Phase → Prop
  | .idle => True
  | .claiming items todo fresh => ∀ k ∈ items,
    k ∈ todo ∨ k.key ∈ seededKeys log ∨ k.key ∈ fresh.map Emit.key

structure World.Kept {τ : Type} (w : World τ) : Prop where
  acknowledged : ∀ k ∈ w.acknowledged, k.key ∈ seededKeys w.log
  stages : ∀ t, (w.stages t).Kept w.log

omit [DecidableEq τ] in
theorem kept_turn {t : τ} {m : Move} {s : Shared} (ha : Landed w (.stage t m))
    (h : (w.stages t).Kept w.log)
    (hturn : turn runId w.shared (w.stages t) m = some (s, p, answered)) :
    p.Kept s.log ∧ ∀ k ∈ answered, k.key ∈ seededKeys s.log := by
  generalize hphase : w.stages t = q at h hturn
  unfold turn at hturn
  split at hturn
  case h_1 items =>
    cases hturn
    exact ⟨fun k hk => Or.inl hk, nofun⟩
  case h_2 items k todo fresh =>
    split at hturn
    · next hheld =>
      cases hturn
      refine ⟨fun k' hk' => ?_, nofun⟩
      rcases h k' hk' with hk' | hk'
      · rcases List.mem_cons.1 hk' with rfl | hk'
        · exact Or.inr (ha items k' todo fresh hphase (List.contains_iff_mem.1 hheld))
        · exact Or.inl hk'
      · exact Or.inr hk'
    · cases hturn
      refine ⟨fun k' hk' => ?_, nofun⟩
      rw [List.map_append, List.mem_append]
      rcases h k' hk' with hk' | hk' | hk'
      · rcases List.mem_cons.1 hk' with rfl | hk'
        · exact Or.inr (Or.inr (Or.inr List.mem_cons_self))
        · exact Or.inl hk'
      · exact Or.inr (Or.inl hk')
      · exact Or.inr (Or.inr (Or.inl hk'))
  case h_3 items fresh placed ok =>
    cases hturn
    refine ⟨True.intro, fun k hk => ?_⟩
    split at hk
    · next hok =>
      have hall : written fresh placed = fresh := by
        rcases Bool.or_eq_true_iff.1 hok with hempty | hok
        · rw [List.isEmpty_iff.1 hempty]
          rfl
        · refine (written_sublist fresh placed).eq_of_length ?_
          simpa using (Bool.and_eq_true_iff.1 hok).2
      show k.key ∈ seededKeys (w.shared.log ++ _)
      rw [seededKeys_append, seededKeys_events, hall, List.mem_append]
      exact (h k hk).resolve_left List.not_mem_nil
    · cases hk
  case h_4 => cases hturn

theorem Phase.Kept.grow {log more : List Event} (h : p.Kept log) : p.Kept (log ++ more) := by
  cases p with
  | idle => exact h
  | claiming items todo fresh =>
    intro k hk
    rw [seededKeys_append, List.mem_append]
    exact (h k hk).imp_right fun h => h.imp_left Or.inl

theorem World.Kept.step (h : w.Kept) {a : Act τ} (ha : Landed w a) : (step runId w a).Kept := by
  have hgrow : ∀ {more : List Event} {key : String}, key ∈ seededKeys w.log →
      key ∈ seededKeys (w.log ++ more) := by
    intro more key hkey
    rw [seededKeys_append]
    exact List.mem_append_left _ hkey
  cases a with
  | other e he => exact ⟨fun k hk => hgrow (h.acknowledged k hk), fun t => (h.stages t).grow⟩
  | stage t m =>
    simp only [Keyed.step]
    split
    · next s p answered hturn =>
      obtain ⟨hphase, hanswered⟩ := kept_turn ha (h.stages t) hturn
      obtain ⟨more, hmore⟩ : ∃ more, s.log = w.log ++ more := by
        unfold turn at hturn
        split at hturn
        case h_3 =>
          cases hturn
          exact ⟨_, rfl⟩
        case h_4 => cases hturn
        all_goals
          first
          | (cases hturn; exact ⟨[], (List.append_nil _).symm⟩)
          | (split at hturn <;> cases hturn <;> exact ⟨[], (List.append_nil _).symm⟩)
      refine ⟨fun k hk => ?_, fun t' => ?_⟩
      · rcases List.mem_append.1 hk with hk | hk
        · show k.key ∈ seededKeys s.log
          rw [hmore]
          exact hgrow (h.acknowledged k hk)
        · exact hanswered k hk
      · show (Function.update w.stages t p t').Kept s.log
        by_cases ht : t' = t
        · rw [ht, Function.update_self]
          exact hphase
        · rw [Function.update_of_ne ht, hmore]
          exact (h.stages t').grow
    · exact h
  | resume => exact ⟨h.acknowledged, fun _ => True.intro⟩

/-- No key is recorded twice, and every emit that answered `Ok` is on the log, where no stage found
its key claimed without its event. -/
theorem acknowledged_recorded (runId : String) (acts : List (Act τ))
    (h : Along (step runId) Landed World.new acts) :
    (seededKeys (run (step runId) World.new acts).log).Nodup ∧
      ∀ k ∈ (run (step runId) World.new acts).acknowledged,
        ∃ e ∈ (run (step runId) World.new acts).log, e.meta_[metaReplayKey]? = some k.key := by
  have hkept : (run (step runId) World.new acts).Kept := by
    refine run_invariant_along (I := fun w => w.Kept) (fun _ _ ha hw => hw.step ha) h ⟨?_, ?_⟩
    · intro k hk
      cases hk
    · intro t
      exact True.intro
  exact ⟨run_once runId acts, fun k hk => exists_of_mem_seededKeys (hkept.acknowledged k hk)⟩

end

def startedEmit : Emit where
  mint := ("", 0)
  key := "unit:u1:started"
  type_ := "UnitStarted"
  payload := .obj [("id", .str "u1")]
  extra := []
  lifecycle := by decide

/-- One emit, answered by the store as given. -/
def emitOnce (placed : List Bool) (ok : Bool) : List (Act Unit) :=
  [.stage () (.emit [startedEmit]), .stage () .claim, .stage () (.append placed ok)]

/-- A second emit after an append that failed answers `Ok`, and nothing is on the log. -/
theorem acknowledged_not_recorded :
    (run (step "r1") World.new (emitOnce [] false ++ emitOnce [] true)).acknowledged.map Emit.key =
        ["unit:u1:started"] ∧
      (run (step "r1") World.new (emitOnce [] false ++ emitOnce [] true)).log.length = 0 := by
  decide +kernel

/-- An emit whose append landed, and its replay by a process that resumes the run. -/
def replayedEmit : List (Act Unit) := emitOnce [true] true ++ .resume :: emitOnce [] true

theorem acknowledged_recorded_resumed :
    (seededKeys (run (step "r1") World.new replayedEmit).log).Nodup ∧
      ∀ k ∈ (run (step "r1") World.new replayedEmit).acknowledged,
        ∃ e ∈ (run (step "r1") World.new replayedEmit).log,
          e.meta_[metaReplayKey]? = some k.key := by
  refine acknowledged_recorded "r1" replayedEmit ?_
  refine ⟨True.intro, fun items k todo fresh hphase hheld => ?_, True.intro, True.intro, True.intro,
    fun items k todo fresh hphase _ => ?_, True.intro, True.intro⟩
  · cases hheld
  · cases hphase
    exact Or.inl (by decide +kernel)

end Rigger.Conductor.Keyed
