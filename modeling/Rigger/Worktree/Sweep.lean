import Rigger.Conductor.Sanitize
import Rigger.Domain.Spawns

/-!
# The sweep of terminal worktrees (`rigger-worktree-git/src/worktree.rs`)

A step removes the registered worktrees under the scratch root whose branch the run branch holds,
unless the unit is live or its latest spawn is.  `sweep_spares_iff` says over which listings and
slices it removes no worktree in use: an earlier spawn may still be out when the latest is answered,
a unit's id need not be its branch's tail, and a path may begin with the root's text beside it.
-/

namespace Rigger.Worktree

open Lib hiding slice
open Spawn Conductor

/-! ## Paths and listings -/

/-- `Path::components`; an absolute path begins with the root. -/
def components (path : String) : List String :=
  let parts := (path.toList.splitOn '/').map String.ofList
  let named := parts.filter fun part => part != "" && part != "."
  if path.toList.head? = some '/' then "/" :: named
  else if parts.head? = some "." then "." :: named
  else named

/-- A proper descendant, component by component. -/
def descends (root dir : String) : Bool :=
  (components root).isPrefixOf (components dir) &&
    (components root).length < (components dir).length

/-- `str::starts_with`. -/
def startsWith (text start : String) : Bool := start.toList.isPrefixOf text.toList

/-- The directories and branches of `git worktree list --porcelain`; `dir` is the last directory
read that no branch took. -/
def registered (dir : Option String) : List String → List (String × String)
  | [] => []
  | line :: lines =>
    match stripPrefix "worktree " line with
    | some d => registered (some d) lines
    | none =>
      match stripPrefix "branch refs/heads/" line, dir with
      | some branch, some d => (d, branch) :: registered none lines
      | _, _ => registered dir lines

/-! ## The fence -/

inductive SpawnFence where
  | noSpawn
  | inFlight (spawn : String)
  | terminal (spawn : String) (at_ : Nat) (hung : Bool)
deriving DecidableEq

def SpawnFence.permitsReclaim : SpawnFence → Bool
  | .inFlight _ => false
  | _ => true

/-- The last spawn requested of a unit. -/
def latestRequest (events : List Event) (unit : String) : Option Request :=
  latest (fun e => (requestOf e).filter fun req => req.unit == unit) events

/-- `latest_result_event`: a body that cannot be read fails the read. -/
def latestResultEvent (events : List Event) (id : String) : Option (Option Event) :=
  if unreadable typeSpawnResult resultIn events then none else some (latestResults events)[id]?

def spawnFence (events : List Event) (unit : String) : SpawnFence :=
  match latestRequest events unit with
  | none => .noSpawn
  | some req =>
    match latestResultEvent events req.id with
    | some (some event) =>
      .terminal req.id event.position ((resultIn event).any Result.isLivenessFault)
    | _ => .inFlight req.id

/-! ## The sweep -/

/-- What a sweep is handed; `isAncestor` is git's. -/
structure Sweep where
  root : String
  runBranch : String
  liveBranches : List String
  declaredUnits : List String
  events : List Event
  isAncestor : String → String → Bool

/-- What the disk and git answer of a directory, once the sweep has removed others: whether it holds
changes or cannot be read, and whether its removal succeeds. -/
structure Disk where
  dirty : List (String × String) → String → Bool
  removes : List (String × String) → String → Bool

/-- The worktrees the sweep had git remove, and whether it came to its end. -/
structure Swept where
  removed : List (String × String)
  ok : Bool

/-- The unit whose spawns fence a branch. -/
def unitOfBranch (branch : String) : String := (stripPrefix "rigger/u/" branch).getD branch

namespace Sweep

variable (s : Sweep)

/-- What the sweep leaves before it looks at the disk. -/
def passes (w : String × String) : Bool :=
  startsWith w.1 s.root && w.2 != s.runBranch && !s.liveBranches.contains w.2 &&
    s.isAncestor w.2 s.runBranch

def sweepFrom (disk : Disk) (removed : List (String × String)) :
    List (String × String) → Swept
  | [] => ⟨removed, true⟩
  | w :: rest =>
    if !s.passes w then sweepFrom disk removed rest
    else if s.declaredUnits.contains w.2 && disk.dirty removed w.1 then sweepFrom disk removed rest
    else if !(spawnFence s.events (unitOfBranch w.2)).permitsReclaim then
      sweepFrom disk removed rest
    else if disk.removes removed w.1 then sweepFrom disk (removed ++ [w]) rest
    -- a removal that fails may have removed a part of the tree
    else ⟨removed ++ [w], false⟩

/-- `sweep_terminal_logged`, of the listing's lines. -/
def sweepTerminalLogged (disk : Disk) (lines : List String) : Swept :=
  s.sweepFrom disk [] (registered none lines)

end Sweep

/-! ## Worktrees in use -/

/-- A result of the spawn is recorded. -/
def Answered (events : List Event) (id : String) : Prop :=
  ∃ e ∈ events, ∃ res, resultIn e = some res ∧ res.id = id

/-- A spawn of a unit of the branch is requested and not answered. -/
def InUse (events : List Event) (branch : String) : Prop :=
  ∃ u, u ≠ "" ∧ unitBranch u = branch ∧
    ∃ e ∈ events, ∃ req, requestOf e = some req ∧ req.unit = u ∧ ¬Answered events req.id

/-- The last spawn requested of the unit is not answered, or no result can be read. -/
def Outstanding (events : List Event) (unit : String) : Prop :=
  ∃ req, latestRequest events unit = some req ∧ (Readable events → ¬Answered events req.id)

/-- What the sweep may remove. -/
structure Sweep.Spares (s : Sweep) (w : String × String) : Prop where
  descends : descends s.root w.1 = true
  merged : s.isAncestor w.2 s.runBranch = true
  notRun : w.2 ≠ s.runBranch
  notLive : w.2 ∉ s.liveBranches
  notInUse : ¬InUse s.events w.2

/-- The sweep's tests agree with what they stand for on a worktree: unless the last spawn of the
unit its branch's tail names is out, it lies below the root and no spawn of a unit of its branch is
out. -/
def Sweep.Apart (s : Sweep) (w : String × String) : Prop :=
  Outstanding s.events (unitOfBranch w.2) ∨
    descends s.root w.1 = true ∧ (InUse s.events w.2 → Outstanding s.events (unitOfBranch w.2))

theorem getElem?_latestResults_isSome (events : List Event) (id : String) :
    (latestResults events)[id]?.isSome = true ↔ Answered events id := by
  rw [getElem?_latestResults, Option.isSome_iff_exists]
  constructor
  · rintro ⟨e, he⟩
    obtain ⟨before, x, after, rfl, hx, -⟩ := (latest_eq_some_iff _ _ _).1 he
    obtain ⟨rfl, res, hres⟩ := resultFor_eq_some.1 hx
    exact ⟨e, by simp, res, hres⟩
  · rintro ⟨e, he, res, hres⟩
    rw [← Option.isSome_iff_exists, ← Option.ne_none_iff_isSome]
    intro hnone
    have := (latest_eq_none_iff _ _).1 hnone e he
    rw [resultFor_eq_some.2 ⟨rfl, res, hres⟩] at this
    cases this

/-- The fence keeps a worktree exactly where the last spawn of the unit is out. -/
theorem permitsReclaim_iff (events : List Event) (unit : String) :
    (spawnFence events unit).permitsReclaim = true ↔ ¬Outstanding events unit := by
  cases hlatest : latestRequest events unit with
  | none =>
    have hfence : spawnFence events unit = .noSpawn := by rw [spawnFence, hlatest]
    rw [hfence]
    refine iff_of_true rfl ?_
    rintro ⟨req, hreq, -⟩
    rw [hlatest] at hreq
    cases hreq
  | some req =>
    have hout : Outstanding events unit ↔ (Readable events → ¬Answered events req.id) := by
      unfold Outstanding
      rw [hlatest]
      exact ⟨fun ⟨_, heq, h⟩ => Option.some.inj heq ▸ h, fun h => ⟨req, rfl, h⟩⟩
    rw [hout, ← getElem?_latestResults_isSome, spawnFence, hlatest]
    unfold latestResultEvent Readable
    cases unreadable typeSpawnResult resultIn events with
    | true => simp [SpawnFence.permitsReclaim]
    | false =>
      cases hfound : (latestResults events)[req.id]? with
      | none => simp [SpawnFence.permitsReclaim, hfound]
      | some event => simp [SpawnFence.permitsReclaim, hfound]

/-! ## What a sweep removes -/

section
variable (s : Sweep)

/-- What the sweep takes a listed worktree to be: one to remove, the disk willing. -/
def Sweep.takes (w : String × String) : Bool :=
  s.passes w && (spawnFence s.events (unitOfBranch w.2)).permitsReclaim

theorem Sweep.mem_removed {disk : Disk} {removed ws : List (String × String)} {w : String × String}
    (h : w ∈ (s.sweepFrom disk removed ws).removed) :
    w ∈ removed ∨ w ∈ ws ∧ s.takes w = true := by
  induction ws generalizing removed with
  | nil => exact Or.inl h
  | cons x ws ih =>
    unfold Sweep.sweepFrom at h
    have hskip : w ∈ (s.sweepFrom disk removed ws).removed →
        w ∈ removed ∨ w ∈ x :: ws ∧ s.takes w = true := fun h =>
      (ih h).imp_right fun ⟨hw, htakes⟩ => ⟨List.mem_cons_of_mem _ hw, htakes⟩
    split at h
    · exact hskip h
    · next hpasses =>
      split at h
      · exact hskip h
      · split at h
        · exact hskip h
        · next hfence =>
          simp only [Bool.not_eq_true', Bool.not_eq_false] at hpasses hfence
          have hx : s.takes x = true := by rw [Sweep.takes, hpasses, hfence, Bool.and_self]
          have hlast : w ∈ removed ++ [x] → w ∈ removed ∨ w ∈ x :: ws ∧ s.takes w = true := by
            intro hw
            rcases List.mem_append.1 hw with hw | hw
            · exact Or.inl hw
            · rw [List.mem_singleton.1 hw]
              exact Or.inr ⟨List.mem_cons_self, hx⟩
          split at h
          · rcases ih h with hw | ⟨hw, htakes⟩
            · exact hlast hw
            · exact Or.inr ⟨List.mem_cons_of_mem _ hw, htakes⟩
          · exact hlast h

/-- A disk on which every worktree is clean and every removal succeeds. -/
def Disk.clean : Disk := ⟨fun _ _ => false, fun _ _ => true⟩

theorem Sweep.removed_clean (removed ws : List (String × String)) :
    (s.sweepFrom .clean removed ws).removed = removed ++ ws.filter s.takes := by
  induction ws generalizing removed with
  | nil => exact (List.append_nil _).symm
  | cons x ws ih =>
    unfold Sweep.sweepFrom
    show Swept.removed (if (!s.passes x) = true then _ else if (_ && false) = true then _ else
      if _ then _ else if true = true then _ else _) = _
    rw [List.filter_cons, Sweep.takes]
    cases hpasses : s.passes x with
    | false => simpa using ih removed
    | true =>
      cases hfence : (spawnFence s.events (unitOfBranch x.2)).permitsReclaim with
      | false => simpa using ih removed
      | true => simpa using ih (removed ++ [x])

/-- Whatever the disk answers, the sweep removes no worktree in use, exactly where each listed one
that passes its tests is apart. -/
theorem sweep_spares_iff (lines : List String) :
    (∀ disk, ∀ w ∈ (s.sweepTerminalLogged disk lines).removed, s.Spares w) ↔
      ∀ w ∈ registered none lines, s.passes w = true → s.Apart w := by
  have htakes : ∀ w, s.takes w = true ↔
      s.passes w = true ∧ ¬Outstanding s.events (unitOfBranch w.2) := by
    intro w
    rw [Sweep.takes, Bool.and_eq_true, permitsReclaim_iff]
  constructor
  · intro h w hw hpasses
    by_cases hout : Outstanding s.events (unitOfBranch w.2)
    · exact Or.inl hout
    · have hremoved : w ∈ (s.sweepTerminalLogged .clean lines).removed := by
        unfold Sweep.sweepTerminalLogged
        rw [Sweep.removed_clean, List.nil_append]
        exact List.mem_filter.2 ⟨hw, (htakes w).2 ⟨hpasses, hout⟩⟩
      have hspares := h .clean w hremoved
      exact Or.inr ⟨hspares.descends, fun huse => absurd huse hspares.notInUse⟩
  · intro h disk w hw
    rcases s.mem_removed hw with hnil | ⟨hmem, htake⟩
    · cases hnil
    · obtain ⟨hpasses, hout⟩ := (htakes w).1 htake
      obtain ⟨hdescends, huse⟩ := (h w hmem hpasses).resolve_left hout
      simp only [Sweep.passes, Bool.and_eq_true, bne_iff_ne, Bool.not_eq_true',
        List.contains_eq_mem, decide_eq_false_iff_not] at hpasses
      obtain ⟨⟨⟨-, hrun⟩, hlive⟩, hmerged⟩ := hpasses
      exact ⟨hdescends, hmerged, hrun, hlive, fun hin => hout (huse hin)⟩

end

/-- Two lenses of one unit out at once, of which the later one is answered. -/
def lensesOut : List Event :=
  [Event.new ("e1", 1) typeSpawnRequested (.json (.obj [("id", .str "u1/lens:a#0"),
      ("unit", .str "u1"), ("stage", .str "u1"), ("prompt", .str "review")])),
    Event.new ("e2", 2) typeSpawnRequested (.json (.obj [("id", .str "u1/lens:b#0"),
      ("unit", .str "u1"), ("stage", .str "u1"), ("prompt", .str "review")])),
    Event.new ("e3", 3) typeSpawnResult (.json (.obj [("id", .str "u1/lens:b#0")]))]

def lensSweep : Sweep :=
  ⟨"/scratch", "main", [], [], lensesOut,
    fun branch run => branch == "rigger/u/u1" && run == "main"⟩

def lensListing : List String :=
  ["worktree /repo", "HEAD 1", "branch refs/heads/main", "", "worktree /scratch/rigger-wt-u1",
    "HEAD 1", "branch refs/heads/rigger/u/u1", ""]

/-- The worktree the first lens reads is removed. -/
theorem lens_swept : ∃ w ∈ (lensSweep.sweepTerminalLogged .clean lensListing).removed,
    w = ("/scratch/rigger-wt-u1", "rigger/u/u1") ∧ InUse lensSweep.events w.2 ∧
      ¬lensSweep.Spares w := by
  have huse : InUse lensSweep.events "rigger/u/u1" := by
    refine ⟨"u1", by decide, by decide +kernel, _, List.mem_cons_self, _, rfl, rfl, ?_⟩
    have hnone : ∀ e ∈ lensesOut, (resultIn e).all fun res => res.id != "u1/lens:a#0" := by decide
    rintro ⟨e, he, res, hres, hid⟩
    have := hnone e he
    rw [hres] at this
    simp only [Option.all_some, bne_iff_ne] at this
    exact this hid
  refine ⟨("/scratch/rigger-wt-u1", "rigger/u/u1"), ?_, rfl, huse, fun h => h.notInUse huse⟩
  unfold Sweep.sweepTerminalLogged
  rw [Sweep.removed_clean]
  decide +kernel

end Rigger.Worktree
