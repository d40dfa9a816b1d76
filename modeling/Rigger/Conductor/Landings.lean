import Rigger.Conductor.Integrate

/-!
# No landed work is lost

In every run whose red gates meet a landing that is still on the run branch, with only that unit's
landings after the commit the rollback resets to, the run branch holds every commit recorded as
integrated and not compensated, and a rollback takes off exactly what the unit landed
(`landed_kept`).  After a crash between a landing and its gate another unit may land on top, and the
rollback to the recorded commit takes that off as well (`landed_lost`).

A standing commit is the target of a move of the run branch that is its unit's or no unit's
(the field `stand` of `Durable.Sound`), and a rollback takes off moves of a unit that has none
standing.
-/

namespace Rigger.Conductor.Integrate

open Lib Ledger

/-- The run branch holds what stands as integrated. -/
def Kept (w : World) : Prop :=
  ∀ unit commit, Standing w.log unit commit → commit ∈ w.git.past w.tip

/-- What a step takes off the run branch is what the unit's own landings brought. -/
def Exact (w w' : World) (mover : Mover) : Prop :=
  ∀ x, x ∈ w'.git.past w'.tip ↔ x ∈ w.git.past w.tip ∧
    ∀ m ∈ w.moves, m.who = mover → x ∈ w.git.past m.target → x ∈ w.git.past m.source

/-- The commit a red gate is about to roll back, with where it resets to. -/
def rollsBack (w : World) : Action → Option (String × Nat × String × String)
  | .regate unit false => (w.flightOf unit).bind fun f =>
    match f.stage with
    | .regating commit preMerge => some (unit, f.attempt, commit, preMerge)
    | _ => none
  | _ => none

/-- A rollback takes off exactly what its unit landed at the attempt. -/
def ExactRollback (w : World) (a : Action) : Prop :=
  ∀ unit attempt commit preMerge, rollsBack w a = some (unit, attempt, commit, preMerge) →
    Exact w (w.step a) (some (unit, attempt))

/-- The landing of a commit is still one of the run branch's moves. -/
def onBranch (w : World) (unit : String) (attempt : Nat) (commit : String) : Bool :=
  w.moves.any fun m => m.who == some (unit, attempt) && m.target == commit

/-- Since it stood at `sha` the run branch moved by the unit's landings alone, and by none of them
before. -/
def alone (w : World) (unit : String) (attempt : Nat) (sha : String) : Bool :=
  (movesTo sha w.moves).all (fun m => m.who != some (unit, attempt)) &&
    (movesSince sha w.moves).all fun m => m.who == some (unit, attempt)

/-- The gates speak of a landing that is on the run branch, and a red one finds nothing else landed
since the commit it resets to. -/
def ClearGate (w : World) (unit : String) (pass : Bool) (f : Flight) : Prop :=
  match f.stage with
  | .regating commit preMerge => onBranch w unit f.attempt commit = true ∧
      (pass = false → alone w unit f.attempt preMerge = true)
  | _ => True

instance (w : World) (unit : String) (pass : Bool) (f : Flight) :
    Decidable (ClearGate w unit pass f) := by
  unfold ClearGate
  split <;> infer_instance

def Clear (w : World) : Action → Prop
  | .regate unit pass => ∀ f ∈ w.flightOf unit, ClearGate w unit pass f
  | _ => True

instance (w : World) (a : Action) : Decidable (Clear w a) := by
  unfold Clear
  split <;> infer_instance

/-! ## What stands -/

section
variable {log : List Event} {unit commit : String}

theorem integratedCommits_append (log more : List Event) (unit : String) :
    integratedCommits (log ++ more) unit =
      integratedCommits log unit ++ integratedCommits more unit := by
  unfold integratedCommits
  rw [List.filter_append, List.flatMap_append]

variable {more : List Event}

theorem compensated_append (h : commit ∈ compensatedCommitsFromLog log) :
    commit ∈ compensatedCommitsFromLog (log ++ more) := by
  unfold compensatedCommitsFromLog at h ⊢
  rw [List.filter_append, List.flatMap_append]
  exact List.mem_append_left _ h

theorem standing_append (h : Standing (log ++ more) unit commit) :
    Standing log unit commit ∨ commit ∈ integratedCommits more unit := by
  obtain ⟨hmem, hempty, hmarker, hcompensated⟩ := h
  rw [integratedCommits_append, List.mem_append] at hmem
  refine hmem.imp_left fun hlog => ⟨hlog, hempty, hmarker, ?_⟩
  exact fun hheld => hcompensated (compensated_append hheld)

theorem standing_of_others (hmore : ∀ e ∈ more, e.type_ ≠ typeUnitIntegrated)
    (h : Standing (log ++ more) unit commit) : Standing log unit commit := by
  refine (standing_append h).resolve_right fun hmem => ?_
  unfold integratedCommits at hmem
  obtain ⟨e, he, -⟩ := List.mem_flatMap.1 hmem
  obtain ⟨he, htype⟩ := List.mem_filter.1 he
  rw [Bool.and_eq_true, beq_iff_eq] at htype
  exact hmore e he htype.1

theorem mem_integratedCommits_singleton {e : Event} (h : commit ∈ integratedCommits [e] unit) :
    e.type_ = typeUnitIntegrated ∧ bodyId e = some unit ∧ commit ∈ commitsOf e := by
  unfold integratedCommits at h
  obtain ⟨x, hx, hcommit⟩ := List.mem_flatMap.1 h
  obtain ⟨hx, htype⟩ := List.mem_filter.1 hx
  rw [List.mem_singleton] at hx
  subst hx
  rw [Bool.and_eq_true, beq_iff_eq, beq_iff_eq] at htype
  exact ⟨htype.1, htype.2, hcommit⟩

theorem not_stands (h : stands log unit = false) (commit : String) :
    ¬Standing log unit commit := by
  intro hstanding
  have := List.any_eq_false.1 h commit hstanding.1
  exact this (by simpa using hstanding)

end

/-! ## The invariant -/

/-- A move that lands no unit other than this one. -/
def Own (unit : String) (m : Moved Mover String) : Prop :=
  m.who = none ∨ ∃ attempt, m.who = some (unit, attempt)

structure Durable.Sound (w : Durable) : Prop where
  git : w.git.Sound
  named : "" ∉ w.git.made
  base : w.base ∈ w.git.made
  chain : Chained w.git w.base w.moves w.tip
  heads : ∀ unit, (w.worktree unit).head ∈ w.git.made ∧
    ∀ parent ∈ (w.worktree unit).mergeHead, parent ∈ w.git.made
  stand : ∀ unit commit, Standing w.log unit commit → ∃ m ∈ w.moves, m.target = commit ∧ Own unit m

/-- A unit in its call has nothing standing, and the commit its call ended with is one it landed. -/
structure Flight.Sound (w : Durable) (unit : String) (f : Flight) : Prop where
  saved : f.unitHeadBeforeMerge ∈ w.git.made
  free : ∀ commit, ¬Standing w.log unit commit
  passed : ∀ commit, f.stage = .passed commit → commit ≠ "" →
    ∃ m ∈ w.moves, m.who = some (unit, f.attempt) ∧ m.target = commit

def Process.Sound (w : Durable) (p : Process) : Prop :=
  ∀ unit f, p.flights unit = some f → f.Sound w unit

structure World.Sound (w : World) : Prop where
  durable : w.toDurable.Sound
  proc : ∀ p, w.proc = some p → p.Sound w.toDurable

theorem World.Sound.kept {w : World} (h : w.Sound) : Kept w := by
  intro unit commit hstanding
  obtain ⟨m, hm, rfl, -⟩ := h.durable.stand unit commit hstanding
  obtain ⟨-, hmade, -, -, -, hsub⟩ := h.durable.chain.mem h.durable.git h.durable.base hm
  exact hsub (h.durable.git.self _ hmade)

section
variable {w w' : Durable} {p : Process} {unit : String} {f : Flight}

/-- A call goes on where its commits, its moves and what stands of its unit are kept. -/
theorem Flight.Sound.mono (h : f.Sound w unit) (hmade : w.git.made ⊆ w'.git.made)
    (hstanding : ∀ commit, Standing w'.log unit commit → Standing w.log unit commit)
    (hmoves : ∀ m ∈ w.moves, m.who = some (unit, f.attempt) → m ∈ w'.moves) : f.Sound w' unit where
  saved := hmade h.saved
  free := fun commit hcommit => h.free commit (hstanding commit hcommit)
  passed := fun commit hstage hne => by
    obtain ⟨m, hm, hwho, htarget⟩ := h.passed commit hstage hne
    exact ⟨m, hmoves m hm hwho, hwho, htarget⟩

variable {stage : Stage}

theorem Flight.Sound.toStage (h : f.Sound w unit)
    (hstage : ∀ commit, stage = .passed commit → commit ≠ "" →
      ∃ m ∈ w.moves, m.who = some (unit, f.attempt) ∧ m.target = commit) :
    ({ f with stage := stage } : Flight).Sound w unit :=
  ⟨h.saved, h.free, hstage⟩

variable {more : List Event}

theorem Flight.Sound.log (h : f.Sound w unit) (hmore : ∀ e ∈ more, e.type_ ≠ typeUnitIntegrated) :
    f.Sound { w with log := w.log ++ more } unit :=
  h.mono (List.Subset.refl _) (fun _ => standing_of_others hmore) fun _ hm _ => hm

theorem Flight.Sound.commit (h : f.Sound w unit) (sha : String) (parents : List String)
    (worktree : String → Worktree) :
    f.Sound { w with git := w.git.commit sha parents, worktree := worktree } unit :=
  h.mono (List.subset_cons_self _ _) (fun _ hstanding => hstanding) fun _ hm _ => hm

theorem Flight.Sound.worktree (h : f.Sound w unit) (worktree : String → Worktree) :
    f.Sound { w with worktree := worktree } unit :=
  h.mono (List.Subset.refl _) (fun _ hstanding => hstanding) fun _ hm _ => hm

theorem Flight.Sound.move (h : f.Sound w unit) (m : Moved Mover String) :
    f.Sound { w with tip := m.target, moves := w.moves ++ [m] } unit :=
  h.mono (List.Subset.refl _) (fun _ hstanding => hstanding) fun _ hx _ => List.mem_append_left _ hx

/-- Rows that integrate nothing. -/
theorem Durable.Sound.log (h : w.Sound) (hmore : ∀ e ∈ more, e.type_ ≠ typeUnitIntegrated) :
    ({ w with log := w.log ++ more } : Durable).Sound where
  git := h.git
  named := h.named
  base := h.base
  chain := h.chain
  heads := h.heads
  stand := fun unit commit hstanding => h.stand unit commit (standing_of_others hmore hstanding)

theorem Process.Sound.log (h : p.Sound w) (hmore : ∀ e ∈ more, e.type_ ≠ typeUnitIntegrated) :
    p.Sound { w with log := w.log ++ more } := fun unit f hf => (h unit f hf).log hmore

theorem Durable.Sound.commit (h : w.Sound) {sha : String} {parents : List String}
    (hnamed : sha ≠ "")
    (hsha : sha ∉ w.git.made) (hparents : ∀ p ∈ parents, p ∈ w.git.made)
    {worktree : String → Worktree} (hheads : ∀ unit, worktree unit = w.worktree unit ∨
      worktree unit = ⟨sha, none⟩) :
    ({ w with git := w.git.commit sha parents, worktree := worktree } : Durable).Sound where
  git := h.git.commit hsha hparents
  named := by
    rw [History.commit, List.mem_cons, not_or]
    exact ⟨hnamed.symm, h.named⟩
  base := List.mem_cons_of_mem _ h.base
  chain := h.chain.commit hsha
  heads := fun unit => by
    rcases hheads unit with heq | heq
    · obtain ⟨hhead, hparent⟩ := h.heads unit
      show (worktree unit).head ∈ _ ∧ ∀ parent ∈ (worktree unit).mergeHead, _
      rw [heq]
      exact ⟨List.mem_cons_of_mem _ hhead, fun parent hp =>
        List.mem_cons_of_mem _ (hparent parent hp)⟩
    · show (worktree unit).head ∈ _ ∧ ∀ parent ∈ (worktree unit).mergeHead, _
      rw [heq]
      exact ⟨List.mem_cons_self, nofun⟩
  stand := h.stand

theorem Process.Sound.commit (h : p.Sound w) (sha : String) (parents : List String)
    (worktree : String → Worktree) :
    p.Sound { w with git := w.git.commit sha parents, worktree := worktree } := fun unit f hf =>
  (h unit f hf).commit sha parents worktree

/-- A worktree stands at a commit that was made. -/
theorem Durable.Sound.worktree (h : w.Sound) {unit head : String} {mergeHead : Option String}
    (hhead : head ∈ w.git.made) (hmerge : ∀ parent ∈ mergeHead, parent ∈ w.git.made) :
    ({ w with worktree := Function.update w.worktree unit ⟨head, mergeHead⟩ } : Durable).Sound where
  git := h.git
  named := h.named
  base := h.base
  chain := h.chain
  heads := fun other => by
    show (Function.update w.worktree unit ⟨head, mergeHead⟩ other).head ∈ _ ∧
      ∀ parent ∈ (Function.update w.worktree unit ⟨head, mergeHead⟩ other).mergeHead, _
    by_cases hother : other = unit
    · rw [hother, Function.update_self]
      exact ⟨hhead, hmerge⟩
    · rw [Function.update_of_ne hother]
      exact h.heads other
  stand := h.stand

theorem Process.Sound.worktree (h : p.Sound w) (worktree : String → Worktree) :
    p.Sound { w with worktree := worktree } := fun unit f hf => (h unit f hf).worktree worktree

theorem Durable.Sound.move (h : w.Sound) {m : Moved Mover String} (hsource : m.source = w.tip)
    (hmade : m.target ∈ w.git.made) (hpast : w.tip ∈ w.git.past m.target) (hne : w.tip ≠ m.target) :
    ({ w with tip := m.target, moves := w.moves ++ [m] } : Durable).Sound where
  git := h.git
  named := h.named
  base := h.base
  chain := chained_append.2 ⟨w.tip, h.chain, hsource, hmade, hpast, hne, rfl⟩
  heads := h.heads
  stand := fun unit commit hstanding => by
    obtain ⟨x, hx, hown⟩ := h.stand unit commit hstanding
    exact ⟨x, List.mem_append_left _ hx, hown⟩

theorem Process.Sound.move (h : p.Sound w) (m : Moved Mover String) :
    p.Sound { w with tip := m.target, moves := w.moves ++ [m] } := fun unit f hf =>
  (h unit f hf).move m

theorem Process.Sound.update (h : p.Sound w) {flight : Option Flight} {ledgers : Ledgers}
    {lock : Option String} (hf : ∀ f ∈ flight, f.Sound w unit) :
    Process.Sound w ⟨ledgers, lock, Function.update p.flights unit flight⟩ :=
    fun other f hother => by
  change Function.update p.flights unit flight other = some f at hother
  by_cases heq : other = unit
  · subst heq
    rw [Function.update_self] at hother
    exact hf f hother
  · rw [Function.update_of_ne heq] at hother
    exact h other f hother

theorem Process.Sound.setLock (h : p.Sound w) (lock : Option String) :
    Process.Sound w { p with lock := lock } := h

theorem Process.Sound.clearPending (h : p.Sound w) (unit : String) (attempt : Nat) :
    (World.clearPending p unit attempt).Sound w := h

theorem Flight.Sound.enter (h : w.Sound) (hfree : stands w.log unit = false) (attempt pass : Nat)
    (hstage : ∀ commit, stage = .passed commit → commit = "") :
    (⟨attempt, pass, (w.worktree unit).head, stage⟩ : Flight).Sound w unit where
  saved := (h.heads unit).1
  free := not_stands hfree
  passed := fun commit heq hne => absurd (hstage commit heq) hne

end

/-! ## The steps of a call -/

section
variable {w : World} {p : Process} {unit : String} {f : Flight}

theorem emitRow_type (w : World) (mint : Mint) (row status unit : String) (f : Flight)
    (evidence : List (String × Json)) :
    ∀ e ∈ w.emitRow mint row status unit f evidence, e.type_ ≠ typeUnitIntegrated := by
  intro e he
  unfold World.emitRow keyedEvent at he
  split at he
  · cases he
  · rw [Option.mem_toList] at he
    cases he
    rw [eventWithMeta_type]
    decide

variable {stage : Stage}

/-- Where no stage of a call but its end names a commit that landed. -/
theorem Flight.Sound.go {w : Durable} (h : f.Sound w unit)
    (hstage : ∀ commit, stage ≠ .passed commit) :
    ({ f with stage := stage } : Flight).Sound w unit :=
  h.toStage fun commit heq => absurd heq (hstage commit)

theorem sound_toStage (hd : w.toDurable.Sound) (hp : p.Sound w.toDurable)
    (hf : ({ f with stage := stage } : Flight).Sound w.toDurable unit) :
    (w.toStage p unit f stage).Sound where
  durable := hd
  proc := fun q hq => by
    cases hq
    exact hp.update fun g hg => by
      cases hg
      exact hf

theorem sound_depart (hd : w.toDurable.Sound) (hp : p.Sound w.toDurable) :
    (w.depart p unit).Sound where
  durable := hd
  proc := fun q hq => by
    cases hq
    exact hp.update fun g hg => nomatch hg

theorem sound_finish (hd : w.toDurable.Sound) (hp : p.Sound w.toDurable)
    (hf : f.Sound w.toDurable unit) (merged mergedFrom : String) :
    (w.finish p unit f merged mergedFrom).Sound := by
  unfold World.finish
  dsimp only
  split
  · exact sound_toStage hd hp (hf.go nofun)
  · refine sound_toStage hd (hp.setLock none) (hf.toStage fun commit heq hne => ?_)
    cases heq
    exact absurd rfl hne

/-- The row of a landing integrates nothing, and the calls in flight go on. -/
theorem sound_recordLandedRow (hd : w.toDurable.Sound) (hp : p.Sound w.toDurable) (mint : Mint)
    (unit : String) (f : Flight) (pass : Nat) (sha preMerge : String) :
    (w.recordLandedRow p mint unit f pass sha preMerge).1.toDurable.Sound ∧
      Process.Sound (w.recordLandedRow p mint unit f pass sha preMerge).1.toDurable
        (w.recordLandedRow p mint unit f pass sha preMerge).2 := by
  have hrow := emitRow_type w mint "landed" statusIntegrateLanded unit { f with pass := pass }
    [("sha", .str sha), ("pre_merge", .str preMerge)]
  exact ⟨hd.log hrow, hp.log hrow⟩

theorem Flight.Sound.recordLandedRow (h : f.Sound w.toDurable unit) (p : Process) (mint : Mint)
    (g : Flight) (pass : Nat) (sha preMerge : String) :
    f.Sound (w.recordLandedRow p mint unit g pass sha preMerge).1.toDurable unit :=
  h.log (emitRow_type w mint "landed" statusIntegrateLanded unit { g with pass := pass }
    [("sha", .str sha), ("pre_merge", .str preMerge)])

theorem sound_enter (hd : w.toDurable.Sound) (hp : p.Sound w.toDurable)
    (hfree : stands w.log unit = false) (attempt : Nat) (mint : Mint) (changed owed : Bool) :
    (w.enter p unit attempt mint changed owed).Sound := by
  have henter : ∀ stage : Stage, (∀ commit, stage = .passed commit → commit = "") →
      (⟨attempt, 0, (w.worktree unit).head, stage⟩ : Flight).Sound w.toDurable unit :=
    fun _ => Flight.Sound.enter hd hfree attempt 0
  unfold World.enter
  dsimp only
  split
  · exact sound_toStage hd hp (henter _ nofun)
  split
  · split
    · exact sound_toStage hd hp (henter _ nofun)
    split
    · exact sound_toStage hd hp (henter _ nofun)
    · exact sound_toStage hd hp (henter _ fun commit heq => by cases heq; rfl)
  · rename_i l _
    split
    · obtain ⟨hd', hp'⟩ := sound_recordLandedRow hd hp mint unit
        ⟨attempt, 0, (w.worktree unit).head, .looping⟩ l.pass l.first l.second
      have hf' := (henter (.entered none) nofun).recordLandedRow p mint
        ⟨attempt, 0, (w.worktree unit).head, .looping⟩ l.pass l.first l.second
      exact sound_toStage (f := ⟨attempt, 0, (w.worktree unit).head, .looping⟩) hd'
        (hp'.clearPending unit attempt) hf'
    · exact sound_toStage hd hp (henter _ nofun)

theorem sound_lock (hd : w.toDurable.Sound) (hp : p.Sound w.toDurable)
    (hf : f.Sound w.toDurable unit) (mint : Mint) (taken : Option Landing) :
    (w.lock p unit f mint taken).Sound := by
  let g : Flight := { f with unitHeadBeforeMerge := (w.worktree unit).head }
  let q : Process := { p with lock := some unit }
  have hg : g.Sound w.toDurable unit := ⟨(hd.heads unit).1, hf.free, hf.passed⟩
  have hq : q.Sound w.toDurable := hp
  cases taken with
  | none =>
    have hgo : ({ g with stage := .looping } : Flight).Sound w.toDurable unit := hg.go nofun
    exact sound_toStage hd hq hgo
  | some l =>
    obtain ⟨hd', hp'⟩ := sound_recordLandedRow hd hq mint unit g l.pass l.first l.second
    exact sound_finish hd' (hp'.clearPending unit f.attempt)
      (hg.recordLandedRow q mint g l.pass l.first l.second) l.first l.second

theorem fresh_iff {sha : String} :
    (sha ≠ "" && !w.git.made.contains sha) = true ↔ sha ≠ "" ∧ sha ∉ w.git.made := by
  simp

theorem update_worktree (worktree : String → Worktree) (unit : String) (wt : Worktree)
    (other : String) : Function.update worktree unit wt other = worktree other ∨
      Function.update worktree unit wt other = wt := by
  by_cases hother : other = unit
  · exact .inr (hother ▸ Function.update_self ..)
  · exact .inl (Function.update_of_ne hother ..)

theorem sound_merge (h : w.Sound) (hp : p.Sound w.toDurable) (hf : f.Sound w.toDurable unit)
    (preMerge : String) (conflict : Bool) (sha : String) :
    (w.merge p unit f preMerge conflict sha).Sound := by
  have hd := h.durable
  obtain ⟨hhead, hmerging⟩ := hd.heads unit
  have htip : w.tip ∈ w.git.made := hd.chain.made hd.base
  have hready : ∀ commit, ({ f with stage := .ready commit preMerge } : Flight).Sound
      w.toDurable unit := fun _ => hf.go nofun
  have hconflicted : (w.toStage { p with lock := none } unit f .looping).Sound :=
    sound_toStage hd (hp.setLock none) (hf.go nofun)
  have hcommit : ∀ parent ∈ w.git.made, (sha ≠ "" && !w.git.made.contains sha) = true →
      World.Sound (World.toStage
        { w with
          git := w.git.commit sha [(w.worktree unit).head, parent]
          worktree := Function.update w.worktree unit ⟨sha, none⟩ }
        p unit f (.ready sha preMerge)) := by
    intro parent hparent hfresh
    obtain ⟨hnamed, hsha⟩ := fresh_iff.1 hfresh
    have hparents : ∀ q ∈ [(w.worktree unit).head, parent], q ∈ w.git.made := by
      simp [hhead, hparent]
    have hheads := update_worktree w.worktree unit ⟨sha, none⟩
    refine sound_toStage (hd.commit hnamed hsha hparents hheads) (hp.commit sha _ _) ?_
    exact (hready sha).commit sha _ _
  unfold World.merge
  dsimp only
  split
  · rename_i parent hparent
    split
    · exact hconflicted
    split
    · rename_i hfresh
      exact hcommit parent (hmerging parent hparent) hfresh
    · exact h
  split
  · exact sound_finish hd hp hf _ _
  split
  · exact sound_toStage hd hp (hready _)
  split
  · have hmerge : ∀ parent ∈ some w.tip, parent ∈ w.git.made := fun parent hparent => by
      cases hparent
      exact htip
    have hlooping : ({ f with stage := .looping } : Flight).Sound w.toDurable unit := hf.go nofun
    let worktree := Function.update w.worktree unit ⟨(w.worktree unit).head, some w.tip⟩
    have hstage : World.Sound (World.toStage { w with worktree := worktree } { p with lock := none }
        unit f .looping) :=
      sound_toStage (w := { w with worktree := worktree }) (hd.worktree hhead hmerge)
        ((hp.setLock none).worktree worktree) (hlooping.worktree worktree)
    exact hstage
  split
  · rename_i hfresh
    exact hcommit w.tip htip hfresh
  · exact h

/-- The run branch moves to the unit's branch only where that is ahead of it. -/
theorem sound_land (hd : w.toDurable.Sound) (hp : p.Sound w.toDurable)
    (hf : f.Sound w.toDurable unit) (mint : Mint) (commit preMerge : String) :
    (w.land p unit f mint commit preMerge).Sound := by
  have htip : w.tip ∈ w.git.made := hd.chain.made hd.base
  have hmoved : ({ f with stage := .moved commit preMerge } : Flight).Sound w.toDurable unit :=
    hf.go nofun
  unfold World.land
  dsimp only
  split
  · exact sound_toStage hd hp hmoved
  rename_i hnew
  split
  · rename_i hahead
    have hne : w.tip ≠ (w.worktree unit).head := fun heq => hnew (heq ▸ hd.git.self w.tip htip)
    let m : Moved Mover String := ⟨some (unit, f.attempt), w.tip, (w.worktree unit).head⟩
    refine sound_toStage (hd.move (m := m) rfl (hd.heads unit).1 hahead hne) (hp.move m) ?_
    exact hmoved.move m
  · have hrow := emitRow_type w mint "tip-moved" statusIntegrateTipMoved unit f
      [("run_tip", .str preMerge), ("unit_tip", .str commit)]
    split
    · exact sound_depart (hd.log hrow) (hp.log hrow)
    · have hlooping : ({ f with stage := .looping } : Flight).Sound w.toDurable unit := hf.go nofun
      exact sound_toStage (hd.log hrow) (hp.log hrow) (hlooping.log hrow)

end

/-! ## A red gate -/

section
variable {w : World} {p : Process} {unit : String} {f : Flight}
  {preMerge commit : String} {attempt : Nat}

/-- The run branch stood at the commit a red gate resets it to, and the unit moved it since. -/
theorem clear_split (hd : w.toDurable.Sound) (hon : onBranch w unit attempt commit = true)
    (halone : alone w unit attempt preMerge = true) :
    Chained w.git w.base (movesTo preMerge w.moves) preMerge ∧
      Chained w.git preMerge (movesSince preMerge w.moves) w.tip ∧
      (∀ m ∈ movesTo preMerge w.moves, m.who ≠ some (unit, attempt)) ∧
      ∀ m ∈ movesSince preMerge w.moves, m.who = some (unit, attempt) := by
  unfold alone at halone
  rw [Bool.and_eq_true, List.all_eq_true, List.all_eq_true] at halone
  obtain ⟨hto, hsince⟩ := halone
  have hother : ∀ m ∈ movesTo preMerge w.moves, m.who ≠ some (unit, attempt) := fun m hm => by
    simpa using hto m hm
  have hown : ∀ m ∈ movesSince preMerge w.moves, m.who = some (unit, attempt) := fun m hm => by
    simpa using hsince m hm
  -- the landing the gates spoke of is one of the later moves
  unfold onBranch at hon
  obtain ⟨m, hm, hlanded⟩ := List.any_eq_true.1 hon
  rw [Bool.and_eq_true, beq_iff_eq] at hlanded
  have hlater : m ∈ movesSince preMerge w.moves := by
    rw [← movesTo_append_movesSince preMerge w.moves, List.mem_append] at hm
    exact hm.resolve_left fun hm => hother m hm hlanded.1
  obtain ⟨hbefore, hafter⟩ := hd.chain.split (List.ne_nil_of_mem hlater)
  exact ⟨hbefore, hafter, hother, hown⟩

theorem Durable.Sound.reset (hd : w.toDurable.Sound)
    (hchain : Chained w.git w.base (movesTo preMerge w.moves) preMerge)
    (hown : ∀ m ∈ movesSince preMerge w.moves, m.who = some (unit, attempt))
    (hfree : ∀ commit, ¬Standing w.log unit commit) :
    ({ w.toDurable with tip := preMerge, moves := movesTo preMerge w.moves } : Durable).Sound where
  git := hd.git
  named := hd.named
  base := hd.base
  chain := hchain
  heads := hd.heads
  stand := fun other commit hstanding => by
    obtain ⟨m, hm, htarget, howner⟩ := hd.stand other commit hstanding
    refine ⟨m, ?_, htarget, howner⟩
    rw [← movesTo_append_movesSince preMerge w.moves, List.mem_append] at hm
    refine hm.resolve_right fun hm => ?_
    have hwho := hown m hm
    rcases howner with hnone | ⟨n, hsome⟩
    · exact nomatch hnone.symm.trans hwho
    · obtain ⟨rfl, -⟩ := Prod.mk.inj (Option.some.inj (hsome.symm.trans hwho))
      exact hfree commit hstanding

theorem Flight.Sound.reset {other : String} {g : Flight} (hg : g.Sound w.toDurable other)
    (hother : other ≠ unit) (hown : ∀ m ∈ movesSince preMerge w.moves,
      m.who = some (unit, attempt)) :
    g.Sound { w.toDurable with tip := preMerge, moves := movesTo preMerge w.moves } other := by
  refine hg.mono (List.Subset.refl _) (fun _ hstanding => hstanding) fun m hm hwho => ?_
  rw [← movesTo_append_movesSince preMerge w.moves, List.mem_append] at hm
  refine hm.resolve_right fun hm => hother ?_
  exact (Prod.mk.inj (Option.some.inj (hwho.symm.trans (hown m hm)))).1

/-- A gate that has spoken of a clear landing keeps the invariant, and a red one takes off what the
unit landed alone. -/
theorem sound_regate (hd : w.toDurable.Sound) (hp : p.Sound w.toDurable)
    (hf : f.Sound w.toDurable unit) {pass : Bool} (hon : onBranch w unit f.attempt commit = true)
    (halone : pass = false → alone w unit f.attempt preMerge = true) :
    (w.regate p unit f preMerge commit pass).Sound := by
  unfold World.regate
  split
  · refine sound_toStage hd (hp.setLock none) (hf.toStage fun other heq _ => ?_)
    cases heq
    unfold onBranch at hon
    obtain ⟨m, hm, hlanded⟩ := List.any_eq_true.1 hon
    rw [Bool.and_eq_true, beq_iff_eq, beq_iff_eq] at hlanded
    exact ⟨m, hm, hlanded⟩
  · rename_i hred
    obtain ⟨hbefore, -, -, hown⟩ := clear_split hd hon (halone (by simpa using hred))
    have hne : preMerge ≠ "" := fun heq => hd.named (heq ▸ hbefore.made hd.base)
    unfold World.resetTo
    rw [if_neg hne]
    exact
      { durable := hd.reset hbefore hown hf.free
        proc := fun q hq other g hg => by
          cases hq
          change Function.update p.flights unit _ other = some g at hg
          by_cases heq : other = unit
          · subst heq
            rw [Function.update_self] at hg
            cases hg
            exact ⟨hf.saved, hf.free, nofun⟩
          · rw [Function.update_of_ne heq] at hg
            exact (hp other g hg).reset heq hown }

theorem exact_regate (hd : w.toDurable.Sound) (hon : onBranch w unit f.attempt commit = true)
    (halone : alone w unit f.attempt preMerge = true) :
    Exact w (w.regate p unit f preMerge commit false) (some (unit, f.attempt)) := by
  obtain ⟨hbefore, hafter, hother, hown⟩ := clear_split hd hon halone
  have hne : preMerge ≠ "" := fun heq => hd.named (heq ▸ hbefore.made hd.base)
  have hreset : w.regate p unit f preMerge commit false = World.toStage
      { w with tip := preMerge, moves := movesTo preMerge w.moves } p unit f .rolledBack := by
    show (w.resetTo preMerge).toStage p unit f .rolledBack = _
    rw [World.resetTo, if_neg hne]
  rw [hreset]
  intro x
  have hmem := hbefore.mem_past_iff_of_last hd.git hd.base hafter hown hother x
  rw [movesTo_append_movesSince] at hmem
  exact hmem

end

/-! ## The other steps -/

section
variable {w : World} {unit : String}

theorem integratedEvent_reads {mint : Mint} {commit other c : String}
    (h : c ∈ integratedCommits [World.integratedEvent mint unit commit] other) :
    other = unit ∧ c = commit := by
  obtain ⟨-, hid, hcommit⟩ := mem_integratedCommits_singleton h
  constructor
  · rw [bodyId, World.integratedEvent, eventWithMeta_data] at hid
    exact (Option.some.inj hid).symm
  · rw [commitsOf, World.integratedEvent, eventWithMeta_data] at hcommit
    exact List.mem_singleton.1 hcommit

variable {p : Process} {sha : String}

/-- The commit a unit is integrated with is one the run branch moved to for it. -/
theorem sound_integrate {commit : String} {f : Flight} (hd : w.toDurable.Sound)
    (hp : p.Sound w.toDurable) (hf : f.Sound w.toDurable unit) (hstage : f.stage = .passed commit)
    (mint : Mint) :
    (World.depart { w with log := w.log ++ [World.integratedEvent mint unit commit] }
      p unit).Sound where
  durable :=
    { git := hd.git
      named := hd.named
      base := hd.base
      chain := hd.chain
      heads := hd.heads
      stand := fun other c hstanding => by
        rcases standing_append hstanding with hold | hnew
        · exact hd.stand other c hold
        · obtain ⟨rfl, rfl⟩ := integratedEvent_reads hnew
          obtain ⟨m, hm, hwho, htarget⟩ := hf.passed c hstage hstanding.2.1
          exact ⟨m, hm, htarget, .inr ⟨f.attempt, hwho⟩⟩ }
  proc := fun q hq other g hg => by
    cases hq
    change Function.update p.flights unit none other = some g at hg
    by_cases heq : other = unit
    · rw [heq, Function.update_self] at hg
      cases hg
    · rw [Function.update_of_ne heq] at hg
      refine (hp other g hg).mono (List.Subset.refl _) (fun c hstanding => ?_) fun _ hm _ => hm
      exact (standing_append hstanding).resolve_right fun hnew => heq (integratedEvent_reads hnew).1

theorem sound_unwind {f : Flight} (hd : w.toDurable.Sound) (hp : p.Sound w.toDurable)
    (hf : f.Sound w.toDurable unit) :
    (World.depart { w with
      worktree := Function.update w.worktree unit ⟨f.unitHeadBeforeMerge, none⟩ } p unit).Sound :=
  sound_depart (hd.worktree hf.saved nofun) (hp.worktree _)

/-- The rest of the run integrates a unit that is not in its call, in commits of the run branch's
own. -/
theorem sound_record (h : w.Sound) {e : Event} (hrecord : w.recordable e = true) :
    World.Sound { w with log := w.log ++ [e] } := by
  have hnew : ∀ unit commit, commit ∈ integratedCommits [e] unit → w.flightOf unit = none ∧
      (commit ≠ "" → commit ≠ reviewOnlyNoArtifact →
        ∃ m ∈ w.moves, m.who = none ∧ m.target = commit) := by
    intro unit commit hcommit
    obtain ⟨htype, hid, hmem⟩ := mem_integratedCommits_singleton hcommit
    unfold World.recordable at hrecord
    rw [htype, hid] at hrecord
    simp only [bne_self_eq_false, Bool.false_or, Option.all_some, Bool.and_eq_true,
      Option.isNone_iff_eq_none, List.all_eq_true, Bool.or_eq_true, List.any_eq_true,
      beq_iff_eq] at hrecord
    obtain ⟨hflight, hcommits⟩ := hrecord
    refine ⟨hflight, fun hne hmarker => ?_⟩
    rcases hcommits commit hmem with (hempty | hreview) | ⟨m, hm, hwho, htarget⟩
    · exact absurd (String.isEmpty_iff.1 hempty) hne
    · exact absurd hreview hmarker
    · exact ⟨m, hm, hwho, htarget⟩
  refine ⟨⟨h.durable.git, h.durable.named, h.durable.base, h.durable.chain, h.durable.heads, ?_⟩,
    ?_⟩
  · intro unit commit hstanding
    rcases standing_append hstanding with hold | hcommit
    · exact h.durable.stand unit commit hold
    · obtain ⟨-, hmove⟩ := hnew unit commit hcommit
      obtain ⟨m, hm, hwho, htarget⟩ := hmove hstanding.2.1 hstanding.2.2.1
      exact ⟨m, hm, htarget, .inl hwho⟩
  · intro p hp unit f hf
    refine (h.proc p hp unit f hf).mono (List.Subset.refl _) (fun commit hstanding => ?_)
      fun _ hm _ => hm
    refine (standing_append hstanding).resolve_right fun hcommit => ?_
    have hnone := (hnew unit commit hcommit).1
    rw [World.flightOf, show w.proc = some p from hp, Option.bind_some, hf] at hnone
    cases hnone

theorem sound_worktree (h : w.Sound) {head : String} {mergeHead : Option String}
    (hhead : head ∈ w.git.made) (hmerge : ∀ parent ∈ mergeHead, parent ∈ w.git.made) :
    World.Sound { w with worktree := Function.update w.worktree unit ⟨head, mergeHead⟩ } :=
  ⟨h.durable.worktree hhead hmerge, fun p hp => (h.proc p hp).worktree _⟩

theorem sound_commit (h : w.Sound) {parents : List String}
    (hfresh : (sha ≠ "" && !w.git.made.contains sha) = true)
    (hparents : ∀ p ∈ parents, p ∈ w.git.made) {worktree : String → Worktree}
    (hheads : ∀ unit, worktree unit = w.worktree unit ∨ worktree unit = ⟨sha, none⟩) :
    World.Sound { w with git := w.git.commit sha parents, worktree := worktree } := by
  obtain ⟨hnamed, hsha⟩ := fresh_iff.1 hfresh
  exact ⟨h.durable.commit hnamed hsha hparents hheads, fun p hp => (h.proc p hp).commit sha _ _⟩

theorem sound_outside (h : w.Sound) (hfresh : (sha ≠ "" && !w.git.made.contains sha) = true) :
    World.Sound
      { w with
        git := w.git.commit sha [w.tip]
        tip := sha
        moves := w.moves ++ [⟨none, w.tip, sha⟩] } := by
  have htip : w.tip ∈ w.git.made := h.durable.chain.made h.durable.base
  have hparents : ∀ p ∈ [w.tip], p ∈ w.git.made := fun p hp => List.mem_singleton.1 hp ▸ htip
  have hcommit : World.Sound { w with git := w.git.commit sha [w.tip], worktree := w.worktree } :=
    sound_commit h hfresh hparents fun _ => .inl rfl
  let m : Moved Mover String := ⟨none, w.tip, sha⟩
  have hpast : w.tip ∈ (w.git.commit sha [w.tip]).past sha := by
    rw [History.past_commit_self]
    exact List.mem_cons_of_mem _ (List.mem_flatMap.2 ⟨w.tip, by simp, h.durable.git.self _ htip⟩)
  have hne : w.tip ≠ sha := fun heq => (fresh_iff.1 hfresh).2 (heq ▸ htip)
  exact
    { durable := hcommit.durable.move (m := m) rfl List.mem_cons_self hpast hne
      proc := fun p hp => (hcommit.proc p hp).move m }

/-- The run branch and what stands on it are kept by every step whose red gate is clear. -/
theorem step_sound (h : w.Sound) (a : Action) (hclear : Clear w a) : (w.step a).Sound := by
  unfold World.step
  split
  case h_1 =>
    -- a process starts, with no call in flight
    exact ⟨h.durable, fun p hp => by cases hp; exact fun _ _ hf => nomatch hf⟩
  case h_2 => exact ⟨h.durable, fun p hp => nomatch hp⟩
  case h_3 e =>
    split
    · rename_i hrecord
      exact sound_record h hrecord
    · exact h
  case h_4 sha =>
    split
    · rename_i hfresh
      exact sound_outside h hfresh
    · exact h
  case h_5 unit =>
    split
    · exact sound_worktree h (h.durable.chain.made h.durable.base) nofun
    · exact h
  case h_6 unit sha =>
    dsimp only
    split
    · rename_i hfree
      rw [Bool.and_assoc, Bool.and_eq_true] at hfree
      obtain ⟨hhead, hmerging⟩ := h.durable.heads unit
      refine sound_commit h hfree.2 (fun parent hparent => ?_) (update_worktree w.worktree unit _)
      rcases List.mem_cons.1 hparent with rfl | hparent
      · exact hhead
      · exact hmerging parent (Option.mem_toList.1 hparent)
    · exact h
  case h_7 unit attempt mint changed owed p hproc =>
    split
    · rename_i hentry
      rw [Bool.and_eq_true, Bool.not_eq_true'] at hentry
      exact sound_enter h.durable (h.proc p hproc) hentry.2 attempt mint changed owed
    · exact h
  case h_8 unit mint p hproc =>
    split
    · rename_i attempt pass head taken hf
      split
      · have hsound : (⟨attempt, pass, head, .looping⟩ : Flight).Sound w.toDurable unit :=
          (h.proc p hproc _ _ hf).go nofun
        exact sound_lock h.durable (h.proc p hproc) hsound mint _
      · exact h
    · exact h
  case h_9 unit p hproc =>
    split
    · rename_i attempt pass head hf
      split
      · have hsound := h.proc p hproc _ _ hf
        have hmerging : (⟨attempt, pass + 1, head, .merging w.tip⟩ : Flight).Sound
            w.toDurable unit :=
          ⟨hsound.saved, hsound.free, nofun⟩
        exact sound_toStage (f := ⟨attempt, pass + 1, head, .looping⟩) h.durable
          ((h.proc p hproc).setLock (some unit)) hmerging
      · exact h
    · exact h
  case h_10 unit conflict sha p hproc =>
    split
    · rename_i f hf
      split
      · exact sound_merge h (h.proc p hproc) (h.proc p hproc unit f hf) _ conflict sha
      · exact h
    · exact h
  case h_11 unit mint p hproc =>
    split
    · rename_i f hf
      split
      · rename_i commit preMerge _
        have hrow := emitRow_type w mint "landing-intent" statusIntegrateLandingIntent unit f
          [("unit_tip", .str commit), ("run_tip", .str preMerge)]
        have hintended : ({ f with stage := .intended commit preMerge } : Flight).Sound
            w.toDurable unit := (h.proc p hproc unit f hf).go nofun
        exact sound_toStage (h.durable.log hrow) ((h.proc p hproc).log hrow) (hintended.log hrow)
      · exact h
    · exact h
  case h_12 unit mint p hproc =>
    split
    · rename_i f hf
      split
      · exact sound_land h.durable (h.proc p hproc) (h.proc p hproc unit f hf) mint _ _
      · exact h
    · exact h
  case h_13 unit mint p hproc =>
    split
    · rename_i f hf
      split
      · rename_i commit preMerge _
        obtain ⟨hd, hp⟩ := sound_recordLandedRow h.durable (h.proc p hproc) mint unit f f.pass
          commit preMerge
        have hlanded : ({ f with stage := .landed commit preMerge } : Flight).Sound
            w.toDurable unit := (h.proc p hproc unit f hf).go nofun
        exact sound_toStage hd hp (hlanded.recordLandedRow p mint f f.pass commit preMerge)
      · exact h
    · exact h
  case h_14 unit owed p hproc =>
    split
    · rename_i f hf
      split
      · split
        · exact sound_toStage h.durable ((h.proc p hproc).setLock none)
            ((h.proc p hproc unit f hf).go nofun)
        · exact sound_finish h.durable (h.proc p hproc) (h.proc p hproc unit f hf) _ _
      · exact h
    · exact h
  case h_15 unit pass p hproc =>
    split
    · rename_i f hf
      split
      · rename_i commit preMerge hstage
        have hflight : w.flightOf unit = some f := by
          rw [World.flightOf, hproc]
          exact hf
        have hgate : ClearGate w unit pass f := hclear f hflight
        unfold ClearGate at hgate
        rw [hstage] at hgate
        exact sound_regate h.durable (h.proc p hproc) (h.proc p hproc unit f hf) hgate.1 hgate.2
      · exact h
    · exact h
  case h_16 unit p hproc =>
    split
    · rename_i f hf
      split
      · exact sound_unwind h.durable (h.proc p hproc) (h.proc p hproc unit f hf)
      · exact sound_unwind h.durable (h.proc p hproc) (h.proc p hproc unit f hf)
      · exact h
    · exact h
  case h_17 unit p hproc => exact sound_depart h.durable (h.proc p hproc)
  case h_18 unit mint p hproc =>
    split
    · rename_i f hf
      split
      · rename_i commit hstage
        exact sound_integrate h.durable (h.proc p hproc) (h.proc p hproc unit f hf) hstage mint
      · exact h
    · exact h
  case h_19 => exact h

/-- A rollback under a clear gate takes off what its unit landed, and nothing else. -/
theorem step_exact (h : w.Sound) (a : Action) (hclear : Clear w a) : ExactRollback w a := by
  intro unit attempt commit preMerge hrolls
  unfold rollsBack at hrolls
  split at hrolls
  · obtain ⟨f, hflight, hstage⟩ := Option.bind_eq_some_iff.1 hrolls
    split at hstage
    · rename_i hregating
      cases hstage
      have hgate : ClearGate w unit false f := hclear f hflight
      unfold ClearGate at hgate
      rw [hregating] at hgate
      obtain ⟨p, hproc, hf⟩ := Option.bind_eq_some_iff.1 hflight
      have hstep : w.step (.regate unit false) = w.regate p unit f preMerge commit false := by
        simp only [World.step, hproc, hf, hregating]
      rw [hstep]
      exact exact_regate h.durable hgate.1 (hgate.2 rfl)
    · cases hstage
  · cases hrolls

end

theorem sound_new {base : String} (hbase : base ≠ "") : (World.new base).Sound where
  durable :=
    { git := History.sound_root base
      named := by simpa [World.new, History.root] using hbase.symm
      base := List.mem_singleton_self base
      chain := rfl
      heads := fun _ => ⟨List.mem_singleton_self base, nofun⟩
      stand := fun _ _ hstanding => nomatch hstanding.1 }
  proc := nofun

/-- In a run whose gates speak of landings that are on the run branch, and whose red ones find only
their unit's landings since the commit they reset to, no landed work is lost. -/
theorem landed_kept (base : String) (hbase : base ≠ "") (actions : List Action)
    (h : Along World.step Clear (World.new base) actions) :
    Kept (run World.step (World.new base) actions) ∧
      Along World.step ExactRollback (World.new base) actions := by
  have hstep : ∀ w a, Clear w a → w.Sound → (World.step w a).Sound :=
    fun _ a hclear hsound => step_sound hsound a hclear
  constructor
  · exact (run_invariant_along hstep h (sound_new hbase)).kept
  · exact along_of_invariant hstep (fun _ a hclear hsound => step_exact hsound a hclear) h
      (sound_new hbase)

/-- A unit's landing at its first attempt, up to its row. -/
def landing (unit sha : String) : List Action :=
  let mint : Mint := ("", 0)
  [.enter unit 0 mint true false, .lock unit mint, .pass unit, .merge unit false sha,
    .intend unit mint, .land unit mint, .recordLanded unit mint]

/-- A landing whose gate is red and is rolled back, and another unit's that is integrated. -/
def redThenGreen : List Action :=
  let mint : Mint := ("", 0)
  [.start, .work "a" "a1", .work "b" "b1"] ++ landing "a" "" ++
    [.settle "a" false, .regate "a" false, .unwind "a"] ++ landing "b" "" ++
    [.settle "b" false, .regate "b" true, .integrate "b" mint]

theorem redThenGreen_kept : Kept (run World.step (World.new "r0") redThenGreen) ∧
    Along World.step ExactRollback (World.new "r0") redThenGreen :=
  landed_kept "r0" (by decide) redThenGreen (by decide +kernel)

/-- The process crashes before it gates the landing of `a`.  In the next one `b` lands on top of it
and is integrated, before `a` takes its recorded landing and gates it red. -/
def resumedUnder : List Action :=
  let mint : Mint := ("", 0)
  [.start, .work "a" "a1", .work "b" "b1"] ++ landing "a" "" ++ [.crash, .start] ++
    landing "b" "b2" ++ [.settle "b" false, .regate "b" true, .integrate "b" mint,
      .enter "a" 0 mint false false, .lock "a" mint, .regate "a" false]

theorem landed_lost : ¬(Kept (run World.step (World.new "r0") resumedUnder) ∧
    Along World.step ExactRollback (World.new "r0") resumedUnder) := by
  rintro ⟨hkept, -⟩
  have hstands : Standing (run World.step (World.new "r0") resumedUnder).log "b" "b2" := by
    decide +kernel
  have hlost : "b2" ∉ (run World.step (World.new "r0") resumedUnder).git.past
      (run World.step (World.new "r0") resumedUnder).tip := by decide +kernel
  exact hlost (hkept "b" "b2" hstands)

end Rigger.Conductor.Integrate
